/-
An import as a whole: what its preparation opens, what every state of its run
has, and what its end has done. Every byte is written to its destination once;
within a stream the reads are in order, the writes need not be.
-/
import HeteroSim.Transfer.Exact
import HeteroSim.Transfer.Streaming

namespace HeteroSim.Transfer

variable {W S : Type} {P : Platform W S} {cfg : Config} {locate : Locate W} {imp start : Import} {s t : Executor W}

/-! ## The groups of the rows -/

theorem addToStream_flatten (streams : Dict String (List ℕ)) (row : Row) (index : ℕ) :
    (addToStream streams row index).values.flatten.Perm (index :: streams.values.flatten) := by
  unfold addToStream
  cases hget : streams.get? row.componentId with
  | some places =>
    have hinsert : (streams.insert row.componentId (places ++ [index])).get? row.componentId = some (places ++ [index]) := by
      rw [Dict.get?_insert, if_pos rfl]
    have hperm := (Dict.values_perm hinsert).flatten
    rw [Dict.erase_insert, List.flatten_cons] at hperm
    have hold := (Dict.values_perm hget).flatten
    rw [List.flatten_cons] at hold
    refine hperm.trans ?_
    refine ((List.perm_append_singleton index places).append_right _).trans ?_
    exact (hold.cons index).symm
  | none =>
    have hnew := Dict.get?_eq_none.1 hget
    have hvalues : (streams.insert row.componentId ([] ++ [index])).values = streams.values ++ [[index]] := by
      rw [Dict.values, Dict.items_insert_of_not_mem hnew, List.map_append]
      rfl
    change (streams.insert row.componentId ([] ++ [index])).values.flatten.Perm _
    rw [hvalues, List.flatten_append]
    exact List.perm_append_singleton index _

/-- **The groups of the rows** have every row's place once. -/
theorem streamRows_flatten : ∀ (rows : List Row) (index : ℕ) (streams : Dict String (List ℕ)),
    (streamRows rows index streams).values.flatten.Perm (streams.values.flatten ++ List.range' index rows.length)
  | [], _, streams => by simp [streamRows]
  | row :: rows, index, streams => by
    rw [streamRows]
    refine (streamRows_flatten rows (index + 1) _).trans ?_
    refine ((addToStream_flatten streams row index).append_right _).trans ?_
    rw [List.length_cons, List.range'_succ]
    exact List.perm_middle.symm

/-- A row is its destination, accepted. -/
structure Row.Of (row : Row) (d : Destination) : Prop where
  componentId : row.componentId = d.componentId
  bufferId : row.bufferId = d.bufferId
  offsetBytes : (row.offsetBytes : ℤ) = d.offsetBytes
  sizeBytes : (row.sizeBytes : ℤ) = d.sizeBytes
  generation : row.generation = d.generation
  mirror : row.mirror = d.mirror

theorem acceptDestination_ok {d : Destination} {row : Row} (h : acceptDestination cfg locate d s = .ok row t) : row.Of d := by
  unfold acceptDestination at h
  obtain ⟨row', u₁, h₁, hcall₁⟩ := bind_eq_ok h
  obtain ⟨service, u₂, h₂, hcall₂⟩ := bind_eq_ok hcall₁
  obtain ⟨u, u₃, h₃, hcall₃⟩ := bind_eq_ok hcall₂
  obtain ⟨address, u₄, h₄, hcall₄⟩ := bind_eq_ok hcall₃
  cases hcall₄
  have hrow := (raise_eq_ok h₁).1
  unfold Destination.row at hrow
  split at hrow
  · cases hrow
  · next hvalid =>
    cases hrow
    simp only [not_or] at hvalid
    exact ⟨rfl, rfl, Int.toNat_of_nonneg (by omega), Int.toNat_of_nonneg (by omega), rfl, rfl⟩

theorem acceptDestinations_ok : ∀ {ds : List Destination} {rows : List Row} {s t : Executor W},
    acceptDestinations cfg locate ds s = .ok rows t → List.Forall₂ (fun d row => row.Of d) ds rows
  | [], _, _, _, h => by
    cases h
    exact .nil
  | d :: ds, rows, s, t, h => by
    rw [acceptDestinations] at h
    obtain ⟨row, u₁, h₁, hcall₁⟩ := bind_eq_ok h
    obtain ⟨rest, u₂, h₂, hcall₂⟩ := bind_eq_ok hcall₁
    cases hcall₂
    exact .cons (acceptDestination_ok h₁) (acceptDestinations_ok h₂)

/-! ## The start of an import -/

theorem mem_dealtSlots {k slots n slot : ℕ} (hn : 0 < n) :
    slot ∈ dealtSlots k slots n ↔ ∃ i, i * n < slots - k ∧ slot = k + n * i := by
  rw [dealtSlots, List.mem_range']
  have hdiv : ∀ i, i < (slots - k + n - 1) / n ↔ i * n < slots - k := by
    intro i
    rw [Nat.lt_div_iff_mul_lt hn]
    omega
  simp only [hdiv]

theorem dealtSlots_mod {k slots n slot : ℕ} (hk : k < n) (h : slot ∈ dealtSlots k slots n) :
    slot % n = k ∧ slot < slots := by
  obtain ⟨i, hi, rfl⟩ := (mem_dealtSlots (by omega)).1 h
  refine ⟨by rw [Nat.add_mul_mod_self_left, Nat.mod_eq_of_lt hk], ?_⟩
  rw [Nat.mul_comm] at hi
  omega

theorem self_mem_dealtSlots {k slots n : ℕ} (hk : k < n) (hslots : k < slots) : k ∈ dealtSlots k slots n :=
  (mem_dealtSlots (by omega)).2 ⟨0, by omega, by simp⟩

section

variable {setup : ImportSetup} {groups : List (List ℕ)}

theorem open_streamAt {k : ℕ} (hk : k < groups.length) : (Import.open setup groups).streamAt k =
    ⟨groups.getD k [], 0, 0, dealtSlots k setup.slotCount groups.length⟩ := by
  rw [Import.streamAt]
  change (((List.range groups.length).map _)[k]?).getD _ = _
  rw [List.getElem?_map, List.getElem?_range hk]
  rfl

theorem open_length : (Import.open setup groups).streams.length = groups.length := by
  change ((List.range groups.length).map _).length = _
  rw [List.length_map, List.length_range]

theorem open_rows : (Import.open setup groups).streams.flatMap ImportStream.rows = groups.flatten := by
  have hgroups : (List.range groups.length).map (fun k => groups.getD k []) = groups := by
    refine List.ext_getElem (by simp) fun k h₁ h₂ => ?_
    simp [List.getD_eq_getElem?_getD, h₂]
  change ((List.range groups.length).map _).flatMap ImportStream.rows = _
  rw [List.flatMap_map, List.flatMap_def]
  exact congrArg List.flatten hgroups

theorem open_free : (Import.open setup groups).streams.flatMap ImportStream.free =
    (List.range groups.length).flatMap fun k => dealtSlots k setup.slotCount groups.length := by
  change ((List.range groups.length).map _).flatMap ImportStream.free = _
  rw [List.flatMap_map]

theorem open_free_nodup : ((Import.open setup groups).streams.flatMap ImportStream.free).Nodup := by
  rw [open_free, List.nodup_flatMap]
  refine ⟨fun k hk => List.nodup_range' groups.length (by have := List.mem_range.1 hk; omega), ?_⟩
  refine List.Pairwise.imp_of_mem ?_ List.nodup_range
  intro j k hj hk hne slot hslot hslot'
  exact hne ((dealtSlots_mod (List.mem_range.1 hj) hslot).1.symm.trans (dealtSlots_mod (List.mem_range.1 hk) hslot').1)

/-- There are no more free slots than slots. -/
theorem open_freeCount : freeCount (Import.open setup groups) ≤ setup.slotCount := by
  have hsub : (Import.open setup groups).streams.flatMap ImportStream.free ⊆ List.range setup.slotCount := by
    intro slot hslot
    rw [open_free] at hslot
    obtain ⟨k, hk, hslot⟩ := List.mem_flatMap.1 hslot
    exact List.mem_range.2 (dealtSlots_mod (List.mem_range.1 hk) hslot).2
  have := (List.subperm_of_subset open_free_nodup hsub).length_le
  rwa [List.length_range] at this

/-- **An import starts** as it goes on. -/
theorem open_running (hchunk : 0 < setup.chunkBytes) (hpos : 0 < groups.length)
    (hrows : groups.flatten.Perm (List.range setup.destinations.length)) :
    Running P locate setup.startNs (Import.open setup groups) where
  ledger := ⟨.nil, fun e he => (by cases he), .nil, fun id hid => (by cases hid), fun id chunk hget => (by cases hget),
    fun id hid => absurd hid (Nat.not_lt_zero id), fun a ha => (by cases ha)⟩
  slots := by
    refine ⟨?_, fun k slot hmem => ?_, fun a ha => (by cases ha), fun pre b post hcut => ?_⟩
    · change (_ ++ []).Nodup
      rw [List.append_nil]
      exact open_free_nodup
    · by_cases hk : k < groups.length
      · rw [open_streamAt hk] at hmem
        rw [open_length]
        exact (dealtSlots_mod hk hmem).1
      · rw [streamAt_of_le (open_length ▸ Nat.le_of_not_lt hk)] at hmem
        cases hmem
    · change [] = pre ++ b :: post at hcut
      simp at hcut
  flow := by
    have hahead : ∀ stream ∈ (Import.open setup groups).streams, stream.ahead setup = rowsPieces setup stream.rows := by
      intro stream hmem
      obtain ⟨k, -, rfl⟩ := List.mem_map.1 hmem
      simp only [ImportStream.ahead, List.drop_zero]
      cases groups.getD k [] with
      | nil => rfl
      | cons place places => rfl
    refine ⟨hchunk, fun stream hmem => ?_, fun k => ?_, ?_⟩
    · refine ⟨fun place hplace => ?_, fun place row _ _ => ?_⟩
      · have hin : place ∈ (Import.open setup groups).streams.flatMap ImportStream.rows :=
          List.mem_flatMap.2 ⟨stream, hmem, hplace⟩
        rw [open_rows] at hin
        exact List.mem_range.1 (hrows.mem_iff.1 hin)
      · obtain ⟨k, -, rfl⟩ := List.mem_map.1 hmem
        exact row.size_pos
    · change [] ++ _ = _
      rw [List.nil_append]
      by_cases hk : k < groups.length
      · exact hahead _ (streamAt_mem (open_length ▸ hk))
      · rw [streamAt_of_le (open_length ▸ Nat.le_of_not_lt hk)]
        rfl
    · change ([] ++ [] ++ _).Perm _
      rw [List.nil_append, List.nil_append]
      exact List.Perm.of_eq (List.flatMap_congr hahead)
  counted := ⟨rfl, fun a ha => (by cases ha), .inr ⟨rfl, rfl⟩⟩
  kept := by
    intro k hk slot hslot
    have hlt := lt_of_unstarted hk
    rw [open_length] at hlt hslot
    rw [open_streamAt hlt]
    exact .inl hslot
  streams_pos := open_length ▸ hpos

theorem open_dealt {clock : ℚ} {fuel : ℕ} (hon : OnTime P)
    (hdeal : dealSlots P cfg locate clock fuel (Import.open setup groups) s = .ok imp t) (hclock : setup.startNs = clock)
    (hfuel : setup.slotCount + 1 = fuel) (hchunk : 0 < setup.chunkBytes) (hpos : 0 < groups.length)
    (hrows : groups.flatten.Perm (List.range setup.destinations.length)) :
    Running P locate clock imp ∧ SameImport (Import.open setup groups) imp ∧ imp.done = false ∧
      ∀ k, Settled imp k := by
  subst hclock hfuel
  exact dealSlots_ok hon (open_running hchunk hpos hrows) le_rfl (Nat.lt_succ_of_le open_freeCount) hdeal

end

/-- What a preparation that returns has made. -/
structure Prepared (P : Platform W S) (locate : Locate W) (request : ImportRequest) (imp : Import) : Prop where
  running : ∃ clock, Running P locate clock imp
  shown : Shown imp
  settled : ∀ k, Settled imp k
  slots : imp.streams.length ≤ imp.setup.slotCount
  rows : (imp.streams.flatMap ImportStream.rows).Perm (List.range imp.setup.destinations.length)
  destinations : List.Forall₂ (fun d row => Row.Of row d) request.destinations imp.setup.destinations
  destinations_pos : imp.setup.destinations ≠ []

theorem flatMap_rows (imp : Import) : imp.streams.flatMap ImportStream.rows =
    (List.range imp.streams.length).flatMap fun k => (imp.streamAt k).rows := by
  have hstreams : (List.range imp.streams.length).map (fun k => imp.streamAt k) = imp.streams := by
    refine List.ext_getElem (by simp) fun k h₁ h₂ => ?_
    rw [List.getElem_map, List.getElem_range, streamAt_of_lt h₂]
  nth_rewrite 1 [← hstreams]
  rw [List.flatMap_map]

theorem SameImport.flatMap_rows {imp' : Import} (h : SameImport imp imp') :
    imp'.streams.flatMap ImportStream.rows = imp.streams.flatMap ImportStream.rows := by
  rw [Transfer.flatMap_rows, Transfer.flatMap_rows, h.length]
  exact List.flatMap_congr fun k _ => h.rows k

/-- **A preparation that returns** has opened the import and filled its slots. -/
theorem prepareExternalImport_ok {request : ImportRequest} (hon : OnTime P)
    (h : prepareExternalImport P cfg locate request s = .ok imp t) : Prepared P locate request imp := by
  unfold prepareExternalImport at h
  obtain ⟨_, u₁, h₁, hcall₁⟩ := bind_eq_ok h
  obtain ⟨rows, u₂, hrows, hcall₂⟩ := bind_eq_ok hcall₁
  obtain ⟨_, u₃, h₃, hcall₃⟩ := bind_eq_ok hcall₂
  obtain ⟨_, u₄, h₄, hcall₄⟩ := bind_eq_ok hcall₃
  obtain ⟨source, u₅, h₅, hcall₅⟩ := bind_eq_ok hcall₄
  obtain ⟨_, u₆, h₆, hcall₆⟩ := bind_eq_ok hcall₅
  obtain ⟨allocation, u₇, h₇, hcall₇⟩ := bind_eq_ok hcall₆
  obtain ⟨relays, u₈, h₈, hcall₈⟩ := bind_eq_ok hcall₇
  obtain ⟨_, u₉, h₉, hcall₉⟩ := bind_eq_ok hcall₈
  obtain ⟨filled, u₀, hdeal, hplan⟩ := bind_eq_ok hcall₉
  cases hplan
  have hsizes : ¬(request.bufferBytes ≤ 0 ∨ request.chunkBytes ≤ 0 ∨ request.requestId = "") :=
    refuse_eq_ok.1 (raise_eq_ok h₁).1
  have hne : rows ≠ [] := refuse_eq_ok.1 (raise_eq_ok h₃).1
  have hslots := refuse_eq_ok.1 (raise_eq_ok h₄).1
  have hflat : (streamRows rows 0 .empty).values.flatten.Perm (List.range rows.length) := by
    have := streamRows_flatten rows 0 .empty
    rwa [List.range_eq_range']
  have hpos : 0 < (streamRows rows 0 .empty).values.length := by
    refine List.length_pos_iff.2 fun hnil => ?_
    rw [hnil] at hflat
    have := hflat.length_eq
    rw [List.flatten_nil, List.length_range] at this
    exact hne (List.length_eq_zero_iff.1 this.symm)
  have hchunk : 0 < request.chunkBytes.toNat := by omega
  have hdealt := open_dealt hon hdeal
  obtain ⟨hrunning, hsame, hdone, hsettled⟩ := hdealt rfl rfl hchunk hpos hflat
  refine ⟨⟨_, hrunning.planned filled.phase u₀.nextAsyncPhaseToken⟩, ⟨hdone, rfl, rfl⟩, hsettled, ?_, ?_, ?_, ?_⟩
  · change filled.streams.length ≤ filled.setup.slotCount
    rw [hsame.length, hsame.setup, open_length]
    exact Nat.le_of_not_lt hslots
  · change (filled.streams.flatMap ImportStream.rows).Perm (List.range filled.setup.destinations.length)
    rw [hsame.flatMap_rows, hsame.setup, open_rows]
    exact hflat
  · change List.Forall₂ _ request.destinations filled.setup.destinations
    rw [hsame.setup]
    exact acceptDestinations_ok hrows
  · change filled.setup.destinations ≠ []
    rw [hsame.setup]
    exact hne

/-! ## Runs -/

variable (P cfg locate) in
/-- One advance that returned; the executor may have served others in between. -/
def Advances (imp imp' : Import) : Prop := ∃ s t, advanceExternal P cfg locate imp.phaseToken imp s = .ok imp' t

/-- What holds in every state of an import's run. -/
structure InRun (P : Platform W S) (locate : Locate W) (start imp : Import) : Prop where
  running : ∃ clock, Running P locate clock imp
  shown : Shown imp
  settled : ∀ k, Settled imp k
  same : SameImport start imp

theorem InRun.next {imp' : Import} (hon : OnTime P) (h : InRun P locate start imp)
    (hstep : Advances P cfg locate imp imp') : InRun P locate start imp' ∧ work imp' < work imp := by
  obtain ⟨clock, hrunning⟩ := h.running
  obtain ⟨s, t, hcall⟩ := hstep
  obtain ⟨hrunning', hshown, hwork, hsame, hnarrow⟩ := hrunning.advance hon h.shown hcall
  refine ⟨⟨hrunning', hshown, fun k hk => ?_, h.same.trans hsame⟩, hwork⟩
  obtain ⟨hun, hfree⟩ := hnarrow k hk
  exact hfree.trans (h.settled k hun)

theorem Prepared.inRun {request : ImportRequest} (hon : OnTime P) (h : Prepared P locate request start)
    (hrun : Relation.ReflTransGen (Advances P cfg locate) start imp) : InRun P locate start imp := by
  induction hrun with
  | refl => exact ⟨h.running, h.shown, h.settled, .refl start⟩
  | tail _ hstep ih => exact (ih.next hon hstep).1

/-- A chunk as far as it was submitted, action by action. -/
def Submitted (P : Platform W S) (locate : Locate W) (imp : Import) (id : ℕ) (cut : Cut) (actions : List ImportAction)
    (t : ℚ) : Prop :=
  Made P locate imp.setup cut actions ∧ Told id cut actions (chunkLog id imp.log) t

/-- The target write of a byte of a destination. -/
def writesByte (place byte : ℕ) (piece : Piece) : Bool :=
  piece.row = place && covers byte (piece.offset, piece.amount)

/-- What every state of a run shows. -/
structure Streamed (P : Platform W S) (locate : Locate W) (imp : Import) : Prop where
  /-- Each chunk's actions are submitted in order, each at the completion of the one before it. -/
  chunks : ∀ id < imp.nextChunkId, ∃ cut actions t, Submitted P locate imp id cut actions t
  known : ∀ a ∈ imp.log, a.chunk < imp.nextChunkId
  /-- The source reads of a stream are its pieces in order, up to those ahead. -/
  reads : ∀ k, reads k imp.log ++ (imp.streamAt k).ahead imp.setup = rowsPieces imp.setup (imp.streamAt k).rows
  once : ∀ place byte, (targets imp.log).countP (writesByte place byte) ≤ 1
  apart : (heldSlots imp.chunks).Nodup
  /-- A slot's next source read waits for the last completion of the chunk that had it. -/
  exclusive : Exclusive imp.log
  /-- A stream with something ahead has a chunk with a pending event in each of its slots. -/
  busy : ∀ k, (imp.streamAt k).unstarted → k ∈ dealtSlots k imp.setup.slotCount imp.streams.length ∧
    ∀ slot ∈ dealtSlots k imp.setup.slotCount imp.streams.length, ∃ id chunk t, imp.chunks.get? id = some chunk ∧
      chunk.cut.stream = k ∧ chunk.cut.slot = slot ∧ toLex (t, id) ∈ imp.events

/-- What the end of a run shows. -/
structure Finished (P : Platform W S) (locate : Locate W) (request : ImportRequest) (imp : Import) : Prop where
  /-- Every action of every chunk was submitted. -/
  whole : ∀ id < imp.nextChunkId, ∃ cut actions t, Submitted P locate imp id cut actions t ∧
    (chunkLog id imp.log).length = actions.length
  reads : ∀ k, reads k imp.log = rowsPieces imp.setup (imp.streamAt k).rows
  written : ∀ place d, request.destinations[place]? = some d → ∀ byte : ℕ, (byte : ℤ) < d.sizeBytes →
    (targets imp.log).countP (writesByte place byte) = 1
  completion : ∃ a ∈ imp.log, a.completionNs = imp.completionNs ∧ ∀ b ∈ imp.log, b.completionNs ≤ imp.completionNs

/-- A destination byte lies in one of the pieces of its row, and in none of another's. -/
theorem countP_rowPieces {setup : ImportSetup} (hchunk : 0 < setup.chunkBytes) {place : ℕ} {row : Row}
    (hrow : setup.destinations[place]? = some row) (byte p : ℕ) :
    (rowPieces setup p 0).countP (writesByte place byte) = if p = place ∧ byte < row.sizeBytes then 1 else 0 := by
  by_cases hp : p = place
  · subst hp
    rw [rowPieces_of hrow, List.countP_map]
    have hsame : ((writesByte p byte) ∘ fun q : ℕ × ℕ => (⟨p, q.1, q.2⟩ : Piece)) = covers byte := by
      funext q
      simp [writesByte]
    rw [hsame, countP_pieces hchunk]
    simp
  · rw [if_neg (fun h => hp h.1), List.countP_eq_zero]
    intro piece hpiece
    have hplace : piece.row = p := by
      unfold rowPieces at hpiece
      split at hpiece
      · cases hpiece
      · obtain ⟨q, -, rfl⟩ := List.mem_map.1 hpiece
        rfl
    simp [writesByte, hplace, hp]

theorem sum_indicator {l : List ℕ} (hnodup : l.Nodup) (place : ℕ) (c : Prop) [Decidable c] :
    (l.map fun p => if p = place ∧ c then 1 else 0).sum = if place ∈ l ∧ c then 1 else 0 := by
  induction l with
  | nil => simp
  | cons p l ih =>
    obtain ⟨hp, hl⟩ := List.nodup_cons.1 hnodup
    rw [List.map_cons, List.sum_cons, ih hl]
    by_cases hc : c
    · by_cases he : p = place
      · subst he
        simp [hp, hc]
      · simp [he, Ne.symm he, hc]
    · simp [hc]

/-- **All pieces together** have every byte of every destination once. -/
theorem countP_allPieces (hf : Flow imp)
    (hrows : (imp.streams.flatMap ImportStream.rows).Perm (List.range imp.setup.destinations.length)) (place byte : ℕ) :
    (imp.streams.flatMap fun stream => rowsPieces imp.setup stream.rows).countP (writesByte place byte) ≤ 1 ∧
      ∀ row, imp.setup.destinations[place]? = some row → byte < row.sizeBytes →
        (imp.streams.flatMap fun stream => rowsPieces imp.setup stream.rows).countP (writesByte place byte) = 1 := by
  have hflat : (imp.streams.flatMap fun stream => rowsPieces imp.setup stream.rows).Perm
      ((List.range imp.setup.destinations.length).flatMap fun p => rowPieces imp.setup p 0) := by
    have : (imp.streams.flatMap fun stream => rowsPieces imp.setup stream.rows) =
        (imp.streams.flatMap ImportStream.rows).flatMap fun p => rowPieces imp.setup p 0 := List.flatMap_assoc.symm
    rw [this]
    exact hrows.flatMap_right _
  cases hrow : imp.setup.destinations[place]? with
  | none =>
    refine ⟨?_, fun row h => by cases h⟩
    have hzero : (imp.streams.flatMap fun stream => rowsPieces imp.setup stream.rows).countP (writesByte place byte) = 0 := by
      rw [hflat.countP_eq, List.countP_eq_zero]
      intro piece hpiece
      obtain ⟨p, hp, hpiece⟩ := List.mem_flatMap.1 hpiece
      have hplace : piece.row = p := by
        unfold rowPieces at hpiece
        split at hpiece
        · cases hpiece
        · obtain ⟨q, -, rfl⟩ := List.mem_map.1 hpiece
          rfl
      have hne : p ≠ place := by
        intro he
        have := List.mem_range.1 hp
        have := List.getElem?_eq_none_iff.1 hrow
        omega
      simp [writesByte, hplace, hne]
    rw [hzero]
    exact Nat.zero_le 1
  | some row =>
    have hcount : (imp.streams.flatMap fun stream => rowsPieces imp.setup stream.rows).countP (writesByte place byte) =
        if byte < row.sizeBytes then 1 else 0 := by
      rw [hflat.countP_eq, List.countP_flatMap]
      have hmap : (List.countP (writesByte place byte)) ∘ (fun p => rowPieces imp.setup p 0) =
          fun p => if p = place ∧ byte < row.sizeBytes then 1 else 0 :=
        funext fun p => countP_rowPieces hf.chunkBytes hrow byte p
      have hin : place ∈ List.range imp.setup.destinations.length :=
        List.mem_range.2 (List.getElem?_eq_some_iff.1 hrow).1
      rw [hmap, sum_indicator List.nodup_range]
      simp only [hin, true_and]
    rw [hcount]
    refine ⟨by split <;> omega, fun row' h hbyte => ?_⟩
    cases h
    rw [if_pos hbyte]

/-- **Every state of a run.** -/
theorem InRun.streamed {request : ImportRequest} (hprep : Prepared P locate request start)
    (h : InRun P locate start imp) : Streamed P locate imp := by
  obtain ⟨clock, hrunning⟩ := h.running
  have hrows : (imp.streams.flatMap ImportStream.rows).Perm (List.range imp.setup.destinations.length) := by
    rw [h.same.flatMap_rows, h.same.setup]
    exact hprep.rows
  refine ⟨fun id hid => ?_, hrunning.ledger.fresh, hrunning.flow.reads, fun place byte => ?_,
    (List.nodup_append.1 hrunning.slots.apart).2.1, hrunning.slots.exclusive, fun k hk => ⟨?_, fun slot hslot => ?_⟩⟩
  · cases hget : imp.chunks.get? id with
    | some chunk =>
      obtain ⟨hmade, -, t, -, htold⟩ := hrunning.ledger.live id chunk hget
      exact ⟨chunk.cut, chunk.actions, t, hmade, htold⟩
    | none =>
      obtain ⟨cut, actions, t, hmade, htold, -⟩ := hrunning.ledger.ended id hid hget
      exact ⟨cut, actions, t, hmade, htold⟩
  · refine le_trans ?_ (countP_allPieces hrunning.flow hrows place byte).1
    rw [← hrunning.flow.targets.countP_eq, List.countP_append, List.countP_append]
    omega
  · have hlt := lt_of_unstarted hk
    refine self_mem_dealtSlots hlt (hlt.trans_le ?_)
    rw [h.same.length, h.same.setup]
    exact hprep.slots
  · obtain hfree | ⟨id, chunk, hget, hstream, hslot'⟩ := hrunning.kept k hk slot hslot
    · rw [h.settled k hk] at hfree
      cases hfree
    · obtain ⟨-, -, t, ht, -⟩ := hrunning.ledger.live id chunk hget
      exact ⟨id, chunk, t, hget, hstream, hslot', ht⟩

/-- **The end of a run.** -/
theorem InRun.finished {request : ImportRequest} (hprep : Prepared P locate request start)
    (h : InRun P locate start imp) (hfinal : imp.final = true) : Finished P locate request imp := by
  obtain ⟨clock, hrunning⟩ := h.running
  have hstreamed := h.streamed hprep
  have hevents : imp.events = [] := by
    rw [h.shown.final] at hfinal
    exact List.isEmpty_iff.1 hfinal
  have hkeys : imp.chunks.keys = [] := by
    have := hrunning.ledger.pending
    rw [hevents] at this
    exact this.symm.eq_nil
  have hnone : ∀ id, imp.chunks.get? id = none := fun id => Dict.get?_eq_none.2 (by rw [hkeys]; simp)
  have hdone : ∀ k, ¬(imp.streamAt k).unstarted := by
    intro k hk
    obtain ⟨hmem, hall⟩ := hstreamed.busy k hk
    obtain ⟨id, chunk, t, hget, -⟩ := hall k hmem
    rw [hnone] at hget
    cases hget
  have hreads : ∀ k, reads k imp.log = rowsPieces imp.setup (imp.streamAt k).rows := by
    intro k
    have := hrunning.flow.reads k
    rwa [ImportStream.ahead_of_done (hdone k), List.append_nil] at this
  have htargets : (targets imp.log).Perm (imp.streams.flatMap fun stream => rowsPieces imp.setup stream.rows) := by
    have hpending : pendingTargets imp.chunks = [] := by
      have hitems : imp.chunks.items = [] := List.map_eq_nil_iff.1 hkeys
      rw [pendingTargets, Dict.values, hitems]
      rfl
    have hahead : imp.streams.flatMap (ImportStream.ahead imp.setup) = [] := by
      refine List.flatMap_eq_nil_iff.2 fun stream hmem => ?_
      obtain ⟨k, hk, rfl⟩ := List.mem_iff_getElem.1 hmem
      rw [← streamAt_of_lt hk]
      exact ImportStream.ahead_of_done (hdone k)
    have := hrunning.flow.targets
    rwa [hpending, hahead, List.append_nil, List.append_nil] at this
  have hrows : (imp.streams.flatMap ImportStream.rows).Perm (List.range imp.setup.destinations.length) := by
    rw [h.same.flatMap_rows, h.same.setup]
    exact hprep.rows
  have hwritten : ∀ place row, imp.setup.destinations[place]? = some row → ∀ byte, byte < row.sizeBytes →
      (targets imp.log).countP (writesByte place byte) = 1 := by
    intro place row hrow byte hbyte
    rw [htargets.countP_eq]
    exact (countP_allPieces hrunning.flow hrows place byte).2 row hrow hbyte
  refine ⟨fun id hid => ?_, hreads, fun place d hd byte hbyte => ?_, ?_⟩
  · obtain ⟨cut, actions, t, hmade, htold, hwhole, -⟩ := hrunning.ledger.ended id hid (hnone id)
    exact ⟨cut, actions, t, ⟨hmade, htold⟩, hwhole⟩
  · have hdest := hprep.destinations
    rw [← h.same.setup] at hdest
    obtain ⟨hlt, rfl⟩ := List.getElem?_eq_some_iff.1 hd
    have hlt' : place < imp.setup.destinations.length := hdest.length_eq ▸ hlt
    have hof := hdest.get hlt hlt'
    refine hwritten place _ (List.getElem?_eq_getElem hlt') byte ?_
    have := hof.sizeBytes
    simp only [List.get_eq_getElem] at this
    omega
  · have hcompletion : imp.completionNs = imp.submittedUntilNs := by
      rw [h.shown.completion, hevents]
      rfl
    rw [hcompletion]
    obtain ⟨a, ha, heq⟩ | ⟨hnil, -⟩ := hrunning.counted.attained
    · exact ⟨a, ha, heq, hrunning.counted.bound⟩
    · -- the first byte of the first row was written
      have hne : imp.setup.destinations ≠ [] := h.same.setup ▸ hprep.destinations_pos
      obtain ⟨row, rows, hcons⟩ := List.exists_cons_of_ne_nil hne
      have := hwritten 0 row (by rw [hcons]; rfl) 0 row.size_pos
      rw [hnil] at this
      simp [targets] at this

/-- **External imports**: the advances of a plan come to an end, one that raises was refused its submission; in every
state the slots are exclusive, no stream stalls, reads are in order and no byte is written twice; at the end every
action was submitted, every byte was written, and the completion is the latest of all. -/
theorem import_streams {request : ImportRequest} (hon : OnTime P)
    (hprep : prepareExternalImport P cfg locate request s = .ok start t) :
    (∀ f : ℕ → Import, f 0 = start → ¬∀ n, Advances P cfg locate (f n) (f (n + 1))) ∧
    ∀ imp, Relation.ReflTransGen (Advances P cfg locate) start imp →
      Streamed P locate imp ∧ (imp.final = true → Finished P locate request imp) ∧
      ∀ s e t, advanceExternal P cfg locate imp.phaseToken imp s = .error e t →
        imp.final = true ∨ Refused P cfg locate imp s e := by
  have hprepared := prepareExternalImport_ok hon hprep
  refine ⟨fun f hstart hall => ?_, fun imp hrun => ?_⟩
  · have hin : ∀ n, InRun P locate start (f n) := by
      intro n
      induction n with
      | zero =>
        have hrefl : Relation.ReflTransGen (Advances P cfg locate) start start := .refl
        rw [hstart]
        exact hprepared.inRun hon hrefl
      | succ n ih => exact (ih.next hon (hall n)).1
    have hdown : StrictAnti fun n => work (f n) :=
      strictAnti_nat_of_succ_lt fun n => ((hin n).next hon (hall n)).2
    exact not_strictAnti_of_wellFoundedLT _ hdown
  · have hin := hprepared.inRun hon hrun
    obtain ⟨clock, hrunning⟩ := hin.running
    exact ⟨hin.streamed hprepared, hin.finished hprepared, fun s e t hcall => hrunning.refused hin.shown hcall⟩

/-! ## A write that overtakes -/

/-- A platform whose accesses at address 0 take longer than the others. -/
def slowFirst : Platform ℕ ℕ where
  save := fun w => w
  restore := fun saved _ => saved
  restore_save := fun _ _ => rfl
  alignmentBytes := fun _ _ => 1
  allocate := fun _ bufferId size generation _ => pure ⟨bufferId, generation, 0, size⟩
  release := fun _ _ _ => pure ()
  ownerCaches := fun _ _ => []
  flush := fun _ _ _ => pure []
  price := fun _ _ amount address arrivalNs w =>
    .ok ⟨"access", arrivalNs, none, if address = 0 then arrivalNs + 3 else arrivalNs + 1, 1, amount, .empty, .empty⟩ (w + 1)
  route := fun _ _ _ => .ok []
  link := fun _ _ arrivalNs => pure ⟨arrivalNs, arrivalNs, .empty⟩

theorem slowFirst_onTime : OnTime slowFirst where
  price := by
    intro component kind amount address arrivalNs w bill w' h
    cases h
    change arrivalNs ≤ if address = 0 then arrivalNs + 3 else arrivalNs + 1
    split <;> linarith
  link := by
    intro hop size arrivalNs w bill w' h
    cases h
    exact le_rfl

/-- Every buffer starts at address 0. -/
def atZero : Locate ℕ := fun _ _ offset _ _ _ => .ok offset

/-- Two bytes, in two chunks, with a slot for each. -/
def twoBytes : ImportRequest := ⟨"hbm", [⟨"hbf", "kv", 0, 2, 0, none⟩], 2, 1, "r", 0⟩

/-- The target writes of a stream, in the order of their submission. -/
def writes (index : ℕ) (log : List Submission) : List Piece :=
  (log.filter fun a => a.action.isTarget && a.cut.stream = index).map fun a => a.cut.piece

/-- What an import has read and written behind its first advance. -/
def firstAdvance (r : EStateM.Result Raised (Executor ℕ) Import) : Option (List Piece × List Piece) :=
  match r with
  | .error _ _ => none
  | .ok start t => match advanceExternal slowFirst compact atZero start.phaseToken start t with
    | .error _ _ => none
    | .ok imp _ => some (reads 0 imp.log, writes 0 imp.log)

theorem import_streams_twoBytes : ∃ start t,
    prepareExternalImport slowFirst compact atZero twoBytes onePage = .ok start t ∧ start.final = false ∧
      Streamed slowFirst atZero start := by
  have hsome : firstAdvance (prepareExternalImport slowFirst compact atZero twoBytes onePage) =
      some ([⟨0, 0, 1⟩, ⟨0, 1, 1⟩], [⟨0, 1, 1⟩]) := by decide +kernel
  cases hprep : prepareExternalImport slowFirst compact atZero twoBytes onePage with
  | error e t =>
    rw [hprep] at hsome
    cases hsome
  | ok start t =>
    refine ⟨start, t, rfl, ?_, ((import_streams slowFirst_onTime hprep).2 start .refl).1⟩
    rw [hprep, firstAdvance] at hsome
    by_contra hfinal
    have hfinal : start.final = true := by simpa using hfinal
    cases hadv : advanceExternal slowFirst compact atZero start.phaseToken start t with
    | error e u =>
      simp only [hadv] at hsome
      cases hsome
    | ok imp u =>
      unfold advanceExternal at hadv
      obtain ⟨_, u₁, h₁, hcall₁⟩ := bind_eq_ok hadv
      obtain ⟨_, u₂, h₂, hcall₂⟩ := bind_eq_ok hcall₁
      obtain ⟨_, u₃, h₃, hcall₃⟩ := bind_eq_ok hcall₂
      exact refuse_eq_ok.1 (raise_eq_ok h₃).1 hfinal

/-- **Target writes may overtake**: the second byte's write is submitted before the first's. -/
theorem writes_overtake : ∃ start imp t, prepareExternalImport slowFirst compact atZero twoBytes onePage = .ok start t ∧
    Relation.ReflTransGen (Advances slowFirst compact atZero) start imp ∧
      ¬writes 0 imp.log <+: rowsPieces imp.setup (imp.streamAt 0).rows := by
  have hsome : firstAdvance (prepareExternalImport slowFirst compact atZero twoBytes onePage) =
      some ([⟨0, 0, 1⟩, ⟨0, 1, 1⟩], [⟨0, 1, 1⟩]) := by decide +kernel
  cases hprep : prepareExternalImport slowFirst compact atZero twoBytes onePage with
  | error e t =>
    rw [hprep] at hsome
    cases hsome
  | ok start t =>
    rw [hprep, firstAdvance] at hsome
    cases hadv : advanceExternal slowFirst compact atZero start.phaseToken start t with
    | error e u =>
      simp only [hadv] at hsome
      cases hsome
    | ok imp u =>
      simp only [hadv, Option.some.injEq, Prod.mk.injEq] at hsome
      obtain ⟨hreads, hwrites⟩ := hsome
      have hrun : Relation.ReflTransGen (Advances slowFirst compact atZero) start imp := .single ⟨t, u, hadv⟩
      refine ⟨start, imp, t, rfl, hrun, fun hinitial => ?_⟩
      have hprepared := prepareExternalImport_ok slowFirst_onTime hprep
      have hflow := ((hprepared.inRun slowFirst_onTime hrun).streamed hprepared).reads 0
      rw [hreads] at hflow
      rw [hwrites, ← hflow] at hinitial
      obtain ⟨rest, hrest⟩ := hinitial
      simp at hrest

end HeteroSim.Transfer
