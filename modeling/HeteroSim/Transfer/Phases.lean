/-
What one phase of an import does. It handles the earliest completion: an
action more is submitted, a chunk starts in the slot of one that is through,
or a slot falls free. Each keeps what holds of the import, and there is less to
do behind it.
-/
import HeteroSim.Transfer.Preparing
import HeteroSim.Transfer.Slots

namespace HeteroSim.Transfer

variable {W S : Type} {P : Platform W S} {cfg : Config} {locate : Locate W} {imp imp' : Import} {clock : ℚ}
  {s t : Executor W}

/-! ## Submissions -/

/-- The platform completes nothing before it was submitted. -/
structure OnTime (P : Platform W S) : Prop where
  price : ∀ component kind amount address arrivalNs w bill w',
    P.price component kind amount address arrivalNs w = .ok bill w' → arrivalNs ≤ bill.completionNs
  link : ∀ hop size arrivalNs w bill w', P.link hop size arrivalNs w = .ok bill w' → arrivalNs ≤ bill.endNs

theorem onWorld_returns {α : Type} {m : EStateM Raised W α} {Q : α → Prop} (h : Returns m Q) :
    Returns (onWorld m) Q := by
  intro s a t hcall
  unfold onWorld at hcall
  cases hm : m s.world with
  | ok b w =>
    rw [hm] at hcall
    cases hcall
    exact h s.world _ w hm
  | error e w =>
    rw [hm] at hcall
    cases hcall

theorem priceFrom_onTime (h : OnTime P) {component : String} {service : Service} {kind : AccessKind} {address size : ℕ} :
    ∀ {fuel offset : ℕ} {current : ℚ}, Returns (priceFrom P cfg component service kind address size fuel offset current)
      fun bills => ∀ bill ∈ bills, current ≤ bill.completionNs
  | 0, _, _ => .pure (by simp)
  | fuel + 1, offset, current => by
    unfold priceFrom
    refine .ite (fun _ => .pure (by simp)) fun _ => ?_
    refine (onWorld_returns (h.price _ _ _ _ _)).bind fun bill hbill => ?_
    refine (Returns.any _).bind fun _ _ => (priceFrom_onTime h).bind fun rest hrest => .pure fun b hb => ?_
    obtain rfl | hb := List.mem_cons.1 hb
    · exact hbill
    · exact hbill.trans (hrest b hb)

theorem ioTransaction_returns {α : Type} {m : M W α} {Q : α → Prop} (h : Returns m Q) :
    Returns (ioTransaction P cfg m) Q := by
  intro s a t hcall
  unfold ioTransaction at hcall
  cases hm : m s with
  | ok b u =>
    rw [hm] at hcall
    cases hcall
    exact h s _ _ hm
  | error e u =>
    rw [hm] at hcall
    cases hcall

/-- **No action completes before it was submitted.** -/
theorem submitAction_onTime (h : OnTime P) {action : ImportAction} {now : ℚ} :
    Returns (submitAction P cfg action now) fun done => now ≤ done := by
  cases action with
  | memory role component operation address size =>
    have hprice : Returns (priceChunks P cfg component operation address size now)
        fun bills => ∀ bill ∈ bills, now ≤ bill.completionNs :=
      (Returns.any _).bind fun _ _ => (Returns.any _).bind fun _ _ => (priceFrom_onTime h).bind fun _ hbills =>
        (Returns.any _).bind fun _ _ => .pure hbills
    refine (Returns.any _).bind fun _ _ => (ioTransaction_returns hprice).bind fun bills hbills => .raise fun done hdone => ?_
    unfold lastBill at hdone
    cases hlast : bills.getLast? with
    | none =>
      rw [hlast] at hdone
      cases hdone
    | some bill =>
      rw [hlast] at hdone
      cases hdone
      exact hbills bill (List.mem_of_getLast? hlast)
  | link hop size =>
    refine Returns.bind (P := fun phase => now ≤ phase.completionNs) ?_ fun phase hphase => .pure hphase
    refine (onWorld_returns (h.link _ _ _)).bind fun bill hbill => ?_
    exact (Returns.any _).bind fun _ _ => (Returns.any _).bind fun _ _ => (Returns.any _).bind fun _ _ => .pure hbill

/-- What a stream has next, for a slot. -/
theorem nextCut_some {index slot : ℕ} {next : Cut × Row} (h : imp.nextCut index slot = some next) :
    ∃ place, (imp.streamAt index).rows[(imp.streamAt index).cursor]? = some place ∧
      imp.setup.destinations[place]? = some next.2 ∧ next.1 = ⟨index, slot, place, (imp.streamAt index).offset,
        min imp.setup.chunkBytes (next.2.sizeBytes - (imp.streamAt index).offset)⟩ := by
  obtain ⟨place, hplace, h⟩ := Option.bind_eq_some_iff.1 h
  obtain ⟨row, hrow, rfl⟩ := Option.map_eq_some_iff.1 h
  exact ⟨place, hplace, hrow, rfl⟩

/-- What a chunk that started was. -/
structure Starts (P : Platform W S) (locate : Locate W) (imp : Import) (index slot : ℕ) (now : ℚ) (next : Cut × Row)
    (made : ImportAction × List ImportAction) (done : ℚ) : Prop where
  cut : imp.nextCut index slot = some next
  made : ∃ w, chunkActions P locate imp.setup w next.1 next.2 = .ok made
  onTime : now ≤ done

theorem startChunk_ok (h : OnTime P) {index slot : ℕ} {now : ℚ} (hcall : startChunk P cfg locate imp index slot now s = .ok imp' t) :
    ∃ next made done, Starts P locate imp index slot now next made done ∧
      imp' = imp.started next.1 next.2 made.1 made.2 now done := by
  unfold startChunk at hcall
  cases hcut : imp.nextCut index slot with
  | none =>
    simp only [hcut] at hcall
    cases hcall
  | some next =>
    simp only [hcut] at hcall
    cases hmade : chunkActions P locate imp.setup s.world next.1 next.2 with
    | error e =>
      rw [get_bind_eq, hmade] at hcall
      cases hcall
    | ok made =>
      rw [get_bind_eq, hmade] at hcall
      have hcall : (submitAction P cfg made.1 now >>= fun done =>
        pure (imp.started next.1 next.2 made.1 made.2 now done)) s = .ok imp' t := hcall
      cases hsub : submitAction P cfg made.1 now s with
      | error e u =>
        rw [bind_error_eq hsub] at hcall
        cases hcall
      | ok done u =>
        rw [bind_ok_eq hsub] at hcall
        cases hcall
        exact ⟨next, made, done, ⟨hcut, ⟨s.world, hmade⟩, submitAction_onTime h s done _ hsub⟩, rfl⟩

namespace Starts

variable {index slot : ℕ} {now done : ℚ} {next : Cut × Row} {made : ImportAction × List ImportAction}

theorem stream (h : Starts P locate imp index slot now next made done) : next.1.stream = index ∧ next.1.slot = slot := by
  obtain ⟨place, -, -, hcut⟩ := nextCut_some h.cut
  rw [hcut]
  exact ⟨rfl, rfl⟩

theorem unstarted (h : Starts P locate imp index slot now next made done) : (imp.streamAt next.1.stream).unstarted := by
  obtain ⟨place, hplace, -, -⟩ := nextCut_some h.cut
  rw [h.stream.1]
  exact (List.getElem?_eq_some_iff.1 hplace).1

theorem isMade (h : Starts P locate imp index slot now next made done) :
    Made P locate imp.setup next.1 (made.1 :: made.2) := by
  obtain ⟨place, -, hrow, hcut⟩ := nextCut_some h.cut
  obtain ⟨w, hw⟩ := h.made
  exact ⟨w, next.2, made, by rw [hcut]; exact hrow, hw, rfl⟩

theorem ahead (h : Starts P locate imp index slot now next made done) (hf : Flow imp) :
    (imp.streamAt next.1.stream).ahead imp.setup =
        next.1.piece :: ((imp.streamAt next.1.stream).moved next.1.piece next.2).ahead imp.setup ∧
      ((imp.streamAt next.1.stream).moved next.1.piece next.2).Sound imp.setup := by
  obtain ⟨place, hplace, hrow, hcut⟩ := nextCut_some h.cut
  have hsound := hf.sound _ (streamAt_mem (lt_of_unstarted h.unstarted))
  rw [h.stream.1] at hsound
  rw [h.stream.1, hcut]
  exact hsound.next hf.chunkBytes hplace hrow

end Starts

/-! ## What holds -/

/-- The counters, against the log. -/
structure Counted (imp : Import) : Prop where
  actions : imp.submittedActions = imp.log.length
  bound : ∀ a ∈ imp.log, a.completionNs ≤ imp.submittedUntilNs
  attained : (∃ a ∈ imp.log, a.completionNs = imp.submittedUntilNs) ∨
    imp.log = [] ∧ imp.submittedUntilNs = imp.setup.startNs

theorem Counted.submitted {a : Submission} (h : Counted imp) (hstart : imp.log = [] → imp.setup.startNs ≤ a.completionNs) :
    Counted (imp.submitted a) := by
  refine ⟨?_, fun b hb => ?_, .inl ?_⟩
  · change imp.submittedActions + 1 = (imp.log ++ [a]).length
    rw [h.actions, List.length_append, List.length_singleton]
  · obtain hb | hb := List.mem_append.1 hb
    · exact (h.bound b hb).trans (le_max_left _ _)
    · rw [List.mem_singleton.1 hb]
      exact le_max_right _ _
  · have hlast : a ∈ (imp.submitted a).log := List.mem_append_right _ (List.mem_singleton_self a)
    obtain ⟨b, hb, heq⟩ | ⟨hnil, hstartNs⟩ := h.attained
    · obtain hle | hle := le_total imp.submittedUntilNs a.completionNs
      · exact ⟨a, hlast, (max_eq_right hle).symm⟩
      · exact ⟨b, List.mem_append_left _ hb, heq.trans (max_eq_left hle).symm⟩
    · exact ⟨a, hlast, (max_eq_right (hstartNs ▸ hstart hnil)).symm⟩

/-- A chunk of a stream holds a slot. -/
def Holder (imp : Import) (index slot : ℕ) : Prop :=
  ∃ id chunk, imp.chunks.get? id = some chunk ∧ chunk.cut.stream = index ∧ chunk.cut.slot = slot

/-- A stream that has more to start has its slots, free or held. -/
def Kept (imp : Import) : Prop :=
  ∀ k, (imp.streamAt k).unstarted → ∀ slot ∈ dealtSlots k imp.setup.slotCount imp.streams.length,
    slot ∈ (imp.streamAt k).free ∨ Holder imp k slot

/-- What holds of an import between its phases. -/
structure Running (P : Platform W S) (locate : Locate W) (clock : ℚ) (imp : Import) : Prop where
  ledger : Ledger P locate clock imp
  slots : Slots imp
  flow : Flow imp
  counted : Counted imp
  kept : Kept imp
  streams_pos : 0 < imp.streams.length

/-- What stays as it is while an import runs. -/
structure SameImport (imp imp' : Import) : Prop where
  setup : imp'.setup = imp.setup
  length : imp'.streams.length = imp.streams.length
  rows : ∀ k, (imp'.streamAt k).rows = (imp.streamAt k).rows

theorem SameImport.refl (imp : Import) : SameImport imp imp := ⟨rfl, rfl, fun _ => rfl⟩

theorem SameImport.trans {imp'' : Import} (h : SameImport imp imp') (h' : SameImport imp' imp'') : SameImport imp imp'' :=
  ⟨h'.setup.trans h.setup, h'.length.trans h.length, fun k => (h'.rows k).trans (h.rows k)⟩

/-- What there is to do: first the pieces to start, then the phases of the chunks in flight. -/
def work (imp : Import) : ℕ ×ₗ ℕ :=
  toLex ((imp.streams.flatMap (ImportStream.ahead imp.setup)).length,
    (imp.chunks.values.map fun chunk => chunk.actions.length + 1 - chunk.position).sum)

theorem work_lt_of_ahead (h : (imp'.streams.flatMap (ImportStream.ahead imp'.setup)).length <
    (imp.streams.flatMap (ImportStream.ahead imp.setup)).length) : work imp' < work imp :=
  Prod.Lex.toLex_lt_toLex.2 (.inl h)

theorem work_lt_of_chunks (h : (imp'.streams.flatMap (ImportStream.ahead imp'.setup)).length =
    (imp.streams.flatMap (ImportStream.ahead imp.setup)).length)
    (hchunks : (imp'.chunks.values.map fun chunk => chunk.actions.length + 1 - chunk.position).sum <
      (imp.chunks.values.map fun chunk => chunk.actions.length + 1 - chunk.position).sum) : work imp' < work imp :=
  Prod.Lex.toLex_lt_toLex.2 (.inr ⟨h, hchunks⟩)

/-- The phases of the chunks in flight, one of them apart. -/
theorem phases_of_get? {chunks : Dict ℕ Chunk} {id : ℕ} {chunk : Chunk} (h : chunks.get? id = some chunk) :
    (chunks.values.map fun chunk => chunk.actions.length + 1 - chunk.position).sum =
      chunk.actions.length + 1 - chunk.position +
        ((chunks.erase id).values.map fun chunk => chunk.actions.length + 1 - chunk.position).sum := by
  rw [((Dict.values_perm h).map _).sum_eq, List.map_cons, List.sum_cons]

/-! ## A chunk goes on -/

theorem Running.carried {now done : ℚ} {id : ℕ} {chunk : Chunk} {action : ImportAction} {events : List (ℚ ×ₗ ℕ)}
    (h : Running P locate clock imp) (hevents : imp.events = toLex (now, id) :: events)
    (hchunk : imp.chunks.get? id = some chunk) (haction : chunk.actions[chunk.position]? = some action)
    (hle : now ≤ done) : Running P locate now (imp.carried now id chunk action done) ∧
      work (imp.carried now id chunk action done) < work imp := by
  have hlt := (List.getElem?_eq_some_iff.1 haction).1
  have hcounted : Counted (imp.submitted
      ⟨id, chunk.cut, chunk.position, chunk.actions.length - (chunk.position + 1), action, now, done⟩) := by
    refine h.counted.submitted fun hnil => ?_
    obtain ⟨-, -, t, -, htold⟩ := h.ledger.live id chunk hchunk
    rw [hnil] at htold
    exact absurd rfl htold.ne_nil
  refine ⟨⟨h.ledger.carried hevents hchunk haction hle, h.slots.carried h.ledger hchunk,
    h.flow.carried h.ledger hchunk haction, ⟨hcounted.actions, hcounted.bound, hcounted.attained⟩,
    fun k hun slot hslot => ?_, h.streams_pos⟩, work_lt_of_chunks rfl ?_⟩
  · refine (h.kept k hun slot hslot).imp_right fun hholder => ?_
    obtain ⟨id', chunk', hget, hstream, hslot'⟩ := hholder
    by_cases hid : id' = id
    · subst hid
      obtain rfl : chunk = chunk' := Option.some.inj (hchunk.symm.trans hget)
      have hmore : chunk.position + 1 < chunk.actions.length ∨ (imp.streamAt chunk.cut.stream).unstarted :=
        .inr (hstream ▸ hun)
      refine ⟨id', { chunk with position := chunk.position + 1 }, ?_, hstream, hslot'⟩
      rw [show (imp.carried now id' chunk action done).chunks = _ from if_pos hmore, Dict.get?_insert, if_pos rfl]
    · refine ⟨id', chunk', ?_, hstream, hslot'⟩
      change (if _ then _ else _ : Dict ℕ Chunk).get? id' = some chunk'
      split
      · rw [Dict.get?_insert, if_neg hid]
        exact hget
      · rw [Dict.get?_erase, if_neg hid]
        exact hget
  · rw [phases_of_get? hchunk]
    change ((if _ then _ else _ : Dict ℕ Chunk).values.map _).sum < _
    split
    · have hget : (imp.chunks.insert id { chunk with position := chunk.position + 1 }).get? id =
          some { chunk with position := chunk.position + 1 } := by rw [Dict.get?_insert, if_pos rfl]
      rw [phases_of_get? hget, Dict.erase_insert]
      simp only
      omega
    · omega

/-! ## A chunk is through -/

/-- The chunk of the earliest event, its last write completed, and what is behind it. -/
theorem Running.released {now : ℚ} {id : ℕ} {chunk : Chunk} {events : List (ℚ ×ₗ ℕ)} (h : Running P locate clock imp)
    (hevents : imp.events = toLex (now, id) :: events) (hchunk : imp.chunks.get? id = some chunk)
    (hwhole : chunk.actions[chunk.position]? = none) :
    Ledger P locate now (imp.released id) ∧ Slots (imp.released id) ∧ Loose (imp.released id) chunk.cut.slot ∧
      Flow (imp.released id) ∧ Counted (imp.released id) ∧
      (∀ k slot, Holder imp k slot → k = chunk.cut.stream ∧ slot = chunk.cut.slot ∨ Holder (imp.released id) k slot) := by
  obtain ⟨hslots, hloose⟩ := h.slots.released hchunk
  refine ⟨h.ledger.released hevents hchunk hwhole, hslots, hloose, h.flow.released hchunk hwhole,
    ⟨h.counted.actions, h.counted.bound, h.counted.attained⟩, fun k slot hholder => ?_⟩
  obtain ⟨id', chunk', hget, rfl, rfl⟩ := hholder
  by_cases hid : id' = id
  · subst hid
    obtain rfl : chunk = chunk' := Option.some.inj (hchunk.symm.trans hget)
    exact .inl ⟨rfl, rfl⟩
  · refine .inr ⟨id', chunk', ?_, rfl, rfl⟩
    change (imp.chunks.erase id).get? id' = some chunk'
    rw [Dict.get?_erase, if_neg hid]
    exact hget

/-- A slot that falls free: its stream starts nothing more. -/
theorem Running.freed {now : ℚ} {id : ℕ} {chunk : Chunk} {events : List (ℚ ×ₗ ℕ)} (h : Running P locate clock imp)
    (hevents : imp.events = toLex (now, id) :: events) (hchunk : imp.chunks.get? id = some chunk)
    (hwhole : chunk.actions[chunk.position]? = none) (hun : ¬(imp.streamAt chunk.cut.stream).unstarted)
    (hindex : chunk.cut.stream < imp.streams.length) :
    Running P locate now ((imp.freed chunk.cut.stream chunk.cut.slot).released id) ∧
      work ((imp.freed chunk.cut.stream chunk.cut.slot).released id) < work imp ∧
      SameImport imp ((imp.freed chunk.cut.stream chunk.cut.slot).released id) := by
  obtain ⟨hledger, hslots, hloose, hflow, hcounted, hholder⟩ := h.released hevents hchunk hwhole
  have hset : (imp.freed chunk.cut.stream chunk.cut.slot).streams = imp.streams.set chunk.cut.stream
      { imp.streamAt chunk.cut.stream with free := (imp.streamAt chunk.cut.stream).free ++ [chunk.cut.slot] } :=
    modify_eq_set hindex _
  have hlen : (imp.freed chunk.cut.stream chunk.cut.slot).streams.length = imp.streams.length := by
    rw [hset, List.length_set]
  have hunstarted : ∀ k, ((imp.freed chunk.cut.stream chunk.cut.slot).streamAt k).unstarted → (imp.streamAt k).unstarted := by
    intro k hk
    rw [freed_streamAt hindex] at hk
    split at hk
    · next he => rw [he]; exact hk
    · exact hk
  have hledger' := hledger.streams (imp.freed chunk.cut.stream chunk.cut.slot).streams hunstarted
  have hslots' : Slots ((imp.released id).freed chunk.cut.stream chunk.cut.slot) :=
    hslots.freed hindex hloose (h.slots.stream_of h.ledger hchunk)
  have hflow' : Flow { imp.released id with streams := (imp.freed chunk.cut.stream chunk.cut.slot).streams } :=
    hflow.streams hindex hset rfl rfl rfl
  refine ⟨⟨⟨hledger'.heap, hledger'.notBefore, hledger'.pending, hledger'.known, hledger'.live, hledger'.ended,
    hledger'.fresh⟩, ⟨hslots'.apart, hslots'.free, hslots'.dealt, hslots'.exclusive⟩,
    ⟨hflow'.chunkBytes, hflow'.sound, hflow'.reads, hflow'.targets⟩,
    ⟨hcounted.actions, hcounted.bound, hcounted.attained⟩, fun k hk slot hslot => ?_, ?_⟩, work_lt_of_chunks ?_ ?_,
    rfl, hlen, fun k => ?_⟩
  · have hslot : slot ∈ dealtSlots k imp.setup.slotCount (imp.freed chunk.cut.stream chunk.cut.slot).streams.length := hslot
    have hk' := hunstarted k hk
    rw [hlen] at hslot
    have hne : k ≠ chunk.cut.stream := fun he => hun (he ▸ hk')
    change slot ∈ ((imp.freed chunk.cut.stream chunk.cut.slot).streamAt k).free ∨ Holder (imp.released id) k slot
    rw [freed_streamAt hindex, if_neg hne]
    obtain hfree | hold := h.kept k hk' slot hslot
    · exact .inl hfree
    · obtain ⟨he, -⟩ | hold := hholder k slot hold
      · exact absurd he hne
      · exact .inr hold
  · exact hlen ▸ h.streams_pos
  · change ((imp.freed chunk.cut.stream chunk.cut.slot).streams.flatMap (ImportStream.ahead imp.setup)).length = _
    rw [hset]
    exact (@flatMap_set imp _ (ImportStream.ahead imp.setup) chunk.cut.stream
      { imp.streamAt chunk.cut.stream with free := (imp.streamAt chunk.cut.stream).free ++ [chunk.cut.slot] } [] [] hindex
      (.refl _)).length_eq.symm
  · rw [phases_of_get? hchunk]
    change ((imp.chunks.erase id).values.map _).sum < _
    have hle := (h.ledger.due hevents hchunk).2.2.1.length_le
    rw [(h.ledger.due hevents hchunk).2.2.2.1] at hle
    omega
  · change ((imp.freed chunk.cut.stream chunk.cut.slot).streamAt k).rows = _
    rw [freed_streamAt hindex]
    split
    · next he => rw [he]
    · rfl

/-! ## A chunk starts -/

/-- A chunk that starts in a loose slot. -/
theorem started_keeps {slot : ℕ} {done : ℚ} {next : Cut × Row} {made : ImportAction × List ImportAction} {index : ℕ}
    (hledger : Ledger P locate clock imp) (hslots : Slots imp) (hflow : Flow imp) (hcounted : Counted imp)
    (hstarts : Starts P locate imp index slot clock next made done) (hloose : Loose imp slot)
    (hslot : slot % imp.streams.length = index) (hstart : imp.log = [] → imp.setup.startNs ≤ done)
    (hkept : ∀ k, (imp.streamAt k).unstarted → ∀ slot' ∈ dealtSlots k imp.setup.slotCount imp.streams.length,
      k = index ∧ slot' = slot ∨ slot' ∈ (imp.streamAt k).free ∨ Holder imp k slot') :
    Running P locate clock (imp.started next.1 next.2 made.1 made.2 clock done) ∧
      ((imp.started next.1 next.2 made.1 made.2 clock done).streams.flatMap (ImportStream.ahead imp.setup)).length <
        (imp.streams.flatMap (ImportStream.ahead imp.setup)).length ∧
      SameImport imp (imp.started next.1 next.2 made.1 made.2 clock done) := by
  obtain ⟨hstream, hcutSlot⟩ := hstarts.stream
  have hun := hstarts.unstarted
  have hcut := lt_of_unstarted hun
  obtain ⟨hahead, hsound⟩ := hstarts.ahead hflow
  have hlen : (imp.started next.1 next.2 made.1 made.2 clock done).streams.length = imp.streams.length := List.length_set
  have hnew : imp.nextChunkId ∉ imp.chunks.keys := fun hk => absurd (hledger.known _ hk) (lt_irrefl _)
  have hcounted' := @Counted.submitted imp ⟨imp.nextChunkId, next.1, 0, made.2.length, made.1, clock, done⟩ hcounted hstart
  refine ⟨⟨hledger.started hstarts.isMade hstarts.onTime fun k => started_unstarted hcut,
    hslots.started hledger hun (hcutSlot ▸ hloose) (by rw [hcutSlot, hstream]; exact hslot),
    hflow.started hledger hstarts.isMade hun hahead hsound,
    ⟨hcounted'.actions, hcounted'.bound, hcounted'.attained⟩, fun k hk slot' hslot' => ?_,
    hlen ▸ (Nat.zero_le _).trans_lt hcut⟩, ?_, rfl, hlen, started_rows hcut⟩
  · rw [hlen] at hslot'
    rw [started_free hcut]
    obtain ⟨rfl, rfl⟩ | hfree | hholder := hkept k (started_unstarted hcut hk) slot' hslot'
    · refine .inr ⟨imp.nextChunkId, ⟨next.1, made.1 :: made.2, 1⟩, ?_, hstream, hcutSlot⟩
      change (imp.chunks.insert imp.nextChunkId _).get? imp.nextChunkId = _
      rw [Dict.get?_insert, if_pos rfl]
    · exact .inl hfree
    · obtain ⟨id, chunk, hget, hrest⟩ := hholder
      refine .inr ⟨id, chunk, ?_, hrest⟩
      have hne : id ≠ imp.nextChunkId := fun he => hnew (he ▸ Dict.mem_keys_of_get? hget)
      change (imp.chunks.insert imp.nextChunkId _).get? id = _
      rw [Dict.get?_insert, if_neg hne]
      exact hget
  · have hperm := @flatMap_set imp _ (ImportStream.ahead imp.setup) next.1.stream
      ((imp.streamAt next.1.stream).moved next.1.piece next.2) [next.1.piece] [] hcut (by rw [hahead]; exact .refl _)
    have hlength := hperm.length_eq
    rw [List.nil_append, List.length_append, List.length_singleton] at hlength
    change ((imp.streams.set next.1.stream _).flatMap _).length < _
    omega

theorem erase_insert_new {chunks : Dict ℕ Chunk} {id new : ℕ} (chunk : Chunk) (hne : new ≠ id) (hnew : new ∉ chunks.keys) :
    (chunks.insert new chunk).erase id = (chunks.erase id).insert new chunk := by
  have hnew' : new ∉ (chunks.erase id).keys := by
    rw [Dict.keys_erase]
    exact fun h => hnew (List.mem_of_mem_filter h)
  refine Dict.ext ?_
  rw [Dict.items_insert_of_not_mem hnew']
  change (chunks.insert new chunk).items.filter _ = chunks.items.filter _ ++ _
  rw [Dict.items_insert_of_not_mem hnew, List.filter_append]
  congr 1
  simp [hne]

/-- The new chunk's event is behind the one that is handled, so either may be done first. -/
theorem started_released {now done : ℚ} {id : ℕ} {events : List (ℚ ×ₗ ℕ)} {next : Cut × Row}
    {made : ImportAction × List ImportAction} (hledger : Ledger P locate clock imp)
    (hevents : imp.events = toLex (now, id) :: events) (hid : id ∈ imp.chunks.keys) (hle : now ≤ done) :
    (imp.started next.1 next.2 made.1 made.2 now done).released id =
      (imp.released id).started next.1 next.2 made.1 made.2 now done := by
  have hlt := hledger.known id hid
  have hnew : imp.nextChunkId ∉ imp.chunks.keys := fun hk => absurd (hledger.known _ hk) (lt_irrefl _)
  have hpush : (heappush imp.events (toLex (done, imp.nextChunkId))).tail =
      heappush imp.events.tail (toLex (done, imp.nextChunkId)) := by
    rw [hevents, heappush_cons]
    · rfl
    · obtain hlt' | rfl := hle.lt_or_eq
      · exact Prod.Lex.toLex_lt_toLex.2 (.inl hlt')
      · exact Prod.Lex.toLex_lt_toLex.2 (.inr ⟨rfl, hlt⟩)
  have hchunks := @erase_insert_new imp.chunks id imp.nextChunkId ⟨next.1, made.1 :: made.2, 1⟩ hlt.ne' hnew
  unfold Import.released Import.started
  simp only [Import.submitted, Import.streamAt, hpush, hchunks]

/-- **A chunk that takes over a slot**: the one before it is through. -/
theorem Running.restarted {now done : ℚ} {id : ℕ} {chunk : Chunk} {events : List (ℚ ×ₗ ℕ)} {next : Cut × Row}
    {made : ImportAction × List ImportAction} (h : Running P locate clock imp)
    (hevents : imp.events = toLex (now, id) :: events) (hchunk : imp.chunks.get? id = some chunk)
    (hwhole : chunk.actions[chunk.position]? = none)
    (hstarts : Starts P locate imp chunk.cut.stream chunk.cut.slot now next made done) :
    Running P locate now ((imp.started next.1 next.2 made.1 made.2 now done).released id) ∧
      work ((imp.started next.1 next.2 made.1 made.2 now done).released id) < work imp ∧
      SameImport imp ((imp.started next.1 next.2 made.1 made.2 now done).released id) := by
  obtain ⟨hledger, hslots, hloose, hflow, hcounted, hholder⟩ := h.released hevents hchunk hwhole
  have hstarts' : Starts P locate (imp.released id) chunk.cut.stream chunk.cut.slot now next made done :=
    ⟨hstarts.cut, hstarts.made, hstarts.onTime⟩
  have hlog : imp.log ≠ [] := by
    intro hnil
    obtain ⟨-, -, t, -, htold⟩ := h.ledger.live id chunk hchunk
    rw [hnil] at htold
    exact htold.ne_nil rfl
  rw [started_released h.ledger hevents (Dict.mem_keys_of_get? hchunk) hstarts.onTime]
  obtain ⟨hrunning, hahead, hsame⟩ := started_keeps hledger hslots hflow hcounted hstarts' hloose
    (h.slots.stream_of h.ledger hchunk) (fun hnil => absurd hnil hlog) fun k hk slot hslot => by
      obtain hfree | hold := h.kept k hk slot hslot
      · exact .inr (.inl hfree)
      · obtain heq | hold := hholder k slot hold
        · exact .inl heq
        · exact .inr (.inr hold)
  exact ⟨hrunning, work_lt_of_ahead hahead, ⟨hsame.setup, hsame.length, hsame.rows⟩⟩

/-! ## Advancing -/

/-- What a plan shows of its import. -/
structure Shown (imp : Import) : Prop where
  live : imp.done = false
  final : imp.final = imp.events.isEmpty
  completion : imp.completionNs = (imp.events.head?.map fun event => (ofLex event).1).getD imp.submittedUntilNs

theorem Running.planned (h : Running P locate clock imp) (phase token : ℕ) :
    Running P locate clock (({ imp with phase } : Import).planned token) where
  ledger := ⟨h.ledger.heap, h.ledger.notBefore, h.ledger.pending, h.ledger.known, h.ledger.live, h.ledger.ended,
    h.ledger.fresh⟩
  slots := ⟨h.slots.apart, h.slots.free, h.slots.dealt, h.slots.exclusive⟩
  flow := ⟨h.flow.chunkBytes, h.flow.sound, h.flow.reads, h.flow.targets⟩
  counted := ⟨h.counted.actions, h.counted.bound, h.counted.attained⟩
  kept := h.kept
  streams_pos := h.streams_pos

/-- A stream that has more to start had more, and its free slots are as they were. -/
def Narrows (imp imp' : Import) : Prop :=
  ∀ k, (imp'.streamAt k).unstarted → (imp.streamAt k).unstarted ∧ (imp'.streamAt k).free = (imp.streamAt k).free

theorem earliest_ok {now : ℚ} {id : ℕ} {chunk : Chunk} (h : imp.earliest = .ok (now, id, chunk)) :
    ∃ events, imp.events = toLex (now, id) :: events ∧ imp.chunks.get? id = some chunk := by
  unfold Import.earliest at h
  cases hevents : imp.events with
  | nil =>
    rw [hevents] at h
    cases h
  | cons event events =>
    rw [hevents] at h
    simp only [List.head?_cons] at h
    cases hchunk : imp.chunks.get? (ofLex event).2 with
    | none =>
      rw [hchunk] at h
      cases h
    | some chunk =>
      rw [hchunk] at h
      cases h
      exact ⟨events, rfl, hchunk⟩

/-- What handling the earliest event does. -/
theorem Running.handled {now : ℚ} {id : ℕ} {chunk : Chunk} (hon : OnTime P) (h : Running P locate clock imp)
    (hearliest : imp.earliest = .ok (now, id, chunk)) (hcall : handlePhase P cfg locate imp now id chunk s = .ok imp' t) :
    Running P locate now imp' ∧ work imp' < work imp ∧ SameImport imp imp' ∧ Narrows imp imp' ∧ imp'.done = imp.done := by
  obtain ⟨events, hevents, hchunk⟩ := earliest_ok hearliest
  unfold handlePhase at hcall
  cases haction : chunk.actions[chunk.position]? with
  | some action =>
    simp only [haction] at hcall
    obtain ⟨done, u, hsub, hcall⟩ := bind_eq_ok hcall
    cases hcall
    obtain ⟨hrunning, hwork⟩ := h.carried hevents hchunk haction (submitAction_onTime hon _ _ _ hsub)
    exact ⟨hrunning, hwork, ⟨rfl, rfl, fun _ => rfl⟩, fun _ hk => ⟨hk, rfl⟩, rfl⟩
  | none =>
    simp only [haction] at hcall
    split at hcall
    · next hun =>
      obtain ⟨next, u, hstart, hcall⟩ := bind_eq_ok hcall
      cases hcall
      obtain ⟨cut, made, done, hstarts, rfl⟩ := startChunk_ok hon hstart
      obtain ⟨hrunning, hwork, hsame⟩ := h.restarted hevents hchunk haction hstarts
      have hcut := lt_of_unstarted hstarts.unstarted
      refine ⟨hrunning, hwork, hsame, fun k hk => ?_, rfl⟩
      change ((imp.started cut.1 cut.2 made.1 made.2 now done).streamAt k).unstarted at hk
      exact ⟨started_unstarted hcut hk, @started_free imp cut.1 cut.2 made.1 made.2 now done hcut k⟩
    · next hun =>
      cases hcall
      have hindex : chunk.cut.stream < imp.streams.length := by
        rw [← h.slots.stream_of h.ledger hchunk]
        exact Nat.mod_lt _ h.streams_pos
      obtain ⟨hrunning, hwork, hsame⟩ := h.freed hevents hchunk haction hun hindex
      refine ⟨hrunning, hwork, hsame, fun k hk => ?_, rfl⟩
      change ((imp.freed chunk.cut.stream chunk.cut.slot).streamAt k).unstarted at hk
      change _ ∧ ((imp.freed chunk.cut.stream chunk.cut.slot).streamAt k).free = _
      rw [freed_streamAt hindex] at hk ⊢
      split at hk
      · next he => exact absurd (he ▸ hk) hun
      · next he => exact ⟨hk, by rw [if_neg he]⟩

end HeteroSim.Transfer
