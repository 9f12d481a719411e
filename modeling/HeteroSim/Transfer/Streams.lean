/-
What holds in every state of an import. The heap has one event for every chunk
in flight, at the completion of what was submitted last of it; a chunk that is
gone was submitted whole. Slots are held by one chunk at a time. What the
streams have carried and have ahead of them are their pieces, in order.
-/
import HeteroSim.Transfer.Chunks

namespace HeteroSim.Transfer

variable {W S : Type} {P : Platform W S} {locate : Locate W} {imp : Import}

/-! ## The streams of an import -/

theorem streamAt_of_lt {k : ℕ} (h : k < imp.streams.length) : imp.streamAt k = imp.streams[k] := by
  rw [Import.streamAt, List.getElem?_eq_getElem h]
  rfl

theorem streamAt_of_le {k : ℕ} (h : imp.streams.length ≤ k) : imp.streamAt k = ⟨[], 0, 0, []⟩ := by
  rw [Import.streamAt, List.getElem?_eq_none h]
  rfl

theorem streamAt_mem {k : ℕ} (h : k < imp.streams.length) : imp.streamAt k ∈ imp.streams := by
  rw [streamAt_of_lt h]
  exact List.getElem_mem h

theorem lt_of_unstarted {k : ℕ} (h : (imp.streamAt k).unstarted) : k < imp.streams.length := by
  by_contra hle
  rw [streamAt_of_le (Nat.le_of_not_lt hle)] at h
  exact absurd h (Nat.not_lt_zero _)

/-- The streams with one of them replaced. -/
theorem streamAt_set (imp : Import) {k : ℕ} (hk : k < imp.streams.length) (stream : ImportStream) (j : ℕ) :
    ((imp.streams.set k stream)[j]?).getD ⟨[], 0, 0, []⟩ = if j = k then stream else imp.streamAt j := by
  rw [List.getElem?_set]
  split
  · next h =>
    subst h
    rw [if_pos rfl]
    rfl
  · next h =>
    rw [if_neg (Ne.symm h)]
    rfl

theorem streams_split {k : ℕ} (hk : k < imp.streams.length) :
    imp.streams = imp.streams.take k ++ imp.streamAt k :: imp.streams.drop (k + 1) := by
  rw [streamAt_of_lt hk, List.getElem_cons_drop, List.take_append_drop]

/-- What a replaced stream does to what the streams have together. -/
theorem flatMap_set {α : Type} {f : ImportStream → List α} {k : ℕ} {stream : ImportStream} {l l' : List α}
    (hk : k < imp.streams.length) (h : (l' ++ f (imp.streamAt k)).Perm (l ++ f stream)) :
    (l' ++ imp.streams.flatMap f).Perm (l ++ (imp.streams.set k stream).flatMap f) := by
  have hset : imp.streams.set k stream = imp.streams.take k ++ stream :: imp.streams.drop (k + 1) :=
    List.set_eq_take_append_cons_drop.trans (if_pos hk)
  rw [hset]
  nth_rewrite 1 [streams_split hk]
  simp only [List.flatMap_append, List.flatMap_cons]
  have hswap : ∀ a b c d : List α, (a ++ (b ++ (c ++ d))).Perm ((a ++ c) ++ (b ++ d)) := fun a b c d => by
    rw [List.append_assoc]
    refine List.Perm.append_left a ?_
    rw [← List.append_assoc, ← List.append_assoc]
    exact List.Perm.append_right d List.perm_append_comm
  exact (hswap _ _ _ _).trans ((h.append_right _).trans (hswap _ _ _ _).symm)

theorem modify_eq_set {k : ℕ} (hk : k < imp.streams.length) (f : ImportStream → ImportStream) :
    imp.streams.modify k f = imp.streams.set k (f (imp.streamAt k)) := by
  rw [streamAt_of_lt hk, List.modify_eq_take_cons_drop hk, List.set_eq_take_append_cons_drop, if_pos hk]

/-! ## The heap and the chunks -/

/-- The events and the chunks in flight, against the log; no event is before the clock. -/
structure Ledger (P : Platform W S) (locate : Locate W) (clock : ℚ) (imp : Import) : Prop where
  heap : IsHeap imp.events
  notBefore : ∀ e ∈ imp.events, clock ≤ (ofLex e).1
  pending : (imp.events.map fun e => (ofLex e).2).Perm imp.chunks.keys
  known : ∀ id ∈ imp.chunks.keys, id < imp.nextChunkId
  live : ∀ id chunk, imp.chunks.get? id = some chunk → Made P locate imp.setup chunk.cut chunk.actions ∧
    (chunkLog id imp.log).length = chunk.position ∧
      ∃ t, toLex (t, id) ∈ imp.events ∧ Told id chunk.cut chunk.actions (chunkLog id imp.log) t
  ended : ∀ id, id < imp.nextChunkId → imp.chunks.get? id = none → ∃ cut actions t,
    Made P locate imp.setup cut actions ∧ Told id cut actions (chunkLog id imp.log) t ∧
      (chunkLog id imp.log).length = actions.length ∧ ((imp.streamAt cut.stream).unstarted → t ≤ clock)
  fresh : ∀ a ∈ imp.log, a.chunk < imp.nextChunkId

namespace Ledger

variable {clock : ℚ}

/-- The event of a chunk in flight. -/
theorem event_of {id : ℕ} {t : ℚ} (h : Ledger P locate clock imp) (he : toLex (t, id) ∈ imp.events) {u : ℚ}
    (hu : toLex (u, id) ∈ imp.events) : t = u := by
  have hnodup : (imp.events.map fun e => (ofLex e).2).Nodup := h.pending.nodup_iff.2 imp.chunks.keys_nodup
  exact congrArg (fun e => (ofLex e).1) (List.inj_on_of_nodup_map hnodup he hu rfl)

/-- The streams may change, as long as none has more to start. -/
theorem streams (h : Ledger P locate clock imp) (streams : List ImportStream)
    (hun : ∀ k, (({ imp with streams } : Import).streamAt k).unstarted → (imp.streamAt k).unstarted) :
    Ledger P locate clock { imp with streams } where
  heap := h.heap
  notBefore := h.notBefore
  pending := h.pending
  known := h.known
  live := h.live
  ended := fun id hid hnone => by
    obtain ⟨cut, actions, t, hmade, htold, hlen, hle⟩ := h.ended id hid hnone
    exact ⟨cut, actions, t, hmade, htold, hlen, fun hu => hle (hun _ hu)⟩
  fresh := h.fresh

/-- What the earliest event says: its chunk, and that it is due. -/
theorem due {now : ℚ} {id : ℕ} {chunk : Chunk} {events : List (ℚ ×ₗ ℕ)} (h : Ledger P locate clock imp)
    (hevents : imp.events = toLex (now, id) :: events) (hchunk : imp.chunks.get? id = some chunk) :
    clock ≤ now ∧ (∀ e ∈ events, now ≤ (ofLex e).1) ∧ Told id chunk.cut chunk.actions (chunkLog id imp.log) now ∧
      (chunkLog id imp.log).length = chunk.position ∧ Made P locate imp.setup chunk.cut chunk.actions := by
  have hhead : toLex (now, id) ∈ imp.events := by rw [hevents]; exact List.mem_cons_self
  obtain ⟨hmade, hlen, t, ht, htold⟩ := h.live id chunk hchunk
  rw [h.event_of ht hhead] at htold
  refine ⟨h.notBefore _ hhead, fun e he => ?_, htold, hlen, hmade⟩
  have hheap := h.heap
  rw [hevents] at hheap
  have hle := hheap.head_le (List.mem_cons_of_mem _ he)
  obtain hlt | ⟨heq, -⟩ := Prod.Lex.le_iff.1 hle
  · exact hlt.le
  · exact heq.le

/-- The chunks in flight behind the earliest event. -/
theorem keys_erase {now : ℚ} {id : ℕ} {events : List (ℚ ×ₗ ℕ)} (h : Ledger P locate clock imp)
    (hevents : imp.events = toLex (now, id) :: events) :
    (events.map fun e => (ofLex e).2).Perm (imp.chunks.erase id).keys := by
  have hperm := h.pending
  rw [hevents, List.map_cons] at hperm
  have := hperm.erase id
  rw [show (ofLex (toLex (now, id))).2 = id from rfl, List.erase_cons_head,
    imp.chunks.keys_nodup.erase_eq_filter] at this
  rw [Dict.keys_erase]
  convert this using 2
  funext x
  by_cases hx : x = id <;> simp [hx]

/-- An event that goes, with its chunk; the chunk was submitted whole. -/
theorem closed {now : ℚ} {id : ℕ} {events : List (ℚ ×ₗ ℕ)} {log : List Submission} (h : Ledger P locate clock imp)
    (hevents : imp.events = toLex (now, id) :: events) (hclock : clock ≤ now) (hle : ∀ e ∈ events, now ≤ (ofLex e).1)
    (hid : id < imp.nextChunkId) (hlog : ∀ id', id' ≠ id → chunkLog id' log = chunkLog id' imp.log)
    (hfresh : ∀ a ∈ log, a.chunk < imp.nextChunkId)
    (hend : ∃ cut actions t, Made P locate imp.setup cut actions ∧ Told id cut actions (chunkLog id log) t ∧
      (chunkLog id log).length = actions.length ∧ ((imp.streamAt cut.stream).unstarted → t ≤ now))
    {imp' : Import} (hsetup : imp'.setup = imp.setup) (hstreams : imp'.streams = imp.streams)
    (hnext : imp'.nextChunkId = imp.nextChunkId) (hevents' : imp'.events = events)
    (hchunks' : imp'.chunks = imp.chunks.erase id) (hlog' : imp'.log = log) : Ledger P locate now imp' := by
  have hstream : ∀ k, imp'.streamAt k = imp.streamAt k := fun k => by rw [Import.streamAt, Import.streamAt, hstreams]
  refine ⟨?_, ?_, ?_, ?_, fun id' chunk' hget => ?_, fun id' hid' hnone => ?_, ?_⟩
  · rw [hevents']
    have := h.heap.tail
    rwa [hevents] at this
  · rw [hevents']
    exact hle
  · rw [hevents', hchunks']
    exact h.keys_erase hevents
  · intro id' hid'
    rw [hchunks', Dict.keys_erase] at hid'
    rw [hnext]
    exact h.known id' (List.mem_of_mem_filter hid')
  · rw [hchunks', Dict.get?_erase] at hget
    split at hget
    · cases hget
    · next hne =>
      obtain ⟨hmade, hlen, t, ht, htold⟩ := h.live id' chunk' hget
      rw [hsetup, hlog', hlog id' hne, hevents']
      refine ⟨hmade, hlen, t, ?_, htold⟩
      rw [hevents] at ht
      obtain ht | ht := List.mem_cons.1 ht
      · exact absurd (congrArg (fun e : ℚ ×ₗ ℕ => (ofLex e).2) ht) hne
      · exact ht
  · rw [hchunks', Dict.get?_erase] at hnone
    rw [hnext] at hid'
    rw [hsetup, hlog']
    split at hnone
    · next he =>
      subst he
      obtain ⟨cut, actions, t, hmade, htold, hlen, hun⟩ := hend
      exact ⟨cut, actions, t, hmade, htold, hlen, by rwa [hstream]⟩
    · next hne =>
      obtain ⟨cut, actions, t, hmade, htold, hlen, hun⟩ := h.ended id' hid' hnone
      rw [hlog id' hne]
      exact ⟨cut, actions, t, hmade, htold, hlen, fun hu => (hun (hstream _ ▸ hu)).trans hclock⟩
  · rw [hlog', hnext]
    exact hfresh

/-- **A chunk whose next action is submitted.** -/
theorem carried {now done : ℚ} {id : ℕ} {chunk : Chunk} {action : ImportAction} {events : List (ℚ ×ₗ ℕ)}
    (h : Ledger P locate clock imp) (hevents : imp.events = toLex (now, id) :: events)
    (hchunk : imp.chunks.get? id = some chunk) (haction : chunk.actions[chunk.position]? = some action)
    (hle : now ≤ done) : Ledger P locate now (imp.carried now id chunk action done) := by
  obtain ⟨hclock, hlater, htold, hlen, hmade⟩ := h.due hevents hchunk
  have hid := h.known id (Dict.mem_keys_of_get? hchunk)
  have hself : chunkLog id (imp.carried now id chunk action done).log =
      chunkLog id imp.log ++ [⟨id, chunk.cut, (chunkLog id imp.log).length,
        chunk.actions.length - ((chunkLog id imp.log).length + 1), action, now, done⟩] := by
    rw [hlen]
    exact chunkLog_self imp.log ⟨id, chunk.cut, chunk.position, chunk.actions.length - (chunk.position + 1), action,
      now, done⟩
  have hother : ∀ id', id' ≠ id → chunkLog id' (imp.carried now id chunk action done).log = chunkLog id' imp.log :=
    fun id' hne => chunkLog_other imp.log (Ne.symm hne)
  have hnext : Told id chunk.cut chunk.actions (chunkLog id (imp.carried now id chunk action done).log) done := by
    rw [hself]
    exact .next htold (hlen ▸ haction) hle
  have hlength : (chunkLog id (imp.carried now id chunk action done).log).length = chunk.position + 1 := by
    rw [hself, List.length_append, hlen]
    rfl
  have hfresh : ∀ a ∈ (imp.carried now id chunk action done).log, a.chunk < imp.nextChunkId := by
    intro a ha
    obtain ha | ha := List.mem_append.1 ha
    · exact h.fresh a ha
    · rw [List.mem_singleton.1 ha]
      exact hid
  by_cases hmore : chunk.position + 1 < chunk.actions.length ∨ (imp.streamAt chunk.cut.stream).unstarted
  · have hchunks : (imp.carried now id chunk action done).chunks =
        imp.chunks.insert id { chunk with position := chunk.position + 1 } := if_pos hmore
    have hpushed : (imp.carried now id chunk action done).events = heappush events (toLex (done, id)) := by
      refine (if_pos hmore).trans ?_
      rw [hevents]
      rfl
    refine ⟨?_, fun e he => ?_, ?_, ?_, fun id' chunk' hget => ?_, fun id' hid' hnone => ?_, hfresh⟩
    · rw [hpushed]
      have := h.heap.tail
      rw [hevents] at this
      exact this.push _
    · rw [hpushed, mem_heappush] at he
      obtain rfl | he := he
      · exact hle
      · exact hlater e he
    · rw [hpushed, hchunks, Dict.keys_insert_of_mem (Dict.mem_keys_of_get? hchunk)]
      refine ((heappush_perm _ _).map _).trans ?_
      have := h.pending
      rwa [hevents] at this
    · rw [hchunks, Dict.keys_insert_of_mem (Dict.mem_keys_of_get? hchunk)]
      exact h.known
    · rw [hchunks, Dict.get?_insert] at hget
      split at hget
      · next he =>
        subst he
        cases hget
        exact ⟨hmade, hlength, done, by rw [hpushed, mem_heappush]; exact .inl rfl, hnext⟩
      · next hne =>
        obtain ⟨hmade', hlen', t, ht, htold'⟩ := h.live id' chunk' hget
        rw [hother id' hne, hpushed]
        refine ⟨hmade', hlen', t, mem_heappush.2 (.inr ?_), htold'⟩
        rw [hevents] at ht
        obtain ht | ht := List.mem_cons.1 ht
        · exact absurd (congrArg (fun e : ℚ ×ₗ ℕ => (ofLex e).2) ht) hne
        · exact ht
    · rw [hchunks, Dict.get?_insert] at hnone
      split at hnone
      · cases hnone
      · next hne =>
        obtain ⟨cut, actions, t, hmade', htold', hlen', hun⟩ := h.ended id' hid' hnone
        rw [hother id' hne]
        exact ⟨cut, actions, t, hmade', htold', hlen', fun hu => (hun hu).trans hclock⟩
  · have hwhole : chunk.position + 1 = chunk.actions.length := by
      have := (List.getElem?_eq_some_iff.1 haction).1
      have := not_or.1 hmore
      omega
    refine h.closed hevents hclock hlater hid hother hfresh ⟨chunk.cut, chunk.actions, done, hmade, hnext,
      hlength.trans hwhole, fun hu => absurd (.inr hu) hmore⟩ rfl rfl rfl ?_ (if_neg hmore) rfl
    refine (if_neg hmore).trans ?_
    rw [hevents]
    rfl

/-- **A chunk whose last write completed.** -/
theorem released {now : ℚ} {id : ℕ} {chunk : Chunk} {events : List (ℚ ×ₗ ℕ)} (h : Ledger P locate clock imp)
    (hevents : imp.events = toLex (now, id) :: events) (hchunk : imp.chunks.get? id = some chunk)
    (hwhole : chunk.actions[chunk.position]? = none) : Ledger P locate now (imp.released id) := by
  obtain ⟨hclock, hlater, htold, hlen, hmade⟩ := h.due hevents hchunk
  have hid := h.known id (Dict.mem_keys_of_get? hchunk)
  have hfull : (chunkLog id imp.log).length = chunk.actions.length :=
    le_antisymm htold.length_le (hlen ▸ List.getElem?_eq_none_iff.1 hwhole)
  exact h.closed hevents hclock hlater hid (fun _ _ => rfl) h.fresh
    ⟨chunk.cut, chunk.actions, now, hmade, htold, hfull, fun _ => le_rfl⟩ rfl rfl rfl
    (by rw [Import.released, hevents]; rfl) rfl rfl

/-- **A chunk that starts.** -/
theorem started {done : ℚ} {cut : Cut} {row : Row} {read : ImportAction} {rest : List ImportAction}
    (h : Ledger P locate clock imp) (hmade : Made P locate imp.setup cut (read :: rest)) (hle : clock ≤ done)
    (hun : ∀ k, ((imp.started cut row read rest clock done).streamAt k).unstarted → (imp.streamAt k).unstarted) :
    Ledger P locate clock (imp.started cut row read rest clock done) := by
  have hnew : imp.nextChunkId ∉ imp.chunks.keys := fun hk => absurd (h.known _ hk) (lt_irrefl _)
  have hnone : chunkLog imp.nextChunkId imp.log = [] := by
    rw [chunkLog, List.filter_eq_nil_iff]
    intro a ha
    simp only [decide_eq_true_eq]
    exact (h.fresh a ha).ne
  have hself : chunkLog imp.nextChunkId (imp.started cut row read rest clock done).log =
      [⟨imp.nextChunkId, cut, 0, rest.length, read, clock, done⟩] := by
    refine (chunkLog_self imp.log ⟨imp.nextChunkId, cut, 0, rest.length, read, clock, done⟩).trans ?_
    rw [hnone]
    rfl
  have hother : ∀ id, id ≠ imp.nextChunkId →
      chunkLog id (imp.started cut row read rest clock done).log = chunkLog id imp.log :=
    fun id hne => chunkLog_other imp.log (Ne.symm hne)
  refine ⟨h.heap.push _, fun e he => ?_, ?_, fun id hid => ?_, fun id chunk hget => ?_, fun id hid hget => ?_,
    fun a ha => ?_⟩
  · obtain rfl | he := mem_heappush.1 he
    · exact hle
    · exact h.notBefore e he
  · change ((heappush imp.events _).map _).Perm (imp.chunks.insert imp.nextChunkId _).keys
    rw [Dict.keys_insert_of_not_mem hnew]
    refine ((heappush_perm _ _).map _).trans ?_
    rw [List.map_cons]
    exact (h.pending.cons _).trans (List.perm_append_singleton _ _).symm
  · obtain rfl | hid := Dict.mem_keys_insert.1 hid
    · exact Nat.lt_succ_self _
    · exact (h.known id hid).trans (Nat.lt_succ_self _)
  · change (imp.chunks.insert imp.nextChunkId _).get? id = some chunk at hget
    rw [Dict.get?_insert] at hget
    split at hget
    · next he =>
      cases hget
      rw [he, hself]
      exact ⟨hmade, rfl, done, mem_heappush.2 (.inl rfl), .read rfl hle⟩
    · next hne =>
      obtain ⟨hmade', hlen, t, ht, htold⟩ := h.live id chunk hget
      rw [hother id hne]
      exact ⟨hmade', hlen, t, mem_heappush.2 (.inr ht), htold⟩
  · change (imp.chunks.insert imp.nextChunkId _).get? id = none at hget
    rw [Dict.get?_insert] at hget
    split at hget
    · cases hget
    · next hne =>
      have hid : id < imp.nextChunkId + 1 := hid
      obtain ⟨cut', actions, t, hmade', htold, hlen, hle'⟩ := h.ended id (by omega) hget
      rw [hother id hne]
      exact ⟨cut', actions, t, hmade', htold, hlen, fun hu => hle' (hun _ hu)⟩
  · obtain ha | ha := List.mem_append.1 ha
    · exact (h.fresh a ha).trans (Nat.lt_succ_self _)
    · rw [List.mem_singleton.1 ha]
      exact Nat.lt_succ_self _

end Ledger

end HeteroSim.Transfer
