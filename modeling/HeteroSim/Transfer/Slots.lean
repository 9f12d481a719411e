/-
The slots of an import and the flow of its bytes. A slot is free or held by
one chunk in flight, and a chunk that takes it starts when the last chunk
before it has completed. What was read of a stream and what it has ahead are
its pieces in order; what was written, is about to be and is ahead are all
pieces, each once.
-/
import HeteroSim.Transfer.Streams

namespace HeteroSim.Transfer

variable {W S : Type} {P : Platform W S} {locate : Locate W} {imp : Import} {clock : ℚ}

/-! ## The operations, seen by the streams -/

theorem moved_unstarted {stream : ImportStream} {piece : Piece} {row : Row} (h : (stream.moved piece row).unstarted) :
    stream.unstarted := by
  unfold ImportStream.moved ImportStream.unstarted at *
  split at h
  · exact Nat.lt_of_succ_lt h
  · exact h

section

variable {cut : Cut} {row : Row} {read : ImportAction} {rest : List ImportAction} {now done : ℚ}

theorem started_streamAt (hcut : cut.stream < imp.streams.length) (k : ℕ) :
    (imp.started cut row read rest now done).streamAt k =
      if k = cut.stream then (imp.streamAt cut.stream).moved cut.piece row else imp.streamAt k := streamAt_set imp hcut _ k

theorem started_unstarted (hcut : cut.stream < imp.streams.length) {k : ℕ}
    (h : ((imp.started cut row read rest now done).streamAt k).unstarted) : (imp.streamAt k).unstarted := by
  rw [started_streamAt hcut] at h
  split at h
  · next he => rw [he]; exact moved_unstarted h
  · exact h

theorem started_free (hcut : cut.stream < imp.streams.length) (k : ℕ) :
    ((imp.started cut row read rest now done).streamAt k).free = (imp.streamAt k).free := by
  rw [started_streamAt hcut]
  split
  · next he => rw [he, ImportStream.moved_free]
  · rfl

theorem started_rows (hcut : cut.stream < imp.streams.length) (k : ℕ) :
    ((imp.started cut row read rest now done).streamAt k).rows = (imp.streamAt k).rows := by
  rw [started_streamAt hcut]
  split
  · next he => rw [he, ImportStream.moved_rows]
  · rfl

end

/-- What a change of the free slots does to a stream. -/
theorem taken_streamAt {index : ℕ} {free : List ℕ} (hindex : index < imp.streams.length) (k : ℕ) :
    (imp.taken index free).streamAt k = if k = index then { imp.streamAt index with free } else imp.streamAt k := by
  rw [← streamAt_set imp hindex, ← modify_eq_set hindex fun stream => { stream with free }]
  rfl

theorem freed_streamAt {index slot : ℕ} (hindex : index < imp.streams.length) (k : ℕ) :
    (imp.freed index slot).streamAt k =
      if k = index then { imp.streamAt index with free := (imp.streamAt index).free ++ [slot] } else imp.streamAt k := by
  rw [← streamAt_set imp hindex, ← modify_eq_set hindex fun stream => { stream with free := stream.free ++ [slot] }]
  rfl

/-! ## Slots -/

def heldSlots (chunks : Dict ℕ Chunk) : List ℕ := chunks.values.map fun chunk => chunk.cut.slot

theorem heldSlots_of_get? {chunks : Dict ℕ Chunk} {id : ℕ} {chunk : Chunk} (h : chunks.get? id = some chunk) :
    (heldSlots chunks).Perm (chunk.cut.slot :: heldSlots (chunks.erase id)) := (Dict.values_perm h).map _

theorem mem_heldSlots {chunks : Dict ℕ Chunk} {slot : ℕ} :
    slot ∈ heldSlots chunks ↔ ∃ id chunk, chunks.get? id = some chunk ∧ chunk.cut.slot = slot := by
  rw [heldSlots, List.mem_map]
  constructor
  · intro h
    obtain ⟨chunk, hmem, rfl⟩ := h
    obtain ⟨id, hid⟩ := Dict.mem_values.1 hmem
    exact ⟨id, chunk, hid, rfl⟩
  · intro h
    obtain ⟨id, chunk, hid, rfl⟩ := h
    exact ⟨chunk, Dict.mem_values.2 ⟨id, hid⟩, rfl⟩

theorem heldSlots_insert {chunks : Dict ℕ Chunk} {id : ℕ} {chunk : Chunk} (h : id ∉ chunks.keys) :
    (heldSlots (chunks.insert id chunk)).Perm (chunk.cut.slot :: heldSlots chunks) := by
  have hget : (chunks.insert id chunk).get? id = some chunk := by rw [Dict.get?_insert, if_pos rfl]
  have := heldSlots_of_get? hget
  rwa [Dict.erase_insert, Dict.erase_of_not_mem h] at this

/-- A source read waits for the chunk that had its slot before: all of that chunk has completed. -/
def Exclusive (log : List Submission) : Prop :=
  ∀ pre b post, log = pre ++ b :: post → b.index = 0 → ∀ a ∈ pre, a.cut.slot = b.cut.slot →
    ∃ last ∈ pre, last.chunk = a.chunk ∧ last.left = 0 ∧ a.completionNs ≤ last.completionNs ∧
      last.completionNs ≤ b.atNs

theorem Exclusive.append {log : List Submission} {b : Submission} (h : Exclusive log)
    (hb : b.index = 0 → ∀ a ∈ log, a.cut.slot = b.cut.slot → ∃ last ∈ log, last.chunk = a.chunk ∧ last.left = 0 ∧
      a.completionNs ≤ last.completionNs ∧ last.completionNs ≤ b.atNs) : Exclusive (log ++ [b]) := by
  intro pre c post hcut hc
  obtain ⟨u, hu, hrest⟩ | ⟨u, hu, hrest⟩ := List.append_eq_append_iff.1 hcut
  · cases u with
    | nil =>
      rw [List.nil_append] at hrest
      obtain ⟨rfl, rfl⟩ := List.cons.inj hrest
      rw [List.append_nil] at hu
      rw [hu]
      exact hb hc
    | cons x u => simp at hrest
  · cases u with
    | nil =>
      rw [List.nil_append] at hrest
      obtain ⟨rfl, rfl⟩ := List.cons.inj hrest
      rw [List.append_nil] at hu
      rw [← hu]
      exact hb hc
    | cons x u =>
      rw [List.cons_append, List.cons.injEq] at hrest
      obtain ⟨rfl, -⟩ := hrest
      exact h pre c u hu hc

structure Slots (imp : Import) : Prop where
  apart : (imp.streams.flatMap ImportStream.free ++ heldSlots imp.chunks).Nodup
  free : ∀ k slot, slot ∈ (imp.streamAt k).free → slot % imp.streams.length = k
  dealt : ∀ a ∈ imp.log, a.cut.slot % imp.streams.length = a.cut.stream
  exclusive : Exclusive imp.log

/-- A slot that is neither free nor held. -/
def Loose (imp : Import) (slot : ℕ) : Prop := slot ∉ imp.streams.flatMap ImportStream.free ++ heldSlots imp.chunks

namespace Slots

theorem released {id : ℕ} {chunk : Chunk} (h : Slots imp) (hchunk : imp.chunks.get? id = some chunk) :
    Slots (imp.released id) ∧ Loose (imp.released id) chunk.cut.slot := by
  have hperm := (List.Perm.append_left (imp.streams.flatMap ImportStream.free) (heldSlots_of_get? hchunk)).trans
    List.perm_middle
  have hnodup := hperm.nodup_iff.1 h.apart
  exact ⟨⟨(List.nodup_cons.1 hnodup).2, h.free, h.dealt, h.exclusive⟩, (List.nodup_cons.1 hnodup).1⟩

/-- The slot of a chunk goes to no other stream. -/
theorem stream_of {id : ℕ} {chunk : Chunk} (h : Slots imp) (hl : Ledger P locate clock imp)
    (hchunk : imp.chunks.get? id = some chunk) : chunk.cut.slot % imp.streams.length = chunk.cut.stream := by
  obtain ⟨-, -, t, -, htold⟩ := hl.live id chunk hchunk
  obtain ⟨a, ha, -⟩ := htold.last
  rw [← htold.cut_eq a ha]
  exact h.dealt a (mem_chunkLog.1 ha).1

theorem carried {now done : ℚ} {id : ℕ} {chunk : Chunk} {action : ImportAction} (h : Slots imp)
    (hl : Ledger P locate clock imp) (hchunk : imp.chunks.get? id = some chunk) :
    Slots (imp.carried now id chunk action done) := by
  have hposition : chunk.position ≠ 0 := by
    obtain ⟨-, hlen, t, -, htold⟩ := hl.live id chunk hchunk
    rw [← hlen]
    exact fun h0 => htold.ne_nil (List.length_eq_zero_iff.1 h0)
  refine ⟨?_, h.free, fun a ha => ?_, h.exclusive.append fun h0 => absurd h0 hposition⟩
  · have hperm := heldSlots_of_get? hchunk
    by_cases hmore : chunk.position + 1 < chunk.actions.length ∨ (imp.streamAt chunk.cut.stream).unstarted
    · have hchunks : (imp.carried now id chunk action done).chunks =
          imp.chunks.insert id { chunk with position := chunk.position + 1 } := if_pos hmore
      have hget : (imp.chunks.insert id { chunk with position := chunk.position + 1 }).get? id =
          some { chunk with position := chunk.position + 1 } := by rw [Dict.get?_insert, if_pos rfl]
      have hperm' := heldSlots_of_get? hget
      rw [Dict.erase_insert] at hperm'
      rw [hchunks]
      exact (List.Perm.append_left _ (hperm.trans hperm'.symm)).nodup_iff.1 h.apart
    · have hchunks : (imp.carried now id chunk action done).chunks = imp.chunks.erase id := if_neg hmore
      rw [hchunks]
      exact (List.nodup_cons.1 (((List.Perm.append_left _ hperm).trans List.perm_middle).nodup_iff.1 h.apart)).2
  · obtain ha | ha := List.mem_append.1 ha
    · exact h.dealt a ha
    · rw [List.mem_singleton.1 ha]
      exact h.stream_of hl hchunk

/-- Free slots taken from a stream are not in use. -/
theorem taken {index slot : ℕ} {free : List ℕ} (h : Slots imp) (hindex : index < imp.streams.length)
    (hfree : (imp.streamAt index).free = slot :: free) :
    Slots (imp.taken index free) ∧ Loose (imp.taken index free) slot := by
  have hstreams : (imp.taken index free).streams = imp.streams.set index { imp.streamAt index with free } :=
    modify_eq_set hindex _
  have hperm : (imp.streams.flatMap ImportStream.free).Perm
      (slot :: (imp.taken index free).streams.flatMap ImportStream.free) := by
    rw [hstreams]
    refine @flatMap_set imp _ ImportStream.free index _ [slot] [] hindex ?_
    rw [hfree]
    exact .refl _
  have hnodup : (slot :: ((imp.taken index free).streams.flatMap ImportStream.free ++ heldSlots imp.chunks)).Nodup :=
    (hperm.append_right (heldSlots imp.chunks)).nodup_iff.1 h.apart
  have hlen : (imp.taken index free).streams.length = imp.streams.length := by rw [hstreams, List.length_set]
  refine ⟨⟨(List.nodup_cons.1 hnodup).2, fun k slot' hmem => ?_, ?_, h.exclusive⟩, (List.nodup_cons.1 hnodup).1⟩
  · rw [hlen]
    rw [taken_streamAt hindex] at hmem
    split at hmem
    · next he =>
      rw [he]
      exact h.free index slot' (hfree ▸ List.mem_cons_of_mem _ hmem)
    · exact h.free k slot' hmem
  · rw [hlen]
    exact h.dealt

/-- A loose slot given back. -/
theorem freed {index slot : ℕ} (h : Slots imp) (hindex : index < imp.streams.length) (hloose : Loose imp slot)
    (hslot : slot % imp.streams.length = index) : Slots (imp.freed index slot) := by
  have hstreams : (imp.freed index slot).streams =
      imp.streams.set index { imp.streamAt index with free := (imp.streamAt index).free ++ [slot] } :=
    modify_eq_set hindex _
  have hperm : ((imp.freed index slot).streams.flatMap ImportStream.free).Perm
      (slot :: imp.streams.flatMap ImportStream.free) := by
    rw [hstreams]
    refine (@flatMap_set imp _ ImportStream.free index _ [] [slot] hindex ?_).symm
    exact (List.perm_append_singleton slot _).symm
  have hlen : (imp.freed index slot).streams.length = imp.streams.length := by rw [hstreams, List.length_set]
  refine ⟨?_, fun k slot' hmem => ?_, ?_, h.exclusive⟩
  · exact (hperm.append_right (heldSlots imp.chunks)).nodup_iff.2 (List.nodup_cons.2 ⟨hloose, h.apart⟩)
  · rw [hlen]
    rw [freed_streamAt hindex] at hmem
    split at hmem
    · next he =>
      rw [he]
      obtain hmem | hmem := List.mem_append.1 hmem
      · exact h.free index slot' hmem
      · rw [List.mem_singleton.1 hmem]
        exact hslot
    · exact h.free k slot' hmem
  · rw [hlen]
    exact h.dealt

/-- **A chunk that starts** in a loose slot: whoever had the slot has completed. -/
theorem started {done : ℚ} {cut : Cut} {row : Row} {read : ImportAction} {rest : List ImportAction} (h : Slots imp)
    (hl : Ledger P locate clock imp) (hun : (imp.streamAt cut.stream).unstarted) (hloose : Loose imp cut.slot)
    (hslot : cut.slot % imp.streams.length = cut.stream) : Slots (imp.started cut row read rest clock done) := by
  have hcut := lt_of_unstarted hun
  have hnew : imp.nextChunkId ∉ imp.chunks.keys := fun hk => absurd (hl.known _ hk) (lt_irrefl _)
  have hlen : (imp.started cut row read rest clock done).streams.length = imp.streams.length := List.length_set
  have hfree : (imp.streams.flatMap ImportStream.free).Perm
      ((imp.started cut row read rest clock done).streams.flatMap ImportStream.free) := by
    refine @flatMap_set imp _ ImportStream.free cut.stream _ [] [] hcut ?_
    rw [ImportStream.moved_free]
  refine ⟨?_, fun k slot hmem => ?_, fun a ha => ?_, h.exclusive.append fun _ a ha hsame => ?_⟩
  · have hheld : (heldSlots (imp.chunks.insert imp.nextChunkId ⟨cut, read :: rest, 1⟩)).Perm
        (cut.slot :: heldSlots imp.chunks) := heldSlots_insert hnew
    have hperm := ((hfree.symm.append_right _).trans (List.Perm.append_left _ hheld)).trans List.perm_middle
    exact hperm.nodup_iff.2 (List.nodup_cons.2 ⟨hloose, h.apart⟩)
  · rw [hlen]
    rw [started_free hcut] at hmem
    exact h.free k slot hmem
  · rw [hlen]
    obtain ha | ha := List.mem_append.1 ha
    · exact h.dealt a ha
    · rw [List.mem_singleton.1 ha]
      exact hslot
  · -- the chunk of `a` is gone, or it would hold the slot
    have hsame : a.cut.slot = cut.slot := hsame
    have hmem : a ∈ chunkLog a.chunk imp.log := mem_chunkLog.2 ⟨ha, rfl⟩
    cases hget : imp.chunks.get? a.chunk with
    | some chunk =>
      obtain ⟨-, -, t, -, htold⟩ := hl.live a.chunk chunk hget
      refine absurd (List.mem_append_right _ (mem_heldSlots.2 ⟨a.chunk, chunk, hget, ?_⟩)) hloose
      rw [← htold.cut_eq a hmem, hsame]
    | none =>
      obtain ⟨cut', actions, t, -, htold, hwhole, hle⟩ := hl.ended a.chunk (hl.fresh a ha) hget
      obtain ⟨last, hlast, hdone, hleft⟩ := htold.last
      have hstream : cut'.stream = cut.stream := by
        rw [← htold.cut_eq a hmem, ← h.dealt a ha, hsame, hslot]
      obtain ⟨hin, hchunk⟩ := mem_chunkLog.1 hlast
      refine ⟨last, hin, hchunk, by rw [hleft, hwhole, Nat.sub_self], ?_, ?_⟩
      · rw [hdone]
        exact htold.completion_le a hmem
      · rw [hdone]
        exact hle (hstream ▸ hun)

end Slots

/-! ## The flow of the bytes -/

def pendingTargets (chunks : Dict ℕ Chunk) : List Piece := chunks.values.flatMap Chunk.pending

theorem pendingTargets_of_get? {chunks : Dict ℕ Chunk} {id : ℕ} {chunk : Chunk} (h : chunks.get? id = some chunk) :
    (pendingTargets chunks).Perm (chunk.pending ++ pendingTargets (chunks.erase id)) := by
  have := (Dict.values_perm h).flatMap_right Chunk.pending
  rwa [List.flatMap_cons] at this

theorem pendingTargets_insert {chunks : Dict ℕ Chunk} {id : ℕ} (chunk : Chunk) :
    (pendingTargets (chunks.insert id chunk)).Perm (chunk.pending ++ pendingTargets (chunks.erase id)) := by
  have hget : (chunks.insert id chunk).get? id = some chunk := by rw [Dict.get?_insert, if_pos rfl]
  have := pendingTargets_of_get? hget
  rwa [Dict.erase_insert] at this

/-- What the next action takes from what a chunk has still to write. -/
theorem pending_next {chunk : Chunk} {action : ImportAction} (h : chunk.actions[chunk.position]? = some action)
    {a : Submission} (haction : a.action = action) (hcut : a.cut = chunk.cut) :
    chunk.pending = targets [a] ++ ({ chunk with position := chunk.position + 1 } : Chunk).pending := by
  obtain ⟨hlt, rfl⟩ := List.getElem?_eq_some_iff.1 h
  rw [Chunk.pending, Chunk.pending, targets, List.drop_eq_getElem_cons hlt, List.filter_cons, List.filter_cons, haction,
    List.filter_nil]
  split
  · rw [List.map_cons, List.map_cons, List.map_nil, hcut]
    rfl
  · rfl

theorem pending_whole {chunk : Chunk} (h : chunk.actions[chunk.position]? = none) : chunk.pending = [] := by
  rw [Chunk.pending, List.drop_eq_nil_of_le (List.getElem?_eq_none_iff.1 h)]
  rfl

structure Flow (imp : Import) : Prop where
  chunkBytes : 0 < imp.setup.chunkBytes
  sound : ∀ stream ∈ imp.streams, stream.Sound imp.setup
  reads : ∀ k, reads k imp.log ++ (imp.streamAt k).ahead imp.setup = rowsPieces imp.setup (imp.streamAt k).rows
  targets : (targets imp.log ++ pendingTargets imp.chunks ++ imp.streams.flatMap (ImportStream.ahead imp.setup)).Perm
    (imp.streams.flatMap fun stream => rowsPieces imp.setup stream.rows)

namespace Flow

theorem released {id : ℕ} {chunk : Chunk} (h : Flow imp) (hchunk : imp.chunks.get? id = some chunk)
    (hwhole : chunk.actions[chunk.position]? = none) : Flow (imp.released id) := by
  refine ⟨h.chunkBytes, h.sound, h.reads, ?_⟩
  have hperm := pendingTargets_of_get? hchunk
  rw [pending_whole hwhole, List.nil_append] at hperm
  exact ((List.Perm.append_left _ hperm).append_right _).symm.trans h.targets

theorem carried {now done : ℚ} {id : ℕ} {chunk : Chunk} {action : ImportAction} (h : Flow imp)
    (hl : Ledger P locate clock imp) (hchunk : imp.chunks.get? id = some chunk)
    (haction : chunk.actions[chunk.position]? = some action) : Flow (imp.carried now id chunk action done) := by
  have hposition : chunk.position ≠ 0 := by
    obtain ⟨-, hlen, t, -, htold⟩ := hl.live id chunk hchunk
    rw [← hlen]
    exact fun h0 => htold.ne_nil (List.length_eq_zero_iff.1 h0)
  let a : Submission := ⟨id, chunk.cut, chunk.position, chunk.actions.length - (chunk.position + 1), action, now, done⟩
  have hlog : (imp.carried now id chunk action done).log = imp.log ++ [a] := rfl
  refine ⟨h.chunkBytes, h.sound, fun k => ?_, ?_⟩
  · rw [hlog, reads_append, reads_later (a := a) hposition, List.append_nil]
    exact h.reads k
  · have hnext := pending_next haction (a := a) rfl rfl
    have hpending : (Transfer.targets [a] ++ pendingTargets (imp.carried now id chunk action done).chunks).Perm
        (pendingTargets imp.chunks) := by
      refine List.Perm.trans ?_ (pendingTargets_of_get? hchunk).symm
      rw [hnext, List.append_assoc]
      refine List.Perm.append_left _ ?_
      by_cases hmore : chunk.position + 1 < chunk.actions.length ∨ (imp.streamAt chunk.cut.stream).unstarted
      · rw [show (imp.carried now id chunk action done).chunks = _ from if_pos hmore]
        exact pendingTargets_insert _
      · rw [show (imp.carried now id chunk action done).chunks = _ from if_neg hmore, pending_whole, List.nil_append]
        exact List.getElem?_eq_none (Nat.le_of_not_lt (not_or.1 hmore).1)
    rw [hlog, targets_append, List.append_assoc (Transfer.targets imp.log)]
    exact ((List.Perm.append_left _ hpending).append_right _).trans h.targets

/-- The free slots are not looked at. -/
theorem streams {streams : List ImportStream} (h : Flow imp) {index : ℕ} {stream : ImportStream}
    (hindex : index < imp.streams.length) (hset : streams = imp.streams.set index stream)
    (hrows : stream.rows = (imp.streamAt index).rows) (hcursor : stream.cursor = (imp.streamAt index).cursor)
    (hoffset : stream.offset = (imp.streamAt index).offset) : Flow { imp with streams } := by
  have hahead : stream.ahead imp.setup = (imp.streamAt index).ahead imp.setup := by
    rw [ImportStream.ahead, ImportStream.ahead, hrows, hcursor, hoffset]
  subst hset
  refine ⟨h.chunkBytes, fun s hs => ?_, fun k => ?_, ?_⟩
  · obtain hs | rfl := List.mem_or_eq_of_mem_set hs
    · exact h.sound s hs
    · have hsound := h.sound _ (streamAt_mem hindex)
      refine ⟨?_, ?_⟩
      · rw [hrows]
        exact hsound.rows
      · rw [hrows, hcursor, hoffset]
        exact hsound.offset
  · rw [Import.streamAt]
    change Transfer.reads k imp.log ++ (((imp.streams.set index stream)[k]?).getD _).ahead imp.setup =
      rowsPieces imp.setup (((imp.streams.set index stream)[k]?).getD _).rows
    rw [streamAt_set imp hindex]
    split
    · next he =>
      rw [hahead, hrows, he]
      exact h.reads index
    · exact h.reads k
  · have hleft : (imp.streams.flatMap (ImportStream.ahead imp.setup)).Perm
        ((imp.streams.set index stream).flatMap (ImportStream.ahead imp.setup)) :=
      @flatMap_set imp _ (ImportStream.ahead imp.setup) index stream [] [] hindex (by rw [hahead])
    have hright : (imp.streams.flatMap fun stream => rowsPieces imp.setup stream.rows).Perm
        ((imp.streams.set index stream).flatMap fun stream => rowsPieces imp.setup stream.rows) :=
      @flatMap_set imp _ (fun stream => rowsPieces imp.setup stream.rows) index stream [] [] hindex (by rw [hrows])
    exact ((List.Perm.append_left _ hleft).symm.trans h.targets).trans hright

/-- **A chunk that starts** carries the next piece of its stream. -/
theorem started {done : ℚ} {cut : Cut} {row : Row} {read : ImportAction} {rest : List ImportAction} (h : Flow imp)
    (hl : Ledger P locate clock imp) (hmade : Made P locate imp.setup cut (read :: rest))
    (hun : (imp.streamAt cut.stream).unstarted)
    (hahead : (imp.streamAt cut.stream).ahead imp.setup =
      cut.piece :: ((imp.streamAt cut.stream).moved cut.piece row).ahead imp.setup)
    (hsound : ((imp.streamAt cut.stream).moved cut.piece row).Sound imp.setup) :
    Flow (imp.started cut row read rest clock done) := by
  have hcut := lt_of_unstarted hun
  have hnew : imp.nextChunkId ∉ imp.chunks.keys := fun hk => absurd (hl.known _ hk) (lt_irrefl _)
  let a : Submission := ⟨imp.nextChunkId, cut, 0, rest.length, read, clock, done⟩
  have hlog : (imp.started cut row read rest clock done).log = imp.log ++ [a] := rfl
  refine ⟨h.chunkBytes, fun s hs => ?_, fun k => ?_, ?_⟩
  · obtain hs | rfl := List.mem_or_eq_of_mem_set hs
    · exact h.sound s hs
    · exact hsound
  · rw [started_rows hcut, hlog, reads_append, started_streamAt hcut]
    split
    · next he =>
      change _ = rowsPieces imp.setup _
      rw [he, ← h.reads cut.stream, hahead, show Transfer.reads cut.stream [a] = [cut.piece] by simp [Transfer.reads, a],
        List.append_assoc]
      rfl
    · next he =>
      rw [show Transfer.reads k [a] = [] by simp [Transfer.reads, a, Ne.symm he], List.append_nil]
      exact h.reads k
  · obtain ⟨read', rest', heq, hread, hone⟩ := hmade.targets
    obtain ⟨rfl, rfl⟩ := List.cons.inj heq
    have htargets : Transfer.targets [a] = [] := by simp [Transfer.targets, a, hread]
    have hpending : (⟨cut, read :: rest, 1⟩ : Chunk).pending = [cut.piece] := by
      obtain ⟨x, hx⟩ := List.length_eq_one_iff.1 hone
      rw [Chunk.pending]
      change (rest.filter ImportAction.isTarget).map _ = _
      rw [hx]
      rfl
    have hchunks : (pendingTargets (imp.started cut row read rest clock done).chunks).Perm
        (cut.piece :: pendingTargets imp.chunks) := by
      have := @pendingTargets_insert imp.chunks imp.nextChunkId ⟨cut, read :: rest, 1⟩
      rwa [hpending, Dict.erase_of_not_mem hnew] at this
    have hleft : (imp.streams.flatMap (ImportStream.ahead imp.setup)).Perm
        (cut.piece :: (imp.started cut row read rest clock done).streams.flatMap (ImportStream.ahead imp.setup)) :=
      @flatMap_set imp _ (ImportStream.ahead imp.setup) cut.stream _ [cut.piece] [] hcut (by rw [hahead]; exact .refl _)
    have hright : (imp.streams.flatMap fun stream => rowsPieces imp.setup stream.rows).Perm
        ((imp.started cut row read rest clock done).streams.flatMap fun stream => rowsPieces imp.setup stream.rows) :=
      @flatMap_set imp _ (fun stream => rowsPieces imp.setup stream.rows) cut.stream _ [] [] hcut
        (by rw [ImportStream.moved_rows])
    refine List.Perm.trans ?_ (h.targets.trans hright)
    rw [hlog, targets_append, htargets, List.append_nil]
    refine ((List.Perm.append_left _ hchunks).append_right _).trans ?_
    refine List.Perm.trans ?_ (List.Perm.append_left _ hleft).symm
    rw [List.append_assoc, List.append_assoc]
    refine List.Perm.append_left _ ?_
    rw [List.cons_append]
    exact List.perm_middle.symm

end Flow

end HeteroSim.Transfer
