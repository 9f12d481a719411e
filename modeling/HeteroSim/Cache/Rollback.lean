/-
Rollback is exact. The journal holds, for every edit since the transaction
began, what undoes it: undone newest first, the edits lead back to the
lines at the begin. Between begin and rollback any calls may run, and any
of them may raise.
-/
import HeteroSim.Cache.Edits

namespace HeteroSim.Cache

/-! ## One edit and its record -/

theorem insertBefore_head {k s : LineKey} {line l : CacheLine} :
    ∀ {pre post : List (LineKey × CacheLine)}, s ∉ pre.map Prod.fst →
      insertBefore s k line (pre ++ (s, l) :: post) = pre ++ (k, line) :: (s, l) :: post
  | [], post, _ => by simp [insertBefore]
  | (q, m) :: pre, post, h => by
    simp only [List.map_cons, List.mem_cons, not_or] at h
    simp only [List.cons_append, insertBefore, Ne.symm h.1, if_false, insertBefore_head h.2]

/-- The record of the line at `k`, before an edit of it. -/
def lineRecord (k : LineKey) (c : CacheState) : LineRecord :=
  ⟨k, c.lines.contains k, c.lines.get? k, (c.lruNext k).join⟩

/-- An edit that leaves every other line where it was is undone by the
record of the line it edits, the successor read off the links. -/
theorem undoLine_edit {c : CacheState} (h : Linked c) {k : LineKey} {lines' : Dict LineKey CacheLine}
    (he : lines'.erase k = c.lines.erase k) : undoLine lines' (lineRecord k c) = c.lines := by
  cases hg : c.lines.get? k with
  | none =>
    have hk : k ∉ c.lines.keys := Dict.get?_eq_none.1 hg
    simp only [undoLine, lineRecord, Dict.contains, hg, Option.isSome_none, he]
    exact Dict.erase_of_not_mem hk
  | some line =>
    obtain ⟨pre, post, hs, hpre, hpost⟩ := Dict.split hg
    have herase := Dict.items_erase_split hs hpre hpost
    have hnext : c.lruNext k = some (post.map Prod.fst).head? := by
      rw [h.next, Dict.keys, hs, List.map_append, List.map_cons]
      exact linkNext_mid hpre
    simp only [undoLine, lineRecord, Dict.contains, hg, Option.isSome_some, he, hnext, Option.join_some]
    cases post with
    | nil =>
      refine Dict.ext ?_
      simp only [List.map_nil, List.head?_nil]
      rw [Dict.items_insert_of_not_mem (by simp), herase, hs, List.append_nil]
    | cons q post =>
      obtain ⟨s, l⟩ := q
      have hn := c.lines.nodup
      rw [hs, List.map_append, List.nodup_append] at hn
      have hspre : s ∉ pre.map Prod.fst := fun hm => hn.2.2 _ hm _ (by simp) rfl
      have hmem : s ∈ (c.lines.erase k).keys := by rw [Dict.keys, herase]; simp
      simp only [List.map_cons, List.head?_cons, hmem, if_true]
      refine Dict.ext ?_
      simp only [herase, insertBefore_head hspre, hs]

theorem setLine_erase (k : LineKey) (line : CacheLine) (c : CacheState) :
    (setLine k line c).lines.erase k = c.lines.erase k := by
  unfold setLine
  simp only [recordLine_lines]
  split
  · exact c.lines.erase_insert k line
  · exact (congrArg (Dict.erase · k) (by simp [link, attach])).trans (c.lines.erase_insert k line)

theorem popLine_erase (k : LineKey) (c : CacheState) : (popLine k c).2.lines.erase k = c.lines.erase k := by
  simp only [popLine, recordLine_lines]
  split
  · rw [recordLine_lines]
  · refine Dict.ext ?_
    simp [unlink, Dict.erase, recordLine_lines, List.filter_filter]

/-! ## The journal invariant -/

/-- The journal of transaction `ident`, in state `c`, leads back to `c0`. -/
structure Journal (c0 : CacheState) (ident : Nat) (c : CacheState) : Prop where
  linked : Linked c
  config : c.config = c0.config
  nextIdent : c.nextIdent = c0.nextIdent + 1
  journal : ∃ t, c.transaction = some t ∧ t.ident = ident ∧ t.scalars = c0.counters ∧
    t.lines.reverse.foldl undoLine c.lines = c0.lines ∧
    (∀ k ∉ t.bufferSeen, c.bufferSizes k = c0.bufferSizes k) ∧
    ∀ sizes : BufferKey → Option (Option Nat), (∀ k ∉ t.bufferSeen, sizes k = c0.bufferSizes k) →
      t.buffers.reverse.foldl undoBuffer sizes = c0.bufferSizes

/-- An edit of one line, its record written. -/
theorem Journal.edit {c0 : CacheState} {ident : Nat} {c c' : CacheState} (h : Journal c0 ident c) {k : LineKey}
    (hl : Linked c') (ht : c'.transaction = (recordLine k c).transaction) (hc : c'.config = c.config)
    (hi : c'.nextIdent = c.nextIdent) (hb : c'.bufferSizes = c.bufferSizes)
    (he : c'.lines.erase k = c.lines.erase k) : Journal c0 ident c' := by
  obtain ⟨t, hopen, hid, hs, hlines, hseen, hbuf⟩ := h.journal
  refine ⟨hl, hc.trans h.config, hi.trans h.nextIdent, { t with lines := t.lines ++ [lineRecord k c] }, ?_, hid, hs,
    ?_, hb ▸ hseen, hbuf⟩
  · rw [ht]; simp only [recordLine, hopen, lineRecord]
  · simp only [List.reverse_append, List.reverse_cons, List.reverse_nil, List.nil_append, List.cons_append,
      List.foldl_cons, undoLine_edit h.linked he, hlines]

@[simp] theorem recordLine_nextIdent (k : LineKey) (c : CacheState) :
    (recordLine k c).nextIdent = c.nextIdent := by unfold recordLine; split <;> rfl

theorem Journal.setLine {c0 : CacheState} {ident : Nat} {c : CacheState} (h : Journal c0 ident c) (k : LineKey)
    (line : CacheLine) : Journal c0 ident (setLine k line c) := by
  refine h.edit (h.linked.setLine k line) (k := k) ?_ ?_ ?_ ?_ (setLine_erase k line c) <;>
    · simp only [Cache.setLine]
      split <;> simp [link, attach]

theorem Journal.popLine {c0 : CacheState} {ident : Nat} {c : CacheState} (h : Journal c0 ident c) (k : LineKey) :
    Journal c0 ident (popLine k c).2 := by
  refine h.edit (h.linked.popLine k) (k := k) ?_ ?_ ?_ ?_ (popLine_erase k c) <;>
    · simp only [Cache.popLine]
      split <;> simp [unlink]

theorem Journal.writeSize {c0 : CacheState} {ident : Nat} {c : CacheState} (h : Journal c0 ident c) (key : BufferKey)
    (v : Option (Option Nat)) : Journal c0 ident (writeSize key v c) := by
  have hl := linked_edits.size key v h.linked
  obtain ⟨t, hopen, hid, hs, hlines, hseen, hbuf⟩ := h.journal
  by_cases hk : key ∈ t.bufferSeen
  · have hr : rememberBuffer key c = c := by simp [rememberBuffer, hopen, hk]
    simp only [Cache.writeSize, hr] at hl ⊢
    refine ⟨hl, h.config, h.nextIdent, t, hopen, hid, hs, hlines, fun k hn => ?_, hbuf⟩
    have : k ≠ key := fun e => hn (e ▸ hk)
    simp only [Function.update_of_ne this, hseen k hn]
  · -- The first change of this size: its record is the value at the begin.
    have hr : rememberBuffer key c = { c with transaction := some { t with
        bufferSeen := insert key t.bufferSeen
        buffers := t.buffers ++ [⟨key, (c.bufferSizes key).isSome, (c.bufferSizes key).join⟩] } } := by
      simp [rememberBuffer, hopen, hk]
    simp only [Cache.writeSize, hr] at hl ⊢
    refine ⟨hl, h.config, h.nextIdent, _, rfl, hid, hs, hlines, fun k hn => ?_, fun sizes hz => ?_⟩
    · simp only [Finset.mem_insert, not_or] at hn
      simp only [Function.update_of_ne hn.1, hseen k hn.2]
    · simp only [List.reverse_append, List.reverse_cons, List.reverse_nil, List.nil_append, List.cons_append,
        List.foldl_cons]
      refine hbuf _ fun k hn => ?_
      have hv : (if (c.bufferSizes key).isSome then some (c.bufferSizes key).join else none) =
          c0.bufferSizes key := by
        rw [← hseen key hk]; cases c.bufferSizes key <;> rfl
      by_cases hkey : k = key
      · subst hkey; simp only [undoBuffer, Function.update_self, hv]
      · simp only [undoBuffer, Function.update_of_ne hkey]
        exact hz k (by simp [hkey, hn])

theorem journal_edits (c0 : CacheState) (ident : Nat) : Edits (Journal c0 ident) where
  set k line h := h.setLine k line
  pop k h := h.popLine k
  count _ h := ⟨⟨h.linked.next, h.linked.prev, h.linked.index⟩, h.config, h.nextIdent, h.journal⟩
  size key v h := h.writeSize key v

/-! ## Begin and rollback -/

theorem journal_begin {c c' : CacheState} {ident : Nat} (hl : Linked c)
    (hb : beginTransaction c = .ok ident c') : c.transaction = none ∧ Journal c ident c' := by
  have hw : wp beginTransaction (fun i s => c.transaction = none ∧ Journal c i s) (fun _ _ => True) c := by
    simp only [beginTransaction, wp_bind, wp_get]
    split
    · trivial
    · next hn =>
      refine ⟨hn, ⟨hl.next, hl.prev, hl.index⟩, rfl, rfl, _, rfl, rfl, rfl, rfl, fun _ _ => rfl, fun sizes hz => ?_⟩
      exact funext fun k => hz k (by simp)
  have := wp_ok hw hb
  exact this

theorem relink_eq : ∀ (ks : List LineKey) (b : Option LineKey) (c : CacheState),
    relink b ks c = { c with
      lruPrev := (relink b ks c).lruPrev
      lruNext := (relink b ks c).lruNext
      bufferLineKeys := (relink b ks c).bufferLineKeys }
  | [], _, _ => rfl
  | k :: ks, b, c => by
    simp only [relink]
    rw [relink_eq ks (some k) (attach b k c)]
    rfl

/-- The rebuilt tables are those of any linked state with the same lines. -/
theorem rebuild_eq {c0 c : CacheState} (h : Linked c0) (hl : c.lines = c0.lines) :
    rebuildLruLinks c = { c with
      lruPrev := c0.lruPrev, lruNext := c0.lruNext, bufferLineKeys := c0.bufferLineKeys } := by
  have hr := rebuild_linked c
  have hlines : (rebuildLruLinks c).lines = c0.lines := (relink_lines _ _ _).trans hl
  rw [Linked, hlines] at hr
  have he : rebuildLruLinks c = { c with
      lruPrev := (rebuildLruLinks c).lruPrev
      lruNext := (rebuildLruLinks c).lruNext
      bufferLineKeys := (rebuildLruLinks c).bufferLineKeys } := relink_eq _ _ _
  rw [he, hr.next, hr.prev, hr.index, h.next, h.prev, h.index]

/-- **Rollback is exact.** In any reachable state, whatever calls run between
the begin and the rollback, returned or raised, the rollback leaves the
state as it was: lines, order, links, index, sizes and counters. -/
theorem rollback_exact {cfg : CacheConfig} {c c' d : CacheState} {ident : Nat} (hc : Reachable cfg c)
    (hb : beginTransaction c = .ok ident c') (hr : Relation.ReflTransGen Touch c' d) :
    rollbackTransaction ident d = .ok () { c with nextIdent := c.nextIdent + 1 } := by
  have hl := linked_of_reachable hc
  obtain ⟨hn, hj⟩ := journal_begin hl hb
  have hd := (journal_edits c ident).touches hj hr
  obtain ⟨t, hopen, hid, hs, hlines, hseen, hbuf⟩ := hd.journal
  have hgoal : rollbackTransaction ident d = .ok () { rebuildLruLinks { d with
      lines := t.lines.reverse.foldl undoLine d.lines
      bufferSizes := t.buffers.reverse.foldl undoBuffer d.bufferSizes
      counters := t.scalars } with transaction := none } := by
    simp only [rollbackTransaction, bind, EStateM.bind, get, getThe, MonadStateOf.get, EStateM.get, hopen, hid,
      if_true]
    rfl
  rw [hgoal, rebuild_eq hl hlines, hlines, hbuf _ hseen, hs, hd.config, hd.nextIdent, ← hn]

/-- A write that evicts nothing, a flush of it, and the rollback of both. -/
theorem rollback_exact_written : ∃ c c' d : CacheState, beginTransaction c = .ok 0 c' ∧ d.lines.items.length = 2 ∧
    rollbackTransaction 0 d = .ok () { c with nextIdent := c.nextIdent + 1 } := by
  let a : CacheAccess := ⟨"kv", 2, 4, .write, some 6, 0, by decide, by decide, by decide, by decide⟩
  have hb : beginTransaction (.init ⟨8, 4, true, true, by decide, by decide, by decide⟩) = .ok 0 _ := rfl
  exact ⟨_, _, _, hb, by decide +kernel, rollback_exact .refl hb ((Relation.ReflTransGen.single (.access _ a)).tail
    (.flush _ none none))⟩

end HeteroSim.Cache
