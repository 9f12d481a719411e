/-
The link tables and the per-buffer index hold nothing of their own: both
are functions of the order of the keys. `Linked` says so, and every method
that edits a line keeps it, so a rollback may rebuild them from the order.
-/
import HeteroSim.Cache.Access

namespace HeteroSim.Cache

/-! ## The tables an order determines -/

def linkNext : List LineKey → LineKey → Option (Option LineKey)
  | [], _ => none
  | k :: ks, x => if x = k then some ks.head? else linkNext ks x

/-- `before` is the key in front of the list. -/
def linkPrev (before : Option LineKey) : List LineKey → LineKey → Option (Option LineKey)
  | [], _ => none
  | k :: ks, x => if x = k then some before else linkPrev (some k) ks x

def keysOf (ks : List LineKey) (b : BufferKey) : Finset LineKey := ks.toFinset.filter (·.bufferKey = b)

def keyIndex (ks : List LineKey) (b : BufferKey) : Option (Finset LineKey) :=
  if keysOf ks b = ∅ then none else some (keysOf ks b)

/-- The tables of `c` are those of the order `ks`. -/
structure TablesOf (ks : List LineKey) (c : CacheState) : Prop where
  next : c.lruNext = linkNext ks
  prev : c.lruPrev = linkPrev none ks
  index : c.bufferLineKeys = keyIndex ks

/-- The tables are those of the lines' order. -/
def Linked (c : CacheState) : Prop := TablesOf c.lines.keys c

theorem linkNext_of_not_mem : ∀ {ks : List LineKey} {x : LineKey}, x ∉ ks → linkNext ks x = none
  | [], _, _ => rfl
  | k :: ks, x, h => by
    simp only [List.mem_cons, not_or] at h
    simp only [linkNext, h.1, if_false, linkNext_of_not_mem h.2]

theorem linkPrev_of_not_mem : ∀ {ks : List LineKey} {b : Option LineKey} {x : LineKey}, x ∉ ks → linkPrev b ks x = none
  | [], _, _, _ => rfl
  | k :: ks, _, x, h => by
    simp only [List.mem_cons, not_or] at h
    simp only [linkPrev, h.1, if_false, linkPrev_of_not_mem h.2]

theorem linkNext_mid : ∀ {pre post : List LineKey} {k : LineKey}, k ∉ pre →
    linkNext (pre ++ k :: post) k = some post.head?
  | [], _, k, _ => by simp [linkNext]
  | p :: pre, post, k, h => by
    simp only [List.mem_cons, not_or] at h
    simp only [List.cons_append, linkNext, h.1, if_false, linkNext_mid h.2]

theorem getLast?_cons_or {k : LineKey} {ks : List LineKey} {b : Option LineKey} :
    (k :: ks).getLast?.or b = ks.getLast?.or (some k) := by
  rw [List.getLast?_cons]
  cases ks.getLast? <;> rfl

theorem linkPrev_mid : ∀ {pre post : List LineKey} {k : LineKey} {b : Option LineKey}, k ∉ pre →
    linkPrev b (pre ++ k :: post) k = some (pre.getLast?.or b)
  | [], _, k, b, _ => by simp [linkPrev]
  | p :: pre, post, k, b, h => by
    simp only [List.mem_cons, not_or] at h
    simp only [List.cons_append, linkPrev, h.1, if_false, linkPrev_mid h.2, getLast?_cons_or]

/-! ## Cutting a key out -/

theorem linkNext_cut : ∀ {pre post : List LineKey} {k : LineKey}, (pre ++ k :: post).Nodup → ∀ x,
    linkNext (pre ++ post) x =
      if pre.getLast? = some x then some post.head?
      else if x = k then none else linkNext (pre ++ k :: post) x
  | [], post, k, h, x => by
    simp only [List.nil_append, List.nodup_cons] at h
    simp only [List.nil_append, List.getLast?_nil, reduceCtorEq, if_false, linkNext]
    split
    · next hx => subst hx; exact linkNext_of_not_mem h.1
    · rfl
  | p :: pre, post, k, h, x => by
    simp only [List.cons_append, List.nodup_cons, List.mem_append, List.mem_cons, not_or] at h
    have ih := linkNext_cut h.2 x
    simp only [List.cons_append, linkNext]
    by_cases hx : x = p
    · subst hx
      cases pre with
      | nil => simp
      | cons q pre =>
        have hl : (x :: q :: pre).getLast? ≠ some x := by
          rw [List.getLast?_cons_cons]
          exact fun hm => h.1.1 (List.mem_of_getLast? hm)
        simp only [if_true, hl, if_false, h.1.2.1, List.cons_append, List.head?_cons]
    · simp only [hx, if_false, ih]
      cases pre with
      | nil => simp [Ne.symm hx]
      | cons q pre => rw [List.getLast?_cons_cons]

theorem linkPrev_cut : ∀ {pre post : List LineKey} {k : LineKey} {b : Option LineKey},
    (pre ++ k :: post).Nodup → ∀ x,
      linkPrev b (pre ++ post) x =
        if post.head? = some x then some (pre.getLast?.or b)
        else if x = k then none else linkPrev b (pre ++ k :: post) x
  | [], post, k, b, h, x => by
    simp only [List.nil_append, List.nodup_cons] at h
    cases post with
    | nil => by_cases hx : x = k <;> simp [linkPrev, hx]
    | cons q post =>
      simp only [List.mem_cons, not_or] at h
      by_cases hq : x = q
      · subst hq; simp [linkPrev]
      · by_cases hx : x = k
        · subst hx
          simp [linkPrev, hq, Ne.symm hq, linkPrev_of_not_mem h.1.2]
        · simp [linkPrev, hq, Ne.symm hq, hx]
  | p :: pre, post, k, b, h, x => by
    simp only [List.cons_append, List.nodup_cons, List.mem_append, List.mem_cons, not_or] at h
    simp only [List.cons_append, linkPrev, getLast?_cons_or]
    by_cases hx : x = p
    · subst hx
      have hh : post.head? ≠ some x := fun hm => h.1.2.2 (List.mem_of_mem_head? hm)
      simp only [hh, if_false, h.1.2.1, if_true]
    · simp only [hx, if_false, linkPrev_cut h.2 x]

theorem keysOf_cut {pre post : List LineKey} {k : LineKey} (h : (pre ++ k :: post).Nodup) (b : BufferKey) :
    keysOf (pre ++ post) b = (keysOf (pre ++ k :: post) b).erase k := by
  rw [List.nodup_append, List.nodup_cons] at h
  ext x
  simp only [keysOf, Finset.mem_erase, Finset.mem_filter, List.mem_toFinset, List.mem_append, List.mem_cons]
  constructor
  · rintro ⟨hx, hb⟩
    refine ⟨?_, hx.imp id .inr, hb⟩
    rintro rfl
    exact hx.elim (fun hp => h.2.2 _ hp _ (by simp) rfl) h.2.1.1
  · rintro ⟨hk, hx, hb⟩
    exact ⟨hx.imp id fun hp => hp.resolve_left hk, hb⟩

/-! ## Adding a key at the end -/

theorem linkNext_snoc : ∀ {ks : List LineKey} {k : LineKey}, k ∉ ks → ks.Nodup → ∀ x,
    linkNext (ks ++ [k]) x =
      if ks.getLast? = some x then some (some k) else if x = k then some none else linkNext ks x
  | [], k, _, _, x => by simp [linkNext]
  | q :: ks, k, h, hn, x => by
    simp only [List.mem_cons, not_or] at h
    simp only [List.nodup_cons] at hn
    have ih := linkNext_snoc h.2 hn.2 x
    simp only [List.cons_append, linkNext]
    by_cases hx : x = q
    · subst hx
      cases ks with
      | nil => simp
      | cons r ks =>
        have hl : (x :: r :: ks).getLast? ≠ some x := by
          rw [List.getLast?_cons_cons]
          exact fun hm => hn.1 (List.mem_of_getLast? hm)
        simp only [if_true, hl, if_false, Ne.symm h.1, List.cons_append, List.head?_cons]
    · simp only [hx, if_false, ih]
      cases ks with
      | nil => simp [Ne.symm hx]
      | cons r ks => rw [List.getLast?_cons_cons]

theorem linkPrev_snoc : ∀ {ks : List LineKey} {k : LineKey} {b : Option LineKey}, k ∉ ks → ∀ x,
    linkPrev b (ks ++ [k]) x = if x = k then some (ks.getLast?.or b) else linkPrev b ks x
  | [], k, b, _, x => by simp [linkPrev]
  | q :: ks, k, b, h, x => by
    simp only [List.mem_cons, not_or] at h
    simp only [List.cons_append, linkPrev, getLast?_cons_or]
    by_cases hx : x = q
    · subst hx; simp [Ne.symm h.1]
    · simp only [hx, if_false, linkPrev_snoc h.2 x]

theorem keysOf_snoc (ks : List LineKey) (k : LineKey) (b : BufferKey) :
    keysOf (ks ++ [k]) b = if k.bufferKey = b then insert k (keysOf ks b) else keysOf ks b := by
  ext x
  simp only [keysOf, List.toFinset_append, Finset.filter_union]
  split <;> rename_i hb
  · simp [hb, Finset.filter_singleton]
  · simp [Finset.filter_singleton, hb]

theorem getD_keyIndex (ks : List LineKey) (b : BufferKey) : (keyIndex ks b).getD ∅ = keysOf ks b := by
  unfold keyIndex
  split
  · next h => rw [h]; rfl
  · rfl

theorem keyIndex_snoc (ks : List LineKey) (k : LineKey) :
    keyIndex (ks ++ [k]) =
      Function.update (keyIndex ks) k.bufferKey (some (insert k ((keyIndex ks k.bufferKey).getD ∅))) := by
  funext b
  rw [keyIndex, keysOf_snoc, getD_keyIndex]
  by_cases hb : k.bufferKey = b
  · subst hb; simp
  · rw [Function.update_of_ne (Ne.symm hb)]; simp only [hb, if_false]; rfl

/-! ## The methods keep the tables -/

theorem pointAt_apply (key target : Option LineKey) (table : LineKey → Option (Option LineKey)) (x : LineKey) :
    pointAt key target table x = if key = some x then some target else table x := by
  cases key with
  | none => simp [pointAt]
  | some k => simp only [pointAt, Function.update_apply, Option.some.injEq, eq_comm]

@[simp] theorem recordLine_lines (k : LineKey) (c : CacheState) : (recordLine k c).lines = c.lines := by
  unfold recordLine; split <;> rfl

@[simp] theorem recordLine_config (k : LineKey) (c : CacheState) : (recordLine k c).config = c.config := by
  unfold recordLine; split <;> rfl

@[simp] theorem recordLine_sizes (k : LineKey) (c : CacheState) :
    (recordLine k c).bufferSizes = c.bufferSizes := by unfold recordLine; split <;> rfl

@[simp] theorem recordLine_counters (k : LineKey) (c : CacheState) : (recordLine k c).counters = c.counters := by
  unfold recordLine; split <;> rfl

theorem Linked.recordLine {c : CacheState} (h : Linked c) (k : LineKey) : Linked (recordLine k c) := by
  unfold Cache.recordLine
  split
  · exact h
  · exact ⟨h.next, h.prev, h.index⟩

/-- A present key splits the order of the lines. -/
theorem keys_split {c : CacheState} {k : LineKey} (hk : k ∈ c.lines.keys) :
    ∃ pre post, c.lines.keys = pre ++ k :: post ∧ (c.lines.erase k).keys = pre ++ post ∧
      (pre ++ k :: post).Nodup := by
  obtain ⟨line, hl⟩ := Dict.mem_keys.1 hk
  obtain ⟨pre, post, hs, hpre, hpost⟩ := Dict.split hl
  have hkeys : c.lines.keys = pre.map Prod.fst ++ k :: post.map Prod.fst := by simp [Dict.keys, hs]
  refine ⟨_, _, hkeys, ?_, hkeys ▸ c.lines.keys_nodup⟩
  rw [Dict.keys, Dict.items_erase_split hs hpre hpost, List.map_append]

theorem Linked.unlink {c : CacheState} (h : Linked c) {k : LineKey} (hk : k ∈ c.lines.keys) :
    Linked (unlink k c) := by
  obtain ⟨pre, post, hs, he, hn⟩ := keys_split hk
  have hkpre : k ∉ pre := fun hm => (List.nodup_append.1 hn).2.2 _ hm _ (by simp) rfl
  have hkpost : k ∉ post := (List.nodup_cons.1 (List.nodup_append.1 hn).2.1).1
  have hp : (c.lruPrev k).join = pre.getLast? := by
    rw [h.prev, hs, linkPrev_mid hkpre]; simp
  have hq : (c.lruNext k).join = post.head? := by
    rw [h.next, hs, linkNext_mid hkpre]; simp
  refine ⟨?_, ?_, ?_⟩
  · show pointAt (c.lruPrev k).join (c.lruNext k).join (Function.update c.lruNext k none) =
      linkNext (c.lines.erase k).keys
    funext x
    rw [he, linkNext_cut hn x, hp, hq, h.next, hs, pointAt_apply, Function.update_apply]
  · show pointAt (c.lruNext k).join (c.lruPrev k).join (Function.update c.lruPrev k none) =
      linkPrev none (c.lines.erase k).keys
    funext x
    rw [he, linkPrev_cut hn x, hp, hq, h.prev, hs, Option.or_none, pointAt_apply, Function.update_apply]
  · show dropIndexed k c.bufferLineKeys = keyIndex (c.lines.erase k).keys
    have hne : keysOf c.lines.keys k.bufferKey ≠ ∅ :=
      Finset.ne_empty_of_mem (a := k) (by simp [keysOf, hk])
    have hi : c.bufferLineKeys k.bufferKey = some (keysOf c.lines.keys k.bufferKey) := by
      rw [h.index, keyIndex, if_neg hne]
    simp only [dropIndexed, hi]
    funext b
    rw [he, keyIndex, keysOf_cut hn, ← hs]
    by_cases hb : b = k.bufferKey
    · subst hb; simp
    · have hkb : k ∉ keysOf c.lines.keys b := by simp [keysOf, Ne.symm hb]
      rw [Function.update_of_ne hb, h.index, Finset.erase_eq_of_notMem hkb]
      rfl

theorem Linked.popLine {c : CacheState} (h : Linked c) (k : LineKey) : Linked (popLine k c).2 := by
  simp only [Cache.popLine]
  split
  · exact h.recordLine k
  · next line hl => exact (h.recordLine k).unlink (Dict.mem_keys_of_get? hl)

theorem TablesOf.attach {ks : List LineKey} {c : CacheState} (h : TablesOf ks c) {k : LineKey} (hn : ks.Nodup)
    (hk : k ∉ ks) : TablesOf (ks ++ [k]) (attach ks.getLast? k c) := by
  refine ⟨?_, ?_, ?_⟩
  · show pointAt ks.getLast? (some k) (Function.update c.lruNext k (some none)) = linkNext (ks ++ [k])
    funext x
    rw [linkNext_snoc hk hn x, h.next, pointAt_apply, Function.update_apply]
  · show Function.update c.lruPrev k (some ks.getLast?) = linkPrev none (ks ++ [k])
    funext x
    rw [linkPrev_snoc hk x, h.prev, Function.update_apply, Option.or_none]
  · show Function.update c.bufferLineKeys k.bufferKey _ = keyIndex (ks ++ [k])
    rw [keyIndex_snoc, h.index]

theorem Linked.link {c : CacheState} (h : Linked c) {k : LineKey} (hk : k ∉ c.lines.keys) (line : CacheLine) :
    Linked (link k line c) := by
  have ht : TablesOf c.lines.keys { c with lines := c.lines.insert k line } := ⟨h.next, h.prev, h.index⟩
  have ha := ht.attach c.lines.keys_nodup hk
  rw [← Dict.keys_insert_of_not_mem hk (v := line)] at ha
  exact ha

theorem Linked.setLine {c : CacheState} (h : Linked c) (k : LineKey) (line : CacheLine) :
    Linked (setLine k line c) := by
  have hr := h.recordLine k
  unfold Cache.setLine
  simp only
  split
  · next hk =>
    have hkeys := Dict.keys_insert_of_mem (v := line) hk
    exact ⟨by rw [hkeys]; exact hr.next, by rw [hkeys]; exact hr.prev, by rw [hkeys]; exact hr.index⟩
  · next hk => exact hr.link hk line

/-! ## The rebuilt tables -/

/-- The loop of `_rebuild_lru_links`: after the keys `done` come `ks`. -/
theorem relink_tables : ∀ (ks : List LineKey) {done : List LineKey} {c : CacheState},
    (done ++ ks).Nodup → TablesOf done c → TablesOf (done ++ ks) (relink done.getLast? ks c)
  | [], done, c, _, h => by rw [List.append_nil]; exact h
  | k :: ks, done, c, hn, h => by
    have hd := List.nodup_append.1 hn
    have hk : k ∉ done := fun hm => hd.2.2 _ hm _ (by simp) rfl
    have hsplit : done ++ k :: ks = (done ++ [k]) ++ ks := by simp
    have ih := relink_tables ks (hsplit ▸ hn) (h.attach hd.1 hk)
    rw [List.getLast?_concat] at ih
    rw [hsplit]
    exact ih

theorem relink_lines : ∀ (ks : List LineKey) (b : Option LineKey) (c : CacheState),
    (relink b ks c).lines = c.lines
  | [], _, _ => rfl
  | _ :: ks, _, _ => relink_lines ks _ _

/-- **Rebuilding restores the tables of the order, whatever stood there.** -/
theorem rebuild_linked (c : CacheState) : Linked (rebuildLruLinks c) := by
  have h : TablesOf [] { c with
      lruPrev := fun _ => none, lruNext := fun _ => none, bufferLineKeys := fun _ => none } := ⟨rfl, rfl, rfl⟩
  have hr := relink_tables c.lines.keys (by simpa using c.lines.keys_nodup) h
  have hl : (rebuildLruLinks c).lines = c.lines := relink_lines _ _ _
  rw [Linked, hl]
  exact hr

end HeteroSim.Cache
