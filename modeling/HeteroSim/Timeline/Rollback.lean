/-
Rolling back is exact. In a run whose transactions keep the order of the lane
directions early enough, every transaction that undoes leads back to the
calendar it was begun on, and its rollback is that calendar again.
-/
import HeteroSim.Timeline.Edits

namespace HeteroSim.Timeline

/-! ## Inner and outer tokens -/

/-- The outer token `o`, begun on `b`, notes what the inner token `i` does. -/
structure Nested (i o : Token) (b : ResourceTimeline) : Prop where
  values : ∀ n, ∀ rid ∈ (i.values n).keys, rid ∈ (o.values n).keys
  roots : ∀ n, i.roots n = o.roots n ∨ b.fresh ≤ i.roots n
  entries : ∀ n, i.roots n = o.roots n → ∀ rid ∈ (i.entries n).keys, rid ∈ (o.entries n).keys
  objects : ∀ n, ∀ l ∈ (i.objects n).keys, l ∈ (o.objects n).keys ∨ b.fresh ≤ l
  younger : ∀ n rid l, b.fresh ≤ i.roots n → (i.entries n).get? rid = some (some l) → b.fresh ≤ l
  touched : i.touched = o.touched ∨ b.fresh ≤ i.touched
  added : i.touched = o.touched → i.addedTouches ⊆ o.addedTouches

/-- A token just begun is inside every open one. -/
theorem nested_begin {o : Token} {b tl : ResourceTimeline} (h : Leads o b tl) (accounting : Bool) :
    Nested (newToken accounting tl) o b where
  values _ _ hk := by cases hk
  roots := h.root
  entries _ _ _ hk := by cases hk
  objects _ _ hk := by cases hk
  younger _ _ _ _ hk := by cases hk
  touched := h.set
  added _ := Finset.empty_subset _

theorem Nested.remember {i o : Token} {b tl : ResourceTimeline} (h : Nested i o b) (ho : Leads o b tl) (hi : i.undoes)
    (hu : o.undoes) (rid : String) : Nested (i.remember tl rid) (o.remember tl rid) b where
  values n k hk := by
    simp only [Token.remember, hi.holdsValue n, hu.holdsValue n, if_true, mem_note] at hk ⊢
    exact hk.imp_right (h.values n k)
  roots := h.roots
  entries n hroots k hk := by
    have htracks : i.tracks tl n ↔ o.tracks tl n := by
      rw [hi.tracks, hu.tracks, show i.roots n = o.roots n from hroots]
    simp only [Token.remember, htracks] at hk ⊢
    split at hk
    · next ht =>
      rw [if_pos ht]
      rw [mem_note] at hk ⊢
      exact hk.imp_right (h.entries n hroots k)
    · next ht =>
      rw [if_neg ht]
      exact h.entries n hroots k hk
  objects n l hl := by
    have hold : l ∈ (i.objects n).keys → l ∈ ((o.remember tl rid).objects n).keys ∨ b.fresh ≤ l :=
      fun hm => (h.objects n l hm).imp_left remember_objects
    simp only [Token.remember] at hl
    split at hl
    · next hc =>
      rcases mem_keepObject.1 hl with hget | hl
      · -- the inner token notes the list the resource has now
        have hroot := hi.tracks.1 hc.1
        rcases h.roots n with hsame | hfresh
        · have ht : o.tracks tl n := hu.tracks.2 (hroot.trans hsame)
          by_cases hmem : rid ∈ (o.entries n).keys
          · refine (ho.noted n rid l hmem ?_).imp_left remember_objects
            rw [← hsame, ← hroot]
            exact hget
          · refine .inl ?_
            simp only [Token.remember, ht, hmem, not_false_eq_true, and_true, if_true]
            exact mem_keepObject.2 (.inl hget)
        · refine .inr (ho.younger n _ rid l hfresh ?_)
          rw [← hroot]
          exact hget
      · exact hold hl
    · exact hold hl
  younger n k l hfresh hk := by
    by_cases ht : i.tracks tl n
    · simp only [Token.remember, ht, if_true, get?_note] at hk
      split at hk
      · next hkr =>
        subst hkr
        cases hx : (i.entries n).get? k with
        | some x =>
          rw [hx, Option.getD_some] at hk
          exact h.younger n k l hfresh (hx.trans hk)
        | none =>
          rw [hx, Option.getD_none, Option.some.injEq] at hk
          refine ho.younger n _ k l hfresh ?_
          show (tl.dicts n (i.roots n)).get? k = some l
          rw [← hi.tracks.1 ht]
          exact hk
      · exact h.younger n k l hfresh hk
    · simp only [Token.remember, ht, if_false] at hk
      exact h.younger n k l hfresh hk
  touched := h.touched
  added hsame := by
    have hsame : i.touched = o.touched := hsame
    simp only [Token.remember, hi.1, hu.1, hsame, true_and]
    split
    · exact Finset.insert_subset_insert _ (h.added hsame)
    · exact h.added hsame

/-! ## The invariant -/

/-- Beside each token, the calendar it was begun on. -/
structure Sound (tl : ResourceTimeline) (open_ : List (Token × ResourceTimeline)) : Prop where
  tokens : tl.ownedTransactions = open_.map Prod.fst
  allocated : Allocated tl
  restoring : tl.discardable = false ∧ ∀ p ∈ open_, p.1.discardable = false
  leads : ∀ p ∈ open_, p.1.undoes → Leads p.1 p.2 tl
  nested : open_.Pairwise fun i o => i.1.undoes → o.1.undoes → Nested i.1 o.1 o.2

/-- Every open token stays safe when the resource is remembered. -/
def SafeFor (tl : ResourceTimeline) (rid : String) : Prop := ∀ t ∈ tl.ownedTransactions, t.undoes → t.safe tl rid

def remembered (tl : ResourceTimeline) (rid : String) (open_ : List (Token × ResourceTimeline)) :
    List (Token × ResourceTimeline) := open_.map fun p => (p.1.remember tl rid, p.2)

theorem Sound.remember {tl : ResourceTimeline} {open_ : List (Token × ResourceTimeline)} (h : Sound tl open_)
    {rid : String} (hs : SafeFor tl rid) : Sound (rememberResource rid tl) (remembered tl rid open_) where
  tokens := by
    rw [rememberResource, h.tokens, remembered, List.map_map, List.map_map]
    rfl
  allocated := ⟨h.allocated.roots, h.allocated.touched, h.allocated.refs, h.allocated.blank⟩
  restoring := by
    refine ⟨h.restoring.1, fun p hp => ?_⟩
    obtain ⟨q, hq, rfl⟩ := List.mem_map.1 hp
    exact h.restoring.2 q hq
  leads p hp hu := by
    obtain ⟨q, hq, rfl⟩ := List.mem_map.1 hp
    have hqu : q.1.undoes := hu
    have htoken : q.1 ∈ tl.ownedTransactions := by
      rw [h.tokens]
      exact List.mem_map_of_mem hq
    have := (h.leads q hq hqu).remember hqu (hs q.1 htoken hqu)
    exact { this with }
  nested := by
    rw [remembered, List.pairwise_map]
    refine h.nested.imp_of_mem fun {i o} hi ho hio hui huo => ?_
    exact (hio hui huo).remember (h.leads o ho huo) hui huo rid

theorem Sound.edits {R : String → Prop} {tl tl' : ResourceTimeline} {open_ : List (Token × ResourceTimeline)}
    (h : Sound tl open_) (he : Edits R tl tl')
    (hn : ∀ p ∈ open_, p.1.undoes → ∀ rid, R rid → Noted rid p.1 tl) : Sound tl' open_ where
  tokens := he.tokens.trans h.tokens
  allocated := h.allocated.edits he
  restoring := ⟨he.discardable.trans h.restoring.1, h.restoring.2⟩
  leads p hp hu := (h.leads p hp hu).edits he (hn p hp hu)
  nested := h.nested

/-- The tokens of a list of resources remembered one after another. -/
def rememberedAll (tl : ResourceTimeline) : List String → List (Token × ResourceTimeline) → List (Token × ResourceTimeline)
  | [], open_ => open_
  | rid :: rids, open_ => rememberedAll (rememberResource rid tl) rids (remembered tl rid open_)

def SafeForAll (tl : ResourceTimeline) : List String → Prop
  | [] => True
  | rid :: rids => SafeFor tl rid ∧ SafeForAll (rememberResource rid tl) rids

theorem Sound.rememberAll : ∀ {rids : List String} {tl : ResourceTimeline} {open_ : List (Token × ResourceTimeline)}
    {R : String → Prop}, Sound tl open_ → SafeForAll tl rids →
    (∀ p ∈ open_, p.1.undoes → ∀ rid, R rid → Noted rid p.1 tl) →
    Sound (rememberResources rids tl) (rememberedAll tl rids open_) ∧
      ∀ p ∈ rememberedAll tl rids open_, p.1.undoes → ∀ rid, R rid ∨ rid ∈ rids → Noted rid p.1 (rememberResources rids tl)
  | [], _, _, _, h, _, hn => ⟨h, fun p hp hu rid hr => hn p hp hu rid (hr.resolve_right (by simp))⟩
  | rid :: rids, tl, open_, R, h, hs, hn => by
    have hnoted : ∀ p ∈ remembered tl rid open_, p.1.undoes → ∀ k, R k ∨ k = rid → Noted k p.1 (rememberResource rid tl) := by
      intro p hp hu k hk
      obtain ⟨q, hq, rfl⟩ := List.mem_map.1 hp
      have hqu : q.1.undoes := hu
      rcases hk with hk | rfl
      · have := (hn q hq hqu k hk).remember hqu rid
        exact { this with }
      · have := noted_remember hqu tl k
        exact { this with }
    obtain ⟨hsound, hall⟩ := (h.remember hs.1).rememberAll hs.2 hnoted
    refine ⟨hsound, fun p hp hu k hk => hall p hp hu k ?_⟩
    rcases hk with hk | hk
    · exact .inl (.inl hk)
    · rcases List.mem_cons.1 hk with rfl | hk
      · exact .inl (.inr rfl)
      · exact .inr hk

/-! ## Writers -/

/-- The calendars the open tokens were begun on. -/
def SoundFrom (tl : ResourceTimeline) (begun : List ResourceTimeline) : Prop :=
  ∃ open_, Sound tl open_ ∧ begun = open_.map Prod.snd

theorem begun_remembered (tl : ResourceTimeline) (rid : String) (open_ : List (Token × ResourceTimeline)) :
    (remembered tl rid open_).map Prod.snd = open_.map Prod.snd := by
  rw [remembered, List.map_map]
  rfl

theorem begun_rememberedAll : ∀ (rids : List String) (tl : ResourceTimeline) (open_ : List (Token × ResourceTimeline)),
    (rememberedAll tl rids open_).map Prod.snd = open_.map Prod.snd
  | [], _, _ => rfl
  | rid :: rids, tl, open_ => by rw [rememberedAll, begun_rememberedAll, begun_remembered]

/-- **Edits of remembered resources keep the invariant.** -/
theorem SoundFrom.writes {tl tl' : ResourceTimeline} {begun : List ResourceTimeline} (h : SoundFrom tl begun)
    (rids : List String) (hs : SafeForAll tl rids) (he : Edits (· ∈ rids) (rememberResources rids tl) tl') :
    SoundFrom tl' begun := by
  obtain ⟨open_, h, rfl⟩ := h
  obtain ⟨hsound, hnoted⟩ := h.rememberAll (R := fun _ => False) hs fun _ _ _ _ hr => hr.elim
  exact ⟨_, hsound.edits he fun p hp hu rid hr => hnoted p hp hu rid (.inr hr), (begun_rememberedAll rids tl open_).symm⟩

theorem SoundFrom.wrote {tl tl' : ResourceTimeline} {begun : List ResourceTimeline} (h : SoundFrom tl begun)
    {resourceId : String} (hs : ∀ rid, canonicalResourceId tl resourceId = .ok rid → SafeFor tl rid)
    (hw : Wrote resourceId tl tl') : SoundFrom tl' begun := by
  rcases hw with rfl | ⟨rid, hrid, he⟩
  · exact h
  · exact h.writes [rid] ⟨hs rid hrid, trivial⟩ (he.mono fun k hk => by simp [hk])

/-! ## Recorders and ends of transactions -/

/-- A new recorder takes an identity that held nothing. -/
theorem reset_dicts {tl : ResourceTimeline} (h : Allocated tl) (maxIntervals : ℕ) :
    (resetMetricRecorder maxIntervals tl).dicts = tl.dicts := by
  have hblank : ∀ n, Function.update (tl.dicts n) tl.fresh .empty = tl.dicts n := fun n => by
    rw [← h.blank n tl.fresh le_rfl, Function.update_eq_self]
  simp only [resetMetricRecorder, hblank, Function.update_eq_self]

theorem reset_root (tl : ResourceTimeline) (maxIntervals : ℕ) (n : ListMap) :
    (resetMetricRecorder maxIntervals tl).root n = tl.root n ∨ (resetMetricRecorder maxIntervals tl).root n = tl.fresh := by
  cases n with
  | laneAvailable => exact .inl rfl
  | laneDirections => exact .inl rfl
  | intervals => exact .inr rfl
  | intervalPayloads => exact .inr rfl

theorem Allocated.reset {tl : ResourceTimeline} (h : Allocated tl) (maxIntervals : ℕ) :
    Allocated (resetMetricRecorder maxIntervals tl) where
  roots n := by
    rcases reset_root tl maxIntervals n with hr | hr
    · rw [hr]; exact (h.roots n).trans (Nat.lt_succ_self _)
    · rw [hr]; exact Nat.lt_succ_self _
  touched := Nat.lt_succ_self _
  refs n d rid l hl := by
    rw [reset_dicts h] at hl
    exact (h.refs n d rid l hl).trans (Nat.lt_succ_self _)
  blank n d hd := by
    rw [reset_dicts h]
    exact h.blank n d ((Nat.le_succ _).trans hd)

/-- **A new recorder leaves what a token leads to.** -/
theorem Leads.reset {t : Token} {b tl : ResourceTimeline} (h : Leads t b tl) (ha : Allocated tl) (maxIntervals : ℕ) :
    Leads t b (resetMetricRecorder maxIntervals tl) where
  values := h.values
  roots := h.roots
  entries n := by rw [reset_dicts ha]; exact h.entries n
  lists := h.lists
  objects := h.objects
  noted n := by rw [reset_dicts ha]; exact h.noted n
  ordered := h.ordered
  unordered := h.unordered
  root n := by
    rcases reset_root tl maxIntervals n with hr | hr
    · rw [hr]; exact h.root n
    · rw [hr]; exact .inr h.fresh
  younger n := by rw [reset_dicts ha]; exact h.younger n
  touched := h.touched
  touches := by
    have hne : t.touched ≠ tl.fresh := by
      rw [h.touched]
      exact (h.base.touched.trans_le h.fresh).ne
    simp only [resetMetricRecorder, Function.update_of_ne hne]
    exact h.touches
  set := .inr h.fresh
  scalars := h.scalars
  fresh := h.fresh.trans (Nat.le_succ _)
  base := h.base

theorem SoundFrom.reset {tl : ResourceTimeline} {begun : List ResourceTimeline} (h : SoundFrom tl begun)
    (maxIntervals : ℕ) : SoundFrom (resetMetricRecorder maxIntervals tl) begun := by
  obtain ⟨open_, h, rfl⟩ := h
  exact ⟨open_, ⟨h.tokens, h.allocated.reset maxIntervals, h.restoring,
    fun p hp hu => (h.leads p hp hu).reset h.allocated maxIntervals, h.nested⟩, rfl⟩

theorem SoundFrom.push {tl : ResourceTimeline} {begun : List ResourceTimeline} (h : SoundFrom tl begun)
    (accounting : Bool) :
    SoundFrom { tl with ownedTransactions := newToken accounting tl :: tl.ownedTransactions } (tl :: begun) := by
  obtain ⟨open_, h, rfl⟩ := h
  refine ⟨(newToken accounting tl, tl) :: open_, ⟨?_, ?_, ⟨h.restoring.1, ?_⟩, ?_, ?_⟩, rfl⟩
  · rw [List.map_cons, ← h.tokens]
  · exact ⟨h.allocated.roots, h.allocated.touched, h.allocated.refs, h.allocated.blank⟩
  · intro p hp
    rcases List.mem_cons.1 hp with rfl | hp
    · exact h.restoring.1
    · exact h.restoring.2 p hp
  · intro p hp hu
    rcases List.mem_cons.1 hp with rfl | hp
    · exact leads_begin h.allocated accounting _
    · have := h.leads p hp hu
      exact { this with }
  · exact List.pairwise_cons.2 ⟨fun o ho _ huo => nested_begin (h.leads o ho huo) accounting, h.nested⟩

/-- Tokens may end in reverse order. -/
theorem SoundFrom.drop {tl : ResourceTimeline} {begun : List ResourceTimeline} (h : SoundFrom tl begun) (k : ℕ) :
    SoundFrom { tl with ownedTransactions := tl.ownedTransactions.drop k } (begun.drop k) := by
  obtain ⟨open_, h, rfl⟩ := h
  refine ⟨open_.drop k, ⟨?_, ?_, ⟨h.restoring.1, ?_⟩, ?_, h.nested.sublist (List.drop_sublist _ _)⟩, ?_⟩
  · rw [h.tokens, List.map_drop]
  · exact ⟨h.allocated.roots, h.allocated.touched, h.allocated.refs, h.allocated.blank⟩
  · exact fun p hp => h.restoring.2 p (List.mem_of_mem_drop hp)
  · intro p hp hu
    have := h.leads p (List.mem_of_mem_drop hp) hu
    exact { this with }
  · rw [List.map_drop]

/-! ## Putting the maps of lists back -/

/-- The maps in `ns` are those the token leads back to; the rest stands. -/
structure Restored (t : Token) (ns : List ListMap) (tl tl' : ResourceTimeline) : Prop where
  rest : tl' = { tl with dicts := tl'.dicts, root := tl'.root }
  root : ∀ n ∈ ns, tl'.root n = t.roots n
  entries : ∀ n ∈ ns, (tl'.dicts n (t.roots n)).get? = image (tl.dicts n (t.roots n)) (t.entries n)
  others : ∀ n d, d ≠ t.roots n → tl'.dicts n d = tl.dicts n d
  kept : ∀ n, n ∉ ns → tl'.root n = tl.root n ∧ tl'.dicts n = tl.dicts n

/-- The saved order, if any, is that of the entries put back. -/
def OrderFits (t : Token) (tl : ResourceTimeline) : Prop :=
  ∀ order, t.deletedOrder = some order → ∀ rid, rid ∈ order ↔
    image (tl.dicts .laneDirections (t.roots .laneDirections)) (t.entries .laneDirections) rid ≠ none

theorem restoreMap_spec {t : Token} {tl : ResourceTimeline} (hfit : OrderFits t tl) (n : ListMap) :
    wp (restoreMap t n) (fun _ tl' => Restored t [n] tl tl') (fun _ _ => False) tl := by
  -- the map is put back, and read again in the saved order
  have hdone : ∀ d : Dict String ℕ, d.get? = image (tl.dicts n (t.roots n)) (t.entries n) → Restored t [n] tl { tl with
      dicts := Function.update tl.dicts n (Function.update (tl.dicts n) (t.roots n) d)
      root := Function.update tl.root n (t.roots n) } := by
    intro d hd
    refine ⟨rfl, ?_, ?_, ?_, ?_⟩
    · intro m hm
      obtain rfl := List.mem_singleton.1 hm
      exact Function.update_self _ _ _
    · intro m hm
      obtain rfl := List.mem_singleton.1 hm
      simp only [Function.update_self]
      exact hd
    · intro m d' hd'
      by_cases hm : m = n
      · subst hm
        simp only [Function.update_self, Function.update_of_ne hd']
      · simp only [Function.update_of_ne hm]
    · intro m hm
      have hne : m ≠ n := by simpa using hm
      exact ⟨Function.update_of_ne hne _ _, Function.update_of_ne hne _ _⟩
  have hput := get?_putBack (tl.dicts n (t.roots n)) (t.entries n)
  cases hord : t.orderOf n with
  | none =>
    simp only [restoreMap, restoreOrder, hord, wp_bind, wp_modify, wp_pure]
    exact hdone _ hput
  | some order =>
    obtain ⟨rfl, horder⟩ : n = .laneDirections ∧ t.deletedOrder = some order := by
      unfold Token.orderOf at hord
      split at hord
      · next h => exact ⟨h, hord⟩
      · cases hord
    obtain ⟨d, hread, hget⟩ := reread_spec (d := putBack (tl.dicts .laneDirections (t.roots .laneDirections))
      (t.entries .laneDirections)) order fun rid hrid => by
        rw [Dict.mem_keys, hput, ← Option.ne_none_iff_exists']
        exact (hfit order horder rid).1 hrid
    simp only [restoreMap, restoreOrder, rereadMap, hord, wp_bind, wp_modify, wp_get, Function.update_self, hread,
      Function.update_idem]
    refine hdone d (funext fun rid => ?_)
    rw [hget, hput]
    split
    · rfl
    · next hrid => exact (not_not.1 (mt (hfit order horder rid).2 hrid)).symm

theorem Restored.trans {t : Token} {ns ms : List ListMap} {tl tl' tl'' : ResourceTimeline} (h : Restored t ns tl tl')
    (h' : Restored t ms tl' tl'') (hdisjoint : ∀ n ∈ ns, n ∉ ms) : Restored t (ns ++ ms) tl tl'' where
  rest := by rw [h'.rest, h.rest]
  root n hn := by
    by_cases hm : n ∈ ms
    · exact h'.root n hm
    · rw [(h'.kept n hm).1]
      exact h.root n ((List.mem_append.1 hn).resolve_right hm)
  entries n hn := by
    by_cases hm : n ∈ ms
    · have hnot : n ∉ ns := fun hns => hdisjoint n hns hm
      rw [h'.entries n hm, (h.kept n hnot).2]
    · rw [(h'.kept n hm).2]
      exact h.entries n ((List.mem_append.1 hn).resolve_right hm)
  others n d hd := (h'.others n d hd).trans (h.others n d hd)
  kept n hn := by
    rw [List.mem_append, not_or] at hn
    exact ⟨(h'.kept n hn.2).1.trans (h.kept n hn.1).1, (h'.kept n hn.2).2.trans (h.kept n hn.1).2⟩

theorem restoreMaps_spec {t : Token} : ∀ {ns : List ListMap} {tl : ResourceTimeline}, ns.Nodup → OrderFits t tl →
    wp (forM ns (restoreMap t)) (fun _ tl' => Restored t ns tl tl') (fun _ _ => False) tl
  | [], tl, _, _ => ⟨rfl, by simp, by simp, fun _ _ _ => rfl, fun _ _ => ⟨rfl, rfl⟩⟩
  | n :: ns, tl, hnodup, hfit => by
    obtain ⟨hn, hnodup⟩ := List.nodup_cons.1 hnodup
    rw [List.forM_cons, wp_bind]
    refine wp_mono (restoreMap_spec hfit n) ?_ fun _ _ h => h
    intro _ tl' hrestored
    have hfit' : OrderFits t tl' := by
      intro order horder rid
      rw [hfit order horder rid]
      by_cases hl : ListMap.laneDirections = n
      · have hentries := hrestored.entries .laneDirections (by simp [hl])
        -- what was put back already is put back again as it is
        have hsame : image (tl'.dicts .laneDirections (t.roots .laneDirections)) (t.entries .laneDirections) rid =
            image (tl.dicts .laneDirections (t.roots .laneDirections)) (t.entries .laneDirections) rid := by
          simp only [image, hentries]
          cases (t.entries .laneDirections).get? rid <;> rfl
        rw [hsame]
      · rw [(hrestored.kept .laneDirections (by simpa using hl)).2]
    refine wp_mono (restoreMaps_spec hnodup hfit') ?_ fun _ _ h => h
    intro _ tl'' hrest
    exact hrestored.trans hrest fun m hm => by rwa [List.mem_singleton.1 hm]

/-! ## Rolling back -/

/-- What a caller reads of the calendar: every map of `_TIMELINE_MAPS`, the
touched set and the recorder's scalars. -/
structure Readings where
  values : (n : ValueMap) → String → Option (Value n)
  lists : (n : ListMap) → String → Option (List (Item n))
  touched : Finset String
  intervalLimit : ℕ
  intervalCount : ℕ
  intervalsTruncated : Bool

def readings (tl : ResourceTimeline) : Readings where
  values n := (tl.values n).get?
  lists n := tl.list? n
  touched := tl.touchedSets tl.touched
  intervalLimit := tl.intervalLimit
  intervalCount := tl.intervalCount
  intervalsTruncated := tl.intervalsTruncated

/-- What a rollback of the newest token `t` leaves. -/
structure RolledBack (t : Token) (tl tl' : ResourceTimeline) : Prop where
  values : ∀ n, (tl'.values n).get? = image (tl.values n) (t.values n)
  root : tl'.root = t.roots
  entries : ∀ n, (tl'.dicts n (t.roots n)).get? = image (tl.dicts n (t.roots n)) (t.entries n)
  others : ∀ n d, d ≠ t.roots n → tl'.dicts n d = tl.dicts n d
  lists : ∀ n, tl'.lists n = imageAt (tl.lists n) (t.objects n)
  touched : tl'.touched = t.touched
  touches : tl'.touchedSets =
    Function.update tl.touchedSets t.touched (tl.touchedSets t.touched \ t.addedTouches)
  scalars : tl'.intervalLimit = t.intervalLimit ∧ tl'.intervalCount = t.intervalCount ∧
    tl'.intervalsTruncated = t.intervalsTruncated
  fresh : tl'.fresh = tl.fresh
  tokens : tl'.ownedTransactions = tl.ownedTransactions.tail
  discardable : tl'.discardable = tl.discardable

theorem rollbackNewest_spec {t : Token} {b tl : ResourceTimeline} (h : Leads t b tl) (hu : t.undoes)
    (hd : tl.discardable = false) (hopen : tl.ownedTransactions ≠ []) :
    wp (rollbackNewest t) (fun _ tl' => RolledBack t tl tl') (fun _ _ => False) tl := by
  have hnodup : t.listMaps.Nodup := List.Nodup.filter _ (by decide)
  have hall : ∀ n, n ∈ t.listMaps := fun n => List.mem_filter.2 ⟨by cases n <;> simp, hu.holdsList n⟩
  have hfinish : refuse ((0 : ℕ) ≠ 0 ∨ tl.ownedTransactions = [])
      "timeline transactions must finish once in reverse begin order" = .ok () := by
    rw [refuse_ok]
    simp [hopen]
  have hfit : ∀ s : ResourceTimeline, s.dicts = tl.dicts → OrderFits t s := by
    intro s hs order horder rid
    rw [h.ordered order horder rid, hs, h.entries, Dict.mem_keys, ← Option.ne_none_iff_exists']
  simp only [rollbackNewest, finish, wp_bind, wp_get, hfinish, raise, wp_pure, wp_modify, hd, Bool.false_eq_true, false_and,
    if_false]
  refine wp_mono (restoreMaps_spec hnodup (hfit _ rfl)) ?_ fun _ _ h => h
  intro _ tl' hr
  have hrest := hr.rest
  refine ⟨fun n => ?_, funext fun n => hr.root n (hall n), fun n => hr.entries n (hall n), hr.others, fun n => ?_, rfl, ?_,
    ⟨rfl, rfl, rfl⟩, ?_, ?_, ?_⟩
  · show (tl'.values n).get? = _
    rw [hrest]
    exact get?_putBack _ _
  · show tl'.lists n = _
    rw [hrest]
    rfl
  · show Function.update tl'.touchedSets _ _ = _
    rw [hrest]
    rfl
  · show tl'.fresh = _
    rw [hrest]
    rfl
  · show tl'.ownedTransactions = _
    rw [hrest]
    rfl
  · show tl'.discardable = _
    rw [hrest]
    exact hd.symm

/-- **The calendar reads as it did at the begin.** -/
theorem RolledBack.readings {t : Token} {b tl tl' : ResourceTimeline} (hr : RolledBack t tl tl') (h : Leads t b tl) :
    readings tl' = readings b := by
  have hlists : ∀ n rid, tl'.list? n rid = b.list? n rid := by
    intro n rid
    have hget : (tl'.map n).get? rid = (b.map n).get? rid := by
      rw [ResourceTimeline.map, hr.root, hr.entries, h.entries]
    rw [ResourceTimeline.list?, ResourceTimeline.list?, hget]
    refine Option.map_congr fun l hl => ?_
    rw [hr.lists]
    exact h.lists n l (h.base.refs n _ rid l hl)
  have htouched : tl'.touchedSets tl'.touched = b.touchedSets b.touched := by
    rw [hr.touches, hr.touched, Function.update_self]
    exact h.touches
  obtain ⟨hlimit, hcount, htruncated⟩ := hr.scalars
  obtain ⟨hblimit, hbcount, hbtruncated⟩ := h.scalars
  simp only [Timeline.readings, Readings.mk.injEq]
  exact ⟨funext fun n => (hr.values n).trans (h.values n), funext fun n => funext (hlists n), htouched,
    hlimit.trans hblimit, hcount.trans hbcount, htruncated.trans hbtruncated⟩

theorem RolledBack.allocated {t : Token} {b tl tl' : ResourceTimeline} (hr : RolledBack t tl tl') (h : Leads t b tl)
    (ha : Allocated tl) : Allocated tl' where
  roots n := by
    rw [hr.root, hr.fresh, h.roots]
    exact (h.base.roots n).trans_le h.fresh
  touched := by
    rw [hr.touched, hr.fresh, h.touched]
    exact h.base.touched.trans_le h.fresh
  refs n d rid l hl := by
    rw [hr.fresh]
    by_cases hd : d = t.roots n
    · rw [hd, hr.entries, h.entries] at hl
      exact (h.base.refs n _ rid l hl).trans_le h.fresh
    · rw [hr.others n d hd] at hl
      exact ha.refs n d rid l hl
  blank n d hd := by
    rw [hr.fresh] at hd
    have hne : d ≠ t.roots n := by
      rw [h.roots]
      exact ((h.base.roots n).trans_le (h.fresh.trans hd)).ne'
    rw [hr.others n d hne]
    exact ha.blank n d hd

/-- **An inner rollback leaves what an outer token leads to.** -/
theorem RolledBack.leads {i o : Token} {bi b tl tl' : ResourceTimeline} (hr : RolledBack i tl tl') (hi : Leads i bi tl)
    (h : Leads o b tl) (hn : Nested i o b) : Leads o b tl' where
  values n := by
    rw [image_edit fun rid hrid => ?_, h.values n]
    rw [hr.values n, image, Dict.get?_eq_none.2 fun hm => hrid (hn.values n rid hm)]
    rfl
  roots := h.roots
  entries n := by
    by_cases hsame : i.roots n = o.roots n
    · rw [← h.entries n, image_edit fun rid hrid => ?_]
      rw [← hsame, hr.entries n, image, Dict.get?_eq_none.2 fun hm => hrid (hn.entries n hsame rid hm)]
      rfl
    · rw [hr.others n _ (Ne.symm hsame)]
      exact h.entries n
  lists n l hl := by
    rw [imageAt_edit fun hobj => ?_]
    · exact h.lists n l hl
    · have hnot : l ∉ (i.objects n).keys := fun hm =>
        (hn.objects n l hm).elim hobj fun hge => absurd hl (Nat.not_lt.2 hge)
      rw [hr.lists, imageAt, Dict.get?_eq_none.2 hnot]
      rfl
  objects := h.objects
  noted n rid l hrid hget := by
    by_cases hsame : i.roots n = o.roots n
    · rw [← hsame, hr.entries n, image] at hget
      cases hx : (i.entries n).get? rid with
      | none =>
        rw [hx, Option.getD_none, hsame] at hget
        exact h.noted n rid l hrid hget
      | some x =>
        rw [hx, Option.getD_some] at hget
        exact hn.objects n l (hi.objects n rid l (hx.trans (congrArg some hget)))
    · rw [hr.others n _ (Ne.symm hsame)] at hget
      exact h.noted n rid l hrid hget
  ordered := h.ordered
  unordered := h.unordered
  root n := by rw [hr.root]; exact hn.roots n
  younger n d rid l hd hget := by
    by_cases hroot : d = i.roots n
    · rw [hroot, hr.entries n, image] at hget
      cases hx : (i.entries n).get? rid with
      | none =>
        rw [hx, Option.getD_none] at hget
        exact h.younger n _ rid l (hroot ▸ hd) hget
      | some x =>
        rw [hx, Option.getD_some] at hget
        exact hn.younger n rid l (hroot ▸ hd) (hx.trans (congrArg some hget))
    · rw [hr.others n d hroot] at hget
      exact h.younger n d rid l hd hget
  touched := h.touched
  touches := by
    rw [← h.touches, hr.touches]
    by_cases hsame : i.touched = o.touched
    · rw [hsame, Function.update_self, sdiff_sdiff, Finset.sup_eq_union, Finset.union_eq_right.2 (hn.added hsame)]
    · rw [Function.update_of_ne (Ne.symm hsame)]
  set := by rw [hr.touched]; exact hn.touched
  scalars := h.scalars
  fresh := by rw [hr.fresh]; exact h.fresh
  base := h.base

/-- **A rollback of the newest token returns, and the calendar reads as it did
at the token's begin.** -/
theorem SoundFrom.rollbackNewest {tl : ResourceTimeline} {b : ResourceTimeline} {begun : List ResourceTimeline}
    (h : SoundFrom tl (b :: begun)) :
    ∃ t rest, tl.ownedTransactions = t :: rest ∧ (t.undoes → wp (rollbackNewest t)
      (fun _ tl' => readings tl' = readings b ∧ tl'.ownedTransactions = rest ∧ SoundFrom tl' begun)
      (fun _ _ => False) tl) := by
  obtain ⟨open_, h, hbegun⟩ := h
  cases open_ with
  | nil => cases hbegun
  | cons p open_ =>
    obtain ⟨t, b'⟩ := p
    obtain ⟨rfl, rfl⟩ := List.cons.inj hbegun
    refine ⟨t, open_.map Prod.fst, h.tokens, fun hu => ?_⟩
    have hleads := h.leads (t, b) (by simp) hu
    have hopen : tl.ownedTransactions ≠ [] := by rw [h.tokens]; simp
    refine wp_mono (rollbackNewest_spec hleads hu h.restoring.1 hopen) ?_ fun _ _ h => h
    intro _ tl' hr
    have htokens : tl'.ownedTransactions = open_.map Prod.fst := by rw [hr.tokens, h.tokens]; rfl
    obtain ⟨hnested, hpairs⟩ := List.pairwise_cons.1 h.nested
    refine ⟨hr.readings hleads, htokens, open_, ⟨htokens, hr.allocated hleads h.allocated, ⟨?_, ?_⟩, ?_, hpairs⟩, rfl⟩
    · exact hr.discardable.trans h.restoring.1
    · exact fun p hp => h.restoring.2 p (by simp [hp])
    · exact fun p hp hpu => hr.leads hleads (h.leads p (by simp [hp]) hpu) (hnested p hp hu hpu)

end HeteroSim.Timeline
