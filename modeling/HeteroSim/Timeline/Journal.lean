/-
What an open transaction of the calendar leads back to. `Leads t b tl` says
that the token `t`, begun on `b`, has noted in `tl` all that changed since;
remembering a resource keeps it, and so does any edit of remembered
resources. An outer token notes what an inner one does (`Nested`).
-/
import HeteroSim.Timeline.State

namespace HeteroSim.Timeline

/-! ## Identities -/

/-- Every identity in use has been given out. -/
structure Allocated (tl : ResourceTimeline) : Prop where
  roots : ∀ n, tl.root n < tl.fresh
  touched : tl.touched < tl.fresh
  refs : ∀ n d rid l, (tl.dicts n d).get? rid = some l → l < tl.fresh
  blank : ∀ n d, tl.fresh ≤ d → tl.dicts n d = .empty

/-- The token is one that a rollback undoes with. -/
def Token.undoes (t : Token) : Prop := t.accounting = false ∧ t.discardable = false

theorem Token.undoes.holdsValue {t : Token} (h : t.undoes) (n : ValueMap) : t.holdsValue n = true := by
  simp [Token.holdsValue, h.1, h.2]

theorem Token.undoes.holdsList {t : Token} (h : t.undoes) (n : ListMap) : t.holdsList n = true := by
  simp [Token.holdsList, h.1, h.2]

theorem Token.undoes.tracks {t : Token} (h : t.undoes) {tl : ResourceTimeline} {n : ListMap} :
    t.tracks tl n ↔ tl.root n = t.roots n := by
  rw [Token.tracks, h.holdsList n]
  exact and_iff_right rfl

/-! ## What a token leads back to -/

/-- The token `t`, begun on `b`, has noted what changed up to `tl`. -/
structure Leads (t : Token) (b tl : ResourceTimeline) : Prop where
  values : ∀ n, image (tl.values n) (t.values n) = (b.values n).get?
  roots : t.roots = b.root
  entries : ∀ n, image (tl.dicts n (t.roots n)) (t.entries n) = (b.map n).get?
  lists : ∀ n l, l < b.fresh → imageAt (tl.lists n) (t.objects n) l = b.lists n l
  objects : ∀ n rid l, (t.entries n).get? rid = some (some l) → l ∈ (t.objects n).keys
  /-- A noted resource has a noted list, or one made since. -/
  noted : ∀ n rid l, rid ∈ (t.entries n).keys → (tl.dicts n (t.roots n)).get? rid = some l →
    l ∈ (t.objects n).keys ∨ b.fresh ≤ l
  ordered : ∀ order, t.deletedOrder = some order → ∀ rid, rid ∈ order ↔ rid ∈ (b.map .laneDirections).keys
  unordered : t.deletedOrder = none → ∀ rid l, (t.entries .laneDirections).get? rid ≠ some (some l)
  root : ∀ n, tl.root n = t.roots n ∨ b.fresh ≤ tl.root n
  younger : ∀ n d rid l, b.fresh ≤ d → (tl.dicts n d).get? rid = some l → b.fresh ≤ l
  touched : t.touched = b.touched
  touches : tl.touchedSets t.touched \ t.addedTouches = b.touchedSets b.touched
  set : tl.touched = t.touched ∨ b.fresh ≤ tl.touched
  scalars : t.intervalLimit = b.intervalLimit ∧ t.intervalCount = b.intervalCount ∧
    t.intervalsTruncated = b.intervalsTruncated
  fresh : b.fresh ≤ tl.fresh
  base : Allocated b

/-- The resource is remembered by the token. -/
structure Noted (rid : String) (t : Token) (tl : ResourceTimeline) : Prop where
  values : ∀ n, rid ∈ (t.values n).keys
  entries : ∀ n, tl.root n = t.roots n → rid ∈ (t.entries n).keys
  touched : tl.touched = t.touched → rid ∈ t.addedTouches ∨ rid ∈ tl.touchedSets t.touched

/-- A token just begun leads to the calendar it was begun on. -/
theorem leads_begin {tl : ResourceTimeline} (ha : Allocated tl) (accounting : Bool) (tokens : List Token) :
    Leads (newToken accounting tl) tl { tl with ownedTransactions := tokens } where
  values _ := rfl
  roots := rfl
  entries _ := rfl
  lists _ _ _ := rfl
  objects _ _ _ h := by cases h
  noted _ _ _ h := by cases h
  ordered _ h := by cases h
  unordered _ _ _ h := by cases h
  root _ := .inl rfl
  younger n d rid l hd h := by
    have hnone : (tl.dicts n d).get? rid = some l := h
    rw [ha.blank n d hd] at hnone
    cases hnone
  touched := rfl
  touches := Finset.sdiff_empty
  set := .inl rfl
  scalars := ⟨rfl, rfl, rfl⟩
  fresh := le_rfl
  base := ha

/-! ## Remembering -/

/-- When the token notes its first deletable entry, no resource has got lane
directions since it began. -/
def Token.safe (t : Token) (tl : ResourceTimeline) (rid : String) : Prop :=
  t.tracks tl .laneDirections → rid ∉ (t.entries .laneDirections).keys → rid ∈ (tl.map .laneDirections).keys →
    t.deletedOrder = none → ∀ k ∈ (tl.map .laneDirections).keys, (t.entries .laneDirections).get? k ≠ some none

theorem mem_keepObject {t : Token} {tl : ResourceTimeline} {rid : String} {n : ListMap} {l : ℕ} :
    l ∈ (t.keepObject tl rid n).keys ↔ (tl.map n).get? rid = some l ∨ l ∈ (t.objects n).keys := by
  unfold Token.keepObject
  cases (tl.map n).get? rid with
  | none => simp
  | some j =>
    rw [mem_keys_setDefault, Option.some.injEq]
    exact or_congr_left eq_comm

theorem imageAt_keepObject (t : Token) (tl : ResourceTimeline) (rid : String) (n : ListMap) :
    imageAt (tl.lists n) (t.keepObject tl rid n) = imageAt (tl.lists n) (t.objects n) := by
  unfold Token.keepObject
  cases (tl.map n).get? rid with
  | none => rfl
  | some j => exact imageAt_note _ _ _

theorem remember_objects {t : Token} {tl : ResourceTimeline} {rid : String} {n : ListMap} {l : ℕ}
    (h : l ∈ (t.objects n).keys) : l ∈ ((t.remember tl rid).objects n).keys := by
  simp only [Token.remember]
  split
  · exact mem_keepObject.2 (.inr h)
  · exact h

/-- **Remembering a resource keeps what the token leads to.** -/
theorem Leads.remember {t : Token} {b tl : ResourceTimeline} (h : Leads t b tl) (hu : t.undoes) {rid : String}
    (hs : t.safe tl rid) : Leads (t.remember tl rid) b tl where
  values n := by
    simp only [Token.remember, hu.holdsValue n, if_true, image_note]
    exact h.values n
  roots := h.roots
  entries n := by
    simp only [Token.remember]
    split
    · next ht =>
      rw [hu.tracks] at ht
      rw [ResourceTimeline.map, ht, image_note]
      exact h.entries n
    · exact h.entries n
  lists n l hl := by
    simp only [Token.remember]
    split
    · rw [imageAt_keepObject]
      exact h.lists n l hl
    · exact h.lists n l hl
  objects n k l hk := by
    by_cases ht : t.tracks tl n
    · simp only [Token.remember, ht, if_true, get?_note] at hk
      by_cases hmem : rid ∈ (t.entries n).keys
      · refine remember_objects (h.objects n k l ?_)
        obtain ⟨x, hx⟩ := Dict.mem_keys.1 hmem
        split at hk
        · next hkr => rw [hkr, hx]; rwa [hx, Option.getD_some] at hk
        · exact hk
      · rw [Dict.get?_eq_none.2 hmem, Option.getD_none] at hk
        split at hk
        · simp only [Token.remember, ht, hmem, not_false_eq_true, and_true, if_true]
          exact mem_keepObject.2 (.inl (Option.some.inj hk))
        · exact remember_objects (h.objects n k l hk)
    · simp only [Token.remember, ht, if_false, false_and] at hk ⊢
      exact h.objects n k l hk
  noted n k l hk hget := by
    have hold : k ∈ (t.entries n).keys → l ∈ ((t.remember tl rid).objects n).keys ∨ b.fresh ≤ l :=
      fun hm => (h.noted n k l hm hget).imp_left remember_objects
    by_cases ht : t.tracks tl n
    · simp only [Token.remember, ht, if_true, mem_note] at hk
      rcases hk with rfl | hk
      · by_cases hmem : k ∈ (t.entries n).keys
        · exact hold hmem
        · refine .inl ?_
          simp only [Token.remember, ht, hmem, not_false_eq_true, and_true, if_true]
          refine mem_keepObject.2 (.inl ?_)
          rw [ResourceTimeline.map, hu.tracks.1 ht]
          exact hget
      · exact hold hk
    · simp only [Token.remember, ht, if_false] at hk
      exact hold hk
  ordered order ho k := by
    simp only [Token.remember, Token.keepOrder] at ho
    split at ho
    · next hc =>
      obtain ⟨ht, hmem, hrid, hnone⟩ := hc
      -- nothing has been deleted yet, and nothing added
      rw [← Option.some.inj ho]
      have hroot := hu.tracks.1 ht
      have himage := congrFun (h.entries .laneDirections) k
      rw [← hroot, ← ResourceTimeline.map] at himage
      simp only [image] at himage
      rw [Dict.mem_keys, Dict.mem_keys]
      cases hk : (t.entries .laneDirections).get? k with
      | none =>
        rw [hk, Option.getD_none] at himage
        rw [himage]
      | some x =>
        cases x with
        | some l => exact absurd hk (h.unordered hnone k l)
        | none =>
          rw [hk, Option.getD_some] at himage
          rw [← himage]
          refine ⟨fun hx => ?_, fun hx => ?_⟩
          · exact absurd hk (hs ht hmem hrid hnone k (Dict.mem_keys.2 hx))
          · obtain ⟨x, hx⟩ := hx
            cases hx
    · exact h.ordered order ho k
  unordered ho k l := by
    simp only [Token.remember, Token.keepOrder] at ho ⊢
    split at ho
    · cases ho
    · next hc =>
      by_cases ht : t.tracks tl .laneDirections
      · simp only [ht, if_true, get?_note]
        split
        · next hk =>
          subst hk
          by_cases hmem : k ∈ (t.entries .laneDirections).keys
          · obtain ⟨x, hx⟩ := Dict.mem_keys.1 hmem
            rw [hx, Option.getD_some, ← hx]
            exact h.unordered ho k l
          · rw [Dict.get?_eq_none.2 hmem, Option.getD_none]
            have hnot : k ∉ (tl.map .laneDirections).keys := fun hk => hc ⟨ht, hmem, hk, ho⟩
            rw [Dict.get?_eq_none.2 hnot]
            simp
        · exact h.unordered ho k l
      · simp only [ht, if_false]
        exact h.unordered ho k l
  root := h.root
  younger := h.younger
  touched := h.touched
  touches := by
    simp only [Token.remember]
    split
    · next hc =>
      rw [← h.touches]
      ext k
      simp only [Finset.mem_sdiff, Finset.mem_insert, not_or]
      refine ⟨fun hk => ⟨hk.1, hk.2.2⟩, fun hk => ⟨hk.1, ?_, hk.2⟩⟩
      rintro rfl
      exact hc.2.2 hk.1
    · exact h.touches
  set := h.set
  scalars := h.scalars
  fresh := h.fresh
  base := h.base

/-- A remembered resource is noted. -/
theorem noted_remember {t : Token} (hu : t.undoes) (tl : ResourceTimeline) (rid : String) :
    Noted rid (t.remember tl rid) tl where
  values n := by
    simp only [Token.remember, hu.holdsValue n, if_true, mem_note, true_or]
  entries n hroot := by
    have ht : t.tracks tl n := hu.tracks.2 hroot
    simp only [Token.remember, ht, if_true, mem_note, true_or]
  touched hset := by
    simp only [Token.remember] at hset ⊢
    by_cases hmem : rid ∈ tl.touchedSets t.touched
    · exact .inr hmem
    · refine .inl ?_
      rw [if_pos ⟨hu.1, hset, hmem⟩]
      exact Finset.mem_insert_self _ _

/-- Remembering more forgets nothing. -/
theorem Noted.remember {t : Token} {tl : ResourceTimeline} {rid : String} (h : Noted rid t tl) (hu : t.undoes)
    (k : String) : Noted rid (t.remember tl k) tl where
  values n := by
    simp only [Token.remember, hu.holdsValue n, if_true, mem_note]
    exact .inr (h.values n)
  entries n hroot := by
    have ht : t.tracks tl n := hu.tracks.2 hroot
    simp only [Token.remember, ht, if_true, mem_note]
    exact .inr (h.entries n hroot)
  touched hset := by
    refine (h.touched hset).imp_left fun hadd => ?_
    simp only [Token.remember]
    split
    · exact Finset.mem_insert_of_mem hadd
    · exact hadd

/-! ## Edits -/

/-- Only the resources in `R` change, in the dictionaries now in use, in
their own lists and in lists made on the way. -/
structure Edits (R : String → Prop) (tl tl' : ResourceTimeline) : Prop where
  root : tl'.root = tl.root
  touched : tl'.touched = tl.touched
  tokens : tl'.ownedTransactions = tl.ownedTransactions
  discardable : tl'.discardable = tl.discardable
  aliases : tl'.resourceAliases = tl.resourceAliases
  values : ∀ n rid, ¬R rid → (tl'.values n).get? rid = (tl.values n).get? rid
  others : ∀ n d, d ≠ tl.root n → tl'.dicts n d = tl.dicts n d
  entries : ∀ n rid, ¬R rid → (tl'.map n).get? rid = (tl.map n).get? rid
  owned : ∀ n rid l, (tl'.map n).get? rid = some l → (tl.map n).get? rid = some l ∨ tl.fresh ≤ l ∧ l < tl'.fresh
  lists : ∀ n l, l < tl.fresh → (∀ rid, R rid → (tl.map n).get? rid ≠ some l) → tl'.lists n l = tl.lists n l
  sets : ∀ d, d ≠ tl.touched → tl'.touchedSets d = tl.touchedSets d
  touches : ∀ rid, ¬R rid → (rid ∈ tl'.touchedSets tl.touched ↔ rid ∈ tl.touchedSets tl.touched)
  grows : tl.touchedSets tl.touched ⊆ tl'.touchedSets tl.touched
  fresh : tl.fresh ≤ tl'.fresh

theorem Edits.refl (R : String → Prop) (tl : ResourceTimeline) : Edits R tl tl :=
  ⟨rfl, rfl, rfl, rfl, rfl, fun _ _ _ => rfl, fun _ _ _ => rfl, fun _ _ _ => rfl, fun _ _ _ h => .inl h,
    fun _ _ _ _ => rfl, fun _ _ => rfl, fun _ _ => Iff.rfl, subset_rfl, le_rfl⟩

theorem Edits.trans {R : String → Prop} {tl tl' tl'' : ResourceTimeline} (h : Edits R tl tl') (h' : Edits R tl' tl'') :
    Edits R tl tl'' where
  root := h'.root.trans h.root
  touched := h'.touched.trans h.touched
  tokens := h'.tokens.trans h.tokens
  discardable := h'.discardable.trans h.discardable
  aliases := h'.aliases.trans h.aliases
  values n rid hr := (h'.values n rid hr).trans (h.values n rid hr)
  others n d hd := (h'.others n d (by rwa [h.root])).trans (h.others n d hd)
  entries n rid hr := (h'.entries n rid hr).trans (h.entries n rid hr)
  owned n rid l hl := by
    rcases h'.owned n rid l hl with hl | ⟨hge, hlt⟩
    · exact (h.owned n rid l hl).imp_right fun hx => ⟨hx.1, hx.2.trans_le h'.fresh⟩
    · exact .inr ⟨h.fresh.trans hge, hlt⟩
  lists n l hl hr := by
    refine (h'.lists n l (hl.trans_le h.fresh) fun rid hrid heq => ?_).trans (h.lists n l hl hr)
    rcases h.owned n rid l heq with hold | ⟨hge, -⟩
    · exact hr rid hrid hold
    · exact absurd hl (Nat.not_lt.2 hge)
  sets d hd := (h'.sets d (by rwa [h.touched])).trans (h.sets d hd)
  touches rid hr := by
    have h2 := h'.touches rid hr
    rw [h.touched] at h2
    exact h2.trans (h.touches rid hr)
  grows := by
    have h2 := h'.grows
    rw [h.touched] at h2
    exact h.grows.trans h2
  fresh := h.fresh.trans h'.fresh

theorem Edits.mono {R S : String → Prop} {tl tl' : ResourceTimeline} (h : Edits R tl tl') (hs : ∀ rid, R rid → S rid) :
    Edits S tl tl' where
  root := h.root
  touched := h.touched
  tokens := h.tokens
  discardable := h.discardable
  aliases := h.aliases
  values n rid hr := h.values n rid (mt (hs rid) hr)
  others := h.others
  entries n rid hr := h.entries n rid (mt (hs rid) hr)
  owned := h.owned
  lists n l hl hr := h.lists n l hl fun rid hrid => hr rid (hs rid hrid)
  sets := h.sets
  touches rid hr := h.touches rid (mt (hs rid) hr)
  grows := h.grows
  fresh := h.fresh

theorem Allocated.edits {R : String → Prop} {tl tl' : ResourceTimeline} (ha : Allocated tl) (h : Edits R tl tl') :
    Allocated tl' where
  roots n := by rw [h.root]; exact (ha.roots n).trans_le h.fresh
  touched := by rw [h.touched]; exact ha.touched.trans_le h.fresh
  refs n d rid l hl := by
    by_cases hd : d = tl.root n
    · subst hd
      have hmap : (tl'.map n).get? rid = some l := by rw [ResourceTimeline.map, h.root]; exact hl
      rcases h.owned n rid l hmap with hold | hnew
      · exact (ha.refs n _ rid l hold).trans_le h.fresh
      · exact hnew.2
    · rw [h.others n d hd] at hl
      exact (ha.refs n d rid l hl).trans_le h.fresh
  blank n d hd := by
    have hne : d ≠ tl.root n := fun heq => absurd (ha.roots n) (Nat.not_lt.2 (heq ▸ h.fresh.trans hd))
    rw [h.others n d hne]
    exact ha.blank n d (h.fresh.trans hd)

/-- **An edit of noted resources keeps what the token leads to.** -/
theorem Leads.edits {R : String → Prop} {t : Token} {b tl tl' : ResourceTimeline} (h : Leads t b tl)
    (he : Edits R tl tl') (hn : ∀ rid, R rid → Noted rid t tl) : Leads t b tl' where
  values n := by
    rw [image_edit fun rid hrid => he.values n rid fun hr => hrid ((hn rid hr).values n)]
    exact h.values n
  roots := h.roots
  entries n := by
    by_cases hroot : tl.root n = t.roots n
    · have hkeys : ∀ rid, rid ∉ (t.entries n).keys → (tl'.dicts n (t.roots n)).get? rid = (tl.dicts n (t.roots n)).get? rid := by
        intro rid hrid
        have heq := he.entries n rid fun hr => hrid ((hn rid hr).entries n hroot)
        rwa [ResourceTimeline.map, ResourceTimeline.map, he.root, hroot] at heq
      rw [image_edit hkeys]
      exact h.entries n
    · rw [he.others n _ (Ne.symm hroot)]
      exact h.entries n
  lists n l hl := by
    refine (imageAt_edit fun hobj => ?_).trans (h.lists n l hl)
    refine he.lists n l (hl.trans_le h.fresh) fun rid hrid heq => ?_
    rcases h.root n with hroot | hroot
    · have hget : (tl.dicts n (t.roots n)).get? rid = some l := by rwa [← hroot]
      rcases h.noted n rid l ((hn rid hrid).entries n hroot) hget with hm | hm
      · exact hobj hm
      · exact absurd hl (Nat.not_lt.2 hm)
    · exact absurd hl (Nat.not_lt.2 (h.younger n _ rid l hroot heq))
  objects := h.objects
  noted n rid l hrid hget := by
    by_cases hroot : tl.root n = t.roots n
    · have hmap : (tl'.map n).get? rid = some l := by rwa [ResourceTimeline.map, he.root, hroot]
      rcases he.owned n rid l hmap with hold | hnew
      · refine h.noted n rid l hrid ?_
        rwa [ResourceTimeline.map, hroot] at hold
      · exact .inr (h.fresh.trans hnew.1)
    · rw [he.others n _ (Ne.symm hroot)] at hget
      exact h.noted n rid l hrid hget
  ordered := h.ordered
  unordered := h.unordered
  root n := by rw [he.root]; exact h.root n
  younger n d rid l hd hget := by
    by_cases hroot : d = tl.root n
    · subst hroot
      have hmap : (tl'.map n).get? rid = some l := by rwa [ResourceTimeline.map, he.root]
      rcases he.owned n rid l hmap with hold | hnew
      · exact h.younger n _ rid l hd hold
      · exact h.fresh.trans hnew.1
    · rw [he.others n d hroot] at hget
      exact h.younger n d rid l hd hget
  touched := h.touched
  touches := by
    rw [← h.touches]
    by_cases hset : tl.touched = t.touched
    · ext rid
      have hgrows := he.grows
      have hiff := he.touches rid
      rw [hset] at hgrows hiff
      simp only [Finset.mem_sdiff]
      refine and_congr_left fun hadd => ⟨fun hnew => ?_, fun hold => hgrows hold⟩
      by_cases hr : R rid
      · exact ((hn rid hr).touched hset).resolve_left hadd
      · exact (hiff hr).1 hnew
    · rw [he.sets _ (Ne.symm hset)]
  set := by rw [he.touched]; exact h.set
  scalars := h.scalars
  fresh := h.fresh.trans he.fresh
  base := h.base

end HeteroSim.Timeline
