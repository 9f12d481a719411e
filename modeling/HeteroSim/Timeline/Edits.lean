/-
The writers edit only what they remembered: a reservation, a transfer, a
core's own write and a compiled controller's publication change the entries
and lists of their resources, and nothing else.
-/
import HeteroSim.Timeline.Journal

namespace HeteroSim.Timeline

section

variable (rid : String) (tl : ResourceTimeline)

/-! ## One write -/

theorem put_edits (n : ValueMap) (v : Value n) : Edits (· = rid) tl (put n rid v tl) :=
  { Edits.refl (· = rid) tl with
    values := fun m k hk => by
      simp only [put]
      by_cases hm : m = n
      · subst hm
        rw [Function.update_self, Dict.get?_insert_of_ne _ _ hk]
      · rw [Function.update_of_ne hm] }

theorem map_putList (n m : ListMap) (l : Option ℕ) :
    ((putList n rid l tl).map m).get? = if m = n then Function.update ((tl.map n).get?) rid l else (tl.map m).get? := by
  simp only [ResourceTimeline.map, putList]
  split
  · next h =>
    subst h
    rw [Function.update_self, Function.update_self, Dict.get?_put]
  · next h => rw [Function.update_of_ne h]

/-- An entry changes to none, or to a list it may have. -/
theorem putList_edits (n : ListMap) (l : Option ℕ) (hl : ∀ j ∈ l, (tl.map n).get? rid = some j) :
    Edits (· = rid) tl (putList n rid l tl) :=
  { Edits.refl (· = rid) tl with
    others := fun m d hd => by
      simp only [putList]
      by_cases hm : m = n
      · subst hm
        rw [Function.update_self, Function.update_of_ne hd]
      · rw [Function.update_of_ne hm]
    entries := fun m k hk => by
      rw [map_putList]
      split
      · next h => subst h; rw [Function.update_of_ne hk]
      · rfl
    owned := fun m k j hj => by
      rw [map_putList] at hj
      split at hj
      · next h =>
        subst h
        by_cases hk : k = rid
        · subst hk
          rw [Function.update_self] at hj
          exact .inl (hl j hj)
        · rw [Function.update_of_ne hk] at hj
          exact .inl hj
      · exact .inl hj }

theorem fill_edits (n : ListMap) (l : ℕ) (items : List (Item n)) (hl : (tl.map n).get? rid = some l ∨ tl.fresh ≤ l) :
    Edits (· = rid) tl (fill n l items tl) :=
  { Edits.refl (· = rid) tl with
    lists := fun m j hj hnot => by
      simp only [fill]
      by_cases hm : m = n
      · subst hm
        have hne : j ≠ l := by
          rintro rfl
          exact hl.elim (hnot rid rfl) fun hge => absurd hj (Nat.not_lt.2 hge)
        rw [Function.update_self, Function.update_of_ne hne]
      · rw [Function.update_of_ne hm] }

theorem newList_edits (n : ListMap) (items : List (Item n)) : Edits (· = rid) tl (newList n rid items tl) :=
  { fill_edits rid tl n tl.fresh items (.inr le_rfl) with
    values := fun _ _ _ => rfl
    others := fun m d hd => by
      simp only [newList, putList, fill]
      by_cases hm : m = n
      · subst hm
        rw [Function.update_self, Function.update_of_ne hd]
      · rw [Function.update_of_ne hm]
    entries := fun m k hk => by
      rw [newList, map_putList]
      split
      · next h => subst h; rw [Function.update_of_ne hk]; rfl
      · rfl
    owned := fun m k j hj => by
      rw [newList, map_putList] at hj
      split at hj
      · next h =>
        subst h
        by_cases hk : k = rid
        · subst hk
          rw [Function.update_self] at hj
          exact .inr ⟨(Option.some.inj hj).le, (Option.some.inj hj).symm.trans_lt (Nat.lt_succ_self _)⟩
        · rw [Function.update_of_ne hk] at hj
          exact .inl hj
      · exact .inl hj
    fresh := Nat.le_succ _ }

theorem setList_edits (n : ListMap) (items : List (Item n)) : Edits (· = rid) tl (setList n rid items tl) := by
  unfold setList
  split
  · next l hl => exact fill_edits rid tl n l items (.inl hl)
  · exact newList_edits rid tl n items

theorem touch_edits : Edits (· = rid) tl (touch rid tl) :=
  { Edits.refl (· = rid) tl with
    sets := fun d hd => by
      simp only [touch]
      rw [Function.update_of_ne hd]
    touches := fun k hk => by
      simp only [touch, Function.update_self, Finset.mem_insert]
      exact or_iff_right hk
    grows := by
      simp only [touch, Function.update_self]
      exact Finset.subset_insert _ _ }

/-- The scalars are not part of what an edit speaks of. -/
theorem scalars_edits (count : ℕ) (truncated : Bool) :
    Edits (· = rid) tl { tl with intervalCount := count, intervalsTruncated := truncated } :=
  { Edits.refl (· = rid) tl with }

/-! ## The writers -/

theorem recordInterval_edits (interval : ℚ × ℚ) : Edits (· = rid) tl (recordInterval rid interval tl) := by
  unfold recordInterval
  split
  · exact (setList_edits rid tl .intervals _).trans (scalars_edits rid _ _ _)
  · exact scalars_edits rid tl _ _

theorem recordDirection_edits (direction : Option String) (b : Booking) :
    Edits (· = rid) tl (recordDirection rid direction b tl) := by
  have hput : Edits (· = rid) tl (if truthy direction then put .directions rid (direction.getD "") tl else tl) := by
    split
    · exact put_edits rid tl .directions _
    · exact Edits.refl _ tl
  unfold recordDirection
  extract_lets tl' histories
  change Edits _ tl tl' at hput
  clear_value tl'
  refine hput.trans ?_
  split
  · split
    · exact setList_edits rid _ .laneDirections _
    · exact newList_edits rid _ .laneDirections _
  · exact putList_edits rid _ .laneDirections none (fun j hj => by cases hj)

theorem book_edits (direction : Option String) (b : Booking) : Edits (· = rid) tl (book rid direction b tl) :=
  (setList_edits rid tl .laneAvailable _).trans <| (put_edits rid _ .readyNs _).trans <|
    (put_edits rid _ .busyNs _).trans <| (put_edits rid _ .lastIntervals _).trans <| (touch_edits rid _).trans <|
    (recordInterval_edits rid _ _).trans (recordDirection_edits rid _ direction b)

theorem countTransfer_edits (bytes : ℕ) (start stop : ℚ) : Edits (· = rid) tl (countTransfer rid bytes start stop tl) := by
  refine (put_edits rid tl .bytesMoved (((tl.values .bytesMoved).get? rid).getD 0 + bytes)).trans ?_
  unfold countTransfer recordPayload
  split
  · exact setList_edits rid _ .intervalPayloads _
  · exact Edits.refl _ _

theorem publishColumn_edits (c : Column) : Edits (· = c.rid) tl (publishColumn tl c) := by
  have hdata : ∀ (data : Option (ℕ × String)) (tl : ResourceTimeline), Edits (· = c.rid) tl (publishData c.rid data tl) := by
    intro data tl
    cases data with
    | none => exact Edits.refl _ tl
    | some d => exact (put_edits c.rid tl .bytesMoved _).trans (put_edits c.rid _ .directions _)
  exact (setList_edits c.rid tl .laneAvailable _).trans <| (put_edits c.rid _ .readyNs _).trans <|
    (put_edits c.rid _ .busyNs _).trans <| (put_edits c.rid _ .lastIntervals _).trans <|
    (putList_edits c.rid _ .laneDirections none (fun j hj => by cases hj)).trans <|
    (touch_edits c.rid _).trans (hdata c.data _)

theorem publishColumns_edits : ∀ (columns : List Column) (tl : ResourceTimeline),
    Edits (· ∈ columns.map Column.rid) tl (columns.foldl publishColumn tl)
  | [], tl => Edits.refl _ tl
  | c :: columns, tl =>
    ((publishColumn_edits tl c).mono fun rid hr => by simp [hr]).trans
      ((publishColumns_edits columns _).mono fun rid hr => by simp [hr])

end

/-! ## Resource names -/

theorem resolve_fixed {aliases : Dict String String} : ∀ {n : ℕ} {seen : Finset String} {rid canonical : String},
    resolve aliases n seen rid = .ok canonical →
      aliases.get? canonical = none ∨ aliases.get? canonical = some canonical ∧ canonical ≠ ""
  | 0, _, _, _, h => by cases h
  | n + 1, seen, rid, canonical, h => by
    unfold resolve at h
    split at h
    · next hnone =>
      obtain rfl := Except.ok.inj h
      exact .inl hnone
    · next target htarget =>
      split at h
      · cases h
      · next hne =>
        split at h
        · next heq =>
          obtain rfl := Except.ok.inj h
          subst heq
          exact .inr ⟨htarget, hne⟩
        · split at h
          · cases h
          · exact resolve_fixed h

/-- A canonical name is its own. -/
theorem canonical_idem {tl : ResourceTimeline} {rid canonical : String} (h : canonicalResourceId tl rid = .ok canonical) :
    canonicalResourceId tl canonical = .ok canonical := by
  rw [canonicalResourceId, resolve]
  rcases resolve_fixed h with hnone | ⟨hself, hne⟩
  · rw [hnone]
  · rw [hself]
    simp [hne]

/-! ## Reservations and transfers -/

/-- The call left the calendar alone, or edited the one resource it names,
remembered first. -/
def Wrote (resourceId : String) (tl tl' : ResourceTimeline) : Prop :=
  tl' = tl ∨ ∃ rid, canonicalResourceId tl resourceId = .ok rid ∧ Edits (· = rid) (rememberResource rid tl) tl'

theorem reserve_wrote (finite : ℚ → Bool) (resourceId : String) (earliest duration : ℚ) (direction : Option String)
    (switch : ℚ) (tl : ResourceTimeline) :
    wp (reserve finite resourceId earliest duration direction switch)
      (fun _ tl' => ∃ rid, canonicalResourceId tl resourceId = .ok rid ∧
        Edits (· = rid) (rememberResource rid tl) tl')
      (fun _ tl' => Wrote resourceId tl tl') tl := by
  simp only [reserve, wp_bind, wp_get, wp_raise, wp_modify, wp_pure]
  refine ⟨fun _ _ => ⟨fun rid hrid => ⟨fun b _ => ⟨rid, hrid, ?_⟩, fun _ _ => .inr ⟨rid, hrid, ?_⟩⟩,
    fun _ _ => .inl rfl⟩, fun _ _ => .inl rfl⟩
  · exact book_edits rid _ direction b
  · exact Edits.refl _ _

theorem transfer_wrote (finite : ℚ → Bool) (resourceId : String) (bytes : ℕ) (earliest bandwidth : ℚ)
    (direction : Option String) (switch : ℚ) (tl : ResourceTimeline) :
    wp (transfer finite resourceId bytes earliest bandwidth direction switch)
      (fun _ tl' => Wrote resourceId tl tl') (fun _ tl' => Wrote resourceId tl tl') tl := by
  simp only [transfer, wp_bind, wp_get, wp_raise, wp_modify, wp_pure]
  refine ⟨fun rid hrid => ⟨fun _ _ => ?_, fun _ _ => .inl rfl⟩, fun _ _ => .inl rfl⟩
  -- the canonical name is reserved, and it is its own
  have hself := canonical_idem hrid
  have hback : ∀ tl', Wrote rid tl tl' → Wrote resourceId tl tl' := by
    rintro tl' (rfl | ⟨k, hk, he⟩)
    · exact .inl rfl
    · obtain rfl := Except.ok.inj (hself.symm.trans hk)
      exact .inr ⟨rid, hrid, he⟩
  refine wp_mono (reserve_wrote finite rid earliest (bytes / bandwidth) direction switch tl) ?_ fun e tl' => hback tl'
  rintro reservation tl' ⟨k, hk, he⟩
  obtain rfl := Except.ok.inj (hself.symm.trans hk)
  exact .inr ⟨rid, hrid, he.trans (countTransfer_edits rid tl' bytes _ _)⟩

end HeteroSim.Timeline
