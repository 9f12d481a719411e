/-
Putting a list in an order in which each element comes after one that
provides what it needs. Passes over what is left take the elements whose
need has been met and defer the others; a pass that takes none gives up.
The passes succeed exactly when the needs are grounded: some rank falls from
every element to one that provides what it needs.
-/
import Mathlib

namespace HeteroSim.Arrange

variable {α κ : Type} (key : α → κ) (need : α → Option κ)

/-- What the element needs is not there yet. -/
def Waits (available : List κ) (a : α) : Prop := ∃ t ∈ need a, t ∉ available

/-- Each element's need is met by what comes before it. -/
def Follows : List κ → List α → Prop
  | _, [] => True
  | available, a :: items => ¬Waits need available a ∧ Follows (key a :: available) items

/-- Every need is met, by a chain that ends. -/
def Grounded (available : List κ) (items : List α) : Prop :=
  ∃ rank : α → Nat, ∀ a ∈ items, ∀ t ∈ need a, t ∈ available ∨ ∃ b ∈ items, key b = t ∧ rank b < rank a

variable {key need}

theorem follows_append : ∀ {items rest : List α} {available : List κ}, Follows key need available items →
    Follows key need ((items.map key).reverse ++ available) rest → Follows key need available (items ++ rest)
  | [], _, _, _, hrest => hrest
  | a :: items, rest, available, h, hrest => by
    refine ⟨h.1, follows_append h.2 ?_⟩
    rwa [List.map_cons, List.reverse_cons, List.append_assoc] at hrest

/-- The element of least rank does not wait. -/
theorem Grounded.exists_met {items : List α} {available : List κ} (h : Grounded key need available items)
    (hne : items ≠ []) : ∃ a ∈ items, ¬Waits need available a := by
  obtain ⟨rank, hrank⟩ := h
  obtain ⟨b, hb⟩ := List.exists_mem_of_ne_nil items hne
  obtain ⟨a, ha, hleast⟩ := Set.exists_min_image {a | a ∈ items} rank (List.finite_toSet items) ⟨b, hb⟩
  refine ⟨a, ha, fun ⟨t, ht, hnot⟩ => ?_⟩
  rcases hrank a ha t ht with hm | ⟨c, hc, -, hlt⟩
  · exact hnot hm
  · exact absurd hlt (not_lt.2 (hleast c hc))

/-- An order is a ground: the rank is the place. -/
theorem Follows.grounded : ∀ {items : List α} {available : List κ}, Follows key need available items →
    Grounded key need available items
  | [], _, _ => ⟨fun _ => 0, fun _ ha => absurd ha List.not_mem_nil⟩
  | a :: items, available, h => by
    classical
    obtain ⟨rank, hrank⟩ := h.2.grounded
    have hmet : ∀ t ∈ need a, t ∈ available := fun t ht => by
      by_contra hnot
      exact h.1 ⟨t, ht, hnot⟩
    refine ⟨fun b => if b = a then 0 else rank b + 1, fun b hb t ht => ?_⟩
    by_cases hba : b = a
    · subst hba
      exact .inl (hmet t ht)
    · simp only [if_neg hba]
      rcases hrank b ((List.mem_cons.1 hb).resolve_left hba) t ht with hm | ⟨c, hc, hkey, hlt⟩
      · rcases List.mem_cons.1 hm with rfl | hm
        · exact .inr ⟨a, List.mem_cons_self, rfl, by rw [if_pos rfl]; omega⟩
        · exact .inl hm
      · refine .inr ⟨c, List.mem_cons_of_mem _ hc, hkey, ?_⟩
        split
        · omega
        · omega

theorem Grounded.perm {items items' : List α} {available : List κ} (h : Grounded key need available items)
    (hp : items.Perm items') : Grounded key need available items' := by
  obtain ⟨rank, hrank⟩ := h
  refine ⟨rank, fun a ha t ht => ?_⟩
  rcases hrank a (hp.symm.subset ha) t ht with hm | ⟨b, hb, hkey, hlt⟩
  · exact .inl hm
  · exact .inr ⟨b, hp.subset hb, hkey, hlt⟩

/-! ## The passes -/

variable [DecidableEq κ]

instance (available : List κ) (a : α) : Decidable (Waits need available a) := by
  unfold Waits
  infer_instance

variable (key need) in
/-- One pass: what it takes, what it defers, and what is available then. -/
def pass : List α → List κ → List α × List α × List κ
  | [], available => ([], [], available)
  | a :: items, available =>
    if Waits need available a then
      let r := pass items available
      (r.1, a :: r.2.1, r.2.2)
    else
      let r := pass items (key a :: available)
      (a :: r.1, r.2.1, r.2.2)

theorem pass_perm : ∀ (items : List α) (available : List κ),
    ((pass key need items available).1 ++ (pass key need items available).2.1).Perm items
  | [], _ => .nil
  | a :: items, available => by
    unfold pass
    split
    · exact List.perm_middle.trans ((pass_perm items available).cons a)
    · exact (pass_perm items (key a :: available)).cons a

theorem pass_length (items : List α) (available : List κ) :
    (pass key need items available).2.1.length ≤ items.length := by
  have h : (_ ++ (pass key need items available).2.1).length = items.length := (pass_perm items available).length_eq
  rw [List.length_append] at h
  omega

variable (key need) in
/-- The passes, until nothing is left; one that takes nothing gives up. -/
def arrange (pending : List α) (available : List κ) : Option (List α) :=
  if pending = [] then some []
  else if _ : (pass key need pending available).2.1.length = pending.length then none
  else (arrange (pass key need pending available).2.1 (pass key need pending available).2.2).map
    ((pass key need pending available).1 ++ ·)
termination_by pending.length
decreasing_by
  have : (pass key need pending available).2.1.length ≤ pending.length := pass_length pending available
  omega

/-! ## The order it gives -/

/-- What a pass makes available is what it took. -/
theorem pass_available : ∀ (items : List α) (available : List κ),
    (pass key need items available).2.2 = ((pass key need items available).1.map key).reverse ++ available
  | [], _ => rfl
  | a :: items, available => by
    unfold pass
    split
    · exact pass_available items available
    · simp only [pass_available items (key a :: available), List.map_cons, List.reverse_cons, List.append_assoc,
        List.singleton_append]

theorem pass_follows : ∀ (items : List α) (available : List κ),
    Follows key need available (pass key need items available).1
  | [], _ => trivial
  | a :: items, available => by
    unfold pass
    split
    · exact pass_follows items available
    · next hmet => exact ⟨hmet, pass_follows items (key a :: available)⟩

/-- **Each element comes after one that provides what it needs.** -/
theorem arrange_some (pending : List α) (available : List κ) {out : List α}
    (h : arrange key need pending available = some out) : out.Perm pending ∧ Follows key need available out := by
  unfold arrange at h
  split at h
  · next hnil =>
    obtain rfl := Option.some.inj h
    exact ⟨hnil ▸ .nil, trivial⟩
  · split at h
    · cases h
    · next hstuck =>
      obtain ⟨rest, hrest, rfl⟩ := Option.map_eq_some_iff.1 h
      have : (pass key need pending available).2.1.length ≤ pending.length := pass_length pending available
      obtain ⟨hperm, hfollows⟩ := arrange_some _ _ hrest
      rw [pass_available] at hfollows
      exact ⟨(hperm.append_left _).trans (pass_perm pending available), follows_append (pass_follows _ _) hfollows⟩
termination_by pending.length
decreasing_by omega

/-! ## When there is one -/

/-- A pass that takes nothing left every element waiting. -/
theorem waits_of_stuck : ∀ (items : List α) (available : List κ),
    (pass key need items available).2.1.length = items.length → ∀ a ∈ items, Waits need available a
  | [], _, _, _, ha => absurd ha List.not_mem_nil
  | a :: items, available, hstuck, b, hb => by
    unfold pass at hstuck
    split at hstuck
    · next hwaits =>
      rcases List.mem_cons.1 hb with rfl | hb
      · exact hwaits
      · exact waits_of_stuck items available (Nat.succ.inj hstuck) b hb
    · have hle : (pass key need items (key a :: available)).2.1.length ≤ items.length := pass_length _ _
      have hstuck : (pass key need items (key a :: available)).2.1.length = items.length + 1 := hstuck
      omega

/-- What a pass defers is grounded on what it took. -/
theorem Grounded.deferred {items : List α} {available : List κ} (h : Grounded key need available items) :
    Grounded key need (pass key need items available).2.2 (pass key need items available).2.1 := by
  obtain ⟨rank, hrank⟩ := h
  have hperm : ((pass key need items available).1 ++ _).Perm items := pass_perm items available
  rw [pass_available]
  refine ⟨rank, fun a ha t ht => ?_⟩
  rcases hrank a (hperm.subset (List.mem_append_right _ ha)) t ht with hm | ⟨b, hb, rfl, hlt⟩
  · exact .inl (List.mem_append_right _ hm)
  · rcases List.mem_append.1 (hperm.symm.subset hb) with htaken | hdeferred
    · exact .inl (List.mem_append_left _ (List.mem_reverse.2 (List.mem_map_of_mem htaken)))
    · exact .inr ⟨b, hdeferred, rfl, hlt⟩

theorem Grounded.arranged (pending : List α) (available : List κ) (h : Grounded key need available pending) :
    (arrange key need pending available).isSome := by
  unfold arrange
  split
  · rfl
  · next hne =>
    split
    · next hstuck =>
      obtain ⟨a, ha, hmet⟩ := h.exists_met hne
      exact absurd (waits_of_stuck pending available hstuck a ha) hmet
    · next hstuck =>
      have : (pass key need pending available).2.1.length ≤ pending.length := pass_length pending available
      rw [Option.isSome_map]
      exact Grounded.arranged _ _ h.deferred
termination_by pending.length
decreasing_by omega

/-- **The passes succeed exactly when the needs are grounded.** -/
theorem arrange_isSome_iff {pending : List α} {available : List κ} :
    (arrange key need pending available).isSome ↔ Grounded key need available pending := by
  constructor
  · intro h
    obtain ⟨out, hout⟩ := Option.isSome_iff_exists.1 h
    obtain ⟨hperm, hfollows⟩ := arrange_some _ _ hout
    exact hfollows.grounded.perm hperm
  · exact Grounded.arranged _ _

end HeteroSim.Arrange
