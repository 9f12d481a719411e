/-
Before-images, kept lazily. A journal notes a key's entry at its first
mention and never again; its image of the dictionary is what it noted over
the live entries. An edit of a noted key leaves the image as it was, and
putting the noted entries back makes the image live.
-/
import HeteroSim.Dict

namespace HeteroSim

variable {κ ν : Type} [DecidableEq κ]

/-- The key's entry is noted, unless it already is. -/
def note (d : Dict κ ν) (k : κ) (journal : Dict κ (Option ν)) : Dict κ (Option ν) := journal.setDefault k (d.get? k)

/-- What the journal leads back to. -/
def image (d : Dict κ ν) (journal : Dict κ (Option ν)) (k : κ) : Option ν := (journal.get? k).getD (d.get? k)

/-- The noted entries are put back. -/
def putBack (d : Dict κ ν) (journal : Dict κ (Option ν)) : Dict κ ν := journal.items.foldl (fun d p => d.put p.1 p.2) d

@[simp] theorem image_empty (d : Dict κ ν) (k : κ) : image d .empty k = d.get? k := rfl

theorem mem_keys_setDefault {d : Dict κ ν} {k j : κ} {v : ν} : j ∈ (d.setDefault k v).keys ↔ j = k ∨ j ∈ d.keys := by
  rw [Dict.mem_keys, Dict.mem_keys]
  simp only [Dict.get?_setDefault]
  by_cases hj : j = k
  · simp [hj]
  · simp [hj]

theorem mem_note {d : Dict κ ν} {journal : Dict κ (Option ν)} {k j : κ} :
    j ∈ (note d k journal).keys ↔ j = k ∨ j ∈ journal.keys := mem_keys_setDefault

theorem get?_note (d : Dict κ ν) (journal : Dict κ (Option ν)) (k j : κ) :
    (note d k journal).get? j = if j = k then some ((journal.get? k).getD (d.get? k)) else journal.get? j :=
  Dict.get?_setDefault _ _ _ _

/-- **Noting an entry leaves the image.** -/
theorem image_note (d : Dict κ ν) (journal : Dict κ (Option ν)) (k : κ) : image d (note d k journal) = image d journal := by
  funext j
  rw [image, get?_note]
  split
  · next h => subst h; rfl
  · rfl

/-- **An edit of noted keys leaves the image.** -/
theorem image_edit {d e : Dict κ ν} {journal : Dict κ (Option ν)} (h : ∀ k, k ∉ journal.keys → e.get? k = d.get? k) :
    image e journal = image d journal := by
  funext k
  rw [image, image]
  by_cases hk : k ∈ journal.keys
  · obtain ⟨x, hx⟩ := Dict.mem_keys.1 hk
    rw [hx]
    rfl
  · rw [h k hk]

/-- **Putting back makes the image live.** -/
theorem get?_putBack (d : Dict κ ν) (journal : Dict κ (Option ν)) : (putBack d journal).get? = image d journal := by
  funext k
  exact Dict.get?_foldl_put journal.items d k journal.nodup

/-! ## Objects that stay where they are -/

/-- The image of a store whose objects are changed in place. -/
def imageAt {β : Type} (store : κ → β) (journal : Dict κ β) (k : κ) : β := (journal.get? k).getD (store k)

@[simp] theorem imageAt_empty {β : Type} (store : κ → β) (k : κ) : imageAt store .empty k = store k := rfl

theorem imageAt_note {β : Type} (store : κ → β) (journal : Dict κ β) (k : κ) :
    imageAt store (journal.setDefault k (store k)) = imageAt store journal := by
  funext j
  rw [imageAt, Dict.get?_setDefault]
  split
  · next h => subst h; rfl
  · rfl

theorem imageAt_edit {β : Type} {store store' : κ → β} {journal : Dict κ β} {k : κ}
    (h : k ∉ journal.keys → store' k = store k) : imageAt store' journal k = imageAt store journal k := by
  rw [imageAt, imageAt]
  by_cases hk : k ∈ journal.keys
  · obtain ⟨x, hx⟩ := Dict.mem_keys.1 hk
    rw [hx]
    rfl
  · rw [h hk]

/-! ## Reading a dictionary again in a noted order -/

/-- `{key: d[key] for key in order}`; an absent key raises. -/
def reread (d : Dict κ ν) : List κ → Option (Dict κ ν)
  | [] => some .empty
  | k :: order => do
    let v ← d.get? k
    let rest ← reread d order
    pure ⟨(k, v) :: (rest.erase k).items, by
      rw [List.map_cons, List.nodup_cons]
      refine ⟨?_, (rest.erase k).nodup⟩
      have h : k ∉ (rest.erase k).keys := by simp
      exact h⟩

theorem reread_spec {d : Dict κ ν} : ∀ (order : List κ), (∀ k ∈ order, k ∈ d.keys) →
    ∃ e, reread d order = some e ∧ ∀ k, e.get? k = if k ∈ order then d.get? k else none
  | [], _ => ⟨.empty, rfl, fun k => by simp⟩
  | j :: order, h => by
    obtain ⟨v, hv⟩ := Dict.mem_keys.1 (h j (by simp))
    obtain ⟨e, he, hget⟩ := reread_spec order fun k hk => h k (by simp [hk])
    simp only [reread, hv, he, Option.bind_eq_bind, Option.bind_some, Option.pure_def]
    refine ⟨_, rfl, fun k => ?_⟩
    by_cases hk : k = j
    · subst hk
      rw [if_pos (by simp), hv]
      simp [Dict.get?]
    · have hcons : ∀ {items : List (κ × ν)}, (((j, v) :: items).find? fun p => p.1 = k) = items.find? fun p => p.1 = k :=
        fun {items} => by rw [List.find?_cons]; simp [Ne.symm hk]
      have hrest : (e.erase j).get? k = if k ∈ order then d.get? k else none := by
        rw [Dict.get?_erase_of_ne e hk, hget]
      simp only [List.mem_cons, hk, false_or]
      rw [← hrest, Dict.get?, Dict.get?, hcons]

end HeteroSim
