/-
Tables of results, filed under a key that the result itself can name. Where
equal keys mean equal results, a table that holds only results answers as the
function does, for every argument.
-/
import HeteroSim.Dict

namespace HeteroSim.Memo

variable {α β κ ε : Type} [DecidableEq κ]

/-- The key an argument is looked up by is the one its result is filed under,
and the key of a result is that of no argument with another one. -/
structure Keyed (f : α → Except ε β) (key : α → Option κ) (signature : β → κ) : Prop where
  key_eq : ∀ a b, f a = .ok b → key a = some (signature b)
  result_eq : ∀ a a' b, f a = .ok b → key a' = key a → f a' = .ok b

/-- Every entry is a result, under its own signature. -/
def Faithful (f : α → Except ε β) (signature : β → κ) (table : Dict κ β) : Prop :=
  ∀ k b, table.get? k = some b → signature b = k ∧ ∃ a, f a = .ok b

variable {f : α → Except ε β} {key : α → Option κ} {signature : β → κ} {table : Dict κ β}

theorem faithful_empty : Faithful f signature .empty := fun k b h => by
  rw [Dict.get?_empty] at h
  cases h

/-- **What is looked up is what would be computed.** -/
theorem Faithful.lookup (h : Faithful f signature table) (hkeyed : Keyed f key signature) {a : α} {k : κ} {b : β}
    (hk : key a = some k) (hb : table.get? k = some b) : f a = .ok b := by
  obtain ⟨rfl, a', ha'⟩ := h k b hb
  exact hkeyed.result_eq a' a b ha' (hk.trans (hkeyed.key_eq a' b ha').symm)

theorem Faithful.insert (h : Faithful f signature table) {a : α} {b : β} (hb : f a = .ok b) :
    Faithful f signature (table.insert (signature b) b) := by
  intro k b' hb'
  rw [Dict.get?_insert] at hb'
  split at hb'
  · next hk =>
    obtain rfl := Option.some.inj hb'
    exact ⟨hk.symm, a, hb⟩
  · exact h k b' hb'

/-- A table with fewer entries is as good. -/
theorem Faithful.mono (h : Faithful f signature table) {table' : Dict κ β}
    (hsub : ∀ k b, table'.get? k = some b → table.get? k = some b) : Faithful f signature table' :=
  fun k b hb => h k b (hsub k b hb)

/-! ## The order of a table -/

/-- Moving an entry behind the others changes no look-up. -/
theorem get?_moveToEnd (d : Dict κ β) (k k' : κ) : (d.moveToEnd k).get? k' = d.get? k' := by
  unfold Dict.moveToEnd
  cases hk : d.get? k with
  | none => rfl
  | some b =>
    show ((d.erase k).insert k b).get? k' = d.get? k'
    rw [Dict.get?_insert]
    split
    · next he => rw [he, hk]
    · next hne => exact Dict.get?_erase_of_ne d hne

/-- What is left without the oldest entry was there before. -/
theorem get?_of_tail {d : Dict κ β} {k : κ} {b : β} {h : (d.items.tail.map Prod.fst).Nodup}
    (hb : (Dict.mk d.items.tail h).get? k = some b) : d.get? k = some b :=
  Dict.get?_eq_some.2 (List.mem_of_mem_tail (Dict.get?_eq_some.1 hb))

end HeteroSim.Memo
