/-
Runs of submissions and registrations, in any order, the ones turned down
among them: the ids seen are those of the calls that returned, expanded.
-/
import HeteroSim.Kernel.SeenExact

namespace HeteroSim.Kernel

inductive Call
  | submit (chunk order : List String) (rest : Except String Unit)
  | register (name : Option String) (arg : BaseTaskIds) (order : List String) (lengths : List ℕ)

def Call.run : Call → EStateM String SeenHistory Unit
  | .submit chunk order rest => submitIds chunk order rest
  | .register name arg order lengths => registerCompactSeenNamespace name arg order lengths

/-- The orders the call walks in list the sets it walks. -/
def Call.Walks (s : SeenHistory) : Call → Prop
  | .submit chunk order _ => order.toFinset = chunk.toFinset
  | .register _ _ order lengths => order.toFinset = s.seenIds ∧ lengths.toFinset = s.compactSeenPrefixLengths

/-- What the call leaves in the history if it returns. -/
def Call.entries : Call → List Entry
  | .submit chunk _ _ => [.submitted chunk]
  | .register (some name) (.tuple _ items) _ _ | .register (some name) (.sequence _ items) _ _ =>
    [.registered name items.reduceOption]
  | .register _ _ _ _ => []

/-- The calls so far that returned, and the state they and the ones that
raised have led to. -/
inductive Run : List Entry → SeenHistory → Prop
  | init : Run [] .init
  | returned {history : List Entry} {s s' : SeenHistory} {c : Call} (h : Run history s) (hw : c.Walks s)
      (hc : c.run s = .ok () s') : Run (history ++ c.entries) s'
  | raised {history : List Entry} {s s' : SeenHistory} {c : Call} {e : String} (h : Run history s) (hw : c.Walks s)
      (hc : c.run s = .error e s') : Run history s'

variable {history : List Entry} {s s' : SeenHistory}

/-! ## One call -/

/-- A prepared change, made or raised: all a call can do. -/
theorem raise_set_ok {α ε σ : Type} {s s' : σ} {x : Except ε α} {f : α → σ} :
    (do let a ← (raise x : EStateM ε σ α); set (f a)) s = .ok () s' ↔ ∃ a, x = .ok a ∧ s' = f a := by
  cases x with
  | error e => exact ⟨fun h => (by cases h), fun ⟨_, h, _⟩ => (by cases h)⟩
  | ok a => exact ⟨fun h => (by cases h; exact ⟨a, rfl, rfl⟩), fun ⟨_, h, hs⟩ => (by cases h; rw [hs]; rfl)⟩

theorem submit_ok {chunk order : List String} {rest : Except String Unit} :
    submitIds chunk order rest s = .ok () s' ↔
      checkChunkIds s chunk order rest = .ok () ∧ s' = { s with seenIds := s.seenIds ∪ chunk.toFinset } :=
  raise_set_ok.trans ⟨fun ⟨_, h⟩ => h, fun h => ⟨(), h⟩⟩

theorem register_ok {name : Option String} {arg : BaseTaskIds} {order : List String} {lengths : List ℕ} :
    registerCompactSeenNamespace name arg order lengths s = .ok () s' ↔
      ∃ prepared, prepareCompactSeenNamespace s name arg order lengths = .ok prepared ∧
        s' = commitCompactSeenNamespace prepared s :=
  raise_set_ok

theorem Reflects.submitted (h : Reflects history s) (chunk : List String) :
    Reflects (history ++ [.submitted chunk]) { s with seenIds := s.seenIds ∪ chunk.toFinset } where
  seen t := by
    simp only [Finset.mem_union, h.seen, List.mem_toFinset, List.mem_append, List.mem_singleton, Entry.submitted.injEq,
      or_and_right, exists_or, exists_eq_left]
  namespaces name baseIds := by
    rw [h.namespaces, List.mem_append, List.mem_singleton]
    simp
  sets := h.sets
  lengths := h.lengths
  sorted := h.sorted
  names := h.names
  texts := h.texts
  cache := h.cache

/-- `bisect_right` and `bisect_left` agree off the list. -/
theorem bisectLeft_absent {l : List String} {name : String} (h : name ∉ l) :
    bisectLeft (fun q => decide (q ≤ name)) l = bisectLeft (before name) l := by
  have hcongr : ∀ {l : List String}, name ∉ l →
      l.takeWhile (fun q => decide (q ≤ name)) = l.takeWhile (before name) := by
    intro l
    induction l with
    | nil => exact fun _ => rfl
    | cons q l ih =>
      intro hn
      rw [List.mem_cons, not_or] at hn
      have hq : decide (q ≤ name) = before name q := by
        rw [before, decide_eq_decide]
        exact ⟨fun hle => lt_of_le_of_ne hle (Ne.symm hn.1), le_of_lt⟩
      rw [List.takeWhile_cons, List.takeWhile_cons, hq, ih hn.2]
  rw [bisectLeft, hcongr h, bisectLeft]

theorem Reflects.registered (h : Reflects history s) {name : String} {baseIds : List String} (address : ℕ)
    (hnew : name ∉ s.compactSeenNamespaces.keys) (hempty : "" ∉ baseIds) (hnodup : baseIds.Nodup) :
    Reflects (history ++ [.registered name baseIds])
      (commitCompactSeenNamespace (name, address, baseIds, baseIds.toFinset) s) := by
  have hperm := perm_insertIdx_bisect h.sorted (fun hm => hnew ((h.names name).1 hm))
  rw [← bisectLeft_absent fun hm => hnew ((h.names name).1 hm)] at hperm
  refine ⟨fun t => ?_, fun n ids => ?_, fun n => ?_, fun n => ?_, hperm.2, fun n => ?_, fun n ids hget => ?_,
    fun at_ ids idSet hget => ?_⟩
  · rw [commitCompactSeenNamespace, h.seen]
    simp
  · rw [commitCompactSeenNamespace, Dict.get?_insert, List.mem_append, List.mem_singleton, Entry.registered.injEq]
    by_cases hn : n = name
    · subst hn
      rw [if_pos rfl, Option.some.injEq]
      exact ⟨fun he => .inr ⟨rfl, he.symm⟩, fun hm => hm.elim (fun hm => absurd hm (h.new_iff.1 hnew ids)) fun hm => hm.2.symm⟩
    · rw [if_neg hn, h.namespaces]
      exact ⟨.inl, fun hm => hm.elim id fun hm => absurd hm.1 hn⟩
  · rw [commitCompactSeenNamespace, Dict.get?_insert, Dict.get?_insert]
    by_cases hn : n = name
    · rw [if_pos hn, if_pos hn, Option.map_some]
    · rw [if_neg hn, if_neg hn, h.sets]
  · simp only [commitCompactSeenNamespace, Finset.mem_insert, h.lengths, Dict.mem_keys_insert, or_and_right, exists_or,
      exists_eq_left, eq_comm (a := n)]
  · simp only [commitCompactSeenNamespace, Dict.mem_keys_insert, ← h.names]
    exact hperm.1.mem_iff.trans List.mem_cons
  · rw [commitCompactSeenNamespace, Dict.get?_insert] at hget
    by_cases hn : n = name
    · rw [if_pos hn] at hget
      exact Option.some.inj hget ▸ hempty
    · rw [if_neg hn] at hget
      exact h.texts _ _ hget
  · simp only [commitCompactSeenNamespace, Function.update_apply] at hget
    by_cases ha : at_ = address
    · rw [if_pos ha, Option.some.injEq, Prod.mk.injEq] at hget
      obtain ⟨rfl, rfl⟩ := hget
      exact ⟨hempty, hnodup, rfl⟩
    · rw [if_neg ha] at hget
      exact h.cache _ _ _ hget

/-! ## A run -/

theorem Reflects.returned (h : Reflects history s) {c : Call} (hw : c.Walks s) (hc : c.run s = .ok () s') :
    Reflects (history ++ c.entries) s' := by
  cases c with
  | submit chunk order rest =>
    obtain ⟨-, rfl⟩ := submit_ok.1 hc
    exact h.submitted chunk
  | register name arg order lengths =>
    obtain ⟨⟨n, address, baseIds, baseIdSet⟩, hok, rfl⟩ := register_ok.1 hc
    obtain ⟨rfl, -, hnew, hitems, hempty, hnodup, rfl, -⟩ := (h.prepare hw.1 hw.2).1 ⟨address, hok⟩
    have hids : (baseIds.map some).reduceOption = baseIds := by
      rw [List.reduceOption, List.filterMap_map]
      exact List.filterMap_some
    have hentries : Call.entries (.register (some n) arg order lengths) = [.registered n baseIds] := by
      cases arg with
      | text => cases hitems
      | tuple _ items | sequence _ items =>
        obtain rfl := Option.some.inj hitems
        rw [Call.entries, hids]
    rw [hentries]
    exact h.registered address (h.new_iff.2 hnew) hempty hnodup

end HeteroSim.Kernel
