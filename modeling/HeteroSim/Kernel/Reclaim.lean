/-
What the passes over the queue release. A pass that releases nothing leaves
every key it met below a live alias; of keys whose aliases are all due, one
ranks above the others, and what hangs on it would be due and rank above it.
-/
import HeteroSim.Kernel.Holders
import HeteroSim.Raising

namespace HeteroSim.Kernel

open Allocator (AllocatorState PhysicalAllocation Names)

/-- The allocator's key. -/
def BufferKey.slot (k : BufferKey) : Allocator.Key := (strip k.bufferId, k.generation)

/-- The allocator takes the key: its buffer id is not blank, its generation
not negative. -/
def BufferKey.Named (k : BufferKey) : Prop := strip k.bufferId ≠ "" ∧ 0 ≤ k.generation

theorem keyOf_named {k : BufferKey} (h : k.Named) : Allocator.keyOf k.bufferId k.generation = .ok k.slot := by
  rw [Allocator.keyOf, if_neg h.1, if_neg (not_lt.2 h.2), BufferKey.slot]

/-- An allocator some run has reached. -/
def LiveAllocator (a : AllocatorState) : Prop := ∃ cfg, Allocator.Reachable (fun m => Allocator.AliasesOk m.get?) cfg a

/-- A release is refused below a live alias, and else empties the slot. -/
theorem release_named {a : AllocatorState} (ha : LiveAllocator a) {k : BufferKey} (hk : k.Named) :
    (∃ e, Allocator.release k.bufferId k.generation a = .error e ∧ ∃ j, Names a.allocations.get? j k.slot) ∨
      ∃ a', Allocator.release k.bufferId k.generation a = .ok a' ∧ LiveAllocator a' ∧
        ∀ j, a'.allocations.get? j = if j = k.slot then none else a.allocations.get? j := by
  obtain ⟨cfg, hreach⟩ := ha
  cases hrel : Allocator.release k.bufferId k.generation a with
  | error e =>
    refine .inl ⟨e, rfl, ?_⟩
    have hiff := Allocator.release_error_iff (Allocator.reachable_sound hreach).1.index
      (Allocator.reachable_aliases hreach).live k.bufferId k.generation
    rcases hiff.1 ⟨e, hrel⟩ with ⟨e', he⟩ | hnames
    · cases (keyOf_named hk).symm.trans he
    · exact hnames
  | ok a' =>
    refine .inr ⟨a', rfl, ⟨cfg, hreach.tail (.release _ _ hrel)⟩, fun j => ?_⟩
    rw [Allocator.release, keyOf_named hk] at hrel
    simp only [bind, Except.bind] at hrel
    split at hrel
    · next hnone =>
      obtain rfl := Except.ok.inj hrel
      split
      · next hj => rw [hj, hnone]
      · rfl
    · split at hrel
      · cases hrel
      · obtain rfl := Except.ok.inj hrel
        rw [(Allocator.retire_edit _ _ _).allocations, Dict.get?_erase]
        rfl

variable {ρ : Type}

/-! ## Between two states of the loop -/

/-- The key's extent has a live alias. -/
def Blocked (s : BufferState ρ) (k : BufferKey) : Prop :=
  ∃ a j, s.allocators.get? k.owner = some a ∧ Names a.allocations.get? j k.slot

/-- What the calls that do not touch the allocators' keys leave alone. -/
structure SameHolds (s₀ s : BufferState ρ) : Prop where
  buffers : s.requestPhysicalBuffers = s₀.requestPhysicalBuffers
  holders : s.requestBufferHolders = s₀.requestBufferHolders
  uses : s.physicalAllocationUses = s₀.physicalAllocationUses
  makespan : s.makespanNs = s₀.makespanNs

/-- An allocator's keys, less some of those due. -/
def Emptied (due : Finset BufferKey) (owner : String) (a₀ a : AllocatorState) : Prop :=
  ∀ j, a.allocations.get? j = a₀.allocations.get? j ∨
    a.allocations.get? j = none ∧ ∃ k ∈ due, k.owner = owner ∧ k.slot = j

/-- From `s₀`, of the keys `due` those not in `left` have been dealt with. -/
structure Progress (s₀ : BufferState ρ) (due left : Finset BufferKey) (s : BufferState ρ) : Prop where
  sub : left ⊆ due
  same : SameHolds s₀ s
  owners : ∀ owner, s.allocators.get? owner = none ↔ s₀.allocators.get? owner = none
  live : ∀ owner a, s.allocators.get? owner = some a →
    LiveAllocator a ∧ ∃ a₀, s₀.allocators.get? owner = some a₀ ∧ Emptied due owner a₀ a
  done : ∀ k ∈ due, k ∉ left → k ∉ s.pendingPhysicalReleases.keys ∧
    ∀ a, s.allocators.get? k.owner = some a → a.allocations.get? k.slot = none
  rest : ∀ k, k ∈ left ∨ k ∉ due → s.pendingPhysicalReleases.get? k = s₀.pendingPhysicalReleases.get? k

/-- The due keys of live allocators are ones the allocators take. -/
def Readable (s : BufferState ρ) (due : Finset BufferKey) : Prop :=
  ∀ k ∈ due, (s.allocators.get? k.owner).isSome → k.Named

variable {s₀ s s' : BufferState ρ} {due left : Finset BufferKey}

theorem Progress.readable (h : Progress s₀ due left s) (hr : Readable s₀ due) : Readable s left := by
  intro k hk hsome
  refine hr k (h.sub hk) ?_
  rw [Option.isSome_iff_ne_none] at hsome ⊢
  exact fun hn => hsome ((h.owners _).2 hn)

variable (discard : BufferKey → Option PhysicalAllocation → WithTop ℚ → ρ → ρ) (arrival : WithTop ℚ)

/-- One key: deferred below a live alias, or dealt with. -/
theorem Progress.key (h : Progress s₀ due left s) (hr : Readable s₀ due) {k : BufferKey} (hk : k ∈ left) :
    (reclaimKey discard arrival k s = .ok true s ∧ Blocked s k) ∨
      ∃ s', reclaimKey discard arrival k s = .ok false s' ∧ Progress s₀ due (left.erase k) s' := by
  have hpending : ∀ d : Dict BufferKey ℚ, ∀ j, j ∈ left.erase k ∨ j ∉ due → (d.erase k).get? j = d.get? j := by
    intro d j hj
    refine Dict.get?_erase_of_ne _ ?_
    rintro rfl
    rcases hj with hj | hj
    · exact absurd rfl (Finset.ne_of_mem_erase hj)
    · exact hj (h.sub hk)
  have hleft : ∀ {j}, j ∈ left.erase k ∨ j ∉ due → j ∈ left ∨ j ∉ due := fun hj =>
    hj.imp_left Finset.mem_of_mem_erase
  have hnot : ∀ {j}, j ∉ left.erase k → j = k ∨ j ∉ left := fun {j} hj => by
    by_contra hno
    rw [not_or, not_not] at hno
    exact hj (Finset.mem_erase.2 hno)
  rw [reclaimKey, get_then]
  cases howner : s.allocators.get? k.owner with
  | none =>
    refine .inr ⟨_, rfl, (Finset.erase_subset _ _).trans h.sub, ⟨h.same.buffers, h.same.holders, h.same.uses,
      h.same.makespan⟩, h.owners, h.live, fun j hj hjl => ?_, fun j hj => (hpending _ j hj).trans (h.rest j (hleft hj))⟩
    rcases hnot hjl with rfl | hjl
    · exact ⟨by simp, fun a ha => by rw [howner] at ha; cases ha⟩
    · obtain ⟨hgone, hslot⟩ := h.done j hj hjl
      exact ⟨by simp [hgone], hslot⟩
  | some a =>
    have hnamed := h.readable hr k hk (by rw [howner]; rfl)
    obtain ⟨hlive, a₀, ha₀, hemptied⟩ := h.live _ _ howner
    have hget : Allocator.getAllocation a k.bufferId k.generation = .ok (a.allocations.get? k.slot) := by
      rw [Allocator.getAllocation, keyOf_named hnamed]
      rfl
    simp only [ok_bind (raise_ok hget)]
    rcases release_named hlive hnamed with ⟨e, hrel, j, hnames⟩ | ⟨a', hrel, hlive', hslots⟩
    · rw [hrel]
      exact .inl ⟨rfl, a, j, howner, hnames⟩
    · rw [hrel]
      refine .inr ⟨_, rfl, (Finset.erase_subset _ _).trans h.sub, ⟨h.same.buffers, h.same.holders, h.same.uses,
        h.same.makespan⟩, fun owner => ?_, fun owner b hb => ?_, fun j hj hjl => ?_,
        fun j hj => (hpending _ j hj).trans (h.rest j (hleft hj))⟩
      · rw [Dict.get?_insert, ← h.owners]
        split
        · next ho => rw [ho, howner]; simp
        · rfl
      · rw [Dict.get?_insert] at hb
        split at hb
        · next ho =>
          obtain rfl := Option.some.inj hb
          subst ho
          refine ⟨hlive', a₀, ha₀, fun j => ?_⟩
          rw [hslots]
          split
          · next hj => exact .inr ⟨rfl, k, h.sub hk, rfl, hj.symm⟩
          · exact hemptied j
        · exact h.live owner b hb
      · rcases hnot hjl with rfl | hjl
        · refine ⟨by simp, fun b hb => ?_⟩
          rw [Dict.get?_insert, if_pos rfl] at hb
          obtain rfl := Option.some.inj hb
          rw [hslots, if_pos rfl]
        · obtain ⟨hgone, hslot⟩ := h.done j hj hjl
          refine ⟨by simp [hgone], fun b hb => ?_⟩
          rw [Dict.get?_insert] at hb
          split at hb
          · next ho =>
            obtain rfl := Option.some.inj hb
            rw [hslots]
            split
            · rfl
            · exact hslot a (ho ▸ howner)
          · exact hslot b hb

/-! ## A pass -/

/-- What is deferred is left; if that is all, nothing has changed. -/
theorem Progress.pass : ∀ {keys : List BufferKey} {left : Finset BufferKey} {s : BufferState ρ},
    Progress s₀ due left s → Readable s₀ due → keys.Nodup → (∀ k ∈ keys, k ∈ left) →
      ∃ deferred s', reclaimPass discard arrival keys s = .ok deferred s' ∧ deferred ⊆ keys.toFinset ∧
        Progress s₀ due (left \ (keys.toFinset \ deferred)) s' ∧
        (deferred = keys.toFinset → s' = s ∧ ∀ k ∈ keys, Blocked s k)
  | [], left, s, h, _, _, _ => ⟨∅, s, rfl, Finset.Subset.refl _, by simpa using h, fun _ => ⟨rfl, by simp⟩⟩
  | k :: keys, left, s, h, hr, hnodup, hleft => by
    obtain ⟨hnew, hnodup⟩ := List.nodup_cons.1 hnodup
    obtain ⟨hk, hleft⟩ := List.forall_mem_cons.1 hleft
    have hnew : k ∉ keys.toFinset := by simpa using hnew
    rw [reclaimPass]
    rcases h.key discard arrival hr hk with ⟨hrun, hblocked⟩ | ⟨s₁, hrun, h₁⟩
    · obtain ⟨deferred, s', hpass, hsub, hprogress, hstuck⟩ := h.pass hr hnodup hleft
      refine ⟨insert k deferred, s', ?_, ?_, ?_, fun hall => ?_⟩
      · rw [ok_bind hrun, ok_bind hpass]
        rfl
      · rw [List.toFinset_cons]
        exact Finset.insert_subset_insert k hsub
      · have hdiff : (k :: keys).toFinset \ insert k deferred = keys.toFinset \ deferred := by
          rw [List.toFinset_cons, Finset.insert_sdiff_insert, Finset.sdiff_insert_of_notMem hnew]
        rwa [hdiff]
      · have hdeferred : deferred = keys.toFinset := by
          rw [List.toFinset_cons] at hall
          rw [← Finset.erase_insert (fun hm => hnew (hsub hm)), hall, Finset.erase_insert hnew]
        obtain ⟨rfl, hrest⟩ := hstuck hdeferred
        exact ⟨rfl, List.forall_mem_cons.2 ⟨hblocked, hrest⟩⟩
    · have hrest : ∀ j ∈ keys, j ∈ left.erase k := fun j hj =>
        Finset.mem_erase.2 ⟨fun he => hnew (he ▸ List.mem_toFinset.2 hj), hleft j hj⟩
      obtain ⟨deferred, s', hpass, hsub, hprogress, -⟩ := h₁.pass hr hnodup hrest
      have hout : k ∉ deferred := fun hm => hnew (hsub hm)
      refine ⟨deferred, s', ?_, ?_, ?_, fun hall => ?_⟩
      · rw [ok_bind hrun, ok_bind hpass]
        rfl
      · rw [List.toFinset_cons]
        exact hsub.trans (Finset.subset_insert k _)
      · have hdiff : left \ ((k :: keys).toFinset \ deferred) = left.erase k \ (keys.toFinset \ deferred) := by
          rw [List.toFinset_cons, Finset.insert_sdiff_of_notMem _ hout, Finset.sdiff_insert, Finset.erase_sdiff_comm]
        rwa [hdiff]
      · exact absurd (hall ▸ by simp) hout

/-! ## The loop -/

/-- The passes end, with nothing left but keys below a live alias. -/
theorem Progress.loop : ∀ {fuel : ℕ} {left : Finset BufferKey} {s : BufferState ρ}, Progress s₀ due left s →
    Readable s₀ due → left.card < fuel → ∃ final s', reclaimLoop discard arrival fuel left s = .ok true s' ∧
      Progress s₀ due final s' ∧ ∀ k ∈ final, Blocked s' k
  | 0, _, _, _, _, hfuel => absurd hfuel (Nat.not_lt_zero _)
  | fuel + 1, left, s, h, hr, hfuel => by
    rw [reclaimLoop]
    by_cases hempty : left = ∅
    · rw [if_pos hempty]
      exact ⟨left, s, rfl, h, fun k hk => absurd (hempty ▸ hk) (Finset.notMem_empty k)⟩
    · have hmem : ∀ k ∈ left.sort (· ≤ ·), k ∈ left := fun k hk => (Finset.mem_sort _).1 hk
      obtain ⟨deferred, s', hpass, hsub, hprogress, hstuck⟩ := h.pass discard arrival hr (Finset.sort_nodup _ _) hmem
      rw [Finset.sort_toFinset] at hsub hprogress hstuck
      rw [Finset.sdiff_sdiff_eq_self hsub] at hprogress
      rw [if_neg hempty, ok_bind hpass]
      by_cases hall : deferred = left
      · obtain ⟨rfl, hblocked⟩ := hstuck hall
        rw [if_pos hall]
        exact ⟨left, s', rfl, h, fun k hk => hblocked k ((Finset.mem_sort _).2 hk)⟩
      · rw [if_neg hall]
        have hlt : deferred.card < left.card := Finset.card_lt_card (hsub.ssubset_of_ne hall)
        exact hprogress.loop hr (by omega)

end HeteroSim.Kernel
