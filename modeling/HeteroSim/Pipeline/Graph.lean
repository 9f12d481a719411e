/-
The graph a lowered pipeline has: every chunk waits for the consumers of the
chunks that do not fit beside it, for its own stages in order and for the
same stages of the chunk before.
-/
import HeteroSim.Bisect
import HeteroSim.Pipeline.Plan

namespace HeteroSim.Pipeline

/-! ## Task names -/

theorem taskId_injective {name : String} {i j k l : ℕ} (h : taskId name i k = taskId name j l) : i = j ∧ k = l := by
  have h := String.ofList_injective h
  simp only [List.append_assoc] at h
  have h := List.append_cancel_left (List.append_cancel_left h)
  -- the digits end where ".stage" begins
  have hdigits : ∀ n m, (zeroPad 4 n ++ (".stage".toList ++ zeroPad 2 m)).takeWhile Char.isDigit = zeroPad 4 n := fun n m =>
    takeWhile_append_of_all (zeroPad_digits 4 n) (by simp)
  have hij := hdigits i k
  rw [h, hdigits j l] at hij
  obtain rfl := zeroPad_injective hij
  exact ⟨rfl, zeroPad_injective (List.append_cancel_left (List.append_cancel_left h))⟩

/-! ## The chunks that fit -/

namespace Arguments

variable (a : Arguments)

/-- The bytes of the first chunks. -/
def total (n : ℕ) : ℕ := (a.chunkByteCounts.take n).sum

/-- The chunks from `first` to `index` fit into the buffer and the window. -/
def Fits (index first : ℕ) : Prop :=
  a.total (index + 1) - a.total first ≤ a.bufferCapacityBytes ∧ index + 1 - first ≤ a.maxInflightChunks

instance (index first : ℕ) : Decidable (a.Fits index first) := inferInstanceAs (Decidable (_ ∧ _))

theorem fits_next (index : ℕ) : a.Fits index (index + 1) := by simp [Fits]

/-- The first chunk that may be in flight beside this one. -/
def credits (index : ℕ) : ℕ := Nat.find ⟨_, a.fits_next index⟩

theorem fits_credits (index : ℕ) : a.Fits index (a.credits index) := Nat.find_spec ⟨_, a.fits_next index⟩

theorem not_fits {index first : ℕ} (h : first < a.credits index) : ¬a.Fits index first :=
  Nat.find_min ⟨_, a.fits_next index⟩ h

theorem total_succ (n : ℕ) : a.total (n + 1) = a.total n + a.chunkByteCounts[n]?.getD 0 := by
  rw [total, total, List.take_add_one, List.sum_append]
  cases a.chunkByteCounts[n]? <;> simp

theorem total_mono {m n : ℕ} (h : m ≤ n) : a.total m ≤ a.total n := by
  induction n, h using Nat.le_induction with
  | base => exact le_rfl
  | succ n _ ih =>
    rw [total_succ]
    omega

end Arguments

/-- The prefix moves past what does not fit, and no further. -/
theorem releasePrefix_spec (capacity whole : ℕ) : ∀ (l : List ℕ) (n : ℕ), n ≤ releasePrefix capacity whole l n ∧
    (∀ k c, n + k < releasePrefix capacity whole l n → l[k]? = some c → capacity < whole - c) ∧
    releasePrefix capacity whole l n ≤ n + l.length ∧
    ∀ c, l[releasePrefix capacity whole l n - n]? = some c → whole - c ≤ capacity
  | [], n => by simp [releasePrefix]
  | c :: rest, n => by
    unfold releasePrefix
    split
    · next hlt =>
      obtain ⟨hle, hpast, hlen, hstop⟩ := releasePrefix_spec capacity whole rest (n + 1)
      refine ⟨by omega, fun k d hk hd => ?_, by simp only [List.length_cons]; omega, fun d hd => hstop d ?_⟩
      · cases k with
        | zero =>
          obtain rfl : c = d := by simpa using hd
          exact hlt
        | succ k => exact hpast k d (by omega) (by simpa using hd)
      · have hsucc : releasePrefix capacity whole rest (n + 1) - n = releasePrefix capacity whole rest (n + 1) - (n + 1) + 1 := by
          omega
        rw [hsucc] at hd
        simpa using hd
    · next hle =>
      refine ⟨le_rfl, fun k d hk => by omega, by omega, fun d hd => ?_⟩
      obtain rfl : c = d := by simpa using hd
      omega

/-! ## What the loop lowers -/

namespace Arguments

variable (a : Arguments) (m : ℕ)

def stageIds (index : ℕ) : List String := (List.range (m + 1)).map (taskId a.name index)

/-- The dependencies of a stage, with `m` transfer stages before the consumer. -/
def dependencies (index stage : ℕ) : List String :=
  stageDependencies a.name index stage (if a.credits index = 0 then [] else [taskId a.name (a.credits index - 1) m])
    (if index = 0 then [] else a.stageIds m (index - 1))

def chunkGraph (index : ℕ) : List (String × List String) :=
  (List.range (m + 1)).map fun stage => (taskId a.name index stage, a.dependencies m index stage)

/-- The loop before chunk `index`. -/
structure Lowered (index : ℕ) (s : Lowering) : Prop where
  doneIds : s.doneIds = (List.range index).map fun j => taskId a.name j m
  previous : s.previousStageIds = if index = 0 then [] else a.stageIds m (index - 1)
  cumulative : s.cumulative = (List.range (index + 1)).map a.total
  released : s.byteRelease ≤ index ∧ ∀ b < s.byteRelease, a.bufferCapacityBytes < a.total index - a.total b
  tasks : s.tasks.map (fun t => (t.taskId, t.dependencies)) = (List.range index).flatMap (a.chunkGraph m)

variable {a m} {index : ℕ} {s : Lowering}

theorem Lowered.cumulative_next (h : a.Lowered m index s) {size : ℕ} (hsize : a.chunkByteCounts[index]? = some size) :
    s.cumulative ++ [s.cumulative.getLast?.getD 0 + size] = (List.range (index + 2)).map a.total := by
  have hlast : s.cumulative.getLast?.getD 0 = a.total index := by
    rw [h.cumulative, List.range_succ, List.map_append, List.getLast?_append]
    rfl
  have hnext : a.total (index + 1) = a.total index + size := by rw [total_succ, hsize, Option.getD_some]
  rw [hlast, h.cumulative, List.range_succ (n := index + 1), List.map_append, List.map_singleton, hnext]

/-- The moved prefix and the window give the chunk's credits. -/
theorem Lowered.credits (h : a.Lowered m index s) {released : ℕ}
    (hr : released = releasePrefix a.bufferCapacityBytes (a.total (index + 1))
      (((List.range (index + 2)).map a.total).drop s.byteRelease) s.byteRelease) :
    released ≤ index + 1 ∧ (∀ b < released, a.bufferCapacityBytes < a.total (index + 1) - a.total b) ∧
      max released (index + 1 - a.maxInflightChunks) = a.credits index := by
  obtain ⟨hle, hpast, hlen, hstop⟩ := releasePrefix_spec a.bufferCapacityBytes (a.total (index + 1))
    (((List.range (index + 2)).map a.total).drop s.byteRelease) s.byteRelease
  rw [← hr] at hle hpast hlen hstop
  obtain ⟨hb, hbefore⟩ := h.released
  have hat : ∀ k, s.byteRelease + k ≤ index + 1 →
      (((List.range (index + 2)).map a.total).drop s.byteRelease)[k]? = some (a.total (s.byteRelease + k)) := by
    intro k hk
    rw [List.getElem?_drop, List.getElem?_map, List.getElem?_range (by omega), Option.map_some]
  have hend : released ≤ index + 1 := by
    by_contra hgt
    have := hpast (index + 1 - s.byteRelease) _ (by omega) (hat _ (by omega))
    rw [Nat.add_sub_cancel' (by omega), Nat.sub_self] at this
    omega
  have hover : ∀ b < released, a.bufferCapacityBytes < a.total (index + 1) - a.total b := by
    intro b hlt
    by_cases hold : b < s.byteRelease
    · have := hbefore b hold
      have := a.total_mono (Nat.le_add_right index 1)
      omega
    · have := hpast (b - s.byteRelease) _ (by omega) (hat _ (by omega))
      rwa [Nat.add_sub_cancel' (by omega)] at this
  refine ⟨hend, hover, le_antisymm (max_le ?_ ?_) (Nat.find_min' _ ⟨?_, ?_⟩)⟩
  · by_contra hlt
    have := hover (a.credits index) (by omega)
    have := (a.fits_credits index).1
    omega
  · have := (a.fits_credits index).2
    omega
  · have hfit := hstop _ (hat (released - s.byteRelease) (by omega))
    rw [Nat.add_sub_cancel' hle] at hfit
    have := a.total_mono (le_max_left released (index + 1 - a.maxInflightChunks))
    omega
  · have := le_max_right released (index + 1 - a.maxInflightChunks)
    omega

theorem credits_le {size : ℕ} (hsize : a.chunkByteCounts[index]? = some size) (hfit : size ≤ a.bufferCapacityBytes)
    (hmax : 0 < a.maxInflightChunks) : a.credits index ≤ index := by
  refine Nat.find_min' _ ⟨?_, by omega⟩
  rw [total_succ, hsize, Option.getD_some]
  omega

/-- **One chunk of the loop.** -/
theorem Lowered.step (h : a.Lowered m index s) {phases : List TransferPhase} {size : ℕ} {consumer : TransferPhase}
    (hphases : phases.length = m) (hsize : a.chunkByteCounts[index]? = some size) (hfit : size ≤ a.bufferCapacityBytes)
    (hmax : 0 < a.maxInflightChunks) : a.Lowered m (index + 1) (a.lowerChunk s index phases size consumer) := by
  have hcum := h.cumulative_next hsize
  have hlast : ((List.range (index + 2)).map a.total).getLast?.getD 0 = a.total (index + 1) := by
    rw [List.range_succ, List.map_append, List.getLast?_append]
    rfl
  obtain ⟨hend, hover, hcredits⟩ := h.credits rfl
  have hle := credits_le hsize hfit hmax
  have hcredit : (if a.credits index = 0 then [] else (s.doneIds[a.credits index - 1]?).toList) =
      if a.credits index = 0 then [] else [taskId a.name (a.credits index - 1) m] := by
    split
    · rfl
    · rw [h.doneIds, List.getElem?_map, List.getElem?_range (by omega)]
      rfl
  have hlen : (phases ++ [consumer]).length = m + 1 := by rw [List.length_append, hphases]; rfl
  refine ⟨?_, ?_, ?_, ?_, ?_⟩
  · simp only [lowerChunk, h.doneIds, hphases, List.range_succ, List.map_append, List.map_singleton]
  · simp only [lowerChunk, hlen, Nat.add_eq_zero_iff, one_ne_zero, and_false, if_false, Nat.add_sub_cancel, stageIds]
  · simp only [lowerChunk, hcum]
  · simp only [lowerChunk, hcum, hlast]
    exact ⟨hend, hover⟩
  · simp only [lowerChunk, hcum, hlast, hcredits, hcredit, hlen, List.map_append, List.range_succ (n := index),
      List.flatMap_append, List.flatMap_singleton, h.tasks]
    refine congrArg _ (List.ext_getElem (by simp [chunkGraph, hphases]) fun k hk hk' => ?_)
    simp only [chunkGraph, List.getElem_map, List.getElem_zipWith, List.getElem_range, dependencies, h.previous]

/-- **The loop over the chunks.** -/
theorem Lowered.loop (hmax : 0 < a.maxInflightChunks) : ∀ {chunks : List (List TransferPhase)} {sizes : List ℕ}
    {consumers : List TransferPhase} {index : ℕ} {s : Lowering}, a.Lowered m index s → chunks.length = sizes.length →
      consumers.length = chunks.length → (∀ phases ∈ chunks, phases.length = m) → a.chunkByteCounts.drop index = sizes →
        (∀ size ∈ sizes, size ≤ a.bufferCapacityBytes) →
          a.Lowered m (index + chunks.length) (a.lowerFrom index chunks sizes consumers s)
  | [], [], [], _, _, h, _, _, _, _, _ => h
  | phases :: chunks, size :: sizes, consumer :: consumers, index, s, h, hs, hc, hm, hdrop, hfit => by
    have hsize : a.chunkByteCounts[index]? = some size := by
      have := @List.getElem?_drop _ a.chunkByteCounts index 0
      rw [hdrop] at this
      exact this.symm
    have hnext : a.chunkByteCounts.drop (index + 1) = sizes := by rw [← List.drop_drop, hdrop, List.drop_one, List.tail_cons]
    have hstep := @Lowered.step a m index s h phases size consumer (hm phases (by simp)) hsize (hfit size (by simp)) hmax
    have hrest := Lowered.loop hmax hstep (Nat.succ.inj hs) (Nat.succ.inj hc) (fun p hp => hm p (by simp [hp])) hnext
      fun n hn => hfit n (by simp [hn])
    rw [List.length_cons, ← Nat.add_assoc, Nat.add_right_comm]
    exact hrest

/-- What the checks leave. -/
structure Checked (a : Arguments) (m : ℕ) : Prop where
  inflight : 0 < a.maxInflightChunks
  stages : 0 < m
  sizes : a.chunks.length = a.chunkByteCounts.length
  consumers : a.consumerPhases.length = a.chunks.length
  phases : ∀ phases ∈ a.chunks, phases.length = m
  fit : ∀ size ∈ a.chunkByteCounts, size ≤ a.bufferCapacityBytes

theorem checked_of_validate (h : a.validate = .ok ()) : ∃ m, Checked a m := by
  simp only [validate, bind_ok, refuse_ok, forM_ok, exists_and_left, exists_const] at h
  obtain ⟨-, hmax, -, -, -, hsizes, -, hconsumers, hchunks, hstages⟩ := h
  have hsizes := not_not.1 hsizes
  have hmem : ∀ size ∈ a.chunkByteCounts, ∃ phases, (phases, size) ∈ a.chunks.zip a.chunkByteCounts := fun size hin => by
    obtain ⟨i, hi, rfl⟩ := List.mem_iff_getElem.1 hin
    exact ⟨a.chunks[i], List.mem_iff_getElem.2 ⟨i, by simp [hsizes, hi], by simp⟩⟩
  have hphases : ∀ phases ∈ a.chunks, phases ≠ [] := fun phases hin => by
    obtain ⟨i, hi, rfl⟩ := List.mem_iff_getElem.1 hin
    have hpair : (a.chunks[i], a.chunkByteCounts[i]) ∈ a.chunks.zip a.chunkByteCounts :=
      List.mem_iff_getElem.2 ⟨i, by simp [← hsizes, hi], by simp⟩
    exact (hchunks _ hpair).2.2
  have hfit : ∀ size ∈ a.chunkByteCounts, size ≤ a.bufferCapacityBytes := fun size hin => by
    obtain ⟨phases, hpair⟩ := hmem size hin
    exact Nat.not_lt.1 (hchunks _ hpair).2.1
  cases hc : a.chunks with
  | nil =>
    exact ⟨1, Nat.pos_of_ne_zero hmax, Nat.one_pos, hsizes, not_not.1 hconsumers, by simp [hc], hfit⟩
  | cons first rest =>
    refine ⟨first.length, Nat.pos_of_ne_zero hmax, List.length_pos_iff.2 (hphases first (by simp [hc])), hsizes,
      not_not.1 hconsumers, fun phases hin => ?_, hfit⟩
    rw [hc] at hin
    rcases List.mem_cons.1 hin with rfl | hin
    · rfl
    · have hsame : stageResources phases = stageResources first := by
        by_contra hne
        exact hstages ⟨first, by simp [hc], phases, by simp [hc, hin], hne⟩
      simpa [stageResources] using congrArg List.length hsame

theorem lower_spec (h : Checked a m) : a.Lowered m a.chunks.length a.lower := by
  have hstart : a.Lowered m 0 ⟨[], [], [], [], [0], 0, 0, 0, .empty⟩ := ⟨rfl, rfl, rfl, ⟨le_rfl, by simp⟩, rfl⟩
  have hall := hstart.loop h.inflight h.sizes h.consumers h.phases (List.drop_zero ..) h.fit
  rwa [Nat.zero_add] at hall

end Arguments

end HeteroSim.Pipeline
