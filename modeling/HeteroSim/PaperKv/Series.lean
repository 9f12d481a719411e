/-
The tokens cached by staggered decode slots, phase by phase. Each rank's sums
are kept by increments: a count of slots by starting age, one correction
where a slot's lifetime wraps and one at every chunk boundary. They are the
sums over the slots.
-/
import Mathlib

namespace HeteroSim.PaperKv

/-- `_integer` -/
def integer (name : String) (value minimum : ℕ) : Except String Unit :=
  if value < minimum then .error s!"{name} must be an integer >= {minimum}" else .ok ()

structure StaggeredKVTokenSeries where
  batchSize : ℕ
  ep : ℕ
  inputTokens : ℕ
  outputTokens : ℕ
  chunkSize : ℕ
  lifeSteps : ℕ
  requestsPerEp : List Int
  fullByEpPhase : List (List Int)
  chunkByEpPhase : List (List Int)
deriving DecidableEq

/-- The tables the loop over the slots fills. -/
structure Tables where
  histograms : List (List Int)
  initialFull : List Int
  initialChunk : List Int
  localCounts : List Int

/-- One slot counted. -/
def Tables.count (batchSize ep inputTokens chunkSize life : ℕ) (t : Tables) (slot : ℕ) : Tables :=
  let rank := slot % ep
  let age := slot * life / batchSize
  { histograms := t.histograms.modify rank (·.modify age (· + 1))
    initialFull := t.initialFull.modify rank (· + (inputTokens + age + 1))
    initialChunk := if chunkSize ≠ 0 then t.initialChunk.modify rank (· + ((inputTokens + age) % chunkSize + 1 : ℕ))
      else t.initialChunk
    localCounts := t.localCounts.modify rank (· + 1) }

/-- `range(start, stop, step)` -/
def rangeStep (start stop step : ℕ) : List ℕ := (List.range ((stop - start + step - 1) / step)).map (start + step * ·)

/-- What crosses a chunk boundary, and what a wrapping slot is corrected by. -/
structure Chunks where
  boundaries : List ℕ
  wrapCorrection : Int

def Chunks.of (inputTokens chunkSize life : ℕ) : Chunks :=
  if chunkSize ≠ 0 then
    let firstBoundary := (((chunkSize : Int) - 1 - inputTokens) % chunkSize).toNat
    { boundaries := rangeStep firstBoundary (life - 1) chunkSize
      wrapCorrection := (inputTokens % chunkSize + 1 : ℕ) - ((inputTokens + life - 1) % chunkSize + 1 : ℕ) - 1 }
  else ⟨[], 0⟩

/-- A rank's sums at the last phase, and the lists of them so far. -/
structure Sums where
  full : Int
  chunk : Int
  fullValues : List Int
  chunkValues : List Int

/-- One phase on. -/
def Sums.advance (histogram : List Int) (count : Int) (chunkSize life : ℕ) (c : Chunks) (s : Sums) (phase : ℕ) : Sums :=
  let wraps := (histogram[life - phase]?).getD 0
  let full := s.full + (count - life * wraps)
  let chunk := if chunkSize ≠ 0 then
      let crossings := (c.boundaries.map fun b : ℕ => (histogram[(((b : Int) - phase + 1) % life).toNat]?).getD 0).sum
      s.chunk + (count + c.wrapCorrection * wraps - chunkSize * crossings)
    else s.chunk
  ⟨full, chunk, s.fullValues ++ [full], s.chunkValues ++ [chunk]⟩

/-- The phases of one rank. -/
def rankSums (histogram : List Int) (full chunk count : Int) (chunkSize life : ℕ) (c : Chunks) : Sums :=
  ((List.range' 1 (life - 1)).foldl (Sums.advance histogram count chunkSize life c) ⟨full, chunk, [full], [chunk]⟩)

/-- `staggered_kv_token_series` -/
def staggeredKvTokenSeries (batchSize ep inputTokens outputTokens chunkSize : ℕ) : Except String StaggeredKVTokenSeries := do
  integer "batch_size" batchSize 1
  integer "ep" ep 1
  integer "input_tokens" inputTokens 1
  integer "output_tokens" outputTokens 2
  integer "chunk_size" chunkSize 0
  let life := outputTokens - 1
  let t := (List.range batchSize).foldl (Tables.count batchSize ep inputTokens chunkSize life)
    ⟨List.replicate ep (List.replicate life 0), List.replicate ep 0, List.replicate ep 0, List.replicate ep 0⟩
  let c := Chunks.of inputTokens chunkSize life
  let sums := (List.range ep).map fun rank =>
    rankSums ((t.histograms[rank]?).getD []) ((t.initialFull[rank]?).getD 0) ((t.initialChunk[rank]?).getD 0)
      ((t.localCounts[rank]?).getD 0) chunkSize life c
  return ⟨batchSize, ep, inputTokens, outputTokens, chunkSize, life, t.localCounts, sums.map Sums.fullValues,
    sums.map Sums.chunkValues⟩

/-! ## Sums over a rank's slots -/

/-- The slots of a rank among the first so many. -/
def slotsOf (slots ep rank : ℕ) : List ℕ := (List.range slots).filter (· % ep = rank)

def total (slots ep rank : ℕ) (f : ℕ → Int) : Int := ((slotsOf slots ep rank).map f).sum

/-- A slot's age at a phase. -/
def age (batchSize life slot phase : ℕ) : ℕ := (slot * life / batchSize + phase) % life

section

variable {slots ep rank : ℕ} {f g : ℕ → Int}

@[simp] theorem total_zero (ep rank : ℕ) (f : ℕ → Int) : total 0 ep rank f = 0 := rfl

theorem total_succ (slots ep rank : ℕ) (f : ℕ → Int) :
    total (slots + 1) ep rank f = total slots ep rank f + if slots % ep = rank then f slots else 0 := by
  unfold total slotsOf
  rw [List.range_succ, List.filter_append, List.map_append, List.sum_append]
  by_cases h : slots % ep = rank
  · simp [h]
  · simp [h]

theorem total_congr (h : ∀ s, s < slots → f s = g s) : total slots ep rank f = total slots ep rank g := by
  unfold total
  refine congrArg List.sum (List.map_congr_left fun s hs => h s ?_)
  exact List.mem_range.1 (List.mem_filter.1 hs).1

theorem total_add : total slots ep rank (fun s => f s + g s) = total slots ep rank f + total slots ep rank g :=
  List.sum_map_add

theorem total_mul (c : Int) : total slots ep rank (fun s => c * f s) = c * total slots ep rank f :=
  List.sum_map_mul_left ..

/-- Sums over the slots and over a list may be taken in either order. -/
theorem total_sum {α : Type} (h : α → ℕ → Int) : ∀ l : List α,
    (l.map fun b => total slots ep rank (h b)).sum = total slots ep rank fun s => (l.map fun b => h b s).sum
  | [] => by
    induction slots with
    | zero => rfl
    | succ n ih =>
      rw [total_succ, ← ih]
      simp
  | b :: l => by
    simp only [List.map_cons, List.sum_cons]
    rw [total_sum h l, total_add]

end

/-! ## The tables -/

theorem modify_map_range {α : Type} (n i : ℕ) (f : ℕ → α) (g : α → α) :
    ((List.range n).map f).modify i g = (List.range n).map fun j => if j = i then g (f j) else f j := by
  refine List.ext_getElem (by simp) fun j h1 h2 => ?_
  simp only [List.getElem_modify, List.getElem_map, List.getElem_range]
  split
  · next h => rw [if_pos h.symm]
  · next h => rw [if_neg (Ne.symm h)]

theorem replicate_eq_map_range {α : Type} (n : ℕ) (a : α) : List.replicate n a = (List.range n).map fun _ => a := by
  rw [List.map_const', List.length_range]

variable {batchSize ep inputTokens chunkSize life : ℕ}

/-- The tables after so many slots. -/
def Tables.after (batchSize ep inputTokens chunkSize life slots : ℕ) : Tables where
  histograms := (List.range ep).map fun r => (List.range life).map fun a =>
    total slots ep r fun s => if s * life / batchSize = a then 1 else 0
  initialFull := (List.range ep).map fun r => total slots ep r fun s => inputTokens + (s * life / batchSize : ℕ) + 1
  initialChunk := (List.range ep).map fun r =>
    if chunkSize ≠ 0 then total slots ep r fun s => ((inputTokens + s * life / batchSize) % chunkSize + 1 : ℕ) else 0
  localCounts := (List.range ep).map fun r => total slots ep r fun _ => 1

theorem total_modify (slots ep : ℕ) (f : ℕ → Int) :
    ((List.range ep).map fun r => total slots ep r f).modify (slots % ep) (· + f slots) =
      (List.range ep).map fun r => total (slots + 1) ep r f := by
  rw [modify_map_range]
  refine List.map_congr_left fun r _ => ?_
  rw [total_succ]
  by_cases h : r = slots % ep
  · rw [if_pos h, if_pos h.symm]
  · rw [if_neg h, if_neg (Ne.symm h), Int.add_zero]

theorem Tables.count_after (slots : ℕ) :
    (Tables.after batchSize ep inputTokens chunkSize life slots).count batchSize ep inputTokens chunkSize life slots =
      Tables.after batchSize ep inputTokens chunkSize life (slots + 1) := by
  have hhistograms : ((List.range ep).map fun r => (List.range life).map fun a =>
      total slots ep r fun s => if s * life / batchSize = a then 1 else 0).modify (slots % ep)
        (·.modify (slots * life / batchSize) (· + 1)) =
      (List.range ep).map fun r => (List.range life).map fun a =>
        total (slots + 1) ep r fun s => if s * life / batchSize = a then 1 else 0 := by
    rw [modify_map_range]
    refine List.map_congr_left fun r _ => ?_
    by_cases h : r = slots % ep
    · rw [if_pos h, modify_map_range]
      refine List.map_congr_left fun a _ => ?_
      rw [total_succ, if_pos h.symm]
      by_cases ha : a = slots * life / batchSize
      · rw [if_pos ha, if_pos ha.symm]
      · rw [if_neg ha, if_neg (Ne.symm ha), Int.add_zero]
    · rw [if_neg h]
      refine List.map_congr_left fun a _ => ?_
      rw [total_succ, if_neg (Ne.symm h), Int.add_zero]
  unfold Tables.count Tables.after
  simp only [hhistograms, ← total_modify slots ep fun _ => 1,
    ← total_modify slots ep fun s => (inputTokens : Int) + (s * life / batchSize : ℕ) + 1]
  congr 1
  by_cases h : chunkSize = 0
  · simp only [h, ne_eq, not_true, if_false]
  · simp only [h, ne_eq, not_false_eq_true, if_true]
    exact total_modify slots ep fun s => ((inputTokens + s * life / batchSize) % chunkSize + 1 : ℕ)

theorem tables_eq : ∀ slots : ℕ, (List.range slots).foldl (Tables.count batchSize ep inputTokens chunkSize life)
    ⟨List.replicate ep (List.replicate life 0), List.replicate ep 0, List.replicate ep 0, List.replicate ep 0⟩ =
      Tables.after batchSize ep inputTokens chunkSize life slots
  | 0 => by
    unfold Tables.after
    simp only [List.range_zero, List.foldl_nil, total_zero, ite_self, ← replicate_eq_map_range]
  | slots + 1 => by
    rw [List.range_succ, List.foldl_append, tables_eq slots]
    exact Tables.count_after slots

/-! ## One phase -/

/-- The ages that fill a chunk, the last age of a lifetime apart. -/
theorem mem_rangeStep {start stop step b : ℕ} (hstep : 0 < step) :
    b ∈ rangeStep start stop step ↔ (start ≤ b ∧ b < stop) ∧ (b - start) % step = 0 := by
  unfold rangeStep
  simp only [List.mem_map, List.mem_range, Nat.lt_div_iff_mul_lt hstep]
  constructor
  · rintro ⟨k, hk, rfl⟩
    rw [Nat.add_sub_cancel_left, Nat.mul_mod_right, mul_comm step k]
    omega
  · rintro ⟨⟨hlo, hhi⟩, hmod⟩
    obtain ⟨k, hk⟩ := Nat.dvd_of_mod_eq_zero hmod
    refine ⟨k, ?_, by omega⟩
    rw [mul_comm] at hk
    omega

theorem rangeStep_nodup {start stop step : ℕ} (hstep : 0 < step) : (rangeStep start stop step).Nodup :=
  List.nodup_range.map fun _ _ h => Nat.eq_of_mul_eq_mul_left hstep (Nat.add_left_cancel h)

theorem mem_boundaries {b : ℕ} (hchunk : 0 < chunkSize) : b ∈ (Chunks.of inputTokens chunkSize life).boundaries ↔
    b < life - 1 ∧ (inputTokens + b) % chunkSize = chunkSize - 1 := by
  have hof : (Chunks.of inputTokens chunkSize life).boundaries =
      rangeStep (((chunkSize : Int) - 1 - inputTokens) % chunkSize).toNat (life - 1) chunkSize := by
    rw [Chunks.of, if_pos hchunk.ne']
  have hnonneg := Int.emod_nonneg ((chunkSize : Int) - 1 - inputTokens) (by omega : (chunkSize : Int) ≠ 0)
  have hlt := Int.emod_lt_of_pos ((chunkSize : Int) - 1 - inputTokens) (by omega : (0 : Int) < chunkSize)
  have hlast : ((inputTokens : Int) + ((chunkSize : Int) - 1 - inputTokens) % chunkSize) % chunkSize = chunkSize - 1 := by
    rw [Int.add_emod_emod, show (inputTokens : Int) + (chunkSize - 1 - inputTokens) = chunkSize - 1 by omega]
    exact Int.emod_eq_of_lt (by omega) (by omega)
  rw [hof, mem_rangeStep hchunk]
  generalize ((chunkSize : Int) - 1 - inputTokens) % chunkSize = first at *
  obtain ⟨n, rfl⟩ := Int.eq_ofNat_of_zero_le hnonneg
  rw [Int.toNat_natCast]
  have hn : (inputTokens + n) % chunkSize = chunkSize - 1 := by
    have hcast : (((inputTokens + n) % chunkSize : ℕ) : Int) = chunkSize - 1 := by
      push_cast
      exact hlast
    omega
  have hfirst : n ≤ b ∧ (b - n) % chunkSize = 0 ↔ b % chunkSize = n := by
    constructor
    · intro h
      obtain ⟨k, hk⟩ := Nat.dvd_of_mod_eq_zero h.2
      rw [show b = n + chunkSize * k by omega, Nat.add_mul_mod_self_left, Nat.mod_eq_of_lt (by omega)]
    · intro h
      have hdiv := Nat.mod_add_div b chunkSize
      rw [h] at hdiv
      exact ⟨by omega, by rw [← hdiv, Nat.add_sub_cancel_left, Nat.mul_mod_right]⟩
  have hshift : b % chunkSize = n ↔ (inputTokens + b) % chunkSize = chunkSize - 1 := by
    rw [← hn]
    conv_lhs => rw [← Nat.mod_eq_of_lt (show n < chunkSize by omega)]
    exact ⟨fun h => Nat.ModEq.add_left inputTokens h, fun h => Nat.ModEq.add_left_cancel' inputTokens h⟩
  tauto

theorem age_lt {s phase : ℕ} (hlife : 0 < life) : age batchSize life s phase < life := Nat.mod_lt _ hlife

/-- A slot's age a phase later. -/
theorem age_succ (s phase : ℕ) : age batchSize life s (phase + 1) = (age batchSize life s phase + 1) % life := by
  unfold age
  rw [Nat.mod_add_mod, Nat.add_assoc]

theorem start_lt {s : ℕ} (hs : s < batchSize) (hlife : 0 < life) : s * life / batchSize < life :=
  Nat.div_lt_of_lt_mul ((Nat.mul_lt_mul_right hlife).2 hs)

/-- The slots at the last age of their lifetime are those of one starting age. -/
theorem age_last {s phase : ℕ} (hs : s < batchSize) (hphase : phase + 1 < life) :
    age batchSize life s phase = life - 1 ↔ s * life / batchSize = life - (phase + 1) := by
  have hlt := start_lt hs (by omega : 0 < life)
  unfold age
  generalize s * life / batchSize = a at *
  obtain h | h := Nat.lt_or_ge (a + phase) life
  · rw [Nat.mod_eq_of_lt h]
    omega
  · rw [Nat.mod_eq_sub_mod h, Nat.mod_eq_of_lt (by omega)]
    omega

/-- The slots at an age are those of one starting age. -/
theorem age_eq_iff {s phase b : ℕ} (hs : s < batchSize) (hb : b < life) :
    s * life / batchSize = (((b : Int) - phase) % life).toNat ↔ age batchSize life s phase = b := by
  have hlife : 0 < life := by omega
  have hlt := start_lt hs hlife
  unfold age
  generalize s * life / batchSize = a at *
  have hnonneg := Int.emod_nonneg ((b : Int) - phase) (by omega : (life : Int) ≠ 0)
  have hmod : (a : Int) = ((b : Int) - phase) % life ↔ ((a + phase) % life : ℕ) = b := by
    constructor
    · intro h
      have hsum : ((a : Int) + phase) % life = b % life := by rw [h, Int.emod_add_emod, Int.sub_add_cancel]
      rw [Int.emod_eq_of_lt (a := b) (by omega) (by omega)] at hsum
      exact_mod_cast hsum
    · intro h
      have hback : ((b : Int) - phase) % life = a % life := by
        rw [← h]
        push_cast
        rw [Int.emod_sub_emod, Int.add_sub_cancel]
      rw [hback, Int.emod_eq_of_lt (by omega) (by omega)]
  omega

/-! ## The phases of a rank -/

variable {rank : ℕ}

/-- A rank's full and chunked tokens at a phase. -/
def fullAt (batchSize ep inputTokens life rank phase : ℕ) : Int :=
  total batchSize ep rank fun s => ((inputTokens + age batchSize life s phase + 1 : ℕ) : Int)

def chunkAt (batchSize ep inputTokens chunkSize life rank phase : ℕ) : Int :=
  if chunkSize ≠ 0 then
    total batchSize ep rank fun s => (((inputTokens + age batchSize life s phase) % chunkSize + 1 : ℕ) : Int)
  else 0

/-- How many of a rank's slots start at an age. -/
def startingAt (batchSize ep life rank a : ℕ) : Int :=
  total batchSize ep rank fun s => if s * life / batchSize = a then 1 else 0

/-- **A phase adds a token to every slot, and takes a lifetime from those that wrap.** -/
theorem fullAt_succ {phase : ℕ} (hphase : phase + 1 < life) : fullAt batchSize ep inputTokens life rank (phase + 1) =
    fullAt batchSize ep inputTokens life rank phase +
      (total batchSize ep rank (fun _ => 1) - life * startingAt batchSize ep life rank (life - (phase + 1))) := by
  have hpoint : fullAt batchSize ep inputTokens life rank (phase + 1) = total batchSize ep rank fun s =>
      ((inputTokens + age batchSize life s phase + 1 : ℕ) : Int) +
        (1 + -(life : Int) * if s * life / batchSize = life - (phase + 1) then 1 else 0) := by
    refine total_congr fun s hs => ?_
    have hlt : age batchSize life s phase < life := age_lt (by omega)
    have hlast := age_last hs hphase
    rw [age_succ]
    by_cases h : age batchSize life s phase = life - 1
    · rw [if_pos (hlast.1 h), h, Nat.sub_add_cancel (by omega), Nat.mod_self]
      omega
    · rw [if_neg fun h' => h (hlast.2 h'), Nat.mod_eq_of_lt (by omega)]
      omega
  rw [hpoint, total_add, total_add, total_mul, Int.neg_mul]
  unfold fullAt startingAt
  omega

/-- What a slot's place in its chunk is a phase later. -/
theorem chunk_succ (hchunk : 0 < chunkSize) {a : ℕ} (ha : a < life) : (((inputTokens + (a + 1) % life) % chunkSize + 1 : ℕ) : Int) =
    ((inputTokens + a) % chunkSize + 1 : ℕ) + (1 + (Chunks.of inputTokens chunkSize life).wrapCorrection * (if a = life - 1 then 1 else 0) -
      chunkSize * (if a ∈ (Chunks.of inputTokens chunkSize life).boundaries then 1 else 0)) := by
  have hcorrection : (Chunks.of inputTokens chunkSize life).wrapCorrection =
      (inputTokens % chunkSize + 1 : ℕ) - ((inputTokens + life - 1) % chunkSize + 1 : ℕ) - 1 := by
    rw [Chunks.of, if_pos hchunk.ne']
  have hmod := Nat.mod_lt (inputTokens + a) hchunk
  have hnext := Nat.add_mod (inputTokens + a) 1 chunkSize
  have hmem : a ∈ (Chunks.of inputTokens chunkSize life).boundaries ↔ _ := mem_boundaries hchunk
  by_cases h : a = life - 1
  · rw [if_pos h, if_neg fun hb => absurd (hmem.1 hb).1 (by omega), h, Nat.sub_add_cancel (by omega), Nat.mod_self, hcorrection,
      show inputTokens + (life - 1) = inputTokens + life - 1 by omega]
    simp only [Nat.add_zero]
    omega
  · rw [if_neg h, Nat.mod_eq_of_lt (by omega : a + 1 < life), ← Nat.add_assoc]
    by_cases hfull : (inputTokens + a) % chunkSize = chunkSize - 1
    · rw [if_pos (hmem.2 ⟨by omega, hfull⟩)]
      have hwrap : (inputTokens + a + 1) % chunkSize = 0 := by
        rw [← Nat.mod_add_mod, hfull, Nat.sub_add_cancel hchunk, Nat.mod_self]
      omega
    · rw [if_neg fun hb => hfull (hmem.1 hb).2, ← Nat.mod_add_mod, Nat.mod_eq_of_lt (by omega : (inputTokens + a) % chunkSize + 1 < chunkSize)]
      omega

theorem sum_indicator {l : List ℕ} (h : l.Nodup) (a : ℕ) :
    (l.map fun b => if a = b then (1 : Int) else 0).sum = if a ∈ l then 1 else 0 := by
  induction l with
  | nil => rfl
  | cons b l ih =>
    obtain ⟨hb, hl⟩ := List.nodup_cons.1 h
    rw [List.map_cons, List.sum_cons, ih hl]
    by_cases hab : a = b
    · rw [if_pos hab, if_neg (hab ▸ hb), if_pos (List.mem_cons.2 (.inl hab))]
      rfl
    · simp [hab]

theorem boundaries_nodup (inputTokens chunkSize life : ℕ) : (Chunks.of inputTokens chunkSize life).boundaries.Nodup := by
  unfold Chunks.of
  split
  · next h => exact rangeStep_nodup (Nat.pos_of_ne_zero h)
  · exact .nil

/-- The slots that fill a chunk at a phase, counted boundary by boundary. -/
theorem crossings_eq {phase : ℕ} (hchunk : 0 < chunkSize) :
    ((Chunks.of inputTokens chunkSize life).boundaries.map fun b : ℕ =>
      startingAt batchSize ep life rank (((b : Int) - phase) % life).toNat).sum =
      total batchSize ep rank fun s => if age batchSize life s phase ∈ (Chunks.of inputTokens chunkSize life).boundaries then 1 else 0 := by
  refine (total_sum _ _).trans (total_congr fun s hs => ?_)
  rw [← sum_indicator (boundaries_nodup _ _ _)]
  refine congrArg List.sum (List.map_congr_left fun b hb => ?_)
  have hlt := ((mem_boundaries hchunk).1 hb).1
  have hiff : _ ↔ age batchSize life s phase = b := age_eq_iff hs (by omega)
  by_cases h : age batchSize life s phase = b
  · rw [if_pos (hiff.2 h), if_pos h]
  · rw [if_neg fun h' => h (hiff.1 h'), if_neg h]

/-- **A phase adds a token to every chunk, less a chunk where one was full and the correction of those that wrap.** -/
theorem chunkAt_succ {phase : ℕ} (hchunk : 0 < chunkSize) (hphase : phase + 1 < life) :
    chunkAt batchSize ep inputTokens chunkSize life rank (phase + 1) = chunkAt batchSize ep inputTokens chunkSize life rank phase +
      (total batchSize ep rank (fun _ => 1) +
        (Chunks.of inputTokens chunkSize life).wrapCorrection * startingAt batchSize ep life rank (life - (phase + 1)) -
        chunkSize * ((Chunks.of inputTokens chunkSize life).boundaries.map fun b : ℕ =>
          startingAt batchSize ep life rank (((b : Int) - phase) % life).toNat).sum) := by
  rw [crossings_eq hchunk, chunkAt, chunkAt, if_pos hchunk.ne', if_pos hchunk.ne']
  generalize hc : Chunks.of inputTokens chunkSize life = c
  have hpoint : (total batchSize ep rank fun s => (((inputTokens + age batchSize life s (phase + 1)) % chunkSize + 1 : ℕ) : Int)) =
      total batchSize ep rank fun s => (((inputTokens + age batchSize life s phase) % chunkSize + 1 : ℕ) : Int) +
        (1 + (c.wrapCorrection * (if s * life / batchSize = life - (phase + 1) then 1 else 0) +
          -(chunkSize : Int) * if age batchSize life s phase ∈ c.boundaries then 1 else 0)) := by
    refine total_congr fun s hs => ?_
    have hlast := age_last hs hphase
    rw [age_succ, chunk_succ hchunk (age_lt (by omega)), hc]
    have hsame : (if age batchSize life s phase = life - 1 then (1 : Int) else 0) =
        if s * life / batchSize = life - (phase + 1) then 1 else 0 := by simp only [hlast]
    rw [hsame, Int.neg_mul]
    omega
  rw [hpoint, total_add, total_add, total_add, total_mul, total_mul, Int.neg_mul]
  unfold startingAt
  omega

theorem getD_map_range {n i : ℕ} {α : Type} (f : ℕ → α) (d : α) (h : i < n) : (((List.range n).map f)[i]?).getD d = f i := by
  simp [h]

/-- The rank's histogram. -/
def histogramOf (batchSize ep life rank : ℕ) : List Int := (List.range life).map (startingAt batchSize ep life rank)

theorem Sums.advance_at {phase : ℕ} (hphase : phase + 1 < life) (fulls chunks : List Int) :
    Sums.advance (histogramOf batchSize ep life rank) (total batchSize ep rank fun _ => 1) chunkSize life
      (Chunks.of inputTokens chunkSize life)
      ⟨fullAt batchSize ep inputTokens life rank phase, chunkAt batchSize ep inputTokens chunkSize life rank phase, fulls, chunks⟩
      (phase + 1) =
      ⟨fullAt batchSize ep inputTokens life rank (phase + 1), chunkAt batchSize ep inputTokens chunkSize life rank (phase + 1),
        fulls ++ [fullAt batchSize ep inputTokens life rank (phase + 1)],
        chunks ++ [chunkAt batchSize ep inputTokens chunkSize life rank (phase + 1)]⟩ := by
  have hwraps : ((histogramOf batchSize ep life rank)[life - (phase + 1)]?).getD 0 =
      startingAt batchSize ep life rank (life - (phase + 1)) := getD_map_range _ _ (by omega)
  have hcrossings : ((Chunks.of inputTokens chunkSize life).boundaries.map fun b : ℕ =>
      ((histogramOf batchSize ep life rank)[(((b : Int) - (phase + 1 : ℕ) + 1) % life).toNat]?).getD 0) =
      (Chunks.of inputTokens chunkSize life).boundaries.map fun b : ℕ =>
        startingAt batchSize ep life rank (((b : Int) - phase) % life).toNat := by
    refine List.map_congr_left fun b _ => ?_
    have hnonneg := Int.emod_nonneg ((b : Int) - phase) (by omega : (life : Int) ≠ 0)
    have hlt := Int.emod_lt_of_pos ((b : Int) - phase) (by omega : (0 : Int) < life)
    rw [show (b : Int) - (phase + 1 : ℕ) + 1 = b - phase by push_cast; omega]
    exact getD_map_range _ _ (by omega)
  have hchunk : (if chunkSize ≠ 0 then
      chunkAt batchSize ep inputTokens chunkSize life rank phase + (total batchSize ep rank (fun _ => 1) +
        (Chunks.of inputTokens chunkSize life).wrapCorrection * startingAt batchSize ep life rank (life - (phase + 1)) -
        chunkSize * ((Chunks.of inputTokens chunkSize life).boundaries.map fun b : ℕ =>
          startingAt batchSize ep life rank (((b : Int) - phase) % life).toNat).sum)
      else chunkAt batchSize ep inputTokens chunkSize life rank phase) =
      chunkAt batchSize ep inputTokens chunkSize life rank (phase + 1) := by
    split
    · next h => exact (chunkAt_succ (Nat.pos_of_ne_zero h) hphase).symm
    · next h =>
      unfold chunkAt
      rw [if_neg h, if_neg h]
  unfold Sums.advance
  simp only [hwraps, hcrossings, hchunk, ← fullAt_succ hphase]

/-- **A rank's lists after any number of phases are the sums over its slots.** -/
theorem advance_run : ∀ {phases : ℕ}, phases < life →
    (List.range' 1 phases).foldl (Sums.advance (histogramOf batchSize ep life rank) (total batchSize ep rank fun _ => 1) chunkSize life
      (Chunks.of inputTokens chunkSize life))
      ⟨fullAt batchSize ep inputTokens life rank 0, chunkAt batchSize ep inputTokens chunkSize life rank 0,
        [fullAt batchSize ep inputTokens life rank 0], [chunkAt batchSize ep inputTokens chunkSize life rank 0]⟩ =
      ⟨fullAt batchSize ep inputTokens life rank phases, chunkAt batchSize ep inputTokens chunkSize life rank phases,
        (List.range (phases + 1)).map (fullAt batchSize ep inputTokens life rank),
        (List.range (phases + 1)).map (chunkAt batchSize ep inputTokens chunkSize life rank)⟩
  | 0, _ => rfl
  | phases + 1, h => by
    rw [List.range'_1_concat, List.foldl_append, advance_run (by omega), List.foldl_cons, List.foldl_nil, Nat.add_comm 1 phases,
      Sums.advance_at h, List.range_succ (n := phases + 1), List.map_append, List.map_append]
    rfl

theorem fullAt_zero (hlife : 0 < life) : fullAt batchSize ep inputTokens life rank 0 =
    total batchSize ep rank fun s => inputTokens + (s * life / batchSize : ℕ) + 1 := by
  refine total_congr fun s hs => ?_
  rw [age, Nat.add_zero (s * life / batchSize), Nat.mod_eq_of_lt (start_lt hs hlife)]
  push_cast
  rfl

theorem chunkAt_zero (hlife : 0 < life) : chunkAt batchSize ep inputTokens chunkSize life rank 0 =
    if chunkSize ≠ 0 then total batchSize ep rank fun s => ((inputTokens + s * life / batchSize) % chunkSize + 1 : ℕ) else 0 := by
  unfold chunkAt
  split
  · refine total_congr fun s hs => ?_
    rw [age, Nat.add_zero (s * life / batchSize), Nat.mod_eq_of_lt (start_lt hs hlife)]
  · rfl

/-- The lists `staggered_kv_token_series` gives a rank. -/
theorem rankSums_eq (hlife : 0 < life) (hrank : rank < ep) :
    let t := Tables.after batchSize ep inputTokens chunkSize life batchSize
    let sums := rankSums ((t.histograms[rank]?).getD []) ((t.initialFull[rank]?).getD 0) ((t.initialChunk[rank]?).getD 0)
      ((t.localCounts[rank]?).getD 0) chunkSize life (Chunks.of inputTokens chunkSize life)
    sums.fullValues = (List.range life).map (fullAt batchSize ep inputTokens life rank) ∧
      sums.chunkValues = (List.range life).map (chunkAt batchSize ep inputTokens chunkSize life rank) := by
  have hlast : life - 1 < life := by omega
  unfold Tables.after rankSums
  simp only [getD_map_range _ _ hrank, ← fullAt_zero hlife, ← chunkAt_zero hlife]
  have hrun := @advance_run batchSize ep inputTokens chunkSize life rank _ hlast
  rw [Nat.sub_add_cancel hlife] at hrun
  unfold histogramOf startingAt at hrun
  rw [hrun]
  exact ⟨rfl, rfl⟩

/-- **The series are, rank by rank and phase by phase, the tokens its slots hold.** -/
theorem staggered_series_exact (batchSize ep inputTokens outputTokens chunkSize : ℕ) (hbatch : 1 ≤ batchSize) (hep : 1 ≤ ep)
    (hinput : 1 ≤ inputTokens) (houtput : 2 ≤ outputTokens) :
    ∃ series, staggeredKvTokenSeries batchSize ep inputTokens outputTokens chunkSize = .ok series ∧
      (series.fullByEpPhase = (List.range ep).map fun rank => (List.range (outputTokens - 1)).map fun phase =>
        (((List.range batchSize).filter (· % ep = rank)).map fun s =>
          ((inputTokens + (s * (outputTokens - 1) / batchSize + phase) % (outputTokens - 1) + 1 : ℕ) : Int)).sum) ∧
      series.chunkByEpPhase = (List.range ep).map fun rank => (List.range (outputTokens - 1)).map fun phase =>
        if chunkSize ≠ 0 then
          (((List.range batchSize).filter (· % ep = rank)).map fun s =>
            (((inputTokens + (s * (outputTokens - 1) / batchSize + phase) % (outputTokens - 1)) % chunkSize + 1 : ℕ) : Int)).sum
        else 0 := by
  have hlife : 0 < outputTokens - 1 := by omega
  have hinteger {name : String} {value minimum : ℕ} (h : minimum ≤ value) : integer name value minimum = .ok () :=
    if_neg (not_lt.2 h)
  have hlists : ∀ rank ∈ List.range ep, _ := fun rank hrank =>
    @rankSums_eq batchSize ep inputTokens chunkSize _ rank hlife (List.mem_range.1 hrank)
  rw [staggeredKvTokenSeries, hinteger hbatch, hinteger hep, hinteger hinput, hinteger houtput, hinteger (Nat.zero_le _)]
  simp only [tables_eq]
  refine ⟨_, rfl, ?_, ?_⟩
  · exact List.map_map.trans (List.map_congr_left fun rank hrank => (hlists rank hrank).1)
  · exact List.map_map.trans (List.map_congr_left fun rank hrank => (hlists rank hrank).2)

theorem staggered_series_uneven : ∃ series, staggeredKvTokenSeries 7 3 5 9 3 = .ok series ∧
    series.fullByEpPhase = [[27, 30, 25, 28, 31, 26, 29, 32], [17, 19, 21, 23, 17, 19, 21, 15], [19, 21, 23, 17, 19, 21, 15, 17]] ∧
    series.chunkByEpPhase = [[9, 3, 7, 7, 4, 8, 5, 5], [2, 4, 6, 2, 5, 4, 3, 6], [4, 6, 2, 5, 4, 3, 6, 2]] := by
  obtain ⟨series, h, hfull, hchunk⟩ := staggered_series_exact 7 3 5 9 3 (by decide) (by decide) (by decide) (by decide)
  exact ⟨series, h, hfull.trans (by decide), hchunk.trans (by decide)⟩

end HeteroSim.PaperKv
