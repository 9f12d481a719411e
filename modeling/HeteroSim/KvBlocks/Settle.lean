/-
The free list a long stationary refill run leaves (`_settled_free_list`):
every slot cycles through the ages of a request, and what the seeds and the
prepared imports will take stands first, in tables of their own lengths.
-/
import HeteroSim.FreeList

namespace HeteroSim.KvBlocks

/-- A stationary refill: one prompt and one output length, a pool of prepared imports. -/
structure Refill where
  prompt : ℕ
  output : ℕ
  pool : ℕ
  tokensPerBlock : ℕ
  prompt_pos : 0 < prompt
  output_pos : 0 < output
  tokens_pos : 0 < tokensPerBlock

namespace Refill

variable (c : Refill) (limit : Option ℕ)

def blocks (tokens : ℕ) : ℕ :=
  let count := (tokens + c.tokensPerBlock - 1) / c.tokensPerBlock
  match limit with
  | none => count
  | some limit => min count limit

def history : ℕ := c.blocks limit (c.prompt - 1)

/-- The blocks age `age` needs more than the age before. -/
def need (age : ℕ) : ℕ := c.blocks limit (c.prompt + age) - c.blocks limit (c.prompt + age - 1)

def growing : List ℕ := (List.range c.output).reverse.filter fun age => c.need limit age ≠ 0

/-- An age within the cycle. -/
def phase (age : ℤ) : ℕ := (age % c.output).toNat

/-- The slots whose seeds have this phase. -/
def byPhase (ages : List ℤ) (phase : ℤ) : List ℕ :=
  (List.range ages.length).filter fun slot => c.phase (ages.getD slot 0) = c.phase phase

/-- What a slot of this age holds before its step. -/
def holds (age : ℤ) : ℕ := c.blocks limit (c.prompt + c.phase age - 1)

end Refill

structure Cycle where
  free : FreeList ℕ
  tables : List (List ℕ)
  prepared : List (List ℕ)

/-- Consecutive runs of these lengths from the head. -/
def takes : List ℕ → FreeList ℕ → Option (List (List ℕ) × FreeList ℕ)
  | [], free => some ([], free)
  | count :: counts, free => do
    let first ← free.take count
    let rest ← takes counts first.2
    some (first.1 :: rest.1, rest.2)

namespace Cycle

variable (c : Refill) (limit : Option ℕ) (ages : List ℤ)

def start (free : List ℕ) : Option Cycle := do
  let wanted := (ages.map (c.holds limit)).sum + c.pool * c.history limit
  if free.length < wanted then none
  else
    let tables ← takes (ages.map (c.holds limit)) (.ofList free)
    let prepared ← takes (List.replicate c.pool (c.history limit)) tables.2
    some ⟨prepared.2, tables.1, prepared.1⟩

def grow (count : ℕ) (s : Cycle) (slot : ℕ) : Option Cycle := do
  let next ← s.free.take count
  some { s with free := next.2, tables := s.tables.modify slot (· ++ next.1) }

/-- A finished slot returns its blocks; the oldest prepared import, if any are prepared, lands in it. -/
def finish (s : Cycle) (slot : ℕ) : Option Cycle := do
  let next ← (s.free.push (s.tables.getD slot [])).take (c.history limit)
  match s.prepared with
  | [] => some { s with free := next.2, tables := s.tables.set slot next.1 }
  | oldest :: prepared => some ⟨next.2, s.tables.set slot oldest, prepared ++ [next.1]⟩

def compacted (s : Cycle) : Cycle :=
  if 65536 < s.free.head then { s with free := s.free.compact } else s

def step (s : Cycle) (step : ℕ) : Option Cycle := do
  let grown ← (c.growing limit).foldlM
    (fun s (age : ℕ) => (c.byPhase ages ((age : ℤ) - step)).foldlM (grow (c.need limit age)) s) s
  let finished ← (c.byPhase ages ((c.output : ℤ) - 1 - step)).foldlM (finish c limit) grown
  some finished.compacted

end Cycle

/-- `KV_BLOCK_SETTLE_CYCLES` -/
def settleCycles : ℕ := 512

def settledFreeList (c : Refill) (limit : Option ℕ) (ages : List ℤ) (free : List ℕ) : Option (List ℕ) := do
  let start ← Cycle.start c limit ages free
  let settled ← (List.range (settleCycles * c.output)).foldlM (Cycle.step c limit ages) start
  some (settled.tables.flatten ++ settled.prepared.flatten ++ settled.free.live)

/-! ## Tables -/

theorem bind_some {α β : Type} {x : Option α} {f : α → Option β} {b : β} :
    (x >>= f) = some b ↔ ∃ a, x = some a ∧ f a = some b := Option.bind_eq_some_iff

theorem flatten_modify_perm (l : List ℕ) : ∀ {tables : List (List ℕ)} {i : ℕ}, i < tables.length →
    (tables.modify i (· ++ l)).flatten.Perm (tables.flatten ++ l)
  | table :: tables, 0, _ => by
    simp only [List.modify_zero_cons, List.flatten_cons, List.append_assoc]
    exact List.perm_append_comm.append_left table
  | table :: tables, i + 1, h => by
    simp only [List.modify_succ_cons, List.flatten_cons, List.append_assoc]
    exact (flatten_modify_perm l (by simpa using h)).append_left table

theorem flatten_set_perm (l : List ℕ) : ∀ {tables : List (List ℕ)} {i : ℕ}, i < tables.length →
    ((tables.set i l).flatten ++ tables.getD i []).Perm (tables.flatten ++ l)
  | table :: tables, 0, _ => by
    simp only [List.set_cons_zero, List.flatten_cons, List.getD_cons_zero]
    refine (List.perm_append_comm.append_right table).trans ?_
    refine List.perm_append_comm.trans ?_
    rw [List.append_assoc]
  | table :: tables, i + 1, h => by
    simp only [List.set_cons_succ, List.flatten_cons, List.getD_cons_succ, List.append_assoc]
    exact (flatten_set_perm l (by simpa using h)).append_left table

theorem takes_some : ∀ {counts : List ℕ} {free rest : FreeList ℕ} {tables : List (List ℕ)},
    takes counts free = some (tables, rest) → free.live = tables.flatten ++ rest.live ∧ tables.map List.length = counts
  | [], free, rest, tables, h => by
    obtain ⟨rfl, rfl⟩ := Prod.mk.inj (Option.some.inj h)
    exact ⟨rfl, rfl⟩
  | count :: counts, free, rest, tables, h => by
    obtain ⟨first, hfirst, h⟩ := bind_some.1 h
    obtain ⟨others, hothers, h⟩ := bind_some.1 h
    obtain ⟨rfl, rfl⟩ := Prod.mk.inj (Option.some.inj h)
    obtain ⟨hlive, hlength⟩ := FreeList.take_some hfirst
    obtain ⟨hlive', hlength'⟩ := takes_some hothers
    refine ⟨?_, ?_⟩
    · rw [hlive, hlive', List.flatten_cons, List.append_assoc]
    · rw [List.map_cons, hlength, hlength']

/-! ## One step -/

namespace Refill

variable {c : Refill} {limit : Option ℕ}

theorem blocks_mono {a b : ℕ} (h : a ≤ b) : c.blocks limit a ≤ c.blocks limit b := by
  have hcount : (a + c.tokensPerBlock - 1) / c.tokensPerBlock ≤ (b + c.tokensPerBlock - 1) / c.tokensPerBlock :=
    Nat.div_le_div_right (by omega)
  cases limit with
  | none => exact hcount
  | some limit => exact min_le_min_right limit hcount

theorem need_add (age : ℕ) :
    c.blocks limit (c.prompt + age - 1) + c.need limit age = c.blocks limit (c.prompt + age) := by
  have hmono : c.blocks limit (c.prompt + age - 1) ≤ c.blocks limit (c.prompt + age) := blocks_mono (by omega)
  unfold need
  omega

theorem phase_lt (age : ℤ) : c.phase age < c.output := by
  have hpos : (0 : ℤ) < c.output := Int.natCast_pos.2 c.output_pos
  rw [phase, Int.toNat_lt (Int.emod_nonneg _ hpos.ne')]
  exact Int.emod_lt_of_pos _ hpos

theorem phase_cast (age : ℤ) : (c.phase age : ℤ) = age % c.output :=
  Int.toNat_of_nonneg (Int.emod_nonneg _ (Int.natCast_pos.2 c.output_pos).ne')

/-- A slot has a phase now when its seed had it that much earlier. -/
theorem phase_eq_sub {age : ℤ} {a t : ℕ} (ha : a < c.output) :
    c.phase age = c.phase ((a : ℤ) - t) ↔ c.phase (age + t) = a := by
  have hcast : (a : ℤ) % c.output = a := Int.emod_eq_of_lt (by omega) (by omega)
  rw [← Int.natCast_inj, ← Int.natCast_inj, phase_cast, phase_cast, phase_cast, ← hcast]
  constructor
  · intro h
    have hadd := Int.ModEq.add_right (t : ℤ) (show age ≡ (a % c.output : ℤ) - t [ZMOD c.output] from h)
    rw [sub_add_cancel] at hadd
    exact hadd.trans (Int.mod_modEq _ _)
  · intro h
    have hsub := Int.ModEq.sub_right (t : ℤ) (show age + t ≡ (a : ℤ) [ZMOD c.output] from h)
    rw [add_sub_cancel_right] at hsub
    exact hsub.trans ((Int.mod_modEq _ _).symm.sub_right _)

theorem phase_succ (age : ℤ) : c.phase (age + 1) = if c.phase age = c.output - 1 then 0 else c.phase age + 1 := by
  have hlt := c.phase_lt age
  have hnext : ((c.phase (age + 1) : ℕ) : ℤ) = ((c.phase age : ℤ) + 1) % c.output := by
    rw [phase_cast, phase_cast, Int.emod_add_emod]
  split
  · next h =>
    have hfull : ((c.phase age : ℤ) + 1) = c.output := by omega
    rw [hfull, Int.emod_self] at hnext
    exact_mod_cast hnext
  · next h =>
    rw [Int.emod_eq_of_lt (by omega) (by omega)] at hnext
    exact_mod_cast hnext

theorem mem_byPhase {ages : List ℤ} {p : ℤ} {slot : ℕ} :
    slot ∈ c.byPhase ages p ↔ ∃ age, ages[slot]? = some age ∧ c.phase age = c.phase p := by
  simp only [byPhase, List.mem_filter, List.mem_range, decide_eq_true_eq]
  constructor
  · rintro ⟨hlt, h⟩
    rw [List.getD_eq_getElem _ _ hlt] at h
    exact ⟨_, List.getElem?_eq_getElem hlt, h⟩
  · rintro ⟨age, hage, h⟩
    obtain ⟨hlt, rfl⟩ := List.getElem?_eq_some_iff.1 hage
    rw [List.getD_eq_getElem _ _ hlt]
    exact ⟨hlt, h⟩

theorem byPhase_nodup (ages : List ℤ) (p : ℤ) : (c.byPhase ages p).Nodup := List.nodup_range.filter _

end Refill

namespace Cycle

/-- Every block of the run, in tables or free. -/
def all (s : Cycle) : List ℕ := s.tables.flatten ++ s.prepared.flatten ++ s.free.live

/-- The tables' lengths, slot by slot. -/
def Lengths (s : Cycle) (ages : List ℤ) (f : ℤ → ℕ) : Prop :=
  ∀ i : ℕ, s.tables[i]?.map List.length = ages[i]?.map f

theorem Lengths.length_eq {s : Cycle} {ages : List ℤ} {f : ℤ → ℕ} (h : s.Lengths ages f) :
    s.tables.length = ages.length := by
  rcases Nat.lt_trichotomy s.tables.length ages.length with hlt | heq | hlt
  · have hi := h s.tables.length
    rw [List.getElem?_eq_none (le_refl _), List.getElem?_eq_getElem hlt] at hi
    cases hi
  · exact heq
  · have hi := h ages.length
    rw [List.getElem?_eq_none (le_refl ages.length), List.getElem?_eq_getElem hlt] at hi
    cases hi

variable {c : Refill} {limit : Option ℕ} {ages : List ℤ}

theorem grow_some {s t : Cycle} {count slot : ℕ} (h : grow count s slot = some t) (hslot : slot < s.tables.length) :
    t.all.Perm s.all ∧ t.prepared = s.prepared ∧ t.tables.length = s.tables.length ∧
      ∀ i : ℕ, t.tables[i]?.map List.length =
        s.tables[i]?.map fun table => table.length + if i = slot then count else 0 := by
  obtain ⟨next, hnext, h⟩ := bind_some.1 h
  cases h
  obtain ⟨hlive, hlength⟩ := FreeList.take_some hnext
  refine ⟨?_, rfl, List.length_modify _ _ _, fun i => ?_⟩
  · simp only [all]
    rw [hlive, ← List.append_assoc]
    refine List.Perm.append_right _ (((flatten_modify_perm next.1 hslot).append_right _).trans ?_)
    rw [List.append_assoc, List.append_assoc]
    exact List.perm_append_comm.append_left _
  · rw [List.getElem?_modify, Option.map_eq_map, Option.map_map]
    refine congrArg (fun f => s.tables[i]?.map f) (funext fun table => ?_)
    by_cases hi : slot = i
    · subst hi
      simp [hlength]
    · simp [hi, Ne.symm hi]

/-- One age's growth: each of its slots takes as much. -/
theorem grows_some : ∀ {slots : List ℕ} {s t : Cycle} {count : ℕ}, slots.foldlM (grow count) s = some t → slots.Nodup →
    (∀ slot ∈ slots, slot < s.tables.length) → t.all.Perm s.all ∧ t.prepared = s.prepared ∧
      t.tables.length = s.tables.length ∧ ∀ i : ℕ, t.tables[i]?.map List.length =
        s.tables[i]?.map fun table => table.length + if i ∈ slots then count else 0
  | [], s, t, count, h, _, _ => by
    cases h
    exact ⟨.refl _, rfl, rfl, fun i => by simp⟩
  | slot :: slots, s, t, count, h, hnodup, hslots => by
    rw [List.foldlM_cons] at h
    obtain ⟨u, hu, h⟩ := bind_some.1 h
    rw [List.nodup_cons] at hnodup
    obtain ⟨hperm, hprepared, hlength, hfirst⟩ := grow_some hu (hslots slot List.mem_cons_self)
    obtain ⟨hperm', hprepared', hlength', hrest⟩ := grows_some h hnodup.2 fun x hx => by
      rw [hlength]
      exact hslots x (List.mem_cons_of_mem _ hx)
    refine ⟨hperm'.trans hperm, hprepared'.trans hprepared, hlength'.trans hlength, fun i => ?_⟩
    have hi := hrest i
    rw [show (fun table : List ℕ => table.length + if i ∈ slots then count else 0) =
      (fun n => n + if i ∈ slots then count else 0) ∘ List.length from rfl, ← Option.map_map, hfirst i,
      Option.map_map] at hi
    rw [hi]
    refine congrArg (fun f => s.tables[i]?.map f) (funext fun table => ?_)
    by_cases heq : i = slot
    · subst heq
      simp [hnodup.1]
    · simp [heq]

theorem Lengths.grows {s t : Cycle} {f : ℤ → ℕ} (h : s.Lengths ages f) {slots : List ℕ} {count : ℕ}
    (hlengths : ∀ i : ℕ, t.tables[i]?.map List.length =
      s.tables[i]?.map fun table => table.length + if i ∈ slots then count else 0) {g : ℤ → ℕ}
    (hg : ∀ i age, ages[i]? = some age → g age = f age + if i ∈ slots then count else 0) : t.Lengths ages g := by
  intro i
  have hi := h i
  rw [hlengths i, show (fun table : List ℕ => table.length + if i ∈ slots then count else 0) =
    (fun n => n + if i ∈ slots then count else 0) ∘ List.length from rfl, ← Option.map_map, hi]
  cases hage : ages[i]? with
  | none => rfl
  | some age => simp [hg i age hage]

/-- All ages' growth: each slot takes what its phase needs. -/
theorem growing_some {step : ℕ} : ∀ {growing : List ℕ} {s t : Cycle} {f : ℤ → ℕ},
    growing.foldlM (fun s (age : ℕ) => (c.byPhase ages ((age : ℤ) - step)).foldlM (grow (c.need limit age)) s) s = some t →
    growing.Nodup → (∀ age ∈ growing, age < c.output) → s.Lengths ages f →
    t.all.Perm s.all ∧ t.prepared = s.prepared ∧
      t.Lengths ages fun age => f age + if c.phase (age + step) ∈ growing then c.need limit (c.phase (age + step)) else 0
  | [], s, t, f, h, _, _, hs => by
    cases h
    exact ⟨.refl _, rfl, by simpa using hs⟩
  | a :: growing, s, t, f, h, hnodup, hlt, hs => by
    rw [List.foldlM_cons] at h
    obtain ⟨u, hu, h⟩ := bind_some.1 h
    rw [List.nodup_cons] at hnodup
    have hslots : ∀ slot ∈ c.byPhase ages ((a : ℤ) - step), slot < s.tables.length := by
      intro slot hslot
      obtain ⟨age, hage, -⟩ := Refill.mem_byPhase.1 hslot
      rw [hs.length_eq]
      exact (List.getElem?_eq_some_iff.1 hage).1
    obtain ⟨hperm, hprepared, -, hlengths⟩ := grows_some hu (Refill.byPhase_nodup ages _) hslots
    have hmem : ∀ (i : ℕ) (age : ℤ), ages[i]? = some age → (i ∈ c.byPhase ages ((a : ℤ) - step) ↔ c.phase (age + step) = a) := by
      intro i age hage
      rw [Refill.mem_byPhase, ← Refill.phase_eq_sub (hlt a List.mem_cons_self)]
      exact ⟨fun ⟨age', hage', h⟩ => by rw [hage] at hage'; cases hage'; exact h, fun h => ⟨age, hage, h⟩⟩
    have hu' : u.Lengths ages fun age => f age + if c.phase (age + step) = a then c.need limit a else 0 := by
      refine hs.grows hlengths fun i age hage => ?_
      simp only [hmem i age hage]
    obtain ⟨hperm', hprepared', hlengths'⟩ := growing_some h hnodup.2 (fun x hx => hlt x (List.mem_cons_of_mem _ hx)) hu'
    refine ⟨hperm'.trans hperm, hprepared'.trans hprepared, ?_⟩
    have hf : (fun age : ℤ => f age + if c.phase (age + step) ∈ a :: growing then c.need limit (c.phase (age + step)) else 0) =
        fun age : ℤ => (f age + if c.phase (age + step) = a then c.need limit a else 0) +
          if c.phase (age + step) ∈ growing then c.need limit (c.phase (age + step)) else 0 := by
      funext age
      by_cases ha : c.phase (age + step) = a
      · simp [ha, hnodup.1]
      · simp [ha]
    rw [hf]
    exact hlengths'

/-- Every prepared import holds a history. -/
def Prepared (c : Refill) (limit : Option ℕ) (s : Cycle) : Prop :=
  s.prepared.map List.length = List.replicate c.pool (c.history limit)

theorem finish_some {s t : Cycle} {slot : ℕ} (h : finish c limit s slot = some t) (hslot : slot < s.tables.length)
    (hs : s.Prepared c limit) : t.all.Perm s.all ∧ t.Prepared c limit ∧ t.tables.length = s.tables.length ∧
      ∀ i : ℕ, t.tables[i]?.map List.length =
        s.tables[i]?.map fun table => if i = slot then c.history limit else table.length := by
  obtain ⟨next, hnext, h⟩ := bind_some.1 h
  obtain ⟨hlive, hlength⟩ := FreeList.take_some hnext
  rw [FreeList.live_push] at hlive
  have hset : ∀ (l : List ℕ), l.length = c.history limit → ∀ i : ℕ, (s.tables.set slot l)[i]?.map List.length =
      s.tables[i]?.map fun table => if i = slot then c.history limit else table.length := by
    intro l hl i
    rw [List.getElem?_set]
    by_cases hi : slot = i
    · subst hi
      simp [hslot, hl]
    · simp [hi, Ne.symm hi]
  have hperm := fun l => flatten_set_perm l hslot
  split at h
  · next hnil =>
    cases h
    refine ⟨?_, hs, List.length_set, hset next.1 hlength⟩
    simp only [all, hnil, List.flatten_nil, List.append_nil]
    have hmoved := (hperm next.1).append_right next.2.live
    rw [List.append_assoc _ next.1, ← hlive] at hmoved
    refine (List.perm_append_right_iff (s.tables.getD slot [])).1 ?_
    refine List.Perm.trans ?_ (hmoved.trans (by rw [← List.append_assoc]))
    rw [List.append_assoc, List.append_assoc]
    exact List.perm_append_comm.append_left _
  · next oldest prepared hcons =>
    cases h
    have hs' := hs
    rw [Prepared, hcons, List.map_cons] at hs'
    have hpool : 0 < c.pool := by
      have hlen := congrArg List.length hs'
      simp only [List.length_cons, List.length_replicate] at hlen
      omega
    obtain ⟨hold, hrest⟩ : oldest.length = c.history limit ∧
        prepared.map List.length = List.replicate (c.pool - 1) (c.history limit) := by
      rw [show c.pool = c.pool - 1 + 1 by omega, List.replicate_succ, List.cons.injEq] at hs'
      exact hs'
    refine ⟨?_, ?_, List.length_set, hset oldest hold⟩
    · simp only [all, hcons, List.flatten_append, List.flatten_cons, List.flatten_nil, List.append_nil]
      have hmoved := (hperm oldest).append_right (prepared.flatten ++ next.1 ++ next.2.live)
      refine (List.perm_append_right_iff (s.tables.getD slot [])).1 ?_
      refine List.Perm.trans ?_ (hmoved.trans ?_)
      · simp only [List.append_assoc]
        refine List.Perm.append_left _ ?_
        rw [← List.append_assoc, ← List.append_assoc, ← List.append_assoc]
        exact List.perm_append_comm.trans (by rw [List.append_assoc, List.append_assoc])
      · simp only [List.append_assoc]
        rw [← hlive]
    · change (prepared ++ [next.1]).map List.length = _
      rw [List.map_append, hrest, List.map_singleton, hlength, ← List.replicate_succ',
        show c.pool - 1 + 1 = c.pool by omega]

theorem finishes_some : ∀ {slots : List ℕ} {s t : Cycle}, slots.foldlM (finish c limit) s = some t →
    (∀ slot ∈ slots, slot < s.tables.length) → s.Prepared c limit → t.all.Perm s.all ∧ t.Prepared c limit ∧
      ∀ i : ℕ, t.tables[i]?.map List.length =
        s.tables[i]?.map fun table => if i ∈ slots then c.history limit else table.length
  | [], s, t, h, _, hs => by
    cases h
    exact ⟨.refl _, hs, fun i => by simp⟩
  | slot :: slots, s, t, h, hslots, hs => by
    rw [List.foldlM_cons] at h
    obtain ⟨u, hu, h⟩ := bind_some.1 h
    obtain ⟨hperm, hprepared, hlength, hfirst⟩ := finish_some hu (hslots slot List.mem_cons_self) hs
    obtain ⟨hperm', hprepared', hrest⟩ := finishes_some h (fun x hx => by
      rw [hlength]
      exact hslots x (List.mem_cons_of_mem _ hx)) hprepared
    refine ⟨hperm'.trans hperm, hprepared', fun i => ?_⟩
    have hi := hrest i
    rw [show (fun table : List ℕ => if i ∈ slots then c.history limit else table.length) =
      (fun n => if i ∈ slots then c.history limit else n) ∘ List.length from rfl, ← Option.map_map, hfirst i,
      Option.map_map] at hi
    rw [hi]
    refine congrArg (fun f => s.tables[i]?.map f) (funext fun table => ?_)
    by_cases heq : i = slot
    · simp [heq]
    · simp [heq]

/-- Between two steps: the tables hold what their slots' ages hold, the prepared imports a history each. -/
structure Settled (c : Refill) (limit : Option ℕ) (ages : List ℤ) (input : List ℕ) (s : Cycle) (step : ℕ) : Prop where
  perm : s.all.Perm input
  tables : s.Lengths ages fun age => c.holds limit (age + step)
  prepared : s.Prepared c limit

theorem Settled.step {input : List ℕ} {s t : Cycle} {step : ℕ} (hs : s.Settled c limit ages input step)
    (h : Cycle.step c limit ages s step = some t) : t.Settled c limit ages input (step + 1) := by
  obtain ⟨grown, hgrown, h⟩ := bind_some.1 h
  obtain ⟨finished, hfinished, h⟩ := bind_some.1 h
  cases h
  have hnodup : (c.growing limit).Nodup := (List.nodup_reverse.2 List.nodup_range).filter _
  have hlt : ∀ age ∈ c.growing limit, age < c.output := by
    intro age hage
    exact List.mem_range.1 (List.mem_reverse.1 (List.mem_filter.1 hage).1)
  obtain ⟨hperm, hprepared, hlengths⟩ := growing_some hgrown hnodup hlt hs.tables
  -- after the growth each slot holds what its age holds after its step
  have hgrownLengths : grown.Lengths ages fun age => c.blocks limit (c.prompt + c.phase (age + step)) := by
    have hf : (fun age : ℤ => c.holds limit (age + step) +
        if c.phase (age + step) ∈ c.growing limit then c.need limit (c.phase (age + step)) else 0) =
        fun age : ℤ => c.blocks limit (c.prompt + c.phase (age + step)) := by
      funext age
      have hadd : c.blocks limit (c.prompt + c.phase (age + step) - 1) + _ = _ := c.need_add (c.phase (age + step))
      have hphase := c.phase_lt (age + step)
      split
      · exact hadd
      · next hnot =>
        have hzero : c.need limit (c.phase (age + step)) = 0 := by
          by_contra hne
          exact hnot (List.mem_filter.2 ⟨List.mem_reverse.2 (List.mem_range.2 hphase), by simpa using hne⟩)
        rw [hzero] at hadd
        exact hadd
    rw [← hf]
    exact hlengths
  have hslots : ∀ slot ∈ c.byPhase ages ((c.output : ℤ) - 1 - step), slot < grown.tables.length := by
    intro slot hslot
    obtain ⟨age, hage, -⟩ := Refill.mem_byPhase.1 hslot
    rw [hgrownLengths.length_eq]
    exact (List.getElem?_eq_some_iff.1 hage).1
  have hgrownPrepared : grown.Prepared c limit := by
    unfold Prepared
    rw [hprepared]
    exact hs.prepared
  obtain ⟨hperm', hprepared', hlengths'⟩ := finishes_some hfinished hslots hgrownPrepared
  have hout := c.output_pos
  have hfinishedLengths : finished.Lengths ages fun age => c.holds limit (age + (step + 1 : ℕ)) := by
    intro i
    have hi := hgrownLengths i
    rw [hlengths' i]
    cases hage : ages[i]? with
    | none =>
      rw [hage, Option.map_none, Option.map_eq_none_iff] at hi
      rw [hi]
      rfl
    | some age =>
      rw [hage, Option.map_some, Option.map_eq_some_iff] at hi
      obtain ⟨table, htable, hlength⟩ := hi
      have hmem : i ∈ c.byPhase ages ((c.output : ℤ) - 1 - step) ↔ c.phase (age + step) = c.output - 1 := by
        rw [Refill.mem_byPhase, show ((c.output : ℤ) - 1) = ((c.output - 1 : ℕ) : ℤ) by omega,
          ← Refill.phase_eq_sub (by omega)]
        exact ⟨fun ⟨age', hage', h⟩ => by rw [hage] at hage'; cases hage'; exact h, fun h => ⟨age, hage, h⟩⟩
      have hsucc := c.phase_succ (age + step)
      rw [htable, Option.map_some, Option.map_some, Option.some.injEq, Refill.holds,
        show (age + ((step + 1 : ℕ) : ℤ)) = age + step + 1 by push_cast; ring, hsucc, hlength]
      by_cases hlast : c.phase (age + step) = c.output - 1
      · rw [if_pos (hmem.2 hlast), if_pos hlast]
        rfl
      · rw [if_neg (fun h => hlast (hmem.1 h)), if_neg hlast]
        rfl
  have hcompacted : finished.compacted.all = finished.all ∧ finished.compacted.tables = finished.tables ∧
      finished.compacted.prepared = finished.prepared := by
    unfold compacted
    split <;> exact ⟨rfl, rfl, rfl⟩
  refine ⟨?_, ?_, ?_⟩
  · rw [hcompacted.1]
    exact (hperm'.trans hperm).trans hs.perm
  · intro i
    rw [hcompacted.2.1]
    exact hfinishedLengths i
  · unfold Prepared
    rw [hcompacted.2.2]
    exact hprepared'

theorem Settled.steps {input : List ℕ} {s : Cycle} (hs : s.Settled c limit ages input 0) : ∀ {n : ℕ} {t : Cycle},
    (List.range n).foldlM (Cycle.step c limit ages) s = some t → t.Settled c limit ages input n
  | 0, t, h => by
    cases h
    exact hs
  | n + 1, t, h => by
    rw [List.range_succ, List.foldlM_append] at h
    obtain ⟨u, hu, h⟩ := bind_some.1 h
    rw [List.foldlM_cons] at h
    obtain ⟨v, hv, h⟩ := bind_some.1 h
    cases h
    exact (hs.steps hu).step hv

theorem start_settled {free : List ℕ} {s : Cycle} (h : start c limit ages free = some s) :
    s.Settled c limit ages free 0 := by
  unfold start at h
  dsimp only at h
  split at h
  · cases h
  · obtain ⟨tables, htables, h⟩ := bind_some.1 h
    obtain ⟨prepared, hprepared, h⟩ := bind_some.1 h
    cases h
    obtain ⟨hlive, hlengths⟩ := takes_some htables
    obtain ⟨hlive', hlengths'⟩ := takes_some hprepared
    refine ⟨?_, fun i => ?_, hlengths'⟩
    · rw [FreeList.live_ofList] at hlive
      rw [hlive, hlive', ← List.append_assoc]
      exact .refl _
    · have hi := congrArg (fun l => l[i]?) hlengths
      simpa using hi

end Cycle

/-! ## The settled list -/

theorem map_length_eq {tables : List (List ℕ)} {ages : List ℤ} {f : ℤ → ℕ}
    (h : ∀ i : ℕ, tables[i]?.map List.length = ages[i]?.map f) : tables.map List.length = ages.map f :=
  List.ext_getElem? fun i => by rw [List.getElem?_map, List.getElem?_map, h i]

/-- **The settled list is a permutation of its input**, and begins with what the seeds hold at their ages, in
their order, and a history for each prepared import. -/
theorem settledFreeList_some {c : Refill} {limit : Option ℕ} {ages : List ℤ} {free settled : List ℕ}
    (h : settledFreeList c limit ages free = some settled) : settled.Perm free ∧
      ∃ (tables prepared : List (List ℕ)) (rest : List ℕ), settled = tables.flatten ++ prepared.flatten ++ rest ∧
        tables.map List.length = ages.map (c.holds limit) ∧
        prepared.map List.length = List.replicate c.pool (c.history limit) := by
  obtain ⟨start, hstart, h⟩ := bind_some.1 h
  obtain ⟨last, hlast, h⟩ := bind_some.1 h
  cases h
  have hsettled := (Cycle.start_settled hstart).steps hlast
  refine ⟨hsettled.perm, last.tables, last.prepared, last.free.live, rfl, ?_, hsettled.prepared⟩
  -- whole cycles bring every slot back to its age
  have hcycles : (fun age : ℤ => c.holds limit (age + (settleCycles * c.output : ℕ))) = c.holds limit := by
    funext age
    simp only [Refill.holds, Refill.phase]
    push_cast
    rw [Int.add_mul_emod_self_right]
  rw [← hcycles]
  exact map_length_eq hsettled.tables

end HeteroSim.KvBlocks
