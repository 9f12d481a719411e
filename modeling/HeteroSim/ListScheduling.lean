/-
List scheduling. A job starts when those it waits for have ended, its release
has come and of each resource it asks for a lane is free; the next job is the
one with the least key among those that wait for nothing. A lane is known by
the time it is free from, and a job takes the lane of a resource that is free
first.
-/
import Mathlib

namespace HeteroSim.ListScheduling

variable {τ ρ T K R : Type}

/-! ## Lanes -/

section Lanes

variable [LinearOrder T] [Zero T] {lanes other : List T} {x v : T}

/-- When a lane is free. -/
def earliest (lanes : List T) : T := lanes.min?.getD 0

/-- The first of the lanes that are free first. -/
def firstFree (lanes : List T) : ℕ := lanes.idxOf (earliest lanes)

/-- That lane is taken until `v`. -/
def occupy (lanes : List T) (v : T) : List T := lanes.set (firstFree lanes) v

theorem earliest_iff (h : lanes ≠ []) : earliest lanes = x ↔ x ∈ lanes ∧ ∀ y ∈ lanes, x ≤ y := by
  obtain ⟨m, hm⟩ := Option.isSome_iff_exists.1 (List.isSome_min?_of_ne_nil h)
  rw [earliest, hm, Option.getD_some, ← List.min?_eq_some_iff, hm, Option.some.injEq]

theorem earliest_mem (h : lanes ≠ []) : earliest lanes ∈ lanes := ((earliest_iff h).1 rfl).1

theorem earliest_le (hx : x ∈ lanes) : earliest lanes ≤ x := ((earliest_iff (List.ne_nil_of_mem hx)).1 rfl).2 x hx

theorem le_earliest_iff (h : lanes ≠ []) : x ≤ earliest lanes ↔ ∀ y ∈ lanes, x ≤ y :=
  ⟨fun hx _ hy => hx.trans (earliest_le hy), fun hx => hx _ (earliest_mem h)⟩

theorem firstFree_lt (h : lanes ≠ []) : firstFree lanes < lanes.length := List.idxOf_lt_length_of_mem (earliest_mem h)

theorem getElem?_firstFree (h : lanes ≠ []) : lanes[firstFree lanes]? = some (earliest lanes) := by
  rw [List.getElem?_eq_getElem (firstFree_lt h), Option.some.injEq]
  exact List.getElem_idxOf (firstFree_lt h)

@[simp] theorem length_occupy : (occupy lanes v).length = lanes.length := List.length_set

theorem occupy_ne_nil (h : lanes ≠ []) : occupy lanes v ≠ [] := by
  rw [Ne, ← List.length_eq_zero_iff, length_occupy, List.length_eq_zero_iff]
  exact h

/-- The lane that is taken leaves, and comes back with its new time. -/
theorem occupy_perm (h : lanes ≠ []) : (occupy lanes v).Perm (v :: lanes.erase (earliest lanes)) := by
  rw [occupy, List.erase_eq_eraseIdx_of_idxOf rfl]
  exact List.set_perm_cons_eraseIdx (firstFree_lt h) v

theorem mem_occupy (h : lanes ≠ []) (hx : x ∈ occupy lanes v) : x = v ∨ x ∈ lanes := by
  rcases List.mem_cons.1 ((occupy_perm h).mem_iff.1 hx) with hx | hx
  · exact .inl hx
  · exact .inr (List.mem_of_mem_erase hx)

/-- The lanes are free no earlier than before. -/
theorem earliest_le_occupy (h : lanes ≠ []) (hv : earliest lanes ≤ v) : earliest lanes ≤ earliest (occupy lanes v) := by
  rw [le_earliest_iff (occupy_ne_nil h)]
  intro y hy
  rcases mem_occupy h hy with rfl | hy
  · exact hv
  · exact earliest_le hy

/-- Lanes by their numbers, one of them taken. -/
theorem occupy_range {n : ℕ} {f : ℕ → T} :
    occupy ((List.range n).map f) v = (List.range n).map (Function.update f (firstFree ((List.range n).map f)) v) := by
  refine List.ext_getElem (by simp) fun i hi _ => ?_
  have hn : i < n := by simpa using hi
  simp only [occupy, List.getElem_set, List.getElem_map, List.getElem_range, Function.update_apply, eq_comm]

/-! ## What a lane was taken for -/

/-- When a lane with this history is free. -/
def freeAt (history : List (T × T)) : T := (history.getLast?.map Prod.snd).getD 0

omit [LinearOrder T] in
theorem freeAt_snoc (history : List (T × T)) (p : T × T) : freeAt (history ++ [p]) = p.2 := by
  rw [freeAt, List.getLast?_concat]
  rfl

/-- One interval after the other. -/
structure Laid (history : List (T × T)) : Prop where
  apart : history.Pairwise fun p q => p.2 ≤ q.1
  forward : ∀ p ∈ history, p.1 ≤ p.2

omit [Zero T] in
theorem Laid.nil : Laid ([] : List (T × T)) := ⟨.nil, fun _ hp => absurd hp List.not_mem_nil⟩

theorem Laid.le_freeAt {history : List (T × T)} (h : Laid history) {p : T × T} (hp : p ∈ history) : p.2 ≤ freeAt history := by
  rcases List.eq_nil_or_concat history with rfl | ⟨init, last, rfl⟩
  · cases hp
  · rw [List.concat_eq_append] at h hp ⊢
    rw [freeAt_snoc]
    rcases List.mem_append.1 hp with hp | hp
    · exact ((List.pairwise_append.1 h.apart).2.2 p hp last List.mem_cons_self).trans
        (h.forward last (List.mem_append_right _ List.mem_cons_self))
    · rw [List.mem_singleton.1 hp]

/-- An interval from where the lane is free is laid behind the others. -/
theorem Laid.snoc {history : List (T × T)} {p : T × T} (h : Laid history) (hfree : freeAt history ≤ p.1) (hp : p.1 ≤ p.2) :
    Laid (history ++ [p]) where
  apart := by
    refine List.pairwise_append.2 ⟨h.apart, List.pairwise_singleton _ _, fun q hq r hr => ?_⟩
    rw [List.mem_singleton.1 hr]
    exact (h.le_freeAt hq).trans hfree
  forward q hq := by
    rcases List.mem_append.1 hq with hq | hq
    · exact h.forward q hq
    · rw [List.mem_singleton.1 hq]
      exact hp

/-- What a lane was taken for takes no longer than until it is free. -/
theorem Laid.total_le [AddCommGroup R] [LinearOrder R] [IsOrderedAddMonoid R] : ∀ {history : List (R × R)}, Laid history →
    (∀ p ∈ history, 0 ≤ p.1) → (history.map fun p => p.2 - p.1).sum ≤ freeAt history := by
  intro history
  induction history using List.reverseRecOn with
  | nil => exact fun _ _ => le_rfl
  | append_singleton init last ih =>
    intro h hstart
    obtain ⟨hinit, -, hbefore⟩ := List.pairwise_append.1 h.apart
    have hrest := ih ⟨hinit, fun p hp => h.forward p (List.mem_append_left _ hp)⟩ fun p hp => hstart p (List.mem_append_left _ hp)
    have hfree : freeAt init ≤ last.1 := by
      rcases List.eq_nil_or_concat init with rfl | ⟨init, p, rfl⟩
      · exact hstart last (List.mem_append_right _ List.mem_cons_self)
      · rw [List.concat_eq_append, freeAt_snoc]
        exact hbefore p (by simp) last List.mem_cons_self
    rw [List.map_append, List.map_singleton, List.sum_append, List.sum_singleton, freeAt_snoc]
    exact (add_le_add_left (hrest.trans hfree) _).trans_eq (add_sub_cancel _ _)

end Lanes

/-! ## The latest of some times -/

section Latest

variable [LinearOrder T] [Zero T]

/-- The latest of the times, and zero if there is none after it. -/
def latest (times : List T) : T := times.foldr max 0

theorem latest_le_iff {times : List T} {x : T} : latest times ≤ x ↔ 0 ≤ x ∧ ∀ y ∈ times, y ≤ x := by
  induction times with
  | nil => simp [latest]
  | cons y times ih =>
    rw [latest, List.foldr_cons, max_le_iff, ← latest, ih, List.forall_mem_cons]
    exact and_left_comm

theorem latest_nonneg (times : List T) : 0 ≤ latest times := (latest_le_iff.1 le_rfl).1

theorem le_latest {times : List T} {x : T} (hx : x ∈ times) : x ≤ latest times := (latest_le_iff.1 le_rfl).2 x hx

theorem latest_eq_of_mem_iff {times other : List T} (h : ∀ x, x ∈ times ↔ x ∈ other) : latest times = latest other :=
  le_antisymm (latest_le_iff.2 ⟨latest_nonneg _, fun _ hx => le_latest ((h _).1 hx)⟩)
    (latest_le_iff.2 ⟨latest_nonneg _, fun _ hx => le_latest ((h _).2 hx)⟩)

/-- Of times that are not negative it is the maximum. -/
theorem max?_getD_eq_latest {times : List T} (h : ∀ x ∈ times, 0 ≤ x) : times.max?.getD 0 = latest times := by
  cases hmax : times.max? with
  | none =>
    obtain rfl := List.max?_eq_none_iff.1 hmax
    rfl
  | some x =>
    obtain ⟨hx, hle⟩ := List.max?_eq_some_iff.1 hmax
    exact le_antisymm (le_latest hx) (latest_le_iff.2 ⟨h x hx, hle⟩)

theorem latest_cons (x : T) (times : List T) : latest (x :: times) = max x (latest times) := rfl

theorem latest_snoc (times : List T) (x : T) : latest (times ++ [x]) = max (latest times) x := by
  refine eq_of_forall_ge_iff fun y => ?_
  rw [latest_le_iff, max_le_iff, latest_le_iff, List.forall_mem_append, List.forall_mem_singleton, and_assoc]

theorem latest_mono {α : Type} {f g : α → T} {l : List α} (h : ∀ a ∈ l, f a ≤ g a) : latest (l.map f) ≤ latest (l.map g) := by
  refine latest_le_iff.2 ⟨latest_nonneg _, fun x hx => ?_⟩
  obtain ⟨a, ha, rfl⟩ := List.mem_map.1 hx
  exact (h a ha).trans (le_latest (List.mem_map_of_mem ha))

/-- One more time is among those found. -/
theorem latest_filterMap_update {κ : Type} [DecidableEq κ] {f : κ → Option T} {k : κ} {e : T} (hk : f k = none) (l : List κ) :
    latest (l.filterMap (Function.update f k (some e))) =
      if k ∈ l then max (latest (l.filterMap f)) e else latest (l.filterMap f) := by
  induction l with
  | nil => rfl
  | cons j l ih =>
    by_cases hj : j = k
    · subst hj
      rw [List.filterMap_cons_some (Function.update_self _ _ _), List.filterMap_cons_none hk, latest_cons, ih,
        if_pos List.mem_cons_self]
      split
      · rw [max_left_comm, max_self]
      · exact max_comm _ _
    · have hmem : k ∈ j :: l ↔ k ∈ l := by rw [List.mem_cons, or_iff_right (Ne.symm hj)]
      have hsame : Function.update f k (some e) j = f j := Function.update_of_ne hj _ _
      simp only [hmem]
      cases hfj : f j with
      | none => rw [List.filterMap_cons_none (hsame.trans hfj), List.filterMap_cons_none hfj, ih]
      | some x =>
        rw [List.filterMap_cons_some (hsame.trans hfj), List.filterMap_cons_some hfj, latest_cons, latest_cons, ih]
        split
        · exact (max_assoc _ _ _).symm
        · rfl

end Latest

/-! ## Jobs -/

structure Job (τ ρ T K : Type) where
  deps : List τ
  demands : List (ρ × T)
  release : T
  rank : K

/-- When jobs ended, and the lanes of each resource. -/
structure Board (τ ρ T : Type) where
  ended : τ → Option T
  lanes : ρ → List T

/-- Start, effective ready, dependency ready, release, and the rank. -/
abbrev Key (T K : Type) := T ×ₗ T ×ₗ T ×ₗ T ×ₗ K

namespace Board

variable [LinearOrder T] [AddCommGroup T] (b : Board τ ρ T) (j : Job τ ρ T K)

def dependencyReady : T := latest (j.deps.filterMap b.ended)

def effectiveReady : T := max (b.dependencyReady j) j.release

def resourcesReady : T := latest (j.demands.map fun d => earliest (b.lanes d.1))

def start : T := max (b.effectiveReady j) (b.resourcesReady j)

/-- A job ends with the last of its demands, each from the common start. -/
def finish : T := (j.demands.map fun d => b.start j + d.2).foldr max (b.start j)

/-- What of the key does not depend on the lanes. -/
def staticKey : T ×ₗ T ×ₗ T ×ₗ K :=
  toLex (b.effectiveReady j, toLex (b.dependencyReady j, toLex (j.release, j.rank)))

def key : Key T K := toLex (b.start j, b.staticKey j)

/-- All it waits for has ended. -/
def Resolved : Prop := ∀ d ∈ j.deps, ∃ e, b.ended d = some e

/-- A job's demands take their lanes. -/
def book [DecidableEq ρ] (start : T) (lanes : ρ → List T) (demands : List (ρ × T)) : ρ → List T :=
  demands.foldl (fun lanes d => Function.update lanes d.1 (occupy (lanes d.1) (start + d.2))) lanes

/-- The job runs. -/
def run [DecidableEq τ] [DecidableEq ρ] (t : τ) : Board τ ρ T where
  ended := Function.update b.ended t (some (b.finish j))
  lanes := book (b.start j) b.lanes j.demands

variable {b j}

theorem le_finish_iff {x : T} : b.finish j ≤ x ↔ b.start j ≤ x ∧ ∀ d ∈ j.demands, b.start j + d.2 ≤ x := by
  rw [finish]
  induction j.demands with
  | nil => simp
  | cons d demands ih =>
    rw [List.map_cons, List.foldr_cons, max_le_iff, ih, List.forall_mem_cons]
    exact and_left_comm

theorem start_le_finish : b.start j ≤ b.finish j := (le_finish_iff.1 le_rfl).1

theorem effectiveReady_le_start : b.effectiveReady j ≤ b.start j := le_max_left _ _

theorem earliest_le_start {d : ρ × T} (hd : d ∈ j.demands) : earliest (b.lanes d.1) ≤ b.start j :=
  (le_latest (List.mem_map_of_mem (f := fun d : ρ × T => earliest (b.lanes d.1)) hd)).trans (le_max_right _ _)

theorem ended_le_dependencyReady {d : τ} {e : T} (hd : d ∈ j.deps) (he : b.ended d = some e) : e ≤ b.dependencyReady j :=
  le_latest (List.mem_filterMap.2 ⟨d, hd, he⟩)

section Book

variable [DecidableEq ρ] {start : T} {lanes : ρ → List T}

theorem book_of_not_mem {r : ρ} : ∀ {demands : List (ρ × T)}, r ∉ demands.map Prod.fst → ∀ {lanes : ρ → List T},
    book start lanes demands r = lanes r
  | [], _, _ => rfl
  | d :: demands, hr, lanes => by
    rw [List.map_cons, List.mem_cons, not_or] at hr
    rw [book, List.foldl_cons, ← book, book_of_not_mem hr.2, Function.update_of_ne hr.1]

theorem book_of_mem {r : ρ} {s : T} : ∀ {demands : List (ρ × T)}, (demands.map Prod.fst).Nodup → (r, s) ∈ demands →
    ∀ {lanes : ρ → List T}, book start lanes demands r = occupy (lanes r) (start + s)
  | [], _, hr, _ => absurd hr List.not_mem_nil
  | d :: demands, hn, hr, lanes => by
    obtain ⟨hout, hn⟩ := List.nodup_cons.1 hn
    rw [book, List.foldl_cons, ← book]
    rcases List.mem_cons.1 hr with rfl | hr
    · rw [book_of_not_mem hout, Function.update_self]
    · have hne : r ≠ d.1 := fun he => hout (he ▸ List.mem_map_of_mem (f := Prod.fst) hr)
      rw [book_of_mem hn hr, Function.update_of_ne hne]

theorem book_cases (start : T) (demands : List (ρ × T)) (hn : (demands.map Prod.fst).Nodup) (lanes : ρ → List T) (r : ρ) :
    book start lanes demands r = lanes r ∨ ∃ s, (r, s) ∈ demands ∧ book start lanes demands r = occupy (lanes r) (start + s) := by
  by_cases hr : r ∈ demands.map Prod.fst
  · obtain ⟨d, hd, rfl⟩ := List.mem_map.1 hr
    exact .inr ⟨d.2, hd, book_of_mem hn hd⟩
  · exact .inl (book_of_not_mem hr)

end Book

/-! ## Keys -/

section Keys

variable {b' : Board τ ρ T} {j' : Job τ ρ T K}

theorem staticKey_congr (hdeps : ∀ d ∈ j.deps, b'.ended d = b.ended d) : b'.staticKey j = b.staticKey j := by
  have hdep : b'.dependencyReady j = b.dependencyReady j := by
    rw [dependencyReady, List.filterMap_congr hdeps]
    rfl
  rw [staticKey, staticKey, effectiveReady, effectiveReady, hdep]

theorem resourcesReady_mono (hlater : ∀ r, earliest (b.lanes r) ≤ earliest (b'.lanes r)) :
    b.resourcesReady j ≤ b'.resourcesReady j := latest_mono fun d _ => hlater d.1

variable [LinearOrder K]

/-- A key grows with the resources' clocks and with the static key. -/
theorem key_le (hres : b.resourcesReady j ≤ b'.resourcesReady j') (hstatic : b.staticKey j ≤ b'.staticKey j') :
    b.key j ≤ b'.key j' := by
  have heff : b.effectiveReady j ≤ b'.effectiveReady j' := by
    rcases Prod.Lex.toLex_le_toLex.1 hstatic with hlt | ⟨he, -⟩
    · exact hlt.le
    · exact he.le
  rcases (max_le_max heff hres : b.start j ≤ b'.start j').lt_or_eq with hlt | he
  · exact Prod.Lex.toLex_le_toLex.2 (.inl hlt)
  · exact Prod.Lex.toLex_le_toLex.2 (.inr ⟨he, hstatic⟩)

theorem start_le_of_key_le (h : b.key j ≤ b'.key j') : b.start j ≤ b'.start j' := by
  rcases Prod.Lex.toLex_le_toLex.1 h with hlt | ⟨he, -⟩
  · exact hlt.le
  · exact he.le

/-- **The keys of jobs that wait only grow.** -/
theorem key_mono (hlater : ∀ r, earliest (b.lanes r) ≤ earliest (b'.lanes r)) (hdeps : ∀ d ∈ j.deps, b'.ended d = b.ended d) :
    b.key j ≤ b'.key j := key_le (resourcesReady_mono hlater) (staticKey_congr hdeps).ge

end Keys

/-- A run leaves no lane free earlier. -/
theorem earliest_le_run [DecidableEq τ] [DecidableEq ρ] [IsOrderedAddMonoid T] {t : τ} (hlanes : ∀ r, b.lanes r ≠ [])
    (hn : (j.demands.map Prod.fst).Nodup) (hservice : ∀ d ∈ j.demands, 0 ≤ d.2) (r : ρ) :
    earliest (b.lanes r) ≤ earliest ((b.run j t).lanes r) := by
  rcases book_cases (b.start j) j.demands hn b.lanes r with he | ⟨s, hs, he⟩
  · exact (congrArg earliest he).ge
  · refine (earliest_le_occupy (hlanes r) ?_).trans (congrArg earliest he).ge
    exact (earliest_le_start hs).trans (le_add_of_nonneg_right (hservice _ hs))

end Board

/-! ## Schedules -/

/-- The jobs that wait, and the board. -/
structure Schedule (τ ρ T K : Type) where
  waiting : τ → Option (Job τ ρ T K)
  board : Board τ ρ T

namespace Schedule

variable (s : Schedule τ ρ T K) {t : τ} {j : Job τ ρ T K}

/-- More jobs wait. -/
def add (jobs : τ → Option (Job τ ρ T K)) : Schedule τ ρ T K := ⟨fun t => (jobs t).or (s.waiting t), s.board⟩

/-- The job waits, and all that it waits for has ended. -/
def Ready (t : τ) (j : Job τ ρ T K) : Prop := s.waiting t = some j ∧ s.board.Resolved j

variable [LinearOrder T] [AddCommGroup T]

/-- Of all that are ready, the job has the least key. -/
def Next [LinearOrder K] (t : τ) (j : Job τ ρ T K) : Prop := s.Ready t j ∧ ∀ t' j', s.Ready t' j' → s.board.key j ≤ s.board.key j'

/-- The job runs, and waits no more. -/
def take [DecidableEq τ] [DecidableEq ρ] (t : τ) (j : Job τ ρ T K) : Schedule τ ρ T K :=
  ⟨Function.update s.waiting t none, s.board.run j t⟩

variable {s}

/-- **What is ready after a job was taken starts no earlier than it did.** -/
theorem Next.start_le [LinearOrder K] [DecidableEq τ] [DecidableEq ρ] [IsOrderedAddMonoid T] (h : s.Next t j)
    (hlanes : ∀ r, s.board.lanes r ≠ []) (hn : (j.demands.map Prod.fst).Nodup) (hservice : ∀ d ∈ j.demands, 0 ≤ d.2)
    {t' : τ} {j' : Job τ ρ T K} (hready : (s.take t j).Ready t' j') : s.board.start j ≤ (s.take t j).board.start j' := by
  obtain ⟨hwaiting, hresolved⟩ := hready
  have hold : s.waiting t' = some j' := by
    change Function.update s.waiting t none t' = some j' at hwaiting
    by_cases ht : t' = t
    · rw [ht, Function.update_self] at hwaiting
      cases hwaiting
    · rwa [Function.update_of_ne ht] at hwaiting
  by_cases hdep : t ∈ j'.deps
  · -- it waited for the job that was taken
    have hend : (s.take t j).board.ended t = some (s.board.finish j) := Function.update_self _ _ _
    exact Board.start_le_finish.trans ((Board.ended_le_dependencyReady hdep hend).trans
      ((le_max_left _ _).trans Board.effectiveReady_le_start))
  · have hsame : ∀ d ∈ j'.deps, (s.take t j).board.ended d = s.board.ended d := fun d hd =>
      Function.update_of_ne (fun hdt : d = t => hdep (hdt ▸ hd)) _ _
    have hready : s.Ready t' j' := ⟨hold, fun d hd => (hresolved d hd).imp fun e he => (hsame d hd).symm.trans he⟩
    have hlater : ∀ r, earliest (s.board.lanes r) ≤ earliest ((s.take t j).board.lanes r) :=
      Board.earliest_le_run hlanes hn hservice
    exact Board.start_le_of_key_le ((h.2 t' j' hready).trans (Board.key_mono hlater hsame))

end Schedule

end HeteroSim.ListScheduling
