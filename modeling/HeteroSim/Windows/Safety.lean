/-
The shared windows over every interleaving. A claim that is removed is one
that nobody alive still holds: owners remove their own, and the primary's
removal of a dead owner's claim does so as long as no other process linked
the claim between the primary's reading of the owner and its removal. Along
runs that keep to this, the four guarantees hold. Without it they do not: a
run is shown in which two live processes execute one window, and one in which
a process finds its claim gone.
-/
import HeteroSim.Windows.Steps

namespace HeteroSim.Windows

variable {R C : Type} {primary : ℕ} {sampleId : ℕ → String} {s s' : System R C}

/-- No live process holds the claim that `pid` is about to remove as a dead owner's. -/
def Spares (s : System R C) (pid : ℕ) : Prop :=
  ∀ position, (s.processes pid).phase = .collect position .unlink →
    ∀ j, s.alive j = true → (s.processes j).passes = (s.processes pid).passes →
      (s.processes j).phase.holds ≠ some position

/-- A step of the system. -/
def Steps (primary : ℕ) (sampleId : ℕ → String) (s : System R C) (e : Event R C) (s' : System R C) : Prop :=
  s.next primary sampleId e = some s'

/-- A step that removes no claim of a live holder. -/
def CarefulSteps (primary : ℕ) (sampleId : ℕ → String) (s : System R C) (e : Event R C) (s' : System R C) : Prop :=
  Steps primary sampleId s e s' ∧ ∀ pid o, e = .step pid o → Spares s pid

/-- What careful runs keep. -/
structure Safe (primary : ℕ) (s : System R C) : Prop where
  files : ∀ k, (s.files k).Sound
  places : ∀ j, (s.processes j).phase.Sound (j ≠ primary) (s.files (s.processes j).passes) j (s.processes j).prepared
  claims : ∀ j position, s.alive j = true → (s.processes j).phase.holds = some position →
    (s.files (s.processes j).passes).claims.get? position = some j
  later : ∀ k, (s.processes primary).passes < k → (s.files k).reservation = none
  unpublished : (s.processes primary).phase = .begin .publish →
    (s.files (s.processes primary).passes).reservation = none

theorem Safe.starts (h : Starts s) : Safe primary s where
  files := by
    intro k
    rw [h.2 k]
    exact ⟨by simp [Files.empty], by simp [Files.empty], by simp [Files.empty], by simp [Files.empty]⟩
  places := by
    intro j
    rw [(h.1 j).1]
    trivial
  claims := by
    intro j position _ hholds
    rw [(h.1 j).1] at hholds
    cases hholds
  later := by
    intro k _
    rw [h.2 k]
    rfl
  unpublished := by
    intro hphase
    rw [(h.1 primary).1] at hphase
    cases hphase

theorem Safe.die (h : Safe primary s) (pid : ℕ) : Safe primary { s with alive := Function.update s.alive pid false } where
  files := h.files
  places := h.places
  claims := by
    intro j position halive
    refine h.claims j position ?_
    by_cases hj : j = pid
    · subst hj
      simp at halive
    · simpa [hj] using halive
  later := h.later
  unpublished := h.unpublished

/-! ## One process's step -/

section Step

variable {pid : ℕ} {p' : Process R C} {f' : Files R C}

/-- The system behind a step of `pid`. -/
def System.stepped (s : System R C) (pid : ℕ) (p' : Process R C) (f' : Files R C) : System R C :=
  { s with
    processes := Function.update s.processes pid p'
    files := Function.update s.files (s.processes pid).passes f' }

@[simp] theorem stepped_self : (s.stepped pid p' f').processes pid = p' := Function.update_self ..

theorem stepped_other {j : ℕ} (h : j ≠ pid) : (s.stepped pid p' f').processes j = s.processes j :=
  Function.update_of_ne h ..

@[simp] theorem stepped_alive : (s.stepped pid p' f').alive = s.alive := rfl

@[simp] theorem stepped_files_self : (s.stepped pid p' f').files (s.processes pid).passes = f' := Function.update_self ..

theorem stepped_files_other {k : ℕ} (h : k ≠ (s.processes pid).passes) : (s.stepped pid p' f').files k = s.files k :=
  Function.update_of_ne h ..

/-- What a live process's step does to its own pass and place. -/
theorem Safe.stepOf {o : Outcome R C} (h : Safe primary s) (halive : s.alive pid = true)
    (hstep : (s.processes pid).step (pid ≠ primary) s.alive sampleId pid o (s.files (s.processes pid).passes) = some (p', f')) :
    Stepped (pid ≠ primary) pid (s.processes pid) p' (s.files (s.processes pid).passes) f' := by
  have hheld : ∀ q, (s.processes pid).phase.holds = some q → q ∈ (s.files (s.processes pid).passes).claims.keys :=
    fun q hq => Dict.mem_keys_of_get? (h.claims pid q halive hq)
  have hfresh : (s.processes pid).phase = .begin .publish → (s.files (s.processes pid).passes).reservation = none := by
    intro hphase
    have hprimary : pid = primary := by
      have hplace := h.places pid
      rw [hphase] at hplace
      simpa [Phase.Sound] using hplace
    rw [hprimary] at hphase ⊢
    exact h.unpublished hphase
  exact Process.step_ok hstep (h.places pid) hheld hfresh

variable (hstepped : Stepped (pid ≠ primary) pid (s.processes pid) p' (s.files (s.processes pid).passes) f')

include hstepped

theorem Stepped.files_grow (k : ℕ) : Grows (s.files k) ((s.stepped pid p' f').files k) := by
  by_cases hk : k = (s.processes pid).passes
  · subst hk
    rw [stepped_files_self]
    exact hstepped.grows
  · rw [stepped_files_other hk]
    exact .refl _

/-- Only the primary's publication changes a pass's reservation. -/
theorem Stepped.reservation_kept (k : ℕ) (h : ¬((s.processes pid).phase = .begin .publish ∧ pid = primary)) :
    ((s.stepped pid p' f').files k).reservation = (s.files k).reservation := by
  by_cases hk : k = (s.processes pid).passes
  · subst hk
    rw [stepped_files_self]
    rcases hstepped.reservation with hsame | ⟨hphase, hhelper⟩
    · exact hsame
    · exact absurd ⟨hphase, by simpa using hhelper⟩ h
  · rw [stepped_files_other hk]

/-- The claims of the others' positions stay theirs. -/
theorem Stepped.others_claim (h : Safe primary s) (halive : s.alive pid = true) (hspares : Spares s pid) {j position : ℕ}
    (hne : j ≠ pid) (hlive : s.alive j = true) (hholds : (s.processes j).phase.holds = some position) :
    ((s.stepped pid p' f').files (s.processes j).passes).claims.get? position = some j := by
  have hclaim := h.claims j position hlive hholds
  by_cases hk : (s.processes j).passes = (s.processes pid).passes
  · rw [hk, stepped_files_self]
    rw [hk] at hclaim
    cases hstepped.claiming with
    | kept hsame => rwa [hsame]
    | linked q hfree hclaims =>
      have hq : position ≠ q := by
        rintro rfl
        exact hfree (Dict.mem_keys_of_get? hclaim)
      rwa [hclaims, Dict.get?_insert_of_ne _ _ hq]
    | released q hown hclaims =>
      have hq : position ≠ q := by
        rintro rfl
        have := h.claims pid position halive hown
        rw [hclaim, Option.some.injEq] at this
        exact hne this
      rwa [hclaims, Dict.get?_erase_of_ne _ hq]
    | cleared q hphase hclaims =>
      have hq : position ≠ q := by
        rintro rfl
        exact hspares position hphase j hlive hk hholds
      rwa [hclaims, Dict.get?_erase_of_ne _ hq]
  · rw [stepped_files_other hk]
    exact hclaim

/-- What the process holds behind its step, it has the claim of. -/
theorem Stepped.own_claim (h : Safe primary s) (halive : s.alive pid = true) {position : ℕ}
    (hholds : p'.phase.holds = some position) : ((s.stepped pid p' f').files p'.passes).claims.get? position = some pid := by
  have hpass : p'.passes = (s.processes pid).passes := by
    rcases hstepped.place with ⟨hpass, -, -⟩ | ⟨-, hnone, -⟩
    · exact hpass
    · rw [hnone] at hholds
      cases hholds
  rw [hpass, stepped_files_self]
  cases hstepped.claiming with
  | kept hsame hkept =>
    rw [hsame]
    rcases hkept with hkept | hkept
    · exact h.claims pid position halive (hkept.symm.trans hholds)
    · rw [hkept] at hholds
      cases hholds
  | linked q hfree hclaims hafter =>
    rw [hafter, Option.some.injEq] at hholds
    rw [hclaims, hholds, Dict.get?_insert_self]
  | released q _ _ hafter =>
    rw [hafter] at hholds
    cases hholds
  | cleared q _ _ hafter =>
    rw [hafter] at hholds
    cases hholds

theorem Safe.stepped (h : Safe primary s) (halive : s.alive pid = true) (hspares : Spares s pid) :
    Safe primary (s.stepped pid p' f') := by
  refine ⟨fun k => ?_, fun j => ?_, fun j position hlive hholds => ?_, fun k hk => ?_, fun hphase => ?_⟩
  · by_cases hk : k = (s.processes pid).passes
    · subst hk
      rw [stepped_files_self]
      exact hstepped.sound (h.files _)
    · rw [stepped_files_other hk]
      exact h.files k
  · by_cases hj : j = pid
    · subst hj
      rw [stepped_self]
      rcases hstepped.place with ⟨hpass, hplace, -⟩ | ⟨-, -, hplace⟩
      · rw [hpass, stepped_files_self]
        exact hplace
      · exact hplace _
    · rw [stepped_other hj]
      exact (h.places j).grows (hstepped.files_grow _)
  · by_cases hj : j = pid
    · subst hj
      rw [stepped_self] at hholds ⊢
      exact hstepped.own_claim h halive hholds
    · rw [stepped_other hj] at hholds ⊢
      exact hstepped.others_claim h halive hspares hj hlive hholds
  · by_cases hprimary : pid = primary
    · subst hprimary
      rw [stepped_self] at hk
      have hlt : (s.processes pid).passes < k := by
        rcases hstepped.place with ⟨hpass, -⟩ | ⟨hpass, -⟩ <;> omega
      rw [stepped_files_other hlt.ne']
      exact h.later k hlt
    · rw [stepped_other (Ne.symm hprimary)] at hk
      rw [hstepped.reservation_kept k fun hboth => hprimary hboth.2]
      exact h.later k hk
  · by_cases hprimary : pid = primary
    · subst hprimary
      rw [stepped_self] at hphase ⊢
      rcases hstepped.place with ⟨-, -, hnot⟩ | ⟨hpass, -, -⟩
      · exact absurd hphase hnot
      · rw [hpass, stepped_files_other (by omega)]
        exact h.later _ (by omega)
    · rw [stepped_other (Ne.symm hprimary)] at hphase ⊢
      rw [hstepped.reservation_kept _ fun hboth => hprimary hboth.2]
      exact h.unpublished hphase

end Step

theorem Safe.next {e : Event R C} (h : Safe primary s) (hstep : CarefulSteps primary sampleId s e s') : Safe primary s' := by
  obtain ⟨hnext, hspares⟩ := hstep
  cases e with
  | step pid o =>
    unfold Steps System.next at hnext
    simp only at hnext
    split at hnext
    · next halive =>
      obtain ⟨r, hr, hnext⟩ := Option.map_eq_some_iff.1 hnext
      cases hnext
      exact Safe.stepped (h.stepOf halive hr) h halive (hspares pid o rfl)
    · cases hnext
  | die pid =>
    cases hnext
    exact h.die pid

/-! ## The guarantees -/

/-- The guarantees of the shared windows, in one state. -/
structure Guaranteed (s : System R C) : Prop where
  /-- What the primary collected of a pass was executed at its position, under the pass's reservation. -/
  collected : ∀ k position record, (position, record) ∈ (s.files k).collected → ∃ run ∈ (s.files k).runs,
    run.position = position ∧ run.record = record ∧ (s.files k).reservation = some run.reservation
  /-- Only windows past the smallest limit are cancelled. -/
  cancelled : ∀ k, ∀ position ∈ (s.files k).cancels, ∃ limit, (s.files k).limit = some limit ∧ limit < (position : ℤ)
  /-- One live process at most executes a position of a pass. -/
  alone : ∀ i j position, s.alive i = true → s.alive j = true → (s.processes i).passes = (s.processes j).passes →
    (s.processes i).phase.executes = some position → (s.processes j).phase.executes = some position → i = j
  /-- No process stopped at a file that another one had removed. -/
  uncrashed : ∀ j, (s.processes j).phase ≠ .crashed

theorem Safe.guaranteed (h : Safe primary s) : Guaranteed s where
  collected := by
    intro k position record hmem
    obtain ⟨run, hrun, hposition, hrecord⟩ := (h.files k).collected position record hmem
    exact ⟨run, hrun, hposition, hrecord, (h.files k).runs run hrun⟩
  cancelled := by
    intro k position hmem
    obtain ⟨l, hl, hlt⟩ := (h.files k).cancels position hmem
    obtain ⟨m, hm⟩ : ∃ m, (s.files k).limits.min? = some m := by
      rw [← Option.isSome_iff_exists, List.isSome_min?_iff]
      exact List.ne_nil_of_mem hl
    exact ⟨m, hm, lt_of_le_of_lt ((List.min?_eq_some_iff.1 hm).2 l hl) hlt⟩
  alone := by
    intro i j position hi hj hpass hexecutes hexecutes'
    have hclaim := h.claims i position hi (Phase.holds_of_executes hexecutes)
    have hclaim' := h.claims j position hj (Phase.holds_of_executes hexecutes')
    rw [hpass, hclaim', Option.some.injEq] at hclaim
    exact hclaim.symm
  uncrashed := by
    intro j hcrashed
    have hplace := h.places j
    rw [hcrashed] at hplace
    exact hplace

/-- **Shared windows are safe** along every run that removes no claim of a live holder. -/
theorem windows_safe (h : Reached (CarefulSteps primary sampleId) Starts s) : Guaranteed s :=
  Safe.guaranteed (Reached.keeps h (fun _ => Safe.starts) fun _ _ _ hs => hs.next)

/-! ## Runs -/

/-- Whether an event is the removal of a dead owner's claim. -/
def System.clears (s : System R C) : Event R C → Bool
  | .step pid _ => match (s.processes pid).phase with
    | .collect _ .unlink => true
    | _ => false
  | .die _ => false

/-- The system behind a list of events, if each of them can happen. -/
def System.play (primary : ℕ) (sampleId : ℕ → String) (s : System R C) : List (Event R C) → Option (System R C)
  | [] => some s
  | e :: events => (s.next primary sampleId e).bind fun t => t.play primary sampleId events

/-- As `play`, if no dead owner's claim is removed. -/
def System.playKeeping (primary : ℕ) (sampleId : ℕ → String) (s : System R C) : List (Event R C) → Option (System R C)
  | [] => some s
  | e :: events => if s.clears e then none
    else (s.next primary sampleId e).bind fun t => t.playKeeping primary sampleId events

theorem System.play_run : ∀ {events : List (Event R C)} {s t : System R C},
    s.play primary sampleId events = some t → Run (Steps primary sampleId) s events t
  | [], s, t, h => by
    cases h
    exact .nil s
  | e :: events, s, t, h => by
    obtain ⟨u, hu, ht⟩ := Option.bind_eq_some_iff.1 h
    exact .cons hu (play_run ht)

theorem System.playKeeping_run : ∀ {events : List (Event R C)} {s t : System R C},
    s.playKeeping primary sampleId events = some t → Run (CarefulSteps primary sampleId) s events t
  | [], s, t, h => by
    cases h
    exact .nil s
  | e :: events, s, t, h => by
    rw [System.playKeeping] at h
    split at h
    · cases h
    · next hclears =>
      obtain ⟨u, hu, ht⟩ := Option.bind_eq_some_iff.1 h
      refine .cons ⟨hu, fun pid o he position hphase => ?_⟩ (playKeeping_run ht)
      rw [he, System.clears, hphase] at hclears
      exact absurd rfl hclears

/-- Everyone is alive and outside. -/
def together : System Unit Unit := ⟨fun _ => ⟨.outside, 0, ()⟩, fun _ => true, fun _ => .empty⟩

theorem together_starts : Starts together := ⟨fun _ => ⟨rfl, rfl⟩, fun _ => rfl⟩

/-- Every window's record has one name. -/
def oneName : ℕ → String := fun _ => "window"

/-- A process's next steps, each only its file operation. -/
def goes (pid n : ℕ) : List (Event Unit Unit) := List.replicate n (.step pid .go)

/-- The primary, 0, executes and collects the only window. -/
def oneWindow : List (Event Unit Unit) :=
  .step 0 (.start ()) :: goes 0 5 ++ .step 0 (.done ⟨"window", ()⟩) :: goes 0 2 ++ .step 0 .finish :: goes 0 2

theorem windows_safe_oneWindow : ∃ s : System Unit Unit, Reached (CarefulSteps 0 oneName) Starts s ∧
    (s.files 1).collected = [(0, ⟨"window", ()⟩)] ∧ Guaranteed s := by
  have hsome : (together.playKeeping 0 oneName oneWindow).map (fun s => (s.files 1).collected) =
      some [(0, ⟨"window", ()⟩)] := by decide +kernel
  obtain ⟨s, hplay, hcollected⟩ := Option.map_eq_some_iff.1 hsome
  have hreached : Reached (CarefulSteps 0 oneName) Starts s := ⟨together, _, together_starts, System.playKeeping_run hplay⟩
  exact ⟨s, hreached, hcollected, windows_safe hreached⟩

/-! ## A claim taken from a live holder -/

/-- Helper 1 has window 0 when the primary asks for its owner; then the window fails, and the helper dies. -/
def ownerGone : List (Event Unit Unit) :=
  .step 0 (.start ()) :: goes 0 2 ++ goes 1 7 ++ goes 0 2 ++ .step 0 .finish :: goes 0 2 ++
    .step 1 .fail :: goes 1 1 ++ [.die 1]

/-- Helper 2 links the claim before the primary removes it as helper 1's, and both execute the window. -/
def executedTwice : List (Event Unit Unit) := ownerGone ++ goes 2 7 ++ goes 0 3

/-- As before, but helper 2's window fails before the primary links the claim. -/
def claimGone : List (Event Unit Unit) := ownerGone ++ goes 2 7 ++ goes 0 2 ++ .step 2 .fail :: goes 2 1

/-- Processes 0 and 2 are alive in one pass and execute its window 0. -/
def bothExecute (s : System Unit Unit) : Bool :=
  s.alive 0 && s.alive 2 && (s.processes 0).passes = (s.processes 2).passes &&
    (s.processes 0).phase.executes = some 0 && (s.processes 2).phase.executes = some 0

def Phase.isCrashed : Phase Unit → Bool
  | .crashed => true
  | _ => false

/-- **The primary may take a live holder's claim**: then two live processes execute one window of a pass,
or the holder stops at the claim that it does not find. -/
theorem claim_taken : (∃ s : System Unit Unit, Reached (Steps 0 oneName) Starts s ∧ s.alive 0 = true ∧ s.alive 2 = true ∧
      (s.processes 0).passes = (s.processes 2).passes ∧
      (s.processes 0).phase.executes = some 0 ∧ (s.processes 2).phase.executes = some 0) ∧
    ∃ s : System Unit Unit, Reached (Steps 0 oneName) Starts s ∧ (s.processes 2).phase = .crashed := by
  constructor
  · have hsome : (together.play 0 oneName executedTwice).map bothExecute = some true := by decide +kernel
    obtain ⟨s, hplay, hs⟩ := Option.map_eq_some_iff.1 hsome
    simp only [bothExecute, Bool.and_eq_true, decide_eq_true_eq, and_assoc] at hs
    exact ⟨s, ⟨together, _, together_starts, System.play_run hplay⟩, hs⟩
  · have hsome : (together.play 0 oneName claimGone).map (fun s => (s.processes 2).phase.isCrashed) = some true := by
      decide +kernel
    obtain ⟨s, hplay, hs⟩ := Option.map_eq_some_iff.1 hsome
    refine ⟨s, ⟨together, _, together_starts, System.play_run hplay⟩, ?_⟩
    cases hphase : (s.processes 2).phase with
    | crashed => rfl
    | outside | begin | window | collect | stopped =>
      rw [hphase] at hs
      cases hs

end HeteroSim.Windows
