/-
What one step of a process does: to the soundness of its pass's files and of
where it stands, and to the claims. Files only grow, but for the claims.
-/
import HeteroSim.Windows.Shards

namespace HeteroSim.Windows

variable {R C : Type}

/-! ## Sound files and places -/

/-- A window was run to its end with this record. -/
def Files.Executed (f : Files R C) (position : ℕ) (record : Record C) : Prop :=
  ∃ run ∈ f.runs, run.position = position ∧ run.record = record

structure Files.Sound (f : Files R C) : Prop where
  runs : ∀ run ∈ f.runs, f.reservation = some run.reservation
  records : ∀ position record, f.records.get? position = some record → f.Executed position record
  collected : ∀ position record, (position, record) ∈ f.collected → f.Executed position record
  cancels : ∀ position ∈ f.cancels, ∃ l ∈ f.limits, l < (position : ℤ)

structure Grows (f f' : Files R C) : Prop where
  reservation : ∀ r, f.reservation = some r → f'.reservation = some r
  owners : f.owners ⊆ f'.owners
  records : f.records.keys ⊆ f'.records.keys
  limits : f.limits ⊆ f'.limits
  runs : f.runs ⊆ f'.runs

theorem Grows.refl (f : Files R C) : Grows f f := ⟨fun _ => id, fun _ => id, fun _ => id, fun _ => id, fun _ => id⟩

theorem Files.Executed.grows {f f' : Files R C} {position : ℕ} {record : Record C} (h : f.Executed position record)
    (hgrows : f.runs ⊆ f'.runs) : f'.Executed position record := by
  obtain ⟨run, hrun, h⟩ := h
  exact ⟨run, hgrows hrun, h⟩

/-- Claims are cancelled only past a limit that was set. -/
def StopAt.Sound (f : Files R C) (limit : ℤ) : StopAt → Prop
  | .limit => True
  | .list => limit ∈ f.limits
  | .cancel rest => limit ∈ f.limits ∧ ∀ position ∈ rest, limit < (position : ℤ)

def ExecuteAt.Sound (f : Files R C) (position : ℕ) : ExecuteAt C → Prop
  | .publish record => f.Executed position record
  | .stop next => next.Sound f position
  | _ => True

def CollectAt.Sound (f : Files R C) (position : ℕ) : CollectAt C → Prop
  | .publish record => f.Executed position record
  | .read => position ∈ f.records.keys
  | _ => True

/-- What a process relies on where it stands: in a pass, on its name and its pass's reservation. -/
def Phase.Sound (helper : Bool) (f : Files R C) (pid : ℕ) (reservation : R) : Phase C → Prop
  | .outside | .stopped | .begin .wait => True
  | .crashed => False
  | .begin (.stop next) => helper = false ∧ next.Sound f (-1)
  | .begin .publish => helper = false
  | .begin .load => f.reservation.isSome = true
  | .begin .name => f.reservation = some reservation
  | .window position next => pid ∈ f.owners ∧ f.reservation = some reservation ∧ next.Sound f position
  | .collect position next => pid ∈ f.owners ∧ f.reservation = some reservation ∧ next.Sound f position

theorem StopAt.Sound.grows {f f' : Files R C} {limit : ℤ} {next : StopAt} (h : next.Sound f limit) (hgrows : Grows f f') :
    next.Sound f' limit := by
  cases next with
  | limit => trivial
  | list => exact hgrows.limits h
  | cancel rest => exact ⟨hgrows.limits h.1, h.2⟩

theorem Phase.Sound.grows {helper : Bool} {f f' : Files R C} {pid : ℕ} {reservation : R} {phase : Phase C}
    (h : phase.Sound helper f pid reservation) (hgrows : Grows f f') : phase.Sound helper f' pid reservation := by
  cases phase with
  | outside | stopped => trivial
  | crashed => exact h
  | begin next =>
    cases next with
    | stop next => exact ⟨h.1, h.2.grows hgrows⟩
    | publish => exact h
    | wait => trivial
    | load =>
      obtain ⟨r, hr⟩ := Option.isSome_iff_exists.1 h
      exact Option.isSome_iff_exists.2 ⟨r, hgrows.reservation r hr⟩
    | name => exact hgrows.reservation _ h
  | window position next =>
    refine ⟨hgrows.owners h.1, hgrows.reservation _ h.2.1, ?_⟩
    cases next with
    | publish record => exact Files.Executed.grows h.2.2 hgrows.runs
    | stop next => exact StopAt.Sound.grows h.2.2 hgrows
    | limit | claim | check | unlink | execute | exceeded => trivial
  | collect position next =>
    refine ⟨hgrows.owners h.1, hgrows.reservation _ h.2.1, ?_⟩
    cases next with
    | publish record => exact Files.Executed.grows h.2.2 hgrows.runs
    | read => exact hgrows.records h.2.2
    | look | owner | alive | unlink | claim | execute => trivial

/-! ## What the operations keep -/

/-- A file operation past a pass's beginning: sound files stay sound and grow, under the same reservation. -/
structure Advances (f f' : Files R C) : Prop where
  sound : f.Sound → f'.Sound
  grows : Grows f f'
  reservation : f'.reservation = f.reservation

namespace Advances

variable (f : Files R C)

theorem refl : Advances f f := ⟨id, .refl f, rfl⟩

theorem claims (claims : Dict ℕ ℕ) : Advances f { f with claims := claims } :=
  ⟨fun h => ⟨h.runs, h.records, h.collected, h.cancels⟩, ⟨fun _ => id, fun _ => id, fun _ => id, fun _ => id, fun _ => id⟩, rfl⟩

theorem limit (limit : ℤ) : Advances f { f with limits := f.limits.insert limit } := by
  have hsub : f.limits ⊆ f.limits.insert limit := fun l hl => List.mem_insert_of_mem hl
  refine ⟨fun h => ⟨h.runs, h.records, h.collected, fun position hposition => ?_⟩,
    ⟨fun _ => id, fun _ => id, fun _ => id, hsub, fun _ => id⟩, rfl⟩
  obtain ⟨l, hl, hlt⟩ := h.cancels position hposition
  exact ⟨l, hsub hl, hlt⟩

variable {f}

theorem cancel {position : ℕ} (h : ∃ l ∈ f.limits, l < (position : ℤ)) :
    Advances f { f with cancels := f.cancels.insert position } := by
  refine ⟨fun hs => ⟨hs.runs, hs.records, hs.collected, fun p hp => ?_⟩,
    ⟨fun _ => id, fun _ => id, fun _ => id, fun _ => id, fun _ => id⟩, rfl⟩
  rcases List.mem_insert_iff.1 hp with rfl | hp
  · exact h
  · exact hs.cancels p hp

theorem publish {position : ℕ} {record : Record C} (h : f.Executed position record) :
    Advances f (f.publishRecord position record) := by
  refine ⟨fun hs => ⟨hs.runs, fun p r hr => ?_, hs.collected, hs.cancels⟩,
    ⟨fun _ => id, fun _ => id, fun p hp => Dict.mem_keys_insert.2 (.inr hp), fun _ => id, fun _ => id⟩, rfl⟩
  change (f.records.insert position record).get? p = some r at hr
  rw [Dict.get?_insert] at hr
  split at hr
  · next hp =>
    cases hr
    rw [hp]
    exact h
  · exact hs.records p r hr

theorem execute {position : ℕ} {reservation : R} (h : f.reservation = some reservation) (record : Record C) :
    Advances f (f.ran position reservation record) := by
  have hsub : f.runs ⊆ f.runs ++ [⟨position, reservation, record⟩] := List.subset_append_left _ _
  refine ⟨fun hs => ⟨fun run hrun => ?_, fun p r hr => (hs.records p r hr).grows hsub,
      fun p r hr => (hs.collected p r hr).grows hsub, hs.cancels⟩,
    ⟨fun _ => id, fun _ => id, fun _ => id, fun _ => id, hsub⟩, rfl⟩
  rcases List.mem_append.1 hrun with hrun | hrun
  · exact hs.runs run hrun
  · rw [List.mem_singleton.1 hrun]
    exact h

theorem collect {position : ℕ} {record : Record C} (h : f.Sound → f.Executed position record) :
    Advances f { f with collected := f.collected ++ [(position, record)] } := by
  refine ⟨fun hs => ⟨hs.runs, hs.records, fun p r hr => ?_, hs.cancels⟩,
    ⟨fun _ => id, fun _ => id, fun _ => id, fun _ => id, fun _ => id⟩, rfl⟩
  rcases List.mem_append.1 hr with hr | hr
  · exact hs.collected p r hr
  · cases List.mem_singleton.1 hr
    exact h hs

end Advances

theorem Files.ran_executed (f : Files R C) (position : ℕ) (reservation : R) (record : Record C) :
    (f.ran position reservation record).Executed position record :=
  ⟨⟨position, reservation, record⟩, List.mem_append_right _ (List.mem_singleton_self _), rfl, rfl⟩

theorem Files.link_ok {f f' : Files R C} {pid position : ℕ} (h : f.link pid position = .ok f') :
    position ∉ f.claims.keys ∧ f' = { f with claims := f.claims.insert position pid } := by
  unfold Files.link at h
  split at h
  · cases h
  · split at h
    · cases h
    · next hfree => exact ⟨hfree, (Except.ok.inj h).symm⟩

/-- A process that has written its name finds it. -/
theorem Files.link_found {f : Files R C} {pid position : ℕ} (howner : pid ∈ f.owners) :
    f.link pid position ≠ .error .fileNotFound := by
  unfold Files.link
  rw [if_neg (not_not.2 howner)]
  split <;> simp

theorem Files.unlinkClaim_ok {f f' : Files R C} {position : ℕ} (h : f.unlinkClaim position = .ok f') :
    f' = { f with claims := f.claims.erase position } := by
  unfold Files.unlinkClaim at h
  split at h
  · exact (Except.ok.inj h).symm
  · cases h

/-! ## `_stop_after` -/

theorem stopAfter_ok {limit : ℤ} {next : StopAt} {o : Outcome R C} {f f' : Files R C} {next' : Option StopAt}
    (h : stopAfter limit next o f = some (next', f')) (hnext : next.Sound f limit) :
    Advances f f' ∧ f'.claims = f.claims ∧ ∀ n, next' = some n → n.Sound f' limit := by
  unfold stopAfter at h
  split at h
  · cases h
    refine ⟨.limit f limit, rfl, fun n hn => ?_⟩
    cases hn
    exact List.mem_insert_self
  · cases h
    refine ⟨.refl f, rfl, fun n hn => ?_⟩
    cases hn
    exact ⟨hnext, fun position hposition => by simpa using (List.mem_filter.1 hposition).2⟩
  · next rest index =>
    split at h
    · next position hposition =>
      cases h
      have hmem := List.mem_of_getElem? hposition
      refine ⟨.cancel ⟨limit, hnext.1, hnext.2 position hmem⟩, rfl, fun n hn => ?_⟩
      cases hn
      exact ⟨hnext.1, fun q hq => hnext.2 q (List.mem_of_mem_eraseIdx hq)⟩
    · cases h
  · cases h
    exact ⟨.refl f, rfl, fun n hn => by cases hn⟩
  · cases h

/-! ## Claims -/

/-- The position whose claim a process has linked and not let go of. -/
def Phase.holds : Phase C → Option ℕ
  | .window position .check | .window position .unlink | .window position .execute | .window position (.publish _) =>
    some position
  | .collect position .execute | .collect position (.publish _) => some position
  | _ => none

/-- The position a process is executing. -/
def Phase.executes : Phase C → Option ℕ
  | .window position .execute => some position
  | .collect position .execute => some position
  | _ => none

theorem Phase.holds_of_executes {phase : Phase C} {position : ℕ} (h : phase.executes = some position) :
    phase.holds = some position := by
  unfold Phase.executes at h
  split at h
  · exact h
  · exact h
  · cases h

/-- What a step does to the claims and to the position that the process holds. -/
inductive Claiming (pid : ℕ) (before after : Phase C) (f f' : Files R C) : Prop
  | kept : f'.claims = f.claims → after.holds = before.holds ∨ after.holds = none → Claiming pid before after f f'
  | linked (position : ℕ) : position ∉ f.claims.keys → f'.claims = f.claims.insert position pid →
    after.holds = some position → Claiming pid before after f f'
  | released (position : ℕ) : before.holds = some position → f'.claims = f.claims.erase position →
    after.holds = none → Claiming pid before after f f'
  | cleared (position : ℕ) : before = .collect position .unlink → f'.claims = f.claims.erase position →
    after.holds = none → Claiming pid before after f f'

/-! ## `_execute` and `_collect` -/

section Steps

variable {helper : Bool} {pid position : ℕ} {reservation : R} {o : Outcome R C} {f f' : Files R C} {phase : Phase C}

theorem executeStep_ok {next : ExecuteAt C} (h : executeStep pid reservation position next o f = some (phase, f'))
    (hplace : (Phase.window position next).Sound helper f pid reservation)
    (hheld : ∀ q, (Phase.window position next).holds = some q → q ∈ f.claims.keys) :
    Advances f f' ∧ phase.Sound helper f' pid reservation ∧ Claiming pid (.window position next) phase f f' := by
  obtain ⟨howner, hreservation, hnext⟩ := hplace
  have hkept : ∀ q (n : ExecuteAt C), n.Sound f q → (Phase.window q n).Sound helper f pid reservation :=
    fun q n hn => ⟨howner, hreservation, hn⟩
  unfold executeStep at h
  split at h
  · cases h
    refine ⟨.refl f, ?_, .kept rfl ?_⟩
    · split
      · exact hkept _ _ trivial
      · exact hkept _ _ trivial
    · split
      · exact .inr rfl
      · exact .inr rfl
  · cases h
    exact ⟨.refl f, trivial, .kept rfl (.inr rfl)⟩
  · split at h
    · next hlink =>
      cases h
      obtain ⟨hfree, rfl⟩ := Files.link_ok hlink
      exact ⟨.claims f _, ⟨howner, hreservation, trivial⟩, .linked position hfree rfl rfl⟩
    · cases h
      exact ⟨.refl f, hkept _ _ trivial, .kept rfl (.inr rfl)⟩
    · next hlink => exact absurd hlink (Files.link_found howner)
  · cases h
    refine ⟨.refl f, ?_, .kept rfl ?_⟩
    · split
      · exact hkept _ _ trivial
      · exact hkept _ _ trivial
    · split
      · exact .inl rfl
      · exact .inl rfl
  · cases h
    exact ⟨.execute hreservation _, ⟨howner, hreservation, f.ran_executed _ _ _⟩, .kept rfl (.inl rfl)⟩
  · cases h
    exact ⟨.refl f, hkept _ _ trivial, .kept rfl (.inl rfl)⟩
  · cases h
    exact ⟨.refl f, trivial, .kept rfl (.inr rfl)⟩
  · have hpresent := hheld position rfl
    split at h
    · next hunlink =>
      cases h
      rw [Files.unlinkClaim_ok hunlink]
      exact ⟨.claims f _, ⟨howner, hreservation, trivial⟩, .released position rfl rfl rfl⟩
    · next hunlink =>
      unfold Files.unlinkClaim at hunlink
      rw [if_pos hpresent] at hunlink
      cases hunlink
  · cases h
    exact ⟨.publish hnext, ⟨howner, hreservation, trivial⟩, .kept rfl (.inr rfl)⟩
  · cases h
    exact ⟨.refl f, hkept _ _ trivial, .kept rfl (.inr rfl)⟩
  · cases h
    exact ⟨.refl f, hkept _ _ trivial, .kept rfl (.inr rfl)⟩
  · split at h
    · next hstop =>
      cases h
      obtain ⟨hadvance, hclaims, hsound⟩ := stopAfter_ok hstop hnext
      exact ⟨hadvance, ⟨hadvance.grows.owners howner, hadvance.reservation.trans hreservation, hsound _ rfl⟩,
        .kept hclaims (.inr rfl)⟩
    · next hstop =>
      cases h
      obtain ⟨hadvance, hclaims, -⟩ := stopAfter_ok hstop hnext
      exact ⟨hadvance, ⟨hadvance.grows.owners howner, hadvance.reservation.trans hreservation, trivial⟩,
        .kept hclaims (.inr rfl)⟩
    · cases h
  · cases h

theorem collectStep_ok {live : ℕ → Bool} {sampleId : ℕ → String} {next : CollectAt C}
    (h : collectStep live sampleId pid reservation position next o f = some (phase, f'))
    (hplace : (Phase.collect position next).Sound helper f pid reservation) :
    Advances f f' ∧ phase.Sound helper f' pid reservation ∧ Claiming pid (.collect position next) phase f f' := by
  obtain ⟨howner, hreservation, hnext⟩ := hplace
  have hkept : ∀ q (n : CollectAt C), n.Sound f q → (Phase.collect q n).Sound helper f pid reservation :=
    fun q n hn => ⟨howner, hreservation, hn⟩
  unfold collectStep at h
  split at h
  · cases h
    refine ⟨.refl f, ?_, .kept rfl ?_⟩
    · split
      · next hrecord => exact hkept _ _ hrecord
      · exact hkept _ _ trivial
    · split
      · exact .inr rfl
      · exact .inr rfl
  · cases h
    exact ⟨.refl f, trivial, .kept rfl (.inr rfl)⟩
  · cases h
    exact ⟨.refl f, trivial, .kept rfl (.inr rfl)⟩
  · split at h
    · cases h
      exact ⟨.refl f, hkept _ _ trivial, .kept rfl (.inr rfl)⟩
    · cases h
      exact ⟨.refl f, hkept _ _ trivial, .kept rfl (.inr rfl)⟩
  · cases h
    refine ⟨.refl f, ?_, .kept rfl ?_⟩
    · split
      · exact hkept _ _ trivial
      · exact hkept _ _ trivial
    · split
      · exact .inr rfl
      · exact .inr rfl
  · cases h
    exact ⟨.claims f _, ⟨howner, hreservation, trivial⟩, .cleared position rfl rfl rfl⟩
  · split at h
    · next hlink =>
      cases h
      obtain ⟨hfree, rfl⟩ := Files.link_ok hlink
      exact ⟨.claims f _, ⟨howner, hreservation, trivial⟩, .linked position hfree rfl rfl⟩
    · cases h
      exact ⟨.refl f, hkept _ _ trivial, .kept rfl (.inr rfl)⟩
    · next hlink => exact absurd hlink (Files.link_found howner)
  · cases h
    exact ⟨.execute hreservation _, ⟨howner, hreservation, f.ran_executed _ _ _⟩, .kept rfl (.inl rfl)⟩
  · cases h
    exact ⟨.refl f, trivial, .kept rfl (.inr rfl)⟩
  · cases h
    exact ⟨.publish hnext, ⟨howner, hreservation, trivial⟩, .kept rfl (.inr rfl)⟩
  · split at h
    · next hnone => exact absurd hnext (Dict.get?_eq_none.1 hnone)
    · next record hrecord =>
      split at h
      · cases h
        exact ⟨.refl f, trivial, .kept rfl (.inr rfl)⟩
      · cases h
        exact ⟨.collect fun hs => hs.records position record hrecord, ⟨howner, hreservation, trivial⟩, .kept rfl (.inr rfl)⟩
  · cases h

/-! ## One step of a process -/

/-- What a step gives: it stays in its pass, or goes on to a pass that it knows nothing of. -/
structure Stepped (helper : Bool) (pid : ℕ) (p p' : Process R C) (f f' : Files R C) : Prop where
  sound : f.Sound → f'.Sound
  grows : Grows f f'
  reservation : f'.reservation = f.reservation ∨ p.phase = .begin .publish ∧ helper = false
  claiming : Claiming pid p.phase p'.phase f f'
  place : p'.passes = p.passes ∧ p'.phase.Sound helper f' pid p'.prepared ∧ p'.phase ≠ .begin .publish ∨
    p'.passes = p.passes + 1 ∧ p'.phase.holds = none ∧ ∀ g, p'.phase.Sound helper g pid p'.prepared

theorem Stepped.of_advances {p p' : Process R C} (h : Advances f f') (hclaims : Claiming pid p.phase p'.phase f f')
    (hplace : p'.passes = p.passes ∧ p'.phase.Sound helper f' pid p'.prepared ∧ p'.phase ≠ .begin .publish ∨
      p'.passes = p.passes + 1 ∧ p'.phase.holds = none ∧ ∀ g, p'.phase.Sound helper g pid p'.prepared) :
    Stepped helper pid p p' f f' :=
  ⟨h.sound, h.grows, .inl h.reservation, hclaims, hplace⟩

theorem publish_grows (hnone : f.reservation = none) : Grows f { f with reservation := some reservation } :=
  ⟨fun r hr => (by rw [hnone] at hr; cases hr), fun _ => id, fun _ => id, fun _ => id, fun _ => id⟩

theorem publish_sound (hnone : f.reservation = none) (hf : f.Sound) :
    ({ f with reservation := some reservation } : Files R C).Sound := by
  refine ⟨fun run hrun => ?_, hf.records, hf.collected, hf.cancels⟩
  have hrun := hf.runs run hrun
  rw [hnone] at hrun
  cases hrun

theorem name_advances (f : Files R C) (pid : ℕ) : Advances f { f with owners := f.owners.insert pid } :=
  ⟨fun h => ⟨h.runs, h.records, h.collected, h.cancels⟩,
    ⟨fun _ => id, fun _ hp => List.mem_insert_of_mem hp, fun _ => id, fun _ => id, fun _ => id⟩, rfl⟩

theorem executeStep_not_begin {next : ExecuteAt C} (h : executeStep pid reservation position next o f = some (phase, f')) :
    phase ≠ .begin .publish := by
  rintro rfl
  unfold executeStep at h
  split at h
  · split at h <;> cases h
  all_goals first | cases h | (split at h <;> cases h)

theorem collectStep_not_begin {live : ℕ → Bool} {sampleId : ℕ → String} {next : CollectAt C}
    (h : collectStep live sampleId pid reservation position next o f = some (phase, f')) : phase ≠ .begin .publish := by
  rintro rfl
  unfold collectStep at h
  split at h
  all_goals first | cases h | (split at h <;> first | cases h | (split at h <;> cases h))

theorem Process.step_ok {live : ℕ → Bool} {sampleId : ℕ → String} {p p' : Process R C}
    (h : p.step helper live sampleId pid o f = some (p', f')) (hplace : p.phase.Sound helper f pid p.prepared)
    (hheld : ∀ q, p.phase.holds = some q → q ∈ f.claims.keys)
    (hfresh : p.phase = .begin .publish → f.reservation = none) : Stepped helper pid p p' f f' := by
  obtain ⟨phase, passes, prepared⟩ := p
  simp only at hplace hheld hfresh
  unfold Process.step at h
  simp only at h
  split at h
  -- a helper's next pass
  · split at h
    · cases h
      exact .of_advances (.refl f) (.kept rfl (.inr rfl)) (.inr ⟨rfl, rfl, fun _ => trivial⟩)
    · cases h
  -- the primary's sample
  · split at h
    · cases h
    · next hhelper =>
      have hhelper : helper = false := by simpa using hhelper
      split at h
      · next hzero =>
        cases h
        exact .of_advances (.refl f) (.kept rfl (.inr rfl)) (.inr ⟨by simp [hzero], rfl, fun _ => hhelper⟩)
      · cases h
        exact .of_advances (.refl f) (.kept rfl (.inr rfl)) (.inl ⟨rfl, ⟨hhelper, trivial⟩, by simp⟩)
  · split at h
    · next hstop =>
      cases h
      obtain ⟨hadvance, hclaims, hsound⟩ := stopAfter_ok hstop hplace.2
      exact .of_advances hadvance (.kept hclaims (.inr rfl)) (.inl ⟨rfl, ⟨hplace.1, hsound _ rfl⟩, by simp⟩)
    · next hstop =>
      cases h
      obtain ⟨hadvance, hclaims, -⟩ := stopAfter_ok hstop hplace.2
      exact .of_advances hadvance (.kept hclaims (.inr rfl)) (.inr ⟨rfl, rfl, fun _ => hplace.1⟩)
    · cases h
  · cases h
    have hnone := hfresh rfl
    exact ⟨publish_sound hnone, publish_grows hnone, .inr ⟨rfl, hplace⟩, .kept rfl (.inr rfl), .inl ⟨rfl, rfl, by simp⟩⟩
  · split at h
    · next hpublished =>
      cases h
      exact .of_advances (.refl f) (.kept rfl (.inr rfl)) (.inl ⟨rfl, hpublished, by simp⟩)
    · cases h
  · cases h
    exact .of_advances (.refl f) (.kept rfl (.inr rfl)) (.inl ⟨rfl, trivial, by simp⟩)
  · split at h
    · next r hr =>
      cases h
      exact .of_advances (.refl f) (.kept rfl (.inr rfl)) (.inl ⟨rfl, hr, by simp⟩)
    · next hnone =>
      change f.reservation.isSome = true at hplace
      rw [hnone] at hplace
      cases hplace
  · cases h
    exact .of_advances (name_advances f pid) (.kept rfl (.inr rfl))
      (.inl ⟨rfl, ⟨List.mem_insert_self, hplace, trivial⟩, by simp⟩)
  -- the end of the list
  · cases h
    refine .of_advances (.refl f) (.kept rfl (.inr ?_)) (.inl ⟨rfl, ?_, ?_⟩)
    · cases helper <;> rfl
    · cases helper with
      | false => exact ⟨hplace.1, hplace.2.1, trivial⟩
      | true => trivial
    · cases helper <;> simp
  · split at h
    · cases h
    · cases h
      exact .of_advances (.refl f) (.kept rfl (.inr rfl)) (.inl ⟨rfl, trivial, by simp⟩)
  · obtain ⟨r, hr, h⟩ := Option.map_eq_some_iff.1 h
    cases h
    obtain ⟨hadvance, hsound, hclaiming⟩ := executeStep_ok hr hplace hheld
    exact .of_advances hadvance hclaiming (.inl ⟨rfl, hsound, executeStep_not_begin hr⟩)
  · obtain ⟨r, hr, h⟩ := Option.map_eq_some_iff.1 h
    cases h
    obtain ⟨hadvance, hsound, hclaiming⟩ := collectStep_ok hr hplace
    exact .of_advances hadvance hclaiming (.inl ⟨rfl, hsound, collectStep_not_begin hr⟩)
  · cases h

end Steps

end HeteroSim.Windows
