/-
Bounded calendars: a queue keeps the ends of what it holds, and a newcomer
that finds a queue full waits for the first of its ends. Passing over the
queues once finds the least time at which all of them have room, and a queue
never holds more than its limit.
-/
import Mathlib

namespace HeteroSim.Credits

variable {α : Type} [LinearOrder α]

/-! ## One calendar -/

/-- The ends after `t`. -/
def live (t : α) (calendar : List α) : List α := calendar.filter fun stop => decide (t < stop)

/-- A full calendar delays to the first of its ends. -/
def delay (limit : ℕ) (ready : α) (calendar : List α) : α :=
  if limit ≤ (live ready calendar).length then max ready ((live ready calendar).min?.getD ready) else ready

theorem mem_live {t stop : α} {calendar : List α} : stop ∈ live t calendar ↔ stop ∈ calendar ∧ t < stop := by
  rw [live, List.mem_filter, decide_eq_true_eq]

theorem live_append (t : α) (l r : List α) : live t (l ++ r) = live t l ++ live t r := List.filter_append ..

theorem live_live {t u : α} (h : t ≤ u) (calendar : List α) : live u (live t calendar) = live u calendar := by
  rw [live, live, live, List.filter_filter]
  refine List.filter_congr fun stop _ => ?_
  by_cases hu : u < stop
  · simp [hu, h.trans_lt hu]
  · simp [hu]

theorem length_live_le {t u : α} (h : t ≤ u) (calendar : List α) : (live u calendar).length ≤ (live t calendar).length := by
  rw [← live_live h]
  exact List.length_filter_le _ _

variable {limit : ℕ} {ready : α} {calendar : List α}

theorem le_delay : ready ≤ delay limit ready calendar := by
  unfold delay
  split
  · exact le_max_left _ _
  · exact le_rfl

/-- Before the delay is over the calendar is full. -/
theorem full_before_delay {t : α} (hready : ready ≤ t) (ht : t < delay limit ready calendar) :
    limit ≤ (live t calendar).length := by
  unfold delay at ht
  split at ht
  · next hfull =>
    -- nothing ends before the first end
    have hsame : live t calendar = live ready calendar := by
      rw [← live_live hready]
      refine List.filter_eq_self.2 fun stop hstop => decide_eq_true ?_
      cases hmin : (live ready calendar).min? with
      | none =>
        rw [List.min?_eq_none_iff.1 hmin] at hstop
        cases hstop
      | some first =>
        rw [hmin, Option.getD_some, lt_max_iff] at ht
        have hfirst : first ≤ stop := (List.min?_eq_some_iff.1 hmin).2 stop hstop
        exact (ht.resolve_left (not_lt.2 hready)).trans_le hfirst
    rw [hsame]
    exact hfull
  · exact absurd ht (not_lt.2 hready)

/-- After the delay there is room, if the calendar was not over its limit. -/
theorem room_after_delay (hlimit : 0 < limit) (hle : (live ready calendar).length ≤ limit) :
    (live (delay limit ready calendar) calendar).length < limit := by
  unfold delay
  split
  · next hfull =>
    have hne : live ready calendar ≠ [] := by
      intro hnil
      rw [hnil] at hfull
      exact absurd hfull (Nat.not_le.2 hlimit)
    obtain ⟨first, hfirst⟩ := Option.ne_none_iff_exists'.1 (fun hnone => hne (List.min?_eq_none_iff.1 hnone))
    have hmem : first ∈ live ready calendar := List.min?_mem hfirst
    have hafter : max ready ((live ready calendar).min?.getD ready) = first := by
      rw [hfirst, Option.getD_some]
      exact max_eq_right (mem_live.1 hmem).2.le
    rw [hafter, ← live_live (mem_live.1 hmem).2.le]
    refine lt_of_lt_of_le ?_ hle
    refine List.length_filter_lt_length_iff_exists.2 ⟨first, hmem, ?_⟩
    simp
  · next hroom => exact Nat.not_le.1 hroom

/-! ## Several calendars -/

/-- **The last delay is the least time at which every calendar has room.** -/
theorem delays_least (hlimit : 0 < limit) {calendars : List (List α)} {ready : α}
    (hle : ∀ calendar ∈ calendars, (live ready calendar).length ≤ limit) :
    IsLeast {t | ready ≤ t ∧ ∀ calendar ∈ calendars, (live t calendar).length < limit}
      (calendars.foldl (delay limit) ready) := by
  induction calendars generalizing ready with
  | nil => exact ⟨⟨le_rfl, by simp⟩, fun t ht => ht.1⟩
  | cons calendar calendars ih =>
    rw [List.foldl_cons]
    have hnext : ∀ k ∈ calendars, (live (delay limit ready calendar) k).length ≤ limit := fun k hk =>
      (length_live_le le_delay k).trans (hle k (List.mem_cons_of_mem _ hk))
    obtain ⟨⟨hafter, hroom⟩, hleast⟩ := ih hnext
    constructor
    · refine ⟨le_delay.trans hafter, fun k hk => ?_⟩
      rcases List.mem_cons.1 hk with rfl | hk
      · exact (length_live_le hafter k).trans_lt (room_after_delay hlimit (hle k List.mem_cons_self))
      · exact hroom k hk
    · rintro t ⟨ht, hall⟩
      refine hleast ⟨?_, fun k hk => hall k (List.mem_cons_of_mem _ hk)⟩
      by_contra hbefore
      have hfull := full_before_delay ht (not_le.1 hbefore)
      exact absurd (hall calendar List.mem_cons_self) (Nat.not_lt.2 hfull)

/-! ## What was granted -/

/-- A stay in some queues. -/
structure Grant (κ α : Type) where
  queues : List κ
  start : α
  stop : α

variable {κ : Type} [DecidableEq κ]

/-- The ends of the stays in a queue. -/
def ends (q : κ) (grants : List (Grant κ α)) : List α := (grants.filter fun g => decide (q ∈ g.queues)).map Grant.stop

/-- How many stays in a queue end after `t`. -/
def unfinished (q : κ) (t : α) (grants : List (Grant κ α)) : ℕ := (live t (ends q grants)).length

/-- How many stays a queue holds at `t`. -/
def population (q : κ) (t : α) (grants : List (Grant κ α)) : ℕ :=
  (grants.filter fun g => decide (q ∈ g.queues ∧ g.start ≤ t ∧ t < g.stop)).length

omit [LinearOrder α] in
theorem ends_append (q : κ) (grants : List (Grant κ α)) (g : Grant κ α) :
    ends q (grants ++ [g]) = ends q grants ++ if q ∈ g.queues then [g.stop] else [] := by
  rw [ends, List.filter_append, List.map_append]
  by_cases hq : q ∈ g.queues
  · simp [ends, hq]
  · simp [ends, hq]

theorem population_le_unfinished (q : κ) {t u : α} (h : u ≤ t) (grants : List (Grant κ α)) :
    population q t grants ≤ unfinished q u grants := by
  rw [unfinished, live, ends, List.filter_map, List.length_map, List.filter_filter, population]
  refine List.Sublist.length_le (List.monotone_filter_right _ fun g hg => ?_)
  obtain ⟨hq, -, hstop⟩ := of_decide_eq_true hg
  simp [hq, h.trans_lt hstop]

theorem population_append (q : κ) (t : α) (grants : List (Grant κ α)) (g : Grant κ α) :
    population q t (grants ++ [g]) = population q t grants + if q ∈ g.queues ∧ g.start ≤ t ∧ t < g.stop then 1 else 0 := by
  rw [population, List.filter_append, List.length_append]
  by_cases hg : q ∈ g.queues ∧ g.start ≤ t ∧ t < g.stop
  · simp [population, hg]
  · simp only [population, if_neg hg]
    rw [List.filter_cons_of_neg (by simpa using hg)]
    rfl

/-- The calendars know what is unfinished, and no queue is or was over its
limit. -/
structure Books (limit : ℕ) (calendars : κ → List α) (now : α) (grants : List (Grant κ α)) : Prop where
  live_eq : ∀ q t, now ≤ t → live t (calendars q) = live t (ends q grants)
  room : ∀ q, (live now (calendars q)).length ≤ limit
  sorted : grants.Pairwise fun g g' => g.start ≤ g'.start
  upTo : ∀ g ∈ grants, g.start ≤ now
  bounded : ∀ q t, population q t grants ≤ limit

variable {calendars : κ → List α} {now : α} {grants : List (Grant κ α)}

/-- **A newcomer is granted the least time with room in its queues.** -/
theorem Books.least (h : Books limit calendars now grants) (hlimit : 0 < limit) (hready : now ≤ ready) (queues : List κ) :
    IsLeast {t | ready ≤ t ∧ ∀ q ∈ queues, unfinished q t grants < limit} ((queues.map calendars).foldl (delay limit) ready) := by
  have hle : ∀ calendar ∈ queues.map calendars, (live ready calendar).length ≤ limit := by
    intro calendar hcalendar
    obtain ⟨q, -, rfl⟩ := List.mem_map.1 hcalendar
    exact (length_live_le hready _).trans (h.room q)
  have hleast := delays_least hlimit hle
  have hsame : {t | ready ≤ t ∧ ∀ calendar ∈ queues.map calendars, (live t calendar).length < limit} =
      {t | ready ≤ t ∧ ∀ q ∈ queues, unfinished q t grants < limit} := by
    ext t
    refine and_congr_right fun ht => ?_
    rw [List.forall_mem_map]
    refine forall₂_congr fun q _ => ?_
    rw [h.live_eq q t (hready.trans ht), unfinished]
  rw [hsame] at hleast
  exact hleast

/-- **Recording its end keeps the books.** -/
theorem Books.grant (h : Books limit calendars now grants) (hlimit : 0 < limit) (hready : now ≤ ready) {queues : List κ}
    {start stop : α} (hstart : start = (queues.map calendars).foldl (delay limit) ready) {calendars' : κ → List α}
    (hin : ∀ q ∈ queues, calendars' q = live start (calendars q) ++ [stop])
    (hout : ∀ q, q ∉ queues → calendars' q = calendars q) :
    Books limit calendars' start (grants ++ [⟨queues, start, stop⟩]) := by
  obtain ⟨⟨hle, hroom⟩, -⟩ := h.least hlimit hready queues
  rw [← hstart] at hle hroom
  have hnow : now ≤ start := hready.trans hle
  have hlive : ∀ q t, start ≤ t → live t (calendars' q) = live t (ends q (grants ++ [⟨queues, start, stop⟩])) := by
    intro q t ht
    rw [ends_append, live_append]
    by_cases hq : q ∈ queues
    · rw [hin q hq, live_append, live_live ht, h.live_eq q t (hnow.trans ht), if_pos hq]
    · rw [hout q hq, h.live_eq q t (hnow.trans ht), if_neg hq]
      exact (List.append_nil _).symm
  refine ⟨hlive, fun q => ?_, ?_, fun g hg => ?_, fun q t => ?_⟩
  · by_cases hq : q ∈ queues
    · have hroom := hroom q hq
      rw [unfinished, ← h.live_eq q start hnow] at hroom
      rw [hin q hq, live_append, live_live le_rfl, List.length_append]
      have := List.length_filter_le (fun e => decide (start < e)) [stop]
      rw [List.length_singleton] at this
      exact (Nat.add_le_add_left this _).trans hroom
    · rw [hout q hq]
      exact (length_live_le hnow _).trans (h.room q)
  · refine List.pairwise_append.2 ⟨h.sorted, List.pairwise_singleton _ _, fun g hg k hk => ?_⟩
    rw [List.mem_singleton.1 hk]
    exact (h.upTo g hg).trans hnow
  · rcases List.mem_append.1 hg with hg | hg
    · exact (h.upTo g hg).trans hnow
    · rw [List.mem_singleton.1 hg]
  · rw [population_append]
    split
    · next hg =>
      -- what the queue holds beside the newcomer was unfinished when it came
      exact (population_le_unfinished q hg.2.1 grants).trans_lt (hroom q hg.1)
    · exact h.bounded q t

theorem books_nil (limit : ℕ) (now : α) : Books limit (fun _ : κ => ([] : List α)) now [] :=
  ⟨fun _ _ _ => rfl, fun _ => Nat.zero_le _, .nil, by simp, fun _ _ => Nat.zero_le _⟩

end HeteroSim.Credits
