/-
Whole runs of the calendar. From any calendar without open transactions,
through any calls that keep the order of the lane directions early enough,
a rollback of the newest transaction gives back the calendar it was begun on.
-/
import HeteroSim.Timeline.Rollback

namespace HeteroSim.Timeline

/-! ## Runs -/

/-- The calendars the open transactions were begun on, after a call. -/
def begunAfter (tl tl' : ResourceTimeline) (begun : List ResourceTimeline) : List ResourceTimeline :=
  if tl.ownedTransactions.length < tl'.ownedTransactions.length then tl :: begun
  else begun.drop (tl.ownedTransactions.length - tl'.ownedTransactions.length)

/-- The calendar after the calls, and the calendars its transactions were
begun on. -/
def run (finite : ℚ → Bool) : ResourceTimeline → List ResourceTimeline → List Op → ResourceTimeline × List ResourceTimeline
  | tl, begun, [] => (tl, begun)
  | tl, begun, op :: ops => run finite (exec finite tl op) (begunAfter tl (exec finite tl op) begun) ops

instance (t : Token) : Decidable t.undoes := inferInstanceAs (Decidable (_ ∧ _))

instance (t : Token) (tl : ResourceTimeline) (rid : String) : Decidable (t.safe tl rid) :=
  inferInstanceAs (Decidable (_ → _ → _ → _ → ∀ k ∈ (tl.map .laneDirections).keys, _))

instance (tl : ResourceTimeline) (rid : String) : Decidable (SafeFor tl rid) :=
  inferInstanceAs (Decidable (∀ t ∈ tl.ownedTransactions, t.undoes → t.safe tl rid))

def decideSafeForAll : ∀ (rids : List String) (tl : ResourceTimeline), Decidable (SafeForAll tl rids)
  | [], _ => inferInstanceAs (Decidable True)
  | rid :: rids, tl =>
    have := decideSafeForAll rids (rememberResource rid tl)
    inferInstanceAs (Decidable (SafeFor tl rid ∧ SafeForAll (rememberResource rid tl) rids))

instance (rids : List String) (tl : ResourceTimeline) : Decidable (SafeForAll tl rids) := decideSafeForAll rids tl

/-- The resource a name stands for is safe to remember. -/
def SafeName (tl : ResourceTimeline) (resourceId : String) : Prop :=
  ∀ rid ∈ (canonicalResourceId tl resourceId).toOption, SafeFor tl rid

instance (tl : ResourceTimeline) (rid : String) : Decidable (SafeName tl rid) :=
  inferInstanceAs (Decidable (∀ k ∈ (canonicalResourceId tl rid).toOption, SafeFor tl k))

/-- No call notes a transaction's first deletable entry after a resource got
lane directions in it. -/
def Op.Safe (tl : ResourceTimeline) : Op → Prop
  | .reserve resourceId .. | .transfer resourceId .. => SafeName tl resourceId
  | .publishReady rid _ => SafeFor tl rid
  | .commitTimeline columns => SafeForAll tl (columns.map Column.rid)
  | _ => True

instance (tl : ResourceTimeline) : ∀ op : Op, Decidable (op.Safe tl)
  | .reserve rid .. | .transfer rid .. => inferInstanceAs (Decidable (SafeName tl rid))
  | .publishReady rid _ => inferInstanceAs (Decidable (SafeFor tl rid))
  | .commitTimeline columns => inferInstanceAs (Decidable (SafeForAll tl (columns.map Column.rid)))
  | .begin | .metricsSnapshot _ | .coreMetricsSnapshot _ | .finish _ | .finishCoreAccounting _ | .rollback _ =>
    inferInstanceAs (Decidable True)

def SafeRun (finite : ℚ → Bool) : ResourceTimeline → List Op → Prop
  | _, [] => True
  | tl, op :: ops => op.Safe tl ∧ SafeRun finite (exec finite tl op) ops

def decideSafeRun (finite : ℚ → Bool) : ∀ (ops : List Op) (tl : ResourceTimeline), Decidable (SafeRun finite tl ops)
  | [], _ => inferInstanceAs (Decidable True)
  | op :: ops, tl =>
    have := decideSafeRun finite ops (exec finite tl op)
    inferInstanceAs (Decidable (op.Safe tl ∧ SafeRun finite (exec finite tl op) ops))

instance (finite : ℚ → Bool) (tl : ResourceTimeline) (ops : List Op) : Decidable (SafeRun finite tl ops) :=
  decideSafeRun finite ops tl

/-! ## One call -/

theorem begunAfter_same {tl tl' : ResourceTimeline} (h : tl'.ownedTransactions.length = tl.ownedTransactions.length)
    (begun : List ResourceTimeline) : begunAfter tl tl' begun = begun := by
  rw [begunAfter, h, if_neg (lt_irrefl _), Nat.sub_self, List.drop_zero]

theorem begunAfter_drop {tl tl' : ResourceTimeline} {k : ℕ} (hk : k ≤ tl.ownedTransactions.length)
    (h : tl'.ownedTransactions = tl.ownedTransactions.drop k) (begun : List ResourceTimeline) :
    begunAfter tl tl' begun = begun.drop k := by
  rw [begunAfter, h, List.length_drop, if_neg (by omega)]
  congr 1
  omega

theorem begunAfter_push {tl tl' : ResourceTimeline} {t : Token}
    (h : tl'.ownedTransactions = t :: tl.ownedTransactions) (begun : List ResourceTimeline) :
    begunAfter tl tl' begun = tl :: begun := by
  rw [begunAfter, h, List.length_cons, if_pos (Nat.lt_succ_self _)]

theorem dropAccounting_drop (depth : ℕ) : ∀ tokens : List Token,
    ∃ k ≤ tokens.length, dropAccounting depth tokens = tokens.drop k
  | [] => ⟨0, le_rfl, rfl⟩
  | t :: rest => by
    unfold dropAccounting
    split
    · obtain ⟨k, hk, heq⟩ := dropAccounting_drop depth rest
      exact ⟨k + 1, Nat.succ_le_succ hk, heq⟩
    · exact ⟨0, Nat.zero_le _, rfl⟩

variable {finite : ℚ → Bool} {tl : ResourceTimeline} {begun : List ResourceTimeline}

/-- A call that opens and ends no transaction. -/
theorem SoundFrom.same {tl' : ResourceTimeline} (h : SoundFrom tl' begun)
    (hlen : tl'.ownedTransactions.length = tl.ownedTransactions.length) : SoundFrom tl' (begunAfter tl tl' begun) := by
  rw [begunAfter_same hlen]
  exact h

theorem SoundFrom.exec_begin (h : SoundFrom tl begun) :
    SoundFrom (exec finite tl .begin) (begunAfter tl (exec finite tl .begin) begun) := by
  refine wp_after (I := fun tl' => SoundFrom tl' (begunAfter tl tl' begun)) ?_
  simp only [beginOwnedTransaction, wp_bind, wp_get, wp_raise, wp_modify]
  refine ⟨fun _ _ => ?_, fun _ _ => ?_⟩
  · rw [begunAfter_push rfl]
    exact h.push false
  · exact h.same rfl

theorem SoundFrom.exec_finish (h : SoundFrom tl begun) (i : ℕ) :
    SoundFrom (exec finite tl (.finish i)) (begunAfter tl (exec finite tl (.finish i)) begun) := by
  refine wp_after (I := fun tl' => SoundFrom tl' (begunAfter tl tl' begun)) ?_
  simp only [finish, wp_bind, wp_get, wp_raise, wp_modify, refuse_ok]
  refine ⟨fun _ hok => ?_, fun _ _ => ?_⟩
  · have hlen : 1 ≤ tl.ownedTransactions.length := List.length_pos_iff.2 fun hnil => hok (.inr hnil)
    rw [begunAfter_drop hlen List.drop_one.symm]
    have := h.drop 1
    rwa [List.drop_one] at this
  · exact h.same rfl

theorem SoundFrom.exec_coreMetricsSnapshot (h : SoundFrom tl begun) (maxIntervals : ℕ) :
    SoundFrom (exec finite tl (.coreMetricsSnapshot maxIntervals))
      (begunAfter tl (exec finite tl (.coreMetricsSnapshot maxIntervals)) begun) := by
  refine wp_after (I := fun tl' => SoundFrom tl' (begunAfter tl tl' begun)) ?_
  rw [coreMetricsSnapshot, wp_bind, wp_get]
  split
  · simp only [beginOwnedTransaction, wp_bind, wp_get, wp_raise, wp_modify]
    refine ⟨fun _ _ => ?_, fun _ _ => ?_⟩
    · rw [begunAfter_push rfl]
      exact (h.push true).reset maxIntervals
    · exact h.same rfl
  · exact (h.reset maxIntervals).same rfl

/-- A token that undoes, on top of the open ones, is rolled back exactly. -/
theorem SoundFrom.rollback (h : SoundFrom tl begun) {t : Token} {rest : List Token}
    (ht : tl.ownedTransactions = t :: rest) (hundoes : t.accounting = false) :
    ∃ b outer, begun = b :: outer ∧ wp (rollback 0)
      (fun _ tl' => readings tl' = readings b ∧ tl'.ownedTransactions = rest ∧ SoundFrom tl' outer)
      (fun _ _ => False) tl := by
  cases begun with
  | nil =>
    obtain ⟨open_, h, hbegun⟩ := h
    rw [List.map_eq_nil_iff.1 hbegun.symm] at h
    rw [h.tokens] at ht
    cases ht
  | cons b outer =>
    refine ⟨b, outer, rfl, ?_⟩
    obtain ⟨t', rest', ht', hspec⟩ := h.rollbackNewest
    obtain ⟨rfl, rfl⟩ := List.cons.inj (ht.symm.trans ht')
    have hu : t.undoes := by
      obtain ⟨open_, h, -⟩ := h
      refine ⟨hundoes, ?_⟩
      rw [h.tokens] at ht
      obtain ⟨p, hp, rfl⟩ := List.mem_map.1 (show t ∈ open_.map Prod.fst by rw [ht]; simp)
      exact h.restoring.2 p hp
    have hget : tl.ownedTransactions[0]? = some t := by rw [ht]; rfl
    simp only [Timeline.rollback, wp_bind, wp_get, hget, wp_refuse, if_true]
    exact ⟨fun _ => hspec hu, fun hacc => by rw [hundoes] at hacc; cases hacc⟩

theorem SoundFrom.exec_rollback (h : SoundFrom tl begun) (i : ℕ) :
    SoundFrom (exec finite tl (.rollback i)) (begunAfter tl (exec finite tl (.rollback i)) begun) := by
  have hsame : SoundFrom tl (begunAfter tl tl begun) := h.same rfl
  refine wp_after (I := fun tl' => SoundFrom tl' (begunAfter tl tl' begun)) ?_
  by_cases hnewest : ∃ t, tl.ownedTransactions[i]? = some t ∧ t.accounting = false ∧ i = 0
  · obtain ⟨t, ht, hundoes, rfl⟩ := hnewest
    obtain ⟨rest, hcons⟩ : ∃ rest, tl.ownedTransactions = t :: rest := by
      cases htokens : tl.ownedTransactions with
      | nil => rw [htokens] at ht; cases ht
      | cons t' rest =>
        rw [htokens] at ht
        exact ⟨rest, by rw [Option.some.inj ht]⟩
    obtain ⟨b, outer, rfl, hspec⟩ := h.rollback hcons hundoes
    refine wp_mono hspec ?_ fun _ _ hf => hf.elim
    rintro _ tl' ⟨-, hrest, hsound⟩
    rw [begunAfter_drop (k := 1) (by rw [hcons]; simp) (by rw [hrest, hcons]; rfl)]
    exact hsound
  · -- every other call raises
    simp only [Timeline.rollback, wp_bind, wp_get]
    cases ht : tl.ownedTransactions[i]? with
    | none => exact hsame
    | some t =>
      simp only [wp_bind, wp_refuse]
      refine ⟨fun hacc => ?_, fun _ => hsame⟩
      have hi : i ≠ 0 := fun hi => hnewest ⟨t, ht, by simpa using hacc, hi⟩
      simp only [if_neg hi, finish, wp_bind, wp_get, wp_raise, refuse_ok, wp_modify]
      exact ⟨fun _ hok => absurd (.inl hi) hok, fun _ _ => hsame⟩

theorem length_rememberResources (rids : List String) : ∀ tl : ResourceTimeline,
    (rememberResources rids tl).ownedTransactions.length = tl.ownedTransactions.length := by
  induction rids with
  | nil => exact fun _ => rfl
  | cons rid rids ih => exact fun _ => (ih _).trans (List.length_map _)

theorem Wrote.length {resourceId : String} {tl tl' : ResourceTimeline} (h : Wrote resourceId tl tl') :
    tl'.ownedTransactions.length = tl.ownedTransactions.length := by
  rcases h with rfl | ⟨rid, -, he⟩
  · rfl
  · rw [he.tokens]
    exact List.length_map _

/-- **Every call keeps what the open transactions lead back to.** -/
theorem SoundFrom.exec (h : SoundFrom tl begun) (op : Op) (hs : op.Safe tl) :
    SoundFrom (exec finite tl op) (begunAfter tl (exec finite tl op) begun) := by
  have hnamed : ∀ {resourceId : String}, SafeName tl resourceId → ∀ {tl' : ResourceTimeline},
      Wrote resourceId tl tl' → SoundFrom tl' (begunAfter tl tl' begun) := by
    intro resourceId hsafe tl' hw
    refine SoundFrom.same (h.wrote (fun rid hrid => hsafe rid ?_) hw) hw.length
    rw [hrid]
    rfl
  cases op with
  | begin => exact h.exec_begin
  | reserve rid earliest duration direction switch =>
    have hw := reserve_wrote finite rid earliest duration direction switch tl
    refine hnamed hs (wp_after (wp_mono hw ?_ fun _ _ he => he))
    exact fun _ tl' he => .inr he
  | transfer rid bytes earliest bandwidth direction switch =>
    exact hnamed hs (wp_after (transfer_wrote finite rid bytes earliest bandwidth direction switch tl))
  | publishReady rid ready =>
    refine SoundFrom.same (h.writes [rid] ⟨hs, trivial⟩ ?_) (List.length_map _)
    exact (put_edits rid _ .readyNs ready).mono fun k hk => by simp [hk]
  | commitTimeline columns =>
    have he : Edits (· ∈ columns.map Column.rid) (rememberResources (columns.map Column.rid) tl)
        (commitTimeline columns tl) := by
      have := publishColumns_edits columns (rememberResources (columns.map Column.rid) tl)
      exact { this with }
    refine SoundFrom.same (h.writes _ hs he) ?_
    rw [Timeline.exec, he.tokens]
    exact length_rememberResources _ _
  | metricsSnapshot maxIntervals => exact (h.reset maxIntervals).same rfl
  | coreMetricsSnapshot maxIntervals => exact h.exec_coreMetricsSnapshot maxIntervals
  | finish i => exact h.exec_finish i
  | finishCoreAccounting depth =>
    obtain ⟨k, hk, heq⟩ := dropAccounting_drop depth tl.ownedTransactions
    have hdrop := h.drop k
    rw [← heq] at hdrop
    rw [begunAfter_drop hk heq]
    exact hdrop
  | rollback i => exact h.exec_rollback i

theorem SoundFrom.run : ∀ {ops : List Op} {tl : ResourceTimeline} {begun : List ResourceTimeline}, SoundFrom tl begun →
    SafeRun finite tl ops → SoundFrom (run finite tl begun ops).1 (run finite tl begun ops).2
  | [], _, _, h, _ => h
  | op :: _, _, _, h, hs => (h.exec op hs.1).run hs.2

/-! ## Rollbacks -/

/-- A discardable copy that was written is discarded, not restored. -/
theorem rollback_discardable {t : Token} {rest : List Token} (ht : tl.ownedTransactions = t :: rest)
    (ha : t.accounting = false) (hd : tl.discardable = true) (hw : t.wrote = true) :
    rollback 0 tl = .ok () { tl with ownedTransactions := rest, discarded := true } := by
  have hget : tl.ownedTransactions[0]? = some t := by rw [ht]; rfl
  have hwp : wp (rollback 0) (fun _ tl' => tl' = { tl with ownedTransactions := rest, discarded := true })
      (fun _ _ => False) tl := by
    simp only [Timeline.rollback, wp_bind, wp_get, hget, if_true]
    rw [wp_refuse]
    refine ⟨fun _ => ?_, fun hacc => by rw [ha] at hacc; cases hacc⟩
    simp only [rollbackNewest, finish, wp_bind, wp_get, wp_modify]
    rw [wp_refuse]
    refine ⟨fun _ => ?_, fun hraise => by rw [ht] at hraise; simp at hraise⟩
    rw [if_pos ⟨hd, hw⟩, wp_modify, ht]
    rfl
  obtain ⟨_, _, hok, rfl⟩ := wp_total hwp
  exact hok

/-- **Rolling back is exact.** In a run from a calendar that is no discardable
copy, in which no transaction notes its first deletable entry after a resource
got lane directions in it, a rollback of the newest transaction gives back all
readings of the calendar it was begun on. On a discardable copy it discards the
copy instead. -/
theorem owned_rollback_exact (finite : ℚ → Bool) (tl : ResourceTimeline) (ops : List Op) (ha : Allocated tl)
    (hopen : tl.ownedTransactions = []) (t : Token) (rest : List Token)
    (ht : (run finite tl [] ops).1.ownedTransactions = t :: rest) (hundoes : t.accounting = false) :
    (tl.discardable = false → SafeRun finite tl ops →
      ∃ b outer tl', (run finite tl [] ops).2 = b :: outer ∧ rollback 0 (run finite tl [] ops).1 = .ok () tl' ∧
        readings tl' = readings b ∧ tl'.ownedTransactions = rest) ∧
    ((run finite tl [] ops).1.discardable = true → t.wrote = true →
      rollback 0 (run finite tl [] ops).1 =
        .ok () { (run finite tl [] ops).1 with ownedTransactions := rest, discarded := true }) := by
  refine ⟨fun hd hs => ?_, fun hd hw => rollback_discardable ht hundoes hd hw⟩
  have hstart : SoundFrom tl [] :=
    ⟨[], ⟨hopen, ha, ⟨hd, fun _ hp => by cases hp⟩, fun _ hp => (by cases hp), List.Pairwise.nil⟩, rfl⟩
  obtain ⟨b, outer, hb, hspec⟩ := (hstart.run hs).rollback ht hundoes
  obtain ⟨_, tl', hok, hreadings, hrest, -⟩ := wp_total hspec
  exact ⟨b, outer, tl', hb, hok, hreadings, hrest⟩

/-- Two resources of two lanes each; only `y` has lane directions. -/
def twoPorts (discardable : Bool) : ResourceTimeline where
  values _ := .empty
  root _ := 0
  dicts n d :=
    match n, d with
    | .laneAvailable, 0 => (Dict.empty.insert "x" 0).insert "y" 1
    | .laneDirections, 0 => Dict.empty.insert "y" 0
    | _, _ => .empty
  lists
    | .laneAvailable => fun _ => [0, 0]
    | .laneDirections => fun _ => [some "read", none]
    | .intervals => fun _ => []
    | .intervalPayloads => fun _ => []
  touched := 0
  touchedSets _ := ∅
  fresh := 2
  intervalLimit := 4
  intervalCount := 0
  intervalsTruncated := false
  resourceAliases := .empty
  discardable := discardable
  discarded := false
  ownedTransactions := []

theorem twoPorts_allocated (discardable : Bool) : Allocated (twoPorts discardable) where
  roots _ := Nat.zero_lt_two
  touched := Nat.zero_lt_two
  refs n d rid l h := by
    match n, d with
    | .laneAvailable, 0 =>
      have hmem : l ∈ ((Dict.empty.insert "x" 0).insert "y" 1).values := Dict.mem_values.2 ⟨rid, h⟩
      have hall : ∀ l ∈ ((Dict.empty.insert "x" 0).insert "y" 1).values, l < 2 := by decide +kernel
      exact hall l hmem
    | .laneDirections, 0 =>
      have hmem : l ∈ (Dict.empty.insert "y" 0).values := Dict.mem_values.2 ⟨rid, h⟩
      have hall : ∀ l ∈ (Dict.empty.insert "y" 0).values, l < 2 := by decide +kernel
      exact hall l hmem
    | .laneAvailable, _ + 1 => cases h
    | .laneDirections, _ + 1 => cases h
    | .intervals, _ => cases h
    | .intervalPayloads, _ => cases h
  blank n d h := by
    have hd : 2 ≤ d := h
    match n, d with
    | .laneAvailable, _ + 1 => rfl
    | .laneDirections, _ + 1 => rfl
    | .laneAvailable, 0 => omega
    | .laneDirections, 0 => omega
    | .intervals, _ => rfl
    | .intervalPayloads, _ => rfl

/-- A reservation, a committed inner transaction and a core's recorder. -/
def someCalls : List Op :=
  [.begin, .reserve "y" 0 1 (some "write") 2, .begin, .transfer "x" 64 1 32 (some "read") 0, .finish 0,
    .coreMetricsSnapshot 2, .reserve "new" 0 3 none 0, .finish 0]

theorem owned_rollback_exact_someCalls : ∃ b outer tl', (run (fun _ => true) (twoPorts false) [] someCalls).2 = b :: outer ∧
    rollback 0 (run (fun _ => true) (twoPorts false) [] someCalls).1 = .ok () tl' ∧ readings tl' = readings b ∧
    tl'.ownedTransactions = [] := by
  have hlen : (run (fun _ => true) (twoPorts false) [] someCalls).1.ownedTransactions.map Token.accounting = [false] := by
    decide +kernel
  obtain ⟨t, ht, hundoes⟩ := List.map_eq_singleton_iff.1 hlen
  exact (owned_rollback_exact (fun _ => true) (twoPorts false) someCalls (twoPorts_allocated false) rfl t [] ht hundoes).1 rfl
    (by decide +kernel)

/-- A discardable copy keeps what was written. And where a resource got lane
directions before the first deletable entry was noted, the rollback raises with
the recorded intervals still there. -/
theorem rollback_inexact :
    ((after (rollback 0) (run (fun _ => true) (twoPorts true) [] [.begin, .reserve "x" 0 1 none 0]).1).values
      .busyNs).get? "x" = some 1 ∧
    (run (fun _ => true) (twoPorts true) [] [.begin, .reserve "x" 0 1 none 0]).2.map
      (fun b => (b.values .busyNs).get? "x") = [none] ∧
    (after (rollback 0) (run (fun _ => true) (twoPorts false) []
      [.begin, .reserve "x" 0 1 (some "write") 0, .reserve "y" 0 1 (some "write") 0]).1).list? .intervals "x" =
        some [(0, 1)] ∧
    (run (fun _ => true) (twoPorts false) []
      [.begin, .reserve "x" 0 1 (some "write") 0, .reserve "y" 0 1 (some "write") 0]).2.map
      (fun b => b.list? .intervals "x") = [none] := by
  refine ⟨?_, ?_, ?_, ?_⟩ <;> decide +kernel

end HeteroSim.Timeline
