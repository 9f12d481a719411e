/-
The rounds of a request commit its whole output, and neither clamp of a
cumulative mean ever binds: a mean of at most `m` adds at most `m` to its
rounded total.
-/
import HeteroSim.Mtp.Cursor

namespace HeteroSim.Mtp

/-! ## Cumulative rounding -/

/-- The tokens emitted are the rounded total. -/
structure CumulativeExpectedCursor.Exact (cursor : CumulativeExpectedCursor) : Prop where
  nonneg : 0 ≤ cursor.expectedTotal
  emitted : (cursor.emittedTotal : ℤ) = roundHalfUp cursor.expectedTotal

theorem CumulativeExpectedCursor.exact_new : ({} : CumulativeExpectedCursor).Exact := by
  refine ⟨le_rfl, ?_⟩
  show (0 : ℤ) = ⌊(0 : ℚ) + 1 / 2⌋
  norm_num

theorem roundHalfUp_mono {a b : ℚ} (h : a ≤ b) : roundHalfUp a ≤ roundHalfUp b := Int.floor_le_floor (by linarith)

theorem roundHalfUp_add_nat (a : ℚ) (m : ℕ) : roundHalfUp (a + m) = roundHalfUp a + m := by
  unfold roundHalfUp
  rw [add_right_comm, Int.floor_add_natCast]

/-- **The clamp never binds**: a round that may emit the ceiling of its mean
emits exactly what is due. -/
theorem CumulativeExpectedCursor.Exact.advance {cursor : CumulativeExpectedCursor} (h : cursor.Exact) {expected : ℚ}
    {maximum : ℕ} (hpos : 0 ≤ expected) (hle : expected ≤ maximum) : ∃ emitted ≤ maximum,
      cursor.advance expected maximum =
        .ok (⟨cursor.expectedTotal + expected, cursor.emittedTotal + emitted⟩, emitted) ∧
      Exact ⟨cursor.expectedTotal + expected, cursor.emittedTotal + emitted⟩ := by
  have hlow : roundHalfUp cursor.expectedTotal ≤ roundHalfUp (cursor.expectedTotal + expected) :=
    roundHalfUp_mono (by linarith)
  have hhigh : roundHalfUp (cursor.expectedTotal + expected) ≤ roundHalfUp cursor.expectedTotal + maximum := by
    rw [← roundHalfUp_add_nat]
    exact roundHalfUp_mono (by linarith)
  have hemitted := h.emitted
  refine ⟨(roundHalfUp (cursor.expectedTotal + expected) - cursor.emittedTotal).toNat, by omega, ?_, ?_, ?_⟩
  · have hdue : (min (maximum : ℤ) (max 0 (roundHalfUp (cursor.expectedTotal + expected)) - cursor.emittedTotal)).toNat =
        (roundHalfUp (cursor.expectedTotal + expected) - cursor.emittedTotal).toNat := by omega
    have hok : refuse (expected < 0) "expected_tokens must be finite and non-negative" = .ok () :=
      refuse_ok.2 (not_lt.2 hpos)
    simp only [CumulativeExpectedCursor.advance, hok, bind, Except.bind, hdue]
  · show 0 ≤ cursor.expectedTotal + expected
    linarith [h.nonneg]
  · show ((cursor.emittedTotal + _ : ℕ) : ℤ) = roundHalfUp (cursor.expectedTotal + expected)
    omega

/-! ## Expectations -/

theorem expectedDraftPrefixTokens_bounds (draftTokens : ℕ) (rate : ℚ) :
    0 ≤ expectedDraftPrefixTokens draftTokens rate ∧ expectedDraftPrefixTokens draftTokens rate ≤ draftTokens := by
  have hlow : 0 ≤ max 0 (min 1 rate) := le_max_left _ _
  have hhigh : max 0 (min 1 rate) ≤ 1 := max_le zero_le_one (min_le_left _ _)
  have hsum : ∀ positions : List ℕ, 0 ≤ (positions.map fun position => max 0 (min 1 rate) ^ position).sum ∧
      (positions.map fun position => max 0 (min 1 rate) ^ position).sum ≤ positions.length := by
    intro positions
    induction positions with
    | nil => simp
    | cons position positions ih =>
      have hone := pow_nonneg hlow position
      have hone' := pow_le_one₀ (n := position) hlow hhigh
      simp only [List.map_cons, List.sum_cons, List.length_cons, Nat.cast_add, Nat.cast_one]
      exact ⟨by linarith [ih.1], by linarith [ih.2]⟩
  have h := hsum (List.range' 1 draftTokens)
  rw [List.length_range'] at h
  exact h

theorem traceAt_ok {α : Type} {values : List α} (h : values ≠ []) (roundIndex : ℕ) (message : String) :
    ∃ value ∈ values, traceAt values roundIndex message = .ok value := by
  have hlt : roundIndex % values.length < values.length := Nat.mod_lt _ (List.length_pos_of_ne_nil h)
  refine ⟨values[roundIndex % values.length], List.getElem_mem hlt, ?_⟩
  unfold traceAt
  rw [List.getElem?_eq_getElem hlt]

/-- An accepted policy has a rate for every round. -/
theorem acceptanceRate_ok (policy : MTPPolicy) (roundIndex : ℕ) : ∃ rate, acceptanceRate policy roundIndex = .ok rate := by
  have hbetween : ∀ rate : ℚ, 0 ≤ rate ∧ rate ≤ 1 →
      (do refuse (¬(0 ≤ rate ∧ rate ≤ 1)) "MTP acceptance value must be in [0, 1]"; .ok rate : Except String ℚ) =
        .ok rate := by
    intro rate hrate
    have hok : refuse (¬(0 ≤ rate ∧ rate ≤ 1)) "MTP acceptance value must be in [0, 1]" = .ok () :=
      refuse_ok.2 (not_not.2 hrate)
    rw [hok]
    rfl
  have hrate : 0 ≤ policy.acceptanceRate.getD 0 ∧ policy.acceptanceRate.getD 0 ≤ 1 := by
    cases hgiven : policy.acceptanceRate with
    | none => exact ⟨le_rfl, zero_le_one⟩
    | some rate => exact policy.rate_between rate hgiven
  unfold acceptanceRate
  cases hmodel : policy.acceptanceModel with
  | expected => exact ⟨_, hbetween _ hrate⟩
  | expectedPrefix => exact ⟨_, hbetween _ hrate⟩
  | trace =>
    obtain ⟨rate, hmem, hat⟩ := traceAt_ok (policy.rates_given hmodel) roundIndex
      "MTP acceptance_model='trace' requires acceptance_trace"
    refine ⟨rate, ?_⟩
    simp only [hat]
    exact hbetween rate (policy.rates_between rate hmem)

/-- What planning the drafts of a round does to its cursor. -/
structure Planned (policy : MTPPolicy) (cursor cursor' : CumulativeExpectedCursor) (planned : ℕ) : Prop where
  exact : cursor'.Exact
  mean : policy.proposalLengthModel = .expectedMean → ∀ expected, policy.expectedDraftTokensPerRound = some expected →
    cursor'.expectedTotal = cursor.expectedTotal + (expected - policy.minDraftTokens) ∧
      cursor'.emittedTotal + policy.minDraftTokens = cursor.emittedTotal + planned

theorem proposalDraftTokens_ok (policy : MTPPolicy) (roundIndex : ℕ) {cursor : CumulativeExpectedCursor}
    (h : cursor.Exact) : ∃ proposal, proposalDraftTokens policy roundIndex cursor = .ok proposal ∧
      Planned policy cursor proposal.1 proposal.2 := by
  have hmin : min policy.minDraftTokens policy.candidateTokens = policy.minDraftTokens := min_eq_left policy.min_le
  unfold proposalDraftTokens
  simp only [hmin]
  cases hmodel : policy.proposalLengthModel with
  | maximum => exact ⟨_, rfl, h, fun hmean => by rw [hmodel] at hmean; cases hmean⟩
  | trace =>
    obtain ⟨length, -, hat⟩ := traceAt_ok (policy.lengths_given hmodel) roundIndex
      "MTP proposal_length_model='trace' requires draft_length_trace"
    simp only [hat]
    exact ⟨_, rfl, h, fun hmean => by rw [hmodel] at hmean; cases hmean⟩
  | expectedMean =>
    cases hgiven : policy.expectedDraftTokensPerRound with
    | none => exact absurd hgiven (policy.expected_given hmodel)
    | some expected =>
      have hbetween := policy.expected_between expected hgiven
      have hok : refuse (¬((policy.minDraftTokens : ℚ) ≤ expected ∧ expected ≤ policy.candidateTokens))
          "MTP expected_draft_tokens_per_round must be between min_draft_tokens and candidate_tokens" = .ok () :=
        refuse_ok.2 (not_not.2 hbetween)
      have hmaximum : expected - policy.minDraftTokens ≤ (policy.candidateTokens - policy.minDraftTokens : ℕ) := by
        rw [Nat.cast_sub policy.min_le]
        linarith [hbetween.2]
      obtain ⟨emitted, -, hadvance, hexact⟩ := h.advance (sub_nonneg.2 hbetween.1) hmaximum
      simp only [hok, hadvance, bind, Except.bind]
      refine ⟨_, rfl, hexact, fun _ given hsame => ?_⟩
      rw [hgiven] at hsame
      obtain rfl := Option.some.inj hsame
      exact ⟨rfl, by show cursor.emittedTotal + emitted + _ = _; omega⟩

/-! ## One round -/

/-- What a round does to its request. -/
structure Turn (c c' : MTPRequestCursor) (remaining : ℕ) (round : MTPRound) : Prop where
  policy : c'.policy = c.policy
  proposal : Planned c.policy c.proposalCursor c'.proposalCursor round.planned
  acceptance : c'.acceptanceCursor.Exact
  expected : c'.acceptanceCursor.expectedTotal = c.acceptanceCursor.expectedTotal + round.expectedAcceptedDraftTokens
  accepted : c'.acceptanceCursor.emittedTotal = c.acceptanceCursor.emittedTotal + round.acceptedDraftTokens
  commits : 1 ≤ round.committedTokens ∧ round.committedTokens ≤ round.verifierTokens ∧ round.committedTokens ≤ remaining

theorem nextRound_ok {c : MTPRequestCursor} (hproposal : c.proposalCursor.Exact) (hacceptance : c.acceptanceCursor.Exact)
    {remaining : ℕ} (hpos : 0 < remaining) : ∃ item, c.nextRound remaining = .ok item ∧ Turn c item.1 remaining item.2 := by
  obtain ⟨proposal, hplan, hplanned⟩ := proposalDraftTokens_ok c.policy c.roundIndex hproposal
  obtain ⟨rate, hrate⟩ := acceptanceRate_ok c.policy c.roundIndex
  have hbounds := expectedDraftPrefixTokens_bounds (min (remaining - 1) proposal.2) rate
  obtain ⟨accepted, hle, hadvance, hexact⟩ := hacceptance.advance hbounds.1 hbounds.2
  have hok : refuse (remaining = 0) "MTP remaining_tokens must be positive" = .ok () := refuse_ok.2 hpos.ne'
  unfold MTPRequestCursor.nextRound
  simp only [hok, hplan, hrate, hadvance, bind, Except.bind]
  refine ⟨_, rfl, rfl, hplanned, hexact, rfl, rfl, ?_⟩
  show 1 ≤ min remaining (1 + accepted) ∧ min remaining (1 + accepted) ≤ 1 + min (remaining - 1) proposal.2 ∧
    min remaining (1 + accepted) ≤ remaining
  omega

/-! ## A run of rounds -/

/-- Tokens planned over the policy's minimum. -/
def overMinimum (policy : MTPPolicy) (rounds : List MTPRound) : ℤ :=
  (rounds.map fun round => (round.planned : ℤ) - policy.minDraftTokens).sum

/-- After the rounds, what was accepted is the rounded total of what was
expected, and so are the lengths planned for a mean. -/
structure Due (c : MTPRequestCursor) (rounds : List MTPRound) : Prop where
  accepted : (c.acceptanceCursor.emittedTotal : ℤ) + (rounds.map MTPRound.acceptedDraftTokens).sum =
    roundHalfUp (c.acceptanceCursor.expectedTotal + (rounds.map MTPRound.expectedAcceptedDraftTokens).sum)
  planned : c.policy.proposalLengthModel = .expectedMean → ∀ expected, c.policy.expectedDraftTokensPerRound = some expected →
    (c.proposalCursor.emittedTotal : ℤ) + overMinimum c.policy rounds =
      roundHalfUp (c.proposalCursor.expectedTotal + rounds.length * (expected - c.policy.minDraftTokens))

theorem Due.nil {c : MTPRequestCursor} (hproposal : c.proposalCursor.Exact) (hacceptance : c.acceptanceCursor.Exact) :
    Due c [] := by
  refine ⟨?_, fun _ expected _ => ?_⟩
  · simpa using hacceptance.emitted
  · simpa [overMinimum] using hproposal.emitted

/-- One more round before the others. -/
theorem Due.cons {c c' : MTPRequestCursor} {remaining : ℕ} {round : MTPRound} {rounds : List MTPRound}
    (h : Turn c c' remaining round) (hdue : Due c' rounds) : Due c (round :: rounds) := by
  refine ⟨?_, fun hmean expected hgiven => ?_⟩
  · have haccepted := hdue.accepted
    rw [h.accepted, h.expected] at haccepted
    simp only [List.map_cons, List.sum_cons, Nat.cast_add] at haccepted ⊢
    rw [← add_assoc, haccepted, add_assoc]
  · obtain ⟨htotal, hemitted⟩ := h.proposal.mean hmean expected hgiven
    have hplanned := hdue.planned (by rw [h.policy]; exact hmean) expected (by rw [h.policy]; exact hgiven)
    rw [h.policy, htotal] at hplanned
    have hover : overMinimum c.policy (round :: rounds) =
        (round.planned : ℤ) - c.policy.minDraftTokens + overMinimum c.policy rounds := by
      simp [overMinimum]
    have hlength : c.proposalCursor.expectedTotal + ((round :: rounds).length : ℚ) * (expected - c.policy.minDraftTokens) =
        c.proposalCursor.expectedTotal + (expected - c.policy.minDraftTokens) +
          rounds.length * (expected - c.policy.minDraftTokens) := by
      rw [List.length_cons, Nat.cast_add, Nat.cast_one]
      ring
    rw [hlength, ← hplanned, hover]
    omega

/-- What the rounds for `remaining` tokens show. -/
structure Serves (c : MTPRequestCursor) (remaining : ℕ) (rounds : List MTPRound) : Prop where
  whole : (rounds.map MTPRound.committedTokens).sum = remaining
  commits : ∀ pre round rest, rounds = pre ++ round :: rest → 1 ≤ round.committedTokens ∧
    round.committedTokens ≤ round.verifierTokens ∧
    (pre.map MTPRound.committedTokens).sum + round.committedTokens ≤ remaining
  due : ∀ pre rest, rounds = pre ++ rest → Due c pre

theorem Serves.nil {c : MTPRequestCursor} (hproposal : c.proposalCursor.Exact) (hacceptance : c.acceptanceCursor.Exact) :
    Serves c 0 [] := by
  refine ⟨rfl, fun pre round rest he => ?_, fun pre rest he => ?_⟩
  · exact absurd he.symm (by simp)
  · rw [(List.append_eq_nil_iff.1 he.symm).1]
    exact .nil hproposal hacceptance

theorem Serves.cons {c c' : MTPRequestCursor} {remaining : ℕ} {round : MTPRound} {rounds : List MTPRound}
    (hproposal : c.proposalCursor.Exact) (hacceptance : c.acceptanceCursor.Exact) (h : Turn c c' remaining round)
    (hserves : Serves c' (remaining - round.committedTokens) rounds) : Serves c remaining (round :: rounds) := by
  have hcommits := h.commits
  refine ⟨?_, fun pre item rest he => ?_, fun pre rest he => ?_⟩
  · rw [List.map_cons, List.sum_cons, hserves.whole]
    omega
  · cases pre with
    | nil =>
      obtain ⟨rfl, -⟩ := List.cons.inj he
      simpa using hcommits
    | cons first pre =>
      obtain ⟨rfl, hrest⟩ := List.cons.inj he
      obtain ⟨hone, hwidth, hsum⟩ := hserves.commits pre item rest hrest
      rw [List.map_cons, List.sum_cons]
      exact ⟨hone, hwidth, by omega⟩
  · cases pre with
    | nil => exact .nil hproposal hacceptance
    | cons first pre =>
      obtain ⟨rfl, hrest⟩ := List.cons.inj he
      exact .cons h (hserves.due pre rest hrest)

/-- The loop ends within one step a token. -/
theorem roundsLoop_serves : ∀ (bound remaining : ℕ), remaining ≤ bound → ∀ {c : MTPRequestCursor},
    c.proposalCursor.Exact → c.acceptanceCursor.Exact →
    ∃ rounds, (∀ fuel, remaining ≤ fuel → roundsLoop fuel remaining c = .ok rounds) ∧ Serves c remaining rounds := by
  intro bound
  induction bound with
  | zero =>
    intro remaining hle c hproposal hacceptance
    obtain rfl : remaining = 0 := by omega
    exact ⟨[], fun fuel _ => by cases fuel <;> rfl, .nil hproposal hacceptance⟩
  | succ bound ih =>
    intro remaining hle c hproposal hacceptance
    cases remaining with
    | zero => exact ⟨[], fun fuel _ => by cases fuel <;> rfl, .nil hproposal hacceptance⟩
    | succ remaining =>
      obtain ⟨item, hitem, hturn⟩ := nextRound_ok hproposal hacceptance (Nat.succ_pos remaining)
      have hcommits := hturn.commits
      obtain ⟨rounds, hloop, hserves⟩ := ih (remaining + 1 - item.2.committedTokens) (by omega) hturn.proposal.exact
        hturn.acceptance
      refine ⟨item.2 :: rounds, fun fuel hfuel => ?_, .cons hproposal hacceptance hturn hserves⟩
      obtain ⟨fuel, rfl⟩ : ∃ n, fuel = n + 1 := ⟨fuel - 1, by omega⟩
      simp only [roundsLoop, hitem, bind, Except.bind, hloop fuel (by omega)]

/-- **Expectations are served exactly**: for every accepted policy and output
length the rounds end, commit the whole output and never more, each at least
one token and at most what it verifies; after every round the accepted drafts
are the rounded total of the expected ones; and for an expected mean length so
are the drafts planned over the minimum. -/
theorem mtpRounds_exact (policy : MTPPolicy) (outputTokens : ℕ) :
    ∃ rounds, (∀ fuel, outputTokens ≤ fuel → mtpRoundsForOutput fuel outputTokens policy = .ok rounds) ∧
      (rounds.map MTPRound.committedTokens).sum = outputTokens ∧
      (∀ pre round rest, rounds = pre ++ round :: rest → 1 ≤ round.committedTokens ∧
        round.committedTokens ≤ round.verifierTokens ∧
        round.committedTokens ≤ outputTokens - (pre.map MTPRound.committedTokens).sum) ∧
      ∀ pre rest, rounds = pre ++ rest →
        ((pre.map MTPRound.acceptedDraftTokens).sum : ℤ) =
          roundHalfUp (pre.map MTPRound.expectedAcceptedDraftTokens).sum ∧
        (policy.proposalLengthModel = .expectedMean → ∀ expected, policy.expectedDraftTokensPerRound = some expected →
          overMinimum policy pre = roundHalfUp (pre.length * (expected - policy.minDraftTokens))) := by
  obtain ⟨rounds, hloop, hserves⟩ := roundsLoop_serves outputTokens outputTokens le_rfl (c := { policy })
    CumulativeExpectedCursor.exact_new CumulativeExpectedCursor.exact_new
  refine ⟨rounds, hloop, hserves.whole, fun pre round rest he => ?_, fun pre rest he => ⟨?_, fun hmean expected hgiven => ?_⟩⟩
  · obtain ⟨hone, hwidth, hsum⟩ := hserves.commits pre round rest he
    exact ⟨hone, hwidth, by omega⟩
  · simpa using (hserves.due pre rest he).accepted
  · simpa using (hserves.due pre rest he).planned hmean expected hgiven

end HeteroSim.Mtp
