/-
Multi-token prediction of one request (`mtp.py`): a round drafts tokens,
verifies them beside one main token, and commits the accepted prefix. Means
are rounded only after they have accumulated over the request. Means and
rates are rationals; `planned` records the drafts a round planned before the
end of the output cut them.
-/
import HeteroSim.Raising

namespace HeteroSim.Mtp

inductive ProposalLengthModel
  | maximum
  | expectedMean
  | trace
deriving DecidableEq

inductive AcceptanceModel
  | expected
  | expectedPrefix
  | trace
deriving DecidableEq

/-- What the rounds read of `MTPPolicy`, with what `__post_init__` checks. -/
structure MTPPolicy where
  candidateTokens : ℕ
  minDraftTokens : ℕ
  proposalLengthModel : ProposalLengthModel
  expectedDraftTokensPerRound : Option ℚ
  draftLengthTrace : List ℕ
  acceptanceModel : AcceptanceModel
  acceptanceRate : Option ℚ
  acceptanceTrace : List ℚ
  candidate_pos : 1 ≤ candidateTokens
  min_le : minDraftTokens ≤ candidateTokens
  expected_between : ∀ e ∈ expectedDraftTokensPerRound, (minDraftTokens : ℚ) ≤ e ∧ e ≤ candidateTokens
  expected_given : proposalLengthModel = .expectedMean → expectedDraftTokensPerRound ≠ none
  lengths_between : ∀ length ∈ draftLengthTrace, minDraftTokens ≤ length ∧ length ≤ candidateTokens
  lengths_given : proposalLengthModel = .trace → draftLengthTrace ≠ []
  rate_between : ∀ rate ∈ acceptanceRate, 0 ≤ rate ∧ rate ≤ 1
  rates_between : ∀ rate ∈ acceptanceTrace, 0 ≤ rate ∧ rate ≤ 1
  rates_given : acceptanceModel = .trace → acceptanceTrace ≠ []

/-! ## Cumulative rounding -/

/-- `_round_half_up` -/
def roundHalfUp (value : ℚ) : ℤ := ⌊value + 1 / 2⌋

structure CumulativeExpectedCursor where
  expectedTotal : ℚ := 0
  emittedTotal : ℕ := 0

/-- `advance`: the tokens newly due, at most `maximum`. -/
def CumulativeExpectedCursor.advance (cursor : CumulativeExpectedCursor) (expected : ℚ) (maximum : ℕ) :
    Except String (CumulativeExpectedCursor × ℕ) := do
  refuse (expected < 0) "expected_tokens must be finite and non-negative"
  let total := cursor.expectedTotal + expected
  let target := max 0 (roundHalfUp total)
  let emitted := (min (maximum : ℤ) (target - cursor.emittedTotal)).toNat
  .ok (⟨total, cursor.emittedTotal + emitted⟩, emitted)

/-! ## Expectations -/

/-- `expected_draft_prefix_tokens` -/
def expectedDraftPrefixTokens (draftTokens : ℕ) (acceptanceRate : ℚ) : ℚ :=
  let rate := max 0 (min 1 acceptanceRate)
  ((List.range' 1 draftTokens).map fun position => rate ^ position).sum

/-- A trace is read round by round, and again from its start. -/
def traceAt {α : Type} (values : List α) (roundIndex : ℕ) (message : String) : Except String α :=
  match values[roundIndex % values.length]? with
  | some value => .ok value
  | none => .error message

/-- `_acceptance_rate` -/
def acceptanceRate (policy : MTPPolicy) (roundIndex : ℕ) : Except String ℚ := do
  let rate ← match policy.acceptanceModel with
    | .expected | .expectedPrefix => .ok (policy.acceptanceRate.getD 0)
    | .trace => traceAt policy.acceptanceTrace roundIndex "MTP acceptance_model='trace' requires acceptance_trace"
  refuse (¬(0 ≤ rate ∧ rate ≤ 1)) "MTP acceptance value must be in [0, 1]"
  .ok rate

/-- `_proposal_draft_tokens`, with the cursor of the expected lengths. -/
def proposalDraftTokens (policy : MTPPolicy) (roundIndex : ℕ) (cursor : CumulativeExpectedCursor) :
    Except String (CumulativeExpectedCursor × ℕ) :=
  let maximum := policy.candidateTokens
  let minimum := min policy.minDraftTokens maximum
  match policy.proposalLengthModel with
  | .maximum => .ok (cursor, maximum)
  | .trace => do
    let length ← traceAt policy.draftLengthTrace roundIndex
      "MTP proposal_length_model='trace' requires draft_length_trace"
    .ok (cursor, max minimum (min maximum length))
  | .expectedMean =>
    match policy.expectedDraftTokensPerRound with
    | none => .error "MTP proposal_length_model='expected_mean' requires expected_draft_tokens_per_round"
    | some expected => do
      refuse (¬((minimum : ℚ) ≤ expected ∧ expected ≤ maximum))
        "MTP expected_draft_tokens_per_round must be between min_draft_tokens and candidate_tokens"
      let advanced ← cursor.advance (expected - minimum) (maximum - minimum)
      .ok (advanced.1, minimum + advanced.2)

/-! ## Rounds -/

structure MTPRound where
  roundIndex : ℕ
  mainTokens : ℕ
  draftTokens : ℕ
  verifierTokens : ℕ
  expectedAcceptedDraftTokens : ℚ
  acceptedDraftTokens : ℕ
  committedTokens : ℕ
  rejectedDraftTokens : ℕ
  planned : ℕ

structure MTPRequestCursor where
  policy : MTPPolicy
  roundIndex : ℕ := 0
  proposalCursor : CumulativeExpectedCursor := {}
  acceptanceCursor : CumulativeExpectedCursor := {}

/-- `next_round` -/
def MTPRequestCursor.nextRound (c : MTPRequestCursor) (remaining : ℕ) : Except String (MTPRequestCursor × MTPRound) := do
  refuse (remaining = 0) "MTP remaining_tokens must be positive"
  let proposal ← proposalDraftTokens c.policy c.roundIndex c.proposalCursor
  let drafts := min (remaining - 1) proposal.2
  let rate ← acceptanceRate c.policy c.roundIndex
  let expectedDrafts := expectedDraftPrefixTokens drafts rate
  let acceptance ← c.acceptanceCursor.advance expectedDrafts drafts
  let acceptedDrafts := acceptance.2
  .ok ({ c with roundIndex := c.roundIndex + 1, proposalCursor := proposal.1, acceptanceCursor := acceptance.1 },
    { roundIndex := c.roundIndex, mainTokens := 1, draftTokens := drafts, verifierTokens := 1 + drafts
      expectedAcceptedDraftTokens := expectedDrafts, acceptedDraftTokens := acceptedDrafts
      committedTokens := min remaining (1 + acceptedDrafts), rejectedDraftTokens := drafts - acceptedDrafts
      planned := proposal.2 })

def outOfFuel : String := "out of fuel"

/-- `while remaining > 0` -/
def roundsLoop : ℕ → ℕ → MTPRequestCursor → Except String (List MTPRound)
  | _, 0, _ => .ok []
  | 0, _ + 1, _ => .error outOfFuel
  | fuel + 1, remaining + 1, c => do
    let item ← c.nextRound (remaining + 1)
    let rounds ← roundsLoop fuel (remaining + 1 - item.2.committedTokens) item.1
    .ok (item.2 :: rounds)

/-- `mtp_rounds_for_output` -/
def mtpRoundsForOutput (fuel outputTokens : ℕ) (policy : MTPPolicy) : Except String (List MTPRound) :=
  roundsLoop fuel outputTokens { policy }

end HeteroSim.Mtp
