/-
What an import has submitted, chunk by chunk and stream by stream. A chunk's
actions are told in order, each at the completion of the one before it; a
stream's chunks carry the consecutive pieces of its rows.
-/
import HeteroSim.Pieces
import HeteroSim.Transfer.Import

namespace HeteroSim.Transfer

variable {W S : Type} {P : Platform W S} {cfg : Config} {locate : Locate W} {setup : ImportSetup}

/-! ## The log of a chunk -/

/-- What was submitted of a chunk. -/
def chunkLog (id : ℕ) (log : List Submission) : List Submission := log.filter fun a => a.chunk = id

theorem mem_chunkLog {id : ℕ} {log : List Submission} {a : Submission} : a ∈ chunkLog id log ↔ a ∈ log ∧ a.chunk = id := by
  simp [chunkLog]

theorem chunkLog_self (log : List Submission) (a : Submission) : chunkLog a.chunk (log ++ [a]) = chunkLog a.chunk log ++ [a] := by
  simp [chunkLog]

theorem chunkLog_other {id : ℕ} (log : List Submission) {a : Submission} (h : a.chunk ≠ id) :
    chunkLog id (log ++ [a]) = chunkLog id log := by simp [chunkLog, h]

/-- A chunk's actions as far as they were submitted: each at the completion of the one before it, the last
completing at `t`. -/
inductive Told (id : ℕ) (cut : Cut) (actions : List ImportAction) : List Submission → ℚ → Prop
  | read {action : ImportAction} {start t : ℚ} (haction : actions.head? = some action) (hle : start ≤ t) :
      Told id cut actions [⟨id, cut, 0, actions.length - 1, action, start, t⟩] t
  | next {l : List Submission} {action : ImportAction} {t u : ℚ} (h : Told id cut actions l t)
      (haction : actions[l.length]? = some action) (hle : t ≤ u) :
      Told id cut actions (l ++ [⟨id, cut, l.length, actions.length - (l.length + 1), action, t, u⟩]) u

namespace Told

variable {id : ℕ} {cut : Cut} {actions : List ImportAction} {l : List Submission} {t : ℚ}

theorem length_le (h : Told id cut actions l t) : l.length ≤ actions.length := by
  cases h with
  | read haction => cases actions with
    | nil => cases haction
    | cons => simp
  | next h haction =>
    rw [List.length_append, List.length_singleton]
    exact (List.getElem?_eq_some_iff.1 haction).1

theorem cut_eq (h : Told id cut actions l t) : ∀ a ∈ l, a.cut = cut := by
  induction h with
  | read => simp
  | next _ _ _ ih =>
    intro a ha
    obtain ha | ha := List.mem_append.1 ha
    · exact ih a ha
    · rw [List.mem_singleton.1 ha]

/-- Nothing of the chunk completes behind `t`. -/
theorem completion_le (h : Told id cut actions l t) : ∀ a ∈ l, a.completionNs ≤ t := by
  induction h with
  | read => simp
  | next _ _ hle ih =>
    intro a ha
    obtain ha | ha := List.mem_append.1 ha
    · exact (ih a ha).trans hle
    · rw [List.mem_singleton.1 ha]

/-- The last action that was submitted. -/
theorem last (h : Told id cut actions l t) :
    ∃ a ∈ l, a.completionNs = t ∧ a.left = actions.length - l.length := by
  cases h with
  | read => exact ⟨_, List.mem_singleton_self _, rfl, by simp⟩
  | next => exact ⟨_, List.mem_append_right _ (List.mem_singleton_self _), rfl, by simp⟩

theorem ne_nil (h : Told id cut actions l t) : l ≠ [] := by
  obtain ⟨a, ha, -⟩ := h.last
  exact List.ne_nil_of_mem ha

end Told

/-! ## Targets -/

def ImportAction.isTarget : ImportAction → Bool
  | .memory role _ _ _ _ => role = .target
  | .link _ _ => false

/-- The pieces whose target writes were submitted. -/
def targets (log : List Submission) : List Piece := (log.filter fun a => a.action.isTarget).map fun a => a.cut.piece

/-- The pieces of a stream whose source reads were submitted. -/
def reads (index : ℕ) (log : List Submission) : List Piece :=
  (log.filter fun a => a.index = 0 ∧ a.cut.stream = index).map fun a => a.cut.piece

theorem targets_append (l l' : List Submission) : targets (l ++ l') = targets l ++ targets l' := by
  rw [targets, List.filter_append, List.map_append]
  rfl

theorem reads_append (index : ℕ) (l l' : List Submission) : reads index (l ++ l') = reads index l ++ reads index l' := by
  rw [reads, List.filter_append, List.map_append]
  rfl

theorem reads_later {index : ℕ} {a : Submission} (h : a.index ≠ 0) : reads index [a] = [] := by simp [reads, h]

/-- A chunk's actions were made for its cut. -/
def Made (P : Platform W S) (locate : Locate W) (setup : ImportSetup) (cut : Cut) (actions : List ImportAction) : Prop :=
  ∃ w row made, setup.destinations[cut.piece.row]? = some row ∧ chunkActions P locate setup w cut row = .ok made ∧
    actions = made.1 :: made.2

theorem importLinks_targets (amount : ℕ) (hops : List RouteHop) :
    (importLinks amount hops).filter ImportAction.isTarget = [] := by
  rw [List.filter_eq_nil_iff]
  intro a ha
  obtain ⟨hop, -, rfl⟩ := List.mem_map.1 ha
  simp [ImportAction.isTarget]

theorem relayActions_targets {base amount : ℕ} : ∀ {relays : List (String × String × Allocation)} {previous : String}
    {relayed : List ImportAction × String}, relayActions P base amount relays previous = .ok relayed →
      relayed.1.filter ImportAction.isTarget = []
  | [], _, _, h => by
    cases h
    rfl
  | relay :: relays, _, _, h => by
    rw [relayActions] at h
    obtain ⟨hops, -, h⟩ := bind_ok.1 h
    obtain ⟨address, -, h⟩ := bind_ok.1 h
    obtain ⟨rest, hrest, h⟩ := bind_ok.1 h
    cases h
    have := relayActions_targets hrest
    simp [importLinks_targets, ImportAction.isTarget, this]

theorem mirrorActions_targets {w : W} {offset amount : ℕ} {mirror : Option Mirror} {mirrored : List ImportAction}
    (h : mirrorActions locate w offset amount mirror = .ok mirrored) : mirrored.filter ImportAction.isTarget = [] := by
  cases mirror with
  | none =>
    cases h
    rfl
  | some mirror =>
    rw [mirrorActions] at h
    obtain ⟨-, -, h⟩ := bind_ok.1 h
    obtain ⟨address, -, h⟩ := bind_ok.1 h
    cases h
    rfl

/-- **A chunk writes its piece to the target once**, and not with its first action. -/
theorem Made.targets {cut : Cut} {actions : List ImportAction} (h : Made P locate setup cut actions) :
    ∃ read rest, actions = read :: rest ∧ read.isTarget = false ∧ (rest.filter ImportAction.isTarget).length = 1 := by
  obtain ⟨w, row, made, -, hmade, rfl⟩ := h
  rw [chunkActions] at hmade
  obtain ⟨address, -, hmade⟩ := bind_ok.1 hmade
  obtain ⟨relayed, hrelayed, hmade⟩ := bind_ok.1 hmade
  obtain ⟨hops, -, hmade⟩ := bind_ok.1 hmade
  obtain ⟨target, -, hmade⟩ := bind_ok.1 hmade
  obtain ⟨mirrored, hmirrored, hmade⟩ := bind_ok.1 hmade
  cases hmade
  refine ⟨_, _, rfl, rfl, ?_⟩
  rw [List.filter_append, List.filter_append, relayActions_targets hrelayed, importLinks_targets, List.filter_cons,
    mirrorActions_targets hmirrored]
  rfl

/-- The targets that a chunk has still to write. -/
def Chunk.pending (chunk : Chunk) : List Piece :=
  ((chunk.actions.drop chunk.position).filter ImportAction.isTarget).map fun _ => chunk.cut.piece

/-! ## The pieces of a stream -/

/-- The pieces of a row from an offset on. -/
def rowPieces (setup : ImportSetup) (place offset : ℕ) : List Piece :=
  match setup.destinations[place]? with
  | none => []
  | some row => (pieces setup.chunkBytes row.sizeBytes offset).map fun p => ⟨place, p.1, p.2⟩

theorem rowPieces_of {place offset : ℕ} {row : Row} (h : setup.destinations[place]? = some row) :
    rowPieces setup place offset = (pieces setup.chunkBytes row.sizeBytes offset).map fun p => ⟨place, p.1, p.2⟩ := by
  rw [rowPieces, h]

/-- The pieces of some rows. -/
def rowsPieces (setup : ImportSetup) (places : List ℕ) : List Piece := places.flatMap fun place => rowPieces setup place 0

namespace ImportStream

variable {stream : ImportStream}

/-- What a stream has still to carry. -/
def ahead (setup : ImportSetup) (stream : ImportStream) : List Piece :=
  match stream.rows.drop stream.cursor with
  | [] => []
  | place :: places => rowPieces setup place stream.offset ++ rowsPieces setup places

/-- Where a stream may stand: within its current row, if it has one. -/
structure Sound (setup : ImportSetup) (stream : ImportStream) : Prop where
  rows : ∀ place ∈ stream.rows, place < setup.destinations.length
  offset : ∀ place row, stream.rows[stream.cursor]? = some place → setup.destinations[place]? = some row →
    stream.offset < row.sizeBytes

theorem ahead_of_done (h : ¬stream.unstarted) : stream.ahead setup = [] := by
  rw [ahead, List.drop_eq_nil_of_le (Nat.le_of_not_lt h)]

/-- The current row of a stream that is not through. -/
theorem Sound.row (hs : stream.Sound setup) (h : stream.unstarted) :
    ∃ place row, stream.rows[stream.cursor]? = some place ∧ setup.destinations[place]? = some row := by
  have hplace : stream.rows[stream.cursor]? = some (stream.rows.get ⟨stream.cursor, h⟩) := List.getElem?_eq_getElem h
  have hlt := hs.rows _ (List.mem_of_getElem? hplace)
  exact ⟨_, _, hplace, List.getElem?_eq_getElem hlt⟩

/-- The next piece of a stream, and how it stands behind it. -/
theorem Sound.next (hs : stream.Sound setup) (hchunk : 0 < setup.chunkBytes) {place : ℕ} {row : Row}
    (hplace : stream.rows[stream.cursor]? = some place) (hrow : setup.destinations[place]? = some row) :
    stream.ahead setup = ⟨place, stream.offset, min setup.chunkBytes (row.sizeBytes - stream.offset)⟩ ::
        (stream.moved ⟨place, stream.offset, min setup.chunkBytes (row.sizeBytes - stream.offset)⟩ row).ahead setup ∧
      (stream.moved ⟨place, stream.offset, min setup.chunkBytes (row.sizeBytes - stream.offset)⟩ row).Sound setup := by
  have hlt := hs.offset place row hplace hrow
  have hdrop : stream.rows.drop stream.cursor = place :: stream.rows.drop (stream.cursor + 1) := by
    obtain ⟨hcursor, rfl⟩ := List.getElem?_eq_some_iff.1 hplace
    exact List.drop_eq_getElem_cons hcursor
  have hahead : stream.ahead setup = rowPieces setup place stream.offset ++
      rowsPieces setup (stream.rows.drop (stream.cursor + 1)) := by rw [ahead, hdrop]
  rw [hahead, rowPieces_of hrow, pieces_of_lt hchunk hlt, moved]
  split
  · next hend =>
    have hend : stream.offset + min setup.chunkBytes (row.sizeBytes - stream.offset) = row.sizeBytes := hend
    refine ⟨?_, hs.rows, fun place' row' _ hrow' => row'.size_pos⟩
    rw [hend, pieces_of_le le_rfl, List.map_cons, List.map_nil, List.singleton_append]
    congr 1
    rw [ahead]
    cases hrest : stream.rows.drop (stream.cursor + 1) with
    | nil => simp only; rfl
    | cons next places => simp only; rw [rowsPieces, List.flatMap_cons]; rfl
  · next hend =>
    have hend : stream.offset + min setup.chunkBytes (row.sizeBytes - stream.offset) ≠ row.sizeBytes := hend
    refine ⟨?_, hs.rows, fun place' row' hplace' hrow' => ?_⟩
    · rw [List.map_cons, List.cons_append]
      congr 1
      rw [ahead, hdrop]
      simp only
      rw [rowPieces_of hrow]
    · obtain rfl : place = place' := Option.some.inj (hplace.symm.trans hplace')
      obtain rfl : row = row' := Option.some.inj (hrow.symm.trans hrow')
      change stream.offset + min setup.chunkBytes (row.sizeBytes - stream.offset) < row.sizeBytes
      omega

theorem moved_rows (piece : Piece) (row : Row) : (stream.moved piece row).rows = stream.rows := by
  rw [moved]
  split <;> rfl

theorem moved_free (piece : Piece) (row : Row) : (stream.moved piece row).free = stream.free := by
  rw [moved]
  split <;> rfl

end ImportStream

end HeteroSim.Transfer
