/-
An import from its preparation to its end. The preparation deals the slots of
the source buffer to the streams and fills them; every advance handles one
completion. So the run ends, every byte is written once, and a slot passes
from chunk to chunk only when the earlier one is through. What does not follow
is the order of the writes: a later chunk may overtake an earlier one.
-/
import HeteroSim.Transfer.Phases

namespace HeteroSim.Transfer

variable {W S : Type} {P : Platform W S} {cfg : Config} {locate : Locate W} {imp imp' : Import} {clock : ℚ}
  {s t : Executor W}

/-! ## Advancing -/

/-- The refusal of what a phase would submit. -/
inductive Refused (P : Platform W S) (cfg : Config) (locate : Locate W) (imp : Import) (s : Executor W) (e : Raised) : Prop
  | action {now : ℚ} {id : ℕ} {chunk : Chunk} {action : ImportAction} {t : Executor W}
      (hearliest : imp.earliest = .ok (now, id, chunk)) (haction : chunk.actions[chunk.position]? = some action)
      (h : submitAction P cfg action now s = .error e t)
  | cut {now : ℚ} {id : ℕ} {chunk : Chunk} {next : Cut × Row} (hearliest : imp.earliest = .ok (now, id, chunk))
      (hnext : imp.nextCut chunk.cut.stream chunk.cut.slot = some next)
      (h : chunkActions P locate imp.setup s.world next.1 next.2 = .error e)
  | read {now : ℚ} {id : ℕ} {chunk : Chunk} {next : Cut × Row} {made : ImportAction × List ImportAction} {t : Executor W}
      (hearliest : imp.earliest = .ok (now, id, chunk))
      (hnext : imp.nextCut chunk.cut.stream chunk.cut.slot = some next)
      (hmade : chunkActions P locate imp.setup s.world next.1 next.2 = .ok made)
      (h : submitAction P cfg made.1 now s = .error e t)

/-- **Advancing** a running import leaves a running one, with less to do. -/
theorem Running.advance {token : ℕ} (hon : OnTime P) (h : Running P locate clock imp) (hshown : Shown imp)
    (hcall : advanceExternal P cfg locate token imp s = .ok imp' t) :
    (∃ now, Running P locate now imp') ∧ Shown imp' ∧ work imp' < work imp ∧ SameImport imp imp' ∧ Narrows imp imp' := by
  unfold advanceExternal at hcall
  obtain ⟨_, u₁, h₁, hcall₁⟩ := bind_eq_ok hcall
  obtain ⟨_, u₂, h₂, hcall₂⟩ := bind_eq_ok hcall₁
  obtain ⟨_, u₃, h₃, hcall₃⟩ := bind_eq_ok hcall₂
  obtain ⟨event, u₄, h₄, hcall₄⟩ := bind_eq_ok hcall₃
  obtain ⟨next, u₅, hhandle, hplan⟩ := bind_eq_ok hcall₄
  obtain ⟨hearliest, -⟩ := raise_eq_ok h₄
  cases hplan
  obtain ⟨hrunning, hwork, hsame, hnarrow, hdone⟩ := h.handled hon hearliest hhandle
  exact ⟨⟨event.1, hrunning.planned (imp.phase + 1) u₅.nextAsyncPhaseToken⟩, ⟨hdone.trans hshown.live, rfl, rfl⟩, hwork,
    ⟨hsame.setup, hsame.length, hsame.rows⟩, hnarrow⟩

theorem startChunk_error {index slot : ℕ} {now : ℚ} {e : Raised} (hun : (imp.streamAt index).unstarted) (hf : Flow imp)
    (hcall : startChunk P cfg locate imp index slot now s = .error e t) :
    ∃ next, imp.nextCut index slot = some next ∧ (chunkActions P locate imp.setup s.world next.1 next.2 = .error e ∨
      ∃ made, chunkActions P locate imp.setup s.world next.1 next.2 = .ok made ∧ submitAction P cfg made.1 now s = .error e t) := by
  obtain ⟨place, row, hplace, hrow⟩ := (hf.sound _ (streamAt_mem (lt_of_unstarted hun))).row hun
  have hnext : imp.nextCut index slot = some (⟨index, slot, place, (imp.streamAt index).offset,
      min imp.setup.chunkBytes (row.sizeBytes - (imp.streamAt index).offset)⟩, row) := by
    rw [Import.nextCut, hplace]
    change (imp.setup.destinations[place]?).map _ = _
    rw [hrow]
    rfl
  refine ⟨_, hnext, ?_⟩
  unfold startChunk at hcall
  simp only [hnext] at hcall
  rw [get_bind_eq] at hcall
  cases hmade : chunkActions P locate imp.setup s.world _ row with
  | error e' =>
    rw [hmade] at hcall
    cases hcall
    exact .inl rfl
  | ok made =>
    rw [hmade] at hcall
    refine .inr ⟨made, rfl, ?_⟩
    have hcall : (submitAction P cfg made.1 now >>= fun done => pure (imp.started _ row made.1 made.2 now done)) s =
      .error e t := hcall
    cases hsub : submitAction P cfg made.1 now s with
    | error e' u =>
      rw [bind_error_eq hsub] at hcall
      cases hcall
      rfl
    | ok done u =>
      rw [bind_ok_eq hsub] at hcall
      cases hcall

/-- **An advance that raises** had nothing left to do, or was refused what it would submit. -/
theorem Running.refused {e : Raised} (h : Running P locate clock imp) (hshown : Shown imp)
    (hcall : advanceExternal P cfg locate imp.phaseToken imp s = .error e t) :
    imp.final = true ∨ Refused P cfg locate imp s e := by
  by_cases hfinal : imp.final = true
  · exact .inl hfinal
  refine .inr ?_
  have hevents : ∃ event events, imp.events = event :: events := by
    rw [hshown.final] at hfinal
    cases hev : imp.events with
    | nil => simp [hev] at hfinal
    | cons event events => exact ⟨event, events, rfl⟩
  obtain ⟨event, events, hevents⟩ := hevents
  have hkey : (ofLex event).2 ∈ imp.chunks.keys := by
    refine h.ledger.pending.mem_iff.1 ?_
    rw [hevents]
    exact List.mem_cons_self
  obtain ⟨chunk, hchunk⟩ := Dict.mem_keys.1 hkey
  have hearliest : imp.earliest = .ok ((ofLex event).1, (ofLex event).2, chunk) := by
    rw [Import.earliest, hevents]
    simp only [List.head?_cons, hchunk]
  unfold advanceExternal at hcall
  rw [bind_ok_eq (raise_refuse_ok (not_not.2 rfl)), bind_ok_eq (raise_refuse_ok (by simp [hshown.live])),
    bind_ok_eq (raise_refuse_ok hfinal), hearliest] at hcall
  have hcall : (handlePhase P cfg locate imp (ofLex event).1 (ofLex event).2 chunk >>= fun next =>
    externalPlan { next with phase := imp.phase + 1 }) s = .error e t := hcall
  cases hhandle : handlePhase P cfg locate imp (ofLex event).1 (ofLex event).2 chunk s with
  | ok next u =>
    rw [bind_ok_eq hhandle] at hcall
    cases hcall
  | error e' u =>
    rw [bind_error_eq hhandle] at hcall
    cases hcall
    unfold handlePhase at hhandle
    cases haction : chunk.actions[chunk.position]? with
    | some action =>
      simp only [haction] at hhandle
      cases hsub : submitAction P cfg action (ofLex event).1 s with
      | ok done v =>
        rw [bind_ok_eq hsub] at hhandle
        cases hhandle
      | error e' v =>
        rw [bind_error_eq hsub] at hhandle
        cases hhandle
        exact .action hearliest haction hsub
    | none =>
      simp only [haction] at hhandle
      split at hhandle
      · next hun =>
        cases hstart : startChunk P cfg locate imp chunk.cut.stream chunk.cut.slot (ofLex event).1 s with
        | ok next v =>
          rw [bind_ok_eq hstart] at hhandle
          cases hhandle
        | error e' v =>
          rw [bind_error_eq hstart] at hhandle
          cases hhandle
          obtain ⟨next, hnext, hcut | ⟨made, hmade, hread⟩⟩ := startChunk_error hun h.flow hstart
          · exact .cut hearliest hnext hcut
          · exact .read hearliest hnext hmade hread
      · cases hhandle

/-! ## Dealing the slots -/

def freeCount (imp : Import) : ℕ := (imp.streams.flatMap ImportStream.free).length

theorem set_modify {α : Type} (l : List α) (i : ℕ) (x : α) (f : α → α) : (l.set i x).modify i f = l.set i (f x) := by
  refine List.ext_getElem? fun j => ?_
  rw [List.getElem?_modify, List.getElem?_set, List.getElem?_set]
  by_cases hij : i = j
  · subst hij
    by_cases hlt : i < l.length <;> simp [hlt]
  · simp [hij]

theorem modify_set {α : Type} (l : List α) (i : ℕ) (x : α) (f : α → α) : (l.modify i f).set i x = l.set i x := by
  refine List.ext_getElem? fun j => ?_
  rw [List.getElem?_set, List.getElem?_set, List.getElem?_modify, List.length_modify]
  by_cases hij : i = j
  · rw [if_pos hij, if_pos hij]
  · simp [hij]

theorem moved_with_free (stream : ImportStream) (free : List ℕ) (piece : Piece) (row : Row) :
    ({ stream with free } : ImportStream).moved piece row = { stream.moved piece row with free } := by
  unfold ImportStream.moved
  split <;> rfl

/-- The slot may be taken before its chunk starts. -/
theorem taken_started {index : ℕ} {free : List ℕ} (hindex : index < imp.streams.length) {next : Cut × Row}
    (hstream : next.1.stream = index) (made : ImportAction × List ImportAction) (now done : ℚ) :
    (imp.started next.1 next.2 made.1 made.2 now done).taken index free =
      (imp.taken index free).started next.1 next.2 made.1 made.2 now done := by
  have hat := @taken_streamAt imp index free hindex index
  rw [if_pos rfl] at hat
  unfold Import.started
  simp only [hstream, hat, moved_with_free]
  unfold Import.taken Import.submitted
  simp only [set_modify, modify_set]

/-- **A chunk for a free slot.** -/
theorem Running.dealt {index slot : ℕ} {free : List ℕ} {next : Cut × Row} {made : ImportAction × List ImportAction}
    {done : ℚ} (h : Running P locate clock imp) (hfree : (imp.streamAt index).free = slot :: free)
    (hstarts : Starts P locate imp index slot clock next made done) (hclock : imp.setup.startNs ≤ clock) :
    Running P locate clock ((imp.started next.1 next.2 made.1 made.2 clock done).taken index free) ∧
      freeCount ((imp.started next.1 next.2 made.1 made.2 clock done).taken index free) < freeCount imp ∧
      SameImport imp ((imp.started next.1 next.2 made.1 made.2 clock done).taken index free) := by
  have hstream := hstarts.stream.1
  have hindex : index < imp.streams.length := hstream ▸ lt_of_unstarted hstarts.unstarted
  have hset : (imp.taken index free).streams = imp.streams.set index { imp.streamAt index with free } := modify_eq_set hindex _
  have hlen : (imp.taken index free).streams.length = imp.streams.length := by rw [hset, List.length_set]
  have hrows : ∀ k, ((imp.taken index free).streamAt k).rows = (imp.streamAt k).rows := by
    intro k
    rw [taken_streamAt hindex]
    split
    · next he => rw [he]
    · rfl
  have hun : ∀ k, ((imp.taken index free).streamAt k).unstarted → (imp.streamAt k).unstarted := by
    intro k hk
    rw [taken_streamAt hindex] at hk
    split at hk
    · next he => rw [he]; exact hk
    · exact hk
  obtain ⟨hslots, hloose⟩ := h.slots.taken hindex hfree
  have hledger : Ledger P locate clock (imp.taken index free) := h.ledger.streams (imp.taken index free).streams hun
  have hflow : Flow (imp.taken index free) := h.flow.streams hindex hset rfl rfl rfl
  have hnext : (imp.taken index free).nextCut index slot = imp.nextCut index slot := by
    rw [Import.nextCut, Import.nextCut, taken_streamAt hindex, if_pos rfl]
    rfl
  have hstarts' : Starts P locate (imp.taken index free) index slot clock next made done :=
    ⟨hnext.trans hstarts.cut, hstarts.made, hstarts.onTime⟩
  have hslot : slot % (imp.taken index free).streams.length = index := by
    rw [hlen]
    exact h.slots.free index slot (hfree ▸ List.mem_cons_self)
  rw [taken_started hindex hstream]
  obtain ⟨hrunning, -, hsame⟩ := started_keeps hledger hslots hflow
    ⟨h.counted.actions, h.counted.bound, h.counted.attained⟩ hstarts' hloose hslot
    (fun _ => hclock.trans hstarts.onTime) fun k hk slot' hslot' => by
      rw [hlen] at hslot'
      rw [taken_streamAt hindex]
      obtain hmem | hold := h.kept k (hun k hk) slot' hslot'
      · split
        · next he =>
          rw [he, hfree] at hmem
          obtain rfl | hmem := List.mem_cons.1 hmem
          · exact .inl ⟨he, rfl⟩
          · exact .inr (.inl hmem)
        · exact .inr (.inl hmem)
      · exact .inr (.inr hold)
  refine ⟨hrunning, ?_, ⟨hsame.setup, hsame.length.trans hlen, fun k => (hsame.rows k).trans (hrows k)⟩⟩
  have hstart : freeCount ((imp.taken index free).started next.1 next.2 made.1 made.2 clock done) =
      freeCount (imp.taken index free) := by
    refine (@flatMap_set (imp.taken index free) _ ImportStream.free next.1.stream _ [] [] (by rw [hlen, hstream]; exact hindex) ?_).length_eq.symm
    rw [ImportStream.moved_free]
  have htaken : freeCount imp = freeCount (imp.taken index free) + 1 := by
    have hperm := @flatMap_set imp _ ImportStream.free index { imp.streamAt index with free } [slot] [] hindex
      (by rw [hfree]; exact .refl _)
    have := hperm.length_eq
    rw [List.nil_append, List.length_append, List.length_singleton, ← hset] at this
    rw [freeCount, freeCount]
    omega
  rw [hstart]
  omega

/-- A stream that a round would pass over. -/
def Settled (imp : Import) (index : ℕ) : Prop := (imp.streamAt index).unstarted → (imp.streamAt index).free = []

/-- What dealing does: it keeps what holds, and takes a slot if it says so. -/
structure Deals (P : Platform W S) (locate : Locate W) (clock : ℚ) (imp : Import) (b : Bool) (imp' : Import) : Prop where
  running : Running P locate clock imp'
  same : SameImport imp imp'
  idle : imp'.done = imp.done
  took : b = true → freeCount imp' < freeCount imp
  kept : b = false → imp' = imp

theorem dealTurn_ok {index : ℕ} {r : Bool × Import} (hon : OnTime P) (h : Running P locate clock imp)
    (hclock : imp.setup.startNs ≤ clock) (hcall : dealTurn P cfg locate clock index imp s = .ok r t) :
    Deals P locate clock imp r.1 r.2 ∧ (r.1 = false → Settled imp index) := by
  have hsame : Deals P locate clock imp false imp := ⟨h, .refl imp, rfl, fun hb => (by cases hb), fun _ => rfl⟩
  unfold dealTurn at hcall
  cases hfree : (imp.streamAt index).free with
  | nil =>
    simp only [hfree] at hcall
    cases hcall
    exact ⟨hsame, fun _ _ => hfree⟩
  | cons slot free =>
    simp only [hfree] at hcall
    split at hcall
    · obtain ⟨next, u, hstart, hcall⟩ := bind_eq_ok hcall
      cases hcall
      obtain ⟨cut, made, done, hstarts, rfl⟩ := startChunk_ok hon hstart
      obtain ⟨hrunning, hcount, hsame'⟩ := h.dealt hfree hstarts hclock
      exact ⟨⟨hrunning, hsame', rfl, fun _ => hcount, fun hb => by cases hb⟩, fun hb => by cases hb⟩
    · next hun =>
      cases hcall
      exact ⟨hsame, fun _ hk => absurd hk hun⟩

theorem dealRound_ok (hon : OnTime P) : ∀ {indices : List ℕ} {imp : Import} {s t : Executor W} {r : Bool × Import},
    Running P locate clock imp → imp.setup.startNs ≤ clock → dealRound P cfg locate clock indices imp s = .ok r t →
      Deals P locate clock imp r.1 r.2 ∧ (r.1 = false → ∀ index ∈ indices, Settled imp index)
  | [], imp, s, t, r, h, _, hcall => by
    cases hcall
    exact ⟨⟨h, .refl imp, rfl, fun hb => (by cases hb), fun _ => rfl⟩, fun _ _ hmem => by cases hmem⟩
  | index :: indices, imp, s, t, r, h, hclock, hcall => by
    rw [dealRound] at hcall
    obtain ⟨turn, u, hturn, hcall⟩ := bind_eq_ok hcall
    obtain ⟨rest, v, hrest, hcall⟩ := bind_eq_ok hcall
    cases hcall
    obtain ⟨hdeal, hsettled⟩ := dealTurn_ok hon h hclock hturn
    obtain ⟨hdeals, hsettles⟩ := dealRound_ok hon hdeal.running (hdeal.same.setup ▸ hclock) hrest
    have hcount : rest.1 = true ∨ rest.1 = false → turn.1 = true ∨ rest.1 = true → freeCount rest.2 < freeCount imp := by
      intro hcases hor
      have hle : freeCount turn.2 ≤ freeCount imp := by
        cases hb : turn.1 with
        | true => exact (hdeal.took hb).le
        | false => rw [hdeal.kept hb]
      have hle' : freeCount rest.2 ≤ freeCount turn.2 := by
        cases hb : rest.1 with
        | true => exact (hdeals.took hb).le
        | false => rw [hdeals.kept hb]
      obtain hb | hb := hor
      · exact hle'.trans_lt (hdeal.took hb)
      · exact (hdeals.took hb).trans_le hle
    refine ⟨⟨hdeals.running, hdeal.same.trans hdeals.same, hdeals.idle.trans hdeal.idle, fun hb => ?_, fun hb => ?_⟩,
      fun hb j hj => ?_⟩
    · exact hcount (Bool.eq_false_or_eq_true rest.1) (by simpa using hb)
    · obtain ⟨hb, hb'⟩ := Bool.or_eq_false_iff.1 hb
      exact (hdeals.kept hb').trans (hdeal.kept hb)
    · obtain ⟨hb, hb'⟩ := Bool.or_eq_false_iff.1 hb
      obtain rfl | hj := List.mem_cons.1 hj
      · exact hsettled hb
      · have := hsettles hb' j hj
        rwa [hdeal.kept hb] at this

/-- **Dealing** ends with every stream's slots full, as long as it has something to carry. -/
theorem dealSlots_ok {fuel : ℕ} (hon : OnTime P) (h : Running P locate clock imp) (hclock : imp.setup.startNs ≤ clock)
    (hfuel : freeCount imp < fuel) (hcall : dealSlots P cfg locate clock fuel imp s = .ok imp' t) :
    Running P locate clock imp' ∧ SameImport imp imp' ∧ imp'.done = imp.done ∧ ∀ k, Settled imp' k := by
  induction fuel generalizing imp s with
  | zero => exact absurd hfuel (Nat.not_lt_zero _)
  | succ fuel ih =>
    rw [dealSlots] at hcall
    obtain ⟨round, u, hround, hcall⟩ := bind_eq_ok hcall
    obtain ⟨hdeals, hsettles⟩ := dealRound_ok hon h hclock hround
    cases hb : round.1 with
    | true =>
      rw [hb, if_pos rfl] at hcall
      obtain ⟨hrunning, hsame, hdone, hsettled⟩ := ih hdeals.running (by rw [hdeals.same.setup]; exact hclock)
        (by have := hdeals.took hb; omega) hcall
      exact ⟨hrunning, hdeals.same.trans hsame, hdone.trans hdeals.idle, hsettled⟩
    | false =>
      rw [hb, if_neg (by simp)] at hcall
      cases hcall
      have hkept := hdeals.kept hb
      refine ⟨hdeals.running, hdeals.same, hdeals.idle, fun k hk => ?_⟩
      rw [hkept] at hk ⊢
      exact hsettles hb k (List.mem_range.2 (lt_of_unstarted hk)) hk

end HeteroSim.Transfer
