/-
The cost ledger under nested input/output transactions, by reference. Groups
are objects in a map; a transaction saves the map, with the same objects where
only the executor's own writers run, with copies where an unknown writer may
change an object in place, and then every saved map gets its own copies too.
Whatever is nested in it, a transaction that fails leaves the ledger as it was.
-/
import HeteroSim.Sharing
import HeteroSim.Transfer.Plans

namespace HeteroSim.Transfer

instance : Inhabited CostGroup := ⟨⟨"", 0, 0, 0, 0, 0, .empty, .empty⟩⟩

/-- The ledger's fields: its rows, the map of its groups, their number, and the maps saved by open transactions. -/
structure CostBooks where
  phases : List CostPhase
  store : Store GroupKey CostGroup
  groups : ℕ
  total : ℕ
  savepoints : List ℕ

namespace CostBooks

def start : CostBooks := ⟨[], ⟨[], [.empty]⟩, 0, 0, []⟩

/-- What the ledger says. -/
def ledger (s : CostBooks) : CostLedger := ⟨s.phases, s.store.contents s.groups, s.total⟩

/-- `_retain_cost_phase`: a group with the phase added is a new object, with columns of its own. -/
def retain (retainPhaseDetails : Bool) (s : CostBooks) (phase : CostPhase) : CostBooks :=
  if retainPhaseDetails then { s with phases := s.phases ++ [phase] } else
    let groups := s.store.mapAt s.groups
    -- an absent key comes last
    let place := groups.keys.idxOf phase.key
    let previous := (groups.get? phase.key).map s.store.objectAt
    { s with
      store := s.store.assign s.groups phase.key (phase.group previous place)
      total := s.total + 1 }

end CostBooks

/-- What an unknown writer does to the groups. -/
inductive Edit
  | change (key : GroupKey) (f : CostGroup → CostGroup)
  | assign (key : GroupKey) (group : CostGroup)
  | delete (key : GroupKey)
  | count (total : ℕ)

def CostBooks.edit (s : CostBooks) : Edit → CostBooks
  | .change key f => ((s.store.mapAt s.groups).get? key).elim s fun r => { s with store := s.store.change r f }
  | .assign key group => { s with store := s.store.assign s.groups key group }
  | .delete key => { s with store := s.store.delete s.groups key }
  | .count total => { s with total := total }

def CostLedger.edit (l : CostLedger) : Edit → CostLedger
  | .change key f => (l.groups.get? key).elim l fun g => { l with groups := l.groups.insert key (f g) }
  | .assign key group => { l with groups := l.groups.insert key group }
  | .delete key => { l with groups := l.groups.erase key }
  | .count total => { l with total := total }

/-! ## Transactions -/

/-- How a transaction is opened: its arguments, whether the statistics hooks are the executor's own, and whether the
runtime says that its owners' are. -/
structure Entry where
  owners : Option (List String)
  ownedTimeline : Bool
  nativeCompactCostWriter : Bool
  ownedNativeWriters : Bool

def Entry.protectAll (e : Entry) : Bool :=
  e.owners.isNone || !e.nativeCompactCostWriter || e.ownedTimeline && !e.ownedNativeWriters

/-- `cost_count` and `compact_costs`. -/
structure Checkpoint where
  costCount : ℕ
  compactCosts : Option (ℕ × ℕ)

namespace CostBooks

/-- Until the body of `_io_transaction`; the runtime's, the counters' and the caches' checkpoints are theirs. -/
def enter (retainPhaseDetails : Bool) (e : Entry) (s : CostBooks) : Checkpoint × CostBooks :=
  if retainPhaseDetails then (⟨s.phases.length, none⟩, s) else
    -- the copy is the next map
    let saved := s.store.maps.length
    let store :=
      if e.protectAll then (s.savepoints.foldl (Store.unshare · · s.groups) s.store).deepCopy s.groups
      else s.store.copy s.groups
    (⟨s.phases.length, some (saved, s.total)⟩, { s with store := store, savepoints := s.savepoints ++ [saved] })

/-- Its `except`. -/
def rollback (c : Checkpoint) (s : CostBooks) : CostBooks :=
  { s with
    phases := s.phases.take c.costCount
    groups := (c.compactCosts.map Prod.fst).getD s.groups
    total := (c.compactCosts.map Prod.snd).getD s.total }

/-- Its `finally`. -/
def finish (c : Checkpoint) (s : CostBooks) : CostBooks :=
  { s with savepoints := if c.compactCosts.isSome then s.savepoints.dropLast else s.savepoints }

/-- `_io_transaction` around a body, which may raise. -/
def ioTransaction (retainPhaseDetails : Bool) (e : Entry) (body : CostBooks → CostBooks) (raises : Bool) (s : CostBooks) :
    CostBooks :=
  let opened := s.enter retainPhaseDetails e
  let done := body opened.2
  (if raises then done.rollback opened.1 else done).finish opened.1

end CostBooks

/-- What is done under open transactions: phases retained, groups edited where the innermost protects them all, and
transactions nested, whose exceptions are caught right outside. -/
inductive Body : Bool → Bool → Type
  | done {retainPhaseDetails guarded : Bool} : Body retainPhaseDetails guarded
  | retain {retainPhaseDetails guarded : Bool} (phase : CostPhase) (rest : Body retainPhaseDetails guarded) :
      Body retainPhaseDetails guarded
  | edit (e : Edit) (rest : Body false true) : Body false true
  | io {retainPhaseDetails guarded : Bool} (e : Entry) (body : Body retainPhaseDetails e.protectAll) (raises : Bool)
      (rest : Body retainPhaseDetails guarded) : Body retainPhaseDetails guarded

def Body.run : {retainPhaseDetails guarded : Bool} → Body retainPhaseDetails guarded → CostBooks → CostBooks
  | _, _, .done, s => s
  | retainPhaseDetails, _, .retain phase rest, s => rest.run (s.retain retainPhaseDetails phase)
  | _, _, .edit e rest, s => rest.run (s.edit e)
  | retainPhaseDetails, _, .io e body raises rest, s => rest.run (s.ioTransaction retainPhaseDetails e body.run raises)

/-- The same on the ledger's values, a transaction that fails leaving nothing. -/
def Body.ledger : {retainPhaseDetails guarded : Bool} → Body retainPhaseDetails guarded → CostLedger → CostLedger
  | _, _, .done, l => l
  | retainPhaseDetails, _, .retain phase rest, l => rest.ledger (l.retain retainPhaseDetails phase)
  | _, _, .edit e rest, l => rest.ledger (l.edit e)
  | _, _, .io _ body raises rest, l => rest.ledger (if raises then l else body.ledger l)

/-- A point of a run: between the transactions that are open there. -/
inductive Within (retainPhaseDetails : Bool) : Bool → CostBooks → Prop
  | start : Within retainPhaseDetails true .start
  | run {guarded : Bool} {s : CostBooks} (h : Within retainPhaseDetails guarded s) (body : Body retainPhaseDetails guarded) :
      Within retainPhaseDetails guarded (body.run s)
  | enter {guarded : Bool} {s : CostBooks} (h : Within retainPhaseDetails guarded s) (e : Entry) :
      Within retainPhaseDetails e.protectAll (s.enter retainPhaseDetails e).2

/-! ## What saved maps see -/

variable {retainPhaseDetails : Bool} {s t : CostBooks}

namespace CostBooks

structure Sound (s : CostBooks) : Prop where
  store : s.store.Sound
  live : s.groups < s.store.maps.length
  saved : ∀ i ∈ s.savepoints, i < s.store.maps.length
  nodup : (s.groups :: s.savepoints).Nodup

/-- No group is in a saved map. -/
def Guarded (s : CostBooks) : Prop := ∀ i ∈ s.savepoints, s.store.Apart s.groups i

/-- What a body leaves alone: the rows before it, and the saved maps, with what is in them. -/
structure Keeps (retainPhaseDetails : Bool) (s t : CostBooks) : Prop where
  sound : t.Sound
  savepoints : t.savepoints = s.savepoints
  rows : ∃ added, t.phases = s.phases ++ added
  detailed : retainPhaseDetails = true → t.store = s.store ∧ t.groups = s.groups ∧ t.total = s.total
  contents : ∀ i ∈ s.savepoints, t.store.contents i = s.store.contents i
  between : ∀ i ∈ s.savepoints, ∀ j ∈ s.savepoints, i ≠ j → s.store.Apart i j → t.store.Apart i j
  apart : ∀ i ∈ s.savepoints, s.store.Apart s.groups i → t.store.Apart t.groups i

theorem Keeps.refl (h : s.Sound) : Keeps retainPhaseDetails s s :=
  ⟨h, rfl, ⟨[], (List.append_nil _).symm⟩, fun _ => ⟨rfl, rfl, rfl⟩, fun _ _ => rfl, fun _ _ _ _ _ => id, fun _ _ => id⟩

theorem Keeps.trans {u : CostBooks} (h : Keeps retainPhaseDetails s t) (h' : Keeps retainPhaseDetails t u) :
    Keeps retainPhaseDetails s u where
  sound := h'.sound
  savepoints := h'.savepoints.trans h.savepoints
  rows := by
    obtain ⟨added, ht⟩ := h.rows
    obtain ⟨more, hu⟩ := h'.rows
    exact ⟨added ++ more, by rw [hu, ht, List.append_assoc]⟩
  detailed := by
    intro hr
    obtain ⟨hs, hg, ht⟩ := h.detailed hr
    obtain ⟨hs', hg', ht'⟩ := h'.detailed hr
    exact ⟨hs'.trans hs, hg'.trans hg, ht'.trans ht⟩
  contents := fun i hi => (h'.contents i (h.savepoints ▸ hi)).trans (h.contents i hi)
  between := fun i hi j hj hne hij =>
    h'.between i (h.savepoints ▸ hi) j (h.savepoints ▸ hj) hne (h.between i hi j hj hne hij)
  apart := fun i hi ha => h'.apart i (h.savepoints ▸ hi) (h.apart i hi ha)

theorem Keeps.guarded (h : Keeps retainPhaseDetails s t) (hg : s.Guarded) : t.Guarded :=
  fun i hi => h.apart i (h.savepoints ▸ hi) (hg i (h.savepoints ▸ hi))

theorem Sound.ne (h : s.Sound) {i : ℕ} (hi : i ∈ s.savepoints) : s.groups ≠ i :=
  fun he => (List.nodup_cons.1 h.nodup).1 (he ▸ hi)

/-- A new group is in the live map only. -/
theorem Sound.assign (h : s.Sound) (key : GroupKey) (group : CostGroup) (total : ℕ) :
    Keeps false s { s with store := s.store.assign s.groups key group, total := total } ∧
      ({ s with store := s.store.assign s.groups key group, total := total } : CostBooks).ledger =
        { s.ledger with groups := s.ledger.groups.insert key group, total := total } := by
  refine ⟨⟨⟨h.store.assign h.live _ _, ?_, fun i hi => ?_, h.nodup⟩, rfl, ⟨[], (List.append_nil _).symm⟩, (fun hr => by cases hr),
    fun i hi => ?_, fun i _ j _ hne => h.store.apart_assign h.live _ _ hne, fun i hi => h.store.apart_assign h.live _ _ (h.ne hi)⟩, ?_⟩
  · show s.groups < (s.store.maps.set _ _).length
    rw [List.length_set]
    exact h.live
  · show i < (s.store.maps.set _ _).length
    rw [List.length_set]
    exact h.saved i hi
  · rw [h.store.contents_assign h.live, if_neg (h.ne hi).symm]
  · rw [ledger, h.store.contents_assign h.live, if_pos rfl]
    rfl

theorem Sound.retain (h : s.Sound) (phase : CostPhase) :
    Keeps retainPhaseDetails s (s.retain retainPhaseDetails phase) ∧
      (s.retain retainPhaseDetails phase).ledger = s.ledger.retain retainPhaseDetails phase := by
  cases retainPhaseDetails with
  | true =>
    exact ⟨⟨⟨h.store, h.live, h.saved, h.nodup⟩, rfl, ⟨[phase], rfl⟩, fun _ => ⟨rfl, rfl, rfl⟩, fun _ _ => rfl,
      fun _ _ _ _ _ => id, fun _ _ => id⟩, rfl⟩
  | false =>
    obtain ⟨hkeeps, hledger⟩ := h.assign phase.key _ (s.total + 1)
    have hplace : (if phase.key ∈ (s.store.mapAt s.groups).keys then (s.store.mapAt s.groups).keys.idxOf phase.key
        else (s.store.mapAt s.groups).keys.length) = (s.store.mapAt s.groups).keys.idxOf phase.key := by
      split
      · rfl
      · next hno => exact (List.idxOf_eq_length hno).symm
    refine ⟨hkeeps, hledger.trans ?_⟩
    rw [← hplace]
    simp only [CostLedger.retain, ledger, Bool.false_eq_true, if_false, Store.contents_get?, Store.keys_contents]

/-- Where the saved maps are guarded, they see no edit. -/
theorem Sound.edit (h : s.Sound) (hg : s.Guarded) (e : Edit) :
    Keeps false s (s.edit e) ∧ (s.edit e).ledger = s.ledger.edit e := by
  cases e with
  | change key f =>
    rw [CostBooks.edit, CostLedger.edit, show s.ledger.groups.get? key = _ from Store.contents_get? _ _ _]
    cases hr : (s.store.mapAt s.groups).get? key with
    | none => exact ⟨.refl h, rfl⟩
    | some r =>
      refine ⟨⟨⟨h.store.change r f, h.live, h.saved, h.nodup⟩, rfl, ⟨[], (List.append_nil _).symm⟩, (fun hr => by cases hr),
        fun i hi => ?_, fun i _ j _ _ => id, fun i _ => id⟩, ?_⟩
      · refine Store.contents_change_of_not_mem f fun k hk => ?_
        obtain rfl := h.store.keyed s.groups i key k r hr hk
        exact hg i hi key r hr hk
      · show CostLedger.mk _ ((s.store.change r f).contents s.groups) _ = _
        rw [h.store.contents_change f hr]
        rfl
  | assign key group => exact h.assign key group s.total
  | delete key =>
    refine ⟨⟨⟨h.store.delete h.live key, ?_, fun i hi => ?_, h.nodup⟩, rfl, ⟨[], (List.append_nil _).symm⟩, (fun hr => by cases hr),
      fun i hi => ?_, fun i _ j _ _ ha => ha.delete h.live key, fun i _ ha => ha.delete h.live key⟩, ?_⟩
    · show s.groups < (s.store.maps.set _ _).length
      rw [List.length_set]
      exact h.live
    · show i < (s.store.maps.set _ _).length
      rw [List.length_set]
      exact h.saved i hi
    · show (s.store.delete s.groups key).contents i = _
      rw [Store.contents_delete h.live, if_neg (h.ne hi).symm]
    · show CostLedger.mk _ ((s.store.delete s.groups key).contents s.groups) _ = _
      rw [Store.contents_delete h.live, if_pos rfl]
      rfl
  | count total => exact ⟨⟨⟨h.store, h.live, h.saved, h.nodup⟩, rfl, ⟨[], (List.append_nil _).symm⟩, (fun hr => by cases hr),
      fun _ _ => rfl, fun _ _ _ _ _ => id, fun _ _ => id⟩, rfl⟩

/-- An open transaction's saved map, the last one, and the state it was opened in. -/
structure Opened (s t : CostBooks) (saved : ℕ) : Prop where
  sound : t.Sound
  savepoints : t.savepoints = s.savepoints ++ [saved]
  phases : t.phases = s.phases
  live : t.groups = s.groups
  total : t.total = s.total
  groups : t.store.contents s.groups = s.store.contents s.groups
  copied : t.store.contents saved = s.store.contents s.groups
  contents : ∀ i ∈ s.savepoints, t.store.contents i = s.store.contents i
  between : ∀ i ∈ s.savepoints, ∀ j ∈ s.savepoints, i ≠ j → s.store.Apart i j → t.store.Apart i j
  apart : ∀ i ∈ s.savepoints, s.store.Apart s.groups i → t.store.Apart s.groups i ∧ t.store.Apart saved i

theorem Opened.ledger {saved : ℕ} (h : Opened s t saved) : t.ledger = s.ledger := by
  rw [CostBooks.ledger, CostBooks.ledger, h.phases, h.live, h.groups, h.total]

theorem Sound.enter (h : s.Sound) (e : Entry) :
    (s.enter false e).1 = ⟨s.phases.length, some (s.store.maps.length, s.total)⟩ ∧
      Opened s (s.enter false e).2 s.store.maps.length ∧ (e.protectAll = true → (s.enter false e).2.Guarded) := by
  have hsaved : ∀ i ∈ s.savepoints, i < s.store.maps.length ∧ s.groups ≠ i := fun i hi => ⟨h.saved i hi, h.ne hi⟩
  have hsound : ∀ {store : Store GroupKey CostGroup}, store.Sound → store.maps.length = s.store.maps.length + 1 →
      CostBooks.Sound { s with store := store, savepoints := s.savepoints ++ [s.store.maps.length] } := by
    intro store hstore hlength
    refine ⟨hstore, ?_, fun i hi => ?_, ?_⟩
    · show s.groups < store.maps.length
      rw [hlength]
      exact Nat.lt_succ_of_lt h.live
    · show i < store.maps.length
      rw [hlength]
      obtain hi | hi := List.mem_append.1 hi
      · exact Nat.lt_succ_of_lt (h.saved i hi)
      · exact (List.mem_singleton.1 hi) ▸ Nat.lt_succ_self _
    · show ((s.groups :: s.savepoints) ++ [s.store.maps.length]).Nodup
      refine List.nodup_append.2 ⟨h.nodup, List.nodup_singleton _, fun i hi j hj he => ?_⟩
      rw [List.mem_singleton.1 hj] at he
      obtain rfl | hi := List.mem_cons.1 hi
      · exact h.live.ne he
      · exact (h.saved i hi).ne he
  refine ⟨rfl, ?_⟩
  by_cases hp : e.protectAll = true
  · obtain ⟨halike, hguard⟩ := h.store.unshareAll s.savepoints hsaved
    have hlive : s.groups ≠ (s.savepoints.foldl (Store.unshare · · s.groups) s.store).maps.length := halike.length ▸ h.live.ne
    have hother : ∀ i ∈ s.savepoints, i ≠ (s.savepoints.foldl (Store.unshare · · s.groups) s.store).maps.length :=
      fun i hi => halike.length ▸ (h.saved i hi).ne
    have hcontents := halike.sound.contents_deepCopy s.groups
    have hnew : ∀ j, j ≠ s.store.maps.length → ((s.savepoints.foldl (Store.unshare · · s.groups) s.store).deepCopy
        s.groups).Apart s.store.maps.length j := by
      intro j hj
      have := halike.sound.apart_deepCopy_new s.groups (halike.length ▸ hj)
      rwa [halike.length] at this
    rw [CostBooks.enter, if_neg Bool.false_ne_true]
    simp only [hp, if_true]
    refine ⟨⟨hsound (halike.sound.deepCopy _) ?_, rfl, rfl, rfl, rfl, ?_, ?_, fun i hi => ?_, fun i hi j hj hne hij => ?_,
      fun i hi ha => ⟨?_, ?_⟩⟩, fun _ i hi => ?_⟩
    · show (_ ++ [_]).length = _
      rw [List.length_append, halike.length]
      rfl
    · rw [hcontents, if_neg hlive, halike.contents]
    · rw [hcontents, if_pos halike.length.symm, halike.contents]
    · rw [hcontents, if_neg (hother i hi), halike.contents]
    · exact Store.apart_deepCopy _ (hother i hi) (hother j hj) (halike.apart i j hne hij)
    · exact Store.apart_deepCopy _ hlive (hother i hi) (hguard i hi)
    · exact hnew i (h.saved i hi).ne
    · obtain hi | hi := List.mem_append.1 hi
      · exact Store.apart_deepCopy _ hlive (hother i hi) (hguard i hi)
      · rw [List.mem_singleton.1 hi]
        exact (hnew s.groups h.live.ne).symm
  · rw [CostBooks.enter, if_neg Bool.false_ne_true]
    simp only [hp, if_false, Bool.false_eq_true]
    have hcontents := Store.contents_copy s.store s.groups
    refine ⟨⟨hsound (h.store.copy _) List.length_append, rfl, rfl, rfl, rfl, ?_, ?_, fun i hi => ?_, fun i hi j hj _ hij => ?_,
      fun i hi ha => ⟨?_, ?_⟩⟩, fun hp => (by cases hp)⟩
    · rw [hcontents, if_neg h.live.ne]
    · rw [hcontents, if_pos rfl]
    · rw [hcontents, if_neg (h.saved i hi).ne]
    · exact Store.apart_copy _ (h.saved i hi).ne (h.saved j hj).ne hij
    · exact Store.apart_copy _ h.live.ne (h.saved i hi).ne ha
    · exact Store.apart_copy_new (h.saved i hi).ne ha

/-- A transaction closed: the ledger is the body's, or what it was. -/
theorem Opened.close {u : CostBooks} {saved : ℕ} (hs : s.Sound) (h : Opened s t saved) (hu : Keeps false t u) (raises : Bool) :
    let c : Checkpoint := ⟨s.phases.length, some (saved, s.total)⟩
    Keeps false s ((if raises then u.rollback c else u).finish c) ∧
      ((if raises then u.rollback c else u).finish c).ledger = if raises then s.ledger else u.ledger := by
  have hmem : ∀ i ∈ s.savepoints, i ∈ t.savepoints := fun i hi => h.savepoints ▸ List.mem_append_left _ hi
  have hlast : saved ∈ t.savepoints := h.savepoints ▸ List.mem_append_right _ (List.mem_singleton_self _)
  have hstack : u.savepoints = s.savepoints ++ [saved] := hu.savepoints.trans h.savepoints
  have hdrop : u.savepoints.dropLast = s.savepoints := by rw [hstack, List.dropLast_concat]
  have hnodup := hu.sound.nodup
  rw [hstack] at hnodup
  obtain ⟨added, hrows⟩ := hu.rows
  rw [h.phases] at hrows
  have hne : ∀ i ∈ s.savepoints, saved ≠ i := by
    intro i hi he
    have := (List.nodup_append.1 (List.nodup_cons.1 hnodup).2).2.2 i hi saved (List.mem_singleton_self _)
    exact this he.symm
  have hsaved : ∀ i ∈ s.savepoints, i < u.store.maps.length := fun i hi => hu.sound.saved i (hu.savepoints ▸ hmem i hi)
  cases raises with
  | true =>
    refine ⟨⟨⟨hu.sound.store, hu.sound.saved saved (hu.savepoints ▸ hlast), fun i hi => hsaved i (hdrop ▸ hi), ?_⟩, hdrop,
      ⟨[], ?_⟩, (fun hr => by cases hr), fun i hi => (hu.contents i (hmem i hi)).trans (h.contents i hi),
      fun i hi j hj hij ha => hu.between i (hmem i hi) j (hmem j hj) hij (h.between i hi j hj hij ha),
      fun i hi ha => hu.between saved hlast i (hmem i hi) (hne i hi) (h.apart i hi ha).2⟩, ?_⟩
    · show (saved :: u.savepoints.dropLast).Nodup
      rw [hdrop]
      exact List.nodup_cons.2 ⟨fun hin => hne saved hin rfl, (List.nodup_cons.1 hs.nodup).2⟩
    · show u.phases.take s.phases.length = s.phases ++ []
      rw [hrows, List.take_left, List.append_nil]
    · show CostLedger.mk (u.phases.take s.phases.length) (u.store.contents saved) s.total = _
      rw [hrows, List.take_left, hu.contents saved hlast, h.copied]
      rfl
  | false =>
    refine ⟨⟨⟨hu.sound.store, hu.sound.live, fun i hi => hsaved i (hdrop ▸ hi), ?_⟩, hdrop,
      ⟨added, hrows⟩, (fun hr => by cases hr), fun i hi => (hu.contents i (hmem i hi)).trans (h.contents i hi),
      fun i hi j hj hij ha => hu.between i (hmem i hi) j (hmem j hj) hij (h.between i hi j hj hij ha),
      fun i hi ha => hu.apart i (hmem i hi) (h.live ▸ (h.apart i hi ha).1)⟩, rfl⟩
    show (u.groups :: u.savepoints.dropLast).Nodup
    exact hu.sound.nodup.sublist ((List.dropLast_sublist _).cons_cons _)

theorem Sound.ioTransaction (h : s.Sound) (e : Entry) {body : CostBooks → CostBooks} {value : CostLedger → CostLedger}
    (hbody : ∀ t : CostBooks, t.Sound → (retainPhaseDetails = false → e.protectAll = true → t.Guarded) →
      Keeps retainPhaseDetails t (body t) ∧ (body t).ledger = value t.ledger) (raises : Bool) :
    Keeps retainPhaseDetails s (s.ioTransaction retainPhaseDetails e body raises) ∧
      (s.ioTransaction retainPhaseDetails e body raises).ledger = if raises then s.ledger else value s.ledger := by
  cases retainPhaseDetails with
  | false =>
    obtain ⟨hc, hopened, hguard⟩ := h.enter e
    obtain ⟨hkeeps, hvalue⟩ := hbody _ hopened.sound fun _ => hguard
    rw [CostBooks.ioTransaction, hc, ← hopened.ledger, ← hvalue, hopened.ledger]
    exact hopened.close h hkeeps raises
  | true =>
    obtain ⟨hkeeps, hvalue⟩ := hbody s h fun hr => (by cases hr)
    obtain ⟨added, hrows⟩ := hkeeps.rows
    obtain ⟨hstore, hgroups, htotal⟩ := hkeeps.detailed rfl
    cases raises with
    | false => exact ⟨hkeeps, hvalue⟩
    | true =>
      have hphases : (body s).phases.take s.phases.length = s.phases := by rw [hrows, List.take_left]
      have heq : s.ioTransaction true e body true = s := by
        show (⟨(body s).phases.take s.phases.length, (body s).store, (body s).groups, (body s).total, (body s).savepoints⟩ :
          CostBooks) = s
        rw [hphases, hstore, hgroups, htotal, hkeeps.savepoints]
      rw [heq]
      exact ⟨.refl h, rfl⟩

end CostBooks

/-! ## Runs -/

/-- **The ledger by reference is the ledger of values**, and a body leaves every
saved map as it was. -/
theorem Body.refines {guarded : Bool} (body : Body retainPhaseDetails guarded) :
    ∀ s : CostBooks, s.Sound → (retainPhaseDetails = false → guarded = true → s.Guarded) →
      s.Keeps retainPhaseDetails (body.run s) ∧ (body.run s).ledger = body.ledger s.ledger := by
  induction body with
  | done => exact fun s h _ => ⟨.refl h, rfl⟩
  | retain phase rest ih =>
    intro s h hg
    obtain ⟨hkeeps, hledger⟩ := h.retain phase
    obtain ⟨hrest, hvalue⟩ := ih _ hkeeps.sound fun hr hguard => hkeeps.guarded (hg hr hguard)
    exact ⟨hkeeps.trans hrest, hvalue.trans (by rw [hledger]; rfl)⟩
  | edit e rest ih =>
    intro s h hg
    obtain ⟨hkeeps, hledger⟩ := h.edit (hg rfl rfl) e
    obtain ⟨hrest, hvalue⟩ := ih _ hkeeps.sound fun hr hguard => hkeeps.guarded (hg hr hguard)
    exact ⟨hkeeps.trans hrest, hvalue.trans (by rw [hledger]; rfl)⟩
  | io e body raises rest ihbody ih =>
    intro s h hg
    obtain ⟨hkeeps, hledger⟩ := h.ioTransaction e ihbody raises
    obtain ⟨hrest, hvalue⟩ := ih _ hkeeps.sound fun hr hguard => hkeeps.guarded (hg hr hguard)
    exact ⟨hkeeps.trans hrest, hvalue.trans (by rw [hledger]; rfl)⟩

theorem CostBooks.start_sound : CostBooks.start.Sound where
  store := ⟨fun i k r hr => (by cases i <;> cases hr), fun i j k k' r hr => (by cases i <;> cases hr)⟩
  live := Nat.one_pos
  saved := fun i hi => (by cases hi)
  nodup := List.nodup_singleton _

theorem Within.sound {guarded : Bool} (h : Within retainPhaseDetails guarded s) :
    s.Sound ∧ (retainPhaseDetails = false → guarded = true → s.Guarded) := by
  induction h with
  | start => exact ⟨CostBooks.start_sound, fun _ _ i hi => (by cases hi)⟩
  | run _ body ih =>
    obtain ⟨hkeeps, -⟩ := body.refines _ ih.1 ih.2
    exact ⟨hkeeps.sound, fun hr hg => hkeeps.guarded (ih.2 hr hg)⟩
  | enter _ e ih =>
    cases retainPhaseDetails with
    | true => exact ⟨ih.1, fun hr => (by cases hr)⟩
    | false =>
      obtain ⟨-, hopened, hguard⟩ := ih.1.enter e
      exact ⟨hopened.sound, fun _ => hguard⟩

/-- **A transaction that fails leaves the ledger as it found it, whatever was
retained in it and whichever transactions nested in it committed; one that
commits leaves what its body retained, without what failed in it.** -/
theorem ledger_restored {guarded : Bool} (h : Within retainPhaseDetails guarded s) (e : Entry)
    (body : Body retainPhaseDetails e.protectAll) :
    (s.ioTransaction retainPhaseDetails e body.run true).ledger = s.ledger ∧
      (s.ioTransaction retainPhaseDetails e body.run false).ledger = body.ledger s.ledger :=
  ⟨(h.sound.1.ioTransaction e body.refines true).2, (h.sound.1.ioTransaction e body.refines false).2⟩

/-- A read of five nanoseconds. -/
def readRow : CostPhase := ⟨"paged-kv-physical-0", "memory", "hbm", "gpu", "read", 0, none, 5, .empty⟩

/-- A transaction of one owner whose writers are the executor's own. -/
def oneOwner : Entry := ⟨some ["hbm"], true, true, true⟩

/-- A transaction of all the owners. -/
def allOwners : Entry := ⟨none, false, true, false⟩

theorem ledger_restored_nested : ∃ s, Within false false s ∧ s.ledger.total = 1 ∧
    (s.ioTransaction false allOwners (Body.run (.edit (.change readRow.key fun g => { g with startNs := 7 })
      (.io oneOwner (.retain readRow .done) false .done))) true).ledger = s.ledger :=
  ⟨_, .run (.enter .start oneOwner) (.retain readRow .done), rfl,
    (ledger_restored (.run (.enter .start oneOwner) (.retain readRow .done)) allOwners _).1⟩

/-! ## The ledger of values -/

theorem Body.grown {guarded : Bool} (body : Body retainPhaseDetails guarded) : ∀ l : CostLedger,
    (∃ added, (body.ledger l).phases = l.phases ++ added) ∧
      (retainPhaseDetails = true → (body.ledger l).groups = l.groups ∧ (body.ledger l).total = l.total) := by
  induction body with
  | done => exact fun l => ⟨⟨[], (List.append_nil _).symm⟩, fun _ => ⟨rfl, rfl⟩⟩
  | @retain retainPhaseDetails guarded phase rest ih =>
    intro l
    have hone := grown_retain retainPhaseDetails l phase
    obtain ⟨added, hadded⟩ := hone.rows
    obtain ⟨⟨more, hmore⟩, hrest⟩ := ih (l.retain retainPhaseDetails phase)
    refine ⟨⟨added ++ more, by rw [Body.ledger, hmore, hadded, List.append_assoc]⟩, fun hr => ?_⟩
    obtain ⟨hg, ht⟩ := hone.grouped hr
    exact ⟨(hrest hr).1.trans hg, (hrest hr).2.trans ht⟩
  | edit e rest ih =>
    intro l
    have hphases : (l.edit e).phases = l.phases := by
      cases e with
      | change key f => cases hk : l.groups.get? key <;> simp [CostLedger.edit, hk]
      | assign | delete | count => rfl
    obtain ⟨⟨more, hmore⟩, -⟩ := ih (l.edit e)
    exact ⟨⟨more, by rw [Body.ledger, hmore, hphases]⟩, fun hr => (by cases hr)⟩
  | io e body raises rest ihbody ih =>
    intro l
    cases raises with
    | true => exact ih l
    | false =>
      obtain ⟨⟨added, hadded⟩, hbody⟩ := ihbody l
      obtain ⟨⟨more, hmore⟩, hrest⟩ := ih (body.ledger l)
      refine ⟨⟨added ++ more, ?_⟩, fun hr => ⟨(hrest hr).1.trans (hbody hr).1, (hrest hr).2.trans (hbody hr).2⟩⟩
      show (rest.ledger (body.ledger l)).phases = _
      rw [hmore, hadded, List.append_assoc]

/-- The executor's own undoing of a transaction is that of the ledger by reference. -/
theorem undoIo_costs {W S : Type} (P : Platform W S) (cfg : Config) {s s' : Executor W} {guarded : Bool}
    {body : Body cfg.retainPhaseDetails guarded} (h : s'.costs = body.ledger s.costs) : (undoIo P cfg s s').costs = s.costs := by
  obtain ⟨⟨added, hrows⟩, hdetailed⟩ := body.grown s.costs
  simp only [undoIo, h, hrows, List.take_left]
  split
  · next hr => rw [(hdetailed hr).1, (hdetailed hr).2]
  · rfl

end HeteroSim.Transfer
