/-
The way back from a snapshot. The allocator built from what a reachable one
lists has the same live extents, and what `allocate` and `release` answer
depends on nothing else: first fit finds the least address that fits, the
overlaps are those of the map, and the alias index is that of the map. So
the two answer every further sequence of calls alike, but for the wording of
an error that names one of several overlapping extents.
-/
import HeteroSim.Allocator.Snapshot

namespace HeteroSim.Allocator

/-! ## Allocators whose indexes are those of their map -/

structure Indexed (s : AllocatorState) : Prop where
  sound : Sound s
  rowed : Rowed s
  bounded : Bounded s

theorem indexed_init (cfg : AllocatorConfig) : Indexed (.init cfg) :=
  ⟨sound_init cfg, rowed_init cfg, fun _ _ hk => by cases hk⟩

theorem indexed_step {s s' : AllocatorState} (h : Indexed s) (hstep : Step (fun m => Keyed m.get?) s s') : Indexed s' :=
  ⟨(sound_step h.sound hstep).1, rowed_step (fun _ hm => hm) h.sound h.rowed hstep, bounded_step h.sound h.bounded hstep⟩

theorem reachable_indexed {P : Dict Key PhysicalAllocation → Prop} (hP : ∀ m, P m → Keyed m.get?) {cfg : AllocatorConfig}
    {s : AllocatorState} (h : Reachable P cfg s) : Indexed s :=
  ⟨(reachable_sound h).1, reachable_rowed hP h, bounded_run (sound_init cfg) (fun _ _ hk => by cases hk) h⟩

/-- An extent stored under its own key, checked or not. -/
theorem indexed_store {s : AllocatorState} {k : Key} {a : PhysicalAllocation} (h : Indexed s) (ha : a.key = k) :
    Indexed (storeAllocation k a s) := by
  have hview := view_store k a s
  have hnext := (store_rest k a s).2
  refine ⟨⟨h.sound.journaled.of_view hview (ordered_store h.sound.journaled.ordered), h.sound.index.store, ?_⟩,
    ⟨⟨?_, ?_⟩, h.rowed.rows.store h.rowed.keyed.live ha⟩, bounded_store h.bounded⟩
  · rw [hview, hnext]; exact h.sound.fresh
  · rw [get?_store]; exact h.rowed.keyed.live.update ha
  · rw [hview]; exact h.rowed.keyed.saved

theorem Indexed.search {s : AllocatorState} (h : Indexed s) {size : Int} (hsize : 0 < size) (generation : Int)
    (arena : Option Arena) : Searches (Fits s size generation arena) (exhaustedMessage s.config size generation arena)
      (findFirstFit s size generation arena) :=
  findFirstFit_search hsize generation arena h.sound.index.gaps h.rowed.rows h.bounded

/-! ## The replay -/

theorem perm_map_exists {α β : Type} {f : α → β} : ∀ {l : List β} {m : List α}, l.Perm (m.map f) →
    ∃ m' : List α, l = m'.map f ∧ m'.Perm m
  | [], m, h => ⟨[], rfl, by rw [List.map_eq_nil_iff.1 h.symm.eq_nil]⟩
  | b :: l, m, h => by
    obtain ⟨a, ha, rfl⟩ := List.mem_map.1 (h.subset List.mem_cons_self)
    obtain ⟨pre, post, rfl⟩ := List.append_of_mem ha
    have hmiddle : ((pre ++ a :: post).map f).Perm (f a :: (pre ++ post).map f) :=
      List.perm_middle.map f
    obtain ⟨m', rfl, hm'⟩ := perm_map_exists (h.trans hmiddle).cons_inv
    exact ⟨a :: m', rfl, (hm'.cons a).trans List.perm_middle.symm⟩

/-- Extents stored one after the other. -/
def storeRows (rows : List PhysicalAllocation) (s : AllocatorState) : AllocatorState :=
  rows.foldl (fun s a => storeAllocation a.key a s) s

theorem storeItems_native : ∀ {rows : List PhysicalAllocation} {ident : Nat} {s : AllocatorState},
    (∀ a ∈ rows, a.aliasOf.isSome → a.aliasGeneration ≠ none) →
      storeItems (rows.map .native) ident s = .ok (storeRows rows s)
  | [], _, _, _ => rfl
  | a :: rows, ident, s, h => by
    have hsame : nativeItem a ident = a := if_neg fun hn => h a List.mem_cons_self hn.1 hn.2
    simp only [List.map_cons, storeItems, storeItem, hsame, bind, Except.bind]
    exact storeItems_native fun b hb => h b (List.mem_cons_of_mem _ hb)

theorem indexed_storeRows : ∀ (rows : List PhysicalAllocation) {s : AllocatorState}, Indexed s →
    Indexed (storeRows rows s) ∧ (storeRows rows s).config = s.config
  | [], _, h => ⟨h, rfl⟩
  | a :: rows, s, h => by
    obtain ⟨hindexed, hconfig⟩ := indexed_storeRows rows (indexed_store h (a := a) rfl)
    exact ⟨hindexed, hconfig.trans (store_rest a.key a s).1⟩

/-- The map the replay builds: each extent under its key, over what was there. -/
theorem get?_storeRows : ∀ {rows : List PhysicalAllocation} {s : AllocatorState}, (rows.map (·.key)).Nodup →
    (∀ a ∈ rows, (storeRows rows s).allocations.get? a.key = some a) ∧
      ∀ k, k ∉ rows.map (·.key) → (storeRows rows s).allocations.get? k = s.allocations.get? k
  | [], _, _ => ⟨fun _ ha => absurd ha List.not_mem_nil, fun _ _ => rfl⟩
  | a :: rows, s, h => by
    obtain ⟨hnew, hnodup⟩ := List.nodup_cons.1 h
    obtain ⟨hin, hout⟩ := get?_storeRows (s := storeAllocation a.key a s) hnodup
    refine ⟨fun b hb => ?_, fun k hk => ?_⟩
    · rcases List.mem_cons.1 hb with rfl | hb
      · refine (hout _ hnew).trans ?_
        rw [get?_store, Function.update_self]
      · exact hin b hb
    · rw [List.map_cons, List.mem_cons, not_or] at hk
      refine (hout k hk.2).trans ?_
      rw [get?_store, Function.update_of_ne hk.1]

theorem RowsFor.keys_nodup {d : Dict Key PhysicalAllocation} {s : AllocatorState} (h : RowsFor d s)
    (hk : Keyed d.get?) : (s.addressRows.map (·.key)).Nodup := by
  have hkeys : d.values.map (·.key) = d.keys := by
    rw [Dict.values, Dict.keys, List.map_map]
    exact List.map_congr_left fun p hp => hk p.1 p.2 (Dict.get?_eq_some.2 hp)
  rw [(h.perm.map _).nodup_iff, hkeys]
  exact d.keys_nodup

/-- Storing the rows of a map, in any order, gives the map. -/
theorem storeRows_map {d : Dict Key PhysicalAllocation} {s : AllocatorState} (h : RowsFor d s) (hk : Keyed d.get?)
    {rows : List PhysicalAllocation} (hp : rows.Perm s.addressRows) (cfg : AllocatorConfig) :
    (storeRows rows (.init cfg)).allocations.get? = d.get? := by
  have hnodup : (rows.map (·.key)).Nodup := (hp.map _).nodup_iff.2 (h.keys_nodup hk)
  obtain ⟨hin, hout⟩ := get?_storeRows (s := .init cfg) hnodup
  funext k
  have hmem : ∀ {a}, a ∈ rows ↔ ∃ j, d.get? j = some a := fun {a} => by
    rw [hp.mem_iff, h.perm.mem_iff, Dict.mem_values]
  cases hd : d.get? k with
  | some a =>
    rw [← hk k a hd]
    exact hin a (hmem.2 ⟨k, hd⟩)
  | none =>
    refine hout k fun hkeys => ?_
    obtain ⟨a, ha, rfl⟩ := List.mem_map.1 hkeys
    obtain ⟨j, hj⟩ := hmem.1 ha
    rw [← hk j a hj] at hj
    rw [hd] at hj
    cases hj

/-! ## Answers -/

/-- The results agree where either returns; the errors may differ in text. -/
def Agree {α : Type} (x y : Except String α) : Prop := ∀ a, x = .ok a ↔ y = .ok a

theorem Agree.refl {α : Type} (x : Except String α) : Agree x x := fun _ => Iff.rfl

theorem agree_error {α : Type} (e e' : String) : Agree (.error e : Except String α) (.error e') := fun _ => ⟨nofun, nofun⟩

theorem agree_refuse {p q : Prop} [Decidable p] [Decidable q] (h : p ↔ q) (e e' : String) :
    Agree (refuse p e) (refuse q e') := fun u => by
  rw [refuse_ok, refuse_ok, h]

theorem Agree.bind {α β : Type} {x y : Except String α} {f g : α → Except String β} (h : Agree x y)
    (hf : ∀ a, Agree (f a) (g a)) : Agree (x >>= f) (y >>= g) := fun b => by
  rw [bind_ok, bind_ok]
  exact exists_congr fun a => and_congr (h a) (hf a b)

theorem Agree.ite {α : Type} {p : Prop} [Decidable p] {x x' y y' : Except String α} (h : Agree x y) (h' : Agree x' y') :
    Agree (if p then x else x') (if p then y else y') := by
  split
  · exact h
  · exact h'

/-- One configuration and one map. -/
structure Alike (s t : AllocatorState) : Prop where
  config : s.config = t.config
  map : s.allocations.get? = t.allocations.get?

theorem overlaps_nil_iff {s : AllocatorState} {base size : Int} {ignore : Option Key} : overlaps s base size ignore = [] ↔
    ∀ k b, s.allocations.get? k = some b → ignore ≠ some k → b.aliasOf = none → base < b.endAddress →
      base + size ≤ b.baseAddress := by
  simp only [overlaps, List.map_eq_nil_iff, List.filter_eq_nil_iff, decide_eq_true_eq, not_and, not_lt, Prod.forall,
    Dict.get?_eq_some]

theorem Alike.overlaps {s t : AllocatorState} (h : Alike s t) (base size : Int) (ignore : Option Key) :
    overlaps s base size ignore = [] ↔ overlaps t base size ignore = [] := by
  rw [overlaps_nil_iff, overlaps_nil_iff, h.map]

/-- **First fit depends on the map alone.** -/
theorem Alike.findFirstFit {s t : AllocatorState} (h : Alike s t) (hs : Indexed s) (ht : Indexed t) {size : Int}
    (hsize : 0 < size) (generation : Int) (arena : Option Arena) :
    findFirstFit s size generation arena = findFirstFit t size generation arena := by
  have hfits : Fits s size generation arena = Fits t size generation arena := by
    unfold Fits
    rw [h.config, h.map]
  have hsearch := ht.search hsize generation arena
  rw [← hfits, ← h.config] at hsearch
  exact (hs.search hsize generation arena).unique hsearch

section Alike

variable {s t : AllocatorState} {r : Request} {key : Key} {argument : Option Arena}
  {alias_ : Option String × Option Int} {ident : Nat}

theorem Alike.symm (h : Alike s t) : Alike t s := ⟨h.config.symm, h.map.symm⟩

theorem Alike.grow (h : Alike s t) (existing : PhysicalAllocation) (arena : Option Arena) :
    Agree (grow s r key existing arena ident) (grow t r key existing arena ident) := by
  unfold Allocator.grow
  rw [h.config]
  refine (Agree.refl _).bind fun _ => (Agree.refl _).bind fun _ => ?_
  exact (agree_refuse (not_congr (h.overlaps _ _ _)) _ _).bind fun _ => .refl _

theorem Alike.reregister (h : Alike s t) (existing : PhysicalAllocation) :
    Agree (reregister s r key argument alias_ existing ident) (reregister t r key argument alias_ existing ident) := by
  have hresized : ∀ arena, Agree (resized s r key existing arena ident) (resized t r key existing arena ident) :=
    fun arena => (h.grow existing arena).ite (.refl _)
  unfold Allocator.reregister recheckArena
  rw [h.config]
  exact (Agree.refl _).bind fun _ => (Agree.refl _).bind fun _ => (Agree.refl _).bind fun _ => (Agree.refl _).bind fun _ =>
    (Agree.refl _).bind fun _ => (hresized _).bind fun _ => .refl _

theorem Alike.placeAt (h : Alike s t) (address : Int) : Agree (placeAt s r address argument) (placeAt t r address argument) := by
  have hoverlaps := h.overlaps address r.sizeBytes none
  unfold Allocator.placeAt
  rw [h.config]
  refine (Agree.refl _).bind fun _ => (Agree.refl _).bind fun _ => ?_
  cases hs : Allocator.overlaps s address r.sizeBytes none with
  | nil =>
    rw [hoverlaps.1 hs]
    exact .refl _
  | cons b bs =>
    cases ht : Allocator.overlaps t address r.sizeBytes none with
    | nil => rw [hoverlaps.2 ht] at hs; cases hs
    | cons c cs => exact agree_error _ _

theorem Alike.place (h : Alike s t) (hs : Indexed s) (ht : Indexed t) (hsize : 0 < r.sizeBytes) :
    Agree (place s r argument alias_) (place t r argument alias_) := by
  unfold Allocator.place
  split
  · unfold placeAlias
    rw [h.map, h.config]
    exact .refl _
  · split
    · next address _ => exact (h.placeAt address).bind fun _ => .refl _
    · rw [h.findFirstFit hs ht hsize]
      exact .refl _

theorem Alike.chosen (h : Alike s t) (hs : Indexed s) (ht : Indexed t) (hsize : 0 < r.sizeBytes) :
    Agree (chosen r ident s key argument alias_) (chosen r ident t key argument alias_) := by
  unfold Allocator.chosen
  rw [h.map]
  split
  · next existing _ => exact h.reregister existing
  · exact (h.place hs ht hsize).bind fun _ => .refl _

theorem Alike.store (h : Alike s t) (key : Key) (a : PhysicalAllocation) :
    Alike (storeAllocation key a s) (storeAllocation key a t) :=
  ⟨by rw [(store_rest key a s).1, (store_rest key a t).1, h.config], by rw [get?_store, get?_store, h.map]⟩

theorem Alike.allocate (h : Alike s t) (hs : Indexed s) (ht : Indexed t) {a : PhysicalAllocation} {s' : AllocatorState}
    (ha : allocate r ident s = .ok (a, s')) : ∃ t', allocate r ident t = .ok (a, t') ∧ Alike s' t' := by
  simp only [Allocator.allocate, bind_ok, refuse_ok, not_le] at ha ⊢
  obtain ⟨key, hkey, u, hsize, argument, hargument, alias_, halias, v, hoffset, b, hb, ha⟩ := ha
  obtain ⟨rfl, rfl⟩ := Prod.mk.inj (Except.ok.inj ha)
  exact ⟨_, ⟨key, hkey, u, hsize, argument, hargument, alias_, halias, v, hoffset, b, (h.chosen hs ht hsize b).1 hb, rfl⟩,
    h.store key b⟩

theorem Alike.release (h : Alike s t) (hs : Indexed s) (ht : Indexed t) {bufferId : String} {generation : Int}
    {s' : AllocatorState} (hr : release bufferId generation s = .ok s') :
    ∃ t', release bufferId generation t = .ok t' ∧ Alike s' t' := by
  have haliases : s.aliasesByTarget = t.aliasesByTarget := by
    rw [hs.sound.index.aliases, ht.sound.index.aliases]
    exact congrArg GroupIndex.of (aliasesOf_congr fun k => congrFun h.map k)
  simp only [Allocator.release, bind_ok] at hr ⊢
  obtain ⟨key, hkey, hr⟩ := hr
  rw [h.map, haliases] at hr
  cases hk : t.allocations.get? key with
  | none =>
    rw [hk] at hr
    obtain rfl := Except.ok.inj hr
    exact ⟨t, ⟨key, hkey, by simp only [hk]; rfl⟩, h⟩
  | some previous =>
    rw [hk] at hr
    simp only [bind_ok] at hr
    obtain ⟨u, hfree, hr⟩ := hr
    obtain rfl := Except.ok.inj hr
    refine ⟨_, ⟨key, hkey, by simp only [hk, bind_ok]; exact ⟨u, hfree, rfl⟩⟩, ?_, ?_⟩
    · rw [(retire_edit key previous _).config, (retire_edit key previous _).config]
      exact h.config
    · rw [(retire_edit key previous _).allocations, (retire_edit key previous _).allocations]
      rw [Dict.get?_erase_eq, Dict.get?_erase_eq]
      exact congrArg (Function.update · key none) h.map

end Alike

/-! ## Sequences of calls -/

/-- A call, the new object an allocation may make named by `ident`. -/
inductive Call
  | allocate (r : Request) (ident : Nat)
  | release (bufferId : String) (generation : Int)

/-- What a call does: the extent an allocation returns, or a raise. -/
def perform (s : AllocatorState) : Call → Except String (Option PhysicalAllocation × AllocatorState)
  | .allocate r ident => do
    let (a, s') ← allocate r ident s
    pure (some a, s')
  | .release bufferId generation => do
    let s' ← release bufferId generation s
    pure (none, s')

/-- The answers to a sequence of calls, `none` for a raise, which leaves the
allocator as it was. -/
def answers : List Call → AllocatorState → List (Option (Option PhysicalAllocation))
  | [], _ => []
  | call :: calls, s =>
    match perform s call with
    | .ok (answer, s') => some answer :: answers calls s'
    | .error _ => none :: answers calls s

theorem perform_step {s s' : AllocatorState} {call : Call} {answer : Option PhysicalAllocation}
    (h : perform s call = .ok (answer, s')) : Step (fun m => Keyed m.get?) s s' := by
  cases call with
  | allocate r ident =>
    simp only [perform, bind_ok] at h
    obtain ⟨⟨a, s₁⟩, ha, h⟩ := h
    obtain ⟨-, rfl⟩ := Prod.mk.inj (Except.ok.inj h)
    exact .allocate r ident a ha
  | release bufferId generation =>
    simp only [perform, bind_ok] at h
    obtain ⟨s₁, hr, h⟩ := h
    obtain ⟨-, rfl⟩ := Prod.mk.inj (Except.ok.inj h)
    exact .release bufferId generation hr

theorem Alike.perform {s t : AllocatorState} (h : Alike s t) (hs : Indexed s) (ht : Indexed t) {call : Call}
    {answer : Option PhysicalAllocation} {s' : AllocatorState} (hp : perform s call = .ok (answer, s')) :
    ∃ t', perform t call = .ok (answer, t') ∧ Alike s' t' := by
  cases call with
  | allocate r ident =>
    simp only [Allocator.perform, bind_ok] at hp
    obtain ⟨⟨a, s₁⟩, ha, hp⟩ := hp
    obtain ⟨rfl, rfl⟩ := Prod.mk.inj (Except.ok.inj hp)
    obtain ⟨t', ht', halike⟩ := h.allocate hs ht ha
    exact ⟨t', by simp only [Allocator.perform, ht']; rfl, halike⟩
  | release bufferId generation =>
    simp only [Allocator.perform, bind_ok] at hp
    obtain ⟨s₁, hr, hp⟩ := hp
    obtain ⟨rfl, rfl⟩ := Prod.mk.inj (Except.ok.inj hp)
    obtain ⟨t', ht', halike⟩ := h.release hs ht hr
    exact ⟨t', by simp only [Allocator.perform, ht']; rfl, halike⟩

/-- **Allocators with one map answer alike.** -/
theorem Alike.answers : ∀ (calls : List Call) {s t : AllocatorState}, Alike s t → Indexed s → Indexed t →
    answers calls s = answers calls t
  | [], _, _, _, _, _ => rfl
  | call :: calls, s, t, h, hs, ht => by
    unfold Allocator.answers
    cases hps : Allocator.perform s call with
    | ok result =>
      obtain ⟨answer, s'⟩ := result
      obtain ⟨t', hpt, halike⟩ := h.perform hs ht hps
      rw [hpt]
      exact congrArg _ (Alike.answers calls halike (indexed_step hs (perform_step hps)) (indexed_step ht (perform_step hpt)))
    | error e =>
      cases hpt : Allocator.perform t call with
      | ok result =>
        obtain ⟨answer, t'⟩ := result
        obtain ⟨s', hps', -⟩ := h.symm.perform ht hs hpt
        rw [hps] at hps'
        cases hps'
      | error e' => exact congrArg _ (Alike.answers calls h hs ht)

/-! ## The round trip -/

theorem AllocatorConfig.new_self (cfg : AllocatorConfig) :
    AllocatorConfig.new cfg.capacityBytes cfg.alignmentBytes cfg.workspaceCapacityBytes = .ok cfg := by
  have hc := cfg.capacity_pos
  have ha := cfg.alignment_pos
  unfold AllocatorConfig.new
  rw [dif_neg (by omega), dif_neg (by omega), dif_neg (not_not.2 ⟨cfg.workspace_nonneg, cfg.workspace_lt⟩),
    dif_neg fun h => h.2 (cfg.boundary_aligned h.1)]

/-- The order of a live map's rows is an order of all of them. -/
theorem orderItems_rows {s : AllocatorState} (hr : RowsFor s.allocations s) (h : AliasesOk s.allocations.get?) :
    ∃ rows : List PhysicalAllocation, orderItems (snapshot s).allocations = .ok (rows.map .native) ∧ rows.Perm s.addressRows := by
  have hentries := entries_native s.addressRows
  obtain ⟨ordered, hordered⟩ := Option.isSome_iff_exists.1 (Arrange.arrange_isSome_iff.2 (grounded_rows hr h))
  obtain ⟨hperm, -⟩ := Arrange.arrange_some _ _ hordered
  obtain ⟨rows, rfl, hrows⟩ := perm_map_exists hperm
  refine ⟨rows, ?_, hrows⟩
  simp only [orderItems, snapshot, hentries, bind, Except.bind, hordered, List.map_map]
  rfl

theorem fromSnapshot_snapshot {s : AllocatorState} (hs : Indexed s) (h : AliasesOk s.allocations.get?) (ident : Nat) :
    ∃ t, fromSnapshot (snapshot s) ident = .ok t ∧ Alike s t ∧ Indexed t := by
  obtain ⟨rows, hordered, hrows⟩ := orderItems_rows hs.rowed.rows h
  have hnamed : ∀ a ∈ rows, a.aliasOf.isSome → a.aliasGeneration ≠ none := fun a ha halias => by
    obtain ⟨k, hk⟩ := Dict.mem_values.1 (hs.rowed.rows.perm.subset (hrows.subset ha))
    obtain ⟨u, b, hn, -, -⟩ := h.target k a hk (Option.isSome_iff_ne_none.1 halias)
    obtain ⟨bufferId, -, hpair⟩ := Option.map_eq_some_iff.1 hn
    rw [(Prod.mk.inj hpair).2]
    exact Option.some_ne_none _
  obtain ⟨hindexed, hconfig⟩ := indexed_storeRows rows (indexed_init s.config)
  have hmap := storeRows_map hs.rowed.rows hs.rowed.keyed.live hrows s.config
  have horder : RestoreOrder (storeRows rows (.init s.config)).allocations
      (storeRows rows (.init s.config)).allocations.keys (storeRows rows (.init s.config)) :=
    ⟨Dict.keys_nodup _, (Finset.union_self _).symm⟩
  have hrestored := restored hindexed.sound.journaled.ordered horder
  refine ⟨_, ?_, ⟨?_, ?_⟩, indexed_step hindexed (.restore _ _ _ hindexed.rowed.keyed.live horder)⟩
  · simp only [fromSnapshot]
    rw [show AllocatorConfig.new (snapshot s).capacityBytes (snapshot s).alignmentBytes
      (snapshot s).workspaceCapacityBytes = .ok s.config from s.config.new_self, hordered]
    simp only [bind, Except.bind, storeItems_native hnamed]
    rfl
  · obtain ⟨d, hd, -, he⟩ := hrestored.rebuilt
    rw [he, (rebuildIndexes_edit d).config, hd, hconfig]
    rfl
  · rw [hrestored.allocations, hmap]

/-- **Snapshots round-trip.** From what a reachable allocator lists, a new
one is built with the same configuration and the same live extents, and the
two answer every further sequence of allocations and releases alike. The
ordering loop of `from_snapshot` is total, and accepts what it can read
exactly when the alias targets are present and not circular. -/
theorem snapshot_round_trip {cfg : AllocatorConfig} {s : AllocatorState}
    (h : Reachable (fun m => AliasesOk m.get?) cfg s) (ident : Nat) :
    (∃ t, fromSnapshot (snapshot s) ident = .ok t ∧ t.config = s.config ∧
      (∀ k, t.allocations.get? k = s.allocations.get? k) ∧ ∀ calls, answers calls t = answers calls s) ∧
    ∀ items entries, List.mapM SnapshotItem.entry items = .ok entries →
      ((∃ ordered, orderItems items = .ok ordered) ↔ TargetsGrounded entries) := by
  have hs := reachable_indexed (fun _ hm => hm.keyed) h
  obtain ⟨t, ht, halike, hindexed⟩ := fromSnapshot_snapshot hs (reachable_aliases h).live ident
  exact ⟨⟨t, ht, halike.config.symm, fun k => (congrFun halike.map k).symm,
    fun calls => halike.symm.answers calls hindexed hs⟩, fun _ _ => orderItems_iff⟩

/-- A view listed before its target. -/
theorem snapshot_round_trip_view : ∃ s, Reachable (fun m => AliasesOk m.get?)
    ⟨256, 64, 0, by decide, by decide, by decide, by decide, by decide⟩ s ∧
    s.addressRows.map (·.bufferId) = ["half", "kv"] ∧ ∃ t, fromSnapshot (snapshot s) 2 = .ok t ∧
      ∀ calls, answers calls t = answers calls s := by
  have hr : Reachable (fun m => AliasesOk m.get?) ⟨256, 64, 0, by decide, by decide, by decide, by decide, by decide⟩ _ :=
    .tail (.tail .refl (.allocate { bufferId := "kv", sizeBytes := 32 } 0 _ rfl))
      (.allocate { bufferId := "half", sizeBytes := 16, aliasOf := some "kv" } 1 _ rfl)
  obtain ⟨⟨t, ht, -, -, hanswers⟩, -⟩ := snapshot_round_trip hr 2
  exact ⟨_, hr, rfl, t, ht, hanswers⟩

end HeteroSim.Allocator
