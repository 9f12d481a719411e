/-
Runs of the block tables: a table for each live request, resized by calls
that `can_resize` accepts, from a fresh start, a settled or a placed one.
Whatever the order of grows, shrinks and releases, no block is lost and none
is shared.
-/
import HeteroSim.KvBlocks.Resizing
import HeteroSim.Transitions

namespace HeteroSim.KvBlocks

/-- The pages the caller holds for a request, in its EP group. -/
structure Holding where
  group : ℕ
  pages : ℕ

structure System where
  blocks : BlockTables
  held : Dict String Holding

structure Call where
  group : ℕ
  request : String
  pages : ℕ
  previous : ℕ

namespace System

def owner (s : System) (request : String) : Option ℕ := (s.held.get? request).map Holding.group

/-- `can_resize` says yes, and a request stays in its group. -/
structure Accepts (s : System) (c : Call) : Prop where
  fits : s.blocks.canResize c.group c.request c.pages = .ok true
  group : ∀ holding, s.held.get? c.request = some holding → holding.group = c.group

/-- The caller's books after a call that returned. -/
def returned (s : System) (c : Call) (b : BlockTables) : System :=
  ⟨b, if c.pages = 0 then s.held.erase c.request else s.held.insert c.request ⟨c.group, c.pages⟩⟩

/-- After a call that raised the request holds no page, in a table all the same. -/
def raised (s : System) (c : Call) (b : BlockTables) : System := ⟨b, s.held.insert c.request ⟨c.group, 0⟩⟩

inductive Step : System → Call → System → Prop
  | returns {s : System} {c : Call} {freed : Dict String ℕ} {b : BlockTables} : s.Accepts c →
      s.blocks.resize c.group c.request c.pages c.previous = .ok freed b → Step s c (s.returned c b)
  | raises {s : System} {c : Call} {e : String} {b : BlockTables} : s.Accepts c →
      s.blocks.resize c.group c.request c.pages c.previous = .error e b → Step s c (s.raised c b)

/-- A start: ascending lists, settled ones, or seeds placed on the rings. -/
inductive Started (groups : ℕ) (counts : Dict String ℕ) (ring : ℕ) : System → Prop
  | new : Started groups counts ring ⟨.new groups counts ring, .empty⟩
  | settled {agesByGroup : List (List ℤ)} {c : Refill} {b : BlockTables} :
      (BlockTables.new groups counts ring).settle agesByGroup c = .ok b → Started groups counts ring ⟨b, .empty⟩
  | placed {p : BlockTables.Placement} {b : BlockTables} :
      (BlockTables.new groups counts ring).placeSeeds p = .ok b → Started groups counts ring ⟨b, .empty⟩

/-- What every reached state keeps. -/
structure Lossless (groups : ℕ) (counts : Dict String ℕ) (ring : ℕ) (s : System) : Prop where
  conserves : s.blocks.Conserves s.owner
  kinds : s.blocks.counts = counts
  bound : s.blocks.ring = ring
  pools : ∀ group < groups, ∀ kind ∈ counts.keys, (group, kind) ∈ s.blocks.pools.keys
  tables : ∀ r, r ∈ s.blocks.tables.keys ↔ r ∈ s.held.keys
  sized : ∀ r holding, s.held.get? r = some holding → ∀ kind ∈ counts.keys,
    (s.blocks.blocksOf r kind).length = s.blocks.blocksForPages kind holding.pages

end System

/-! ## Starts -/

namespace BlockTables

variable {groups ring : ℕ} {counts : Dict String ℕ} {b : BlockTables}

/-- Nothing is taken, and no ring has a tail. -/
structure Fresh (groups : ℕ) (counts : Dict String ℕ) (ring : ℕ) (b : BlockTables) : Prop where
  kinds : b.counts = counts
  bound : b.ring = ring
  keys : ∀ group < groups, ∀ kind ∈ counts.keys, (group, kind) ∈ b.pools.keys
  pools : ∀ key free, b.pools.get? key = some free →
    free.head = 0 ∧ ∃ count, counts.get? key.2 = some count ∧ free.cells.Perm (List.range count)
  tables : b.tables = .empty
  tails : b.tails = .empty
  rings : ∀ key ring, b.rings.get? key = some ring → ∀ n ∈ ring.tails, n = 0

/-- A pool gets a list of its own blocks. -/
theorem Fresh.relist (h : b.Fresh groups counts ring) {key : ℕ × String} {free free' : FreeList ℕ}
    (hfree : b.pools.get? key = some free) (hhead : free'.head = 0) (hperm : free'.cells.Perm free.cells) :
    ({ b with pools := b.pools.insert key free' } : BlockTables).Fresh groups counts ring := by
  refine ⟨h.kinds, h.bound, fun group hgroup kind hkind => Dict.mem_keys_insert.2 (.inr (h.keys group hgroup kind hkind)),
    fun key₁ free₁ hfree₁ => ?_, h.tables, h.tails, h.rings⟩
  change (b.pools.insert key free').get? key₁ = some free₁ at hfree₁
  rw [Dict.get?_insert] at hfree₁
  split at hfree₁
  · next hkey =>
    cases hfree₁
    subst hkey
    obtain ⟨-, count, hcount, hcells⟩ := h.pools _ free hfree
    exact ⟨hhead, count, hcount, hperm.trans hcells⟩
  · exact h.pools key₁ free₁ hfree₁

theorem Fresh.ringed (h : b.Fresh groups counts ring) (key : ℕ × String) (geometry : Geometry) :
    ({ b with rings := b.rings.insert key (.empty geometry) } : BlockTables).Fresh groups counts ring := by
  refine ⟨h.kinds, h.bound, h.keys, h.pools, h.tables, h.tails, fun key₁ ring₁ hring₁ n hn => ?_⟩
  change (b.rings.insert key (.empty geometry)).get? key₁ = some ring₁ at hring₁
  rw [Dict.get?_insert] at hring₁
  split at hring₁
  · cases hring₁
    exact List.eq_of_mem_replicate hn
  · exact h.rings key₁ ring₁ hring₁ n hn

theorem new_items : (new groups counts ring).pools.items = (List.range groups).flatMap fun group =>
    counts.items.map fun p => ((group, p.1), FreeList.ofList (List.range p.2)) := by
  refine Dict.items_collect ?_
  have hkeys : ((List.range groups).flatMap fun group => counts.items.map fun p =>
      ((group, p.1), FreeList.ofList (List.range p.2))).map Prod.fst = List.product (List.range groups) counts.keys := by
    rw [List.map_flatMap, List.product]
    refine List.flatMap_congr fun group _ => ?_
    rw [List.map_map, Dict.keys, List.map_map]
    rfl
  rw [hkeys]
  exact List.nodup_range.product counts.keys_nodup

theorem new_fresh : (new groups counts ring).Fresh groups counts ring := by
  refine ⟨rfl, rfl, fun group hgroup kind hkind => ?_, fun key free hfree => ?_, rfl, rfl, fun key ring₁ hring => ?_⟩
  · obtain ⟨count, hcount⟩ := Dict.mem_keys.1 hkind
    refine Dict.mem_keys.2 ⟨.ofList (List.range count), Dict.get?_eq_some.2 ?_⟩
    rw [new_items, List.mem_flatMap]
    exact ⟨group, List.mem_range.2 hgroup, List.mem_map.2 ⟨(kind, count), Dict.get?_eq_some.1 hcount, rfl⟩⟩
  · have hmem := Dict.get?_eq_some.1 hfree
    rw [new_items, List.mem_flatMap] at hmem
    obtain ⟨group, -, hmem⟩ := hmem
    obtain ⟨p, hp, heq⟩ := List.mem_map.1 hmem
    obtain ⟨rfl, rfl⟩ := Prod.mk.inj heq
    exact ⟨rfl, p.2, Dict.get?_eq_some.2 hp, .refl _⟩
  · cases hring

theorem settle_fresh (h : b.Fresh groups counts ring) {agesByGroup : List (List ℤ)} {c : Refill} {b' : BlockTables}
    (hsettle : b.settle agesByGroup c = .ok b') : b'.Fresh groups counts ring := by
  obtain ⟨pools, hpools, hb'⟩ := bind_ok.1 hsettle
  cases hb'
  refine foldlM_keeps (P := fun pools => ({ b with pools := pools } : BlockTables).Fresh groups counts ring)
    (fun pools pools' key hstep hfresh => ?_) hpools h
  unfold settlePool at hstep
  split at hstep
  · cases hstep
  · next free hfree =>
    split at hstep
    · cases hstep
    · split at hstep
      · cases hstep
        exact hfresh
      · next settled hsettled =>
        cases hstep
        refine hfresh.relist hfree rfl ?_
        have hhead := (hfresh.pools key free hfree).1
        have hperm := (settledFreeList_some hsettled).1
        rw [FreeList.live, hhead, List.drop_zero] at hperm
        exact hperm

theorem placeSeeds_fresh (h : b.Fresh groups counts ring) {p : Placement} {b' : BlockTables}
    (hplace : b.placeSeeds p = .ok b') : b'.Fresh groups counts ring := by
  obtain ⟨placed, hplaced, hb'⟩ := bind_ok.1 hplace
  cases hb'
  have hstart : ({ b with output := p.output } : BlockTables).Fresh groups counts ring :=
    ⟨h.kinds, h.bound, h.keys, h.pools, h.tables, h.tails, h.rings⟩
  have hend : placed.Fresh groups counts ring := by
    refine foldlM_keeps (P := fun b => b.Fresh groups counts ring) (fun b₁ b₂ key hstep hfresh => ?_) hplaced hstart
    unfold placePool at hstep
    split at hstep
    · cases hstep
    · next free hfree =>
      split at hstep
      · cases hstep
      · split at hstep
        · cases hstep
        · split at hstep
          · cases hstep
          · next geometry _ =>
            obtain ⟨settled, hsettled, hb₂⟩ := bind_ok.1 hstep
            cases hb₂
            obtain ⟨hhead, count, -, hcells⟩ := hfresh.pools key free hfree
            refine (hfresh.relist hfree (by simp [FreeList.ofListAt, hhead]) ?_).ringed key geometry
            have hlength : free.cells.length = count := by rw [hcells.length_eq, List.length_range]
            rw [hlength] at hsettled
            exact (settledSeedBlocks_perm hsettled).trans hcells.symm
  exact ⟨hend.kinds, hend.bound, hend.keys, hend.pools, hend.tables, hend.tails, hend.rings⟩

theorem Fresh.lossless (h : b.Fresh groups counts ring) : System.Lossless groups counts ring ⟨b, .empty⟩ := by
  have hnone : ∀ r, b.tables.get? r = none := fun r => by rw [h.tables]; rfl
  refine ⟨⟨fun key free hfree => ?_, fun r table ht => ?_, fun r hr => ?_, fun key ring₁ position n hring hn => ?_,
    fun r t kind position ht hposition => ?_, fun r hr => ?_⟩, h.kinds, h.bound, h.keys, fun r => ?_, fun r holding hr => ?_⟩
  · obtain ⟨hhead, count, hcount, hcells⟩ := h.pools key free hfree
    refine ⟨count, by rw [h.kinds]; exact hcount, ?_⟩
    change (free.live ++ inUse _ b.tables key).Perm _
    rw [h.tables, FreeList.live, hhead, List.drop_zero, inUse, Dict.items_empty, List.flatMap_nil, List.append_nil]
    exact hcells
  · rw [hnone] at ht
    cases ht
  · rw [h.tables] at hr
    cases hr
  · rw [h.rings key ring₁ hring n (List.mem_of_getElem? hn), h.tails]
    rfl
  · rw [h.tails] at ht
    cases ht
  · rw [h.tails] at hr
    cases hr
  · rw [h.tables]
    rfl
  · cases hr

/-! ## Calls -/

theorem Sized.freed {target i : ℕ} {blocks blocks' : List ℕ} {block : ℕ} (h : Sized target blocks blocks') (hnodup : blocks.Nodup)
    (hi : blocks[i]? = some block) : block ∉ blocks' ↔ target ≤ i := by
  obtain ⟨hlt, rfl⟩ := List.getElem?_eq_some_iff.1 hi
  constructor
  · intro hnot
    by_contra hle
    have hmem : blocks[i] ∈ blocks.take target := List.mem_take_iff_getElem.2 ⟨i, by omega, rfl⟩
    rw [← h.kept] at hmem
    exact hnot (List.mem_of_mem_take hmem)
  · intro hle hmem
    -- the table was cut, so what it holds it held before the cut
    have hcut : blocks'.take blocks.length = blocks' := List.take_of_length_le (by rw [h.length]; omega)
    rw [← hcut, h.kept] at hmem
    obtain ⟨j, hj, heq⟩ := List.mem_take_iff_getElem.1 hmem
    have hji := (hnodup.getElem_inj_iff).1 heq
    omega

/-- Where the rows of a page are in its kind's table: the `chunk` kind wraps at its ring. -/
def slotOf (b : BlockTables) (kind : String) (page : ℕ) : ℕ := if kind = "chunk" then page % b.ring else page

theorem newest_slot {kind : String} {previous : ℕ} (hprevious : 0 < previous) :
    (previous - 1) % b.blocksForPages kind previous = b.slotOf kind (previous - 1) := by
  unfold blocksForPages slotOf
  split
  · rcases Nat.le_total previous b.ring with hle | hle
    · rw [Nat.min_eq_left hle, Nat.mod_eq_of_lt (by omega), Nat.mod_eq_of_lt (by omega)]
    · rw [Nat.min_eq_right hle]
  · exact Nat.mod_eq_of_lt (by omega)

/-- A block is reported exactly if it held the newest row and is freed. -/
theorem reported_iff {kind : String} {pages previous block : ℕ} {blocks blocks' : List ℕ} (hnodup : blocks.Nodup)
    (hlength : blocks.length = b.blocksForPages kind previous) (hsized : Sized (b.blocksForPages kind pages) blocks blocks') :
    reported blocks (b.blocksForPages kind pages) previous = some block ↔
      0 < previous ∧ blocks[b.slotOf kind (previous - 1)]? = some block ∧ block ∉ blocks' := by
  unfold reported newestFreed
  constructor
  · intro h
    split at h
    · split at h
      · next hnewest =>
        rw [hlength, newest_slot hnewest.1] at h hnewest
        exact ⟨hnewest.1, h, (hsized.freed hnodup h).2 hnewest.2⟩
      · cases h
    · cases h
  · rintro ⟨hprevious, hblock, hgone⟩
    have hle := (hsized.freed hnodup hblock).1 hgone
    have hlt : b.slotOf kind (previous - 1) < blocks.length := (List.getElem?_eq_some_iff.1 hblock).1
    have hslot : (previous - 1) % b.blocksForPages kind previous = _ := newest_slot hprevious
    rw [← hlength] at hslot
    rw [if_pos (by omega), hslot, if_pos ⟨hprevious, hle⟩]
    exact hblock

theorem share_nodup {owner : String → Option ℕ} (h : b.Conserves owner) {key : ℕ × String} {free : FreeList ℕ}
    (hfree : b.pools.get? key = some free) {request : String} {table : Dict String (List ℕ)}
    (htable : b.tables.get? request = some table) (howner : owner request = some key.1) {blocks : List ℕ}
    (hblocks : table.get? key.2 = some blocks) : blocks.Nodup := by
  obtain ⟨count, -, hperm⟩ := h.pools key free hfree
  have hnodup : (inUse owner b.tables key).Nodup := (List.nodup_append.1 (hperm.nodup_iff.2 List.nodup_range)).2.1
  have hsplit : (inUse owner b.tables key).Perm _ := inUse_of_get? key htable
  have hshare := (List.nodup_append.1 (hsplit.nodup_iff.1 hnodup)).1
  rw [share, if_pos howner, hblocks] at hshare
  exact hshare

end BlockTables

namespace System

variable {groups ring : ℕ} {counts : Dict String ℕ} {s t : System} {c : Call}

theorem owner_insert (s : System) (request : String) (holding : Holding) (b : BlockTables) :
    owner ⟨b, s.held.insert request holding⟩ = Function.update s.owner request (some holding.group) := by
  funext r
  rw [owner, Dict.get?_insert, Function.update_apply]
  split <;> rfl

/-- The request is new, or it is in the group of the call. -/
theorem Accepts.mine (h : s.Accepts c) (hs : s.Lossless groups counts ring) :
    s.blocks.tables.get? c.request = none ∨ s.owner c.request = some c.group := by
  cases hheld : s.held.get? c.request with
  | none =>
    refine .inl (Dict.get?_eq_none.2 fun hin => ?_)
    exact Dict.get?_eq_none.1 hheld ((hs.tables _).1 hin)
  | some holding =>
    refine .inr ?_
    rw [owner, hheld, Option.map_some, h.group holding hheld]

theorem Lossless.returned (hs : s.Lossless groups counts ring) (h : s.Accepts c) {freed : Dict String ℕ} {b : BlockTables}
    (hrun : s.blocks.resize c.group c.request c.pages c.previous = .ok freed b) :
    (s.returned c b).Lossless groups counts ring := by
  have hresized := wp_ok (BlockTables.resize_wp hs.conserves (h.mine hs) h.fits) hrun
  have htarget : ∀ kind pages, b.blocksForPages kind pages = s.blocks.blocksForPages kind pages :=
    fun kind pages => BlockTables.blocksForPages_congr hresized.ring kind pages
  have hothers : ∀ r, r ≠ c.request → ∀ kind, b.blocksOf r kind = s.blocks.blocksOf r kind := by
    intro r hr kind
    rw [BlockTables.blocksOf, hresized.others r hr]
    rfl
  by_cases hpages : c.pages = 0
  · have hconserves := hresized.conserves
    have hreleased := hresized.released hpages
    rw [if_pos hpages] at hconserves
    have hreturned : s.returned c b = ⟨b, s.held.erase c.request⟩ := by rw [System.returned, if_pos hpages]
    rw [hreturned]
    refine ⟨hconserves.reowned fun r hr => ?_, hresized.counts.trans hs.kinds, hresized.ring.trans hs.bound,
      fun group hgroup kind hkind => hresized.keys _ (hs.pools group hgroup kind hkind), fun r => ?_, fun r holding hr kind hkind => ?_⟩
    · have hne : r ≠ c.request := by
        rintro rfl
        exact Dict.get?_eq_none.1 hreleased hr
      rw [owner, owner, Dict.get?_erase_of_ne _ hne]
    · by_cases hr : r = c.request
      · subst hr
        simp [Dict.get?_eq_none.1 hreleased]
      · rw [Dict.mem_keys_erase, and_iff_left hr, ← hs.tables r, Dict.mem_keys, Dict.mem_keys, hresized.others r hr]
    · change (s.held.erase c.request).get? r = some holding at hr
      rw [Dict.get?_erase] at hr
      split at hr
      · cases hr
      · next hne =>
        rw [htarget, hothers r hne]
        exact hs.sized r holding hr kind hkind
  · have hconserves := hresized.conserves
    obtain ⟨table', htable', hsized⟩ := hresized.resized hpages
    rw [if_neg hpages] at hconserves
    have hreturned : s.returned c b = ⟨b, s.held.insert c.request ⟨c.group, c.pages⟩⟩ := by
      rw [System.returned, if_neg hpages]
    rw [hreturned]
    refine ⟨by rw [owner_insert]; exact hconserves, hresized.counts.trans hs.kinds, hresized.ring.trans hs.bound,
      fun group hgroup kind hkind => hresized.keys _ (hs.pools group hgroup kind hkind), fun r => ?_, fun r holding hr kind hkind => ?_⟩
    · by_cases hr : r = c.request
      · subst hr
        simp [Dict.mem_keys_of_get? htable']
      · rw [Dict.mem_keys_insert, or_iff_right hr, ← hs.tables r, Dict.mem_keys, Dict.mem_keys, hresized.others r hr]
    · change (s.held.insert c.request ⟨c.group, c.pages⟩).get? r = some holding at hr
      rw [Dict.get?_insert] at hr
      split at hr
      · next heq =>
        subst heq
        cases hr
        -- the request's kinds are the pools' kinds
        have hkinds : kind ∈ ((s.blocks.tables.get? c.request).getD s.blocks.emptyTable).keys := by
          rw [← hs.kinds] at hkind
          cases htable : s.blocks.tables.get? c.request with
          | none =>
            rw [Option.getD_none, BlockTables.emptyTable, Dict.keys_mapValues]
            exact hkind
          | some table =>
            rw [Option.getD_some, hs.conserves.kinds _ table htable]
            exact hkind
        obtain ⟨blocks, hblocks⟩ := Dict.mem_keys.1 hkinds
        obtain ⟨blocks', hblocks', hcut⟩ := hsized kind blocks hblocks
        rw [BlockTables.blocksOf_eq htable' hblocks', htarget, hcut.length]
      · next hne =>
        rw [htarget, hothers r hne]
        exact hs.sized r holding hr kind hkind

theorem Lossless.raised (hs : s.Lossless groups counts ring) (h : s.Accepts c) {e : String} {b : BlockTables}
    (hrun : s.blocks.resize c.group c.request c.pages c.previous = .error e b) : (s.raised c b).Lossless groups counts ring := by
  obtain ⟨hnew, hconserves, hplacing⟩ := wp_error (BlockTables.resize_wp hs.conserves (h.mine hs) h.fits) hrun
  have htables : ∀ r, b.tables.get? r = if r = c.request then some s.blocks.emptyTable else s.blocks.tables.get? r :=
    fun r => by rw [hplacing.tables, Dict.get?_insert]
  refine ⟨by rw [System.raised, owner_insert]; exact hconserves, hplacing.counts.trans hs.kinds, hplacing.ring.trans hs.bound,
    fun group hgroup kind hkind => hplacing.keys _ (hs.pools group hgroup kind hkind), fun r => ?_, fun r holding hr kind hkind => ?_⟩
  · change r ∈ b.tables.keys ↔ r ∈ (s.held.insert c.request ⟨c.group, 0⟩).keys
    rw [hplacing.tables, Dict.mem_keys_insert, Dict.mem_keys_insert]
    exact or_congr_right (hs.tables r)
  · change (s.held.insert c.request ⟨c.group, 0⟩).get? r = some holding at hr
    change (b.blocksOf r kind).length = b.blocksForPages kind holding.pages
    rw [Dict.get?_insert] at hr
    have hring : b.blocksForPages kind holding.pages = s.blocks.blocksForPages kind holding.pages :=
      BlockTables.blocksForPages_congr hplacing.ring kind _
    split at hr
    · next heq =>
      cases hr
      rw [BlockTables.blocksForPages_zero, BlockTables.blocksOf, htables, if_pos heq, Option.bind_some]
      cases hblocks : s.blocks.emptyTable.get? kind with
      | none => rfl
      | some blocks =>
        obtain rfl := BlockTables.get?_emptyTable hblocks
        rfl
    · next hne =>
      rw [hring, BlockTables.blocksOf, htables, if_neg hne]
      exact hs.sized r holding hr kind hkind

theorem Lossless.step (hs : s.Lossless groups counts ring) (h : Step s c t) : t.Lossless groups counts ring := by
  cases h with
  | returns haccepts hrun => exact hs.returned haccepts hrun
  | raises haccepts hrun => exact hs.raised haccepts hrun

theorem Started.lossless (h : Started groups counts ring s) : s.Lossless groups counts ring := by
  cases h with
  | new => exact BlockTables.new_fresh.lossless
  | settled hsettle => exact (BlockTables.settle_fresh BlockTables.new_fresh hsettle).lossless
  | placed hplace => exact (BlockTables.placeSeeds_fresh BlockTables.new_fresh hplace).lossless

theorem reached_lossless (h : Reached Step (Started groups counts ring) s) : s.Lossless groups counts ring :=
  h.keeps (fun _ => Started.lossless) fun _ _ _ hs hstep => hs.step hstep

theorem Lossless.reports (hs : s.Lossless groups counts ring) (h : s.Accepts c)
    (hprevious : ((s.held.get? c.request).map Holding.pages).getD 0 = c.previous) {freed : Dict String ℕ} {b : BlockTables}
    (hrun : s.blocks.resize c.group c.request c.pages c.previous = .ok freed b) (kind : String) (block : ℕ) :
    freed.get? kind = some block ↔ 0 < c.previous ∧
      (s.blocks.blocksOf c.request kind)[s.blocks.slotOf kind (c.previous - 1)]? = some block ∧
      block ∉ b.blocksOf c.request kind := by
  have hresized := wp_ok (BlockTables.resize_wp hs.conserves (h.mine hs) h.fits) hrun
  rw [hresized.reports kind]
  cases htable : s.blocks.tables.get? c.request with
  | none =>
    have hnone : s.blocks.blocksOf c.request kind = [] := by simp [BlockTables.blocksOf, htable]
    rw [hnone, Option.getD_none]
    cases hblocks : s.blocks.emptyTable.get? kind with
    | none => simp
    | some blocks =>
      obtain rfl := BlockTables.get?_emptyTable hblocks
      simp [BlockTables.reported]
  | some table =>
    rw [Option.getD_some]
    cases hblocks : table.get? kind with
    | none =>
      have hnone : s.blocks.blocksOf c.request kind = [] := by simp [BlockTables.blocksOf, htable, hblocks]
      simp [hnone]
    | some blocks =>
      rw [Option.bind_some, BlockTables.blocksOf_eq htable hblocks]
      have hkind : kind ∈ s.blocks.counts.keys := by
        rw [← hs.conserves.kinds _ table htable]
        exact Dict.mem_keys_of_get? hblocks
      obtain ⟨free, hfree, -⟩ := BlockTables.fits_ok h.fits kind hkind
      have howner : s.owner c.request = some c.group :=
        (h.mine hs).resolve_left (by rw [htable]; exact Option.some_ne_none _)
      have hnodup := BlockTables.share_nodup hs.conserves hfree htable howner hblocks
      obtain ⟨holding, hheld⟩ := Dict.mem_keys.1 ((hs.tables _).1 (Dict.mem_keys_of_get? htable))
      rw [hheld, Option.map_some, Option.getD_some] at hprevious
      have hlength : blocks.length = s.blocks.blocksForPages kind c.previous := by
        rw [← hprevious, ← hs.sized _ holding hheld kind (by rw [← hs.kinds]; exact hkind),
          BlockTables.blocksOf_eq htable hblocks]
      have hsized : BlockTables.Sized (s.blocks.blocksForPages kind c.pages) blocks (b.blocksOf c.request kind) := by
        by_cases hpages : c.pages = 0
        · have hgone : b.blocksOf c.request kind = [] := by simp [BlockTables.blocksOf, hresized.released hpages]
          rw [hgone, hpages, BlockTables.blocksForPages_zero]
          exact ⟨rfl, by simp⟩
        · obtain ⟨table', htable', hcut⟩ := hresized.resized hpages
          rw [htable] at hcut
          obtain ⟨blocks', hblocks', hsized⟩ := hcut kind blocks hblocks
          rwa [BlockTables.blocksOf_eq htable' hblocks']
      exact BlockTables.reported_iff hnodup hlength hsized

end System

/-- **No block is lost or shared** in any reached state: of every pool the free blocks and those in its group's tables
are the pool's blocks, each once; tables have their pages' lengths and rings count the tails; a call reports the
newest row's block exactly when it frees it. A settled list is the pool's, what the seeds and imports take first. -/
theorem blocks_lossless (groups : ℕ) (counts : Dict String ℕ) (ring : ℕ) :
    (∀ s, Reached System.Step (System.Started groups counts ring) s →
      (∀ group < groups, ∀ kind count, counts.get? kind = some count → ∃ free, s.blocks.pools.get? (group, kind) = some free ∧
        (free.live ++ BlockTables.inUse s.owner s.blocks.tables (group, kind)).Perm (List.range count)) ∧
      (∀ r, r ∈ s.blocks.tables.keys ↔ r ∈ s.held.keys) ∧
      (∀ r holding, s.held.get? r = some holding → ∀ kind ∈ counts.keys,
        (s.blocks.blocksOf r kind).length = s.blocks.blocksForPages kind holding.pages) ∧
      (∀ r ∈ s.blocks.tails.keys, r ∈ s.held.keys) ∧
      (∀ key (tailRing : KVTailRing) (position : ℕ) (n : ℤ), s.blocks.rings.get? key = some tailRing →
        tailRing.tails[position]? = some n → n = BlockTables.tailsAt s.owner s.blocks.tails key position) ∧
      ∀ c freed b, s.Accepts c → ((s.held.get? c.request).map Holding.pages).getD 0 = c.previous →
        s.blocks.resize c.group c.request c.pages c.previous = .ok freed b → ∀ kind block,
          freed.get? kind = some block ↔ 0 < c.previous ∧
            (s.blocks.blocksOf c.request kind)[s.blocks.slotOf kind (c.previous - 1)]? = some block ∧
            block ∉ b.blocksOf c.request kind) ∧
    ∀ (c : Refill) (limit : Option ℕ) (ages : List ℤ) (free : List ℕ), settledFreeList c limit ages free = none ∨
      ∃ settled, settledFreeList c limit ages free = some settled ∧ settled.Perm free ∧
        ∃ (tables prepared : List (List ℕ)) (rest : List ℕ), settled = tables.flatten ++ prepared.flatten ++ rest ∧
          tables.map List.length = ages.map (c.holds limit) ∧
          prepared.map List.length = List.replicate c.pool (c.history limit) := by
  refine ⟨fun s hreached => ?_, fun c limit ages free => ?_⟩
  · have hs := System.reached_lossless hreached
    refine ⟨fun group hgroup kind count hcount => ?_, hs.tables, hs.sized, fun r hr => (hs.tables r).1 (hs.conserves.tails r hr),
      hs.conserves.rings, fun c freed b haccepts hprevious hrun => hs.reports haccepts hprevious hrun⟩
    obtain ⟨free, hfree⟩ := Dict.mem_keys.1 (hs.pools group hgroup kind (Dict.mem_keys_of_get? hcount))
    obtain ⟨count', hcount', hperm⟩ := hs.conserves.pools _ free hfree
    rw [hs.kinds, hcount] at hcount'
    cases hcount'
    exact ⟨free, hfree, hperm⟩
  · cases hsettled : settledFreeList c limit ages free with
    | none => exact .inl rfl
    | some settled => exact .inr ⟨settled, rfl, settledFreeList_some hsettled⟩

/-! ## A run -/

def twoKinds : Dict String ℕ := (Dict.empty.insert "full" 4).insert "chunk" 2

def untouched : System := ⟨.new 1 twoKinds 1, .empty⟩

/-- The tables once a request took three pages. -/
def grownTables : BlockTables :=
  match untouched.blocks.resize 0 "r" 3 0 with
  | .ok _ b => b
  | .error _ b => b

theorem untouched_accepts : untouched.Accepts ⟨0, "r", 3, 0⟩ := ⟨rfl, fun holding h => by cases h⟩

theorem grown_run : untouched.blocks.resize 0 "r" 3 0 = .ok .empty grownTables := rfl

theorem grown_reached : Reached System.Step (System.Started 1 twoKinds 1) (untouched.returned ⟨0, "r", 3, 0⟩ grownTables) :=
  ⟨untouched, [⟨0, "r", 3, 0⟩], .new, .single (.returns untouched_accepts grown_run)⟩

/-- Three blocks of four are the request's. -/
theorem blocks_lossless_threePages :
    ((untouched.returned ⟨0, "r", 3, 0⟩ grownTables).blocks.blocksOf "r" "full").length = 3 ∧
    ∃ free, (untouched.returned ⟨0, "r", 3, 0⟩ grownTables).blocks.pools.get? (0, "full") = some free ∧
      (free.live ++ BlockTables.inUse (untouched.returned ⟨0, "r", 3, 0⟩ grownTables).owner
        (untouched.returned ⟨0, "r", 3, 0⟩ grownTables).blocks.tables (0, "full")).Perm (List.range 4) := by
  obtain ⟨hpools, -, hsized, -⟩ := (blocks_lossless 1 twoKinds 1).1 _ grown_reached
  exact ⟨hsized "r" ⟨0, 3⟩ rfl "full" (by decide), hpools 0 (by decide) "full" 4 rfl⟩

end HeteroSim.KvBlocks
