/-
First accesses. What a device has seen grows by the banks of each range, and
a range is charged a penalty for each bank it reaches first.
-/
import HeteroSim.RowBounds.Mirror

namespace HeteroSim.RowBounds

open Address

variable {c : DramConfig}

/-! ## What a device knows -/

/-- The device has seen the keys, and counts the others. -/
structure Knows (d : Device) (keys : Finset ℕ) : Prop where
  length : d.seen.length = totalBanks d.config
  seen : ∀ key < totalBanks d.config, d.seen[key]? = some (decide (key ∈ keys))
  inside : keys ⊆ Finset.range (totalBanks d.config)
  unseen : d.unseen + keys.card = totalBanks d.config

theorem Knows.new (c : DramConfig) (t : Timings) (sharedCommandResource : Bool) : Knows (Device.new c t sharedCommandResource) ∅ where
  length := List.length_replicate
  seen := by
    intro key hkey
    have hkey : key < totalBanks c := hkey
    show (List.replicate (totalBanks c) false)[key]? = _
    rw [List.getElem?_replicate, if_pos hkey]
    rfl
  inside := Finset.empty_subset _
  unseen := rfl

theorem mem_unique {keys : List ℕ} {key : ℕ} : key ∈ unique keys ↔ key ∈ keys := by
  rw [unique, List.mem_insertionSort, List.mem_dedup]

theorem nodup_unique (keys : List ℕ) : (unique keys).Nodup := (List.perm_insertionSort _ _).nodup_iff.2 (List.nodup_dedup _)

theorem chargedTo_map {f : ℕ → ℚ} {path : ℕ} : ∀ {l : List ℕ}, l.Nodup →
    chargedTo (l.map fun p => (p, f p)) path = if path ∈ l then f path else 0
  | [], _ => rfl
  | p :: l, hnodup => by
    obtain ⟨hp, hnodup⟩ := List.nodup_cons.1 hnodup
    have hrest := @chargedTo_map f path l hnodup
    unfold chargedTo at hrest ⊢
    by_cases heq : p = path
    · subst heq
      rw [if_neg hp] at hrest
      rw [List.map_cons, List.filter_cons_of_pos (by simp), List.map_cons, List.sum_cons, hrest, if_pos List.mem_cons_self, add_zero]
    · rw [List.map_cons, List.filter_cons_of_neg (by simpa using heq), hrest]
      simp only [List.mem_cons, Ne.symm heq, false_or]

/-- What is charged to a path is a penalty for each time it is named. -/
theorem chargedTo_counts (paths : List ℕ) (penalty : ℚ) (path : ℕ) :
    chargedTo ((unique paths).map fun p => (p, paths.count p * penalty)) path = paths.count path * penalty := by
  have hmap := @chargedTo_map (fun p => (paths.count p : ℚ) * penalty) path _ (nodup_unique paths)
  rw [hmap]
  split
  · rfl
  · next hnot =>
    rw [List.count_eq_zero_of_not_mem (mt mem_unique.2 hnot), Nat.cast_zero, zero_mul]

theorem chargedTo_append (a b : List (ℕ × ℚ)) (path : ℕ) : chargedTo (a ++ b) path = chargedTo a path + chargedTo b path := by
  simp only [chargedTo, List.filter_append, List.map_append, List.sum_append]

theorem length_foldl_set : ∀ (keys : List ℕ) (seen : List Bool),
    (keys.foldl (fun seen key => seen.set key true) seen).length = seen.length
  | [], _ => rfl
  | key :: keys, seen => by rw [List.foldl_cons, length_foldl_set keys, List.length_set]

/-- Setting places makes them true, and leaves the others. -/
theorem getElem?_foldl_set : ∀ (keys : List ℕ) {seen : List Bool} {key : ℕ} {b : Bool}, seen[key]? = some b →
    (keys.foldl (fun seen key => seen.set key true) seen)[key]? = some (b || decide (key ∈ keys))
  | [], _, _, b, hb => by simpa using hb
  | k :: keys, seen, key, b, hb => by
    have hlt := (List.getElem?_eq_some_iff.1 hb).1
    rw [List.foldl_cons]
    by_cases heq : k = key
    · subst heq
      have hset : (seen.set k true)[k]? = some true := by rw [List.getElem?_set_self hlt]
      rw [getElem?_foldl_set keys hset]
      simp
    · have hset : (seen.set k true)[key]? = some b := by rw [List.getElem?_set_ne heq, hb]
      rw [getElem?_foldl_set keys hset]
      simp [List.mem_cons, Ne.symm heq]

/-- The keys not yet seen, each once. -/
theorem mem_fresh {d : Device} {K : Finset ℕ} (hd : Knows d K) {keys : List ℕ} (hkeys : ∀ key ∈ keys, key < totalBanks d.config) {key : ℕ} :
    key ∈ (unique keys).filter (fun key => !d.seen.getD key false) ↔ key ∈ keys ∧ key ∉ K := by
  rw [List.mem_filter, mem_unique]
  refine and_congr_right fun hkey => ?_
  rw [List.getD_eq_getElem?_getD, hd.seen key (hkeys key hkey), Option.getD_some, Bool.not_eq_true', decide_eq_false_iff_not]

/-- How often a value comes up is how many of the members have it. -/
theorem count_map_eq_card {f : ℕ → ℕ} {l : List ℕ} (hnodup : l.Nodup) {s : Finset ℕ} (hs : ∀ x, x ∈ l ↔ x ∈ s) (y : ℕ) :
    (l.map f).count y = (s.filter fun x => f x = y).card := by
  have hfilter : s.filter (fun x => f x = y) = (l.filter fun x => f x = y).toFinset := by
    ext x
    simp [hs]
  rw [hfilter, List.toFinset_card_of_nodup (hnodup.filter _), List.count, List.countP_map, List.countP_eq_length_filter]
  rfl

/-- **A part charges a penalty for each bank it reaches first, on the bank's path.** -/
theorem Knows.segment {d : Device} {K : Finset ℕ} (hd : Knows d K) (hc : d.config.validate = .ok ()) {address stop : ℕ}
    (part : Part d.config address stop) : ∃ charges d', d.segment address stop = .ok (charges, d') ∧
      Knows d' (K ∪ keysOf d.config address stop) ∧ (d'.config = d.config ∧ d'.penalty = d.penalty ∧
        d'.sharedCommandResource = d.sharedCommandResource) ∧
      ∀ path, chargedTo charges path = ((keysOf d.config address stop \ K).filter fun key =>
        keyPath d.config d.sharedCommandResource key = path).card * d.penalty := by
  have h := geometry_of_validate hc
  obtain ⟨mapped, hmapped, hpairs⟩ := part.lanesBanks hc
  have hmem := part.keys hc hpairs
  unfold Device.segment
  simp only [hmapped, bind, Except.bind]
  generalize mapped.getD (everyBank d.config) = pairs at hpairs hmem ⊢
  have hlane : ∀ key ∈ pairs.map (fun pair => ((address / d.config.perStack * d.config.addressableDieCount +
      address % d.config.perStack / d.config.perDie) * d.config.laneCount + pair.1) * d.config.bankCount + pair.2), _ :=
    fun key hkey => lane_of_key (fun pair hpair => by
      obtain ⟨j, -, rfl⟩ := (hpairs pair).1 hpair
      exact cellAt_lt h _) hkey
  generalize pairs.map _ = keys at hmem hlane ⊢
  have hkeys : ∀ key ∈ keys, key < totalBanks d.config := fun key hkey => part.keys_lt h ((hmem key).1 hkey)
  have hguard : refuse (∃ key ∈ keys, d.seen.length ≤ key) Raised.index = .ok () := by
    rw [refuse_ok, hd.length]
    rintro ⟨key, hkey, hle⟩
    exact absurd (hkeys key hkey) (not_lt.2 hle)
  have hfresh : ∀ key, key ∈ (unique keys).filter (fun key => !d.seen.getD key false) ↔ key ∈ keysOf d.config address stop \ K := by
    intro key
    rw [mem_fresh hd hkeys, hmem, Finset.mem_sdiff]
  have hnodup := (nodup_unique keys).filter fun key => !d.seen.getD key false
  have hsub : ∀ key ∈ (unique keys).filter (fun key => !d.seen.getD key false), key ∈ keys :=
    fun key hkey => mem_unique.1 (List.mem_of_mem_filter hkey)
  rw [hguard]
  generalize (unique keys).filter (fun key => !d.seen.getD key false) = fresh at hfresh hnodup hsub ⊢
  have hset : fresh.toFinset = keysOf d.config address stop \ K := Finset.ext fun key => by rw [List.mem_toFinset, hfresh]
  have hcard : fresh.length = (keysOf d.config address stop \ K).card := by rw [← hset, List.toFinset_card_of_nodup hnodup]
  by_cases hnone : fresh = []
  · simp only [if_pos hnone]
    have hempty : keysOf d.config address stop \ K = ∅ := by rw [← hset, hnone]; rfl
    have hunion : K ∪ keysOf d.config address stop = K := Finset.union_eq_left.2 (Finset.sdiff_eq_empty_iff_subset.1 hempty)
    refine ⟨[], d, rfl, by rwa [hunion], ⟨rfl, rfl, rfl⟩, fun path => ?_⟩
    rw [hempty, Finset.filter_empty, Finset.card_empty, Nat.cast_zero, zero_mul]
    rfl
  · simp only [if_neg hnone]
    refine ⟨_, _, rfl, ⟨?_, ?_, ?_, ?_⟩, ⟨rfl, rfl, rfl⟩, fun path => ?_⟩
    · exact (length_foldl_set fresh d.seen).trans hd.length
    · intro key hkey
      refine (getElem?_foldl_set fresh (hd.seen key hkey)).trans ?_
      have hboth : key ∈ K ∨ key ∈ fresh ↔ key ∈ K ∪ keysOf d.config address stop := by
        rw [hfresh, Finset.mem_sdiff, Finset.mem_union]
        by_cases hK : key ∈ K <;> simp [hK]
      rw [← Bool.decide_or]
      simp only [hboth]
    · refine Finset.union_subset hd.inside fun key hkey => Finset.mem_range.2 (part.keys_lt h hkey)
    · have hunion : (K ∪ keysOf d.config address stop).card = K.card + fresh.length := by
        rw [hcard, ← Finset.card_union_of_disjoint Finset.disjoint_sdiff, Finset.union_sdiff_self_eq_union]
      have hbelow : (K ∪ keysOf d.config address stop).card ≤ totalBanks d.config := by
        rw [← Finset.card_range (totalBanks d.config)]
        exact Finset.card_le_card (Finset.union_subset hd.inside fun key hkey => Finset.mem_range.2 (part.keys_lt h hkey))
      have htotal := hd.unseen
      show d.unseen - fresh.length + (K ∪ keysOf d.config address stop).card = totalBanks d.config
      omega
    · have hpaths : (fresh.map fun key => (pairs.map Prod.fst).getD (keys.idxOf key) 0).map
          (lanePath d.config d.sharedCommandResource (address / d.config.perStack)) =
          fresh.map (keyPath d.config d.sharedCommandResource) := by
        rw [List.map_map]
        refine List.map_congr_left fun key hkey => ?_
        obtain ⟨hl, hbase⟩ := hlane key (hsub key hkey)
        show lanePath _ _ _ ((pairs.map Prod.fst).getD (keys.idxOf key) 0) = _
        rw [hl, keyPath, hbase, die_eq, DramConfig.perStack, Nat.div_div_eq_div_mul]
      rw [chargedTo_counts, hpaths, count_map_eq_card hnodup hfresh]

/-! ## Ranges -/

/-- What two sets add to a third, one after the other. -/
theorem card_added (A B K : Finset ℕ) (p : ℕ → Prop) [DecidablePred p] :
    ((A \ K).filter p).card + ((B \ (K ∪ A)).filter p).card = (((A ∪ B) \ K).filter p).card := by
  rw [← Finset.card_union_of_disjoint, ← Finset.filter_union]
  · congr 2
    ext x
    simp only [Finset.mem_union, Finset.mem_sdiff]
    tauto
  · refine Finset.disjoint_filter_filter (Finset.disjoint_left.2 fun x hA hB => ?_)
    exact (Finset.mem_sdiff.1 hB).2 (Finset.mem_union_right K (Finset.mem_sdiff.1 hA).1)

/-- **A range charges a penalty for each bank it reaches first, on the bank's path.** -/
theorem Knows.walk : ∀ {fuel : ℕ} {d : Device} {K : Finset ℕ} {address stop : ℕ}, Knows d K → d.config.validate = .ok () →
    address ≤ stop → stop ≤ d.config.effectiveCapacityBytes → Mirrored d.config address stop → stop - address ≤ fuel →
    ∃ charges d', d.walk stop fuel address = .ok (charges, d') ∧ Knows d' (K ∪ keysOf d.config address stop) ∧
      (d'.config = d.config ∧ d'.penalty = d.penalty ∧ d'.sharedCommandResource = d.sharedCommandResource) ∧
      ∀ path, chargedTo charges path = ((keysOf d.config address stop \ K).filter fun key =>
        keyPath d.config d.sharedCommandResource key = path).card * d.penalty
  | fuel, d, K, address, stop, hd, hc, hle, hbelow, hm, hfuel => by
    have h := geometry_of_validate hc
    unfold Device.walk
    by_cases hmore : address < stop ∧ d.unseen ≠ 0
    · rw [if_pos hmore]
      cases fuel with
      | zero => omega
      | succ fuel =>
        have part := hm.part h hmore.1 hbelow
        have hnext : partStop d.config stop address ≤ stop := min_le_left _ _
        obtain ⟨charges, d', hsegment, hd', ⟨hconfig, hpenalty, hshared⟩, hcharges⟩ := hd.segment hc part
        have hlt := part.lt
        obtain ⟨charges', d'', hwalk, hd'', ⟨hconfig', hpenalty', hshared'⟩, hcharges'⟩ := @Knows.walk fuel _ _ _ _ hd'
          (hconfig ▸ hc) hnext (hconfig ▸ hbelow) (hconfig ▸ hm.rest h) (by omega)
        rw [hconfig] at hd'' hcharges'
        rw [hpenalty, hshared] at hcharges'
        refine ⟨charges ++ charges', d'', ?_, ?_, ⟨hconfig'.trans hconfig, hpenalty'.trans hpenalty, hshared'.trans hshared⟩, fun path => ?_⟩
        · show (d.segment address (partStop d.config stop address) >>= _) = _
          rw [hsegment]
          show (d'.walk stop fuel (partStop d.config stop address) >>= _) = _
          rw [hwalk]
          rfl
        · rwa [Finset.union_assoc, keysOf_union hlt.le hnext] at hd''
        · rw [chargedTo_append, hcharges, hcharges', ← add_mul, ← Nat.cast_add, card_added, keysOf_union hlt.le hnext]
    · rw [if_neg hmore]
      -- nothing is left of the range, or everything has been seen
      have hsub : keysOf d.config address stop ⊆ K := by
        intro key hkey
        obtain ⟨a, ha, rfl⟩ := Finset.mem_image.1 hkey
        obtain ⟨hlo, hhi⟩ := Finset.mem_Ico.1 ha
        have hall : d.unseen = 0 := by
          by_contra hne
          exact hmore ⟨by omega, hne⟩
        have hfull : K = Finset.range (totalBanks d.config) := by
          refine Finset.eq_of_subset_of_card_le hd.inside ?_
          have := hd.unseen
          rw [Finset.card_range]
          omega
        rw [hfull]
        exact Finset.mem_range.2 (keyAt_lt h (hhi.trans_le hbelow))
      refine ⟨[], d, rfl, by rwa [Finset.union_eq_left.2 hsub], ⟨rfl, rfl, rfl⟩, fun path => ?_⟩
      rw [Finset.sdiff_eq_empty_iff_subset.2 hsub, Finset.filter_empty, Finset.card_empty, Nat.cast_zero, zero_mul]
      rfl

/-! ## Coordinates -/

/-- What the bursts of an access are mapped to. -/
def mapped (c : DramConfig) (access : ℕ × ℕ) : Finset AddressMapping :=
  (((Finset.Ico access.1 (access.1 + access.2)).image (· / c.burstBytes)).image fun burst =>
    (mapDramAddress c (burst * c.burstBytes)).toOption).eraseNone

/-- The banks that the bursts of some accesses are mapped to. -/
def reached (c : DramConfig) : List (ℕ × ℕ) → Finset Coordinate
  | [] => ∅
  | access :: accesses => (mapped c access).image (coordinate c) ∪ reached c accesses

/-- The banks of an access on a path. -/
def reachedOn (c : DramConfig) (sharedCommandResource : Bool) (path : ℕ) (access : ℕ × ℕ) : Finset Coordinate :=
  ((mapped c access).filter fun m => commandPath c sharedCommandResource m = path).image (coordinate c)

/-- The key of a bank. -/
def coordinateKey (c : DramConfig) (k : Coordinate) : ℕ :=
  (((if c.independentStacks then 0 else k.1) * c.addressableDieCount + k.2.1) * c.laneCount + k.2.2.1) * c.bankCount + k.2.2.2

theorem mem_mapped {access : ℕ × ℕ} {m : AddressMapping} : m ∈ mapped c access ↔
    ∃ a, access.1 ≤ a ∧ a < access.1 + access.2 ∧ mapDramAddress c (a / c.burstBytes * c.burstBytes) = .ok m := by
  simp only [mapped, Finset.mem_eraseNone, Finset.mem_image, Finset.mem_Ico]
  constructor
  · rintro ⟨burst, ⟨a, ⟨hlo, hhi⟩, rfl⟩, hm⟩
    refine ⟨a, hlo, hhi, ?_⟩
    cases hmap : mapDramAddress c (a / c.burstBytes * c.burstBytes) with
    | error e => rw [hmap] at hm; cases hm
    | ok m' => rw [hmap] at hm; cases hm; rfl
  · rintro ⟨a, hlo, hhi, hm⟩
    exact ⟨_, ⟨a, ⟨hlo, hhi⟩, rfl⟩, by rw [hm]; rfl⟩

/-- A bank of a mapped address has the address's key, and its path. -/
theorem AtCell.key (h : Geometry c) {address : ℕ} (ha : address < c.effectiveCapacityBytes) {m : AddressMapping} (hm : AtCell c address m)
    (sharedCommandResource : Bool) : coordinateKey c (coordinate c m) = keyAt c address ∧
      commandPath c sharedCommandResource m = keyPath c sharedCommandResource (keyAt c address) := by
  have hlane : m.lane = (cellAt c address).1 := congrArg Prod.fst hm.cell
  have hbank : (coordinate c m).2.2.2 = (cellAt c address).2 := congrArg Prod.snd hm.cell
  constructor
  · have hdie : (if c.independentStacks then 0 else m.stack) * c.addressableDieCount + m.die = address / c.perDie := by
      rw [← die_eq c address, hm.die]
      congr 2
      by_cases hown : c.independentStacks = true
      · have hbelow := h.below ha
        rw [DramConfig.addressableStackCount, if_pos hown, Nat.lt_one_iff] at hbelow
        rw [if_pos hown, hbelow]
      · rw [if_neg hown, hm.stack, if_neg hown]
    show (((if c.independentStacks then 0 else m.stack) * c.addressableDieCount + m.die) * c.laneCount + m.lane) * c.bankCount +
      (coordinate c m).2.2.2 = _
    rw [hdie, hlane, hbank, keyAt]
  · rw [keyPath_keyAt h, ← hlane, commandPath, lanePath]
    by_cases hjedec : c.jedecHbm = true
    · rw [if_pos hjedec, if_neg (by rw [hjedec]; decide), hm.channel, hm.stack]
    · rw [if_neg hjedec, if_pos (Bool.eq_false_iff.2 hjedec)]

/-- Banks of one key are one bank. -/
theorem AtCell.eq (h : Geometry c) {a b : ℕ} {m n : AddressMapping} (hm : AtCell c a m) (hn : AtCell c b n)
    (heq : keyAt c a = keyAt c b) : coordinate c m = coordinate c n := by
  obtain ⟨hlane, hbank, hdie⟩ := keyAt_read h a
  obtain ⟨hlane', hbank', hdie'⟩ := keyAt_read h b
  rw [heq] at hlane hbank hdie
  have hcell : cellAt c a = cellAt c b := Prod.ext (hlane.symm.trans hlane') (hbank.symm.trans hbank')
  have hdies : a / c.perDie = b / c.perDie := hdie.symm.trans hdie'
  obtain ⟨hl, hk⟩ := Prod.mk.inj (hm.cell.trans (hcell.trans hn.cell.symm))
  have hstack : m.stack = n.stack := by
    rw [hm.stack, hn.stack, hl, DramConfig.perStack, ← Nat.div_div_eq_div_mul, ← Nat.div_div_eq_div_mul, hdies]
  have hd : m.die = n.die := by
    rw [hm.die, hn.die, DramConfig.perStack, Nat.mod_mul_right_div_self, Nat.mod_mul_right_div_self, hdies]
  simp only [coordinate] at hk ⊢
  rw [hstack, hd, hl, hk]

/-- An access below the capacity that the device mirrors. -/
structure Access (c : DramConfig) (access : ℕ × ℕ) : Prop where
  below : access.1 + access.2 ≤ c.effectiveCapacityBytes
  mirrored : Mirrored c access.1 (access.1 + access.2)

theorem Access.mem_mapped {access : ℕ × ℕ} (ha : Access c access) (h : Geometry c) {m : AddressMapping} :
    m ∈ mapped c access ↔ ∃ a, access.1 ≤ a ∧ a < access.1 + access.2 ∧ a < c.effectiveCapacityBytes ∧
      mapDramAddress c (a / c.burstBytes * c.burstBytes) = .ok m ∧ AtCell c a m := by
  rw [RowBounds.mem_mapped]
  constructor
  · rintro ⟨a, hlo, hhi, hm⟩
    have hbelow := hhi.trans_le ha.below
    obtain ⟨m', hm', hcell⟩ := burst_mapped h hbelow (ha.mirrored.mapped a hlo hhi)
    obtain rfl := Except.ok.inj (hm.symm.trans hm')
    exact ⟨a, hlo, hhi, hbelow, hm, hcell⟩
  · rintro ⟨a, hlo, hhi, -, hm, -⟩
    exact ⟨a, hlo, hhi, hm⟩

/-- The keys of an access are its banks'. -/
theorem Access.keys {access : ℕ × ℕ} (ha : Access c access) (h : Geometry c) :
    keysOf c access.1 (access.1 + access.2) = ((mapped c access).image (coordinate c)).image (coordinateKey c) := by
  ext key
  simp only [keysOf, Finset.mem_image, Finset.mem_Ico, ha.mem_mapped h]
  constructor
  · rintro ⟨a, ⟨hlo, hhi⟩, rfl⟩
    have hbelow := hhi.trans_le ha.below
    obtain ⟨m, hm, hcell⟩ := burst_mapped h hbelow (ha.mirrored.mapped a hlo hhi)
    exact ⟨_, ⟨m, ⟨a, hlo, hhi, hbelow, hm, hcell⟩, rfl⟩, (hcell.key h hbelow true).1⟩
  · rintro ⟨k, ⟨m, ⟨a, hlo, hhi, hbelow, -, hcell⟩, rfl⟩, rfl⟩
    exact ⟨a, ⟨hlo, hhi⟩, (hcell.key h hbelow true).1.symm⟩

/-- A bank that some access reaches. -/
def Reached (c : DramConfig) (k : Coordinate) : Prop := ∃ a m, a < c.effectiveCapacityBytes ∧ AtCell c a m ∧ k = coordinate c m

theorem coordinateKey_inj (h : Geometry c) {k l : Coordinate} (hk : Reached c k) (hl : Reached c l)
    (heq : coordinateKey c k = coordinateKey c l) : k = l := by
  obtain ⟨a, m, ha, hm, rfl⟩ := hk
  obtain ⟨b, n, hb, hn, rfl⟩ := hl
  rw [(hm.key h ha true).1, (hn.key h hb true).1] at heq
  exact hm.eq h hn heq

theorem Access.reached {access : ℕ × ℕ} (ha : Access c access) (h : Geometry c) {k : Coordinate}
    (hk : k ∈ (mapped c access).image (coordinate c)) : Reached c k := by
  obtain ⟨m, hm, rfl⟩ := Finset.mem_image.1 hk
  obtain ⟨a, -, -, hbelow, -, hcell⟩ := (ha.mem_mapped h).1 hm
  exact ⟨a, m, hbelow, hcell, rfl⟩

/-- **The keys an access adds on a path are the banks it reaches first there.** -/
theorem card_first (h : Geometry c) {access : ℕ × ℕ} (ha : Access c access) {before : Finset Coordinate} (hbefore : ∀ k ∈ before, Reached c k)
    (sharedCommandResource : Bool) (path : ℕ) :
    ((keysOf c access.1 (access.1 + access.2) \ before.image (coordinateKey c)).filter fun key =>
      keyPath c sharedCommandResource key = path).card = (reachedOn c sharedCommandResource path access \ before).card := by
  have hon : ∀ k ∈ reachedOn c sharedCommandResource path access \ before, Reached c k := by
    intro k hk
    obtain ⟨m, hm, rfl⟩ := Finset.mem_image.1 (Finset.mem_sdiff.1 hk).1
    exact ha.reached h (Finset.mem_image_of_mem _ (Finset.mem_filter.1 hm).1)
  rw [← Finset.card_image_of_injOn (f := coordinateKey c) fun k hk l hl heq => coordinateKey_inj h (hon k hk) (hon l hl) heq]
  congr 1
  ext key
  simp only [Finset.mem_filter, Finset.mem_sdiff, Finset.mem_image, keysOf, Finset.mem_Ico, reachedOn, ha.mem_mapped h]
  constructor
  · rintro ⟨⟨⟨a, ⟨hlo, hhi⟩, rfl⟩, hnew⟩, hpath⟩
    have hbelow := hhi.trans_le ha.below
    obtain ⟨m, hm, hcell⟩ := burst_mapped h hbelow (ha.mirrored.mapped a hlo hhi)
    obtain ⟨hkey, hkeyPath⟩ := hcell.key h hbelow sharedCommandResource
    refine ⟨coordinate c m, ⟨⟨m, ⟨⟨a, hlo, hhi, hbelow, hm, hcell⟩, hkeyPath.trans hpath⟩, rfl⟩, fun hold => hnew ⟨_, hold, hkey⟩⟩, hkey⟩
  · rintro ⟨k, ⟨⟨m, ⟨⟨a, hlo, hhi, hbelow, hm, hcell⟩, hpath⟩, rfl⟩, hnew⟩, rfl⟩
    obtain ⟨hkey, hkeyPath⟩ := hcell.key h hbelow sharedCommandResource
    refine ⟨⟨⟨a, ⟨hlo, hhi⟩, hkey.symm⟩, ?_⟩, ?_⟩
    · rintro ⟨l, hl, heq⟩
      exact hnew (coordinateKey_inj h (hbefore l hl) ⟨a, m, hbelow, hcell, rfl⟩ heq ▸ hl)
    · rw [hkey, ← hkeyPath]
      exact hpath

/-! ## Runs -/

/-- **Along a run each access charges a penalty for each bank it reaches first.** -/
theorem Knows.run : ∀ {accesses : List (ℕ × ℕ)} {d : Device} {before : Finset Coordinate},
    Knows d (before.image (coordinateKey d.config)) → (∀ k ∈ before, Reached d.config k) → d.config.validate = .ok () →
    (∀ access ∈ accesses, Access d.config access) →
    ∃ charges d', d.run accesses = .ok (charges, d') ∧ charges.length = accesses.length ∧
      d'.unseen + (before ∪ reached d.config accesses).card = totalBanks d.config ∧
      ∀ i access charged, accesses[i]? = some access → charges[i]? = some charged → ∀ path, chargedTo charged path =
        (reachedOn d.config d.sharedCommandResource path access \ (before ∪ reached d.config (accesses.take i))).card * d.penalty
  | [], d, before, hd, hbefore, hc, _ => by
    refine ⟨[], d, rfl, rfl, ?_, fun i access charged haccess => by simp at haccess⟩
    have hcard := hd.unseen
    have h := geometry_of_validate hc
    rw [Finset.card_image_of_injOn fun k hk l hl heq => coordinateKey_inj h (hbefore k hk) (hbefore l hl) heq] at hcard
    rw [reached, Finset.union_empty]
    exact hcard
  | access :: accesses, d, before, hd, hbefore, hc, hall => by
    have h := geometry_of_validate hc
    have ha := hall access List.mem_cons_self
    obtain ⟨charges, d', hwalk, hd', ⟨hconfig, hpenalty, hshared⟩, hcharges⟩ :=
      @Knows.walk access.2 d _ access.1 (access.1 + access.2) hd hc (Nat.le_add_right _ _) ha.below ha.mirrored (by omega)
    rw [ha.keys h, ← Finset.image_union, ← hconfig] at hd'
    have hbefore' : ∀ k ∈ before ∪ (mapped d'.config access).image (coordinate d'.config), Reached d'.config k := by
      rw [hconfig]
      intro k hk
      rcases Finset.mem_union.1 hk with hk | hk
      · exact hbefore k hk
      · exact ha.reached h hk
    obtain ⟨rest, d'', hrest, hlength, hunseen, hcharged⟩ := Knows.run hd' hbefore' (hconfig ▸ hc)
      fun a hmem => hconfig ▸ hall a (List.mem_cons_of_mem _ hmem)
    rw [hconfig, Finset.union_assoc] at hunseen
    refine ⟨charges :: rest, d'', ?_, congrArg Nat.succ hlength, hunseen, fun i a charged hi hcharge path => ?_⟩
    · show (d.walk (access.1 + access.2) access.2 access.1 >>= _) = _
      rw [hwalk]
      show (d'.run accesses >>= _) = _
      rw [hrest]
      rfl
    · cases i with
      | zero =>
        obtain rfl : access = a := by simpa using hi
        obtain rfl : charges = charged := by simpa using hcharge
        rw [hcharges, card_first h ha hbefore, List.take_zero, reached, Finset.union_empty]
      | succ i =>
        have hlater := hcharged i a charged (by simpa using hi) (by simpa using hcharge) path
        rw [hconfig, hpenalty, hshared, Finset.union_assoc] at hlater
        exact hlater

/-- **First accesses mirror the address map.** Of accesses that the device mirrors, each is charged, on each command
path, a penalty for each bank of the path that its bursts are mapped to and no earlier one's was, and the others
are counted as unseen. -/
theorem first_accesses_mirror (c : DramConfig) (t : Timings) (sharedCommandResource : Bool) (accesses : List (ℕ × ℕ))
    (hc : c.validate = .ok ()) (hall : ∀ access ∈ accesses, Access c access) :
    ∃ charges d, (Device.new c t sharedCommandResource).run accesses = .ok (charges, d) ∧ charges.length = accesses.length ∧
      d.unseen + (reached c accesses).card = totalBanks c ∧
      ∀ i access charged, accesses[i]? = some access → charges[i]? = some charged → ∀ path, chargedTo charged path =
        (reachedOn c sharedCommandResource path access \ reached c (accesses.take i)).card * firstAccessPenaltyNs c t := by
  have hnew : Knows (Device.new c t sharedCommandResource) ((∅ : Finset Coordinate).image (coordinateKey c)) := .new c t sharedCommandResource
  obtain ⟨charges, d, hrun, hlength, hunseen, hcharged⟩ :=
    hnew.run (fun k hk => absurd hk (Finset.notMem_empty k)) hc hall
  rw [Finset.empty_union] at hunseen
  refine ⟨charges, d, hrun, hlength, hunseen, fun i access charged hi hcharge path => ?_⟩
  have hpath := hcharged i access charged hi hcharge path
  rw [Finset.empty_union] at hpath
  exact hpath

def unitTimings : Timings := ⟨1, 1, 1, 1, 1, 1, 1, 1, 1, 1, 1, 1, 1, 1, 1, 1, 1, 1, 1, 1⟩

/-- Two banks of four rows of one burst. -/
def twoBanks : DramConfig where
  kind := .ddr
  jedecHbm := false
  addressMapping := .rowLocal
  scheduler := .fcfs
  queueScope := .device
  perStackBanks := false
  independentStacks := false
  channels := 1
  subchannelsPerChannel := 1
  pseudoChannelsPerChannel := 1
  stackCount := 1
  diesPerStack := 1
  ranksPerChannel := 1
  bankGroupsPerRank := 1
  banksPerGroup := 2
  rowsPerBank := 4
  rowBytes := 64
  burstBytes := 64
  dataLanes := none
  interleaveBytes := none
  capacityBytes := none

theorem access_twoBanks {access : ℕ × ℕ} (h : access.1 + access.2 ≤ 512) : Access twoBanks access where
  below := h
  mirrored := by
    refine ⟨fun a _ _ hb => absurd hb.1 (by decide), fun a _ _ _ hmode => absurd hmode (by decide), fun a _ ha _ => ?_⟩
    exact (Nat.div_le_self _ _).trans_lt ((Nat.mod_le _ _).trans_lt (by omega))

/-- The second access starts in the bank the first has reached, and goes on to the other. -/
theorem first_accesses_twoBanks : ∃ charges d, (Device.new twoBanks unitTimings false).run [(0, 64), (32, 100)] = .ok (charges, d) ∧
    charges.length = 2 ∧ d.unseen + (reached twoBanks [(0, 64), (32, 100)]).card = totalBanks twoBanks ∧
    ∀ i access charged, [(0, 64), (32, 100)][i]? = some access → charges[i]? = some charged → ∀ path, chargedTo charged path =
      (reachedOn twoBanks false path access \ reached twoBanks ([(0, 64), (32, 100)].take i)).card * firstAccessPenaltyNs twoBanks unitTimings :=
  first_accesses_mirror twoBanks unitTimings false [(0, 64), (32, 100)] (by decide) fun access haccess => access_twoBanks (by
    simp only [List.mem_cons, List.not_mem_nil, or_false] at haccess
    rcases haccess with rfl | rfl <;> decide)

/-- The nine groups' SIDs have 32 banks a lane. -/
theorem reachedOn_nineGroups (access : ℕ × ℕ) (h : access.1 + access.2 ≤ 131072) (path : ℕ) :
    (reachedOn nineGroups false path access).card ≤ 64 := by
  have hg := geometry_of_validate (show nineGroups.validate = .ok () by decide +kernel)
  have hsub : reachedOn nineGroups false path access ⊆
      (Finset.range 2 ×ˢ Finset.range 32).image fun pair => ((0, 0, pair.1, pair.2) : Coordinate) := by
    intro k hk
    obtain ⟨m, hm, rfl⟩ := Finset.mem_image.1 hk
    obtain ⟨a, -, ha, hmap⟩ := mem_mapped.1 (Finset.mem_filter.1 hm).1
    have hbytes : nineGroups.sidBytes = 131072 := by decide
    have hcapacity : nineGroups.effectiveCapacityBytes = 147456 := by decide
    obtain ⟨m', hm', hcell⟩ := burst_mapped hg (show a < nineGroups.effectiveCapacityBytes by omega) fun hb => by
      have := hb.2
      omega
    obtain rfl := Except.ok.inj (hmap.symm.trans hm')
    have hlane : m.lane = (cellAt nineGroups a).1 := congrArg Prod.fst hcell.cell
    have hlt : m.lane < 2 := hlane.trans_lt (cellAt_lt hg a).1
    have hbank : (coordinate nineGroups m).2.2.2 < 32 := by
      rw [show (coordinate nineGroups m).2.2.2 = (cellAt nineGroups a).2 from congrArg Prod.snd hcell.cell]
      exact two_digits_lt (two_digits_lt (Nat.mod_lt _ (by decide : 0 < 2)) (Nat.mod_lt _ (by decide : 0 < 4)))
        (Nat.mod_lt _ (by decide : 0 < 4))
    have hstack : m.stack = 0 := by
      rw [hcell.stack, if_pos (show nineGroups.independentStacks = true from rfl)]
      exact Nat.div_eq_of_lt hlt
    have hdie : m.die = 0 := by
      rw [hcell.die]
      exact Nat.div_eq_of_lt (Nat.mod_lt _ (by decide))
    refine Finset.mem_image.2 ⟨(m.lane, (coordinate nineGroups m).2.2.2), ?_, ?_⟩
    · exact Finset.mem_product.2 ⟨Finset.mem_range.2 hlt, Finset.mem_range.2 hbank⟩
    · simp only [coordinate, hstack, hdie]
  exact (Finset.card_le_card hsub).trans (Finset.card_image_le.trans_eq (by decide))

/-- **A range of a whole turn is charged for the banks of a group that no SID has.** -/
theorem first_accesses_leftover : nineGroups.validate = .ok () ∧ 0 + 65536 ≤ nineGroups.effectiveCapacityBytes ∧
    (∀ a < 65536, ¬nineGroups.beyondSids a) ∧
    (((Device.new nineGroups unitTimings false).run [(0, 65536)]).toOption.map fun r => (r.1.map fun charges => chargedTo charges 0, r.2.unseen)) =
      some ([72 * firstAccessPenaltyNs nineGroups unitTimings], 0) ∧
    (reachedOn nineGroups false 0 (0, 65536)).card ≤ 64 ∧ 0 < firstAccessPenaltyNs nineGroups unitTimings := by
  refine ⟨by decide +kernel, by decide, fun a ha hb => ?_, by decide +kernel, reachedOn_nineGroups _ (by decide) _, by decide +kernel⟩
  have hbytes : nineGroups.sidBytes = 131072 := by decide
  have := hb.2
  omega

end HeteroSim.RowBounds
