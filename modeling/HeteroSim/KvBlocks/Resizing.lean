/-
What one accepted call of `resize` does: every kind's table gets the length
its pages need, from the pool's head or to its tail, the block of the newest
row is reported if it is freed, and a request without pages goes.
-/
import HeteroSim.KvBlocks.Conserved

namespace HeteroSim.KvBlocks

namespace BlockTables

variable {owner : String → Option ℕ} {b : BlockTables} {group : ℕ} {request : String} {pages previous : ℕ}

theorem ok_bind {ε σ α β : Type} {x : EStateM ε σ α} {f : α → EStateM ε σ β} {s s' : σ} {a : α} (h : x s = .ok a s') :
    (x >>= f) s = f a s' := by
  simp [bind, EStateM.bind, h]

theorem get_then {α : Type} (f : BlockTables → EStateM String BlockTables α) : (get >>= f) b = f b b := rfl

theorem set_then {α : Type} (b' : BlockTables) (f : PUnit → EStateM String BlockTables α) : (set b' >>= f) b = f ⟨⟩ b' := rfl

theorem Conserves.reowned (h : b.Conserves owner) {owner' : String → Option ℕ}
    (hsame : ∀ r ∈ b.tables.keys, owner r = owner' r) : b.Conserves owner' := by
  refine ⟨?_, h.kinds, fun r hr => hsame r hr ▸ h.owners r hr, fun key ring position n hring hn => ?_,
    fun r t kind position ht hposition => ?_, h.tails⟩
  · intro key free hfree
    rw [← inUse_congr key hsame]
    exact h.pools key free hfree
  · rw [← tailsAt_congr key position fun r hr => hsame r (h.tails r hr)]
    exact h.rings key ring position n hring hn
  · obtain ⟨g, ring, hg, hring⟩ := h.placed r t kind position ht hposition
    exact ⟨g, ring, by rw [← hsame r (h.tails r (Dict.mem_keys_of_get? ht))]; exact hg, hring⟩

/-! ## Placing -/

/-- Placing a request leaves the tables, and as many free blocks in every pool. -/
structure Placing (b b' : BlockTables) : Prop where
  tables : b'.tables = b.tables
  counts : b'.counts = b.counts
  ring : b'.ring = b.ring
  pools : ∀ key, (b'.pools.get? key).map FreeList.available = (b.pools.get? key).map FreeList.available

theorem Placing.refl (b : BlockTables) : Placing b b := ⟨rfl, rfl, rfl, fun _ => rfl⟩

theorem Placing.trans {b b' b'' : BlockTables} (h : Placing b b') (h' : Placing b' b'') : Placing b b'' :=
  ⟨h'.tables.trans h.tables, h'.counts.trans h.counts, h'.ring.trans h.ring, fun key => (h'.pools key).trans (h.pools key)⟩

theorem Placing.keys {b b' : BlockTables} (h : Placing b b') (key : ℕ × String) (hkey : key ∈ b.pools.keys) :
    key ∈ b'.pools.keys := by
  obtain ⟨free, hfree⟩ := Dict.mem_keys.1 hkey
  have hmap := h.pools key
  rw [hfree, Option.map_some, Option.map_eq_some_iff] at hmap
  obtain ⟨free', hfree', -⟩ := hmap
  exact Dict.mem_keys_of_get? hfree'

/-- The request is placed in the kinds before `kinds`. -/
structure Underway (owner : String → Option ℕ) (request : String) (kinds : List String) (b : BlockTables) : Prop where
  conserves : b.Conserves owner
  tails : ∃ t, b.tails.get? request = some t ∧ ∀ kind ∈ kinds, t.get? kind = none

theorem placeKind_wp {kind : String} {kinds : List String} {rows : ℤ} {seeded : Bool} (howner : owner request = some group)
    (hnodup : kind ∉ kinds) (h : Underway owner request (kind :: kinds) b) :
    wp (placeKind group request rows seeded kind) (fun _ b' => Underway owner request kinds b' ∧ Placing b b')
      (fun _ b' => b'.Conserves owner ∧ Placing b b') b := by
  unfold placeKind
  rw [wp_bind, wp_get]
  dsimp only
  split
  · next free ring tails hfree hring htails =>
    obtain ⟨t, ht, hnone⟩ := h.tails
    obtain rfl : tails = t := Option.some.inj (htails.symm.trans ht)
    have hperm : (if seeded = true then free else free.toFront (ring.pick free.live rows)).live.Perm free.live := by
      split
      · exact .refl _
      · exact free.live_toFront_perm _
    split
    · rw [wp_throw]
      exact ⟨h.conserves, .refl b⟩
    · next block _ hlive =>
      rw [wp_set]
      have hreordered := h.conserves.reorder hfree hperm
      have htail := hreordered.tail howner htails (hnone kind List.mem_cons_self) hring (ring.position_lt block rows)
      refine ⟨⟨htail, _, Dict.get?_insert_self _ _ _, fun k hk => ?_⟩, rfl, rfl, rfl, fun key => ?_⟩
      · rw [Dict.get?_insert_of_ne _ _ (by rintro rfl; exact hnodup hk)]
        exact hnone k (List.mem_cons_of_mem _ hk)
      · change ((b.pools.insert (group, kind) _).get? key).map _ = _
        rw [Dict.get?_insert]
        split
        · next hkey =>
          subst hkey
          rw [hfree, Option.map_some, Option.map_some, ← FreeList.length_live, ← FreeList.length_live, hperm.length_eq]
        · rfl
  · rw [wp_throw]
    exact ⟨h.conserves, .refl b⟩

theorem placeKinds_wp {rows : ℤ} {seeded : Bool} (howner : owner request = some group) : ∀ {kinds : List String}
    {b : BlockTables}, kinds.Nodup → Underway owner request kinds b →
    wp (forM kinds (placeKind group request rows seeded)) (fun _ b' => b'.Conserves owner ∧ Placing b b')
      (fun _ b' => b'.Conserves owner ∧ Placing b b') b
  | [], b, _, h => ⟨h.conserves, .refl b⟩
  | kind :: kinds, b, hnodup, h => by
    rw [List.nodup_cons] at hnodup
    rw [List.forM_cons, wp_bind]
    refine wp_mono (placeKind_wp howner hnodup.1 h) (fun _ b' hb' => ?_) fun _ _ hb' => hb'
    refine wp_mono (placeKinds_wp howner hnodup.2 hb'.1) (fun _ b'' hb'' => ?_) fun _ b'' hb'' => ?_
    · exact ⟨hb''.1, hb'.2.trans hb''.2⟩
    · exact ⟨hb''.1, hb'.2.trans hb''.2⟩

theorem takeRows_wp (h : b.Conserves owner) : wp (takeRows group)
    (fun _ b' => b'.Conserves owner ∧ Placing b b' ∧ b'.tails = b.tails) (fun _ b' => b'.Conserves owner ∧ Placing b b') b := by
  unfold takeRows
  rw [wp_bind, wp_get]
  split
  · exact ⟨h, .refl b⟩
  · exact ⟨h.congr rfl rfl rfl rfl rfl, ⟨rfl, rfl, rfl, fun _ => rfl⟩, rfl⟩
  · split
    · exact ⟨h, .refl b⟩
    · exact ⟨h, .refl b⟩
    · exact ⟨h.congr rfl rfl rfl rfl rfl, ⟨rfl, rfl, rfl, fun _ => rfl⟩, rfl⟩

/-- Placing a new request keeps the books, also when it raises half-way. -/
theorem place_wp (h : b.Conserves owner) (howner : owner request = some group) (hin : request ∈ b.tables.keys)
    (hnone : b.tails.get? request = none) : wp (place group request) (fun _ b' => b'.Conserves owner ∧ Placing b b')
      (fun _ b' => b'.Conserves owner ∧ Placing b b') b := by
  unfold place
  rw [wp_bind]
  refine wp_mono (takeRows_wp h) (fun rows b₁ h₁ => ?_) fun _ _ h₁ => h₁
  obtain ⟨hconserves, hplacing, htails⟩ := h₁
  rw [wp_bind, wp_modify, wp_bind, wp_get]
  have hin₁ : request ∈ b₁.tables.keys := by rw [hplacing.tables]; exact hin
  have hnone₁ : b₁.tails.get? request = none := by rw [htails]; exact hnone
  have hunderway : Underway owner request b₁.counts.keys { b₁ with tails := b₁.tails.insert request .empty } :=
    ⟨hconserves.untailed hin₁ hnone₁, .empty, Dict.get?_insert_self _ _ _, fun _ _ => rfl⟩
  have hplaced : Placing b { b₁ with tails := b₁.tails.insert request .empty } :=
    ⟨hplacing.tables, hplacing.counts, hplacing.ring, hplacing.pools⟩
  refine wp_mono (placeKinds_wp howner b₁.counts.keys_nodup hunderway) (fun _ b₂ h₂ => ?_) fun _ b₂ h₂ => ?_
  · exact ⟨h₂.1, hplaced.trans h₂.2⟩
  · exact ⟨h₂.1, hplaced.trans h₂.2⟩

/-- A table with no block of any kind. -/
def emptyTable (b : BlockTables) : Dict String (List ℕ) := b.counts.mapValues fun _ => []

theorem create_wp (h : b.Conserves owner) (hnew : b.tables.get? request = none) : wp (create group request)
    (fun _ b' => b'.Conserves (Function.update owner request (some group)) ∧
      Placing { b with tables := b.tables.insert request b.emptyTable } b')
    (fun _ b' => b'.Conserves (Function.update owner request (some group)) ∧
      Placing { b with tables := b.tables.insert request b.emptyTable } b') b := by
  unfold create
  rw [wp_bind, wp_get, wp_bind, wp_set]
  have hcreated : BlockTables.Conserves (Function.update owner request (some group)) _ := h.create hnew
  split
  · exact ⟨hcreated, .refl _⟩
  · exact place_wp hcreated (Function.update_self _ _ _) (Dict.mem_keys_insert.2 (.inl rfl))
      (Dict.get?_eq_none.2 (h.absent hnew))

/-! ## One kind -/

/-- The block reported freed of a kind: the newest row's, when the table shrinks below it. -/
def reported (blocks : List ℕ) (target previous : ℕ) : Option ℕ :=
  if target < blocks.length then newestFreed blocks target previous else none

/-- What resizing leaves alone. -/
structure Untouched (b b' : BlockTables) : Prop where
  counts : b'.counts = b.counts
  ring : b'.ring = b.ring
  rings : b'.rings = b.rings
  tails : b'.tails = b.tails

theorem Untouched.refl (b : BlockTables) : Untouched b b := ⟨rfl, rfl, rfl, rfl⟩

theorem Untouched.trans {b b' b'' : BlockTables} (h : Untouched b b') (h' : Untouched b' b'') : Untouched b b'' :=
  ⟨h'.counts.trans h.counts, h'.ring.trans h.ring, h'.rings.trans h.rings, h'.tails.trans h.tails⟩

theorem blocksForPages_congr {b' : BlockTables} (hring : b'.ring = b.ring) (kind : String) (pages : ℕ) :
    b'.blocksForPages kind pages = b.blocksForPages kind pages := by
  unfold blocksForPages
  rw [hring]

theorem live_grown (free : FreeList ℕ) : (grown free).live = free.live := by
  unfold grown
  split <;> rfl

theorem blocksOf_eq {kind : String} {table : Dict String (List ℕ)} {blocks : List ℕ}
    (htable : b.tables.get? request = some table) (hblocks : table.get? kind = some blocks) :
    b.blocksOf request kind = blocks := by
  simp [blocksOf, htable, hblocks]

/-- A table of `target` blocks, cut from another or grown at its end. -/
structure Sized (target : ℕ) (blocks blocks' : List ℕ) : Prop where
  length : blocks'.length = target
  kept : blocks'.take blocks.length = blocks.take target

/-- What one kind's turn leaves. -/
structure KindResized (owner : String → Option ℕ) (group : ℕ) (request kind : String) (target : ℕ)
    (table : Dict String (List ℕ)) (blocks : List ℕ) (b b' : BlockTables) : Prop where
  conserves : b'.Conserves owner
  untouched : Untouched b b'
  pools : ∀ key, key ≠ (group, kind) → b'.pools.get? key = b.pools.get? key
  keys : ∀ key ∈ b.pools.keys, key ∈ b'.pools.keys
  tables : ∃ blocks', Sized target blocks blocks' ∧ b'.tables.get? request = some (table.insert kind blocks')
  others : ∀ r, r ≠ request → b'.tables.get? r = b.tables.get? r

theorem KindResized.of_exchange {kind : String} {target : ℕ} {table : Dict String (List ℕ)} {blocks blocks' : List ℕ}
    {free : FreeList ℕ} (htable : b.tables.get? request = some table) (hsized : Sized target blocks blocks')
    (h : (b.exchange (group, kind) free request blocks').Conserves owner) :
    KindResized owner group request kind target table blocks b (b.exchange (group, kind) free request blocks') := by
  have hinsert : (b.exchange (group, kind) free request blocks').tables =
      b.tables.insert request (table.insert kind blocks') := by simp [BlockTables.exchange, htable]
  refine ⟨h, ⟨rfl, rfl, rfl, rfl⟩, fun key hkey => Dict.get?_insert_of_ne _ _ hkey,
    fun key hkey => Dict.mem_keys_insert.2 (.inr hkey), ⟨blocks', hsized, ?_⟩, fun r hr => ?_⟩
  · rw [hinsert, Dict.get?_insert_self]
  · rw [hinsert, Dict.get?_insert_of_ne _ _ hr]

/-- A kind whose pool has enough is resized. -/
theorem resizeKind_ok (previous : ℕ) (h : b.Conserves owner) (howner : owner request = some group) {kind : String}
    {table : Dict String (List ℕ)} {blocks : List ℕ} {free : FreeList ℕ} (freed : Dict String ℕ)
    (htable : b.tables.get? request = some table) (hblocks : table.get? kind = some blocks)
    (hfree : b.pools.get? (group, kind) = some free)
    (hfits : b.blocksForPages kind pages ≤ blocks.length + free.available) :
    ∃ b', resizeKind group request pages previous freed kind b =
        .ok (reporting freed kind (reported blocks (b.blocksForPages kind pages) previous)) b' ∧
      KindResized owner group request kind (b.blocksForPages kind pages) table blocks b b' := by
  have hof := blocksOf_eq htable hblocks
  rw [resizeKind, get_then]
  simp only [hfree, hof]
  rcases Nat.lt_trichotomy blocks.length (b.blocksForPages kind pages) with hlt | heq | hlt
  · obtain ⟨next, hnext⟩ : ∃ next, free.take (b.blocksForPages kind pages - blocks.length) = some next :=
      Option.isSome_iff_exists.1 (FreeList.take_isSome.2 (by omega))
    obtain ⟨hlive, hlength⟩ := FreeList.take_some hnext
    rw [if_pos hlt, hnext, reported, if_neg (by omega)]
    have hsized : Sized (b.blocksForPages kind pages) blocks (blocks ++ next.1) := by
      refine ⟨by rw [List.length_append, hlength]; omega, ?_⟩
      rw [List.take_left, List.take_of_length_le (by omega)]
    refine ⟨_, rfl, .of_exchange htable hsized ?_⟩
    refine h.exchange howner htable hblocks hfree ?_
    rw [live_grown, hlive]
    -- the taken blocks come from the head and stand at the table's end
    refine List.perm_append_comm.trans ?_
    rw [List.append_assoc]
    exact List.perm_append_comm
  · rw [if_neg (by omega), if_neg (by omega), reported, if_neg (by omega)]
    refine ⟨b, rfl, h, .refl b, fun _ _ => rfl, fun _ => id, ⟨blocks, ⟨heq, by rw [heq]⟩, ?_⟩, fun _ _ => rfl⟩
    rw [htable, Dict.insert_of_get? hblocks]
  · rw [if_neg (by omega), if_pos hlt, reported, if_pos hlt]
    have hsized : Sized (b.blocksForPages kind pages) blocks (blocks.take (b.blocksForPages kind pages)) := by
      refine ⟨by rw [List.length_take]; omega, ?_⟩
      rw [List.take_take, Nat.min_eq_right hlt.le]
    refine ⟨_, rfl, .of_exchange htable hsized ?_⟩
    refine h.exchange howner htable hblocks hfree ?_
    rw [FreeList.live_push, List.append_assoc]
    refine List.Perm.append_left _ (List.perm_append_comm.trans ?_)
    rw [List.take_append_drop]

/-! ## All kinds -/

theorem get?_reporting (freed : Dict String ℕ) (kind : String) (report : Option ℕ) (k : String) :
    (reporting freed kind report).get? k = if k = kind then (report <|> freed.get? kind) else freed.get? k := by
  cases report with
  | none =>
    change freed.get? k = _
    split
    · next h => rw [h]; rfl
    · rfl
  | some block =>
    change (freed.insert kind block).get? k = _
    rw [Dict.get?_insert]
    rfl

/-- Every one of `kinds` has what the pages need. -/
def Fits (group : ℕ) (pages : ℕ) (table : Dict String (List ℕ)) (kinds : List String) (b : BlockTables) : Prop :=
  ∀ kind ∈ kinds, ∃ blocks free, table.get? kind = some blocks ∧ b.pools.get? (group, kind) = some free ∧
    b.blocksForPages kind pages ≤ blocks.length + free.available

/-- What the loop over the kinds leaves. -/
structure TableResized (owner : String → Option ℕ) (request : String) (pages previous : ℕ)
    (kinds : List String) (table table' : Dict String (List ℕ)) (freed freed' : Dict String ℕ) (b b' : BlockTables) : Prop where
  conserves : b'.Conserves owner
  untouched : Untouched b b'
  keys : ∀ key ∈ b.pools.keys, key ∈ b'.pools.keys
  others : ∀ r, r ≠ request → b'.tables.get? r = b.tables.get? r
  entry : b'.tables.get? request = some table'
  sized : ∀ kind ∈ kinds, ∀ blocks, table.get? kind = some blocks →
    ∃ blocks', table'.get? kind = some blocks' ∧ Sized (b.blocksForPages kind pages) blocks blocks'
  kept : ∀ kind ∉ kinds, table'.get? kind = table.get? kind
  reports : ∀ kind ∈ kinds, ∀ blocks, table.get? kind = some blocks →
    freed'.get? kind = (reported blocks (b.blocksForPages kind pages) previous <|> freed.get? kind)
  unfreed : ∀ kind ∉ kinds, freed'.get? kind = freed.get? kind

theorem resizeKinds_ok (previous : ℕ) (howner : owner request = some group) : ∀ {kinds : List String} {b : BlockTables}
    {table : Dict String (List ℕ)} (freed : Dict String ℕ), b.Conserves owner → kinds.Nodup →
    b.tables.get? request = some table → Fits group pages table kinds b →
    ∃ freed' b' table', kinds.foldlM (resizeKind group request pages previous) freed b = .ok freed' b' ∧
      TableResized owner request pages previous kinds table table' freed freed' b b'
  | [], b, table, freed, h, _, htable, _ =>
    ⟨freed, b, table, rfl, h, .refl b, fun _ => id, fun _ _ => rfl, htable, by simp, fun _ _ => rfl, by simp, fun _ _ => rfl⟩
  | kind :: kinds, b, table, freed, h, hnodup, htable, hfits => by
    rw [List.nodup_cons] at hnodup
    obtain ⟨blocks, free, hblocks, hfree, hle⟩ := hfits kind List.mem_cons_self
    obtain ⟨b₁, hrun, hkind⟩ := resizeKind_ok previous h howner freed htable hblocks hfree hle
    obtain ⟨blocks₁, hsized₁, htable₁⟩ := hkind.tables
    have hfits₁ : Fits group pages (table.insert kind blocks₁) kinds b₁ := by
      intro k hk
      have hne : k ≠ kind := by
        rintro rfl
        exact hnodup.1 hk
      obtain ⟨blocks₂, free₂, hblocks₂, hfree₂, hle₂⟩ := hfits k (List.mem_cons_of_mem _ hk)
      refine ⟨blocks₂, free₂, ?_, ?_, ?_⟩
      · rw [Dict.get?_insert_of_ne _ _ hne]
        exact hblocks₂
      · rw [hkind.pools _ (fun heq => hne (congrArg Prod.snd heq))]
        exact hfree₂
      · rw [blocksForPages_congr hkind.untouched.ring]
        exact hle₂
    obtain ⟨freed', b', table', hrest, hresized⟩ := resizeKinds_ok previous howner
      (reporting freed kind (reported blocks (b.blocksForPages kind pages) previous)) hkind.conserves hnodup.2 htable₁ hfits₁
    refine ⟨freed', b', table', ?_, hresized.conserves, hkind.untouched.trans hresized.untouched,
      fun key hkey => hresized.keys key (hkind.keys key hkey), fun r hr => (hresized.others r hr).trans (hkind.others r hr), hresized.entry, ?_, ?_, ?_, ?_⟩
    · rw [List.foldlM_cons, ok_bind hrun]
      exact hrest
    · intro k hk blocks₂ hblocks₂
      rcases List.mem_cons.1 hk with rfl | hk'
      · rw [hblocks] at hblocks₂
        cases hblocks₂
        exact ⟨blocks₁, by rw [hresized.kept k hnodup.1, Dict.get?_insert_self], hsized₁⟩
      · have hne : k ≠ kind := by
          rintro rfl
          exact hnodup.1 hk'
        obtain ⟨blocks₃, hblocks₃, hsized₃⟩ := hresized.sized k hk' blocks₂ (by rw [Dict.get?_insert_of_ne _ _ hne]; exact hblocks₂)
        exact ⟨blocks₃, hblocks₃, by rwa [blocksForPages_congr hkind.untouched.ring] at hsized₃⟩
    · intro k hk
      rw [List.mem_cons, not_or] at hk
      rw [hresized.kept k hk.2, Dict.get?_insert_of_ne _ _ hk.1]
    · intro k hk blocks₂ hblocks₂
      rcases List.mem_cons.1 hk with rfl | hk'
      · rw [hresized.unfreed k hnodup.1, get?_reporting, if_pos rfl]
        rw [hblocks] at hblocks₂
        cases hblocks₂
        rfl
      · have hne : k ≠ kind := by
          rintro rfl
          exact hnodup.1 hk'
        rw [hresized.reports k hk' blocks₂ (by rw [Dict.get?_insert_of_ne _ _ hne]; exact hblocks₂), get?_reporting, if_neg hne,
          blocksForPages_congr hkind.untouched.ring]
    · intro k hk
      rw [List.mem_cons, not_or] at hk
      rw [hresized.unfreed k hk.2, get?_reporting, if_neg hk.1]

/-! ## Releasing -/

theorem untails_ok : ∀ {left : List (String × ℕ)} {b : BlockTables}, Conserves.Unwinding owner group left b →
    ∃ b', forM left (untail group) b = .ok ⟨⟩ b' ∧ b'.Conserves owner ∧ b'.tables = b.tables ∧ b'.pools = b.pools ∧
      b'.counts = b.counts ∧ b'.ring = b.ring
  | [], b, h => ⟨b, rfl, h.conserves, rfl, rfl, rfl, rfl⟩
  | p :: left, b, h => by
    obtain ⟨ring, hring, hnext⟩ := h.untail
    obtain ⟨b', hrest, hconserves, hkept⟩ := untails_ok hnext
    refine ⟨b', ?_, hconserves, hkept⟩
    have hrun : untail group p b = .ok ⟨⟩ { b with rings := b.rings.insert (group, p.1) (ring.add p.2 (-1)) } := by
      rw [untail, get_then]
      simp only [hring]
      rfl
    rw [List.forM_cons, ok_bind hrun]
    exact hrest

theorem release_ok (h : b.Conserves owner) (howner : owner request = some group) {table : Dict String (List ℕ)}
    (htable : b.tables.get? request = some table) (hempty : ∀ kind blocks, table.get? kind = some blocks → blocks = []) :
    ∃ b', release group request b = .ok ⟨⟩ b' ∧ b'.Conserves owner ∧ b'.tables = b.tables.erase request ∧
      b'.pools = b.pools ∧ b'.counts = b.counts ∧ b'.ring = b.ring := by
  obtain ⟨b', hrun, hconserves, hkept⟩ := untails_ok (h.forget howner htable hempty)
  refine ⟨b', ?_, hconserves, hkept⟩
  rw [release, get_then, set_then]
  exact hrun

/-! ## A whole call -/

/-- What a call that returns leaves. -/
structure Resized (owner : String → Option ℕ) (request : String) (pages previous : ℕ) (table : Dict String (List ℕ))
    (freed : Dict String ℕ) (b b' : BlockTables) : Prop where
  conserves : b'.Conserves owner
  counts : b'.counts = b.counts
  ring : b'.ring = b.ring
  keys : ∀ key ∈ b.pools.keys, key ∈ b'.pools.keys
  others : ∀ r, r ≠ request → b'.tables.get? r = b.tables.get? r
  released : pages = 0 → b'.tables.get? request = none
  resized : pages ≠ 0 → ∃ table', b'.tables.get? request = some table' ∧ ∀ kind blocks, table.get? kind = some blocks →
    ∃ blocks', table'.get? kind = some blocks' ∧ Sized (b.blocksForPages kind pages) blocks blocks'
  reports : ∀ kind, freed.get? kind = (table.get? kind).bind fun blocks => reported blocks (b.blocksForPages kind pages) previous

theorem blocksForPages_zero (b : BlockTables) (kind : String) : b.blocksForPages kind 0 = 0 := by
  unfold blocksForPages
  split <;> simp

theorem resizeTable_ok (previous : ℕ) (h : b.Conserves owner) (howner : owner request = some group) {table : Dict String (List ℕ)}
    (htable : b.tables.get? request = some table) (hfits : Fits group pages table table.keys b) :
    ∃ freed b', resizeTable group request pages previous b = .ok freed b' ∧
      Resized owner request pages previous table freed b b' := by
  obtain ⟨freed, b₁, table₁, hrun, hresized⟩ := resizeKinds_ok previous howner .empty h table.keys_nodup htable hfits
  have hreports : ∀ kind, freed.get? kind =
      (table.get? kind).bind fun blocks => reported blocks (b.blocksForPages kind pages) previous := by
    intro kind
    cases hblocks : table.get? kind with
    | none =>
      rw [hresized.unfreed kind (Dict.get?_eq_none.1 hblocks)]
      rfl
    | some blocks =>
      rw [hresized.reports kind (Dict.mem_keys_of_get? hblocks) blocks hblocks, Option.bind_some, Dict.get?_empty]
      cases reported blocks (b.blocksForPages kind pages) previous <;> rfl
  have hsized : ∀ kind blocks, table.get? kind = some blocks →
      ∃ blocks', table₁.get? kind = some blocks' ∧ Sized (b.blocksForPages kind pages) blocks blocks' :=
    fun kind blocks hblocks => hresized.sized kind (Dict.mem_keys_of_get? hblocks) blocks hblocks
  have hentry : (b.tables.get? request).getD .empty = table := by rw [htable]; rfl
  by_cases hpages : pages = 0
  · -- every kind's table is empty by now
    have hempty : ∀ kind blocks, table₁.get? kind = some blocks → blocks = [] := by
      intro kind blocks hblocks
      by_cases hkind : kind ∈ table.keys
      · obtain ⟨old, hold⟩ := Dict.mem_keys.1 hkind
        obtain ⟨blocks', hblocks', hcut⟩ := hsized kind old hold
        rw [hblocks] at hblocks'
        cases hblocks'
        rw [← List.length_eq_zero_iff, hcut.length, hpages, blocksForPages_zero]
      · rw [hresized.kept kind hkind] at hblocks
        exact absurd (Dict.mem_keys_of_get? hblocks) hkind
    obtain ⟨b₂, hrelease, hconserves, htables, hpools, hcounts, hring⟩ := release_ok hresized.conserves howner hresized.entry hempty
    refine ⟨freed, b₂, ?_, hconserves, hcounts.trans hresized.untouched.counts, hring.trans hresized.untouched.ring,
      fun key hkey => by rw [hpools]; exact hresized.keys key hkey, fun r hr => ?_, fun _ => ?_,
      fun hne => absurd hpages hne, hreports⟩
    · rw [resizeTable, get_then, hentry, ok_bind hrun, if_pos hpages, ok_bind hrelease]
      rfl
    · rw [htables, Dict.get?_erase_of_ne _ hr]
      exact hresized.others r hr
    · rw [htables, Dict.get?_erase_self]
  · refine ⟨freed, b₁, ?_, hresized.conserves, hresized.untouched.counts, hresized.untouched.ring, hresized.keys,
      hresized.others, fun heq => absurd heq hpages, fun _ => ⟨table₁, hresized.entry, hsized⟩, hreports⟩
    rw [resizeTable, get_then, hentry, ok_bind hrun, if_neg hpages]
    rfl

theorem fits_ok : ∀ {kinds : List String}, b.fits group request pages kinds = .ok true → ∀ kind ∈ kinds,
    ∃ free, b.pools.get? (group, kind) = some free ∧
      b.blocksForPages kind pages ≤ (b.blocksOf request kind).length + free.available
  | [], _ => by simp
  | kind :: kinds, h => by
    unfold fits at h
    split at h
    · cases h
    · next free hfree =>
      split at h
      · next hle =>
        intro k hk
        rcases List.mem_cons.1 hk with rfl | hk'
        · exact ⟨free, hfree, hle⟩
        · exact fits_ok h k hk'
      · cases h

theorem get?_emptyTable {kind : String} {blocks : List ℕ} (h : b.emptyTable.get? kind = some blocks) : blocks = [] := by
  rw [emptyTable, Dict.get?_mapValues, Option.map_eq_some_iff] at h
  obtain ⟨count, -, rfl⟩ := h
  rfl

/-- An accepted call: on a table it returns, and a first allocation returns unless the placing raises. -/
theorem resize_wp (h : b.Conserves owner) (hmine : b.tables.get? request = none ∨ owner request = some group)
    (haccepted : b.canResize group request pages = .ok true) :
    wp (resize group request pages previous)
      (fun freed b' => Resized (if pages = 0 then owner else Function.update owner request (some group)) request pages previous
        ((b.tables.get? request).getD b.emptyTable) freed b b')
      (fun _ b' => b.tables.get? request = none ∧ b'.Conserves (Function.update owner request (some group)) ∧
        Placing { b with tables := b.tables.insert request b.emptyTable } b') b := by
  have hfree := fits_ok haccepted
  unfold resize
  rw [wp_bind, wp_get]
  cases htable : b.tables.get? request with
  | some table =>
    have howner : owner request = some group := hmine.resolve_left (by rw [htable]; exact Option.some_ne_none _)
    have hsame : (if pages = 0 then owner else Function.update owner request (some group)) = owner := by
      rw [← howner, Function.update_eq_self, ite_self]
    have hfits : Fits group pages table table.keys b := by
      intro kind hkind
      obtain ⟨blocks, hblocks⟩ := Dict.mem_keys.1 hkind
      rw [h.kinds request table htable] at hkind
      obtain ⟨free, hpool, hle⟩ := hfree kind hkind
      rw [blocksOf_eq htable hblocks] at hle
      exact ⟨blocks, free, hblocks, hpool, hle⟩
    obtain ⟨freed, b', hrun, hresized⟩ := resizeTable_ok previous h howner htable hfits
    rw [hsame]
    change wp (resizeTable group request pages previous) _ _ b
    unfold wp
    rw [hrun]
    exact hresized
  | none =>
    by_cases hpages : pages = 0
    · simp only [hpages, if_true, wp_pure]
      refine ⟨h, rfl, rfl, fun _ => id, fun _ _ => rfl, fun _ => htable, fun hne => absurd rfl hne, fun kind => ?_⟩
      cases hkind : b.emptyTable.get? kind with
      | none => simp [hkind]
      | some blocks =>
        obtain rfl := get?_emptyTable hkind
        simp [hkind, reported]
    · simp only [hpages, if_false, wp_bind]
      refine wp_mono (create_wp h htable) (fun _ b₁ h₁ => ?_) fun _ b₁ h₁ => ⟨trivial, h₁⟩
      obtain ⟨hconserves, hplacing⟩ := h₁
      have hentry : b₁.tables.get? request = some b.emptyTable := by rw [hplacing.tables, Dict.get?_insert_self]
      have hfits : Fits group pages b.emptyTable b.emptyTable.keys b₁ := by
        intro kind hkind
        obtain ⟨blocks, hblocks⟩ := Dict.mem_keys.1 hkind
        have hnil := get?_emptyTable hblocks
        rw [emptyTable, Dict.keys_mapValues] at hkind
        obtain ⟨free, hpool, hle⟩ := hfree kind hkind
        have hmap := hplacing.pools (group, kind)
        change _ = (b.pools.get? (group, kind)).map _ at hmap
        rw [hpool, Option.map_some, Option.map_eq_some_iff] at hmap
        obtain ⟨free₁, hpool₁, havailable⟩ := hmap
        refine ⟨blocks, free₁, hblocks, hpool₁, ?_⟩
        rw [havailable, blocksForPages_congr hplacing.ring, hnil]
        have hnone : b.blocksOf request kind = [] := by simp [blocksOf, htable]
        rw [hnone] at hle
        exact hle
      obtain ⟨freed, b', hrun, hresized⟩ := resizeTable_ok previous hconserves (Function.update_self _ _ _)
        hentry hfits
      unfold wp
      rw [hrun]
      have htarget : ∀ kind, b₁.blocksForPages kind pages = b.blocksForPages kind pages :=
        fun kind => blocksForPages_congr hplacing.ring kind pages
      refine ⟨hresized.conserves, hresized.counts.trans hplacing.counts, hresized.ring.trans hplacing.ring,
        fun key hkey => hresized.keys key (hplacing.keys key hkey), fun r hr => ?_, hresized.released, fun hne => ?_, fun kind => ?_⟩
      · rw [hresized.others r hr, hplacing.tables, Dict.get?_insert_of_ne _ _ hr]
      · obtain ⟨table', htable', hsized⟩ := hresized.resized hne
        exact ⟨table', htable', fun kind blocks hblocks => htarget kind ▸ hsized kind blocks hblocks⟩
      · rw [hresized.reports kind, htarget]
        rfl

end BlockTables

end HeteroSim.KvBlocks
