/-
What every operation on the block tables keeps: a pool's free list and the
tables of its group hold each block once, and a ring counts the tails of the
requests placed on it. `owner` is the group a live request belongs to.
-/
import HeteroSim.KvBlocks.Tables

namespace HeteroSim.KvBlocks

namespace BlockTables

/-- A request's blocks in a pool. -/
def share (owner : String → Option ℕ) (key : ℕ × String) (p : String × Dict String (List ℕ)) : List ℕ :=
  if owner p.1 = some key.1 then (p.2.get? key.2).getD [] else []

/-- The blocks in the tables of a pool's group. -/
def inUse (owner : String → Option ℕ) (tables : Dict String (Dict String (List ℕ))) (key : ℕ × String) : List ℕ :=
  tables.items.flatMap (share owner key)

/-- Whether a request's tail stands at `position` of a pool's ring. -/
def tailed (owner : String → Option ℕ) (key : ℕ × String) (position : ℕ) (p : String × Dict String ℕ) : Bool :=
  owner p.1 = some key.1 ∧ p.2.get? key.2 = some position

/-- The live placed requests with their tail at `position`. -/
def tailsAt (owner : String → Option ℕ) (tails : Dict String (Dict String ℕ)) (key : ℕ × String) (position : ℕ) : ℕ :=
  tails.items.countP (tailed owner key position)

section Sums

variable {owner owner' : String → Option ℕ} {tables : Dict String (Dict String (List ℕ))} {tails : Dict String (Dict String ℕ)}
  {request : String} (key : ℕ × String)

theorem inUse_of_get? {table : Dict String (List ℕ)} (h : tables.get? request = some table) :
    (inUse owner tables key).Perm (share owner key (request, table) ++ inUse owner (tables.erase request) key) :=
  (Dict.items_perm h).flatMap_right _

theorem inUse_insert (table : Dict String (List ℕ)) : (inUse owner (tables.insert request table) key).Perm
    (share owner key (request, table) ++ inUse owner (tables.erase request) key) :=
  (Dict.items_insert_perm tables request table).flatMap_right _

theorem inUse_congr (h : ∀ r ∈ tables.keys, owner r = owner' r) : inUse owner tables key = inUse owner' tables key := by
  refine List.flatMap_congr fun p hp => ?_
  rw [share, share, h p.1 (Dict.mem_items_keys hp)]

variable (position : ℕ)

theorem tailsAt_of_get? {t : Dict String ℕ} (h : tails.get? request = some t) : tailsAt owner tails key position =
    tailsAt owner (tails.erase request) key position + if tailed owner key position (request, t) then 1 else 0 := by
  rw [tailsAt, (Dict.items_perm h).countP_eq, List.countP_cons]
  rfl

theorem tailsAt_insert (t : Dict String ℕ) : tailsAt owner (tails.insert request t) key position =
    tailsAt owner (tails.erase request) key position + if tailed owner key position (request, t) then 1 else 0 := by
  rw [tailsAt, (Dict.items_insert_perm tails request t).countP_eq, List.countP_cons]
  rfl

theorem tailsAt_congr (h : ∀ r ∈ tails.keys, owner r = owner' r) :
    tailsAt owner tails key position = tailsAt owner' tails key position := by
  refine List.countP_congr fun p hp => ?_
  rw [tailed, tailed, h p.1 (Dict.mem_items_keys hp)]

end Sums

structure Conserves (owner : String → Option ℕ) (b : BlockTables) : Prop where
  pools : ∀ key free, b.pools.get? key = some free → ∃ count, b.counts.get? key.2 = some count ∧
    (free.live ++ inUse owner b.tables key).Perm (List.range count)
  kinds : ∀ r table, b.tables.get? r = some table → table.keys = b.counts.keys
  owners : ∀ r ∈ b.tables.keys, ∃ group, owner r = some group
  rings : ∀ key ring (position : ℕ) (n : ℤ), b.rings.get? key = some ring → ring.tails[position]? = some n →
    n = tailsAt owner b.tails key position
  placed : ∀ r t kind (position : ℕ), b.tails.get? r = some t → t.get? kind = some position →
    ∃ group ring, owner r = some group ∧ b.rings.get? (group, kind) = some ring ∧ position < ring.tails.length
  tails : ∀ r ∈ b.tails.keys, r ∈ b.tables.keys

namespace Conserves

variable {owner : String → Option ℕ} {b : BlockTables}

/-- What nothing here looks at may change. -/
theorem congr (h : b.Conserves owner) {b' : BlockTables} (hcounts : b'.counts = b.counts) (hpools : b'.pools = b.pools)
    (htables : b'.tables = b.tables) (hrings : b'.rings = b.rings) (htails : b'.tails = b.tails) : b'.Conserves owner := by
  refine ⟨?_, ?_, ?_, ?_, ?_, ?_⟩
  · rw [hpools, hcounts, htables]; exact h.pools
  · rw [htables, hcounts]; exact h.kinds
  · rw [htables]; exact h.owners
  · rw [hrings, htails]; exact h.rings
  · rw [htails, hrings]; exact h.placed
  · rw [htails, htables]; exact h.tails

/-- Blocks move between a pool and a request's table of its kind. -/
theorem exchange (h : b.Conserves owner) {group : ℕ} {request kind : String} {table : Dict String (List ℕ)}
    {blocks blocks' : List ℕ} {free free' : FreeList ℕ} (howner : owner request = some group)
    (htable : b.tables.get? request = some table) (hblocks : table.get? kind = some blocks)
    (hfree : b.pools.get? (group, kind) = some free)
    (hperm : (free'.live ++ blocks').Perm (free.live ++ blocks)) :
    (b.exchange (group, kind) free' request blocks').Conserves owner := by
  have hinsert : (b.exchange (group, kind) free' request blocks').tables =
      b.tables.insert request (table.insert kind blocks') := by simp [BlockTables.exchange, htable]
  have hkeys : (table.insert kind blocks').keys = table.keys := Dict.keys_insert_of_mem (Dict.mem_keys_of_get? hblocks)
  have hmem : ∀ r, r ∈ (b.tables.insert request (table.insert kind blocks')).keys ↔ r ∈ b.tables.keys := by
    intro r
    rw [Dict.mem_keys_insert]
    exact ⟨fun hr => hr.elim (fun heq => heq ▸ Dict.mem_keys_of_get? htable) id, .inr⟩
  refine ⟨fun key free₁ hfree₁ => ?_, fun r t ht => ?_, fun r hr => h.owners r ?_, h.rings, h.placed, fun r hr => ?_⟩
  · rw [hinsert]
    change (b.pools.insert (group, kind) free').get? key = some free₁ at hfree₁
    rw [Dict.get?_insert] at hfree₁
    split at hfree₁
    · next hkey =>
      cases hfree₁
      subst hkey
      obtain ⟨count, hcount, hlive⟩ := h.pools _ free hfree
      refine ⟨count, hcount, List.Perm.trans ?_ hlive⟩
      have hold : (inUse owner b.tables (group, kind)).Perm _ := inUse_of_get? (group, kind) htable
      have hnew : (inUse owner (b.tables.insert request (table.insert kind blocks')) (group, kind)).Perm _ :=
        inUse_insert (group, kind) _
      rw [share, if_pos howner] at hold hnew
      simp only [hblocks, Dict.get?_insert_self, Option.getD_some] at hold hnew
      refine (hnew.append_left _).trans (List.Perm.trans ?_ (hold.symm.append_left _))
      rw [← List.append_assoc, ← List.append_assoc]
      exact hperm.append_right _
    · next hkey =>
      obtain ⟨count, hcount, hlive⟩ := h.pools key free₁ hfree₁
      refine ⟨count, hcount, List.Perm.trans (List.Perm.append_left _ ?_) hlive⟩
      refine (inUse_insert key _).trans (List.Perm.trans ?_ (inUse_of_get? key htable).symm)
      -- the request's share of any other pool is as before
      have hshare : share owner key (request, table.insert kind blocks') = share owner key (request, table) := by
        unfold share
        by_cases hgroup : owner request = some key.1
        · have hkind : key.2 ≠ kind := by
            rintro rfl
            rw [howner, Option.some.injEq] at hgroup
            exact hkey (by rw [hgroup])
          simp only [hgroup, if_true, Dict.get?_insert_of_ne table blocks' hkind]
        · simp only [hgroup, if_false]
      rw [hshare]
  · rw [hinsert, Dict.get?_insert] at ht
    split at ht
    · cases ht
      exact hkeys.trans (h.kinds request table htable)
    · exact h.kinds r t ht
  · rw [hinsert] at hr
    exact (hmem r).1 hr
  · rw [hinsert]
    exact (hmem r).2 (h.tails r hr)

/-- A pool's free blocks change places. -/
theorem reorder (h : b.Conserves owner) {key : ℕ × String} {free free' : FreeList ℕ} (hfree : b.pools.get? key = some free)
    (hperm : free'.live.Perm free.live) : ({ b with pools := b.pools.insert key free' } : BlockTables).Conserves owner := by
  refine ⟨fun key₁ free₁ hfree₁ => ?_, h.kinds, h.owners, h.rings, h.placed, h.tails⟩
  change (b.pools.insert key free').get? key₁ = some free₁ at hfree₁
  rw [Dict.get?_insert] at hfree₁
  split at hfree₁
  · next hkey =>
    cases hfree₁
    subst hkey
    obtain ⟨count, hcount, hlive⟩ := h.pools _ free hfree
    exact ⟨count, hcount, (hperm.append_right _).trans hlive⟩
  · exact h.pools key₁ free₁ hfree₁

theorem absent (h : b.Conserves owner) {request : String} (hnew : b.tables.get? request = none) : request ∉ b.tails.keys :=
  fun hr => Dict.get?_eq_none.1 hnew (h.tails request hr)

/-- A new request, without blocks. -/
theorem create (h : b.Conserves owner) {request : String} {group : ℕ} (hnew : b.tables.get? request = none) :
    ({ b with tables := b.tables.insert request (b.counts.mapValues fun _ => []) } : BlockTables).Conserves
      (Function.update owner request (some group)) := by
  have hne : ∀ r ∈ b.tables.keys, owner r = Function.update owner request (some group) r := by
    intro r hr
    rw [Function.update_of_ne]
    rintro rfl
    exact Dict.get?_eq_none.1 hnew hr
  refine ⟨fun key free hfree => ?_, fun r t ht => ?_, fun r hr => ?_, fun key ring position n hring hn => ?_,
    fun r t kind position ht hposition => ?_, fun r hr => Dict.mem_keys_insert.2 (.inr (h.tails r hr))⟩
  · obtain ⟨count, hcount, hlive⟩ := h.pools key free hfree
    refine ⟨count, hcount, List.Perm.trans (List.Perm.append_left _ ?_) hlive⟩
    refine (inUse_insert key _).trans ?_
    rw [Dict.erase_of_not_mem (Dict.get?_eq_none.1 hnew), ← inUse_congr key hne]
    have hshare : share (Function.update owner request (some group)) key (request, b.counts.mapValues fun _ => []) = [] := by
      unfold share
      split
      · rw [Dict.get?_mapValues]
        cases b.counts.get? key.2 <;> rfl
      · rfl
    rw [hshare, List.nil_append]
  · change (b.tables.insert request _).get? r = some t at ht
    rw [Dict.get?_insert] at ht
    split at ht
    · cases ht
      exact Dict.keys_mapValues _ _
    · exact h.kinds r t ht
  · rcases Dict.mem_keys_insert.1 hr with rfl | hr
    · exact ⟨group, Function.update_self _ _ _⟩
    · rw [← hne r hr]
      exact h.owners r hr
  · rw [← tailsAt_congr key position fun r hr => hne r (h.tails r hr)]
    exact h.rings key ring position n hring hn
  · obtain ⟨g, ring, howner, hring⟩ := h.placed r t kind position ht hposition
    exact ⟨g, ring, by rw [← hne r (h.tails r (Dict.mem_keys_of_get? ht))]; exact howner, hring⟩

/-- A request is to be placed: it has no tail yet. -/
theorem untailed (h : b.Conserves owner) {request : String} (hin : request ∈ b.tables.keys)
    (hnone : b.tails.get? request = none) :
    ({ b with tails := b.tails.insert request .empty } : BlockTables).Conserves owner := by
  refine ⟨h.pools, h.kinds, h.owners, fun key ring position n hring hn => ?_, fun r t kind position ht hposition => ?_,
    fun r hr => ?_⟩
  · have hcount : tailsAt owner (b.tails.insert request .empty) key position = tailsAt owner b.tails key position := by
      rw [tailsAt_insert, Dict.erase_of_not_mem (Dict.get?_eq_none.1 hnone)]
      simp [tailed]
    rw [hcount]
    exact h.rings key ring position n hring hn
  · change (b.tails.insert request .empty).get? r = some t at ht
    rw [Dict.get?_insert] at ht
    split at ht
    · cases ht
      cases hposition
    · exact h.placed r t kind position ht hposition
  · rcases Dict.mem_keys_insert.1 hr with rfl | hr
    · exact hin
    · exact h.tails r hr

/-- A tail is noted, and counted on its ring. -/
theorem tail (h : b.Conserves owner) {group position : ℕ} {request kind : String} {t : Dict String ℕ} {ring : KVTailRing}
    (howner : owner request = some group) (ht : b.tails.get? request = some t) (hkind : t.get? kind = none)
    (hring : b.rings.get? (group, kind) = some ring) (hlt : position < ring.tails.length) :
    ({ b with rings := b.rings.insert (group, kind) (ring.add position 1),
              tails := b.tails.insert request (t.insert kind position) } : BlockTables).Conserves owner := by
  have hin := h.tails request (Dict.mem_keys_of_get? ht)
  have hadd : (ring.add position 1).tails.length = ring.tails.length := by
    rw [(ring.add position 1).tails_length, ring.tails_length]
    rfl
  refine ⟨h.pools, h.kinds, h.owners, fun key ring₁ p n hring₁ hn => ?_, fun r t₁ kind₁ p ht₁ hp => ?_, fun r hr => ?_⟩
  · have hold : tailsAt owner b.tails key p = _ := tailsAt_of_get? key p ht
    have hnew : tailsAt owner (b.tails.insert request (t.insert kind position)) key p = _ := tailsAt_insert key p _
    change (b.rings.insert (group, kind) (ring.add position 1)).get? key = some ring₁ at hring₁
    rw [Dict.get?_insert] at hring₁
    split at hring₁
    · next hkey =>
      cases hring₁
      subst hkey
      rw [KVTailRing.add_tails, Option.map_eq_some_iff] at hn
      obtain ⟨m, hm, rfl⟩ := hn
      have hcount := h.rings _ ring p m hring hm
      have hnone : tailed owner (group, kind) p (request, t) = false := by simp [tailed, hkind]
      have hsome : tailed owner (group, kind) p (request, t.insert kind position) = decide (p = position) := by
        simp [tailed, howner, eq_comm]
      rw [hnone] at hold
      rw [hsome] at hnew
      rw [hnew]
      by_cases hp : p = position
      · simp only [hp, decide_true, if_true] at hcount ⊢
        rw [hcount, ← hp, hold]
        simp
      · simp only [hp, decide_false, if_false]
        rw [hcount, hold]
    · next hkey =>
      have hsame : tailed owner key p (request, t.insert kind position) = tailed owner key p (request, t) := by
        unfold tailed
        by_cases hgroup : owner request = some key.1
        · have hkind' : key.2 ≠ kind := by
            rintro rfl
            rw [howner, Option.some.injEq] at hgroup
            exact hkey (by rw [hgroup])
          simp only [hgroup, Dict.get?_insert_of_ne t position hkind']
        · simp only [hgroup, false_and]
      rw [hnew, hsame, ← hold]
      exact h.rings key ring₁ p n hring₁ hn
  · change (b.tails.insert request _).get? r = some t₁ at ht₁
    have hrings : ∀ g k ring₂, b.rings.get? (g, k) = some ring₂ → p < ring₂.tails.length →
        ∃ ring₃, (b.rings.insert (group, kind) (ring.add position 1)).get? (g, k) = some ring₃ ∧ p < ring₃.tails.length := by
      intro g k ring₂ hring₂ hp₂
      rw [Dict.get?_insert]
      split
      · next heq =>
        rw [heq, hring] at hring₂
        cases hring₂
        exact ⟨_, rfl, by rw [hadd]; exact hp₂⟩
      · exact ⟨ring₂, hring₂, hp₂⟩
    rw [Dict.get?_insert] at ht₁
    split at ht₁
    · next heq =>
      subst heq
      cases ht₁
      rw [Dict.get?_insert] at hp
      split at hp
      · next hk =>
        cases hp
        subst hk
        exact ⟨group, _, howner, Dict.get?_insert_self _ _ _, by rw [hadd]; exact hlt⟩
      · obtain ⟨g, ring₂, hg, hring₂, hp₂⟩ := h.placed r t kind₁ p ht hp
        obtain ⟨ring₃, hring₃, hp₃⟩ := hrings g kind₁ ring₂ hring₂ hp₂
        exact ⟨g, ring₃, hg, hring₃, hp₃⟩
    · obtain ⟨g, ring₂, hg, hring₂, hp₂⟩ := h.placed r t₁ kind₁ p ht₁ hp
      obtain ⟨ring₃, hring₃, hp₃⟩ := hrings g kind₁ ring₂ hring₂ hp₂
      exact ⟨g, ring₃, hg, hring₃, hp₃⟩
  · rcases Dict.mem_keys_insert.1 hr with rfl | hr
    · exact hin
    · exact h.tails r hr

/-! ## Release -/

/-- A release under way: the ring still counts the tails left to take off. -/
structure Unwinding (owner : String → Option ℕ) (group : ℕ) (left : List (String × ℕ)) (b : BlockTables) : Prop where
  pools : ∀ key free, b.pools.get? key = some free → ∃ count, b.counts.get? key.2 = some count ∧
    (free.live ++ inUse owner b.tables key).Perm (List.range count)
  kinds : ∀ r table, b.tables.get? r = some table → table.keys = b.counts.keys
  owners : ∀ r ∈ b.tables.keys, ∃ group, owner r = some group
  rings : ∀ key ring (position : ℕ) (n : ℤ), b.rings.get? key = some ring → ring.tails[position]? = some n →
    n = tailsAt owner b.tails key position + if key.1 = group then (left.count (key.2, position) : ℤ) else 0
  placed : ∀ r t kind (position : ℕ), b.tails.get? r = some t → t.get? kind = some position →
    ∃ group ring, owner r = some group ∧ b.rings.get? (group, kind) = some ring ∧ position < ring.tails.length
  tails : ∀ r ∈ b.tails.keys, r ∈ b.tables.keys
  left : ∀ p ∈ left, ∃ ring, b.rings.get? (group, p.1) = some ring

theorem Unwinding.conserves {group : ℕ} (h : Unwinding owner group [] b) : b.Conserves owner :=
  ⟨h.pools, h.kinds, h.owners, fun key ring position n hring hn => by simpa using h.rings key ring position n hring hn,
    h.placed, h.tails⟩

theorem count_tail_items (t : Dict String ℕ) (kind : String) (position : ℕ) :
    t.items.count (kind, position) = if t.get? kind = some position then 1 else 0 := by
  have hnodup : t.items.Nodup := t.nodup.of_map
  rw [hnodup.count]
  simp only [Dict.get?_eq_some]

/-- A request without blocks goes, with its tails still to take off. -/
theorem forget (h : b.Conserves owner) {group : ℕ} {request : String} {table : Dict String (List ℕ)}
    (howner : owner request = some group) (htable : b.tables.get? request = some table)
    (hempty : ∀ kind blocks, table.get? kind = some blocks → blocks = []) :
    Unwinding owner group ((b.tails.get? request).getD .empty).items
      { b with tables := b.tables.erase request, tails := b.tails.erase request } := by
  have hshare : ∀ key, share owner key (request, table) = [] := by
    intro key
    unfold share
    split
    · cases hblocks : table.get? key.2 with
      | none => rfl
      | some blocks => exact hempty _ _ hblocks
    · rfl
  refine ⟨fun key free hfree => ?_, fun r t ht => ?_, fun r hr => h.owners r (Dict.mem_keys_erase.1 hr).1,
    fun key ring position n hring hn => ?_, fun r t kind position ht hposition => ?_, fun r hr => ?_, fun p hp => ?_⟩
  · obtain ⟨count, hcount, hlive⟩ := h.pools key free hfree
    refine ⟨count, hcount, List.Perm.trans (List.Perm.append_left _ ?_) hlive⟩
    have hsplit : (inUse owner b.tables key).Perm _ := inUse_of_get? key htable
    rw [hshare, List.nil_append] at hsplit
    exact hsplit.symm
  · change (b.tables.erase request).get? r = some t at ht
    rw [Dict.get?_erase] at ht
    split at ht
    · cases ht
    · exact h.kinds r t ht
  · rw [h.rings key ring position n hring hn]
    change (tailsAt owner b.tails key position : ℤ) = tailsAt owner (b.tails.erase request) key position + _
    cases ht : b.tails.get? request with
    | none =>
      rw [Dict.erase_of_not_mem (Dict.get?_eq_none.1 ht)]
      simp
    | some t =>
      rw [tailsAt_of_get? key position ht, Option.getD_some, count_tail_items]
      simp only [tailed, howner, Option.some.injEq, decide_eq_true_eq]
      by_cases hgroup : group = key.1
      · subst hgroup
        simp
      · simp [hgroup, Ne.symm hgroup]
  · change (b.tails.erase request).get? r = some t at ht
    rw [Dict.get?_erase] at ht
    split at ht
    · cases ht
    · exact h.placed r t kind position ht hposition
  · obtain ⟨hr, hne⟩ := Dict.mem_keys_erase.1 hr
    exact Dict.mem_keys_erase.2 ⟨h.tails r hr, hne⟩
  · cases ht : b.tails.get? request with
    | none =>
      rw [ht] at hp
      cases hp
    | some t =>
      rw [ht] at hp
      obtain ⟨g, ring, hg, hring, -⟩ := h.placed request t p.1 p.2 ht (Dict.get?_eq_some.2 hp)
      rw [howner, Option.some.injEq] at hg
      subst hg
      exact ⟨ring, hring⟩

/-- One tail is taken off. -/
theorem Unwinding.untail {group : ℕ} {p : String × ℕ} {left : List (String × ℕ)} (h : Unwinding owner group (p :: left) b) :
    ∃ ring, b.rings.get? (group, p.1) = some ring ∧
      Unwinding owner group left { b with rings := b.rings.insert (group, p.1) (ring.add p.2 (-1)) } := by
  obtain ⟨ring, hring⟩ := h.left p List.mem_cons_self
  have hkeys : ∀ g k ring₂ (q : ℕ), b.rings.get? (g, k) = some ring₂ → ∃ ring₃,
      (b.rings.insert (group, p.1) (ring.add p.2 (-1))).get? (g, k) = some ring₃ ∧
        (q < ring₂.tails.length → q < ring₃.tails.length) := by
    intro g k ring₂ q hring₂
    rw [Dict.get?_insert]
    split
    · next heq =>
      rw [heq, hring] at hring₂
      cases hring₂
      refine ⟨_, rfl, fun hq => ?_⟩
      rw [(ring.add p.2 (-1)).tails_length]
      rw [ring.tails_length] at hq
      exact hq
    · exact ⟨ring₂, hring₂, id⟩
  refine ⟨ring, hring, h.pools, h.kinds, h.owners, fun key ring₁ position n hring₁ hn => ?_,
    fun r t kind position ht hposition => ?_, h.tails, fun q hq => ?_⟩
  · change (b.rings.insert (group, p.1) (ring.add p.2 (-1))).get? key = some ring₁ at hring₁
    rw [Dict.get?_insert] at hring₁
    split at hring₁
    · next hkey =>
      cases hring₁
      subst hkey
      rw [KVTailRing.add_tails, Option.map_eq_some_iff] at hn
      obtain ⟨m, hm, rfl⟩ := hn
      have hcount := h.rings _ ring position m hring hm
      simp only [if_true, List.count_cons] at hcount ⊢
      by_cases hposition : position = p.2
      · subst hposition
        simp only [Prod.mk.eta, BEq.rfl, if_true] at hcount ⊢
        rw [hcount]
        push_cast
        ring
      · have hne : (p == (p.1, position)) = false := by
          rw [beq_eq_false_iff_ne]
          intro heq
          exact hposition (congrArg Prod.snd heq).symm
        simp only [hne, hposition, if_false] at hcount ⊢
        simpa using hcount
    · next hkey =>
      have hcount := h.rings key ring₁ position n hring₁ hn
      rw [List.count_cons] at hcount
      by_cases hgroup : key.1 = group
      · have hne : (p == (key.2, position)) = false := by
          rw [beq_eq_false_iff_ne]
          rintro rfl
          exact hkey (by rw [← hgroup])
        simpa [hgroup, hne] using hcount
      · simpa [hgroup] using hcount
  · obtain ⟨g, ring₂, hg, hring₂, hlt⟩ := h.placed r t kind position ht hposition
    obtain ⟨ring₃, hring₃, hlt₃⟩ := hkeys g kind ring₂ position hring₂
    exact ⟨g, ring₃, hg, hring₃, hlt₃ hlt⟩
  · obtain ⟨ring₂, hring₂⟩ := h.left q (List.mem_cons_of_mem _ hq)
    obtain ⟨ring₃, hring₃, -⟩ := hkeys group q.1 ring₂ 0 hring₂
    exact ⟨ring₃, hring₃⟩

end Conserves

end BlockTables

end HeteroSim.KvBlocks
