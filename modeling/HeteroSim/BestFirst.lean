/-
Best-first search with keys that grow along every hop. Among the walks to a
node the search answers one without a repeated node and with the least key of
all such walks. Keys need not be numbers: it is enough that a hop keeps the
order of two walks to the same node, the later of which repeats no node.
-/
import Mathlib

namespace HeteroSim.BestFirst

/-- A graph as a search sees it: the hops out of a node, where each leads, and
the key of a walk that goes on by it. -/
structure Graph (ν ε K : Type) where
  out : ν → List ε
  head : ε → ν
  extend : K → ε → K

variable {ν ε K : Type} (g : Graph ν ε K) (first : K) (source : ν)

/-- The hops lead from the source to the node. -/
inductive Walk : List ε → ν → Prop
  | nil : Walk [] source
  | snoc {p : List ε} {u : ν} {hop : ε} : Walk p u → hop ∈ g.out u → Walk (p ++ [hop]) (g.head hop)

/-- The nodes of a walk, the source among them. -/
def nodes (p : List ε) : List ν := source :: p.map g.head

def key (p : List ε) : K := p.foldl g.extend first

variable {g first source} {p q : List ε} {u v : ν} {hop : ε}

theorem nodes_snoc : nodes g source (p ++ [hop]) = nodes g source p ++ [g.head hop] := by
  simp [nodes]

theorem key_snoc : key g first (p ++ [hop]) = g.extend (key g first p) hop := by
  rw [key, List.foldl_append]
  rfl

theorem walk_nil : Walk g source [] v ↔ source = v := by
  constructor
  · intro h
    generalize hp : ([] : List ε) = p at h
    cases h with
    | nil => rfl
    | snoc _ _ => exact absurd hp.symm (List.append_ne_nil_of_right_ne_nil _ (List.cons_ne_nil _ _))
  · rintro rfl
    exact .nil

theorem walk_snoc : Walk g source (p ++ [hop]) v ↔ ∃ u, Walk g source p u ∧ hop ∈ g.out u ∧ g.head hop = v := by
  constructor
  · intro h
    generalize hq : p ++ [hop] = q at h
    cases h with
    | nil => exact absurd hq (List.append_ne_nil_of_right_ne_nil _ (List.cons_ne_nil _ _))
    | @snoc p' u hop' hwalk hhop =>
      obtain ⟨rfl, hsame⟩ := List.append_inj' hq rfl
      obtain rfl := List.singleton_inj.1 hsame
      exact ⟨u, hwalk, hhop, rfl⟩
  · rintro ⟨u, hwalk, hhop, rfl⟩
    exact .snoc hwalk hhop

theorem Walk.mem_nodes (h : Walk g source p v) : v ∈ nodes g source p := by
  cases h with
  | nil => exact List.mem_cons_self
  | snoc _ _ =>
    rw [nodes_snoc]
    exact List.mem_append_right _ List.mem_cons_self

variable [LinearOrder K]

variable (g first source) in
/-- The keys grow along hops, and hops keep their order. -/
structure Ordered : Prop where
  grows : ∀ u, ∀ hop ∈ g.out u, ∀ k, k < g.extend k hop
  keeps : ∀ p q u, Walk g source p u → Walk g source q u → (nodes g source q).Nodup → ∀ hop ∈ g.out u,
    key g first p ≤ key g first q → g.extend (key g first p) hop ≤ g.extend (key g first q) hop

/-- A walk that waits to be looked at. -/
structure Entry (ν ε K : Type) where
  key : K
  node : ν
  path : List ε

variable (g first source) in
/-- The walk of an entry repeats no node, and its nodes before the last are
settled. -/
structure Leads (settled : Finset ν) (e : Entry ν ε K) : Prop where
  walk : Walk g source e.path e.node
  key_eq : e.key = key g first e.path
  simple : (nodes g source e.path).Nodup
  through : ∀ x ∈ nodes g source e.path, x = e.node ∨ x ∈ settled

variable (g first source) in
/-- A search: the settled nodes have their least keys, no later than `now`; the
others wait under the best keys known. The hops in `pending` have not been
looked at. -/
structure Searching (now : K) (settled : Finset ν) (pending : ν → ε → Prop) (best : ν → Option K)
    (queue : List (Entry ν ε K)) : Prop where
  start : best source = some first
  leads : ∀ e ∈ queue, Leads g first source settled e
  bounded : ∀ e ∈ queue, ∃ b, best e.node = some b ∧ b ≤ e.key
  queued : ∀ v b, best v = some b → v ∉ settled → ∃ e ∈ queue, e.node = v ∧ e.key = b
  least : ∀ v ∈ settled, ∃ p, Walk g source p v ∧ best v = some (key g first p) ∧
    ∀ q, Walk g source q v → (nodes g source q).Nodup → key g first p ≤ key g first q
  covered : ∀ u ∈ settled, ∀ hop ∈ g.out u, ¬pending u hop →
    ∃ a b, best u = some a ∧ best (g.head hop) = some b ∧ b ≤ g.extend a hop
  past : ∀ v ∈ settled, ∀ a, best v = some a → a ≤ now
  future : ∀ e ∈ queue, now ≤ e.key
  once : ∀ e ∈ queue, e.node ∈ settled → best e.node ≠ some e.key
  distinct : queue.Pairwise fun a b => a.node = b.node → a.key ≠ b.key

variable [DecidableEq ν] {now : K} {settled : Finset ν} {pending : ν → ε → Prop} {best : ν → Option K}
  {queue : List (Entry ν ε K)} {e : Entry ν ε K}

theorem searching_start : Searching g first source first ∅ (fun _ _ => False)
    (Function.update (fun _ => none) source (some first)) [⟨first, source, []⟩] := by
  have hself : Function.update (fun _ => none) source (some first) source = some first := Function.update_self ..
  refine ⟨hself, fun e he => ?_, fun e he => ?_, fun v b hb _ => ?_, fun v hv => absurd hv (Finset.notMem_empty v),
    fun u hu => absurd hu (Finset.notMem_empty u), fun v hv => absurd hv (Finset.notMem_empty v), fun e he => ?_,
    fun e _ he => absurd he (Finset.notMem_empty _), List.pairwise_singleton _ _⟩
  · rw [List.mem_singleton.1 he]
    exact ⟨.nil, rfl, List.nodup_singleton _, fun x hx => .inl (List.mem_singleton.1 hx)⟩
  · rw [List.mem_singleton.1 he]
    exact ⟨first, hself, le_rfl⟩
  · by_cases hv : v = source
    · subst hv
      exact ⟨_, List.mem_cons_self, rfl, Option.some.inj (hself.symm.trans hb)⟩
    · rw [Function.update_of_ne hv] at hb
      cases hb
  · rw [List.mem_singleton.1 he]

/-! ## What is known of every walk -/

/-- A walk ends at a settled node, or an entry is no later than it. -/
theorem Searching.reach (h : Searching g first source now settled pending best queue) (ho : Ordered g first source)
    (hnone : ∀ u hop, ¬pending u hop) (hq : Walk g source q v) (hs : (nodes g source q).Nodup) :
    (v ∈ settled ∧ ∃ a, best v = some a ∧ a ≤ key g first q) ∨ ∃ e ∈ queue, e.key ≤ key g first q := by
  induction hq with
  | nil =>
    by_cases hsettled : source ∈ settled
    · exact .inl ⟨hsettled, first, h.start, le_rfl⟩
    · obtain ⟨e, he, -, hkey⟩ := h.queued source first h.start hsettled
      exact .inr ⟨e, he, hkey.le⟩
  | @snoc p u hop hp hhop ih =>
    rw [nodes_snoc] at hs
    have hsimple : (nodes g source p).Nodup := hs.of_append_left
    rw [key_snoc]
    rcases ih hsimple with ⟨hu, a, ha, hle⟩ | ⟨e, he, hle⟩
    · obtain ⟨r, hr, hbest, -⟩ := h.least u hu
      obtain ⟨a', b, ha', hb, hcovered⟩ := h.covered u hu hop hhop (hnone u hop)
      obtain rfl : a' = key g first r := Option.some.inj (ha'.symm.trans hbest)
      obtain rfl : a = key g first r := Option.some.inj (ha.symm.trans hbest)
      have hstep : b ≤ g.extend (key g first p) hop := hcovered.trans (ho.keeps r p u hr hp hsimple hop hhop hle)
      by_cases hsettled : g.head hop ∈ settled
      · exact .inl ⟨hsettled, b, hb, hstep⟩
      · obtain ⟨e, he, -, hkey⟩ := h.queued _ b hb hsettled
        exact .inr ⟨e, he, hkey.le.trans hstep⟩
    · exact .inr ⟨e, he, hle.trans (ho.grows u hop hhop _).le⟩

/-- **The first entry, if it is not stale, is the least walk to its node.** -/
theorem Searching.first_least (h : Searching g first source now settled pending best (e :: queue)) (ho : Ordered g first source)
    (hnone : ∀ u hop, ¬pending u hop) (hmin : ∀ e' ∈ queue, e.key ≤ e'.key) (hbest : best e.node = some e.key)
    (hq : Walk g source q e.node) (hs : (nodes g source q).Nodup) : e.key ≤ key g first q := by
  rcases h.reach ho hnone hq hs with ⟨hsettled, -⟩ | ⟨e', he', hle⟩
  · exact absurd hbest (h.once e List.mem_cons_self hsettled)
  · rcases List.mem_cons.1 he' with rfl | he'
    · exact hle
    · exact (hmin e' he').trans hle

/-- **When nothing waits, what is not settled is not reached.** -/
theorem Searching.unreached (h : Searching g first source now settled pending best []) (ho : Ordered g first source)
    (hnone : ∀ u hop, ¬pending u hop) (hq : Walk g source q v) (hs : (nodes g source q).Nodup) : v ∈ settled := by
  rcases h.reach ho hnone hq hs with ⟨hsettled, -⟩ | ⟨e, he, -⟩
  · exact hsettled
  · cases he

/-! ## Steps -/

omit [DecidableEq ν] in
/-- A stale entry goes. -/
theorem Searching.stale (h : Searching g first source now settled pending best (e :: queue)) (hbest : best e.node ≠ some e.key) :
    Searching g first source now settled pending best queue := by
  have hmem : ∀ {x}, x ∈ queue → x ∈ e :: queue := fun hx => List.mem_cons_of_mem _ hx
  refine { h with
    leads := fun x hx => h.leads x (hmem hx)
    bounded := fun x hx => h.bounded x (hmem hx)
    queued := fun v b hb hv => ?_
    future := fun x hx => h.future x (hmem hx)
    once := fun x hx => h.once x (hmem hx)
    distinct := h.distinct.of_cons }
  obtain ⟨x, hx, rfl, rfl⟩ := h.queued v b hb hv
  rcases List.mem_cons.1 hx with rfl | hx
  · exact absurd hb hbest
  · exact ⟨x, hx, rfl, rfl⟩

/-- **The first entry settles its node**, and its hops are to be looked at. -/
theorem Searching.settle (h : Searching g first source now settled pending best (e :: queue)) (ho : Ordered g first source)
    (hnone : ∀ u hop, ¬pending u hop) (hmin : ∀ e' ∈ queue, e.key ≤ e'.key) (hbest : best e.node = some e.key) :
    Searching g first source e.key (insert e.node settled) (fun u hop => u = e.node ∧ hop ∈ g.out e.node) best queue := by
  have hmem : ∀ {x}, x ∈ queue → x ∈ e :: queue := fun hx => List.mem_cons_of_mem _ hx
  have hlead := h.leads e List.mem_cons_self
  refine ⟨h.start, fun x hx => ?_, fun x hx => h.bounded x (hmem hx), fun v b hb hv => ?_, fun v hv => ?_,
    fun u hu hop hhop hdone => ?_, fun v hv a ha => ?_, hmin, fun x hx hxs => ?_, h.distinct.of_cons⟩
  · obtain ⟨hwalk, hkey, hsimple, hthrough⟩ := h.leads x (hmem hx)
    exact ⟨hwalk, hkey, hsimple, fun y hy => (hthrough y hy).imp_right (Finset.mem_insert_of_mem ·)⟩
  · rw [Finset.mem_insert, not_or] at hv
    obtain ⟨x, hx, rfl, rfl⟩ := h.queued v b hb hv.2
    rcases List.mem_cons.1 hx with rfl | hx
    · exact absurd rfl hv.1
    · exact ⟨x, hx, rfl, rfl⟩
  · rcases Finset.mem_insert.1 hv with rfl | hv
    · exact ⟨e.path, hlead.walk, hlead.key_eq ▸ hbest, fun q hq hs =>
        hlead.key_eq ▸ h.first_least ho hnone hmin hbest hq hs⟩
    · exact h.least v hv
  · rcases Finset.mem_insert.1 hu with rfl | hu
    · exact absurd ⟨rfl, hhop⟩ hdone
    · exact h.covered u hu hop hhop (hnone u hop)
  · rcases Finset.mem_insert.1 hv with rfl | hv
    · exact (Option.some.inj (ha.symm.trans hbest)).le
    · exact (h.past v hv a ha).trans (h.future e List.mem_cons_self)
  · rcases Finset.mem_insert.1 hxs with hsame | hxs
    · -- two entries of one node have different keys
      intro hx'
      rw [hsame, hbest] at hx'
      exact (List.pairwise_cons.1 h.distinct).1 x hx hsame.symm (Option.some.inj hx')
    · exact h.once x (hmem hx) hxs

/-- A walk whose nodes are settled, its last one at `now`. -/
structure Current (g : Graph ν ε K) (first : K) (source : ν) (now : K) (settled : Finset ν) (best : ν → Option K)
    (v : ν) (p : List ε) : Prop where
  walk : Walk g source p v
  key_eq : key g first p = now
  simple : (nodes g source p).Nodup
  settled : ∀ x ∈ nodes g source p, x ∈ settled
  best : best v = some now

theorem Searching.current (h : Searching g first source now settled pending best (e :: queue)) (hbest : best e.node = some e.key) :
    Current g first source e.key (insert e.node settled) best e.node e.path := by
  obtain ⟨hwalk, hkey, hsimple, hthrough⟩ := h.leads e List.mem_cons_self
  refine ⟨hwalk, hkey.symm, hsimple, fun x hx => ?_, hbest⟩
  rcases hthrough x hx with rfl | hx
  · exact Finset.mem_insert_self _ _
  · exact Finset.mem_insert_of_mem hx

/-- A hop to a node with a key that is as good changes nothing. -/
theorem Searching.keep {todo : List ε}
    (h : Searching g first source now settled (fun u x => u = v ∧ x ∈ hop :: todo) best queue) (hbest : best v = some now) {b : K}
    (hb : best (g.head hop) = some b) (hle : b ≤ g.extend now hop) :
    Searching g first source now settled (fun u x => u = v ∧ x ∈ todo) best queue := by
  refine { h with covered := fun u hu x hx hdone => ?_ }
  by_cases hthis : u = v ∧ x = hop
  · obtain ⟨rfl, rfl⟩ := hthis
    exact ⟨now, b, hbest, hb, hle⟩
  · refine h.covered u hu x hx fun ⟨huv, hmem⟩ => ?_
    rcases List.mem_cons.1 hmem with rfl | hmem
    · exact hthis ⟨huv, rfl⟩
    · exact hdone ⟨huv, hmem⟩

/-- **A better key replaces the known one**, and the walk waits. -/
theorem Searching.push {todo : List ε} {queue' : List (Entry ν ε K)}
    (h : Searching g first source now settled (fun u x => u = v ∧ x ∈ hop :: todo) best queue) (ho : Ordered g first source)
    (hc : Current g first source now settled best v p) (hhop : hop ∈ g.out v)
    (hbetter : ∀ b, best (g.head hop) = some b → g.extend now hop < b)
    (hpush : queue'.Perm (⟨g.extend now hop, g.head hop, p ++ [hop]⟩ :: queue)) :
    g.head hop ∉ settled ∧
    Searching g first source now settled (fun u x => u = v ∧ x ∈ todo)
      (Function.update best (g.head hop) (some (g.extend now hop))) queue' := by
  have hgrows : now < g.extend now hop := ho.grows v hop hhop now
  -- what is settled has a key up to now, so it is not improved
  have hfree : g.head hop ∉ settled := by
    intro hin
    obtain ⟨r, -, hr, -⟩ := h.least _ hin
    exact absurd (hbetter _ hr) (not_lt.2 ((h.past _ hin _ hr).trans hgrows.le))
  have hother : ∀ {u}, u ∈ settled → u ≠ g.head hop := fun hu he => hfree (he ▸ hu)
  have hmem : ∀ {x}, x ∈ queue' ↔ x = ⟨g.extend now hop, g.head hop, p ++ [hop]⟩ ∨ x ∈ queue := by
    intro x
    rw [hpush.mem_iff, List.mem_cons]
  have hsource : source ∈ settled := hc.settled source List.mem_cons_self
  refine ⟨hfree, ⟨?_, fun x hx => ?_, fun x hx => ?_, fun u b hb hu => ?_, fun u hu => ?_, fun u hu x hx hdone => ?_,
    fun u hu a ha => ?_, fun x hx => ?_, fun x hx hxs => ?_, ?_⟩⟩
  · rw [Function.update_of_ne (hother hsource)]
    exact h.start
  · rcases hmem.1 hx with rfl | hx
    · refine ⟨.snoc hc.walk hhop, by rw [key_snoc, hc.key_eq], ?_, fun y hy => ?_⟩
      · rw [nodes_snoc, List.nodup_append]
        refine ⟨hc.simple, List.nodup_singleton _, fun y hy z hz => ?_⟩
        rw [List.mem_singleton.1 hz]
        exact hother (hc.settled y hy)
      · rw [nodes_snoc] at hy
        rcases List.mem_append.1 hy with hy | hy
        · exact .inr (hc.settled y hy)
        · exact .inl (List.mem_singleton.1 hy)
    · exact h.leads x hx
  · rcases hmem.1 hx with rfl | hx
    · exact ⟨_, Function.update_self .., le_rfl⟩
    · obtain ⟨b, hb, hle⟩ := h.bounded x hx
      by_cases hnode : x.node = g.head hop
      · rw [hnode] at hb ⊢
        exact ⟨_, Function.update_self .., (hbetter b hb).le.trans hle⟩
      · rw [Function.update_of_ne hnode]
        exact ⟨b, hb, hle⟩
  · by_cases hnode : u = g.head hop
    · subst hnode
      rw [Function.update_self] at hb
      exact ⟨_, hmem.2 (.inl rfl), rfl, Option.some.inj hb⟩
    · rw [Function.update_of_ne hnode] at hb
      obtain ⟨x, hx, hxu, hxb⟩ := h.queued u b hb hu
      exact ⟨x, hmem.2 (.inr hx), hxu, hxb⟩
  · rw [Function.update_of_ne (hother hu)]
    exact h.least u hu
  · rw [Function.update_of_ne (hother hu)]
    by_cases hthis : u = v ∧ x = hop
    · obtain ⟨rfl, rfl⟩ := hthis
      exact ⟨now, _, hc.best, Function.update_self .., le_rfl⟩
    · obtain ⟨a, b, ha, hb, hle⟩ := h.covered u hu x hx fun ⟨huv, hin⟩ => by
        rcases List.mem_cons.1 hin with rfl | hin
        · exact hthis ⟨huv, rfl⟩
        · exact hdone ⟨huv, hin⟩
      by_cases hnode : g.head x = g.head hop
      · rw [hnode] at hb ⊢
        exact ⟨a, _, ha, Function.update_self .., (hbetter b hb).le.trans hle⟩
      · rw [Function.update_of_ne hnode]
        exact ⟨a, b, ha, hb, hle⟩
  · rw [Function.update_of_ne (hother hu)] at ha
    exact h.past u hu a ha
  · rcases hmem.1 hx with rfl | hx
    · exact hgrows.le
    · exact h.future x hx
  · rcases hmem.1 hx with rfl | hx
    · exact absurd hxs hfree
    · rw [Function.update_of_ne (hother hxs)]
      exact h.once x hx hxs
  · refine (hpush.pairwise_iff fun {a b} hab hba hk => hab hba.symm hk.symm).2 (List.pairwise_cons.2 ⟨fun x hx hnode hkey => ?_,
      h.distinct⟩)
    obtain ⟨b, hb, hle⟩ := h.bounded x hx
    rw [← hnode] at hb
    exact absurd (hbetter b hb) (not_lt.2 (hle.trans hkey.ge))

/-! ## The search ends -/

variable (g) in
/-- What is still to be looked at, at most: the entries, and the hops out of
nodes not settled. -/
def work (all settled : Finset ν) (queue : List (Entry ν ε K)) : ℕ :=
  queue.length + ∑ u ∈ all \ settled, (g.out u).length

omit [LinearOrder K] in
theorem work_settle {all : Finset ν} (hall : v ∉ all → g.out v = []) (hv : v ∉ settled) :
    work g all (insert v settled) queue + (g.out v).length = work g all settled queue := by
  unfold work
  by_cases hin : v ∈ all
  · have herase : all \ insert v settled = (all \ settled).erase v := by
      ext u
      simp only [Finset.mem_sdiff, Finset.mem_insert, Finset.mem_erase]
      tauto
    have hsum := Finset.sum_erase_add (all \ settled) (fun u => (g.out u).length) (Finset.mem_sdiff.2 ⟨hin, hv⟩)
    rw [herase]
    omega
  · have hsame : all \ insert v settled = all \ settled := by
      ext u
      simp only [Finset.mem_sdiff, Finset.mem_insert, not_or]
      refine and_congr_right fun hu => and_iff_right ?_
      rintro rfl
      exact hin hu
    rw [hsame, hall hin]
    rfl

end HeteroSim.BestFirst
