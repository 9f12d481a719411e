/-
The comparison of critical paths is the order of their key tuples. While a
node is in use the dictionary has it at its parent and key, so two nodes in
use are apart where their keys are.
-/
import HeteroSim.Paths.Trie

namespace HeteroSim.Paths

variable {κ : Type} {nodes : List (PathKeyNode κ)} {ident n : ℕ} {node z : PathKeyNode κ}

theorem stateAt_ok {states : List (PathState κ)} {s : ℕ} (hs : s < states.length) :
    ∃ state, states[s]? = some state ∧ stateAt states s = .ok state := by
  refine ⟨states[s], List.getElem?_eq_getElem hs, ?_⟩
  rw [stateAt, List.getElem?_eq_getElem hs]
  rfl

/-! ## Nodes a node hangs on -/

theorem hangs_cases {a : ℕ} (h : Hangs nodes a n) :
    n = a ∨ ∃ node p, nodes[a]? = some node ∧ node.parent = some p ∧ Hangs nodes p n := by
  rcases h.cases_head with heq | ⟨p, ⟨node, hnode, hp⟩, hrest⟩
  · exact .inl heq.symm
  · exact .inr ⟨node, p, hnode, hp, hrest⟩

theorem Doubles.append {p depth : ℕ} {jumps : List ℕ} (hd : Doubles nodes p depth jumps) : Doubles (nodes ++ [z]) p depth jumps where
  first := hd.first
  next := by
    intro k hk
    obtain ⟨half, node, hhalf, hnode, hnext⟩ := hd.next k hk
    exact ⟨half, node, hhalf, node_append hnode, hnext⟩
  length := hd.length

theorem Made.append (hm : Made nodes ident n node) : Made (nodes ++ [z]) ident n node where
  index := hm.index
  hangs := by
    obtain ⟨p, parent, key, hp, hlt, hparent, hkey, hdepth, hdoubles⟩ := hm.hangs
    exact ⟨p, parent, key, hp, hlt, node_append hparent, hkey, hdepth, hdoubles.append⟩

namespace Trie

variable (h : Trie nodes ident)

include h

theorem parent_lt {p : ℕ} (hn : nodes[n]? = some node) (hp : node.parent = some p) : p < n := by
  have hne : n ≠ top := by
    rintro rfl
    obtain rfl := Option.some.inj (hn.symm.trans h.root)
    cases hp
  obtain ⟨p', -, -, hp', hlt, -⟩ := (h.made n node hn hne).hangs
  obtain rfl := Option.some.inj (hp'.symm.trans hp)
  exact hlt

theorem hangs_top (hangs : Hangs nodes top n) : n = top := by
  rcases hangs_cases hangs with heq | ⟨node, p, hnode, hp, -⟩
  · exact heq
  · exact absurd (h.parent_lt hnode hp) (Nat.not_lt_zero p)

theorem hangs_le {a : ℕ} (hangs : Hangs nodes a n) : n ≤ a := by
  induction hangs with
  | refl => exact le_rfl
  | tail _ hstep ih =>
    obtain ⟨node, hnode, hp⟩ := hstep
    exact (h.parent_lt hnode hp).le.trans ih

/-- A node hangs on nothing that was made later. -/
theorem hangs_old {a : ℕ} (ha : a < nodes.length) (hangs : Hangs (nodes ++ [z]) a n) : Hangs nodes a n := by
  induction a using Nat.strong_induction_on with
  | _ a ih =>
    rcases hangs_cases hangs with rfl | ⟨node, p, hnode, hp, hrest⟩
    · exact .refl
    · rw [List.getElem?_append_left ha] at hnode
      have hlt := h.parent_lt hnode hp
      exact .head ⟨node, hnode, hp⟩ (ih p hlt (by omega) hrest)

theorem index_eq (hn : nodes[n]? = some node) : node.index = ident := by
  by_cases htop : n = top
  · subst htop
    obtain rfl := Option.some.inj (hn.symm.trans h.root)
    rfl
  · exact (h.made n node hn htop).index

/-- A node hangs on those above it. -/
theorem hangs_above : ∀ {k n : ℕ}, n < nodes.length → k ≤ (trie nodes).depth n → Hangs nodes n ((trie nodes).above k n)
  | 0, _, _, _ => .refl
  | k + 1, n, hn, hk => by
    have hne := h.rooted.ne_root (x := n) (by omega)
    have hnode := List.getElem?_eq_getElem hn
    obtain ⟨p, -, -, hp, -⟩ := (h.made n _ hnode hne).hangs
    have hstep := h.rooted.depth_up n hn hne
    have hvalid := h.rooted.valid_up n hn hne
    rw [up_of_node hnode, hp, Option.getD_some] at hstep hvalid
    rw [Lineage.above_succ, up_of_node hnode, hp]
    exact .head ⟨_, hnode, hp⟩ (hangs_above hvalid (by omega))

/-- The trail of a node is its parent's and its own key. -/
theorem trail_node {p : ℕ} {key : κ} (hn : nodes[n]? = some node) (hp : node.parent = some p) (hkey : node.key = some key) :
    (trie nodes).trail n = (trie nodes).trail p ++ [key] := by
  have hlt := h.parent_lt hn hp
  have hstep := h.rooted.depth_up n (lt_of_node hn) (show n ≠ 0 by omega)
  rw [up_of_node hn, hp, Option.getD_some] at hstep
  rw [Lineage.trail, hstep, Lineage.trailOf, up_of_node hn, key_of_node hn, hp, hkey]
  rfl

/-- **The loop doubles a new node's jumps.** -/
theorem doubled {parent depth : ℕ} {p : PathKeyNode κ} (hp : nodes[parent]? = some p) (hdepth : depth = p.depth + 1) :
    ∀ {fuel level : ℕ} {jumps : List ℕ}, depth < level + fuel → jumps.length = level → 1 ≤ level → 2 ^ (level - 1) ≤ depth →
    (∀ k < level, jumps[k]? = some ((trie nodes).above (2 ^ k - 1) parent)) →
    ∃ jumps', Paths.doubled nodes depth fuel level jumps = .ok jumps' ∧
      (∀ k, k < jumps'.length ↔ 2 ^ k ≤ depth) ∧
      ∀ k < jumps'.length, jumps'[k]? = some ((trie nodes).above (2 ^ k - 1) parent)
  | fuel, level, jumps, hfuel, hlength, hlevel, hlast, hjumps => by
    have hmono : ∀ k, k < level ↔ 2 ^ k ≤ 2 ^ (level - 1) := by
      intro k
      rw [Nat.pow_le_pow_iff_right (by omega)]
      omega
    unfold Paths.doubled
    by_cases hmore : 2 ^ level ≤ depth
    · rw [if_pos hmore]
      cases fuel with
      | zero =>
        have := Nat.lt_two_pow_self (n := level)
        omega
      | succ fuel =>
        have hpow : 2 ^ level = 2 ^ (level - 1) + 2 ^ (level - 1) := by
          rw [← Nat.two_mul, ← Nat.pow_succ', Nat.succ_eq_add_one, Nat.sub_add_cancel hlevel]
        have hpos : 1 ≤ 2 ^ (level - 1) := Nat.one_le_two_pow
        have hdp := depth_of_node hp
        obtain ⟨hvalid, hup⟩ := h.rooted.above (lt_of_node hp) (n := 2 ^ (level - 1) - 1) (by omega)
        obtain ⟨half, hhalf, hat⟩ := nodeAt_ok hvalid
        rw [depth_of_node hhalf] at hup
        have hjump := h.jumpAt_ok hhalf (k := level - 1) (by omega)
        rw [← Lineage.above_add, show 2 ^ (level - 1) + (2 ^ (level - 1) - 1) = 2 ^ level - 1 by omega] at hjump
        have hread := hjumps (level - 1) (by omega)
        obtain ⟨jumps', hrun, hspec⟩ := @doubled _ _ _ hp hdepth fuel (level + 1) (jumps ++ [(trie nodes).above (2 ^ level - 1) parent])
          (by omega) (by rw [List.length_append, hlength]; rfl) (by omega) hmore (by
            intro k hk
            by_cases hk' : k < level
            · rw [List.getElem?_append_left (by omega)]
              exact hjumps k hk'
            · obtain rfl : k = level := by omega
              rw [List.getElem?_append_right (by omega), hlength, Nat.sub_self]
              rfl)
        refine ⟨jumps', ?_, hspec⟩
        rw [hread]
        show (nodeAt nodes _ >>= _) = _
        rw [hat]
        show (jumpAt half _ >>= _) = _
        rw [hjump]
        exact hrun
    · rw [if_neg hmore]
      have hiff : ∀ k, k < jumps.length ↔ 2 ^ k ≤ depth := by
        intro k
        rw [hlength]
        refine ⟨fun hk => ((hmono k).1 hk).trans hlast, fun hk => ?_⟩
        by_contra hge
        exact hmore ((Nat.pow_le_pow_right (by omega) (by omega)).trans hk)
      exact ⟨jumps, rfl, hiff, fun k hk => hjumps k (hlength ▸ hk)⟩

/-- A new node is as it was made, and leaves the others so. -/
theorem append {parent depth : ℕ} {p : PathKeyNode κ} {key : κ} {jumps : List ℕ} (hp : nodes[parent]? = some p)
    (hdepth : depth = p.depth + 1) (hlength : ∀ k, k < jumps.length ↔ 2 ^ k ≤ depth)
    (hjumps : ∀ k < jumps.length, jumps[k]? = some ((trie nodes).above (2 ^ k - 1) parent)) :
    Trie (nodes ++ [⟨ident, some key, some parent, depth, jumps⟩]) ident where
  root := node_append h.root
  made := by
    intro n node hn hne
    by_cases hold : n < nodes.length
    · rw [List.getElem?_append_left hold] at hn
      exact (h.made n node hn hne).append
    · rw [List.getElem?_append_right (by omega)] at hn
      obtain ⟨hlt, hlast⟩ := List.getElem?_eq_some_iff.1 hn
      have hlt : n - nodes.length < 1 := hlt
      simp only [List.getElem_singleton] at hlast
      subst hlast
      have hpos : 1 ≤ depth := by omega
      refine ⟨rfl, parent, p, key, rfl, ?_, node_append hp, rfl, hdepth, ?_, ?_, hlength⟩
      · have := lt_of_node hp
        omega
      · exact hjumps 0 ((hlength 0).2 hpos)
      · intro k hk
        have hle := (hlength (k + 1)).1 hk
        have hpow : 2 ^ (k + 1) = 2 ^ k + 2 ^ k := by ring
        have hone : 1 ≤ 2 ^ k := Nat.one_le_two_pow
        have hdp := depth_of_node hp
        obtain ⟨hvalid, hup⟩ := h.rooted.above (lt_of_node hp) (n := 2 ^ k - 1) (by omega)
        obtain ⟨half, hhalf, -⟩ := nodeAt_ok hvalid
        rw [depth_of_node hhalf] at hup
        refine ⟨_, half, hjumps k ((hlength k).2 (by omega)), node_append hhalf, ?_⟩
        rw [hjumps (k + 1) hk, h.jump hhalf (by omega), ← Lineage.above_add]
        congr 2
        omega

end Trie

/-! ## What the dictionary has -/

/-- A state of no keys, or one that extends an earlier state by a key. -/
def Stated (w : PathKeyIndex κ) (s : ℕ) (state : PathState κ) : Prop :=
  (state.previous = none ∧ state.nodeKey = none ∧ state.keyPath = top) ∨
  ∃ p source key node, state.previous = some p ∧ p < s ∧ w.states[p]? = some source ∧ state.nodeKey = some key ∧
    w.allNodes[state.keyPath]? = some node ∧ node.parent = some source.keyPath ∧ node.key = some key

/-- The dictionary has each node in use at its parent and key. -/
structure Canonical [LinearOrder κ] (w : PathKeyIndex κ) : Prop where
  trie : Trie w.allNodes w.ident
  entries : ∀ p key n, w.nodes.get? (p, key) = some n →
    ∃ node, w.allNodes[n]? = some node ∧ node.parent = some p ∧ node.key = some key
  used : ∀ n node p key, InUse w n → w.allNodes[n]? = some node → node.parent = some p → node.key = some key →
    w.nodes.get? (p, key) = some n
  states : ∀ s state, w.states[s]? = some state → Stated w s state
  held : ∀ s ∈ w.held, s < w.states.length

section Use

variable {w w' : PathKeyIndex κ}

theorem Stated.grow {s : ℕ} {state : PathState κ} (hs : Stated w s state)
    (hstates : ∀ (i : ℕ) x, w.states[i]? = some x → w'.states[i]? = some x)
    (hnodes : ∀ (i : ℕ) x, w.allNodes[i]? = some x → w'.allNodes[i]? = some x) : Stated w' s state := by
  rcases hs with hzero | ⟨p, source, key, node, hprevious, hlt, hsource, hkey, hnode, hparent, hnodeKey⟩
  · exact .inl hzero
  · exact .inr ⟨p, source, key, node, hprevious, hlt, hstates _ _ hsource, hkey, hnodes _ _ hnode, hparent, hnodeKey⟩

theorem inUse_held {s : ℕ} {state : PathState κ} (hs : s ∈ w.held) (hstate : w.states[s]? = some state) : InUse w state.keyPath :=
  ⟨s, hs, state, hstate, .refl⟩

theorem InUse.hangs {p : ℕ} (hp : InUse w p) (hangs : Hangs w.allNodes p n) : InUse w n := by
  obtain ⟨s, hs, state, hstate, hway⟩ := hp
  exact ⟨s, hs, state, hstate, hway.trans hangs⟩

end Use

namespace Canonical

variable [LinearOrder κ] {w : PathKeyIndex κ}

theorem keyPath_lt (h : Canonical w) {s : ℕ} {state : PathState κ} (hstate : w.states[s]? = some state) :
    state.keyPath < w.allNodes.length := by
  rcases h.states s state hstate with ⟨-, -, htop⟩ | ⟨-, -, -, node, -, -, -, -, hnode, -⟩
  · rw [htop]
    exact lt_of_node h.trie.root
  · exact lt_of_node hnode

theorem new (ident : ℕ) : Canonical (PathKeyIndex.new ident : PathKeyIndex κ) where
  trie := by
    refine ⟨rfl, fun n node hn hne => ?_⟩
    have hlt : n < 1 := lt_of_node hn
    exact absurd (show n = 0 by omega) hne
  entries := fun p key n hn => by cases hn
  used := by
    intro n node p key _ hn hp
    have hlt : n < 1 := lt_of_node hn
    obtain rfl : n = 0 := by omega
    cases hn
    cases hp
  states := by
    intro s state hs
    have hlt : s < 1 := (List.getElem?_eq_some_iff.1 hs).1
    obtain rfl : s = 0 := by omega
    cases hs
    exact .inl ⟨rfl, rfl, rfl⟩
  held := by
    intro s hs
    obtain rfl := List.mem_singleton.1 hs
    exact Nat.one_pos

/-- A key the dictionary has no node for gets one. -/
theorem add (h : Canonical w) {parent : ℕ} {p : PathKeyNode κ} {key : κ} {jumps : List ℕ} (hp : w.allNodes[parent]? = some p)
    (hget : w.nodes.get? (parent, key) = none) (hlength : ∀ k, k < jumps.length ↔ 2 ^ k ≤ p.depth + 1)
    (hjumps : ∀ k < jumps.length, jumps[k]? = some ((Paths.trie w.allNodes).above (2 ^ k - 1) parent)) :
    Canonical { w with
      allNodes := w.allNodes ++ [⟨w.ident, some key, some parent, p.depth + 1, jumps⟩]
      nodes := w.nodes.insert (parent, key) w.allNodes.length } where
  trie := h.trie.append hp rfl hlength hjumps
  entries := by
    intro p' key' n hn
    by_cases heq : (p', key') = (parent, key)
    · obtain ⟨rfl, rfl⟩ := Prod.mk.inj heq
      rw [Dict.get?_insert_self] at hn
      obtain rfl := Option.some.inj hn
      exact ⟨_, List.getElem?_concat_length, rfl, rfl⟩
    · rw [Dict.get?_insert_of_ne _ _ heq] at hn
      obtain ⟨node, hnode, hparent, hkey⟩ := h.entries p' key' n hn
      exact ⟨node, node_append hnode, hparent, hkey⟩
  used := by
    rintro n node p' key' ⟨s, hs, state, hstate, hangs⟩ hnode hp' hkey'
    have hlt := h.keyPath_lt hstate
    have hangs := h.trie.hangs_old hlt hangs
    rw [List.getElem?_append_left ((h.trie.hangs_le hangs).trans_lt hlt)] at hnode
    have hfound := h.used n node p' key' ⟨s, hs, state, hstate, hangs⟩ hnode hp' hkey'
    by_cases heq : (p', key') = (parent, key)
    · rw [heq, hget] at hfound
      cases hfound
    · rw [Dict.get?_insert_of_ne _ _ heq]
      exact hfound
  states := by
    intro s state hstate
    exact (h.states s state hstate).grow (fun _ _ hx => hx) fun _ _ hx => node_append hx
  held := h.held

/-- **A key is extended on a node in use**: by the node the dictionary has, or by a new one. -/
theorem extend (h : Canonical w) {parent : ℕ} (hparent : parent < w.allNodes.length) (key : κ) :
    ∃ n w', Paths.extend w parent key = .ok (n, w') ∧ Canonical w' ∧ w'.states = w.states ∧ w'.held = w.held ∧
      w'.nodes.get? (parent, key) = some n := by
  unfold Paths.extend
  cases hget : w.nodes.get? (parent, key) with
  | some existing => exact ⟨existing, w, rfl, h, rfl, rfl, hget⟩
  | none =>
    obtain ⟨p, hp, hat⟩ := nodeAt_ok hparent
    obtain ⟨jumps, hrun, hlength, hjumps⟩ := @Trie.doubled _ _ _ h.trie parent _ p hp rfl (p.depth + 1) 1 [parent]
      (by omega) rfl le_rfl (by simp) (by
        intro k hk
        obtain rfl : k = 0 := by omega
        rfl)
    simp only [hat, hrun, bind, Except.bind]
    exact ⟨_, _, rfl, h.add hp hget hlength hjumps, rfl, rfl, Dict.get?_insert_self _ _ _⟩

/-- A state is made, on a node the dictionary has below one in use, or on the root. -/
theorem push (h : Canonical w) {state : PathState κ} (hstated : Stated w w.states.length state)
    (hused : ∀ node p key, w.allNodes[state.keyPath]? = some node → node.parent = some p → node.key = some key →
      InUse w p ∧ w.nodes.get? (p, key) = some state.keyPath) :
    Canonical { w with states := w.states ++ [state], held := w.states.length :: w.held } where
  trie := h.trie
  entries := h.entries
  used := by
    rintro n node p key ⟨s, hs, st, hst, hangs⟩ hnode hp hkey
    have hold : InUse w n → w.nodes.get? (p, key) = some n := fun hn => h.used n node p key hn hnode hp hkey
    rcases List.mem_cons.1 hs with rfl | hs
    · obtain rfl : state = st := by simpa using hst
      rcases hangs_cases hangs with rfl | ⟨top, q, htop, hq, hrest⟩
      · exact (hused node p key hnode hp hkey).2
      · obtain ⟨q', parent, key', hq', -, -, hkey', -⟩ := (h.trie.made _ top htop fun hzero => by
          rw [hzero] at htop
          exact absurd (h.trie.parent_lt htop hq) (Nat.not_lt_zero q)).hangs
        exact hold ((hused top q key' htop hq hkey').1.hangs hrest)
    · have hst : (w.states ++ [state])[s]? = some st := hst
      rw [List.getElem?_append_left (h.held s hs)] at hst
      exact hold ⟨s, hs, st, hst, hangs⟩
  states := by
    have hgrow : ∀ (i : ℕ) x, w.states[i]? = some x → (w.states ++ [state])[i]? = some x := by
      intro i x hx
      rw [List.getElem?_append_left (List.getElem?_eq_some_iff.1 hx).1]
      exact hx
    intro s st hst
    have hst : (w.states ++ [state])[s]? = some st := hst
    by_cases hs : s < w.states.length
    · rw [List.getElem?_append_left hs] at hst
      exact (h.states s st hst).grow hgrow fun _ _ hx => hx
    · rw [List.getElem?_append_right (by omega)] at hst
      obtain ⟨hlt, hlast⟩ := List.getElem?_eq_some_iff.1 hst
      have hlt : s - w.states.length < 1 := hlt
      simp only [List.getElem_singleton] at hlast
      obtain rfl : s = w.states.length := by omega
      exact hlast ▸ hstated.grow hgrow fun _ _ hx => hx
  held := by
    intro s hs
    show s < (w.states ++ [state]).length
    rw [List.length_append, List.length_singleton]
    rcases List.mem_cons.1 hs with rfl | hs
    · exact Nat.lt_succ_self _
    · exact (h.held s hs).trans (Nat.lt_succ_self _)

/-- **A held state can be extended**, and the dictionary still has each node in use. -/
theorem extendPath (h : Canonical w) {source : ℕ} (hsource : source ∈ w.held) (duration : ℚ) (nodeKey : κ) :
    ∃ w', extendPath w source duration nodeKey = .ok w' ∧ Canonical w' := by
  obtain ⟨state, hstate, hat⟩ := stateAt_ok (h.held source hsource)
  unfold Paths.extendPath
  simp only [hat, bind, Except.bind]
  split
  · refine ⟨_, rfl, h.push (.inl ⟨rfl, rfl, rfl⟩) fun node p key hnode hp _ => ?_⟩
    exact absurd (h.trie.parent_lt hnode hp) (Nat.not_lt_zero p)
  · obtain ⟨n, w', hrun, hw', hstates, hheld, hget⟩ := h.extend (h.keyPath_lt hstate) nodeKey
    obtain ⟨node, hnode, hparent, hkey⟩ := hw'.entries _ _ _ hget
    simp only [hrun]
    rw [← hheld] at hsource
    rw [← hstates] at hstate
    rw [← hstates, ← hheld]
    refine ⟨_, rfl, hw'.push (.inr ⟨source, state, nodeKey, node, rfl, hw'.held source hsource, hstate, rfl, hnode, hparent, hkey⟩) ?_⟩
    intro node' p key hnode' hp hkey'
    obtain rfl := Option.some.inj (hnode.symm.trans hnode')
    obtain rfl := Option.some.inj (hparent.symm.trans hp)
    obtain rfl := Option.some.inj (hkey.symm.trans hkey')
    exact ⟨inUse_held hsource hstate, hget⟩

/-- What an earlier state refers to is in use while a later one is held. -/
theorem previous (h : Canonical w) {s p : ℕ} {state : PathState κ} (hs : s ∈ w.held) (hstate : w.states[s]? = some state)
    (hp : state.previous = some p) : Canonical { w with held := p :: w.held } := by
  rcases h.states s state hstate with ⟨hnone, -, -⟩ | ⟨p', source, key, node, hp', hlt, hsource, -, hnode, hparent, -⟩
  · rw [hnone] at hp
    cases hp
  obtain rfl := Option.some.inj (hp'.symm.trans hp)
  refine ⟨h.trie, h.entries, ?_, h.states, ?_⟩
  · rintro n x q key ⟨r, hr, st, hst, hangs⟩
    rcases List.mem_cons.1 hr with rfl | hr
    · obtain rfl := Option.some.inj (hsource.symm.trans hst)
      exact h.used n x q key ⟨s, hs, state, hstate, .head ⟨node, hnode, hparent⟩ hangs⟩
    · exact h.used n x q key ⟨r, hr, st, hst, hangs⟩
  · intro r hr
    rcases List.mem_cons.1 hr with rfl | hr
    · exact hlt.trans (h.held s hs)
    · exact h.held r hr

/-- Less is in use when a state is let go. -/
theorem release (h : Canonical w) (s : ℕ) : Canonical { w with held := w.held.erase s } where
  trie := h.trie
  entries := h.entries
  used := by
    rintro n node p key ⟨r, hr, state, hstate, hangs⟩
    exact h.used n node p key ⟨r, List.mem_of_mem_erase hr, state, hstate, hangs⟩
  states := h.states
  held := fun r hr => h.held r (List.mem_of_mem_erase hr)

theorem collect (h : Canonical w) {n : ℕ} (hn : ¬InUse w n) : Canonical (w.collected n) := by
  have hsub : ∀ e, (w.collected n).nodes.get? e = w.nodes.get? e ∨ w.nodes.get? e = some n ∧ (w.collected n).nodes.get? e = none := by
    intro e
    unfold PathKeyIndex.collected
    cases hnode : w.allNodes[n]? with
    | none => exact .inl rfl
    | some node =>
      cases hp : node.parent with
      | none => simp [hp]
      | some p =>
        cases hkey : node.key with
        | none => simp [hp, hkey]
        | some key =>
          simp only [Option.elim_some, hp, hkey]
          split
          · next hfound =>
            by_cases he : e = (p, key)
            · subst he
              exact .inr ⟨hfound, Dict.get?_erase_self _ _⟩
            · exact .inl (Dict.get?_erase_of_ne _ he)
          · exact .inl rfl
  refine ⟨h.trie, ?_, ?_, h.states, h.held⟩
  · intro p key m hm
    rcases hsub (p, key) with hsame | ⟨-, hnone⟩
    · exact h.entries p key m (hsame ▸ hm)
    · rw [hnone] at hm
      cases hm
  · intro m node p key hm hnode hp hkey
    have hfound := h.used m node p key hm hnode hp hkey
    rcases hsub (p, key) with hsame | ⟨hgone, -⟩
    · exact hsame.trans hfound
    · obtain rfl := Option.some.inj (hfound.symm.trans hgone)
      exact absurd hm hn

end Canonical

/-- **However path states were extended, let go and collected, the dictionary has each node in use.** -/
theorem Grown.canonical [LinearOrder κ] {w : PathKeyIndex κ} (h : Grown w) : Canonical w := by
  induction h with
  | new ident => exact .new ident
  | @extend w w' source duration nodeKey _ hsource hrun ih =>
    obtain ⟨w'', hrun', hw''⟩ := ih.extendPath hsource duration nodeKey
    rw [hrun] at hrun'
    cases hrun'
    exact hw''
  | previous _ hs hstate hp ih => exact ih.previous hs hstate hp
  | release s _ ih => exact ih.release s
  | collect _ hn ih => exact ih.collect hn

/-! ## The comparison -/

/-- What a comparison says of two lists. -/
def Compares [LinearOrder κ] (verdict : ℤ) (left right : List κ) : Prop :=
  (verdict = -1 ∧ left < right) ∨ (verdict = 0 ∧ left = right) ∨ (verdict = 1 ∧ right < left)

namespace Canonical

variable [LinearOrder κ] {w : PathKeyIndex κ} (h : Canonical w)

include h

/-- **A state's keys are the trail of its node.** -/
theorem pathKeys : ∀ {fuel s : ℕ} {state : PathState κ}, w.states[s]? = some state → s < fuel →
    pathKeys w.states fuel (some s) = .ok ((Paths.trie w.allNodes).trail state.keyPath)
  | fuel + 1, s, state, hstate, hfuel => by
    have hat : stateAt w.states s = .ok state := by
      rw [stateAt, hstate]
      rfl
    unfold Paths.pathKeys
    simp only [hat, bind, Except.bind]
    rcases h.states s state hstate with ⟨hprevious, hkey, htop⟩ | ⟨p, source, key, node, hprevious, hlt, hsource, hkey, hnode, hparent, hnodeKey⟩
    · rw [hprevious, hkey, htop, Lineage.trail, depth_of_node h.trie.root]
      cases fuel <;> rfl
    · rw [hprevious, hkey, pathKeys hsource (by omega), h.trie.trail_node hnode hparent hnodeKey]
      rfl

/-- Two nodes in use that hang on one node are apart in their keys. -/
theorem key_ne {a b p : ℕ} {x y : PathKeyNode κ} (ha : InUse w a) (hb : InUse w b) (hx : w.allNodes[a]? = some x)
    (hy : w.allNodes[b]? = some y) (hxp : x.parent = some p) (hyp : y.parent = some p) {j k : κ} (hj : x.key = some j)
    (hk : y.key = some k) (hne : a ≠ b) : j ≠ k := by
  rintro rfl
  have hfound := h.used a x p j ha hx hxp hj
  exact hne (Option.some.inj (hfound.symm.trans (h.used b y p j hb hy hyp hk)))

/-- Where two nodes in use part, their keys do, and decide. -/
theorem child {a c d k : ℕ} (ha : InUse w a) (hlt : a < w.allNodes.length) (hd : d < (Paths.trie w.allNodes).depth a)
    (hk : k = (Paths.trie w.allNodes).depth a - d - 1) (hc : (Paths.trie w.allNodes).above ((Paths.trie w.allNodes).depth a - d) a = c) :
    ∃ b node key, ancestor w.allNodes ((Paths.trie w.allNodes).depth a) a k = .ok b ∧ nodeAt w.allNodes b = .ok node ∧
      b = (Paths.trie w.allNodes).above k a ∧ InUse w b ∧ w.allNodes[b]? = some node ∧ node.parent = some c ∧ node.key = some key ∧
      ((Paths.trie w.allNodes).trail a)[d]? = some key := by
  obtain ⟨hvalid, hdepth⟩ := h.trie.rooted.above hlt (n := k) (by omega)
  obtain ⟨node, hnode, hat⟩ := nodeAt_ok hvalid
  obtain ⟨p, -, key, hp, -, -, hkey, -⟩ := (h.trie.made _ node hnode (h.trie.rooted.ne_root (by omega))).hangs
  have hup := up_of_node hnode
  rw [hp, Option.getD_some, Lineage.above_up, show k + 1 = (Paths.trie w.allNodes).depth a - d by omega, hc] at hup
  refine ⟨_, node, key, h.trie.ancestor hlt (by omega) (by omega), hat, rfl, ha.hangs (h.trie.hangs_above hlt (by omega)), hnode,
    hup ▸ hp, hkey, ?_⟩
  rw [h.trie.rooted.trail_getElem? hlt hd, show (Paths.trie w.allNodes).depth a - (d + 1) = k by omega, key_of_node hnode, hkey]

/-- **`_compare_path_keys` is the order of the trails.** -/
theorem comparePathKeys {left right : ℕ} {l r : PathState κ} (hleft : left ∈ w.held) (hright : right ∈ w.held)
    (hl : w.states[left]? = some l) (hr : w.states[right]? = some r) :
    ∃ verdict, comparePathKeys w left right = .ok verdict ∧
      Compares verdict ((Paths.trie w.allNodes).trail l.keyPath) ((Paths.trie w.allNodes).trail r.keyPath) := by
  have hlValid := h.keyPath_lt hl
  have hrValid := h.keyPath_lt hr
  have hlAt : stateAt w.states left = .ok l := by
    rw [stateAt, hl]
    rfl
  have hrAt : stateAt w.states right = .ok r := by
    rw [stateAt, hr]
    rfl
  obtain ⟨x, hx, hxAt⟩ := nodeAt_ok hlValid
  obtain ⟨y, hy, hyAt⟩ := nodeAt_ok hrValid
  have hdx := depth_of_node hx
  have hdy := depth_of_node hy
  unfold Paths.comparePathKeys
  simp only [hlAt, hrAt, hxAt, hyAt, bind, Except.bind, h.trie.index_eq hx, h.trie.index_eq hy, ne_eq, not_true_eq_false, if_false]
  by_cases hsame : l.keyPath = r.keyPath
  · rw [if_pos hsame, hsame]
    exact ⟨0, rfl, .inr (.inl ⟨rfl, rfl⟩)⟩
  · rw [if_neg hsame]
    obtain ⟨common, d, hrun, hdl, hdr, hup, hup', hapart⟩ := h.trie.lowestCommonAncestor hlValid hrValid
    simp only [hrun]
    by_cases hcommon : common = l.keyPath
    · rw [if_pos hcommon]
      have hd : d ≠ (Paths.trie w.allNodes).depth r.keyPath := by
        rintro rfl
        rw [Nat.sub_self] at hup'
        exact hsame (hcommon.symm.trans hup'.symm)
      have hlt := h.trie.rooted.trail_lt hrValid (n := (Paths.trie w.allNodes).depth r.keyPath - d) (by omega) (by omega)
      rw [hup', hcommon] at hlt
      exact ⟨-1, rfl, .inl ⟨rfl, hlt⟩⟩
    · rw [if_neg hcommon]
      have hd : d ≠ (Paths.trie w.allNodes).depth l.keyPath := by
        rintro rfl
        rw [Nat.sub_self] at hup
        exact hcommon hup.symm
      by_cases hcommon' : common = r.keyPath
      · rw [if_pos hcommon']
        have hlt := h.trie.rooted.trail_lt hlValid (n := (Paths.trie w.allNodes).depth l.keyPath - d) (by omega) (by omega)
        rw [hup, hcommon'] at hlt
        exact ⟨1, rfl, .inr (.inr ⟨rfl, hlt⟩)⟩
      · rw [if_neg hcommon']
        have hd' : d ≠ (Paths.trie w.allNodes).depth r.keyPath := by
          rintro rfl
          rw [Nat.sub_self] at hup'
          exact hcommon' hup'.symm
        obtain ⟨hvalid, hdepth⟩ := h.trie.rooted.above hlValid (n := (Paths.trie w.allNodes).depth l.keyPath - d) (by omega)
        rw [hup] at hvalid hdepth
        obtain ⟨c, hc, hcAt⟩ := nodeAt_ok hvalid
        rw [depth_of_node hc] at hdepth
        obtain ⟨a, u, j, haRun, haAt, ha, haUsed, hu, huParent, huKey, hj⟩ := h.child (k := x.depth - c.depth - 1)
          (inUse_held hleft hl) hlValid (by omega) (by omega) hup
        obtain ⟨b, v, k, hbRun, hbAt, hb, hbUsed, hv, hvParent, hvKey, hk⟩ := h.child (k := y.depth - c.depth - 1)
          (inUse_held hright hr) hrValid (by omega) (by omega) hup'
        have hne : j ≠ k := h.key_ne haUsed hbUsed hu hv huParent hvParent huKey hvKey (by
          rw [ha, hb, ← hdx, ← hdy, show c.depth = d by omega]
          exact hapart (by omega) (by omega))
        have hbefore := h.trie.rooted.trail_same (d := d) hlValid hrValid hdl hdr (hup.trans hup'.symm)
        have hiff := lt_iff_of_differ hne hbefore hj hk
        have hiff' := lt_iff_of_differ hne.symm (fun i hi => (hbefore i hi).symm) hk hj
        rw [hdx] at haRun
        rw [hdy] at hbRun
        simp only [hcAt, haRun, hbRun, haAt, hbAt, huKey, hvKey, Option.some.injEq, if_neg hne, Option.elim_some]
        by_cases hlt : j < k
        · exact ⟨-1, if_pos hlt ▸ rfl, .inl ⟨rfl, hiff.2 hlt⟩⟩
        · exact ⟨1, if_neg hlt ▸ rfl, .inr (.inr ⟨rfl, hiff'.2 (lt_of_le_of_ne (not_lt.1 hlt) hne.symm)⟩)⟩

end Canonical

/-- **Both comparisons of paths are the order of their key tuples**: of the states of one index, however they
were extended and let go, and of links, also when distinct ones carry equal keys. -/
theorem path_comparison_exact [LinearOrder κ] :
    (∀ w : PathKeyIndex κ, Grown w → ∀ left ∈ w.held, ∀ right ∈ w.held, ∃ leftKeys rightKeys verdict,
      pathKeys w.states w.states.length (some left) = .ok leftKeys ∧ pathKeys w.states w.states.length (some right) = .ok rightKeys ∧
      comparePathKeys w left right = .ok verdict ∧ Compares verdict leftKeys rightKeys) ∧
    ∀ heap : Heap κ, Built heap → ∀ left right, Valid heap left → Valid heap right →
      pathPrecedes heap left right = .ok (decide (keyTuple heap left < keyTuple heap right)) := by
  constructor
  · intro w hw left hleft right hright
    have h := hw.canonical
    obtain ⟨l, hl, -⟩ := stateAt_ok (h.held left hleft)
    obtain ⟨r, hr, -⟩ := stateAt_ok (h.held right hright)
    obtain ⟨verdict, hrun, hverdict⟩ := h.comparePathKeys hleft hright hl hr
    exact ⟨_, _, verdict, h.pathKeys hl (h.held left hleft), h.pathKeys hr (h.held right hright), hrun, hverdict⟩
  · intro heap hheap left right hleft hright
    have h := hheap.linked
    rw [h.keyTuple_eq hleft, h.keyTuple_eq hright]
    exact h.pathPrecedes hleft hright

/-- A path of one key. -/
def lone : PathKeyIndex String :=
  ⟨0, [⟨0, none, none, 0, []⟩, ⟨0, some "a", some 0, 1, [0]⟩], .insert .empty (0, "a") 1,
    [⟨0, none, none, 0⟩, ⟨1, some 0, some "a", 1⟩], [1, 0]⟩

/-- It was let go and collected, and its key extended again. -/
def again : PathKeyIndex String :=
  ⟨0, lone.allNodes ++ [⟨0, some "a", some 0, 1, [0]⟩], .insert .empty (0, "a") 2, lone.states ++ [⟨1, some 0, some "a", 2⟩], [2, 0]⟩

def regrown : PathKeyIndex String :=
  ⟨0, again.allNodes ++ [⟨0, some "c", some 0, 1, [0]⟩], again.nodes.insert (0, "c") 3, again.states ++ [⟨1, some 0, some "c", 3⟩], [3, 2, 0]⟩

/-- Two links of one key, and a link on each. -/
def twins : Heap String := [⟨none, "a", 1, none⟩, ⟨none, "a", 1, none⟩, ⟨some 0, "b", 2, some 0⟩, ⟨some 1, "a", 2, some 1⟩]

theorem regrown_grown : Grown regrown := by
  have hlone : Grown lone := @Grown.extend _ _ _ _ 0 1 "a" (.new 0) (by decide) (by decide +kernel)
  have hunused : ¬InUse { lone with held := lone.held.erase 1 } 1 := by
    rintro ⟨s, hs, state, hstate, hangs⟩
    obtain rfl := List.mem_singleton.1 hs
    obtain rfl := Option.some.inj hstate
    exact Nat.one_ne_zero (hlone.canonical.trie.hangs_top hangs)
  have hagain : Grown again := @Grown.extend _ _ _ _ 0 1 "a" ((hlone.release 1).collect hunused) (by decide) (by decide +kernel)
  exact @Grown.extend _ _ _ _ 0 1 "c" hagain (by decide) (by decide +kernel)

theorem twins_built : Built twins :=
  @Built.link _ (twins.take 3) (some 1) "a" _
    (@Built.link _ (twins.take 2) (some 0) "b" _
      (@Built.link _ (twins.take 1) none "a" _ (@Built.link _ [] none "a" _ .empty (by simp) rfl) (by simp) rfl)
      (by simp [twins]) rfl)
    (by simp [twins]) rfl

theorem path_comparison_regrown :
    (∃ leftKeys rightKeys verdict, pathKeys regrown.states 4 (some 2) = .ok leftKeys ∧ pathKeys regrown.states 4 (some 3) = .ok rightKeys ∧
      comparePathKeys regrown 2 3 = .ok verdict ∧ Compares verdict leftKeys rightKeys) ∧
    pathPrecedes twins (some 3) (some 2) = .ok (decide (keyTuple twins (some 3) < keyTuple twins (some 2))) :=
  ⟨path_comparison_exact.1 regrown regrown_grown 2 (by decide) 3 (by decide),
    path_comparison_exact.2 twins twins_built (some 3) (some 2) (by rintro i ⟨⟩; decide) (by rintro i ⟨⟩; decide)⟩

example : comparePathKeys regrown 2 3 = .ok (-1) := by decide +kernel

example : pathPrecedes twins (some 3) (some 2) = .ok true := by decide +kernel

end HeteroSim.Paths
