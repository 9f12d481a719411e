/-
Critical paths as nodes of a canonical trie (`streaming_des`). Equal prefixes
are one node while anything refers to it, so two paths part where their nodes
do, and doubling tables of ancestors find the place.
-/
import HeteroSim.Dict
import HeteroSim.Paths.Links

namespace HeteroSim.Paths

variable {κ : Type}

/-- `_PathKeyNode`; a node is known by its place among all that were made. -/
structure PathKeyNode (κ : Type) where
  index : ℕ
  key : Option κ
  parent : Option ℕ
  depth : ℕ
  jumps : List ℕ
deriving DecidableEq

/-- `_PathState` -/
structure PathState (κ : Type) where
  distance : ℚ
  previous : Option ℕ
  nodeKey : Option κ
  keyPath : ℕ
deriving DecidableEq

/-- An index, every node and path state made of it, and which of the states are still held. -/
structure PathKeyIndex (κ : Type) where
  ident : ℕ
  allNodes : List (PathKeyNode κ)
  nodes : Dict (ℕ × κ) ℕ
  states : List (PathState κ)
  held : List ℕ
deriving DecidableEq

/-- The root's place. -/
def top : ℕ := 0

/-- `_PathKeyIndex.__init__`, with the path of no keys. -/
def PathKeyIndex.new (ident : ℕ) : PathKeyIndex κ :=
  ⟨ident, [⟨ident, none, none, 0, []⟩], .empty, [⟨0, none, none, top⟩], [0]⟩

def nodeAt (nodes : List (PathKeyNode κ)) (n : ℕ) : Except Raised (PathKeyNode κ) := (nodes[n]?).elim (.error .attribute) .ok

def stateAt (states : List (PathState κ)) (s : ℕ) : Except Raised (PathState κ) := (states[s]?).elim (.error .attribute) .ok

/-- `node.jumps[level]` -/
def jumpAt (node : PathKeyNode κ) (level : ℕ) : Except Raised ℕ :=
  (node.jumps[level]?).elim (.error (.index "tuple index out of range")) .ok

/-- The loop that doubles the jumps. -/
def doubled (nodes : List (PathKeyNode κ)) (depth : ℕ) : ℕ → ℕ → List ℕ → Except Raised (List ℕ)
  | fuel, level, jumps =>
    if 2 ^ level ≤ depth then
      match fuel with
      | 0 => .error .outOfFuel
      | fuel + 1 => do
        let halfway ← (jumps[level - 1]?).elim (.error (.index "list index out of range")) .ok
        let halfway ← nodeAt nodes halfway
        let jump ← jumpAt halfway (level - 1)
        doubled nodes depth fuel (level + 1) (jumps ++ [jump])
    else .ok jumps

/-- `extend`: the node of a key below a parent. -/
def extend [LinearOrder κ] (w : PathKeyIndex κ) (parent : ℕ) (key : κ) : Except Raised (ℕ × PathKeyIndex κ) :=
  match w.nodes.get? (parent, key) with
  | some existing => .ok (existing, w)
  | none => do
    let p ← nodeAt w.allNodes parent
    let depth := p.depth + 1
    let jumps ← doubled w.allNodes depth depth 1 [parent]
    let node := w.allNodes.length
    return (node, { w with
      allNodes := w.allNodes ++ [⟨w.ident, some key, some parent, depth, jumps⟩]
      nodes := w.nodes.insert (parent, key) node })

/-- `_extend_path`; the new state is held. -/
def extendPath [LinearOrder κ] (w : PathKeyIndex κ) (source : ℕ) (duration : ℚ) (nodeKey : κ) : Except Raised (PathKeyIndex κ) := do
  let s ← stateAt w.states source
  let distance := s.distance + duration
  if distance = 0 then
    return { w with states := w.states ++ [⟨0, none, none, top⟩], held := w.states.length :: w.held }
  else do
    let extended ← extend w s.keyPath nodeKey
    return { extended.2 with
      states := w.states ++ [⟨distance, some source, some nodeKey, extended.1⟩]
      held := w.states.length :: w.held }

/-- `_path_keys` -/
def pathKeys (states : List (PathState κ)) : ℕ → Option ℕ → Except Raised (List κ)
  | _, none => .ok []
  | 0, some _ => .error .outOfFuel
  | fuel + 1, some cursor => do
    let s ← stateAt states cursor
    let keys ← pathKeys states fuel s.previous
    return keys ++ s.nodeKey.toList

/-- `_ancestor` -/
def ancestor (nodes : List (PathKeyNode κ)) : ℕ → ℕ → ℕ → Except Raised ℕ
  | fuel, cursor, remaining =>
    if remaining = 0 then .ok cursor
    else match fuel with
      | 0 => .error .outOfFuel
      | fuel + 1 => do
        let level := Nat.log2 remaining
        let node ← nodeAt nodes cursor
        let up ← jumpAt node level
        ancestor nodes fuel up (remaining - 2 ^ level)

/-- One level of the search for the common ancestor. -/
def rise (nodes : List (PathKeyNode κ)) (pair : ℕ × ℕ) (level : ℕ) : Except Raised (ℕ × ℕ) := do
  let left ← nodeAt nodes pair.1
  let right ← nodeAt nodes pair.2
  if left.jumps.length ≤ level then return pair
  let leftUp ← jumpAt left level
  let rightUp ← jumpAt right level
  return if leftUp ≠ rightUp then (leftUp, rightUp) else pair

/-- A node brought up to another's depth. -/
def levelled (nodes : List (PathKeyNode κ)) (node depth other : ℕ) : Except Raised ℕ :=
  if other < depth then ancestor nodes (depth - other) node (depth - other) else .ok node

/-- `_lowest_common_ancestor` -/
def lowestCommonAncestor (nodes : List (PathKeyNode κ)) (left right : ℕ) : Except Raised ℕ := do
  let l ← nodeAt nodes left
  let r ← nodeAt nodes right
  let left ← levelled nodes left l.depth r.depth
  let right ← levelled nodes right r.depth l.depth
  if left = right then return left
  let l ← nodeAt nodes left
  let pair ← (List.range l.jumps.length).reverse.foldlM (rise nodes) (left, right)
  let l ← nodeAt nodes pair.1
  l.parent.elim (.error (.assertion "canonical path nodes must share one root")) .ok

/-- `_compare_path_keys` -/
def comparePathKeys [LinearOrder κ] (w : PathKeyIndex κ) (left right : ℕ) : Except Raised Int := do
  let l ← stateAt w.states left
  let r ← stateAt w.states right
  let leftPath ← nodeAt w.allNodes l.keyPath
  let rightPath ← nodeAt w.allNodes r.keyPath
  if leftPath.index ≠ rightPath.index then .error (.value "critical paths must share their simulation index")
  if l.keyPath = r.keyPath then return 0
  let common ← lowestCommonAncestor w.allNodes l.keyPath r.keyPath
  if common = l.keyPath then return -1
  if common = r.keyPath then return 1
  let c ← nodeAt w.allNodes common
  let leftChild ← ancestor w.allNodes leftPath.depth l.keyPath (leftPath.depth - c.depth - 1)
  let leftChild ← nodeAt w.allNodes leftChild
  let rightChild ← ancestor w.allNodes rightPath.depth r.keyPath (rightPath.depth - c.depth - 1)
  let rightChild ← nodeAt w.allNodes rightChild
  if leftChild.key = rightChild.key then .error (.assertion "distinct canonical children must have distinct keys")
  let a ← leftChild.key.elim (.error .attribute) .ok
  let b ← rightChild.key.elim (.error .attribute) .ok
  return if a < b then -1 else 1

/-! ## Runs -/

/-- A node hangs on the other, or on one that does. -/
def Hangs (nodes : List (PathKeyNode κ)) : ℕ → ℕ → Prop :=
  Relation.ReflTransGen fun n p => ∃ node, nodes[n]? = some node ∧ node.parent = some p

/-- Something held refers to the node. -/
def InUse (w : PathKeyIndex κ) (n : ℕ) : Prop := ∃ s ∈ w.held, ∃ state, w.states[s]? = some state ∧ Hangs w.allNodes state.keyPath n

/-- A node is collected, and the dictionary lets go of it. -/
def PathKeyIndex.collected [LinearOrder κ] (w : PathKeyIndex κ) (n : ℕ) : PathKeyIndex κ :=
  { w with nodes := (w.allNodes[n]?).elim w.nodes fun node =>
      node.parent.elim w.nodes fun parent => node.key.elim w.nodes fun key =>
        if w.nodes.get? (parent, key) = some n then w.nodes.erase (parent, key) else w.nodes }

/-- Path states extended, reached from later ones and let go, and nodes nothing refers to collected, in any order. -/
inductive Grown [LinearOrder κ] : PathKeyIndex κ → Prop
  | new (ident : ℕ) : Grown (.new ident)
  | extend {w w' : PathKeyIndex κ} {source : ℕ} {duration : ℚ} {nodeKey : κ} : Grown w → source ∈ w.held →
      extendPath w source duration nodeKey = .ok w' → Grown w'
  | previous {w : PathKeyIndex κ} {s p : ℕ} {state : PathState κ} : Grown w → s ∈ w.held → w.states[s]? = some state →
      state.previous = some p → Grown { w with held := p :: w.held }
  | release {w : PathKeyIndex κ} (s : ℕ) : Grown w → Grown { w with held := w.held.erase s }
  | collect {w : PathKeyIndex κ} {n : ℕ} : Grown w → ¬InUse w n → Grown (w.collected n)

/-! ## The trie -/

/-- The trie of the nodes. -/
def trie (nodes : List (PathKeyNode κ)) : Lineage ℕ κ where
  root := top
  up n := ((nodes[n]?).bind PathKeyNode.parent).getD top
  key n := (nodes[n]?).bind PathKeyNode.key
  depth n := (nodes[n]?).elim 0 PathKeyNode.depth

/-- The jumps of a node: its parent, and each as far again as the one before. -/
structure Doubles (nodes : List (PathKeyNode κ)) (parent depth : ℕ) (jumps : List ℕ) : Prop where
  first : jumps[0]? = some parent
  next : ∀ k, k + 1 < jumps.length → ∃ half node, jumps[k]? = some half ∧ nodes[half]? = some node ∧
    jumps[k + 1]? = node.jumps[k]?
  length : ∀ k, k < jumps.length ↔ 2 ^ k ≤ depth

/-- A node is the root, or was made of its parent. -/
structure Made (nodes : List (PathKeyNode κ)) (ident n : ℕ) (node : PathKeyNode κ) : Prop where
  index : node.index = ident
  hangs : ∃ p parent key, node.parent = some p ∧ p < n ∧ nodes[p]? = some parent ∧ node.key = some key ∧
    node.depth = parent.depth + 1 ∧ Doubles nodes p node.depth node.jumps

/-- Every node is as it was made. -/
structure Trie (nodes : List (PathKeyNode κ)) (ident : ℕ) : Prop where
  root : nodes[top]? = some ⟨ident, none, none, 0, []⟩
  made : ∀ n node, nodes[n]? = some node → n ≠ top → Made nodes ident n node

variable {nodes : List (PathKeyNode κ)} {ident n : ℕ} {node : PathKeyNode κ}

theorem lt_of_node (h : nodes[n]? = some node) : n < nodes.length := (List.getElem?_eq_some_iff.1 h).1

theorem node_append {z : PathKeyNode κ} (h : nodes[n]? = some node) : (nodes ++ [z])[n]? = some node := by
  rw [List.getElem?_append_left (lt_of_node h)]
  exact h

section Node

variable (hn : nodes[n]? = some node)

include hn

theorem up_of_node : (trie nodes).up n = node.parent.getD top := by
  show ((nodes[n]?).bind PathKeyNode.parent).getD top = _
  rw [hn]
  rfl

theorem key_of_node : (trie nodes).key n = node.key := by
  show (nodes[n]?).bind PathKeyNode.key = _
  rw [hn]
  rfl

theorem depth_of_node : (trie nodes).depth n = node.depth := by
  show (nodes[n]?).elim 0 PathKeyNode.depth = _
  rw [hn]
  rfl

end Node

theorem nodeAt_ok (hn : n < nodes.length) : ∃ node, nodes[n]? = some node ∧ nodeAt nodes n = .ok node := by
  refine ⟨nodes[n], List.getElem?_eq_getElem hn, ?_⟩
  rw [nodeAt, List.getElem?_eq_getElem hn]
  rfl

namespace Trie

variable (h : Trie nodes ident)

include h

theorem rooted : (trie nodes).Rooted (· < nodes.length) where
  valid_root := lt_of_node h.root
  depth_root := depth_of_node h.root
  valid_up := by
    intro n hn hne
    have hnode := List.getElem?_eq_getElem hn
    obtain ⟨p, parent, key, hp, -, hparent, -⟩ := (h.made n _ hnode hne).hangs
    rw [up_of_node hnode, hp]
    exact lt_of_node hparent
  depth_up := by
    intro n hn hne
    have hnode := List.getElem?_eq_getElem hn
    obtain ⟨p, parent, key, hp, -, hparent, -, hdepth, -⟩ := (h.made n _ hnode hne).hangs
    rw [up_of_node hnode, hp, Option.getD_some, depth_of_node hnode, depth_of_node hparent]
    exact hdepth
  key_some := by
    intro n hn hne
    have hnode := List.getElem?_eq_getElem hn
    obtain ⟨p, parent, key, -, -, -, hkey, -⟩ := (h.made n _ hnode hne).hangs
    rw [key_of_node hnode, hkey]
    rfl

/-- **A node's jumps lead up by powers of two.** -/
theorem jump : ∀ {k : ℕ} {n : ℕ} {node : PathKeyNode κ}, nodes[n]? = some node → 2 ^ k ≤ node.depth →
    node.jumps[k]? = some ((trie nodes).above (2 ^ k) n)
  | 0, n, node, hn, hle => by
    have hne := h.rooted.ne_root (x := n) (by rw [depth_of_node hn]; omega)
    obtain ⟨p, parent, key, hp, -, -, -, -, hdoubles⟩ := (h.made n node hn hne).hangs
    rw [hdoubles.first]
    show some p = some ((trie nodes).up n)
    rw [up_of_node hn, hp]
    rfl
  | k + 1, n, node, hn, hle => by
    have hpow : 2 ^ (k + 1) = 2 ^ k + 2 ^ k := by ring
    have hpos : 1 ≤ 2 ^ k := Nat.one_le_two_pow
    have hne := h.rooted.ne_root (x := n) (by rw [depth_of_node hn]; omega)
    obtain ⟨p, parent, key, hp, -, -, -, -, hdoubles⟩ := (h.made n node hn hne).hangs
    obtain ⟨half, halfNode, hhalf, hhalfNode, hnext⟩ := hdoubles.next k ((hdoubles.length (k + 1)).2 hle)
    have hfirst := jump hn (show 2 ^ k ≤ node.depth by omega)
    obtain rfl : half = (trie nodes).above (2 ^ k) n := Option.some.inj (hhalf.symm.trans hfirst)
    have hdepth := (h.rooted.above (lt_of_node hn) (n := 2 ^ k) (by rw [depth_of_node hn]; omega)).2
    rw [depth_of_node hn, depth_of_node hhalfNode] at hdepth
    rw [hnext, jump hhalfNode (by omega), ← Lineage.above_add, hpow]

theorem jumpAt_ok {k : ℕ} (hn : nodes[n]? = some node) (hle : 2 ^ k ≤ node.depth) :
    jumpAt node k = .ok ((trie nodes).above (2 ^ k) n) := by
  rw [jumpAt, h.jump hn hle]
  rfl

theorem jumps_length (hn : nodes[n]? = some node) {k : ℕ} : k < node.jumps.length ↔ 2 ^ k ≤ node.depth := by
  by_cases hroot : n = top
  · subst hroot
    obtain rfl := Option.some.inj (hn.symm.trans h.root)
    have : 1 ≤ 2 ^ k := Nat.one_le_two_pow
    constructor
    · intro hlt
      exact absurd hlt (Nat.not_lt_zero k)
    · intro hle
      exact absurd (this.trans hle) (by simp)
  · obtain ⟨p, parent, key, -, -, -, -, -, hdoubles⟩ := (h.made n node hn hroot).hangs
    exact hdoubles.length k

/-- **`_ancestor` gives the node so far up.** -/
theorem ancestor : ∀ {fuel n remaining : ℕ}, n < nodes.length → remaining ≤ (trie nodes).depth n → remaining ≤ fuel →
    ancestor nodes fuel n remaining = .ok ((trie nodes).above remaining n)
  | fuel, n, remaining, hn, hle, hfuel => by
    unfold Paths.ancestor
    by_cases hzero : remaining = 0
    · rw [if_pos hzero, hzero]
      rfl
    · rw [if_neg hzero]
      cases fuel with
      | zero => omega
      | succ fuel =>
        obtain ⟨node, hnode, hat⟩ := nodeAt_ok hn
        have hlog := Nat.log2_self_le hzero
        have hpos : 1 ≤ 2 ^ Nat.log2 remaining := Nat.one_le_two_pow
        obtain ⟨hvalid, hdepth⟩ := h.rooted.above hn (n := 2 ^ Nat.log2 remaining) (by omega)
        rw [depth_of_node hnode] at hle
        simp only [hat, h.jumpAt_ok hnode (hlog.trans hle), bind, Except.bind]
        rw [ancestor hvalid (by rw [hdepth, depth_of_node hnode]; omega) (by omega), ← Lineage.above_add, Nat.sub_add_cancel hlog]

theorem levelled (hn : nodes[n]? = some node) (other : ℕ) :
    levelled nodes n node.depth other = .ok ((trie nodes).above (node.depth - min node.depth other) n) := by
  have hdepth := depth_of_node hn
  unfold Paths.levelled
  split
  · rw [h.ancestor (lt_of_node hn) (by omega) le_rfl]
    congr 2
    omega
  · rw [show node.depth - min node.depth other = 0 by omega]
    rfl

/-- One level of the search: two nodes apart at the jump both take it. -/
theorem rise {l r level : ℕ} (hl : l < nodes.length) (hr : r < nodes.length) (hdepth : (trie nodes).depth l = (trie nodes).depth r) :
    rise nodes (l, r) level = .ok (if 2 ^ level ≤ (trie nodes).depth l ∧
      (trie nodes).above (2 ^ level) l ≠ (trie nodes).above (2 ^ level) r then
        ((trie nodes).above (2 ^ level) l, (trie nodes).above (2 ^ level) r)
      else (l, r)) := by
  obtain ⟨left, hleft, hleftAt⟩ := nodeAt_ok hl
  obtain ⟨right, hright, hrightAt⟩ := nodeAt_ok hr
  have hlength := h.jumps_length hleft (k := level)
  rw [depth_of_node hleft, depth_of_node hright] at hdepth
  rw [depth_of_node hleft]
  unfold Paths.rise
  simp only [hleftAt, hrightAt, bind, Except.bind]
  by_cases hle : 2 ^ level ≤ left.depth
  · rw [if_neg (by omega), h.jumpAt_ok hleft hle, h.jumpAt_ok hright (by omega)]
    dsimp only
    by_cases hne : (trie nodes).above (2 ^ level) l ≠ (trie nodes).above (2 ^ level) r
    · rw [if_pos hne, if_pos ⟨hle, hne⟩]
      rfl
    · rw [if_neg hne, if_neg fun hc => hne hc.2]
      rfl
  · rw [if_pos (by omega), if_neg fun hc => hle hc.1]
    rfl

/-- **The levels from high to low leave two nodes apart that hang on one.** -/
theorem rises : ∀ {level l r : ℕ}, l < nodes.length → r < nodes.length → (trie nodes).depth l = (trie nodes).depth r → l ≠ r →
    (trie nodes).above (min (2 ^ level) ((trie nodes).depth l)) l = (trie nodes).above (min (2 ^ level) ((trie nodes).depth l)) r →
    ∃ j, j < (trie nodes).depth l ∧ (trie nodes).above j l ≠ (trie nodes).above j r ∧
      (trie nodes).above (j + 1) l = (trie nodes).above (j + 1) r ∧
      (List.range level).reverse.foldlM (Paths.rise nodes) (l, r) = .ok ((trie nodes).above j l, (trie nodes).above j r)
  | 0, l, r, hl, hr, hdepth, hne, hwithin => by
    have hpos : 0 < (trie nodes).depth l := by
      by_contra hzero
      exact hne ((h.rooted.eq_root hl (by omega)).trans (h.rooted.eq_root hr (by omega)).symm)
    rw [pow_zero, min_eq_left (by omega)] at hwithin
    exact ⟨0, hpos, hne, hwithin, rfl⟩
  | level + 1, l, r, hl, hr, hdepth, hne, hwithin => by
    have hpow : 2 ^ (level + 1) = 2 ^ level + 2 ^ level := by ring
    rw [List.range_succ, List.reverse_append, List.reverse_singleton, List.singleton_append, List.foldlM_cons,
      h.rise hl hr hdepth]
    by_cases hapart : 2 ^ level ≤ (trie nodes).depth l ∧ (trie nodes).above (2 ^ level) l ≠ (trie nodes).above (2 ^ level) r
    · rw [if_pos hapart]
      obtain ⟨hup, hupDepth⟩ := h.rooted.above hl hapart.1
      obtain ⟨hup', hupDepth'⟩ := h.rooted.above hr (hdepth ▸ hapart.1)
      obtain ⟨j, hj, hapart', hjoin, hrun⟩ := @rises level _ _ hup hup' (by omega) hapart.2 (by
        rw [hupDepth, ← Lineage.above_add, ← Lineage.above_add]
        rwa [show min (2 ^ level) ((trie nodes).depth l - 2 ^ level) + 2 ^ level = min (2 ^ (level + 1)) ((trie nodes).depth l) by
          omega])
      rw [← Lineage.above_add, ← Lineage.above_add] at hapart' hjoin hrun
      refine ⟨j + 2 ^ level, by omega, hapart', ?_, hrun⟩
      rwa [show j + 2 ^ level + 1 = j + 1 + 2 ^ level by omega]
    · rw [if_neg hapart]
      refine rises hl hr hdepth hne ?_
      by_cases hle : 2 ^ level ≤ (trie nodes).depth l
      · rw [min_eq_left hle]
        exact not_not.1 fun hc => hapart ⟨hle, hc⟩
      · rw [min_eq_right (by omega)] at hwithin ⊢
        exact hwithin

/-- **`_lowest_common_ancestor` gives where the two ways part.** -/
theorem lowestCommonAncestor {left right : ℕ} (hl : left < nodes.length) (hr : right < nodes.length) :
    ∃ common d, lowestCommonAncestor nodes left right = .ok common ∧ d ≤ (trie nodes).depth left ∧ d ≤ (trie nodes).depth right ∧
      (trie nodes).above ((trie nodes).depth left - d) left = common ∧
      (trie nodes).above ((trie nodes).depth right - d) right = common ∧
      (d < (trie nodes).depth left → d < (trie nodes).depth right →
        (trie nodes).above ((trie nodes).depth left - d - 1) left ≠ (trie nodes).above ((trie nodes).depth right - d - 1) right) := by
  obtain ⟨l, hlNode, hlAt⟩ := nodeAt_ok hl
  obtain ⟨r, hrNode, hrAt⟩ := nodeAt_ok hr
  have hdl := depth_of_node hlNode
  have hdr := depth_of_node hrNode
  generalize hshared : min l.depth r.depth = shared
  obtain ⟨hlow, hlowDepth⟩ := h.rooted.above hl (n := l.depth - shared) (by omega)
  obtain ⟨hhigh, hhighDepth⟩ := h.rooted.above hr (n := r.depth - shared) (by omega)
  have hlowRun := h.levelled hlNode r.depth
  have hhighRun := h.levelled hrNode l.depth
  rw [hshared] at hlowRun
  rw [Nat.min_comm, hshared] at hhighRun
  unfold Paths.lowestCommonAncestor
  simp only [hlAt, hrAt, bind, Except.bind, hlowRun, hhighRun]
  rw [hdl, hdr]
  by_cases hmeet : (trie nodes).above (l.depth - shared) left = (trie nodes).above (r.depth - shared) right
  · rw [if_pos hmeet]
    exact ⟨_, shared, rfl, by omega, by omega, rfl, hmeet.symm, fun _ _ => by omega⟩
  · rw [if_neg hmeet]
    obtain ⟨low, hlowNode, hlowAt⟩ := nodeAt_ok hlow
    have hlength := h.jumps_length hlowNode (k := low.jumps.length)
    have hlowDepth' := depth_of_node hlowNode
    obtain ⟨j, hj, hapart, hjoin, hrun⟩ := @rises _ _ _ h low.jumps.length _ _ hlow hhigh (by omega) hmeet (by
      have hshort : low.depth ≤ 2 ^ low.jumps.length := by
        by_contra hlong
        exact lt_irrefl _ (hlength.2 (by omega))
      rw [min_eq_right (by omega), h.rooted.above_depth hlow]
      have := h.rooted.above_depth hhigh
      rw [show (trie nodes).depth ((trie nodes).above (l.depth - shared) left) =
        (trie nodes).depth ((trie nodes).above (r.depth - shared) right) by omega]
      exact this.symm)
    rw [hlowAt]
    dsimp only
    rw [hrun]
    dsimp only
    obtain ⟨hchild, hchildDepth⟩ := h.rooted.above hlow (n := j) (by omega)
    obtain ⟨child, hchildNode, hchildAt⟩ := nodeAt_ok hchild
    have hne := h.rooted.ne_root (x := (trie nodes).above j ((trie nodes).above (l.depth - shared) left)) (by omega)
    obtain ⟨p, parent, key, hp, -⟩ := (h.made _ _ hchildNode hne).hangs
    have hup := up_of_node hchildNode
    rw [hp, Option.getD_some, Lineage.above_up] at hup
    rw [hchildAt]
    dsimp only
    rw [hp]
    rw [← Lineage.above_add, ← Lineage.above_add] at hapart hjoin
    rw [← Lineage.above_add] at hup
    refine ⟨p, shared - (j + 1), rfl, by omega, by omega, ?_, ?_, fun _ _ => ?_⟩
    · rw [← hup]
      congr 1
      omega
    · rw [← hup, hjoin]
      congr 1
      omega
    · rwa [show l.depth - (shared - (j + 1)) - 1 = j + (l.depth - shared) by omega,
        show r.depth - (shared - (j + 1)) - 1 = j + (r.depth - shared) by omega]

end Trie

end HeteroSim.Paths
