/-
Data hazards inside a task: the overlap indexes hold every completion so far,
so an access arrives after the conflicting accesses of its owner before it,
whichever way its batch is executed.
-/
import HeteroSim.Address.Sound
import HeteroSim.Task.Batches
import HeteroSim.Task.Overlaps

namespace HeteroSim.Task

variable {σ κ : Type}

/-! ## The overlap indexes -/

/-- The bounds of the range are endpoints. -/
structure Within (endpoints : List ℕ) (r : AccessRequest) : Prop where
  sorted : endpoints.Pairwise (· < ·)
  start : r.address ∈ endpoints
  stop : r.stop ∈ endpoints

theorem Within.indices {endpoints : List ℕ} {r : AccessRequest} (h : Within endpoints r) :
    indices endpoints r = (bisectLeft (before r.address) endpoints, bisectLeft (before r.stop) endpoints) ∧
      bisectLeft (before r.address) endpoints < bisectLeft (before r.stop) endpoints ∧
      bisectLeft (before r.stop) endpoints ≤ segments endpoints := by
  have hproper : Proper endpoints r.address r.byteCount :=
    ⟨⟨h.start, h.stop⟩, fun hzero => absurd hzero r.byteCount_pos.ne'⟩
  obtain ⟨hplace, hle⟩ := hproper.indices h.sorted
  exact ⟨hplace, bisectLeft_lt h.sorted h.start r.address_lt_stop, hle⟩

/-- Ranges that overlap are stored on segments that overlap. -/
theorem Within.meets {endpoints : List ℕ} {r q : AccessRequest} (h : Within endpoints r) (hq : Within endpoints q)
    (hlt : r.address < q.stop) : (Task.indices endpoints r).1 < (Task.indices endpoints q).2 := by
  rw [h.indices.1, hq.indices.1]
  exact bisectLeft_lt h.sorted h.start hlt

namespace OverlapIndex

/-- The index holds the completions over its endpoints. -/
structure Keeps (x : OverlapIndex) (endpoints : List ℕ) (run : List Executed) : Prop where
  endpoints_eq : x.endpoints = endpoints
  recorded : Recorded (segments endpoints) (indices endpoints) x.tree run

variable {x : OverlapIndex} {endpoints : List ℕ} {run : List Executed}

theorem keeps_create (endpoints : List ℕ) : (create endpoints).Keeps endpoints [] :=
  ⟨rfl, recorded_nil (RangeTree.blank_zeros 0)⟩

theorem Keeps.update (h : x.Keeps endpoints run) {y : Executed} (hy : Within endpoints y.request) :
    (x.update y.request y.completion).Keeps endpoints (y :: run) := by
  obtain ⟨hplace, hlt, hle⟩ := hy.indices
  have hlt : (indices endpoints y.request).1 < (indices endpoints y.request).2 := by rw [hplace]; exact hlt
  unfold OverlapIndex.update
  dsimp only
  rw [h.endpoints_eq, if_pos hlt]
  exact ⟨rfl, h.recorded.store (by rw [segments]; omega) true y hlt⟩

theorem Keeps.le_query (h : x.Keeps endpoints run) {y : Executed} (hy : y ∈ run) {r : AccessRequest}
    (hw : Within endpoints y.request) (hr : Within endpoints r) (hmeet : y.request.Meets r) :
    y.completion ≤ x.query r := by
  obtain ⟨hplace, hlt, hle⟩ := hr.indices
  have hlt : (indices endpoints r).1 < (indices endpoints r).2 := by rw [hplace]; exact hlt
  have hle : (indices endpoints r).2 ≤ segments endpoints := by rw [hplace]; exact hle
  unfold OverlapIndex.query
  dsimp only
  rw [h.endpoints_eq, if_neg (Nat.not_le.2 hlt)]
  exact h.recorded.le_largest hy hlt hle (hw.meets hr hmeet.1) (hr.meets hw hmeet.2)

end OverlapIndex

/-! ## Executed accesses of a task -/

namespace PreparedPhysicalTask

variable (t : PreparedPhysicalTask κ)

def ownerAt (position : ℕ) : Option String := (t.instructions[position]?).map Instruction.owner

/-- The executed access is the task's at its position, and no earlier than the
task. -/
def Stands (x : Executed) : Prop :=
  ∃ i, t.instructions[x.index]? = some i ∧ i.command = .perform x.request.operation ∧ i.address = x.request.address ∧
    i.byteCount = x.request.byteCount ∧ t.arrival ≤ x.request.arrival

/-- Of one owner and conflicting, `y` arrives after `x` is complete. -/
def Waits (x y : Executed) : Prop :=
  t.ownerAt x.index = t.ownerAt y.index → x.request.Conflicts y.request → x.completion ≤ y.request.arrival

/-- **Every access but the flushes is executed once, as the task has it, and
after the accesses of its owner before it that it conflicts with.** -/
structure Respects (run : List Executed) : Prop where
  once : (run.map Executed.index).Nodup ∧
    ∀ position, position ∈ run.map Executed.index ↔ ∃ i, t.instructions[position]? = some i ∧ i.command ≠ .flush
  stands : ∀ x ∈ run, t.Stands x
  ordered : ∀ x ∈ run, ∀ y ∈ run, x.index < y.index → t.Waits x y

variable {t}

theorem mem_endpoints {i : Instruction κ} (hi : i ∈ t.instructions) :
    i.address ∈ t.endpoints i.owner ∧ i.stop ∈ t.endpoints i.owner := by
  have h : ∀ n ∈ [i.address, i.stop], n ∈ t.endpoints i.owner := fun n hn => by
    refine (List.mem_insertionSort _).2 (List.mem_dedup.2 (List.mem_flatMap.2 ⟨i, ?_, hn⟩))
    exact List.mem_filter.2 ⟨hi, decide_eq_true rfl⟩
  exact ⟨h _ (by simp), h _ (by simp)⟩

theorem sorted_endpoints (owner : String) : (t.endpoints owner).Pairwise (· < ·) := by
  have hle : (t.endpoints owner).Pairwise (· ≤ ·) := List.pairwise_insertionSort _ _
  have hne : (t.endpoints owner).Nodup := (List.perm_insertionSort _ _).nodup_iff.2 (List.nodup_dedup _)
  exact (List.Pairwise.and hle hne).imp fun h => lt_of_le_of_ne h.1 h.2

theorem within_of_instruction {i : Instruction κ} (hi : i ∈ t.instructions) {r : AccessRequest} (ha : i.address = r.address)
    (hb : i.byteCount = r.byteCount) : Within (t.endpoints i.owner) r := by
  obtain ⟨hstart, hstop⟩ := mem_endpoints hi
  rw [Instruction.stop, ha, hb] at hstop
  rw [ha] at hstart
  exact ⟨sorted_endpoints _, hstart, hstop⟩

theorem Stands.within {x : Executed} (h : t.Stands x) {owner : String} (ho : t.ownerAt x.index = some owner) :
    Within (t.endpoints owner) x.request := by
  obtain ⟨i, hi, -, ha, hb, -⟩ := h
  rw [ownerAt, hi, Option.map_some, Option.some.injEq] at ho
  subst ho
  exact within_of_instruction (List.mem_of_getElem? hi) ha hb

/-- Without writes, or with one access, nothing conflicts. -/
theorem untracked_free (h : t.trackOverlaps = false) {x y : Executed} (hx : t.Stands x) (hy : t.Stands y)
    (hxy : x.index < y.index) : ¬x.request.Conflicts y.request := by
  obtain ⟨i, hi, hic, -⟩ := hx
  obtain ⟨j, hj, hjc, -⟩ := hy
  rintro ⟨-, hw⟩
  obtain ⟨hlen, -⟩ := List.getElem?_eq_some_iff.1 hj
  have hmany : 1 < t.instructions.length := by omega
  simp only [trackOverlaps, decide_eq_true hmany, Bool.true_and, List.any_eq_false, decide_eq_true_eq] at h
  rcases hw with hw | hw
  · exact h i (List.mem_of_getElem? hi) (by rw [hic, hw])
  · exact h j (List.mem_of_getElem? hj) (by rw [hjc, hw])

/-! ## The books of a task -/

/-- The completions of one owner. -/
def ofOwner (t : PreparedPhysicalTask κ) (owner : String) (done : List Executed) : List Executed :=
  done.filter fun x => decide (t.ownerAt x.index = some owner)

/-- Both indexes of each owner hold its completions. -/
structure Knows (t : PreparedPhysicalTask κ) (books : Completions) (done : List Executed) : Prop where
  all : ∀ owner, (books.all owner).Keeps (t.endpoints owner) (t.ofOwner owner done)
  writes : ∀ owner, (books.writes owner).Keeps (t.endpoints owner) ((t.ofOwner owner done).filter Executed.isWrite)

theorem knows_create : t.Knows t.create [] :=
  ⟨fun _ => OverlapIndex.keeps_create _, fun _ => OverlapIndex.keeps_create _⟩

theorem ofOwner_cons (owner : String) (x : Executed) (done : List Executed) : t.ofOwner owner (x :: done) =
    if t.ownerAt x.index = some owner then x :: t.ofOwner owner done else t.ofOwner owner done := by
  unfold ofOwner
  rw [List.filter_cons]
  simp only [decide_eq_true_eq]

theorem Knows.record {books : Completions} {done : List Executed} (h : t.Knows books done) {owner : String} {x : Executed}
    (hx : t.Stands x) (ho : t.ownerAt x.index = some owner) : t.Knows (books.record owner x) (x :: done) := by
  have hin := hx.within ho
  constructor
  · intro o
    rw [ofOwner_cons]
    by_cases hoo : o = owner
    · subst hoo
      simp only [if_pos ho, Completions.record, Function.update_self]
      exact (h.all o).update hin
    · rw [if_neg fun hc => hoo (Option.some.inj (hc.symm.trans ho))]
      simp only [Completions.record, Function.update_of_ne hoo]
      exact h.all o
  · intro o
    rw [ofOwner_cons]
    unfold Completions.record
    dsimp only
    cases hw : x.isWrite with
    | true =>
      rw [if_pos rfl]
      by_cases hoo : o = owner
      · subst hoo
        rw [if_pos ho, Function.update_self, List.filter_cons_of_pos hw]
        exact (h.writes o).update hin
      · rw [if_neg fun hc => hoo (Option.some.inj (hc.symm.trans ho)), Function.update_of_ne hoo]
        exact h.writes o
    | false =>
      rw [if_neg (by decide)]
      split
      · rw [List.filter_cons_of_neg (by simp [hw])]
        exact h.writes o
      · exact h.writes o

/-- The books are kept where the task tracks overlaps. -/
def Tracks (t : PreparedPhysicalTask κ) (books : Completions) (done : List Executed) : Prop :=
  t.trackOverlaps = true → t.Knows books done

/-! ## Requests -/

theorem request_describes (books : Completions) (position : ℕ) (i : Instruction κ) :
    (t.request books position i).operation = i.command.recorded ∧ (t.request books position i).address = i.address ∧
      (t.request books position i).byteCount = i.byteCount ∧ t.arrival ≤ (t.request books position i).arrival := by
  unfold request
  dsimp only
  split
  · exact ⟨rfl, rfl, rfl, le_max_left _ _⟩
  · exact ⟨rfl, rfl, rfl, le_rfl⟩

theorem request_conflicts (books : Completions) (m n : ℕ) (i j : Instruction κ) :
    (t.request books m i).Conflicts (t.request books n j) ↔ i.Clashes j := by
  obtain ⟨ho, ha, hb, -⟩ := request_describes (t := t) books m i
  obtain ⟨ho', ha', hb', -⟩ := request_describes (t := t) books n j
  rw [AccessRequest.Conflicts, AccessRequest.Meets, AccessRequest.stop, AccessRequest.stop, ho, ha, hb, ho', ha', hb']
  rfl

/-- **A request arrives after what conflicts with it and is in the books.** -/
theorem Tracks.le_arrival {books : Completions} {done : List Executed} (h : t.Tracks books done) (htrack : t.trackOverlaps = true)
    {i : Instruction κ} (hi : i ∈ t.instructions) (hflush : i.command ≠ .flush) {x : Executed} (hx : x ∈ done)
    (hstands : t.Stands x) (ho : t.ownerAt x.index = some i.owner) (position : ℕ)
    (hc : x.request.Conflicts (t.request books position i)) : x.completion ≤ (t.request books position i).arrival := by
  have hk := h htrack
  have hmem : x ∈ t.ofOwner i.owner done := List.mem_filter.2 ⟨hx, decide_eq_true ho⟩
  have hin := hstands.within ho
  obtain ⟨hop, -⟩ := request_describes (t := t) books position i
  have hwrite := hc.2
  rw [hop] at hwrite
  have hmeet := hc.1
  unfold request at hmeet ⊢
  simp only [htrack, if_true] at hmeet ⊢
  refine le_trans ?_ (le_max_right _ _)
  split
  · exact (hk.all i.owner).le_query hmem hin (within_of_instruction hi rfl rfl) hmeet
  · next hread =>
    have hxw : x.isWrite = true := decide_eq_true (hwrite.resolve_right fun hw => by
      cases hcmd : i.command with
      | flush => exact hflush hcmd
      | perform operation =>
        rw [hcmd, Command.recorded] at hw
        exact hread (hw ▸ hcmd))
    exact (hk.writes i.owner).le_query (List.mem_filter.2 ⟨hmem, hxw⟩) hin (within_of_instruction hi rfl rfl) hmeet

/-! ## One batch -/

/-- The accesses at these positions, executed after `done`. -/
structure Continues (t : PreparedPhysicalTask κ) (positions : ℕ → Prop) (done run : List Executed) : Prop where
  once : (run.map Executed.index).Nodup ∧ ∀ position, position ∈ run.map Executed.index ↔ positions position
  stands : ∀ x ∈ run, t.Stands x
  ordered : ∀ x ∈ run, ∀ y ∈ run, x.index < y.index → t.Waits x y
  after : ∀ x ∈ done, ∀ y ∈ run, t.Waits x y

/-- An executed access is the request of the task's access at its position. -/
structure Answers (t : PreparedPhysicalTask κ) (books : Completions) (owner : String) (x : Executed) (i : Instruction κ) :
    Prop where
  instruction : t.instructions[x.index]? = some i
  owned : i.owner = owner
  performed : i.command ≠ .flush
  request : x.request = (t.request books x.index i).arriving x.request.arrival
  arrival : (t.request books x.index i).arrival ≤ x.request.arrival

variable {books : Completions} {owner : String} {done : List Executed} {x : Executed} {i : Instruction κ}

theorem Answers.ownerAt (h : t.Answers books owner x i) : t.ownerAt x.index = some owner := by
  rw [PreparedPhysicalTask.ownerAt, h.instruction, Option.map_some, h.owned]

theorem Answers.stands (h : t.Answers books owner x i) : t.Stands x := by
  obtain ⟨hop, haddress, hbytes, harrival⟩ := request_describes (t := t) books x.index i
  refine ⟨i, h.instruction, ?_, ?_, ?_, harrival.trans h.arrival⟩
  · rw [h.request]
    change i.command = .perform (t.request books x.index i).operation
    rw [hop]
    cases hc : i.command with
    | flush => exact absurd hc h.performed
    | perform operation => rfl
  · rw [h.request]
    exact haddress.symm
  · rw [h.request]
    exact hbytes.symm

theorem Answers.after (h : t.Answers books owner x i) (hbooks : t.Tracks books done) {y : Executed} (hy : y ∈ done)
    (hstands : t.Stands y) (hlt : y.index < x.index) : t.Waits y x := by
  intro howner hc
  by_cases htrack : t.trackOverlaps = true
  · rw [h.request, conflicts_arriving] at hc
    refine (hbooks.le_arrival htrack (List.mem_of_getElem? h.instruction) h.performed hy hstands ?_ _ hc).trans h.arrival
    rw [howner, h.ownerAt, h.owned]
  · exact absurd hc (untracked_free (Bool.eq_false_iff.2 htrack) hstands h.stands hlt)

end PreparedPhysicalTask

open PreparedPhysicalTask

variable [DecidableEq κ] (rt : Runtime σ κ) {t : PreparedPhysicalTask κ} {index : ℕ} {first : Instruction κ}
  {rest : List (Instruction κ)} {books : Completions} {done : List Executed}

/-- The requests of a batch are those of consecutive accesses of one owner. -/
theorem batch_requests (books : Completions) (kind : CoreKind) (hdrop : t.instructions.drop index = first :: rest) (hfirst : first.command ≠ .flush) {k : ℕ}
    {r : AccessRequest} (hr : ((places (first :: rt.joined kind first rest)).map fun p => t.request books (index + p.1) p.2)[k]? =
      some r) : ∃ i, t.instructions[index + k]? = some i ∧ i.owner = first.owner ∧ i.command ≠ .flush ∧
        r = t.request books (index + k) i ∧ (first :: rt.joined kind first rest)[k]? = some i := by
  obtain ⟨hpre, hjoins, -⟩ := joined_spec rt kind first rest
  rw [List.getElem?_map, Option.map_eq_some_iff] at hr
  obtain ⟨p, hp, rfl⟩ := hr
  have hk : p.1 = k := by
    obtain ⟨hlt, hp⟩ := List.getElem?_eq_some_iff.1 hp
    rw [← hp]
    simp [places]
  have hin := mem_places (List.mem_of_getElem? hp)
  rw [hk] at hin ⊢
  have hmem : p.2 ∈ first :: rt.joined kind first rest := List.mem_of_getElem? hin
  have hat : (first :: rest)[k]? = some p.2 := by
    obtain ⟨hlt, hk⟩ := List.getElem?_eq_some_iff.1 hin
    rw [← hk]
    exact List.prefix_iff_getElem?.1 (List.cons_prefix_cons.2 ⟨rfl, hpre⟩) k hlt
  rw [← hdrop, List.getElem?_drop] at hat
  rcases List.mem_cons.1 hmem with hf | hj
  · exact ⟨p.2, hat, by rw [hf], by rw [hf]; exact hfirst, rfl, hin⟩
  · exact ⟨p.2, hat, (hjoins hfirst p.2 hj).1, (hjoins hfirst p.2 hj).2, rfl, hin⟩

/-- **A batch continues the execution.** -/
theorem executeBatch_spec (hdrop : t.instructions.drop index = first :: rest) (hfirst : first.command ≠ .flush)
    (hdone : ∀ x ∈ done, t.Stands x ∧ x.index < index) (hbooks : t.Tracks books done) :
    Returns (rt.executeBatch t index first rest books) fun batch => batch.2 ≤ rest.length ∧
      t.Continues (fun position => index ≤ position ∧ position ≤ index + batch.2) done batch.1 ∧
      ∀ x ∈ batch.1, t.ownerAt x.index = some first.owner := by
  refine (Returns.any _).bind fun kind _ => (Returns.any _).bind fun _ _ => ?_
  have hreq := fun {k : ℕ} {r : AccessRequest} => batch_requests rt books kind hdrop hfirst (k := k) (r := r)
  obtain ⟨hpre, -, hfree⟩ := joined_spec rt kind first rest
  have hplaces : (places (first :: rt.joined kind first rest)).length = (rt.joined kind first rest).length + 1 := by
    simp [places]
  dsimp only
  generalize hrequests : (places (first :: rt.joined kind first rest)).map (fun p => t.request books (index + p.1) p.2) =
    requests at hreq ⊢
  have hlen : requests.length = (rt.joined kind first rest).length + 1 := by rw [← hrequests, List.length_map, hplaces]
  have hpair : kind.scheduled = false → requests.Pairwise fun r q => ¬r.Conflicts q := by
    intro hoff
    refine List.pairwise_iff_getElem.2 fun k m hk hm hkm hc => ?_
    obtain ⟨i, -, -, -, hri, hi⟩ := hreq (List.getElem?_eq_getElem hk)
    obtain ⟨j, -, -, -, hrj, hj⟩ := hreq (List.getElem?_eq_getElem hm)
    obtain ⟨hki, hi⟩ := List.getElem?_eq_some_iff.1 hi
    obtain ⟨hmj, hj⟩ := List.getElem?_eq_some_iff.1 hj
    have := List.pairwise_iff_getElem.1 (hfree hoff) k m hki hmj hkm
    rw [hi, hj] at this
    rw [hri, hrj, request_conflicts] at hc
    exact this hc
  refine (submitBatch_orderly hpair).bind fun run hrun => Returns.pure ?_
  have hanswers : ∀ x ∈ run, ∃ i, t.Answers books first.owner { x with index := index + x.index } i := by
    intro x hx
    obtain ⟨r, hr, hsame, harrival⟩ := hrun.same x hx
    obtain ⟨i, hi, ho, hc, rfl, -⟩ := hreq hr
    exact ⟨i, hi, ho, hc, hsame, harrival⟩
  have hindex : (run.map fun x => { x with index := index + x.index }).map Executed.index =
      (run.map Executed.index).map (index + ·) := by
    rw [List.map_map, List.map_map]
    rfl
  have honce := hrun.once.map (index + ·)
  rw [hlen] at honce
  refine ⟨hpre.length_le, ⟨?_, fun x hx => ?_, fun x hx y hy hxy _ hc => ?_, fun x hx y hy => ?_⟩, fun x hx => ?_⟩
  · rw [hindex]
    refine ⟨honce.nodup_iff.2 (List.nodup_range.map fun a b hab => Nat.add_left_cancel hab), fun position => ?_⟩
    rw [honce.mem_iff, List.mem_map]
    constructor
    · rintro ⟨k, hk, rfl⟩
      have := List.mem_range.1 hk
      omega
    · rintro ⟨hle, hle'⟩
      exact ⟨position - index, List.mem_range.2 (by omega), by omega⟩
  · obtain ⟨y, hy, rfl⟩ := List.mem_map.1 hx
    obtain ⟨i, hi⟩ := hanswers y hy
    exact hi.stands
  · obtain ⟨x, hx', rfl⟩ := List.mem_map.1 hx
    obtain ⟨y, hy', rfl⟩ := List.mem_map.1 hy
    exact hrun.ordered x hx' y hy' (Nat.lt_of_add_lt_add_left hxy) hc
  · obtain ⟨y, hy', rfl⟩ := List.mem_map.1 hy
    obtain ⟨i, hi⟩ := hanswers y hy'
    exact hi.after hbooks hx (hdone x hx).1 (Nat.lt_add_right _ (hdone x hx).2)
  · obtain ⟨y, hy, rfl⟩ := List.mem_map.1 hx
    obtain ⟨i, hi⟩ := hanswers y hy
    exact hi.ownerAt

/-! ## The whole task -/

omit [DecidableEq κ] in
theorem PreparedPhysicalTask.Knows.foldl_record {owner : String} : ∀ {run : List Executed} {books : Completions} {done : List Executed},
    t.Knows books done → (∀ x ∈ run, t.Stands x ∧ t.ownerAt x.index = some owner) →
      t.Knows (run.foldl (fun books x => books.record owner x) books) (run.reverse ++ done)
  | [], _, _, h, _ => h
  | x :: run, books, done, h, hrun => by
    have hx := hrun x (by simp)
    rw [List.foldl_cons, List.reverse_cons, List.append_assoc]
    exact Knows.foldl_record (h.record hx.1 hx.2) fun y hy => hrun y (by simp [hy])

omit [DecidableEq κ] in
/-- The results of a batch enter the books. -/
theorem PreparedPhysicalTask.Tracks.record (h : t.Tracks books done) {owner : String} {run : List Executed}
    (hrun : ∀ x ∈ run, t.Stands x ∧ t.ownerAt x.index = some owner) :
    t.Tracks (Runtime.record t owner run books) ((run.insertionSort fun x y => x.index ≤ y.index).reverse ++ done) := by
  intro htrack
  rw [Runtime.record, if_pos htrack]
  exact Knows.foldl_record (h htrack) fun x hx => hrun x ((List.mem_insertionSort _).1 hx)

/-- The accesses from `index` on. -/
theorem executeFrom_spec : ∀ {n index : ℕ} {rest : List (Instruction κ)} {books : Completions} {done : List Executed},
    t.instructions.drop index = rest → rest.length ≤ n → (∀ x ∈ done, t.Stands x ∧ x.index < index) → t.Tracks books done →
      Returns (rt.executeFrom t n index rest books)
        (t.Continues (fun position => index ≤ position ∧ ∃ i, t.instructions[position]? = some i ∧ i.command ≠ .flush) done)
  | n, index, [], books, done, hdrop, _, _, _ => by
    have hnone : t.Continues (fun position => index ≤ position ∧ ∃ i, t.instructions[position]? = some i ∧ i.command ≠ .flush)
        done [] := by
      refine ⟨⟨List.nodup_nil, fun position => ⟨fun h => absurd h List.not_mem_nil, fun ⟨hle, i, hi, _⟩ => ?_⟩⟩, by simp, by simp, by simp⟩
      have := List.drop_eq_nil_iff.1 hdrop
      obtain ⟨hlt, -⟩ := List.getElem?_eq_some_iff.1 hi
      omega
    cases n <;> exact Returns.pure hnone
  | 0, _, _ :: _, _, _, _, hn, _, _ => absurd hn (by simp)
  | n + 1, index, first :: rest, books, done, hdrop, hn, hdone, hbooks => by
    have hfirst : t.instructions[index]? = some first := by
      have := @List.getElem?_drop _ t.instructions index 0
      rw [hdrop] at this
      exact this.symm
    have hnext : ∀ k, t.instructions.drop (index + 1 + k) = rest.drop k := fun k => by
      rw [Nat.add_assoc, ← List.drop_drop, hdrop, Nat.add_comm, List.drop_succ_cons]
    rw [Runtime.executeFrom]
    refine Returns.ite (fun hflush => (Returns.any _).bind fun _ _ => ?_) fun hperform => ?_
    · -- a flush is no access
      refine (executeFrom_spec (hnext 0) (by simpa using hn) (fun x hx => ⟨(hdone x hx).1, by have := (hdone x hx).2; omega⟩)
        hbooks).mono fun run hrun => { hrun with once := ⟨hrun.once.1, fun position => ?_⟩ }
      rw [hrun.once.2 position]
      refine and_congr_left fun ⟨i, hi, hc⟩ => ⟨fun h => by omega, fun h => ?_⟩
      rcases Nat.lt_or_eq_of_le h with h | h
      · omega
      · rw [← h, hfirst] at hi
        exact absurd (Option.some.inj hi ▸ hflush) hc
    · refine (executeBatch_spec rt hdrop hperform hdone hbooks).bind fun batch hbatch => ?_
      obtain ⟨hjoined, hrun, howned⟩ := hbatch
      have hwithin : ∀ x ∈ batch.1, index ≤ x.index ∧ x.index ≤ index + batch.2 := fun x hx =>
        (hrun.once.2 x.index).1 (List.mem_map_of_mem hx)
      have hmem : ∀ x, x ∈ (batch.1.insertionSort fun x y => x.index ≤ y.index).reverse ++ done ↔ x ∈ batch.1 ∨ x ∈ done := by
        intro x
        rw [List.mem_append, List.mem_reverse, List.mem_insertionSort]
      have hlater := executeFrom_spec (n := n) (hnext batch.2)
        (by simp only [List.length_cons, List.length_drop] at hn ⊢; omega)
        (fun x hx => ((hmem x).1 hx).elim (fun hx => ⟨hrun.stands x hx, by have := (hwithin x hx).2; omega⟩)
          fun hx => ⟨(hdone x hx).1, by have := (hdone x hx).2; omega⟩)
        (hbooks.record fun x hx => ⟨hrun.stands x hx, howned x hx⟩)
      refine hlater.bind fun later hlater => Returns.pure ?_
      have hbeyond : ∀ x ∈ later, index + 1 + batch.2 ≤ x.index := fun x hx =>
        ((hlater.once.2 x.index).1 (List.mem_map_of_mem hx)).1
      refine ⟨⟨?_, fun position => ?_⟩, fun x hx => ?_, fun x hx y hy hxy => ?_, fun x hx y hy => ?_⟩
      · rw [List.map_append]
        refine List.nodup_append.2 ⟨hrun.once.1, hlater.once.1, fun a ha b hb => ?_⟩
        have := (hrun.once.2 a).1 ha
        have := (hlater.once.2 b).1 hb
        omega
      · rw [List.map_append, List.mem_append, hlater.once.2]
        constructor
        · rintro (hp | ⟨hle, hperf⟩)
          · obtain ⟨x, hx, rfl⟩ := List.mem_map.1 hp
            obtain ⟨i, hi, hc, -⟩ := hrun.stands x hx
            exact ⟨(hwithin x hx).1, i, hi, by simp [hc]⟩
          · exact ⟨by omega, hperf⟩
        · rintro ⟨hle, hperf⟩
          by_cases hin : position ≤ index + batch.2
          · exact .inl ((hrun.once.2 position).2 ⟨hle, hin⟩)
          · exact .inr ⟨by omega, hperf⟩
      · exact (List.mem_append.1 hx).elim (hrun.stands x) (hlater.stands x)
      · rcases List.mem_append.1 hx with hx | hx
        · rcases List.mem_append.1 hy with hy | hy
          · exact hrun.ordered x hx y hy hxy
          · exact hlater.after x ((hmem x).2 (.inl hx)) y hy
        · rcases List.mem_append.1 hy with hy | hy
          · have := hbeyond x hx
            have := (hwithin y hy).2
            omega
          · exact hlater.ordered x hx y hy hxy
      · rcases List.mem_append.1 hy with hy | hy
        · exact hrun.after x hx y hy
        · exact hlater.after x ((hmem x).2 (.inr hx)) y hy

/-- **In every execution of a task, each access arrives at its core after the
completions of the accesses of its owner before it that it conflicts with.** -/
theorem hazards_respected (t : PreparedPhysicalTask κ) (s s' : σ) (run : List Executed)
    (h : rt.executePreparedPhysicalTask t s = .ok run s') : t.Respects run := by
  have hstart : t.Tracks t.create [] := fun _ => knows_create
  have hrun := executeFrom_spec rt (t := t) (List.drop_zero ..) le_rfl (by simp) hstart s run s' h
  exact ⟨⟨hrun.once.1, fun position => (hrun.once.2 position).trans (by simp)⟩, hrun.stands, hrun.ordered⟩

theorem nineGroups_accepted : Address.nineGroups.validate = .ok () := by decide +kernel

/-- A runtime whose requests take ten each, with the stacks of `nineGroups` as
"hbm" and an SRAM as every other owner. -/
def tenEach : Runtime Unit Unit where
  captureDetails := false
  compiledDramBatch := true
  logicDie _ := false
  core _ := {
    acceptance := fun _ => 0
    inflight := fun _ => []
    channelInflight := fun _ _ => []
    openRow := fun _ _ => none
    schedulerDirection := fun _ => none
    schedulerStreak := fun _ => 0
    submit := fun r => pure (r.arrival + 10)
    submitManyOrdered := fun requests => pure fun i => ((requests[i]?).map AccessRequest.arrival).getD 0 + 10
    executeFrFcfs := fun requests => pure fun i => ((requests[i]?).map AccessRequest.arrival).getD 0 + 10 }
  runtime _ owner :=
    pure (if owner = "hbm" then .dram ⟨Address.nineGroups, 1, 2, nineGroups_accepted, Nat.one_pos, Nat.two_pos⟩ else .sram)
  setStagingScope _ _ := pure ()
  flushStagedPages _ _ _ := pure 0

/-- An access to `width + 1` bytes. -/
def span (operation : Operation) (owner : String) (address width : ℕ) : Instruction Unit :=
  ⟨.perform operation, address, width + 1, owner, (), Nat.succ_pos width⟩

/-- A write, a read of half of it, and a read of as many bytes elsewhere; then
the owner "sram" twice. -/
def twoOwners : PreparedPhysicalTask Unit where
  name := "t"
  arrival := 5
  pageStagingScope := none
  deferPageStaging := false
  instructions := [span .write "hbm" 0 63, span .read "hbm" 32 31, span .read "hbm" 96 31, span .write "sram" 0 7,
    span .write "sram" 4 7]

theorem hazards_respected_twoOwners : ∃ run s', tenEach.executePreparedPhysicalTask twoOwners () = .ok run s' ∧
    run.map (fun x => (x.index, x.request.arrival, x.completion)) =
      [(0, 5, 15), (1, 15, 25), (2, 5, 15), (3, 5, 15), (4, 15, 25)] ∧ twoOwners.Respects run := by
  have hrun : ((tenEach.executePreparedPhysicalTask twoOwners).run' ()).map
      (fun run => run.map fun x => (x.index, x.request.arrival, x.completion)) =
        some [(0, 5, 15), (1, 15, 25), (2, 5, 15), (3, 5, 15), (4, 15, 25)] := by decide +kernel
  rw [EStateM.run', EStateM.run] at hrun
  cases h : tenEach.executePreparedPhysicalTask twoOwners () with
  | error e s' => rw [h] at hrun; cases hrun
  | ok run s' =>
    rw [h] at hrun
    exact ⟨run, s', rfl, Option.some.inj hrun, hazards_respected tenEach twoOwners () s' run h⟩

end HeteroSim.Task
