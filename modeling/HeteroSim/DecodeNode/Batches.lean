/-
The batches of a run, call after call: each is what the one before leaves and
the imports admitted since. From that alone, and from ids that are never
given twice, a request takes part in as many consecutive calls as it has
tokens to decode.
-/
import HeteroSim.DecodeNode.Serving

namespace HeteroSim.DecodeNode

def ids (batch : List ServingRequest) : List ℕ := batch.map ServingRequest.requestId

/-- What a call leaves of its batch: the requests with tokens still to decode. -/
def surviving (batch : List ServingRequest) : List ServingRequest :=
  (batch.filter fun r => r.remainingDecodeTokens ≠ 1).map ServingRequest.advanced

theorem mem_surviving {batch : List ServingRequest} {r : ServingRequest} :
    r ∈ surviving batch ↔ ∃ q ∈ batch, q.remainingDecodeTokens ≠ 1 ∧ q.advanced = r := by
  simp [surviving, and_assoc]

theorem remaining_advanced (r : ServingRequest) : r.advanced.remainingDecodeTokens = r.remainingDecodeTokens - 1 := rfl

theorem ids_surviving (batch : List ServingRequest) : (ids (surviving batch)).Sublist (ids batch) := by
  have heq : ids (surviving batch) = ids (batch.filter fun r => r.remainingDecodeTokens ≠ 1) := by
    simp only [ids, surviving, List.map_map]
    rfl
  rw [heq]
  exact List.filter_sublist.map _

theorem slots_surviving (batch : List ServingRequest) :
    ((surviving batch).map ServingRequest.slotId).Sublist (batch.map ServingRequest.slotId) := by
  have heq : (surviving batch).map ServingRequest.slotId =
      (batch.filter fun r => r.remainingDecodeTokens ≠ 1).map ServingRequest.slotId := by
    simp only [surviving, List.map_map]
    rfl
  rw [heq]
  exact List.filter_sublist.map _

/-- What the calls so far leave to run on, from the requests the run started with. -/
def carried (start : List ServingRequest) (calls : List DecodeCall) : List ServingRequest :=
  match calls.getLast? with
  | none => start
  | some c => surviving c.active

structure Chained (start : List ServingRequest) (calls : List DecodeCall) : Prop where
  batch : ∀ (k : ℕ) (c : DecodeCall), calls[k]? = some c →
    c.active = carried start (calls.take k) ++ c.admissions.map PendingAdmission.request
  named : ∀ c ∈ calls, (ids c.active).Nodup
  decodes : ∀ c ∈ calls, ∀ r ∈ c.active, 1 ≤ r.remainingDecodeTokens
  new : ∀ (j k : ℕ) (c d : DecodeCall), calls[j]? = some c → calls[k]? = some d → j < k → ∀ row ∈ d.admissions,
    row.request.requestId ∉ ids c.active

namespace Chained

variable {start : List ServingRequest} {calls : List DecodeCall}

theorem nil : Chained start [] := ⟨by simp, by simp, by simp, by simp⟩

/-- One more call, of what is carried and admitted. -/
theorem call (h : Chained start calls) {c : DecodeCall}
    (hbatch : c.active = carried start calls ++ c.admissions.map PendingAdmission.request) (hnamed : (ids c.active).Nodup)
    (hdecodes : ∀ r ∈ c.active, 1 ≤ r.remainingDecodeTokens)
    (hnew : ∀ row ∈ c.admissions, ∀ d ∈ calls, row.request.requestId ∉ ids d.active) : Chained start (calls ++ [c]) := by
  have hcases : ∀ k d, (calls ++ [c])[k]? = some d → (k < calls.length ∧ calls[k]? = some d) ∨ (k = calls.length ∧ d = c) := by
    intro k d hd
    rcases Nat.lt_trichotomy k calls.length with hk | hk | hk
    · rw [List.getElem?_append_left hk] at hd
      exact .inl ⟨hk, hd⟩
    · subst hk
      simp only [List.getElem?_concat_length, Option.some.injEq] at hd
      exact .inr ⟨rfl, hd.symm⟩
    · rw [List.getElem?_eq_none (by simpa using hk)] at hd
      cases hd
  refine ⟨fun k d hd => ?_, fun d hd => ?_, fun d hd => ?_, fun j k d e hd he hjk row hrow => ?_⟩
  · rcases hcases k d hd with ⟨hk, hd⟩ | ⟨rfl, rfl⟩
    · rw [List.take_append_of_le_length hk.le]
      exact h.batch k d hd
    · rw [List.take_left]
      exact hbatch
  · rcases List.mem_append.1 hd with hd | hd
    · exact h.named d hd
    · rw [List.mem_singleton.1 hd]
      exact hnamed
  · rcases List.mem_append.1 hd with hd | hd
    · exact h.decodes d hd
    · rw [List.mem_singleton.1 hd]
      exact hdecodes
  · rcases hcases k e he with ⟨hk, he⟩ | ⟨rfl, rfl⟩
    · rw [List.getElem?_append_left (hjk.trans hk)] at hd
      exact h.new j k d e hd he hjk row hrow
    · rw [List.getElem?_append_left hjk] at hd
      exact hnew row hrow d (List.mem_of_getElem? hd)

theorem next (h : Chained start calls) {k : ℕ} {c d : DecodeCall} (hc : calls[k]? = some c) (hd : calls[k + 1]? = some d) :
    d.active = surviving c.active ++ d.admissions.map PendingAdmission.request := by
  have hlast : (calls.take (k + 1)).getLast? = some c := by
    rw [List.take_add_one, hc]
    simp
  have hbatch := h.batch (k + 1) d hd
  rwa [carried, hlast] at hbatch

/-- A request takes part until its tokens are decoded, one fewer each call. -/
theorem takes (h : Chained start calls) {k : ℕ} {c : DecodeCall} {r : ServingRequest} (hc : calls[k]? = some c)
    (hr : r ∈ c.active) : ∀ {i : ℕ} {d : DecodeCall}, i < r.remainingDecodeTokens → calls[k + i]? = some d →
      ∃ q ∈ d.active, q.requestId = r.requestId ∧ q.remainingDecodeTokens + i = r.remainingDecodeTokens
  | 0, d, _, hd => by
    obtain rfl : c = d := Option.some.inj (hc.symm.trans hd)
    exact ⟨r, hr, rfl, rfl⟩
  | i + 1, d, hi, hd => by
    obtain ⟨b, hb⟩ : ∃ b, calls[k + i]? = some b := by
      have hlt := (List.getElem?_eq_some_iff.1 hd).1
      exact ⟨_, List.getElem?_eq_getElem (by omega)⟩
    obtain ⟨q, hq, hid, hremaining⟩ := h.takes hc hr (by omega : i < r.remainingDecodeTokens) hb
    refine ⟨q.advanced, ?_, hid, ?_⟩
    · rw [h.next hb hd]
      exact List.mem_append_left _ (mem_surviving.2 ⟨q, hq, by omega, rfl⟩)
    · rw [remaining_advanced]
      omega

/-- Afterwards it takes part in no call. -/
theorem leaves (h : Chained start calls) {k : ℕ} {c : DecodeCall} {r : ServingRequest} (hc : calls[k]? = some c)
    (hr : r ∈ c.active) : ∀ {i : ℕ} {d : DecodeCall}, calls[k + r.remainingDecodeTokens + i]? = some d →
      r.requestId ∉ ids d.active
  | i, d, hd, hmem => by
    have hpos := h.decodes c (List.mem_of_getElem? hc) r hr
    have hlt := (List.getElem?_eq_some_iff.1 hd).1
    obtain ⟨b, hb⟩ : ∃ b, calls[k + r.remainingDecodeTokens + i - 1]? = some b :=
      ⟨_, List.getElem?_eq_getElem (by omega)⟩
    rw [h.next hb (by rw [← hd]; congr 1; omega), ids, List.map_append] at hmem
    rcases List.mem_append.1 hmem with hmem | hmem
    · obtain ⟨s, hs, hsid⟩ := List.mem_map.1 hmem
      obtain ⟨q, hq, hqremaining, rfl⟩ := mem_surviving.1 hs
      cases i with
      | zero =>
        -- the call before is the request's last: the one of its id there has one token left
        obtain ⟨p, hp, hpid, hpremaining⟩ := h.takes hc hr (i := r.remainingDecodeTokens - 1) (d := b) (by omega)
          (by rw [← hb]; congr 1; omega)
        have hpq : p = q := List.inj_on_of_nodup_map (h.named b (List.mem_of_getElem? hb)) hp hq (hpid.trans hsid.symm)
        subst hpq
        omega
      | succ i =>
        have hqid : q.requestId = r.requestId := hsid
        exact h.leaves hc hr (i := i) (d := b) (by rw [← hb]; congr 1) (hqid ▸ List.mem_map_of_mem hq)
    · obtain ⟨s, hs, hsid⟩ := List.mem_map.1 hmem
      obtain ⟨row, hrow, rfl⟩ := List.mem_map.1 hs
      exact h.new k _ c d hc hd (by omega) row hrow (hsid ▸ List.mem_map_of_mem hr)
termination_by i => i

/-- **A request takes part in exactly its remaining tokens' consecutive calls.** -/
theorem exactly (h : Chained start calls) {k j : ℕ} {c d : DecodeCall} {r : ServingRequest} (hc : calls[k]? = some c)
    (hr : r ∈ c.active) (hd : calls[j]? = some d) (hkj : k ≤ j) :
    r.requestId ∈ ids d.active ↔ j < k + r.remainingDecodeTokens := by
  constructor
  · intro hmem
    by_contra hge
    exact h.leaves hc hr (i := j - (k + r.remainingDecodeTokens)) (d := d) (by rw [← hd]; congr 1; omega) hmem
  · intro hlt
    obtain ⟨q, hq, hid, -⟩ := h.takes hc hr (i := j - k) (d := d) (by omega) (by rw [← hd]; congr 1; omega)
    exact hid ▸ List.mem_map_of_mem hq

/-- An admitted import takes part from the call it is admitted to, in no earlier one. -/
theorem admitted (h : Chained start calls) {k j : ℕ} {c d : DecodeCall} {row : PendingAdmission} (hc : calls[k]? = some c)
    (hrow : row ∈ c.admissions) (hd : calls[j]? = some d) :
    row.request.requestId ∈ ids d.active ↔ k ≤ j ∧ j < k + row.request.remainingDecodeTokens := by
  have hr : row.request ∈ c.active := by
    rw [h.batch k c hc]
    exact List.mem_append_right _ (List.mem_map_of_mem hrow)
  rcases Nat.lt_or_ge j k with hjk | hkj
  · exact iff_of_false (h.new j k d c hd hc hjk row hrow) (by omega)
  · rw [h.exactly hc hr hd hkj]
    simp [hkj]

end Chained

end HeteroSim.DecodeNode
