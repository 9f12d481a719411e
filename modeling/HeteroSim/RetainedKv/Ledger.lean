/-
What the ledger of retained KV rows keeps over every run of calls, accepted
or raising. The cohort law goes through the rows a set of items has grown
them to (`grown`): it does not depend on the order of the items, and each
commit adds one item to it.
-/
import HeteroSim.RetainedKv.State

namespace HeteroSim.RetainedKv

variable {R S : Type} [DecidableEq R] [DecidableEq S]

theorem require_ok {c : Prop} [Decidable c] {reason : String} {u : Unit} : require c reason = .ok u ↔ c := by
  simp [require]

theorem lookup_ok {κ ν : Type} [DecidableEq κ] {d : Dict κ ν} {key : κ} {v : ν} :
    lookup d key = .ok v ↔ d.get? key = some v := by
  unfold lookup
  split
  · next w hw => simp [hw]
  · next hn => simp [hn]

/-! ## What each call checks -/

/-- Rows the ledger may hold. -/
structure Fits (s : RetainedKVState R S) (rows : Dict S ℤ) : Prop where
  each : ∀ n ∈ rows.values, 0 ≤ n ∧ n ≤ s.slotCapacity
  total : rows.values.sum ≤ s.capacity

namespace RetainedKVState

theorem check_ok {s : RetainedKVState R S} {rows : Dict S ℤ} {u : Unit} :
    s.check rows = .ok u ↔ s.invalidReason = none ∧ Fits s rows := by
  simp only [check, bind_ok, require_ok]
  exact ⟨fun ⟨_, h1, _, h2, h3⟩ => ⟨h1, h2, h3⟩, fun ⟨h1, h2, h3⟩ => ⟨(), h1, (), h2, h3⟩⟩

theorem admitRequest_ok {s s' : RetainedKVState R S} {r : R} (h : s.admitRequest r = .ok s') :
    ∃ slot, s.requestSlots.get? r = some slot ∧ r ∉ s.completed ∧ (∀ owner ∈ s.owners.get? slot, owner = r) ∧
      s' = { s with owners := s.owners.insert slot r } := by
  simp only [admitRequest, bind_ok, require_ok, lookup_ok, Except.ok.injEq] at h
  obtain ⟨_, _, _, ⟨_, hr⟩, slot, hslot, _, howner, rfl⟩ := h
  exact ⟨slot, hslot, hr, howner, rfl⟩

theorem beginPrompt_ok {s s' : RetainedKVState R S} {r : R} (h : s.beginPrompt r = .ok s') :
    ∃ slot, s.requestSlots.get? r = some slot ∧ s.owners.get? slot = some r ∧
      s' = if r ∈ s.prepared then s
        else { s with rows := s.rows.insert slot 0, prepared := insert r s.prepared } := by
  simp only [beginPrompt, bind_ok, require_ok, lookup_ok, Except.ok.injEq] at h
  obtain ⟨_, _, slot, hslot, _, howner, rfl⟩ := h
  exact ⟨slot, hslot, howner, rfl⟩

/-- The item extends what its slot holds: its request owns the slot, which is
prepared and materialized up to the item's context. -/
structure Appends (s : RetainedKVState R S) (rows : Dict S ℤ) (item : Item R) (slot : S) : Prop where
  assigned : s.requestSlots.get? item.request = some slot
  owner : s.owners.get? slot = some item.request
  prepared : item.request ∈ s.prepared
  ordinary : (item.phase = "prefill" ∨ item.phase = "decode") ∧ 0 < item.count
  decode : item.phase ≠ "decode" ∨ item.count = 1
  context : rows.get? slot = some item.context

theorem projectItem_ok {s : RetainedKVState R S} {acc acc' : Dict S ℤ × Finset R} {item : Item R} :
    s.projectItem acc item = .ok acc' ↔ item.request ∉ acc.2 ∧ ∃ slot, s.Appends acc.1 item slot ∧
      acc' = (acc.1.insert slot (item.context + item.count), insert item.request acc.2) := by
  simp only [projectItem, bind_ok, require_ok, lookup_ok, Except.ok.injEq]
  constructor
  · rintro ⟨_, hnew, _, _, slot, hslot, _, ⟨howner, hprep⟩, _, hord, _, hdec, _, hctx, _, rfl, rfl⟩
    exact ⟨hnew, slot, ⟨hslot, howner, hprep, hord, hdec, hctx⟩, rfl⟩
  · rintro ⟨hnew, slot, h, rfl⟩
    exact ⟨(), hnew, (), Dict.mem_keys_of_get? h.assigned, slot, h.assigned, (), ⟨h.owner, h.prepared⟩, (), h.ordinary, (),
      h.decode, item.context, h.context, (), rfl, rfl⟩

theorem projectedRows_ok {s : RetainedKVState R S} {items : List (Item R)} {projected : Dict S ℤ} :
    s.projectedRows items = .ok projected ↔ s.invalidReason = none ∧ Fits s s.rows ∧
      ∃ seen, items.foldlM s.projectItem (s.rows, ∅) = .ok (projected, seen) ∧ Fits s projected := by
  simp only [projectedRows, bind_ok, check_ok, Except.ok.injEq]
  constructor
  · rintro ⟨_, ⟨hv, hs⟩, ⟨rows, seen⟩, hf, _, ⟨_, hp⟩, rfl⟩
    exact ⟨hv, hs, seen, hf, hp⟩
  · rintro ⟨hv, hs, seen, hf, hp⟩
    exact ⟨(), ⟨hv, hs⟩, _, hf, (), ⟨hv, hp⟩, rfl⟩

theorem commit_ok {s s' : RetainedKVState R S} {item : Item R} :
    s.commit item = .ok s' ↔ s.invalidReason = none ∧ Fits s s.rows ∧ ∃ slot, s.Appends s.rows item slot ∧
      Fits s (s.rows.insert slot (item.context + item.count)) ∧
      s' = { s with rows := s.rows.insert slot (item.context + item.count) } := by
  simp only [commit, bind_ok, projectedRows_ok, List.foldlM_cons, List.foldlM_nil, projectItem_ok, Except.ok.injEq]
  constructor
  · rintro ⟨_, ⟨hv, hs, seen, ⟨_, ⟨_, slot, ha, rfl⟩, hp⟩, hf⟩, rfl⟩
    cases hp
    exact ⟨hv, hs, slot, ha, hf, rfl⟩
  · rintro ⟨hv, hs, slot, ha, hf, rfl⟩
    exact ⟨_, ⟨hv, hs, _, ⟨_, ⟨by simp, slot, ha, rfl⟩, rfl⟩, hf⟩, rfl⟩

theorem finish_ok {s s' : RetainedKVState R S} {r : R} (h : s.finish r = .ok s') :
    ∃ slot shape, s.requestSlots.get? r = some slot ∧ s.shapes.get? r = some shape ∧ s.owners.get? slot = some r ∧
      r ∈ s.prepared ∧ s.rows.get? slot = some (shape.1 + shape.2 - 1) ∧
      s' = { s with owners := s.owners.erase slot, completed := insert r s.completed } := by
  simp only [finish, bind_ok, require_ok, lookup_ok, Except.ok.injEq] at h
  obtain ⟨_, _, slot, hslot, shape, hshape, _, ⟨howner, hprep, hrows⟩, rfl⟩ := h
  exact ⟨slot, shape, hslot, hshape, howner, hprep, hrows, rfl⟩

end RetainedKVState

/-- Clearing a slot fits. -/
theorem Fits.insert_zero {s : RetainedKVState R S} {rows : Dict S ℤ} (h : Fits s rows) (hcap : 0 ≤ s.slotCapacity)
    (slot : S) : Fits s (rows.insert slot 0) := by
  constructor
  · intro n hn
    obtain ⟨slot', hg⟩ := Dict.mem_values.1 hn
    rw [Dict.get?_insert] at hg
    split at hg
    · cases hg
      omega
    · exact h.each n (Dict.mem_values.2 ⟨slot', hg⟩)
  · refine le_trans ?_ h.total
    by_cases hk : slot ∈ rows.keys
    · obtain ⟨n, hg⟩ := Dict.mem_keys.1 hk
      have h0 := (h.each n (Dict.mem_values.2 ⟨slot, hg⟩)).1
      rw [(Dict.values_perm hg).sum_eq, (Dict.values_perm (Dict.get?_insert_self rows slot 0)).sum_eq,
        Dict.erase_insert]
      simpa using h0
    · simp [Dict.values, Dict.items_insert_of_not_mem hk]

/-! ## The rows a cohort grows -/

/-- The rows the items add to the slot. -/
def added (s : RetainedKVState R S) (items : List (Item R)) (slot : S) : ℤ :=
  ((items.filter fun item => s.requestSlots.get? item.request = some slot).map Item.count).sum

theorem added_append {s : RetainedKVState R S} (items rest : List (Item R)) (slot : S) :
    added s (items ++ rest) slot = added s items slot + added s rest slot := by simp [added]

theorem added_perm {s : RetainedKVState R S} {items order : List (Item R)} (h : order.Perm items) :
    added s order = added s items := by
  funext slot
  exact ((h.filter _).map _).sum_eq

theorem added_nonneg {s : RetainedKVState R S} {items : List (Item R)} (h : ∀ item ∈ items, 0 < item.count) (slot : S) :
    0 ≤ added s items slot := by
  refine List.sum_nonneg fun n hn => ?_
  obtain ⟨item, hi, rfl⟩ := List.mem_map.1 hn
  exact (h item (List.mem_of_mem_filter hi)).le

theorem added_eq_zero {s : RetainedKVState R S} {items : List (Item R)} {slot : S}
    (h : ∀ item ∈ items, s.requestSlots.get? item.request ≠ some slot) : added s items slot = 0 := by
  have : (items.filter fun item => s.requestSlots.get? item.request = some slot) = [] :=
    List.filter_eq_nil_iff.2 fun item hi => by simpa using h item hi
  rw [added, this]
  rfl

/-- The ledger's rows after the items. -/
def grown (s : RetainedKVState R S) (items : List (Item R)) : Dict S ℤ where
  items := s.rows.items.map fun p => (p.1, p.2 + added s items p.1)
  nodup := by
    rw [List.map_map]
    exact s.rows.nodup

theorem grown_nil {s : RetainedKVState R S} : grown s [] = s.rows :=
  Dict.ext (by simp [grown, added])

theorem keys_grown {s : RetainedKVState R S} (items : List (Item R)) : (grown s items).keys = s.rows.keys := by
  simp [grown, Dict.keys, Function.comp_def]

theorem grown_perm {s : RetainedKVState R S} {items order : List (Item R)} (h : order.Perm items) :
    grown s order = grown s items :=
  Dict.ext (by simp only [grown, added_perm h])

theorem get?_grown {s : RetainedKVState R S} {slot : S} {n : ℤ} (h : s.rows.get? slot = some n) (items : List (Item R)) :
    (grown s items).get? slot = some (n + added s items slot) :=
  Dict.get?_eq_some.2 (List.mem_map.2 ⟨(slot, n), Dict.get?_eq_some.1 h, rfl⟩)

/-- One item more, at a slot the others leave alone. -/
theorem grown_snoc {s : RetainedKVState R S} {items : List (Item R)} {item : Item R} {slot : S}
    (ha : s.Appends s.rows item slot) (hz : added s items slot = 0) :
    (grown s items).insert slot (item.context + item.count) = grown s (items ++ [item]) := by
  have hin : slot ∈ (grown s items).keys := by
    rw [keys_grown]
    exact Dict.mem_keys_of_get? ha.context
  refine Dict.ext ?_
  rw [Dict.items_insert_of_mem hin]
  simp only [grown, List.map_map]
  refine List.map_congr_left fun p hp => ?_
  have hsingle : added s [item] p.1 = if p.1 = slot then item.count else 0 := by
    by_cases h : p.1 = slot
    · simp [added, ha.assigned, h]
    · simp [added, ha.assigned, h, Ne.symm h]
  by_cases hs : p.1 = slot
  · have hctx : p.2 = item.context := by
      have := Dict.get?_eq_some.2 (show (slot, p.2) ∈ s.rows.items from hs ▸ hp)
      rw [ha.context] at this
      exact (Option.some.inj this).symm
    simp only [Function.comp_apply, hs, if_true, added_append, hz, hctx]
    rw [← hs, hsingle, if_pos hs]
    simp
  · simp only [Function.comp_apply, hs, if_false, added_append, hsingle, add_zero]

/-- What fits after all the items fits after some of them. -/
theorem Fits.grown_prefix {s : RetainedKVState R S} {items : List (Item R)} (hs : Fits s s.rows) (rest : List (Item R))
    (hpos : ∀ item ∈ items ++ rest, 0 < item.count) (h : Fits s (grown s (items ++ rest))) : Fits s (grown s items) := by
  have h0 := added_nonneg (s := s) fun item hi => hpos item (List.mem_append_left _ hi)
  have hle : ∀ slot, added s items slot ≤ added s (items ++ rest) slot := fun slot => by
    have hrest : 0 ≤ added s rest slot := added_nonneg (fun item hi => hpos item (List.mem_append_right _ hi)) slot
    rw [added_append]
    omega
  constructor
  · intro n hn
    simp only [grown, Dict.values, List.map_map, List.mem_map, Function.comp_apply] at hn
    obtain ⟨p, hp, rfl⟩ := hn
    have h1 := hs.each p.2 (List.mem_map_of_mem hp)
    have h2 := h.each (p.2 + added s (items ++ rest) p.1)
      (by simpa [grown, Dict.values] using ⟨p.1, p.2, hp, rfl⟩)
    have h3 := h0 p.1
    have h4 := hle p.1
    omega
  · refine le_trans ?_ h.total
    simp only [grown, Dict.values, List.map_map]
    exact List.sum_le_sum fun p _ => by have := hle p.1; simp only [Function.comp_apply]; omega

/-! ## A cohort commits in any order -/

/-- Items of other requests leave the item's slot alone. -/
theorem added_others {s : RetainedKVState R S} {items : List (Item R)} {rows : Dict S ℤ} {item : Item R} {slot : S}
    (ha : s.Appends rows item slot) (hother : item.request ∉ items.map Item.request)
    (hitems : ∀ other ∈ items, ∃ slot', s.Appends s.rows other slot') : added s items slot = 0 := by
  refine added_eq_zero fun other ho he => ?_
  obtain ⟨slot', h⟩ := hitems other ho
  have hs : slot' = slot := by
    have := h.assigned
    rw [he] at this
    exact (Option.some.inj this).symm
  have hr : some other.request = some item.request := by rw [← h.owner, hs, ha.owner]
  exact hother (Option.some.inj hr ▸ List.mem_map_of_mem ho)

/-- A cohort the projection has taken: distinct requests, each extending what
its slot holds. -/
structure Cohort (s : RetainedKVState R S) (items : List (Item R)) : Prop where
  requests : (items.map Item.request).Nodup
  appends : ∀ item ∈ items, ∃ slot, s.Appends s.rows item slot

theorem Cohort.perm {s : RetainedKVState R S} {items order : List (Item R)} (h : Cohort s items)
    (hp : order.Perm items) : Cohort s order :=
  ⟨(hp.map _).nodup_iff.2 h.requests, fun item hi => h.appends item (hp.mem_iff.1 hi)⟩

/-- The next item of a cohort finds its slot as the ledger has it. -/
theorem Cohort.next {s : RetainedKVState R S} {items rest : List (Item R)} {item : Item R}
    (h : Cohort s (items ++ item :: rest)) :
    ∃ slot, s.Appends s.rows item slot ∧ added s items slot = 0 := by
  obtain ⟨slot, ha⟩ := h.appends item (by simp)
  have hn := h.requests
  rw [List.map_append, List.map_cons, List.nodup_append] at hn
  exact ⟨slot, ha, added_others ha (fun hm => hn.2.2 _ hm _ (by simp) rfl) fun other ho => h.appends other (by simp [ho])⟩

theorem Cohort.count_pos {s : RetainedKVState R S} {items : List (Item R)} (h : Cohort s items) :
    ∀ item ∈ items, 0 < item.count := fun item hi => by
  obtain ⟨slot, ha⟩ := h.appends item hi
  exact ha.ordinary.2

/-- The projection's loop, from the items already taken. -/
theorem foldlM_projectItem {s : RetainedKVState R S} {rest : List (Item R)} {acc : Dict S ℤ × Finset R} :
    ∀ {items : List (Item R)}, Cohort s items →
    rest.foldlM s.projectItem (grown s items, (items.map Item.request).toFinset) = .ok acc →
    Cohort s (items ++ rest) ∧ acc.1 = grown s (items ++ rest) := by
  induction rest with
  | nil =>
    intro items h hf
    simp only [List.foldlM_nil, pure, Except.pure, Except.ok.injEq] at hf
    subst hf
    simpa using h
  | cons item rest ih =>
    intro items h hf
    rw [List.foldlM_cons, bind_ok] at hf
    obtain ⟨mid, hmid, hf⟩ := hf
    obtain ⟨hnew, slot, ha, rfl⟩ := RetainedKVState.projectItem_ok.1 hmid
    have hnot : item.request ∉ items.map Item.request := by simpa using hnew
    have hz := added_others ha hnot h.appends
    -- the item's slot still holds what the ledger has
    have hctx : s.rows.get? slot = some item.context := by
      obtain ⟨n, hn⟩ := Dict.mem_keys.1 (keys_grown (s := s) items ▸ Dict.mem_keys_of_get? ha.context)
      have := ha.context
      rw [get?_grown hn, hz, add_zero] at this
      rw [hn, this]
    have ha' : s.Appends s.rows item slot := { ha with context := hctx }
    have hc : Cohort s (items ++ [item]) := by
      constructor
      · simp only [List.map_append, List.map_cons, List.map_nil]
        exact List.nodup_append.2 ⟨h.requests, by simp, by simpa using hnot⟩
      · intro other ho
        rcases List.mem_append.1 ho with ho | ho
        · exact h.appends other ho
        · rw [List.mem_singleton.1 ho]
          exact ⟨slot, ha'⟩
    have hseen : insert item.request (items.map Item.request).toFinset = ((items ++ [item]).map Item.request).toFinset := by
      ext r
      simp
    rw [grown_snoc ha' hz, hseen] at hf
    have := ih hc hf
    rwa [List.append_assoc] at this

/-- The projection is the rows the cohort grows. -/
theorem projectedRows_grown {s : RetainedKVState R S} {items : List (Item R)} {projected : Dict S ℤ}
    (h : s.projectedRows items = .ok projected) :
    s.invalidReason = none ∧ Fits s s.rows ∧ Cohort s items ∧ projected = grown s items ∧ Fits s (grown s items) := by
  obtain ⟨hv, hs, seen, hf, hp⟩ := RetainedKVState.projectedRows_ok.1 h
  have h0 : Cohort s [] := ⟨by simp, by simp⟩
  have : Cohort s ([] ++ items) ∧ projected = grown s ([] ++ items) :=
    foldlM_projectItem h0 (by rw [grown_nil]; exact hf)
  rw [List.nil_append] at this
  exact ⟨hv, hs, this.1, this.2, this.2 ▸ hp⟩

/-- One commit on the way. -/
theorem commit_grown {s : RetainedKVState R S} {items rest : List (Item R)} {item : Item R}
    (hv : s.invalidReason = none) (hs : Fits s s.rows) (hc : Cohort s (items ++ item :: rest))
    (hf : Fits s (grown s (items ++ item :: rest))) :
    RetainedKVState.commit { s with rows := grown s items } item = .ok { s with rows := grown s (items ++ [item]) } := by
  obtain ⟨slot, ha, hz⟩ := hc.next
  have hfirst := hs.grown_prefix _ hc.count_pos hf
  have hthen : Fits s (grown s (items ++ [item])) :=
    hs.grown_prefix rest (by simpa using hc.count_pos) (by simpa using hf)
  refine RetainedKVState.commit_ok.2 ⟨hv, ⟨hfirst.each, hfirst.total⟩, slot, ?_, ?_, ?_⟩
  · exact { ha with context := by rw [get?_grown ha.context, hz, add_zero] }
  · rw [grown_snoc ha hz]
    exact ⟨hthen.each, hthen.total⟩
  · rw [grown_snoc ha hz]

/-- **A projected cohort commits item by item, in any order**, up to the
projection. -/
theorem foldlM_commit {s : RetainedKVState R S} {all order : List (Item R)}
    (hv : s.invalidReason = none) (hs : Fits s s.rows) (hc : Cohort s all) (hf : Fits s (grown s all)) :
    ∀ items : List (Item R), (items ++ order).Perm all →
    order.foldlM RetainedKVState.commit ({ s with rows := grown s items } : RetainedKVState R S) =
      .ok { s with rows := grown s all } := by
  induction order with
  | nil =>
    intro items hp
    rw [List.append_nil] at hp
    rw [List.foldlM_nil, grown_perm hp]
    rfl
  | cons item order ih =>
    intro items hp
    rw [List.foldlM_cons, commit_grown hv hs (hc.perm hp) (grown_perm (s := s) hp ▸ hf)]
    exact ih _ (by simpa using hp)

/-! ## Rows since a prompt -/

theorem rowsSince_snoc {r : R} {accepted : List (Call R)} (h : .beginPrompt r ∈ accepted) (call : Call R) :
    rowsSince r (accepted ++ [call]) = rowsSince r accepted + call.rowsFor r := by
  have hne : (accepted.dropWhile (· ≠ .beginPrompt r)).isEmpty = false := by
    rw [Bool.eq_false_iff, ne_eq, List.isEmpty_iff, List.dropWhile_eq_nil_iff]
    intro hall
    simpa using hall _ h
  rw [rowsSince, List.dropWhile_append, hne, rowsSince]
  simp

theorem rowsSince_begin {r : R} {accepted : List (Call R)} (h : .beginPrompt r ∉ accepted) :
    rowsSince r (accepted ++ [.beginPrompt r]) = 0 := by
  have hnil : accepted.dropWhile (· ≠ .beginPrompt r) = [] :=
    List.dropWhile_eq_nil_iff.2 fun c hc => by
      have : c ≠ .beginPrompt r := by
        rintro rfl
        exact h hc
      simpa using this
  rw [rowsSince, List.dropWhile_append, hnil]
  simp [Call.rowsFor]

/-! ## The invariant -/

/-- What holds of the ledger and the calls it has accepted. -/
structure Sound (init : RetainedKVState R S) (x : Reached R S) : Prop where
  slotCapacity : x.state.slotCapacity = init.slotCapacity
  capacity : x.state.capacity = init.capacity
  slots : x.state.requestSlots = init.requestSlots
  shapes : x.state.shapes = init.shapes
  fits : Fits x.state x.state.rows
  assigned : ∀ slot r, x.state.owners.get? slot = some r → x.state.requestSlots.get? r = some slot ∧ r ∉ x.state.completed
  prompted : ∀ r, r ∈ x.state.prepared ↔ .beginPrompt r ∈ x.accepted
  owning : ∀ r ∈ x.state.prepared, r ∉ x.state.completed → ∃ slot, x.state.owners.get? slot = some r
  materialized : ∀ slot r, x.state.owners.get? slot = some r → r ∈ x.state.prepared →
    x.state.rows.get? slot = some (rowsSince r x.accepted)

namespace Sound

variable {init : RetainedKVState R S} {s s' : RetainedKVState R S} {accepted : List (Call R)}

theorem admitRequest {r : R} (h : Sound init ⟨s, accepted⟩) (hs : s.admitRequest r = .ok s') :
    Sound init ⟨s', accepted ++ [.admitRequest r]⟩ := by
  obtain ⟨slot, hslot, hr, hfree, rfl⟩ := RetainedKVState.admitRequest_ok hs
  refine { h with fits := ⟨h.fits.each, h.fits.total⟩, assigned := ?_, prompted := ?_, owning := ?_, materialized := ?_ }
  · intro slot' r' ho
    rw [Dict.get?_insert] at ho
    split at ho
    · next he => cases ho; exact ⟨he ▸ hslot, hr⟩
    · exact h.assigned slot' r' ho
  · intro r'
    simpa using h.prompted r'
  · intro r' hp hc
    obtain ⟨slot', ho⟩ := h.owning r' hp hc
    by_cases he : slot' = slot
    · have : r' = r := hfree r' (he ▸ ho)
      exact ⟨slot, by simp [this]⟩
    · exact ⟨slot', by rw [Dict.get?_insert_of_ne _ _ he]; exact ho⟩
  · intro slot' r' ho hp
    -- a prepared request in the slot owned it before
    have hbefore : s.owners.get? slot' = some r' := by
      rw [Dict.get?_insert] at ho
      split at ho
      · next he =>
        cases ho
        obtain ⟨slot'', ho'⟩ := h.owning r hp hr
        have := (h.assigned slot'' r ho').1
        rw [show s.requestSlots.get? r = some slot from hslot] at this
        cases this
        rw [he]
        exact ho'
      · exact ho
    rw [rowsSince_snoc ((h.prompted r').1 hp)]
    simpa [Call.rowsFor] using h.materialized slot' r' hbefore hp

/-- A call that leaves the rows, owners and marks alone. -/
theorem skip (h : Sound init ⟨s, accepted⟩) (call : Call R) (hcall : ∀ r, call.rowsFor r = 0)
    (hbegin : ∀ r, call = .beginPrompt r → r ∈ s.prepared) : Sound init ⟨s, accepted ++ [call]⟩ := by
  refine { h with prompted := ?_, materialized := ?_ }
  · intro r
    rw [List.mem_append, List.mem_singleton]
    exact ⟨fun hp => .inl ((h.prompted r).1 hp), fun hp => hp.elim (h.prompted r).2 fun he => hbegin r he.symm⟩
  · intro slot r ho hp
    rw [rowsSince_snoc ((h.prompted r).1 hp), hcall, add_zero]
    exact h.materialized slot r ho hp

theorem beginPrompt {r : R} (hcap : 0 ≤ init.slotCapacity) (h : Sound init ⟨s, accepted⟩) (hs : s.beginPrompt r = .ok s') :
    Sound init ⟨s', accepted ++ [.beginPrompt r]⟩ := by
  obtain ⟨slot, hslot, howner, rfl⟩ := RetainedKVState.beginPrompt_ok hs
  by_cases hp : r ∈ s.prepared
  · rw [if_pos hp]
    exact h.skip _ (fun _ => rfl) fun r' he => by cases he; exact hp
  rw [if_neg hp]
  refine { h with fits := ?_, prompted := ?_, owning := ?_, materialized := ?_ }
  · have := h.fits.insert_zero (hcap.trans_eq h.slotCapacity.symm) slot
    exact ⟨this.each, this.total⟩
  · intro r'
    have := h.prompted r'
    simp only [Finset.mem_insert, List.mem_append, List.mem_singleton, Call.beginPrompt.injEq] at this ⊢
    tauto
  · intro r' hp' hc
    rcases Finset.mem_insert.1 hp' with rfl | hp'
    · exact ⟨slot, howner⟩
    · exact h.owning r' hp' hc
  · intro slot' r' ho hp'
    by_cases he : r' = r
    · subst he
      have hsame : slot' = slot := by
        have := (h.assigned slot' r' ho).1
        rw [show s.requestSlots.get? r' = some slot from hslot] at this
        exact (Option.some.inj this).symm
      rw [hsame, rowsSince_begin fun hb => hp ((h.prompted r').2 hb)]
      simp
    · have hne : slot' ≠ slot := by
        rintro rfl
        rw [show s.owners.get? slot' = some r from howner] at ho
        exact he (Option.some.inj ho).symm
      have hp' : r' ∈ s.prepared := (Finset.mem_insert.1 hp').resolve_left he
      rw [Dict.get?_insert_of_ne _ _ hne, rowsSince_snoc ((h.prompted r').1 hp')]
      simpa [Call.rowsFor] using h.materialized slot' r' ho hp'

theorem commit {item : Item R} (h : Sound init ⟨s, accepted⟩) (hs : s.commit item = .ok s') :
    Sound init ⟨s', accepted ++ [.commit item]⟩ := by
  obtain ⟨_, _, slot, ha, hf, rfl⟩ := RetainedKVState.commit_ok.1 hs
  refine { h with fits := ⟨hf.each, hf.total⟩, prompted := ?_, materialized := ?_ }
  · intro r
    simpa using h.prompted r
  · intro slot' r ho hp
    rw [rowsSince_snoc ((h.prompted r).1 hp)]
    by_cases he : slot' = slot
    · subst he
      rw [show s.owners.get? slot' = some item.request from ha.owner] at ho
      cases ho
      have := h.materialized slot' item.request ha.owner hp
      rw [show s.rows.get? slot' = some item.context from ha.context] at this
      simp [Call.rowsFor, Option.some.inj this]
    · have hr : item.request ≠ r := by
        rintro rfl
        have := (h.assigned slot' item.request ho).1
        rw [show s.requestSlots.get? item.request = some slot from ha.assigned] at this
        exact he (Option.some.inj this).symm
      rw [Dict.get?_insert_of_ne _ _ he]
      simpa [Call.rowsFor, hr] using h.materialized slot' r ho hp

theorem finish {r : R} (h : Sound init ⟨s, accepted⟩) (hs : s.finish r = .ok s') :
    Sound init ⟨s', accepted ++ [.finish r]⟩ := by
  obtain ⟨slot, _, hslot, _, howner, _, _, rfl⟩ := RetainedKVState.finish_ok hs
  have hold : ∀ {slot' r'}, (s.owners.erase slot).get? slot' = some r' → slot' ≠ slot ∧ s.owners.get? slot' = some r' := by
    intro slot' r' ho
    rw [Dict.get?_erase] at ho
    split at ho
    · cases ho
    · next he => exact ⟨he, ho⟩
  refine { h with fits := ⟨h.fits.each, h.fits.total⟩, assigned := ?_, prompted := ?_, owning := ?_, materialized := ?_ }
  · intro slot' r' ho
    obtain ⟨hne, ho⟩ := hold ho
    obtain ⟨h1, h2⟩ := h.assigned slot' r' ho
    refine ⟨h1, fun hc => ?_⟩
    rcases Finset.mem_insert.1 hc with rfl | hc
    · rw [show s.requestSlots.get? r' = some slot from hslot] at h1
      exact hne (Option.some.inj h1).symm
    · exact h2 hc
  · intro r'
    simpa using h.prompted r'
  · intro r' hp hc
    rw [Finset.mem_insert, not_or] at hc
    obtain ⟨slot', ho⟩ := h.owning r' hp hc.2
    refine ⟨slot', ?_⟩
    rw [Dict.get?_erase_of_ne]
    · exact ho
    · rintro rfl
      rw [show s.owners.get? slot' = some r from howner] at ho
      exact hc.1 (Option.some.inj ho).symm
  · intro slot' r' ho hp
    rw [rowsSince_snoc ((h.prompted r').1 hp)]
    simpa [Call.rowsFor] using h.materialized slot' r' (hold ho).2 hp

end Sound

/-- A call's step. -/
theorem Sound.exec {init : RetainedKVState R S} {x : Reached R S} (hcap : 0 ≤ init.slotCapacity) (h : Sound init x)
    (call : Call R) : Sound init (exec x call) := by
  unfold RetainedKv.exec
  split
  · next s' hs =>
    cases call with
    | admitRequest r => exact h.admitRequest hs
    | beginPrompt r => exact h.beginPrompt hcap hs
    | projectedRows items =>
      cases hp : x.state.projectedRows items with
      | error e => rw [perform, hp] at hs; cases hs
      | ok rows =>
        rw [perform, hp] at hs
        cases hs
        exact h.skip _ (fun _ => rfl) fun _ he => by cases he
    | commit item => exact h.commit hs
    | finish r => exact h.finish hs
    | markInvalid reason =>
      cases hs
      have := h.skip (.markInvalid reason) (fun _ => rfl) fun _ he => by cases he
      exact { this with fits := ⟨this.fits.each, this.fits.total⟩ }
  · exact h

theorem Sound.run {init : RetainedKVState R S} (hcap : 0 ≤ init.slotCapacity) (h : Sound init ⟨init, []⟩)
    (calls : List (Call R)) : Sound init (run init calls) := by
  unfold RetainedKv.run
  generalize (⟨init, []⟩ : Reached R S) = x at h
  induction calls generalizing x with
  | nil => exact h
  | cons call calls ih => exact ih _ (h.exec hcap call)

theorem new_sound {rows : Dict S ℤ} {requestSlots : Dict R S} {shapes : Dict R (ℤ × ℤ)} {slotCapacity capacity : ℤ}
    {init : RetainedKVState R S} (h : RetainedKVState.new rows requestSlots shapes slotCapacity capacity = .ok init) :
    init.slotCapacity = slotCapacity ∧ init.capacity = capacity ∧ init.requestSlots = requestSlots ∧
      init.shapes = shapes ∧ Sound init ⟨init, []⟩ := by
  simp only [RetainedKVState.new, bind_ok, RetainedKVState.check_ok, Except.ok.injEq] at h
  obtain ⟨_, ⟨_, hfits⟩, rfl⟩ := h
  exact ⟨rfl, rfl, rfl, rfl, rfl, rfl, rfl, rfl, hfits, by simp, by simp, by simp, by simp⟩

/-- What a call changes the rows of: a slot whose owner begins its prompt, or
commits. -/
theorem rows_change {s s' : RetainedKVState R S} {call : Call R} (h : perform s call = .ok s') {slot : S}
    (hne : s'.rows.get? slot ≠ s.rows.get? slot) :
    ∃ r, s.owners.get? slot = some r ∧ (call = .beginPrompt r ∨ ∃ item, call = .commit item ∧ item.request = r) := by
  cases call with
  | admitRequest r =>
    obtain ⟨_, _, _, _, rfl⟩ := RetainedKVState.admitRequest_ok h
    exact absurd rfl hne
  | beginPrompt r =>
    obtain ⟨slot', _, howner, rfl⟩ := RetainedKVState.beginPrompt_ok h
    split at hne
    · exact absurd rfl hne
    · by_cases he : slot = slot'
      · exact ⟨r, he ▸ howner, .inl rfl⟩
      · exact absurd (Dict.get?_insert_of_ne _ _ he) hne
  | projectedRows items =>
    cases hp : s.projectedRows items with
    | error e => rw [perform, hp] at h; cases h
    | ok rows =>
      rw [perform, hp] at h
      cases h
      exact absurd rfl hne
  | commit item =>
    obtain ⟨_, _, slot', ha, _, rfl⟩ := RetainedKVState.commit_ok.1 h
    by_cases he : slot = slot'
    · exact ⟨item.request, he ▸ ha.owner, .inr ⟨item, rfl, rfl⟩⟩
    · exact absurd (Dict.get?_insert_of_ne _ _ he) hne
  | finish r =>
    obtain ⟨_, _, _, _, _, _, _, rfl⟩ := RetainedKVState.finish_ok h
    exact absurd rfl hne
  | markInvalid reason =>
    cases h
    exact absurd rfl hne

/-- **The ledger is sound.** In every state any calls reach, a slot's owner is
a request assigned to it, so a request owns no other slot; rows stay within
the slots and the capacity, and change only at a slot whose owner begins its
prompt or commits; a projected cohort commits item by item in any order up to
the projection; and a request finishes only after `P + O - 1` rows were
committed since its prompt began. -/
theorem ledger_sound {rows : Dict S ℤ} {requestSlots : Dict R S} {shapes : Dict R (ℤ × ℤ)} {slotCapacity capacity : ℤ}
    {init : RetainedKVState R S} (h : RetainedKVState.new rows requestSlots shapes slotCapacity capacity = .ok init)
    (hcap : 0 ≤ slotCapacity) (calls : List (Call R)) :
    (∀ slot r, (run init calls).state.owners.get? slot = some r → requestSlots.get? r = some slot) ∧
    (∀ n ∈ (run init calls).state.rows.values, 0 ≤ n ∧ n ≤ slotCapacity) ∧
    (run init calls).state.rows.values.sum ≤ capacity ∧
    (∀ call s', perform (run init calls).state call = .ok s' →
      ∀ slot, s'.rows.get? slot ≠ (run init calls).state.rows.get? slot →
      ∃ r, (run init calls).state.owners.get? slot = some r ∧
        (call = .beginPrompt r ∨ ∃ item, call = .commit item ∧ item.request = r)) ∧
    (∀ (items : List (Item R)) projected, (run init calls).state.projectedRows items = .ok projected →
      ∀ order : List (Item R), order.Perm items →
      order.foldlM RetainedKVState.commit (run init calls).state =
        .ok { (run init calls).state with rows := projected }) ∧
    (∀ r s', (run init calls).state.finish r = .ok s' →
      ∃ shape, shapes.get? r = some shape ∧ rowsSince r (run init calls).accepted = shape.1 + shape.2 - 1) := by
  obtain ⟨rfl, rfl, rfl, rfl, h0⟩ := new_sound h
  have hx := h0.run hcap calls
  generalize run init calls = x at hx ⊢
  refine ⟨fun slot r ho => hx.slots ▸ (hx.assigned slot r ho).1, fun n hn => hx.slotCapacity ▸ hx.fits.each n hn,
    hx.capacity ▸ hx.fits.total, fun call s' hs slot hne => rows_change hs hne, ?_, ?_⟩
  · intro items projected hp order horder
    obtain ⟨hv, hs, hc, rfl, hf⟩ := projectedRows_grown hp
    have := foldlM_commit hv hs hc hf [] (by simpa using horder)
    rwa [grown_nil] at this
  · intro r s' hs
    obtain ⟨slot, shape, _, hshape, howner, hprep, hrows, _⟩ := RetainedKVState.finish_ok hs
    refine ⟨shape, hx.shapes ▸ hshape, ?_⟩
    rw [hx.materialized slot r howner hprep] at hrows
    exact Option.some.inj hrows

/-- Two slots with old rows, one request for each. -/
def twoSlots : RetainedKVState ℕ ℕ where
  rows := ⟨[(0, 5), (1, 3)], by decide⟩
  requestSlots := ⟨[(10, 0), (11, 1)], by decide⟩
  shapes := ⟨[(10, (2, 2)), (11, (3, 1))], by decide⟩
  slotCapacity := 8
  capacity := 9
  owners := .empty
  prepared := ∅
  completed := ∅
  invalidReason := none

/-- Both begin, and one commits all its rows. -/
def served : List (Call ℕ) :=
  [.admitRequest 10, .admitRequest 11, .beginPrompt 10, .commit ⟨11, "prefill", 0, 3⟩, .beginPrompt 11, .commit ⟨10, "prefill", 0, 2⟩,
    .commit ⟨10, "decode", 2, 1⟩]

theorem ledger_sound_served :
    (run twoSlots served).state.rows.values.sum ≤ 9 ∧ ((run twoSlots served).state.finish 10).isOk = true ∧
      rowsSince 10 (run twoSlots served).accepted = 2 + 2 - 1 := by
  have hnew : RetainedKVState.new twoSlots.rows twoSlots.requestSlots twoSlots.shapes 8 9 = .ok twoSlots := by rfl
  obtain ⟨_, _, htotal, _, _, hfinish⟩ := ledger_sound hnew (by decide) served
  have hok : ((run twoSlots served).state.finish 10).isOk = true := by decide +kernel
  refine ⟨htotal, hok, ?_⟩
  cases hs : (run twoSlots served).state.finish 10 with
  | error e =>
    rw [hs] at hok
    cases hok
  | ok s' =>
    obtain ⟨shape, hshape, hrows⟩ := hfinish 10 s' hs
    cases hshape
    exact hrows

end HeteroSim.RetainedKv
