/-
A batch is all or nothing. Its check walks the sizes its accesses would
remember, so it refuses exactly when the accesses one by one would raise;
in a reachable state an access raises for its size only, so a batch that
passes the check runs to its end.
-/
import HeteroSim.Cache.Order
import HeteroSim.Cache.Rollback

namespace HeteroSim.Cache

/-! ## Lines in every reachable state -/

/-- The lines are sound, and those a rollback would restore. -/
structure Sound (c : CacheState) : Prop where
  lines : LinesSound c
  linked : Linked c
  journal : ∀ t, c.transaction = some t → ∃ c₀, LinesSound c₀ ∧ Linked c₀ ∧ Journal c₀ t.ident c

theorem Sound.init (cfg : CacheConfig) : Sound (.init cfg) := by
  refine ⟨fun k line hk => ?_, ⟨rfl, rfl, rfl⟩, fun t ht => ?_⟩
  · cases hk
  · cases ht

/-- The calls neither open nor close a transaction. -/
theorem closed_edits : Edits fun c => c.transaction = none where
  set k line h := by
    simp only [setLine, recordLine, h]
    split <;> simp [link, attach, h]
  pop k h := by
    simp only [popLine, recordLine, h]
    split <;> simp [unlink, h]
  count _ h := h
  size key v h := by simp only [writeSize, rememberBuffer, h]

/-- What keeps the lines sound and is made of edits keeps all of it. -/
theorem Sound.of_touch {c c' : CacheState} (h : Sound c) (ht : Touch c c') (hlines : LinesSound c') : Sound c' := by
  refine ⟨hlines, linked_edits.touch h.linked ht, fun t hopen => ?_⟩
  cases hc : c.transaction with
  | none =>
    have hclosed : c'.transaction = none := closed_edits.touch hc ht
    rw [hclosed] at hopen
    cases hopen
  | some t₀ =>
    obtain ⟨c₀, hlines₀, hlinked₀, hjournal⟩ := h.journal t₀ hc
    have hlater := (journal_edits c₀ t₀.ident).touch hjournal ht
    obtain ⟨t', hopen', hident, -⟩ := hlater.journal
    rw [hopen] at hopen'
    cases hopen'
    rw [hident]
    exact ⟨c₀, hlines₀, hlinked₀, hlater⟩

theorem LinesSound.access {c : CacheState} (hl : LinesSound c) (a : CacheAccess) :
    wp (access a) (fun _ c' => LinesSound c') (fun _ c' => LinesSound c') c := by
  cases hsize : bufferSize c a with
  | error e =>
    unfold wp
    rw [access_refused hsize]
    exact hl
  | ok size => exact wp_mono (access_order hl hsize) (fun _ _ h => h.lines) fun _ _ hf => hf.elim

theorem LinesSound.accessAll : ∀ (as : List CacheAccess) {c : CacheState}, LinesSound c →
    wp (accessAll as) (fun _ c' => LinesSound c') (fun _ c' => LinesSound c') c
  | [], _, hl => hl
  | a :: as, c, hl => by
    rw [Cache.accessAll, wp_bind]
    refine wp_mono (hl.access a) (fun r c₁ h₁ => ?_) fun _ _ h => h
    rw [wp_bind]
    exact wp_mono (LinesSound.accessAll as h₁) (fun _ _ h₂ => h₂) fun _ _ h => h

theorem LinesSound.touch {c c' : CacheState} (h : Sound c) (ht : Touch c c') : LinesSound c' := by
  cases ht with
  | access a => exact wp_after (h.lines.access a)
  | accessMany as =>
    refine wp_after ?_
    rw [accessMany, wp_bind, wp_get, wp_bind, wp_raise]
    exact ⟨fun _ _ => h.lines.accessAll as, fun _ _ => h.lines⟩
  | flush b g => exact wp_after (wp_mono (flush_order h.lines b g) (fun _ _ hd => hd.lines) fun _ _ he => he ▸ h.lines)
  | discard hd => exact (discardBuffer_order h.lines h.linked hd).2.1

theorem Sound.begin {c : CacheState} (h : Sound c) : Sound (after beginTransaction c) := by
  cases hopen : c.transaction with
  | some t =>
    have hafter : after beginTransaction c = c := by
      simp [after, beginTransaction, bind, EStateM.bind, get, getThe, MonadStateOf.get, EStateM.get, hopen]
      rfl
    rw [hafter]
    exact h
  | none =>
    have hbegin : beginTransaction c = .ok c.nextIdent { c with
        transaction := some ⟨c.nextIdent, [], [], ∅, c.counters⟩, nextIdent := c.nextIdent + 1 } := by
      simp only [beginTransaction, bind, EStateM.bind, get, getThe, MonadStateOf.get, EStateM.get, hopen]
      rfl
    obtain ⟨-, hjournal⟩ := journal_begin h.linked hbegin
    unfold after
    rw [hbegin]
    refine ⟨h.lines, hjournal.linked, fun t ht => ?_⟩
    cases ht
    exact ⟨c, h.lines, h.linked, hjournal⟩

theorem Sound.commit {c : CacheState} (h : Sound c) (ident : Nat) : Sound (after (commitTransaction ident) c) := by
  refine wp_after ?_
  rw [commitTransaction, wp_bind, wp_get]
  split
  · exact ⟨h.lines, ⟨h.linked.next, h.linked.prev, h.linked.index⟩, fun t ht => by cases ht⟩
  · exact h

theorem Sound.rollback {c : CacheState} (h : Sound c) (ident : Nat) : Sound (after (rollbackTransaction ident) c) := by
  have hlinked := (keeps_linked_rollback ident).after h.linked
  revert hlinked
  refine wp_after (I := fun c' => Linked c' → Sound c') ?_
  rw [rollbackTransaction, wp_bind, wp_get]
  split
  · next t hopen =>
    split
    · next hident =>
      obtain ⟨c₀, hlines₀, hlinked₀, hjournal⟩ := h.journal t hopen
      obtain ⟨t', hopen', -, -, hlines, hseen, hsizes⟩ := hjournal.journal
      rw [hopen] at hopen'
      cases hopen'
      intro hlinked
      have hrebuilt := relink_eq c.lines.keys
      refine ⟨fun k line hk => ?_, hlinked, fun t ht => by cases ht⟩
      have hrelines : ∀ s : CacheState, (rebuildLruLinks s).lines = s.lines := fun s => relink_lines _ _ _
      have hreconfig : ∀ s : CacheState, (rebuildLruLinks s).config = s.config := fun s => by
        rw [rebuildLruLinks, relink_eq]
      have hresizes : ∀ s : CacheState, (rebuildLruLinks s).bufferSizes = s.bufferSizes := fun s => by
        rw [rebuildLruLinks, relink_eq]
      change (rebuildLruLinks _).lines.get? k = some line at hk
      change LineSound (rebuildLruLinks _).config (rebuildLruLinks _).bufferSizes k line
      rw [hrelines] at hk
      rw [hreconfig, hresizes]
      change (t.lines.reverse.foldl undoLine c.lines).get? k = some line at hk
      change LineSound c.config (t.buffers.reverse.foldl undoBuffer c.bufferSizes) k line
      rw [hlines] at hk
      rw [hsizes _ hseen, hjournal.config]
      exact hlines₀ k line hk
    · exact fun _ => h
  · exact fun _ => h

theorem Sound.step {c c' : CacheState} (h : Sound c) : Step c c' → Sound c'
  | .touch ht => h.of_touch ht (.touch h ht)
  | .begin _ => h.begin
  | .commit _ ident => h.commit ident
  | .rollback _ ident => h.rollback ident

theorem sound_of_reachable {cfg : CacheConfig} {c : CacheState} (h : Reachable cfg c) : Sound c := by
  induction h with
  | refl => exact .init cfg
  | tail _ hs ih => exact ih.step hs

/-! ## The check of a batch -/

/-- What `_buffer_size` answers, of the size the access would leave remembered. -/
theorem bufferSize_eq {c : CacheState} {a : CacheAccess} {size : Option Nat}
    (h : size = (c.bufferSizes a.bufferKey).getD a.bufferSizeBytes) : bufferSize c a =
      if a.bufferSizeBytes.isSome ∧ size ≠ a.bufferSizeBytes then .error (.state (fixedSizeMessage a))
      else if ∃ s ∈ size, s < a.endBytes then .error (.state "access range exceeds remembered buffer_size_bytes")
      else .ok size := by
  have hinside : checkInside a size = if ∃ s ∈ size, s < a.endBytes then
      .error (.state "access range exceeds remembered buffer_size_bytes") else .ok size := by
    cases size with
    | none => simp [checkInside]
    | some s => simp [checkInside]
  rw [← hinside]
  subst h
  unfold bufferSize
  cases hknown : c.bufferSizes a.bufferKey with
  | none => simp [bind, Except.bind]
  | some known =>
    simp only [bind, Except.bind, Option.getD_some]

/-- The check of the rest of a batch, in the state its first accesses left, answers what its accesses will. -/
theorem checkMany_iff {c : CacheState} (as : List CacheAccess) {sizes : BufferKey → Option (Option Nat)} {d : CacheState}
    (hl : LinesSound d) (hsizes : ∀ k, d.bufferSizes k = (sizes k).or (c.bufferSizes k)) :
    (checkMany c sizes as = .ok () → ∃ rs d', accessAll as d = .ok rs d') ∧
      ∀ e, checkMany c sizes as = .error e → ∃ d', accessAll as d = .error e d' := by
  induction as generalizing sizes d with
  | nil => exact ⟨fun _ => ⟨[], d, rfl⟩, fun e he => by cases he⟩
  | cons a as ih =>
    obtain ⟨size, hsize⟩ : ∃ size, size = (d.bufferSizes a.bufferKey).getD a.bufferSizeBytes := ⟨_, rfl⟩
    have hsame : checkMany c sizes (a :: as) =
        if a.bufferSizeBytes.isSome ∧ size ≠ a.bufferSizeBytes then .error (.state (fixedSizeMessage a))
        else if ∃ s ∈ size, s < a.endBytes then .error (.state "access range exceeds remembered buffer_size_bytes")
        else checkMany c (Function.update sizes a.bufferKey (some size)) as := by
      rw [hsizes] at hsize
      cases hk : sizes a.bufferKey with
      | none =>
        rw [hk, Option.none_or] at hsize
        simp only [checkMany, hk, ← hsize]
      | some s =>
        rw [hk, Option.some_or, Option.getD_some] at hsize
        simp only [checkMany, hk, ← hsize]
    have hbuffer := bufferSize_eq hsize
    rw [hsame]
    by_cases hfixed : a.bufferSizeBytes.isSome ∧ size ≠ a.bufferSizeBytes
    · rw [if_pos hfixed] at hbuffer ⊢
      refine ⟨fun h => (by cases h), fun e he => ⟨d, ?_⟩⟩
      cases he
      simp only [accessAll, bind, EStateM.bind, access_refused hbuffer]
    · rw [if_neg hfixed] at hbuffer ⊢
      by_cases hrange : ∃ s ∈ size, s < a.endBytes
      · rw [if_pos hrange] at hbuffer ⊢
        refine ⟨fun h => (by cases h), fun e he => ⟨d, ?_⟩⟩
        cases he
        simp only [accessAll, bind, EStateM.bind, access_refused hbuffer]
      · rw [if_neg hrange] at hbuffer ⊢
        obtain ⟨r, d₁, hrun, hdone⟩ := wp_total (access_order hl hbuffer)
        have hsizes₁ : ∀ k, d₁.bufferSizes k = (Function.update sizes a.bufferKey (some size) k).or (c.bufferSizes k) := by
          intro k
          rw [hdone.sizes, introduced, ← hsize, Function.update_apply, Function.update_apply]
          split
          · rfl
          · exact hsizes k
        obtain ⟨hok, herror⟩ := ih hdone.lines hsizes₁
        refine ⟨fun h => ?_, fun e he => ?_⟩
        · obtain ⟨rs, d', hrs⟩ := hok h
          refine ⟨r :: rs, d', ?_⟩
          simp only [accessAll, bind, EStateM.bind, hrun, hrs]
          rfl
        · obtain ⟨d', hd'⟩ := herror e he
          refine ⟨d', ?_⟩
          simp only [accessAll, bind, EStateM.bind, hrun, hd']

/-- **A batch is all or nothing.** In any reachable state it raises exactly if its accesses one by one would, and then
changes nothing; otherwise its results and the state it leaves are theirs. -/
theorem access_many_atomic {cfg : CacheConfig} {c : CacheState} (h : Reachable cfg c) (as : List CacheAccess) :
    ((∃ e c', accessMany as c = .error e c') ↔ ∃ e c', accessAll as c = .error e c') ∧
    (∀ e c', accessMany as c = .error e c' → c' = c) ∧
    ∀ rs c', accessMany as c = .ok rs c' ↔ accessAll as c = .ok rs c' := by
  have hnone : ∀ k, c.bufferSizes k = Option.or none (c.bufferSizes k) := fun _ => rfl
  obtain ⟨hok, herror⟩ := checkMany_iff as (sound_of_reachable h).lines hnone
  cases hcheck : checkMany c (fun _ => none) as with
  | ok u =>
    have hmany : accessMany as c = accessAll as c := by
      simp only [accessMany, bind, EStateM.bind, get, getThe, MonadStateOf.get, EStateM.get, hcheck]
      rfl
    obtain ⟨rs, d, hall⟩ := hok hcheck
    rw [hmany]
    refine ⟨.rfl, fun e c' he => ?_, fun _ _ => .rfl⟩
    rw [hall] at he
    cases he
  | error e =>
    have hmany : accessMany as c = .error e c := by
      simp only [accessMany, bind, EStateM.bind, get, getThe, MonadStateOf.get, EStateM.get, hcheck]
      rfl
    obtain ⟨d, hall⟩ := herror e hcheck
    rw [hmany, hall]
    refine ⟨⟨fun _ => ⟨e, d, rfl⟩, fun _ => ⟨e, c, rfl⟩⟩, fun e' c' he => ?_, fun rs c' => ?_⟩
    · cases he
      rfl
    · constructor <;>
        · intro he
          cases he

/-- The second access declares another size than the first would leave remembered. -/
theorem access_many_atomic_sizes : ∃ c, Reachable ⟨8, 4, true, true, by decide, by decide, by decide⟩ c ∧
    (∀ e c', accessMany [⟨"kv", 0, 4, .write, some 6, 0, by decide, by decide, by decide, by decide⟩,
      ⟨"kv", 0, 4, .read, some 8, 0, by decide, by decide, by decide, by decide⟩] c = .error e c' → c' = c) ∧
    ∃ e, accessMany [⟨"kv", 0, 4, .write, some 6, 0, by decide, by decide, by decide, by decide⟩,
      ⟨"kv", 0, 4, .read, some 8, 0, by decide, by decide, by decide, by decide⟩] c = .error e c :=
  ⟨.init _, .refl, (access_many_atomic .refl _).2.1, _, rfl⟩

end HeteroSim.Cache
