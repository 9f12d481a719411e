/-
The scopes of the page staging. A page listed in a scope should be full and
its program not started. That holds as long as no write programs a listed
page (it is not kept by admission, or no scope is set when it fills again)
and no flush takes up a page that another scope lists too; a discard takes
its pages out of every scope, a flush or a write does not.
-/
import HeteroSim.Nand.Capacity

namespace HeteroSim.Nand

variable {cfg : NandConfig} {defer : Option String} {E W : ℕ → Prop}

def ListedIn (i : Image) (scope : String) (page : ℕ) : Prop := page ∈ (i.scopes scope).getD ∅

def Listed (i : Image) (page : ℕ) : Prop := ∃ scope, ListedIn i scope page

/-- All of the page's bytes are valid, and its program has not started. -/
def Whole (cfg : NandConfig) (entry : TailEntry) : Prop :=
  entry.ranges = [Gap.mk 0 cfg.pageBytes] ∧ entry.flush = none

/-- Every listed page waits, full, for its scope's flush. -/
def Waiting (cfg : NandConfig) (i : Image) : Prop :=
  ∀ page, Listed i page → ∃ entry, i.pages page = some entry ∧ Whole cfg entry

/-! ## What an edit lists -/

theorem listed_insert {i : Image} {scope : String} {page q : ℕ} {pages : ℕ → Option TailEntry} {valid : ℕ → Int}
    (h : Listed ⟨pages, Function.update i.scopes scope (some (insert page ((i.scopes scope).getD ∅))), valid⟩ q) :
    q = page ∨ Listed i q := by
  obtain ⟨other, hq⟩ := h
  by_cases ho : other = scope
  · subst ho
    simp only [ListedIn, Function.update_self, Option.getD_some, Finset.mem_insert] at hq
    exact hq.imp id fun hq => ⟨other, hq⟩
  · simp only [ListedIn, Function.update_of_ne ho] at hq
    exact .inr ⟨other, hq⟩

theorem listed_undeferred {i : Image} {page q : ℕ} {pages : ℕ → Option TailEntry} {valid : ℕ → Int}
    (h : Listed ⟨pages, undeferred page i.scopes, valid⟩ q) : q ≠ page ∧ Listed i q := by
  obtain ⟨scope, hq⟩ := h
  simp only [ListedIn, undeferred] at hq
  cases hs : i.scopes scope with
  | none => simp [hs] at hq
  | some listed =>
    rw [hs, Option.map_some, Option.filter_some] at hq
    split at hq
    · rw [Option.getD_some, Finset.mem_erase] at hq
      exact ⟨hq.1, scope, by rw [ListedIn, hs]; exact hq.2⟩
    · simp at hq

theorem listed_take {i : Image} {scope : String} {q : ℕ} {pages : ℕ → Option TailEntry} {valid : ℕ → Int}
    (h : Listed ⟨pages, Function.update i.scopes scope none, valid⟩ q) : ∃ other, other ≠ scope ∧ ListedIn i other q := by
  obtain ⟨other, hq⟩ := h
  by_cases ho : other = scope
  · subst ho
    simp [ListedIn] at hq
  · simp only [ListedIn, Function.update_of_ne ho] at hq
    exact ⟨other, ho, hq⟩

/-- Only a write lists a page. -/
theorem Edit.listed {i j : Image} (h : Edit cfg defer E W i j) {page : ℕ} (hl : Listed j page) :
    Listed i page ∨ W page := by
  cases h with
  | retire | start => exact .inl hl
  | write q lo hi entry valid scopes hw hs hland =>
    cases hland with
    | partly | programmed => exact .inl hl
    | deferred scope hr hf hd => exact (listed_insert hl).elim (fun he => .inr (he ▸ hw)) .inl
  | discard q entry hp =>
    by_cases hf : entry.flush = none
    · simp only [hf, if_true] at hl
      exact .inl (listed_undeferred hl).2
    · simp only [hf, if_false] at hl
      exact .inl hl
  | take scope =>
    obtain ⟨other, -, hl⟩ := listed_take hl
    exact .inl ⟨other, hl⟩

/-! ## Waiting pages -/

/-- What keeps the listed pages waiting: none of them is programmed. -/
structure Guarded (cfg : NandConfig) (defer : Option String) (E W : ℕ → Prop) (i : Image) : Prop where
  waiting : Waiting cfg i
  started : ∀ page, E page → ¬Listed i page
  written : defer = none → ∀ page, W page → ¬Listed i page

/-- A full page stays full under a write. -/
theorem staging_whole {cfg : NandConfig} {old : TailEntry} (h : Whole cfg old) {lo hi : Int}
    (hspan : 0 ≤ lo ∧ lo < hi ∧ hi ≤ cfg.pageBytes) (valid : ℕ → Int) :
    (staging (some old) lo hi valid).1 = [Gap.mk 0 cfg.pageBytes] := by
  simp only [staging, h.2, if_true, h.1]
  exact mergeRanges_inside hspan.1 hspan.2.1 hspan.2.2

/-- **Every edit keeps the listed pages waiting.** -/
theorem Edit.guarded {i j : Image} (hEW : ∀ page, E page → ¬W page) (h : Edit cfg defer E W i j)
    (hg : Guarded cfg defer E W i) : Guarded cfg defer E W j := by
  have hstarted : ∀ page, E page → ¬Listed j page := fun page he hl =>
    (h.listed hl).elim (hg.started page he) (hEW page he)
  -- a page that changes is not listed, and the others are as they were
  have hother : ∀ (page : ℕ) (x : Option TailEntry), ¬Listed i page →
      ∀ q, Listed i q → ∃ entry, Function.update i.pages page x q = some entry ∧ Whole cfg entry := by
    intro page x hpage q hq
    have hne : q ≠ page := fun he => hpage (he ▸ hq)
    rw [Function.update_of_ne hne]
    exact hg.waiting q hq
  cases h with
  | retire page entry stop hp hf =>
    refine ⟨hother page none fun hl => ?_, hstarted, hg.written⟩
    obtain ⟨old, hold, hw⟩ := hg.waiting page hl
    obtain rfl := Option.some.inj (hold.symm.trans hp)
    rw [hw.2] at hf
    cases hf
  | start page entry stop he hp hf => exact ⟨hother page _ (hg.started page he), hstarted, hg.written⟩
  | write page lo hi entry valid scopes hw hs hland =>
    cases hland with
    | partly hr hf =>
      refine ⟨hother page _ fun hl => ?_, hstarted, hg.written⟩
      obtain ⟨old, hold, hwhole⟩ := hg.waiting page hl
      exact hr (by rw [hs.ranges, hold]; exact staging_whole hwhole hs.span i.valid)
    | deferred scope hr hf hd =>
      refine ⟨fun q hq => ?_, hstarted, fun hn => by rw [hd] at hn; cases hn⟩
      by_cases hqp : q = page
      · subst hqp
        exact ⟨entry, Function.update_self _ _ _, hr, hf⟩
      · simp only [Function.update_of_ne hqp]
        exact hg.waiting q ((listed_insert hq).resolve_left hqp)
    | programmed stop hr hf hd => exact ⟨hother page _ (hg.written hd page hw), hstarted, hg.written⟩
  | discard page entry hp =>
    by_cases hf : entry.flush = none
    · simp only [hf, if_true] at hstarted ⊢
      refine ⟨fun q hq => ?_, hstarted, fun hd q hw hl => hg.written hd q hw (listed_undeferred hl).2⟩
      obtain ⟨hne, hl⟩ := listed_undeferred hq
      simp only [drop_pages, Function.update_of_ne hne]
      exact hg.waiting q hl
    · simp only [hf, if_false] at hstarted ⊢
      refine ⟨hother page none fun hl => ?_, hstarted, hg.written⟩
      obtain ⟨old, hold, hw⟩ := hg.waiting page hl
      obtain rfl := Option.some.inj (hold.symm.trans hp)
      exact hf hw.2
  | take scope =>
    have hlisted : ∀ q, Listed ⟨i.pages, Function.update i.scopes scope none, i.valid⟩ q → Listed i q := fun q hl =>
      (listed_take hl).elim fun other h => ⟨other, h.2⟩
    exact ⟨fun q hq => hg.waiting q (hlisted q hq), hstarted, fun hd q hw hl => hg.written hd q hw (hlisted q hl)⟩

theorem Path.guarded {i j : Image} (hEW : ∀ page, E page → ¬W page) (h : Path cfg defer E W i j)
    (hg : Guarded cfg defer E W i) : Guarded cfg defer E W j :=
  h.keeps (Edit.guarded hEW) hg

/-- What no write lists is listed by no edit. -/
theorem Path.unlisted {i j : Image} (h : Path cfg defer E W i j) {page : ℕ} (hw : ¬W page) (hl : ¬Listed i page) :
    ¬Listed j page :=
  h.keeps (fun he hl hj => (he.listed hj).elim hl hw) hl

/-! ## Operations -/

/-- The write programs no listed page, and the flush takes up none that
another scope lists. -/
def Op.Allowed (s : NandState) : Op → Prop
  | .write m r => ∀ page ∈ stagedOf r s, (∃ p ∈ s.tailFullScopes.items, page ∈ p.2) →
      page ∈ keptOf m r s ∧ deferScope s ≠ none
  | .flushStagedPages scope pages _ => ∀ page ∈ selectedPages scope pages s,
      ∀ p ∈ s.tailFullScopes.items, p.1 ≠ scope → page ∉ p.2
  | _ => True

def AllowedRun : List Op → NandState → Prop
  | [], _ => True
  | op :: ops, s => op.Allowed s ∧ AllowedRun ops (exec s op)

instance (s : NandState) (op : Op) : Decidable (op.Allowed s) := by
  cases op <;> unfold Op.Allowed <;> infer_instance

instance AllowedRun.decidable : ∀ (ops : List Op) (s : NandState), Decidable (AllowedRun ops s)
  | [], _ => isTrue trivial
  | op :: ops, s => @instDecidableAnd _ _ _ (AllowedRun.decidable ops (exec s op))

theorem listedIn_imageOf {s : NandState} {scope : String} {page : ℕ} :
    ListedIn (imageOf s) scope page ↔ ∃ pages, (scope, pages) ∈ s.tailFullScopes.items ∧ page ∈ pages := by
  simp only [ListedIn, imageOf, ← Dict.get?_eq_some]
  cases s.tailFullScopes.get? scope with
  | none => simp
  | some pages => simp

theorem listed_imageOf {s : NandState} {page : ℕ} (h : Listed (imageOf s) page) :
    ∃ p ∈ s.tailFullScopes.items, page ∈ p.2 := by
  obtain ⟨scope, hl⟩ := h
  obtain ⟨pages, hp, hm⟩ := listedIn_imageOf.1 hl
  exact ⟨(scope, pages), hp, hm⟩

theorem waiting_init (cfg : NandConfig) : Throughout (Waiting cfg) (.init cfg) := by
  refine ⟨fun page hl => ?_, fun i hi => absurd hi (by simp [Nand.views, NandState.init])⟩
  obtain ⟨scope, hl⟩ := hl
  simp [ListedIn, imageOf, NandState.init] at hl

/-- A page that a flush answers is listed in its scope. -/
theorem flushed_listed {scope : String} {pages : List ℕ} {stop : ℕ → Time} {s : NandState} {page : ℕ}
    (h : page ∈ (flushStagedPages scope pages stop s).1) :
    page ∈ selectedPages scope pages s ∧ ListedIn (imageOf s) scope page := by
  have hsel := (mem_flushStagedPages h).1
  refine ⟨hsel, ?_⟩
  unfold selectedPages at hsel
  simp only [] at hsel
  split at hsel
  · exact hsel
  · exact (Finset.mem_filter.1 hsel).1

theorem Guarded.of_unlisted {i : Image} (h : Waiting cfg i) (he : ∀ page, E page → ¬Listed i page)
    (hw : ∀ page, ¬W page) : Guarded cfg defer E W i := ⟨h, he, fun _ page hp => absurd hp (hw page)⟩

theorem Edits.waiting {s s' : NandState} (h : Edits E W s s') (hc : s.config = cfg) (hEW : ∀ page, E page → ¬W page)
    (hg : Guarded cfg (deferScope s) E W (imageOf s)) : Waiting cfg (imageOf s') := by
  have hp := h.path
  rw [hc] at hp
  exact (hp.guarded hEW hg).waiting

/-- A flush leaves the pages it programs listed nowhere. -/
theorem flush_unlisted {scope : String} {pages : List ℕ} {stop : ℕ → Time} {s : NandState}
    (ha : (Op.flushStagedPages scope pages stop).Allowed s) :
    (Waiting s.config (imageOf s) → Waiting s.config (imageOf (flushStagedPages scope pages stop s).2)) ∧
      ∀ page ∈ (flushStagedPages scope pages stop s).1, ¬Listed (imageOf (flushStagedPages scope pages stop s).2) page := by
  obtain ⟨mid, htake, hstart, himage⟩ := flushStagedPages_take (W := fun _ => False) scope pages stop s
  have hmid : ∀ page ∈ (flushStagedPages scope pages stop s).1, ¬Listed (imageOf mid) page := by
    intro page hp hl
    rcases himage with hnil | himage
    · rw [hnil] at hp
      cases hp
    · rw [himage] at hl
      obtain ⟨other, ho, hl⟩ := listed_take hl
      obtain ⟨pages, hm, hpages⟩ := listedIn_imageOf.1 hl
      exact ha page (flushed_listed hp).1 (other, pages) hm ho hpages
  refine ⟨fun hw => ?_, fun page hp => hstart.path.unlisted (fun h => h) (hmid page hp)⟩
  have hwm : Waiting s.config (imageOf mid) := (htake fun _ => False).waiting rfl (fun _ h => h.elim)
    (.of_unlisted hw (fun _ h => h.elim) fun _ h => h)
  exact hstart.waiting (htake fun _ => False).frame.config (fun _ _ h => h) (.of_unlisted hwm hmid fun _ h => h)

/-- **An allowed operation keeps the listed pages waiting, in every image.** -/
theorem waiting_exec {s : NandState} (h : Sound cfg s) (hw : Throughout (Waiting cfg) s) {op : Op} (ha : op.Allowed s) :
    Throughout (Waiting cfg) (exec s op) := by
  have hplain : ∀ {s' : NandState}, Edits (fun _ => False) (fun _ => False) s s' → Throughout (Waiting cfg) s' :=
    fun he => hw.edits he.frame.views (he.waiting h.config (fun _ h => h.elim)
      (.of_unlisted hw.live (fun _ h => h.elim) fun _ h => h))
  cases op with
  | write m r =>
    have he := exec_write m r h
    refine hw.edits he.frame.views (he.waiting h.config (fun page hp => hp.2) ⟨hw.live, fun page hp hl => ?_,
      fun hd page hp hl => ?_⟩)
    · exact hp.2 (ha page hp.1 (listed_imageOf hl)).1
    · exact (ha page (keptOf_sub m r s hp) (listed_imageOf hl)).2 hd
  | read first last => exact hplain (tailStaged_edits first last s)
  | setStagingScope scope =>
    rcases exec_setStagingScope scope s with he | he
    · rw [he]; exact hw
    · rw [he]; exact ⟨hw.live, hw.views⟩
  | flushStagedPages scope pages stop =>
    have hedits := flushStagedPages_edits (W := fun _ => False) scope pages stop s
    refine hw.edits hedits.frame.views ?_
    have hflush := (flush_unlisted ha).1
    rw [h.config] at hflush
    exact hflush hw.live
  | discardTailPages address byteCount => exact hplain (discardTailPages_edits address byteCount s)
  | share shared fraction => exact ⟨hw.live, hw.views⟩
  | beginTransaction => exact hw.beginTransaction
  | commitTransaction => exact hw.commitTransaction
  | rollbackTransaction => exact hw.rollbackTransaction h.nested

theorem waiting_run : ∀ {ops : List Op} {s : NandState}, Sound cfg s → Throughout (Waiting cfg) s → AllowedRun ops s →
    Throughout (Waiting cfg) (run ops s)
  | [], _, _, hw, _ => hw
  | op :: ops, s, h, hw, ha =>
    have htail : Throughout (Waiting cfg) (run ops (exec s op)) :=
      waiting_run (h.exec op) (waiting_exec h hw ha.1) ha.2
    htail

/-! ## After a flush -/

theorem mem_take_of_tail {α : Type} {l : List α} {n : ℕ} {a : α} (h : a ∈ l.tail.take (n - 1)) : a ∈ l.take n := by
  cases l with
  | nil => simp at h
  | cons b l =>
    cases n with
    | zero => simp at h
    | succ n => exact List.mem_cons_of_mem b h

/-- The write touches the page. -/
def Op.Writes (cfg : NandConfig) (page : ℕ) : Op → Prop
  | .write _ r => page ∈ pagesOf cfg r.address r.stop
  | _ => False

/-- How many of its own transactions a run has open after the operation. -/
def Op.depth (n : ℕ) : Op → ℕ
  | .beginTransaction => n + 1
  | .commitTransaction | .rollbackTransaction => n - 1
  | _ => n

/-- The run rolls back only transactions it began. -/
def OwnRollbacks : ℕ → List Op → Prop
  | _, [] => True
  | n, op :: ops => (op = .rollbackTransaction → 0 < n) ∧ OwnRollbacks (op.depth n) ops

/-- The page is listed neither in the live image nor in the `n` newest views. -/
structure Idle (page n : ℕ) (s : NandState) : Prop where
  live : ¬Listed (imageOf s) page
  views : ∀ i ∈ (views s).take n, ¬Listed i page

theorem stagedOf_pages {r : AccessRequest} {s : NandState} {page : ℕ} (h : page ∈ stagedOf r s) :
    page ∈ pagesOf s.config r.address r.stop := by
  have hsame : (foundBy r s).2 = { s with tailIndex := (foundBy r s).2.tailIndex } := tailStaged_same _ _ s
  have := (List.mem_filter.1 h).1
  rwa [hsame] at this

/-- **A page that is listed nowhere stays so until it is written, or a rollback
reaches back further.** -/
theorem Idle.exec {page n : ℕ} {s : NandState} (h : Sound cfg s) (hi : Idle page n s) {op : Op}
    (hw : ¬op.Writes cfg page) (hr : op = .rollbackTransaction → 0 < n) : Idle page (op.depth n) (exec s op) := by
  have hplain : ∀ {E W : ℕ → Prop} {s' : NandState}, Edits E W s s' → ¬W page → Idle page n s' := fun he hW =>
    ⟨he.path.unlisted hW hi.live, by rw [he.frame.views]; exact hi.views⟩
  cases op with
  | write m r =>
    refine hplain (exec_write m r h) fun hk => hw ?_
    rw [← h.config]
    exact stagedOf_pages (keptOf_sub m r s hk)
  | read first last => exact hplain (W := fun _ => False) (tailStaged_edits (E := fun _ => False) first last s) id
  | setStagingScope scope =>
    rcases exec_setStagingScope scope s with he | he
    · rw [he]; exact hi
    · rw [he]; exact ⟨hi.live, hi.views⟩
  | flushStagedPages scope pages stop =>
    exact hplain (W := fun _ => False) (flushStagedPages_edits scope pages stop s) id
  | discardTailPages address byteCount =>
    exact hplain (W := fun _ => False) (discardTailPages_edits (E := fun _ => False) address byteCount s) id
  | share shared fraction => exact ⟨hi.live, hi.views⟩
  | beginTransaction =>
    refine ⟨hi.live, fun i hm => ?_⟩
    rw [Nand.exec, views_begin, Op.depth, List.take_succ_cons] at hm
    rcases List.mem_cons.1 hm with rfl | hm
    · exact hi.live
    · exact hi.views i hm
  | commitTransaction =>
    refine ⟨hi.live, fun i hm => hi.views i ?_⟩
    rw [Nand.exec, views_commit, Op.depth] at hm
    exact mem_take_of_tail hm
  | rollbackTransaction =>
    obtain ⟨himage, hviews, -, -⟩ := rollback_image h.nested
    have hn := hr rfl
    refine ⟨?_, fun i hm => hi.views i ?_⟩
    · rw [Nand.exec, himage]
      cases hv : Nand.views s with
      | nil => exact hi.live
      | cons i rest => exact hi.views i (by rw [hv, ← Nat.sub_add_cancel hn, List.take_succ_cons]; simp)
    · rw [Nand.exec, hviews, Op.depth] at hm
      exact mem_take_of_tail hm

theorem Idle.run : ∀ {ops : List Op} {page n : ℕ} {s : NandState}, Sound cfg s → Idle page n s →
    (∀ op ∈ ops, ¬op.Writes cfg page) → OwnRollbacks n ops → ¬Listed (imageOf (run ops s)) page
  | [], _, _, _, _, hi, _, _ => hi.live
  | op :: ops, page, n, s, h, hi, hw, hr =>
    have htail : ¬Listed (imageOf (Nand.run ops (Nand.exec s op))) page :=
      Idle.run (h.exec op) (hi.exec h (hw op (by simp)) hr.1) (fun o ho => hw o (by simp [ho])) hr.2
    htail

/-- **In a run whose steps are all allowed, every listed page is staged, full
and not yet programmed; so a flush programs only such pages, and it programs
none a second time unless a write of the page lies between, or a rollback to
before the first time.** -/
theorem scopes_sound (cfg : NandConfig) (ops : List Op) (h : AllowedRun ops (.init cfg)) :
    (∀ scope page, page ∈ ((run ops (.init cfg)).tailFullScopes.get? scope).getD ∅ →
      ∃ entry, (run ops (.init cfg)).tailPages.get? page = some entry ∧
        entry.ranges = [Gap.mk 0 cfg.pageBytes] ∧ entry.flush = none) ∧
    (∀ scope pages stop, ∀ page ∈ (flushStagedPages scope pages stop (run ops (.init cfg))).1,
      ∃ entry, (run ops (.init cfg)).tailPages.get? page = some entry ∧
        entry.ranges = [Gap.mk 0 cfg.pageBytes] ∧ entry.flush = none) ∧
    ∀ scope pages stop later page, (Op.flushStagedPages scope pages stop).Allowed (run ops (.init cfg)) →
      page ∈ (flushStagedPages scope pages stop (run ops (.init cfg))).1 →
      (∀ op ∈ later, ¬op.Writes cfg page) → OwnRollbacks 0 later →
      ∀ scope' pages' stop', page ∉ (flushStagedPages scope' pages' stop'
        (run later (flushStagedPages scope pages stop (run ops (.init cfg))).2)).1 := by
  have hsound := sound_run cfg ops
  have hwait := (waiting_run (sound_init cfg) (waiting_init cfg) h).live
  generalize run ops (.init cfg) = s at hsound hwait
  refine ⟨fun scope page hp => hwait page ⟨scope, hp⟩, fun scope pages stop page hp => ?_,
    fun scope pages stop later page ha hp hw hr scope' pages' stop' hp' => ?_⟩
  · exact hwait page ⟨scope, (flushed_listed hp).2⟩
  · have hidle : Idle page 0 (flushStagedPages scope pages stop s).2 :=
      ⟨(flush_unlisted ha).2 page hp, fun i hi => absurd hi (by simp)⟩
    exact Idle.run (hsound.exec (.flushStagedPages scope pages stop)) hidle hw hr ⟨scope', (flushed_listed hp').2⟩

/-- Pages of four bytes on one channel, eight bytes of staging. -/
def tiny : NandConfig := ⟨4, 1, 1, 1, 1, 1, .logicDie, 8, by decide⟩

/-- A write at time `t`; a program ends one later. -/
def writeAt (t : Time) (address byteCount : ℕ) (h : 0 < byteCount) : Op :=
  .write ⟨fun _ => t, fun _ => t, fun _ => t + 1, false, fun _ => false⟩ ⟨address, byteCount, t, h⟩

/-- A page fills twice in its scope before its flush. -/
theorem scopes_sound_flush :
    let ops : List Op := [.setStagingScope (some "A"), writeAt 0 0 2 (by decide), writeAt 0 2 2 (by decide),
      writeAt 0 0 1 (by decide)]
    AllowedRun ops (.init tiny) ∧ (flushStagedPages "A" [] (fun _ => 9) (run ops (.init tiny))).1 = [0] ∧
      ∃ entry, (run ops (.init tiny)).tailPages.get? 0 = some entry ∧
        entry.ranges = [Gap.mk 0 4] ∧ entry.flush = none := by
  intro ops
  have h : AllowedRun ops (.init tiny) := by decide +kernel
  exact ⟨h, by decide +kernel, (scopes_sound tiny ops h).1 "A" 0 (by decide +kernel)⟩

/-- A page deferred to a scope fills again with no scope set: it is programmed
and retires, but stays listed; when a byte of it is staged anew, the scope's
flush programs the page with one valid byte of four. -/
theorem flush_programs_part :
    let s := run [.setStagingScope (some "A"), writeAt 0 0 2 (by decide), writeAt 0 2 2 (by decide),
      .setStagingScope none, writeAt 0 0 1 (by decide), writeAt 2 4 1 (by decide), writeAt 2 0 1 (by decide)]
      (.init tiny)
    s.tailFullScopes.get? "A" = some {0} ∧ s.tailPages.get? 0 = some ⟨[Gap.mk 0 1], 1, 2, none, 0⟩ ∧
      (flushStagedPages "A" [] (fun _ => 9) s).1 = [0] := by
  decide +kernel

end HeteroSim.Nand
