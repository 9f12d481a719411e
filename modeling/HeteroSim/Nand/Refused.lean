/-
What a refused request leaves. Reads and erases come to the validation with
only an index cached, but a write is admitted page by page before it: running
programs are retired, and pages spilled or programmed, whether or not the
request is valid.
-/
import HeteroSim.Nand.Validate
import HeteroSim.Raising

namespace HeteroSim.Nand.Core

variable {M : Type} {b : Backend M} {c c' : NandCore M}

theorem NandCore.ext_of {c c' : NandCore M} (hl : c.limits = c'.limits) (hs : c.staging = c'.staging)
    (hm : c.media = c'.media) : c = c' := by
  cases c
  cases c'
  simp only at hl hs hm
  subst hl hs hm
  rfl

/-- The staging without its cached index. -/
def unindexed (s : NandState) : NandState := { s with tailIndex := none }

/-- The two cores are one but for the cached index. -/
structure Same (c c' : NandCore M) : Prop where
  limits : c'.limits = c.limits
  media : c'.media = c.media
  staging : unindexed c'.staging = unindexed c.staging

theorem Same.refl (c : NandCore M) : Same c c := ⟨rfl, rfl, rfl⟩

theorem Same.counters (h : Same c c') : c'.staging.counters = c.staging.counters := by
  show (unindexed c'.staging).counters = (unindexed c.staging).counters
  rw [h.staging]

theorem staged_same (first last : Int) (c : NandCore M) : Same c (staged first last c).2 := by
  refine ⟨rfl, rfl, ?_⟩
  show unindexed (tailStaged first last c.staging).2 = _
  rw [tailStaged_same]
  rfl

/-! ## What admission keeps -/

/-- The configuration stays. -/
structure Configured (c c' : NandCore M) : Prop where
  limits : c'.limits = c.limits
  config : c'.staging.config = c.staging.config

theorem Configured.trans {c'' : NandCore M} (h : Configured c c') (h' : Configured c' c'') : Configured c c'' :=
  ⟨h'.limits.trans h.limits, h'.config.trans h.config⟩

theorem evict_cases (b : Backend M) (page : ℕ) (now : Time) (c : NandCore M) :
    Configured c (evict b page now c) ∧
      (evict b page now c).staging.counters.spilledPages = c.staging.counters.spilledPages := by
  unfold evict
  split
  · exact ⟨⟨rfl, rfl⟩, rfl⟩
  · split
    · exact ⟨⟨rfl, rfl⟩, rfl⟩
    · exact ⟨⟨rfl, rfl⟩, rfl⟩

/-- The store keeps a share for the page: it fills already, or its index is
in the share of the step. -/
def Shares (s : NandState) (page : ℕ) : Prop :=
  filling (s.tailPages.get? page) = true ∨ ¬(s.tailFraction < 1 ∧ s.tailFraction ≤ pageShare page)

/-- The page's bytes fit beside `valid`. -/
def HasRoom (s : NandState) (r : AccessRequest) (room : Int) (valid : ℕ → Int) (page : ℕ) : Prop :=
  valid (tailChannel s.config page) +
    growth (s.tailPages.get? page) (pageSpan s.config r page).1 (pageSpan s.config r page).2 ≤ room

/-- `valid` with the page's bytes. -/
def grown (s : NandState) (r : AccessRequest) (valid : ℕ → Int) (page : ℕ) : ℕ → Int :=
  setValid (tailChannel s.config page) (valid (tailChannel s.config page) +
    growth (s.tailPages.get? page) (pageSpan s.config r page).1 (pageSpan s.config r page).2) valid

/-- A page that the store takes changes nothing but the prediction. -/
theorem admitPage_take {r : AccessRequest} {room : Int} {valid : ℕ → Int} {kept : List ℕ} {page : ℕ}
    (hs : Shares c.staging page) (hr : HasRoom c.staging r room valid page) :
    admitPage b r room (c, valid, kept) page = (c, grown c.staging r valid page, kept ++ [page]) := by
  have hshare : ¬(filling (c.staging.tailPages.get? page) = false ∧ c.staging.tailFraction < 1 ∧
      c.staging.tailFraction ≤ pageShare page) := by
    rintro ⟨hf, hp⟩
    exact hs.elim (fun h => by rw [hf] at h; cases h) fun h => h hp
  simp only [admitPage, if_neg hshare, if_neg (not_lt.2 hr), grown]

/-- Any other page is spilled, and counted. -/
theorem admitPage_spill {r : AccessRequest} {room : Int} {valid : ℕ → Int} {kept : List ℕ} {page : ℕ}
    (h : ¬(Shares c.staging page ∧ HasRoom c.staging r room valid page)) :
    ∃ c', admitPage b r room (c, valid, kept) page = (c', valid, kept) ∧ Configured c c' ∧
      c'.staging.counters.spilledPages = c.staging.counters.spilledPages + 1 := by
  by_cases hshare : filling (c.staging.tailPages.get? page) = false ∧ c.staging.tailFraction < 1 ∧
      c.staging.tailFraction ≤ pageShare page
  · exact ⟨spill page c, by simp only [admitPage, if_pos hshare], ⟨rfl, rfl⟩, rfl⟩
  · have hs : Shares c.staging page := by
      by_cases hf : filling (c.staging.tailPages.get? page) = true
      · exact .inl hf
      · exact .inr fun hp => hshare ⟨by simpa using hf, hp⟩
    have hr : room < valid (tailChannel c.staging.config page) + growth (c.staging.tailPages.get? page)
        (pageSpan c.staging.config r page).1 (pageSpan c.staging.config r page).2 := not_le.1 fun hle => h ⟨hs, hle⟩
    obtain ⟨hc, hn⟩ := evict_cases b page r.arrival c
    refine ⟨spill page (evict b page r.arrival c), by simp only [admitPage, if_neg hshare, if_pos hr],
      ⟨hc.limits, hc.config⟩, ?_⟩
    show (evict b page r.arrival c).staging.counters.spilledPages + 1 = _
    rw [hn]

/-- The store takes the pages, one after another. -/
def Takes (s : NandState) (r : AccessRequest) (room : Int) (pages : List ℕ) (valid : ℕ → Int) : Prop :=
  (∀ page ∈ pages, Shares s page) ∧ Fits s.config (pageSpan s.config r) room s.tailPages.get? pages valid

theorem takes_cons {s : NandState} {r : AccessRequest} {room : Int} {page : ℕ} {pages : List ℕ} {valid : ℕ → Int} :
    Takes s r room (page :: pages) valid ↔
      (Shares s page ∧ HasRoom s r room valid page) ∧ Takes s r room pages (grown s r valid page) := by
  simp only [Takes, List.forall_mem_cons, Fits, HasRoom, grown]
  tauto

/-- **Either the store takes every page and the core is as it was, or some
page is spilled and counted.** -/
theorem foldl_admitPage_cases (b : Backend M) (r : AccessRequest) (room : Int) (pages : List ℕ) :
    ∀ (c : NandCore M) (valid : ℕ → Int) (kept : List ℕ), ∃ c' valid' kept',
      pages.foldl (admitPage b r room) (c, valid, kept) = (c', valid', kept') ∧ Configured c c' ∧
        (Takes c.staging r room pages valid ∧ c' = c ∨
          ¬Takes c.staging r room pages valid ∧
            c.staging.counters.spilledPages < c'.staging.counters.spilledPages) := by
  induction pages with
  | nil =>
    intro c valid kept
    exact ⟨c, valid, kept, rfl, ⟨rfl, rfl⟩, .inl ⟨⟨by simp, trivial⟩, rfl⟩⟩
  | cons page pages ih =>
    intro c valid kept
    rw [List.foldl_cons, takes_cons]
    by_cases htake : Shares c.staging page ∧ HasRoom c.staging r room valid page
    · rw [admitPage_take htake.1 htake.2]
      obtain ⟨c', valid', kept', hfold, hc, h⟩ := ih c (grown c.staging r valid page) (kept ++ [page])
      refine ⟨c', valid', kept', hfold, hc, h.imp (fun h => ⟨⟨htake, h.1⟩, h.2⟩) fun h => ⟨fun ht => h.1 ht.2, h.2⟩⟩
    · obtain ⟨d, hstep, hd, hn⟩ := @admitPage_spill M b c r room valid kept page htake
      rw [hstep]
      obtain ⟨c', valid', kept', hfold, hc, h⟩ := ih d valid kept
      have hle : d.staging.counters.spilledPages ≤ c'.staging.counters.spilledPages :=
        h.elim (fun h => by rw [h.2]) fun h => h.2.le
      exact ⟨c', valid', kept', hfold, hd.trans hc, .inr ⟨fun ht => htake ht.1, by omega⟩⟩

/-! ## Retiring -/

/-- Every running program ends after `now`. -/
def NoneEnded (now : Time) (s : NandState) : Prop := ∀ p ∈ s.counters.flushing.head?, now < p.1

theorem foldl_retire_counts (heap : List (Time × ℕ)) : ∀ s : NandState,
    (heap.foldl retire s).counters.flushing = s.counters.flushing ∧
      (heap.foldl retire s).counters.spilledPages = s.counters.spilledPages := by
  induction heap with
  | nil => exact fun s => ⟨rfl, rfl⟩
  | cons p heap ih =>
    intro s
    rw [List.foldl_cons, (ih _).1, (ih _).2]
    unfold retire
    split
    · exact ⟨rfl, rfl⟩
    · split
      · exact ⟨rfl, rfl⟩
      · exact ⟨rfl, rfl⟩

theorem release_spilledPages (now : Time) (c : NandCore M) :
    (release now c).staging.counters.spilledPages = c.staging.counters.spilledPages := by
  show (tailRelease now c.staging).counters.spilledPages = _
  unfold tailRelease
  split
  · rfl
  · split
    · rfl
    · exact (foldl_retire_counts _ _).2

theorem release_noneEnded {now : Time} (h : NoneEnded now c.staging) : release now c = c := by
  refine NandCore.ext_of rfl ?_ rfl
  show tailRelease now c.staging = c.staging
  unfold tailRelease
  split
  · rfl
  · next first page rest hf => rw [if_pos (h (first, page) (by rw [hf]; rfl))]

/-- A program that has ended leaves the running ones. -/
theorem release_ended {now : Time} (h : ¬NoneEnded now c.staging) :
    (release now c).staging.counters.flushing.length < c.staging.counters.flushing.length := by
  show (tailRelease now c.staging).counters.flushing.length < _
  unfold NoneEnded at h
  unfold tailRelease
  split
  · next hf => exact absurd (by rw [hf]; simp) h
  · next first page rest hf =>
    have hended : first ≤ now := by
      by_contra hlt
      exact h (by rw [hf]; simpa using hlt)
    rw [if_neg (not_lt.2 hended)]
    show (List.foldl retire _ _).counters.flushing.length < _
    rw [(foldl_retire_counts _ _).1]
    show (List.dropWhile _ c.staging.counters.flushing).length < _
    rw [hf, List.dropWhile_cons_of_pos (by simpa using hended)]
    exact Nat.lt_succ_of_le (List.dropWhile_sublist _).length_le

/-! ## Admission -/

/-- Admission retires no program and takes every page. -/
def Undisturbed (r : AccessRequest) (pages : List ℕ) (s : NandState) : Prop :=
  NoneEnded r.arrival s ∧ Takes s r (roomOf s) pages s.counters.valid

theorem tailAdmit_cases (b : Backend M) (pages : List ℕ) (r : AccessRequest) (c : NandCore M) :
    Configured c (tailAdmit b pages r c).2 ∧ (Undisturbed r pages c.staging → (tailAdmit b pages r c).2 = c) ∧
      (¬Undisturbed r pages c.staging → (tailAdmit b pages r c).2.staging.counters ≠ c.staging.counters) := by
  obtain ⟨c', valid', kept', hfold, hc, h⟩ := foldl_admitPage_cases b r (roomOf (release r.arrival c).staging) pages
    (release r.arrival c) (release r.arrival c).staging.counters.valid []
  have he : (tailAdmit b pages r c).2 = c' := by simp only [tailAdmit, hfold]
  have hrelease : Configured c (release r.arrival c) := ⟨rfl, (tailRelease_keeps r.arrival c.staging).1.config⟩
  rw [he]
  refine ⟨hrelease.trans hc, fun hu => ?_, fun hu heq => ?_⟩
  · rw [release_noneEnded hu.1] at h
    exact h.elim (fun h => h.2) fun h => absurd hu.2 h.1
  · rcases h with ⟨htakes, hsame⟩ | ⟨-, hlt⟩
    · by_cases hn : NoneEnded r.arrival c.staging
      · rw [release_noneEnded hn] at htakes
        exact hu ⟨hn, htakes⟩
      · have := release_ended hn
        rw [← hsame, heq] at this
        exact lt_irrefl _ this
    · rw [heq, release_spilledPages] at hlt
      exact lt_irrefl _ hlt

/-- The request comes to the admission: it is a write that meets pages of a
store with a limit. -/
def Asks (r : Task.AccessRequest) (s : NandState) : Prop :=
  r.operation = .write ∧ s.config.pageStaging ≠ .none ∧ stagedOf (spanOf r) s ≠ [] ∧
    s.config.pageStagingBytesPerHostChannel ≠ 0

/-! ## A refused request -/

theorem Same.configured (h : Same c c') : Configured c c' := by
  refine ⟨h.limits, ?_⟩
  show (unindexed c'.staging).config = (unindexed c.staging).config
  rw [h.staging]

theorem validate_error {r : Task.AccessRequest} {e : String}
    (h : validateRequest c.staging.config c.limits r = .error e) (hc : Configured c c') :
    validate r c' = .error e c' := by
  show raise (validateRequest c'.staging.config c'.limits r) c' = _
  rw [hc.config, hc.limits]
  exact raise_error h

/-- What the staged route leaves of a refused request: an error, or the
normal path, which is to refuse it. -/
structure Refuses (e : String) (r : Task.AccessRequest) (c : NandCore M) (m : CoreM M Bool) (c' : NandCore M) :
    Prop where
  result : m c = .error e c' ∨ m c = .ok false c'
  configured : Configured c c'
  same : Same c c' ↔ (Asks r c.staging → Undisturbed (spanOf r) (stagedOf (spanOf r) c.staging) c.staging)

theorem Refuses.of_same {e : String} {r : Task.AccessRequest} {m : CoreM M Bool} (hw : r.operation ≠ .write)
    (hr : m c = .error e c' ∨ m c = .ok false c') (hs : Same c c') : Refuses e r c m c' :=
  ⟨hr, hs.configured, fun _ ha => absurd ha.1 hw, fun _ => hs⟩

theorem submitStagedRead_refuses {r : Task.AccessRequest} {e : String} (hr : r.operation = .read)
    (h : validateRequest c.staging.config c.limits r = .error e) :
    ∃ c', Refuses e r c (submitStagedRead b r) c' := by
  have hs : Same c (tailReadable (firstPage c r) (lastPage c r) r.arrival c).2 := staged_same _ _ c
  refine ⟨_, Refuses.of_same (by rw [hr]; decide) ?_ hs⟩
  unfold submitStagedRead
  rw [get_then, set_then]
  split
  · exact .inr rfl
  · exact .inl (error_bind (validate_error h hs.configured))

theorem undisturbed_staged {r : AccessRequest} {pages : List ℕ} (first last : Int) :
    Undisturbed r pages (staged first last c).2.staging ↔ Undisturbed r pages c.staging := by
  show Undisturbed r pages (tailStaged first last c.staging).2 ↔ _
  rw [tailStaged_same]
  exact Iff.rfl

/-- What the admission of a write leaves, once its staged pages are listed. -/
theorem admitted_cases (b : Backend M) {r : Task.AccessRequest} (first last : Int) (hw : r.operation = .write)
    (hstaging : c.staging.config.pageStaging ≠ .none) :
    Configured c (admitted b (spanOf r) (stagedOf (spanOf r) c.staging) (staged first last c).2).2 ∧
      (Same c (admitted b (spanOf r) (stagedOf (spanOf r) c.staging) (staged first last c).2).2 ↔
        (Asks r c.staging → Undisturbed (spanOf r) (stagedOf (spanOf r) c.staging) c.staging)) := by
  have hfound : Same c (staged first last c).2 := staged_same _ _ c
  by_cases hask : stagedOf (spanOf r) c.staging ≠ [] ∧
      (staged first last c).2.staging.config.pageStagingBytesPerHostChannel ≠ 0
  · obtain ⟨hc, hquiet, hloud⟩ := tailAdmit_cases b (stagedOf (spanOf r) c.staging) (spanOf r) (staged first last c).2
    rw [undisturbed_staged] at hquiet hloud
    simp only [admitted, if_pos hask]
    refine ⟨hfound.configured.trans hc, fun hs _ => ?_, fun hu => ?_⟩
    · by_contra hu
      exact hloud hu (hs.counters.trans hfound.counters.symm)
    · rw [hfound.configured.config] at hask
      rw [hquiet (hu ⟨hw, hstaging, hask⟩)]
      exact hfound
  · simp only [admitted, if_neg hask]
    rw [hfound.configured.config] at hask
    exact ⟨hfound.configured, fun _ ha => absurd ha.2.2 hask, fun _ => hfound⟩

theorem submitStagedWrite_refuses {r : Task.AccessRequest} {e : String} (hw : r.operation = .write)
    (hstaging : c.staging.config.pageStaging ≠ .none)
    (h : validateRequest c.staging.config c.limits r = .error e) :
    ∃ c', Refuses e r c (submitStagedWrite b r) c' := by
  obtain ⟨hc, hsame⟩ := admitted_cases b (firstPage c r) (lastPage c r) hw hstaging
  refine ⟨_, ?_, hc, hsame⟩
  unfold submitStagedWrite
  rw [get_then, set_then]
  split
  · exact .inr rfl
  · exact .inl (error_bind (validate_error h hc))

/-- **A refused request is refused with its own error, and leaves the core as
it was exactly if the admission of its staged pages, where it comes to one,
retires no program and takes every page.** -/
theorem refused_unchanged_iff (b : Backend M) (c : NandCore M) (r : Task.AccessRequest) (e : String)
    (h : validateRequest c.staging.config c.limits r = .error e) :
    ∃ c', submit b r c = .error e c' ∧
      (Same c c' ↔ (Asks r c.staging → Undisturbed (spanOf r) (stagedOf (spanOf r) c.staging) c.staging)) := by
  unfold submit submitLive
  rw [get_then]
  by_cases hstaging : c.staging.config.pageStaging = .none
  · rw [if_pos hstaging]
    have hpure : (pure false : CoreM M Bool) c = .ok false c := rfl
    refine ⟨c, (ok_bind hpure).trans (error_bind (validate_error h ⟨rfl, rfl⟩)), ?_⟩
    exact ⟨fun _ ha => absurd hstaging ha.2.1, fun _ => .refl c⟩
  · rw [if_neg hstaging]
    have hroute : ∃ c', Refuses e r c (submitStaged b r) c' := by
      unfold submitStaged
      cases hop : r.operation with
      | read => exact submitStagedRead_refuses hop h
      | write => exact submitStagedWrite_refuses hop hstaging h
      | erase => exact ⟨c, Refuses.of_same (by rw [hop]; decide) (.inr rfl) (.refl c)⟩
    obtain ⟨c', hresult, hc, hsame⟩ := hroute
    refine ⟨c', ?_, hsame⟩
    rcases hresult with herr | hok
    · exact error_bind herr
    · exact (ok_bind hok).trans (error_bind (validate_error h hc))

/-! ## A write beyond the device -/

/-- A device of two pages, with a store of 64 bytes. -/
def twoPages : NandConfig := ⟨4096, 1, 1, 1, 1, 1, .logicDie, 64, by decide⟩

def twoPageCore : NandCore (List ℕ) :=
  ⟨⟨8192, 64, 0, .genericNand, .hostMerge, by decide⟩, .init twoPages, [0], by simp [NandState.init, Dict.keys, Dict.empty]⟩

/-- A backend that keeps the bank log alone. -/
def logBackend : Backend (List ℕ) where
  tailProgram page ready start log := (max ready start, log.modify (page % log.length) (· + 1))
  execute _ _ := pure true

/-- The write starts in the page after the last. -/
def beyondTheDevice : Task.AccessRequest := ⟨"w", .write, 8200, 64, 0, by decide⟩

theorem refused_write_spills : ∃ c', submit logBackend beyondTheDevice twoPageCore =
      .error "address 8200 is outside modeled capacity 8192" c' ∧
    c'.staging.counters.spilledPages = 1 ∧ twoPageCore.staging.counters.spilledPages = 0 ∧
    ¬Same twoPageCore c' := by
  refine ⟨_, rfl, by decide +kernel, rfl, fun h => ?_⟩
  have := congrArg TailCounters.spilledPages h.counters
  revert this
  decide +kernel

/-- A read there only caches an index. -/
theorem refused_unchanged_iff_read : ∃ c', submit logBackend { beyondTheDevice with operation := .read } twoPageCore =
      .error "address 8200 is outside modeled capacity 8192" c' ∧ Same twoPageCore c' := by
  obtain ⟨c', herr, hsame⟩ := refused_unchanged_iff logBackend twoPageCore
    { beyondTheDevice with operation := .read } "address 8200 is outside modeled capacity 8192" (by decide +kernel)
  exact ⟨c', herr, hsame.2 fun ha => absurd ha.1 (by decide)⟩

end HeteroSim.Nand.Core
