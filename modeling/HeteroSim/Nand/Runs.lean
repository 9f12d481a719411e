/-
How a request is cut into runs. The runs tile it in order; the admitted pages
are those of the runs that go to the store, and no other run touches one.
-/
import HeteroSim.Nand.Writes

namespace HeteroSim.Nand

variable {cfg : NandConfig} {r : AccessRequest}

theorem le_of_dvd_lt {d x page : ℕ} (hd : d ∣ x) (h : x < (page + 1) * d) : x ≤ page * d := by
  obtain ⟨k, rfl⟩ := hd
  rw [mul_comm d k] at h ⊢
  exact Nat.mul_le_mul_right d (Nat.le_of_lt_succ (Nat.lt_of_mul_lt_mul_right h))

theorem le_of_lt_dvd {d x page : ℕ} (hd : d ∣ x) (h : page * d < x) : (page + 1) * d ≤ x := by
  obtain ⟨k, rfl⟩ := hd
  rw [mul_comm d k] at h ⊢
  exact Nat.mul_le_mul_right d (Nat.lt_of_mul_lt_mul_right h)

theorem pagesOf_eq {start stop page : ℕ} (hlo : page * cfg.pageBytes < stop) (hhi : stop ≤ (page + 1) * cfg.pageBytes) :
    pagesOf cfg start stop = List.range' (start / cfg.pageBytes) (page + 1 - start / cfg.pageBytes) := by
  have hlast : (stop - 1) / cfg.pageBytes = page := Nat.div_eq_of_lt_le (by omega) (by omega)
  rw [pagesOf, hlast]

theorem pagesOf_single {lo hi page : ℕ} (h1 : page * cfg.pageBytes ≤ lo) (h2 : lo < (page + 1) * cfg.pageBytes)
    (h3 : lo < hi) (h4 : hi ≤ (page + 1) * cfg.pageBytes) : pagesOf cfg lo hi = [page] := by
  have hfirst : lo / cfg.pageBytes = page := Nat.div_eq_of_lt_le h1 h2
  rw [pagesOf_eq (h1.trans_lt h3) h4, hfirst, Nat.add_sub_cancel_left]
  rfl

theorem pagesOf_extend {start hi page : ℕ} (h1 : start < page * cfg.pageBytes) (h2 : page * cfg.pageBytes < hi)
    (h3 : hi ≤ (page + 1) * cfg.pageBytes) :
    pagesOf cfg start hi = pagesOf cfg start (page * cfg.pageBytes) ++ [page] := by
  have hpos := cfg.pageBytes_pos
  have hfirst : start / cfg.pageBytes < page := (Nat.div_lt_iff_lt_mul hpos).2 h1
  obtain ⟨q, rfl⟩ := Nat.exists_eq_add_one_of_ne_zero (Nat.ne_zero_of_lt hfirst)
  have hq : q * cfg.pageBytes < (q + 1) * cfg.pageBytes := Nat.mul_lt_mul_of_pos_right (Nat.lt_succ_self q) hpos
  have hcount : q + 1 + 1 - start / cfg.pageBytes = q + 1 - start / cfg.pageBytes + 1 := by omega
  rw [pagesOf_eq h2 h3, pagesOf_eq hq le_rfl, hcount, List.range'_concat]
  congr 2
  omega

/-- A run lies in the request, and is cut at pages' bounds. -/
structure Cut (cfg : NandConfig) (r : AccessRequest) (run : Run) : Prop where
  lt : run.lo < run.hi
  lo : r.address ≤ run.lo ∧ (run.lo = r.address ∨ cfg.pageBytes ∣ run.lo)
  hi : run.hi ≤ r.stop ∧ (run.hi = r.stop ∨ cfg.pageBytes ∣ run.hi)

/-- The pages a run takes to the store. -/
def Run.pages (cfg : NandConfig) (run : Run) : List ℕ := if run.tail = true then pagesOf cfg run.lo run.hi else []

/-- The runs after the pages `done` of the admitted ones, up to the cursor. -/
structure Split (cfg : NandConfig) (r : AccessRequest) (staged done : List ℕ) (runs : List Run) (cursor : ℕ) : Prop where
  cut : ∀ run ∈ runs, Cut cfg r run
  pages : runs.flatMap (Run.pages cfg) = done
  free : ∀ run ∈ runs, run.tail = false → ∀ page ∈ pagesOf cfg run.lo run.hi, page ∉ staged
  starts : ∀ run ∈ runs.head?, run.lo = r.address
  ends : ∀ run ∈ runs.getLast?, run.hi = cursor
  empty : runs = [] → cursor = r.address
  bound : r.address ≤ cursor ∧ cursor ≤ r.stop ∧ (cursor = r.address ∨ cursor = r.stop ∨ cfg.pageBytes ∣ cursor)
  passed : ∀ page ∈ done, cursor = r.stop ∨ (page + 1) * cfg.pageBytes ≤ cursor

theorem Split.nil (cfg : NandConfig) (r : AccessRequest) (staged : List ℕ) : Split cfg r staged [] [] r.address where
  cut := by simp
  pages := rfl
  free := by simp
  starts := by simp
  ends := by simp
  empty := fun _ => rfl
  bound := ⟨le_rfl, r.lt_stop.le, .inl rfl⟩
  passed := by simp

/-- A run that starts at the cursor is put behind the others. -/
theorem Split.snoc {staged done more : List ℕ} {runs : List Run} {cursor : ℕ} (h : Split cfg r staged done runs cursor)
    {run : Run} (hlo : run.lo = cursor) (hcut : Cut cfg r run) (hpages : run.pages cfg = more)
    (hfree : run.tail = false → ∀ page ∈ pagesOf cfg run.lo run.hi, page ∉ staged)
    (hpassed : ∀ page ∈ more, run.hi = r.stop ∨ (page + 1) * cfg.pageBytes ≤ run.hi) :
    Split cfg r staged (done ++ more) (runs ++ [run]) run.hi where
  cut := fun q hq => (List.mem_append.1 hq).elim (h.cut q) fun hq => List.mem_singleton.1 hq ▸ hcut
  pages := by rw [List.flatMap_append, h.pages, List.flatMap_singleton, hpages]
  free := fun q hq => (List.mem_append.1 hq).elim (h.free q) fun hq => List.mem_singleton.1 hq ▸ hfree
  starts := fun q hq => by
    cases runs with
    | nil =>
      obtain rfl := Option.some.inj hq
      rw [hlo, h.empty rfl]
    | cons first rest => exact h.starts q hq
  ends := fun q hq => by
    rw [List.getLast?_concat] at hq
    rw [Option.some.inj hq]
  empty := fun he => absurd he (by simp)
  bound := ⟨hcut.lo.1.trans hcut.lt.le, hcut.hi.1, .inr hcut.hi.2⟩
  passed := fun page hp => by
    rcases List.mem_append.1 hp with hp | hp
    · have hle := hcut.lt
      have := h.bound.2.1
      have := hcut.hi.1
      rcases h.passed page hp with he | he
      · omega
      · right; omega
    · exact hpassed page hp

/-- The page's run is put behind the others, or the last run is extended. -/
theorem Split.join {staged done : List ℕ} {runs : List Run} {cursor page : ℕ} (h : Split cfg r staged done runs cursor)
    (hpage : page ∈ pagesOf cfg r.address r.stop) (hlo : cursor = max r.address (page * cfg.pageBytes)) :
    Split cfg r staged (done ++ [page])
      (joinRun runs (max r.address (page * cfg.pageBytes)) (min r.stop ((page + 1) * cfg.pageBytes)))
      (min r.stop ((page + 1) * cfg.pageBytes)) := by
  obtain ⟨h1, h2⟩ := (mem_pagesOf r.lt_stop).1 hpage
  have hpos := cfg.pageBytes_pos
  have hr := r.lt_stop
  have hnext : page * cfg.pageBytes < (page + 1) * cfg.pageBytes := Nat.mul_lt_mul_of_pos_right (Nat.lt_succ_self page) hpos
  set lo := max r.address (page * cfg.pageBytes)
  set hi := min r.stop ((page + 1) * cfg.pageBytes)
  have hcut : Cut cfg r ⟨true, lo, hi⟩ := by
    refine ⟨?_, ⟨le_max_left _ _, ?_⟩, min_le_left _ _, ?_⟩
    · show lo < hi
      omega
    · rcases max_choice r.address (page * cfg.pageBytes) with he | he
      · exact .inl he
      · exact .inr (by rw [show lo = page * cfg.pageBytes from he]; exact Nat.dvd_mul_left _ _)
    · rcases min_choice r.stop ((page + 1) * cfg.pageBytes) with he | he
      · exact .inl he
      · exact .inr (by rw [show hi = (page + 1) * cfg.pageBytes from he]; exact Nat.dvd_mul_left _ _)
  have hpassed : ∀ q ∈ [page], hi = r.stop ∨ (q + 1) * cfg.pageBytes ≤ hi := fun q hq => by
    rw [List.mem_singleton.1 hq]
    omega
  have honly : pagesOf cfg lo hi = [page] := pagesOf_single (by omega) (by omega) (by omega) (by omega)
  have hsnoc : Split cfg r staged (done ++ [page]) (runs ++ [⟨true, lo, hi⟩]) hi :=
    h.snoc hlo.symm hcut honly (fun ht => by cases ht) hpassed
  rcases List.eq_nil_or_concat runs with rfl | ⟨front, last, rfl⟩
  · exact hsnoc
  · rw [List.concat_eq_append] at h hsnoc ⊢
    simp only [joinRun, List.getLast?_concat, List.dropLast_concat]
    split
    · next hjoin =>
      -- the last run ends at the page's start, so the page follows its pages
      obtain ⟨ht, hend⟩ := hjoin
      have hlast := h.cut last (by simp)
      have hbase : last.hi = page * cfg.pageBytes := by
        have := hlast.lt
        have := hlast.lo.1
        omega
      have hpages : (⟨true, last.lo, hi⟩ : Run).pages cfg = last.pages cfg ++ [page] := by
        simp only [Run.pages, ht, if_true]
        rw [hbase]
        have := hlast.lt
        exact pagesOf_extend (by omega) (by omega) (by omega)
      have hold := h.pages
      rw [List.flatMap_append, List.flatMap_singleton] at hold
      refine ⟨fun run hm => ?_, ?_, fun run hm hf => ?_, fun run hm => ?_, fun run hm => ?_, fun he => ?_, ?_,
        fun q hq => ?_⟩
      · rcases List.mem_append.1 hm with hm | hm
        · exact h.cut run (by simp [hm])
        · rw [List.mem_singleton.1 hm]
          have := hlast.lt
          exact ⟨show last.lo < hi by omega, hlast.lo, hcut.hi⟩
      · rw [List.flatMap_append, List.flatMap_singleton, hpages, ← List.append_assoc, hold]
      · rcases List.mem_append.1 hm with hm | hm
        · exact h.free run (by simp [hm]) hf
        · rw [List.mem_singleton.1 hm] at hf
          cases hf
      · cases front with
        | nil =>
          obtain rfl := Option.some.inj hm
          exact h.starts last rfl
        | cons first rest => exact h.starts run hm
      · rw [List.getLast?_concat] at hm
        rw [← Option.some.inj hm]
      · simp at he
      · exact ⟨by omega, by omega, .inr hcut.hi.2⟩
      · rcases List.mem_append.1 hq with hq | hq
        · rcases h.passed q hq with he | he
          · omega
          · right; omega
        · exact hpassed q hq
    · exact hsnoc

/-- What lies between the cursor and an admitted page is not admitted. -/
theorem Split.gap {staged done rest : List ℕ} {runs : List Run} {cursor lo : ℕ} (h : Split cfg r staged done runs cursor)
    (hstaged : staged = done ++ rest) (hcut : Cut cfg r ⟨false, cursor, lo⟩)
    (hrest : ∀ page ∈ rest, lo ≤ page * cfg.pageBytes) :
    Split cfg r staged done (runs ++ [⟨false, cursor, lo⟩]) lo := by
  have hlt : cursor < lo := hcut.lt
  have hle : lo ≤ r.stop := hcut.hi.1
  have hend : Split cfg r staged (done ++ []) (runs ++ [⟨false, cursor, lo⟩]) lo := by
    refine h.snoc rfl hcut rfl (fun _ page hp hm => ?_) (by simp)
    obtain ⟨h1, h2⟩ := (mem_pagesOf hlt).1 hp
    rw [hstaged] at hm
    rcases List.mem_append.1 hm with hm | hm
    · rcases h.passed page hm with he | he <;> omega
    · have := hrest page hm
      omega
  rwa [List.append_nil] at hend

/-- **One admitted page more.** -/
theorem Split.step {staged done rest : List ℕ} {runs : List Run} {cursor page : ℕ}
    (h : Split cfg r staged done runs cursor) (hstaged : staged = done ++ page :: rest)
    (hsorted : staged.Pairwise (· < ·)) (hpage : page ∈ pagesOf cfg r.address r.stop)
    (hcursor : cursor ≤ max r.address (page * cfg.pageBytes)) :
    Split cfg r staged (done ++ [page]) (addRun cfg r (runs, cursor) page).1 (addRun cfg r (runs, cursor) page).2 := by
  obtain ⟨h1, h2⟩ := (mem_pagesOf r.lt_stop).1 hpage
  have hr := r.lt_stop
  rw [hstaged, List.pairwise_append] at hsorted
  have hahead : ∀ q ∈ page :: rest, page * cfg.pageBytes ≤ q * cfg.pageBytes := fun q hq => by
    refine Nat.mul_le_mul_right _ ?_
    rcases List.mem_cons.1 hq with rfl | hq
    · exact le_rfl
    · exact ((List.pairwise_cons.1 hsorted.2.1).1 q hq).le
  unfold addRun
  simp only []
  split
  · next hlt =>
    have hlo : max r.address (page * cfg.pageBytes) = page * cfg.pageBytes := by
      have := h.bound.1
      omega
    rw [hlo] at hlt ⊢
    have hcut : Cut cfg r ⟨false, cursor, page * cfg.pageBytes⟩ := by
      refine ⟨hlt, ⟨h.bound.1, h.bound.2.2.imp id fun he => he.resolve_left ?_⟩, h2.le, .inr (Nat.dvd_mul_left _ _)⟩
      omega
    have hjoin := (h.gap hstaged hcut hahead).join hpage hlo.symm
    rwa [hlo] at hjoin
  · next hge => exact h.join hpage (by omega)

/-- What is known of the runs of a request. -/
structure RunsOf (cfg : NandConfig) (r : AccessRequest) (staged : List ℕ) (runs : List Run) : Prop where
  cut : ∀ run ∈ runs, Cut cfg r run
  pages : runs.flatMap (Run.pages cfg) = staged
  free : ∀ run ∈ runs, run.tail = false → ∀ page ∈ pagesOf cfg run.lo run.hi, page ∉ staged
  whole : ∀ run, runs = [run] → run.lo = r.address ∧ run.hi = r.stop

theorem foldl_addRun {staged : List ℕ} (hsorted : staged.Pairwise (· < ·))
    (hin : ∀ page ∈ staged, page ∈ pagesOf cfg r.address r.stop) : ∀ {rest done : List ℕ} {runs : List Run} {cursor : ℕ},
    staged = done ++ rest → Split cfg r staged done runs cursor →
    (∀ page ∈ rest, cursor ≤ max r.address (page * cfg.pageBytes)) →
    Split cfg r staged staged (rest.foldl (addRun cfg r) (runs, cursor)).1 (rest.foldl (addRun cfg r) (runs, cursor)).2
  | [], done, runs, cursor, hstaged, h, _ => by
    rw [List.append_nil] at hstaged
    rw [hstaged] at h ⊢
    exact h
  | page :: rest, done, runs, cursor, hstaged, h, hcursor => by
    have hstep := h.step hstaged hsorted (hin page (by simp [hstaged])) (hcursor page (by simp))
    rw [List.foldl_cons]
    refine foldl_addRun hsorted hin (by simp [hstaged]) hstep fun q hq => ?_
    rw [hstaged, List.pairwise_append] at hsorted
    have hlt : page < q := (List.pairwise_cons.1 hsorted.2.1).1 q hq
    exact (min_le_right _ _).trans ((Nat.mul_le_mul_right _ hlt).trans (le_max_right _ _))

/-- **The runs of a request tile it, its admitted pages in the runs for the store.** -/
theorem splitRuns_spec {staged : List ℕ} (hsorted : staged.Pairwise (· < ·))
    (hin : ∀ page ∈ staged, page ∈ pagesOf cfg r.address r.stop) : RunsOf cfg r staged (splitRuns cfg r staged) := by
  have h := foldl_addRun hsorted hin rfl (Split.nil cfg r staged) fun page _ => le_max_left _ _
  unfold splitRuns
  generalize staged.foldl (addRun cfg r) ([], r.address) = acc at h
  obtain ⟨runs, cursor⟩ := acc
  simp only [] at h ⊢
  have hwhole : ∀ {runs : List Run} {cursor : ℕ}, Split cfg r staged staged runs cursor → cursor = r.stop →
      RunsOf cfg r staged runs := by
    intro runs cursor h hcursor
    refine ⟨h.cut, h.pages, h.free, fun run hr => ?_⟩
    subst hr
    exact ⟨h.starts run rfl, (h.ends run rfl).trans hcursor⟩
  split
  · next hlt =>
    have hcut : Cut cfg r ⟨false, cursor, r.stop⟩ :=
      ⟨hlt, ⟨h.bound.1, h.bound.2.2.imp id fun he => he.resolve_left (by omega)⟩, le_rfl, .inl rfl⟩
    exact hwhole (h.gap (List.append_nil staged).symm hcut (by simp)) rfl
  · next hge => exact hwhole h (by have := h.bound.2.1; omega)

end HeteroSim.Nand
