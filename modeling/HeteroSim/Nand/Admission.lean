/-
The store's books: every copy's bytes are the length of its ranges, and each
host channel's counter is the sum of the bytes its copies hold. Every edit
moves one page, so a counter moves by the difference of that page's bytes.
-/
import HeteroSim.Nand.Edits

namespace HeteroSim.Nand

/-- A copy counts the bytes of its ranges, on its page's channel. -/
structure Kept (cfg : NandConfig) (page : ℕ) (entry : TailEntry) : Prop where
  apart : Separated entry.ranges
  bytes : entry.valid = totalLength entry.ranges
  channel : entry.channel = tailChannel cfg page

/-- What a copy counts for on a channel. -/
def load (channel : ℕ) (entry : TailEntry) : Int := if entry.channel = channel then entry.valid else 0

structure Books (cfg : NandConfig) (i : Image) : Prop where
  kept : ∀ page entry, i.pages page = some entry → Kept cfg page entry
  counted : ∀ channel, Tally (load channel) i.pages (i.valid channel)

variable {cfg : NandConfig} {defer : Option String} {E W : ℕ → Prop}

theorem totalLength_nonneg {ranges : List Gap} (h : Separated ranges) : 0 ≤ totalLength ranges := by
  refine List.sum_nonneg fun n hn => ?_
  obtain ⟨g, hg, rfl⟩ := List.mem_map.1 hn
  have := h.proper g hg
  omega

theorem Kept.nonneg {page : ℕ} {entry : TailEntry} (h : Kept cfg page entry) : 0 ≤ entry.valid := by
  rw [h.bytes]
  exact totalLength_nonneg h.apart

theorem setValid_apply (channel c : ℕ) (n : Int) (valid : ℕ → Int) :
    setValid channel n valid c = if c = channel then n else valid c := Function.update_apply valid channel n c

theorem books_empty (cfg : NandConfig) (scopes : String → Option (Finset ℕ)) :
    Books cfg ⟨fun _ => none, scopes, fun _ => 0⟩ :=
  ⟨fun _ _ h => absurd h (by simp), fun _ => tally_none _⟩

/-- One page changes, and the counters with it. -/
theorem Books.update {i : Image} (h : Books cfg i) (page : ℕ) (x : Option TailEntry)
    (scopes : String → Option (Finset ℕ)) (valid : ℕ → Int) (hx : ∀ entry ∈ x, Kept cfg page entry)
    (hv : ∀ c, valid c = i.valid c - weight (load c) (i.pages page) + weight (load c) x) :
    Books cfg ⟨Function.update i.pages page x, scopes, valid⟩ := by
  refine ⟨fun q entry hq => ?_, fun c => ?_⟩
  · by_cases hne : q = page
    · subst hne
      exact hx entry ((Function.update_self q x i.pages).symm.trans hq)
    · exact h.kept q entry ((Function.update_of_ne hne x i.pages).symm.trans hq)
  · simp only [hv c]
    exact (h.counted c).update page x

theorem Books.drop {i : Image} {page : ℕ} {entry : TailEntry} (h : Books cfg i) (hp : i.pages page = some entry)
    (scopes : String → Option (Finset ℕ)) : Books cfg { i.drop page entry with scopes := scopes } := by
  refine h.update page none scopes _ (fun _ he => by cases he) fun c => ?_
  simp only [hp, Image.drop, setValid_apply, weight_some, weight_none, load]
  by_cases hc : c = entry.channel
  · subst hc; simp
  · simp [hc, Ne.symm hc]

/-- The ranges a write starts from are apart. -/
theorem staging_separated {x : Option TailEntry} {page : ℕ} (hx : ∀ entry ∈ x, Kept cfg page entry) {lo hi : Int}
    (hlo : 0 ≤ lo) (hlt : lo < hi) (valid : ℕ → Int) : Separated (staging x lo hi valid).1 := by
  have hone : Separated [Gap.mk 0 hi] := separated_cons.2 ⟨by simp; omega, by simp, separated_nil⟩
  unfold staging
  split
  · next entry =>
    split
    · refine (mergeRanges_spec _ fun g hg => ?_).1
      rcases List.mem_append.1 hg with hg | hg
      · exact (hx entry rfl).apart.proper g hg
      · rw [List.mem_singleton.1 hg]
        exact hlt
    · exact hone
  · exact hone

/-- The counters after the write, channel by channel. -/
theorem Stored.counted {i : Image} {page : ℕ} {lo hi : Int} {entry : TailEntry} {valid : ℕ → Int}
    (h : Stored cfg i page lo hi entry valid) (hx : ∀ old ∈ i.pages page, old.channel = tailChannel cfg page) (c : ℕ) :
    valid c = i.valid c - weight (load c) (i.pages page) + weight (load c) (some entry) := by
  rw [h.counts]
  cases hp : i.pages page with
  | none =>
    simp only [staging, setValid_apply, weight_none, weight_some, load, h.channel]
    by_cases hc : c = tailChannel cfg page
    · subst hc; simp
    · simp [hc, Ne.symm hc]
  | some old =>
    have hold : old.channel = tailChannel cfg page := hx old hp
    simp only [staging, weight_some, load, h.channel, hold]
    by_cases hf : old.flush = none
    · by_cases hc : c = tailChannel cfg page
      · subst hc
        simp only [hf, if_true, setValid_apply]
        omega
      · simp [hf, hc, Ne.symm hc, setValid_apply]
    · by_cases hc : c = tailChannel cfg page
      · subst hc
        simp only [hf, if_true, if_false, setValid_apply]
        omega
      · simp [hf, hc, Ne.symm hc, setValid_apply]

/-- **Every edit keeps the books.** -/
theorem Edit.books {i j : Image} (h : Edit cfg defer E W i j) (hb : Books cfg i) : Books cfg j := by
  cases h with
  | retire page entry stop hp hf => exact hb.drop hp i.scopes
  | start page entry stop he hp hf =>
    have hold := hb.kept page entry hp
    refine hb.update page _ i.scopes i.valid (fun e hm => ?_) fun c => ?_
    · obtain rfl := Option.some.inj hm
      exact ⟨hold.apart, hold.bytes, hold.channel⟩
    · rw [hp]
      simp only [weight_some, load]
      omega
  | write page lo hi entry valid scopes hw h hl =>
    have hold : ∀ old ∈ i.pages page, Kept cfg page old := fun old ho => hb.kept page old ho
    refine hb.update page _ scopes valid (fun e hm => ?_) (h.counted fun old ho => (hold old ho).channel)
    obtain rfl := Option.some.inj hm
    refine ⟨?_, h.bytes, h.channel⟩
    rw [h.ranges]
    exact staging_separated hold h.span.1 h.span.2.1 i.valid
  | discard page entry hp => exact hb.drop hp _
  | take scope => exact ⟨hb.kept, hb.counted⟩

theorem Path.books {i j : Image} (h : Path cfg defer E W i j) (hb : Books cfg i) : Books cfg j :=
  h.keeps Edit.books hb

theorem Edits.books {s s' : NandState} (h : Edits E W s s') (hb : Books s.config (imageOf s)) :
    Books s'.config (imageOf s') := by
  rw [h.frame.config]
  exact h.path.books hb

end HeteroSim.Nand

/-!
Admission and the room it counts on. The pages kept fit one after another:
each grows its channel by what the write of it will add. A copy that retires
before the write gives its bytes back, and the page it was the copy of then
grows by as much more, so the pages still fit.
-/

namespace HeteroSim.Nand

variable {cfg : NandConfig} {span : ℕ → Int × Int} {room : Int} {E W : ℕ → Prop}

/-- The pages, written in order, stay within the room. -/
def Fits (cfg : NandConfig) (span : ℕ → Int × Int) (room : Int) (pages : ℕ → Option TailEntry) :
    List ℕ → (ℕ → Int) → Prop
  | [], _ => True
  | page :: rest, valid =>
    let staged := valid (tailChannel cfg page) + growth (pages page) (span page).1 (span page).2
    staged ≤ room ∧ Fits cfg span room pages rest (setValid (tailChannel cfg page) staged valid)

theorem setValid_mono {channel : ℕ} {n m : Int} {valid valid' : ℕ → Int} (hnm : n ≤ m)
    (h : ∀ c, valid c ≤ valid' c) (c : ℕ) : setValid channel n valid c ≤ setValid channel m valid' c := by
  rw [setValid_apply, setValid_apply]
  split
  · exact hnm
  · exact h c

theorem Fits.congr {span' : ℕ → Int × Int} {pages pages' : ℕ → Option TailEntry} : ∀ {rest : List ℕ} {valid : ℕ → Int},
    Fits cfg span room pages rest valid → (∀ page ∈ rest, span' page = span page) →
    (∀ page ∈ rest, pages' page = pages page) → Fits cfg span' room pages' rest valid
  | [], _, _, _, _ => trivial
  | page :: rest, valid, h, hs, hp => by
    simp only [Fits, hs page (by simp), hp page (by simp)] at h ⊢
    exact ⟨h.1, h.2.congr (fun q hq => hs q (by simp [hq])) fun q hq => hp q (by simp [hq])⟩

/-- A copy whose program ran retires: what is left fits as before. -/
theorem Fits.retire {pages : ℕ → Option TailEntry} {page : ℕ} {entry : TailEntry} {stop : Time}
    (hp : pages page = some entry) (hf : entry.flush = some stop) (hn : 0 ≤ entry.valid) :
    ∀ {rest : List ℕ} {valid valid' : ℕ → Int}, Fits cfg span room pages rest valid → rest.Nodup →
    (∀ c, valid' c ≤ valid c) →
    (page ∈ rest → valid' (tailChannel cfg page) ≤ valid (tailChannel cfg page) - entry.valid) →
    Fits cfg span room (Function.update pages page none) rest valid'
  | [], _, _, _, _, _, _ => trivial
  | q :: rest, valid, valid', h, hd, hle, hpage => by
    obtain ⟨hq, hd⟩ := List.nodup_cons.1 hd
    simp only [Fits] at h ⊢
    by_cases hqp : q = page
    · subst hqp
      have hgrow : growth (pages q) (span q).1 (span q).2 = (span q).2 - entry.valid := by
        simp [growth, hp, hf]
      have hnone : growth (Function.update pages q none q) (span q).1 (span q).2 = (span q).2 := by
        rw [Function.update_self]; rfl
      have hhead := hpage (by simp)
      rw [hgrow] at h
      rw [hnone]
      refine ⟨by omega, h.2.retire hp hf hn hd (setValid_mono (by omega) hle) fun hm => absurd hm hq⟩
    · rw [Function.update_of_ne hqp]
      have hhead := hle (tailChannel cfg q)
      refine ⟨by omega, h.2.retire hp hf hn hd (setValid_mono (by omega) hle) fun hm => ?_⟩
      have hback := hpage (by simp [hm])
      simp only [setValid_apply]
      split
      · next hc => rw [hc] at hback; omega
      · exact hback

/-- What a release leaves still fits. -/
theorem Fits.drop {i : Image} {page : ℕ} {entry : TailEntry} {stop : Time} {rest : List ℕ} (hb : Books cfg i)
    (hp : i.pages page = some entry) (hf : entry.flush = some stop) (hd : rest.Nodup)
    (h : Fits cfg span room i.pages rest i.valid) :
    Fits cfg span room (i.drop page entry).pages rest (i.drop page entry).valid := by
  have hk := hb.kept page entry hp
  have hn := hk.nonneg
  refine h.retire hp hf hn hd (fun c => ?_) fun _ => ?_
  · simp only [Image.drop, setValid_apply]
    split
    · next hc => rw [hc]; omega
    · exact le_rfl
  · simp only [Image.drop, setValid_apply, hk.channel, if_true]
    exact le_rfl

/-! ## Admission -/

/-- What is known of an admission of `rest` from `s`, with `valid` predicted:
it keeps `ks`, which fit, and every other page is spilled. -/
structure Admission (cfg : NandConfig) (span : ℕ → Int × Int) (room : Int) (rest : List ℕ) (s : NandState)
    (valid : ℕ → Int) (ks : List ℕ) (s' : NandState) : Prop where
  sublist : ks.Sublist rest
  edits : ∀ W, Edits (fun page => page ∈ rest ∧ page ∉ ks) W s s'
  same : ∀ page, page ∉ rest ∨ page ∈ ks → s'.tailPages.get? page = s.tailPages.get? page
  counts : s'.counters.valid = s.counters.valid
  fits : Fits cfg span room s'.tailPages.get? ks valid
  spilled : ∀ page, page ∈ s.tailSpilled ∨ (page ∈ rest ∧ page ∉ ks) → page ∈ s'.tailSpilled

theorem evictFilling_spec (page : ℕ) (stop : Time) (s : NandState) :
    (∀ q, q ≠ page → (evictFilling page stop s).tailPages.get? q = s.tailPages.get? q) ∧
    (evictFilling page stop s).counters.valid = s.counters.valid ∧
    (evictFilling page stop s).tailSpilled = s.tailSpilled := by
  unfold evictFilling
  split
  · split
    · exact ⟨fun q hq => Dict.get?_insert_of_ne _ _ hq, rfl, rfl⟩
    · exact ⟨fun _ _ => rfl, rfl, rfl⟩
  · exact ⟨fun _ _ => rfl, rfl, rfl⟩

/-- A page that is not kept is spilled; the rest is admitted after it. -/
theorem Admission.spill {rest ks : List ℕ} {s t s' : NandState} {valid : ℕ → Int} {page : ℕ}
    (hpage : page ∉ rest) (ht : ∀ W, Edits (fun q => q = page) W s t)
    (hsame : ∀ q, q ≠ page → t.tailPages.get? q = s.tailPages.get? q) (hv : t.counters.valid = s.counters.valid)
    (hsp : t.tailSpilled = insert page s.tailSpilled) (h : Admission cfg span room rest t valid ks s') :
    Admission cfg span room (page :: rest) s valid ks s' := by
  have hks : page ∉ ks := fun hm => hpage (h.sublist.subset hm)
  refine ⟨h.sublist.cons page, fun W => ?_, fun q hq => ?_, h.counts.trans hv, h.fits, fun q hq => h.spilled q ?_⟩
  · exact ((ht W).mono (fun q hq => ⟨by simp [hq], hq ▸ hks⟩) fun _ hq => hq).trans
      ((h.edits W).mono (fun q hq => ⟨by simp [hq.1], hq.2⟩) fun _ hq => hq)
  · have hne : q ≠ page := fun he => by
      subst he
      exact hq.elim (fun hm => hm (by simp)) hks
    rw [h.same q (hq.imp (fun hm hr => hm (by simp [hr])) id), hsame q hne]
  · rw [hsp, Finset.mem_insert]
    rcases hq with hq | ⟨hq, hk⟩
    · exact .inl (.inr hq)
    · rcases List.mem_cons.1 hq with rfl | hq
      · exact .inl (.inl rfl)
      · exact .inr ⟨hq, hk⟩

/-- **The pages kept fit, and the others are spilled.** -/
theorem foldl_admitPage (m : Media) (r : AccessRequest) (room : Int) : ∀ (rest : List ℕ) (s : NandState)
    (valid : ℕ → Int) (kept : List ℕ), rest.Nodup → ∃ ks s' valid',
    rest.foldl (admitPage m r room) (s, valid, kept) = (s', valid', kept ++ ks) ∧
      Admission s.config (pageSpan s.config r) room rest s valid ks s'
  | [], s, valid, kept, _ => ⟨[], s, valid, by simp, .slnil, fun _ => .refl s, fun _ _ => rfl, rfl, trivial,
      fun page h => h.elim id fun h => absurd h.1 (by simp)⟩
  | page :: rest, s, valid, kept, hd => by
    obtain ⟨hpage, hd⟩ := List.nodup_cons.1 hd
    rw [List.foldl_cons]
    -- the page is spilled, in the state `t`
    have hspill : ∀ t : NandState, admitPage m r room (s, valid, kept) page = (t, valid, kept) →
        (∀ W, Edits (fun q => q = page) W s t) → (∀ q, q ≠ page → t.tailPages.get? q = s.tailPages.get? q) →
        t.counters.valid = s.counters.valid → t.tailSpilled = insert page s.tailSpilled →
        ∃ ks s' valid', rest.foldl (admitPage m r room) (admitPage m r room (s, valid, kept) page) =
          (s', valid', kept ++ ks) ∧ Admission s.config (pageSpan s.config r) room (page :: rest) s valid ks s' := by
      intro t ht he hsame hv hsp
      obtain ⟨ks, s', valid', hfold, hadm⟩ := foldl_admitPage m r room rest t valid kept hd
      rw [(he (fun _ => False)).frame.config] at hadm
      exact ⟨ks, s', valid', by rw [ht, hfold], hadm.spill hpage he hsame hv hsp⟩
    by_cases hfraction : filling (s.tailPages.get? page) = false ∧ s.tailFraction < 1 ∧ s.tailFraction ≤ pageShare page
    · exact hspill _ (by simp only [admitPage, if_pos hfraction]) (fun W => tailSpill_edits page s) (fun _ _ => rfl)
        rfl rfl
    · by_cases hroom : room < valid (tailChannel s.config page) +
          growth (s.tailPages.get? page) (pageSpan s.config r page).1 (pageSpan s.config r page).2
      · obtain ⟨hsame, hv, hsp⟩ := evictFilling_spec page (m.stop page) s
        refine hspill (tailSpill page (evictFilling page (m.stop page) s))
          (by simp only [admitPage, if_neg hfraction, if_pos hroom])
          (fun W => ?_) hsame hv ?_
        · have hevict : Edits (fun q => q = page) W s (evictFilling page (m.stop page) s) :=
            evictFilling_edits (m.stop page) fun _ => rfl
          exact hevict.trans (tailSpill_edits page _)
        show insert page (evictFilling page (m.stop page) s).tailSpilled = _
        rw [hsp]
      · -- the page is kept: the state is as it was
        set valid' := setValid (tailChannel s.config page) (valid (tailChannel s.config page) +
          growth (s.tailPages.get? page) (pageSpan s.config r page).1 (pageSpan s.config r page).2) valid
        obtain ⟨ks, s', valid'', hfold, hadm⟩ := foldl_admitPage m r room rest s valid' (kept ++ [page]) hd
        have hstep : admitPage m r room (s, valid, kept) page = (s, valid', kept ++ [page]) := by
          simp only [admitPage, if_neg hfraction, if_neg hroom]
          rfl
        refine ⟨page :: ks, s', valid'', by rw [hstep, hfold, List.append_assoc, List.singleton_append], ?_⟩
        have hsame : s'.tailPages.get? page = s.tailPages.get? page := hadm.same page (.inl hpage)
        refine ⟨hadm.sublist.cons_cons page, fun W => (hadm.edits W).mono (fun q hq => ⟨by simp [hq.1], fun hm => ?_⟩)
          fun _ h => h, fun q hq => ?_, hadm.counts, ?_, fun q hq => hadm.spilled q ?_⟩
        · rcases List.mem_cons.1 hm with rfl | hm
          · exact hpage hq.1
          · exact hq.2 hm
        · by_cases hqp : q = page
          · rw [hqp, hsame]
          · exact hadm.same q (hq.imp (fun hm hr => hm (by simp [hr])) fun hm => (List.mem_cons.1 hm).resolve_left hqp)
        · simp only [Fits, hsame]
          exact ⟨by omega, hadm.fits⟩
        · rcases hq with hq | ⟨hq, hk⟩
          · exact .inl hq
          · have hne : q ≠ page := fun he => hk (by simp [he])
            exact .inr ⟨(List.mem_cons.1 hq).resolve_left hne, fun hm => hk (by simp [hm])⟩

/-- A release starts no copy filling. -/
theorem tailRelease_filling (now : Time) {s : NandState} {page : ℕ}
    (h : filling ((tailRelease now s).tailPages.get? page) = true) : filling (s.tailPages.get? page) = true := by
  obtain ⟨-, -, -, hkeep⟩ := tailRelease_keeps now s
  refine hkeep (fun i => filling (i.pages page) = true → filling (s.tailPages.get? page) = true) ?_ id h
  intro i q entry stop hi hq hf hfill
  by_cases hpq : page = q
  · rw [hpq, drop_pages, Function.update_self] at hfill
    cases hfill
  · exact hi (by rwa [drop_pages, Function.update_of_ne hpq] at hfill)

/-- What a request knows of the pages it keeps. -/
structure Admitted (r : AccessRequest) (staged : List ℕ) (s : NandState) (kept : List ℕ) (s' : NandState) : Prop where
  sublist : kept.Sublist staged
  edits : ∀ W, Edits (fun page => page ∈ staged ∧ page ∉ kept) W s s'
  fits : s.config.pageStagingBytesPerHostChannel ≠ 0 → Fits s.config (pageSpan s.config r)
    (s.config.pageStagingBytesPerHostChannel - s.tailShared) s'.tailPages.get? kept s'.counters.valid
  spilled : ∀ page, page ∈ s.tailSpilled ∨ (page ∈ staged ∧ page ∉ kept) → page ∈ s'.tailSpilled
  filling : ∀ page, page ∉ staged → filling (s'.tailPages.get? page) = true → filling (s.tailPages.get? page) = true

theorem admitted_spec (m : Media) (r : AccessRequest) {staged : List ℕ} {s : NandState} (hd : staged.Nodup) :
    Admitted r staged s (admitted m r staged s).1 (admitted m r staged s).2 := by
  unfold admitted
  split
  · obtain ⟨ks, s', valid', hfold, hadm⟩ := foldl_admitPage m r
      (s.config.pageStagingBytesPerHostChannel - s.tailShared) staged (tailRelease r.arrival s)
      (tailRelease r.arrival s).counters.valid [] hd
    have hrelease : ∀ E W, Edits E W s (tailRelease r.arrival s) := fun E W => tailRelease_edits r.arrival s
    have hframe := (hrelease (fun _ => False) fun _ => False).frame
    have hresult : tailAdmit m staged r s = (ks, s') := by
      simp only [tailAdmit, hframe.config, hframe.shared, hfold, List.nil_append]
    rw [hframe.config] at hadm
    rw [hresult]
    refine ⟨hadm.sublist, fun W => (hrelease _ W).trans (hadm.edits W), fun _ => ?_, fun page hp => hadm.spilled page ?_,
      fun page hp hf => tailRelease_filling r.arrival ?_⟩
    · rw [hadm.counts]
      exact hadm.fits
    · rw [(tailRelease_keeps r.arrival s).2.1]
      exact hp
    · rwa [hadm.same page (.inl hp)] at hf
  · next hnot =>
    refine ⟨.refl staged, fun W => .refl s, fun hlimit => ?_, fun page hp => hp.elim id fun h => absurd h.1 h.2,
      fun page _ h => h⟩
    have hnil : staged = [] := by_contra fun hne => hnot ⟨hne, hlimit⟩
    rw [hnil]
    trivial

end HeteroSim.Nand
