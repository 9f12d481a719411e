/-
What a transaction of the page staging leads back to. The view of an open
transaction is its first images over the live pages and scopes; an edit that
remembers what it changes leaves every view as it was, and a rollback makes
the newest view the live image.
-/
import HeteroSim.Nand.Submit

namespace HeteroSim.Nand

/-- What the staging invariants speak of. -/
structure Image where
  pages : ℕ → Option TailEntry
  scopes : String → Option (Finset ℕ)
  valid : ℕ → Int

theorem Image.ext {i j : Image} (hp : i.pages = j.pages) (hs : i.scopes = j.scopes) (hv : i.valid = j.valid) :
    i = j := by
  cases i; cases j; simp only at hp hs hv; subst hp hs hv; rfl

def imageOf (s : NandState) : Image := ⟨s.tailPages.get?, s.tailFullScopes.get?, s.counters.valid⟩

def viewOf (t : NandTransaction) (s : NandState) : Image :=
  ⟨fun page => (t.tailPages.get? page).getD (s.tailPages.get? page), (t.tailScopes.getD s.tailFullScopes).get?,
    t.tailCounters.valid⟩

/-- The images the open transactions lead back to, newest first. -/
def views (s : NandState) : List Image := s.transactions.map fun t => viewOf t s

/-- An outer transaction remembers what an inner one does. -/
def Nested (s : NandState) : Prop := s.transactions.Pairwise fun inner outer =>
  (∀ page ∈ inner.tailPages.keys, page ∈ outer.tailPages.keys) ∧ (inner.tailScopes.isSome → outer.tailScopes.isSome)

/-- What no edit of the staging touches, and what its journal keeps. -/
structure Frame (s s' : NandState) : Prop where
  config : s'.config = s.config
  defer : s'.tailDeferScope = s.tailDeferScope
  shared : s'.tailShared = s.tailShared
  fraction : s'.tailFraction = s.tailFraction
  views : views s' = views s
  nested : Nested s → Nested s'

theorem Frame.refl (s : NandState) : Frame s s := ⟨rfl, rfl, rfl, rfl, rfl, fun h => h⟩

theorem Frame.trans {s s' s'' : NandState} (h : Frame s s') (h' : Frame s' s'') : Frame s s'' :=
  ⟨h'.config.trans h.config, h'.defer.trans h.defer, h'.shared.trans h.shared, h'.fraction.trans h.fraction,
    h'.views.trans h.views, fun hn => h'.nested (h.nested hn)⟩

theorem Frame.deferScope {s s' : NandState} (h : Frame s s') : deferScope s' = deferScope s := by
  unfold Nand.deferScope
  rw [h.config, h.defer]

/-! ## Edits that keep the journal -/

theorem views_map {s s' : NandState} {g : NandTransaction → NandTransaction}
    (ht : s'.transactions = s.transactions.map g) (hv : ∀ t, viewOf (g t) s' = viewOf t s) : views s' = views s := by
  rw [views, ht, List.map_map, views]
  exact List.map_congr_left fun t _ => hv t

theorem nested_map {s s' : NandState} {g : NandTransaction → NandTransaction}
    (ht : s'.transactions = s.transactions.map g)
    (hp : ∃ more : List ℕ, ∀ t page, page ∈ (g t).tailPages.keys ↔ page ∈ more ∨ page ∈ t.tailPages.keys)
    (hs : (∀ t, (g t).tailScopes.isSome) ∨ ∀ t, (g t).tailScopes = t.tailScopes) (h : Nested s) : Nested s' := by
  obtain ⟨more, hp⟩ := hp
  rw [Nested, ht, List.pairwise_map]
  refine h.imp fun {inner outer} hio => ⟨fun page hpage => ?_, fun hi => ?_⟩
  · rw [hp] at hpage ⊢
    exact hpage.imp id (hio.1 page)
  · rcases hs with hs | hs
    · exact hs outer
    · rw [hs] at hi ⊢
      exact hio.2 hi

/-- Only what the views do not hold changes. -/
theorem frame_same {s s' : NandState} (hc : s'.config = s.config) (hd : s'.tailDeferScope = s.tailDeferScope)
    (hh : s'.tailShared = s.tailShared) (hf : s'.tailFraction = s.tailFraction)
    (ht : s'.transactions = s.transactions) (hp : s'.tailPages = s.tailPages)
    (hs : s'.tailFullScopes = s.tailFullScopes) : Frame s s' := by
  refine ⟨hc, hd, hh, hf, ?_, fun h => by rw [Nested, ht]; exact h⟩
  rw [views, views, ht]
  exact List.map_congr_left fun t _ => by simp only [viewOf, hp, hs]

theorem frame_spilled {s s' : NandState} (hc : s'.config = s.config) (hd : s'.tailDeferScope = s.tailDeferScope)
    (hh : s'.tailShared = s.tailShared) (hf : s'.tailFraction = s.tailFraction)
    (ht : s'.transactions = (tailSpilledRemember s).transactions) (hp : s'.tailPages = s.tailPages)
    (hs : s'.tailFullScopes = s.tailFullScopes) : Frame s s' := by
  refine ⟨hc, hd, hh, hf, views_map ht fun t => ?_, nested_map ht ⟨[], fun t page => ?_⟩ (.inr fun t => rfl)⟩
  · simp only [viewOf, hp, hs]
    rfl
  · simp [NandTransaction.rememberTailSpilled]

theorem mem_rememberTail {s : NandState} {page q : ℕ} {t : NandTransaction} :
    q ∈ (t.rememberTail s page).tailPages.keys ↔ q ∈ [page] ∨ q ∈ t.tailPages.keys := by
  rw [NandTransaction.rememberTail, Dict.mem_keys, Dict.mem_keys]
  simp only [Dict.get?_setDefault, List.mem_singleton]
  by_cases hq : q = page
  · simp [hq]
  · simp [hq]

/-- A page remembered first may change. -/
theorem frame_page {s s' : NandState} (page : ℕ) (hc : s'.config = s.config)
    (hd : s'.tailDeferScope = s.tailDeferScope) (hh : s'.tailShared = s.tailShared)
    (hf : s'.tailFraction = s.tailFraction) (ht : s'.transactions = (tailRemember page s).transactions)
    (hp : ∀ q, q ≠ page → s'.tailPages.get? q = s.tailPages.get? q) (hs : s'.tailFullScopes = s.tailFullScopes) :
    Frame s s' := by
  refine ⟨hc, hd, hh, hf, views_map ht fun t => Image.ext (funext fun q => ?_) ?_ rfl,
    nested_map ht ⟨[page], fun t q => mem_rememberTail⟩ (.inr fun t => rfl)⟩
  · simp only [viewOf, NandTransaction.rememberTail, Dict.get?_setDefault]
    by_cases hq : q = page
    · subst hq; simp
    · simp only [hq, if_false, hp q hq]
  · simp only [viewOf, hs]
    rfl

/-- The scopes remembered first may change. -/
theorem frame_scopes {s s' : NandState} (hc : s'.config = s.config) (hd : s'.tailDeferScope = s.tailDeferScope)
    (hh : s'.tailShared = s.tailShared) (hf : s'.tailFraction = s.tailFraction)
    (ht : s'.transactions = (tailScopeRemember s).transactions) (hp : s'.tailPages = s.tailPages) : Frame s s' := by
  refine ⟨hc, hd, hh, hf, views_map ht fun t => Image.ext (funext fun q => ?_) ?_ rfl,
    nested_map ht ⟨[], fun t q => ?_⟩ (.inl fun t => rfl)⟩
  · simp only [viewOf, hp]
    rfl
  · simp only [viewOf, NandTransaction.rememberTailScopes, Option.getD_some]
  · simp [NandTransaction.rememberTailScopes]

/-! ## Transactions -/

theorem views_begin (s : NandState) : views (beginTransaction s) = imageOf s :: views s := by
  have hnew : viewOf ⟨.empty, none, none, s.counters⟩ (beginTransaction s) = imageOf s :=
    Image.ext (funext fun _ => rfl) rfl rfl
  rw [views, beginTransaction, List.map_cons]
  exact congrArg₂ _ hnew rfl

theorem nested_begin {s : NandState} (h : Nested s) : Nested (beginTransaction s) := by
  refine List.pairwise_cons.2 ⟨fun outer _ => ⟨fun page hpage => ?_, fun hsome => ?_⟩, h⟩
  · cases hpage
  · cases hsome

theorem views_commit (s : NandState) : views (commitTransaction s) = (views s).tail := by
  rw [views, views, commitTransaction, List.map_tail]
  rfl

theorem nested_commit {s : NandState} (h : Nested s) : Nested (commitTransaction s) := h.sublist (List.tail_sublist _)

/-- **A rollback makes the newest view the live image, and leaves the others.** -/
theorem rollback_image {s : NandState} (h : Nested s) :
    imageOf (rollbackTransaction s) = (views s).headD (imageOf s) ∧
      views (rollbackTransaction s) = (views s).tail ∧ Nested (rollbackTransaction s) ∧
      (rollbackTransaction s).config = s.config := by
  unfold rollbackTransaction
  cases htx : s.transactions with
  | nil =>
    have hv : views s = [] := by rw [views, htx]; rfl
    rw [hv]
    exact ⟨rfl, rfl, h, rfl⟩
  | cons t rest =>
    rw [Nested, htx, List.pairwise_cons] at h
    have hpages : ∀ page, (t.tailPages.items.foldl (fun pages p => pages.put p.1 p.2) s.tailPages).get? page =
        (t.tailPages.get? page).getD (s.tailPages.get? page) := fun page =>
      Dict.get?_foldl_put t.tailPages.items s.tailPages page t.tailPages.nodup
    have hv : views s = viewOf t s :: rest.map fun t => viewOf t s := by rw [views, htx, List.map_cons]
    rw [hv]
    refine ⟨Image.ext (funext hpages) rfl rfl, ?_, h.2, rfl⟩
    refine List.map_congr_left fun outer houter => Image.ext (funext fun page => ?_) ?_ rfl
    · -- what the inner transaction restores, the outer one remembers
      show (outer.tailPages.get? page).getD _ = (outer.tailPages.get? page).getD _
      cases ho : outer.tailPages.get? page with
      | some x => rfl
      | none =>
        have hi : t.tailPages.get? page = none := by
          rw [Dict.get?_eq_none] at ho ⊢
          exact fun hm => ho ((h.1 outer houter).1 page hm)
        rw [Option.getD_none, Option.getD_none]
        refine (hpages page).trans ?_
        rw [hi, Option.getD_none]
    · show (outer.tailScopes.getD (t.tailScopes.getD s.tailFullScopes)).get? = (outer.tailScopes.getD s.tailFullScopes).get?
      cases ho : outer.tailScopes with
      | some x => rfl
      | none =>
        have hi : t.tailScopes = none := by
          cases hts : t.tailScopes with
          | none => rfl
          | some x =>
            have := (h.1 outer houter).2 (by rw [hts]; rfl)
            rw [ho] at this
            cases this
        rw [hi]
        rfl

/-! ## What holds of every image -/

/-- It holds of the live image and of every image a rollback leads back to. -/
structure Throughout (P : Image → Prop) (s : NandState) : Prop where
  live : P (imageOf s)
  views : ∀ i ∈ views s, P i

variable {P : Image → Prop}

theorem Throughout.edits {s s' : NandState} (h : Throughout P s) (hv : Nand.views s' = Nand.views s)
    (hp : P (imageOf s')) : Throughout P s' := ⟨hp, hv ▸ h.views⟩

theorem Throughout.beginTransaction {s : NandState} (h : Throughout P s) : Throughout P (beginTransaction s) := by
  refine ⟨h.live, fun i hi => ?_⟩
  rw [views_begin] at hi
  rcases List.mem_cons.1 hi with rfl | hi
  · exact h.live
  · exact h.views i hi

theorem Throughout.commitTransaction {s : NandState} (h : Throughout P s) : Throughout P (commitTransaction s) := by
  refine ⟨h.live, fun i hi => ?_⟩
  rw [views_commit] at hi
  exact h.views i (List.mem_of_mem_tail hi)

theorem Throughout.rollbackTransaction {s : NandState} (h : Throughout P s) (hn : Nested s) :
    Throughout P (rollbackTransaction s) := by
  obtain ⟨himage, hviews, -, -⟩ := rollback_image hn
  refine ⟨?_, fun i hi => ?_⟩
  · rw [himage]
    cases hv : Nand.views s with
    | nil => exact h.live
    | cons i rest => exact h.views i (by simp [hv])
  · rw [hviews] at hi
    exact h.views i (List.mem_of_mem_tail hi)

end HeteroSim.Nand
