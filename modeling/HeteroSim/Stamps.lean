/-
Half-open ranges with a stamp each: who was stamped last, place by place. A
list in order tells the stamp of every place it holds; neighbours that touch
have different stamps, so the list is as short as it can be.
-/
import HeteroSim.RangeSets

namespace HeteroSim

/-- A range and its stamp, ordered by start, end and stamp. -/
abbrev Stamp := Gap ×ₗ ℕ

namespace Stamp

def range (a : Stamp) : Gap := (ofLex a).1

def seq (a : Stamp) : ℕ := (ofLex a).2

def mk (g : Gap) (seq : ℕ) : Stamp := toLex (g, seq)

@[simp] theorem range_mk (g : Gap) (n : ℕ) : (mk g n).range = g := rfl

@[simp] theorem seq_mk (g : Gap) (n : ℕ) : (mk g n).seq = n := rfl

theorem mk_eta (a : Stamp) : mk a.range a.seq = a := rfl

end Stamp

/-- A stamped range joins the last one if it goes on from it with its stamp, or follows; it may not overlap it. -/
def extendStamps (merged : List Stamp) (a : Stamp) : Option (List Stamp) :=
  match merged.getLast? with
  | none => some [a]
  | some last =>
    if a.range.lo < last.range.hi then none
    else if a.range.lo = last.range.hi ∧ a.seq = last.seq then
      some (merged.dropLast ++ [Stamp.mk (Gap.mk last.range.lo a.range.hi) a.seq])
    else some (merged ++ [a])

/-- `_merge_recency_ranges`; nothing for ranges that overlap. -/
def mergeStamps (l : List Stamp) : Option (List Stamp) :=
  ((l.filter fun a => a.range.lo < a.range.hi).insertionSort (· ≤ ·)).foldlM extendStamps []

def cutStamp (cut : Gap) (a : Stamp) : List Stamp := (cutRange cut a.range).map fun g => Stamp.mk g a.seq

/-- `_subtract_recency_ranges` -/
def subtractStamps (base : List Stamp) (cuts : List Gap) : Option (List Stamp) :=
  mergeStamps ((normalizeRanges cuts).foldl (fun result cut => result.flatMap (cutStamp cut)) base)

/-- The list with a range of it stamped anew: what is left of the others before it, it, what is left after it. -/
def spliceStamp (g : Gap) (seq : ℕ) : Bool → List Stamp → List Stamp
  | inserted, [] => if inserted then [] else [Stamp.mk g seq]
  | inserted, a :: l =>
    let fresh := if inserted then [] else [Stamp.mk g seq]
    if a.range.hi ≤ g.lo then a :: spliceStamp g seq inserted l
    else if g.hi ≤ a.range.lo then fresh ++ a :: spliceStamp g seq true l
    else (if a.range.lo < g.lo then [Stamp.mk (Gap.mk a.range.lo g.lo) a.seq] else []) ++ fresh ++
      (if g.hi < a.range.hi then [Stamp.mk (Gap.mk g.hi a.range.hi) a.seq] else []) ++ spliceStamp g seq true l

/-- The place has the stamp. -/
def Stamped (l : List Stamp) (x : Int) (n : ℕ) : Prop := ∃ a ∈ l, (a.range.lo ≤ x ∧ x < a.range.hi) ∧ a.seq = n

/-- In order, none empty, no two that could be one. -/
structure Normal (l : List Stamp) : Prop where
  proper : ∀ a ∈ l, a.range.lo < a.range.hi
  apart : l.Pairwise fun a b => a.range.hi < b.range.lo ∨ a.range.hi = b.range.lo ∧ a.seq ≠ b.seq

theorem normal_nil : Normal [] := ⟨fun _ ha => (by cases ha), .nil⟩

theorem normal_append {l m : List Stamp} : Normal (l ++ m) ↔ Normal l ∧ Normal m ∧
    ∀ a ∈ l, ∀ b ∈ m, a.range.hi < b.range.lo ∨ a.range.hi = b.range.lo ∧ a.seq ≠ b.seq := by
  constructor
  · rintro ⟨hp, ha⟩
    obtain ⟨h1, h2, h3⟩ := List.pairwise_append.1 ha
    exact ⟨⟨fun a h => hp a (List.mem_append_left m h), h1⟩, ⟨fun a h => hp a (List.mem_append_right l h), h2⟩, h3⟩
  · rintro ⟨⟨hp, ha⟩, ⟨hp', ha'⟩, h⟩
    refine ⟨fun a hm => ?_, List.pairwise_append.2 ⟨ha, ha', h⟩⟩
    obtain hm | hm := List.mem_append.1 hm
    · exact hp a hm
    · exact hp' a hm

theorem normal_singleton {a : Stamp} (h : a.range.lo < a.range.hi) : Normal [a] :=
  ⟨fun _ hb => (List.mem_singleton.1 hb) ▸ h, List.pairwise_singleton _ _⟩

theorem normal_cons {a : Stamp} {l : List Stamp} : Normal (a :: l) ↔ a.range.lo < a.range.hi ∧
    (∀ b ∈ l, a.range.hi < b.range.lo ∨ a.range.hi = b.range.lo ∧ a.seq ≠ b.seq) ∧ Normal l := by
  constructor
  · rintro ⟨hp, ha⟩
    obtain ⟨h1, h2⟩ := List.pairwise_cons.1 ha
    exact ⟨hp a List.mem_cons_self, h1, fun b hb => hp b (List.mem_cons_of_mem a hb), h2⟩
  · rintro ⟨ha, hl, hp, h2⟩
    refine ⟨fun b hb => ?_, List.pairwise_cons.2 ⟨hl, h2⟩⟩
    obtain rfl | hb := List.mem_cons.1 hb
    · exact ha
    · exact hp b hb

theorem stamped_append {l m : List Stamp} {x : Int} {n : ℕ} : Stamped (l ++ m) x n ↔ Stamped l x n ∨ Stamped m x n := by
  simp [Stamped, or_and_right, exists_or]

theorem stamped_cons {a : Stamp} {l : List Stamp} {x : Int} {n : ℕ} :
    Stamped (a :: l) x n ↔ ((a.range.lo ≤ x ∧ x < a.range.hi) ∧ a.seq = n) ∨ Stamped l x n := by simp [Stamped]

theorem holds_ranges {l : List Stamp} {x : Int} : Holds (l.map Stamp.range) x ↔ ∃ n, Stamped l x n := by
  simp only [Holds, Stamped, List.mem_map]
  constructor
  · rintro ⟨g, ⟨a, ha, rfl⟩, hx⟩
    exact ⟨a.seq, a, ha, hx, rfl⟩
  · rintro ⟨n, a, ha, hx, -⟩
    exact ⟨a.range, ⟨a, ha, rfl⟩, hx⟩

/-! ## Merging -/

theorem foldlM_extendStamps : ∀ {l merged : List Stamp}, Normal (merged ++ l) →
    l.foldlM extendStamps merged = some (merged ++ l)
  | [], merged, _ => by simp
  | a :: l, merged, h => by
    have hone : extendStamps merged a = some (merged ++ [a]) := by
      obtain rfl | ⟨front, last, rfl⟩ := List.eq_nil_or_concat merged
      · rfl
      · simp only [List.concat_eq_append] at h ⊢
        simp only [extendStamps, List.getLast?_concat]
        have hlast := (normal_append.1 h).2.2 last (List.mem_append_right _ List.mem_cons_self) a List.mem_cons_self
        rw [if_neg (by omega), if_neg (by omega)]
    rw [List.foldlM_cons, hone, Option.bind_eq_bind, Option.bind_some,
      @foldlM_extendStamps l (merged ++ [a]) (by rwa [List.append_assoc])]
    simp

/-- **Merging leaves a list in order as it is.** -/
theorem Normal.merge {l : List Stamp} (h : Normal l) : mergeStamps l = some l := by
  have hfilter : l.filter (fun a => a.range.lo < a.range.hi) = l :=
    List.filter_eq_self.2 fun a ha => decide_eq_true (h.proper a ha)
  have hsorted : l.Pairwise (· ≤ ·) := by
    refine h.apart.imp_of_mem fun {a b} ha _ hab => ?_
    have := h.proper a ha
    exact Prod.Lex.le_iff.2 (.inl (Gap.lt_of_lo (by change a.range.lo < b.range.lo; omega)))
  rw [mergeStamps, hfilter, hsorted.insertionSort_eq, foldlM_extendStamps (by rwa [List.nil_append]), List.nil_append]

/-! ## Cutting -/

theorem mem_cutStamp {cut : Gap} {a b : Stamp} (ha : a.range.lo < a.range.hi) (h : b ∈ cutStamp cut a) :
    b.range.lo < b.range.hi ∧ a.range.lo ≤ b.range.lo ∧ b.range.hi ≤ a.range.hi ∧ b.seq = a.seq := by
  obtain ⟨g, hg, rfl⟩ := List.mem_map.1 h
  obtain ⟨h1, h2, h3⟩ := mem_cutRange ha hg
  exact ⟨h1, h2, h3, rfl⟩

theorem stamped_cutStamp {cut : Gap} {a : Stamp} {x : Int} {n : ℕ} :
    Stamped (cutStamp cut a) x n ↔ ((a.range.lo ≤ x ∧ x < a.range.hi) ∧ a.seq = n) ∧ ¬(cut.lo ≤ x ∧ x < cut.hi) := by
  have h := @holds_cutRange cut a.range x
  simp only [Holds] at h
  simp only [Stamped, cutStamp, List.mem_map]
  constructor
  · rintro ⟨b, ⟨g, hg, rfl⟩, hx, hn⟩
    obtain ⟨h1, h2⟩ := h.1 ⟨g, hg, hx⟩
    exact ⟨⟨h1, hn⟩, h2⟩
  · rintro ⟨⟨h1, hn⟩, h2⟩
    obtain ⟨g, hg, hx⟩ := h.2 ⟨h1, h2⟩
    exact ⟨Stamp.mk g a.seq, ⟨g, hg, rfl⟩, hx, hn⟩

/-- Each stamped range replaced by pieces of itself, in order. -/
theorem Normal.flatMap {f : Stamp → List Stamp} : ∀ {l : List Stamp}, Normal l → (∀ a ∈ l, Normal (f a)) →
    (∀ a ∈ l, ∀ b ∈ f a, a.range.lo ≤ b.range.lo ∧ b.range.hi ≤ a.range.hi ∧ b.seq = a.seq) → Normal (l.flatMap f)
  | [], _, _, _ => normal_nil
  | a :: l, h, hf, hin => by
    obtain ⟨ha, hal, hl⟩ := normal_cons.1 h
    rw [List.flatMap_cons]
    refine normal_append.2 ⟨hf a List.mem_cons_self, hl.flatMap (fun b hb => hf b (List.mem_cons_of_mem a hb))
      fun b hb => hin b (List.mem_cons_of_mem a hb), fun b hb c hc => ?_⟩
    obtain ⟨d, hd, hcd⟩ := List.mem_flatMap.1 hc
    obtain ⟨-, h1, h2⟩ := hin a List.mem_cons_self b hb
    obtain ⟨h3, -, h4⟩ := hin d (List.mem_cons_of_mem a hd) c hcd
    have h5 := hal d hd
    rw [h2, h4]
    omega

theorem normal_cutStamp {cut : Gap} {a : Stamp} (ha : a.range.lo < a.range.hi) (hcut : cut.lo < cut.hi) :
    Normal (cutStamp cut a) := by
  obtain ⟨hp, hsep⟩ := separated_cutRange ha hcut
  refine ⟨fun b hb => (mem_cutStamp ha hb).1, ?_⟩
  rw [cutStamp, List.pairwise_map]
  exact hsep.imp fun hlt => .inl hlt

theorem stamped_flatMap {l : List Stamp} {f : Stamp → List Stamp} {x : Int} {n : ℕ} :
    Stamped (l.flatMap f) x n ↔ ∃ a ∈ l, Stamped (f a) x n := by
  simp only [Stamped, List.mem_flatMap]
  constructor
  · rintro ⟨b, ⟨a, ha, hb⟩, hx⟩
    exact ⟨a, ha, b, hb, hx⟩
  · rintro ⟨a, ha, b, hb, hx⟩
    exact ⟨b, ⟨a, ha, hb⟩, hx⟩

theorem foldl_cutStamp : ∀ {cuts : List Gap} {base : List Stamp}, Normal base → (∀ c ∈ cuts, c.lo < c.hi) →
    Normal (cuts.foldl (fun result cut => result.flatMap (cutStamp cut)) base) ∧
      ∀ x n, Stamped (cuts.foldl (fun result cut => result.flatMap (cutStamp cut)) base) x n ↔
        Stamped base x n ∧ ¬Holds cuts x
  | [], base, h, _ => ⟨h, by simp⟩
  | c :: cuts, base, h, hc => by
    have hcut := hc c List.mem_cons_self
    have hnormal : Normal (base.flatMap (cutStamp c)) :=
      h.flatMap (fun a ha => normal_cutStamp (h.proper a ha) hcut) fun a ha b hb => (mem_cutStamp (h.proper a ha) hb).2
    obtain ⟨h1, h2⟩ := foldl_cutStamp hnormal fun k hk => hc k (List.mem_cons_of_mem c hk)
    refine ⟨h1, fun x n => (h2 x n).trans ?_⟩
    rw [stamped_flatMap, holds_cons]
    simp only [stamped_cutStamp]
    constructor
    · rintro ⟨⟨a, ha, hx, hnot⟩, hrest⟩
      exact ⟨⟨a, ha, hx⟩, fun hor => hor.elim hnot hrest⟩
    · rintro ⟨⟨a, ha, hx⟩, hnot⟩
      exact ⟨⟨a, ha, hx, fun hin => hnot (.inl hin)⟩, fun hin => hnot (.inr hin)⟩

/-- **Places cut away lose their stamps, the others keep them.** -/
theorem Normal.subtract {base : List Stamp} (h : Normal base) (cuts : List Gap) : ∃ l, subtractStamps base cuts = some l ∧
    Normal l ∧ ∀ x n, Stamped l x n ↔ Stamped base x n ∧ ¬Holds cuts x := by
  obtain ⟨h1, h2⟩ := foldl_cutStamp h (normalizeRanges_separated cuts).proper
  exact ⟨_, h1.merge, h1, fun x n => by rw [h2, holds_normalizeRanges]⟩

/-! ## Stamping anew -/

/-- What is left of a stamped range before another. -/
def beforeStamp (g : Gap) (a : Stamp) : List Stamp :=
  if a.range.hi ≤ g.lo then [a] else if a.range.lo < g.lo then [Stamp.mk (Gap.mk a.range.lo g.lo) a.seq] else []

/-- What is left of it after. -/
def afterStamp (g : Gap) (a : Stamp) : List Stamp :=
  if g.hi ≤ a.range.lo then [a] else if g.hi < a.range.hi then [Stamp.mk (Gap.mk g.hi a.range.hi) a.seq] else []

theorem flatMap_beforeStamp {g : Gap} {l : List Stamp} (h : Normal l) (hl : ∀ a ∈ l, g.lo ≤ a.range.lo) :
    l.flatMap (beforeStamp g) = [] := by
  rw [List.flatMap_eq_nil_iff]
  intro a ha
  have h1 := hl a ha
  have h2 := h.proper a ha
  rw [beforeStamp, if_neg (by omega), if_neg (by omega)]

theorem spliceStamp_after {g : Gap} (seq : ℕ) {l : List Stamp} (h : Normal l)
    (hl : ∀ a ∈ l, g.lo ≤ a.range.lo) : spliceStamp g seq true l = l.flatMap (afterStamp g) := by
  induction l with
  | nil => rfl
  | cons a l ih =>
    obtain ⟨ha, -, hnormal⟩ := normal_cons.1 h
    have h1 := hl a List.mem_cons_self
    rw [spliceStamp, ih hnormal fun b hb => hl b (List.mem_cons_of_mem a hb), List.flatMap_cons, afterStamp]
    rw [if_neg (by omega), if_neg (by omega : ¬a.range.lo < g.lo)]
    split <;> rfl

theorem spliceStamp_eq {g : Gap} (hg : g.lo < g.hi) (seq : ℕ) {l : List Stamp} (h : Normal l) :
    spliceStamp g seq false l = l.flatMap (beforeStamp g) ++ Stamp.mk g seq :: l.flatMap (afterStamp g) := by
  induction l with
  | nil => rfl
  | cons a l ih =>
    obtain ⟨ha, hal, hnormal⟩ := normal_cons.1 h
    have hlater : g.lo < a.range.hi → ∀ b ∈ l, g.lo ≤ b.range.lo := by
      intro hlt b hb
      have := hal b hb
      omega
    rw [spliceStamp, List.flatMap_cons, List.flatMap_cons, beforeStamp, afterStamp]
    split
    · next hle =>
      rw [ih hnormal, if_neg (by omega), if_neg (by omega)]
      rfl
    · next hlt =>
      rw [not_le] at hlt
      rw [flatMap_beforeStamp hnormal (hlater hlt), spliceStamp_after seq hnormal (hlater hlt)]
      split
      · rw [if_neg (by omega : ¬a.range.lo < g.lo)]
        rfl
      · simp

/-- **A range stamped anew has its stamp, the other places keep theirs.** -/
theorem Normal.splice {l : List Stamp} (h : Normal l) {g : Gap} (hg : g.lo < g.hi) {seq : ℕ} (hseq : ∀ a ∈ l, a.seq ≠ seq) :
    Normal (spliceStamp g seq false l) ∧
      ∀ x n, Stamped (spliceStamp g seq false l) x n ↔
        ((g.lo ≤ x ∧ x < g.hi) ∧ seq = n) ∨ Stamped l x n ∧ ¬(g.lo ≤ x ∧ x < g.hi) := by
  have hbefore : ∀ a ∈ l, ∀ b ∈ beforeStamp g a, b.range.lo < b.range.hi ∧
      (a.range.lo ≤ b.range.lo ∧ b.range.hi ≤ a.range.hi ∧ b.seq = a.seq) ∧ b.range.hi ≤ g.lo := by
    intro a ha b hb
    have := h.proper a ha
    unfold beforeStamp at hb
    split at hb
    · obtain rfl := List.mem_singleton.1 hb
      exact ⟨this, ⟨le_rfl, le_rfl, rfl⟩, ‹_›⟩
    · split at hb
      · obtain rfl := List.mem_singleton.1 hb
        simp
        omega
      · cases hb
  have hafter : ∀ a ∈ l, ∀ b ∈ afterStamp g a, b.range.lo < b.range.hi ∧
      (a.range.lo ≤ b.range.lo ∧ b.range.hi ≤ a.range.hi ∧ b.seq = a.seq) ∧ g.hi ≤ b.range.lo := by
    intro a ha b hb
    have := h.proper a ha
    unfold afterStamp at hb
    split at hb
    · obtain rfl := List.mem_singleton.1 hb
      exact ⟨this, ⟨le_rfl, le_rfl, rfl⟩, ‹_›⟩
    · split at hb
      · obtain rfl := List.mem_singleton.1 hb
        simp
        omega
      · cases hb
  have hone : ∀ (f : Stamp → List Stamp), (∀ a, f a = [] ∨ ∃ b, f a = [b]) →
      (∀ a ∈ l, ∀ b ∈ f a, b.range.lo < b.range.hi) → ∀ a ∈ l, Normal (f a) := by
    intro f hf hp a ha
    obtain hnil | ⟨b, hb⟩ := hf a
    · exact hnil ▸ normal_nil
    · rw [hb]
      exact normal_singleton (hp a ha b (hb ▸ List.mem_singleton_self b))
  have hnb := h.flatMap (hone (beforeStamp g) (fun a => by unfold beforeStamp; split <;> [skip; split] <;> simp)
    fun a ha b hb => (hbefore a ha b hb).1) fun a ha b hb => (hbefore a ha b hb).2.1
  have hna := h.flatMap (hone (afterStamp g) (fun a => by unfold afterStamp; split <;> [skip; split] <;> simp)
    fun a ha b hb => (hafter a ha b hb).1) fun a ha b hb => (hafter a ha b hb).2.1
  rw [spliceStamp_eq hg seq h]
  refine ⟨normal_append.2 ⟨hnb, normal_cons.2 ⟨hg, fun b hb => ?_, hna⟩, fun a ha b hb => ?_⟩, fun x n => ?_⟩
  · obtain ⟨c, hc, hb⟩ := List.mem_flatMap.1 hb
    obtain ⟨-, ⟨-, -, hs⟩, hle⟩ := hafter c hc b hb
    have := hseq c hc
    simp only [Stamp.range_mk, Stamp.seq_mk]
    rw [hs]
    omega
  · obtain ⟨c, hc, ha⟩ := List.mem_flatMap.1 ha
    obtain ⟨-, ⟨-, -, hs⟩, hle⟩ := hbefore c hc a ha
    have hne := hseq c hc
    obtain rfl | hb := List.mem_cons.1 hb
    · simp only [Stamp.range_mk, Stamp.seq_mk]
      omega
    · obtain ⟨d, hd, hb⟩ := List.mem_flatMap.1 hb
      have := (hafter d hd b hb).2.2
      omega
  · rw [stamped_append, stamped_cons, stamped_flatMap, stamped_flatMap]
    constructor
    · rintro (⟨a, ha, b, hb, hx, hn⟩ | hx | ⟨a, ha, b, hb, hx, hn⟩)
      · obtain ⟨-, ⟨h1, h2, h3⟩, h4⟩ := hbefore a ha b hb
        exact .inr ⟨⟨a, ha, by omega, h3 ▸ hn⟩, by omega⟩
      · exact .inl hx
      · obtain ⟨-, ⟨h1, h2, h3⟩, h4⟩ := hafter a ha b hb
        exact .inr ⟨⟨a, ha, by omega, h3 ▸ hn⟩, by omega⟩
    · rintro (hx | ⟨⟨a, ha, hx, hn⟩, hnot⟩)
      · exact .inr (.inl hx)
      · by_cases hlt : x < g.lo
        · refine .inl ⟨a, ha, ?_⟩
          unfold beforeStamp
          split
          · exact ⟨a, List.mem_singleton_self a, hx, hn⟩
          · rw [if_pos (by omega)]
            exact ⟨_, List.mem_singleton_self _, by simp; omega, hn⟩
        · refine .inr (.inr ⟨a, ha, ?_⟩)
          unfold afterStamp
          split
          · exact ⟨a, List.mem_singleton_self a, hx, hn⟩
          · rw [if_pos (by omega)]
            exact ⟨_, List.mem_singleton_self _, by simp; omega, hn⟩

/-! ## Ends -/

section Ends

variable {P : Int → Prop}

theorem ends_cutStamp {cut : Gap} {a : Stamp} (hc : P cut.lo ∧ P cut.hi) (ha : P a.range.lo ∧ P a.range.hi) :
    Ends P ((cutStamp cut a).map Stamp.range) := by
  intro g hg
  obtain ⟨b, hb, rfl⟩ := List.mem_map.1 hg
  obtain ⟨k, hk, rfl⟩ := List.mem_map.1 hb
  exact ends_cutRange hc ha k hk

theorem ends_foldl_cutStamp : ∀ {cuts : List Gap} {base : List Stamp}, Ends P (base.map Stamp.range) → Ends P cuts →
    Ends P ((cuts.foldl (fun result cut => result.flatMap (cutStamp cut)) base).map Stamp.range)
  | [], _, h, _ => h
  | c :: cuts, base, h, hc => by
    rw [List.foldl_cons]
    refine ends_foldl_cutStamp ?_ fun k hk => hc k (List.mem_cons_of_mem c hk)
    intro g hg
    obtain ⟨b, hb, rfl⟩ := List.mem_map.1 hg
    obtain ⟨a, ha, hb⟩ := List.mem_flatMap.1 hb
    exact ends_cutStamp (hc c List.mem_cons_self) (h a.range (List.mem_map_of_mem ha)) _ (List.mem_map_of_mem hb)

theorem Normal.ends_subtract {base l : List Stamp} {cuts : List Gap} (h : Normal base) (hl : subtractStamps base cuts = some l)
    (hb : Ends P (base.map Stamp.range)) (hc : Ends P cuts) : Ends P (l.map Stamp.range) := by
  have hmerge := (foldl_cutStamp h (normalizeRanges_separated cuts).proper).1.merge
  obtain rfl := Option.some.inj (hl.symm.trans hmerge)
  exact ends_foldl_cutStamp hb hc.normalize

theorem Normal.ends_splice {l : List Stamp} (h : Normal l) {g : Gap} (hg : g.lo < g.hi) (seq : ℕ)
    (hl : Ends P (l.map Stamp.range)) (hP : P g.lo ∧ P g.hi) : Ends P ((spliceStamp g seq false l).map Stamp.range) := by
  have hold : ∀ a ∈ l, P a.range.lo ∧ P a.range.hi := fun a ha => hl a.range (List.mem_map_of_mem ha)
  rw [spliceStamp_eq hg seq h]
  intro k hk
  obtain ⟨b, hb, rfl⟩ := List.mem_map.1 hk
  obtain hb | hb := List.mem_append.1 hb
  · obtain ⟨a, ha, hb⟩ := List.mem_flatMap.1 hb
    have ha := hold a ha
    unfold beforeStamp at hb
    split at hb
    · exact (List.mem_singleton.1 hb) ▸ ha
    · split at hb
      · exact (List.mem_singleton.1 hb) ▸ ⟨ha.1, hP.1⟩
      · cases hb
  obtain rfl | hb := List.mem_cons.1 hb
  · exact hP
  · obtain ⟨a, ha, hb⟩ := List.mem_flatMap.1 hb
    have ha := hold a ha
    unfold afterStamp at hb
    split at hb
    · exact (List.mem_singleton.1 hb) ▸ ha
    · split at hb
      · exact (List.mem_singleton.1 hb) ▸ ⟨hP.2, ha.2⟩
      · cases hb

end Ends

end HeteroSim
