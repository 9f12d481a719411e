/-
The cache is LRU: over any run of accepted calls the resident lines, oldest
first, are what a recency list of the touched lines holds. A discard takes
lines out of that list without bringing evicted ones back, so a run that
discarded may hold fewer than the last lines touched.
-/
import HeteroSim.Cache.Order

namespace HeteroSim.Cache

open Recency (Event held live newer)

inductive Call
  | access (a : CacheAccess)
  | accessMany (as : List CacheAccess)
  | flush (bufferId : Option String) (generation : Option Nat)
  | discard (key : BufferKey)

/-- The accepted calls from a new cache. -/
inductive Served (cfg : CacheConfig) : List Call → CacheState → Prop
  | init : Served cfg [] (.init cfg)
  | access {calls : List Call} {c c' : CacheState} {a : CacheAccess} {r : CacheAccessResult} (h : Served cfg calls c)
      (ha : access a c = .ok r c') : Served cfg (calls ++ [.access a]) c'
  | accessMany {calls : List Call} {c c' : CacheState} {as : List CacheAccess} {rs : List CacheAccessResult}
      (h : Served cfg calls c) (ha : accessMany as c = .ok rs c') : Served cfg (calls ++ [.accessMany as]) c'
  | flush {calls : List Call} {c c' : CacheState} {bufferId : Option String} {generation : Option Nat}
      {r : CacheFlushResult} (h : Served cfg calls c) (ha : flush bufferId generation c = .ok r c') :
      Served cfg (calls ++ [.flush bufferId generation]) c'
  | discard {calls : List Call} {c : CacheState} {key : BufferKey} {order : List LineKey} (h : Served cfg calls c)
      (hd : DiscardOrder key order c) : Served cfg (calls ++ [.discard key]) (discardBuffer key order c)

/-! ## The touches of a run -/

/-- A line's touch, unless it is a write miss that allocates nothing. -/
def logLine (cfg : CacheConfig) (op : Operation) (log : List (Event LineKey)) (k : LineKey) : List (Event LineKey) :=
  if Counts cfg op k (held cfg.capacityLines log) then log ++ [.touch k] else log

def logAccess (cfg : CacheConfig) (log : List (Event LineKey)) (a : CacheAccess) : List (Event LineKey) :=
  (lineKeys cfg a).foldl (logLine cfg a.operation) log

def logCall (cfg : CacheConfig) (log : List (Event LineKey)) : Call → List (Event LineKey)
  | .access a => logAccess cfg log a
  | .accessMany as => as.foldl (logAccess cfg) log
  | .flush _ _ => log
  | .discard key => log ++ [.drop fun k => k.bufferKey = key]

/-- What the calls touch and discard, in order. -/
def touchLog (cfg : CacheConfig) (calls : List Call) : List (Event LineKey) := calls.foldl (logCall cfg) []

theorem held_logLine (cfg : CacheConfig) (op : Operation) (log : List (Event LineKey)) (k : LineKey) :
    held cfg.capacityLines (logLine cfg op log k) = lruLine cfg op (held cfg.capacityLines log) k := by
  unfold logLine lruLine
  split
  · exact Recency.held_snoc _ _ _
  · rfl

theorem held_logLines (cfg : CacheConfig) (op : Operation) : ∀ (ks : List LineKey) (log : List (Event LineKey)),
    held cfg.capacityLines (ks.foldl (logLine cfg op) log) = ks.foldl (lruLine cfg op) (held cfg.capacityLines log)
  | [], _ => rfl
  | k :: ks, log => by rw [List.foldl_cons, List.foldl_cons, held_logLines cfg op ks, held_logLine]

theorem held_logAccess (cfg : CacheConfig) (log : List (Event LineKey)) (a : CacheAccess) :
    held cfg.capacityLines (logAccess cfg log a) = lruAccess cfg (held cfg.capacityLines log) a :=
  held_logLines cfg a.operation (lineKeys cfg a) log

/-! ## Runs -/

/-- What every accepted call keeps. -/
structure Lru (cfg : CacheConfig) (log : List (Event LineKey)) (c : CacheState) : Prop where
  config : c.config = cfg
  lines : LinesSound c
  linked : Linked c
  keys : c.lines.keys = held cfg.capacityLines log

section Steps

variable {cfg : CacheConfig} {log : List (Event LineKey)} {c : CacheState}

theorem Lru.access (h : Lru cfg log c) (a : CacheAccess) :
    wp (Cache.access a) (fun _ c' => Lru cfg (logAccess cfg log a) c') (fun _ c' => c' = c) c := by
  cases hsize : bufferSize c a with
  | error e =>
    unfold wp
    rw [access_refused hsize]
  | ok size =>
    refine wp_mono (wp_and (linked_edits.keeps_access a c h.linked) (access_order h.lines hsize)) (fun _ c' hc' => ?_)
      fun _ _ hf => hf.2.elim
    obtain ⟨hlinked, hdone⟩ := hc'
    refine ⟨hdone.config.trans h.config, hdone.lines, hlinked, ?_⟩
    rw [hdone.keys, h.config, h.keys, held_logAccess]

theorem Lru.accessAll : ∀ (as : List CacheAccess) {log : List (Event LineKey)} {c : CacheState}, Lru cfg log c →
    wp (Cache.accessAll as) (fun _ c' => Lru cfg (as.foldl (logAccess cfg) log) c') (fun _ _ => True) c
  | [], _, _, h => h
  | a :: as, log, c, h => by
    rw [Cache.accessAll, wp_bind]
    refine wp_mono (h.access a) (fun r c₁ h₁ => ?_) fun _ _ _ => trivial
    rw [wp_bind]
    exact wp_mono (h₁.accessAll as) (fun _ _ h₂ => h₂) fun _ _ _ => trivial

theorem Lru.accessMany (h : Lru cfg log c) (as : List CacheAccess) :
    wp (Cache.accessMany as) (fun _ c' => Lru cfg (as.foldl (logAccess cfg) log) c') (fun _ _ => True) c := by
  rw [Cache.accessMany, wp_bind, wp_get, wp_bind, wp_raise]
  exact ⟨fun _ _ => h.accessAll as, fun _ _ => trivial⟩

theorem Lru.flush (h : Lru cfg log c) (bufferId : Option String) (generation : Option Nat) :
    wp (Cache.flush bufferId generation) (fun _ c' => Lru cfg log c') (fun _ _ => True) c := by
  refine wp_mono (wp_and (linked_edits.keeps_flush bufferId generation c h.linked) (flush_order h.lines bufferId generation))
    (fun _ c' hc' => ?_) fun _ _ _ => trivial
  obtain ⟨hlinked, hdone⟩ := hc'
  exact ⟨hdone.config.trans h.config, hdone.lines, hlinked, hdone.keys.trans h.keys⟩

theorem Lru.discard (h : Lru cfg log c) {key : BufferKey} {order : List LineKey} (hd : DiscardOrder key order c) :
    Lru cfg (log ++ [.drop fun k => k.bufferKey = key]) (discardBuffer key order c) := by
  obtain ⟨hconfig, hlines, hkeys⟩ := discardBuffer_order h.lines h.linked hd
  refine ⟨hconfig.trans h.config, hlines, linked_edits.discardBuffer h.linked key order, ?_⟩
  rw [hkeys, h.keys, Recency.held_snoc, Recency.use]
  exact List.filter_congr fun k _ => by simp

end Steps

variable {cfg : CacheConfig} {calls : List Call} {c : CacheState}

theorem touchLog_snoc (cfg : CacheConfig) (calls : List Call) (call : Call) :
    touchLog cfg (calls ++ [call]) = logCall cfg (touchLog cfg calls) call := by simp [touchLog]

theorem lru_of_served (h : Served cfg calls c) : Lru cfg (touchLog cfg calls) c := by
  induction h with
  | init =>
    refine ⟨rfl, fun k line hk => ?_, ⟨rfl, rfl, rfl⟩, rfl⟩
    cases hk
  | access _ ha ih =>
    rw [touchLog_snoc]
    have hdone := wp_ok (ih.access _) ha
    exact hdone
  | accessMany _ ha ih =>
    rw [touchLog_snoc]
    have hdone := wp_ok (ih.accessMany _) ha
    exact hdone
  | flush _ ha ih =>
    rw [touchLog_snoc]
    have hdone := wp_ok (ih.flush _ _) ha
    exact hdone
  | discard _ hd ih =>
    rw [touchLog_snoc]
    exact ih.discard hd

/-- The log is touches only. -/
def OnlyTouches (log : List (Event LineKey)) : Prop := ∃ ks : List LineKey, log = ks.map .touch

theorem OnlyTouches.access {log : List (Event LineKey)} (h : OnlyTouches log) (cfg : CacheConfig) (a : CacheAccess) :
    OnlyTouches (logAccess cfg log a) := by
  have hlines : ∀ (ks : List LineKey) {log : List (Event LineKey)}, OnlyTouches log →
      OnlyTouches (ks.foldl (logLine cfg a.operation) log) := by
    intro ks
    induction ks with
    | nil => exact id
    | cons k ks ih =>
      intro log hlog
      refine ih ?_
      unfold logLine
      split
      · obtain ⟨js, rfl⟩ := hlog
        exact ⟨js ++ [k], by simp⟩
      · exact hlog
  exact hlines _ h

theorem onlyTouches (cfg : CacheConfig) (calls : List Call) (h : ∀ key, .discard key ∉ calls) :
    OnlyTouches (touchLog cfg calls) := by
  induction calls using List.reverseRecOn with
  | nil => exact ⟨[], rfl⟩
  | append_singleton calls call ih =>
    have hcalls := ih fun key hm => h key (by simp [hm])
    rw [touchLog_snoc]
    cases call with
    | access a => exact hcalls.access cfg a
    | accessMany as =>
      simp only [logCall]
      clear h ih
      generalize touchLog cfg calls = log at hcalls
      induction as generalizing log with
      | nil => exact hcalls
      | cons a as ih => exact ih _ (hcalls.access cfg a)
    | flush => exact hcalls
    | discard key => exact absurd (by simp) (h key)

/-- **The cache is LRU.** After any accepted calls the resident lines, oldest first, are the newest of the touched
and not discarded ones: a line is resident exactly if at no moment since its last touch had as many others as the
cache holds been touched after it. Without discards these are the last `capacity_lines` distinct lines touched. The
link tables and the index are those of this order. -/
theorem lru_order (h : Served cfg calls c) :
    c.lines.keys <:+ (live (touchLog cfg calls)).dedup ∧
    (∀ k, k ∈ c.lines.keys ↔ k ∈ live (touchLog cfg calls) ∧ ∀ before rest, touchLog cfg calls = before ++ rest →
      .touch k ∉ rest → (newer k (live before).dedup).length < cfg.capacityLines) ∧
    ((∀ key, .discard key ∉ calls) → c.lines.keys =
      (live (touchLog cfg calls)).dedup.drop ((live (touchLog cfg calls)).dedup.length - cfg.capacityLines)) ∧
    c.lruNext = linkNext c.lines.keys ∧ c.lruPrev = linkPrev none c.lines.keys ∧
    c.bufferLineKeys = keyIndex c.lines.keys := by
  have hlru := lru_of_served h
  have hcap := cfg.capacityLines_pos
  rw [hlru.keys]
  refine ⟨(Recency.newest_held hcap _).suffix, fun k => Recency.mem_held hcap _, fun hcalls => ?_, ?_⟩
  · obtain ⟨ks, hks⟩ := onlyTouches cfg calls hcalls
    rw [hks, Recency.live_touches]
    exact Recency.held_touches hcap ks
  · rw [← hlru.keys]
    exact ⟨hlru.linked.next, hlru.linked.prev, hlru.linked.index⟩

/-! ## A discard -/

def threeLines : CacheConfig := ⟨15, 5, true, true, by decide, by decide, by decide⟩

/-- A byte read from each of `count` lines. -/
def readsOf (bufferId : String) (line count : Nat) (hid : bufferId ≠ "") (hstrip : strip bufferId = bufferId)
    (hpos : 0 < count) : CacheAccess :=
  ⟨bufferId, line * 5, count * 5, .read, none, 0, hid, hstrip, by omega, by simp⟩

def twoOfA : CacheAccess := readsOf "a" 0 2 (by decide) (by decide) (by decide)
def twoOfC : CacheAccess := readsOf "c" 0 2 (by decide) (by decide) (by decide)
def thirdOfA : CacheAccess := readsOf "a" 2 1 (by decide) (by decide) (by decide)

def discarding : List Call := [.access twoOfA, .access twoOfC, .discard ⟨"c", 0⟩, .access thirdOfA]

def isOk (m : CacheM CacheAccessResult) (c : CacheState) : Bool :=
  match m c with
  | .ok _ _ => true
  | .error _ _ => false

theorem ok_after {m : CacheM CacheAccessResult} {c : CacheState} (h : isOk m c = true) : ∃ r, m c = .ok r (after m c) := by
  unfold isOk at h
  unfold after
  split at h
  · next r c' hm => exact ⟨r, by rw [hm]⟩
  · cases h

theorem Served.accessed {cfg : CacheConfig} {calls : List Call} {c : CacheState} {a : CacheAccess} (h : Served cfg calls c)
    (hok : isOk (Cache.access a) c = true) : Served cfg (calls ++ [.access a]) (after (Cache.access a) c) := by
  obtain ⟨r, hr⟩ := ok_after hok
  exact h.access hr

def twoTouched : CacheState := after (access twoOfC) (after (access twoOfA) (.init threeLines))

def discarded : CacheState :=
  after (access thirdOfA) (discardBuffer ⟨"c", 0⟩ [⟨"c", 0, 0⟩, ⟨"c", 0, 1⟩] twoTouched)

theorem discarded_served : Served threeLines discarding discarded := by
  have hone : Served threeLines [.access twoOfA] (after (access twoOfA) (.init threeLines)) :=
    Served.init.accessed (by decide +kernel)
  have htwo : Served threeLines [.access twoOfA, .access twoOfC] twoTouched := hone.accessed (by decide +kernel)
  have hthree : Served threeLines [.access twoOfA, .access twoOfC, .discard ⟨"c", 0⟩]
      (discardBuffer ⟨"c", 0⟩ [⟨"c", 0, 0⟩, ⟨"c", 0, 1⟩] twoTouched) := htwo.discard ⟨by decide, by decide +kernel⟩
  exact hthree.accessed (by decide +kernel)

/-- Two of three lines. -/
theorem lru_order_twoLeft : discarded.lines.keys = [⟨"a", 0, 1⟩, ⟨"a", 0, 2⟩] ∧
    discarded.lruNext = linkNext discarded.lines.keys :=
  ⟨by decide +kernel, (lru_order discarded_served).2.2.2.1⟩

def touchOf : Event LineKey → Option LineKey
  | .touch k => some k
  | .drop _ => none

/-- A line that another buffer's evicted does not come back when that buffer is discarded: what is resident is then
neither the last lines touched of those not discarded, nor what was not discarded of the last lines touched. -/
theorem lru_order_discarded : ∃ c, Served threeLines discarding c ∧
    c.lines.keys ≠ (live (touchLog threeLines discarding)).dedup.drop
      ((live (touchLog threeLines discarding)).dedup.length - threeLines.capacityLines) ∧
    c.lines.keys ≠ (((touchLog threeLines discarding).filterMap touchOf).dedup.drop
      (((touchLog threeLines discarding).filterMap touchOf).dedup.length - threeLines.capacityLines)).filter
        (· ∈ live (touchLog threeLines discarding)) :=
  ⟨discarded, discarded_served, by decide +kernel, by decide +kernel⟩

end HeteroSim.Cache
