/-
Runs of the cache. Every call is made of four edits (set a line, pop a
line, count, change a remembered size), so what survives the edits
survives every call, returned or raised; the link tables do.
-/
import HeteroSim.Cache.Links

namespace HeteroSim.Cache

/-! ## Runs -/

/-- A call that may stand between begin and rollback. A raising call leaves
the state it reached. -/
inductive Touch : CacheState → CacheState → Prop
  | access (c : CacheState) (a : CacheAccess) : Touch c (after (access a) c)
  | accessMany (c : CacheState) (as : List CacheAccess) : Touch c (after (accessMany as) c)
  | flush (c : CacheState) (bufferId : Option String) (generation : Option Nat) :
      Touch c (after (flush bufferId generation) c)
  | discard (c : CacheState) {key : BufferKey} {order : List LineKey} (h : DiscardOrder key order c) :
      Touch c (discardBuffer key order c)

inductive Step : CacheState → CacheState → Prop
  | touch {c c' : CacheState} (h : Touch c c') : Step c c'
  | begin (c : CacheState) : Step c (after beginTransaction c)
  | commit (c : CacheState) (ident : Nat) : Step c (after (commitTransaction ident) c)
  | rollback (c : CacheState) (ident : Nat) : Step c (after (rollbackTransaction ident) c)

/-- The states any sequence of calls reaches from a new cache. -/
def Reachable (cfg : CacheConfig) : CacheState → Prop := Relation.ReflTransGen Step (.init cfg)

/-! ## What the calls are made of -/

/-- `_remember_buffer` and a change of the remembered size. -/
def writeSize (key : BufferKey) (size : Option (Option Nat)) (c : CacheState) : CacheState :=
  let c := rememberBuffer key c
  { c with bufferSizes := Function.update c.bufferSizes key size }

/-- `I` survives each of the edits the calls are made of. -/
structure Edits (I : CacheState → Prop) : Prop where
  set : ∀ {c : CacheState} (k : LineKey) (line : CacheLine), I c → I (setLine k line c)
  pop : ∀ {c : CacheState} (k : LineKey), I c → I (popLine k c).2
  count : ∀ {c : CacheState} (f : CacheCounters → CacheCounters), I c → I { c with counters := f c.counters }
  size : ∀ {c : CacheState} (key : BufferKey) (v : Option (Option Nat)), I c → I (writeSize key v c)

namespace Edits

variable {I : CacheState → Prop}

theorem keeps_count (h : Edits I) (f : CacheCounters → CacheCounters) : Keeps I (Cache.count f) :=
  Keeps.modify fun _ hc => h.count f hc

theorem keeps_set (h : Edits I) (k : LineKey) (line : CacheLine) :
    Keeps I (modify (setLine k line) : CacheM Unit) := Keeps.modify fun _ hc => h.set k line hc

theorem keeps_rememberedSize (key : BufferKey) : Keeps I (rememberedSize key) :=
  Keeps.get_bind fun c hc => by
    split
    · exact hc
    · exact hc

theorem keeps_evictOne (h : Edits I) : Keeps I evictOne := Keeps.get_bind fun c hc => by
  split
  · exact hc
  · rw [wp_bind, wp_set]
    exact ((h.keeps_count _).bind fun _ => Keeps.pure _) _ (h.pop _ hc)

theorem keeps_ensureSlot (h : Edits I) (r : CacheAccessResult) : Keeps I (ensureSlot r) :=
  Keeps.get_bind fun c hc => by
    split
    · exact hc
    · refine (h.keeps_evictOne.bind ?_) c hc
      rintro ⟨victim, dirty, clean⟩
      exact Keeps.ite
        (fun _ => (keeps_rememberedSize _).bind fun _ => (Keeps.raise _).bind fun _ => Keeps.pure _)
        fun _ => Keeps.pure _

theorem keeps_writeThrough (h : Edits I) (a : CacheAccess) (spec : LineSpec) (off : Nat) (size : Option Nat)
    (r : CacheAccessResult) : Keeps I (writeThrough a spec off size r) :=
  (h.keeps_count _).bind fun _ => (Keeps.raise _).bind fun _ => Keeps.pure _

theorem keeps_hitLine (h : Edits I) (a : CacheAccess) (spec : LineSpec) (off : Nat) (size : Option Nat)
    (line : CacheLine) (r : CacheAccessResult) : Keeps I (hitLine a spec off size line r) :=
  Keeps.get_bind fun c hc => by
    refine ((h.keeps_count _).bind fun _ => ?_) c hc
    split
    · exact (h.keeps_set _ _).bind fun _ => Keeps.pure _
    · exact (h.keeps_writeThrough _ _ _ _ _).bind fun _ => (h.keeps_set _ _).bind fun _ => Keeps.pure _
    · exact (h.keeps_set _ _).bind fun _ => Keeps.pure _

theorem keeps_fillLine (h : Edits I) (a : CacheAccess) (spec : LineSpec) (off : Nat) (size : Option Nat)
    (r : CacheAccessResult) : Keeps I (fillLine a spec off size r) :=
  Keeps.ite (fun _ => (h.keeps_count _).bind fun _ => (Keeps.raise _).bind fun _ => Keeps.pure _)
    fun _ => Keeps.pure _

theorem keeps_missLine (h : Edits I) (a : CacheAccess) (spec : LineSpec) (off cov : Nat) (size : Option Nat)
    (r : CacheAccessResult) : Keeps I (missLine a spec off cov size r) :=
  Keeps.get_bind fun c hc => by
    refine ((h.keeps_count _).bind fun _ => Keeps.ite (fun _ => ?_) fun _ => ?_) c hc
    · exact (h.keeps_count _).bind fun _ => (Keeps.raise _).bind fun _ => Keeps.pure _
    · refine (h.keeps_ensureSlot _).bind fun _ => (h.keeps_fillLine _ _ _ _ _).bind fun _ => ?_
      refine (h.keeps_set _ _).bind fun _ => Keeps.ite (fun _ => h.keeps_writeThrough _ _ _ _ _) fun _ => Keeps.pure _

theorem keeps_touchLine (h : Edits I) (a : CacheAccess) (spec : LineSpec) (r : CacheAccessResult) :
    Keeps I (touchLine a spec r) := Keeps.get_bind fun c hc => by
  rw [wp_bind]
  unfold rememberedSize
  rw [wp_bind, wp_get]
  split
  · rw [wp_pure]
    rw [wp_bind, wp_set]
    split
    · exact h.keeps_hitLine _ _ _ _ _ _ _ (h.pop _ hc)
    · exact h.keeps_missLine _ _ _ _ _ _ _ (h.pop _ hc)
  · exact hc

theorem keeps_touchLines (h : Edits I) (a : CacheAccess) :
    ∀ (specs : List LineSpec) (r : CacheAccessResult), Keeps I (touchLines a specs r)
  | [], _ => Keeps.pure _
  | spec :: specs, r => (h.keeps_touchLine a spec r).bind fun r => keeps_touchLines h a specs r

theorem keeps_access (h : Edits I) (a : CacheAccess) : Keeps I (access a) := Keeps.get_bind fun c hc => by
  refine ((Keeps.raise _).bind fun specs => ?_) c hc
  refine (Keeps.modify fun c hc => h.size a.bufferKey _ hc).bind fun _ => ?_
  exact (h.keeps_touchLines a specs {}).bind fun _ => (h.keeps_count _).bind fun _ => Keeps.pure _

theorem keeps_accessAll (h : Edits I) : ∀ as : List CacheAccess, Keeps I (accessAll as)
  | [] => Keeps.pure _
  | a :: as => (h.keeps_access a).bind fun _ => (keeps_accessAll h as).bind fun _ => Keeps.pure _

theorem keeps_accessMany (h : Edits I) (as : List CacheAccess) : Keeps I (accessMany as) :=
  Keeps.get_bind fun c hc => ((Keeps.raise _).bind fun _ => h.keeps_accessAll as) c hc

theorem popLines (h : Edits I) : ∀ (ks : List LineKey) {c : CacheState}, I c → I (popLines ks c)
  | [], _, hc => hc
  | k :: ks, _, hc => popLines h ks (h.pop k hc)

theorem discardBuffer (h : Edits I) {c : CacheState} (hc : I c) (key : BufferKey) (order : List LineKey) :
    I (discardBuffer key order c) := h.size key none (h.popLines order hc)

theorem keeps_flushLines (h : Edits I) (b : Option String) (g : Option Nat) :
    ∀ (items : List (LineKey × CacheLine)) (r : CacheFlushResult), Keeps I (flushLines b g items r)
  | [], _ => Keeps.pure _
  | (key, line) :: rest, r => by
    unfold flushLines
    refine Keeps.ite (fun _ => Keeps.get_bind fun c hc => ?_) fun _ => keeps_flushLines h b g rest r
    refine ((keeps_rememberedSize _).bind fun _ => (Keeps.raise _).bind fun _ => ?_) c hc
    exact (h.keeps_set _ _).bind fun _ => keeps_flushLines h b g rest _

theorem keeps_flush (h : Edits I) (b : Option String) (g : Option Nat) : Keeps I (flush b g) :=
  Keeps.ite (fun _ => Keeps.throw _) fun _ => Keeps.get_bind fun c hc =>
    ((h.keeps_flushLines _ _ _ _).bind fun _ => (h.keeps_count _).bind fun _ => Keeps.pure _) c hc

theorem touch (h : Edits I) {c c' : CacheState} (hc : I c) : Touch c c' → I c'
  | .access _ a => (h.keeps_access a).after hc
  | .accessMany _ as => (h.keeps_accessMany as).after hc
  | .flush _ b g => (h.keeps_flush b g).after hc
  | .discard _ _ => h.discardBuffer hc _ _

theorem touches (h : Edits I) {c c' : CacheState} (hc : I c) (hr : Relation.ReflTransGen Touch c c') : I c' := by
  induction hr with
  | refl => exact hc
  | tail _ ht ih => exact h.touch ih ht

end Edits

/-! ## The tables in every reachable state -/

theorem rememberBuffer_lines (key : BufferKey) (c : CacheState) : (rememberBuffer key c).lines = c.lines := by
  unfold rememberBuffer; split
  · rfl
  · split <;> rfl

theorem Linked.rememberBuffer {c : CacheState} (h : Linked c) (key : BufferKey) : Linked (rememberBuffer key c) := by
  unfold Cache.rememberBuffer
  split
  · exact h
  · split
    · exact h
    · exact ⟨h.next, h.prev, h.index⟩

theorem linked_edits : Edits Linked where
  set k line h := h.setLine k line
  pop k h := h.popLine k
  count _ h := ⟨h.next, h.prev, h.index⟩
  size key _ h := ⟨(h.rememberBuffer key).next, (h.rememberBuffer key).prev, (h.rememberBuffer key).index⟩

theorem keeps_linked_begin : Keeps Linked beginTransaction := Keeps.get_bind fun c hc => by
  split
  · exact hc
  · exact ⟨hc.next, hc.prev, hc.index⟩

theorem keeps_linked_commit (ident : Nat) : Keeps Linked (commitTransaction ident) := Keeps.get_bind fun c hc => by
  split
  · exact ⟨hc.next, hc.prev, hc.index⟩
  · exact hc

theorem keeps_linked_rollback (ident : Nat) : Keeps Linked (rollbackTransaction ident) :=
  Keeps.get_bind fun c hc => by
    split
    · split
      · have h := rebuild_linked
        exact ⟨(h _).next, (h _).prev, (h _).index⟩
      · exact hc
    · exact hc

theorem linked_step {c c' : CacheState} (h : Linked c) : Step c c' → Linked c'
  | .touch ht => linked_edits.touch h ht
  | .begin _ => keeps_linked_begin.after h
  | .commit _ ident => (keeps_linked_commit ident).after h
  | .rollback _ ident => (keeps_linked_rollback ident).after h

/-- **In every reachable state the link tables are those of the LRU order.** -/
theorem linked_of_reachable {cfg : CacheConfig} {c : CacheState} (h : Reachable cfg c) : Linked c := by
  induction h with
  | refl => exact ⟨rfl, rfl, rfl⟩
  | tail _ hs ih => exact linked_step ih hs

end HeteroSim.Cache
