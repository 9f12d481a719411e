/-
Computations over a mutable state that may raise: `EStateM`, where a raise
keeps the state reached so far, with weakest preconditions over both
outcomes. `Keeps I m` is the rule the invariants use: from a state in `I`,
`m` ends in `I`, whether it returns or raises.
-/
import Mathlib

namespace HeteroSim

variable {ε σ α β : Type}

/-- What must hold before `m` for `Q` after a return and `R` after a raise. -/
def wp (m : EStateM ε σ α) (Q : α → σ → Prop) (R : ε → σ → Prop) (s : σ) : Prop :=
  match m s with
  | .ok a s' => Q a s'
  | .error e s' => R e s'

/-- The state `m` leaves, returned or raised. -/
def after (m : EStateM ε σ α) (s : σ) : σ :=
  match m s with
  | .ok _ s' | .error _ s' => s'

/-- A check that may raise, inside a computation. -/
def raise : Except ε α → EStateM ε σ α
  | .ok a => pure a
  | .error e => throw e

/-- A guard: it raises `e` when `c` holds. -/
def refuse (c : Prop) [Decidable c] (e : ε) : Except ε Unit := if c then .error e else .ok ()

@[simp] theorem refuse_ok {c : Prop} [Decidable c] {e : ε} {u : Unit} : refuse c e = .ok u ↔ ¬c := by
  unfold refuse
  split <;> simp [*]

theorem bind_ok {x : Except ε α} {f : α → Except ε β} {b : β} :
    (x >>= f) = .ok b ↔ ∃ a, x = .ok a ∧ f a = .ok b := by
  cases x with
  | error e => simp [bind, Except.bind]
  | ok a => simp [bind, Except.bind]

/-- A loop of checks passes if every check does. -/
theorem forM_ok {f : α → Except ε Unit} {u : Unit} : ∀ {l : List α}, forM l f = .ok u ↔ ∀ a ∈ l, f a = .ok ()
  | [] => by simp [pure, Except.pure]
  | a :: l => by
    rw [List.forM_cons, bind_ok]
    simp only [forM_ok (l := l), exists_and_right, List.mem_cons, forall_eq_or_imp]
    exact and_congr_left fun _ => ⟨fun ⟨_, h⟩ => h, fun h => ⟨(), h⟩⟩

@[simp] theorem wp_pure (a : α) (Q : α → σ → Prop) (R : ε → σ → Prop) (s : σ) :
    wp (pure a : EStateM ε σ α) Q R s = Q a s := rfl

@[simp] theorem wp_bind (m : EStateM ε σ α) (f : α → EStateM ε σ β) (Q : β → σ → Prop) (R : ε → σ → Prop)
    (s : σ) : wp (m >>= f) Q R s = wp m (fun a s' => wp (f a) Q R s') R s := by
  simp only [wp, bind, EStateM.bind]
  cases m s <;> rfl

@[simp] theorem wp_get (Q : σ → σ → Prop) (R : ε → σ → Prop) (s : σ) :
    wp (get : EStateM ε σ σ) Q R s = Q s s := rfl

@[simp] theorem wp_set (t : σ) (Q : PUnit → σ → Prop) (R : ε → σ → Prop) (s : σ) :
    wp (set t : EStateM ε σ PUnit) Q R s = Q ⟨⟩ t := rfl

@[simp] theorem wp_modify (f : σ → σ) (Q : PUnit → σ → Prop) (R : ε → σ → Prop) (s : σ) :
    wp (modify f : EStateM ε σ PUnit) Q R s = Q ⟨⟩ (f s) := rfl

@[simp] theorem wp_throw (e : ε) (Q : α → σ → Prop) (R : ε → σ → Prop) (s : σ) :
    wp (throw e : EStateM ε σ α) Q R s = R e s := rfl

theorem wp_raise (x : Except ε α) (Q : α → σ → Prop) (R : ε → σ → Prop) (s : σ) :
    wp (raise x) Q R s ↔ (∀ a, x = .ok a → Q a s) ∧ ∀ e, x = .error e → R e s := by
  cases x <;> simp [raise]

theorem wp_refuse (c : Prop) [Decidable c] (e : ε) (Q : Unit → σ → Prop) (R : ε → σ → Prop) (s : σ) :
    wp (raise (refuse c e)) Q R s ↔ (¬c → Q () s) ∧ (c → R e s) := by
  unfold refuse
  split <;> simp [raise, *]

theorem wp_mono {m : EStateM ε σ α} {Q Q' : α → σ → Prop} {R R' : ε → σ → Prop} {s : σ}
    (h : wp m Q R s) (hQ : ∀ a s', Q a s' → Q' a s') (hR : ∀ e s', R e s' → R' e s') : wp m Q' R' s := by
  unfold wp at h ⊢
  split at h
  · exact hQ _ _ h
  · exact hR _ _ h

theorem wp_and {m : EStateM ε σ α} {Q Q' : α → σ → Prop} {R R' : ε → σ → Prop} {s : σ}
    (h : wp m Q R s) (h' : wp m Q' R' s) :
    wp m (fun a t => Q a t ∧ Q' a t) (fun e t => R e t ∧ R' e t) s := by
  unfold wp at h h' ⊢
  cases hm : m s with
  | ok a t => simp only [hm] at h h'; exact ⟨h, h'⟩
  | error e t => simp only [hm] at h h'; exact ⟨h, h'⟩

theorem wp_ok {m : EStateM ε σ α} {Q : α → σ → Prop} {R : ε → σ → Prop} {s s' : σ} {a : α}
    (h : wp m Q R s) (hm : m s = .ok a s') : Q a s' := by rw [wp, hm] at h; exact h

/-- A computation that cannot raise returns. -/
theorem wp_total {m : EStateM ε σ α} {Q : α → σ → Prop} {s : σ} (h : wp m Q (fun _ _ => False) s) :
    ∃ a s', m s = .ok a s' ∧ Q a s' := by
  unfold wp at h
  split at h
  · next a s' hm => exact ⟨a, s', hm, h⟩
  · exact h.elim

theorem wp_error {m : EStateM ε σ α} {Q : α → σ → Prop} {R : ε → σ → Prop} {s s' : σ} {e : ε}
    (h : wp m Q R s) (hm : m s = .error e s') : R e s' := by rw [wp, hm] at h; exact h

theorem wp_after {m : EStateM ε σ α} {I : σ → Prop} {s : σ}
    (h : wp m (fun _ => I) (fun _ => I) s) : I (after m s) := by
  unfold wp at h; unfold after
  split at h <;> exact h

/-- What `m` returns satisfies `Q`, from any state. -/
def Returns (m : EStateM ε σ α) (Q : α → Prop) : Prop := ∀ s a s', m s = .ok a s' → Q a

namespace Returns

theorem pure {a : α} {Q : α → Prop} (h : Q a) : Returns (pure a : EStateM ε σ α) Q := by
  intro s b s' hb
  cases hb
  exact h

theorem any (m : EStateM ε σ α) : Returns m fun _ => True := fun _ _ _ _ => trivial

theorem bind {m : EStateM ε σ α} {f : α → EStateM ε σ β} {P : α → Prop} {Q : β → Prop} (hm : Returns m P)
    (hf : ∀ a, P a → Returns (f a) Q) : Returns (m >>= f) Q := by
  intro s b s' h
  change EStateM.bind m f s = .ok b s' at h
  unfold EStateM.bind at h
  split at h
  · next a t ha => exact hf a (hm s a t ha) t b s' h
  · cases h

theorem raise {x : Except ε α} {Q : α → Prop} (h : ∀ a, x = .ok a → Q a) : Returns (raise x : EStateM ε σ α) Q := by
  cases x with
  | error e => intro s b s' hb; cases hb
  | ok a => exact pure (h a rfl)

theorem mono {m : EStateM ε σ α} {P Q : α → Prop} (hm : Returns m P) (h : ∀ a, P a → Q a) : Returns m Q :=
  fun s a s' ha => h a (hm s a s' ha)

theorem ite {c : Prop} [Decidable c] {m n : EStateM ε σ α} {Q : α → Prop} (hm : c → Returns m Q)
    (hn : ¬c → Returns n Q) : Returns (if c then m else n) Q := by
  split
  · next h => exact hm h
  · next h => exact hn h

/-- A loop that returns has returned on every element. -/
theorem forM {f : α → EStateM ε σ PUnit} {P : α → Prop} (hf : ∀ a, Returns (f a) fun _ => P a) :
    ∀ l : List α, Returns (forM l f) fun _ => ∀ a ∈ l, P a
  | [] => pure (by simp)
  | a :: l => by
    rw [List.forM_cons]
    refine (hf a).bind fun _ ha => (forM hf l).mono fun _ hl => ?_
    simpa using ⟨ha, hl⟩

end Returns

/-- `m` keeps `I`, returned or raised. -/
def Keeps (I : σ → Prop) (m : EStateM ε σ α) : Prop := ∀ s, I s → wp m (fun _ => I) (fun _ => I) s

namespace Keeps

variable {I : σ → Prop}

theorem after {m : EStateM ε σ α} (h : Keeps I m) {s : σ} (hs : I s) : I (HeteroSim.after m s) :=
  wp_after (h s hs)

theorem pure (a : α) : Keeps I (pure a : EStateM ε σ α) := fun _ hs => hs

theorem bind {m : EStateM ε σ α} {f : α → EStateM ε σ β} (hm : Keeps I m) (hf : ∀ a, Keeps I (f a)) :
    Keeps I (m >>= f) := fun s hs => by
  rw [wp_bind]
  exact wp_mono (hm s hs) (fun a s' h => hf a s' h) fun _ _ h => h

theorem get_bind {f : σ → EStateM ε σ β} (hf : ∀ s, I s → wp (f s) (fun _ => I) (fun _ => I) s) :
    Keeps I (get >>= f) := fun s hs => by
  rw [wp_bind, wp_get]
  exact hf s hs

theorem raise (x : Except ε α) : Keeps I (HeteroSim.raise x : EStateM ε σ α) := fun s hs => by
  rw [wp_raise]
  exact ⟨fun _ _ => hs, fun _ _ => hs⟩

theorem throw (e : ε) : Keeps I (throw e : EStateM ε σ α) := fun _ hs => hs

theorem modify {f : σ → σ} (h : ∀ s, I s → I (f s)) : Keeps I (modify f : EStateM ε σ PUnit) := h

theorem ite {c : Prop} [Decidable c] {m n : EStateM ε σ α} (hm : c → Keeps I m) (hn : ¬c → Keeps I n) :
    Keeps I (if c then m else n) := by
  split
  · next h => exact hm h
  · next h => exact hn h

/-- A loop over a list keeps what its body keeps. -/
theorem forM {f : α → EStateM ε σ PUnit} : ∀ {l : List α}, (∀ a ∈ l, Keeps I (f a)) → Keeps I (forM l f)
  | [], _ => Keeps.pure _
  | a :: l, h => by
    rw [List.forM_cons]
    exact (h a (by simp)).bind fun _ => forM fun b hb => h b (by simp [hb])

theorem get : Keeps I (MonadState.get : EStateM ε σ σ) := fun _ hs => hs

end Keeps

end HeteroSim

/-!
Running a computation over a mutable state one statement at a time, where
the outcome of each is known.
-/

namespace HeteroSim

variable {ε σ α β : Type} {s s' : σ}

theorem ok_bind {m : EStateM ε σ α} {f : α → EStateM ε σ β} {a : α} (h : m s = .ok a s') : (m >>= f) s = f a s' := by
  change EStateM.bind m f s = _
  rw [EStateM.bind, h]

theorem error_bind {m : EStateM ε σ α} {f : α → EStateM ε σ β} {e : ε} (h : m s = .error e s') :
    (m >>= f) s = .error e s' := by
  change EStateM.bind m f s = _
  rw [EStateM.bind, h]

theorem get_then (f : σ → EStateM ε σ β) : (get >>= f) s = f s s := rfl

theorem set_then (t : σ) (f : PUnit → EStateM ε σ β) : (set t >>= f) s = f ⟨⟩ t := rfl

theorem modify_then (g : σ → σ) (f : PUnit → EStateM ε σ β) : (modify g >>= f) s = f ⟨⟩ (g s) := rfl

theorem raise_ok {x : Except ε α} {a : α} (h : x = .ok a) : (raise x : EStateM ε σ α) s = .ok a s := by
  rw [h]
  rfl

theorem raise_error {x : Except ε α} {e : ε} (h : x = .error e) : (raise x : EStateM ε σ α) s = .error e s := by
  rw [h]
  rfl

/-- A guard that does not hold is passed. -/
theorem pass_bind {c : Prop} [Decidable c] {e : ε} {f : Unit → EStateM ε σ β} (h : ¬c) : (raise (refuse c e) >>= f) s = f () s :=
  ok_bind (raise_ok (refuse_ok.2 h))

end HeteroSim
