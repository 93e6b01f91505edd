import Mathlib.Tactic.Common
import Mathlib.Logic.Function.Basic

/-!
# Weakest preconditions for computations with state and failure

A computation `x : EStateM ε σ α` either returns a value or stops with an error, and in
both cases leaves a state behind. `wp x Q E s` says that running `x` from `s` ends in `Q`
when it returns and in `E` when it stops; keeping the error postcondition beside the
normal one lets an invariant over the history of a run survive a run that stops.

The rules below peel a `do` block apart one statement at a time (`wp_bind`, `wp_modify`,
`wp_ite`), and `wp_mono` replaces a call by its specification. The inversion rules
`bind_eq_ok` and `bind_eq_error` are the same facts read from a completed run.
-/

namespace StateLogic

variable {ε σ α β : Type}

/-- Running `x` from `s` ends in `Q` if it returns and in `E` if it stops. -/
def wp (x : EStateM ε σ α) (Q : α → σ → Prop) (E : ε → σ → Prop) (s : σ) : Prop :=
  match x.run s with
  | .ok a s' => Q a s'
  | .error e s' => E e s'

variable {x : EStateM ε σ α} {f : α → EStateM ε σ β} {Q Q' : α → σ → Prop}
  {E E' : ε → σ → Prop} {s s' : σ}

/-! ### Runs -/

@[simp]
theorem run_throw (e : ε) (s : σ) : (throw e : EStateM ε σ α).run s = .error e s := rfl

/-- A block whose first statement returns runs as its rest. -/
theorem run_bind_ok {a : α} (h : x.run s = .ok a s') : (x >>= f).run s = (f a).run s' := by
  rw [EStateM.run_bind, h]

/-- A block whose first statement stops, stops there. -/
theorem run_bind_error {e : ε} (h : x.run s = .error e s') :
    (x >>= f).run s = .error e s' := by
  rw [EStateM.run_bind, h]

/-- A block that returned ran its first statement to the end. -/
theorem bind_eq_ok {b : β} : (x >>= f).run s = .ok b s' ↔
    ∃ a s₁, x.run s = .ok a s₁ ∧ (f a).run s₁ = .ok b s' := by
  rw [EStateM.run_bind]
  cases x.run s with
  | ok a s₁ => simp
  | error e s₁ => simp

/-- The value a run returned, if it did. -/
def value? (x : EStateM ε σ α) (s : σ) : Option α :=
  match x.run s with
  | .ok a _ => some a
  | .error _ _ => none

/-- The state a run leaves behind. -/
def final (x : EStateM ε σ α) (s : σ) : σ :=
  match x.run s with
  | .ok _ s' => s'
  | .error _ s' => s'

/-- A run is known by its value and its final state, both of which can be computed. -/
theorem run_eq_of_value? {a : α} (h : value? x s = some a) : x.run s = .ok a (final x s) := by
  rw [value?] at h
  rw [final]
  cases hx : x.run s with
  | ok b s₁ =>
    rw [hx, Option.some.injEq] at h
    rw [h]
  | error e s₁ =>
    rw [hx] at h
    cases h

/-- What a run stopped with, if it did. -/
def stop? (x : EStateM ε σ α) (s : σ) : Option ε :=
  match x.run s with
  | .ok _ _ => none
  | .error e _ => some e

theorem run_eq_of_stop? {e : ε} (h : stop? x s = some e) : x.run s = .error e (final x s) := by
  rw [stop?] at h
  rw [final]
  cases hx : x.run s with
  | ok b s₁ =>
    rw [hx] at h
    cases h
  | error e' s₁ =>
    rw [hx, Option.some.injEq] at h
    rw [h]

/-! ### Rules -/

theorem wp_of_ok {a : α} (h : x.run s = .ok a s') (hq : Q a s') : wp x Q E s := by
  rw [wp, h]
  exact hq

theorem wp_of_error {e : ε} (h : x.run s = .error e s') (he : E e s') : wp x Q E s := by
  rw [wp, h]
  exact he

/-- What a run that returned says when the precondition held. -/
theorem wp_ok {a : α} (hw : wp x Q E s) (h : x.run s = .ok a s') : Q a s' := by
  rw [wp, h] at hw
  exact hw

/-- What a run that stopped says when the precondition held. -/
theorem wp_error {e : ε} (hw : wp x Q E s) (h : x.run s = .error e s') : E e s' := by
  rw [wp, h] at hw
  exact hw

/-- What holds however a run ends holds of the state it leaves behind. -/
theorem wp_final {P : σ → Prop} (hw : wp x (fun _ => P) (fun _ => P) s) : P (final x s) := by
  rw [final]
  cases h : x.run s with
  | ok a s' => exact wp_ok hw h
  | error e s' => exact wp_error hw h

/-- Two specifications of one computation hold together. -/
theorem wp_and (hw : wp x Q E s) (hw' : wp x Q' E' s) :
    wp x (fun a s' => Q a s' ∧ Q' a s') (fun e s' => E e s' ∧ E' e s') s := by
  cases h : x.run s with
  | ok a s' => exact wp_of_ok h ⟨wp_ok hw h, wp_ok hw' h⟩
  | error e s' => exact wp_of_error h ⟨wp_error hw h, wp_error hw' h⟩

/-- Consequence: a specification of `x` serves any weaker postcondition. -/
theorem wp_mono (hw : wp x Q E s) (hQ : ∀ a s', Q a s' → Q' a s')
    (hE : ∀ e s', E e s' → E' e s') : wp x Q' E' s := by
  rw [wp] at hw ⊢
  cases h : x.run s with
  | ok a s' =>
    rw [h] at hw
    exact hQ a s' hw
  | error e s' =>
    rw [h] at hw
    exact hE e s' hw

@[simp]
theorem wp_pure {a : α} : wp (pure a : EStateM ε σ α) Q E s ↔ Q a s := Iff.rfl

@[simp]
theorem wp_throw {e : ε} : wp (throw e : EStateM ε σ α) Q E s ↔ E e s := Iff.rfl

@[simp]
theorem wp_get {Q : σ → σ → Prop} : wp (get : EStateM ε σ σ) Q E s ↔ Q s s := Iff.rfl

@[simp]
theorem wp_modify {g : σ → σ} {Q : PUnit → σ → Prop} :
    wp (modify g : EStateM ε σ PUnit) Q E s ↔ Q ⟨⟩ (g s) := Iff.rfl

@[simp]
theorem wp_set {t : σ} {Q : PUnit → σ → Prop} :
    wp (set t : EStateM ε σ PUnit) Q E s ↔ Q ⟨⟩ t := Iff.rfl

@[simp]
theorem wp_bind {Q : β → σ → Prop} :
    wp (x >>= f) Q E s ↔ wp x (fun a s' => wp (f a) Q E s') E s := by
  rw [wp, wp, EStateM.run_bind]
  cases x.run s <;> rfl

@[simp]
theorem wp_ite {c : Prop} [Decidable c] {y : EStateM ε σ α} :
    wp (if c then x else y) Q E s ↔ (c → wp x Q E s) ∧ (¬c → wp y Q E s) := by
  by_cases h : c <;> simp [h]

/-- Sequencing: a specification of the first statement, then of the rest from every state
that specification allows. -/
theorem wp_seq {R : α → σ → Prop} {Q : β → σ → Prop} (hx : wp x R E s)
    (hf : ∀ a s', R a s' → wp (f a) Q E s') : wp (x >>= f) Q E s := by
  rw [wp_bind]
  exact wp_mono hx hf fun _ _ h => h

/-- Sequencing after two specifications of the first statement. -/
theorem wp_seq_and {R R' : α → σ → Prop} {Q : β → σ → Prop} (hx : wp x R E s)
    (hx' : wp x R' E s) (hf : ∀ a s', R a s' → R' a s' → wp (f a) Q E s') : wp (x >>= f) Q E s :=
  wp_seq (wp_mono (wp_and hx hx') (fun _ _ h => h) fun _ _ he => he.1) fun a s' h => hf a s' h.1 h.2

/-- A loop over the numbers below `n` keeps an invariant that each turn carries one further. -/
theorem wp_forM_range {n : ℕ} {g : ℕ → EStateM ε σ PUnit} (I : ℕ → σ → Prop) (h : I 0 s)
    (hstep : ∀ k s, k < n → I k s → wp (g k) (fun _ s' => I (k + 1) s') E s) :
    wp ((List.range n).forM g) (fun _ s' => I n s') E s := by
  -- the loop from turn `k` on
  have hloop : ∀ m k s, k + m = n → I k s →
      wp ((List.range' k m).forM g) (fun _ s' => I n s') E s := by
    intro m
    induction m with
    | zero =>
      rintro k s rfl hk
      exact hk
    | succ m ih =>
      intro k s hkm hk
      rw [List.range'_succ]
      exact wp_seq (hstep k s (by omega) hk) fun _ s' hk' => ih (k + 1) s' (by omega) hk'
  rw [List.range_eq_range']
  exact hloop n 0 s (Nat.zero_add n) h

/-! ### Frames -/

/-- The part `g` of the state is the same after `x`, if `x` returns. -/
def Frames {γ : Type} (g : σ → γ) (x : EStateM ε σ α) : Prop :=
  ∀ s, wp x (fun _ s' => g s' = g s) (fun _ _ => True) s

section Frames

variable {γ : Type} {g : σ → γ}

theorem Frames.pure (a : α) : Frames g (Pure.pure a : EStateM ε σ α) := fun _ => rfl

theorem Frames.get : Frames g (MonadState.get : EStateM ε σ σ) := fun _ => rfl

theorem Frames.throw (e : ε) : Frames g (MonadExcept.throw e : EStateM ε σ α) := fun _ => trivial

theorem Frames.modify {m : σ → σ} (h : ∀ s, g (m s) = g s) :
    Frames g (modifyGet fun s => (⟨⟩, m s) : EStateM ε σ PUnit) := h

theorem Frames.bind (hx : Frames g x) (hf : ∀ a, Frames g (f a)) : Frames g (x >>= f) :=
  fun s => wp_seq (hx s) fun a s' hs => wp_mono (hf a s') (fun _ _ h => h.trans hs) fun _ _ h => h

theorem Frames.ite {c : Prop} [Decidable c] {y : EStateM ε σ α} (hx : Frames g x)
    (hy : Frames g y) : Frames g (if c then x else y) :=
  fun s => wp_ite.mpr ⟨fun _ => hx s, fun _ => hy s⟩

theorem Frames.forM {n : ℕ} {h : ℕ → EStateM ε σ PUnit} (hf : ∀ k, Frames g (h k)) :
    Frames g ((List.range n).forM h) := fun _ =>
  wp_forM_range (fun _ s' => g s' = g _) rfl fun k s' _ hs =>
    wp_mono (hf k s') (fun _ _ h => h.trans hs) fun _ _ h => h

end Frames

end StateLogic
