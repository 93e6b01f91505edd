import Mathlib.Logic.Function.Basic
import Mathlib.Tactic.Common

/-!
# Locks and those who rely on them

A table `held` names the holder of each lock, and `relies a l` says that agent `a`, where it is now,
relies on holding lock `l`. The table is right for the agents when whoever relies on a lock holds it;
two agents then never rely on the same lock.

A step of an agent takes a free lock, gives up one that it holds, or keeps the table. The rules ask
for what the agents rely on after the step in terms of what they relied on before.
-/

namespace Locks

variable {A L : Type*} [DecidableEq L] {held : L → Option A} {relies relies' : A → L → Prop}
  {a b : A} {l : L}

/-- Whoever relies on a lock holds it. -/
def Sound (held : L → Option A) (relies : A → L → Prop) : Prop :=
  ∀ a l, relies a l → held l = some a

omit [DecidableEq L] in
/-- A lock is relied on by one agent at most. -/
theorem Sound.exclusive (h : Sound held relies) (ha : relies a l) (hb : relies b l) : a = b :=
  Option.some.inj ((h a l ha).symm.trans (h b l hb))

omit [DecidableEq L] in
/-- Nobody relies on a free lock. -/
theorem Sound.not_relies (h : Sound held relies) (hl : held l = none) (a : A) : ¬relies a l := by
  intro ha
  rw [h a l ha] at hl
  cases hl

omit [DecidableEq L] in
theorem Sound.keep (h : Sound held relies) (hle : ∀ b k, relies' b k → relies b k) :
    Sound held relies' := fun b k hb => h b k (hle b k hb)

theorem Sound.acquire (h : Sound held relies) (hl : held l = none)
    (hle : ∀ b k, relies' b k → relies b k ∨ b = a ∧ k = l) :
    Sound (Function.update held l (some a)) relies' := by
  intro b k hb
  rcases hle b k hb with hold | ⟨rfl, rfl⟩
  · have hk : k ≠ l := by
      rintro rfl
      exact h.not_relies hl b hold
    rw [Function.update_of_ne hk]
    exact h b k hold
  · exact Function.update_self ..

theorem Sound.release (h : Sound held relies) (hl : held l = some a)
    (hle : ∀ b k, relies' b k → relies b k ∧ (b = a → k ≠ l)) :
    Sound (Function.update held l none) relies' := by
  intro b k hb
  obtain ⟨hold, hne⟩ := hle b k hb
  have hk : k ≠ l := by
    rintro rfl
    refine hne ?_ rfl
    exact Option.some.inj ((h b k hold).symm.trans hl)
  rw [Function.update_of_ne hk]
  exact h b k hold

end Locks
