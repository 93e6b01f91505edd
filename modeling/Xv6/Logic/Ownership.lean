import Mathlib.Data.Set.Basic
import Mathlib.Logic.Equiv.Defs
import Mathlib.Tactic.Common

/-!
# Exact ownership

A stock `S` of resources is held by owners: `own o` is the set of resources owner `o`
holds. `Exact own S` says that the owners partition the stock, each resource having exactly
one owner and nothing outside the stock being held.

An allocator moves single resources. `Exact.move` is the rule for a resource that passes
from one owner to another; `Exact.gain` and `Exact.lose` are the rules for a resource that
enters or leaves the stock, and `Exact.drop` lets several owners give up everything at once.
`Within own S` is the half of it that tolerates resources of the stock which nobody holds.
-/

namespace Ownership

variable {O R : Type} {own own' : O → Set R} {S S' : Set R} {a b : O} {r : R}

/-- The owners hold exactly the stock `S`, no resource having two of them. -/
structure Exact (own : O → Set R) (S : Set R) : Prop where
  /-- Only resources of the stock are held. -/
  sub : ∀ o r, r ∈ own o → r ∈ S
  /-- Every resource of the stock is held. -/
  held : ∀ r, r ∈ S → ∃ o, r ∈ own o
  /-- No resource has two owners. -/
  uniq : ∀ o o' r, r ∈ own o → r ∈ own o' → o = o'

/-- The owners hold parts of the stock that do not overlap; the stock may have more. -/
structure Within (own : O → Set R) (S : Set R) : Prop where
  sub : ∀ o r, r ∈ own o → r ∈ S
  uniq : ∀ o o' r, r ∈ own o → r ∈ own o' → o = o'

theorem Exact.within (h : Exact own S) : Within own S := ⟨h.sub, h.uniq⟩

/-- Nobody holds anything. -/
theorem Exact.empty (h : ∀ o r, r ∉ own o) (hS : ∀ r, r ∉ S) : Exact own S :=
  ⟨fun o r hr => absurd hr (h o r), fun r hr => absurd hr (hS r), fun o _ r hr => absurd hr (h o r)⟩

/-- A resource of the stock has exactly one owner. -/
theorem Exact.existsUnique (h : Exact own S) (hr : r ∈ S) : ∃! o, r ∈ own o := by
  obtain ⟨o, ho⟩ := h.held r hr
  exact ⟨o, ho, fun o' ho' => h.uniq o' o r ho' ho⟩

/-- A resource held by `a` is held by no other owner. -/
theorem Exact.not_mem (h : Exact own S) (ha : r ∈ own a) (hab : b ≠ a) : r ∉ own b :=
  fun hb => hab (h.uniq b a r hb ha)

/-- Exactness depends on the holdings only. -/
theorem Exact.congr (h : Exact own S) (heq : ∀ o x, x ∈ own' o ↔ x ∈ own o) :
    Exact own' S := by
  have : own' = own := funext fun o => Set.ext fun x => heq o x
  rw [this]
  exact h

/-- Owners may exchange all they hold. -/
theorem Exact.reindex (h : Exact own S) (e : O ≃ O) (heq : ∀ o x, x ∈ own' o ↔ x ∈ own (e o)) :
    Exact own' S := by
  refine ⟨fun o r hr => h.sub (e o) r ((heq o r).mp hr), fun r hr => ?_, fun o o' r ho ho' => ?_⟩
  · obtain ⟨o, ho⟩ := h.held r hr
    refine ⟨e.symm o, (heq _ r).mpr ?_⟩
    rw [Equiv.apply_symm_apply]
    exact ho
  · exact e.injective (h.uniq _ _ r ((heq o r).mp ho) ((heq o' r).mp ho'))

/-- **A resource changes hands.** `a` gives `r` to `b`, and all else stays as it is. -/
theorem Exact.move (h : Exact own S) (ha : r ∈ own a)
    (hfrom : ∀ x, x ∈ own' a ↔ x ∈ own a ∧ x ≠ r)
    (hto : ∀ x, x ∈ own' b ↔ x ∈ own b ∨ x = r)
    (hrest : ∀ o, o ≠ a → o ≠ b → ∀ x, x ∈ own' o ↔ x ∈ own o) : Exact own' S := by
  have hab : a ≠ b := by
    rintro rfl
    exact ((hfrom r).mp ((hto r).mpr (Or.inr rfl))).2 rfl
  -- where each resource of the new state was: with the same owner, or it is `r` and moved
  have hback : ∀ o x, x ∈ own' o → x ∈ own o ∧ x ≠ r ∨ o = b ∧ x = r := by
    intro o x hx
    by_cases hoa : o = a
    · subst hoa
      exact Or.inl ((hfrom x).mp hx)
    · by_cases hob : o = b
      · subst hob
        rcases (hto x).mp hx with hx | rfl
        · refine Or.inl ⟨hx, ?_⟩
          rintro rfl
          exact hoa (h.uniq _ _ _ hx ha)
        · exact Or.inr ⟨rfl, rfl⟩
      · have hx' := (hrest o hoa hob x).mp hx
        refine Or.inl ⟨hx', ?_⟩
        rintro rfl
        exact hoa (h.uniq _ _ _ hx' ha)
  refine ⟨fun o x hx => ?_, fun x hx => ?_, fun o o' x hx hx' => ?_⟩
  · rcases hback o x hx with ⟨hx, -⟩ | ⟨-, rfl⟩
    · exact h.sub o x hx
    · exact h.sub a x ha
  · by_cases hxr : x = r
    · exact ⟨b, (hto x).mpr (Or.inr hxr)⟩
    · obtain ⟨o, ho⟩ := h.held x hx
      refine ⟨o, ?_⟩
      by_cases hoa : o = a
      · subst hoa
        exact (hfrom x).mpr ⟨ho, hxr⟩
      · by_cases hob : o = b
        · subst hob
          exact (hto x).mpr (Or.inl ho)
        · exact (hrest o hoa hob x).mpr ho
  · rcases hback o x hx with ⟨h1, hne⟩ | ⟨rfl, hr⟩ <;>
      rcases hback o' x hx' with ⟨h1', hne'⟩ | ⟨rfl, hr'⟩
    · exact h.uniq o o' x h1 h1'
    · exact absurd hr' hne
    · exact absurd hr hne'
    · rfl

/-- **A resource enters the stock** and goes to `b`. -/
theorem Within.gain (h : Within own S) (hr : r ∉ S) (hS : ∀ x, x ∈ S' ↔ x ∈ S ∨ x = r)
    (hto : ∀ x, x ∈ own' b ↔ x ∈ own b ∨ x = r)
    (hrest : ∀ o, o ≠ b → ∀ x, x ∈ own' o ↔ x ∈ own o) : Within own' S' := by
  have hback : ∀ o x, x ∈ own' o → x ∈ own o ∨ o = b ∧ x = r := by
    intro o x hx
    by_cases hob : o = b
    · subst hob
      exact ((hto x).mp hx).imp_right fun hxr => ⟨rfl, hxr⟩
    · exact Or.inl ((hrest o hob x).mp hx)
  refine ⟨fun o x hx => ?_, fun o o' x hx hx' => ?_⟩
  · exact (hS x).mpr ((hback o x hx).imp (h.sub o x) And.right)
  · rcases hback o x hx with h1 | ⟨rfl, rfl⟩ <;> rcases hback o' x hx' with h1' | ⟨rfl, hr'⟩
    · exact h.uniq o o' x h1 h1'
    · exact absurd (hr' ▸ h.sub o x h1) hr
    · exact absurd (h.sub o' x h1') hr
    · rfl

theorem Exact.gain (h : Exact own S) (hr : r ∉ S) (hS : ∀ x, x ∈ S' ↔ x ∈ S ∨ x = r)
    (hto : ∀ x, x ∈ own' b ↔ x ∈ own b ∨ x = r)
    (hrest : ∀ o, o ≠ b → ∀ x, x ∈ own' o ↔ x ∈ own o) : Exact own' S' := by
  have hw := h.within.gain hr hS hto hrest
  refine ⟨hw.sub, fun x hx => ?_, hw.uniq⟩
  rcases (hS x).mp hx with hx | rfl
  · obtain ⟨o, ho⟩ := h.held x hx
    by_cases hob : o = b
    · subst hob
      exact ⟨o, (hto x).mpr (Or.inl ho)⟩
    · exact ⟨o, (hrest o hob x).mpr ho⟩
  · exact ⟨b, (hto x).mpr (Or.inr rfl)⟩

/-- **A resource leaves the stock**, given up by `a`. -/
theorem Exact.lose (h : Exact own S) (ha : r ∈ own a) (hS : ∀ x, x ∈ S' ↔ x ∈ S ∧ x ≠ r)
    (hfrom : ∀ x, x ∈ own' a ↔ x ∈ own a ∧ x ≠ r)
    (hrest : ∀ o, o ≠ a → ∀ x, x ∈ own' o ↔ x ∈ own o) : Exact own' S' := by
  have hback : ∀ o x, x ∈ own' o ↔ x ∈ own o ∧ x ≠ r := by
    intro o x
    by_cases hoa : o = a
    · subst hoa
      exact hfrom x
    · rw [hrest o hoa x]
      refine ⟨fun hx => ⟨hx, ?_⟩, And.left⟩
      rintro rfl
      exact hoa (h.uniq _ _ _ hx ha)
  refine ⟨fun o x hx => ?_, fun x hx => ?_, fun o o' x hx hx' => ?_⟩
  · exact (hS x).mpr ((hback o x).mp hx |>.imp_left (h.sub o x))
  · obtain ⟨hx, hne⟩ := (hS x).mp hx
    obtain ⟨o, ho⟩ := h.held x hx
    exact ⟨o, (hback o x).mpr ⟨ho, hne⟩⟩
  · exact h.uniq o o' x ((hback o x).mp hx).1 ((hback o' x).mp hx').1

/-- **A group of owners gives up all it holds**, which leaves the stock. -/
theorem Exact.drop (h : Exact own S) (P : O → Prop)
    (hown : ∀ o x, x ∈ own' o ↔ x ∈ own o ∧ ¬P o)
    (hS : ∀ x, x ∈ S' ↔ x ∈ S ∧ ∀ o, P o → x ∉ own o) : Exact own' S' := by
  refine ⟨fun o x hx => ?_, fun x hx => ?_, fun o o' x hx hx' => ?_⟩
  · obtain ⟨hx, ho⟩ := (hown o x).mp hx
    exact (hS x).mpr ⟨h.sub o x hx, fun o' ho' hx' => ho (h.uniq o o' x hx hx' ▸ ho')⟩
  · obtain ⟨hx, hnot⟩ := (hS x).mp hx
    obtain ⟨o, ho⟩ := h.held x hx
    exact ⟨o, (hown o x).mpr ⟨ho, fun hP => hnot o hP ho⟩⟩
  · exact h.uniq o o' x ((hown o x).mp hx).1 ((hown o' x).mp hx').1

end Ownership
