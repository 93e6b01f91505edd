import Mathlib.Algebra.Group.Pi.Basic
import Mathlib.Algebra.Order.Ring.Int
import Mathlib.Data.Finset.Card
import Mathlib.Tactic.Common

/-!
# Reference counts

A table `g` has a slot for each element of `S`, which refers to an object or is empty, and `ref`
counts the references to each object. `Balanced S g ref held` says that the count of an object is
the number of slots that refer to it plus `held`, the balance of the references that are not in the
table at the moment. The balance is zero when nothing is under way. It can be negative, as a slot
may be filled before the object's count is raised.

There is one rule for each of the four moves: filling a slot, clearing it, raising a count and
lowering it.
-/

namespace Refcount

variable {ι α : Type*} [DecidableEq ι] [DecidableEq α] {S : Finset ι} {g : ι → Option α}
  {ref : α → ℕ} {held held' : α → ℤ} {i : ι} {a : α} {v : Option α}

/-- The number of slots that refer to the object. -/
def count (S : Finset ι) (g : ι → Option α) (a : α) : ℕ := (S.filter fun i => g i = some a).card

omit [DecidableEq ι] in
theorem count_pos (hi : i ∈ S) (hg : g i = some a) : 0 < count S g a :=
  Finset.card_pos.mpr ⟨i, Finset.mem_filter.mpr ⟨hi, hg⟩⟩

omit [DecidableEq ι] in
theorem exists_of_count_pos (h : 0 < count S g a) : ∃ i ∈ S, g i = some a := by
  obtain ⟨i, hi⟩ := Finset.card_pos.mp h
  exact ⟨i, Finset.mem_filter.mp hi⟩

/-- The slots that refer to `a` when the empty slot `i` is filled with it. -/
theorem count_fill (hi : i ∈ S) (hg : g i = none) :
    count S (Function.update g i (some a)) a = count S g a + 1 := by
  have hnot : i ∉ S.filter fun j => g j = some a := by
    rw [Finset.mem_filter, hg]
    rintro ⟨-, h⟩
    cases h
  rw [count, count, ← Finset.card_insert_of_notMem hnot]
  congr 1
  ext j
  rw [Finset.mem_filter, Finset.mem_insert, Finset.mem_filter]
  by_cases hj : j = i
  · subst hj
    rw [Function.update_self]
    exact ⟨fun _ => Or.inl rfl, fun _ => ⟨hi, rfl⟩⟩
  · rw [Function.update_of_ne hj]
    exact ⟨Or.inr, fun h => h.resolve_left hj⟩

/-- Slots that do not refer to `a`, before and after, do not matter for it. -/
theorem count_of_ne (hg : g i ≠ some a) (hv : v ≠ some a) :
    count S (Function.update g i v) a = count S g a := by
  rw [count, count]
  congr 1
  refine Finset.filter_congr fun j _ => ?_
  by_cases hj : j = i
  · subst hj
    rw [Function.update_self]
    exact ⟨fun h => absurd h hv, fun h => absurd h hg⟩
  · rw [Function.update_of_ne hj]

/-- The counts are right, up to the references that are not in the table. -/
def Balanced (S : Finset ι) (g : ι → Option α) (ref : α → ℕ) (held : α → ℤ) : Prop :=
  ∀ a, (ref a : ℤ) = count S g a + held a

namespace Balanced

omit [DecidableEq ι] in
/-- An object in the table, or held outside, is counted. -/
theorem ref_pos (h : Balanced S g ref held) (ha : 0 < count S g a + held a) : 1 ≤ ref a := by
  have hr := h a
  omega

/-- Fill a slot. -/
theorem fill (h : Balanced S g ref held) (hi : i ∈ S) (hg : g i = none) (a : α) :
    Balanced S (Function.update g i (some a)) ref (held - Pi.single a 1) := by
  intro b
  rw [h b, Pi.sub_apply]
  by_cases hb : b = a
  · rw [hb, count_fill hi hg, Pi.single_eq_same]
    omega
  · rw [count_of_ne (by rw [hg]; nofun) (by simpa using Ne.symm hb), Pi.single_eq_of_ne hb,
      sub_zero]

/-- Clear a slot. -/
theorem clear (h : Balanced S g ref held) (hi : i ∈ S) (hg : g i = some a) :
    Balanced S (Function.update g i none) ref (held + Pi.single a 1) := by
  intro b
  rw [h b, Pi.add_apply]
  by_cases hb : b = a
  · subst hb
    -- filling the slot again gives the table back
    have hback := count_fill (a := b) hi (Function.update_self i none g)
    rw [Function.update_idem, ← hg, Function.update_eq_self] at hback
    rw [Pi.single_eq_same]
    omega
  · rw [count_of_ne (v := none) (by simpa [hg] using Ne.symm hb) (by nofun),
      Pi.single_eq_of_ne hb, add_zero]

omit [DecidableEq ι] in
/-- Raise a count. -/
theorem raise (h : Balanced S g ref held) (a : α) :
    Balanced S g (Function.update ref a (ref a + 1)) (held + Pi.single a 1) := by
  intro b
  rw [Pi.add_apply, ← add_assoc, ← h b]
  by_cases hb : b = a
  · rw [hb, Function.update_self, Pi.single_eq_same, Nat.cast_add, Nat.cast_one]
  · rw [Function.update_of_ne hb, Pi.single_eq_of_ne hb, add_zero]

omit [DecidableEq ι] in
/-- Lower a count. -/
theorem lower (h : Balanced S g ref held) (ha : 1 ≤ ref a) :
    Balanced S g (Function.update ref a (ref a - 1)) (held - Pi.single a 1) := by
  intro b
  have hb' := h b
  rw [Pi.sub_apply]
  by_cases hb : b = a
  · rw [hb] at hb' ⊢
    rw [Function.update_self, Pi.single_eq_same]
    omega
  · rw [Function.update_of_ne hb, Pi.single_eq_of_ne hb, sub_zero]
    exact hb'

end Balanced

end Refcount
