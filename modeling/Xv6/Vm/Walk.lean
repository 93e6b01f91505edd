import Xv6.Machine.Vm
import Xv6.Swap.Evict

/-!
# Walks through tables that exist

Where the page table already has an entry for an address, `walk` finds it whatever its
`alloc` argument and changes nothing. `walkaddr` is then a pure function of the entry.
-/

namespace Xv6

open StateLogic

section Basic

variable {E : Panic → Machine → Prop} {m : Machine} (root v : ℕ) (e : Pte)

@[simp] theorem run_loadPte (m : Machine) :
    (loadPte root v).run m = .ok (m.k.leaf root v) m := rfl

@[simp] theorem run_storePte (m : Machine) :
    (storePte root v e).run m = .ok () { m with k := m.k.setLeaf root v e } := rfl

@[simp] theorem wp_loadPte {Q : Pte → Machine → Prop} :
    wp (loadPte root v) Q E m ↔ Q (m.k.leaf root v) m := Iff.rfl

@[simp] theorem wp_storePte {Q : Unit → Machine → Prop} :
    wp (storePte root v e) Q E m ↔ Q () { m with k := m.k.setLeaf root v e } := Iff.rfl

end Basic

theorem pgrounddown_div (a : ℕ) : pgrounddown a / pgsize = a / pgsize :=
  Nat.mul_div_cancel _ (by decide)

theorem pgrounddown_le (a : ℕ) : pgrounddown a ≤ a := Nat.div_mul_le_self a pgsize

section Walk

variable {m : Machine} {root va : ℕ}

theorem run_walkNoalloc_entry (hva : va < maxva) (h : m.k.HasEntry root (va / pgsize)) :
    (walkNoalloc root va).run m = .ok (some (va / pgsize)) m := by
  obtain ⟨t, ht, hlow⟩ := h
  rw [run_walkNoalloc hva ht, if_pos hlow]

theorem run_walkMid (v : ℕ) (h : m.k.HasEntry root v) :
    (walkMid root v).run m = .ok true m := by
  obtain ⟨t, ht, hlow⟩ := h
  rw [walkMid, run_bind_ok (run_table ht)]
  simp only [if_pos (t.mid_of_low _ hlow)]
  rfl

theorem run_walkLow (v : ℕ) (h : m.k.HasEntry root v) :
    (walkLow root v).run m = .ok true m := by
  obtain ⟨t, ht, hlow⟩ := h
  rw [walkLow, run_bind_ok (run_table ht)]
  simp only [if_pos hlow]
  rfl

/-- Nothing is allocated on a walk to an entry that exists. -/
theorem run_walk_entry (alloc : Bool) (hva : va < maxva)
    (h : m.k.HasEntry root (va / pgsize)) :
    (walk root va alloc).run m = .ok (some (va / pgsize)) m := by
  cases alloc with
  | false => exact run_walkNoalloc_entry hva h
  | true =>
    rw [walk, if_pos rfl, walkAlloc, if_neg (Nat.not_le.mpr hva),
      run_bind_ok (run_walkMid _ h), if_pos rfl, run_bind_ok (run_walkLow _ h), if_pos rfl]
    rfl

end Walk

end Xv6
