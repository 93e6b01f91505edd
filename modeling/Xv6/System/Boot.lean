import Mathlib.Data.List.Nodup
import Xv6.System.Inv

/-!
# Boot

The state in which `main` calls `userinit`. By then the allocator has been given the pages
behind the kernel and the kernel has taken some of them for itself; which ones is left open
(`Boot`). `Kernel.booted` is the instance with a given number of pages left, used where a
concrete run is wanted.
-/

namespace Xv6

open Ownership

/-- The state in which `main` calls `userinit`: the pages behind the kernel are free or were
taken for the kernel page table, the kernel stacks and the disk queue, and the tables are
empty. -/
structure Boot (k : Kernel) : Prop where
  kend_le : kernbase ≤ k.kend
  pages : ∀ pa, pa ∈ k.pages ↔
    pa ∈ k.freelist ++ (k.boot.kpgtbl ++ (k.boot.kstack ++ k.boot.virtq))
  nodup : (k.freelist ++ (k.boot.kpgtbl ++ (k.boot.kstack ++ k.boot.virtq))).Nodup
  pt : ∀ r, k.pt r = none
  frames : ∀ i, (k.frames i).isUsed = false
  swapMask : ∀ i, k.swapMask i = false
  state : ∀ p, (k.proc p).state = .unused
  vacant : ∀ p, Vacant (k.proc p)
  ftable : ∀ f, (k.ftable f).type = .none
  pipes : ∀ x, k.pipes x = none
  image : ∀ p, k.image p = none
  args : ∀ p, k.args p = []
  held : k.held = []

section Boot

variable {k : Kernel}

/-- Who owns a page at boot. -/
theorem Boot.owner (h : Boot k) {o : Owner} {x : ℕ} (hx : x ∈ k.own [] o) :
    (o = .free ∧ x ∈ k.freelist) ∨ (∃ i, o = .kpgtbl i ∧ k.boot.kpgtbl[i]? = some x) ∨
      (∃ i, o = .kstack i ∧ k.boot.kstack[i]? = some x) ∨
      ∃ i, o = .virtq i ∧ k.boot.virtq[i]? = some x := by
  cases o with
  | free => exact Or.inl ⟨rfl, hx⟩
  | kpgtbl i => exact Or.inr (Or.inl ⟨i, rfl, hx⟩)
  | kstack i => exact Or.inr (Or.inr (Or.inl ⟨i, rfl, hx⟩))
  | virtq i => exact Or.inr (Or.inr (Or.inr ⟨i, rfl, hx⟩))
  | held => exact absurd hx List.not_mem_nil
  | leaf r v =>
    have hV := hx.2.1
    rw [Memory.leaf_of_none (h.pt r)] at hV
    exact absurd hV (by decide)
  | root r =>
    have hr := hx.1
    rw [h.pt] at hr
    cases hr
  | mid r i =>
    obtain ⟨t, ht, -⟩ := hx
    rw [h.pt] at ht
    cases ht
  | low r j =>
    obtain ⟨t, ht, -⟩ := hx
    rw [h.pt] at ht
    cases ht
  | trapframe p => exact absurd ((h.vacant p).trapframe.symm.trans hx.2).symm hx.1
  | pipe =>
    have hp : (k.pipes x).isSome := hx
    rw [h.pipes] at hp
    cases hp
  | arg p =>
    have ha : x ∈ k.args p := hx
    rw [h.args] at ha
    exact absurd ha List.not_mem_nil

theorem Boot.exact (h : Boot k) : Exact (k.own []) k.pages := by
  obtain ⟨-, hn1, hd1⟩ := List.nodup_append.mp h.nodup
  obtain ⟨hkp, hn2, hd2⟩ := List.nodup_append.mp hn1
  obtain ⟨hks, hvq, hd3⟩ := List.nodup_append.mp hn2
  have hmem := @List.mem_of_getElem? ℕ
  have hinj : ∀ {l : List ℕ} {i j x : ℕ}, l.Nodup → l[i]? = some x → l[j]? = some x → i = j := by
    intro l i j x hl hi hj
    obtain ⟨hlt, -⟩ := List.getElem?_eq_some_iff.mp hi
    exact (List.getElem?_inj hlt hl).mp (hi.trans hj.symm)
  refine ⟨fun o x hx => (h.pages x).mpr ?_, fun x hx => ?_, fun o o' x hx hx' => ?_⟩
  · rcases h.owner hx with ⟨-, hx⟩ | ⟨i, -, hx⟩ | ⟨i, -, hx⟩ | ⟨i, -, hx⟩
    · simp [hx]
    · simp [hmem hx]
    · simp [hmem hx]
    · simp [hmem hx]
  · rw [h.pages] at hx
    simp only [List.mem_append] at hx
    rcases hx with hx | hx | hx | hx
    · exact ⟨.free, hx⟩
    · obtain ⟨i, hi⟩ := List.mem_iff_getElem?.mp hx
      exact ⟨.kpgtbl i, hi⟩
    · obtain ⟨i, hi⟩ := List.mem_iff_getElem?.mp hx
      exact ⟨.kstack i, hi⟩
    · obtain ⟨i, hi⟩ := List.mem_iff_getElem?.mp hx
      exact ⟨.virtq i, hi⟩
  · rcases h.owner hx with ⟨rfl, hx⟩ | ⟨i, rfl, hx⟩ | ⟨i, rfl, hx⟩ | ⟨i, rfl, hx⟩ <;>
      rcases h.owner hx' with ⟨rfl, hx'⟩ | ⟨j, rfl, hx'⟩ | ⟨j, rfl, hx'⟩ | ⟨j, rfl, hx'⟩
    · rfl
    · exact absurd rfl (hd1 x hx x (by simp [hmem hx']))
    · exact absurd rfl (hd1 x hx x (by simp [hmem hx']))
    · exact absurd rfl (hd1 x hx x (by simp [hmem hx']))
    · exact absurd rfl (hd1 x hx' x (by simp [hmem hx]))
    · rw [hinj hkp hx hx']
    · exact absurd rfl (hd2 x (hmem hx) x (by simp [hmem hx']))
    · exact absurd rfl (hd2 x (hmem hx) x (by simp [hmem hx']))
    · exact absurd rfl (hd1 x hx' x (by simp [hmem hx]))
    · exact absurd rfl (hd2 x (hmem hx') x (by simp [hmem hx]))
    · rw [hinj hks hx hx']
    · exact absurd rfl (hd3 x (hmem hx) x (hmem hx'))
    · exact absurd rfl (hd1 x hx' x (by simp [hmem hx]))
    · exact absurd rfl (hd2 x (hmem hx') x (by simp [hmem hx]))
    · exact absurd rfl (hd3 x (hmem hx') x (hmem hx))
    · rw [hinj hvq hx hx']

/-- **The system invariant holds at boot.** -/
theorem Boot.sys (h : Boot k) : Sys [] ⟨k, []⟩ := by
  have hleaf : ∀ r v, k.leaf r v = 0 := fun r v => Memory.leaf_of_none (h.pt r) v
  have hview : ∀ r v, k.view r v = none := by
    intro r v
    by_cases hv : v < userTop
    · rw [Kernel.view_eq_none_iff hv, hleaf]
      decide
    · exact if_neg hv
  refine ⟨⟨⟨h.kend_le, h.exact, ?_, List.nodup_nil, fun p => ?_, ?_, fun r v hV => ?_,
    fun i hi => ?_⟩, ⟨fun _ _ h0 => absurd h0 List.not_mem_nil,
      fun _ _ h0 => absurd h0 List.not_mem_nil⟩, fun _ i hi => ?_⟩, ?_, fun p => ?_,
    fun p im him => ?_, fun r v hv => ?_, fun r hr => ?_, fun p _ => h.vacant p,
    fun p _ => ⟨h.image p, h.args p⟩, fun p hp => ?_, ?_⟩
  · exact (List.nodup_append.mp h.nodup).1
  · rw [h.args]
    exact List.nodup_nil
  · refine ⟨fun o x hx => ?_, fun x hx => ?_, fun o o' x hx => ?_⟩
    · have hs := hx.1
      rw [hleaf] at hs
      exact absurd hs (by decide)
    · have hm := hx.2
      rw [h.swapMask] at hm
      cases hm
    · have hs := hx.1
      rw [hleaf] at hs
      exact absurd hs (by decide)
  · rw [hleaf] at hV
    exact absurd hV (by decide)
  · rw [h.frames] at hi
    cases hi
  · exact absurd hi (by rw [h.frames]; simp)
  · refine ⟨fun o r hr => ?_, fun r hr => ?_, fun o o' r hr => ?_⟩
    · cases o with
      | installed p => exact absurd ((h.vacant p).pagetable.symm.trans hr.2).symm hr.1
      | image p =>
        obtain ⟨im, him, -⟩ := hr
        rw [h.image] at him
        cases him
    · have hr' : (k.pt r).isSome := hr
      rw [h.pt] at hr'
      cases hr'
    · cases o with
      | installed p => exact absurd ((h.vacant p).pagetable.symm.trans hr.2).symm hr.1
      | image p =>
        obtain ⟨im, him, -⟩ := hr
        rw [h.image] at him
        cases him
  · rw [(h.vacant p).sz]
    exact ⟨Nat.zero_le _, fun v hv => absurd (hview _ v) hv⟩
  · rw [h.image] at him
    cases him
  · rw [hleaf]
    exact ⟨by decide, by decide, fun _ => by decide⟩
  · rw [h.pt] at hr
    cases hr
  · rw [h.state] at hp
    cases hp
  · refine ⟨fun f hf => ?_, fun f hf => ?_, fun f g hf => ?_⟩
    all_goals rw [h.ftable] at hf; cases hf

end Boot

/-! ### A concrete boot -/

/-- The `n` pages from `a` on. -/
def span (a n : ℕ) : List ℕ := (List.range n).map fun i => a + i * pgsize

theorem mem_span {a n x : ℕ} (ha : a % pgsize = 0) :
    x ∈ span a n ↔ x % pgsize = 0 ∧ a ≤ x ∧ x < a + n * pgsize := by
  simp only [span, List.mem_map, List.mem_range, pgsize] at *
  constructor
  · rintro ⟨i, hi, rfl⟩
    omega
  · rintro ⟨hx, hle, hlt⟩
    exact ⟨(x - a) / 4096, by omega, by omega⟩

theorem nodup_span (a n : ℕ) : (span a n).Nodup := by
  refine List.nodup_range.map fun i j hij => ?_
  simp only [pgsize] at hij
  omega

/-- The kernel just booted, with `n` of the 398 pages left that it can have at most. The
kernel page table takes 47 pages, one for its root and the rest for the tables of the
devices, of RAM, of the swap area and of the stacks; each process has a kernel stack and the
disk a queue of 3 pages. -/
def Kernel.booted (n : ℕ) : Kernel :=
  let kend := kernbase + (398 - n) * pgsize
  { Kernel.zeroed kend with
    freelist := (span kend n).reverse
    boot :=
      { virtq := span (kernbase + 398 * pgsize) 3
        kstack := span (kernbase + 401 * pgsize) nproc
        kpgtbl := span (kernbase + 465 * pgsize) 47 } }

theorem boot_booted {n : ℕ} (hn : n ≤ 398) : Boot (Kernel.booted n) := by
  obtain ⟨j, hj⟩ : ∃ j, 398 - n = j := ⟨_, rfl⟩
  have halign : ∀ i, (kernbase + i * pgsize) % pgsize = 0 := fun i => by
    rw [Nat.add_mul_mod_self_right]
    decide
  have hmem := fun i c x => mem_span (n := c) (x := x) (halign i)
  have hstop : phystop = kernbase + 512 * 4096 := rfl
  have hfree : (Kernel.booted n).freelist = (span (kernbase + j * pgsize) n).reverse := by
    rw [← hj]
    rfl
  have hkend : (Kernel.booted n).kend = kernbase + j * pgsize := by
    rw [← hj]
    rfl
  have hboot : (Kernel.booted n).boot = ⟨span (kernbase + 465 * pgsize) 47,
    span (kernbase + 401 * pgsize) nproc, span (kernbase + 398 * pgsize) 3⟩ := rfl
  refine ⟨?_, fun pa => ?_, ?_, fun _ => rfl, fun _ => rfl, fun _ => rfl, fun _ => rfl,
    fun _ => ⟨rfl, rfl, rfl⟩, fun _ => rfl, fun _ => rfl, fun _ => rfl, fun _ => rfl, rfl⟩
  · rw [hkend]
    exact Nat.le_add_right _ _
  · have hpages : pa ∈ (Kernel.booted n).pages ↔
        pa % pgsize = 0 ∧ kernbase + j * pgsize ≤ pa ∧ pa < phystop := by
      rw [← hkend]
      exact Iff.rfl
    rw [hpages, hfree, hboot]
    simp only [List.mem_append, List.mem_reverse, hmem, nproc]
    simp only [pgsize, hstop]
    omega
  · rw [hfree, hboot]
    simp only [List.nodup_append, List.nodup_reverse, nodup_span, List.mem_append,
      List.mem_reverse, hmem, nproc, true_and]
    simp only [pgsize]
    refine ⟨⟨?_, ?_⟩, ?_⟩
    all_goals omega

end Xv6
