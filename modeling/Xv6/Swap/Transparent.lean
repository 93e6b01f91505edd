import Mathlib.Logic.Relation
import Xv6.Swap.View
import Xv6.Vm.Walk

/-!
# Swapping is transparent

Evictions and swap-ins move pages between frames and slots without changing what any user
page holds. `Obtained` says what every way of getting a page (`evict_page`, `kalloc`, the
allocation of `vmfault`) guarantees: the view of all address spaces and the disjointness of
their frames and slots are kept, and the page is not in use. A swap-in reads its slot number
before it obtains a page and copies the slot afterwards; it works because obtaining a page
leaves entries that are not valid alone (`Obtained.keep`).

`swap_transparent` carries this over any sequence of calls.
-/

namespace Xv6

open StateLogic

/-- What obtaining the page `pa` in the step from `k` to `k'` guarantees the tables in `T`. -/
structure Obtained (T : Set ℕ) (k k' : Kernel) (pa : ℕ) : Prop where
  world : k'.toWorld = k.toWorld
  disjoint : SwapDisjoint T k'
  view : SameView T k k'
  fresh : Fresh T k' pa
  keep : ∀ r v, (k.leaf r v).has pteV = false → k'.leaf r v = k.leaf r v

section Obtain

variable {T : Set ℕ} {m m' : Machine} {pa : ℕ}

/-- A completed eviction obtains its victim's frame. -/
theorem evictPage_obtained (h : SwapDisjoint T m.k) (hT : ∀ p, (m.k.proc p).pagetable ∈ T)
    (hrun : evictPage.run m = .ok pa m') : Obtained T m.k m'.k pa := by
  obtain ⟨i, o, vp, idx, -, hev, hv, rfl, rfl⟩ := evictPage_ok hrun
  have hvp : vp < userTop := by
    have hva := h.frame_va i hev.1
    have hpage := hv.page
    rw [Kernel.scanned_va] at hpage
    rw [← hpage, userTop]
    exact Nat.div_lt_of_lt_mul (by rw [Nat.mul_div_cancel' (by decide)]; exact hva)
  refine ⟨by simp, h.scanned.evicted hv, h.scanned.evicted_sameView hv,
    h.scanned.evicted_fresh hv (hT o) hvp, fun r v hval => ?_⟩
  rw [Kernel.evicted_leaf hv, if_neg]
  · rfl
  · rintro ⟨rfl, rfl⟩
    have hvalid := hv.valid
    rw [Kernel.scanned_leaf] at hvalid
    exact absurd (hval.symm.trans hvalid) (by simp)

/-- `kalloc` takes a page from the free list, or else evicts one. -/
theorem kalloc_obtained (h : SwapDisjoint T m.k) (hT : ∀ p, (m.k.proc p).pagetable ∈ T)
    (hrun : kalloc.run m = .ok pa m') : Obtained T m.k m'.k pa := by
  rw [kalloc, run_bind_ok (run_getK m)] at hrun
  cases hf : m.k.freelist with
  | cons r rest =>
    rw [hf] at hrun
    cases hrun
    obtain ⟨hd, hview, hfresh⟩ := h.popFree hf (.fill 5)
    exact ⟨rfl, hd, hview, hfresh, fun _ _ _ => rfl⟩
  | nil =>
    rw [hf] at hrun
    obtain ⟨x, m₁, hev, hret⟩ := bind_eq_ok.mp hrun
    have hobt := evictPage_obtained h hT hev
    rw [if_pos hobt.fresh.ram.ne_zero] at hret
    cases hret
    exact hobt

/-- `kalloc` never returns null, so the second attempt of its callers is never made. -/
theorem allocOrEvict_obtained (h : SwapDisjoint T m.k) (hT : ∀ p, (m.k.proc p).pagetable ∈ T)
    (hrun : allocOrEvict.run m = .ok pa m') : Obtained T m.k m'.k pa := by
  obtain ⟨x, m₁, hk, hret⟩ := bind_eq_ok.mp hrun
  have hobt := kalloc_obtained h hT hk
  rw [if_neg hobt.fresh.ram.ne_zero] at hret
  cases hret
  exact hobt

end Obtain

/-! ### Swap-ins -/

section SwapIn

variable {T : Set ℕ} {m m' : Machine} {root va v pa : ℕ}

/-- Counters are not part of the view, and a registered user page keeps the frame table a
table of user pages. -/
theorem SwapDisjoint.register {k : Kernel} (h : SwapDisjoint T k) (p : ℕ) (st : VmStats)
    (i q : ℕ) (hva : va < trapframeVa) :
    SwapDisjoint T ((k.setStats p st).setFrame i ⟨true, some q, va, true⟩) := by
  refine h.congr (fun _ _ => by simp) (by simp) (by simp) fun j hj => ?_
  by_cases hji : j = i
  · subst hji
    simpa using hva
  · simp only [Kernel.setFrame_frames, Function.update_of_ne hji, Kernel.setStats_frames] at hj ⊢
    exact h.frame_va j hj

/-- A swap-in that returns keeps the view and the disjointness. The entry is the same before
and after the allocation, which may evict any other page. -/
theorem swapIn_transparent (h : SwapDisjoint T m.k) (hT : ∀ p, (m.k.proc p).pagetable ∈ T)
    (hroot : root ∈ T) (hv : v < userTop) (hva : va < trapframeVa)
    (hs : (m.k.leaf root v).swapped = true) (hrun : (swapIn root va v).run m = .ok pa m') :
    m'.k.toWorld = m.k.toWorld ∧ SwapDisjoint T m'.k ∧ SameView T m.k m'.k := by
  rw [swapIn, run_bind_ok (run_myproc m), run_bind_ok (run_loadPte root v m)] at hrun
  obtain ⟨mem, m₁, halloc, hrest⟩ := bind_eq_ok.mp hrun
  have hobt := allocOrEvict_obtained h hT halloc
  have hleaf : m₁.k.leaf root v = m.k.leaf root v :=
    hobt.keep root v (Pte.not_valid_of_swapped hs)
  rw [← hleaf] at hs
  rw [if_neg hobt.fresh.ram.ne_zero, run_bind_ok (run_modK _ _), freeSwapIndex,
    run_bind_ok (run_modK _ _), run_bind_ok (run_loadPte _ _ _),
    run_bind_ok (run_storePte _ _ _ _), run_bind_ok (run_modK _ _),
    run_bind_ok (run_loadPte _ _ _)] at hrest
  have hne : (m₁.k.swappedIn root v mem).leaf root v ≠ 0 := by
    rw [Kernel.swappedIn_leaf hs, if_pos ⟨rfl, rfl⟩]
    exact Pte.ne_zero_of_valid (swappedInPte_valid _ _)
  simp only [← hleaf] at hrest
  rw [if_neg (by exact hne)] at hrest
  cases hrest
  have hin := hobt.disjoint.swappedIn hs hobt.fresh hroot hv
  refine ⟨?_, hin.register _ _ _ _ hva, hobt.view.trans (hobt.fresh.swappedIn_sameView hs)⟩
  simpa using hobt.world

/-- A page fault on a swapped-out page that returns keeps the view and the disjointness. -/
theorem vmfault_transparent (h : SwapDisjoint T m.k) (hT : ∀ p, (m.k.proc p).pagetable ∈ T)
    (hroot : root ∈ T) (hva : va < trapframeVa)
    (hs : (m.k.leaf root (va / pgsize)).swapped = true)
    (hrun : (vmfault root va).run m = .ok pa m') :
    m'.k.toWorld = m.k.toWorld ∧ SwapDisjoint T m'.k ∧ SameView T m.k m'.k := by
  rw [vmfault, run_bind_ok (run_myproc m), run_bind_ok (run_modK _ _),
    run_bind_ok (run_getK _)] at hrun
  simp only at hrun
  split_ifs at hrun
  · cases hrun
    exact ⟨rfl, h.congr (fun _ _ => rfl) rfl rfl h.frame_va, fun _ _ _ _ => rfl⟩
  · have hmax : pgrounddown va < maxva :=
      lt_of_le_of_lt (pgrounddown_le va) (lt_trans hva (by decide))
    have hv : va / pgsize < userTop :=
      Nat.div_lt_of_lt_mul (by rw [userTop, Nat.mul_div_cancel' (by decide)]; exact hva)
    have hne : m.k.leaf root (va / pgsize) ≠ 0 := Pte.ne_zero_of_swapped hs
    rw [run_bind_ok (run_walk_entry true hmax
      (by rw [pgrounddown_div]; exact Memory.hasEntry_of_leaf hne))] at hrun
    simp only [pgrounddown_div] at hrun
    have hS : (m.k.leaf root (va / pgsize)).has pteS = true := by
      rw [Pte.swapped, Bool.and_eq_true] at hs
      exact hs.1
    rw [run_bind_ok (run_loadPte _ _ _), if_pos (by exact hS)] at hrun
    have h' : ∀ st, SwapDisjoint T (m.k.setStats m.k.cur st) := fun _ =>
      h.congr (fun _ _ => rfl) rfl rfl h.frame_va
    obtain ⟨hw, hd, hview⟩ := swapIn_transparent (m := ⟨m.k.setStats m.k.cur _, m.calls⟩)
      (h' _) hT hroot hv (lt_of_le_of_lt (pgrounddown_le va) hva) hs hrun
    exact ⟨hw, hd, hview⟩

end SwapIn

/-! ### Runs -/

/-- One call: some process runs `evict_page`, or faults on a swapped-out page of its own,
and the call returns. -/
inductive SwapStep : Machine → Machine → Prop
  | evict {m m' : Machine} {p pa : ℕ} (hrun : evictPage.run (m.onCpu p) = .ok pa m') :
      SwapStep m m'
  | fault {m m' : Machine} {p va pa : ℕ} (hva : va < trapframeVa)
      (hs : (m.k.leaf (m.k.proc p).pagetable (va / pgsize)).swapped = true)
      (hrun : (vmfault (m.k.proc p).pagetable va).run (m.onCpu p) = .ok pa m') : SwapStep m m'

/-- The page tables of all processes. -/
def procRoots (k : Kernel) : Set ℕ := {r | ∃ p, (k.proc p).pagetable = r}

theorem SwapStep.transparent {m m' : Machine} (hstep : SwapStep m m')
    (h : SwapDisjoint (procRoots m.k) m.k) : m'.k.proc = m.k.proc ∧
      SwapDisjoint (procRoots m.k) m'.k ∧ SameView (procRoots m.k) m.k m'.k := by
  have hT : ∀ p, (m.k.proc p).pagetable ∈ procRoots m.k := fun p => ⟨p, rfl⟩
  have h' : ∀ p, SwapDisjoint (procRoots m.k) (m.onCpu p).k := fun _ =>
    h.congr (fun _ _ => rfl) rfl rfl h.frame_va
  cases hstep with
  | @evict p _ hrun =>
    have hobt := evictPage_obtained (h' p) hT hrun
    exact ⟨congrArg (·.proc) hobt.world, hobt.disjoint, hobt.view⟩
  | @fault p _ _ hva hs hrun =>
    obtain ⟨hw, hd, hview⟩ := vmfault_transparent (h' p) hT (hT p) hva hs hrun
    exact ⟨congrArg (·.proc) hw, hd, hview⟩

/-- **Swap transparency.** From any state in which the user pages of all processes have
frames and slots of their own, any sequence of evictions and swap-ins by any processes that
return leaves the content and the permissions of every user page of every process as they
were, and the pages still have frames and slots of their own. -/
theorem swap_transparent {m m' : Machine} (h : SwapDisjoint (procRoots m.k) m.k)
    (hrun : Relation.ReflTransGen SwapStep m m') :
    SwapDisjoint (procRoots m'.k) m'.k ∧ ∀ p, ∀ v < userTop,
      m'.k.lpage (m'.k.proc p).pagetable v = m.k.lpage (m.k.proc p).pagetable v := by
  -- the invariant of the run: same processes, disjointness and the view of the first state
  have hinv : m'.k.proc = m.k.proc ∧ SwapDisjoint (procRoots m.k) m'.k ∧
      SameView (procRoots m.k) m.k m'.k := by
    induction hrun with
    | refl => exact ⟨rfl, h, fun _ _ _ _ => rfl⟩
    | @tail m₁ m₂ _ hstep ih =>
      obtain ⟨hproc, hd, hview⟩ := ih
      have hroots : procRoots m₁.k = procRoots m.k := by rw [procRoots, hproc, procRoots]
      obtain ⟨hproc', hd', hview'⟩ := hstep.transparent (by rw [hroots]; exact hd)
      rw [hroots] at hd' hview'
      exact ⟨hproc'.trans hproc, hd', hview.trans hview'⟩
  obtain ⟨hproc, hd, hview⟩ := hinv
  have hroots : procRoots m'.k = procRoots m.k := by rw [procRoots, hproc, procRoots]
  rw [hroots, hproc]
  exact ⟨hd, fun p v hv => hview _ ⟨p, rfl⟩ v hv⟩

/-! A process with two resident pages and no free page left. Evicting its first page and
touching that page again makes the swap-in evict the second one. -/

/-- The page table of that process. -/
def twoPagesTable : PageTable :=
  (((PageTable.empty.addMid 0 0x80101000).addLow 0 0x80102000).setLeaf 0
    (mappedPte 0x80103000 (pteR ||| pteU))).setLeaf 1 (mappedPte 0x80104000 (pteW ||| pteU))

/-- The state that process is in. -/
def twoPages : Kernel :=
  ((((Kernel.zeroed 0x80100000).setProc 0
    { state := .running, sz := 2 * pgsize, pagetable := 0x80100000 }).setPt 0x80100000
    (some twoPagesTable)).setFrame 259 ⟨true, some 0, 0, true⟩).setFrame 260
    ⟨true, some 0, pgsize, true⟩

theorem twoPagesTable_leaf (v : ℕ) : twoPagesTable.leaf v =
    if v = 1 then mappedPte 0x80104000 (pteW ||| pteU)
    else if v = 0 then mappedPte 0x80103000 (pteR ||| pteU) else 0 := by
  rw [twoPagesTable, PageTable.setLeaf_leaf _ _ _ _ (by decide),
    PageTable.setLeaf_leaf _ _ _ _ (by decide), PageTable.addLow_leaf _ _ _ (by decide),
    PageTable.addMid_leaf _ _ _ (by decide)]
  rfl

theorem twoPages_leaf (r v : ℕ) : twoPages.leaf r v ≠ 0 → r = 0x80100000 ∧
    (v = 0 ∧ twoPages.leaf r v = mappedPte 0x80103000 (pteR ||| pteU) ∨
      v = 1 ∧ twoPages.leaf r v = mappedPte 0x80104000 (pteW ||| pteU)) := by
  intro h
  by_cases hr : r = 0x80100000
  · subst hr
    rw [Memory.leaf_eq (show twoPages.pt 0x80100000 = some twoPagesTable from rfl),
      twoPagesTable_leaf] at h ⊢
    refine ⟨rfl, ?_⟩
    split_ifs at h ⊢ with h1 h0
    · exact Or.inr ⟨h1, rfl⟩
    · exact Or.inl ⟨h0, rfl⟩
    · exact absurd rfl h
  · exfalso
    refine h ?_
    simp [twoPages, Memory.leaf, Kernel.zeroed, hr]

theorem twoPages_disjoint (T : Set ℕ) : SwapDisjoint T twoPages := by
  have hpa : ∀ r v, (twoPages.leaf r v).has pteV = true → r = 0x80100000 ∧
      (v = 0 ∧ pte2pa (twoPages.leaf r v) = 0x80103000 ∨
        v = 1 ∧ pte2pa (twoPages.leaf r v) = 0x80104000) := by
    intro r v hval
    obtain ⟨hr, ⟨h0, he⟩ | ⟨h1, he⟩⟩ := twoPages_leaf r v (Pte.ne_zero_of_valid hval)
    · exact ⟨hr, Or.inl ⟨h0, by rw [he]; decide⟩⟩
    · exact ⟨hr, Or.inr ⟨h1, by rw [he]; decide⟩⟩
  have hsw : ∀ r v, (twoPages.leaf r v).swapped = false := by
    intro r v
    by_cases hne : twoPages.leaf r v = 0
    · rw [hne]
      decide
    · obtain ⟨-, ⟨-, he⟩ | ⟨-, he⟩⟩ := twoPages_leaf r v hne <;> rw [he] <;> decide
  refine ⟨List.nodup_nil, by simp [twoPages, Kernel.zeroed], ?_, ?_, ?_, ?_, ?_, ?_⟩
  · intro r _ v _ hval
    obtain ⟨-, ⟨-, h⟩ | ⟨-, h⟩⟩ := hpa r v hval <;> rw [h] <;> decide
  · intro r _ v _ _ hmem
    cases hmem
  · intro r _ v _ r' _ v' _ hval hval' heq
    obtain ⟨rfl, ⟨rfl, h⟩ | ⟨rfl, h⟩⟩ := hpa r v hval <;>
      obtain ⟨rfl, ⟨rfl, h'⟩ | ⟨rfl, h'⟩⟩ := hpa r' v' hval' <;>
      simp [h, h'] at heq ⊢
  · intro r _ v _ hs
    rw [hsw] at hs
    cases hs
  · intro r _ v _ r' _ v' _ hs
    rw [hsw] at hs
    cases hs
  · intro i _
    by_cases h260 : i = 260
    · subst h260
      decide
    · by_cases h259 : i = 259
      · subst h259
        decide
      · simp [twoPages, Kernel.zeroed, h260, h259, Frame.clear]
        decide

/-- The run described above: both calls return, the swap-in with the frame of the page it
evicted. -/
theorem twoPages_run : ∃ m', Relation.ReflTransGen SwapStep ⟨twoPages, []⟩ m' := by
  let m₁ := final evictPage (Machine.onCpu ⟨twoPages, []⟩ 0)
  have hfacts : value? evictPage (Machine.onCpu ⟨twoPages, []⟩ 0) = some 0x80103000 ∧
      (m₁.k.leaf (m₁.k.proc 0).pagetable (0 / pgsize)).swapped = true ∧
      value? (vmfault (m₁.k.proc 0).pagetable 0) (m₁.onCpu 0) = some 0x80104000 := by
    decide +kernel
  obtain ⟨hevict, hswapped, hreturn⟩ := hfacts
  have hev : SwapStep ⟨twoPages, []⟩ m₁ := .evict (run_eq_of_value? hevict)
  have hfault : SwapStep m₁ (final (vmfault (m₁.k.proc 0).pagetable 0) (m₁.onCpu 0)) :=
    .fault (by decide) hswapped (run_eq_of_value? hreturn)
  exact ⟨_, (Relation.ReflTransGen.single hev).tail hfault⟩

theorem swap_transparent_twoPages : ∃ m', Relation.ReflTransGen SwapStep ⟨twoPages, []⟩ m' ∧
    SwapDisjoint (procRoots m'.k) m'.k ∧ ∀ p, ∀ v < userTop,
      m'.k.lpage (m'.k.proc p).pagetable v = twoPages.lpage (twoPages.proc p).pagetable v := by
  obtain ⟨m', hrun⟩ := twoPages_run
  exact ⟨m', hrun, swap_transparent (m := ⟨twoPages, []⟩) (twoPages_disjoint _) hrun⟩

end Xv6
