import Mathlib.Data.Set.Basic
import Xv6.Swap.Evict

/-!
# Logical memory

What a user page holds does not depend on where the page is: `Memory.lpage` reads a page
from its frame while its leaf entry is valid and from its swap slot while it is swapped out,
together with the four permission bits. This is the abstract view the swap code is meant to
preserve. `SwapDisjoint` collects what has to hold of a kernel state for that: pages of the
address spaces under consideration do not share frames or slots, and none of their frames is
on the free list.

Evicting a victim (`SwapDisjoint.evicted`), taking a page from the free list
(`SwapDisjoint.popFree`) and reading a slot back (`SwapDisjoint.swappedIn`) each keep the
condition and the view.
-/

namespace Xv6

open StateLogic

/-! ### Permissions and contents -/

/-- Number of virtual pages below `TRAPFRAME`: user pages have smaller numbers. -/
def userTop : ℕ := trapframeVa / pgsize

/-- The permission bits of a page. -/
structure Perm where
  r : Bool
  w : Bool
  x : Bool
  u : Bool
deriving DecidableEq, Repr

/-- The permission bits of an entry. -/
def Pte.perm (e : Pte) : Perm := ⟨e.has pteR, e.has pteW, e.has pteX, e.has pteU⟩

/-- The entry names a swap slot. -/
def Pte.swapped (e : Pte) : Bool := e.has pteS && !e.has pteV

/-- The logical content of a user page. -/
structure LPage where
  bytes : Page
  perm : Perm

/-- The logical content of virtual page `v` of the table rooted at `root`, if it has any. -/
def Memory.lpage (m : Memory) (root v : ℕ) : Option LPage :=
  let e := m.leaf root v
  if e.has pteV then some ⟨m.mem (pte2pa e), e.perm⟩
  else if e.has pteS then some ⟨m.mem (getSwapAddr (swapIndex e)), e.perm⟩
  else none

theorem Memory.lpage_of_valid {m : Memory} {root v : ℕ}
    (h : (m.leaf root v).has pteV = true) :
    m.lpage root v = some ⟨m.mem (pte2pa (m.leaf root v)), (m.leaf root v).perm⟩ := by
  simp only [Memory.lpage, h, if_true]

theorem Memory.lpage_of_swapped {m : Memory} {root v : ℕ}
    (h : (m.leaf root v).swapped = true) :
    m.lpage root v =
      some ⟨m.mem (getSwapAddr (swapIndex (m.leaf root v))), (m.leaf root v).perm⟩ := by
  rw [Pte.swapped, Bool.and_eq_true, Bool.not_eq_true'] at h
  simp only [Memory.lpage, h.1, h.2, if_true, Bool.false_eq_true, if_false]

/-- The view of a page depends on its entry and on the one page of memory it names. -/
theorem Memory.lpage_congr {m m' : Memory} {root v : ℕ} (hleaf : m'.leaf root v = m.leaf root v)
    (hv : (m.leaf root v).has pteV = true →
      m'.mem (pte2pa (m.leaf root v)) = m.mem (pte2pa (m.leaf root v)))
    (hs : (m.leaf root v).swapped = true →
      m'.mem (getSwapAddr (swapIndex (m.leaf root v))) =
        m.mem (getSwapAddr (swapIndex (m.leaf root v)))) :
    m'.lpage root v = m.lpage root v := by
  rw [Memory.lpage, Memory.lpage, hleaf]
  split_ifs with h1 h2
  · rw [hv h1]
  · rw [hs (by simp [Pte.swapped, h1, h2])]
  · rfl

section Entries

variable (e : Pte) (n : ℕ)

@[simp]
theorem evictedPte_valid : (evictedPte e n).has pteV = false := by
  rw [Pte.has_pteV, getLsbD_evictedPte e n (by decide)]
  rfl

@[simp]
theorem evictedPte_swapped : (evictedPte e n).swapped = true := by
  rw [Pte.swapped, evictedPte_valid, Pte.has_pteS, getLsbD_evictedPte e n (by decide)]
  rfl

@[simp]
theorem evictedPte_perm : (evictedPte e n).perm = e.perm := by
  simp only [Pte.perm, Pte.has_pteR, Pte.has_pteW, Pte.has_pteX, Pte.has_pteU]
  rw [getLsbD_evictedPte e n (by decide), getLsbD_evictedPte e n (by decide),
    getLsbD_evictedPte e n (by decide), getLsbD_evictedPte e n (by decide)]
  rfl

@[simp]
theorem swappedInPte_valid : (swappedInPte e n).has pteV = true := by
  rw [Pte.has_pteV, getLsbD_swappedInPte e n (by decide)]
  rfl

theorem swappedInPte_S : (swappedInPte e n).has pteS = false := by
  rw [Pte.has_pteS, getLsbD_swappedInPte e n (by decide)]
  simp

@[simp]
theorem swappedInPte_swapped : (swappedInPte e n).swapped = false := by
  rw [Pte.swapped, swappedInPte_valid]
  simp

@[simp]
theorem swappedInPte_perm : (swappedInPte e n).perm = e.perm := by
  simp only [Pte.perm, Pte.has_pteR, Pte.has_pteW, Pte.has_pteX, Pte.has_pteU]
  rw [getLsbD_swappedInPte e n (by decide), getLsbD_swappedInPte e n (by decide),
    getLsbD_swappedInPte e n (by decide), getLsbD_swappedInPte e n (by decide)]
  rfl

theorem Pte.ne_zero_of_valid {e : Pte} (h : e.has pteV = true) : e ≠ 0 := by
  rintro rfl
  exact absurd h (by decide)

theorem Pte.ne_zero_of_swapped {e : Pte} (h : e.swapped = true) : e ≠ 0 := by
  rintro rfl
  exact absurd h (by decide)

theorem Pte.not_valid_of_swapped {e : Pte} (h : e.swapped = true) : e.has pteV = false := by
  rw [Pte.swapped, Bool.and_eq_true, Bool.not_eq_true'] at h
  exact h.2

end Entries

/-! ### RAM and the swap area -/

/-- A page of RAM. -/
def RamPage (pa : ℕ) : Prop := pa % pgsize = 0 ∧ kernbase ≤ pa ∧ pa < phystop

instance : DecidablePred RamPage := fun _ => inferInstanceAs (Decidable (_ ∧ _))

theorem RamPage.pageAddr {pa : ℕ} (h : RamPage pa) : PageAddr pa := by
  refine ⟨h.1, lt_trans h.2.2 ?_⟩
  decide

theorem RamPage.ne_zero {pa : ℕ} (h : RamPage pa) : pa ≠ 0 := by
  rintro rfl
  exact absurd h.2.1 (by decide)

/-- The swap area begins where RAM ends. -/
theorem RamPage.ne_swap {pa : ℕ} (h : RamPage pa) (i : ℕ) : pa ≠ getSwapAddr i := by
  have := h.2.2
  rw [getSwapAddr, swapBase]
  omega

theorem getSwapAddr_inj {i j : ℕ} (h : getSwapAddr i = getSwapAddr j) : i = j := by
  rw [getSwapAddr, getSwapAddr, pgsize] at h
  omega

/-! ### Disjointness -/

/-- No two user pages of the tables in `T` share a frame or a slot, their frames are RAM off
the free list, their slots are allocated, and the frame table lists user pages only. -/
structure SwapDisjoint (T : Set ℕ) (k : Kernel) : Prop where
  free_nodup : k.freelist.Nodup
  free_ram : ∀ pa ∈ k.freelist, RamPage pa
  ram : ∀ r ∈ T, ∀ v < userTop, (k.leaf r v).has pteV = true → RamPage (pte2pa (k.leaf r v))
  not_free : ∀ r ∈ T, ∀ v < userTop, (k.leaf r v).has pteV = true →
    pte2pa (k.leaf r v) ∉ k.freelist
  frame_inj : ∀ r ∈ T, ∀ v < userTop, ∀ r' ∈ T, ∀ v' < userTop,
    (k.leaf r v).has pteV = true → (k.leaf r' v').has pteV = true →
    pte2pa (k.leaf r v) = pte2pa (k.leaf r' v') → r = r' ∧ v = v'
  slot_alloc : ∀ r ∈ T, ∀ v < userTop, (k.leaf r v).swapped = true →
    swapIndex (k.leaf r v) < maxSp ∧ k.swapMask (swapIndex (k.leaf r v)) = true
  slot_inj : ∀ r ∈ T, ∀ v < userTop, ∀ r' ∈ T, ∀ v' < userTop,
    (k.leaf r v).swapped = true → (k.leaf r' v').swapped = true →
    swapIndex (k.leaf r v) = swapIndex (k.leaf r' v') → r = r' ∧ v = v'
  frame_va : ∀ i, (k.frames i).isUsed = true → (k.frames i).va < trapframeVa

/-- A page nobody in `T` uses and the free list does not hold: what `kalloc` returns. -/
structure Fresh (T : Set ℕ) (k : Kernel) (pa : ℕ) : Prop where
  ram : RamPage pa
  not_free : pa ∉ k.freelist
  not_leaf : ∀ r ∈ T, ∀ v < userTop, (k.leaf r v).has pteV = true → pte2pa (k.leaf r v) ≠ pa

/-- Two states agree on the contents of every user page of the tables in `T`. -/
def SameView (T : Set ℕ) (k k' : Kernel) : Prop :=
  ∀ r ∈ T, ∀ v < userTop, k'.lpage r v = k.lpage r v

theorem SameView.trans {T : Set ℕ} {k₁ k₂ k₃ : Kernel} (h : SameView T k₁ k₂)
    (h' : SameView T k₂ k₃) : SameView T k₁ k₃ :=
  fun r hr v hv => (h' r hr v hv).trans (h r hr v hv)

/-! ### Eviction -/

section Evicted

variable {T : Set ℕ} {k : Kernel} {i o vp idx : ℕ}

theorem Victim.hasEntry (hv : Victim k i o vp idx) : k.HasEntry (k.proc o).pagetable vp :=
  Memory.hasEntry_of_leaf (Pte.ne_zero_of_valid hv.valid)

theorem Victim.slot_lt (hv : Victim k i o vp idx) : idx < maxSp := by
  have := (firstFree_spec hv.slot).2.1
  omega

theorem Victim.slot_free (hv : Victim k i o vp idx) : k.swapMask idx = false :=
  (firstFree_spec hv.slot).2.2

@[simp] theorem Kernel.evicted_toWorld : (k.evicted i o vp idx).toWorld = k.toWorld := by
  simp [Kernel.evicted, Kernel.swapOut]

@[simp] theorem Kernel.evicted_freelist : (k.evicted i o vp idx).freelist = k.freelist := by
  simp [Kernel.evicted, Kernel.swapOut]

@[simp] theorem Kernel.evicted_swapMask :
    (k.evicted i o vp idx).swapMask = Function.update k.swapMask idx true := by
  simp [Kernel.evicted, Kernel.swapOut]

@[simp] theorem Kernel.evicted_mem : (k.evicted i o vp idx).mem = Function.update k.mem
    (getSwapAddr idx) (k.mem (pte2pa (k.leaf (k.proc o).pagetable vp))) := by
  simp [Kernel.evicted, Kernel.swapOut]

@[simp] theorem Kernel.evicted_frames : (k.evicted i o vp idx).frames =
    Function.update k.frames i { k.frames i with isUsed := false, p := none } := by
  simp [Kernel.evicted, Kernel.swapOut]

theorem Kernel.evicted_leaf (hv : Victim k i o vp idx) (r v : ℕ) :
    (k.evicted i o vp idx).leaf r v = if r = (k.proc o).pagetable ∧ v = vp then
      evictedPte (k.leaf (k.proc o).pagetable vp) idx else k.leaf r v := by
  rw [Kernel.evicted, Kernel.swapOut, Kernel.setFrame_leaf, Kernel.setStats_leaf,
    Kernel.setLeaf_leaf]
  · simp
  · exact hv.hasEntry

/-- An entry that is valid after an eviction was valid, and the same, before it. -/
theorem Kernel.evicted_valid (hv : Victim k i o vp idx) {r v : ℕ}
    (h : ((k.evicted i o vp idx).leaf r v).has pteV = true) :
    (k.evicted i o vp idx).leaf r v = k.leaf r v ∧
      ¬(r = (k.proc o).pagetable ∧ v = vp) := by
  rw [Kernel.evicted_leaf hv] at h ⊢
  by_cases hrv : r = (k.proc o).pagetable ∧ v = vp
  · rw [if_pos hrv, evictedPte_valid] at h
    cases h
  · exact ⟨if_neg hrv, hrv⟩

/-- An entry that is swapped out after an eviction is the victim's, with the new slot, or
was the same before. -/
theorem Kernel.evicted_swapped (hv : Victim k i o vp idx) (r v : ℕ) :
    (r = (k.proc o).pagetable ∧ v = vp ∧
      swapIndex ((k.evicted i o vp idx).leaf r v) = idx) ∨
    (k.evicted i o vp idx).leaf r v = k.leaf r v := by
  rw [Kernel.evicted_leaf hv]
  by_cases hrv : r = (k.proc o).pagetable ∧ v = vp
  · rw [if_pos hrv]
    exact Or.inl ⟨hrv.1, hrv.2, swapIndex_evictedPte _ hv.slot_lt⟩
  · exact Or.inr (if_neg hrv)

/-- **An eviction keeps the frames and slots disjoint.** -/
theorem SwapDisjoint.evicted (h : SwapDisjoint T k) (hv : Victim k i o vp idx) :
    SwapDisjoint T (k.evicted i o vp idx) := by
  -- the new slot was free, so no other entry names it
  have hslot : ∀ r ∈ T, ∀ v < userTop, (k.leaf r v).swapped = true →
      swapIndex (k.leaf r v) ≠ idx := by
    intro r hr v hvt hs heq
    have hm := (h.slot_alloc r hr v hvt hs).2
    rw [heq, hv.slot_free] at hm
    cases hm
  refine ⟨by simpa using h.free_nodup, by simpa using h.free_ram, ?_, ?_, ?_, ?_, ?_, ?_⟩
  · intro r hr v hvt hval
    obtain ⟨heq, -⟩ := Kernel.evicted_valid hv hval
    rw [heq] at hval ⊢
    exact h.ram r hr v hvt hval
  · intro r hr v hvt hval
    obtain ⟨heq, -⟩ := Kernel.evicted_valid hv hval
    rw [heq] at hval ⊢
    simpa using h.not_free r hr v hvt hval
  · intro r hr v hvt r' hr' v' hvt' hval hval' hpa
    obtain ⟨heq, -⟩ := Kernel.evicted_valid hv hval
    obtain ⟨heq', -⟩ := Kernel.evicted_valid hv hval'
    rw [heq] at hval hpa
    rw [heq'] at hval' hpa
    exact h.frame_inj r hr v hvt r' hr' v' hvt' hval hval' hpa
  · intro r hr v hvt hs
    rcases Kernel.evicted_swapped hv r v with ⟨-, -, hidx⟩ | heq
    · rw [hidx]
      simpa using hv.slot_lt
    · rw [heq] at hs ⊢
      obtain ⟨hlt, hmask⟩ := h.slot_alloc r hr v hvt hs
      refine ⟨hlt, ?_⟩
      rw [Kernel.evicted_swapMask, Function.update_of_ne (hslot r hr v hvt hs)]
      exact hmask
  · intro r hr v hvt r' hr' v' hvt' hs hs' hidx
    rcases Kernel.evicted_swapped hv r v with ⟨h1, h2, h3⟩ | heq <;>
      rcases Kernel.evicted_swapped hv r' v' with ⟨h1', h2', h3'⟩ | heq'
    · exact ⟨h1.trans h1'.symm, h2.trans h2'.symm⟩
    · rw [heq'] at hs' hidx
      exact absurd (hidx.symm.trans h3) (hslot r' hr' v' hvt' hs')
    · rw [heq] at hs hidx
      exact absurd (hidx.trans h3') (hslot r hr v hvt hs)
    · rw [heq] at hs hidx
      rw [heq'] at hs' hidx
      exact h.slot_inj r hr v hvt r' hr' v' hvt' hs hs' hidx
  · intro j hj
    rw [Kernel.evicted_frames] at hj ⊢
    by_cases hji : j = i
    · subst hji
      simp at hj
    · rw [Function.update_of_ne hji] at hj ⊢
      exact h.frame_va j hj

/-- **An eviction does not change any page's content.** -/
theorem SwapDisjoint.evicted_sameView (h : SwapDisjoint T k) (hv : Victim k i o vp idx) :
    SameView T k (k.evicted i o vp idx) := by
  intro r hr v hvt
  by_cases hrv : r = (k.proc o).pagetable ∧ v = vp
  · obtain ⟨rfl, rfl⟩ := hrv
    have hleaf := Kernel.evicted_leaf hv (k.proc o).pagetable v
    rw [if_pos ⟨rfl, rfl⟩] at hleaf
    rw [Memory.lpage_of_valid hv.valid, Memory.lpage_of_swapped (by rw [hleaf]; simp), hleaf,
      swapIndex_evictedPte _ hv.slot_lt]
    simp
  · have hleaf := Kernel.evicted_leaf hv r v
    rw [if_neg hrv] at hleaf
    refine Memory.lpage_congr hleaf (fun hval => ?_) fun hs => ?_
    · rw [Kernel.evicted_mem, Function.update_of_ne ((h.ram r hr v hvt hval).ne_swap idx)]
    · rw [Kernel.evicted_mem, Function.update_of_ne]
      intro heq
      have hm := (h.slot_alloc r hr v hvt hs).2
      rw [getSwapAddr_inj heq, hv.slot_free] at hm
      cases hm

/-- The page an eviction returns is free of other uses. -/
theorem SwapDisjoint.evicted_fresh (h : SwapDisjoint T k) (hv : Victim k i o vp idx)
    (hT : (k.proc o).pagetable ∈ T) (hvp : vp < userTop) :
    Fresh T (k.evicted i o vp idx) (pte2pa (k.leaf (k.proc o).pagetable vp)) := by
  refine ⟨h.ram _ hT vp hvp hv.valid, ?_, ?_⟩
  · simpa using h.not_free _ hT vp hvp hv.valid
  · intro r hr v hvt hval hpa
    obtain ⟨heq, hne⟩ := Kernel.evicted_valid hv hval
    rw [heq] at hval hpa
    exact hne (h.frame_inj r hr v hvt _ hT vp hvp hval hv.valid hpa)

end Evicted

/-! ### The search, the free list and the swap-in -/

section Moves

variable {T : Set ℕ} {k : Kernel}

/-- Disjointness reads the entries, the free list, the mask and the used frames only. -/
theorem SwapDisjoint.congr {k' : Kernel} (h : SwapDisjoint T k)
    (hleaf : ∀ r v, k'.leaf r v = k.leaf r v) (hfree : k'.freelist = k.freelist)
    (hmask : k'.swapMask = k.swapMask)
    (hframes : ∀ i, (k'.frames i).isUsed = true → (k'.frames i).va < trapframeVa) :
    SwapDisjoint T k' := by
  refine ⟨?_, ?_, ?_, ?_, ?_, ?_, ?_, hframes⟩
  · simpa only [hfree] using h.free_nodup
  · simpa only [hfree] using h.free_ram
  · simpa only [hleaf] using h.ram
  · simpa only [hleaf, hfree] using h.not_free
  · simpa only [hleaf] using h.frame_inj
  · simpa only [hleaf, hmask] using h.slot_alloc
  · simpa only [hleaf] using h.slot_inj

/-- The search changes nothing but reference bits and the hand. -/
theorem SwapDisjoint.scanned (h : SwapDisjoint T k) : SwapDisjoint T k.scanned :=
  h.congr (fun _ _ => rfl) rfl rfl fun i hi => by
    rw [Kernel.scanned_isUsed] at hi
    rw [Kernel.scanned_va]
    exact h.frame_va i hi

/-- Taking the first page off the free list. -/
theorem SwapDisjoint.popFree (h : SwapDisjoint T k) {pa : ℕ} {rest : List ℕ}
    (hf : k.freelist = pa :: rest) (pg : Page) :
    SwapDisjoint T ((k.setMem pa pg).setFree rest) ∧
      SameView T k ((k.setMem pa pg).setFree rest) ∧
      Fresh T ((k.setMem pa pg).setFree rest) pa := by
  have hnd : (pa :: rest).Nodup := hf ▸ h.free_nodup
  have hram : RamPage pa := h.free_ram pa (by rw [hf]; exact List.mem_cons_self)
  have hnot : ∀ r ∈ T, ∀ v < userTop, (k.leaf r v).has pteV = true →
      pte2pa (k.leaf r v) ≠ pa := by
    intro r hr v hv hval heq
    refine h.not_free r hr v hv hval ?_
    rw [heq, hf]
    exact List.mem_cons_self
  refine ⟨⟨(List.nodup_cons.mp hnd).2, fun x hx => h.free_ram x ?_, h.ram, ?_, h.frame_inj,
    h.slot_alloc, h.slot_inj, h.frame_va⟩, ?_, ⟨hram, (List.nodup_cons.mp hnd).1, hnot⟩⟩
  · rw [hf]
    exact List.mem_cons_of_mem pa hx
  · intro r hr v hv hval hmem
    refine h.not_free r hr v hv hval ?_
    rw [hf]
    exact List.mem_cons_of_mem pa hmem
  · intro r hr v hv
    refine Memory.lpage_congr rfl (fun hval => ?_) fun _ => ?_
    · simp [Function.update_of_ne (hnot r hr v hv hval)]
    · simp [Function.update_of_ne (hram.ne_swap _).symm]

/-- What `vmfault` does to a swapped-out page once it has the frame `mem`. -/
def Kernel.swappedIn (k : Kernel) (root v mem : ℕ) : Kernel :=
  ((k.setMem mem (k.mem (getSwapAddr (swapIndex (k.leaf root v))))).setSlot
    (swapIndex (k.leaf root v)) false).setLeaf root v (swappedInPte (k.leaf root v) mem)

variable {root v mem : ℕ}

theorem Kernel.swappedIn_leaf (hs : (k.leaf root v).swapped = true) (r u : ℕ) :
    (k.swappedIn root v mem).leaf r u =
      if r = root ∧ u = v then swappedInPte (k.leaf root v) mem else k.leaf r u := by
  rw [Kernel.swappedIn, Kernel.setLeaf_leaf]
  · simp
  · exact Memory.hasEntry_of_leaf (Pte.ne_zero_of_swapped hs)

/-- **A swap-in into a fresh frame keeps the frames and slots disjoint.** -/
theorem SwapDisjoint.swappedIn (h : SwapDisjoint T k) (hs : (k.leaf root v).swapped = true)
    (hf : Fresh T k mem) (hT : root ∈ T) (hv : v < userTop) :
    SwapDisjoint T (k.swappedIn root v mem) := by
  -- each entry is the one swapped in, now naming `mem`, or the one it was
  have hcases : ∀ r u, (r = root ∧ u = v ∧
      (k.swappedIn root v mem).leaf r u = swappedInPte (k.leaf root v) mem) ∨
      (¬(r = root ∧ u = v) ∧ (k.swappedIn root v mem).leaf r u = k.leaf r u) := by
    intro r u
    rw [Kernel.swappedIn_leaf hs]
    by_cases hru : r = root ∧ u = v
    · exact Or.inl ⟨hru.1, hru.2, if_pos hru⟩
    · exact Or.inr ⟨hru, if_neg hru⟩
  have hpa : pte2pa (swappedInPte (k.leaf root v) mem) = mem :=
    pte2pa_swappedInPte _ hf.ram.pageAddr
  have hfree : (k.swappedIn root v mem).freelist = k.freelist := by simp [Kernel.swappedIn]
  refine ⟨by simpa only [hfree] using h.free_nodup, by simpa only [hfree] using h.free_ram,
    ?_, ?_, ?_, ?_, ?_, ?_⟩
  · intro r hr u hu hval
    rcases hcases r u with ⟨-, -, heq⟩ | ⟨-, heq⟩
    · rw [heq, hpa]
      exact hf.ram
    · rw [heq] at hval ⊢
      exact h.ram r hr u hu hval
  · intro r hr u hu hval
    rw [hfree]
    rcases hcases r u with ⟨-, -, heq⟩ | ⟨-, heq⟩
    · rw [heq, hpa]
      exact hf.not_free
    · rw [heq] at hval ⊢
      exact h.not_free r hr u hu hval
  · intro r hr u hu r' hr' u' hu' hval hval' heq
    rcases hcases r u with ⟨h1, h2, h3⟩ | ⟨-, h3⟩ <;>
      rcases hcases r' u' with ⟨h1', h2', h3'⟩ | ⟨-, h3'⟩
    · exact ⟨h1.trans h1'.symm, h2.trans h2'.symm⟩
    · rw [h3'] at hval' heq
      rw [h3, hpa] at heq
      exact absurd heq.symm (hf.not_leaf r' hr' u' hu' hval')
    · rw [h3] at hval heq
      rw [h3', hpa] at heq
      exact absurd heq (hf.not_leaf r hr u hu hval)
    · rw [h3] at hval heq
      rw [h3'] at hval' heq
      exact h.frame_inj r hr u hu r' hr' u' hu' hval hval' heq
  · intro r hr u hu hsw
    rcases hcases r u with ⟨-, -, heq⟩ | ⟨hne, heq⟩
    · rw [heq, swappedInPte_swapped] at hsw
      cases hsw
    · rw [heq] at hsw ⊢
      obtain ⟨hlt, hmask⟩ := h.slot_alloc r hr u hu hsw
      refine ⟨hlt, ?_⟩
      have hidx : swapIndex (k.leaf r u) ≠ swapIndex (k.leaf root v) :=
        fun heq => hne (h.slot_inj r hr u hu root hT v hv hsw hs heq)
      simpa [Kernel.swappedIn, Function.update_of_ne hidx] using hmask
  · intro r hr u hu r' hr' u' hu' hsw hsw' heq
    rcases hcases r u with ⟨-, -, h3⟩ | ⟨-, h3⟩
    · rw [h3, swappedInPte_swapped] at hsw
      cases hsw
    · rcases hcases r' u' with ⟨-, -, h3'⟩ | ⟨-, h3'⟩
      · rw [h3', swappedInPte_swapped] at hsw'
        cases hsw'
      · rw [h3] at hsw heq
        rw [h3'] at hsw' heq
        exact h.slot_inj r hr u hu r' hr' u' hu' hsw hsw' heq
  · simpa [Kernel.swappedIn] using h.frame_va

/-- **A swap-in does not change any page's content.** -/
theorem Fresh.swappedIn_sameView (hf : Fresh T k mem)
    (hs : (k.leaf root v).swapped = true) : SameView T k (k.swappedIn root v mem) := by
  intro r hr u hu
  have hmem : (k.swappedIn root v mem).mem =
      Function.update k.mem mem (k.mem (getSwapAddr (swapIndex (k.leaf root v)))) := by
    simp [Kernel.swappedIn]
  by_cases hru : r = root ∧ u = v
  · obtain ⟨rfl, rfl⟩ := hru
    have hleaf := @Kernel.swappedIn_leaf k _ _ mem hs r u
    rw [if_pos ⟨rfl, rfl⟩] at hleaf
    rw [Memory.lpage_of_swapped hs, Memory.lpage_of_valid (by rw [hleaf]; simp), hleaf,
      pte2pa_swappedInPte _ hf.ram.pageAddr, hmem]
    simp
  · have hleaf := @Kernel.swappedIn_leaf k root v mem hs r u
    rw [if_neg hru] at hleaf
    refine Memory.lpage_congr hleaf (fun hval => ?_) fun _ => ?_
    · rw [hmem, Function.update_of_ne (hf.not_leaf r hr u hu hval)]
    · rw [hmem, Function.update_of_ne (hf.ram.ne_swap _).symm]

end Moves

end Xv6
