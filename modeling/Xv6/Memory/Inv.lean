import Xv6.Logic.Ownership
import Xv6.Machine.Exec
import Xv6.Swap.View

/-!
# The memory invariant

Every page of RAM behind the kernel has exactly one `Owner`, every allocated swap slot is
named by exactly one swapped-out entry, and no entry is resident and swapped out at once
(`MemInv`). Pages in the hands of running kernel code are listed in the parameter `H`: a
function that obtains a page passes on `MemInv (pa :: H)`, and one that gives it away
returns to `MemInv H`.

`FrameTable` says that a used frame-table entry names the page it describes, looked up in
the page table its process has installed or, while a `kexec` is under way, in the one the
`kexec` holds. `Inv` joins the two with what is known about the recorded calls.

The lemmas of this file move one page from one owner to another; the specifications of the
allocator and the page-table code are put together from them.
-/

namespace Xv6

open Ownership

/-! ### Owners -/

/-- Who a physical page can belong to. -/
inductive Owner
  | free
  | held
  | leaf (root v : ℕ)
  | root (r : ℕ)
  | mid (r i : ℕ)
  | low (r j : ℕ)
  | trapframe (p : ℕ)
  | pipe
  | arg (p : ℕ)
  | kpgtbl (i : ℕ)
  | kstack (i : ℕ)
  | virtq (i : ℕ)
deriving DecidableEq

/-- The pages each owner has, the running kernel code having those in `H`. -/
def Kernel.own (k : Kernel) (H : List ℕ) : Owner → Set ℕ
  | .free => {x | x ∈ k.freelist}
  | .held => {x | x ∈ H}
  | .leaf r v => {x | v < userTop ∧ (k.leaf r v).has pteV = true ∧ pte2pa (k.leaf r v) = x}
  | .root r => {x | (k.pt r).isSome ∧ r = x}
  | .mid r i => {x | ∃ t, k.pt r = some t ∧ t.mid i = some x}
  | .low r j => {x | ∃ t, k.pt r = some t ∧ t.low j = some x}
  | .trapframe p => {x | x ≠ 0 ∧ (k.proc p).trapframe = x}
  | .pipe => {x | (k.pipes x).isSome}
  | .arg p => {x | x ∈ k.args p}
  | .kpgtbl i => {x | k.boot.kpgtbl[i]? = some x}
  | .kstack i => {x | k.boot.kstack[i]? = some x}
  | .virtq i => {x | k.boot.virtq[i]? = some x}

/-- The pages of `[end, PHYSTOP)`. -/
def Kernel.pages (k : Kernel) : Set ℕ := {pa | pa % pgsize = 0 ∧ k.kend ≤ pa ∧ pa < phystop}

/-- The slot a leaf entry names while it is swapped out. -/
def Kernel.slotOwn (k : Kernel) (o : ℕ × ℕ) : Set ℕ :=
  {i | (k.leaf o.1 o.2).swapped = true ∧ swapIndex (k.leaf o.1 o.2) = i}

/-- The allocated swap slots. -/
def Kernel.slots (k : Kernel) : Set ℕ := {i | i < maxSp ∧ k.swapMask i = true}

/-- Pages and slots have exactly one owner each. -/
structure MemInv (H : List ℕ) (k : Kernel) : Prop where
  kend_le : kernbase ≤ k.kend
  own : Exact (k.own H) k.pages
  free_nodup : k.freelist.Nodup
  held_nodup : H.Nodup
  args_nodup : ∀ p, (k.args p).Nodup
  slots : Exact k.slotOwn k.slots
  excl : ∀ r v, (k.leaf r v).has pteV = true → (k.leaf r v).has pteS = false
  frame_va : ∀ i, (k.frames i).isUsed = true → (k.frames i).va < trapframeVa

section Basic

variable {H : List ℕ} {k : Kernel} {r v x : ℕ}

theorem MemInv.ram_of_pages (h : MemInv H k) (hx : x ∈ k.pages) : RamPage x :=
  ⟨hx.1, le_trans h.kend_le hx.2.1, hx.2.2⟩

theorem MemInv.ram (h : MemInv H k) {o : Owner} (hx : x ∈ k.own H o) : RamPage x :=
  h.ram_of_pages (h.own.sub o x hx)

/-- Two different owners never have the same page. -/
theorem MemInv.ne (h : MemInv H k) {o o' : Owner} {y : ℕ} (hx : x ∈ k.own H o)
    (hy : y ∈ k.own H o') (ho : o ≠ o') : x ≠ y := by
  rintro rfl
  exact ho (h.own.uniq o o' x hx hy)

/-- An owned page is not on the free list. -/
theorem MemInv.not_free (h : MemInv H k) {o : Owner} (hx : x ∈ k.own H o) (ho : o ≠ .free) :
    x ∉ k.freelist :=
  fun hin => h.own.not_mem hx ho.symm hin

/-- The invariant gives the disjointness that swapping relies on, for all page tables. -/
theorem MemInv.disjoint (h : MemInv H k) : SwapDisjoint Set.univ k := by
  refine ⟨h.free_nodup, fun pa hpa => h.ram (o := .free) hpa, ?_, ?_, ?_, ?_, ?_, h.frame_va⟩
  · intro r _ v hv hval
    exact h.ram (o := .leaf r v) ⟨hv, hval, rfl⟩
  · intro r _ v hv hval hmem
    have := h.own.uniq (.leaf r v) .free _ ⟨hv, hval, rfl⟩ hmem
    cases this
  · intro r _ v hv r' _ v' hv' hval hval' heq
    have := h.own.uniq (.leaf r v) (.leaf r' v') _ ⟨hv, hval, rfl⟩ ⟨hv', hval', heq.symm⟩
    cases this
    exact ⟨rfl, rfl⟩
  · intro r _ v _ hs
    exact h.slots.sub (r, v) _ ⟨hs, rfl⟩
  · intro r _ v _ r' _ v' _ hs hs' heq
    have := h.slots.uniq (r, v) (r', v') _ ⟨hs, rfl⟩ ⟨hs', heq.symm⟩
    cases this
    exact ⟨rfl, rfl⟩

/-- A held page is in nobody else's use. -/
theorem MemInv.fresh (h : MemInv H k) (hx : x ∈ H) : Fresh Set.univ k x := by
  refine ⟨h.ram (o := .held) hx, fun hf => ?_, fun r _ v hv hval heq => ?_⟩
  · have := h.own.uniq .held .free x hx hf
    cases this
  · have := h.own.uniq .held (.leaf r v) x hx ⟨hv, hval, heq⟩
    cases this

/-- The invariant reads the free list, the page tables, the mask, the used frames and the
owners outside the memory code. -/
theorem MemInv.congr {k' : Kernel} (h : MemInv H k) (hfree : k'.freelist = k.freelist)
    (hpt : k'.pt = k.pt) (hmask : k'.swapMask = k.swapMask) (hkend : k'.kend = k.kend)
    (hboot : k'.boot = k.boot) (htf : ∀ p, (k'.proc p).trapframe = (k.proc p).trapframe)
    (hpipes : ∀ x, (k'.pipes x).isSome = (k.pipes x).isSome) (hargs : k'.args = k.args)
    (hva : ∀ i, (k'.frames i).isUsed = true → (k'.frames i).va < trapframeVa) :
    MemInv H k' := by
  have hleaf : ∀ r v, k'.leaf r v = k.leaf r v := fun r v => by rw [Memory.leaf, hpt, Memory.leaf]
  refine ⟨by rw [hkend]; exact h.kend_le, ?_, by rw [hfree]; exact h.free_nodup, h.held_nodup,
    by rw [hargs]; exact h.args_nodup, ?_, ?_, hva⟩
  · have hpages : k'.pages = k.pages := by rw [Kernel.pages, hkend, Kernel.pages]
    rw [hpages]
    refine h.own.congr fun o x => ?_
    cases o <;> simp only [Kernel.own, Set.mem_ofPred_eq, hfree, hpt, hleaf, htf, hpipes, hargs, hboot]
  · have hslots : k'.slots = k.slots := by rw [Kernel.slots, hmask, Kernel.slots]
    rw [hslots]
    refine h.slots.congr fun o x => ?_
    simp only [Kernel.slotOwn, Set.mem_ofPred_eq, hleaf]
  · intro r v hval
    rw [hleaf] at hval ⊢
    exact h.excl r v hval

end Basic

/-! ### Leaf entries -/

section Leaf

variable {H : List ℕ} {k : Kernel} {r v pa : ℕ} {e : Pte}

/-- Storing a leaf entry changes what that entry owns and nothing else. -/
theorem mem_own_setLeaf (hent : k.HasEntry r v) (o : Owner) (x : ℕ) :
    x ∈ (k.setLeaf r v e).own H o ↔
      if o = .leaf r v then v < userTop ∧ e.has pteV = true ∧ pte2pa e = x
      else x ∈ k.own H o := by
  have hnode : ∀ (f : PageTable → Option ℕ), (∀ t : PageTable, f (t.setLeaf v e) = f t) →
      ∀ r', (∃ t, (k.setLeaf r v e).pt r' = some t ∧ f t = some x) ↔
        ∃ t, k.pt r' = some t ∧ f t = some x := by
    intro f hf r'
    rw [Kernel.setLeaf_pt]
    by_cases hr : r' = r
    · rw [if_pos hr]
      cases k.pt r' <;> simp [hf]
    · rw [if_neg hr]
  cases o with
  | leaf r' v' =>
    simp only [Kernel.own, Set.mem_ofPred_eq, Kernel.setLeaf_leaf k r v e hent]
    by_cases hrv : r' = r ∧ v' = v
    · obtain ⟨rfl, rfl⟩ := hrv
      simp
    · rw [if_neg hrv, if_neg (by rintro h; cases h; exact hrv ⟨rfl, rfl⟩)]
  | root r' =>
    have hsome : ((k.setLeaf r v e).pt r').isSome = (k.pt r').isSome := by
      rw [Kernel.setLeaf_pt]
      by_cases hr : r' = r <;> simp [hr]
    simp [Kernel.own, hsome]
  | mid r' i => simpa [Kernel.own] using hnode (fun t => t.mid i) (by simp) r'
  | low r' j => simpa [Kernel.own] using hnode (fun t => t.low j) (by simp) r'
  | _ => simp [Kernel.own]

theorem mem_slotOwn_setLeaf (hent : k.HasEntry r v) (o : ℕ × ℕ) (x : ℕ) :
    x ∈ (k.setLeaf r v e).slotOwn o ↔
      if o = (r, v) then e.swapped = true ∧ swapIndex e = x else x ∈ k.slotOwn o := by
  obtain ⟨r', v'⟩ := o
  simp only [Kernel.slotOwn, Set.mem_ofPred_eq, Kernel.setLeaf_leaf k r v e hent, Prod.mk.injEq]
  by_cases hrv : r' = r ∧ v' = v
  · simp [hrv]
  · simp [hrv]

theorem excl_setLeaf (h : MemInv H k) (hent : k.HasEntry r v)
    (he : e.has pteV = true → e.has pteS = false) (r' v' : ℕ)
    (hval : ((k.setLeaf r v e).leaf r' v').has pteV = true) :
    ((k.setLeaf r v e).leaf r' v').has pteS = false := by
  rw [Kernel.setLeaf_leaf k r v e hent] at hval ⊢
  split_ifs at hval ⊢ with hrv
  · exact he hval
  · exact h.excl r' v' hval

@[simp] theorem Kernel.setLeaf_pages : (k.setLeaf r v e).pages = k.pages := by
  rw [Kernel.pages, Kernel.setLeaf_toWorld, Kernel.pages]

@[simp] theorem Kernel.setLeaf_slots : (k.setLeaf r v e).slots = k.slots := by
  rw [Kernel.slots, Kernel.setLeaf_swapMask, Kernel.slots]

/-- Slots are untouched by a store that neither replaces nor writes a swapped-out entry. -/
theorem MemInv.slots_setLeaf (h : MemInv H k) (hent : k.HasEntry r v)
    (hold : (k.leaf r v).swapped = false) (hnew : e.swapped = false) :
    Exact (k.setLeaf r v e).slotOwn (k.setLeaf r v e).slots := by
  rw [Kernel.setLeaf_slots]
  refine h.slots.congr fun o x => ?_
  rw [mem_slotOwn_setLeaf hent]
  split_ifs with ho
  · subst ho
    simp [hnew, hold, Kernel.slotOwn]
  · rfl

/-- `mappages`: a held page becomes a user page. -/
theorem MemInv.mapLeaf (h : MemInv (pa :: H) k) (hent : k.HasEntry r v) (hv : v < userTop)
    (hval : (k.leaf r v).has pteV = false) (hold : (k.leaf r v).swapped = false)
    (heV : e.has pteV = true) (heS : e.has pteS = false) (hpa : pte2pa e = pa) :
    MemInv H (k.setLeaf r v e) := by
  obtain ⟨hnot, hnd⟩ := List.nodup_cons.mp h.held_nodup
  have hnew : e.swapped = false := by simp [Pte.swapped, heS]
  refine ⟨by simpa using h.kend_le, ?_, by simpa using h.free_nodup, hnd,
    by simpa using h.args_nodup, h.slots_setLeaf hent hold hnew,
    excl_setLeaf h hent fun _ => heS, by simpa using h.frame_va⟩
  rw [Kernel.setLeaf_pages]
  refine h.own.move (a := .held) (b := .leaf r v) (r := pa) List.mem_cons_self ?_ ?_ ?_
  · intro x
    simp only [Kernel.own, Set.mem_ofPred_eq, List.mem_cons]
    constructor
    · intro hx
      exact ⟨Or.inr hx, fun hxp => hnot (hxp ▸ hx)⟩
    · rintro ⟨rfl | hx, hne⟩
      · exact absurd rfl hne
      · exact hx
  · intro x
    rw [mem_own_setLeaf hent, if_pos rfl]
    simp [Kernel.own, hval, hv, heV, hpa, eq_comm]
  · intro o ha hb x
    rw [mem_own_setLeaf hent, if_neg hb]
    cases o with
    | held => exact absurd rfl ha
    | _ => exact Iff.rfl

/-- `uvmunmap`: a resident user page comes into the caller's hands. -/
theorem MemInv.unmapLeaf (h : MemInv H k) (hv : v < userTop)
    (hval : (k.leaf r v).has pteV = true) :
    MemInv (pte2pa (k.leaf r v) :: H) (k.setLeaf r v 0) := by
  have hent := Memory.hasEntry_of_leaf (Pte.ne_zero_of_valid hval)
  have hown : pte2pa (k.leaf r v) ∈ k.own H (.leaf r v) := ⟨hv, hval, rfl⟩
  have hnot : pte2pa (k.leaf r v) ∉ H := fun hmem =>
    h.own.not_mem hown (show Owner.held ≠ .leaf r v by simp) hmem
  have hold : (k.leaf r v).swapped = false := by simp [Pte.swapped, hval]
  refine ⟨by simpa using h.kend_le, ?_, by simpa using h.free_nodup,
    List.nodup_cons.mpr ⟨hnot, h.held_nodup⟩, by simpa using h.args_nodup,
    h.slots_setLeaf hent hold (by decide), excl_setLeaf h hent (by decide),
    by simpa using h.frame_va⟩
  rw [Kernel.setLeaf_pages]
  refine h.own.move (a := .leaf r v) (b := .held) hown ?_ ?_ ?_
  · intro x
    rw [mem_own_setLeaf hent, if_pos rfl]
    simp only [Kernel.own, Set.mem_ofPred_eq, hval, hv, true_and]
    constructor
    · rintro ⟨h0, -⟩
      exact absurd h0 (by decide)
    · rintro ⟨rfl, hne⟩
      exact absurd rfl hne
  · intro x
    rw [mem_own_setLeaf hent, if_neg (by simp)]
    simp [Kernel.own, or_comm]
  · intro o ha hb x
    rw [mem_own_setLeaf hent, if_neg ha]
    cases o with
    | held => exact absurd rfl hb
    | _ => exact Iff.rfl

/-- A store that changes neither residency nor the page the entry names, as in `uvmclear`,
or one above user memory, moves no page. -/
theorem MemInv.keepLeaf (h : MemInv H k) (hent : k.HasEntry r v)
    (hown : v < userTop → (e.has pteV = (k.leaf r v).has pteV ∧
      (e.has pteV = true → pte2pa e = pte2pa (k.leaf r v))))
    (hold : (k.leaf r v).swapped = false) (hnew : e.swapped = false)
    (hexcl : e.has pteV = true → e.has pteS = false) : MemInv H (k.setLeaf r v e) := by
  refine ⟨by simpa using h.kend_le, ?_, by simpa using h.free_nodup, h.held_nodup,
    by simpa using h.args_nodup, h.slots_setLeaf hent hold hnew, excl_setLeaf h hent hexcl,
    by simpa using h.frame_va⟩
  rw [Kernel.setLeaf_pages]
  refine h.own.congr fun o x => ?_
  rw [mem_own_setLeaf hent]
  split_ifs with ho
  · subst ho
    simp only [Kernel.own, Set.mem_ofPred_eq]
    refine and_congr_right fun hv => ?_
    obtain ⟨h1, h2⟩ := hown hv
    rw [← h1]
    exact and_congr_right fun hV => by rw [h2 hV]
  · cases o <;> exact Iff.rfl

/-- `evict_page`: a resident user page gives its frame to the caller and gets a free slot. -/
theorem MemInv.swapOutLeaf (h : MemInv H k) {idx : ℕ} (hv : v < userTop)
    (hval : (k.leaf r v).has pteV = true) (hidx : idx < maxSp) (hfree : k.swapMask idx = false)
    (heV : e.has pteV = false) (heS : e.swapped = true) (he : swapIndex e = idx) :
    MemInv (pte2pa (k.leaf r v) :: H) ((k.setLeaf r v e).setSlot idx true) := by
  have hent := Memory.hasEntry_of_leaf (Pte.ne_zero_of_valid hval)
  have hown : pte2pa (k.leaf r v) ∈ k.own H (.leaf r v) := ⟨hv, hval, rfl⟩
  have hnot : pte2pa (k.leaf r v) ∉ H := fun hmem =>
    h.own.not_mem hown (show Owner.held ≠ .leaf r v by simp) hmem
  have hsame : ∀ o x, x ∈ ((k.setLeaf r v e).setSlot idx true).own (pte2pa (k.leaf r v) :: H) o ↔
      x ∈ (k.setLeaf r v e).own (pte2pa (k.leaf r v) :: H) o := by
    intro o x
    cases o <;> exact Iff.rfl
  refine ⟨by simpa using h.kend_le, ?_, by simpa using h.free_nodup,
    List.nodup_cons.mpr ⟨hnot, h.held_nodup⟩, by simpa using h.args_nodup, ?_,
    excl_setLeaf h hent (by simp [heV]), by simpa using h.frame_va⟩
  · have hpages : ((k.setLeaf r v e).setSlot idx true).pages = k.pages := by
      rw [← Kernel.setLeaf_pages (k := k) (r := r) (v := v) (e := e)]
      rfl
    rw [hpages]
    refine h.own.move (a := .leaf r v) (b := .held) hown ?_ ?_ ?_
    · intro x
      rw [hsame, mem_own_setLeaf hent, if_pos rfl]
      simp only [Kernel.own, Set.mem_ofPred_eq, hval, hv, heV, true_and, Bool.false_eq_true,
        false_and, false_iff, not_and, not_not]
      exact fun hx => hx.symm
    · intro x
      rw [hsame, mem_own_setLeaf hent, if_neg (by simp)]
      simp [Kernel.own, or_comm]
    · intro o ha hb x
      rw [hsame, mem_own_setLeaf hent, if_neg ha]
      cases o with
      | held => exact absurd rfl hb
      | _ => exact Iff.rfl
  · refine h.slots.gain (r := idx) (b := (r, v)) (fun hm => ?_) ?_ ?_ ?_
    · rw [Kernel.slots, Set.mem_ofPred_eq, hfree] at hm
      cases hm.2
    · intro x
      by_cases hx : x = idx
      · subst hx
        simp [Kernel.slots, hidx]
      · simp [Kernel.slots, hx]
    · intro x
      have hm := mem_slotOwn_setLeaf (e := e) hent (r, v) x
      rw [if_pos rfl] at hm
      have hold : (k.leaf r v).swapped = false := by simp [Pte.swapped, hval]
      refine hm.trans ?_
      simp only [Kernel.slotOwn, Set.mem_ofPred_eq, hold, heS, he, true_and,
        Bool.false_eq_true, false_and, false_or]
      exact eq_comm
    · intro o ho x
      have hm := mem_slotOwn_setLeaf (e := e) hent o x
      rw [if_neg ho] at hm
      exact hm

/-- A swapped-out entry that is cleared or made resident gives up its slot. -/
theorem MemInv.slots_lose (h : MemInv H k) (hs : (k.leaf r v).swapped = true)
    (heS : e.swapped = false) :
    Exact ((k.setLeaf r v e).setSlot (swapIndex (k.leaf r v)) false).slotOwn
      ((k.setLeaf r v e).setSlot (swapIndex (k.leaf r v)) false).slots := by
  have hent := Memory.hasEntry_of_leaf (Pte.ne_zero_of_swapped hs)
  refine h.slots.lose (r := swapIndex (k.leaf r v)) (a := (r, v)) ⟨hs, rfl⟩ ?_ ?_ ?_
  · intro x
    by_cases hx : x = swapIndex (k.leaf r v)
    · subst hx
      simp [Kernel.slots]
    · simp [Kernel.slots, hx]
  · intro x
    have hm := mem_slotOwn_setLeaf (e := e) hent (r, v) x
    rw [if_pos rfl] at hm
    refine hm.trans (iff_of_false ?_ ?_)
    · rw [heS]
      rintro ⟨h0, -⟩
      cases h0
    · rintro ⟨⟨-, rfl⟩, hne⟩
      exact hne rfl
  · intro o ho x
    have hm := mem_slotOwn_setLeaf (e := e) hent o x
    rw [if_neg ho] at hm
    exact hm

/-- `vmfault`: a swapped-out page takes a held page and gives up its slot. -/
theorem MemInv.swapInLeaf (h : MemInv (pa :: H) k) (hv : v < userTop)
    (hs : (k.leaf r v).swapped = true) (heV : e.has pteV = true) (heS : e.has pteS = false)
    (hpa : pte2pa e = pa) :
    MemInv H ((k.setLeaf r v e).setSlot (swapIndex (k.leaf r v)) false) := by
  have hent := Memory.hasEntry_of_leaf (Pte.ne_zero_of_swapped hs)
  obtain ⟨hnot, hnd⟩ := List.nodup_cons.mp h.held_nodup
  refine ⟨by simpa using h.kend_le, ?_, by simpa using h.free_nodup, hnd,
    by simpa using h.args_nodup, h.slots_lose hs (by simp [Pte.swapped, heS]),
    excl_setLeaf h hent fun _ => heS, by simpa using h.frame_va⟩
  have hpages : ((k.setLeaf r v e).setSlot (swapIndex (k.leaf r v)) false).pages = k.pages := by
    rw [← Kernel.setLeaf_pages (k := k) (r := r) (v := v) (e := e)]
    rfl
  have hsame : ∀ o x, x ∈ ((k.setLeaf r v e).setSlot (swapIndex (k.leaf r v)) false).own H o ↔
      x ∈ (k.setLeaf r v e).own H o := by
    intro o x
    cases o <;> exact Iff.rfl
  rw [hpages]
  refine h.own.move (a := .held) (b := .leaf r v) (r := pa) List.mem_cons_self ?_ ?_ ?_
  · intro x
    simp only [Kernel.own, Set.mem_ofPred_eq, List.mem_cons]
    constructor
    · intro hx
      exact ⟨Or.inr hx, fun hxp => hnot (hxp ▸ hx)⟩
    · rintro ⟨rfl | hx, hne⟩
      · exact absurd rfl hne
      · exact hx
  · intro x
    rw [hsame, mem_own_setLeaf hent, if_pos rfl]
    simp [Kernel.own, Pte.not_valid_of_swapped hs, hv, heV, hpa, eq_comm]
  · intro o ha hb x
    rw [hsame, mem_own_setLeaf hent, if_neg hb]
    cases o with
    | held => exact absurd rfl ha
    | _ => exact Iff.rfl

/-- `uvmunmap`: a swapped-out page is discarded and its slot freed. -/
theorem MemInv.dropSlot (h : MemInv H k) (hs : (k.leaf r v).swapped = true) :
    MemInv H ((k.setLeaf r v 0).setSlot (swapIndex (k.leaf r v)) false) := by
  have hent := Memory.hasEntry_of_leaf (Pte.ne_zero_of_swapped hs)
  refine ⟨by simpa using h.kend_le, ?_, by simpa using h.free_nodup, h.held_nodup,
    by simpa using h.args_nodup, h.slots_lose hs (by decide),
    excl_setLeaf h hent (by decide), by simpa using h.frame_va⟩
  have hpages : ((k.setLeaf r v 0).setSlot (swapIndex (k.leaf r v)) false).pages = k.pages := by
    rw [← Kernel.setLeaf_pages (k := k) (r := r) (v := v) (e := 0)]
    rfl
  rw [hpages]
  refine h.own.congr fun o x => ?_
  have hm := mem_own_setLeaf (H := H) (e := 0) hent o x
  by_cases ho : o = .leaf r v
  · subst ho
    rw [if_pos rfl] at hm
    refine hm.trans (iff_of_false ?_ ?_)
    · rintro ⟨-, h0, -⟩
      exact absurd h0 (by decide)
    · rintro ⟨-, h1, -⟩
      rw [Pte.not_valid_of_swapped hs] at h1
      cases h1
  · rw [if_neg ho] at hm
    cases o <;> exact hm

end Leaf

end Xv6
