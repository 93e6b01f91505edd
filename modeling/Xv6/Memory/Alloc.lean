import Xv6.Memory.Moves
import Xv6.Swap.Transparent

/-!
# Specifications of the allocator

`kalloc` and `evict_page` hand out one page and are invisible otherwise: `Quiet` says that
the view of user memory, everything outside the memory code and all entries that are not
resident stay as they are. `kfree` takes back a page somebody owned, never one that is
already free. The last statement is about the calls recorded in the history, so that it also
holds of runs that stop later.
-/

namespace Xv6

open StateLogic

/-! ### Invisible steps -/

/-- The user pages of all page tables. -/
def Kernel.view (k : Kernel) (r v : ℕ) : Option LPage := if v < userTop then k.lpage r v else none

theorem view_eq_of_sameView {k k' : Kernel} (h : SameView Set.univ k k') : k'.view = k.view := by
  funext r v
  rw [Kernel.view, Kernel.view]
  split_ifs with hv
  · exact h r (Set.mem_univ r) v hv
  · rfl

/-- Evictions leave the table rooted at `r` alone: a process that has it installed is running
on another CPU. -/
def Safe (k : Kernel) (r : ℕ) : Prop :=
  ∀ p, (k.proc p).pagetable = r → (k.proc p).state = .running ∧ p ≠ k.cur

/-- A table that nobody has installed is safe. -/
theorem Safe.of_detached {k : Kernel} {r : ℕ} (h : ∀ p, (k.proc p).pagetable ≠ r) : Safe k r :=
  fun p hp => absurd hp (h p)

/-- A table that a process which is not running has installed is not safe. -/
theorem Safe.ne {k : Kernel} {r p : ℕ} (h : Safe k r)
    (hp : ¬((k.proc p).state = .running ∧ p ≠ k.cur)) : (k.proc p).pagetable ≠ r :=
  fun heq => hp (h p heq)

theorem Safe.ne_cur {k : Kernel} {r : ℕ} (h : Safe k r) : (k.proc k.cur).pagetable ≠ r :=
  h.ne fun hrun => hrun.2 rfl

theorem Safe.congr {k k' : Kernel} {r : ℕ} (h : Safe k r) (hw : k'.toWorld = k.toWorld) :
    Safe k' r := by
  rw [Safe, hw]
  exact h

/-- The step from `k` to `k'` only moves pages between frames and slots and adds nodes to
page tables. -/
structure Quiet (k k' : Kernel) : Prop where
  world : k'.toWorld = k.toWorld
  view : k'.view = k.view
  keep : ∀ r v, (k.leaf r v).has pteV = false → k'.leaf r v = k.leaf r v
  top : ∀ r v, userTop ≤ v → k'.leaf r v = k.leaf r v
  safe : ∀ r, Safe k r → ∀ v, k'.leaf r v = k.leaf r v
  roots : ∀ r, (k'.pt r).isSome = (k.pt r).isSome
  entry : ∀ r v, k.HasEntry r v → k'.HasEntry r v

theorem Quiet.refl (k : Kernel) : Quiet k k :=
  ⟨rfl, rfl, fun _ _ _ => rfl, fun _ _ _ => rfl, fun _ _ _ => rfl, fun _ => rfl, fun _ _ h => h⟩

theorem Quiet.trans {k₁ k₂ k₃ : Kernel} (h : Quiet k₁ k₂) (h' : Quiet k₂ k₃) : Quiet k₁ k₃ := by
  refine ⟨h'.world.trans h.world, h'.view.trans h.view, fun r v hval => ?_,
    fun r v hv => (h'.top r v hv).trans (h.top r v hv),
    fun r hr v => (h'.safe r (hr.congr h.world) v).trans (h.safe r hr v),
    fun r => (h'.roots r).trans (h.roots r), fun r v he => h'.entry r v (h.entry r v he)⟩
  have h1 := h.keep r v hval
  exact (h'.keep r v (by rw [h1]; exact hval)).trans h1

/-- Two states that differ in counters, frames, the hand and pages nobody reads. -/
theorem Quiet.of_pt {k k' : Kernel} (hw : k'.toWorld = k.toWorld) (hpt : k'.pt = k.pt)
    (hview : k'.view = k.view) : Quiet k k' := by
  have hleaf : ∀ r v, k'.leaf r v = k.leaf r v := fun r v => by rw [Memory.leaf, hpt, Memory.leaf]
  refine ⟨hw, hview, fun r v _ => hleaf r v, fun r v _ => hleaf r v, fun r _ v => hleaf r v,
    fun r => by rw [hpt], fun r v => ?_⟩
  rintro ⟨t, ht, hlow⟩
  exact ⟨t, by rw [hpt]; exact ht, hlow⟩

/-- What obtaining one page does: nothing visible, no page but a free one is overwritten, and
no page-table page is added or removed. -/
structure Got (k k' : Kernel) : Prop where
  quiet : Quiet k k'
  mem : ∀ x, RamPage x → x ∉ k.freelist → k'.mem x = k.mem x
  nodes : ∀ r t', k'.pt r = some t' → ∃ t, k.pt r = some t ∧ t'.mid = t.mid ∧ t'.low = t.low

/-- A page of the free list or of the caller is not seen by anybody. -/
theorem Fresh.view_setMem {k : Kernel} {x : ℕ} (h : Fresh Set.univ k x) (pg : Page) :
    (k.setMem x pg).view = k.view := by
  refine view_eq_of_sameView fun r hr v hv => ?_
  refine Memory.lpage_congr rfl (fun hval => ?_) fun _ => ?_
  · simp [Function.update_of_ne (h.not_leaf r hr v hv hval)]
  · simp [Function.update_of_ne (h.ram.ne_swap _).symm]

/-! ### Eviction -/

theorem EvictQuiet.tail {c : Call} {calls : List Call} (h : EvictQuiet (c :: calls)) :
    EvictQuiet calls := fun k hk => h k (List.mem_cons_of_mem c hk)

/-- An eviction is recorded while the frame table is right, if no `kexec` is under way. -/
theorem Inv.log_evict {H : List ℕ} {m : Machine} (h : Inv H m) :
    LogOK (.evictPage m.k :: m.calls) := by
  refine ⟨fun pa k hk => ?_, fun hq k hk => ?_⟩
  · rcases List.mem_cons.mp hk with heq | hmem
    · cases heq
    · exact h.log.kfree pa k hmem
  · rcases List.mem_cons.mp hk with heq | hmem
    · cases heq
      exact h.frames hq.tail
    · exact h.log.agree hq.tail k hmem

theorem Kernel.evicted_pt (k : Kernel) (i o vp idx : ℕ) : (k.evicted i o vp idx).pt =
    (k.setLeaf (k.proc o).pagetable vp (evictedPte (k.leaf (k.proc o).pagetable vp) idx)).pt := by
  funext r
  rw [Kernel.evicted, Kernel.swapOut, Kernel.setFrame_pt, Kernel.setStats_pt, Kernel.setLeaf_pt,
    Kernel.setLeaf_pt]
  rfl

section Evict

variable {H : List ℕ} {k : Kernel} {i o vp idx : ℕ}

theorem MemInv.scanned (h : MemInv H k) : MemInv H k.scanned :=
  h.congr rfl rfl rfl rfl rfl (fun _ => rfl) (fun _ => rfl) rfl fun i hi => by
    rw [Kernel.scanned_isUsed] at hi
    rw [Kernel.scanned_va]
    exact h.frame_va i hi

theorem Victim.lt_userTop (h : MemInv H k) (hv : Victim k i o vp idx)
    (hused : (k.frames i).isUsed = true) : vp < userTop := by
  rw [← hv.page, userTop]
  exact Nat.div_lt_of_lt_mul (by rw [Nat.mul_div_cancel' (by decide)]; exact h.frame_va i hused)

theorem MemInv.evicted (h : MemInv H k) (hv : Victim k i o vp idx) (hvp : vp < userTop) :
    MemInv (pte2pa (k.leaf (k.proc o).pagetable vp) :: H) (k.evicted i o vp idx) := by
  have hswap := h.swapOutLeaf (e := evictedPte (k.leaf (k.proc o).pagetable vp) idx) hvp hv.valid
    hv.slot_lt hv.slot_free (by simp) (by simp) (swapIndex_evictedPte _ hv.slot_lt)
  refine hswap.congr (by simp) (k.evicted_pt i o vp idx) (by simp) (by simp) (by simp)
    (by simp) (by simp) (by simp) fun j hj => ?_
  rw [Kernel.evicted_frames] at hj ⊢
  by_cases hji : j = i
  · subst hji
    simp at hj
  · rw [Function.update_of_ne hji] at hj ⊢
    exact h.frame_va j hj

/-- Without a `kexec` under way the frame an eviction takes is the one its entry stands for. -/
theorem FrameTable.victim (h : FrameTable k) (hno : NoExec k) (hv : Victim k i o vp idx)
    (hused : (k.frames i).isUsed = true) :
    pte2pa (k.leaf (k.proc o).pagetable vp) = kernbase + i * pgsize := by
  obtain ⟨-, p, r, hp, hh, -, hpa⟩ := h i hused
  rw [hv.owner, Option.some.injEq] at hp
  subst hp
  rcases hh with rfl | ⟨im, him, -⟩
  · rw [hv.page] at hpa
    exact hpa
  · rw [hno] at him
    cases him

theorem FrameTable.scanned (h : FrameTable k) : FrameTable k.scanned := by
  intro i hi
  rw [Kernel.scanned_isUsed] at hi
  rw [Kernel.scanned_va, Kernel.scanned_p]
  exact h i hi

theorem FrameTable.evicted (h : FrameTable k) (hm : MemInv H k) (hno : NoExec k)
    (hv : Victim k i o vp idx) (hused : (k.frames i).isUsed = true) :
    FrameTable (k.evicted i o vp idx) := by
  have hframe : ∀ j, ((k.evicted i o vp idx).frames j).isUsed = true →
      j ≠ i ∧ (k.evicted i o vp idx).frames j = k.frames j := by
    intro j hj
    rw [Kernel.evicted_frames] at hj ⊢
    by_cases hji : j = i
    · subst hji
      simp at hj
    · exact ⟨hji, Function.update_of_ne hji _ _⟩
  refine h.mono hm.frame_va (fun j hj => ?_) (fun p r hh => ?_) fun j r v hj _ hval hpa => ?_
  · rw [(hframe j hj).2]
    exact ⟨rfl, rfl, rfl⟩
  · rw [Holds, Kernel.evicted_toWorld]
    exact hh
  · rw [Kernel.evicted_leaf hv, if_neg]
    · exact ⟨hval, rfl⟩
    · rintro ⟨rfl, rfl⟩
      rw [h.victim hno hv hused, pgsize] at hpa
      exact (hframe j hj).1 (by omega)

end Evict

/-- **Specification of `evict_page`.** -/
theorem evictPage_spec {H : List ℕ} {m : Machine} (h : Inv H m) :
    wp evictPage (fun pa m' => Inv (pa :: H) m' ∧ Got m.k m'.k) Crash m := by
  cases hrun : evictPage.run m with
  | error e m' =>
    obtain ⟨rfl, -⟩ := evictPage_error hrun
    exact wp_of_error hrun h.log_evict
  | ok pa m' =>
    refine wp_of_ok hrun ?_
    obtain ⟨i, o, vp, idx, -, hev, hv, rfl, rfl⟩ := evictPage_ok hrun
    have hused : (m.k.scanned.frames i).isUsed = true := by
      rw [Kernel.scanned_isUsed]
      exact hev.1
    have hms := h.mem.scanned
    have hvp := Victim.lt_userTop hms hv hused
    have hval := hv.valid
    rw [Kernel.scanned_leaf] at hval
    refine ⟨⟨hms.evicted hv hvp, h.log_evict, fun hq => ?_⟩, ⟨⟨?_, ?_, ?_, ?_, ?_, ?_, ?_⟩, ?_, ?_⟩⟩
    · have hno : NoExec m.k.scanned := hq m.k List.mem_cons_self
      exact (h.frames hq.tail).scanned.evicted hms hno hv hused
    · simp
    · exact view_eq_of_sameView (hms.disjoint.evicted_sameView hv)
    · intro r v hnv
      rw [Kernel.evicted_leaf hv, if_neg]
      · rfl
      · rintro ⟨rfl, rfl⟩
        exact absurd (hnv.symm.trans hval) (by simp)
    · intro r v hv'
      rw [Kernel.evicted_leaf hv, if_neg]
      · rfl
      · rintro ⟨-, rfl⟩
        omega
    · intro r hr v
      rw [Kernel.evicted_leaf hv, if_neg]
      · rfl
      · rintro ⟨rfl, -⟩
        obtain ⟨o', ho', hnot⟩ := hev.2
        have howner := hv.owner
        rw [Kernel.scanned_p, ho', Option.some.injEq] at howner
        exact hnot (howner ▸ hr o rfl)
    · intro r
      rw [Kernel.evicted_pt, Kernel.setLeaf_pt]
      split_ifs <;> simp
    · rintro r v ⟨t, ht, hlow⟩
      rw [Memory.HasEntry, Kernel.evicted_pt, Kernel.setLeaf_pt]
      by_cases hr : r = (m.k.scanned.proc o).pagetable
      · rw [if_pos hr, Kernel.scanned_pt, ht]
        exact ⟨_, rfl, by simpa using hlow⟩
      · rw [if_neg hr]
        exact ⟨t, ht, hlow⟩
    · intro x hx _
      rw [Kernel.evicted_mem, Function.update_of_ne (hx.ne_swap idx)]
      rfl
    · intro r t' ht'
      rw [Kernel.evicted_pt, Kernel.setLeaf_pt] at ht'
      by_cases hr : r = (m.k.scanned.proc o).pagetable
      · rw [if_pos hr, Option.map_eq_some_iff] at ht'
        obtain ⟨t, ht, rfl⟩ := ht'
        exact ⟨t, ht, by simp, by simp⟩
      · rw [if_neg hr] at ht'
        exact ⟨t', ht', rfl, rfl⟩

/-! ### Allocation and release -/

section Alloc

variable {H : List ℕ} {m : Machine}

/-- Popping the free list. -/
theorem Inv.popFree (h : Inv H m) {pa : ℕ} {rest : List ℕ} (hf : m.k.freelist = pa :: rest)
    (pg : Page) : Inv (pa :: H) ⟨(m.k.setMem pa pg).setFree rest, m.calls⟩ ∧
      Got m.k ((m.k.setMem pa pg).setFree rest) := by
  have hmem := h.mem.popFree hf
  refine ⟨⟨hmem.congr rfl rfl rfl rfl rfl (fun _ => rfl) (fun _ => rfl) rfl hmem.frame_va, h.log,
    fun hq => ?_⟩, ⟨?_, fun x _ hx => ?_, fun r t ht => ⟨t, ht, rfl, rfl⟩⟩⟩
  · exact (h.frames hq).mono h.mem.frame_va (fun _ _ => ⟨rfl, rfl, rfl⟩) (fun _ _ hh => hh)
      fun _ _ _ _ _ hval _ => ⟨hval, rfl⟩
  · exact .of_pt rfl rfl (view_eq_of_sameView (h.mem.disjoint.popFree hf pg).2.1)
  · have hne : x ≠ pa := by
      rintro rfl
      rw [hf] at hx
      exact hx List.mem_cons_self
    simp [hne]

/-- **Specification of `kalloc`.** It never returns null. -/
theorem kalloc_spec (h : Inv H m) :
    wp kalloc (fun pa m' => pa ≠ 0 ∧ Inv (pa :: H) m' ∧ Got m.k m'.k) Crash m := by
  rw [kalloc, wp_bind, wp_getK]
  cases hf : m.k.freelist with
  | cons pa rest =>
    obtain ⟨hinv, hgot⟩ := h.popFree hf (.fill 5)
    exact ⟨(hinv.mem.ram (o := .held) List.mem_cons_self).ne_zero, hinv, hgot⟩
  | nil =>
    refine wp_seq (evictPage_spec h) fun pa m' hpost => ?_
    have hne : pa ≠ 0 := (hpost.1.mem.ram (o := .held) List.mem_cons_self).ne_zero
    rw [if_pos hne]
    exact ⟨hne, hpost⟩

/-- The second attempt of the callers of `kalloc` is never made. -/
theorem allocOrEvict_spec (h : Inv H m) :
    wp allocOrEvict (fun pa m' => pa ≠ 0 ∧ Inv (pa :: H) m' ∧ Got m.k m'.k) Crash m := by
  rw [allocOrEvict]
  refine wp_seq (kalloc_spec h) fun pa m' hpost => ?_
  rw [if_neg hpost.1]
  exact hpost

/-- `frameIndex` of a page of RAM is a frame of the table. -/
theorem RamPage.frameIndex_lt {pa : ℕ} (h : RamPage pa) : frameIndex pa < nframes := by
  obtain ⟨-, h2, h3⟩ := h
  rw [frameIndex, nframes]
  have : pa - kernbase < phystop - kernbase := by omega
  exact Nat.div_lt_of_lt_mul (by rw [Nat.mul_div_cancel' (by decide)]; exact this)

theorem RamPage.eq_frame {pa : ℕ} (h : RamPage pa) : pa = kernbase + frameIndex pa * pgsize := by
  obtain ⟨h1, h2, -⟩ := h
  rw [frameIndex, pgsize] at *
  rw [kernbase] at *
  omega

@[simp] theorem Kernel.freed_toWorld (k : Kernel) (pa : ℕ) : (k.freed pa).toWorld = k.toWorld :=
  rfl

@[simp] theorem Kernel.freed_leaf (k : Kernel) (pa r v : ℕ) : (k.freed pa).leaf r v = k.leaf r v :=
  rfl

@[simp] theorem Kernel.freed_pt (k : Kernel) (pa : ℕ) : (k.freed pa).pt = k.pt := rfl

@[simp] theorem Kernel.freed_mem (k : Kernel) (pa : ℕ) :
    (k.freed pa).mem = Function.update k.mem pa (.fill 1) := rfl

theorem Kernel.freed_view (k : Kernel) (pa : ℕ) :
    (k.freed pa).view = (k.setMem pa (.fill 1)).view := by
  refine view_eq_of_sameView fun r _ v _ => Memory.lpage_congr (k.freed_leaf pa r v)
    (fun _ => ?_) fun _ => ?_
  · rw [Kernel.freed_mem, Kernel.setMem_mem]
  · rw [Kernel.freed_mem, Kernel.setMem_mem]

/-- `kfree` of a page of the allocator that is not free: what it does, and that the call goes
on record. -/
theorem run_kfree {pa : ℕ} (hpa : pa ∈ m.k.pages) (hk : kernbase ≤ m.k.kend) :
    (kfree pa).run m = .ok () ⟨m.k.freed pa, .kfree pa m.k :: m.calls⟩ := by
  have hram : RamPage pa := ⟨hpa.1, le_trans hk hpa.2.1, hpa.2.2⟩
  have hcond : ¬(pa % pgsize ≠ 0 ∨ pa < m.k.kend ∨ phystop ≤ pa) := by
    rintro (h1 | h1 | h1)
    · exact h1 hpa.1
    · exact absurd hpa.2.1 (by omega)
    · exact absurd hpa.2.2 (by omega)
  rw [kfree, run_bind_ok (run_record _ _), run_bind_ok (run_getK _), if_neg (by exact hcond),
    if_pos hram.frameIndex_lt, run_bind_ok (run_modK _ _)]
  rfl

theorem wp_kfree {pa : ℕ} (hpa : pa ∈ m.k.pages) (hk : kernbase ≤ m.k.kend)
    {Q : Unit → Machine → Prop} {E : Panic → Machine → Prop} :
    wp (kfree pa) Q E m ↔ Q () ⟨m.k.freed pa, .kfree pa m.k :: m.calls⟩ := by
  rw [wp, run_kfree hpa hk]

theorem LogOK.cons_kfree {calls : List Call} {k : Kernel} {pa : ℕ} (h : LogOK calls)
    (hpa : pa ∉ k.freelist) : LogOK (.kfree pa k :: calls) := by
  refine ⟨fun x k' hk => ?_, fun hq k' hk => ?_⟩
  · rcases List.mem_cons.mp hk with heq | hmem
    · cases heq
      exact hpa
    · exact h.kfree x k' hmem
  · rcases List.mem_cons.mp hk with heq | hmem
    · cases heq
    · exact h.agree hq.tail k' hmem

/-- The frame table after a page has been given up by `k'` and freed. -/
theorem FrameTable.freed {k k' : Kernel} {pa : ℕ} (h : FrameTable k) (hm : MemInv H k)
    (hram : RamPage pa) (hframes : k'.frames = k.frames)
    (hholds : ∀ p r, Holds k p r → Holds k' p r)
    (hleaf : ∀ r v, v < userTop → (k.leaf r v).has pteV = true → pte2pa (k.leaf r v) ≠ pa →
      (k'.leaf r v).has pteV = true ∧ pte2pa (k'.leaf r v) = pte2pa (k.leaf r v)) :
    FrameTable (k'.freed pa) := by
  have hused : ∀ i, ((k'.freed pa).frames i).isUsed = true →
      i ≠ frameIndex pa ∧ (k'.freed pa).frames i = k.frames i := by
    intro i hi
    rw [Kernel.freed, Kernel.setFree_frames, Kernel.setMem_frames, Kernel.setFrame_frames] at hi ⊢
    by_cases hij : i = frameIndex pa
    · subst hij
      simp [Frame.clear] at hi
    · rw [Function.update_of_ne hij] at hi ⊢
      exact ⟨hij, by rw [hframes]⟩
  refine h.mono hm.frame_va (fun i hi => ?_) hholds fun i r v hi hv hval hpa => ?_
  · rw [(hused i hi).2]
    exact ⟨rfl, rfl, rfl⟩
  · refine hleaf r v hv hval fun heq => (hused i hi).1 ?_
    rw [hram.eq_frame, hpa, pgsize] at heq
    omega

/-- **A page is given up and freed.** `k'` is the state without the page's old owner. -/
theorem Inv.freed {H' : List ℕ} {k' : Kernel} {pa : ℕ} (h : Inv H' m) (hmem : MemInv (pa :: H) k')
    (hnf : pa ∉ m.k.freelist) (hframes : k'.frames = m.k.frames)
    (hholds : ∀ p r, Holds m.k p r → Holds k' p r)
    (hleaf : ∀ r v, v < userTop → (m.k.leaf r v).has pteV = true → pte2pa (m.k.leaf r v) ≠ pa →
      (k'.leaf r v).has pteV = true ∧ pte2pa (k'.leaf r v) = pte2pa (m.k.leaf r v)) :
    Inv H ⟨k'.freed pa, .kfree pa m.k :: m.calls⟩ := by
  have hram : RamPage pa := hmem.ram (o := .held) List.mem_cons_self
  exact ⟨hmem.freed, h.log.cons_kfree hnf, fun hq =>
    (h.frames hq.tail).freed h.mem hram hframes hholds hleaf⟩

end Alloc

end Xv6
