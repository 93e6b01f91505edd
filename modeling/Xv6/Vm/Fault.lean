import Xv6.Vm.Free

/-!
# Page faults

A process sees a page below its size that has no entry as a page of zeros: `vmfault` makes
that page when it is first touched. `Kernel.umem` is memory as the process sees it, and a
page fault of a process leaves all of it, and every other process's pages, as they are
(`Served`). What differs from case to case is whether the faulting page is resident
afterwards.
-/

namespace Xv6

open StateLogic

/-! ### Memory as the process sees it -/

/-- The content of virtual page `v` for a process of size `sz`: pages below `sz` that were
never touched are zero. -/
def Kernel.umem (k : Kernel) (root sz v : ℕ) : Option LPage :=
  match k.view root v with
  | some lp => some lp
  | none => if v * pgsize < sz then some (newPage pteW) else none

section Umem

variable {k : Kernel} {root sz v : ℕ}

theorem Kernel.umem_of_view {lp : LPage} (h : k.view root v = some lp) :
    k.umem root sz v = some lp := by
  rw [Kernel.umem, h]

theorem Kernel.umem_of_none (h : k.view root v = none) :
    k.umem root sz v = if v * pgsize < sz then some (newPage pteW) else none := by
  rw [Kernel.umem, h]

/-- A page the process sees lies below its size or has an entry. -/
theorem Kernel.view_of_umem (h : k.umem root sz v ≠ none) (hsz : sz ≤ v * pgsize) :
    k.view root v ≠ none := by
  intro hnone
  rw [Kernel.umem_of_none hnone, if_neg (by omega)] at h
  exact h rfl

/-- A resident user page, as the view shows it. -/
theorem Kernel.view_of_valid (hv : v < userTop) (h : (k.leaf root v).has pteV = true) :
    k.view root v = some ⟨k.mem (pte2pa (k.leaf root v)), (k.leaf root v).perm⟩ := by
  rw [Kernel.view, if_pos hv, Memory.lpage_of_valid h]

end Umem

/-- The step from `m` to `m'` made or moved pages of the table rooted at `root` without the
process of size `sz` that owns it seeing a difference. -/
structure Served (H : List ℕ) (root sz : ℕ) (m m' : Machine) : Prop where
  inv : Inv H m'
  world : m'.k.toWorld = m.k.toWorld
  umem : ∀ v, m'.k.umem root sz v = m.k.umem root sz v
  view : ∀ r, r ≠ root → ∀ v, m'.k.view r v = m.k.view r v
  top : ∀ r v, userTop ≤ v → m'.k.leaf r v = m.k.leaf r v
  roots : ∀ r, (m'.k.pt r).isSome = (m.k.pt r).isSome
  safe : ∀ r, Safe m.k r → ∀ v, m'.k.leaf r v = m.k.leaf r v

section Served

variable {H : List ℕ} {root sz : ℕ} {m m₁ m₂ m₃ : Machine}

theorem Served.of_quiet (h : Inv H m₁) (hq : Quiet m.k m₁.k) : Served H root sz m m₁ :=
  ⟨h, hq.world, fun v => by rw [Kernel.umem, Kernel.umem, hq.view], fun r _ v => by rw [hq.view],
    hq.top, hq.roots, hq.safe⟩

theorem Served.refl (h : Inv H m) : Served H root sz m m := .of_quiet h (Quiet.refl _)

theorem Served.trans (h : Served H root sz m₁ m₂) (h' : Served H root sz m₂ m₃) :
    Served H root sz m₁ m₃ :=
  ⟨h'.inv, h'.world.trans h.world, fun v => (h'.umem v).trans (h.umem v),
    fun r hr v => (h'.view r hr v).trans (h.view r hr v),
    fun r v hv => (h'.top r v hv).trans (h.top r v hv),
    fun r => (h'.roots r).trans (h.roots r),
    fun r hr v => (h'.safe r (hr.congr h.world) v).trans (h.safe r hr v)⟩

/-- The pages that can appear lie below the size of the process. -/
theorem Served.lt_of_new (h : Served H root sz m m₁) {v : ℕ} (hnew : m₁.k.view root v ≠ none)
    (hold : m.k.view root v = none) : v * pgsize < sz := by
  by_contra hge
  obtain ⟨lp, hlp⟩ := Option.ne_none_iff_exists'.mp hnew
  have humem := h.umem v
  rw [Kernel.umem_of_view hlp, Kernel.umem_of_none hold, if_neg hge] at humem
  cases humem

/-- Counters and the frame table are not seen. -/
theorem Served.setStats (h : Served H root sz m m₁) (p : ℕ) (st : VmStats) :
    Served H root sz m ⟨m₁.k.setStats p st, m₁.calls⟩ :=
  h.trans (.of_quiet (h.inv.setStats p st) (Quiet.setStats _ p st))

end Served

/-! ### Swapping in -/

section Fault

variable {H : List ℕ} {m : Machine} {root va v : ℕ}

/-- The entry of a page that has just been made resident is registered. -/
theorem Served.register {sz mem : ℕ} {m₁ : Machine} (h : Served H root sz m m₁)
    (hroot : (m.k.proc m.k.cur).pagetable = root) (halign : va % pgsize = 0)
    (hva : va < trapframeVa) (hval : (m₁.k.leaf root (va / pgsize)).has pteV = true)
    (hpa : pte2pa (m₁.k.leaf root (va / pgsize)) = mem) :
    Served H root sz m
      ⟨m₁.k.setFrame (frameIndex mem) ⟨true, some m.k.cur, va, true⟩, m₁.calls⟩ := by
  have hold : Holds m₁.k m.k.cur root := Or.inl (by rw [h.world]; exact hroot)
  refine h.trans (.of_quiet (h.inv.register hold halign hva hval hpa) ?_)
  exact Quiet.of_pt rfl rfl (view_congr (fun _ _ => rfl) (Kernel.setFrame_mem _ _ _))

/-- A swapped-out page is made resident in the held page `mem`. -/
theorem Inv.swappedIn {mem : ℕ} (h : Inv (mem :: H) m) (hv : v < userTop)
    (hs : (m.k.leaf root v).swapped = true) : Inv H ⟨m.k.swappedIn root v mem, m.calls⟩ := by
  have hent := Memory.hasEntry_of_leaf (Pte.ne_zero_of_swapped hs)
  have hram := (h.mem.fresh List.mem_cons_self).ram
  have hmem := h.mem.swapInLeaf hv hs (swappedInPte_valid (m.k.leaf root v) mem)
    (swappedInPte_S _ _) (pte2pa_swappedInPte _ hram.pageAddr)
  refine ⟨?_, h.log, fun hq => ?_⟩
  · refine hmem.congr ?_ ?_ ?_ ?_ ?_ (fun p => ?_) (fun x => ?_) ?_ ?_ <;>
      simp only [Kernel.swappedIn, Kernel.setLeaf_toWorld, Kernel.setLeaf_freelist,
        Kernel.setLeaf_swapMask, Kernel.setLeaf_frames, Kernel.setSlot_toWorld,
        Kernel.setSlot_freelist, Kernel.setSlot_swapMask, Kernel.setSlot_frames,
        Kernel.setMem_toWorld, Kernel.setMem_freelist, Kernel.setMem_swapMask,
        Kernel.setMem_frames]
    · funext r
      rw [Kernel.setSlot_pt, Kernel.setLeaf_pt, Kernel.setLeaf_pt]
      rfl
    · exact h.mem.frame_va
  · refine (h.frames hq).mono h.mem.frame_va
      (fun i _ => by simp only [Kernel.swappedIn, Kernel.setLeaf_frames]; exact ⟨rfl, rfl, rfl⟩)
      (fun p r hh => by rw [Holds, Kernel.swappedIn, Kernel.setLeaf_toWorld]; exact hh) ?_
    intro i r u _ _ hV _
    rw [Kernel.swappedIn_leaf hs, if_neg]
    · exact ⟨hV, rfl⟩
    · rintro ⟨rfl, rfl⟩
      rw [Pte.not_valid_of_swapped hs] at hV
      cases hV

/-- Obtaining a page and swapping into it is not seen. -/
theorem Quiet.served_swappedIn {sz mem : ℕ} {m₁ : Machine} (hq : Quiet m.k m₁.k)
    (h1 : Inv (mem :: H) m₁) (hroot : (m.k.proc m.k.cur).pagetable = root) (hv : v < userTop)
    (hs : (m₁.k.leaf root v).swapped = true) :
    Served H root sz m ⟨m₁.k.swappedIn root v mem, m₁.calls⟩ := by
  have hview : (m₁.k.swappedIn root v mem).view = m.k.view :=
    (view_eq_of_sameView ((h1.mem.fresh List.mem_cons_self).swappedIn_sameView hs)).trans hq.view
  refine ⟨h1.swappedIn hv hs, ?_, fun u => ?_, fun r _ u => by rw [hview], fun r u hu => ?_,
    fun r => ?_, fun r hr u => ?_⟩
  · rw [Kernel.swappedIn, Kernel.setLeaf_toWorld]
    exact hq.world
  · rw [Kernel.umem, Kernel.umem, hview]
  · rw [Kernel.swappedIn_leaf hs, if_neg (by omega), hq.top r u hu]
  · rw [Kernel.swappedIn, Kernel.setLeaf_roots]
    exact hq.roots r
  · rw [Kernel.swappedIn_leaf hs, if_neg, hq.safe r hr u]
    rintro ⟨rfl, -⟩
    exact hr.ne_cur hroot

theorem swapIn_spec (h : Inv H m) (hroot : (m.k.proc m.k.cur).pagetable = root)
    (halign : va % pgsize = 0) (hva : va < trapframeVa) (hdiv : va / pgsize = v)
    (hs : (m.k.leaf root v).swapped = true) (sz : ℕ) :
    wp (swapIn root va v) (fun pa m' => pa ≠ 0 ∧ Served H root sz m m' ∧
      (m'.k.leaf root v).has pteV = true ∧ pte2pa (m'.k.leaf root v) = pa) Crash m := by
  subst hdiv
  have hv : va / pgsize < userTop :=
    Nat.div_lt_of_lt_mul (by rw [userTop, Nat.mul_div_cancel' (by decide)]; exact hva)
  rw [swapIn]
  simp only [wp_bind, wp_myproc, wp_loadPte]
  refine wp_mono (allocOrEvict_spec h) ?_ fun _ _ he => he
  rintro mem m₁ ⟨hne, h1, hgot⟩
  have hleaf := hgot.quiet.keep root (va / pgsize) (Pte.not_valid_of_swapped hs)
  rw [← hleaf] at hs ⊢
  have hram := (h1.mem.fresh List.mem_cons_self).ram
  have hent := Memory.hasEntry_of_leaf (Pte.ne_zero_of_swapped hs)
  simp only [wp_ite, wp_throw, wp_bind, wp_modK, freeSwapIndex, wp_loadPte, wp_storePte]
  refine ⟨fun h0 => absurd h0 hne, fun _ => ?_⟩
  have hfold : ((m₁.k.setMem mem (m₁.k.mem (getSwapAddr
      (swapIndex (m₁.k.leaf root (va / pgsize)))))).setSlot (swapIndex (m₁.k.leaf root
        (va / pgsize))) false).setLeaf root (va / pgsize)
          (swappedInPte (m₁.k.leaf root (va / pgsize)) mem) =
      m₁.k.swappedIn root (va / pgsize) mem := rfl
  simp only [Kernel.setSlot_leaf, Kernel.setMem_leaf, hfold, Kernel.setStats_leaf]
  have hleaf' : (m₁.k.swappedIn root (va / pgsize) mem).leaf root (va / pgsize) =
      swappedInPte (m₁.k.leaf root (va / pgsize)) mem := by
    rw [Kernel.swappedIn_leaf hs, if_pos ⟨rfl, rfl⟩]
  have hval := swappedInPte_valid (m₁.k.leaf root (va / pgsize)) mem
  rw [hleaf']
  refine ⟨fun h0 => absurd h0 (Pte.ne_zero_of_valid hval), fun _ => ⟨hne, ?_, ?_⟩⟩
  · have hserved : Served H root sz m ⟨m₁.k.swappedIn root (va / pgsize) mem, m₁.calls⟩ :=
      hgot.quiet.served_swappedIn h1 hroot hv hs
    exact (hserved.setStats _ _).register hroot halign hva
      (by rw [Kernel.setStats_leaf, hleaf']; exact hval)
      (by rw [Kernel.setStats_leaf, hleaf']; exact pte2pa_swappedInPte _ hram.pageAddr)
  · rw [Kernel.setFrame_leaf, Kernel.setStats_leaf, hleaf']
    exact ⟨hval, pte2pa_swappedInPte _ hram.pageAddr⟩

/-! ### Lazy allocation -/

/-- Making the zero page a process saw already. -/
theorem Served.lazyPage {sz : ℕ} {m' : Machine} (h : Inv H m')
    (hroot : (m.k.proc m.k.cur).pagetable = root)
    (hnone : m.k.view root v = none) (hsz : v * pgsize < sz)
    (heff : Eff m.k m'.k (View.set m.k.view root v (some (newPage pteW))))
    (hdet : ∀ r, Safe m.k r → ∀ u, ¬(r = root ∧ u = v) →
      m'.k.leaf r u = m.k.leaf r u) : Served H root sz m m' := by
  refine ⟨h, heff.world, fun u => ?_, fun r hr u => ?_, heff.top, heff.roots,
    fun r hr u => hdet r hr u ?_⟩
  · rw [Kernel.umem, Kernel.umem, heff.view, View.set]
    by_cases hu : u = v
    · subst hu
      rw [if_pos ⟨rfl, rfl⟩, hnone]
      exact (if_pos hsz).symm
    · rw [if_neg (by simp [hu])]
  · rw [heff.view, View.set, if_neg (by simp [hr])]
  · rintro ⟨rfl, -⟩
    exact hr.ne_cur hroot

theorem ismapped_spec (h : Inv H m) :
    wp (ismapped root va) (fun b m' => m' = m ∧ b = (m.k.leaf root (va / pgsize)).has pteV)
      Crash m := by
  rw [ismapped]
  refine wp_seq (walk_false_spec fun _ => h.log) ?_
  rintro o m₁ ⟨rfl, -, ⟨rfl, hleaf, -⟩ | ⟨rfl, -⟩⟩
  · rw [hleaf]
    exact ⟨rfl, by decide⟩
  · exact ⟨rfl, rfl⟩

theorem lazyAlloc_spec {sz : ℕ} (h : Inv H m) (hroot : (m.k.proc m.k.cur).pagetable = root)
    (halign : va % pgsize = 0) (hva : va < sz) (hsz : sz ≤ trapframeVa)
    (hdiv : va / pgsize = v) (hS : (m.k.leaf root v).has pteS = false) :
    wp (lazyAlloc root va v) (fun pa m' =>
      (pa = 0 ∧ m' = m ∧ (m.k.leaf root v).has pteV = true) ∨
      (pa ≠ 0 ∧ (m.k.leaf root v).has pteV = false ∧ Served H root sz m m' ∧
        (m'.k.leaf root v).has pteV = true ∧ pte2pa (m'.k.leaf root v) = pa)) Crash m := by
  subst hdiv
  have hva' : va < trapframeVa := lt_of_lt_of_le hva hsz
  have hv : va / pgsize < userTop :=
    Nat.div_lt_of_lt_mul (by rw [userTop, Nat.mul_div_cancel' (by decide)]; exact hva')
  rw [lazyAlloc]
  simp only [wp_bind, wp_myproc]
  refine wp_mono (ismapped_spec h) ?_ fun _ _ he => he
  rintro b m₁ ⟨rfl, rfl⟩
  rw [wp_ite]
  refine ⟨fun hval => Or.inl ⟨rfl, rfl, hval⟩, fun hval => ?_⟩
  rw [Bool.not_eq_true] at hval
  simp only [wp_bind]
  refine wp_mono (allocOrEvict_spec h) ?_ fun _ _ he => he
  rintro mem m₂ ⟨hne, h2, hgot⟩
  rw [wp_ite]
  refine ⟨fun h0 => absurd h0 hne, fun _ => ?_⟩
  simp only [wp_bind, wp_modK, countResident, wp_getK, Kernel.setStats_toWorld,
    Kernel.setMem_toWorld, hgot.quiet.world, hroot]
  have hram := (h2.mem.fresh List.mem_cons_self).ram
  have hq₃ := hgot.quiet.trans ((h2.quiet_setMem List.mem_cons_self (.fill 0)).trans
    (Quiet.setStats _ m₁.k.cur { (m₂.k.setMem mem (.fill 0)).vmstats m₁.k.cur with
      residentPages := ((m₂.k.setMem mem (.fill 0)).vmstats m₁.k.cur).residentPages + 1 }))
  have hnone := (Kernel.view_eq_none_iff hv).mpr ⟨hval, hS⟩
  refine wp_mono (mappages_spec ((h2.setMem mem (.fill 0)).setStats _ _) hv
    (by rw [hq₃.view]; exact hnone) (by decide) (by decide)) ?_ fun _ _ he => he
  rintro st m₄ ⟨rfl, -, h4, heff, hleaf, hdet⟩
  simp only [ne_eq, not_true_eq_false, if_false, wp_bind, wp_loadPte, wp_ite, register, wp_modK]
  have hval₄ : (m₄.k.leaf root (va / pgsize)).has pteV = true := by
    rw [hleaf]
    exact mappedPte_valid _ _
  have hpa₄ : pte2pa (m₄.k.leaf root (va / pgsize)) = mem := by
    rw [hleaf]
    exact pte2pa_mappedPte hram.pageAddr (by decide)
  refine ⟨fun h0 => absurd h0 (Pte.ne_zero_of_valid hval₄), fun _ => Or.inr ⟨hne, hval, ?_, ?_⟩⟩
  · have hpage : (⟨((m₂.k.setMem mem (.fill 0)).setStats m₁.k.cur
        { (m₂.k.setMem mem (.fill 0)).vmstats m₁.k.cur with
          residentPages := ((m₂.k.setMem mem (.fill 0)).vmstats m₁.k.cur).residentPages + 1 }).mem
            mem, (pteW ||| pteU ||| pteR).perm⟩ : LPage) = newPage pteW := by
      rw [Kernel.setStats_mem, Kernel.setMem_mem, Function.update_self, newPage]
      rfl
    rw [hpage, hq₃.view] at heff
    have hserved : Served H root sz m₁ m₄ :=
      .lazyPage h4 hroot hnone (lt_of_le_of_lt (Nat.div_mul_le_self va pgsize) hva)
        (hq₃.eff.trans heff) fun r hr u hu =>
          (hdet r (hr.congr hq₃.world) u hu).trans (hq₃.safe r hr u)
    exact hserved.register hroot halign hva' hval₄ hpa₄
  · rw [Kernel.setFrame_leaf]
    exact ⟨hval₄, hpa₄⟩

/-- **Specification of `vmfault`** for the current process: it fails beyond the size of the
process and on a resident page, and otherwise makes the page resident. -/
theorem vmfault_spec {sz : ℕ} (h : Inv H m) (hroot : (m.k.proc m.k.cur).pagetable = root)
    (hsz : (m.k.proc m.k.cur).sz = sz) (hle : sz ≤ trapframeVa) :
    wp (vmfault root va) (fun pa m' => Served H root sz m m' ∧
      ((pa = 0 ∧ (sz ≤ va ∨ (m.k.leaf root (va / pgsize)).has pteV = true) ∧
          ∀ r u, m'.k.leaf r u = m.k.leaf r u) ∨
        (pa ≠ 0 ∧ va < sz ∧ (m.k.leaf root (va / pgsize)).has pteV = false ∧
          (m'.k.leaf root (va / pgsize)).has pteV = true ∧
          pte2pa (m'.k.leaf root (va / pgsize)) = pa))) Crash m := by
  rw [vmfault]
  simp only [wp_bind, wp_myproc, wp_modK, wp_getK, wp_ite, Kernel.setStats_toWorld, hsz]
  have hst := fun st => (@Served.refl _ root sz _ h).setStats m.k.cur st
  refine ⟨fun hge => ⟨hst _, Or.inl ⟨rfl, Or.inl hge, fun _ _ => rfl⟩⟩, fun hlt => ?_⟩
  rw [Nat.not_le] at hlt
  have halign : pgrounddown va % pgsize = 0 := Nat.mul_mod_left _ _
  have hva := lt_of_le_of_lt (pgrounddown_le va) hlt
  have hdiv := pgrounddown_div va
  cases hval : (m.k.leaf root (va / pgsize)).has pteV with
  | true =>
    -- the walk finds the resident entry and allocates nothing
    have hent := Memory.hasEntry_of_leaf (Pte.ne_zero_of_valid hval)
    have hmax : pgrounddown va < maxva :=
      lt_of_lt_of_le hva (le_trans hle (by decide))
    refine wp_of_ok (run_walk_entry true hmax (by rw [hdiv]; exact hent)) ?_
    have hS := h.mem.excl root (va / pgsize) hval
    rw [hdiv]
    simp only [wp_bind, wp_loadPte, Kernel.setStats_leaf, hS, wp_ite]
    refine ⟨fun hf => absurd hf (by decide), fun _ => ?_⟩
    refine wp_mono (lazyAlloc_spec (hst _).inv hroot halign hva hle hdiv hS) ?_ fun _ _ he => he
    rintro pa m₁ (⟨rfl, rfl, -⟩ | ⟨-, hno, -⟩)
    · exact ⟨hst _, Or.inl ⟨rfl, Or.inr trivial, fun _ _ => rfl⟩⟩
    · rw [Kernel.setStats_leaf, hval] at hno
      cases hno
  | false =>
    refine wp_mono (walk_spec (hst _).inv) ?_ fun _ _ he => he
    rintro o m₁ ⟨rfl, -, hw, hent⟩
    have hleaf : m₁.k.leaf root (va / pgsize) = m.k.leaf root (va / pgsize) :=
      hw.quiet.keep root (va / pgsize) hval
    have hserved := (hst _).trans (@Served.of_quiet _ root sz _ _ hw.inv hw.quiet)
    have hroot₁ : (m₁.k.proc m₁.k.cur).pagetable = root := by
      rw [hserved.world]
      exact hroot
    rw [hdiv]
    simp only [wp_bind, wp_loadPte, wp_ite]
    refine ⟨fun hS => ?_, fun hS => ?_⟩
    · have hs : (m₁.k.leaf root (va / pgsize)).swapped = true := by
        rw [Pte.swapped, hS, hleaf, hval]
        rfl
      refine wp_mono (swapIn_spec hw.inv hroot₁ halign (lt_of_lt_of_le hva hle) hdiv hs sz) ?_
        fun _ _ he => he
      rintro pa m₂ ⟨hne, h2, hV, hpa⟩
      exact ⟨hserved.trans h2, Or.inr ⟨hne, hlt, trivial, hV, hpa⟩⟩
    · rw [Bool.not_eq_true] at hS
      refine wp_mono (lazyAlloc_spec hw.inv hroot₁ halign hva hle hdiv hS) ?_ fun _ _ he => he
      rintro pa m₂ (⟨-, -, hyes⟩ | ⟨hne, -, h2, hV, hpa⟩)
      · rw [hleaf, hval] at hyes
        cases hyes
      · exact ⟨hserved.trans h2, Or.inr ⟨hne, hlt, trivial, hV, hpa⟩⟩

end Fault

end Xv6
