import Xv6.Vm.Space

/-!
# Freeing page tables

`freewalk` gives the nodes of a table back, from the leaves up. It stops the kernel at a
resident entry and passes over swapped-out ones, so a table may be freed only after both
kinds are gone; `uvmfree` and `proc_freepagetable` see to that. Their specifications say
that the table is gone, its pages are free and nothing else has changed.
-/

namespace Xv6

open StateLogic

section Freewalk

variable {H : List ℕ} {m : Machine} {root i j pg n : ℕ} {t t' : PageTable}

/-- The step from `m` to `m'` gave back nodes of the table rooted at `root`. -/
structure Torn (H : List ℕ) (root : ℕ) (m m' : Machine) : Prop where
  inv : Inv H m'
  world : m'.k.toWorld = m.k.toWorld
  view : m'.k.view = m.k.view
  others : ∀ r, r ≠ root → m'.k.pt r = m.k.pt r
  swapped : ∀ u, (m'.k.leaf root u).swapped = true → (m.k.leaf root u).swapped = true
  valid : ∀ u, (m'.k.leaf root u).has pteV = true → (m.k.leaf root u).has pteV = true

theorem Torn.refl (h : Inv H m) : Torn H root m m :=
  ⟨h, rfl, rfl, fun _ _ => rfl, fun _ hs => hs, fun _ hV => hV⟩

theorem Torn.trans {m₁ m₂ m₃ : Machine} (h : Torn H root m₁ m₂) (h' : Torn H root m₂ m₃) :
    Torn H root m₁ m₃ :=
  ⟨h'.inv, h'.world.trans h.world, h'.view.trans h.view,
    fun r hr => (h'.others r hr).trans (h.others r hr), fun u hs => h.swapped u (h'.swapped u hs),
    fun u hV => h.valid u (h'.valid u hV)⟩

/-- `freewalk` stops the kernel only at an entry that is resident. -/
def AtLeaf (root : ℕ) (m : Machine) : Panic → Machine → Prop := fun e m' =>
  Crash e m' ∧ ∃ u, (m.k.leaf root u).has pteV = true

theorem Torn.atLeaf {m₁ m' : Machine} {e : Panic} (h : Torn H root m m₁)
    (he : AtLeaf root m₁ e m') : AtLeaf root m e m' :=
  ⟨he.1, he.2.imp fun u hV => h.valid u hV⟩

/-- No entry is swapped out by freeing nodes. -/
theorem Torn.noSwap {m' : Machine} (h : Torn H root m m')
    (hs : ∀ u, (m.k.leaf root u).swapped = false) (u : ℕ) :
    (m'.k.leaf root u).swapped = false :=
  Bool.eq_false_iff.mpr fun hsw => Bool.eq_false_iff.mp (hs u) (h.swapped u hsw)

/-- The view depends on the leaf entries and the bytes of memory. -/
theorem view_congr {k k' : Kernel} (hleaf : ∀ r v, k'.leaf r v = k.leaf r v)
    (hmem : k'.mem = k.mem) : k'.view = k.view := by
  funext r v
  simp only [Kernel.view]
  split_ifs
  · exact Memory.lpage_congr (hleaf r v) (fun _ => by rw [hmem]) fun _ => by rw [hmem]
  · rfl

/-- Only live entries are seen. -/
theorem LiveEq.view_eq {k : Kernel} {r : ℕ} (ht : k.pt r = some t) (hl : t.LiveEq t') :
    (k.setPt r (some t')).view = k.view := by
  funext r' v
  obtain ⟨hV, hVeq⟩ := LiveEq.valid_iff ht hl r' v
  obtain ⟨hS, hSeq⟩ := LiveEq.swapped_iff ht hl r' v
  simp only [Kernel.view]
  split_ifs
  · cases hval : (k.leaf r' v).has pteV with
    | true => exact Memory.lpage_congr (hVeq hval) (fun _ => rfl) fun _ => rfl
    | false =>
      cases hsw : (k.leaf r' v).swapped with
      | true => exact Memory.lpage_congr (hSeq hsw) (fun _ => rfl) fun _ => rfl
      | false =>
        rw [hval] at hV
        rw [hsw] at hS
        simp only [Pte.swapped, hval, hV, Bool.not_false, Bool.and_true] at hsw hS
        simp [Memory.lpage, hval, hV, hsw, hS]
  · rfl

/-- One node is freed and the entry that led to it cleared. -/
theorem Torn.drop {o : Owner} (h : Inv H m) (ht : m.k.pt root = some t) (hl : t.LiveEq t')
    (ho : pg ∈ m.k.own H o) (hof : o ≠ .free)
    (hmem : MemInv (pg :: H) (m.k.setPt root (some t'))) :
    Torn H root m ⟨(m.k.freed pg).setPt root (some t'), .kfree pg m.k :: m.calls⟩ := by
  have hcomm : (m.k.freed pg).setPt root (some t') = (m.k.setPt root (some t')).freed pg := rfl
  rw [hcomm]
  refine ⟨?_, rfl, ?_, fun r hr => ?_, fun u hs => ?_, fun u hV => ?_⟩
  · refine h.freed hmem (h.mem.not_free ho hof) rfl (fun p r hh => hh) fun r v _ hV _ => ?_
    obtain ⟨hval, heq⟩ := LiveEq.valid_iff ht hl r v
    rw [heq hV]
    exact ⟨hV, rfl⟩
  · rw [Kernel.freed_view, (hmem.fresh List.mem_cons_self).view_setMem, LiveEq.view_eq ht hl]
  · rw [Kernel.freed_pt, Kernel.setPt_pt, Function.update_of_ne hr]
  · rw [Kernel.freed_leaf, (LiveEq.swapped_iff ht hl root u).1] at hs
    exact hs
  · rw [Kernel.freed_leaf, (LiveEq.valid_iff ht hl root u).1] at hV
    exact hV

/-- `freewalk` of a level-0 table, which must have no swapped-out entry. -/
theorem freewalkLow_spec (h : Inv H m) (ht : m.k.pt root = some t) (hlow : t.low j = some pg)
    (hs : ∀ u, (m.k.leaf root u).swapped = false) :
    wp (freewalkLow root j pg) (fun _ m' => Torn H root m m' ∧
      ∃ t', m'.k.pt root = some t' ∧ t'.mid = t.mid ∧ t'.low = Function.update t.low j none)
      (AtLeaf root m) m := by
  unfold freewalkLow
  rw [wp_bind, wp_getK]
  cases hfind : (List.range 512).find? fun i => (m.k.leaf root (512 * j + i)).has pteV with
  | some i =>
    have hV := List.find?_some hfind
    simp only [wp_ite, wp_throw]
    exact ⟨fun _ => ⟨h.log, _, hV⟩, fun _ => ⟨h.log, _, hV⟩⟩
  | none =>
    have hdead : ∀ u, u / 512 = j → (t.leaf u).has pteV = false ∧ (t.leaf u).has pteS = false := by
      intro u hu
      have hV := List.find?_eq_none.mp hfind (u % 512) (List.mem_range.mpr (by omega))
      rw [← hu, Nat.div_add_mod, Memory.leaf_eq ht, Bool.not_eq_true] at hV
      have hsw := hs u
      rw [Memory.leaf_eq ht, Pte.swapped, hV] at hsw
      exact ⟨hV, by simpa using hsw⟩
    have hl : t.LiveEq (t.dropLow j) := by
      intro u
      by_cases hu : u / 512 = j
      · exact Or.inr ⟨if_pos hu, hdead u hu⟩
      · exact Or.inl (if_neg hu)
    have ho : pg ∈ m.k.own H (.low root j) := ⟨t, ht, hlow⟩
    have htorn := Torn.drop h ht hl ho (by simp) (h.mem.dropLow ht hlow hdead)
    simp only [wp_bind, wp_kfree (h.mem.own.sub _ _ ho) h.mem.kend_le]
    refine wp_of_ok (run_table (by rw [Kernel.freed_pt]; exact ht)) ?_
    exact ⟨htorn, t.dropLow j, by simp, rfl, rfl⟩

/-- The loop over a level-1 table removes the level-0 tables it passes. -/
theorem freewalkMidLoop_spec (hn : n ≤ 512) (h : Inv H m) (ht : m.k.pt root = some t)
    (hs : ∀ u, (m.k.leaf root u).swapped = false) :
    wp (freewalkMidLoop root i n) (fun _ m' => Torn H root m m' ∧
      ∃ t', m'.k.pt root = some t' ∧ t'.mid = t.mid ∧ ∀ j, t'.low j =
        if 512 * i + (512 - n) ≤ j ∧ j < 512 * i + 512 then none else t.low j)
      (AtLeaf root m) m := by
  induction n generalizing m t with
  | zero =>
    refine ⟨Torn.refl h, t, ht, rfl, fun j => ?_⟩
    rw [if_neg (by omega)]
  | succ n ih =>
    rw [freewalkMidLoop, wp_bind]
    refine wp_of_ok (run_table ht) ?_
    have hrest : ∀ m₁, (Torn H root m m₁ ∧ ∃ t', m₁.k.pt root = some t' ∧ t'.mid = t.mid ∧
        t'.low = Function.update t.low (512 * i + (511 - n)) none) →
        wp (freewalkMidLoop root i n) (fun _ m' => Torn H root m m' ∧
          ∃ t', m'.k.pt root = some t' ∧ t'.mid = t.mid ∧ ∀ j, t'.low j =
            if 512 * i + (512 - (n + 1)) ≤ j ∧ j < 512 * i + 512 then none else t.low j)
          (AtLeaf root m) m₁ := by
      rintro m₁ ⟨h1, t₁, ht₁, hmid₁, hlow₁⟩
      refine wp_mono (ih (by omega) h1.inv ht₁ (h1.noSwap hs)) ?_ fun _ _ => h1.atLeaf
      rintro - m₂ ⟨h2, t₂, ht₂, hmid₂, hlow₂⟩
      refine ⟨h1.trans h2, t₂, ht₂, hmid₂.trans hmid₁, fun j => ?_⟩
      rw [hlow₂, hlow₁, Function.update_apply]
      split_ifs <;> first | rfl | omega
    cases hlow : t.low (512 * i + (511 - n)) with
    | some pg =>
      simp only [hlow]
      exact wp_seq (freewalkLow_spec h ht hlow hs) fun _ => hrest
    | none =>
      simp only [hlow]
      exact hrest m ⟨Torn.refl h, t, ht, rfl, (Function.update_eq_self_iff.mpr hlow.symm).symm⟩

theorem freewalkMid_spec (h : Inv H m) (ht : m.k.pt root = some t) (hmid : t.mid i = some pg)
    (hs : ∀ u, (m.k.leaf root u).swapped = false) :
    wp (freewalkMid root i pg) (fun _ m' => Torn H root m m' ∧
      ∃ t', m'.k.pt root = some t' ∧ t'.mid = Function.update t.mid i none) (AtLeaf root m) m := by
  rw [freewalkMid]
  refine wp_seq (freewalkMidLoop_spec le_rfl h ht hs) ?_
  rintro - m₁ ⟨h1, t₁, ht₁, hmid₁, hlow₁⟩
  have hempty : ∀ j, j / 512 = i → t₁.low j = none := by
    intro j hj
    rw [hlow₁, if_pos (by omega)]
  have hmid' : t₁.mid i = some pg := by rw [hmid₁, hmid]
  have hl : t₁.LiveEq (t₁.dropMid i) := by
    intro u
    by_cases hu : u / 512 / 512 = i
    · have hz : t₁.leaf u = 0 := by
        by_contra hne
        have hsome := t₁.low_of_leaf u hne
        rw [hempty _ hu] at hsome
        cases hsome
      exact Or.inl ((if_pos hu).trans hz.symm)
    · exact Or.inl (if_neg hu)
  have ho : pg ∈ m₁.k.own H (.mid root i) := ⟨t₁, ht₁, hmid'⟩
  have htorn := Torn.drop h1.inv ht₁ hl ho (by simp) (h1.inv.mem.dropMid ht₁ hmid' hempty)
  simp only [wp_bind, wp_kfree (h1.inv.mem.own.sub _ _ ho) h1.inv.mem.kend_le]
  refine wp_of_ok (run_table (by rw [Kernel.freed_pt]; exact ht₁)) ?_
  exact ⟨h1.trans htorn, t₁.dropMid i, by simp, by rw [← hmid₁]; rfl⟩

theorem freewalkLoop_spec (hn : n ≤ 512) (h : Inv H m) (ht : m.k.pt root = some t)
    (hs : ∀ u, (m.k.leaf root u).swapped = false) :
    wp (freewalkLoop root n) (fun _ m' => Torn H root m m' ∧
      ∃ t', m'.k.pt root = some t' ∧ ∀ i, t'.mid i =
        if 512 - n ≤ i ∧ i < 512 then none else t.mid i) (AtLeaf root m) m := by
  induction n generalizing m t with
  | zero =>
    refine ⟨Torn.refl h, t, ht, fun i => ?_⟩
    rw [if_neg (by omega)]
  | succ n ih =>
    rw [freewalkLoop, wp_bind]
    refine wp_of_ok (run_table ht) ?_
    have hrest : ∀ m₁, (Torn H root m m₁ ∧ ∃ t', m₁.k.pt root = some t' ∧
        t'.mid = Function.update t.mid (511 - n) none) →
        wp (freewalkLoop root n) (fun _ m' => Torn H root m m' ∧ ∃ t', m'.k.pt root = some t' ∧
          ∀ i, t'.mid i = if 512 - (n + 1) ≤ i ∧ i < 512 then none else t.mid i)
          (AtLeaf root m) m₁ := by
      rintro m₁ ⟨h1, t₁, ht₁, hmid₁⟩
      refine wp_mono (ih (by omega) h1.inv ht₁ (h1.noSwap hs)) ?_ fun _ _ => h1.atLeaf
      rintro - m₂ ⟨h2, t₂, ht₂, hmid₂⟩
      refine ⟨h1.trans h2, t₂, ht₂, fun i => ?_⟩
      rw [hmid₂, hmid₁, Function.update_apply]
      split_ifs <;> first | rfl | omega
    cases hmid : t.mid (511 - n) with
    | some pg =>
      simp only [hmid]
      exact wp_seq (freewalkMid_spec h ht hmid hs) fun _ => hrest
    | none =>
      simp only [hmid]
      exact hrest m ⟨Torn.refl h, t, ht, (Function.update_eq_self_iff.mpr hmid.symm).symm⟩

/-- The step from `m` to `m'` removed the table rooted at `root` and everything it owned. -/
structure Gone (H : List ℕ) (root : ℕ) (m m' : Machine) : Prop where
  inv : Inv H m'
  world : m'.k.toWorld = m.k.toWorld
  view : ∀ r v, m'.k.view r v = if r = root then none else m.k.view r v
  gone : m'.k.pt root = none
  others : ∀ r, r ≠ root → m'.k.pt r = m.k.pt r

theorem Gone.roots {m' : Machine} (h : Gone H root m m') (r : ℕ) (hr : r ≠ root) :
    (m'.k.pt r).isSome = (m.k.pt r).isSome := by
  rw [h.others r hr]

theorem Gone.leaf {m' : Machine} (h : Gone H root m m') (r : ℕ) (hr : r ≠ root) (v : ℕ) :
    m'.k.leaf r v = m.k.leaf r v := by
  rw [Memory.leaf, Memory.leaf, h.others r hr]

/-- **Specification of `freewalk`** of a table without swapped-out entries. -/
theorem freewalk_spec (h : Inv H m) (hroot : (m.k.pt root).isSome)
    (hs : ∀ u, (m.k.leaf root u).swapped = false) :
    wp (freewalk root) (fun _ m' => Gone H root m m') (AtLeaf root m) m := by
  obtain ⟨t, ht⟩ := Option.isSome_iff_exists.mp hroot
  rw [freewalk]
  refine wp_seq (freewalkLoop_spec le_rfl h ht hs) ?_
  rintro - m₁ ⟨h1, t₁, ht₁, hmid₁⟩
  have hmid : ∀ i, t₁.mid i = none := by
    intro i
    by_contra hne
    have hlt := t₁.mid_lt i (Option.isSome_iff_ne_none.mpr hne)
    rw [hmid₁, if_pos (by omega)] at hne
    exact hne rfl
  have hzero : ∀ t, m₁.k.pt root = some t → ∀ v, t.leaf v = 0 := by
    intro t' ht' v
    obtain rfl : t₁ = t' := Option.some.inj (ht₁.symm.trans ht')
    by_contra hne
    have hsome := t₁.mid_of_low _ (t₁.low_of_leaf v hne)
    rw [hmid] at hsome
    cases hsome
  have hleaf : ∀ r v, (m₁.k.setPt root none).leaf r v = m₁.k.leaf r v :=
    leaf_setPt_dead hzero (by simp)
  have ho : root ∈ m₁.k.own H (.root root) := ⟨by rw [ht₁]; rfl, rfl⟩
  have hmem := h1.inv.mem.dropRoot ht₁ hmid
  simp only [wp_bind, wp_kfree (h1.inv.mem.own.sub _ _ ho) h1.inv.mem.kend_le, wp_modK]
  have hcomm : (m₁.k.freed root).setPt root none = (m₁.k.setPt root none).freed root := rfl
  rw [hcomm]
  refine ⟨?_, h1.world, fun r v => ?_, by simp, fun r hr => ?_⟩
  · refine h1.inv.freed hmem (h1.inv.mem.not_free ho (by simp)) rfl
      (fun p r hh => hh) fun r v _ hV _ => ?_
    rw [hleaf]
    exact ⟨hV, rfl⟩
  · have hview : ((m₁.k.setPt root none).freed root).view r v = m.k.view r v := by
      rw [Kernel.freed_view, (hmem.fresh List.mem_cons_self).view_setMem, ← h1.view,
        view_congr hleaf (Kernel.setPt_mem _ _ _)]
    rw [hview]
    split_ifs with hr
    · subst hr
      rw [← h1.view]
      by_cases hv : v < userTop
      · refine (Kernel.view_eq_none_iff hv).mpr ?_
        rw [Memory.leaf_eq ht₁, hzero t₁ ht₁]
        decide
      · exact if_neg hv
    · rfl
  · rw [Kernel.freed_pt, Kernel.setPt_pt, Function.update_of_ne hr, h1.others r hr]

end Freewalk

/-! ### Whole address spaces -/

theorem trampoline_div : trampoline / pgsize = userTop + 1 := by decide

theorem trapframeVa_div : trapframeVa / pgsize = userTop := by decide

section Whole

variable {H : List ℕ} {m : Machine} {root sz p : ℕ}

/-- **Specification of `uvmfree`**: no slot is lost, since no page beyond `sz` is swapped
out, and it stops the kernel only if one is resident there. -/
theorem uvmfree_spec (h : Inv H m) (hroot : (m.k.pt root).isSome) (hsz : sz ≤ trapframeVa)
    (hs : ∀ u, (m.k.leaf root u).swapped = true → u < npages sz) :
    wp (uvmfree root sz) (fun _ m' => Gone H root m m') (fun e m' => Crash e m' ∧
      ∃ u, npages sz ≤ u ∧ (m.k.leaf root u).has pteV = true) m := by
  have hrange : 0 / pgsize + npages sz ≤ userTop := by
    rw [Nat.zero_div, Nat.zero_add]
    exact npages_le_userTop hsz
  rw [uvmfree, pgroundup_div hsz]
  have hfree : ∀ m₁, (Unmapped H root (fun u => 0 / pgsize ≤ u ∧ u < 0 / pgsize + npages sz)
      (View.fill m.k.view root (0 / pgsize) (npages sz) none) m m₁) →
      wp (freewalk root) (fun _ m' => Gone H root m m') (fun e m' => Crash e m' ∧
        ∃ u, npages sz ≤ u ∧ (m.k.leaf root u).has pteV = true) m₁ := by
    intro m₁ h1
    rw [Nat.zero_div, Nat.zero_add] at h1
    -- the range is empty, and nothing has changed beyond it
    have hin : ∀ u, u < npages sz → (m₁.k.leaf root u).has pteV = false ∧
        (m₁.k.leaf root u).has pteS = false := by
      intro u hu
      have hview : m₁.k.view root u = none := by
        rw [h1.eff.view, View.fill, if_pos ⟨rfl, Nat.zero_le u, by omega⟩]
      have htop := npages_le_userTop hsz
      exact (Kernel.view_eq_none_iff (by omega)).mp hview
    have hout : ∀ u, npages sz ≤ u → m₁.k.leaf root u = m.k.leaf root u :=
      fun u hu => h1.other root u (by omega)
    have hnoswap : ∀ u, (m₁.k.leaf root u).swapped = false := by
      intro u
      rcases Nat.lt_or_ge u (npages sz) with hu | hu
      · simp [Pte.swapped, hin u hu]
      · rw [hout u hu]
        exact Bool.eq_false_iff.mpr fun hsw => absurd (hs u hsw) (by omega)
    refine wp_mono (freewalk_spec h1.inv (by rw [h1.eff.roots]; exact hroot) hnoswap) ?_ ?_
    · rintro - m₂ h2
      refine ⟨h2.inv, h2.world.trans h1.eff.world, fun r v => ?_, h2.gone,
        fun r hr => (h2.others r hr).trans (h1.pt r hr)⟩
      rw [h2.view, h1.eff.view]
      split_ifs with hr
      · rfl
      · rw [View.fill, if_neg (by simp [hr])]
    · rintro e m₂ ⟨hlog, u, hV⟩
      rcases Nat.lt_or_ge u (npages sz) with hu | hu
      · rw [(hin u hu).1] at hV
        cases hV
      · exact ⟨hlog, u, hu, hout u hu ▸ hV⟩
  simp only [wp_bind, wp_ite]
  refine ⟨fun _ => wp_mono (uvmunmap_spec h hrange) (fun _ => hfree) fun _ _ he => ?_,
    fun h0 => ?_⟩
  · rw [he.2 (Nat.zero_mod _)] at hroot
    cases hroot
  obtain rfl : sz = 0 := by omega
  refine hfree m ?_
  have hn : npages 0 = 0 := by decide
  rw [hn]
  exact ⟨h, by rw [View.fill_zero]; exact Eff.refl _, fun _ _ _ => rfl, fun _ _ => rfl⟩

/-- **Specification of `proc_freepagetable`**: it stops the kernel only if a page beyond `sz`
is resident, other than the two at the top. -/
theorem procFreepagetable_spec (h : Inv H m) (hroot : (m.k.pt root).isSome)
    (hsz : sz ≤ trapframeVa) (hs : ∀ u, (m.k.leaf root u).swapped = true → u < npages sz) :
    wp (procFreepagetable root sz) (fun _ m' => Gone H root m m') (fun e m' => Crash e m' ∧
      ∃ u, npages sz ≤ u ∧ u ≠ userTop ∧ u ≠ userTop + 1 ∧
        (m.k.leaf root u).has pteV = true) m := by
  have hle := npages_le_userTop hsz
  have htop : ∀ u, userTop ≤ u → (m.k.leaf root u).swapped = false := fun u hu =>
    Bool.eq_false_iff.mpr fun hsw => by
      have := hs u hsw
      omega
  rw [procFreepagetable, wp_bind]
  refine wp_mono (uvmunmap_top_spec h (by rw [trampoline_div]; omega) (by decide) (by decide)
    (htop _ (by rw [trampoline_div]; omega))) ?_ fun _ _ he => ?_
  swap
  · rw [he.2] at hroot
    cases hroot
  rintro - m₁ h1
  have hroot₁ : (m₁.k.pt root).isSome := by rw [h1.roots]; exact hroot
  rw [wp_bind]
  refine wp_mono (uvmunmap_top_spec h1.inv (by rw [trapframeVa_div]) (by decide) (by decide)
    (Bool.eq_false_iff.mpr fun hsw => ?_)) ?_ fun _ _ he => ?_
  · exact Bool.eq_false_iff.mp (htop _ (by rw [trapframeVa_div])) (h1.swapped _ _ hsw)
  swap
  · rw [he.2] at hroot₁
    cases hroot₁
  rintro - m₂ h2
  rw [trampoline_div] at h1
  rw [trapframeVa_div] at h2
  refine wp_mono (uvmfree_spec h2.inv (by rw [h2.roots]; exact hroot₁) hsz
    fun u hsw => hs u (h1.swapped _ _ (h2.swapped _ _ hsw))) ?_ ?_
  · rintro - m₃ h3
    refine ⟨h3.inv, h3.world.trans (h2.world.trans h1.world), fun r v => ?_, h3.gone,
      fun r hr => ?_⟩
    · rw [h3.view, h2.view, h1.view]
    · rw [h3.others r hr, h2.pt r hr, h1.pt r hr]
  · rintro e m₃ ⟨hlog, u, hu, hV⟩
    have hne : u ≠ userTop := by
      rintro rfl
      rw [h2.gone] at hV
      cases hV
    rw [h2.other root u (by simp [hne])] at hV
    have hne' : u ≠ userTop + 1 := by
      rintro rfl
      rw [h1.gone] at hV
      cases hV
    rw [h1.other root u (by simp [hne'])] at hV
    exact ⟨hlog, u, hu, hne, hne', hV⟩

/-- Above user memory a table has no page that can be swapped out or that users reach, and
none but the trapframe and the trampoline. -/
def TopSys (k : Kernel) (r : ℕ) : Prop :=
  ∀ v, userTop ≤ v → (k.leaf r v).swapped = false ∧ (k.leaf r v).has pteU = false ∧
    (userTop + 1 < v → (k.leaf r v).has pteV = false)

/-- A missing table has no such page. -/
theorem TopSys.of_zero {k : Kernel} {r : ℕ} (h : ∀ v, userTop ≤ v → k.leaf r v = 0) :
    TopSys k r := fun v hv => by
  rw [h v hv]
  exact ⟨by decide, by decide, fun _ => by decide⟩

theorem TopSys.congr {k k' : Kernel} {r : ℕ} (h : TopSys k r)
    (hleaf : ∀ v, userTop ≤ v → k'.leaf r v = k.leaf r v) : TopSys k' r := fun v hv => by
  rw [hleaf v hv]
  exact h v hv

/-- The step from `m` to `m'` made a table rooted at `root` that maps no user page. -/
structure NewTable (H : List ℕ) (root : ℕ) (m m' : Machine) : Prop where
  inv : Inv H m'
  world : m'.k.toWorld = m.k.toWorld
  view : m'.k.view = m.k.view
  fresh : m.k.pt root = none
  made : (m'.k.pt root).isSome
  roots : ∀ r, r ≠ root → (m'.k.pt r).isSome = (m.k.pt r).isSome
  top : ∀ r, r ≠ root → ∀ v, userTop ≤ v → m'.k.leaf r v = m.k.leaf r v
  sys : TopSys m'.k root
  safe : ∀ r, r ≠ root → Safe m.k r → ∀ v,
    m'.k.leaf r v = m.k.leaf r v

/-- **Specification of `uvmcreate`.** -/
theorem uvmcreate_spec (h : Inv H m) :
    wp uvmcreate (fun root m' => root ≠ 0 ∧ NewTable H root m m') Crash m := by
  rw [uvmcreate]
  refine wp_seq (kalloc_spec h) ?_
  rintro pg m₁ ⟨hne, h1, hgot⟩
  rw [wp_ite]
  refine ⟨fun h0 => absurd h0 hne, fun _ => ⟨hne, ?_⟩⟩
  have hnone : m₁.k.pt pg = none := h1.mem.pt_none List.mem_cons_self
  have hleaf : ∀ r v, ((m₁.k.setMem pg (.fill 0)).setPt pg (some .empty)).leaf r v =
      m₁.k.leaf r v :=
    leaf_setPt_dead (fun t ht => by
      rw [Kernel.setMem_pt, hnone] at ht
      cases ht) fun t ht v => by
      cases ht
      rfl
  have hmem : MemInv H ((m₁.k.setMem pg (.fill 0)).setPt pg (some .empty)) :=
    (h1.setMem pg (.fill 0)).mem.addRoot
  have hview : ((m₁.k.setMem pg (.fill 0)).setPt pg (some .empty)).view = m.k.view := by
    rw [← hgot.quiet.view, ← (h1.quiet_setMem List.mem_cons_self (.fill 0)).view]
    exact view_congr hleaf (Kernel.setPt_mem _ _ _)
  refine ⟨⟨hmem, h1.log, fun hq => ?_⟩, hgot.quiet.world, hview, ?_, by simp, fun r hr => ?_,
    fun r hr v hv => ?_, .of_zero fun v _ => ?_, fun r hr hd v => ?_⟩
  · refine (h1.frames hq).mono h1.mem.frame_va (fun i _ => ⟨rfl, rfl, rfl⟩) (fun p r hh => hh) ?_
    intro i r v _ _ hV _
    rw [hleaf]
    exact ⟨hV, rfl⟩
  · rw [← Option.not_isSome_iff_eq_none, ← hgot.quiet.roots, hnone]
    simp
  · rw [Kernel.setPt_pt, Function.update_of_ne hr, Kernel.setMem_pt, hgot.quiet.roots]
  · rw [hleaf, hgot.quiet.top r v hv]
  · rw [hleaf, Memory.leaf_of_none hnone]
  · rw [hleaf, hgot.quiet.safe r hd]

/-- Mapping one of the two pages above user memory in a new table. -/
theorem NewTable.mapTop {va pa : ℕ} {perm : Pte} {m₁ : Machine} (h : NewTable H root m m₁)
    (hv : userTop ≤ va / pgsize) (hv' : va / pgsize ≤ userTop + 1) (hpS : perm.has pteS = false)
    (hpU : perm.perm.u = false) :
    wp (mappages root va pgsize pa perm) (fun st m' => st = 0 ∧ NewTable H root m m' ∧
      (m'.k.leaf root (va / pgsize)).has pteV = true) Crash m₁ := by
  refine wp_mono (mappages_top_spec h.inv hv (h.sys _ hv).1 hpS) ?_ fun _ _ he => he
  rintro st m₂ ⟨rfl, hinv, hworld, hview, hroots, hleaf, htop, hdet⟩
  have hV : (m₂.k.leaf root (va / pgsize)).has pteV = true := by
    rw [hleaf]
    exact mappedPte_valid _ _
  refine ⟨rfl, ⟨hinv, hworld.trans h.world, hview.trans h.view, h.fresh, ?_, fun r hr => ?_,
    fun r hr v htop' => ?_, fun v htop' => ?_, fun r hr hd v => ?_⟩, hV⟩
  · rw [hroots]
    exact h.made
  · rw [hroots, h.roots r hr]
  · rw [htop r v htop' (by simp [hr]), h.top r hr v htop']
  · by_cases hvv : v = va / pgsize
    · subst hvv
      have hperm := mappedPte_perm pa perm
      rw [← hleaf] at hperm
      exact ⟨by simp [Pte.swapped, hV], (congrArg Perm.u hperm).trans hpU, fun hlt =>
        absurd hlt (by omega)⟩
    · rw [htop root v htop' (by simp [hvv])]
      exact h.sys v htop'
  · rw [hdet r (hd.congr h.world) v (by simp [hr]), h.safe r hr hd]

/-- **Specification of `proc_pagetable`.** -/
theorem procPagetable_spec (h : Inv H m) :
    wp (procPagetable p) (fun root m' => root ≠ 0 ∧ NewTable H root m m' ∧
      (m'.k.leaf root userTop).has pteV = true) Crash m := by
  rw [procPagetable]
  refine wp_seq (uvmcreate_spec h) ?_
  rintro root m₁ ⟨hne, h1⟩
  rw [wp_ite]
  refine ⟨fun h0 => absurd h0 hne, fun _ => ?_⟩
  simp only [wp_bind, wp_getK]
  refine wp_mono (h1.mapTop (by decide) (by decide) (by decide) (by decide)) ?_ fun _ _ he => he
  rintro st m₂ ⟨rfl, h2, -⟩
  rw [wp_ite]
  refine ⟨fun hlt => absurd hlt (by decide), fun _ => ?_⟩
  simp only [wp_bind, wp_getK]
  refine wp_mono (h2.mapTop (by decide) (by decide) (by decide) (by decide)) ?_ fun _ _ he => he
  rintro st m₃ ⟨rfl, h3, hV⟩
  rw [trapframeVa_div] at hV
  rw [wp_ite]
  exact ⟨fun hlt => absurd hlt (by decide), fun _ => ⟨hne, h3, hV⟩⟩

end Whole

end Xv6
