import Xv6.Vm.Map

/-!
# Specifications of the address-space code

Growing, shrinking and freeing address spaces. `uvmunmap` empties a range of the view and
gives frames and slots back; `uvmalloc` fills a range with zero pages; `freewalk` gives the
pages of an empty table back. A table is freed without losing a slot because all of its
swapped-out entries lie in the range that is unmapped first.
-/

namespace Xv6

open StateLogic

theorem View.set_self {w : View} {r v : ℕ} {lp : Option LPage} (h : w r v = lp) :
    w.set r v lp = w := by
  funext r' v'
  rw [View.set]
  split_ifs with hrv
  · rw [hrv.1, hrv.2, h]
  · rfl

theorem add_pgsize_div (a : ℕ) : (a + pgsize) / pgsize = a / pgsize + 1 :=
  Nat.add_div_right a (by decide)

theorem add_pgsize_mod {a : ℕ} (h : a % pgsize = 0) : (a + pgsize) % pgsize = 0 := by
  rw [Nat.add_mod_right, h]

/-! ### Unmapping -/

section Unmap

variable {H : List ℕ} {m : Machine} {root v a n : ℕ}

/-- The step from `m` to `m'` empties page `v` of the table rooted at `root`. -/
structure Unmapped (H : List ℕ) (root : ℕ) (R : ℕ → Prop) (w : View) (m m' : Machine) : Prop where
  inv : Inv H m'
  eff : Eff m.k m'.k w
  other : ∀ r u, ¬(r = root ∧ R u) → m'.k.leaf r u = m.k.leaf r u
  pt : ∀ r, r ≠ root → m'.k.pt r = m.k.pt r

/-- A resident page is freed. -/
theorem Unmapped.resident (h : Inv H m) (hv : v < userTop)
    (hval : (m.k.leaf root v).has pteV = true) :
    Unmapped H root (· = v) (View.set m.k.view root v none) m
      ⟨(m.k.freed (pte2pa (m.k.leaf root v))).setLeaf root v 0,
        .kfree (pte2pa (m.k.leaf root v)) m.k :: m.calls⟩ := by
  have hent := Memory.hasEntry_of_leaf (Pte.ne_zero_of_valid hval)
  have hown : pte2pa (m.k.leaf root v) ∈ m.k.own H (.leaf root v) := ⟨hv, hval, rfl⟩
  have hnf := h.mem.not_free hown (by simp)
  -- the entry is cleared after the page is freed; the two orders give the same state
  have hcomm : (m.k.freed (pte2pa (m.k.leaf root v))).setLeaf root v 0 =
      (m.k.setLeaf root v 0).freed (pte2pa (m.k.leaf root v)) := by
    obtain ⟨t, ht, -⟩ := hent
    rw [Kernel.setLeaf, Kernel.setLeaf, Kernel.freed_pt, ht]
    rfl
  have hview : ((m.k.freed (pte2pa (m.k.leaf root v))).setLeaf root v 0).view =
      View.set m.k.view root v none := by
    rw [hcomm]
    have hfresh : Fresh Set.univ (m.k.setLeaf root v 0) (pte2pa (m.k.leaf root v)) :=
      (h.mem.unmapLeaf hv hval).fresh List.mem_cons_self
    rw [Kernel.freed_view, hfresh.view_setMem, Kernel.view_setLeaf hent hv, if_neg (by decide),
      if_neg (by decide)]
  have hleaf : ∀ r u, ((m.k.freed (pte2pa (m.k.leaf root v))).setLeaf root v 0).leaf r u =
      if r = root ∧ u = v then 0 else m.k.leaf r u := by
    intro r u
    rw [Kernel.setLeaf_leaf _ _ _ _ (by exact hent), Kernel.freed_leaf]
  refine ⟨?_, ⟨by simp, hview, fun r u hu => ?_, fun r => ?_⟩, fun r u hru => ?_,
    fun r hr => by rw [Kernel.setLeaf_pt, if_neg hr, Kernel.freed_pt]⟩
  · rw [hcomm]
    refine h.freed (h.mem.unmapLeaf hv hval) hnf (by simp) (fun p r hh => ?_) ?_
    · rw [Holds, Kernel.setLeaf_toWorld]
      exact hh
    · intro r u _ hV hne
      rw [Kernel.setLeaf_leaf _ _ _ _ hent, if_neg]
      · exact ⟨hV, rfl⟩
      · rintro ⟨rfl, rfl⟩
        exact hne rfl
  · rw [hleaf, if_neg (by omega)]
  · rw [Kernel.setLeaf_roots, Kernel.freed_pt]
  · rw [hleaf, if_neg hru]

/-- A swapped-out page is discarded. -/
theorem Unmapped.swapped (h : Inv H m) (hv : v < userTop)
    (hs : (m.k.leaf root v).swapped = true) :
    Unmapped H root (· = v) (View.set m.k.view root v none) m
      ⟨(m.k.setSlot (swapIndex (m.k.leaf root v)) false).setLeaf root v 0, m.calls⟩ := by
  have hent := Memory.hasEntry_of_leaf (Pte.ne_zero_of_swapped hs)
  have hleaf : ∀ r u,
      ((m.k.setSlot (swapIndex (m.k.leaf root v)) false).setLeaf root v 0).leaf r u =
        if r = root ∧ u = v then 0 else m.k.leaf r u := by
    intro r u
    rw [Kernel.setLeaf_leaf]
    · rfl
    · exact hent
  have hpt : ((m.k.setSlot (swapIndex (m.k.leaf root v)) false).setLeaf root v 0).pt =
      (m.k.setLeaf root v 0).pt := by
    funext r
    rw [Kernel.setLeaf_pt, Kernel.setLeaf_pt]
    rfl
  have hd := h.mem.dropSlot hs
  refine ⟨⟨hd.congr (by simp) hpt (by simp) (by simp) (by simp) (by simp) (by simp) (by simp)
    (by simpa using h.mem.frame_va), h.log, fun hq => ?_⟩, ⟨by simp, ?_, fun r u hu => ?_,
    fun r => ?_⟩, fun r u hru => ?_, fun r hr => by rw [Kernel.setLeaf_pt, if_neg hr]; rfl⟩
  · refine (h.frames hq).mono h.mem.frame_va (fun i _ => by simp [Frame.SameUse])
      (fun p r hh => by rw [Holds, Kernel.setLeaf_toWorld]; exact hh) ?_
    intro i r u _ _ hV _
    rw [hleaf, if_neg]
    · exact ⟨hV, rfl⟩
    · rintro ⟨rfl, rfl⟩
      rw [Pte.not_valid_of_swapped hs] at hV
      cases hV
  · have h2 := Kernel.view_setLeaf (k := m.k.setSlot (swapIndex (m.k.leaf root v)) false)
      (e := 0) hent hv
    rw [if_neg (by decide), if_neg (by decide)] at h2
    exact h2
  · rw [hleaf, if_neg (by omega)]
  · rw [Kernel.setLeaf_roots]
    rfl
  · rw [hleaf, if_neg hru]

/-- A page without content is left alone. -/
theorem Unmapped.absent (h : Inv H m) (hv : m.k.view root v = none) :
    Unmapped H root (· = v) (View.set m.k.view root v none) m m := by
  rw [View.set_self hv]
  exact ⟨h, .refl _, fun _ _ _ => rfl, fun _ _ => rfl⟩

theorem Unmapped.trans {R R' : ℕ → Prop} {w w' : View} {m₁ m₂ m₃ : Machine}
    (h : Unmapped H root R w m₁ m₂) (h' : Unmapped H root R' w' m₂ m₃) :
    Unmapped H root (fun u => R u ∨ R' u) w' m₁ m₃ := by
  refine ⟨h'.inv, h.eff.trans h'.eff, fun r u hru => ?_,
    fun r hr => (h'.pt r hr).trans (h.pt r hr)⟩
  rw [h'.other r u fun hc => hru ⟨hc.1, Or.inr hc.2⟩,
    h.other r u fun hc => hru ⟨hc.1, Or.inl hc.2⟩]

/-- Addresses of user pages are below `MAXVA`. -/
theorem lt_maxva_of_div (h : a / pgsize < userTop) : a < maxva := by
  have htop : userTop * pgsize ≤ maxva := by decide
  rw [pgsize] at *
  omega

/-- **The loop of `uvmunmap`** with `do_free` set empties its range. It stops only if there
is no table. -/
theorem uvmunmapLoop_spec (h : Inv H m) (hr : a / pgsize + n ≤ userTop) :
    wp (uvmunmapLoop root true n a) (fun _ m' =>
      Unmapped H root (fun u => a / pgsize ≤ u ∧ u < a / pgsize + n)
        (View.fill m.k.view root (a / pgsize) n none) m m')
      (fun e m' => Crash e m' ∧ m.k.pt root = none) m := by
  induction n generalizing a m with
  | zero =>
    rw [uvmunmapLoop, View.fill_zero]
    exact ⟨h, .refl _, fun _ _ _ => rfl, fun _ _ => rfl⟩
  | succ n ih =>
    have hv : a / pgsize < userTop := by omega
    -- after this page, the rest of the loop does the others
    have hrest : ∀ m₁, Unmapped H root (· = a / pgsize)
        (View.set m.k.view root (a / pgsize) none) m m₁ →
        wp (uvmunmapLoop root true n (a + pgsize)) (fun _ m' =>
          Unmapped H root (fun u => a / pgsize ≤ u ∧ u < a / pgsize + (n + 1))
            (View.fill m.k.view root (a / pgsize) (n + 1) none) m m')
          (fun e m' => Crash e m' ∧ m.k.pt root = none) m₁ := by
      intro m₁ h₁
      refine wp_mono (ih h₁.inv (by rw [add_pgsize_div]; omega)) (fun _ m₂ h₂ => ?_)
        fun _ _ he => ⟨he.1, h₁.eff.none_iff.mp he.2⟩
      rw [h₁.eff.view, add_pgsize_div, View.fill_succ] at h₂
      have h₃ := h₁.trans h₂
      refine ⟨h₃.inv, h₃.eff, fun r u hru => h₃.other r u ?_, h₃.pt⟩
      rintro ⟨hroot, hu | hu⟩
      · exact hru ⟨hroot, by omega, by omega⟩
      · exact hru ⟨hroot, by omega, by omega⟩
    rw [uvmunmapLoop]
    refine wp_seq (walk_found_spec h.log (lt_maxva_of_div hv)) ?_
    rintro o m₁ ⟨rfl, -, ⟨rfl, hleaf, -⟩ | ⟨rfl, -⟩⟩
    · refine hrest m₁ (.absent h ((Kernel.view_eq_none_iff hv).mpr ?_))
      rw [hleaf]
      decide
    · simp only [wp_bind, wp_loadPte, wp_ite]
      refine ⟨fun hnv => ?_, fun hval => ?_⟩
      · have hnv' : (m₁.k.leaf root (a / pgsize)).has pteV = false := by simpa using hnv
        refine ⟨fun hS => ?_, fun hS => ?_⟩
        · exact hrest _ (.swapped h hv (by simp [Pte.swapped, hS, hnv']))
        · refine hrest _ (.absent h ((Kernel.view_eq_none_iff hv).mpr ⟨hnv', by simpa using hS⟩))
      · have hval' : (m₁.k.leaf root (a / pgsize)).has pteV = true := by simpa using hval
        refine ⟨fun _ => ?_, fun hf => absurd trivial hf⟩
        have hpages := h.mem.own.sub (.leaf root (a / pgsize)) _ ⟨hv, hval', rfl⟩
        rw [wp_kfree hpages h.mem.kend_le]
        exact hrest _ (.resident h hv hval')

/-- **Specification of `uvmunmap`** of user pages with `do_free` set. -/
theorem uvmunmap_spec (h : Inv H m) (hr : a / pgsize + n ≤ userTop) :
    wp (uvmunmap root a n true) (fun _ m' =>
      Unmapped H root (fun u => a / pgsize ≤ u ∧ u < a / pgsize + n)
        (View.fill m.k.view root (a / pgsize) n none) m m')
      (fun e m' => Crash e m' ∧ (a % pgsize = 0 → m.k.pt root = none)) m := by
  rw [uvmunmap, wp_ite]
  refine ⟨fun ha => ⟨h.log, fun h0 => absurd h0 ha⟩, fun _ => ?_⟩
  exact wp_mono (uvmunmapLoop_spec h hr) (fun _ _ hm => hm) fun _ _ he => ⟨he.1, fun _ => he.2⟩

end Unmap

/-! ### Sizes -/

/-- Number of pages that `sz` bytes take. -/
def npages (sz : ℕ) : ℕ := (sz + pgsize - 1) / pgsize

theorem lt_npages_iff {v sz : ℕ} : v < npages sz ↔ v * pgsize < sz := by
  rw [npages, pgsize]
  omega

theorem npages_le_userTop {sz : ℕ} (h : sz ≤ trapframeVa) : npages sz ≤ userTop := by
  have htop : userTop * pgsize = trapframeVa := Nat.div_mul_cancel (by decide)
  rw [npages, pgsize] at *
  omega

theorem le_trapframeVa_of_npages {sz : ℕ} (h : npages sz ≤ userTop) : sz ≤ trapframeVa := by
  have htop : userTop * pgsize = trapframeVa := Nat.div_mul_cancel (by decide)
  rw [npages, pgsize] at *
  omega

theorem npages_mono {a b : ℕ} (h : a ≤ b) : npages a ≤ npages b := by
  rw [npages, npages, pgsize]
  omega

theorem npages_mul (n : ℕ) : npages (n * pgsize) = n := by
  rw [npages, pgsize]
  omega

theorem pgroundup_eq {sz : ℕ} (h : sz ≤ trapframeVa) : pgroundup sz = npages sz * pgsize := by
  have hlt : sz + pgsize - 1 < word := lt_of_le_of_lt (Nat.sub_le_sub_right
    (Nat.add_le_add_right h pgsize) 1) (by decide)
  rw [pgroundup, Nat.mod_eq_of_lt hlt, npages]

theorem pgroundup_div {sz : ℕ} (h : sz ≤ trapframeVa) : pgroundup sz / pgsize = npages sz := by
  rw [pgroundup_eq h, Nat.mul_div_cancel _ (by decide)]

/-! ### Shrinking -/

section Dealloc

variable {H : List ℕ} {m : Machine} {root oldsz newsz : ℕ}

/-- **Specification of `uvmdealloc`.** -/
theorem uvmdealloc_spec (h : Inv H m) (hold : oldsz ≤ trapframeVa) :
    wp (uvmdealloc root oldsz newsz) (fun sz m' =>
      (oldsz ≤ newsz ∧ sz = oldsz ∧ m' = m) ∨
      (newsz < oldsz ∧ sz = newsz ∧
        Unmapped H root (fun u => npages newsz ≤ u ∧ u < npages oldsz)
          (View.fill m.k.view root (npages newsz) (npages oldsz - npages newsz) none) m m'))
      Crash m := by
  rw [uvmdealloc, wp_ite]
  refine ⟨fun hle => Or.inl ⟨hle, rfl, rfl⟩, fun hnle => ?_⟩
  have hlt : newsz < oldsz := Nat.lt_of_not_le hnle
  have hnew : newsz ≤ trapframeVa := by omega
  have htop := npages_le_userTop hold
  simp only [wp_bind, wp_ite]
  refine ⟨fun hr => ?_, fun hr => ?_⟩
  · rw [pgroundup_eq hnew, pgroundup_eq hold] at hr
    have hnp : npages newsz < npages oldsz := Nat.lt_of_mul_lt_mul_right hr
    have hcount : (pgroundup oldsz - pgroundup newsz) / pgsize =
        npages oldsz - npages newsz := by
      rw [pgroundup_eq hnew, pgroundup_eq hold, ← Nat.sub_mul, Nat.mul_div_cancel _ (by decide)]
    rw [hcount]
    refine wp_mono (uvmunmap_spec h (by rw [pgroundup_div hnew]; omega)) (fun _ m' hm' => ?_)
      fun _ _ he => he.1
    rw [pgroundup_div hnew] at hm'
    refine Or.inr ⟨hlt, rfl, hm'.inv, hm'.eff, fun r u hru => hm'.other r u ?_, hm'.pt⟩
    rintro ⟨hroot, h1, h2⟩
    exact hru ⟨hroot, h1, by omega⟩
  · rw [pgroundup_eq hnew, pgroundup_eq hold] at hr
    have hnp : npages oldsz - npages newsz = 0 := by
      have := Nat.le_of_mul_le_mul_right (Nat.le_of_not_lt hr) (show 0 < pgsize by decide)
      omega
    rw [hnp, View.fill_zero]
    exact Or.inr ⟨hlt, rfl, h, .refl _, fun _ _ _ => rfl, fun _ _ => rfl⟩

end Dealloc

/-! ### Growing -/

section Grow

variable {H : List ℕ} {m : Machine} {root a n oldsz newsz : ℕ} {xperm : Pte}

/-- The content of a page `uvmalloc` adds. -/
def newPage (xperm : Pte) : LPage := ⟨.fill 0, (pteR ||| pteU ||| xperm).perm⟩

/-- Permissions `uvmalloc` accepts: bits below the page number, not `PTE_S`. -/
def FlagsOK (perm : Pte) : Prop := perm >>> 10 = 0#64 ∧ perm.has pteS = false

theorem FlagsOK.or {a b : Pte} (ha : FlagsOK a) (hb : FlagsOK b) : FlagsOK (a ||| b) := by
  refine ⟨by rw [BitVec.ushiftRight_or_distrib, ha.1, hb.1]; decide, ?_⟩
  have h1 := ha.2
  have h2 := hb.2
  rw [Pte.has_pteS] at h1 h2 ⊢
  rw [BitVec.getLsbD_or, h1, h2]
  rfl

/-- The step from `k` to `k'` fills pages `a, …, a + n - 1` of a table. A table that
evictions leave alone has the new pages resident. -/
structure Grown (H : List ℕ) (root a n : ℕ) (lp : LPage) (m m' : Machine) : Prop where
  inv : Inv H m'
  eff : Eff m.k m'.k (View.fill m.k.view root a n (some lp))
  fresh : Safe m.k root → ∀ u, a ≤ u → u < a + n →
    (m'.k.leaf root u).has pteV = true
  other : ∀ r, Safe m.k r → ∀ u, ¬(r = root ∧ a ≤ u ∧ u < a + n) →
    m'.k.leaf r u = m.k.leaf r u

/-- **The loop of `uvmalloc`**: it either fills its range, all of it below `TRAPFRAME`, or
stops the kernel. -/
theorem uvmallocLoop_spec (h : Inv H m) (hold : Holds m.k m.k.cur root) (hx : FlagsOK xperm)
    (ha : a % pgsize = 0) (hle : a / pgsize ≤ userTop)
    (htop : (m.k.leaf root userTop).has pteV = true)
    (hnone : ∀ v, a / pgsize ≤ v → v < userTop → m.k.view root v = none) :
    wp (uvmallocLoop root oldsz newsz xperm n a) (fun sz m' => sz = newsz ∧
      a / pgsize + n ≤ userTop ∧ Grown H root (a / pgsize) n (newPage xperm) m m') Crash m := by
  induction n generalizing a m with
  | zero =>
    rw [uvmallocLoop]
    refine ⟨rfl, hle, h, ?_, fun _ u h1 h2 => absurd h2 (by omega), fun _ _ _ _ => rfl⟩
    rw [View.fill_zero]
    exact .refl _
  | succ n ih =>
    rw [uvmallocLoop]
    refine wp_seq (allocOrEvict_spec h) ?_
    rintro mem m₁ ⟨hmem, h₁, hgot⟩
    rw [if_neg hmem, wp_bind, wp_modK]
    have h₂ := h₁.setMem mem (.fill 0)
    have hq₂ := hgot.quiet.trans (h₁.quiet_setMem List.mem_cons_self (.fill 0))
    rcases Nat.lt_or_ge (a / pgsize) userTop with hv | hv
    · have hperm : FlagsOK (pteR ||| pteU ||| xperm) :=
        (FlagsOK.or ⟨by decide, by decide⟩ ⟨by decide, by decide⟩).or hx
      have hn : (m₁.k.setMem mem (.fill 0)).view root (a / pgsize) = none := by
        rw [hq₂.view]
        exact hnone _ le_rfl hv
      refine wp_seq (mappages_spec h₂ hv hn hperm.1 hperm.2) ?_
      rintro st m₃ ⟨rfl, -, h₃, heff, hleaf, hother⟩
      rw [if_neg (by decide)]
      have heff₃ := hq₂.eff.trans heff
      have hworld : m₃.k.toWorld = m.k.toWorld := heff₃.world
      simp only [wp_bind, wp_myproc, register, countResident, wp_modK]
      have hram : RamPage mem := h₁.mem.ram (o := .held) List.mem_cons_self
      have hpte : pte2pa (m₃.k.leaf root (a / pgsize)) = mem := by
        rw [hleaf]
        exact pte2pa_mappedPte hram.pageAddr hperm.1
      have hva : a < trapframeVa := by
        have htop' : userTop * pgsize = trapframeVa := Nat.div_mul_cancel (by decide)
        rw [← htop']
        exact (Nat.div_lt_iff_lt_mul (by decide)).mp hv
      have hh : Holds m₃.k m₃.k.cur root := by
        rw [Holds, hworld]
        exact hold
      have h₄ := h₃.register hh ha hva (by rw [hleaf]; exact mappedPte_valid _ _) hpte
      have h₅ := h₄.setStats m₃.k.cur
        { (m₃.k.setFrame (frameIndex mem) ⟨true, some m₃.k.cur, a, true⟩).vmstats m₃.k.cur with
          residentPages :=
            ((m₃.k.setFrame (frameIndex mem) ⟨true, some m₃.k.cur, a, true⟩).vmstats
              m₃.k.cur).residentPages + 1 }
      have hview₃ : m₃.k.view = View.set m.k.view root (a / pgsize) (some (newPage xperm)) := by
        rw [heff₃.view, hq₂.view]
        simp [newPage]
      refine wp_mono (ih h₅ hh (add_pgsize_mod ha) (by rw [add_pgsize_div]; omega) ?_ ?_)
        (fun sz m' hpost => ?_) fun _ _ he => he
      · exact (congrArg (fun e => e.has pteV) (heff₃.top root userTop le_rfl)).trans htop
      · intro v hav hvt
        rw [add_pgsize_div] at hav
        have hv' : m₃.k.view root v = none := by
          rw [hview₃, View.set, if_neg (by omega)]
          exact hnone v (by omega) hvt
        exact hv'
      · obtain ⟨hsz, hend, hg⟩ := hpost
        rw [add_pgsize_div] at hend hg
        have hd : ∀ r, Safe m.k r → Safe m₃.k r := fun r hr => hr.congr hworld
        have hstep : ∀ r, Safe m.k r → ∀ u,
            ¬(r = root ∧ u = a / pgsize) → m₃.k.leaf r u = m.k.leaf r u := by
          intro r hr u hru
          rw [hother r (hr.congr hq₂.world) u hru]
          exact hq₂.safe r hr u
        refine ⟨hsz, by omega, hg.inv, ?_, fun hr u h1 h2 => ?_, fun r hr u hru => ?_⟩
        · have hfill := hg.eff.view
          have hview₅ : (View.fill m₃.k.view root (a / pgsize + 1) n (some (newPage xperm))) =
              View.fill m.k.view root (a / pgsize) (n + 1) (some (newPage xperm)) := by
            rw [hview₃, View.fill_succ]
          refine ⟨hg.eff.world.trans hworld, hfill.trans hview₅, fun r u hu => ?_, fun r => ?_⟩
          · exact (hg.eff.top r u hu).trans (heff₃.top r u hu)
          · exact (hg.eff.roots r).trans (heff₃.roots r)
        · rcases Nat.eq_or_lt_of_le h1 with heq | hlt
          · subst heq
            have hsame := hg.other root (hd root hr) (a / pgsize) (by omega)
            rw [hsame]
            exact (congrArg (fun e => e.has pteV) hleaf).trans (mappedPte_valid _ _)
          · exact hg.fresh (hd root hr) u (by omega) (by omega)
        · have hsame := hg.other r (hd r hr) u fun hc => hru ⟨hc.1, by omega, by omega⟩
          exact hsame.trans (hstep r hr u fun hc => hru ⟨hc.1, by omega, by omega⟩)
    · have heq : a / pgsize = userTop := le_antisymm hle hv
      rw [wp_bind]
      refine mappages_remap h₂ (by omega) ?_
      rw [heq]
      exact (congrArg (fun e => e.has pteV) (hq₂.top root userTop le_rfl)).trans htop

/-- **Specification of `uvmalloc`.** -/
theorem uvmalloc_spec (h : Inv H m) (hold : Holds m.k m.k.cur root) (hx : FlagsOK xperm)
    (holdsz : oldsz ≤ trapframeVa) (htop : (m.k.leaf root userTop).has pteV = true)
    (hnone : ∀ v, npages oldsz ≤ v → v < userTop → m.k.view root v = none) :
    wp (uvmalloc root oldsz newsz xperm) (fun sz m' =>
      (newsz < oldsz ∧ sz = oldsz ∧ m' = m) ∨
      (oldsz ≤ newsz ∧ sz = newsz ∧ newsz ≤ trapframeVa ∧
        Grown H root (npages oldsz) (npages newsz - npages oldsz) (newPage xperm) m m'))
      Crash m := by
  rw [uvmalloc, wp_ite]
  refine ⟨fun hlt => Or.inl ⟨hlt, rfl, rfl⟩, fun hnlt => ?_⟩
  have hle : oldsz ≤ newsz := Nat.le_of_not_lt hnlt
  have hcount : (newsz - pgroundup oldsz + pgsize - 1) / pgsize =
      npages newsz - npages oldsz := by
    rw [pgroundup_eq holdsz, npages, npages, pgsize]
    omega
  have hdiv := pgroundup_div holdsz
  have hmod : pgroundup oldsz % pgsize = 0 := by
    rw [pgroundup_eq holdsz]
    exact Nat.mul_mod_left _ _
  simp only [hcount]
  refine wp_mono (uvmallocLoop_spec h hold hx hmod (by rw [hdiv]; exact npages_le_userTop holdsz)
    htop (by rw [hdiv]; exact hnone)) (fun sz m' hpost => ?_) fun _ _ he => he
  rw [hdiv] at hpost
  obtain ⟨hsz, hend, hg⟩ := hpost
  refine Or.inr ⟨hle, hsz, le_trapframeVa_of_npages ?_, hg⟩
  have := npages_mono hle
  omega

end Grow

/-! ### The guard page -/

section Clear

variable {H : List ℕ} {m : Machine} {root va : ℕ} (e : Pte)

theorem clearU_V : (e &&& ~~~pteU).has pteV = e.has pteV := by
  rw [Pte.has_pteV, Pte.has_pteV, pteU, getLsbD_clear e 0 (by decide)]

theorem clearU_S : (e &&& ~~~pteU).has pteS = e.has pteS := by
  rw [Pte.has_pteS, Pte.has_pteS, pteU, getLsbD_clear e 8 (by decide)]

theorem clearU_perm : (e &&& ~~~pteU).perm = { e.perm with u := false } := by
  simp only [Pte.perm, Pte.has_pteR, Pte.has_pteW, Pte.has_pteX, Pte.has_pteU]
  rw [pteU, getLsbD_clear e 1 (by decide), getLsbD_clear e 2 (by decide),
    getLsbD_clear e 3 (by decide), getLsbD_clear_self]

/-- **Specification of `uvmclear`** of a resident user page. -/
theorem uvmclear_spec (h : Inv H m) (hv : va / pgsize < userTop)
    (hval : (m.k.leaf root (va / pgsize)).has pteV = true) :
    wp (uvmclear root va) (fun _ m' => Inv H m' ∧
      Eff m.k m'.k (View.set m.k.view root (va / pgsize)
        ((m.k.view root (va / pgsize)).map fun lp => { lp with perm := { lp.perm with u := false } })) ∧
      (m'.k.leaf root (va / pgsize)).has pteV = true ∧
      ∀ r u, ¬(r = root ∧ u = va / pgsize) → m'.k.leaf r u = m.k.leaf r u) Crash m := by
  rw [uvmclear]
  refine wp_seq (walk_false_spec fun _ => h.log) ?_
  rintro o m₁ ⟨rfl, -, ⟨rfl, hleaf, -⟩ | ⟨rfl, hent⟩⟩
  · rw [hleaf] at hval
    exact absurd hval (by decide)
  · simp only [wp_bind, wp_loadPte, wp_storePte]
    have hS := h.mem.excl root (va / pgsize) hval
    have hpa : pte2pa (m₁.k.leaf root (va / pgsize) &&& ~~~pteU) =
        pte2pa (m₁.k.leaf root (va / pgsize)) := pte2pa_clear _ (by decide)
    have hview : m₁.k.view root (va / pgsize) = some
        ⟨m₁.k.mem (pte2pa (m₁.k.leaf root (va / pgsize))),
          (m₁.k.leaf root (va / pgsize)).perm⟩ := by
      rw [Kernel.view, if_pos hv, Memory.lpage_of_valid hval]
    refine ⟨⟨?_, h.log, fun hq => ?_⟩, .setLeaf hent hv ?_, ?_, fun r u hru => ?_⟩
    · exact h.mem.keepLeaf hent (fun _ => ⟨clearU_V _, fun _ => hpa⟩) (by simp [Pte.swapped, hS])
        (by simp [Pte.swapped, clearU_S, hS]) fun _ => (clearU_S _).trans hS
    · refine (h.frames hq).mono h.mem.frame_va
        (fun i _ => by rw [Kernel.setLeaf_frames]; exact ⟨rfl, rfl, rfl⟩)
        (fun p r hh => by rw [Holds, Kernel.setLeaf_toWorld]; exact hh) ?_
      intro i r u _ _ hV _
      rw [Kernel.setLeaf_leaf _ _ _ _ hent]
      split_ifs with hru
      · obtain ⟨rfl, rfl⟩ := hru
        exact ⟨(clearU_V _).trans hV, hpa⟩
      · exact ⟨hV, rfl⟩
    · rw [clearU_V, hval, if_pos rfl, hview, hpa, clearU_perm]
      rfl
    · rw [Kernel.setLeaf_leaf _ _ _ _ hent, if_pos ⟨rfl, rfl⟩, clearU_V]
      exact hval
    · rw [Kernel.setLeaf_leaf _ _ _ _ hent, if_neg hru]

end Clear

/-! ### Freeing a table -/

section Free

variable {H : List ℕ} {m : Machine} {root va v : ℕ}

/-- Removing one of the two pages above user memory from a table. -/
structure TopUnmapped (H : List ℕ) (root v : ℕ) (m m' : Machine) : Prop where
  inv : Inv H m'
  world : m'.k.toWorld = m.k.toWorld
  view : m'.k.view = m.k.view
  roots : ∀ r, (m'.k.pt r).isSome = (m.k.pt r).isSome
  swapped : ∀ r u, (m'.k.leaf r u).swapped = true → (m.k.leaf r u).swapped = true
  other : ∀ r u, ¬(r = root ∧ u = v) → m'.k.leaf r u = m.k.leaf r u
  pt : ∀ r, r ≠ root → m'.k.pt r = m.k.pt r
  gone : (m'.k.leaf root v).has pteV = false

theorem uvmunmap_top_spec (h : Inv H m) (hv : userTop ≤ va / pgsize) (ha : va % pgsize = 0)
    (hmax : va < maxva) (hs : (m.k.leaf root (va / pgsize)).swapped = false) :
    wp (uvmunmap root va 1 false) (fun _ m' => TopUnmapped H root (va / pgsize) m m')
      (fun e m' => Crash e m' ∧ m.k.pt root = none) m := by
  have hrefl : (m.k.leaf root (va / pgsize)).has pteV = false →
      TopUnmapped H root (va / pgsize) m m := fun hV =>
    ⟨h, rfl, rfl, fun _ => rfl, fun _ _ hsw => hsw, fun _ _ _ => rfl, fun _ _ => rfl, hV⟩
  rw [uvmunmap, wp_ite]
  refine ⟨fun hna => absurd ha hna, fun _ => ?_⟩
  rw [uvmunmapLoop]
  refine wp_seq (walk_found_spec h.log hmax) ?_
  rintro o m₁ ⟨rfl, -, ⟨rfl, hleaf, -⟩ | ⟨rfl, hent⟩⟩
  · simp only [uvmunmapLoop]
    exact hrefl (by rw [hleaf]; decide)
  · simp only [wp_bind, wp_loadPte, wp_ite, wp_storePte, uvmunmapLoop]
    refine ⟨fun hnv => ⟨fun hS => ?_, fun _ => hrefl (by simpa using hnv)⟩,
      fun _ => ⟨fun hf => absurd hf (by decide), fun _ => ?_⟩⟩
    · have hnv' : (m₁.k.leaf root (va / pgsize)).has pteV = false := by simpa using hnv
      rw [Pte.swapped, hS, hnv'] at hs
      cases hs
    · refine ⟨⟨?_, h.log, fun hq => (h.frames hq).setLeaf h.mem hent (Or.inr hv)⟩, by simp,
        Kernel.view_setLeaf_top hent hv, Kernel.setLeaf_roots, fun r u hsw => ?_,
        fun r u hru => ?_, fun r hr => by rw [Kernel.setLeaf_pt, if_neg hr], ?_⟩
      · exact h.mem.keepLeaf hent (fun hlt => absurd hlt (by omega)) hs (by decide) (by decide)
      · rw [Kernel.setLeaf_leaf _ _ _ _ hent] at hsw
        split_ifs at hsw
        · exact absurd hsw (by decide)
        · exact hsw
      · rw [Kernel.setLeaf_leaf _ _ _ _ hent, if_neg hru]
      · rw [Kernel.setLeaf_leaf _ _ _ _ hent, if_pos ⟨rfl, rfl⟩]
        decide

end Free

end Xv6
