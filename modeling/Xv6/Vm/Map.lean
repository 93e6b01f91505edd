import Xv6.Memory.Alloc

/-!
# Specifications of the page-table code

`walk` with `alloc` set may allocate page-table pages, and through them evict, but is
invisible (`walk_spec`). `mappages` adds one page to the view, `uvmunmap` removes a range,
`uvmalloc` adds a range of zero pages and `uvmdealloc` removes one. Each specification says
what becomes of the view and that all else (`Eff`) is as before.
-/

namespace Xv6

open StateLogic

/-! ### Views -/

/-- The contents of all user pages. -/
abbrev View := ℕ → ℕ → Option LPage

/-- The view with one page replaced. -/
def View.set (w : View) (r v : ℕ) (lp : Option LPage) : View :=
  fun r' v' => if r' = r ∧ v' = v then lp else w r' v'

/-- The view with `n` pages from `a` on replaced by `lp`. -/
def View.fill (w : View) (r a n : ℕ) (lp : Option LPage) : View :=
  fun r' v' => if r' = r ∧ a ≤ v' ∧ v' < a + n then lp else w r' v'

theorem View.fill_zero (w : View) (r a : ℕ) (lp : Option LPage) : w.fill r a 0 lp = w := by
  funext r' v'
  rw [View.fill, if_neg (by omega)]

theorem View.fill_succ (w : View) (r a n : ℕ) (lp : Option LPage) :
    (w.set r a lp).fill r (a + 1) n lp = w.fill r a (n + 1) lp := by
  funext r' v'
  simp only [View.fill, View.set]
  by_cases hr : r' = r
  · by_cases hv : v' = a
    · subst hv
      simp [hr]
    · by_cases hin : a + 1 ≤ v' ∧ v' < a + 1 + n
      · rw [if_pos ⟨hr, hin⟩, if_pos ⟨hr, by omega, by omega⟩]
      · rw [if_neg (fun h => hin h.2), if_neg (fun h => hv h.2),
          if_neg (fun h => hin ⟨by omega, by omega⟩)]
  · simp [hr]

/-- The step from `k` to `k'` turns the view into `w` and keeps the rest. -/
structure Eff (k k' : Kernel) (w : View) : Prop where
  world : k'.toWorld = k.toWorld
  view : k'.view = w
  top : ∀ r v, userTop ≤ v → k'.leaf r v = k.leaf r v
  roots : ∀ r, (k'.pt r).isSome = (k.pt r).isSome

/-- The tables that exist are the same. -/
theorem Eff.none_iff {k k' : Kernel} {w : View} {r : ℕ} (h : Eff k k' w) :
    k'.pt r = none ↔ k.pt r = none := by
  rw [← Option.not_isSome_iff_eq_none, ← Option.not_isSome_iff_eq_none, h.roots]

theorem Quiet.eff {k k' : Kernel} (h : Quiet k k') : Eff k k' k.view :=
  ⟨h.world, h.view, h.top, h.roots⟩

theorem Eff.refl (k : Kernel) : Eff k k k.view := (Quiet.refl k).eff

theorem Eff.trans {k₁ k₂ k₃ : Kernel} {w w' : View} (h : Eff k₁ k₂ w) (h' : Eff k₂ k₃ w') :
    Eff k₁ k₃ w' :=
  ⟨h'.world.trans h.world, h'.view, fun r v hv => (h'.top r v hv).trans (h.top r v hv),
    fun r => (h'.roots r).trans (h.roots r)⟩

/-- An entry without a place is zero. -/
theorem Memory.leaf_of_not_hasEntry {m : Memory} {r v : ℕ} (h : ¬m.HasEntry r v) :
    m.leaf r v = 0 := by
  by_contra hne
  exact h (Memory.hasEntry_of_leaf hne)

/-- A user page has no content when its entry is neither resident nor swapped out. -/
theorem Kernel.view_eq_none_iff {k : Kernel} {r v : ℕ} (hv : v < userTop) : k.view r v = none ↔
    (k.leaf r v).has pteV = false ∧ (k.leaf r v).has pteS = false := by
  rw [Kernel.view, if_pos hv, Memory.lpage]
  cases (k.leaf r v).has pteV <;> cases (k.leaf r v).has pteS <;> simp

/-! ### Steps that only touch counters, frames and held pages -/

section Small

variable {H : List ℕ} {m : Machine}

theorem Inv.setStats (h : Inv H m) (p : ℕ) (st : VmStats) :
    Inv H ⟨m.k.setStats p st, m.calls⟩ :=
  ⟨h.mem.congr rfl rfl rfl rfl rfl (fun _ => rfl) (fun _ => rfl) rfl h.mem.frame_va, h.log,
    fun hq => (h.frames hq).mono h.mem.frame_va (fun _ _ => ⟨rfl, rfl, rfl⟩) (fun _ _ hh => hh)
      fun _ _ _ _ _ hval _ => ⟨hval, rfl⟩⟩

theorem Quiet.setStats (k : Kernel) (p : ℕ) (st : VmStats) : Quiet k (k.setStats p st) :=
  .of_pt rfl rfl rfl

theorem Inv.setMem (h : Inv H m) (x : ℕ) (pg : Page) : Inv H ⟨m.k.setMem x pg, m.calls⟩ :=
  ⟨h.mem.congr rfl rfl rfl rfl rfl (fun _ => rfl) (fun _ => rfl) rfl h.mem.frame_va, h.log,
    fun hq => (h.frames hq).mono h.mem.frame_va (fun _ _ => ⟨rfl, rfl, rfl⟩) (fun _ _ hh => hh)
      fun _ _ _ _ _ hval _ => ⟨hval, rfl⟩⟩

theorem Inv.quiet_setMem (h : Inv H m) {x : ℕ} (hx : x ∈ H) (pg : Page) :
    Quiet m.k (m.k.setMem x pg) :=
  .of_pt rfl rfl ((h.mem.fresh hx).view_setMem pg)

/-- Registering a resident page in the frame table. -/
theorem Inv.register (h : Inv H m) {p r va mem : ℕ} (hold : Holds m.k p r)
    (halign : va % pgsize = 0) (hva : va < trapframeVa)
    (hval : (m.k.leaf r (va / pgsize)).has pteV = true)
    (hpa : pte2pa (m.k.leaf r (va / pgsize)) = mem) :
    Inv H ⟨m.k.setFrame (frameIndex mem) ⟨true, some p, va, true⟩, m.calls⟩ := by
  have hv : va / pgsize < userTop :=
    Nat.div_lt_of_lt_mul (by rw [userTop, Nat.mul_div_cancel' (by decide)]; exact hva)
  have hram : RamPage mem := h.mem.ram (o := .leaf r (va / pgsize)) ⟨hv, hval, hpa⟩
  refine ⟨h.mem.congr rfl rfl rfl rfl rfl (fun _ => rfl) (fun _ => rfl) rfl fun i hi => ?_,
    h.log, fun hq i hi => ?_⟩
  · by_cases hij : i = frameIndex mem
    · subst hij
      simpa using hva
    · simp only [Kernel.setFrame_frames, Function.update_of_ne hij] at hi ⊢
      exact h.mem.frame_va i hi
  · by_cases hij : i = frameIndex mem
    · subst hij
      simp only [Kernel.setFrame_frames, Function.update_self]
      exact ⟨halign, p, r, rfl, hold, hval, hpa.trans hram.eq_frame⟩
    · simp only [Kernel.setFrame_frames, Function.update_of_ne hij] at hi ⊢
      exact h.frames hq i hi

end Small

/-! ### Walking -/

section Walk

variable {H : List ℕ} {m : Machine} {root va v : ℕ}

/-- Replacing a table by one with more nodes and the same entries. -/
theorem Quiet.setPt {k : Kernel} {r : ℕ} {t t' : PageTable} (ht : k.pt r = some t)
    (hleaf : t'.leaf = t.leaf) (hlow : ∀ j, (t.low j).isSome → (t'.low j).isSome) :
    Quiet k (k.setPt r (some t')) := by
  have hl : ∀ r' u, (k.setPt r (some t')).leaf r' u = k.leaf r' u := by
    intro r' u
    rw [setPt_leaf ht, hleaf]
    split_ifs with hr
    · rw [hr, Memory.leaf_eq ht]
    · rfl
  refine ⟨rfl, ?_, fun r' u _ => hl r' u, fun r' u _ => hl r' u, fun r' _ u => hl r' u,
    fun r' => ?_, fun r' u => ?_⟩
  · refine view_eq_of_sameView fun r' _ u _ => ?_
    exact Memory.lpage_congr (hl r' u) (fun _ => rfl) fun _ => rfl
  · by_cases hr : r' = r
    · subst hr
      simp [ht]
    · simp [hr]
  · rintro ⟨t₁, ht₁, hlow₁⟩
    by_cases hr : r' = r
    · subst hr
      rw [ht, Option.some.injEq] at ht₁
      subst ht₁
      exact ⟨t', by simp, hlow _ hlow₁⟩
    · exact ⟨t₁, by simpa [hr] using ht₁, hlow₁⟩

theorem Inv.setPt {pa : ℕ} {t t' : PageTable} (h : Inv (pa :: H) m) (ht : m.k.pt root = some t)
    (hleaf : t'.leaf = t.leaf) (hmem : MemInv H (m.k.setPt root (some t'))) :
    Inv H ⟨m.k.setPt root (some t'), m.calls⟩ := by
  refine ⟨hmem, h.log, fun hq => ?_⟩
  refine (h.frames hq).mono h.mem.frame_va (fun _ _ => ⟨rfl, rfl, rfl⟩) (fun _ _ hh => hh) ?_
  intro i r u _ _ hval _
  have heq : (m.k.setPt root (some t')).leaf r u = m.k.leaf r u := by
    rw [setPt_leaf ht, hleaf]
    split_ifs with hr
    · rw [hr, Memory.leaf_eq ht]
    · rfl
  rw [heq]
  exact ⟨hval, rfl⟩

/-- What a walk with `alloc` set does to the state. -/
structure Walked (H : List ℕ) (m m' : Machine) : Prop where
  inv : Inv H m'
  quiet : Quiet m.k m'.k
  held : ∀ x ∈ H, m'.k.mem x = m.k.mem x

theorem Walked.refl (h : Inv H m) : Walked H m m := ⟨h, Quiet.refl _, fun _ _ => rfl⟩

theorem Walked.trans {m₁ m₂ m₃ : Machine} (h : Walked H m₁ m₂) (h' : Walked H m₂ m₃) :
    Walked H m₁ m₃ :=
  ⟨h'.inv, h.quiet.trans h'.quiet, fun x hx => (h'.held x hx).trans (h.held x hx)⟩

/-- A page is obtained, cleared and hung into the table. -/
theorem Walked.hang {m₁ : Machine} {pg : ℕ} {t t' : PageTable} (h : Inv H m)
    (h₁ : Inv (pg :: H) m₁) (hgot : Got m.k m₁.k)
    (ht : (m₁.k.setMem pg (.fill 0)).pt root = some t) (hleaf : t'.leaf = t.leaf)
    (hlow : ∀ j, (t.low j).isSome → (t'.low j).isSome)
    (hmem : MemInv H ((m₁.k.setMem pg (.fill 0)).setPt root (some t'))) :
    Walked H m ⟨(m₁.k.setMem pg (.fill 0)).setPt root (some t'), m₁.calls⟩ := by
  have h₂ := h₁.setMem pg (.fill 0)
  refine ⟨h₂.setPt (m := ⟨m₁.k.setMem pg (.fill 0), m₁.calls⟩) ht hleaf hmem, ?_, ?_⟩
  · exact (hgot.quiet.trans (h₁.quiet_setMem List.mem_cons_self _)).trans
      (Quiet.setPt ht hleaf hlow)
  · intro x hx
    have hne : x ≠ pg := fun heq => (List.nodup_cons.mp h₁.mem.held_nodup).1 (heq ▸ hx)
    have hnf : x ∉ m.k.freelist := (h.mem.fresh hx).not_free
    have hmx := hgot.mem x (h.mem.fresh hx).ram hnf
    simpa [hne] using hmx

theorem walkMid_spec (h : Inv H m) (hv : v / 512 / 512 < 512) :
    wp (walkMid root v) (fun b m' => b = true ∧ Walked H m m' ∧
      ∃ t, m'.k.pt root = some t ∧ (t.mid (v / 512 / 512)).isSome) Crash m := by
  rw [walkMid]
  cases ht : m.k.pt root with
  | none =>
    rw [wp_bind]
    exact wp_of_error (run_table_none ht) h.log
  | some t =>
    rw [wp_bind]
    refine wp_of_ok (run_table ht) ?_
    simp only
    rw [wp_ite]
    refine ⟨fun hmid => ⟨rfl, .refl h, t, ht, hmid⟩, fun hmid => ?_⟩
    refine wp_seq (kalloc_spec h) fun pg m₁ hpage => ?_
    obtain ⟨hpg, h₁, hgot⟩ := hpage
    rw [if_neg hpg, wp_bind, wp_modK, wp_bind]
    cases ht₁ : m₁.k.pt root with
    | none =>
      have hsome := hgot.quiet.roots root
      rw [ht₁, ht] at hsome
      cases hsome
    | some t₁ =>
      obtain ⟨t₀, ht₀, hm, -⟩ := hgot.nodes root t₁ ht₁
      rw [ht, Option.some.injEq] at ht₀
      subst ht₀
      have hnone : t₁.mid (v / 512 / 512) = none := by
        rw [hm]
        exact Option.not_isSome_iff_eq_none.mp hmid
      refine wp_of_ok (run_table (m := ⟨m₁.k.setMem pg (.fill 0), m₁.calls⟩) ht₁) ?_
      rw [wp_bind, wp_modK]
      have h₂ := h₁.setMem pg (.fill 0)
      refine ⟨rfl, Walked.hang h h₁ hgot ht₁ (t₁.addMid_leaf _ pg hnone) (fun j hj => ?_)
        (h₂.mem.addMid ht₁ hv hnone), _, by simp; rfl, ?_⟩
      · rw [t₁.addMid_low _ pg hnone]
        exact hj
      · rw [t₁.addMid_mid _ pg hv]
        simp

theorem walkLow_spec (h : Inv H m)
    (hmid : ∃ t, m.k.pt root = some t ∧ (t.mid (v / 512 / 512)).isSome) :
    wp (walkLow root v) (fun b m' => b = true ∧ Walked H m m' ∧ m'.k.HasEntry root v)
      Crash m := by
  obtain ⟨t, ht, hmid⟩ := hmid
  rw [walkLow, wp_bind]
  refine wp_of_ok (run_table ht) ?_
  simp only
  rw [wp_ite]
  refine ⟨fun hlow => ⟨rfl, .refl h, t, ht, hlow⟩, fun hlow => ?_⟩
  refine wp_seq (kalloc_spec h) fun pg m₁ hpage => ?_
  obtain ⟨hpg, h₁, hgot⟩ := hpage
  rw [if_neg hpg, wp_bind, wp_modK, wp_bind]
  cases ht₁ : m₁.k.pt root with
  | none =>
    have hsome := hgot.quiet.roots root
    rw [ht₁, ht] at hsome
    cases hsome
  | some t₁ =>
    obtain ⟨t₀, ht₀, hm, hl⟩ := hgot.nodes root t₁ ht₁
    rw [ht, Option.some.injEq] at ht₀
    subst ht₀
    have hnone : t₁.low (v / 512) = none := by
      rw [hl]
      exact Option.not_isSome_iff_eq_none.mp hlow
    have hmid₁ : (t₁.mid (v / 512 / 512)).isSome := by
      rw [hm]
      exact hmid
    refine wp_of_ok (run_table (m := ⟨m₁.k.setMem pg (.fill 0), m₁.calls⟩) ht₁) ?_
    rw [wp_bind, wp_modK]
    have h₂ := h₁.setMem pg (.fill 0)
    have hlow₁ := t₁.addLow_low (v / 512) pg hmid₁
    refine ⟨rfl, Walked.hang h h₁ hgot ht₁ (t₁.addLow_leaf _ pg hnone) (fun j hj => ?_)
      (h₂.mem.addLow ht₁ hmid₁ hnone), _, by simp; rfl, ?_⟩
    · rw [hlow₁]
      by_cases hj' : j = v / 512
      · simp [hj']
      · simpa [hj'] using hj
    · rw [hlow₁]
      simp

/-- **Specification of `walk` with `alloc` set**: the entry exists afterwards. -/
theorem walk_spec (h : Inv H m) :
    wp (walk root va true) (fun o m' => o = some (va / pgsize) ∧ va < maxva ∧ Walked H m m' ∧
      m'.k.HasEntry root (va / pgsize)) Crash m := by
  rw [walk, if_pos rfl, walkAlloc, wp_ite]
  refine ⟨fun _ => h.log, fun hva => ?_⟩
  have hlt : va < maxva := Nat.lt_of_not_le hva
  have hidx : va / pgsize / 512 / 512 < 512 := by
    rw [maxva] at hlt
    rw [pgsize]
    omega
  refine wp_seq (walkMid_spec h hidx) ?_
  rintro b m₁ ⟨rfl, hw₁, hmid⟩
  rw [if_pos rfl]
  refine wp_seq (walkLow_spec hw₁.inv hmid) ?_
  rintro b m₂ ⟨rfl, hw₂, hent⟩
  rw [if_pos rfl]
  exact ⟨rfl, hlt, hw₁.trans hw₂, hent⟩

/-- `walk` without `alloc` changes nothing. -/
theorem walk_false_spec {E : Panic → Machine → Prop} (hE : ∀ e, E e m) :
    wp (walk root va false) (fun o m' => m' = m ∧ va < maxva ∧
      (o = none ∧ m.k.leaf root (va / pgsize) = 0 ∧ ¬m.k.HasEntry root (va / pgsize) ∨
        o = some (va / pgsize) ∧ m.k.HasEntry root (va / pgsize))) E m := by
  rw [walk, if_neg (by simp)]
  rcases Nat.lt_or_ge va maxva with hlt | hge
  · cases ht : m.k.pt root with
    | none => exact wp_of_error (run_walkNoalloc_null hlt ht) (hE _)
    | some t =>
      refine wp_of_ok (run_walkNoalloc hlt ht) ⟨rfl, hlt, ?_⟩
      split_ifs with hlow
      · exact Or.inr ⟨rfl, t, ht, hlow⟩
      · have hno : ¬m.k.HasEntry root (va / pgsize) := by
          rintro ⟨t', ht', hlow'⟩
          rw [ht, Option.some.injEq] at ht'
          exact hlow (ht' ▸ hlow')
        exact Or.inl ⟨rfl, Memory.leaf_of_not_hasEntry hno, hno⟩
  · exact wp_of_error (run_walkNoalloc_panic hge) (hE _)

/-- Below `MAXVA` such a walk stops only if there is no table. -/
theorem walk_found_spec (h : LogOK m.calls) (hva : va < maxva) :
    wp (walk root va false) (fun o m' => m' = m ∧ va < maxva ∧
      (o = none ∧ m.k.leaf root (va / pgsize) = 0 ∧ ¬m.k.HasEntry root (va / pgsize) ∨
        o = some (va / pgsize) ∧ m.k.HasEntry root (va / pgsize)))
      (fun e m' => Crash e m' ∧ m.k.pt root = none) m := by
  cases ht : m.k.pt root with
  | none => exact wp_of_error (run_walkNoalloc_null hva ht) ⟨h, rfl⟩
  | some t =>
    have hrun : (walk root va false).run m = .ok _ m := run_walkNoalloc hva ht
    have hfound := wp_ok (walk_false_spec (E := fun _ _ => True) fun _ => trivial) hrun
    exact wp_of_ok hrun hfound

end Walk

/-! ### Mapping -/

section Store

variable {k : Kernel} {r v : ℕ} {e : Pte}

/-- The view after a leaf entry of user memory has been stored. -/
theorem Kernel.view_setLeaf (hent : k.HasEntry r v) (hv : v < userTop) :
    (k.setLeaf r v e).view = View.set k.view r v
      (if e.has pteV then some ⟨k.mem (pte2pa e), e.perm⟩
        else if e.has pteS then some ⟨k.mem (getSwapAddr (swapIndex e)), e.perm⟩ else none) := by
  funext r' v'
  rw [Kernel.view, Memory.lpage, Kernel.setLeaf_leaf k r v e hent, Kernel.setLeaf_mem, View.set]
  by_cases hrv : r' = r ∧ v' = v
  · obtain ⟨rfl, rfl⟩ := hrv
    simp [hv]
  · simp only [if_neg hrv]
    rfl

/-- Entries above user memory are not part of the view. -/
theorem Kernel.view_setLeaf_top (hent : k.HasEntry r v) (hv : userTop ≤ v) :
    (k.setLeaf r v e).view = k.view := by
  funext r' v'
  rw [Kernel.view, Kernel.view]
  split_ifs with hv'
  · refine Memory.lpage_congr ?_ (fun _ => by simp) fun _ => by simp
    rw [Kernel.setLeaf_leaf k r v e hent, if_neg (by omega)]
  · rfl

theorem Kernel.setLeaf_roots (r' : ℕ) : ((k.setLeaf r v e).pt r').isSome = (k.pt r').isSome := by
  rw [Kernel.setLeaf_pt]
  split_ifs <;> simp

/-- The effect of a store to a user entry. -/
theorem Eff.setLeaf (hent : k.HasEntry r v) (hv : v < userTop) {lp : Option LPage}
    (hlp : (if e.has pteV then some (LPage.mk (k.mem (pte2pa e)) e.perm)
        else if e.has pteS then some ⟨k.mem (getSwapAddr (swapIndex e)), e.perm⟩ else none) = lp) :
    Eff k (k.setLeaf r v e) (View.set k.view r v lp) := by
  refine ⟨by simp, by rw [Kernel.view_setLeaf hent hv, hlp], fun r' v' hv' => ?_,
    Kernel.setLeaf_roots⟩
  rw [Kernel.setLeaf_leaf k r v e hent, if_neg (by omega)]

/-- A store to an entry that is not resident does not disturb the frame table. -/
theorem FrameTable.setLeaf {H : List ℕ} (h : FrameTable k) (hm : MemInv H k)
    (hent : k.HasEntry r v) (hval : (k.leaf r v).has pteV = false ∨ userTop ≤ v) :
    FrameTable (k.setLeaf r v e) := by
  refine h.mono hm.frame_va (fun i _ => by rw [Kernel.setLeaf_frames]; exact ⟨rfl, rfl, rfl⟩)
    (fun p r' hh => by rw [Holds, Kernel.setLeaf_toWorld]; exact hh) ?_
  intro i r' v' _ hv' hV _
  rw [Kernel.setLeaf_leaf k r v e hent, if_neg]
  · exact ⟨hV, rfl⟩
  · rintro ⟨rfl, rfl⟩
    rcases hval with hval | htop
    · exact absurd (hval.symm.trans hV) (by simp)
    · omega

end Store

theorem mappages_one (root va pa : ℕ) (perm : Pte) : mappages root va pgsize pa perm =
    if va % pgsize ≠ 0 then throw .mappagesVa else mappagesLoop root perm 1 va pa := by
  rw [mappages, if_neg (show ¬(pgsize % pgsize ≠ 0) by decide),
    if_neg (show ¬(pgsize = 0) by decide)]
  rfl

theorem mappedPte_valid (pa : ℕ) (perm : Pte) : (mappedPte pa perm).has pteV = true := by
  rw [Pte.has_pteV, getLsbD_mappedPte pa perm (by decide)]
  rfl

theorem mappedPte_S (pa : ℕ) (perm : Pte) : (mappedPte pa perm).has pteS = perm.has pteS := by
  rw [Pte.has_pteS, Pte.has_pteS, getLsbD_mappedPte pa perm (by decide)]
  rfl

theorem mappedPte_perm (pa : ℕ) (perm : Pte) : (mappedPte pa perm).perm = perm.perm := by
  simp only [Pte.perm, Pte.has_pteR, Pte.has_pteW, Pte.has_pteX, Pte.has_pteU]
  rw [getLsbD_mappedPte pa perm (by decide), getLsbD_mappedPte pa perm (by decide),
    getLsbD_mappedPte pa perm (by decide), getLsbD_mappedPte pa perm (by decide)]
  rfl

section Mappages

variable {H : List ℕ} {m : Machine} {root va pa : ℕ} {perm : Pte}

/-- **Specification of `mappages` for one user page**: the held page `pa` becomes the content
of a page that had none. -/
theorem mappages_spec (h : Inv (pa :: H) m) (hv : va / pgsize < userTop)
    (hnone : m.k.view root (va / pgsize) = none) (hperm : perm >>> 10 = 0#64)
    (hpS : perm.has pteS = false) :
    wp (mappages root va pgsize pa perm) (fun st m' => st = 0 ∧ va % pgsize = 0 ∧ Inv H m' ∧
      Eff m.k m'.k (View.set m.k.view root (va / pgsize) (some ⟨m.k.mem pa, perm.perm⟩)) ∧
      m'.k.leaf root (va / pgsize) = mappedPte pa perm ∧
      (∀ r, Safe m.k r → ∀ u, ¬(r = root ∧ u = va / pgsize) →
        m'.k.leaf r u = m.k.leaf r u)) Crash m := by
  rw [mappages_one, wp_ite]
  refine ⟨fun _ => h.log, fun halign => ?_⟩
  have hram : RamPage pa := h.mem.ram (o := .held) List.mem_cons_self
  obtain ⟨hV, hS⟩ := (Kernel.view_eq_none_iff hv).mp hnone
  rw [mappagesLoop]
  refine wp_seq (walk_spec h) ?_
  rintro o m₁ ⟨rfl, -, hw, hent⟩
  simp only [wp_bind, wp_loadPte, wp_ite, wp_throw, wp_storePte]
  refine ⟨fun _ => hw.inv.log, fun _ => ?_⟩
  -- the walk may evict, but not touch an entry that is not resident
  have hleaf := hw.quiet.keep root (va / pgsize) hV
  rw [← hleaf] at hV hS
  have hpte := pte2pa_mappedPte hram.pageAddr hperm
  have hview : Eff m₁.k (m₁.k.setLeaf root (va / pgsize) (mappedPte pa perm))
      (View.set m₁.k.view root (va / pgsize) (some ⟨m₁.k.mem pa, perm.perm⟩)) :=
    .setLeaf hent hv (by rw [if_pos (mappedPte_valid _ _), hpte, mappedPte_perm])
  rw [hw.held pa List.mem_cons_self, hw.quiet.view] at hview
  refine ⟨rfl, by simpa using halign, ⟨?_, hw.inv.log, fun hq => ?_⟩, hw.quiet.eff.trans hview,
    ?_, fun r hr u hru => ?_⟩
  · exact hw.inv.mem.mapLeaf hent hv hV (by simp [Pte.swapped, hS]) (mappedPte_valid _ _)
      ((mappedPte_S _ _).trans hpS) hpte
  · exact (hw.inv.frames hq).setLeaf hw.inv.mem hent (Or.inl hV)
  · rw [Kernel.setLeaf_leaf _ _ _ _ hent, if_pos ⟨rfl, rfl⟩]
  · rw [Kernel.setLeaf_leaf _ _ _ _ hent, if_neg hru]
    exact hw.quiet.safe r hr u

/-- `mappages` over an entry above user memory that is resident stops the kernel. -/
theorem mappages_remap (h : Inv H m) (hv : userTop ≤ va / pgsize)
    (hval : (m.k.leaf root (va / pgsize)).has pteV = true) {Q : ℤ → Machine → Prop} :
    wp (mappages root va pgsize pa perm) Q Crash m := by
  rw [mappages_one, wp_ite]
  refine ⟨fun _ => h.log, fun _ => ?_⟩
  rw [mappagesLoop]
  refine wp_seq (walk_spec h) ?_
  rintro o m₁ ⟨rfl, -, hw, -⟩
  simp only [wp_bind, wp_loadPte, wp_ite, wp_throw]
  refine ⟨fun _ => hw.inv.log, fun hno => ?_⟩
  rw [hw.quiet.top root _ hv, hval] at hno
  exact absurd rfl hno

/-- `mappages` of a page above user memory, which no owner is recorded for. -/
theorem mappages_top_spec (h : Inv H m) (hv : userTop ≤ va / pgsize)
    (hs : (m.k.leaf root (va / pgsize)).swapped = false) (hpS : perm.has pteS = false) :
    wp (mappages root va pgsize pa perm) (fun st m' => st = 0 ∧ Inv H m' ∧
      m'.k.toWorld = m.k.toWorld ∧ m'.k.view = m.k.view ∧
      (∀ r, (m'.k.pt r).isSome = (m.k.pt r).isSome) ∧
      m'.k.leaf root (va / pgsize) = mappedPte pa perm ∧
      (∀ r u, userTop ≤ u → ¬(r = root ∧ u = va / pgsize) → m'.k.leaf r u = m.k.leaf r u) ∧
      (∀ r, Safe m.k r → ∀ u, ¬(r = root ∧ u = va / pgsize) →
        m'.k.leaf r u = m.k.leaf r u)) Crash m := by
  rw [mappages_one, wp_ite]
  refine ⟨fun _ => h.log, fun _ => ?_⟩
  rw [mappagesLoop]
  refine wp_seq (walk_spec h) ?_
  rintro o m₁ ⟨rfl, -, hw, hent⟩
  simp only [wp_bind, wp_loadPte, wp_ite, wp_throw, wp_storePte]
  refine ⟨fun _ => hw.inv.log, fun _ => ?_⟩
  have hleaf := hw.quiet.top root _ hv
  have heS : (mappedPte pa perm).has pteS = false := (mappedPte_S _ _).trans hpS
  refine ⟨rfl, ⟨?_, hw.inv.log, fun hq => ?_⟩, by simpa using hw.quiet.world, ?_, ?_, ?_, ?_, ?_⟩
  · exact hw.inv.mem.keepLeaf hent (fun hlt => absurd hlt (by omega)) (by rw [hleaf]; exact hs)
      (by simp [Pte.swapped, heS]) fun _ => heS
  · exact (hw.inv.frames hq).setLeaf hw.inv.mem hent (Or.inr hv)
  · exact (Kernel.view_setLeaf_top hent hv).trans hw.quiet.view
  · exact fun r => (Kernel.setLeaf_roots r).trans (hw.quiet.roots r)
  · rw [Kernel.setLeaf_leaf _ _ _ _ hent, if_pos ⟨rfl, rfl⟩]
  · intro r u hu hru
    rw [Kernel.setLeaf_leaf _ _ _ _ hent, if_neg hru]
    exact hw.quiet.top r u hu
  · intro r hr u hru
    rw [Kernel.setLeaf_leaf _ _ _ _ hent, if_neg hru]
    exact hw.quiet.safe r hr u

end Mappages

end Xv6
