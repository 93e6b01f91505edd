import Xv6.Machine.Kalloc

/-!
# What an eviction does

The search of `evict_page` only clears reference bits, and its candidate is always a used
frame whose owner is not running on another CPU (`ScanInv`). `evictPage_ok` describes a
completed eviction once and for all: the selected frame, its owner, the leaf entry found in
the owner's page table and the slot it was given form a `Victim`, and the state afterwards
is `Kernel.evicted`. `evictPage_error` lists the ways an eviction can stop the kernel.
Everything proved about evictions later goes through these two.
-/

namespace Xv6

open StateLogic

/-! ### Free slots -/

theorem firstFree_spec {mask : ℕ → Bool} {n i j : ℕ} (h : firstFree mask n i = some j) :
    i ≤ j ∧ j < i + n ∧ mask j = false := by
  induction n generalizing i with
  | zero => simp [firstFree] at h
  | succ n ih =>
    rw [firstFree] at h
    by_cases hi : mask i = true
    · rw [if_pos hi] at h
      obtain ⟨h1, h2, h3⟩ := ih h
      exact ⟨by omega, by omega, h3⟩
    · rw [if_neg hi, Option.some.injEq] at h
      subst h
      exact ⟨le_refl _, by omega, by simpa using hi⟩

/-! ### The search -/

/-- A frame that may be taken: in use by a process that is not running on another CPU. -/
def Evictable (k : Kernel) (v : Frame) : Prop :=
  v.isUsed = true ∧ ∃ o, v.p = some o ∧ ¬((k.proc o).state = .running ∧ o ≠ k.cur)

/-- Two entries that differ in the reference bit at most. -/
def Frame.SameUse (a b : Frame) : Prop := a.isUsed = b.isUsed ∧ a.p = b.p ∧ a.va = b.va

theorem Evictable.of_sameUse {k : Kernel} {a b : Frame} (h : Evictable k a)
    (hab : a.SameUse b) : Evictable k b := by
  obtain ⟨hu, o, ho, hs⟩ := h
  exact ⟨hab.1 ▸ hu, o, hab.2.1 ▸ ho, hs⟩

/-- What every turn of the search preserves. -/
structure ScanInv (k : Kernel) (c : Scan) : Prop where
  same : ∀ i, (c.f i).SameUse (k.frames i)
  cand : ∀ i, c.toEvict = some i → Evictable k (k.frames i)

theorem scanInv_scanStep {k : Kernel} {c : Scan} (h : ScanInv k c) :
    ScanInv k (scanStep k c) := by
  rw [scanStep]
  cases hu : (c.f c.clockP).isUsed with
  | false => exact ⟨h.same, h.cand⟩
  | true =>
    cases ho : (c.f c.clockP).p with
    | none => exact ⟨h.same, h.cand⟩
    | some o =>
      simp only
      split_ifs with hrun hrb
      · exact ⟨h.same, h.cand⟩
      · -- the reference bit is cleared
        refine ⟨fun i => ?_, h.cand⟩
        by_cases hi : i = c.clockP
        · subst hi
          obtain ⟨h1, h2, h3⟩ := h.same c.clockP
          simpa [Frame.SameUse] using ⟨h1.symm.trans hu, ho.symm.trans h2, h3⟩
        · simpa [hi] using h.same i
      · have hev : Evictable k (k.frames c.clockP) :=
          Evictable.of_sameUse ⟨hu, o, ho, hrun⟩ (h.same _)
        split
        · refine ⟨h.same, fun i hi => ?_⟩
          rw [Option.some.injEq] at hi
          exact hi ▸ hev
        · split_ifs with hq
          · refine ⟨h.same, fun i hi => ?_⟩
            rw [Option.some.injEq] at hi
            exact hi ▸ hev
          · exact ⟨h.same, h.cand⟩

theorem scanInv_sweep {k : Kernel} (n : ℕ) {c : Scan} (h : ScanInv k c) :
    ScanInv k (sweep k n c) := by
  induction n generalizing c with
  | zero => exact h
  | succ n ih => exact ih (scanInv_scanStep h)

theorem scanInv_secondPass {k : Kernel} {c : Scan} (h : ScanInv k c) :
    ScanInv k (secondPass k c) := by
  rw [secondPass]
  split
  · exact scanInv_sweep nframes h
  · exact h

theorem scanInv_scan (k : Kernel) : ScanInv k k.scan := by
  refine ⟨fun _ => ⟨rfl, rfl, rfl⟩, fun i h => ?_⟩
  cases h

theorem scanInv_selectVictim (k : Kernel) : ScanInv k (selectVictim k) := by
  unfold selectVictim
  exact scanInv_secondPass (scanInv_sweep nframes (scanInv_scan k))

/-! ### The state after the search -/

section Scanned

variable (k : Kernel)

@[simp] theorem Kernel.scanned_toWorld : k.scanned.toWorld = k.toWorld := rfl
@[simp] theorem Kernel.scanned_pt : k.scanned.pt = k.pt := rfl
@[simp] theorem Kernel.scanned_leaf (r u : ℕ) : k.scanned.leaf r u = k.leaf r u := rfl

theorem Kernel.scanned_frames (i : ℕ) : (k.scanned.frames i).SameUse (k.frames i) :=
  (scanInv_selectVictim k).same i

@[simp] theorem Kernel.scanned_isUsed (i : ℕ) :
    (k.scanned.frames i).isUsed = (k.frames i).isUsed := (k.scanned_frames i).1

@[simp] theorem Kernel.scanned_p (i : ℕ) : (k.scanned.frames i).p = (k.frames i).p :=
  (k.scanned_frames i).2.1

@[simp] theorem Kernel.scanned_va (i : ℕ) : (k.scanned.frames i).va = (k.frames i).va :=
  (k.scanned_frames i).2.2

end Scanned

/-! ### A completed eviction -/

/-- Entry `i` of the frame table belongs to process `o`, whose page table maps it at virtual
page `vp` with a valid leaf, and `idx` is the swap slot it is about to get. -/
structure Victim (k : Kernel) (i o vp idx : ℕ) : Prop where
  owner : (k.frames i).p = some o
  page : (k.frames i).va / pgsize = vp
  va_lt : (k.frames i).va < maxva
  valid : (k.leaf (k.proc o).pagetable vp).has pteV = true
  slot : firstFree k.swapMask maxSp 0 = some idx

/-- The state after evicting that victim. -/
def Kernel.evicted (k : Kernel) (i o vp idx : ℕ) : Kernel :=
  (k.setSlot idx true).swapOut i o (k.proc o).pagetable vp idx

theorem run_walkNoalloc {m : Machine} {root va : ℕ} {t : PageTable} (hva : va < maxva)
    (ht : m.k.pt root = some t) : (walkNoalloc root va).run m = .ok
      (if (t.low (va / pgsize / 512)).isSome then some (va / pgsize) else none) m := by
  rw [walkNoalloc, if_neg (by omega), run_bind_ok (run_table ht)]
  simp only
  cases hl : t.low (va / pgsize / 512) with
  | none => cases t.mid (va / pgsize / 512 / 512) <;> simp
  | some b =>
    have hmid := t.mid_of_low _ (Option.isSome_iff_exists.mpr ⟨b, hl⟩)
    cases hm : t.mid (va / pgsize / 512 / 512) with
    | none =>
      rw [hm] at hmid
      cases hmid
    | some a => simp

theorem run_walkNoalloc_panic {m : Machine} {root va : ℕ} (hva : maxva ≤ va) :
    (walkNoalloc root va).run m = .error .walk m := by
  rw [walkNoalloc, if_pos hva]
  rfl

theorem run_walkNoalloc_null {m : Machine} {root va : ℕ} (hva : va < maxva)
    (ht : m.k.pt root = none) : (walkNoalloc root va).run m = .error .kerneltrap m := by
  rw [walkNoalloc, if_neg (by omega), run_bind_error (run_table_none ht)]

theorem run_allocSwapIndex (m : Machine) : allocSwapIndex.run m =
    match firstFree m.k.swapMask maxSp 0 with
    | none => .ok none m
    | some i => .ok (some i) { m with k := m.k.setSlot i true } := by
  rw [allocSwapIndex, run_bind_ok (run_getK m)]
  cases firstFree m.k.swapMask maxSp 0 <;> rfl

/-- The panics the second half of an eviction can end in, with what each one reports about
the selected entry `i`. -/
inductive FramePanic (k : Kernel) (i : ℕ) : Panic → Prop
  | noOwner : (k.frames i).p = none → FramePanic k i .kerneltrap
  | walk {o : ℕ} : (k.frames i).p = some o → maxva ≤ (k.frames i).va → FramePanic k i .walk
  | kerneltrap {o : ℕ} : (k.frames i).p = some o → k.pt (k.proc o).pagetable = none →
      FramePanic k i .kerneltrap
  | pteNotValid3 {o : ℕ} : (k.frames i).p = some o →
      (k.leaf (k.proc o).pagetable ((k.frames i).va / pgsize)).has pteV = false →
      FramePanic k i .pteNotValid3
  | oom : firstFree k.swapMask maxSp 0 = none → FramePanic k i .oom

/-- **Evicting a selected frame either completes or stops with a reason.** -/
theorem evictFrame_cases (i : ℕ) (m : Machine) :
    (∃ o vp idx, Victim m.k i o vp idx ∧
      (evictFrame i).run m = .ok (pte2pa (m.k.leaf (m.k.proc o).pagetable vp))
        ⟨m.k.evicted i o vp idx, m.calls⟩) ∨
    (∃ e, FramePanic m.k i e ∧ (evictFrame i).run m = .error e m) := by
  rw [evictFrame, run_bind_ok (run_getK _)]
  cases ho : (m.k.frames i).p with
  | none => exact Or.inr ⟨_, .noOwner ho, rfl⟩
  | some o =>
    simp only
    rcases Nat.lt_or_ge (m.k.frames i).va maxva with hlt | hge
    · cases ht : m.k.pt (m.k.proc o).pagetable with
      | none =>
        rw [run_bind_error (run_walkNoalloc_null hlt ht)]
        exact Or.inr ⟨_, .kerneltrap ho ht, rfl⟩
      | some t =>
        rw [run_bind_ok (run_walkNoalloc hlt ht)]
        cases hv : (m.k.leaf (m.k.proc o).pagetable ((m.k.frames i).va / pgsize)).has pteV with
        | false =>
          refine Or.inr ⟨_, .pteNotValid3 ho hv, ?_⟩
          split_ifs
          · simp only [hv, Bool.not_false, if_true]
            rfl
          · rfl
        | true =>
          have hne : t.leaf ((m.k.frames i).va / pgsize) ≠ 0 := by
            intro h0
            rw [Memory.leaf_eq ht, h0] at hv
            cases hv
          rw [if_pos (t.low_of_leaf _ hne)]
          simp only [hv, Bool.not_true, Bool.false_eq_true, if_false]
          rw [EStateM.run_bind, run_allocSwapIndex]
          cases hs : firstFree m.k.swapMask maxSp 0 with
          | none => exact Or.inr ⟨_, .oom hs, rfl⟩
          | some idx => exact Or.inl ⟨o, _, idx, ⟨ho, rfl, hlt, hv, hs⟩, rfl⟩
    · rw [run_bind_error (run_walkNoalloc_panic hge)]
      exact Or.inr ⟨_, .walk ho hge, rfl⟩

/-- The outcome of the search decides how `evict_page` goes on. -/
theorem run_evictPage (m : Machine) : evictPage.run m =
    match (selectVictim m.k).toEvict with
    | none => .error .cannotEvict ⟨m.k.scanned, .evictPage m.k :: m.calls⟩
    | some i => (evictFrame i).run ⟨m.k.scanned, .evictPage m.k :: m.calls⟩ := by
  rw [evictPage, run_bind_ok (run_record _ m), run_bind_ok (run_getK _),
    run_bind_ok (run_modK _ _)]
  simp only
  cases (selectVictim m.k).toEvict <;> rfl

/-- **A completed eviction.** The search selected an evictable entry `i`, and that entry was
swapped out. -/
theorem evictPage_ok {m m' : Machine} {pa : ℕ} (h : evictPage.run m = .ok pa m') :
    ∃ i o vp idx, (selectVictim m.k).toEvict = some i ∧ Evictable m.k (m.k.frames i) ∧
      Victim m.k.scanned i o vp idx ∧ pa = pte2pa (m.k.leaf (m.k.proc o).pagetable vp) ∧
      m' = ⟨m.k.scanned.evicted i o vp idx, .evictPage m.k :: m.calls⟩ := by
  rw [run_evictPage] at h
  cases hsel : (selectVictim m.k).toEvict with
  | none =>
    rw [hsel] at h
    cases h
  | some i =>
    rw [hsel] at h
    rcases evictFrame_cases i ⟨m.k.scanned, .evictPage m.k :: m.calls⟩ with
      ⟨o, vp, idx, hv, hrun⟩ | ⟨e, -, hrun⟩
    · have heq := hrun.symm.trans h
      cases heq
      exact ⟨i, o, vp, idx, rfl, (scanInv_selectVictim m.k).cand i hsel, hv, rfl, rfl⟩
    · have heq := hrun.symm.trans h
      cases heq

/-- **An eviction that stops** has found no candidate, or a candidate it cannot swap out. -/
theorem evictPage_error {m m' : Machine} {e : Panic} (h : evictPage.run m = .error e m') :
    m' = ⟨m.k.scanned, .evictPage m.k :: m.calls⟩ ∧
      ((selectVictim m.k).toEvict = none ∧ e = .cannotEvict ∨
        ∃ i, (selectVictim m.k).toEvict = some i ∧ Evictable m.k (m.k.frames i) ∧
          FramePanic m.k.scanned i e) := by
  rw [run_evictPage] at h
  cases hsel : (selectVictim m.k).toEvict with
  | none =>
    rw [hsel] at h
    cases h
    exact ⟨rfl, Or.inl ⟨rfl, rfl⟩⟩
  | some i =>
    rw [hsel] at h
    rcases evictFrame_cases i ⟨m.k.scanned, .evictPage m.k :: m.calls⟩ with
      ⟨o, vp, idx, -, hrun⟩ | ⟨e', he', hrun⟩
    · have heq := hrun.symm.trans h
      cases heq
    · have heq := hrun.symm.trans h
      cases heq
      exact ⟨rfl, Or.inr ⟨i, rfl, (scanInv_selectVictim m.k).cand i hsel, he'⟩⟩

end Xv6
