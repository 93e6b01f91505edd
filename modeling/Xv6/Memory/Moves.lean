import Xv6.Memory.Inv

/-!
# Pages changing hands

The moves of single pages that do not go through a leaf entry: to and from the free list,
into and out of page tables as nodes, and to and from the owners outside the memory code
(trapframes, pipes, arguments of `exec`).
-/

namespace Xv6

open Ownership

/-- Handing over the first held page leaves the others. -/
theorem mem_held_iff {pa : ℕ} {H : List ℕ} (hnot : pa ∉ H) (x : ℕ) :
    x ∈ H ↔ x ∈ pa :: H ∧ x ≠ pa := by
  rw [List.mem_cons]
  constructor
  · intro hx
    exact ⟨Or.inr hx, fun hxp => hnot (hxp ▸ hx)⟩
  · rintro ⟨rfl | hx, hne⟩
    · exact absurd rfl hne
    · exact hx

/-! ### The free list -/

section Free

variable {H : List ℕ} {k : Kernel} {pa : ℕ}

/-- What `kfree` leaves of a page: its frame-table entry is cleared, its bytes are
overwritten and it heads the free list. -/
def Kernel.freed (k : Kernel) (pa : ℕ) : Kernel :=
  ((k.setFrame (frameIndex pa) .clear).setMem pa (.fill 1)).setFree (pa :: k.freelist)

theorem MemInv.popFree (h : MemInv H k) {rest : List ℕ} (hf : k.freelist = pa :: rest) :
    MemInv (pa :: H) (k.setFree rest) := by
  have hfree : pa ∈ k.own H .free := by
    rw [Kernel.own, Set.mem_ofPred_eq, hf]
    exact List.mem_cons_self
  have hnot : pa ∉ H := fun hmem => h.own.not_mem hfree (show Owner.held ≠ .free by simp) hmem
  have hnd : (pa :: rest).Nodup := hf ▸ h.free_nodup
  refine ⟨h.kend_le, ?_, (List.nodup_cons.mp hnd).2, List.nodup_cons.mpr ⟨hnot, h.held_nodup⟩,
    h.args_nodup, h.slots, h.excl, h.frame_va⟩
  refine h.own.move (a := .free) (b := .held) hfree (fun x => ?_) (fun x => ?_) ?_
  · have := mem_held_iff (List.nodup_cons.mp hnd).1 x
    rw [← hf] at this
    exact this
  · simp [Kernel.own, or_comm]
  · intro o ha hb x
    cases o with
    | free => exact absurd rfl ha
    | held => exact absurd rfl hb
    | _ => exact Iff.rfl

theorem MemInv.pushFree (h : MemInv (pa :: H) k) : MemInv H (k.setFree (pa :: k.freelist)) := by
  have hheld : pa ∈ k.own (pa :: H) .held := List.mem_cons_self
  obtain ⟨hnot, hnd⟩ := List.nodup_cons.mp h.held_nodup
  have hnf : pa ∉ k.freelist := fun hmem =>
    h.own.not_mem hheld (show Owner.free ≠ .held by simp) hmem
  refine ⟨h.kend_le, ?_, List.nodup_cons.mpr ⟨hnf, h.free_nodup⟩, hnd, h.args_nodup, h.slots,
    h.excl, h.frame_va⟩
  refine h.own.move (a := .held) (b := .free) hheld (fun x => mem_held_iff hnot x)
    (fun x => ?_) ?_
  · simp [Kernel.own, or_comm]
  · intro o ha hb x
    cases o with
    | free => exact absurd rfl hb
    | held => exact absurd rfl ha
    | _ => exact Iff.rfl

theorem frame_va_setFrame_clear (h : MemInv H k) (j i : ℕ)
    (hi : ((k.setFrame j .clear).frames i).isUsed = true) :
    ((k.setFrame j .clear).frames i).va < trapframeVa := by
  rw [Kernel.setFrame_frames] at hi ⊢
  by_cases hij : i = j
  · subst hij
    simp [Frame.clear] at hi
  · rw [Function.update_of_ne hij] at hi ⊢
    exact h.frame_va i hi

/-- `kfree` of a held page. -/
theorem MemInv.freed (h : MemInv (pa :: H) k) : MemInv H (k.freed pa) :=
  h.pushFree.congr rfl rfl rfl rfl rfl (fun _ => rfl) (fun _ => rfl) rfl
    (frame_va_setFrame_clear h (frameIndex pa))

end Free

/-! ### Page-table nodes -/

section Nodes

variable {H : List ℕ} {k : Kernel} {r pa : ℕ} {t t' : PageTable}

/-- The two tables have the same resident and swapped-out entries. -/
def PageTable.LiveEq (t t' : PageTable) : Prop :=
  ∀ u, t'.leaf u = t.leaf u ∨
    t'.leaf u = 0 ∧ (t.leaf u).has pteV = false ∧ (t.leaf u).has pteS = false

theorem PageTable.LiveEq.of_eq (h : t'.leaf = t.leaf) : t.LiveEq t' := fun u => Or.inl (by rw [h])

theorem setPt_leaf (ht : k.pt r = some t) (r' v : ℕ) :
    (k.setPt r (some t')).leaf r' v = if r' = r then t'.leaf v else k.leaf r' v := by
  rw [Memory.leaf, Memory.leaf, Kernel.setPt_pt]
  by_cases hr : r' = r
  · subst hr
    simp
  · simp [hr]

theorem LiveEq.valid_iff (ht : k.pt r = some t) (hl : t.LiveEq t') (r' v : ℕ) :
    ((k.setPt r (some t')).leaf r' v).has pteV = (k.leaf r' v).has pteV ∧
      ((k.leaf r' v).has pteV = true → (k.setPt r (some t')).leaf r' v = k.leaf r' v) := by
  rw [setPt_leaf ht]
  split_ifs with hr
  · subst hr
    rw [Memory.leaf_eq ht]
    rcases hl v with heq | ⟨h0, hv, -⟩
    · rw [heq]
      exact ⟨rfl, fun _ => rfl⟩
    · rw [h0, hv]
      exact ⟨by decide, fun h => by cases h⟩
  · exact ⟨rfl, fun _ => rfl⟩

theorem LiveEq.swapped_iff (ht : k.pt r = some t) (hl : t.LiveEq t') (r' v : ℕ) :
    ((k.setPt r (some t')).leaf r' v).swapped = (k.leaf r' v).swapped ∧
      ((k.leaf r' v).swapped = true → (k.setPt r (some t')).leaf r' v = k.leaf r' v) := by
  rw [setPt_leaf ht]
  split_ifs with hr
  · subst hr
    rw [Memory.leaf_eq ht]
    rcases hl v with heq | ⟨h0, hv, hs⟩
    · rw [heq]
      exact ⟨rfl, fun _ => rfl⟩
    · rw [h0]
      simp only [Pte.swapped, hs, Bool.false_and]
      exact ⟨by decide, fun h => by cases h⟩
  · exact ⟨rfl, fun _ => rfl⟩

/-- Replacing a table by one with the same live entries changes the nodes' owners only. -/
theorem mem_own_setPt (ht : k.pt r = some t) (hl : t.LiveEq t') (o : Owner) (x : ℕ) :
    x ∈ (k.setPt r (some t')).own H o ↔
      match o with
      | .mid r' i => if r' = r then t'.mid i = some x else x ∈ k.own H (.mid r' i)
      | .low r' j => if r' = r then t'.low j = some x else x ∈ k.own H (.low r' j)
      | o => x ∈ k.own H o := by
  cases o with
  | leaf r' v =>
    obtain ⟨hv, heq⟩ := LiveEq.valid_iff ht hl r' v
    simp only [Kernel.own, Set.mem_ofPred_eq, hv]
    refine and_congr_right fun _ => and_congr_right fun hval => ?_
    rw [heq hval]
  | root r' =>
    by_cases hr : r' = r
    · subst hr
      simp [Kernel.own, ht]
    · simp [Kernel.own, hr]
  | mid r' i =>
    by_cases hr : r' = r
    · subst hr
      simp [Kernel.own]
    · simp [Kernel.own, hr]
  | low r' j =>
    by_cases hr : r' = r
    · subst hr
      simp [Kernel.own]
    · simp [Kernel.own, hr]
  | _ => exact Iff.rfl

theorem slots_setPt (h : MemInv H k) (ht : k.pt r = some t) (hl : t.LiveEq t') :
    Exact (k.setPt r (some t')).slotOwn (k.setPt r (some t')).slots := by
  refine h.slots.congr fun o x => ?_
  obtain ⟨hs, heq⟩ := LiveEq.swapped_iff ht hl o.1 o.2
  simp only [Kernel.slotOwn, Set.mem_ofPred_eq, hs]
  exact and_congr_right fun hsw => by rw [heq hsw]

theorem excl_setPt (h : MemInv H k) (ht : k.pt r = some t) (hl : t.LiveEq t') (r' v : ℕ)
    (hval : ((k.setPt r (some t')).leaf r' v).has pteV = true) :
    ((k.setPt r (some t')).leaf r' v).has pteS = false := by
  obtain ⟨hv, heq⟩ := LiveEq.valid_iff ht hl r' v
  rw [hv] at hval
  rw [heq hval]
  exact h.excl r' v hval

/-- `walk` hangs a held page below the root. -/
theorem MemInv.addMid (h : MemInv (pa :: H) k) (ht : k.pt r = some t) {i : ℕ} (hi : i < 512)
    (hmid : t.mid i = none) : MemInv H (k.setPt r (some (t.addMid i pa))) := by
  have hl : t.LiveEq (t.addMid i pa) := .of_eq (t.addMid_leaf i pa hmid)
  obtain ⟨hnot, hnd⟩ := List.nodup_cons.mp h.held_nodup
  refine ⟨h.kend_le, ?_, h.free_nodup, hnd, h.args_nodup, slots_setPt h ht hl,
    excl_setPt h ht hl, h.frame_va⟩
  refine h.own.move (a := .held) (b := .mid r i) (r := pa) List.mem_cons_self
    (fun x => mem_held_iff hnot x) (fun x => ?_) fun o ha hb x => ?_
  · rw [mem_own_setPt ht hl]
    simp [Kernel.own, ht, hmid, t.addMid_mid i pa hi, eq_comm]
  · rw [mem_own_setPt ht hl]
    cases o with
    | held => exact absurd rfl ha
    | mid r' i' =>
      by_cases hr : r' = r
      · subst hr
        have hne : i' ≠ i := fun heq => hb (heq ▸ rfl)
        simp [Kernel.own, ht, t.addMid_mid i pa hi, hne]
      · simp [hr, Kernel.own]
    | low r' j =>
      by_cases hr : r' = r
      · subst hr
        simp [Kernel.own, ht, t.addMid_low i pa hmid]
      · simp [hr, Kernel.own]
    | _ => exact Iff.rfl

/-- `walk` hangs a held page below a level-1 table. -/
theorem MemInv.addLow (h : MemInv (pa :: H) k) (ht : k.pt r = some t) {j : ℕ}
    (hmid : (t.mid (j / 512)).isSome) (hlow : t.low j = none) :
    MemInv H (k.setPt r (some (t.addLow j pa))) := by
  have hl : t.LiveEq (t.addLow j pa) := .of_eq (t.addLow_leaf j pa hlow)
  obtain ⟨hnot, hnd⟩ := List.nodup_cons.mp h.held_nodup
  refine ⟨h.kend_le, ?_, h.free_nodup, hnd, h.args_nodup, slots_setPt h ht hl,
    excl_setPt h ht hl, h.frame_va⟩
  refine h.own.move (a := .held) (b := .low r j) (r := pa) List.mem_cons_self
    (fun x => mem_held_iff hnot x) (fun x => ?_) fun o ha hb x => ?_
  · rw [mem_own_setPt ht hl]
    simp [Kernel.own, ht, hlow, t.addLow_low j pa hmid, eq_comm]
  · rw [mem_own_setPt ht hl]
    cases o with
    | held => exact absurd rfl ha
    | mid r' i =>
      by_cases hr : r' = r
      · subst hr
        simp [Kernel.own, ht]
      · simp [hr, Kernel.own]
    | low r' j' =>
      by_cases hr : r' = r
      · subst hr
        have hne : j' ≠ j := fun heq => hb (heq ▸ rfl)
        simp [Kernel.own, ht, t.addLow_low j pa hmid, hne]
      · simp [hr, Kernel.own]
    | _ => exact Iff.rfl

/-- `freewalk` detaches a level-0 table without live entries. -/
theorem MemInv.dropLow (h : MemInv H k) (ht : k.pt r = some t) {j : ℕ}
    (hlow : t.low j = some pa)
    (hdead : ∀ u, u / 512 = j → (t.leaf u).has pteV = false ∧ (t.leaf u).has pteS = false) :
    MemInv (pa :: H) (k.setPt r (some (t.dropLow j))) := by
  have hl : t.LiveEq (t.dropLow j) := by
    intro u
    by_cases hu : u / 512 = j
    · exact Or.inr ⟨by simp [PageTable.dropLow, hu], hdead u hu⟩
    · exact Or.inl (by simp [PageTable.dropLow, hu])
  have hown : pa ∈ k.own H (.low r j) := ⟨t, ht, hlow⟩
  have hnot : pa ∉ H := fun hmem =>
    h.own.not_mem hown (show Owner.held ≠ .low r j by simp) hmem
  refine ⟨h.kend_le, ?_, h.free_nodup, List.nodup_cons.mpr ⟨hnot, h.held_nodup⟩, h.args_nodup,
    slots_setPt h ht hl, excl_setPt h ht hl, h.frame_va⟩
  refine h.own.move (a := .low r j) (b := .held) hown (fun x => ?_) (fun x => ?_)
    fun o ha hb x => ?_
  · rw [mem_own_setPt ht hl]
    simp [Kernel.own, ht, hlow, PageTable.dropLow, eq_comm]
  · rw [mem_own_setPt ht hl]
    simp [Kernel.own, or_comm]
  · rw [mem_own_setPt ht hl]
    cases o with
    | held => exact absurd rfl hb
    | mid r' i =>
      by_cases hr : r' = r
      · subst hr
        simp [Kernel.own, ht, PageTable.dropLow]
      · simp [hr, Kernel.own]
    | low r' j' =>
      by_cases hr : r' = r
      · subst hr
        have hne : j' ≠ j := fun heq => ha (heq ▸ rfl)
        simp [Kernel.own, ht, PageTable.dropLow, hne]
      · simp [hr, Kernel.own]
    | _ => exact Iff.rfl

/-- `freewalk` detaches a level-1 table without level-0 tables. -/
theorem MemInv.dropMid (h : MemInv H k) (ht : k.pt r = some t) {i : ℕ}
    (hmid : t.mid i = some pa) (hlow : ∀ j, j / 512 = i → t.low j = none) :
    MemInv (pa :: H) (k.setPt r (some (t.dropMid i))) := by
  have hleaf : (t.dropMid i).leaf = t.leaf := by
    funext u
    by_cases hu : u / 512 / 512 = i
    · have hz : t.leaf u = 0 := by
        by_contra hne
        have hsome := t.low_of_leaf u hne
        rw [hlow _ hu] at hsome
        cases hsome
      simp [PageTable.dropMid, hu, hz]
    · simp [PageTable.dropMid, hu]
  have hl : t.LiveEq (t.dropMid i) := .of_eq hleaf
  have hown : pa ∈ k.own H (.mid r i) := ⟨t, ht, hmid⟩
  have hnot : pa ∉ H := fun hmem =>
    h.own.not_mem hown (show Owner.held ≠ .mid r i by simp) hmem
  refine ⟨h.kend_le, ?_, h.free_nodup, List.nodup_cons.mpr ⟨hnot, h.held_nodup⟩, h.args_nodup,
    slots_setPt h ht hl, excl_setPt h ht hl, h.frame_va⟩
  refine h.own.move (a := .mid r i) (b := .held) hown (fun x => ?_) (fun x => ?_)
    fun o ha hb x => ?_
  · rw [mem_own_setPt ht hl]
    simp [Kernel.own, ht, hmid, PageTable.dropMid, eq_comm]
  · rw [mem_own_setPt ht hl]
    simp [Kernel.own, or_comm]
  · rw [mem_own_setPt ht hl]
    cases o with
    | held => exact absurd rfl hb
    | mid r' i' =>
      by_cases hr : r' = r
      · subst hr
        have hne : i' ≠ i := fun heq => ha (heq ▸ rfl)
        simp [Kernel.own, ht, PageTable.dropMid, hne]
      · simp [hr, Kernel.own]
    | low r' j =>
      by_cases hr : r' = r
      · subst hr
        by_cases hj : j / 512 = i
        · simp [Kernel.own, ht, PageTable.dropMid, hj, hlow j hj]
        · simp [Kernel.own, ht, PageTable.dropMid, hj]
      · simp [hr, Kernel.own]
    | _ => exact Iff.rfl

end Nodes

/-! ### Roots -/

section Roots

variable {H : List ℕ} {k : Kernel} {r : ℕ} {t : PageTable}

/-- A held page is not the root of a table. -/
theorem MemInv.pt_none (h : MemInv H k) (hr : r ∈ H) : k.pt r = none := by
  cases ht : k.pt r with
  | none => rfl
  | some t =>
    have := h.own.uniq .held (.root r) r hr ⟨by rw [ht]; rfl, rfl⟩
    cases this

/-- Adding or removing a table without any entry. -/
theorem leaf_setPt_dead {o : Option PageTable} (hold : ∀ t, k.pt r = some t → ∀ v, t.leaf v = 0)
    (hnew : ∀ t, o = some t → ∀ v, t.leaf v = 0) (r' v : ℕ) :
    (k.setPt r o).leaf r' v = k.leaf r' v := by
  by_cases hr : r' = r
  · subst hr
    rw [Memory.leaf, Memory.leaf, Kernel.setPt_pt, Function.update_self]
    cases o with
    | none =>
      cases ht : k.pt r' with
      | none => rfl
      | some t => exact (hold t ht v).symm
    | some t' =>
      cases ht : k.pt r' with
      | none => exact hnew t' rfl v
      | some t => exact (hnew t' rfl v).trans (hold t ht v).symm
  · rw [Memory.leaf, Memory.leaf, Kernel.setPt_pt, Function.update_of_ne hr]

/-- `uvmcreate`: a held page becomes the root of an empty table. -/
theorem MemInv.addRoot (h : MemInv (r :: H) k) : MemInv H (k.setPt r (some .empty)) := by
  have hnone := h.pt_none List.mem_cons_self
  have hleaf : ∀ r' v, (k.setPt r (some .empty)).leaf r' v = k.leaf r' v := by
    refine leaf_setPt_dead (fun t ht => ?_) fun t ht v => ?_
    · rw [hnone] at ht
      cases ht
    · cases ht
      rfl
  obtain ⟨hnot, hnd⟩ := List.nodup_cons.mp h.held_nodup
  refine ⟨h.kend_le, ?_, h.free_nodup, hnd, h.args_nodup, ?_, ?_, h.frame_va⟩
  · refine h.own.move (a := .held) (b := .root r) (r := r) List.mem_cons_self
      (fun x => mem_held_iff hnot x) (fun x => ?_) fun o ha hb x => ?_
    · simp [Kernel.own, hnone, eq_comm]
    · cases o with
      | held => exact absurd rfl ha
      | leaf r' v => simp only [Kernel.own, hleaf]
      | root r' =>
        have hr : r' ≠ r := fun heq => hb (heq ▸ rfl)
        simp [Kernel.own, hr]
      | mid r' i =>
        by_cases hr : r' = r
        · subst hr
          simp [Kernel.own, hnone, PageTable.empty]
        · simp [Kernel.own, hr]
      | low r' j =>
        by_cases hr : r' = r
        · subst hr
          simp [Kernel.own, hnone, PageTable.empty]
        · simp [Kernel.own, hr]
      | _ => exact Iff.rfl
  · refine h.slots.congr fun o x => ?_
    simp only [Kernel.slotOwn, hleaf]
  · intro r' v hval
    rw [hleaf] at hval ⊢
    exact h.excl r' v hval

/-- `freewalk`: the root of a table without nodes comes into the caller's hands. -/
theorem MemInv.dropRoot (h : MemInv H k) (ht : k.pt r = some t) (hmid : ∀ i, t.mid i = none) :
    MemInv (r :: H) (k.setPt r none) := by
  have hlow : ∀ j, t.low j = none := by
    intro j
    by_contra hne
    have hsome := t.mid_of_low j (Option.isSome_iff_ne_none.mpr hne)
    rw [hmid] at hsome
    cases hsome
  have hzero : ∀ v, t.leaf v = 0 := by
    intro v
    by_contra hne
    have hsome := t.low_of_leaf v hne
    rw [hlow] at hsome
    cases hsome
  have hleaf : ∀ r' v, (k.setPt r none).leaf r' v = k.leaf r' v := by
    refine leaf_setPt_dead (fun t' ht' => ?_) fun t' ht' => by cases ht'
    rw [ht] at ht'
    cases ht'
    exact hzero
  have hown : r ∈ k.own H (.root r) := ⟨by rw [ht]; rfl, rfl⟩
  have hnot : r ∉ H := fun hmem =>
    h.own.not_mem hown (show Owner.held ≠ .root r by simp) hmem
  refine ⟨h.kend_le, ?_, h.free_nodup, List.nodup_cons.mpr ⟨hnot, h.held_nodup⟩, h.args_nodup,
    ?_, ?_, h.frame_va⟩
  · refine h.own.move (a := .root r) (b := .held) hown (fun x => ?_) (fun x => ?_)
      fun o ha hb x => ?_
    · simp [Kernel.own, ht, eq_comm]
    · simp [Kernel.own, or_comm]
    · cases o with
      | held => exact absurd rfl hb
      | leaf r' v => simp only [Kernel.own, hleaf]
      | root r' =>
        have hr : r' ≠ r := fun heq => ha (heq ▸ rfl)
        simp [Kernel.own, hr]
      | mid r' i =>
        by_cases hr : r' = r
        · subst hr
          simp [Kernel.own, ht, hmid]
        · simp [Kernel.own, hr]
      | low r' j =>
        by_cases hr : r' = r
        · subst hr
          simp [Kernel.own, ht, hlow]
        · simp [Kernel.own, hr]
      | _ => exact Iff.rfl
  · refine h.slots.congr fun o x => ?_
    simp only [Kernel.slotOwn, hleaf]
  · intro r' v hval
    rw [hleaf] at hval ⊢
    exact h.excl r' v hval

end Roots

/-! ### Owners outside the memory code -/

section World

variable {H : List ℕ} {k : Kernel} {p pa : ℕ} {q : Proc}

theorem MemInv.setProc (h : MemInv H k) (hq : q.trapframe = (k.proc p).trapframe) :
    MemInv H (k.setProc p q) := by
  refine h.congr rfl rfl rfl rfl rfl (fun p' => ?_) (fun _ => rfl) rfl h.frame_va
  by_cases hp : p' = p
  · subst hp
    simpa using hq
  · simp [hp]

/-- A held page becomes a trapframe. -/
theorem MemInv.giveTrapframe (h : MemInv (pa :: H) k) (hp : (k.proc p).trapframe = 0)
    (hq : q.trapframe = pa) : MemInv H (k.setProc p q) := by
  obtain ⟨hnot, hnd⟩ := List.nodup_cons.mp h.held_nodup
  have hne : pa ≠ 0 := (h.ram (o := .held) List.mem_cons_self).ne_zero
  refine ⟨h.kend_le, ?_, h.free_nodup, hnd, h.args_nodup, h.slots, h.excl, h.frame_va⟩
  refine h.own.move (a := .held) (b := .trapframe p) (r := pa) List.mem_cons_self
    (fun x => mem_held_iff hnot x) (fun x => ?_) fun o ha hb x => ?_
  · simp only [Kernel.own, Set.mem_ofPred_eq, Kernel.setProc_proc, Function.update_self, hq, hp]
    constructor
    · rintro ⟨-, rfl⟩
      exact Or.inr rfl
    · rintro (⟨h0, rfl⟩ | rfl)
      · exact absurd rfl h0
      · exact ⟨hne, rfl⟩
  · cases o with
    | held => exact absurd rfl ha
    | trapframe p' =>
      have hpp : p' ≠ p := fun heq => hb (heq ▸ rfl)
      simp [Kernel.own, hpp]
    | _ => exact Iff.rfl

/-- A process gives up its trapframe. -/
theorem MemInv.takeTrapframe (h : MemInv H k) (hne : (k.proc p).trapframe ≠ 0)
    (hq : q.trapframe = 0) : MemInv ((k.proc p).trapframe :: H) (k.setProc p q) := by
  have hown : (k.proc p).trapframe ∈ k.own H (.trapframe p) := ⟨hne, rfl⟩
  have hnot : (k.proc p).trapframe ∉ H := fun hmem =>
    h.own.not_mem hown (show Owner.held ≠ .trapframe p by simp) hmem
  refine ⟨h.kend_le, ?_, h.free_nodup, List.nodup_cons.mpr ⟨hnot, h.held_nodup⟩, h.args_nodup,
    h.slots, h.excl, h.frame_va⟩
  refine h.own.move (a := .trapframe p) (b := .held) hown (fun x => ?_) (fun x => ?_)
    fun o ha hb x => ?_
  · simp only [Kernel.own, Set.mem_ofPred_eq, Kernel.setProc_proc, Function.update_self, hq]
    constructor
    · rintro ⟨h0, rfl⟩
      exact absurd rfl h0
    · rintro ⟨⟨-, rfl⟩, hx⟩
      exact absurd rfl hx
  · simp [Kernel.own, or_comm]
  · cases o with
    | held => exact absurd rfl hb
    | trapframe p' =>
      have hpp : p' ≠ p := fun heq => ha (heq ▸ rfl)
      simp [Kernel.own, hpp]
    | _ => exact Iff.rfl

/-- A held page becomes a pipe. -/
theorem MemInv.givePipe (h : MemInv (pa :: H) k) (pi : Pipe) :
    MemInv H (k.setPipe pa (some pi)) := by
  obtain ⟨hnot, hnd⟩ := List.nodup_cons.mp h.held_nodup
  refine ⟨h.kend_le, ?_, h.free_nodup, hnd, h.args_nodup, h.slots, h.excl, h.frame_va⟩
  refine h.own.move (a := .held) (b := .pipe) (r := pa) List.mem_cons_self
    (fun x => mem_held_iff hnot x) (fun x => ?_) fun o ha hb x => ?_
  · by_cases hx : x = pa
    · subst hx
      simp [Kernel.own, Kernel.setPipe]
    · simp [Kernel.own, Kernel.setPipe, hx]
  · cases o with
    | held => exact absurd rfl ha
    | pipe => exact absurd rfl hb
    | _ => exact Iff.rfl

/-- A pipe gives up its page. -/
theorem MemInv.takePipe (h : MemInv H k) (hp : (k.pipes pa).isSome) :
    MemInv (pa :: H) (k.setPipe pa none) := by
  have hown : pa ∈ k.own H .pipe := hp
  have hnot : pa ∉ H := fun hmem => h.own.not_mem hown (show Owner.held ≠ .pipe by simp) hmem
  refine ⟨h.kend_le, ?_, h.free_nodup, List.nodup_cons.mpr ⟨hnot, h.held_nodup⟩, h.args_nodup,
    h.slots, h.excl, h.frame_va⟩
  refine h.own.move (a := .pipe) (b := .held) hown (fun x => ?_) (fun x => ?_)
    fun o ha hb x => ?_
  · by_cases hx : x = pa
    · subst hx
      simp [Kernel.own, Kernel.setPipe]
    · simp [Kernel.own, Kernel.setPipe, hx]
  · simp [Kernel.own, or_comm]
  · cases o with
    | held => exact absurd rfl hb
    | pipe => exact absurd rfl ha
    | _ => exact Iff.rfl

/-- Closing one end of a pipe keeps its page. -/
theorem MemInv.setPipe (h : MemInv H k) (hp : (k.pipes pa).isSome) (pi : Pipe) :
    MemInv H (k.setPipe pa (some pi)) := by
  refine h.congr rfl rfl rfl rfl rfl (fun _ => rfl) (fun x => ?_) rfl h.frame_va
  by_cases hx : x = pa
  · subst hx
    simp [Kernel.setPipe, hp]
  · simp [Kernel.setPipe, hx]

/-- A held page becomes the last argument page of a process. -/
theorem MemInv.giveArg (h : MemInv (pa :: H) k) : MemInv H (k.setArgs p (k.args p ++ [pa])) := by
  obtain ⟨hnot, hnd⟩ := List.nodup_cons.mp h.held_nodup
  have hna : pa ∉ k.args p := by
    intro hmem
    have := h.own.uniq (.arg p) .held pa hmem List.mem_cons_self
    cases this
  refine ⟨h.kend_le, ?_, h.free_nodup, hnd, fun p' => ?_, h.slots, h.excl, h.frame_va⟩
  · refine h.own.move (a := .held) (b := .arg p) (r := pa) List.mem_cons_self
      (fun x => mem_held_iff hnot x) (fun x => ?_) fun o ha hb x => ?_
    · simp [Kernel.own, Kernel.setArgs]
    · cases o with
      | held => exact absurd rfl ha
      | arg p' =>
        have hpp : p' ≠ p := fun heq => hb (heq ▸ rfl)
        simp [Kernel.own, Kernel.setArgs, hpp]
      | _ => exact Iff.rfl
  · by_cases hp : p' = p
    · subst hp
      simp only [Kernel.setArgs, Function.update_self]
      refine List.nodup_append.mpr ⟨h.args_nodup p', by simp, ?_⟩
      intro a ha b hb heq
      rw [List.mem_singleton.mp hb] at heq
      exact hna (heq ▸ ha)
    · simpa [Kernel.setArgs, hp] using h.args_nodup p'

/-- A process gives up its first argument page. -/
theorem MemInv.takeArg (h : MemInv H k) {rest : List ℕ} (ha : k.args p = pa :: rest) :
    MemInv (pa :: H) (k.setArgs p rest) := by
  have hown : pa ∈ k.own H (.arg p) := by
    rw [Kernel.own, Set.mem_ofPred_eq, ha]
    exact List.mem_cons_self
  have hnot : pa ∉ H := fun hmem => h.own.not_mem hown (show Owner.held ≠ .arg p by simp) hmem
  have hnd : (pa :: rest).Nodup := ha ▸ h.args_nodup p
  refine ⟨h.kend_le, ?_, h.free_nodup, List.nodup_cons.mpr ⟨hnot, h.held_nodup⟩, fun p' => ?_,
    h.slots, h.excl, h.frame_va⟩
  · refine h.own.move (a := .arg p) (b := .held) hown (fun x => ?_) (fun x => ?_)
      fun o ho hb x => ?_
    · have := mem_held_iff (List.nodup_cons.mp hnd).1 x
      rw [← ha] at this
      simpa [Kernel.own, Kernel.setArgs] using this
    · simp [Kernel.own, or_comm]
    · cases o with
      | held => exact absurd rfl hb
      | arg p' =>
        have hpp : p' ≠ p := fun heq => ho (heq ▸ rfl)
        simp [Kernel.own, Kernel.setArgs, hpp]
      | _ => exact Iff.rfl
  · by_cases hp : p' = p
    · subst hp
      simpa [Kernel.setArgs] using (List.nodup_cons.mp hnd).2
    · simpa [Kernel.setArgs, hp] using h.args_nodup p'

end World

/-! ### The frame table and the recorded calls -/

/-- Process `p` holds the table rooted at `r`, installed or in a local of `kexec`. -/
def Holds (k : Kernel) (p r : ℕ) : Prop :=
  (k.proc p).pagetable = r ∨ ∃ im, k.image p = some im ∧ im.pagetable = r

/-- Every used entry describes a resident page of a table its process holds. -/
def FrameTable (k : Kernel) : Prop :=
  ∀ i, (k.frames i).isUsed = true → (k.frames i).va % pgsize = 0 ∧
    ∃ p r, (k.frames i).p = some p ∧ Holds k p r ∧
      (k.leaf r ((k.frames i).va / pgsize)).has pteV = true ∧
      pte2pa (k.leaf r ((k.frames i).va / pgsize)) = kernbase + i * pgsize

/-- No `kexec` is under way. -/
def NoExec (k : Kernel) : Prop := ∀ p, k.image p = none

/-- No recorded eviction happened during a `kexec`. -/
def EvictQuiet (calls : List Call) : Prop := ∀ k, Call.evictPage k ∈ calls → NoExec k

/-- What holds of the recorded calls, whether or not the last of them returned. -/
structure LogOK (calls : List Call) : Prop where
  kfree : ∀ pa k, Call.kfree pa k ∈ calls → pa ∉ k.freelist
  agree : EvictQuiet calls → ∀ k, Call.evictPage k ∈ calls → FrameTable k

/-- The invariant kernel code keeps, `H` being the pages it has in its hands. -/
structure Inv (H : List ℕ) (m : Machine) : Prop where
  mem : MemInv H m.k
  log : LogOK m.calls
  frames : EvictQuiet m.calls → FrameTable m.k

/-- What is left when the kernel stops. -/
def Crash : Panic → Machine → Prop := fun _ m => LogOK m.calls

/-- The frame table stays right when used entries keep describing the page they did. -/
theorem FrameTable.mono {k k' : Kernel} (h : FrameTable k)
    (hva : ∀ i, (k.frames i).isUsed = true → (k.frames i).va < trapframeVa)
    (hframes : ∀ i, (k'.frames i).isUsed = true → (k'.frames i).SameUse (k.frames i))
    (hholds : ∀ p r, Holds k p r → Holds k' p r)
    (hleaf : ∀ i r v, (k'.frames i).isUsed = true → v < userTop →
      (k.leaf r v).has pteV = true → pte2pa (k.leaf r v) = kernbase + i * pgsize →
      (k'.leaf r v).has pteV = true ∧ pte2pa (k'.leaf r v) = pte2pa (k.leaf r v)) :
    FrameTable k' := by
  intro i hi
  obtain ⟨h1, h2, h3⟩ := hframes i hi
  have hused : (k.frames i).isUsed = true := h1 ▸ hi
  obtain ⟨halign, p, r, hp, hh, hV, hpa⟩ := h i hused
  have hv : (k.frames i).va / pgsize < userTop :=
    Nat.div_lt_of_lt_mul (by rw [userTop, Nat.mul_div_cancel' (by decide)]; exact hva i hused)
  obtain ⟨hV', hpa'⟩ := hleaf i r _ hi hv hV hpa
  rw [h3, h2]
  exact ⟨halign, p, r, hp, hholds p r hh, hV', hpa'.trans hpa⟩

end Xv6
