import Xv6.System.Procs

/-!
# Exec keeps the system invariant

The page table that `kexec` builds is held in its locals until it is committed. Each stage of
`kexec` keeps the system invariant, so the stages of several processes may be interleaved; the
whole call is put together from them. The strings of `argv` lie in a page each, which is why
the stack never has to be brought in while they are copied to it.
-/

namespace Xv6

open StateLogic Ownership

/-! ### Tables in the locals of `kexec` -/

section Images

variable {H : List ℕ} {m m' : Machine} {p root sz : ℕ} {im : Image} {q : Proc}

theorem MemInv.setImage {k : Kernel} (h : MemInv H k) (p : ℕ) (o : Option Image) :
    MemInv H (k.setImage p o) :=
  h.congr rfl rfl rfl rfl rfl (fun _ => rfl) (fun _ => rfl) rfl h.frame_va

theorem Kernel.setImage_image (k : Kernel) (p x : ℕ) (o : Option Image) :
    (k.setImage p o).image x = if x = p then o else k.image x := Function.update_apply _ _ _ _

/-- An image that keeps its table, or whose table does not exist, does not disturb the frame
table. -/
theorem Inv.setImage {o : Option Image} (h : Inv H m)
    (ho : ∀ im, m.k.image p = some im → (m.k.pt im.pagetable).isSome →
      ∃ im', o = some im' ∧ im'.pagetable = im.pagetable) :
    Inv H ⟨m.k.setImage p o, m.calls⟩ := by
  refine ⟨h.mem.setImage p o, h.log, fun hq => (h.frames hq).reholds rfl fun x r hh hr => ?_⟩
  refine hh.imp_right ?_
  rintro ⟨im, him, rfl⟩
  by_cases hx : x = p
  · subst hx
    obtain ⟨im', rfl, hpt⟩ := ho im him hr
    exact ⟨im', by rw [Kernel.setImage_image, if_pos rfl], hpt⟩
  · exact ⟨im, by rw [Kernel.setImage_image, if_neg hx]; exact him, rfl⟩

/-- **A new table is taken into the locals of `kexec`.** -/
theorem Sys.startImage (h : Sys H m) (hn : NewTable H root m m')
    (hframe : (m'.k.leaf root userTop).has pteV = true) (hold : m.k.image p = none)
    (hrun : (m.k.proc p).state.runs = true) :
    Sys H ⟨m'.k.setImage p (some ⟨root, 0⟩), m'.calls⟩ := by
  have hproc : m'.k.proc = m.k.proc := by rw [hn.world]
  have himage : ∀ x, (m'.k.setImage p (some ⟨root, 0⟩)).image x =
      if x = p then some ⟨root, 0⟩ else m.k.image x := fun x => by
    rw [Kernel.setImage_image, hn.world]
  refine ⟨hn.inv.setImage fun im him => ?_, ?_, fun x => ?_, fun x im him => ?_,
    @Sys.new_sys _ _ m' _ h hn, @Sys.new_frame _ _ m' _ h hn hframe, fun x hx => ?_, fun x hx => ?_,
    fun x hx => ?_, ?_⟩
  · rw [hn.world, hold] at him
    cases him
  · refine h.roots.gain (b := .image p) hn.not_mem_tables (fun x => hn.mem_tables x)
      (fun x => ?_) fun o ho x => ?_
    · simp only [Kernel.holding, Set.mem_ofPred_eq, himage, if_pos, hold]
      simp [eq_comm]
    · cases o with
      | installed y =>
        change (x ≠ 0 ∧ (m'.k.proc y).pagetable = x) ↔ (x ≠ 0 ∧ (m.k.proc y).pagetable = x)
        rw [hproc]
      | image y =>
        have hy : y ≠ p := fun heq => ho (heq ▸ rfl)
        simp only [Kernel.holding, Set.mem_ofPred_eq, himage, if_neg hy]
  · change Fits m'.k.view (m'.k.proc x).pagetable (m'.k.proc x).sz
    rw [hproc, hn.view]
    exact h.fits x
  · rw [himage] at him
    by_cases hx : x = p
    · rw [if_pos hx, Option.some.injEq] at him
      subst him
      exact ⟨Nat.zero_le _, fun v hv => absurd (hn.empty v) hv⟩
    · rw [if_neg hx] at him
      have hfit := h.images x im him
      rw [← hn.view] at hfit
      exact hfit
  · change Vacant (m'.k.proc x)
    change (m'.k.proc x).state = _ at hx
    rw [hproc] at hx ⊢
    exact h.vacant x hx
  · change (m'.k.proc x).state.runs = _ at hx
    rw [hproc] at hx
    have hxp : x ≠ p := by
      rintro rfl
      rw [hrun] at hx
      cases hx
    rw [himage, if_neg hxp]
    change _ ∧ m'.k.args x = []
    rw [hn.world]
    exact h.idle x hx
  · change (m'.k.proc x).pagetable ≠ 0
    change (m'.k.proc x).state.active = _ at hx
    rw [hproc] at hx ⊢
    exact h.live x hx
  · change FilesOK m'.k.ftable m'.k.pipes
    rw [hn.world]
    exact h.files

/-- **The table in the locals of `kexec` is removed.** -/
theorem Sys.dropImage (h : Sys H m) (him : m.k.image p = some im)
    (hg : Gone H im.pagetable m m') : Sys H ⟨m'.k.setImage p none, m'.calls⟩ := by
  have hproc : m'.k.proc = m.k.proc := by rw [hg.world]
  have himage : ∀ x, (m'.k.setImage p none).image x = if x = p then none else m.k.image x :=
    fun x => by rw [Kernel.setImage_image, hg.world]
  refine ⟨hg.inv.setImage fun im' him' hr => ?_, ?_, fun x => ?_, fun x im' him' => ?_,
    @Gone.sys _ _ m' _ hg h.sys, @Gone.frame _ _ m' _ hg h.frame, fun x hx => ?_, fun x hx => ?_,
    fun x hx => ?_, ?_⟩
  · rw [hg.world, him, Option.some.injEq] at him'
    rw [← him', hg.gone] at hr
    cases hr
  · refine h.roots.lose (a := .image p) (r := im.pagetable) ⟨im, him, rfl⟩
      (fun x => hg.mem_tables x) (fun x => ?_) fun o ho x => ?_
    · simp only [Kernel.holding, Set.mem_ofPred_eq, himage, if_pos, him]
      constructor
      · rintro ⟨_, h0, -⟩
        cases h0
      · rintro ⟨⟨im', h0, rfl⟩, hne⟩
        rw [Option.some.injEq] at h0
        exact absurd (by rw [h0]) hne
    · cases o with
      | installed y =>
        change (x ≠ 0 ∧ (m'.k.proc y).pagetable = x) ↔ (x ≠ 0 ∧ (m.k.proc y).pagetable = x)
        rw [hproc]
      | image y =>
        have hy : y ≠ p := fun heq => ho (heq ▸ rfl)
        simp only [Kernel.holding, Set.mem_ofPred_eq, himage, if_neg hy]
  · change Fits m'.k.view (m'.k.proc x).pagetable (m'.k.proc x).sz
    rw [hproc]
    exact hg.fits (h.fits x)
  · rw [himage] at him'
    by_cases hx : x = p
    · rw [if_pos hx] at him'
      cases him'
    · rw [if_neg hx] at him'
      exact hg.fits (h.images x im' him')
  · change Vacant (m'.k.proc x)
    change (m'.k.proc x).state = _ at hx
    rw [hproc] at hx ⊢
    exact h.vacant x hx
  · change (m'.k.proc x).state.runs = _ at hx
    rw [hproc] at hx
    obtain ⟨hi, ha⟩ := h.idle x hx
    rw [himage, hi]
    change _ ∧ m'.k.args x = []
    rw [hg.world, ha]
    simp
  · change (m'.k.proc x).pagetable ≠ 0
    change (m'.k.proc x).state.active = _ at hx
    rw [hproc] at hx ⊢
    exact h.live x hx
  · change FilesOK m'.k.ftable m'.k.pipes
    rw [hg.world]
    exact h.files

/-- The image gets another size that covers its pages. -/
theorem Sys.resizeImage (h : Sys H m) (him : m.k.image p = some im)
    (hfit : Fits m.k.view im.pagetable sz) :
    Sys H ⟨m.k.setImage p (some { im with sz := sz }), m.calls⟩ := by
  have himage := fun x => m.k.setImage_image p x (some { im with sz := sz })
  refine ⟨h.inv.setImage fun im' him' _ => ?_, h.roots.congr fun o x => ?_, h.fits,
    fun x im' him' => ?_, h.sys, h.frame, h.vacant, fun x hx => ?_, h.live, h.files⟩
  · rw [him, Option.some.injEq] at him'
    exact ⟨_, rfl, by rw [him']⟩
  · cases o with
    | installed y => exact Iff.rfl
    | image y =>
      simp only [Kernel.holding, Set.mem_ofPred_eq, himage]
      by_cases hy : y = p
      · subst hy
        simp [him]
      · rw [if_neg hy]
  · rw [himage] at him'
    by_cases hx : x = p
    · rw [if_pos hx, Option.some.injEq] at him'
      subst him'
      exact hfit
    · rw [if_neg hx] at him'
      exact h.images x im' him'
  · obtain ⟨hi, ha⟩ := h.idle x hx
    have hxp : x ≠ p := by
      rintro rfl
      rw [him] at hi
      cases hi
    rw [himage, if_neg hxp]
    exact ⟨hi, ha⟩

/-- Two images never have the same table. -/
theorem Sys.image_ne (h : Sys H m) (him : m.k.image p = some im) {x : ℕ} {im' : Image}
    (him' : m.k.image x = some im') (hxp : x ≠ p) : im'.pagetable ≠ im.pagetable := by
  intro heq
  have := h.roots.uniq (.image x) (.image p) im.pagetable ⟨im', him', heq⟩ ⟨im, him, rfl⟩
  exact hxp (by injection this)

/-- **The image grows.** -/
theorem Sys.growImage {lp : LPage} (h : Sys H m) (him : m.k.image p = some im)
    (hg : Grown H im.pagetable (npages im.sz) (npages sz - npages im.sz) lp m m')
    (hle : im.sz ≤ sz) (hmax : sz ≤ trapframeVa) :
    Sys H ⟨m'.k.setImage p (some { im with sz := sz }), m'.calls⟩ := by
  have hfit := h.images p im him
  have h0 := h.resizeImage him ⟨hmax, fun v hv => lt_of_lt_of_le (hfit.bound v hv) hle⟩
  have hworld : (m'.k.setImage p (some { im with sz := sz })).toWorld =
      (m.k.setImage p (some { im with sz := sz })).toWorld := by
    have heq : ∀ k : Kernel, (k.setImage p (some { im with sz := sz })).toWorld =
        { k.toWorld with image := Function.update k.toWorld.image p (some { im with sz := sz }) } :=
      fun _ => rfl
    rw [heq, heq, hg.eff.world]
  refine h0.keep (hg.inv.setImage fun im' him' _ => ?_) hworld hg.eff.roots hg.eff.top
    (fun x im' v him' hv => ?_) fun x v _ hv => ?_
  · rw [hg.eff.world, him, Option.some.injEq] at him'
    exact ⟨_, rfl, by rw [him']⟩
  · refine (hg.view_ne hv).imp_right fun hrange => ?_
    rw [Kernel.setImage_image] at him'
    by_cases hx : x = p
    · rw [if_pos hx, Option.some.injEq] at him'
      subst him'
      refine lt_npages_iff.mp ?_
      have := npages_mono hle
      change v < npages sz
      omega
    · rw [if_neg hx] at him'
      exact absurd hrange.1 (h.image_ne him him' hx)
  · exact (hg.view_ne hv).imp_right fun hrange => absurd hrange.1 (h.detached him x)

/-- **The image is committed**: from now on the old table is the one in the locals of
`kexec`. -/
theorem Sys.commit (h : Sys H m) (him : m.k.image p = some im)
    (hact : (m.k.proc p).state.active = true) (hpt : q.pagetable = im.pagetable)
    (hsz : q.sz = im.sz) (htf : q.trapframe = (m.k.proc p).trapframe)
    (hst : q.state = (m.k.proc p).state) :
    Sys H ⟨(m.k.setProc p q).setImage p (some ⟨(m.k.proc p).pagetable, (m.k.proc p).sz⟩),
      m.calls⟩ := by
  have hproc : ∀ x, (m.k.setProc p q).proc x = if x = p then q else m.k.proc x := fun x =>
    Function.update_apply _ _ _ _
  have himage := fun x => (m.k.setProc p q).setImage_image p x
    (some ⟨(m.k.proc p).pagetable, (m.k.proc p).sz⟩)
  have hne : im.pagetable ≠ 0 := by
    intro h0
    have hin := h.roots.sub (.image p) _ ⟨im, him, rfl⟩
    rw [h0, Kernel.tables, Set.mem_ofPred_eq, h.inv.mem.pt_zero] at hin
    cases hin
  refine ⟨⟨(h.inv.mem.setProc htf).setImage p _, h.inv.log, fun hq => ?_⟩,
    h.roots.reindex (Equiv.swap (.installed p) (.image p)) fun o x => ?_, fun x => ?_,
    fun x im' him' => ?_, h.sys, h.frame, fun x hx => ?_, fun x hx => ?_, fun x hx => ?_, h.files⟩
  · refine (h.inv.frames hq).reholds rfl fun x r hh _ => ?_
    by_cases hx : x = p
    · subst hx
      rcases hh with rfl | ⟨im', him', rfl⟩
      · exact Or.inr ⟨_, (himage x).trans (if_pos rfl), rfl⟩
      · rw [him, Option.some.injEq] at him'
        refine Or.inl ?_
        change ((m.k.setProc x q).proc x).pagetable = _
        rw [hproc, if_pos rfl, hpt, him']
    · refine hh.imp (fun hr => ?_) fun hr => ?_
      · change ((m.k.setProc p q).proc x).pagetable = _
        rw [hproc, if_neg hx]
        exact hr
      · obtain ⟨im', him', hr⟩ := hr
        refine ⟨im', ?_, hr⟩
        rw [himage, if_neg hx]
        exact him'
  · cases o with
    | installed y =>
      change (x ≠ 0 ∧ ((m.k.setProc p q).proc y).pagetable = x) ↔ _
      rw [hproc]
      by_cases hy : y = p
      · subst hy
        rw [if_pos rfl, hpt, Equiv.swap_apply_left]
        simp only [Kernel.holding, Set.mem_ofPred_eq, him, Option.some.injEq, exists_eq_left']
        exact and_iff_right_of_imp fun hx => hx ▸ hne
      · rw [if_neg hy, Equiv.swap_apply_of_ne_of_ne (by simpa using hy) (by simp)]
        exact Iff.rfl
    | image y =>
      simp only [Kernel.holding, Set.mem_ofPred_eq, himage]
      by_cases hy : y = p
      · subst hy
        rw [if_pos rfl, Equiv.swap_apply_right]
        simp only [Option.some.injEq, exists_eq_left', Set.mem_ofPred_eq]
        exact (and_iff_right_of_imp fun hx => hx ▸ h.live y hact).symm
      · rw [if_neg hy, Equiv.swap_apply_of_ne_of_ne (by simp) (by simpa using hy)]
        exact Iff.rfl
  · change Fits m.k.view ((m.k.setProc p q).proc x).pagetable ((m.k.setProc p q).proc x).sz
    rw [hproc]
    split_ifs
    · rw [hpt, hsz]
      exact h.images p im him
    · exact h.fits x
  · rw [himage] at him'
    by_cases hx : x = p
    · rw [if_pos hx, Option.some.injEq] at him'
      subst him'
      exact h.fits p
    · rw [if_neg hx] at him'
      exact h.images x im' him'
  · change Vacant ((m.k.setProc p q).proc x)
    change ((m.k.setProc p q).proc x).state = _ at hx
    rw [hproc] at hx ⊢
    split_ifs at hx ⊢ with hxp
    · rw [hst] at hx
      exact absurd hx (ProcState.ne_unused hact)
    · exact h.vacant x hx
  · change ((m.k.setProc p q).proc x).state.runs = _ at hx
    have hxp : x ≠ p := by
      rintro rfl
      rw [hproc, if_pos rfl, hst] at hx
      rw [(h.idle x hx).1] at him
      cases him
    rw [hproc, if_neg hxp] at hx
    rw [himage, if_neg hxp]
    exact h.idle x hx
  · change ((m.k.setProc p q).proc x).pagetable ≠ 0
    change ((m.k.setProc p q).proc x).state.active = _ at hx
    rw [hproc] at hx ⊢
    split_ifs at hx ⊢
    · rw [hpt]
      exact hne
    · exact h.live x hx

end Images

/-! ### The stages -/

/-- What the stages of `exec` keep. -/
structure Staged (H : List ℕ) (m m' : Machine) : Prop where
  sys : Sys H m'
  cur : m'.k.cur = m.k.cur
  state : ∀ p, (m'.k.proc p).state = (m.k.proc p).state
  held : m'.k.held = m.k.held
  apart : Apart m m'

/-- Only bytes of memory, and the history, changed. -/
structure Stored (H : List ℕ) (m m' : Machine) : Prop where
  inv : Inv H m'
  world : m'.k.toWorld = m.k.toWorld
  pt : m'.k.pt = m.k.pt

section Stages

variable {H : List ℕ} {m m₁ m₂ m₃ : Machine} {im : Image}

theorem Staged.of_world (h : Sys H m₁) (hw : m₁.k.toWorld = m.k.toWorld)
    (hleaf : ∀ p, (m.k.proc p).state = .running → p ≠ m.k.cur → ∀ v,
      m₁.k.leaf (m.k.proc p).pagetable v = m.k.leaf (m.k.proc p).pagetable v) :
    Staged H m m₁ := by
  refine ⟨h, ?_, fun p => ?_, ?_, .of_world hw hleaf⟩
  all_goals rw [hw]

theorem Staged.refl (h : Sys H m) : Staged H m m := .of_world h rfl fun _ _ _ _ => rfl

theorem Staged.trans (h : Staged H m₁ m₂) (h' : Staged H m₂ m₃) : Staged H m₁ m₃ :=
  ⟨h'.sys, h'.cur.trans h.cur, fun p => (h'.state p).trans (h.state p), h'.held.trans h.held,
    h.apart.trans h'.apart⟩

theorem Staged.done (h : Staged H m m₁) : Done H m m₁ := ⟨h.sys, h.held, h.apart⟩

theorem Stored.refl (h : Inv H m) : Stored H m m := ⟨h, rfl, rfl⟩

theorem Stored.trans (h : Stored H m₁ m₂) (h' : Stored H m₂ m₃) : Stored H m₁ m₃ :=
  ⟨h'.inv, h'.world.trans h.world, h'.pt.trans h.pt⟩

theorem Stored.leaf (h : Stored H m₁ m₂) (r v : ℕ) : m₂.k.leaf r v = m₁.k.leaf r v := by
  simp only [Memory.leaf, h.pt]

/-- The invariant does not read the bytes of memory. -/
theorem Sys.stored (h : Sys H m) (hs : Stored H m m₁) : Sys H m₁ := by
  have hview : ∀ r v, m₁.k.view r v ≠ none → m.k.view r v ≠ none := by
    intro r v hv hnone
    have hlt : v < userTop := by
      by_contra hge
      exact hv (if_neg hge)
    rw [Kernel.view_eq_none_iff hlt] at hnone
    refine hv ((Kernel.view_eq_none_iff hlt).mpr ?_)
    rw [hs.leaf]
    exact hnone
  exact h.keep hs.inv hs.world (fun r => by rw [hs.pt]) (fun r v _ => hs.leaf r v)
    (fun _ _ v _ hv => Or.inl (hview _ v hv)) fun _ v _ hv => Or.inl (hview _ v hv)

theorem Sys.staged_stored (h : Sys H m) (hs : Stored H m m₁) : Staged H m m₁ :=
  .of_world (h.stored hs) hs.world fun _ _ _ v => hs.leaf _ v

theorem wp_setImage {o : Option Image} {Q : Unit → Machine → Prop} {E : Panic → Machine → Prop} :
    wp (setImage o) Q E m ↔ Q () ⟨m.k.setImage m.k.cur o, m.calls⟩ := Iff.rfl

theorem getImage_spec (h : Sys H m) :
    wp getImage (fun im m' => m' = m ∧ m.k.image m.k.cur = some im) Crash m := by
  rw [getImage, wp_bind, wp_getK]
  cases him : m.k.image m.k.cur with
  | none => exact h.inv.log
  | some im => exact ⟨rfl, rfl⟩

/-- The table of an image exists. -/
theorem Sys.image_table (h : Sys H m) {p : ℕ} (him : m.k.image p = some im) :
    (m.k.pt im.pagetable).isSome := h.roots.sub (.image p) _ ⟨im, him, rfl⟩

theorem Fits.none_of_le {w : View} {r sz v : ℕ} (h : Fits w r sz) (hv : npages sz ≤ v) :
    w r v = none := by
  by_contra hne
  have := lt_npages_iff.mpr (h.bound v hne)
  omega

/-- A stage that sets the locals of the current process's `kexec`. -/
theorem Staged.setImage {o : Option Image} (h : Sys H ⟨m₁.k.setImage m.k.cur o, m₁.calls⟩)
    (hw : m₁.k.toWorld = m.k.toWorld)
    (hleaf : ∀ p, (m.k.proc p).state = .running → p ≠ m.k.cur → ∀ v,
      m₁.k.leaf (m.k.proc p).pagetable v = m.k.leaf (m.k.proc p).pagetable v) :
    Staged H m ⟨m₁.k.setImage m.k.cur o, m₁.calls⟩ := by
  have hcur : m₁.k.cur = m.k.cur := by rw [hw]
  have hproc : m₁.k.proc = m.k.proc := by rw [hw]
  refine ⟨h, hcur, fun x => ?_, ?_, hcur, fun x hr _ => ?_, fun x _ _ => ?_, hleaf⟩
  · change (m₁.k.proc x).state = _
    rw [hproc]
  · change m₁.k.held = _
    rw [hw]
  · change (m₁.k.proc x).state = _
    rw [hproc]
    exact hr
  · change (m₁.k.proc x).pagetable = _
    rw [hproc]

/-- **The header stage.** -/
theorem execHeader_spec {file : List UInt8} (h : Sys H m)
    (hrun : (m.k.proc m.k.cur).state.runs = true) (hnone : m.k.image m.k.cur = none) :
    wp (execHeader file) (fun o m' => Staged H m m' ∧
      (o = none → m'.k.image m.k.cur = none)) Crash m := by
  simp only [execHeader, wp_ite]
  refine ⟨fun _ => ⟨.refl h, fun _ => hnone⟩, fun _ => ⟨fun _ => ⟨.refl h, fun _ => hnone⟩,
    fun _ => ?_⟩⟩
  rw [wp_bind, wp_myproc]
  refine wp_seq (procPagetable_spec h.inv) ?_
  rintro root m₁ ⟨hroot, hn, hframe⟩
  have hcur : m₁.k.cur = m.k.cur := by rw [hn.world]
  rw [if_neg hroot, wp_bind, wp_setImage, hcur]
  refine ⟨.setImage (h.startImage hn hframe hnone hrun) hn.world fun x hr hx v => ?_,
    fun h0 => by cases h0⟩
  refine hn.safe _ (fun heq => ?_) (h.safe hr hx) v
  have htable := h.table (p := x) (by rw [hr]; rfl)
  rw [heq, hn.fresh] at htable
  cases htable

theorem flags2perm_ok (flags : ℕ) : FlagsOK (flags2perm flags) := by
  rw [flags2perm]
  split <;> split <;> exact ⟨by decide, by decide⟩

/-- Growing the image of the current process. -/
theorem growImage_spec {sz : ℕ} {xperm : Pte} (h : Sys H m)
    (him : m.k.image m.k.cur = some im) (hx : FlagsOK xperm) :
    wp (uvmalloc im.pagetable im.sz sz xperm) (fun sz1 m' =>
      (sz1 = 0 → Staged H m m') ∧
      Staged H m ⟨m'.k.setImage m.k.cur (some { im with sz := sz1 }), m'.calls⟩ ∧
      m'.k.cur = m.k.cur ∧
      (im.sz ≤ sz → sz1 = sz ∧ sz ≤ trapframeVa ∧
        Grown H im.pagetable (npages im.sz) (npages sz - npages im.sz) (newPage xperm) m m'))
      Crash m := by
  have hfit := h.images _ im him
  refine wp_mono (uvmalloc_spec h.inv (Or.inr ⟨im, him, rfl⟩) hx hfit.le
    (h.frame _ (h.image_table him)) fun v hge _ => hfit.none_of_le hge) ?_ fun _ _ he => he
  rintro sz1 m₁ (⟨hlt, rfl, rfl⟩ | ⟨hle, rfl, hmax, hg⟩)
  · refine ⟨fun _ => .refl h, .setImage (h.resizeImage him hfit) rfl fun _ _ _ _ => rfl, rfl,
      fun hle => ?_⟩
    omega
  · have hsafe : ∀ p, (m.k.proc p).state = .running → p ≠ m.k.cur → ∀ v,
        m₁.k.leaf (m.k.proc p).pagetable v = m.k.leaf (m.k.proc p).pagetable v := fun p hr hp v =>
      hg.other _ (h.safe hr hp) v fun hc => h.detached him p hc.1
    refine ⟨fun h0 => .of_world (h.grownNone hg ?_) hg.eff.world hsafe,
      .setImage (h.growImage him hg hle hmax) hg.eff.world hsafe, by rw [hg.eff.world],
      fun _ => ⟨rfl, hmax, hg⟩⟩
    rw [h0, show npages 0 = 0 by decide]
    omega

/-- **The memory of a segment.** -/
theorem execGrow_spec {ph : Proghdr} (h : Sys H m) :
    wp (execGrow ph) (fun _ m' => Staged H m m') Crash m := by
  simp only [execGrow, wp_ite]
  refine ⟨fun _ => .refl h, fun _ => ⟨fun _ => .refl h, fun _ => ⟨fun _ => .refl h, fun _ => ?_⟩⟩⟩
  refine wp_seq (getImage_spec h) ?_
  rintro im m₁ ⟨rfl, him⟩
  refine wp_seq (growImage_spec h him (flags2perm_ok _)) ?_
  rintro sz1 m₂ ⟨hzero, hset, hcur, -⟩
  rw [wp_ite]
  refine ⟨hzero, fun _ => ?_⟩
  rw [wp_bind, wp_setImage, hcur]
  exact hset

/-- The loop of `loadseg` writes bytes. -/
theorem loadsegLoop_spec {root va offset sz n i : ℕ} {file : List UInt8} (h : Inv H m) :
    wp (loadsegLoop root va file offset sz n i) (fun _ m' => Stored H m m') Crash m := by
  induction n generalizing m i with
  | zero => exact .refl h
  | succ n ih =>
    rw [loadsegLoop]
    refine wp_seq (walkaddr_spec h) ?_
    rintro pa m₁ ⟨rfl, -⟩
    rw [wp_ite]
    refine ⟨fun _ => h.log, fun _ => ?_⟩
    rw [wp_bind, wp_modK, wp_ite]
    have hs : Stored H m₁ ⟨m₁.k.setMem pa ((m₁.k.mem pa).write 0
        (readi file ((offset + i) % 2 ^ 32) (min (sz - i) pgsize))), m₁.calls⟩ :=
      ⟨h.setMem _ _, rfl, rfl⟩
    exact ⟨fun _ => hs, fun _ => wp_mono (ih hs.inv) (fun _ _ h' => hs.trans h') fun _ _ he => he⟩

/-- **Loading a segment.** -/
theorem loadseg_spec {root va offset sz : ℕ} {file : List UInt8} (h : Sys H m) :
    wp (loadseg root va file offset sz) (fun _ m' => Staged H m m') Crash m :=
  wp_mono (loadsegLoop_spec h.inv) (fun _ _ hs => h.staged_stored hs) fun _ _ he => he

/-- The loop over the program headers. -/
theorem execSegments_spec {file : List UInt8} {n off : ℕ} (h : Sys H m) :
    wp (execSegments file n off) (fun _ m' => Staged H m m') Crash m := by
  induction n generalizing m off with
  | zero => exact .refl h
  | succ n ih =>
    simp only [execSegments, wp_ite]
    refine ⟨fun _ => .refl h, fun _ => ⟨fun _ => ih h, fun _ => ?_⟩⟩
    refine wp_seq (execGrow_spec h) fun b m₁ h1 => ?_
    rw [wp_ite]
    refine ⟨fun _ => h1, fun _ => wp_seq (getImage_spec h1.sys) ?_⟩
    rintro im m₂ ⟨rfl, -⟩
    refine wp_seq (loadseg_spec h1.sys) fun b m₃ h3 => ?_
    rw [wp_ite]
    exact ⟨fun _ => h1.trans h3,
      fun _ => wp_mono (ih h3.sys) (fun _ _ h4 => h1.trans (h3.trans h4)) fun _ _ he => he⟩

end Stages

/-! ### The stack and the arguments -/

/-- Page `v` can be written without a fault. -/
structure Ready (k : Kernel) (root v : ℕ) : Prop where
  lt : v < userTop
  valid : (k.leaf root v).has pteV = true
  user : (k.leaf root v).has pteU = true
  write : (k.leaf root v).has pteW = true

/-- The stack of an image: its last page. -/
structure StackPage (k : Kernel) (im : Image) (v : ℕ) : Prop where
  base : 0 < v
  size : im.sz = (v + userstack) * pgsize
  ready : Ready k im.pagetable v

section Stack

variable {H : List ℕ} {m m' : Machine} {im : Image} {root va v : ℕ}

theorem Ready.stored (h : Ready m.k root v) (hs : Stored H m m') : Ready m'.k root v := by
  refine ⟨h.lt, ?_, ?_, ?_⟩
  all_goals rw [hs.leaf]
  exacts [h.valid, h.user, h.write]

theorem StackPage.stored (h : StackPage m.k im v) (hs : Stored H m m') : StackPage m'.k im v :=
  ⟨h.base, h.size, h.ready.stored hs⟩

theorem StackPage.le_trapframeVa (h : StackPage m.k im v) : im.sz ≤ trapframeVa := by
  have htop : userTop * pgsize ≤ trapframeVa := by decide
  rw [h.size]
  exact (Nat.mul_le_mul_right pgsize (Nat.succ_le_of_lt h.ready.lt)).trans htop

/-- The page of memory behind page `v` of an image. -/
def Kernel.stack (k : Kernel) (im : Image) (v : ℕ) : Page := k.mem (pte2pa (k.leaf im.pagetable v))

theorem Kernel.setMem_stack {k : Kernel} {pg : Page} :
    (k.setMem (pte2pa (k.leaf im.pagetable v)) pg).stack im v = pg := Function.update_self _ _ _

/-- `copyout` within a page that is ready. -/
theorem run_copyout_ready {src : List UInt8} (h : Inv H m) (hr : Ready m.k root (va / pgsize))
    (hsrc : src ≠ []) (hfit : va % pgsize + src.length ≤ pgsize) :
    (copyout root va src).run m = .ok 0 ⟨m.k.setMem (pte2pa (m.k.leaf root (va / pgsize)))
      ((m.k.mem (pte2pa (m.k.leaf root (va / pgsize)))).write (va % pgsize) src),
      .transfer root (pgrounddown va) m.k :: m.calls⟩ := by
  have hne := (h.mem.ram (o := .leaf root (va / pgsize)) ⟨hr.lt, hr.valid, rfl⟩).ne_zero
  have hmax : pgrounddown va < maxva := by
    have hlt := Nat.mul_lt_mul_of_pos_right hr.lt (show 0 < pgsize by decide)
    have htop : userTop * pgsize ≤ maxva := by decide
    rw [pgrounddown]
    omega
  obtain ⟨t, ht⟩ : ∃ t, m.k.pt root = some t := by
    rw [← Option.isSome_iff_exists, Option.isSome_iff_ne_none]
    intro hnone
    have hV := hr.valid
    rw [Memory.leaf_of_none hnone] at hV
    exact absurd hV (by decide)
  have hlow : (t.low (va / pgsize / 512)).isSome := by
    refine t.low_of_leaf _ fun h0 => ?_
    have hV := hr.valid
    rw [Memory.leaf_eq ht, h0] at hV
    exact absurd hV (by decide)
  have hwalk := run_walkNoalloc (m := m) hmax ht
  have haddr := @run_walkaddr m root (pgrounddown va) t ht
  rw [pgrounddown_div] at hwalk haddr
  rw [if_pos hlow] at hwalk
  rw [if_pos ⟨hmax, hr.valid, hr.user⟩] at haddr
  have hpage : (userPage root (pgrounddown va)).run m =
      .ok (pte2pa (m.k.leaf root (va / pgsize))) m := by
    rw [userPage, run_bind_ok haddr, if_neg hne]
    rfl
  have hoff : va - pgrounddown va = va % pgsize := by
    rw [pgrounddown]
    have := Nat.div_add_mod' va pgsize
    omega
  obtain ⟨n, hn⟩ := Nat.exists_eq_succ_of_ne_zero (List.length_pos_iff.mpr hsrc).ne'
  rw [copyout, hn, copyoutLoop, if_neg (by simpa using hsrc), if_neg (by omega),
    run_bind_ok hpage, if_neg hne, walk, if_neg (by simp), run_bind_ok hwalk]
  simp only [run_bind_ok (run_loadPte root (va / pgsize) m), hr.write, Bool.not_true,
    Bool.false_eq_true, if_false, hoff]
  rw [run_bind_ok (run_record _ _), run_bind_ok (run_modK _ _), min_eq_right (by omega),
    List.take_length, List.drop_length]
  cases n <;> rfl

/-! ### Where the arguments go -/

/-- `n` bytes and the alignment below `sp`. -/
def lower (sp n : ℕ) : ℕ := (sp - n) / 16 * 16

/-- The addresses of the argument strings below `sp`. -/
def argAddrs : ℕ → List (List UInt8) → List ℕ
  | _, [] => []
  | sp, s :: argv => lower sp (s.length + 1) :: argAddrs (lower sp (s.length + 1)) argv

/-- The stack pointer after the argument strings. -/
def argEnd : ℕ → List (List UInt8) → ℕ
  | sp, [] => sp
  | sp, s :: argv => argEnd (lower sp (s.length + 1)) argv

/-- The address of the array of their addresses. -/
def arrayAddr (sp : ℕ) (argv : List (List UInt8)) : ℕ :=
  lower (argEnd sp argv) ((argv.length + 1) * 8)

/-- The arguments fit between `base` and `sp`. -/
def ArgsFit (base sp : ℕ) (argv : List (List UInt8)) : Prop :=
  (argv.length ≤ maxarg ∧ ∀ a ∈ argAddrs sp argv, base ≤ a) ∧ base ≤ arrayAddr sp argv

instance (base sp : ℕ) (argv : List (List UInt8)) : Decidable (ArgsFit base sp argv) :=
  inferInstanceAs (Decidable (_ ∧ _))

/-- As long as there is room the stack pointer does not wrap around. -/
theorem pushDown_eq {sp n : ℕ} (hn : n ≤ sp) (hsp : sp ≤ trapframeVa) :
    pushDown sp n = lower sp n := by
  have htop : trapframeVa = 274877898752 := by decide
  simp only [pushDown, lower, word] at *
  omega

theorem lower_add_le {base sp n : ℕ} (hbase : 0 < base) (hle : base ≤ lower sp n) :
    lower sp n + n ≤ sp := by
  rw [lower] at *
  omega

/-- The strings lie below one another and above the final stack pointer. -/
theorem argAddrs_apart {base sp : ℕ} {argv : List (List UInt8)} (hbase : 0 < base)
    (hfit : ∀ a ∈ argAddrs sp argv, base ≤ a) :
    (argv.zip (argAddrs sp argv)).Pairwise (fun x y => y.2 + (y.1.length + 1) ≤ x.2) ∧
    (∀ x ∈ argv.zip (argAddrs sp argv), x.2 + (x.1.length + 1) ≤ sp) ∧
    (∀ a ∈ argAddrs sp argv, argEnd sp argv ≤ a) ∧ argEnd sp argv ≤ sp ∧
    (base ≤ sp → base ≤ argEnd sp argv) := by
  induction argv generalizing sp with
  | nil => simp [argAddrs, argEnd]
  | cons s argv ih =>
    rw [argAddrs, List.forall_mem_cons] at hfit
    obtain ⟨hpair, htop, hend, hle, hlow⟩ := ih hfit.2
    have hdown := lower_add_le hbase hfit.1
    simp only [argAddrs, argEnd, List.zip_cons_cons, List.pairwise_cons, List.forall_mem_cons]
    exact ⟨⟨htop, hpair⟩, ⟨hdown, fun x hx => (htop x hx).trans (by omega)⟩, ⟨hle, hend⟩,
      by omega, fun _ => hlow hfit.1⟩

theorem length_argAddrs (sp : ℕ) (argv : List (List UInt8)) :
    (argAddrs sp argv).length = argv.length := by
  induction argv generalizing sp with
  | nil => rfl
  | cons s argv ih => rw [argAddrs, List.length_cons, ih, List.length_cons]

/-! ### Writing them -/

theorem Page.read_congr {pg pg' : Page} {off n : ℕ}
    (h : ∀ i : Fin pgsize, off ≤ i.val → i.val < off + n → pg' i = pg i) :
    pg'.read off n = pg.read off n := by
  refine List.map_congr_left fun j hj => ?_
  rw [List.mem_range] at hj
  split_ifs with hlt
  · exact h ⟨off + j, hlt⟩ (Nat.le_add_right _ _) (Nat.add_lt_add_left hj _)
  · rfl

theorem Page.read_write {pg : Page} {off : ℕ} {bs : List UInt8} (hfit : off + bs.length ≤ pgsize) :
    (pg.write off bs).read off bs.length = bs := by
  refine List.ext_getElem (by rw [Page.read, List.length_map, List.length_range]) fun j hj hj' => ?_
  simp only [Page.read, List.getElem_map, List.getElem_range]
  rw [dif_pos (by omega), Page.write, if_pos ⟨Nat.le_add_right _ _, Nat.add_lt_add_left hj' _⟩,
    Nat.add_sub_cancel_left, List.getD_eq_getElem _ _ hj']

/-- Only bytes of the stack page below `sp` changed. -/
structure Pushed (H : List ℕ) (im : Image) (v sp : ℕ) (m m' : Machine) : Prop
    extends Stored H m m' where
  other : ∀ x, x ≠ pte2pa (m.k.leaf im.pagetable v) → m'.k.mem x = m.k.mem x
  above : ∀ i : Fin pgsize, sp ≤ v * pgsize + i → m'.k.stack im v i = m.k.stack im v i

theorem Pushed.refl {sp : ℕ} (h : Inv H m) : Pushed H im v sp m m :=
  ⟨.refl h, fun _ _ => rfl, fun _ _ => rfl⟩

theorem Pushed.trans {m₁ m₂ : Machine} {sp sp' : ℕ} (h : Pushed H im v sp m m₁)
    (h' : Pushed H im v sp' m₁ m₂) (hle : sp' ≤ sp) : Pushed H im v sp m m₂ := by
  refine ⟨h.toStored.trans h'.toStored, fun x hx => ?_, fun i hi => ?_⟩
  · rw [h'.other x (by rwa [h.leaf]), h.other x hx]
  · rw [h'.above i (hle.trans hi), h.above i hi]

/-- What was read above `sp` is still there. -/
theorem Pushed.read {sp a n : ℕ} (h : Pushed H im v sp m m') (hsp : sp ≤ a)
    (ha : v * pgsize ≤ a) : (m'.k.stack im v).read (a - v * pgsize) n =
      (m.k.stack im v).read (a - v * pgsize) n :=
  Page.read_congr fun i hi _ => h.above i (by omega)

/-- Copying to the stack below `sp`. -/
theorem copyout_stack {sp n : ℕ} {src : List UInt8} (h : Inv H m)
    (hstack : StackPage m.k im v) (hsp : sp ≤ im.sz) (hlen : src.length = n) (hpos : 0 < n)
    (hbase : v * pgsize ≤ lower sp n) :
    ∃ m', (copyout im.pagetable (lower sp n) src).run m = .ok 0 m' ∧ Pushed H im v sp m m' ∧
      (m'.k.stack im v).read (lower sp n - v * pgsize) n = src := by
  have hsize := hstack.size
  have hdown := lower_add_le (Nat.mul_pos hstack.base (by decide)) hbase
  rw [userstack, Nat.add_mul, one_mul] at hsize
  have hdiv : lower sp n / pgsize = v := by
    refine Nat.div_eq_of_lt_le hbase ?_
    rw [Nat.add_mul, one_mul]
    omega
  have hmod : lower sp n % pgsize = lower sp n - v * pgsize := by
    have := Nat.div_add_mod' (lower sp n) pgsize
    rw [hdiv] at this
    omega
  have hrun := @run_copyout_ready _ _ _ (lower sp n) _ h (by rw [hdiv]; exact hstack.ready)
    (List.ne_nil_of_length_pos (hlen ▸ hpos)) (by omega)
  rw [hdiv, hmod] at hrun
  refine ⟨_, hrun, ⟨⟨(h.transfer _ _).setMem _ _, rfl, rfl⟩, fun x hx =>
    Function.update_of_ne hx _ _, fun i hi => ?_⟩, ?_⟩
  · rw [Kernel.setMem_stack]
    refine if_neg ?_
    omega
  · rw [Kernel.setMem_stack]
    subst hlen
    exact Page.read_write (by omega)

/-- **The argument strings.** -/
theorem execArgsLoop_run {argv : List (List UInt8)} {sp : ℕ} {ustack : List ℕ} (h : Inv H m)
    (hstack : StackPage m.k im v) (hsb : v * pgsize ≤ sp) (hsp : sp ≤ im.sz)
    (hargs : ∀ s ∈ argv, s.length < pgsize) (hus : ustack.length ≤ maxarg) :
    ∃ m', (execArgsLoop im.pagetable (v * pgsize) argv sp ustack).run m =
        .ok (if ustack.length + argv.length ≤ maxarg ∧ ∀ a ∈ argAddrs sp argv, v * pgsize ≤ a then
          some (argEnd sp argv, ustack ++ argAddrs sp argv) else none) m' ∧
      Pushed H im v sp m m' ∧
      ((ustack.length + argv.length ≤ maxarg ∧ ∀ a ∈ argAddrs sp argv, v * pgsize ≤ a) →
        ∀ x ∈ argv.zip (argAddrs sp argv),
          (m'.k.stack im v).read (x.2 - v * pgsize) (x.1.length + 1) = x.1 ++ [0]) := by
  induction argv generalizing m sp ustack with
  | nil =>
    refine ⟨m, ?_, .refl h, by simp⟩
    rw [if_pos ⟨hus, by simp [argAddrs]⟩, argAddrs, List.append_nil]
    rfl
  | cons s argv ih =>
    rw [List.forall_mem_cons] at hargs
    have hpage : pgsize ≤ v * pgsize := Nat.le_mul_of_pos_left _ hstack.base
    have hmax := hstack.le_trapframeVa
    simp only [execArgsLoop, pushDown_eq (show s.length + 1 ≤ sp by omega) (hsp.trans hmax),
      argAddrs, argEnd, List.forall_mem_cons, List.length_cons, List.zip_cons_cons]
    by_cases hroom : maxarg ≤ ustack.length
    · rw [if_pos hroom, if_neg (by omega)]
      exact ⟨m, rfl, .refl h, fun hc => by omega⟩
    rw [if_neg hroom]
    by_cases hbase : lower sp (s.length + 1) < v * pgsize
    · rw [if_pos hbase, if_neg (by omega)]
      exact ⟨m, rfl, .refl h, fun hc => by omega⟩
    rw [if_neg hbase]
    rw [Nat.not_lt] at hbase
    obtain ⟨m₁, hrun, hp, hread⟩ := copyout_stack h hstack hsp
      (show (s ++ [0]).length = s.length + 1 by simp) (by omega) hbase
    have hdown := lower_add_le (Nat.mul_pos hstack.base (by decide)) hbase
    obtain ⟨m₂, hrun2, hp2, htexts⟩ := @ih _ _ (ustack ++ [lower sp (s.length + 1)]) hp.inv
      (hstack.stored hp.toStored) hbase (by omega) hargs.2
      (by rw [List.length_append, List.length_singleton]; omega)
    have hcount : (ustack ++ [lower sp (s.length + 1)]).length + argv.length =
        ustack.length + (argv.length + 1) := by
      rw [List.length_append, List.length_singleton]
      omega
    rw [hcount] at hrun2 htexts
    rw [run_bind_ok hrun, if_neg (by decide)]
    refine ⟨m₂, ?_, hp.trans hp2 (by omega), fun hc => ⟨?_, htexts ⟨hc.1, hc.2.2⟩⟩⟩
    · rw [hrun2, List.append_assoc, List.singleton_append]
      simp only [hbase, true_and]
    · rw [hp2.read le_rfl hbase]
      exact hread

theorem leBytes_length (n x : ℕ) : (leBytes n x).length = n := by
  rw [leBytes, List.length_map, List.length_range]

/-- **The arguments** are copied to a stack that is resident. -/
theorem execArgs_run {argv : List (List UInt8)} (h : Inv H m)
    (him : m.k.image m.k.cur = some im) (hstack : StackPage m.k im v)
    (hargs : ∀ s ∈ argv, s.length < pgsize) :
    ∃ m', (execArgs argv).run m = .ok (if ArgsFit (v * pgsize) im.sz argv then
        some (arrayAddr im.sz argv) else none) m' ∧ Pushed H im v im.sz m m' ∧
      (ArgsFit (v * pgsize) im.sz argv →
        (∀ x ∈ argv.zip (argAddrs im.sz argv),
          (m'.k.stack im v).read (x.2 - v * pgsize) (x.1.length + 1) = x.1 ++ [0]) ∧
        (m'.k.stack im v).read (arrayAddr im.sz argv - v * pgsize) ((argv.length + 1) * 8) =
          (argAddrs im.sz argv ++ [0]).flatMap (leBytes 8)) := by
  have hsize := hstack.size
  have hmax := hstack.le_trapframeVa
  have hpage : pgsize ≤ v * pgsize := Nat.le_mul_of_pos_left _ hstack.base
  have hget : getImage.run m = .ok im m := by
    rw [getImage, run_bind_ok (run_getK m), him]
    rfl
  have hsb : im.sz - userstack * pgsize = v * pgsize := by
    rw [hsize, Nat.add_mul, Nat.add_sub_cancel]
  rw [userstack, Nat.add_mul, one_mul] at hsize
  obtain ⟨m₁, hrun, hp, htexts⟩ := @execArgsLoop_run _ _ _ _ _ _ [] h hstack (by omega)
    le_rfl hargs (Nat.zero_le _)
  simp only [List.length_nil, Nat.zero_add, List.nil_append] at hrun htexts
  rw [execArgs, run_bind_ok hget]
  simp only [hsb]
  rw [run_bind_ok hrun]
  by_cases hstr : argv.length ≤ maxarg ∧ ∀ a ∈ argAddrs im.sz argv, v * pgsize ≤ a
  · obtain ⟨-, -, hend, hle, hlow⟩ := argAddrs_apart (Nat.lt_of_lt_of_le (by decide) hpage) hstr.2
    have hbytes : ((argAddrs im.sz argv ++ [0]).flatMap (leBytes 8)).length =
        (argv.length + 1) * 8 := by
      simp only [List.length_flatMap, leBytes_length, List.map_const', List.sum_replicate_nat,
        List.length_append, length_argAddrs, List.length_singleton]
    have hroom : (argv.length + 1) * 8 ≤ argEnd im.sz argv := by
      have := hlow (by omega)
      have := hstr.1
      simp only [maxarg, pgsize] at *
      omega
    simp only [if_pos hstr, pushDown_eq hroom (hle.trans hmax)]
    by_cases hbase : arrayAddr im.sz argv < v * pgsize
    · have hno : ¬ArgsFit (v * pgsize) im.sz argv := fun hf => absurd hf.2 (by omega)
      rw [← arrayAddr, if_pos hbase, if_neg hno]
      exact ⟨m₁, rfl, hp, fun hf => absurd hf hno⟩
    · rw [← arrayAddr, if_neg hbase]
      rw [Nat.not_lt] at hbase
      have hfit : ArgsFit (v * pgsize) im.sz argv := ⟨hstr, hbase⟩
      obtain ⟨m₂, hrun2, hp2, hread⟩ := copyout_stack hp.inv (hstack.stored hp.toStored) hle
        hbytes (by omega) hbase
      rw [← arrayAddr] at hrun2 hread
      rw [run_bind_ok hrun2, if_neg (by decide), if_pos hfit]
      refine ⟨m₂, rfl, hp.trans hp2 hle, fun _ => ⟨fun x hx => ?_, hread⟩⟩
      have hmem := (List.of_mem_zip hx).2
      rw [hp2.read (hend _ hmem) (hstr.2 _ hmem)]
      exact htexts hstr x hx
  · have hno : ¬ArgsFit (v * pgsize) im.sz argv := fun hf => hstr hf.1
    simp only [if_neg hstr, if_neg hno]
    exact ⟨m₁, rfl, hp, fun hf => absurd hf hno⟩

/-- Clearing `PTE_U` of a page keeps the invariant. -/
theorem Sys.uvmclear (h : Sys H m) (hv : va / pgsize < userTop)
    (hval : (m.k.leaf root (va / pgsize)).has pteV = true) :
    wp (uvmclear root va) (fun _ m' => Sys H m' ∧ m'.k.toWorld = m.k.toWorld ∧
      ∀ r u, ¬(r = root ∧ u = va / pgsize) →
        m'.k.leaf r u = m.k.leaf r u ∧ m'.k.view r u = m.k.view r u) Crash m := by
  refine wp_mono (uvmclear_spec h.inv hv hval) ?_ fun _ _ he => he
  rintro - m₁ ⟨hinv, heff, -, hother⟩
  have hview : ∀ r v, m₁.k.view r v ≠ none → m.k.view r v ≠ none := by
    intro r v hne hnone
    rw [heff.view, View.set] at hne
    split_ifs at hne with hrv
    · rw [hrv.1, hrv.2] at hnone
      rw [hnone] at hne
      exact hne rfl
    · exact hne hnone
  refine ⟨h.keep hinv heff.world heff.roots heff.top (fun _ _ v _ hne => Or.inl (hview _ v hne))
    fun _ v _ hne => Or.inl (hview _ v hne), heff.world, fun r u hru => ⟨hother r u hru, ?_⟩⟩
  rw [heff.view, View.set, if_neg hru]

/-- A new page of a table that is not installed is ready for use. -/
theorem Grown.ready {a n : ℕ} (hg : Grown H root a n (newPage pteW) m m')
    (hdet : ∀ p, (m.k.proc p).pagetable ≠ root) (hle : a + n ≤ userTop) (hav : a ≤ v)
    (hvn : v < a + n) : Ready m'.k root v := by
  have hV := hg.fresh (.of_detached hdet) v hav hvn
  have hlt : v < userTop := by omega
  have hview := Kernel.view_of_valid hlt hV
  rw [hg.eff.view, View.fill, if_pos ⟨rfl, hav, hvn⟩, Option.some.injEq] at hview
  have hperm : (m'.k.leaf root v).perm = (pteR ||| pteU ||| pteW).perm :=
    (congrArg LPage.perm hview).symm
  exact ⟨hlt, hV, congrArg Perm.u hperm, congrArg Perm.w hperm⟩

/-- **The stack stage**: afterwards the last page of the image is ready for use, and the pages
below the guard page are as they were. -/
theorem execStack_full (h : Sys H m) :
    wp execStack (fun b m' => Staged H m m' ∧ (b = true →
      ∃ im im', m.k.image m.k.cur = some im ∧ m'.k.image m.k.cur = some im' ∧
        StackPage m'.k im' (npages im.sz + 1) ∧
        ∀ u < npages im.sz, m'.k.view im'.pagetable u = m.k.view im.pagetable u)) Crash m := by
  rw [execStack]
  refine wp_seq (getImage_spec h) ?_
  rintro im m ⟨rfl, him⟩
  have hfit := h.images _ im him
  have hle := npages_le_userTop hfit.le
  have hround := pgroundup_eq hfit.le
  have hmul : userTop * pgsize = trapframeVa := by decide
  have hsz : pgroundup im.sz ≤ trapframeVa := by
    rw [hround, ← hmul]
    exact Nat.mul_le_mul_right _ hle
  have h1 := @Sys.resizeImage _ _ _ (pgroundup im.sz) _ h him ⟨hsz, fun v hv => by
    rw [hround]
    exact Nat.mul_lt_mul_of_pos_right (lt_npages_iff.mpr (hfit.bound v hv)) (by decide)⟩
  have hnew : (pgroundup im.sz + (userstack + 1) * pgsize) % word = (npages im.sz + 2) * pgsize := by
    have hle : npages im.sz * pgsize ≤ trapframeVa := hround ▸ hsz
    have hval : trapframeVa = 274877898752 := by decide
    rw [hround]
    simp only [userstack, word, pgsize] at hle ⊢
    omega
  simp only
  rw [hnew]
  -- as numbers in the program, the sizes would be computed by unification
  generalize hold : pgroundup im.sz = sz at *
  generalize hsz2 : (npages im.sz + 2) * pgsize = sz2 at *
  have him1 : (m.k.setImage m.k.cur (some { im with sz := sz })).image m.k.cur =
      some { im with sz := sz } := by
    rw [Kernel.setImage_image, if_pos rfl]
  have hs1 := Staged.setImage h1 rfl fun _ _ _ _ => rfl
  rw [wp_bind, wp_setImage]
  refine wp_seq (growImage_spec h1 him1 ⟨by decide, by decide⟩) ?_
  rintro sz1 m₂ ⟨hzero, hset, hcur, hgrown⟩
  generalize hga : sz1 - (userstack + 1) * pgsize = guard
  rw [wp_ite]
  refine ⟨fun h0 => ⟨hs1.trans (hzero h0), fun hb => by cases hb⟩, fun _ => ?_⟩
  have hdet := h1.detached him1
  have hle2 : sz ≤ sz2 := by
    rw [hround, ← hsz2]
    exact Nat.mul_le_mul_right _ (by omega)
  obtain ⟨heq, hmax, hg⟩ := hgrown hle2
  subst heq
  have hpages : npages sz1 = npages im.sz + 2 := by rw [← hsz2, npages_mul]
  have hpages0 : npages sz = npages im.sz := by rw [hround, npages_mul]
  have htop : npages im.sz + 2 ≤ userTop := hpages ▸ npages_le_userTop hmax
  simp only [hpages, hpages0, Nat.add_sub_cancel_left] at hg
  have hguard : guard / pgsize = npages im.sz := by
    rw [← hga, ← hsz2, Nat.add_mul, userstack, Nat.add_sub_cancel]
    exact Nat.mul_div_cancel _ (by decide)
  rw [wp_bind, wp_setImage, hcur]
  refine wp_seq (hset.sys.uvmclear ?_ ?_) ?_
  · rw [hguard]
    omega
  · rw [hguard]
    exact (hg.ready hdet htop le_rfl (by omega)).valid
  · rintro - m₄ ⟨h4, hw4, hother⟩
    have him3 : (m₂.k.setImage m.k.cur (some { im with sz := sz1 })).image m.k.cur =
        some { im with sz := sz1 } := by
      rw [Kernel.setImage_image, if_pos rfl]
    have hs4 := Staged.of_world h4 hw4 fun x _ _ u => (hother _ u fun hc =>
      hset.sys.detached him3 x hc.1).1
    refine ⟨hs1.trans (hset.trans hs4), fun _ =>
      ⟨im, { im with sz := sz1 }, him, ?_, ⟨Nat.succ_pos _, hsz2.symm, ?_⟩, fun u hu => ?_⟩⟩
    · rw [hw4]
      exact him3
    · have hready := hg.ready (v := npages im.sz + 1) hdet htop (by omega) (by omega)
      have hleaf : m₄.k.leaf im.pagetable (npages im.sz + 1) =
          m₂.k.leaf im.pagetable (npages im.sz + 1) := (hother _ _ (by rw [hguard]; omega)).1
      exact ⟨hready.lt, by rw [hleaf]; exact hready.valid, by rw [hleaf]; exact hready.user,
        by rw [hleaf]; exact hready.write⟩
    · refine (hother _ u (by rw [hguard]; omega)).2.trans ?_
      change m₂.k.view _ u = _
      rw [hg.eff.view, View.fill, if_neg (by omega)]
      rfl

theorem execStack_spec (h : Sys H m) :
    wp execStack (fun b m' => Staged H m m' ∧ (b = true →
      ∃ im v, m'.k.image m.k.cur = some im ∧ StackPage m'.k im v)) Crash m := by
  refine wp_mono (execStack_full h) ?_ fun _ _ he => he
  rintro b m₁ ⟨h1, hres⟩
  refine ⟨h1, fun hb => ?_⟩
  obtain ⟨im, im', -, him, hstack, -⟩ := hres hb
  exact ⟨im', _, him, hstack⟩

/-! ### Ending a `kexec` -/

/-- Freeing a whole address space returns: its pages lie below its size. -/
theorem Sys.freepagetable_returns {sz : ℕ} (h : Sys H m) (ht : (m.k.pt root).isSome)
    (hfit : Fits m.k.view root sz) :
    ∃ m', (procFreepagetable root sz).run m = .ok () m' ∧ Gone H root m m' := by
  have hspec := procFreepagetable_spec h.inv ht hfit.le (h.swapped_lt hfit)
  cases hrun : (procFreepagetable root sz).run m with
  | ok u m' =>
    have hg := wp_ok hspec hrun
    exact ⟨m', rfl, hg⟩
  | error e m' =>
    -- the resident page that would stop `freewalk` is neither below nor above `TRAPFRAME`
    obtain ⟨-, u, hu, htf, htr, hV⟩ := wp_error hspec hrun
    rcases Nat.lt_or_ge u userTop with hlt | hge
    · have hview := Kernel.view_of_valid hlt hV
      have := lt_npages_iff.mpr (hfit.bound u (by rw [hview]; simp))
      omega
    · rw [(h.sys root u hge).2.2 (by omega)] at hV
      cases hV

/-- The table in the locals is freed. -/
theorem freeImage_spec (h : Sys H m) :
    wp freeImage (fun _ m' => Staged H m m' ∧ m'.k.image m.k.cur = none) Crash m := by
  rw [freeImage]
  refine wp_seq (getImage_spec h) ?_
  rintro im m ⟨rfl, him⟩
  have hfit := h.images _ im him
  rw [wp_bind]
  refine wp_mono (procFreepagetable_spec h.inv (h.image_table him) hfit.le (h.swapped_lt hfit)) ?_
    fun _ _ he => he.1
  rintro - m₁ hg
  rw [wp_setImage, show m₁.k.cur = m.k.cur by rw [hg.world]]
  exact ⟨.setImage (h.dropImage him hg) hg.world fun p _ _ v => hg.leaf _ (h.detached him p) v,
    (Kernel.setImage_image ..).trans (if_pos rfl)⟩

/-- **The failure stage.** -/
theorem execBad_spec (h : Sys H m) :
    wp execBad (fun _ m' => Staged H m m' ∧ m'.k.image m.k.cur = none) Crash m := by
  rw [execBad, wp_bind, wp_getK, wp_ite]
  refine ⟨fun _ => wp_seq (freeImage_spec h) fun _ _ h1 => h1, fun hno => ⟨.refl h, ?_⟩⟩
  rwa [Option.not_isSome_iff_eq_none] at hno

/-- **The image is committed and the old one freed.** -/
theorem execCommit_spec {entry sp : ℕ} {path : List UInt8} (h : Sys H m)
    (hact : (m.k.proc m.k.cur).state.active = true) :
    wp (execCommit entry path sp) (fun _ m' => Staged H m m' ∧ m'.k.image m.k.cur = none)
      Crash m := by
  rw [execCommit, wp_bind, wp_myproc]
  refine wp_seq (getImage_spec h) ?_
  rintro im m ⟨rfl, him⟩
  rw [wp_bind, wp_getK, wp_bind, wp_modProc, wp_bind, wp_setImage]
  have h1 := h.commit him hact (q := { m.k.proc m.k.cur with
    name := (basename path).take 15
    pagetable := im.pagetable
    sz := im.sz
    tf := { (m.k.proc m.k.cur).tf with a1 := sp, epc := entry, sp := sp } }) rfl rfl rfl rfl
  refine wp_mono (freeImage_spec h1) ?_ fun _ _ he => he
  rintro - m₁ ⟨hs, hnone⟩
  have hstate : ∀ x, ((m.k.setProc m.k.cur { m.k.proc m.k.cur with
      name := (basename path).take 15
      pagetable := im.pagetable
      sz := im.sz
      tf := { (m.k.proc m.k.cur).tf with a1 := sp, epc := entry, sp := sp } }).proc x).state =
        (m.k.proc x).state := by
    intro x
    rw [Kernel.setProc_proc, Function.update_apply]
    split_ifs with hx
    · rw [hx]
    · rfl
  refine ⟨⟨hs.sys, hs.cur, fun x => (hs.state x).trans (hstate x), hs.held,
    Apart.trans ?_ hs.apart⟩, hnone⟩
  exact ⟨rfl, fun x hr _ => (hstate x).trans hr,
    fun x _ hx => congrArg Proc.pagetable (Function.update_of_ne hx _ _), fun _ _ _ _ => rfl⟩

/-- **The last stage.** -/
theorem execFinish_spec {entry : ℕ} {path : List UInt8} {argv : List (List UInt8)} (h : Sys H m)
    (hact : (m.k.proc m.k.cur).state.active = true) (hargs : ∀ s ∈ argv, s.length < pgsize) :
    wp (execFinish entry path argv) (fun _ m' => Staged H m m' ∧ m'.k.image m.k.cur = none)
      Crash m := by
  have hafter : ∀ m₁, Staged H m m₁ → ∀ m₂, Staged H m₁ m₂ ∧ m₂.k.image m₁.k.cur = none →
      Staged H m m₂ ∧ m₂.k.image m.k.cur = none := fun m₁ h1 m₂ h2 =>
    ⟨h1.trans h2.1, h1.cur ▸ h2.2⟩
  rw [execFinish]
  refine wp_seq (execStack_spec h) ?_
  rintro b m₁ ⟨h1, hstack⟩
  rw [wp_ite]
  refine ⟨fun _ => wp_mono (execBad_spec h1.sys) (fun _ m₂ h2 => hafter m₁ h1 m₂ h2)
    fun _ _ he => he, fun hb => ?_⟩
  obtain ⟨im, v, him, hpage⟩ := hstack (by simpa using hb)
  rw [← h1.cur] at him
  obtain ⟨m₂, hrun, hp, -⟩ := execArgs_run h1.sys.inv him hpage hargs
  have h12 := h1.trans (h1.sys.staged_stored hp.toStored)
  rw [wp_bind]
  refine wp_of_ok hrun ?_
  generalize (if ArgsFit (v * pgsize) im.sz argv then some _ else none) = o
  cases o with
  | none =>
    exact wp_mono (execBad_spec h12.sys) (fun _ m₃ h3 => hafter m₂ h12 m₃ h3) fun _ _ he => he
  | some sp =>
    refine wp_seq (execCommit_spec h12.sys ?_) fun _ m₃ h3 => hafter m₂ h12 m₃ h3
    rw [h12.cur, h12.state]
    exact hact

end Stack

/-! ### The whole call -/

section Whole

variable {H : List ℕ} {m : Machine}

theorem ProcState.active_of_runs {st : ProcState} (h : st.runs = true) : st.active = true := by
  cases st <;> first | rfl | cases h

/-- **`kexec` keeps the invariant**, whether or not it succeeds. -/
theorem kexec_spec {ip : Option (List UInt8)} {path : List UInt8} {argv : List (List UInt8)}
    (h : Sys H m) (hrun : (m.k.proc m.k.cur).state.runs = true)
    (hnone : m.k.image m.k.cur = none) (hargs : ∀ s ∈ argv, s.length < pgsize) :
    wp (kexec ip path argv) (fun _ m' => Staged H m m' ∧ m'.k.image m.k.cur = none) Crash m := by
  have hafter : ∀ m₁, Staged H m m₁ → ∀ m₂, Staged H m₁ m₂ ∧ m₂.k.image m₁.k.cur = none →
      Staged H m m₂ ∧ m₂.k.image m.k.cur = none := fun m₁ h1 m₂ h2 =>
    ⟨h1.trans h2.1, h1.cur ▸ h2.2⟩
  cases ip with
  | none => exact ⟨.refl h, hnone⟩
  | some file =>
    rw [kexec]
    refine wp_seq (execHeader_spec h hrun hnone) ?_
    rintro o m₁ ⟨h1, -⟩
    cases o with
    | none =>
      exact wp_mono (execBad_spec h1.sys) (fun _ m₂ h2 => hafter m₁ h1 m₂ h2) fun _ _ he => he
    | some elf =>
      refine wp_seq (execSegments_spec h1.sys) fun b m₂ h2 => ?_
      have h12 := h1.trans h2
      rw [wp_ite]
      refine ⟨fun _ => wp_mono (execBad_spec h12.sys) (fun _ m₃ h3 => hafter m₂ h12 m₃ h3)
        fun _ _ he => he, fun _ => ?_⟩
      refine wp_mono (execFinish_spec h12.sys ?_ hargs) (fun _ m₃ h3 => hafter m₂ h12 m₃ h3)
        fun _ _ he => he
      rw [h12.cur, h12.state]
      exact ProcState.active_of_runs hrun

/-! ### The system call -/

theorem fetchstr_spec {addr max : ℕ} (h : Inv H m) :
    wp (fetchstr addr max) (fun o m' => m' = m ∧ ∀ s, o = some s → s.length < max) Crash m := by
  rw [fetchstr, wp_bind, wp_getK]
  refine wp_seq (copyinstrLoop_spec h) ?_
  rintro ⟨st, bs⟩ m₁ ⟨rfl, hres⟩
  simp only [wp_ite]
  refine ⟨fun _ => ⟨rfl, fun s h0 => by cases h0⟩, fun hge => ⟨rfl, fun s hs => ?_⟩⟩
  cases hs
  simpa using hres.resolve_left hge

theorem fetchaddr_spec {addr : ℕ} (h : Sys H m) :
    wp (fetchaddr addr) (fun _ m' => Kept H m m') Crash m := by
  rw [fetchaddr, wp_bind, wp_getK, wp_ite]
  refine ⟨fun _ => .refl h, fun _ => wp_seq h.copyin ?_⟩
  rintro ⟨st, bs⟩ m₁ hk
  simp only [wp_ite]
  exact ⟨fun _ => hk, fun _ => hk⟩

/-- The argument pages of a process change. -/
theorem Sys.setArgs {H' : List ℕ} {p : ℕ} {l : List ℕ} (h : Sys H m)
    (hmem : MemInv H' (m.k.setArgs p l)) (hrun : (m.k.proc p).state.runs = true) :
    Sys H' ⟨m.k.setArgs p l, m.calls⟩ := by
  refine ⟨⟨hmem, h.inv.log, h.inv.frames⟩, h.roots, h.fits, h.images, h.sys, h.frame, h.vacant,
    fun x hx => ?_, h.live, h.files⟩
  have hxp : x ≠ p := by
    rintro rfl
    change (m.k.proc x).state.runs = _ at hx
    rw [hrun] at hx
    cases hx
  obtain ⟨hi, ha⟩ := h.idle x hx
  exact ⟨hi, (Function.update_of_ne hxp _ _).trans ha⟩

/-- What fetching and freeing arguments keeps. -/
theorem Kept.staged {m' : Machine} (h : Kept H m m') : Staged H m m' :=
  ⟨h.sys, h.cur, h.state, h.held, h.apart⟩

/-- **One argument of `sys_exec`.** -/
theorem execFetch_spec {uarg : ℕ} (h : Sys H m) (hrun : (m.k.proc m.k.cur).state.runs = true) :
    wp (execFetch uarg) (fun o m' => Staged H m m' ∧ m'.k.image = m.k.image ∧
      ∀ s, o = some s → s.length < pgsize) Crash m := by
  rw [execFetch]
  refine wp_seq h.kalloc ?_
  rintro pg m₁ ⟨hne, h1, hq⟩
  have hcur : m₁.k.cur = m.k.cur := by rw [hq.world]
  rw [if_neg hne, wp_bind, wp_myproc, wp_bind, wp_modK, hcur]
  have h2 : Sys H ⟨m₁.k.setArgs m.k.cur (m₁.k.args m.k.cur ++ [pg]), m₁.calls⟩ :=
    h1.setArgs h1.inv.mem.giveArg (by rw [hq.world]; exact hrun)
  have hdone : ∀ m₃, Stored H ⟨m₁.k.setArgs m.k.cur (m₁.k.args m.k.cur ++ [pg]), m₁.calls⟩ m₃ →
      Staged H m m₃ ∧ m₃.k.image = m.k.image := by
    intro m₃ hs
    have hk := Kept.of_world h h1 hq.world hq.safe
    have hs2 := h2.staged_stored hs
    refine ⟨⟨hs2.sys, hs2.cur.trans hk.cur, fun x => (hs2.state x).trans (hk.state x),
      hs2.held.trans hk.held, hk.apart.trans (Apart.trans ?_ hs2.apart)⟩, ?_⟩
    · exact .of_eq rfl (fun _ => rfl) (fun _ => rfl) fun _ _ => rfl
    · rw [hs.world]
      exact hk.image
  refine wp_seq (fetchstr_spec h2.inv) ?_
  rintro o m₃ ⟨rfl, hlen⟩
  cases o with
  | none =>
    obtain ⟨hs, hi⟩ := hdone _ (.refl h2.inv)
    exact ⟨hs, hi, fun s h0 => by cases h0⟩
  | some s =>
    obtain ⟨hs, hi⟩ := hdone _ ⟨h2.inv.setMem pg _, rfl, rfl⟩
    exact ⟨hs, hi, hlen⟩

/-- The loop of `sys_exec` over its arguments. -/
theorem execFetchLoop_spec {uargv n : ℕ} {argv : List (List UInt8)} (h : Sys H m)
    (hrun : (m.k.proc m.k.cur).state.runs = true) (hargs : ∀ s ∈ argv, s.length < pgsize) :
    wp (execFetchLoop uargv n argv) (fun o m' => Staged H m m' ∧ m'.k.image = m.k.image ∧
      ∀ argv', o = some argv' → ∀ s ∈ argv', s.length < pgsize) Crash m := by
  induction n generalizing m argv with
  | zero => exact ⟨.refl h, rfl, fun _ h0 => by cases h0⟩
  | succ n ih =>
    rw [execFetchLoop]
    refine wp_seq (fetchaddr_spec h) fun o m₁ hk => ?_
    cases o with
    | none => exact ⟨hk.staged, hk.image, fun _ h0 => by cases h0⟩
    | some uarg =>
      simp only [wp_ite]
      refine ⟨fun _ => ⟨hk.staged, hk.image, fun argv' h0 => ?_⟩, fun _ => ?_⟩
      · cases h0
        exact hargs
      · refine wp_seq (execFetch_spec hk.sys (by rw [hk.cur, hk.state]; exact hrun)) ?_
        rintro o m₂ ⟨h2, hi2, hlen⟩
        have h12 := hk.staged.trans h2
        cases o with
        | none => exact ⟨h12, hi2.trans hk.image, fun _ h0 => by cases h0⟩
        | some s =>
          refine wp_mono (ih h12.sys (by rw [h12.cur, h12.state]; exact hrun) ?_) ?_
            fun _ _ he => he
          · intro s' hs'
            rcases List.mem_append.mp hs' with hold | hnew
            · exact hargs s' hold
            · rw [List.mem_singleton.mp hnew]
              exact hlen s rfl
          · rintro o m₃ ⟨h3, hi3, hres⟩
            exact ⟨h12.trans h3, hi3.trans (hi2.trans hk.image), hres⟩

/-- The argument pages are freed. -/
theorem freeArgs_spec {l : List ℕ} (h : Sys H m) (hrun : (m.k.proc m.k.cur).state.runs = true)
    (hl : m.k.args m.k.cur = l) :
    wp (freeArgs l) (fun _ m' => Staged H m m' ∧ m'.k.image = m.k.image ∧
      m'.k.args m.k.cur = []) Crash m := by
  induction l generalizing m with
  | nil => exact ⟨.refl h, rfl, hl⟩
  | cons pg rest ih =>
    have hown : pg ∈ m.k.own H (.arg m.k.cur) := by
      change pg ∈ m.k.args m.k.cur
      rw [hl]
      exact List.mem_cons_self
    have hmem := h.inv.mem.takeArg hl
    rw [freeArgs, wp_bind, wp_kfree (h.inv.mem.own.sub _ _ hown) h.inv.mem.kend_le, wp_bind,
      wp_myproc, wp_bind, wp_modK]
    have h1 : Sys H ⟨(m.k.setArgs m.k.cur rest).freed pg, .kfree pg m.k :: m.calls⟩ :=
      (h.setArgs hmem hrun).freed (h.inv.freed hmem (h.inv.mem.not_free hown (by simp)) rfl
        (fun _ _ hh => hh) fun r v _ hV _ => ⟨hV, rfl⟩)
    refine wp_mono (ih h1 hrun (Function.update_self _ _ _)) ?_ fun _ _ he => he
    rintro - m₂ ⟨h2, hi2, ha2⟩
    refine ⟨⟨h2.sys, h2.cur, h2.state, h2.held, Apart.trans ?_ h2.apart⟩, hi2, ha2⟩
    exact .of_eq rfl (fun _ => rfl) (fun _ => rfl) fun _ _ => rfl

/-- **`sys_exec` keeps the invariant.** -/
theorem sysExec_spec {namei : List UInt8 → Option (List UInt8)} {upath uargv : ℕ} (h : Sys H m)
    (hrun : (m.k.proc m.k.cur).state.runs = true) (hnone : m.k.image m.k.cur = none) :
    wp (sysExec namei upath uargv) (fun _ m' => Staged H m m') Crash m := by
  have hfree : ∀ (r : ℤ) m₁, Staged H m m₁ → wp (do
      let k ← getK
      freeArgs (k.args k.cur)
      return r) (fun _ m' => Staged H m m') Crash m₁ := by
    intro r m₁ h1
    rw [wp_bind, wp_getK]
    refine wp_seq (freeArgs_spec h1.sys (by rw [h1.cur, h1.state]; exact hrun) rfl) ?_
    rintro - m₂ ⟨h2, -⟩
    exact h1.trans h2
  rw [sysExec]
  refine wp_seq (fetchstr_spec h.inv) ?_
  rintro o m₁ ⟨rfl, -⟩
  cases o with
  | none => exact .refl h
  | some path =>
    refine wp_seq (execFetchLoop_spec h hrun fun _ h0 => absurd h0 List.not_mem_nil) ?_
    rintro o m₂ ⟨h2, hi2, hargs⟩
    cases o with
    | none => exact hfree (-1) m₂ h2
    | some argv =>
      refine wp_seq (kexec_spec h2.sys (by rw [h2.cur, h2.state]; exact hrun)
        (by rw [h2.cur, hi2]; exact hnone) (hargs argv rfl)) ?_
      rintro ret m₃ ⟨h3, -⟩
      exact hfree ret m₃ (h2.trans h3)

end Whole

end Xv6
