import Xv6.Machine.Trap
import Xv6.System.Files

/-!
# Processes keep the system invariant

Creating, resizing, copying and destroying processes. Installing a new page table and
removing one are the two moves that change who holds which table (`Sys.install`,
`Sys.uninstall`); the functions of `kernel/proc.c` are put together from them.
-/

namespace Xv6

open StateLogic Ownership

/-! ### Tables coming and going -/

section Tables

variable {H : List ℕ} {m m' : Machine} {p root : ℕ} {q : Proc}

/-- A change of who holds which table does not disturb the frame table, as long as tables
that exist stay with the process that held them. -/
theorem FrameTable.reholds {k k' : Kernel} (h : FrameTable k) (hmem : k'.toMemory = k.toMemory)
    (hholds : ∀ p r, Holds k p r → (k.pt r).isSome → Holds k' p r) : FrameTable k' := by
  intro i hused
  rw [hmem] at hused ⊢
  obtain ⟨halign, p, r, hp, hh, hV, hpa⟩ := h i hused
  obtain ⟨t, ht, -⟩ := Memory.hasEntry_of_leaf (Pte.ne_zero_of_valid hV)
  exact ⟨halign, p, r, hp, hholds p r hh (by rw [ht]; rfl), hV, hpa⟩

theorem NewTable.not_mem_tables (hn : NewTable H root m m') : root ∉ m.k.tables := by
  intro hin
  rw [Kernel.tables, Set.mem_ofPred_eq, hn.fresh] at hin
  cases hin

theorem NewTable.mem_tables (hn : NewTable H root m m') (x : ℕ) :
    x ∈ m'.k.tables ↔ x ∈ m.k.tables ∨ x = root := by
  simp only [Kernel.tables, Set.mem_ofPred_eq]
  by_cases hx : x = root
  · subst hx
    simp [hn.made]
  · simp [hx, hn.roots x hx]

/-- A new table maps no user page. -/
theorem NewTable.empty (hn : NewTable H root m m') (v : ℕ) : m'.k.view root v = none := by
  rw [hn.view]
  by_cases hv : v < userTop
  · rw [Kernel.view_eq_none_iff hv, Memory.leaf_of_none hn.fresh]
    decide
  · exact if_neg hv

theorem Sys.new_sys (h : Sys H m) (hn : NewTable H root m m') (r : ℕ) : TopSys m'.k r := by
  by_cases hr : r = root
  · rw [hr]
    exact hn.sys
  · exact (h.sys r).congr (hn.top r hr)

theorem Sys.new_frame (h : Sys H m) (hn : NewTable H root m m')
    (hframe : (m'.k.leaf root userTop).has pteV = true) (r : ℕ) (hr : (m'.k.pt r).isSome) :
    (m'.k.leaf r userTop).has pteV = true := by
  by_cases hroot : r = root
  · rw [hroot]
    exact hframe
  · rw [hn.top r hroot userTop le_rfl]
    exact h.frame r (by rw [← hn.roots r hroot]; exact hr)

/-- **A new table is installed** in a process that had none. -/
theorem Sys.install (h : Sys H m) (hn : NewTable H root m m') (hroot : root ≠ 0)
    (hframe : (m'.k.leaf root userTop).has pteV = true) (hold : (m.k.proc p).pagetable = 0)
    (hq : q.pagetable = root) (hsz : q.sz = (m.k.proc p).sz)
    (htf : q.trapframe = (m.k.proc p).trapframe) (hst : q.state = (m.k.proc p).state)
    (hused : (m.k.proc p).state ≠ .unused) : Sys H ⟨m'.k.setProc p q, m'.calls⟩ := by
  have hproc : (m'.k.setProc p q).proc = Function.update m.k.proc p q := by
    rw [Kernel.setProc_proc, hn.world]
  have hself : (m'.k.setProc p q).proc p = q := by rw [hproc, Function.update_self]
  have hother : ∀ x, x ≠ p → (m'.k.setProc p q).proc x = m.k.proc x := fun x hx => by
    rw [hproc, Function.update_of_ne hx]
  have himage : (m'.k.setProc p q).image = m.k.image := by
    change m'.k.image = m.k.image
    rw [hn.world]
  have hargs : (m'.k.setProc p q).args = m.k.args := by
    change m'.k.args = m.k.args
    rw [hn.world]
  refine ⟨⟨?_, hn.inv.log, fun hquiet => ?_⟩, ?_, fun x => ?_, fun x im him => ?_,
    @Sys.new_sys _ _ m' _ h hn,
    @Sys.new_frame _ _ m' _ h hn hframe, fun x hx => ?_, fun x hx => ?_, fun x hx => ?_, ?_⟩
  · exact hn.inv.mem.setProc (by rw [hn.world]; exact htf)
  · refine (hn.inv.frames hquiet).reholds rfl fun x r hh hr => ?_
    rcases hh with hpt | him
    · by_cases hx : x = p
      · subst hx
        rw [hn.world, hold] at hpt
        rw [← hpt, hn.inv.mem.pt_zero] at hr
        cases hr
      · refine Or.inl ?_
        rw [hother x hx, ← hpt, hn.world]
    · exact Or.inr him
  · refine h.roots.gain (b := .installed p) hn.not_mem_tables (fun x => hn.mem_tables x)
      (fun x => ?_) fun o ho x => ?_
    · simp only [Kernel.holding, Set.mem_ofPred_eq, hself, hq, hold]
      constructor
      · rintro ⟨-, rfl⟩
        exact Or.inr rfl
      · rintro (⟨h0, rfl⟩ | rfl)
        · exact absurd rfl h0
        · exact ⟨hroot, rfl⟩
    · cases o with
      | installed y =>
        have hy : y ≠ p := fun heq => ho (heq ▸ rfl)
        simp only [Kernel.holding, Set.mem_ofPred_eq, hother y hy]
      | image y => simp only [Kernel.holding, Set.mem_ofPred_eq, himage]
  · by_cases hx : x = p
    · subst hx
      rw [hself, hq, hsz]
      exact ⟨(h.fits x).le, fun v hv => absurd (hn.empty v) hv⟩
    · rw [hother x hx]
      have hfit := h.fits x
      rw [← hn.view] at hfit
      exact hfit
  · rw [himage] at him
    have hfit := h.images x im him
    rw [← hn.view] at hfit
    exact hfit
  · by_cases hxp : x = p
    · subst hxp
      rw [hself, hst] at hx
      exact absurd hx hused
    · rw [hother x hxp] at hx ⊢
      exact h.vacant x hx
  · rw [himage, hargs]
    by_cases hxp : x = p
    · subst hxp
      rw [hself, hst] at hx
      exact h.idle x hx
    · rw [hother x hxp] at hx
      exact h.idle x hx
  · by_cases hxp : x = p
    · subst hxp
      rw [hself, hq]
      exact hroot
    · rw [hother x hxp] at hx ⊢
      exact h.live x hx
  · change FilesOK m'.k.ftable m'.k.pipes
    rw [hn.world]
    exact h.files

theorem Gone.mem_tables (hg : Gone H root m m') (x : ℕ) :
    x ∈ m'.k.tables ↔ x ∈ m.k.tables ∧ x ≠ root := by
  simp only [Kernel.tables, Set.mem_ofPred_eq]
  by_cases hx : x = root
  · subst hx
    simp [hg.gone]
  · simp [hx, hg.roots x hx]

theorem Gone.fits {r sz : ℕ} (hg : Gone H root m m') (hf : Fits m.k.view r sz) :
    Fits m'.k.view r sz := by
  refine ⟨hf.le, fun v hv => hf.bound v ?_⟩
  rw [hg.view] at hv
  split_ifs at hv
  · exact absurd rfl hv
  · exact hv

/-- The table freed keeps nobody's entries. -/
theorem Gone.sys (hg : Gone H root m m') (h : ∀ r, TopSys m.k r) (r : ℕ) : TopSys m'.k r := by
  by_cases hr : r = root
  · exact hr ▸ .of_zero fun v _ => Memory.leaf_of_none hg.gone v
  · exact (h r).congr fun v _ => hg.leaf r hr v

theorem Gone.frame (hg : Gone H root m m')
    (h : ∀ r, (m.k.pt r).isSome → (m.k.leaf r userTop).has pteV = true) (r : ℕ)
    (hr : (m'.k.pt r).isSome) : (m'.k.leaf r userTop).has pteV = true := by
  by_cases hroot : r = root
  · rw [hroot, hg.gone] at hr
    cases hr
  · rw [hg.leaf r hroot]
    exact h r (by rw [← hg.roots r hroot]; exact hr)

/-- **The table of a process is removed** and its entry of the process table cleared. -/
theorem Sys.uninstall (h : Sys H m) (hg : Gone H (m.k.proc p).pagetable m m')
    (hne : (m.k.proc p).pagetable ≠ 0) (htf : (m.k.proc p).trapframe = 0)
    (hidle : m.k.image p = none ∧ m.k.args p = []) (hq : Vacant q) (hst : q.state = .unused) :
    Sys H ⟨m'.k.setProc p q, m'.calls⟩ := by
  have hproc : (m'.k.setProc p q).proc = Function.update m.k.proc p q := by
    rw [Kernel.setProc_proc, hg.world]
  have hself : (m'.k.setProc p q).proc p = q := by rw [hproc, Function.update_self]
  have hother : ∀ x, x ≠ p → (m'.k.setProc p q).proc x = m.k.proc x := fun x hx => by
    rw [hproc, Function.update_of_ne hx]
  have himage : (m'.k.setProc p q).image = m.k.image := by
    change m'.k.image = m.k.image
    rw [hg.world]
  have hargs : (m'.k.setProc p q).args = m.k.args := by
    change m'.k.args = m.k.args
    rw [hg.world]
  refine ⟨⟨?_, hg.inv.log, fun hquiet => ?_⟩, ?_, fun x => ?_, fun x im him => ?_,
    @Gone.sys _ _ m' _ hg h.sys, @Gone.frame _ _ m' _ hg h.frame, fun x hx => ?_, fun x hx => ?_,
    fun x hx => ?_, ?_⟩
  · exact hg.inv.mem.setProc (by rw [hg.world, htf, hq.trapframe])
  · refine (hg.inv.frames hquiet).reholds rfl fun x r hh hr => ?_
    rcases hh with hpt | him
    · by_cases hx : x = p
      · subst hx
        rw [hg.world] at hpt
        rw [← hpt, hg.gone] at hr
        cases hr
      · refine Or.inl ?_
        rw [hother x hx, ← hpt, hg.world]
    · exact Or.inr him
  · refine h.roots.lose (a := .installed p) (r := (m.k.proc p).pagetable) ⟨hne, rfl⟩
      (fun x => hg.mem_tables x) (fun x => ?_) fun o ho x => ?_
    · simp only [Kernel.holding, Set.mem_ofPred_eq, hself, hq.pagetable]
      constructor
      · rintro ⟨h0, rfl⟩
        exact absurd rfl h0
      · rintro ⟨⟨-, rfl⟩, hx⟩
        exact absurd rfl hx
    · cases o with
      | installed y =>
        have hy : y ≠ p := fun heq => ho (heq ▸ rfl)
        simp only [Kernel.holding, Set.mem_ofPred_eq, hother y hy]
      | image y => simp only [Kernel.holding, Set.mem_ofPred_eq, himage]
  · by_cases hx : x = p
    · subst hx
      rw [hself, hq.pagetable, hq.sz]
      exact ⟨Nat.zero_le _, fun v hv => absurd (hg.inv.mem.view_zero v) hv⟩
    · rw [hother x hx]
      exact hg.fits (h.fits x)
  · rw [himage] at him
    exact hg.fits (h.images x im him)
  · by_cases hxp : x = p
    · subst hxp
      rw [hself]
      exact hq
    · rw [hother x hxp] at hx ⊢
      exact h.vacant x hx
  · rw [himage, hargs]
    by_cases hxp : x = p
    · subst hxp
      exact hidle
    · rw [hother x hxp] at hx
      exact h.idle x hx
  · by_cases hxp : x = p
    · subst hxp
      rw [hself, hst] at hx
      cases hx
    · rw [hother x hxp] at hx ⊢
      exact h.live x hx
  · change FilesOK m'.k.ftable m'.k.pipes
    rw [hg.world]
    exact h.files

/-- The pages beyond the size of a process are not swapped out. -/
theorem Sys.swapped_lt (h : Sys H m) {r sz : ℕ} (hf : Fits m.k.view r sz) (u : ℕ)
    (hsw : (m.k.leaf r u).swapped = true) : u < npages sz := by
  by_cases hu : u < userTop
  · refine lt_npages_iff.mpr (hf.bound u fun hnone => ?_)
    rw [Kernel.view_eq_none_iff hu] at hnone
    rw [Pte.swapped, hnone.2] at hsw
    cases hsw
  · rw [(h.sys r u (Nat.le_of_not_lt hu)).1] at hsw
    cases hsw

end Tables

/-! ### Creating and destroying processes -/

section Life

variable {H : List ℕ} {m : Machine} {p : ℕ}

/-- The step from `m` to `m'` touched no process but `p`. -/
structure Only (p : ℕ) (m m' : Machine) : Prop where
  cur : m'.k.cur = m.k.cur
  other : ∀ x, x ≠ p → m'.k.proc x = m.k.proc x
  image : m'.k.image = m.k.image
  args : m'.k.args = m.k.args
  held : m'.k.held = m.k.held
  apart : Apart m m'

@[simp]
theorem Kernel.setProc_setProc (k : Kernel) (p : ℕ) (q q' : Proc) :
    (k.setProc p q).setProc p q' = k.setProc p q' := by
  simp [Kernel.setProc]

theorem Only.of_proc {m' : Machine} {q : Proc} (h : Sys H m)
    (hw : m'.k.toWorld = (m.k.setProc p q).toWorld)
    (hp : ¬((m.k.proc p).state = .running ∧ p ≠ m.k.cur))
    (hsafe : ∀ r, (m.k.pt r).isSome → Safe m.k r → ∀ v, m'.k.leaf r v = m.k.leaf r v) :
    Only p m m' := by
  refine ⟨?_, fun x hx => ?_, ?_, ?_, ?_, h.apart_proc hw hp hsafe⟩
  all_goals rw [hw]
  · rfl
  · exact Function.update_of_ne hx _ _
  all_goals rfl

theorem Only.of_world {m' : Machine} (h : Sys H m) (hw : m'.k.toWorld = m.k.toWorld)
    (hsafe : ∀ r, Safe m.k r → ∀ v, m'.k.leaf r v = m.k.leaf r v) : Only p m m' := by
  refine ⟨?_, fun x _ => ?_, ?_, ?_, ?_, h.apart hw hsafe⟩
  all_goals rw [hw]

theorem Only.refl (h : Sys H m) : Only p m m := .of_world h rfl fun _ _ _ => rfl

theorem Kernel.setProc_world {k k' : Kernel} (h : k'.toWorld = k.toWorld) (p : ℕ) (q : Proc) :
    (k'.setProc p q).toWorld = (k.setProc p q).toWorld := by
  have heq : ∀ k : Kernel, (k.setProc p q).toWorld =
      { k.toWorld with proc := Function.update k.toWorld.proc p q } := fun _ => rfl
  rw [heq, heq, h]

/-- A process without trapframe and `kexec` gives up its table and its entry. -/
theorem freeTable_spec (h : Sys H m) (htf : (m.k.proc p).trapframe = 0)
    (hrun : (m.k.proc p).state ≠ .running)
    (hidle : m.k.image p = none ∧ m.k.args p = []) {f : Proc → Proc}
    (hf : ∀ q, q.trapframe = 0 → Vacant (f q) ∧ (f q).state = .unused) :
    wp (do
      if ((← getK).proc p).pagetable ≠ 0 then
        procFreepagetable ((← getK).proc p).pagetable ((← getK).proc p).sz
      modProc p f) (fun _ m' => Sys H m' ∧ Only p m m') Crash m := by
  simp only [wp_bind, wp_getK, wp_ite, modProc, wp_modK]
  refine ⟨fun hne => ?_, fun h0 => ?_⟩
  · have htable : (m.k.pt (m.k.proc p).pagetable).isSome :=
      h.roots.sub (.installed p) _ ⟨hne, rfl⟩
    refine wp_mono (procFreepagetable_spec h.inv htable (h.fits p).le (h.swapped_lt (h.fits p)))
      ?_ fun _ _ he => he.1
    rintro - m₁ hg
    rw [show m₁.k.proc p = m.k.proc p by rw [hg.world]]
    obtain ⟨hvac, hst⟩ := hf (m.k.proc p) htf
    exact ⟨h.uninstall hg hne htf hidle hvac hst, .of_proc h (Kernel.setProc_world hg.world p _)
      (fun hr => hrun hr.1) fun r _ hr v => hg.leaf r (hr.ne fun h0 => hrun h0.1).symm v⟩
  · rw [not_not] at h0
    obtain ⟨hvac, hst⟩ := hf (m.k.proc p) htf
    refine ⟨h.setProc (h.inv.mem.setProc (hvac.trapframe.trans htf.symm))
      (hvac.pagetable.trans h0.symm) ?_ (fun _ => hvac) (fun _ => hidle) fun ha => ?_,
      .of_proc h rfl (fun hr => hrun hr.1) fun _ _ _ _ => rfl⟩
    · rw [hvac.pagetable, hvac.sz]
      exact ⟨Nat.zero_le _, fun v hv => absurd (h.inv.mem.view_zero v) hv⟩
    · rw [hst] at ha
      cases ha

theorem Only.trans {m₁ m₂ m₃ : Machine} (h : Only p m₁ m₂) (h' : Only p m₂ m₃) : Only p m₁ m₃ :=
  ⟨h'.cur.trans h.cur, fun x hx => (h'.other x hx).trans (h.other x hx), h'.image.trans h.image,
    h'.args.trans h.args, h'.held.trans h.held, h.apart.trans h'.apart⟩

/-- A process gives up its trapframe, which is freed. -/
theorem Sys.dropTrapframe (h : Sys H m) (hne : (m.k.proc p).trapframe ≠ 0)
    (hst : (m.k.proc p).state ≠ .unused) :
    Sys H ⟨(m.k.setProc p { m.k.proc p with trapframe := 0 }).freed (m.k.proc p).trapframe,
      .kfree (m.k.proc p).trapframe m.k :: m.calls⟩ := by
  have hown : (m.k.proc p).trapframe ∈ m.k.own H (.trapframe p) := ⟨hne, rfl⟩
  have hmem := h.inv.mem.takeTrapframe (q := { m.k.proc p with trapframe := 0 }) hne rfl
  have h1 := h.setProc hmem rfl (h.fits p) (fun hu => absurd hu hst) (h.idle p) (h.live p)
  refine h1.freed (h.inv.freed hmem (h.inv.mem.not_free hown (by simp)) rfl (fun x r hh => ?_)
    fun r v _ hV _ => ⟨hV, rfl⟩)
  refine hh.imp_left fun hpt => ?_
  rw [← hpt, Kernel.setProc_proc, Function.update_apply]
  split_ifs with hx
  · rw [hx]
  · rfl

/-- **Specification of `freeproc`** for a process that is not in a `kexec`. -/
theorem freeproc_spec (h : Sys H m) (hst : (m.k.proc p).state ≠ .unused)
    (hrun : (m.k.proc p).state ≠ .running) (hidle : m.k.image p = none ∧ m.k.args p = []) :
    wp (freeproc p) (fun _ m' => Sys H m' ∧ Only p m m') Crash m := by
  have hrest : ∀ m₁ (h1 : Sys H m₁)
      (hw : m₁.k.toWorld = (m.k.setProc p { m.k.proc p with trapframe := 0 }).toWorld)
      (hpt : m₁.k.pt = m.k.pt), _ := fun m₁ h1 hw hpt =>
    wp_mono (freeTable_spec (p := p) h1 (by rw [hw]; simp) (by rw [hw]; simpa using hrun)
      (by rw [hw]; exact hidle) (f := fun q => { q with
        pagetable := 0
        sz := 0
        pid := 0
        parent := none
        name := []
        killed := false
        xstate := 0
        state := .unused }) fun q htf => ⟨⟨rfl, htf, rfl⟩, rfl⟩)
      (fun _ m₂ h2 => And.intro h2.1 ((Only.of_proc h hw (fun hr => hrun hr.1)
        fun r _ _ v => by rw [Memory.leaf, hpt, Memory.leaf]).trans h2.2)) fun _ _ he => he
  rw [freeproc, wp_bind, wp_getK, wp_ite]
  refine ⟨fun hne => ?_, fun h0 => ?_⟩
  · have hown : (m.k.proc p).trapframe ∈ m.k.own H (.trapframe p) := ⟨hne, rfl⟩
    rw [wp_bind, wp_getK, wp_bind, wp_kfree (h.inv.mem.own.sub _ _ hown) h.inv.mem.kend_le, wp_bind,
      wp_modProc]
    exact hrest _ (h.dropTrapframe hne hst) rfl rfl
  · rw [not_not] at h0
    rw [wp_bind, wp_modProc]
    exact hrest _ (h.setSame ⟨rfl, rfl, h0.symm, rfl⟩) rfl rfl

/-- Entry `np` is given an empty address space. -/
structure Allocated (H : List ℕ) (np : ℕ) (m m' : Machine) : Prop where
  sys : Sys H m'
  only : Only np m m'
  view : m'.k.view = m.k.view
  used : (m'.k.proc np).state = .used
  table : (m'.k.proc np).pagetable ≠ 0
  sz : (m'.k.proc np).sz = 0
  empty : ∀ v, m'.k.view (m'.k.proc np).pagetable v = none

theorem Sys.nextpid (h : Sys H m) (n : ℕ) : Sys H ⟨{ m.k with nextpid := n }, m.calls⟩ :=
  ⟨⟨h.inv.mem.congr rfl rfl rfl rfl rfl (fun _ => rfl) (fun _ => rfl) rfl h.inv.mem.frame_va,
    h.inv.log, h.inv.frames⟩, h.roots, h.fits, h.images, h.sys, h.frame, h.vacant, h.idle, h.live,
    h.files⟩

theorem Sys.initproc (h : Sys H m) (p : ℕ) : Sys H ⟨{ m.k with initproc := p }, m.calls⟩ :=
  ⟨⟨h.inv.mem.congr rfl rfl rfl rfl rfl (fun _ => rfl) (fun _ => rfl) rfl h.inv.mem.frame_va,
    h.inv.log, h.inv.frames⟩, h.roots, h.fits, h.images, h.sys, h.frame, h.vacant, h.idle, h.live,
    h.files⟩

/-- A process takes a held page as its trapframe. -/
theorem Sys.takeTrapframe {tf : ℕ} (h : Sys (tf :: H) m) (hst : (m.k.proc p).state = .used)
    (h0 : (m.k.proc p).trapframe = 0) :
    Sys H ⟨m.k.setProc p { m.k.proc p with trapframe := tf }, m.calls⟩ := by
  refine h.setProc (h.inv.mem.giveTrapframe h0 rfl) rfl (h.fits p) (fun hu => ?_) (h.idle p)
    (h.live p)
  rw [hst] at hu
  cases hu

/-- The second half of `allocproc`: the entry gets its page table. -/
theorem allocTable_spec (h : Sys H m) (hst : (m.k.proc p).state = .used)
    (hpt : (m.k.proc p).pagetable = 0) (hsz : (m.k.proc p).sz = 0) :
    wp (do
      let pagetable ← procPagetable p
      modProc p fun q => { q with pagetable := pagetable }
      if pagetable = 0 then
        freeproc p
        return none
      else
        modProc p fun q => { q with qlevel := 0 }
        modK fun k => k.setStats p {}
        return some p) (fun o m' => o = some p ∧ Allocated H p m m') Crash m := by
  refine wp_seq (procPagetable_spec h.inv) ?_
  rintro root m₁ ⟨hroot, hn, hframe⟩
  have hproc : m₁.k.proc p = m.k.proc p := by rw [hn.world]
  have hself : ∀ q, (m₁.k.setProc p q).proc p = q := fun _ => Function.update_self _ _ _
  rw [wp_bind, wp_modProc, if_neg hroot, wp_bind, wp_modProc, wp_bind, wp_modK, hself, hproc,
    Kernel.setProc_setProc]
  have h1 := h.install (p := p) (q := { m.k.proc p with pagetable := root, qlevel := 0 }) hn hroot
    hframe hpt rfl rfl rfl rfl (by rw [hst]; simp)
  have h2 := h1.quiet (h1.inv.setStats p {}) (Quiet.setStats _ p {})
  have honly := @Only.of_proc _ _ _ ⟨(m₁.k.setProc p { m.k.proc p with
    pagetable := root, qlevel := 0 }).setStats p {}, m₁.calls⟩ _ h
    (Kernel.setProc_world hn.world p _) (fun hr => by rw [hst] at hr; cases hr.1)
    fun r hex hr v => hn.safe r (fun heq => by rw [heq, hn.fresh] at hex; cases hex) hr v
  refine ⟨rfl, h2, honly, ?_, ?_, ?_, ?_, fun v => ?_⟩
  · exact (view_congr (fun _ _ => rfl) rfl).trans hn.view
  · rw [Kernel.setStats_toWorld, hself]
    exact hst
  · rw [Kernel.setStats_toWorld, hself]
    exact hroot
  · rw [Kernel.setStats_toWorld, hself]
    exact hsz
  · rw [Kernel.setStats_toWorld, hself]
    exact (congrFun₂ (view_congr (fun _ _ => rfl) rfl) root v).trans (hn.empty v)

/-- **Specification of `allocproc`.** -/
theorem allocproc_spec (h : Sys H m) :
    wp allocproc (fun o m' => (o = none ∧ m' = m) ∨
      ∃ np, o = some np ∧ (m.k.proc np).state = .unused ∧ Allocated H np m m') Crash m := by
  rw [allocproc, wp_bind, wp_getK]
  cases hfind : (List.range nproc).find? fun p => (m.k.proc p).state = .unused with
  | none => exact Or.inl ⟨rfl, rfl⟩
  | some p =>
    have hunused : (m.k.proc p).state = .unused := by simpa using List.find?_some hfind
    obtain ⟨hpt, htf, hsz⟩ := h.vacant p hunused
    have hidle := h.idle p (by rw [hunused]; rfl)
    simp only [allocpid, wp_bind, wp_getK, wp_modK, wp_pure, wp_modProc]
    have h1 := h.nextpid (m.k.nextpid + 1)
    have h2 := h1.setProc (p := p)
      (q := { m.k.proc p with pid := m.k.nextpid, state := .used })
      (h1.inv.mem.setProc rfl) rfl (h.fits p) (fun hu => by cases hu) (fun _ => hidle)
      (fun ha => by cases ha)
    have hpid : Apart m ⟨{ m.k with nextpid := m.k.nextpid + 1 }, m.calls⟩ :=
      .of_eq rfl (fun _ => rfl) (fun _ => rfl) fun _ _ => rfl
    have hapart : Apart ⟨{ m.k with nextpid := m.k.nextpid + 1 }, m.calls⟩
        ⟨{ m.k with nextpid := m.k.nextpid + 1 }.setProc p
          { m.k.proc p with pid := m.k.nextpid, state := .used }, m.calls⟩ :=
      h1.apart_proc rfl (fun hr => absurd (hunused.symm.trans hr.1) (by simp)) fun _ _ _ _ => rfl
    have honly2 : Only p m ⟨{ m.k with nextpid := m.k.nextpid + 1 }.setProc p
        { m.k.proc p with pid := m.k.nextpid, state := .used }, m.calls⟩ :=
      ⟨rfl, fun x hx => Function.update_of_ne hx _ _, rfl, rfl, rfl, hpid.trans hapart⟩
    refine wp_mono h2.kalloc ?_ fun _ _ he => he
    rintro tf m₃ ⟨hne, h3, hq3⟩
    have hp3 : m₃.k.proc p = { m.k.proc p with pid := m.k.nextpid, state := .used } := by
      rw [hq3.world]
      exact Function.update_self _ _ _
    have h4 := h3.takeTrapframe (p := p) (by rw [hp3]) (by rw [hp3]; exact htf)
    have honly4 := honly2.trans ((Only.of_world h2 hq3.world hq3.safe).trans
      (@Only.of_proc _ _ _ ⟨m₃.k.setProc p { m₃.k.proc p with trapframe := tf }, m₃.calls⟩ _ h3 rfl
        (fun hr => by rw [hp3] at hr; cases hr.1) fun _ _ _ _ => rfl))
    have hp4 : (m₃.k.setProc p { m₃.k.proc p with trapframe := tf }).proc p =
        { m₃.k.proc p with trapframe := tf } := Function.update_self _ _ _
    rw [if_neg hne]
    refine wp_mono (allocTable_spec h4 (by rw [hp4, hp3]) (by rw [hp4, hp3]; exact hpt)
      (by rw [hp4, hp3]; exact hsz)) ?_ fun _ _ he => he
    rintro o m₅ ⟨rfl, ha⟩
    refine Or.inr ⟨p, rfl, hunused, ha.sys, honly4.trans ha.only, ?_, ha.used, ha.table, ha.sz,
      ha.empty⟩
    exact ha.view.trans ((view_congr (fun _ _ => rfl) rfl).trans hq3.view)

end Life

/-! ### Resizing -/

section Resize

variable {H : List ℕ} {m m' : Machine} {p sz : ℕ} {q : Proc}

/-- What every operation of a process does: the invariant holds afterwards, the allocator's
other pages stay with their holders and processes on other CPUs are left alone. -/
structure Done (H : List ℕ) (m m' : Machine) : Prop where
  sys : Sys H m'
  held : m'.k.held = m.k.held
  apart : Apart m m'

theorem Done.refl (h : Sys H m) : Done H m m :=
  ⟨h, rfl, .of_eq rfl (fun _ => rfl) (fun _ => rfl) fun _ _ => rfl⟩

theorem Done.trans {m₁ m₂ m₃ : Machine} (h : Done H m₁ m₂) (h' : Done H m₂ m₃) : Done H m₁ m₃ :=
  ⟨h'.sys, h'.held.trans h.held, h.apart.trans h'.apart⟩

theorem Done.setProc {m₁ : Machine} (h : Done H m m₁)
    (hs : Sys H ⟨m₁.k.setProc p q, m₁.calls⟩)
    (hp : ¬((m₁.k.proc p).state = .running ∧ p ≠ m₁.k.cur)) :
    Done H m ⟨m₁.k.setProc p q, m₁.calls⟩ :=
  ⟨hs, h.held, h.apart.trans (h.sys.apart_proc rfl hp fun _ _ _ _ => rfl)⟩

theorem Kept.done (h : Kept H m m') : Done H m m' := ⟨h.sys, h.held, h.apart⟩

theorem Only.done (h : Sys H m') (ho : Only p m m') : Done H m m' := ⟨h, ho.held, ho.apart⟩

theorem ProcState.ne_unused {st : ProcState} (h : st.active = true) : st ≠ .unused := by
  rintro rfl
  cases h

theorem Inv.setSame (h : Inv H m) (hpt : q.pagetable = (m.k.proc p).pagetable)
    (htf : q.trapframe = (m.k.proc p).trapframe) : Inv H ⟨m.k.setProc p q, m.calls⟩ := by
  refine ⟨h.mem.setProc htf, h.log, fun hquiet => (h.frames hquiet).reholds rfl fun x r hh _ => ?_⟩
  refine hh.imp_left fun hx => ?_
  rw [← hx, Kernel.setProc_proc, Function.update_apply]
  split_ifs with hxp
  · rw [hxp, hpt]
  · rfl

/-- A process gets a new size that covers its pages. -/
theorem Sys.setSize (h : Sys H m) (hst : (m.k.proc p).state ≠ .unused) (hle : sz ≤ trapframeVa)
    (hb : ∀ v, m.k.view (m.k.proc p).pagetable v ≠ none → v * pgsize < sz)
    (hpt : q.pagetable = (m.k.proc p).pagetable) (htf : q.trapframe = (m.k.proc p).trapframe)
    (hstate : q.state = (m.k.proc p).state) (hsz : q.sz = sz) :
    Sys H ⟨m.k.setProc p q, m.calls⟩ := by
  refine h.setProc (h.inv.mem.setProc htf) hpt ?_ (fun hu => ?_) (fun hr => ?_) fun ha => ?_
  · rw [hpt, hsz]
    exact ⟨hle, hb⟩
  · rw [hstate] at hu
    exact absurd hu hst
  · rw [hstate] at hr
    exact h.idle p hr
  · rw [hstate] at ha
    rw [hpt]
    exact h.live p ha

/-- **An address space gets more pages and a size that covers them.** -/
theorem Sys.grow (h : Sys H m) (hst : (m.k.proc p).state ≠ .unused)
    (hinv : Inv H m') (hworld : m'.k.toWorld = m.k.toWorld)
    (hroots : ∀ r, (m'.k.pt r).isSome = (m.k.pt r).isSome)
    (htop : ∀ r v, userTop ≤ v → m'.k.leaf r v = m.k.leaf r v)
    (hview : ∀ r v, m'.k.view r v ≠ none → m.k.view r v ≠ none ∨
      r = (m.k.proc p).pagetable ∧ v * pgsize < sz)
    (hle : sz ≤ trapframeVa) (hge : (m.k.proc p).sz ≤ sz)
    (hpt : q.pagetable = (m.k.proc p).pagetable) (htf : q.trapframe = (m.k.proc p).trapframe)
    (hstate : q.state = (m.k.proc p).state) (hsz : q.sz = sz) :
    Sys H ⟨m'.k.setProc p q, m'.calls⟩ := by
  have h0 := h.setSize hst hle (fun v hv => lt_of_lt_of_le ((h.fits p).bound v hv) hge) hpt htf
    hstate hsz
  have hpagetable : ∀ x, ((m.k.setProc p q).proc x).pagetable = (m.k.proc x).pagetable := by
    intro x
    rw [Kernel.setProc_proc, Function.update_apply]
    split_ifs with hx
    · rw [hx, hpt]
    · rfl
  refine h0.keep (hinv.setSame (by rw [hworld]; exact hpt) (by rw [hworld]; exact htf))
    (Kernel.setProc_world hworld p q) hroots htop (fun x im v him hv => ?_) fun x v hne hv => ?_
  · exact (hview _ v hv).imp_right fun hnew => absurd hnew.1.symm (h.detached him p)
  · rw [hpagetable] at hne hv ⊢
    refine (hview _ v hv).imp_right fun hnew => ?_
    have hx : x = p := by
      by_contra hxp
      exact h.pagetable_ne hne hxp hnew.1.symm
    rw [Kernel.setProc_proc, hx, Function.update_self, hsz]
    exact hnew.2

/-- Growth adds pages in its range only. -/
theorem Grown.view_ne {root a n r v : ℕ} {lp : LPage} (hg : Grown H root a n lp m m')
    (hv : m'.k.view r v ≠ none) : m.k.view r v ≠ none ∨ r = root ∧ a ≤ v ∧ v < a + n := by
  rw [hg.eff.view, View.fill] at hv
  split_ifs at hv with hr
  · exact Or.inr hr
  · exact Or.inl hv

/-- Growth by no page. -/
theorem Sys.grownNone {root a n : ℕ} {lp : LPage} (h : Sys H m) (hg : Grown H root a n lp m m')
    (hn : n = 0) : Sys H m' := by
  have hsame : ∀ r v, m'.k.view r v ≠ none → m.k.view r v ≠ none := fun r v hv =>
    (hg.view_ne hv).resolve_right fun hrange => by omega
  exact h.keep hg.inv hg.eff.world hg.eff.roots hg.eff.top
    (fun _ _ v _ hv => Or.inl (hsame _ v hv)) fun _ v _ hv => Or.inl (hsame _ v hv)

/-- **Specification of `growproc`.** -/
theorem growproc_spec {n : ℤ} (h : Sys H m) (hrun : (m.k.proc m.k.cur).state.active = true) :
    wp (growproc n) (fun _ m' => Sys H m' ∧ Only m.k.cur m m') Crash m := by
  have hst := ProcState.ne_unused hrun
  have hfit := h.fits m.k.cur
  have hsame : ∀ sz, sz = (m.k.proc m.k.cur).sz → Sys H ⟨m.k.setProc m.k.cur
      { m.k.proc m.k.cur with sz := sz }, m.calls⟩ := fun sz hsz =>
    h.setSame ⟨rfl, hsz, rfl, rfl⟩
  have hcur : ¬((m.k.proc m.k.cur).state = .running ∧ m.k.cur ≠ m.k.cur) := fun hr => hr.2 rfl
  have honly : ∀ q, Only m.k.cur m ⟨m.k.setProc m.k.cur q, m.calls⟩ := fun q =>
    .of_proc h rfl hcur fun _ _ _ _ => rfl
  rw [growproc, wp_bind, wp_myproc, wp_bind, wp_getK, wp_ite]
  refine ⟨fun hpos => ?_, fun _ => ?_⟩
  · rw [wp_ite]
    refine ⟨fun _ => ⟨h, .refl h⟩, fun _ => ?_⟩
    refine wp_seq (uvmalloc_spec h.inv (Or.inl rfl) ⟨by decide, by decide⟩ hfit.le
      (h.frame _ (h.table hrun)) fun v hge hlt => ?_) ?_
    · by_contra hne
      exact absurd (lt_npages_iff.mpr (hfit.bound v hne)) (by omega)
    · rintro sz m₁ (⟨-, rfl, rfl⟩ | ⟨hle, rfl, hmax, hg⟩)
      · rw [wp_ite]
        refine ⟨fun _ => ⟨h, .refl h⟩, fun _ => ?_⟩
        rw [wp_bind, wp_modProc]
        exact ⟨hsame _ rfl, honly _⟩
      · have hsafe : ∀ r, Safe m.k r → ∀ v, m₁.k.leaf r v = m.k.leaf r v := fun r hr v =>
          hg.other r hr v fun hc => hr.ne_cur hc.1.symm
        rw [wp_ite]
        refine ⟨fun h0 => ?_, fun _ => ?_⟩
        · refine ⟨h.grownNone hg ?_, .of_world h hg.eff.world hsafe⟩
          rw [h0, show npages 0 = 0 by decide]
          omega
        · have hproc : m₁.k.proc m.k.cur = m.k.proc m.k.cur := by rw [hg.eff.world]
          rw [wp_bind, wp_modProc, hproc]
          refine ⟨h.grow hst hg.inv hg.eff.world hg.eff.roots hg.eff.top (fun r v hv => ?_)
            hmax hle rfl rfl rfl rfl, .of_proc h (Kernel.setProc_world hg.eff.world _ _) hcur
            fun r _ => hsafe r⟩
          refine (hg.view_ne hv).imp_right fun hrange => ⟨hrange.1, lt_npages_iff.mp ?_⟩
          have := npages_mono hle
          omega
  · rw [wp_ite]
    refine ⟨fun _ => ?_, fun _ => ⟨hsame _ rfl, honly _⟩⟩
    refine wp_seq (uvmdealloc_spec h.inv hfit.le) ?_
    rintro sz m₁ (⟨-, rfl, rfl⟩ | ⟨hlt, rfl, hu⟩)
    · exact ⟨hsame _ rfl, honly _⟩
    · have hproc : m₁.k.proc m.k.cur = m.k.proc m.k.cur := by rw [hu.eff.world]
      have hview : ∀ r v, m₁.k.view r v ≠ none → m.k.view r v ≠ none ∧
          ¬(r = (m.k.proc m.k.cur).pagetable ∧ npages (addInt (m.k.proc m.k.cur).sz n) ≤ v ∧
            v < npages (m.k.proc m.k.cur).sz) := by
        intro r v hv
        rw [hu.eff.view, View.fill] at hv
        split_ifs at hv with hr
        · exact absurd rfl hv
        · refine ⟨hv, fun hrange => hr ⟨hrange.1, hrange.2.1, ?_⟩⟩
          omega
      have h1 := h.keep hu.inv hu.eff.world hu.eff.roots hu.eff.top
        (fun _ _ v _ hv => Or.inl (hview _ v hv).1) fun _ v _ hv => Or.inl (hview _ v hv).1
      rw [wp_bind, wp_modProc, hproc]
      refine ⟨h1.setSize (by rw [hproc]; exact hst) (hlt.le.trans hfit.le) (fun v hv => ?_)
        (by rw [hproc]) (by rw [hproc]) (by rw [hproc]) rfl,
        .of_proc h (Kernel.setProc_world hu.eff.world _ _) hcur
          fun r _ hr v => hu.other r v fun hc => hr.ne_cur hc.1.symm⟩
      rw [hproc] at hv
      obtain ⟨hold, hno⟩ := hview _ v hv
      have hin := lt_npages_iff.mpr (hfit.bound v hold)
      refine lt_npages_iff.mp ?_
      by_contra hge
      exact hno ⟨rfl, by omega, hin⟩

/-- **`sys_sbrk` keeps the invariant.** -/
theorem sysSbrk_spec {n : ℤ} {eager : Bool} (h : Sys H m)
    (hrun : (m.k.proc m.k.cur).state.active = true) :
    wp (sysSbrk n eager) (fun _ m' => Sys H m' ∧ Only m.k.cur m m') Crash m := by
  have hst := ProcState.ne_unused hrun
  rw [sysSbrk, wp_bind, wp_myproc, wp_bind, wp_getK, wp_ite]
  refine ⟨fun _ => wp_seq (growproc_spec h hrun) fun st m₁ h1 => ?_, fun _ => ?_⟩
  · rw [wp_ite]
    exact ⟨fun _ => h1, fun _ => h1⟩
  · simp only [wp_ite]
    refine ⟨fun _ => ⟨h, .refl h⟩, fun hge => ⟨fun _ => ⟨h, .refl h⟩, fun hle => ?_⟩⟩
    rw [wp_bind, wp_modProc]
    refine ⟨h.setSize hst (Nat.le_of_not_lt hle) (fun v hv => ?_) rfl rfl rfl rfl,
      .of_proc h rfl (fun hr => hr.2 rfl) fun _ _ _ _ => rfl⟩
    exact lt_of_lt_of_le ((h.fits _).bound v hv) (Nat.le_of_not_lt hge)

end Resize

/-! ### Fork, exit and wait -/

section Fork

variable {H : List ℕ} {m : Machine}

/-- The child of a fork has its parent's pages and size. -/
theorem Sys.forked {p np : ℕ} {m₁ m₂ : Machine} {q : Proc} (h : Sys H m₁)
    (hc : Copied H (m₁.k.proc p).pagetable (m₁.k.proc np).pagetable 0 (npages (m₁.k.proc p).sz)
      m₁ m₂) (hst : (m₁.k.proc np).state ≠ .unused) (h0 : (m₁.k.proc np).sz = 0)
    (hpt : q.pagetable = (m₁.k.proc np).pagetable)
    (htf : q.trapframe = (m₁.k.proc np).trapframe) (hstate : q.state = (m₁.k.proc np).state)
    (hsz : q.sz = (m₁.k.proc p).sz) : Sys H ⟨m₂.k.setProc np q, m₂.calls⟩ := by
  refine h.grow hst hc.inv hc.eff.world hc.eff.roots hc.eff.top (fun r v hv => ?_)
    (h.fits p).le (by rw [h0]; exact Nat.zero_le _) hpt htf hstate hsz
  rw [hc.eff.view, View.copy] at hv
  split_ifs at hv with hr
  · refine Or.inr ⟨hr.1, lt_npages_iff.mp ?_⟩
    omega
  · exact Or.inl hv

/-- Handing out files leaves memory alone. -/
theorem forkFiles_memory {p np n : ℕ} : wp (forkFiles p np n)
    (fun _ m' => m'.k.toMemory = m.k.toMemory) (fun _ _ => True) m := by
  induction n generalizing m with
  | zero => exact rfl
  | succ n ih =>
    rw [forkFiles, wp_bind, wp_getK]
    split
    · simp only [filedup, wp_bind, wp_getK, wp_ite, wp_throw, wp_modK, wp_pure, wp_modProc]
      exact ⟨fun _ => trivial, fun _ => ih⟩
    · exact ih

/-- Entry `np` of the process table is the new child `pid` of the current process, with a copy
of its memory; every other table shows what it did. -/
structure Forked (m m' : Machine) (pid : ℤ) (np : ℕ) : Prop where
  ne : np ≠ m.k.cur
  pid : ((m'.k.proc np).pid : ℤ) = pid
  parent : (m'.k.proc np).parent = some m.k.cur
  state : (m'.k.proc np).state = .runnable
  sz : (m'.k.proc np).sz = (m.k.proc m.k.cur).sz
  fresh : (m'.k.proc np).pagetable ≠ (m.k.proc m.k.cur).pagetable
  child : ∀ v, m'.k.view (m'.k.proc np).pagetable v = m.k.view (m.k.proc m.k.cur).pagetable v
  others : ∀ r, r ≠ (m'.k.proc np).pagetable → ∀ v, m'.k.view r v = m.k.view r v

/-- **`kfork` keeps the invariant**, and the child it makes has a copy of the memory. -/
theorem kfork_spec (h : Sys H m) (hrun : (m.k.proc m.k.cur).state.active = true) :
    wp kfork (fun pid m' => Done H m m' ∧ (pid = -1 ∨ ∃ np, Forked m m' pid np)) Crash m := by
  rw [kfork, wp_bind, wp_myproc]
  refine wp_seq (allocproc_spec h) ?_
  rintro o m₁ (⟨rfl, rfl⟩ | ⟨np, rfl, hunused, ha⟩)
  · exact ⟨.refl h, Or.inl rfl⟩
  · have hne : m.k.cur ≠ np := by
      rintro rfl
      exact ProcState.ne_unused hrun hunused
    have hp1 : m₁.k.proc m.k.cur = m.k.proc m.k.cur := ha.only.other _ hne
    have hused : (m₁.k.proc np).state ≠ .unused := by
      rw [ha.used]
      simp
    simp only
    rw [wp_bind, wp_getK]
    refine wp_seq (uvmcopy_spec ha.sys.inv (ha.sys.pagetable_ne ha.table hne.symm)
      ⟨rfl, by rw [ha.used]; simp⟩ (ha.sys.fits _).le ha.empty) ?_
    rintro st m₂ ⟨rfl, hc⟩
    have hp2 : m₂.k.proc = m₁.k.proc := by rw [hc.eff.world]
    rw [if_neg (by decide), wp_bind, wp_getK]
    -- the child's size is still zero, so the loop over its swapped pages does nothing
    simp only [hp2, ha.sz, show (0 + pgsize - 1) / pgsize = 0 by decide, forkSwapLoop]
    rw [wp_bind, wp_pure, wp_bind, wp_getK, wp_bind, wp_modProc, hp2]
    have h3 := ha.sys.forked (q := { m₁.k.proc np with
      sz := (m₁.k.proc m.k.cur).sz, tf := { (m₁.k.proc m.k.cur).tf with a0 := 0 } })
      hc hused ha.sz rfl rfl rfl rfl
    rw [wp_bind]
    refine wp_mono (wp_and (forkFiles_spec h3) forkFiles_memory) ?_ fun _ _ he => he.1
    rintro - m₄ ⟨hk4, hmem4⟩
    rw [wp_bind, wp_getK, wp_bind, wp_modProc]
    have hpt4 : (m₄.k.proc np).pagetable ≠ 0 := by
      rw [hk4.pagetable, Kernel.setProc_proc, Function.update_self]
      exact ha.table
    have hd3 : Done H m₁ ⟨m₂.k.setProc np { m₁.k.proc np with
        sz := (m₁.k.proc m.k.cur).sz, tf := { (m₁.k.proc m.k.cur).tf with a0 := 0 } }, m₂.calls⟩ :=
      ⟨h3, by rw [Kernel.setProc_world hc.eff.world]; rfl,
        ha.sys.apart_proc (Kernel.setProc_world hc.eff.world np _)
          (fun hr => absurd (ha.used.symm.trans hr.1) (by simp)) fun r _ => hc.safe r⟩
    refine ⟨((ha.only.done ha.sys).trans (hd3.trans hk4.done)).setProc (hk4.sys.setProc
      (hk4.sys.inv.mem.setProc rfl) rfl (hk4.sys.fits np) (fun hu => by cases hu)
      (fun hr => by cases hr) fun _ => hpt4) fun hr => ?_, Or.inr ⟨np, ?_⟩⟩
    · rw [hk4.state, Kernel.setProc_proc, Function.update_self] at hr
      exact absurd (ha.used.symm.trans hr.1) (by simp)
    have hview : ∀ r v, m₄.k.view r v = View.copy m.k.view (m.k.proc m.k.cur).pagetable
        (m₁.k.proc np).pagetable 0 (npages (m.k.proc m.k.cur).sz) r v := by
      intro r v
      rw [← ha.view, ← hp1, ← hc.eff.view, Kernel.view, Kernel.view, hmem4]
      rfl
    have hpt : (m₄.k.proc np).pagetable = (m₁.k.proc np).pagetable := by
      rw [hk4.pagetable, Kernel.setProc_proc, Function.update_self]
    have hsz : (m₄.k.proc np).sz = (m.k.proc m.k.cur).sz := by
      rw [hk4.sz, Kernel.setProc_proc, Function.update_self, ← hp1]
    refine ⟨hne.symm, ?_, ?_, ?_, ?_, ?_, fun v => ?_, fun r hr v => ?_⟩ <;>
      simp only [Kernel.setProc_proc, Function.update_self]
    · exact hsz
    · rw [hpt, ← hp1]
      exact (ha.sys.pagetable_ne ha.table hne.symm).symm
    · refine (hview _ v).trans ?_
      rw [View.copy]
      split_ifs with hin
      · rfl
      · have hge : npages (m.k.proc m.k.cur).sz ≤ v := by
          by_contra hlt
          exact hin ⟨hpt, Nat.zero_le v, by omega⟩
        have hempty := ha.empty v
        rw [ha.view, ← hpt] at hempty
        rw [hempty]
        by_contra hne'
        have := lt_npages_iff.mpr ((h.fits m.k.cur).bound v (Ne.symm hne'))
        omega
    · refine (hview r v).trans (if_neg fun hin => hr ?_)
      rw [Kernel.setProc_proc, Function.update_self, hin.1]
      exact hpt.symm

/-! #### Exit -/

theorem Sys.reparent (h : Sys H m) (p : ℕ) :
    wp (reparent p) (fun _ m' => Kept H m m') Crash m := by
  have hsame : ∀ x, SameMem (if x < nproc ∧ (m.k.proc x).parent = some p then
      { m.k.proc x with parent := some m.k.initproc } else m.k.proc x) (m.k.proc x) := by
    intro x
    split_ifs
    · exact ⟨rfl, rfl, rfl, rfl⟩
    · exact ⟨rfl, rfl, rfl, rfl⟩
  exact Kept.sameMem h hsame

/-- **`kexit` keeps the invariant**, for a process that is not in the middle of `exec`. -/
theorem kexit_spec {status : ℤ} (h : Sys H m) (hrun : (m.k.proc m.k.cur).state.active = true)
    (hidle : m.k.image m.k.cur = none ∧ m.k.args m.k.cur = []) :
    wp (kexit status) (fun _ m' => Done H m m') Crash m := by
  rw [kexit, wp_bind, wp_myproc, wp_bind, wp_getK, wp_ite]
  refine ⟨fun _ => h.inv.log, fun _ => ?_⟩
  refine wp_seq (closeFiles_spec h) ?_
  rintro - m₁ hk1
  refine wp_seq (hk1.sys.reparent m.k.cur) ?_
  rintro - m₂ hk2
  have hk2 := hk1.trans hk2
  rw [wp_modProc]
  refine hk2.done.setProc (hk2.sys.setProc (hk2.sys.inv.mem.setProc rfl) rfl (hk2.sys.fits _)
    (fun hu => by cases hu) (fun _ => ?_) (fun _ => ?_)) fun hr => hr.2 hk2.cur.symm
  · rw [hk2.image, hk2.args]
    exact hidle
  · rw [hk2.pagetable]
    exact h.live _ hrun

/-! #### Wait -/

/-- **`kwait` keeps the invariant.** -/
theorem kwait_spec {addr : ℕ} (h : Sys H m) :
    wp (kwait addr) (fun _ m' => Done H m m') Crash m := by
  rw [kwait, wp_bind, wp_myproc, wp_bind, wp_getK]
  simp only
  cases hfind : (List.range nproc).find? fun pp =>
      decide ((m.k.proc pp).parent = some m.k.cur ∧ (m.k.proc pp).state = .zombie) with
  | none =>
    simp only [wp_ite]
    exact ⟨fun _ => .refl h, fun _ => .refl h⟩
  | some pp =>
    have hz : (m.k.proc pp).state = .zombie := by
      have := List.find?_some hfind
      simp only [decide_eq_true_eq] at this
      exact this.2
    -- reaping is the same whether or not the exit status was copied out first
    have hreap : ∀ m₁, Kept H m m₁ → wp (do
        freeproc pp
        return some ((m.k.proc pp).pid : ℤ)) (fun _ m' => Done H m m') Crash m₁ := by
      intro m₁ hk
      have hz₁ : (m₁.k.proc pp).state = .zombie := (hk.state pp).trans hz
      refine wp_seq (freeproc_spec hk.sys (by rw [hz₁]; simp) (by rw [hz₁]; simp)
        (hk.sys.idle pp (by rw [hz₁]; rfl))) ?_
      rintro - m₂ ⟨h2, honly⟩
      exact hk.done.trans (honly.done h2)
    simp only
    rw [wp_ite]
    refine ⟨fun _ => wp_seq h.copyout fun st m₁ hk => ?_, fun _ => hreap m (Kept.refl h)⟩
    rw [wp_ite]
    exact ⟨fun _ => hk.done, fun _ => hreap m₁ hk⟩

/-! #### Boot and traps -/

/-- **`userinit` keeps the invariant.** -/
theorem userinit_spec (h : Sys H m) :
    wp userinit (fun _ m' => Done H m m' ∧ m'.k.image = m.k.image) Crash m := by
  rw [userinit]
  refine wp_seq (allocproc_spec h) ?_
  rintro o m₁ (⟨rfl, rfl⟩ | ⟨np, rfl, -, ha⟩)
  · exact h.inv.log
  · simp only
    rw [wp_bind, wp_modK, wp_modProc]
    have h1 := ha.sys.initproc np
    have hd1 : Done H m ⟨{ m₁.k with initproc := np }, m₁.calls⟩ :=
      ⟨h1, ha.only.held, ha.only.apart.trans (.of_eq rfl (fun _ => rfl) (fun _ => rfl) fun _ _ => rfl)⟩
    exact ⟨hd1.setProc (h1.setProc (h1.inv.mem.setProc rfl) rfl (h1.fits np)
      (fun hu => by cases hu) (fun hr => by cases hr) fun _ => ha.table)
      fun hr => absurd (ha.used.symm.trans hr.1) (by simp), ha.only.image⟩

/-- Page faults keep the invariant. -/
theorem Sys.vmfault {va : ℕ} (h : Sys H m) :
    wp (vmfault (m.k.proc m.k.cur).pagetable va) (fun _ m' => Kept H m m') Crash m := by
  refine wp_mono (vmfault_spec h.inv rfl rfl (h.fits _).le) ?_ fun _ _ he => he
  rintro pa m' ⟨hs, -⟩
  exact .of_world h (h.served hs) hs.world hs.safe

/-- **`usertrap` keeps the invariant.** -/
theorem usertrap_spec {scause stval : ℕ} (h : Sys H m)
    (hrun : (m.k.proc m.k.cur).state.active = true)
    (hidle : m.k.image m.k.cur = none ∧ m.k.args m.k.cur = []) :
    wp (usertrap scause stval) (fun _ m' => Done H m m') Crash m := by
  -- what follows the fault: the process exits if it has been killed
  have hend : ∀ m₁, Kept H m m₁ → wp (do
      if ((← getK).proc m.k.cur).killed then
        kexit (-1)
        return Outcome.exited
      else return Outcome.resumed) (fun _ m' => Done H m m') Crash m₁ := by
    intro m₁ hk
    rw [wp_bind, wp_getK, wp_ite]
    refine ⟨fun _ => wp_seq (kexit_spec hk.sys ?_ ?_) fun _ m₂ h2 => hk.done.trans h2,
      fun _ => hk.done⟩
    · rw [hk.cur, hk.state]
      exact hrun
    · rw [hk.cur, hk.image, hk.args]
      exact hidle
  rw [usertrap, wp_bind, wp_myproc, wp_ite]
  refine ⟨fun _ => ?_, fun _ => ?_⟩
  · rw [wp_bind, wp_getK]
    refine wp_seq h.vmfault ?_
    rintro pa m₁ hk
    rw [wp_ite]
    exact ⟨fun _ => hk.sys.inv.log, fun _ => hend m₁ hk⟩
  · rw [setkilled, wp_bind, wp_modProc]
    exact hend _ (.setSame h ⟨rfl, rfl, rfl, rfl⟩)

end Fork

end Xv6
