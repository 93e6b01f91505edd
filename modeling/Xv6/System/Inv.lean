import Xv6.Vm.Copy

/-!
# The system invariant

`Sys` is what holds between any two steps of the system: the memory invariant, every page
table held by exactly one process (installed, or in a local of `kexec`), the pages of each
address space below its size, and the file table in agreement with the pipes. Its clauses
follow the processes through their life: an unused entry of the process table owns nothing,
and a process that can run has a page table.

Steps that only move pages keep it by `Sys.keep`; steps that change the process table keep
it by `Sys.setProcs` or by one of the lemmas on installing and removing tables.
-/

namespace Xv6

open StateLogic Ownership

/-! ### Definitions -/

/-- Who can hold a page table: a process has it installed or in a local of `kexec`. -/
inductive Holder
  | installed (p : ℕ)
  | image (p : ℕ)
deriving DecidableEq

/-- The tables each holder has. -/
def Kernel.holding (k : Kernel) : Holder → Set ℕ
  | .installed p => {r | r ≠ 0 ∧ (k.proc p).pagetable = r}
  | .image p => {r | ∃ im, k.image p = some im ∧ im.pagetable = r}

/-- The roots of the page tables that exist. -/
def Kernel.tables (k : Kernel) : Set ℕ := {r | (k.pt r).isSome}

/-- The pages of an address space lie below its size. -/
structure Fits (w : View) (r sz : ℕ) : Prop where
  le : sz ≤ trapframeVa
  bound : ∀ v, w r v ≠ none → v * pgsize < sz

/-- The state of a process that has an address space. -/
def ProcState.active : ProcState → Bool
  | .unused | .used => false
  | .sleeping | .runnable | .running | .zombie => true

/-- The state of a process that may be in the middle of a system call. -/
def ProcState.runs : ProcState → Bool
  | .unused | .used | .zombie => false
  | .sleeping | .runnable | .running => true

/-- An entry of the process table that is not in use owns nothing. -/
structure Vacant (q : Proc) : Prop where
  pagetable : q.pagetable = 0
  trapframe : q.trapframe = 0
  sz : q.sz = 0

/-- The file table and the pipes agree: each file of type pipe is in use and stands for an
open end, and no two stand for the same end. -/
structure FilesOK (ftable : ℕ → File) (pipes : ℕ → Option Pipe) : Prop where
  ref : ∀ f, (ftable f).type = .pipe → (ftable f).ref ≠ 0
  opened : ∀ f, (ftable f).type = .pipe → ∃ q, pipes (ftable f).pipe = some q ∧
    (if (ftable f).writable then q.writeopen else q.readopen) = true
  inj : ∀ f g, (ftable f).type = .pipe → (ftable g).type = .pipe →
    (ftable f).pipe = (ftable g).pipe → (ftable f).writable = (ftable g).writable → f = g

/-- **The system invariant.** -/
structure Sys (H : List ℕ) (m : Machine) : Prop where
  inv : Inv H m
  roots : Exact m.k.holding m.k.tables
  fits : ∀ p, Fits m.k.view (m.k.proc p).pagetable (m.k.proc p).sz
  images : ∀ p im, m.k.image p = some im → Fits m.k.view im.pagetable im.sz
  sys : ∀ r, TopSys m.k r
  frame : ∀ r, (m.k.pt r).isSome → (m.k.leaf r userTop).has pteV = true
  vacant : ∀ p, (m.k.proc p).state = .unused → Vacant (m.k.proc p)
  idle : ∀ p, (m.k.proc p).state.runs = false → m.k.image p = none ∧ m.k.args p = []
  live : ∀ p, (m.k.proc p).state.active = true → (m.k.proc p).pagetable ≠ 0
  files : FilesOK m.k.ftable m.k.pipes

/-! ### Consequences -/

section Basic

variable {H H' : List ℕ} {m m' : Machine} {p r : ℕ}

/-- Zero is not the root of a table. -/
theorem MemInv.pt_zero {k : Kernel} (h : MemInv H k) : k.pt 0 = none := by
  by_contra hne
  have hown : 0 ∈ k.own H (.root 0) := ⟨Option.isSome_iff_ne_none.mpr hne, rfl⟩
  exact (h.ram hown).ne_zero rfl

theorem MemInv.view_zero {k : Kernel} (h : MemInv H k) (v : ℕ) : k.view 0 v = none := by
  by_cases hv : v < userTop
  · rw [Kernel.view_eq_none_iff hv, Memory.leaf_of_none h.pt_zero]
    decide
  · exact if_neg hv

/-- The table of a process that can run exists. -/
theorem Sys.table (h : Sys H m) (hp : (m.k.proc p).state.active = true) :
    (m.k.pt (m.k.proc p).pagetable).isSome :=
  h.roots.sub (.installed p) _ ⟨h.live p hp, rfl⟩

/-- A table in a local of `kexec` is installed nowhere. -/
theorem Sys.detached (h : Sys H m) {im : Image} (him : m.k.image p = some im) (q : ℕ) :
    (m.k.proc q).pagetable ≠ im.pagetable := by
  intro heq
  have hin : im.pagetable ∈ m.k.holding (.image p) := ⟨im, him, rfl⟩
  have hsome : (m.k.pt im.pagetable).isSome := h.roots.sub _ _ hin
  have hne : im.pagetable ≠ 0 := by
    intro h0
    rw [h0, h.inv.mem.pt_zero] at hsome
    cases hsome
  cases h.roots.uniq _ _ _ (show im.pagetable ∈ m.k.holding (.installed q) from ⟨hne, heq⟩) hin

/-- Two processes never have the same table. -/
theorem Sys.pagetable_ne (h : Sys H m) {q : ℕ} (hp : (m.k.proc p).pagetable ≠ 0) (hpq : p ≠ q) :
    (m.k.proc q).pagetable ≠ (m.k.proc p).pagetable := by
  intro heq
  have h1 : (m.k.proc p).pagetable ∈ m.k.holding (.installed p) := ⟨hp, rfl⟩
  have h2 : (m.k.proc p).pagetable ∈ m.k.holding (.installed q) := ⟨hp, heq⟩
  cases h.roots.uniq _ _ _ h1 h2
  exact hpq rfl

/-- The space of the current process. -/
theorem Sys.space (h : Sys H m) :
    Space m.k (m.k.proc m.k.cur).pagetable (m.k.proc m.k.cur).sz :=
  ⟨rfl, rfl, (h.fits m.k.cur).le, h.sys _, (h.fits m.k.cur).bound⟩

/-- **Steps that only move pages.** -/
theorem Sys.keep (h : Sys H m) (hinv : Inv H' m') (hworld : m'.k.toWorld = m.k.toWorld)
    (hroots : ∀ r, (m'.k.pt r).isSome = (m.k.pt r).isSome)
    (htop : ∀ r v, userTop ≤ v → m'.k.leaf r v = m.k.leaf r v)
    (himage : ∀ p im v, m.k.image p = some im → m'.k.view im.pagetable v ≠ none →
      m.k.view im.pagetable v ≠ none ∨ v * pgsize < im.sz)
    (hview : ∀ p v, (m.k.proc p).pagetable ≠ 0 → m'.k.view (m.k.proc p).pagetable v ≠ none →
      m.k.view (m.k.proc p).pagetable v ≠ none ∨ v * pgsize < (m.k.proc p).sz) : Sys H' m' := by
  refine ⟨hinv, ?_, fun p => ⟨?_, fun v hv => ?_⟩, fun p im him => ?_, fun r => ?_, fun r hr => ?_,
    fun p hp => ?_, fun p hp => ?_, fun p hp => ?_, ?_⟩
  · have htables : m'.k.tables = m.k.tables := by
      ext r
      simp only [Kernel.tables, Set.mem_ofPred_eq, hroots]
    rw [htables]
    refine h.roots.congr fun o x => ?_
    cases o <;> simp only [Kernel.holding, hworld]
  · rw [hworld]
    exact (h.fits p).le
  · rw [hworld] at hv ⊢
    refine (hview p v (fun h0 => hv ?_) hv).elim ((h.fits p).bound v) id
    rw [h0, hinv.mem.view_zero]
  · rw [hworld] at him
    have hfit := h.images p im him
    exact ⟨hfit.le, fun v hv => (himage p im v him hv).elim (hfit.bound v) id⟩
  · exact (h.sys r).congr (htop r)
  · rw [hroots] at hr
    rw [htop r userTop le_rfl]
    exact h.frame r hr
  · rw [hworld] at hp ⊢
    exact h.vacant p hp
  · rw [hworld] at hp ⊢
    exact h.idle p hp
  · rw [hworld] at hp ⊢
    exact h.live p hp
  · rw [hworld]
    exact h.files

/-- Invisible steps. -/
theorem Sys.quiet (h : Sys H m) (hinv : Inv H' m') (hq : Quiet m.k m'.k) : Sys H' m' :=
  h.keep hinv hq.world hq.roots hq.top (fun _ _ _ _ hv => Or.inl (by rwa [hq.view] at hv))
    fun _ _ _ hv => Or.inl (by rwa [hq.view] at hv)

/-- Page faults of the current process. -/
theorem Sys.served (h : Sys H m)
    (hs : Served H' (m.k.proc m.k.cur).pagetable (m.k.proc m.k.cur).sz m m') : Sys H' m' := by
  refine h.keep hs.inv hs.world hs.roots hs.top (fun p im v him hv => ?_) fun p v hne hv => ?_
  · rw [hs.view _ (h.detached him _).symm] at hv
    exact Or.inl hv
  · by_cases hp : p = m.k.cur
    · subst hp
      exact (em _).imp_right fun hold => hs.lt_of_new hv (not_not.mp hold)
    · rw [hs.view _ (h.pagetable_ne hne hp).symm] at hv
      exact Or.inl hv

/-- Stores to the memory of the current process. -/
theorem Sys.touched (h : Sys H m) (ht : Touched H' (m.k.proc m.k.cur).pagetable m m')
    (hs : Space m'.k (m.k.proc m.k.cur).pagetable (m.k.proc m.k.cur).sz) : Sys H' m' := by
  refine h.keep ht.inv ht.world ht.roots ht.top (fun p im v him hv => ?_) fun p v hne hv => ?_
  · rw [ht.view _ (h.detached him _).symm] at hv
    exact Or.inl hv
  · by_cases hp : p = m.k.cur
    · subst hp
      exact Or.inr (hs.bound v hv)
    · rw [ht.view _ (h.pagetable_ne hne hp).symm] at hv
      exact Or.inl hv

end Basic

/-! ### Changes to the process table -/

section Procs

variable {H H' : List ℕ} {m : Machine} {p : ℕ}

/-- **Changes to the process table that leave page tables alone.** -/
theorem Sys.setProcs {f : ℕ → Proc} (h : Sys H m) (hmem : MemInv H' { m.k with proc := f })
    (hpt : ∀ p, (f p).pagetable = (m.k.proc p).pagetable)
    (hfits : ∀ p, Fits m.k.view (m.k.proc p).pagetable (f p).sz)
    (hvac : ∀ p, (f p).state = .unused → Vacant (f p))
    (hidle : ∀ p, (f p).state.runs = false → m.k.image p = none ∧ m.k.args p = [])
    (hlive : ∀ p, (f p).state.active = true → (m.k.proc p).pagetable ≠ 0) :
    Sys H' ⟨{ m.k with proc := f }, m.calls⟩ := by
  refine ⟨⟨hmem, h.inv.log, fun hq => ?_⟩, ?_, fun p => ?_, h.images, h.sys, h.frame, hvac, hidle,
    fun p hp => ?_, h.files⟩
  · refine (h.inv.frames hq).mono h.inv.mem.frame_va (fun i _ => ⟨rfl, rfl, rfl⟩)
      (fun p r hh => ?_) fun i r v _ _ hV _ => ⟨hV, rfl⟩
    exact hh.imp_left ((hpt p).trans ·)
  · refine h.roots.congr fun o x => ?_
    cases o with
    | installed p => simp only [Kernel.holding, Set.mem_ofPred_eq, hpt]
    | image p => rfl
  · have hfit := hfits p
    rw [← hpt] at hfit
    exact hfit
  · rw [hpt]
    exact hlive p hp

/-- Changes to one entry. -/
theorem Sys.setProc {q : Proc} (h : Sys H m) (hmem : MemInv H' (m.k.setProc p q))
    (hpt : q.pagetable = (m.k.proc p).pagetable) (hfit : Fits m.k.view q.pagetable q.sz)
    (hvac : q.state = .unused → Vacant q)
    (hidle : q.state.runs = false → m.k.image p = none ∧ m.k.args p = [])
    (hlive : q.state.active = true → q.pagetable ≠ 0) :
    Sys H' ⟨m.k.setProc p q, m.calls⟩ := by
  -- each condition holds of the new entry and, as before, of the others
  have hall : ∀ P : ℕ → Proc → Prop, P p q → (∀ x, P x (m.k.proc x)) →
      ∀ x, P x (Function.update m.k.proc p q x) := fun P hq hrest =>
    (Function.forall_update_iff m.k.proc P).mpr ⟨hq, fun x _ => hrest x⟩
  rw [hpt] at hfit hlive
  exact h.setProcs hmem
    (hall (fun x y => y.pagetable = (m.k.proc x).pagetable) hpt fun _ => rfl)
    (hall (fun x y => Fits m.k.view (m.k.proc x).pagetable y.sz) hfit h.fits)
    (hall (fun _ y => y.state = .unused → Vacant y) hvac h.vacant)
    (hall (fun x y => y.state.runs = false → m.k.image x = none ∧ m.k.args x = []) hidle h.idle)
    (hall (fun x y => y.state.active = true → (m.k.proc x).pagetable ≠ 0) hlive h.live)

/-- The entry `q` has the memory and the state of `q'`. -/
structure SameMem (q q' : Proc) : Prop where
  pagetable : q.pagetable = q'.pagetable
  sz : q.sz = q'.sz
  trapframe : q.trapframe = q'.trapframe
  state : q.state = q'.state

/-- Changes to fields the invariant does not read. -/
theorem Sys.sameMem {f : ℕ → Proc} (h : Sys H m) (hf : ∀ p, SameMem (f p) (m.k.proc p)) :
    Sys H ⟨{ m.k with proc := f }, m.calls⟩ := by
  refine h.setProcs (h.inv.mem.congr rfl rfl rfl rfl rfl (fun p => (hf p).trapframe) (fun _ => rfl)
    rfl h.inv.mem.frame_va) (fun p => (hf p).pagetable) (fun p => ?_) (fun p hu => ?_)
    (fun p hr => ?_) fun p ha => ?_
  · rw [(hf p).sz]
    exact h.fits p
  · rw [(hf p).state] at hu
    obtain ⟨h1, h2, h3⟩ := h.vacant p hu
    exact ⟨(hf p).pagetable.trans h1, (hf p).trapframe.trans h2, (hf p).sz.trans h3⟩
  · rw [(hf p).state] at hr
    exact h.idle p hr
  · rw [(hf p).state] at ha
    exact h.live p ha

theorem Sys.setSame {q : Proc} (h : Sys H m) (hq : SameMem q (m.k.proc p)) :
    Sys H ⟨m.k.setProc p q, m.calls⟩ :=
  h.sameMem ((Function.forall_update_iff m.k.proc fun x y => SameMem y (m.k.proc x)).mpr
    ⟨hq, fun _ _ => ⟨rfl, rfl, rfl, rfl⟩⟩)

/-- A held page that has lost its old owner is freed. -/
theorem Sys.freed {pa : ℕ} {calls : List Call} (h : Sys (pa :: H) m)
    (hinv : Inv H ⟨m.k.freed pa, calls⟩) : Sys H ⟨m.k.freed pa, calls⟩ := by
  have hview : (m.k.freed pa).view = m.k.view := by
    rw [Kernel.freed_view, (h.inv.mem.fresh List.mem_cons_self).view_setMem]
  exact h.keep hinv rfl (fun _ => rfl) (fun _ _ _ => rfl)
    (fun _ _ _ _ hv => Or.inl (by rwa [hview] at hv)) fun _ _ _ hv => Or.inl (by rwa [hview] at hv)

/-- Changes to the file table. -/
theorem Sys.setFiles {ft : ℕ → File} (h : Sys H m) (hf : FilesOK ft m.k.pipes) :
    Sys H ⟨{ m.k with ftable := ft }, m.calls⟩ :=
  ⟨⟨h.inv.mem.congr rfl rfl rfl rfl rfl (fun _ => rfl) (fun _ => rfl) rfl h.inv.mem.frame_va,
    h.inv.log, h.inv.frames⟩, h.roots, h.fits, h.images, h.sys, h.frame, h.vacant, h.idle, h.live,
    hf⟩

/-- Changes to the pipes. -/
theorem Sys.setPipes {f : ℕ → Option Pipe} (h : Sys H m)
    (hmem : MemInv H' { m.k with pipes := f }) (hf : FilesOK m.k.ftable f) :
    Sys H' ⟨{ m.k with pipes := f }, m.calls⟩ :=
  ⟨⟨hmem, h.inv.log, h.inv.frames⟩, h.roots, h.fits, h.images, h.sys, h.frame, h.vacant, h.idle,
    h.live, hf⟩

end Procs

/-! ### Processes running on other CPUs -/

/-- The step from `m` to `m'` leaves the processes that run on other CPUs their tables, with
all entries. -/
structure Apart (m m' : Machine) : Prop where
  cur : m'.k.cur = m.k.cur
  state : ∀ p, (m.k.proc p).state = .running → p ≠ m.k.cur → (m'.k.proc p).state = .running
  pagetable : ∀ p, (m.k.proc p).state = .running → p ≠ m.k.cur →
    (m'.k.proc p).pagetable = (m.k.proc p).pagetable
  leaf : ∀ p, (m.k.proc p).state = .running → p ≠ m.k.cur → ∀ v,
    m'.k.leaf (m.k.proc p).pagetable v = m.k.leaf (m.k.proc p).pagetable v

section Apart

variable {H : List ℕ} {m m₁ m₂ m₃ : Machine} {p : ℕ}

theorem Apart.trans (h : Apart m₁ m₂) (h' : Apart m₂ m₃) : Apart m₁ m₃ := by
  have hcur : ∀ p, p ≠ m₁.k.cur → p ≠ m₂.k.cur := fun p hp => by rwa [h.cur]
  refine ⟨h'.cur.trans h.cur, fun p hr hp => h'.state p (h.state p hr hp) (hcur p hp),
    fun p hr hp => ?_, fun p hr hp v => ?_⟩
  · exact (h'.pagetable p (h.state p hr hp) (hcur p hp)).trans (h.pagetable p hr hp)
  · have hleaf := h'.leaf p (h.state p hr hp) (hcur p hp) v
    rw [h.pagetable p hr hp] at hleaf
    exact hleaf.trans (h.leaf p hr hp v)

/-- Steps that touch neither processes nor tables. -/
theorem Apart.of_eq (hcur : m₁.k.cur = m.k.cur)
    (hstate : ∀ p, (m₁.k.proc p).state = (m.k.proc p).state)
    (hpt : ∀ p, (m₁.k.proc p).pagetable = (m.k.proc p).pagetable)
    (hleaf : ∀ r v, m₁.k.leaf r v = m.k.leaf r v) : Apart m m₁ :=
  ⟨hcur, fun p hr _ => (hstate p).trans hr, fun p _ _ => hpt p, fun _ _ _ v => hleaf _ v⟩

/-- The table of a process that runs on another CPU is safe from eviction. -/
theorem Sys.safe (h : Sys H m) (hr : (m.k.proc p).state = .running) (hp : p ≠ m.k.cur) :
    Safe m.k (m.k.proc p).pagetable := by
  intro x hx
  by_cases hxp : x = p
  · rw [hxp]
    exact ⟨hr, hp⟩
  · exact absurd hx (h.pagetable_ne (h.live p (by rw [hr]; rfl)) (Ne.symm hxp))

/-- Steps that change one process, which is not running on another CPU. -/
theorem Sys.apart_proc {q : Proc} (h : Sys H m)
    (hw : m₁.k.toWorld = (m.k.setProc p q).toWorld)
    (hp : ¬((m.k.proc p).state = .running ∧ p ≠ m.k.cur))
    (hsafe : ∀ r, (m.k.pt r).isSome → Safe m.k r → ∀ v, m₁.k.leaf r v = m.k.leaf r v) :
    Apart m m₁ := by
  have hother : ∀ x, (m.k.proc x).state = .running → x ≠ m.k.cur → m₁.k.proc x = m.k.proc x := by
    intro x hr hx
    have hxp : x ≠ p := by
      rintro rfl
      exact hp ⟨hr, hx⟩
    rw [hw]
    exact Function.update_of_ne hxp _ _
  refine ⟨by rw [hw]; rfl, fun x hr hx => ?_, fun x hr hx => ?_, fun x hr hx => ?_⟩
  · rw [hother x hr hx]
    exact hr
  · rw [hother x hr hx]
  · exact hsafe _ (h.table (by rw [hr]; rfl)) (h.safe hr hx)

theorem Apart.of_world (hw : m₁.k.toWorld = m.k.toWorld)
    (hleaf : ∀ p, (m.k.proc p).state = .running → p ≠ m.k.cur → ∀ v,
      m₁.k.leaf (m.k.proc p).pagetable v = m.k.leaf (m.k.proc p).pagetable v) : Apart m m₁ := by
  refine ⟨by rw [hw], fun x hr _ => ?_, fun x _ _ => ?_, hleaf⟩
  · rw [hw]
    exact hr
  · rw [hw]

theorem Sys.apart (h : Sys H m) (hw : m₁.k.toWorld = m.k.toWorld)
    (hsafe : ∀ r, Safe m.k r → ∀ v, m₁.k.leaf r v = m.k.leaf r v) : Apart m m₁ :=
  .of_world hw fun _ hr hp => hsafe _ (h.safe hr hp)

end Apart

/-! ### Steps that create and destroy no process -/

/-- The invariant holds afterwards, and processes keep their tables, sizes, trapframes and
states. -/
structure Kept (H : List ℕ) (m m' : Machine) : Prop where
  sys : Sys H m'
  cur : m'.k.cur = m.k.cur
  pagetable : ∀ p, (m'.k.proc p).pagetable = (m.k.proc p).pagetable
  sz : ∀ p, (m'.k.proc p).sz = (m.k.proc p).sz
  state : ∀ p, (m'.k.proc p).state = (m.k.proc p).state
  image : m'.k.image = m.k.image
  args : m'.k.args = m.k.args
  held : m'.k.held = m.k.held
  apart : Apart m m'

section Kept

variable {H H' : List ℕ} {m m₁ m₂ m₃ : Machine}

theorem Kept.of_world (h : Sys H m) (h₁ : Sys H' m₁) (hw : m₁.k.toWorld = m.k.toWorld)
    (hsafe : ∀ r, Safe m.k r → ∀ v, m₁.k.leaf r v = m.k.leaf r v) : Kept H' m m₁ := by
  refine ⟨h₁, ?_, ?_, ?_, ?_, ?_, ?_, ?_, h.apart hw hsafe⟩ <;> simp only [hw, implies_true]

/-- Steps that change neither the process table nor page tables. -/
theorem Kept.of_eq (h₁ : Sys H' m₁) (hcur : m₁.k.cur = m.k.cur) (hproc : m₁.k.proc = m.k.proc)
    (himage : m₁.k.image = m.k.image) (hargs : m₁.k.args = m.k.args)
    (hheld : m₁.k.held = m.k.held) (hleaf : ∀ r v, m₁.k.leaf r v = m.k.leaf r v) :
    Kept H' m m₁ :=
  ⟨h₁, hcur, fun p => by rw [hproc], fun p => by rw [hproc], fun p => by rw [hproc], himage, hargs,
    hheld, .of_eq hcur (fun p => by rw [hproc]) (fun p => by rw [hproc]) hleaf⟩

theorem Kept.refl (h : Sys H m) : Kept H m m := .of_world h h rfl fun _ _ _ => rfl

theorem Kept.trans (h : Kept H m₁ m₂) (h' : Kept H' m₂ m₃) : Kept H' m₁ m₃ :=
  ⟨h'.sys, h'.cur.trans h.cur, fun p => (h'.pagetable p).trans (h.pagetable p),
    fun p => (h'.sz p).trans (h.sz p), fun p => (h'.state p).trans (h.state p),
    h'.image.trans h.image, h'.args.trans h.args, h'.held.trans h.held, h.apart.trans h'.apart⟩

theorem Kept.sameMem {f : ℕ → Proc} (h : Sys H m) (hf : ∀ p, SameMem (f p) (m.k.proc p)) :
    Kept H m ⟨{ m.k with proc := f }, m.calls⟩ :=
  ⟨h.sameMem hf, rfl, fun p => (hf p).pagetable, fun p => (hf p).sz, fun p => (hf p).state, rfl, rfl,
    rfl, .of_eq rfl (fun p => (hf p).state) (fun p => (hf p).pagetable) fun _ _ => rfl⟩

theorem Kept.setSame {p : ℕ} {q : Proc} (h : Sys H m) (hq : SameMem q (m.k.proc p)) :
    Kept H m ⟨m.k.setProc p q, m.calls⟩ :=
  .sameMem h ((Function.forall_update_iff m.k.proc fun x y => SameMem y (m.k.proc x)).mpr
    ⟨hq, fun _ _ => ⟨rfl, rfl, rfl, rfl⟩⟩)

/-- `copyout` to the current process. -/
theorem Sys.copyout {va : ℕ} {src : List UInt8} (h : Sys H m) :
    wp (copyout (m.k.proc m.k.cur).pagetable va src) (fun _ m' => Kept H m m') Crash m := by
  refine wp_mono (copyout_spec h.inv h.space) ?_ fun _ _ he => he
  rintro st m' ⟨ht, hs, -⟩
  exact .of_world h (h.touched ht hs) ht.world ht.safe

/-- `copyin` from the current process. -/
theorem Sys.copyin {va len : ℕ} (h : Sys H m) :
    wp (copyin (m.k.proc m.k.cur).pagetable va len) (fun _ m' => Kept H m m') Crash m := by
  refine wp_mono (copyin_spec h.inv h.space) ?_ fun _ _ he => he
  rintro res m' ⟨hs, -⟩
  exact .of_world h (h.served hs) hs.world hs.safe

/-- `kalloc`. -/
theorem Sys.kalloc (h : Sys H m) :
    wp kalloc (fun pa m' => pa ≠ 0 ∧ Sys (pa :: H) m' ∧ Quiet m.k m'.k) Crash m := by
  refine wp_mono (kalloc_spec h.inv) ?_ fun _ _ he => he
  rintro pa m' ⟨hne, hinv, hgot⟩
  exact ⟨hne, h.quiet hinv hgot.quiet, hgot.quiet⟩

end Kept

end Xv6
