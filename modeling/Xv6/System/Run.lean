import Xv6.System.Boot
import Xv6.System.Exec

/-!
# Runs of the kernel

An `Act` is what the kernel does in one step on behalf of one process: a system call, a trap,
a stage of `exec`, a bare use of the allocator, or a change of scheduling state. `Step` lets
any process that may do so take any step, so a run (`Reach`) interleaves the steps of all
processes in any order; `Stop` is a step that ends in a panic. The system invariant holds in
every state a run reaches, and what it says of the recorded calls also holds of a run that
stops.
-/

namespace Xv6

open StateLogic Ownership

/-! ### Steps -/

/-- The steps the kernel takes on behalf of a process. A page obtained by a bare `kalloc` or
`evictPage` is held until a `kfree` gives it back. -/
inductive Act
  | kalloc
  | evictPage
  | kfree (pa : ℕ)
  | sbrk (n : ℤ) (eager : Bool)
  | fault (va : ℕ)
  | trap (scause stval : ℕ)
  | fork
  | exit (status : ℤ)
  | wait (addr : ℕ)
  | dup (fd : ℤ)
  | close (fd : ℤ)
  | pipe (fdarray : ℕ)
  | copyin (va len : ℕ)
  | copyout (va : ℕ) (src : List UInt8)
  | copyinstr (va max : ℕ)
  | exec (namei : List UInt8 → Option (List UInt8)) (upath uargv : ℕ)
  | kexec (ip : Option (List UInt8)) (path : List UInt8) (argv : List (List UInt8))
  | execFetch (uarg : ℕ)
  | execHeader (file : List UInt8)
  | execGrow (ph : Proghdr)
  | loadseg (va : ℕ) (file : List UInt8) (offset sz : ℕ)
  | execFinish (entry : ℕ) (path : List UInt8) (argv : List (List UInt8))
  | execBad
  | freeArgs
  | userinit
  | sched (st : ProcState) (killed : Bool) (qlevel : ℕ)

/-- The pages held outside any kernel function. -/
def Kernel.setHeld (k : Kernel) (l : List ℕ) : Kernel := { k with held := l }

/-- Keep a page that was obtained. -/
def hold (pa : ℕ) : K Unit :=
  if pa = 0 then pure () else modK fun k => k.setHeld (pa :: k.held)

/-- The code of a step. -/
def Act.code : Act → K Unit
  | kalloc => do hold (← Xv6.kalloc)
  | evictPage => do hold (← Xv6.evictPage)
  | kfree pa => do
    Xv6.kfree pa
    modK fun k => k.setHeld (k.held.erase pa)
  | sbrk n eager => do let _ ← sysSbrk n eager
  | fault va => do
    let k ← getK
    let _ ← vmfault (k.proc k.cur).pagetable va
  | trap scause stval => do let _ ← usertrap scause stval
  | fork => do let _ ← kfork
  | exit status => kexit status
  | wait addr => do let _ ← kwait addr
  | dup fd => do let _ ← sysDup fd
  | close fd => do let _ ← sysClose fd
  | pipe fdarray => do let _ ← sysPipe fdarray
  | copyin va len => do
    let k ← getK
    let _ ← Xv6.copyin (k.proc k.cur).pagetable va len
  | copyout va src => do
    let k ← getK
    let _ ← Xv6.copyout (k.proc k.cur).pagetable va src
  | copyinstr va max => do
    let k ← getK
    let _ ← Xv6.copyinstr (k.proc k.cur).pagetable va max
  | exec namei upath uargv => do let _ ← sysExec namei upath uargv
  | kexec ip path argv => do let _ ← Xv6.kexec ip path argv
  | execFetch uarg => do let _ ← Xv6.execFetch uarg
  | execHeader file => do let _ ← Xv6.execHeader file
  | execGrow ph => do let _ ← Xv6.execGrow ph
  | loadseg va file offset sz => do
    let _ ← Xv6.loadseg (← getImage).pagetable va file offset sz
  | execFinish entry path argv => do let _ ← Xv6.execFinish entry path argv
  | execBad => do let _ ← Xv6.execBad
  | freeArgs => do
    let k ← getK
    Xv6.freeArgs (k.args k.cur)
  | userinit => Xv6.userinit
  | sched st killed qlevel => do
    modProc (← myproc) fun q => { q with state := st, killed := killed, qlevel := qlevel }

/-- Process `p` is running and not in the middle of `exec`. -/
def Ordinary (k : Kernel) (p : ℕ) : Prop :=
  (k.proc p).state = .running ∧ k.image p = none ∧ k.args p = []

/-- When a process may take a step. The stages of `exec` belong to a process that is in the
middle of it, each argument being shorter than the page it is fetched into. -/
def Act.guard (k : Kernel) (p : ℕ) : Act → Prop
  | userinit => ∀ q, (k.proc q).state = .unused
  | sched st _ _ => (k.proc p).state.runs = true ∧ st.runs = true
  | kfree pa => (k.proc p).state = .running ∧ pa ∈ k.held
  | kalloc | evictPage | execGrow _ | loadseg _ _ _ _ | execBad | freeArgs =>
    (k.proc p).state = .running
  | execFinish _ _ argv => (k.proc p).state = .running ∧ ∀ s ∈ argv, s.length < pgsize
  | kexec _ _ argv => Ordinary k p ∧ ∀ s ∈ argv, s.length < pgsize
  | execFetch _ | execHeader _ => (k.proc p).state = .running ∧ k.image p = none
  | _ => Ordinary k p

/-- One step of process `p`. -/
def Step (a : Act) (p : ℕ) (m m' : Machine) : Prop :=
  a.guard m.k p ∧ a.code.run (m.onCpu p) = .ok () m'

/-- A step that stops the kernel. -/
def Stop (a : Act) (p : ℕ) (e : Panic) (m m' : Machine) : Prop :=
  a.guard m.k p ∧ a.code.run (m.onCpu p) = .error e m'

/-! ### The invariant over a step -/

section Step

variable {H : List ℕ} {m m' : Machine} {p : ℕ}

theorem Sys.perm {H' : List ℕ} (h : Sys H m) (hp : H.Perm H') : Sys H' m := by
  refine ⟨⟨⟨h.inv.mem.kend_le, ?_, h.inv.mem.free_nodup, hp.nodup_iff.mp h.inv.mem.held_nodup,
    h.inv.mem.args_nodup, h.inv.mem.slots, h.inv.mem.excl, h.inv.mem.frame_va⟩, h.inv.log,
    h.inv.frames⟩, h.roots, h.fits, h.images, h.sys, h.frame, h.vacant, h.idle, h.live, h.files⟩
  refine h.inv.mem.own.congr fun o x => ?_
  cases o <;> first | exact Iff.rfl | exact hp.mem_iff.symm

theorem Sys.setHeld (h : Sys H m) (l : List ℕ) : Sys H ⟨m.k.setHeld l, m.calls⟩ :=
  ⟨⟨h.inv.mem.congr rfl rfl rfl rfl rfl (fun _ => rfl) (fun _ => rfl) rfl h.inv.mem.frame_va,
    h.inv.log, h.inv.frames⟩, h.roots, h.fits, h.images, h.sys, h.frame, h.vacant, h.idle, h.live,
    h.files⟩

theorem Sys.onCpu (h : Sys H m) (p : ℕ) : Sys H (m.onCpu p) :=
  ⟨⟨h.inv.mem.congr rfl rfl rfl rfl rfl (fun _ => rfl) (fun _ => rfl) rfl h.inv.mem.frame_va,
    h.inv.log, h.inv.frames⟩, h.roots, h.fits, h.images, h.sys, h.frame, h.vacant, h.idle, h.live,
    h.files⟩

/-- What a step leaves: the invariant, and processes on other CPUs left alone. -/
structure Fine (m m' : Machine) : Prop where
  sys : Sys m'.k.held m'
  apart : Apart m m'

theorem Done.fine (h : Done m.k.held m m') : Fine m m' := ⟨h.held ▸ h.sys, h.apart⟩

/-- A page that was obtained is kept. -/
theorem hold_spec {pa : ℕ} {m₁ : Machine} (h : Sys m.k.held m) (h1 : Sys (pa :: m.k.held) m₁)
    (hq : Quiet m.k m₁.k) : wp (hold pa) (fun _ m' => Fine m m') Crash m₁ := by
  have hne : pa ≠ 0 := (h1.inv.mem.fresh List.mem_cons_self).ram.ne_zero
  have hheld : m₁.k.held = m.k.held := by rw [hq.world]
  rw [hold, if_neg hne, wp_modK, hheld]
  refine ⟨h1.setHeld _, (h.apart hq.world hq.safe).trans ?_⟩
  exact .of_eq rfl (fun _ => rfl) (fun _ => rfl) fun _ _ => rfl

/-- A held page is given back. -/
theorem release_spec {pa : ℕ} (h : Sys m.k.held m) (hpa : pa ∈ m.k.held) :
    wp (Act.kfree pa).code (fun _ m' => Fine m m') Crash m := by
  have h1 : Sys (pa :: m.k.held.erase pa) m := h.perm (List.perm_cons_erase hpa)
  have hown : pa ∈ m.k.own m.k.held .held := hpa
  rw [Act.code, wp_bind, wp_kfree (h.inv.mem.own.sub _ _ hown) h.inv.mem.kend_le, wp_modK]
  have h2 := h1.freed (@Inv.freed _ _ _ m.k _ h1.inv h1.inv.mem
    (h.inv.mem.not_free hown (by simp)) rfl (fun _ _ hh => hh) fun r v _ hV _ => ⟨hV, rfl⟩)
  exact ⟨h2.setHeld _, .of_eq rfl (fun _ => rfl) (fun _ => rfl) fun _ _ => rfl⟩

/-- Only the scheduling state of the current process changes. -/
theorem sched_spec {st : ProcState} {killed : Bool} {qlevel : ℕ} (h : Sys m.k.held m)
    (hrun : (m.k.proc m.k.cur).state.runs = true) (hst : st.runs = true) :
    wp (Act.sched st killed qlevel).code (fun _ m' => Fine m m') Crash m := by
  rw [Act.code, wp_bind, wp_myproc, wp_modProc]
  refine Done.fine ((Done.refl h).setProc (h.setProc (h.inv.mem.setProc rfl) rfl (h.fits _)
    (fun hu => ?_) (fun hr => ?_) fun _ => h.live _ (ProcState.active_of_runs hrun))
    fun hr => hr.2 rfl)
  · rw [show st = .unused from hu] at hst
    cases hst
  · rw [show st.runs = false from hr] at hst
    cases hst

/-- **Every step keeps the system invariant** and leaves processes on other CPUs alone. -/
theorem Act.spec (a : Act) (h : Sys m.k.held m) (hg : a.guard m.k m.k.cur) :
    wp a.code (fun _ m' => Fine m m') Crash m := by
  have hact : ∀ {q : Proc}, q.state = .running → q.state.active = true := fun hr => by
    rw [hr]
    rfl
  have hruns : ∀ {q : Proc}, q.state = .running → q.state.runs = true := fun hr => by
    rw [hr]
    rfl
  cases a with
  | kalloc =>
    refine wp_seq h.kalloc ?_
    rintro pa m₁ ⟨-, h1, hq⟩
    exact hold_spec h h1 hq
  | evictPage =>
    refine wp_seq (evictPage_spec h.inv) ?_
    rintro pa m₁ ⟨h1, hgot⟩
    exact hold_spec h (h.quiet h1 hgot.quiet) hgot.quiet
  | kfree pa => exact release_spec h hg.2
  | sbrk n eager =>
    exact wp_seq (sysSbrk_spec h (hact hg.1)) fun _ _ h1 => (h1.2.done h1.1).fine
  | fault va =>
    rw [Act.code, wp_bind, wp_getK]
    exact wp_seq h.vmfault fun _ _ h1 => h1.done.fine
  | trap scause stval =>
    exact wp_seq (usertrap_spec h (hact hg.1) hg.2) fun _ _ h1 => h1.fine
  | fork => exact wp_seq (kfork_spec h (hact hg.1)) fun _ _ h1 => h1.1.fine
  | exit status =>
    exact wp_mono (kexit_spec h (hact hg.1) hg.2) (fun _ _ h1 => h1.fine) fun _ _ he => he
  | wait addr => exact wp_seq (kwait_spec h) fun _ _ h1 => h1.fine
  | dup fd => exact wp_seq (sysDup_spec h) fun _ _ h1 => h1.done.fine
  | close fd => exact wp_seq (sysClose_spec h) fun _ _ h1 => h1.done.fine
  | pipe fdarray => exact wp_seq (sysPipe_spec h) fun _ _ h1 => h1.done.fine
  | copyin va len =>
    rw [Act.code, wp_bind, wp_getK]
    exact wp_seq h.copyin fun _ _ h1 => h1.done.fine
  | copyout va src =>
    rw [Act.code, wp_bind, wp_getK]
    exact wp_seq h.copyout fun _ _ h1 => h1.done.fine
  | copyinstr va max =>
    rw [Act.code, wp_bind, wp_getK]
    refine wp_seq (copyinstrLoop_spec h.inv) ?_
    rintro res m₁ ⟨rfl, -⟩
    exact (Done.refl h).fine
  | exec namei upath uargv =>
    exact wp_seq (sysExec_spec h (hruns hg.1) hg.2.1) fun _ _ h1 => h1.done.fine
  | kexec ip path argv =>
    exact wp_seq (kexec_spec h (hruns hg.1.1) hg.1.2.1 hg.2) fun _ _ h1 => h1.1.done.fine
  | execFetch uarg =>
    exact wp_seq (execFetch_spec h (hruns hg.1)) fun _ _ h1 => h1.1.done.fine
  | execHeader file =>
    exact wp_seq (execHeader_spec h (hruns hg.1) hg.2) fun _ _ h1 => h1.1.done.fine
  | execGrow ph => exact wp_seq (execGrow_spec h) fun _ _ h1 => h1.done.fine
  | loadseg va file offset sz =>
    refine wp_seq (getImage_spec h) ?_
    rintro im m₁ ⟨rfl, -⟩
    exact wp_seq (loadseg_spec h) fun _ _ h1 => h1.done.fine
  | execFinish entry path argv =>
    exact wp_seq (execFinish_spec h (hact hg.1) hg.2) fun _ _ h1 => h1.1.done.fine
  | execBad => exact wp_seq (execBad_spec h) fun _ _ h1 => h1.1.done.fine
  | freeArgs =>
    rw [Act.code, wp_bind, wp_getK]
    exact wp_mono (freeArgs_spec h (hruns hg) rfl) (fun _ _ h1 => h1.1.done.fine) fun _ _ he => he
  | userinit => exact wp_mono (userinit_spec h) (fun _ _ h1 => h1.1.fine) fun _ _ he => he
  | sched st killed qlevel => exact sched_spec h hg.1 hg.2

theorem Act.guard_onCpu {a : Act} (h : a.guard m.k p) :
    a.guard (m.onCpu p).k (m.onCpu p).k.cur := by
  cases a <;> exact h

/-- A step keeps the invariant. -/
theorem Step.fine {a : Act} (h : Sys m.k.held m) (hs : Step a p m m') : Fine (m.onCpu p) m' := by
  have hw := a.spec (m := m.onCpu p) (h.onCpu p) (Act.guard_onCpu hs.1)
  have hfine := wp_ok hw hs.2
  exact hfine

/-- A step that stops leaves the history in order. -/
theorem Stop.log {a : Act} {e : Panic} (h : Sys m.k.held m) (hs : Stop a p e m m') :
    LogOK m'.calls :=
  wp_error (a.spec (m := m.onCpu p) (h.onCpu p) (Act.guard_onCpu hs.1)) hs.2

end Step

/-! ### Runs -/

/-- The states a run from boot passes through. -/
inductive Reach : Machine → Prop
  | boot {k : Kernel} (h : Boot k) : Reach ⟨k, []⟩
  | step {m m' : Machine} {a : Act} {p : ℕ} (h : Reach m) (hs : Step a p m m') : Reach m'

/-- **The system invariant holds in every state a run reaches.** -/
theorem Reach.sys {m : Machine} (h : Reach m) : Sys m.k.held m := by
  induction h with
  | boot h =>
    rw [h.held]
    exact h.sys
  | step _ hs ih => exact (hs.fine ih).sys

/-- The states of runs, those in which a run has stopped included. -/
def Runs (m : Machine) : Prop := Reach m ∨ ∃ m₀ a p e, Reach m₀ ∧ Stop a p e m₀ m

theorem Runs.log {m : Machine} (h : Runs m) : LogOK m.calls := by
  rcases h with h | ⟨m₀, a, p, e, h, hs⟩
  · exact h.sys.inv.log
  · exact hs.log h.sys

end Xv6
