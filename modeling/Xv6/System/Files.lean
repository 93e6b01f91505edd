import Xv6.System.Inv

/-!
# Files and pipes keep the system invariant

A pipe's page is given back when its second end is closed, and an end is closed when the
last reference to its file goes. The invariant `FilesOK` makes the two meet: `pipeclose` is
only called on a pipe that exists.
-/

namespace Xv6

open StateLogic

theorem wp_modProc {p : ℕ} {f : Proc → Proc} {Q : Unit → Machine → Prop}
    {E : Panic → Machine → Prop} {m : Machine} :
    wp (modProc p f) Q E m ↔ Q () ⟨m.k.setProc p (f (m.k.proc p)), m.calls⟩ := Iff.rfl

section Table

variable {H : List ℕ} {m : Machine} {f : ℕ} {ff : File}

/-- Replacing a file by one that is not a pipe. -/
theorem FilesOK.update_other {ft : ℕ → File} {pipes : ℕ → Option Pipe} (h : FilesOK ft pipes)
    (hff : ff.type ≠ .pipe) : FilesOK (Function.update ft f ff) pipes := by
  have hne : ∀ g, (Function.update ft f ff g).type = .pipe → g ≠ f := by
    rintro g hg rfl
    rw [Function.update_self] at hg
    exact hff hg
  refine ⟨fun g hg => ?_, fun g hg => ?_, fun g g' hg hg' => ?_⟩
  · have := hne g hg
    rw [Function.update_of_ne this] at hg ⊢
    exact h.ref g hg
  · have := hne g hg
    rw [Function.update_of_ne this] at hg ⊢
    exact h.opened g hg
  · have hgf := hne g hg
    have hgf' := hne g' hg'
    rw [Function.update_of_ne hgf] at hg ⊢
    rw [Function.update_of_ne hgf'] at hg' ⊢
    exact h.inj g g' hg hg'

/-- Changing the reference count of a file in use. -/
theorem FilesOK.update_ref {ft : ℕ → File} {pipes : ℕ → Option Pipe} {n : ℕ}
    (h : FilesOK ft pipes) (hn : n ≠ 0) :
    FilesOK (Function.update ft f { ft f with ref := n }) pipes := by
  have hsame : ∀ g, (Function.update ft f { ft f with ref := n } g).type = (ft g).type ∧
      (Function.update ft f { ft f with ref := n } g).pipe = (ft g).pipe ∧
      (Function.update ft f { ft f with ref := n } g).writable = (ft g).writable := by
    intro g
    by_cases hg : g = f
    · subst hg
      rw [Function.update_self]
      exact ⟨rfl, rfl, rfl⟩
    · rw [Function.update_of_ne hg]
      exact ⟨rfl, rfl, rfl⟩
  refine ⟨fun g hg => ?_, fun g hg => ?_, fun g g' hg hg' hp hw => ?_⟩
  · by_cases hgf : g = f
    · subst hgf
      rw [Function.update_self]
      exact hn
    · rw [Function.update_of_ne hgf] at hg ⊢
      exact h.ref g hg
  · rw [(hsame g).1] at hg
    rw [(hsame g).2.1, (hsame g).2.2]
    exact h.opened g hg
  · rw [(hsame g).1] at hg
    rw [(hsame g').1] at hg'
    rw [(hsame g).2.1, (hsame g').2.1] at hp
    rw [(hsame g).2.2, (hsame g').2.2] at hw
    exact h.inj g g' hg hg' hp hw

theorem Kept.setFiles {ft : ℕ → File} (h : Sys H m) (hf : FilesOK ft m.k.pipes) :
    Kept H m ⟨{ m.k with ftable := ft }, m.calls⟩ :=
  .of_eq (h.setFiles hf) rfl rfl rfl rfl rfl fun _ _ => rfl

/-- **Specification of `filealloc`.** -/
theorem filealloc_spec (h : Sys H m) :
    wp filealloc (fun o m' => Kept H m m' ∧ (∀ f, o = some f → (m.k.ftable f).ref = 0 ∧
      m'.k.ftable = Function.update m.k.ftable f { m.k.ftable f with ref := 1 }) ∧
      m'.k.pipes = m.k.pipes) Crash m := by
  rw [filealloc, wp_bind, wp_getK]
  cases hfind : (List.range nfile).find? fun i => (m.k.ftable i).ref = 0 with
  | none => exact ⟨Kept.refl h, fun f hf => absurd hf (by simp), rfl⟩
  | some f =>
    have href : (m.k.ftable f).ref = 0 := by simpa using List.find?_some hfind
    refine ⟨.setFiles h (h.files.update_ref one_ne_zero), ?_, rfl⟩
    rintro g ⟨⟩
    exact ⟨href, rfl⟩

/-- **Specification of `filedup`.** -/
theorem filedup_spec (h : Sys H m) :
    wp (filedup f) (fun _ m' => Kept H m m') Crash m := by
  rw [filedup, wp_bind, wp_getK, wp_ite]
  exact ⟨fun _ => h.inv.log, fun _ => .setFiles h (h.files.update_ref (Nat.succ_ne_zero _))⟩

/-! ### Closing -/

/-- Closing one end of a pipe that no file stands for. -/
theorem FilesOK.closeEnd {ft : ℕ → File} {pipes : ℕ → Option Pipe} {pi : ℕ} {q : Pipe}
    {writable : Bool} (h : FilesOK ft pipes) (hq : pipes pi = some q)
    (hno : ∀ g, (ft g).type = .pipe → (ft g).pipe = pi → (ft g).writable ≠ writable) :
    FilesOK ft (Function.update pipes pi (some (if writable then { q with writeopen := false }
      else { q with readopen := false }))) := by
  refine ⟨h.ref, fun g hg => ?_, h.inj⟩
  obtain ⟨q', hq', hopen⟩ := h.opened g hg
  by_cases hpi : (ft g).pipe = pi
  · rw [hpi, hq] at hq'
    cases hq'
    refine ⟨_, by rw [hpi, Function.update_self], ?_⟩
    have hw := hno g hg hpi
    cases writable <;> cases hgw : (ft g).writable <;> simp_all
  · exact ⟨q', by rw [Function.update_of_ne hpi]; exact hq', hopen⟩

/-- Removing a pipe that no file stands for. -/
theorem FilesOK.dropPipe {ft : ℕ → File} {pipes : ℕ → Option Pipe} {pi : ℕ}
    (h : FilesOK ft pipes) (hno : ∀ g, (ft g).type = .pipe → (ft g).pipe ≠ pi) :
    FilesOK ft (Function.update pipes pi none) := by
  refine ⟨h.ref, fun g hg => ?_, h.inj⟩
  rw [Function.update_of_ne (hno g hg)]
  exact h.opened g hg

/-- The page of a pipe that no file stands for is freed. -/
theorem Sys.freePipe {pi : ℕ} (h : Sys H m) (hpi : (m.k.pipes pi).isSome)
    (hno : ∀ g, (m.k.ftable g).type = .pipe → (m.k.ftable g).pipe ≠ pi) :
    wp (do kfree pi; modK fun k => k.setPipe pi none) (fun _ m' => Kept H m m') Crash m := by
  have hown : pi ∈ m.k.own H .pipe := hpi
  have hmem := h.inv.mem.takePipe hpi
  have h1 := h.setPipes hmem (h.files.dropPipe hno)
  have hinv := h.inv.freed hmem (h.inv.mem.not_free hown (by simp)) rfl (fun _ _ hh => hh)
    fun r v _ hV _ => ⟨hV, rfl⟩
  rw [wp_bind, wp_kfree (h.inv.mem.own.sub _ _ hown) h.inv.mem.kend_le, wp_modK]
  exact .of_eq (h1.freed hinv) rfl rfl rfl rfl rfl fun _ _ => rfl

/-- **Specification of `pipeclose`** on an end that no file stands for any more. -/
theorem pipeclose_spec {pi : ℕ} {q : Pipe} {writable : Bool} (h : Sys H m)
    (hq : m.k.pipes pi = some q)
    (hno : ∀ g, (m.k.ftable g).type = .pipe → (m.k.ftable g).pipe = pi →
      (m.k.ftable g).writable ≠ writable) :
    wp (pipeclose pi writable) (fun _ m' => Kept H m m') Crash m := by
  have hfiles := h.files.closeEnd hq hno
  rw [pipeclose, wp_bind, wp_getK, hq]
  simp only
  generalize (if writable then { q with writeopen := false }
    else { q with readopen := false }) = q' at hfiles ⊢
  have h1 : Sys H ⟨m.k.setPipe pi (some q'), m.calls⟩ :=
    h.setPipes (h.inv.mem.setPipe (by rw [hq]; rfl) q') hfiles
  have hkept : Kept H m ⟨m.k.setPipe pi (some q'), m.calls⟩ :=
    .of_eq h1 rfl rfl rfl rfl rfl fun _ _ => rfl
  have hpi : (m.k.setPipe pi (some q')).pipes pi = some q' := by simp [Kernel.setPipe]
  rw [wp_bind, wp_modK, wp_ite]
  refine ⟨fun hclosed => ?_, fun _ => hkept⟩
  rw [Bool.and_eq_true, Bool.not_eq_true', Bool.not_eq_true'] at hclosed
  refine wp_mono (h1.freePipe (by rw [hpi]; rfl) fun g hg hgp => ?_) (fun _ _ h2 => hkept.trans h2)
    fun _ _ he => he
  -- a file of this pipe would stand for an end that is still open
  obtain ⟨q'', hq'', hopen⟩ := h1.files.opened g hg
  rw [hgp, hpi] at hq''
  cases hq''
  rw [hclosed.1, hclosed.2, ite_self] at hopen
  cases hopen

/-- **Specification of `fileclose`.** -/
theorem fileclose_spec (h : Sys H m) : wp (fileclose f) (fun _ m' => Kept H m m') Crash m := by
  rw [fileclose, wp_bind, wp_getK, wp_ite, wp_ite]
  refine ⟨fun _ => h.inv.log, fun href => ⟨fun hmany => ?_, fun _ => ?_⟩⟩
  · exact .setFiles h (h.files.update_ref (by omega))
  · rw [wp_bind, wp_modK, wp_ite]
    have hkept : Kept H m ⟨m.k.setFile f { m.k.ftable f with ref := 0, type := .none }, m.calls⟩ :=
      .setFiles h (h.files.update_other (by simp))
    refine ⟨fun htype => ?_, fun _ => hkept⟩
    obtain ⟨q, hq, -⟩ := h.files.opened f htype
    refine wp_mono (pipeclose_spec hkept.sys hq fun g hg hgp hgw => ?_)
      (fun _ _ h2 => hkept.trans h2) fun _ _ he => he
    have hgf : g ≠ f := by
      rintro rfl
      simp [Kernel.setFile] at hg
    simp only [Kernel.setFile, Function.update_of_ne hgf] at hg hgp hgw
    exact hgf (h.files.inj g f hg htype hgp hgw)

/-! ### Creating pipes -/

/-- A file comes to stand for an end of a pipe that no other file stands for. -/
theorem FilesOK.update_pipe {ft : ℕ → File} {pipes : ℕ → Option Pipe} {q : Pipe}
    (h : FilesOK ft pipes) (href : ff.ref ≠ 0) (hq : pipes ff.pipe = some q)
    (hopen : (if ff.writable then q.writeopen else q.readopen) = true)
    (hno : ∀ g, g ≠ f → (ft g).type = .pipe → (ft g).pipe = ff.pipe →
      (ft g).writable ≠ ff.writable) : FilesOK (Function.update ft f ff) pipes := by
  refine ⟨fun g hg => ?_, fun g hg => ?_, fun g g' hg hg' hp hw => ?_⟩
  · by_cases hgf : g = f
    · rw [hgf, Function.update_self]
      exact href
    · rw [Function.update_of_ne hgf] at hg ⊢
      exact h.ref g hg
  · by_cases hgf : g = f
    · rw [hgf, Function.update_self]
      exact ⟨q, hq, hopen⟩
    · rw [Function.update_of_ne hgf] at hg ⊢
      exact h.opened g hg
  · by_cases hgf : g = f <;> by_cases hgf' : g' = f
    · rw [hgf, hgf']
    · rw [hgf, Function.update_self, Function.update_of_ne hgf'] at hp hw
      rw [Function.update_of_ne hgf'] at hg'
      exact absurd hw.symm (hno g' hgf' hg' hp.symm)
    · rw [hgf', Function.update_self, Function.update_of_ne hgf] at hp hw
      rw [Function.update_of_ne hgf] at hg
      exact absurd hw (hno g hgf hg hp)
    · rw [Function.update_of_ne hgf] at hg hp hw
      rw [Function.update_of_ne hgf'] at hg' hp hw
      exact h.inj g g' hg hg' hp hw

/-- A page that is not a pipe becomes one; no file stands for it yet. -/
theorem FilesOK.addPipe {ft : ℕ → File} {pipes : ℕ → Option Pipe} {pi : ℕ} (q : Pipe)
    (h : FilesOK ft pipes) (hpi : pipes pi = none) :
    FilesOK ft (Function.update pipes pi (some q)) ∧
      ∀ g, (ft g).type = .pipe → (ft g).pipe ≠ pi := by
  have hno : ∀ g, (ft g).type = .pipe → (ft g).pipe ≠ pi := by
    intro g hg heq
    obtain ⟨q', hq', -⟩ := h.opened g hg
    rw [heq, hpi] at hq'
    cases hq'
  refine ⟨⟨h.ref, fun g hg => ?_, h.inj⟩, hno⟩
  rw [Function.update_of_ne (hno g hg)]
  exact h.opened g hg

/-- A held page becomes a pipe with two files for its ends. -/
theorem Sys.makePipe {pi f0 f1 : ℕ} (h : Sys (pi :: H) m) (hne : f0 ≠ f1)
    (h0 : (m.k.ftable f0).ref ≠ 0) (h1 : (m.k.ftable f1).ref ≠ 0) :
    wp (do
      modK fun k => k.setPipe pi (some ⟨true, true⟩)
      modK fun k => k.setFile f0
        { k.ftable f0 with type := .pipe, readable := true, writable := false, pipe := pi }
      modK fun k => k.setFile f1
        { k.ftable f1 with type := .pipe, readable := false, writable := true, pipe := pi }
      return some (f0, f1)) (fun _ m' => Kept H m m') Crash m := by
  have hpi : m.k.pipes pi = none := by
    by_contra hsome
    have hown : pi ∈ m.k.own (pi :: H) .pipe := Option.isSome_iff_ne_none.mpr hsome
    have hheld : pi ∈ m.k.own (pi :: H) .held := List.mem_cons_self
    exact h.inv.mem.ne hown hheld (by simp) rfl
  obtain ⟨hfiles, hno⟩ := h.files.addPipe ⟨true, true⟩ hpi
  have hs1 : Sys H ⟨m.k.setPipe pi (some ⟨true, true⟩), m.calls⟩ :=
    h.setPipes (h.inv.mem.givePipe _) hfiles
  have hq : (m.k.setPipe pi (some ⟨true, true⟩)).pipes pi = some ⟨true, true⟩ := by
    simp [Kernel.setPipe]
  simp only [wp_bind, wp_modK]
  have hs2 := hs1.setFiles (@FilesOK.update_pipe f0
    { m.k.ftable f0 with type := .pipe, readable := true, writable := false, pipe := pi } _ _ _
    hs1.files h0 hq rfl fun g _ hg hgp => absurd hgp (hno g hg))
  have hs3 := hs2.setFiles (@FilesOK.update_pipe f1
    { Function.update m.k.ftable f0 { m.k.ftable f0 with
        type := .pipe, readable := true, writable := false, pipe := pi } f1 with
      type := .pipe, readable := false, writable := true, pipe := pi } _ _ _ hs2.files
    (by rw [Function.update_of_ne hne.symm]; exact h1) hq rfl fun g hgf hg hgp => by
      by_cases hg0 : g = f0
      · simp [hg0]
      · simp only [Function.update_of_ne hg0] at hg hgp
        exact absurd hgp (hno g hg))
  exact .of_eq hs3 rfl rfl rfl rfl rfl fun _ _ => rfl

/-- **Specification of `pipealloc`.** -/
theorem pipealloc_spec (h : Sys H m) : wp pipealloc (fun _ m' => Kept H m m') Crash m := by
  rw [pipealloc]
  refine wp_seq (filealloc_spec h) ?_
  rintro o m₁ ⟨hk1, hf0, -⟩
  cases o with
  | none => exact hk1
  | some f0 =>
    obtain ⟨-, hft1⟩ := hf0 f0 rfl
    refine wp_seq (filealloc_spec hk1.sys) ?_
    rintro o m₂ ⟨hk2, hf1, -⟩
    cases o with
    | none =>
      exact wp_seq (fileclose_spec hk2.sys) fun _ _ hk3 => (hk1.trans hk2).trans hk3
    | some f1 =>
      obtain ⟨href1, hft2⟩ := hf1 f1 rfl
      have hne : f0 ≠ f1 := by
        rintro rfl
        rw [hft1, Function.update_self] at href1
        cases href1
      refine wp_seq hk2.sys.kalloc ?_
      rintro pi m₃ ⟨hpi, hs3, hq3⟩
      rw [if_neg hpi]
      have hk3 : Kept (pi :: H) m m₃ := (hk1.trans hk2).trans (.of_world hk2.sys hs3 hq3.world hq3.safe)
      refine wp_mono (hs3.makePipe hne ?_ ?_) (fun _ _ hk4 => hk3.trans hk4) fun _ _ he => he
      · rw [hq3.world, hft2, Function.update_of_ne hne, hft1, Function.update_self]
        simp
      · rw [hq3.world, hft2, Function.update_self]
        simp

end Table

/-! ### Descriptors -/

section Descriptors

variable {H : List ℕ} {m : Machine} {p f : ℕ} {fd : ℤ}

/-- Descriptors can be set and cleared freely. -/
theorem setOfile_spec (h : Sys H m) {g : Proc → Proc} (hg : ∀ q, SameMem (g q) q) :
    wp (modProc p g) (fun _ m' => Kept H m m') Crash m :=
  Kept.setSame h (hg _)

theorem sameMem_setOfile (fd : ℕ) (o : Option ℕ) (q : Proc) : SameMem (q.setOfile fd o) q :=
  ⟨rfl, rfl, rfl, rfl⟩

theorem fdalloc_spec (h : Sys H m) : wp (fdalloc f) (fun _ m' => Kept H m m') Crash m := by
  rw [fdalloc, wp_bind, wp_getK]
  cases (List.range nofile).find? fun fd => (m.k.proc m.k.cur).ofile fd = none with
  | none => exact Kept.refl h
  | some fd =>
    exact wp_seq (setOfile_spec h (sameMem_setOfile _ _))
      fun _ _ hk => hk

theorem argfd_spec : wp (argfd fd) (fun _ m' => m' = m) Crash m := by
  rw [argfd, wp_bind, wp_getK, wp_ite]
  exact ⟨fun _ => rfl, fun _ => rfl⟩

/-- **`sys_dup` keeps the invariant.** -/
theorem sysDup_spec (h : Sys H m) : wp (sysDup fd) (fun _ m' => Kept H m m') Crash m := by
  rw [sysDup]
  refine wp_seq argfd_spec ?_
  rintro o m₁ rfl
  cases o with
  | none => exact Kept.refl h
  | some f =>
    refine wp_seq (fdalloc_spec h) ?_
    rintro o m₂ hk2
    cases o with
    | none => exact hk2
    | some fd' => exact wp_seq (filedup_spec hk2.sys) fun _ _ hk3 => hk2.trans hk3

/-- **`sys_close` keeps the invariant.** -/
theorem sysClose_spec (h : Sys H m) : wp (sysClose fd) (fun _ m' => Kept H m m') Crash m := by
  rw [sysClose]
  refine wp_seq argfd_spec ?_
  rintro o m₁ rfl
  cases o with
  | none => exact Kept.refl h
  | some f =>
    rw [wp_bind, wp_myproc]
    refine wp_seq (setOfile_spec h (sameMem_setOfile _ _)) ?_
    rintro - m₂ hk2
    exact wp_seq (fileclose_spec hk2.sys) fun _ _ hk3 => hk2.trans hk3

/-- Two files are closed after a failure. -/
theorem closeTwo_spec {g : Proc → Proc} {rf wf : ℕ} (h : Sys H m)
    (hg : ∀ q, SameMem (g q) q) :
    wp (do
      modProc p g
      fileclose rf
      fileclose wf
      return (-1 : ℤ)) (fun _ m' => Kept H m m') Crash m := by
  refine wp_seq (setOfile_spec h hg) ?_
  rintro - m₁ hk1
  refine wp_seq (fileclose_spec hk1.sys) ?_
  rintro - m₂ hk2
  exact wp_seq (fileclose_spec hk2.sys) fun _ _ hk3 => (hk1.trans hk2).trans hk3

/-- **`sys_pipe` keeps the invariant.** -/
theorem sysPipe_spec {fdarray : ℕ} (h : Sys H m) :
    wp (sysPipe fdarray) (fun _ m' => Kept H m m') Crash m := by
  rw [sysPipe, wp_bind, wp_myproc]
  refine wp_seq (pipealloc_spec h) ?_
  rintro o m₁ hk1
  cases o with
  | none => exact hk1
  | some ends =>
    obtain ⟨rf, wf⟩ := ends
    refine wp_seq (fdalloc_spec hk1.sys) ?_
    rintro o m₂ hk2
    have hk2 := hk1.trans hk2
    cases o with
    | none =>
      refine wp_seq (fileclose_spec hk2.sys) ?_
      rintro - m₃ hk3
      exact wp_seq (fileclose_spec hk3.sys) fun _ _ hk4 => (hk2.trans hk3).trans hk4
    | some fd0 =>
      refine wp_seq (fdalloc_spec hk2.sys) ?_
      rintro o m₃ hk3
      have hk3 := hk2.trans hk3
      cases o with
      | none =>
        exact wp_mono (closeTwo_spec hk3.sys (sameMem_setOfile _ _)) (fun _ _ hk => hk3.trans hk)
          fun _ _ he => he
      | some fd1 =>
        have hfail : ∀ m', Kept H m m' → wp (do
            modProc m.k.cur fun q => (q.setOfile fd0 none).setOfile fd1 none
            fileclose rf
            fileclose wf
            return (-1 : ℤ)) (fun _ m' => Kept H m m') Crash m' := fun m' hk =>
          wp_mono (closeTwo_spec hk.sys fun q => ⟨rfl, rfl, rfl, rfl⟩)
            (fun _ _ hk' => hk.trans hk') fun _ _ he => he
        rw [wp_bind, wp_getK, ← hk3.cur]
        simp only
        refine wp_seq hk3.sys.copyout ?_
        rintro st m₄ hk4
        have hk4 := hk3.trans hk4
        rw [wp_ite, hk3.cur]
        refine ⟨fun _ => hfail m₄ hk4, fun _ => ?_⟩
        rw [hk3.pagetable, ← hk4.pagetable, ← hk4.cur]
        refine wp_seq hk4.sys.copyout ?_
        rintro st m₅ hk5
        have hk5 := hk4.trans hk5
        rw [wp_ite, hk4.cur]
        exact ⟨fun _ => hfail m₅ hk5, fun _ => hk5⟩

/-- The loop of `kexit` over the descriptors. -/
theorem closeFiles_spec {n : ℕ} (h : Sys H m) :
    wp (closeFiles p n) (fun _ m' => Kept H m m') Crash m := by
  induction n generalizing m with
  | zero => exact Kept.refl h
  | succ n ih =>
    rw [closeFiles, wp_bind, wp_getK]
    simp only
    cases (m.k.proc p).ofile (nofile - 1 - n) with
    | none => exact ih h
    | some f =>
      refine wp_seq (fileclose_spec h) ?_
      rintro - m₁ hk1
      refine wp_seq (setOfile_spec hk1.sys (sameMem_setOfile _ _)) ?_
      rintro - m₂ hk2
      have hk2 := hk1.trans hk2
      exact wp_mono (ih hk2.sys) (fun _ _ hk3 => hk2.trans hk3) fun _ _ he => he

/-- The loop of `kfork` over the descriptors. -/
theorem forkFiles_spec {np n : ℕ} (h : Sys H m) :
    wp (forkFiles p np n) (fun _ m' => Kept H m m') Crash m := by
  induction n generalizing m with
  | zero => exact Kept.refl h
  | succ n ih =>
    rw [forkFiles, wp_bind, wp_getK]
    simp only
    cases (m.k.proc p).ofile (nofile - 1 - n) with
    | none => exact ih h
    | some f =>
      refine wp_seq (filedup_spec h) ?_
      rintro g m₁ hk1
      refine wp_seq (setOfile_spec hk1.sys (sameMem_setOfile _ _)) ?_
      rintro - m₂ hk2
      have hk2 := hk1.trans hk2
      exact wp_mono (ih hk2.sys) (fun _ _ hk3 => hk2.trans hk3) fun _ _ he => he

end Descriptors

end Xv6
