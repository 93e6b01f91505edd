import Xv6.Machine.Vm

/-!
# Files and pipes

The file-table code of `kernel/file.c`, `kernel/pipe.c` and `kernel/sysfile.c` that obtains
and gives back pages: a pipe lives in a page of its own, and the file table decides when the
page is freed. Inodes and the bytes inside a pipe are not modelled here.
-/

namespace Xv6

/-- The `n` little-endian bytes of `x`. -/
def leBytes (n x : ℕ) : List UInt8 := (List.range n).map fun i => UInt8.ofNat (x / 256 ^ i)

/-- `filealloc`; `none` if the table is full. -/
def filealloc : K (Option ℕ) := do
  let k ← getK
  match (List.range nfile).find? fun i => (k.ftable i).ref = 0 with
  | none => return none
  | some i =>
    modK fun k => k.setFile i { k.ftable i with ref := 1 }
    return some i

/-- `filedup`. -/
def filedup (f : ℕ) : K ℕ := do
  if ((← getK).ftable f).ref < 1 then throw .filedup
  else
    modK fun k => k.setFile f { k.ftable f with ref := (k.ftable f).ref + 1 }
    return f

/-- `pipeclose`. A closed pipe's page is filled with ones, so a call on one would wait for
its lock forever. -/
def pipeclose (pi : ℕ) (writable : Bool) : K Unit := do
  match (← getK).pipes pi with
  | none => throw .kerneltrap
  | some q =>
    let q := if writable then { q with writeopen := false } else { q with readopen := false }
    modK fun k => k.setPipe pi (some q)
    if !q.readopen && !q.writeopen then
      kfree pi
      modK fun k => k.setPipe pi none

/-- `fileclose`. -/
def fileclose (f : ℕ) : K Unit := do
  let ff := (← getK).ftable f
  if ff.ref < 1 then throw .fileclose
  else if 1 < ff.ref then modK fun k => k.setFile f { ff with ref := ff.ref - 1 }
  else
    modK fun k => k.setFile f { ff with ref := 0, type := .none }
    if ff.type = .pipe then pipeclose ff.pipe ff.writable

/-- `pipealloc`: the read end and the write end. -/
def pipealloc : K (Option (ℕ × ℕ)) := do
  match ← filealloc with
  | none => return none
  | some f0 =>
    match ← filealloc with
    | none =>
      fileclose f0
      return none
    | some f1 =>
      let pi ← kalloc
      if pi = 0 then
        fileclose f0
        fileclose f1
        return none
      else
        modK fun k => k.setPipe pi (some ⟨true, true⟩)
        modK fun k => k.setFile f0
          { k.ftable f0 with type := .pipe, readable := true, writable := false, pipe := pi }
        modK fun k => k.setFile f1
          { k.ftable f1 with type := .pipe, readable := false, writable := true, pipe := pi }
        return some (f0, f1)

/-- Assign to fields of `struct proc`. -/
def modProc (p : ℕ) (f : Proc → Proc) : K Unit := modK fun k => k.setProc p (f (k.proc p))

/-- `p->ofile[fd] = f`. -/
def Proc.setOfile (q : Proc) (fd : ℕ) (f : Option ℕ) : Proc :=
  { q with ofile := Function.update q.ofile fd f }

/-- `fdalloc`. -/
def fdalloc (f : ℕ) : K (Option ℕ) := do
  let k ← getK
  match (List.range nofile).find? fun fd => (k.proc k.cur).ofile fd = none with
  | none => return none
  | some fd =>
    modProc k.cur fun q => q.setOfile fd (some f)
    return some fd

/-- `argfd`: the file a descriptor of the current process stands for. -/
def argfd (fd : ℤ) : K (Option ℕ) := do
  let k ← getK
  if fd < 0 ∨ (nofile : ℤ) ≤ fd then return none
  else return (k.proc k.cur).ofile fd.toNat

/-- `sys_dup`. -/
def sysDup (fd : ℤ) : K ℤ := do
  match ← argfd fd with
  | none => return -1
  | some f =>
    match ← fdalloc f with
    | none => return -1
    | some fd' =>
      let _ ← filedup f
      return fd'

/-- `sys_close`. -/
def sysClose (fd : ℤ) : K ℤ := do
  match ← argfd fd with
  | none => return -1
  | some f =>
    modProc (← myproc) fun q => q.setOfile fd.toNat none
    fileclose f
    return 0

/-- `sys_pipe`. -/
def sysPipe (fdarray : ℕ) : K ℤ := do
  let p ← myproc
  match ← pipealloc with
  | none => return -1
  | some (rf, wf) =>
    match ← fdalloc rf with
    | none =>
      fileclose rf
      fileclose wf
      return -1
    | some fd0 =>
      match ← fdalloc wf with
      | none =>
        modProc p fun q => q.setOfile fd0 none
        fileclose rf
        fileclose wf
        return -1
      | some fd1 =>
        let pagetable := ((← getK).proc p).pagetable
        let fail : K ℤ := do
          modProc p fun q => (q.setOfile fd0 none).setOfile fd1 none
          fileclose rf
          fileclose wf
          return -1
        if (← copyout pagetable fdarray (leBytes 4 fd0)) < 0 then fail
        else if (← copyout pagetable ((fdarray + 4) % word) (leBytes 4 fd1)) < 0 then fail
        else return 0

end Xv6
