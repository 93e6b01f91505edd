import Xv6.Machine.File

/-!
# Processes

The part of `kernel/proc.c` that creates, copies and destroys processes and resizes their
memory, with `sys_sbrk` of `kernel/sysproc.c`. Locks are held across each function, so that
each is one atomic step; sleeping and the scheduling queues are not modelled here, so
`kwait` is one scan of the process table.
-/

namespace Xv6

/-- `a + n` for a `uint64` and an `int`. -/
def addInt (a : ℕ) (n : ℤ) : ℕ := (((a : ℤ) + n) % (word : ℤ)).toNat

/-- `allocpid`. -/
def allocpid : K ℕ := do
  let pid := (← getK).nextpid
  modK fun k => { k with nextpid := pid + 1 }
  return pid

/-- `proc_pagetable`; 0 if out of memory. -/
def procPagetable (p : ℕ) : K ℕ := do
  let pagetable ← uvmcreate
  if pagetable = 0 then return 0
  else if (← mappages pagetable trampoline pgsize (← getK).ktramp (pteR ||| pteX)) < 0 then
    uvmfree pagetable 0
    return 0
  else if (← mappages pagetable trapframeVa pgsize ((← getK).proc p).trapframe
      (pteR ||| pteW)) < 0 then
    uvmunmap pagetable trampoline 1 false
    uvmfree pagetable 0
    return 0
  else return pagetable

/-- `proc_freepagetable`. -/
def procFreepagetable (pagetable sz : ℕ) : K Unit := do
  uvmunmap pagetable trampoline 1 false
  uvmunmap pagetable trapframeVa 1 false
  uvmfree pagetable sz

/-- `freeproc`. -/
def freeproc (p : ℕ) : K Unit := do
  if ((← getK).proc p).trapframe ≠ 0 then kfree ((← getK).proc p).trapframe
  modProc p fun q => { q with trapframe := 0 }
  if ((← getK).proc p).pagetable ≠ 0 then
    procFreepagetable ((← getK).proc p).pagetable ((← getK).proc p).sz
  modProc p fun q =>
    { q with
      pagetable := 0
      sz := 0
      pid := 0
      parent := none
      name := []
      killed := false
      xstate := 0
      state := .unused }

/-- `allocproc`; `none` if the table is full or memory runs out. -/
def allocproc : K (Option ℕ) := do
  let k ← getK
  match (List.range nproc).find? fun p => (k.proc p).state = .unused with
  | none => return none
  | some p =>
    let pid ← allocpid
    modProc p fun q => { q with pid := pid, state := .used }
    let trapframe ← kalloc
    modProc p fun q => { q with trapframe := trapframe }
    if trapframe = 0 then
      freeproc p
      return none
    else
      let pagetable ← procPagetable p
      modProc p fun q => { q with pagetable := pagetable }
      if pagetable = 0 then
        freeproc p
        return none
      else
        modProc p fun q => { q with qlevel := 0 }
        modK fun k => k.setStats p {}
        return some p

/-- `userinit`. -/
def userinit : K Unit := do
  match ← allocproc with
  | none => throw .kerneltrap
  | some p =>
    modK fun k => { k with initproc := p }
    modProc p fun q => { q with state := .runnable }

/-- `growproc`. -/
def growproc (n : ℤ) : K ℤ := do
  let p ← myproc
  let q := (← getK).proc p
  if 0 < n then
    if trapframeVa < addInt q.sz n then return -1
    else
      let sz ← uvmalloc q.pagetable q.sz (addInt q.sz n) pteW
      if sz = 0 then return -1
      else
        modProc p fun q => { q with sz := sz }
        return 0
  else if n < 0 then
    let sz ← uvmdealloc q.pagetable q.sz (addInt q.sz n)
    modProc p fun q => { q with sz := sz }
    return 0
  else
    modProc p fun r => { r with sz := q.sz }
    return 0

/-- `sys_sbrk`, `eager` being the test `t == SBRK_EAGER`. -/
def sysSbrk (n : ℤ) (eager : Bool) : K ℤ := do
  let p ← myproc
  let addr := ((← getK).proc p).sz
  if eager ∨ n < 0 then
    if (← growproc n) < 0 then return -1 else return addr
  else if addInt addr n < addr then return -1
  else if trapframeVa < addInt addr n then return -1
  else
    modProc p fun q => { q with sz := addInt q.sz n }
    return addr

/-! ### Fork -/

/-- The loop of `kfork` marked COPY SWAP SPACE TOO, over its remaining `n` pages. -/
def forkSwapLoop (np : ℕ) : ℕ → ℕ → K Unit
  | 0, _ => return
  | n + 1, va => do
    let pagetable := ((← getK).proc np).pagetable
    match ← walk pagetable va false with
    | none => forkSwapLoop np n (va + pgsize)
    | some v =>
      let pte ← loadPte pagetable v
      if pte.has pteS then
        let mem ← allocOrEvict
        register mem np va
        modK fun k => k.setMem mem (k.mem (getSwapAddr (swapIndex pte)))
        match ← walk pagetable va true with
        | none => throw .kerneltrap
        | some v =>
          storePte pagetable v (mappedPte mem (pteU ||| pteR ||| pteW))
          forkSwapLoop np n (va + pgsize)
      else if pte.has pteV then
        register (pte2pa pte) np va
        forkSwapLoop np n (va + pgsize)
      else forkSwapLoop np n (va + pgsize)

/-- The file descriptors a child inherits, over the remaining `n`. -/
def forkFiles (p np : ℕ) : ℕ → K Unit
  | 0 => return
  | n + 1 => do
    let fd := nofile - 1 - n
    match ((← getK).proc p).ofile fd with
    | some f =>
      let g ← filedup f
      modProc np fun q => q.setOfile fd (some g)
    | none => pure ()
    forkFiles p np n

/-- `kfork`. -/
def kfork : K ℤ := do
  let p ← myproc
  match ← allocproc with
  | none => return -1
  | some np =>
    let k ← getK
    if (← uvmcopy (k.proc p).pagetable (k.proc np).pagetable (k.proc p).sz np) < 0 then
      freeproc np
      return -1
    else
      let npsz := ((← getK).proc np).sz
      forkSwapLoop np ((npsz + pgsize - 1) / pgsize) 0
      let parent := (← getK).proc p
      modProc np fun q => { q with sz := parent.sz, tf := { parent.tf with a0 := 0 } }
      forkFiles p np nofile
      let pid := ((← getK).proc np).pid
      modProc np fun q =>
        { q with name := parent.name, parent := some p, state := .runnable }
      return pid

/-! ### Exit and wait -/

/-- `reparent`: `p`'s children go to init. -/
def reparent (p : ℕ) : K Unit :=
  modK fun k =>
    let adopt (pp : ℕ) : Proc :=
      if pp < nproc ∧ (k.proc pp).parent = some p then
        { k.proc pp with parent := some k.initproc }
      else k.proc pp
    { k with proc := adopt }

/-- The loop of `kexit` that closes the remaining `n` descriptors. -/
def closeFiles (p : ℕ) : ℕ → K Unit
  | 0 => return
  | n + 1 => do
    let fd := nofile - 1 - n
    match ((← getK).proc p).ofile fd with
    | some f =>
      fileclose f
      modProc p fun q => q.setOfile fd none
    | none => pure ()
    closeFiles p n

/-- `kexit`, up to the switch to the scheduler. -/
def kexit (status : ℤ) : K Unit := do
  let p ← myproc
  if p = (← getK).initproc then throw .initExiting
  else
    closeFiles p nofile
    reparent p
    modProc p fun q => { q with xstate := status, state := .zombie }

/-- One scan of `kwait`: the pid of a reaped child, -1, or `none` if the caller sleeps. -/
def kwait (addr : ℕ) : K (Option ℤ) := do
  let p ← myproc
  let k ← getK
  match (List.range nproc).find? fun pp =>
      (k.proc pp).parent = some p ∧ (k.proc pp).state = .zombie with
  | some pp =>
    let pid := (k.proc pp).pid
    let xstate := leBytes 4 ((k.proc pp).xstate % 2 ^ 32).toNat
    if addr ≠ 0 then
      if (← copyout (k.proc p).pagetable addr xstate) < 0 then return some (-1)
      else
        freeproc pp
        return some pid
    else
      freeproc pp
      return some pid
  | none =>
    if ((List.range nproc).all fun pp => (k.proc pp).parent ≠ some p) ∨ (k.proc p).killed then
      return some (-1)
    else return none

end Xv6
