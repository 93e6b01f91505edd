import Mathlib.Data.Finset.Prod
import Mathlib.Data.Int.Notation
import Xv6.Logic.Transition
import Xv6.Machine.Riscv

/-!
# Open files

The file table of `kernel/file.c` with the descriptor tables of the processes, as far as `open`,
`dup`, `pipe`, `close`, `fork` and `exit` use them: `sys_open`, `sys_dup`, `sys_pipe` and `sys_close`
of `kernel/sysfile.c`, `pipealloc` and `pipeclose` of `kernel/pipe.c`, and the loops over descriptors
in `kfork` and `kexit`. A call is one step.

What other parts of the kernel decide is an argument of the call: what a path leads to, whether
there is a page for a pipe or for a child's memory, and whether `copyout` can write. So every exit of
the calls is taken in some run. Bytes, offsets and the working directories are left out.

The references to inodes that `sys_open` takes are numbered, and so are the pipes; `puts`, `freed`
and `reuses` record what becomes of them and of the entries.
-/

namespace Xv6

namespace Files

/-- `NDEV`. -/
def ndev : ℤ := 10

/-- `O_RDONLY`. -/
def oRdonly : BitVec 32 := 0x000

/-- `O_WRONLY`. -/
def oWronly : BitVec 32 := 0x001

/-- `O_RDWR`. -/
def oRdwr : BitVec 32 := 0x002

/-- `O_CREATE`. -/
def oCreate : BitVec 32 := 0x200

/-- The type of an inode. -/
inductive InodeType
  | dir | file | device
deriving DecidableEq, Repr

/-- What `sys_open` reads of an inode. -/
structure Inode where
  type : InodeType
  major : ℤ := 0
deriving DecidableEq, Repr

/-- The type of an open file. -/
inductive Kind
  | none | pipe | inode | device
deriving DecidableEq, Repr

/-- `struct file`. -/
structure File where
  type : Kind := .none
  ref : ℕ := 0
  readable : Bool := false
  writable : Bool := false
  /-- The page of the pipe. -/
  pipe : ℕ := 0
  /-- The number of the reference to the inode. -/
  ip : ℕ := 0
  major : ℤ := 0
deriving DecidableEq, Repr

/-- `struct pipe`, with the number of the pipe. -/
structure Pipe where
  readopen : Bool := true
  writeopen : Bool := true
  id : ℕ
deriving DecidableEq, Repr

/-- A slot of the process table. -/
inductive Slot
  | unused | live | zombie
deriving DecidableEq, Repr

structure State where
  file : ℕ → File
  slot : ℕ → Slot
  /-- `p->ofile[fd]` for each `(p, fd)`. -/
  ofile : ℕ × ℕ → Option ℕ
  /-- The pages that hold a pipe. -/
  pipes : ℕ → Option Pipe
  /-- How many references to inodes have been taken. -/
  taken : ℕ
  /-- The references that were put. -/
  puts : List ℕ
  /-- How many pipes have been made. -/
  made : ℕ
  /-- The pipes whose pages were freed. -/
  freed : List ℕ
  /-- The entries that `filealloc` gave out, with the number of descriptors that stood for the entry
  at that time. -/
  reuses : List (ℕ × ℕ)

inductive Panic
  | filedup | fileclose | initExiting
  /-- A pipe is closed that is not there. -/
  | kerneltrap
deriving DecidableEq, Repr

abbrev M := EStateM Panic State

/-- The descriptors of all processes. -/
@[irreducible] def descriptors : Finset (ℕ × ℕ) := Finset.range nproc ×ˢ Finset.range nofile

/-- The number of descriptors of live processes that stand for the entry. -/
def State.slots (s : State) (f : ℕ) : ℕ :=
  (descriptors.filter fun x => s.slot x.1 = .live ∧ s.ofile x = some f).card

/-- Assign to an entry of the file table. -/
def setFile (f : ℕ) (x : File) : M Unit :=
  modify fun s => { s with file := Function.update s.file f x }

/-- `p->ofile[fd] = f`. -/
def setOfile (p fd : ℕ) (f : Option ℕ) : M Unit :=
  modify fun s => { s with ofile := Function.update s.ofile (p, fd) f }

/-! ### `file.c` and `pipe.c` -/

/-- `filealloc`. -/
def filealloc : M (Option ℕ) := do
  let s ← get
  match (List.range nfile).find? fun f => (s.file f).ref = 0 with
  | none => return none
  | some f =>
    set { s with reuses := s.reuses ++ [(f, s.slots f)] }
    setFile f { s.file f with ref := 1 }
    return some f

/-- `filedup`. -/
def filedup (f : ℕ) : M ℕ := do
  let ff := (← get).file f
  if ff.ref < 1 then throw .filedup
  else
    setFile f { ff with ref := ff.ref + 1 }
    return f

/-- `pipeclose`. -/
def pipeclose (pi : ℕ) (writable : Bool) : M Unit := do
  match (← get).pipes pi with
  | none => throw .kerneltrap
  | some q =>
    let q := if writable then { q with writeopen := false } else { q with readopen := false }
    modify fun s => { s with pipes := Function.update s.pipes pi (some q) }
    if q.readopen = false ∧ q.writeopen = false then
      modify fun s => { s with
        pipes := Function.update s.pipes pi none
        freed := s.freed ++ [q.id] }

/-- `iput`. -/
def iput (ip : ℕ) : M Unit :=
  modify fun s => { s with puts := s.puts ++ [ip] }

/-- `fileclose`. -/
def fileclose (f : ℕ) : M Unit := do
  let ff := (← get).file f
  if ff.ref < 1 then throw .fileclose
  else if 1 < ff.ref then setFile f { ff with ref := ff.ref - 1 }
  else
    setFile f { ff with ref := 0, type := .none }
    if ff.type = .pipe then pipeclose ff.pipe ff.writable
    else if ff.type = .inode ∨ ff.type = .device then iput ff.ip

/-- `pipealloc`, when `kalloc` has the page `pi`. -/
def pipealloc (pi : Option ℕ) : M (Option (ℕ × ℕ)) := do
  match ← filealloc with
  | none => return none
  | some f0 =>
    match ← filealloc with
    | none =>
      fileclose f0
      return none
    | some f1 =>
      match pi with
      | none =>
        fileclose f0
        fileclose f1
        return none
      | some pi =>
        modify fun s => { s with
          pipes := Function.update s.pipes pi (some { id := s.made })
          made := s.made + 1 }
        let x0 := (← get).file f0
        setFile f0 { x0 with type := .pipe, readable := true, writable := false, pipe := pi }
        let x1 := (← get).file f1
        setFile f1 { x1 with type := .pipe, readable := false, writable := true, pipe := pi }
        return some (f0, f1)

/-! ### `sysfile.c` -/

/-- `fdalloc`. -/
def fdalloc (p f : ℕ) : M (Option ℕ) := do
  let s ← get
  match (List.range nofile).find? fun fd => s.ofile (p, fd) = none with
  | none => return none
  | some fd =>
    setOfile p fd (some f)
    return some fd

/-- `argfd`. -/
def argfd (p : ℕ) (fd : ℤ) : M (Option ℕ) := do
  if fd < 0 ∨ (nofile : ℤ) ≤ fd then return none
  else return (← get).ofile (p, fd.toNat)

/-- `sys_dup`. -/
def sysDup (p : ℕ) (fd : ℤ) : M ℤ := do
  match ← argfd p fd with
  | none => return -1
  | some f =>
    match ← fdalloc p f with
    | none => return -1
    | some fd' =>
      let _ ← filedup f
      return fd'

/-- `sys_close`. -/
def sysClose (p : ℕ) (fd : ℤ) : M ℤ := do
  match ← argfd p fd with
  | none => return -1
  | some f =>
    setOfile p fd.toNat none
    fileclose f
    return 0

/-- `create` or `namei` returns an inode and with it a new reference. -/
def takeRef : M ℕ := do
  let s ← get
  set { s with taken := s.taken + 1 }
  return s.taken

/-- What `sys_open` writes into its new entry. -/
def File.opened (f : File) (omode : BitVec 32) (ip : Inode) (r : ℕ) : File :=
  let f := if ip.type = .device then { f with type := .device, major := ip.major }
    else { f with type := .inode }
  { f with
    ip := r
    readable := omode &&& oWronly = 0
    writable := omode &&& oWronly ≠ 0 ∨ omode &&& oRdwr ≠ 0 }

/-- `sys_open`. `path` is what the path leads to: nothing if the string cannot be read or if
`create` or `namei` fail. -/
def sysOpen (p : ℕ) (omode : BitVec 32) (path : Option Inode) : M ℤ := do
  match path with
  | none => return -1
  | some ip =>
    let r ← takeRef
    if omode &&& oCreate = 0 ∧ ip.type = .dir ∧ omode ≠ oRdonly then
      iput r
      return -1
    else if ip.type = .device ∧ (ip.major < 0 ∨ ndev ≤ ip.major) then
      iput r
      return -1
    else
      match ← filealloc with
      | none =>
        iput r
        return -1
      | some f =>
        match ← fdalloc p f with
        | none =>
          fileclose f
          iput r
          return -1
        | some fd =>
          setFile f (((← get).file f).opened omode ip r)
          return fd

/-- `sys_pipe`, when `kalloc` has the page `pi`; `copied` says whether the two calls of `copyout`
succeed. -/
def sysPipe (p : ℕ) (pi : Option ℕ) (copied : Bool × Bool) : M ℤ := do
  match ← pipealloc pi with
  | none => return -1
  | some (rf, wf) =>
    match ← fdalloc p rf with
    | none =>
      fileclose rf
      fileclose wf
      return -1
    | some fd0 =>
      match ← fdalloc p wf with
      | none =>
        setOfile p fd0 none
        fileclose rf
        fileclose wf
        return -1
      | some fd1 =>
        if copied.1 = false ∨ copied.2 = false then
          setOfile p fd0 none
          setOfile p fd1 none
          fileclose rf
          fileclose wf
          return -1
        else return 0

/-! ### `proc.c` -/

/-- Assign to the state of a process. -/
def setSlot (p : ℕ) (x : Slot) : M Unit :=
  modify fun s => { s with slot := Function.update s.slot p x }

/-- A turn of the loop of `kfork` over the descriptors. -/
def forkFile (p np fd : ℕ) : M Unit := do
  match (← get).ofile (p, fd) with
  | some f =>
    let g ← filedup f
    setOfile np fd (some g)
  | none => return

/-- `kfork`. `copied` says whether there is memory for the child. -/
def kfork (p : ℕ) (copied : Bool) : M ℤ := do
  let s ← get
  match (List.range nproc).find? fun np => s.slot np = .unused with
  | none => return -1
  | some np =>
    setSlot np .live
    if copied = false then
      setSlot np .unused
      return -1
    else
      (List.range nofile).forM (forkFile p np)
      return np

/-- A turn of the loop of `kexit` over the descriptors. -/
def exitFile (p fd : ℕ) : M Unit := do
  match (← get).ofile (p, fd) with
  | some f =>
    fileclose f
    setOfile p fd none
  | none => return

/-- `kexit`, by process 0 if it is init. -/
def kexit (p : ℕ) : M Unit := do
  if p = 0 then throw .initExiting
  else
    (List.range nofile).forM (exitFile p)
    setSlot p .zombie

/-! ### The system -/

/-- A call of a process, or a zombie that is waited for. -/
inductive Event
  | sysOpen (p : ℕ) (omode : BitVec 32) (path : Option Inode)
  | sysDup (p : ℕ) (fd : ℤ)
  | sysPipe (p : ℕ) (pi : Option ℕ) (copied : Bool × Bool)
  | sysClose (p : ℕ) (fd : ℤ)
  | kfork (p : ℕ) (copied : Bool)
  | kexit (p : ℕ)
  | kwait (p : ℕ)
deriving DecidableEq, Repr

/-- The code of a call. -/
def call : Event → M Unit
  | .sysOpen p omode path => discard (sysOpen p omode path)
  | .sysDup p fd => discard (sysDup p fd)
  | .sysPipe p pi copied => discard (sysPipe p pi copied)
  | .sysClose p fd => discard (sysClose p fd)
  | .kfork p copied => discard (kfork p copied)
  | .kexit p => kexit p
  | .kwait p => setSlot p .unused

/-- A call is made by a live process. The page that `kalloc` returns is not in use. -/
def enabled (s : State) : Event → Bool
  | .sysOpen p _ _ | .sysDup p _ | .sysClose p _ | .kfork p _ | .kexit p =>
    p < nproc ∧ s.slot p = .live
  | .sysPipe p pi _ => p < nproc ∧ s.slot p = .live ∧ ∀ a ∈ pi, s.pipes a = none
  | .kwait p => s.slot p = .zombie

/-- Make a call. Nothing runs after a panic. -/
def step (s : State) (e : Event) : Option State :=
  if enabled s e then
    match (call e).run s with
    | .ok _ s' => some s'
    | .error _ _ => none
  else none

/-- The system when init starts: it is the only process and has no open file. -/
def booted : State where
  file _ := {}
  slot p := if p = 0 then .live else .unused
  ofile _ := none
  pipes _ := none
  taken := 0
  puts := []
  made := 0
  freed := []
  reuses := []

/-- The states between the calls of any run. -/
def Reachable (s : State) : Prop := Transition.Reach (· = booted) step Transition.Any s

end Files

end Xv6
