import Mathlib.Data.Int.Notation
import Xv6.Logic.Fifo
import Xv6.Logic.Transition
import Xv6.Machine.State

/-!
# Pipes

`pipewrite`, `piperead` and `pipeclose` of `kernel/pipe.c` for one pipe, with the `sleep`, `wakeup`
and `kkill` of `kernel/proc.c` as far as they concern it.

A process in one of the calls either holds the pipe's lock, and is then at the head of a loop, or is
inside `sleep`. Each turn of a loop is a step, so a `kkill`, which does not take the pipe's lock,
can fall between any two bytes. `sleep` gives the lock up and makes the process `SLEEPING` in one
step, for nobody can see the process in between without its `p->lock`; `wakeup` is one step because
nobody can begin to sleep on the pipe while the caller holds its lock.

Whether a byte can be copied from or to user memory is an argument of the step that does it.
`accepted` and `delivered` record the bytes that went in and out.
-/

namespace Xv6

namespace Pipes

/-- `PIPESIZE`. -/
def pipesize : ℕ := 512

/-- The counters are of type `uint`. -/
def uint : ℕ := 2 ^ 32

/-- The two channels of a pipe. -/
inductive Chan
  | nread | nwrite
deriving DecidableEq, Repr

/-- Where a process is. -/
inductive Pc
  | out
  /-- At the loop of `pipewrite(pi, addr, n)` with `i` bytes written, holding the lock. -/
  | write (i n : ℤ)
  /-- In the `sleep` of that loop. -/
  | writeSleep (i n : ℤ)
  /-- At the first loop of `piperead(pi, addr, n)`, holding the lock. -/
  | wait (n : ℤ)
  /-- In the `sleep` of that loop. -/
  | waitSleep (n : ℤ)
  /-- At the second loop with `i` bytes read, holding the lock. -/
  | read (i n : ℤ)
deriving DecidableEq, Repr

structure Proc where
  state : ProcState := .running
  chan : Option Chan := none
  killed : Bool := false
  pc : Pc := .out
  /-- What the last call returned. -/
  ret : ℤ := 0
deriving DecidableEq, Repr

structure State where
  data : ℕ → UInt8
  nread : ℕ
  nwrite : ℕ
  readopen : Bool
  writeopen : Bool
  /-- The process that holds `pi->lock`. -/
  lock : Option ℕ
  proc : ℕ → Proc
  accepted : List UInt8
  delivered : List UInt8

/-- A pipe that `pipealloc` has made: nobody is in a call, and some processes may already be
killed. -/
structure Fresh (s : State) : Prop where
  nread : s.nread = 0
  nwrite : s.nwrite = 0
  readopen : s.readopen = true
  writeopen : s.writeopen = true
  lock : s.lock = none
  proc : ∀ p, (s.proc p).pc = .out ∧ (s.proc p).state = .running ∧ (s.proc p).chan = none
  accepted : s.accepted = []
  delivered : s.delivered = []

/-- A pipe that `pipealloc` has just made, in a page of zeros. -/
def made : State where
  data _ := 0
  nread := 0
  nwrite := 0
  readopen := true
  writeopen := true
  lock := none
  proc _ := {}
  accepted := []
  delivered := []

theorem fresh_made : Fresh made := ⟨rfl, rfl, rfl, rfl, rfl, fun _ => ⟨rfl, rfl, rfl⟩, rfl, rfl⟩

namespace State

def setProc (s : State) (p : ℕ) (x : Proc) : State := { s with proc := Function.update s.proc p x }

/-- Stay in a call, at `pc`. -/
def goto (s : State) (p : ℕ) (pc : Pc) : State := s.setProc p { s.proc p with pc := pc }

/-- `acquire(&pi->lock)`, the next thing being at `pc`. -/
def acquire (s : State) (p : ℕ) (pc : Pc) : State := { s.goto p pc with lock := some p }

/-- `release(&pi->lock)` and return. -/
def leave (s : State) (p : ℕ) (ret : ℤ) : State :=
  { s.setProc p { s.proc p with pc := .out, ret := ret } with lock := none }

/-- `sleep(chan, &pi->lock)` up to the switch. -/
def sleep (s : State) (p : ℕ) (chan : Chan) (pc : Pc) : State :=
  { s.setProc p { s.proc p with pc := pc, chan := some chan, state := .sleeping } with lock := none }

/-- `wakeup(chan)`. -/
def wakeup (s : State) (chan : Chan) : State :=
  { s with proc := fun p =>
      if (s.proc p).state = .sleeping ∧ (s.proc p).chan = some chan then
        { s.proc p with state := .runnable }
      else s.proc p }

/-- `pi->data[pi->nwrite++ % PIPESIZE] = ch`. -/
def put (s : State) (ch : UInt8) : State :=
  { s with
    data := Function.update s.data (s.nwrite % pipesize) ch
    nwrite := (s.nwrite + 1) % uint
    accepted := s.accepted ++ [ch] }

/-- The next byte to be read. -/
def next (s : State) : UInt8 := s.data (s.nread % pipesize)

/-- `ch = pi->data[pi->nread % PIPESIZE]`, and `pi->nread++`. -/
def take (s : State) : State :=
  { s with nread := (s.nread + 1) % uint, delivered := s.delivered ++ [s.next] }

/-- The bytes that have not been read. -/
def pending (s : State) : List UInt8 := Fifo.contents pipesize uint s.data s.nread s.nwrite

end State

open State

/-- One turn of the loop of `pipewrite`, or what follows it; `copyin` is the byte, unless it cannot
be read. -/
def writeTurn (s : State) (p : ℕ) (i n : ℤ) (copyin : Option UInt8) : State :=
  if i < n then
    if s.readopen = false ∨ (s.proc p).killed then s.leave p (-1)
    else if s.nwrite = (s.nread + pipesize) % uint then
      (s.wakeup .nread).sleep p .nwrite (.writeSleep i n)
    else
      match copyin with
      | none => (s.wakeup .nread).leave p i
      | some ch => (s.put ch).goto p (.write (i + 1) n)
  else (s.wakeup .nread).leave p i

/-- One turn of the first loop of `piperead`. -/
def waitTurn (s : State) (p : ℕ) (n : ℤ) : State :=
  if s.nread = s.nwrite ∧ s.writeopen then
    if (s.proc p).killed then s.leave p (-1)
    else s.sleep p .nread (.waitSleep n)
  else s.goto p (.read 0 n)

/-- One turn of the second loop of `piperead`, or what follows it; `copyout` says whether the byte
can be written. -/
def readTurn (s : State) (p : ℕ) (i n : ℤ) (copyout : Bool) : State :=
  if i < n then
    if s.nread = s.nwrite then (s.wakeup .nwrite).leave p i
    else if copyout then s.take.goto p (.read (i + 1) n)
    else (s.wakeup .nwrite).leave p (if i = 0 then -1 else i)
  else (s.wakeup .nwrite).leave p i

/-- `pipeclose`. -/
def pipeclose (s : State) (writable : Bool) : State :=
  if writable then { s with writeopen := false }.wakeup .nread
  else { s with readopen := false }.wakeup .nwrite

/-- The visit of process `p` by `kkill`. -/
def kkill (s : State) (p : ℕ) : State :=
  s.setProc p { s.proc p with
    killed := true
    state := if (s.proc p).state = .sleeping then .runnable else (s.proc p).state }

/-- What happens next. -/
inductive Event
  | pipewrite (p : ℕ) (n : ℤ)
  | piperead (p : ℕ) (n : ℤ)
  | writeTurn (p : ℕ) (copyin : Option UInt8)
  | waitTurn (p : ℕ)
  | readTurn (p : ℕ) (copyout : Bool)
  /-- The end of `sleep`, for a process that has been woken. -/
  | resume (p : ℕ)
  | pipeclose (p : ℕ) (writable : Bool)
  | kkill (p : ℕ)
deriving DecidableEq, Repr

/-- Both ends are closed, and the page is freed. -/
def State.freed (s : State) : Bool := !s.readopen && !s.writeopen

/-- A process can take the lock. -/
def State.canAcquire (s : State) : Bool := s.lock.isNone && !s.freed

/-- The process after `sleep`. -/
def Proc.wake (x : Proc) : Proc := { x with state := .running, chan := none }

/-- One step; `none` if the event cannot happen. -/
def step (s : State) : Event → Option State
  | .pipewrite p n =>
    if (s.proc p).pc = .out ∧ s.canAcquire then some (s.acquire p (.write 0 n)) else none
  | .piperead p n =>
    if (s.proc p).pc = .out ∧ s.canAcquire then some (s.acquire p (.wait n)) else none
  | .writeTurn p copyin =>
    match (s.proc p).pc with
    | .write i n => some (Pipes.writeTurn s p i n copyin)
    | _ => none
  | .waitTurn p =>
    match (s.proc p).pc with
    | .wait n => some (Pipes.waitTurn s p n)
    | _ => none
  | .readTurn p copyout =>
    match (s.proc p).pc with
    | .read i n => some (Pipes.readTurn s p i n copyout)
    | _ => none
  | .resume p =>
    if (s.proc p).state = .runnable ∧ s.canAcquire then
      let s := s.setProc p (s.proc p).wake
      match (s.proc p).pc with
      | .writeSleep i n => some (s.acquire p (.write i n))
      | .waitSleep n => some (s.acquire p (.wait n))
      | _ => none
    else none
  | .pipeclose p writable =>
    if (s.proc p).pc = .out ∧ s.canAcquire ∧ (if writable then s.writeopen else s.readopen) then
      some (Pipes.pipeclose s writable)
    else none
  | .kkill p => some (Pipes.kkill s p)

end Pipes

end Xv6
