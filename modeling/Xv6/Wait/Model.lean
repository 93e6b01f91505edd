import Mathlib.Data.Int.Notation
import Xv6.Logic.Locks
import Xv6.Logic.Transition
import Xv6.Machine.State

/-!
# Exit and wait

`kfork`, `kexit` with `reparent`, `kwait` and `kkill` of `kernel/proc.c`, with the `allocproc`,
`freeproc`, `sleep` and `wakeup` they call, at the level of locks: every `acquire` of `wait_lock` or
of a `p->lock` is a step, and every `release` is a step together with what was done to the process
table since the step before. The scans of the process table are loops, one slot after the other.

The context switch is modelled as far as locks see it. A process that leaves the processor has taken
its own lock and changed its state, and the lock is released by the scheduler of the processor it
leaves; the scheduler takes the lock of a `RUNNABLE` process and the process releases it. Any number
of processes may be `RUNNING`. A process can be preempted wherever it holds no lock, and outside the
four calls it may sleep on other channels. All other code of the kernel (`Owner.other`) may take any
lock for a while, and wakes those who sleep on other channels.

What memory allows (`allocproc`, `uvmcopy`) and whether `copyout` succeeds is an argument of the
step. `births`, `exits` and `reports` record which processes were made, which exited with which
status, and what successful calls of `kwait` returned; `inc` tells the processes that have had the
same slot, and perhaps the same pid, apart.
-/

namespace Xv6

namespace Wait

/-- The slot of `initproc`. -/
def initproc : ℕ := 0

/-- What a process sleeps on: itself, in `kwait`, or something else. -/
inductive Chan
  | none | proc (p : ℕ) | other
deriving DecidableEq, Repr

/-- A slot of the process table. -/
structure Proc where
  state : ProcState := .unused
  chan : Chan := .none
  killed : Bool := false
  xstate : ℤ := 0
  pid : ℤ := 0
  parent : Option ℕ := none
  inc : ℕ := 0
deriving DecidableEq, Repr

/-- `wait_lock` and the locks of the slots. -/
inductive Lk
  | wait | proc (p : ℕ)
deriving DecidableEq, Repr

inductive Owner
  | proc (p : ℕ) | other
deriving DecidableEq, Repr

/-- The two calls of `wakeup` in `kexit`. -/
inductive Wakeup
  /-- `wakeup(initproc)` in `reparent`, for slot `i`. -/
  | init (i : ℕ)
  /-- `wakeup(p->parent)`. -/
  | parent
deriving DecidableEq, Repr

/-- Where a process is. -/
inductive Pc
  /-- In none of the calls. -/
  | out
  /-- `kexit`: `acquire(&wait_lock)`. -/
  | exitWait
  /-- At slot `i` of the loop of `reparent`. -/
  | reparent (i : ℕ)
  /-- At slot `j` of the loop of `wakeup`. -/
  | wakeup (k : Wakeup) (j : ℕ)
  /-- With the lock of that slot. -/
  | wakeupHeld (k : Wakeup) (j : ℕ)
  /-- `acquire(&p->lock)`. -/
  | exitLock
  /-- `p->state = ZOMBIE`. -/
  | exitZombie
  /-- `release(&wait_lock)`. -/
  | exitRelease
  /-- `sched()`. -/
  | exitSched
  /-- The process has exited and left the processor. -/
  | gone
  /-- `kwait`: `acquire(&wait_lock)`. -/
  | waitWait
  /-- At slot `i` of the loop. -/
  | scan (i : ℕ) (havekids : Bool)
  /-- With the lock of that slot. -/
  | scanHeld (i : ℕ)
  /-- `release(&wait_lock)` and return. -/
  | waitReturn
  /-- `killed(p)`. -/
  | killed
  | killedHeld
  /-- `sleep(p, &wait_lock)`: `acquire(&p->lock)`. -/
  | sleepLock
  /-- `release(lk)`. -/
  | sleepRelease
  /-- `p->state = SLEEPING`. -/
  | sleepSet
  /-- Off the processor, in the `sched` of `sleep`. -/
  | asleep
  /-- `kfork`: at slot `i` of the loop of `allocproc`. -/
  | allocproc (i : ℕ)
  | allocprocHeld (i : ℕ)
  /-- `acquire(&wait_lock)` for the child in slot `c`. -/
  | forkWait (c : ℕ)
  /-- `np->parent = p`. -/
  | forkParent (c : ℕ)
  /-- `acquire(&np->lock)`. -/
  | forkLock (c : ℕ)
  /-- `np->state = RUNNABLE`. -/
  | forkRunnable (c : ℕ)
  /-- `kkill(pid)`: at slot `i` of the loop. -/
  | kkill (pid : ℤ) (i : ℕ)
  | kkillHeld (pid : ℤ) (i : ℕ)
deriving DecidableEq, Repr

/-- The process and the processor. -/
inductive Sw
  | run
  /-- In `yield`, with its lock. -/
  | yielding
  /-- In a `sleep` outside the four calls, with its lock. -/
  | dozing
  | off
  /-- Chosen by the scheduler, with its lock. -/
  | entering
deriving DecidableEq, Repr

structure Thread where
  pc : Pc := .out
  sw : Sw := .off
  /-- The argument of `kwait` is not 0. -/
  addr : Bool := false
  /-- The argument of `kexit`. -/
  status : ℤ := 0
  /-- What the last call returned. -/
  ret : ℤ := 0
deriving DecidableEq, Repr

/-- A process that has exited. -/
structure Exit where
  inc : ℕ
  pid : ℤ
  status : ℤ
deriving DecidableEq, Repr

/-- What a successful `kwait` returned: the pid, and the status unless `addr` was 0. -/
structure Report where
  inc : ℕ
  pid : ℤ
  status : Option ℤ
deriving DecidableEq, Repr

structure State where
  proc : ℕ → Proc
  thread : ℕ → Thread
  held : Lk → Option Owner
  nextpid : ℤ
  births : List ℤ
  exits : List Exit
  reports : List Report

/-- After `userinit`. -/
def booted : State where
  proc p := if p = initproc then { state := .runnable, pid := 1 } else {}
  thread _ := {}
  held _ := none
  nextpid := 2
  births := [1]
  exits := []
  reports := []

namespace State

variable (s : State) (p : ℕ)

def setProc (q : ℕ) (x : Proc) : State := { s with proc := Function.update s.proc q x }

def setThread (t : Thread) : State := { s with thread := Function.update s.thread p t }

def goto (pc : Pc) : State := s.setThread p { s.thread p with pc := pc }

def setHeld (l : Lk) (o : Option Owner) : State := { s with held := Function.update s.held l o }

/-- `acquire` by process `p`, which is then at `pc`. -/
def acquire (l : Lk) (pc : Pc) : Option State :=
  if s.held l = none then some ((s.goto p pc).setHeld l (some (.proc p))) else none

/-- `release` by process `p`, which is then at `pc`. -/
def release (l : Lk) (pc : Pc) : State := (s.goto p pc).setHeld l none

/-- The return value of the call that `p` is in. -/
def setRet (ret : ℤ) : State := s.setThread p { s.thread p with ret := ret }

end State

open State

/-- `nextpid + 1` as an `int`. -/
def succPid (pid : ℤ) : ℤ := Int.bmod (pid + 1) (2 ^ 32)

/-- The visit of a slot by `wakeup(chan)`. -/
def Proc.wakeup (x : Proc) (chan : Chan) : Proc :=
  if x.state = .sleeping ∧ x.chan = chan then { x with state := .runnable } else x

/-- The visit of its slot by `kkill`. -/
def Proc.kill (x : Proc) : Proc :=
  { x with killed := true, state := if x.state = .sleeping then .runnable else x.state }

/-- What `wakeup` is called with. -/
def Wakeup.chan (parent : Option ℕ) : Wakeup → Chan
  | .init _ => .proc initproc
  | .parent => parent.elim .none .proc

/-- Where the call returns to. -/
def Wakeup.next : Wakeup → Pc
  | .init i => .reparent (i + 1)
  | .parent => .exitLock

/-- `allocproc` and what `kfork` does to the child before it releases its lock; the slot is `UNUSED`,
and `ok` says that there is memory. -/
def forkChild (s : State) (p c : ℕ) (ok : Bool) : State :=
  let pid := s.nextpid
  let s := { s with nextpid := succPid pid }
  if ok then
    let child := { s.proc c with state := .used, pid := pid, inc := s.births.length }
    { (s.setProc c child).setThread c {} with births := s.births ++ [pid] }.release p (.proc c)
      (.forkWait c)
  else ((s.setProc c {}).setRet p (-1)).release p (.proc c) .out

/-- `kwait` with the lock of a child, that is a zombie; `ok` is what `copyout` says. -/
def reap (s : State) (p c : ℕ) (ok : Bool) : State :=
  let x := s.proc c
  if (s.thread p).addr ∧ ¬ok then (s.setRet p (-1)).release p (.proc c) .waitReturn
  else
    { ((s.setProc c {}).setRet p x.pid).release p (.proc c) .waitReturn with
      reports := s.reports ++ [⟨x.inc, x.pid, if (s.thread p).addr then some x.xstate else none⟩] }

/-- `p->state = ZOMBIE`. -/
def becomeZombie (s : State) (p : ℕ) : State :=
  let x := s.proc p
  let status := (s.thread p).status
  { (s.setProc p { x with xstate := status, state := .zombie }).goto p .exitRelease with
    exits := s.exits ++ [⟨x.inc, x.pid, status⟩] }

/-- The next step of process `p` in one of the calls. -/
def turn (s : State) (p : ℕ) (ok : Bool) : Option State :=
  match (s.thread p).pc with
  | .out | .gone | .asleep => none
  -- kexit
  | .exitWait => s.acquire p .wait (.reparent 0)
  | .reparent i =>
    if i < nproc then
      if (s.proc i).parent = some p then
        some ((s.setProc i { s.proc i with parent := some initproc }).goto p (.wakeup (.init i) 0))
      else some (s.goto p (.reparent (i + 1)))
    else some (s.goto p (.wakeup .parent 0))
  | .wakeup k j =>
    if j < nproc then
      if j = p then some (s.goto p (.wakeup k (j + 1)))
      else s.acquire p (.proc j) (.wakeupHeld k j)
    else some (s.goto p k.next)
  | .wakeupHeld k j =>
    some ((s.setProc j ((s.proc j).wakeup (k.chan (s.proc p).parent))).release p (.proc j)
      (.wakeup k (j + 1)))
  | .exitLock => s.acquire p (.proc p) .exitZombie
  | .exitZombie => some (becomeZombie s p)
  | .exitRelease => some (s.release p .wait .exitSched)
  | .exitSched =>
    some ((s.setThread p { s.thread p with sw := .off }).release p (.proc p) .gone)
  -- kwait
  | .waitWait => s.acquire p .wait (.scan 0 false)
  | .scan i havekids =>
    if i < nproc then
      if (s.proc i).parent = some p then s.acquire p (.proc i) (.scanHeld i)
      else some (s.goto p (.scan (i + 1) havekids))
    else if havekids then some (s.goto p .killed)
    else some ((s.setRet p (-1)).goto p .waitReturn)
  | .scanHeld i =>
    if (s.proc i).state = .zombie then some (reap s p i ok)
    else some (s.release p (.proc i) (.scan (i + 1) true))
  | .waitReturn => some (s.release p .wait .out)
  | .killed => s.acquire p (.proc p) .killedHeld
  | .killedHeld =>
    if (s.proc p).killed then some ((s.setRet p (-1)).release p (.proc p) .waitReturn)
    else some (s.release p (.proc p) .sleepLock)
  | .sleepLock => s.acquire p (.proc p) .sleepRelease
  | .sleepRelease => some (s.release p .wait .sleepSet)
  | .sleepSet =>
    some (((s.setProc p { s.proc p with chan := .proc p, state := .sleeping }).setThread p
      { s.thread p with sw := .off }).release p (.proc p) .asleep)
  -- kfork
  | .allocproc i =>
    if i < nproc then s.acquire p (.proc i) (.allocprocHeld i)
    else some ((s.setRet p (-1)).goto p .out)
  | .allocprocHeld i =>
    if (s.proc i).state = .unused then some (forkChild s p i ok)
    else some (s.release p (.proc i) (.allocproc (i + 1)))
  | .forkWait c => s.acquire p .wait (.forkParent c)
  | .forkParent c =>
    some ((s.setProc c { s.proc c with parent := some p }).release p .wait (.forkLock c))
  | .forkLock c => s.acquire p (.proc c) (.forkRunnable c)
  | .forkRunnable c =>
    some (((s.setProc c { s.proc c with state := .runnable }).setRet p (s.proc c).pid).release p
      (.proc c) .out)
  -- kkill
  | .kkill pid i =>
    if i < nproc then s.acquire p (.proc i) (.kkillHeld pid i)
    else some ((s.setRet p (-1)).goto p .out)
  | .kkillHeld pid i =>
    if (s.proc i).pid = pid then
      some (((s.setProc i (s.proc i).kill).setRet p 0).release p (.proc i) .out)
    else some (s.release p (.proc i) (.kkill pid (i + 1)))

/-- The locks that a process relies on in the calls. -/
def Pc.locks (p : ℕ) : Pc → List Lk
  | .reparent _ | .wakeup _ _ | .exitLock | .scan _ _ | .waitReturn | .killed | .sleepLock
  | .forkParent _ => [.wait]
  | .wakeupHeld _ j => [.wait, .proc j]
  | .scanHeld i => [.wait, .proc i]
  | .exitZombie | .exitRelease | .killedHeld | .sleepRelease => [.wait, .proc p]
  | .exitSched | .sleepSet => [.proc p]
  | .allocprocHeld i | .kkillHeld _ i => [.proc i]
  | .forkRunnable c => [.proc c]
  | _ => []

/-- What happens next. -/
inductive Event
  | kexit (p : ℕ) (status : ℤ)
  | kwait (p : ℕ) (addr : Bool)
  | kfork (p : ℕ)
  | kkill (p : ℕ) (pid : ℤ)
  | turn (p : ℕ) (ok : Bool)
  /-- `yield`: `acquire(&p->lock)`. -/
  | yield (p : ℕ)
  /-- `sleep` on another channel: `acquire(&p->lock)`. -/
  | doze (p : ℕ)
  /-- The rest of `yield` or of that `sleep`, up to the release by the scheduler. -/
  | leave (p : ℕ)
  /-- The scheduler takes the lock of `p` and switches to it. -/
  | dispatch (p : ℕ)
  /-- The process goes on and releases its lock. -/
  | resume (p : ℕ)
  /-- Other code takes a lock, wakes a process, or releases a lock. -/
  | lock (l : Lk)
  | rouse (p : ℕ)
  | unlock (l : Lk)
deriving DecidableEq, Repr

/-- The process can make a system call. -/
def Thread.idle (t : Thread) : Prop := t.sw = .run ∧ t.pc = .out

instance (t : Thread) : Decidable t.idle := inferInstanceAs (Decidable (_ ∧ _))

/-- `acquire(&p->lock)` before the process leaves the processor. -/
def lockSelf (s : State) (p : ℕ) (sw : Sw) : Option State :=
  if s.held (.proc p) = none then
    some ((s.setThread p { s.thread p with sw := sw }).setHeld (.proc p) (some (.proc p)))
  else none

/-- The change of state of a process that leaves the processor. -/
def Proc.leave (x : Proc) : Sw → Option Proc
  | .yielding => some { x with state := .runnable }
  | .dozing => some { x with state := .sleeping, chan := .other }
  | _ => none

/-- After the switch: the rest of `sleep` resets the channel. Elsewhere it is reset already. -/
def Thread.resume (t : Thread) : Thread :=
  { t with sw := .run, pc := if t.pc = .asleep then .waitWait else t.pc }

/-- One step; `none` if the event cannot happen. -/
def step (s : State) : Event → Option State
  | .kexit p status =>
    -- for init it is a panic
    if (s.thread p).idle ∧ p ≠ initproc then
      some (s.setThread p { s.thread p with pc := .exitWait, status := status })
    else none
  | .kwait p addr =>
    if (s.thread p).idle then
      some (s.setThread p { s.thread p with pc := .waitWait, addr := addr })
    else none
  | .kfork p => if (s.thread p).idle then some (s.goto p (.allocproc 0)) else none
  | .kkill p pid => if (s.thread p).idle then some (s.goto p (.kkill pid 0)) else none
  | .turn p ok => if (s.thread p).sw = .run then Wait.turn s p ok else none
  | .yield p =>
    if (s.thread p).sw = .run ∧ (s.thread p).pc.locks p = [] then lockSelf s p .yielding else none
  | .doze p => if (s.thread p).idle then lockSelf s p .dozing else none
  | .leave p =>
    ((s.proc p).leave (s.thread p).sw).map fun x =>
      ((s.setProc p x).setThread p { s.thread p with sw := .off }).setHeld (.proc p) none
  | .dispatch p =>
    if (s.proc p).state = .runnable then
      lockSelf (s.setProc p { s.proc p with state := .running }) p .entering
    else none
  | .resume p =>
    if (s.thread p).sw = .entering then
      some (((s.setProc p { s.proc p with chan := .none }).setThread p
        (s.thread p).resume).setHeld (.proc p) none)
    else none
  | .lock l => if s.held l = none then some (s.setHeld l (some .other)) else none
  | .rouse p =>
    if s.held (.proc p) = some .other then some (s.setProc p ((s.proc p).wakeup .other)) else none
  | .unlock l => if s.held l = some .other then some (s.setHeld l none) else none

/-- The locks that a process relies on. -/
def Thread.locks (p : ℕ) (t : Thread) : List Lk :=
  match t.sw with
  | .run | .off => t.pc.locks p
  | .yielding | .dozing | .entering => .proc p :: t.pc.locks p

end Wait

end Xv6
