import Xv6.Logic.Transition
import Xv6.Machine.State

/-!
# The multilevel feedback queue

The scheduling code of `kernel/proc.c`: the queues with `push_proc` and `pop_proc`, the loop
`SC_MLFQ` of each CPU with its boost every 128 ticks, `event_tick`, `sleep`, `wakeup`,
`kkill`, and the parts of `userinit`, `kfork`, `kexit` and `kwait` that change the state of a
process.

Each section of code that runs under a `p->lock`, or under a queue's lock alone, is one step,
and the sections of all CPUs interleave freely. A CPU in `SC_MLFQ` is between two sections at
one of the points of `Pc`; in particular it may hold an entry that it popped before it takes
the lock of the process. The loops of `wakeup`, `kkill`, `allocproc` and `kwait` over the
process table take one lock at a time, so each visit of a process is a step of its own and
the visits may come in any order. `wakeup` is also called by interrupt handlers, so any CPU
can make its visits.

Processes are named by their index in the table; only the fields of `struct proc` that these
functions use are kept.
-/

namespace Xv6

namespace Sched

/-- `LEVELS`. -/
def levels : ℕ := 4

/-- `ticks_max`, as `qinit` fills it. -/
def ticksMax : ℕ → ℤ
  | 0 => 2
  | i + 1 => ticksMax i * 2

/-- The fields of `struct proc` that scheduling uses; a null channel is 0. -/
structure Task where
  state : ProcState := .unused
  chan : ℕ := 0
  killed : Bool := false
  pid : ℕ := 0
  sysCount : ℤ := 0
  pticks : ℤ := 0
  qticks : ℕ → ℤ := fun _ => 0
  tsched : ℤ := 0
  dSysCount : ℤ := 0
  qlevel : ℕ := 0
  parent : Option ℕ := none

/-- Where a CPU is in the loop of `SC_MLFQ`. -/
inductive Pc
  /-- At the top of the loop. -/
  | top
  /-- In the boost, about to empty queue `i`. -/
  | clear (i : ℕ)
  /-- In the boost, about to visit process `j`. -/
  | refill (j : ℕ)
  /-- About to look at queue `i`. -/
  | scan (i : ℕ)
  /-- Has popped `p` from queue `i` and is about to take its lock. -/
  | popped (i p : ℕ)
  /-- In `swtch`, the CPU running a process. -/
  | running
deriving DecidableEq, Repr

/-- `struct cpu`: `c->proc`, and where its scheduler is. -/
structure Cpu where
  proc : Option ℕ := none
  pc : Pc := .top
deriving DecidableEq, Repr

/-- The state of the scheduler. -/
structure State where
  proc : ℕ → Task
  /-- `pqueue[i].qproc[0 .. tail)`. -/
  queue : ℕ → List ℕ
  cpu : ℕ → Cpu
  ticks : ℕ
  lastMod128 : ℕ
  nextpid : ℕ
  initproc : ℕ
  /-- The child a process has allocated in `kfork` and not started yet. -/
  child : ℕ → Option ℕ

/-- The state `procinit` and `qinit` leave, with every CPU in its scheduler. -/
def boot : State where
  proc _ := {}
  queue _ := []
  cpu _ := {}
  ticks := 0
  lastMod128 := 0
  nextpid := 1
  initproc := 0
  child _ := none

/-! ### Updates -/

def State.setTask (s : State) (p : ℕ) (t : Task) : State :=
  { s with proc := Function.update s.proc p t }

def State.setQueue (s : State) (i : ℕ) (l : List ℕ) : State :=
  { s with queue := Function.update s.queue i l }

def State.setCpu (s : State) (c : ℕ) (u : Cpu) : State :=
  { s with cpu := Function.update s.cpu c u }

def State.setChild (s : State) (p : ℕ) (np : Option ℕ) : State :=
  { s with child := Function.update s.child p np }

/-- Move CPU `c` on in its scheduler. -/
def State.setPc (s : State) (c : ℕ) (pc : Pc) : State := s.setCpu c { s.cpu c with pc := pc }

/-- The process on CPU `c` has switched to the scheduler, which goes back to the top. -/
def State.leave (s : State) (c : ℕ) : State := s.setCpu c {}

/-! ### Queues -/

/-- `push_proc`: a full queue drops the process. -/
def pushProc (s : State) (p : ℕ) : State :=
  let level := (s.proc p).qlevel
  if (s.queue level).length < nproc then s.setQueue level (s.queue level ++ [p]) else s

/-- `pop_proc`. -/
def popProc (s : State) (level : ℕ) : State := s.setQueue level (s.queue level).tail

/-! ### `SC_MLFQ` -/

/-- The boost's visit of process `j`. -/
def boostProc (s : State) (j : ℕ) : State :=
  let t := s.proc j
  if t.state ≠ .unused ∧ t.state ≠ .zombie ∧ t.state ≠ .sleeping then
    let s := s.setTask j { t with qlevel := 0, pticks := 0, dSysCount := t.sysCount }
    if (s.queue 0).length < nproc then s.setQueue 0 (s.queue 0 ++ [j]) else s
  else s

/-- The boost is due. Only CPU 0 makes it. -/
def State.boostDue (s : State) (c : ℕ) : Bool :=
  c == 0 && decide (0 < s.ticks) && s.ticks % 128 == 0 && s.ticks != s.lastMod128

/-- After queue `i` the loop looks at the next, or goes back to the top. -/
def nextLevel (i : ℕ) : Pc := if i + 1 < levels then .scan (i + 1) else .top

/-- Switch to process `p`. One that comes out of `sleep` clears its channel before it gives up
its lock; the channel of the others is null already. -/
def dispatch (s : State) (c p : ℕ) : State :=
  let t := s.proc p
  (s.setTask p { t with state := .running, tsched := t.tsched + 1, chan := 0 }).setCpu c
    ⟨some p, .running⟩

/-- The next section of CPU `c`'s loop in `SC_MLFQ`. -/
def scMlfq (s : State) (c : ℕ) : Option State :=
  match (s.cpu c).pc with
  | .top =>
    if s.boostDue c then some ({ s with lastMod128 := s.ticks }.setPc c (.clear 0))
    else some (s.setPc c (.scan 0))
  | .clear i =>
    some ((s.setQueue i []).setPc c (if i + 1 < levels then .clear (i + 1) else .refill 0))
  | .refill j =>
    some ((boostProc s j).setPc c (if j + 1 < nproc then .refill (j + 1) else .scan 0))
  | .scan i =>
    match s.queue i with
    | p :: _ => some ((popProc s i).setPc c (.popped i p))
    | [] => some (s.setPc c (nextLevel i))
  | .popped i p =>
    if (s.proc p).state = .runnable then some (dispatch s c p)
    else some (s.setPc c (nextLevel i))
  | .running => none

/-! ### Sections of processes and interrupts -/

/-- The process's fields after the accounting of `event_tick`, and whether it should yield. -/
def tickTask (s : State) (t : Task) : Task × Bool :=
  let ptick := t.pticks + 1
  let level := t.qlevel
  let t := { t with
    pticks := ptick
    qticks := Function.update t.qticks level (t.qticks level + 1) }
  let deltaS := t.sysCount - t.dSysCount
  if ticksMax level ≤ ptick then
    ({ t with
      pticks := 0
      dSysCount := t.sysCount
      qlevel := if deltaS < ptick ∧ level < levels - 1 then level + 1 else level }, true)
  else (t, (List.range level).any fun i => !(s.queue i).isEmpty)

/-- `event_tick` for the process on CPU `c`. -/
def eventTick (s : State) (c p : ℕ) : State :=
  let (t, shouldYield) := tickTask s (s.proc p)
  if shouldYield then (pushProc (s.setTask p { t with state := .runnable }) p).leave c
  else s.setTask p t

/-- The section of `sleep` up to the switch. -/
def sleep (s : State) (c p chan : ℕ) : State :=
  (s.setTask p { s.proc p with chan := chan, state := .sleeping }).leave c

/-- The visit of process `j` by `wakeup`. -/
def wakeup (s : State) (chan j : ℕ) : State :=
  if (s.proc j).state = .sleeping ∧ (s.proc j).chan = chan then
    pushProc (s.setTask j { s.proc j with state := .runnable }) j
  else s

/-- The visit of process `j` by `kkill`. -/
def kkill (s : State) (pid j : ℕ) : State :=
  if (s.proc j).pid = pid then
    s.setTask j { s.proc j with
      killed := true
      state := if (s.proc j).state = .sleeping then .runnable else (s.proc j).state }
  else s

/-- What `freeproc` does to the fields kept here. -/
def Task.free (t : Task) : Task :=
  { t with state := .unused, chan := 0, killed := false, pid := 0, parent := none }

/-- What `allocproc` initialises once it has its pages. -/
def Task.fresh (t : Task) (pid : ℕ) : Task :=
  { t with
    pid := pid
    state := .used
    sysCount := 0
    qlevel := 0
    pticks := 0
    qticks := fun _ => 0
    tsched := 0
    dSysCount := 0 }

/-- How far the memory lasts in `kfork`. -/
inductive Supply
  /-- Not for the trapframe or the page table. -/
  | none
  /-- Not for the copy of the parent's memory. -/
  | table
  /-- For all of it. -/
  | full
deriving DecidableEq, Repr

/-- The section of `kfork` of process `p` in which `allocproc` takes slot `j` and the memory
is copied. -/
def forkAlloc (s : State) (p j : ℕ) (mem : Supply) : State :=
  let t := s.proc j
  let s := { s with nextpid := s.nextpid + 1 }
  match mem with
  | .none => s.setTask j { t with pid := s.nextpid - 1, state := .used }.free
  | .table => s.setTask j (t.fresh (s.nextpid - 1)).free
  | .full => (s.setTask j (t.fresh (s.nextpid - 1))).setChild p (some j)

/-- The last section of `kfork`: start the child. -/
def forkStart (s : State) (p np : ℕ) : State :=
  (pushProc (s.setTask np { s.proc np with state := .runnable }) np).setChild p none

/-- `userinit`, which finds slot 0 free. -/
def userinit (s : State) : State :=
  let s := { s with nextpid := s.nextpid + 1, initproc := 0 }
  let s := s.setTask 0 { (s.proc 0).fresh (s.nextpid - 1) with state := .runnable }
  pushProc s 0

/-! ### Steps -/

/-- What happens next: a section of a CPU's scheduler, or a section of the code run by the
process on a CPU, by an interrupt handler or at boot. -/
inductive Event
  | userinit
  | mlfq (c : ℕ)
  | clockintr
  | eventTick (c : ℕ)
  | syscall (c : ℕ)
  | sleep (c chan : ℕ)
  | wakeup (c chan j : ℕ)
  | kkill (c pid j : ℕ)
  | forkAlloc (c j : ℕ) (mem : Supply)
  | forkParent (c : ℕ)
  | forkStart (c : ℕ)
  | reparent (c j : ℕ)
  | exit (c : ℕ)
  | reap (c j : ℕ)
deriving DecidableEq, Repr

/-- A process that is not in the middle of `kfork`. -/
def State.free (s : State) (p : ℕ) : Bool := (s.child p).isNone

/-- One step; `none` if the event cannot happen. -/
def step (s : State) : Event → Option State
  | .userinit =>
    if (List.range nproc).all fun p => (s.proc p).state = .unused then some (Sched.userinit s)
    else none
  | .mlfq c => scMlfq s c
  | .clockintr => some { s with ticks := (s.ticks + 1) % 2 ^ 32 }
  | .eventTick c => do
    let p ← (s.cpu c).proc
    return Sched.eventTick s c p
  | .syscall c => do
    let p ← (s.cpu c).proc
    return s.setTask p { s.proc p with sysCount := (s.proc p).sysCount + 1 }
  | .sleep c chan => do
    let p ← (s.cpu c).proc
    guard (s.free p)
    return Sched.sleep s c p chan
  | .wakeup c chan j => do
    guard ((s.cpu c).proc ≠ some j ∧ j < nproc)
    return Sched.wakeup s chan j
  | .kkill c pid j => do
    let _ ← (s.cpu c).proc
    guard (j < nproc)
    return Sched.kkill s pid j
  | .forkAlloc c j mem => do
    let p ← (s.cpu c).proc
    guard (s.free p ∧ j < nproc ∧ (s.proc j).state = .unused)
    return Sched.forkAlloc s p j mem
  | .forkParent c => do
    let p ← (s.cpu c).proc
    let np ← s.child p
    return s.setTask np { s.proc np with parent := some p }
  | .forkStart c => do
    let p ← (s.cpu c).proc
    let np ← s.child p
    return Sched.forkStart s p np
  | .reparent c j => do
    let p ← (s.cpu c).proc
    guard ((s.proc j).parent = some p)
    return s.setTask j { s.proc j with parent := some s.initproc }
  | .exit c => do
    let p ← (s.cpu c).proc
    guard (s.free p ∧ p ≠ s.initproc)
    return (s.setTask p { s.proc p with state := .zombie }).leave c
  | .reap c j => do
    let p ← (s.cpu c).proc
    guard (s.free p ∧ (s.proc j).parent = some p ∧ (s.proc j).state = .zombie)
    return s.setTask j (s.proc j).free

end Sched

end Xv6
