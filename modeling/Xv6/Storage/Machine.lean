import Xv6.Storage.Bio

/-!
# The log over the buffer cache

`kernel/log.c` as a machine. Processes act on buffers and run operations between `begin_op`
and `end_op`; the process that ends the last operation of a group runs `commit`, and after a
crash one process runs `recover_from_log`. The statements of both are steps of their own: each
section of `bget` and `brelse`, each wait for a sleep lock and each write of a block to the
disk. Other processes come in between any two of them, and the machine can crash there.

The fields below `-- history` of the state are written and never read. They record the groups
whose commit has begun since the last recovery, each as the list of its calls of `log_write`.
-/

namespace Xv6

namespace Storage

/-- The superblock's `logstart`: the block of the log header. -/
def logstart : ℕ := 2

/-! ### The header block -/

/-- A word of a block. -/
def word (d : Block) (i : ℕ) : ℕ := if h : i < 256 then d ⟨i, h⟩ else 0

/-- The block after `write_head` has stored the header in it: `n`, then the block numbers. -/
def putHead (d : Block) (l : List ℕ) : Block := fun i =>
  if i.val = 0 then l.length
  else if i.val - 1 < l.length then l.getD (i.val - 1) 0 else d i

/-- The header that `read_head` finds in a block. -/
def getHead (d : Block) : List ℕ := (List.range (word d 0)).map fun i => word d (i + 1)

/-! ### Commit and recovery -/

/-- The statements of `commit` and `recover_from_log`, with their buffers named by block. -/
inductive Instr
  | bget (blk : ℕ)
  | lock (blk : ℕ)
  /-- `memmove(dst->data, src->data, BSIZE)`. -/
  | copy (dst src : ℕ)
  /-- Store the header in the buffer of the header block. -/
  | putHead
  /-- Read the header from the buffer of the header block. -/
  | getHead
  | bwrite (blk : ℕ)
  | bunpin (blk : ℕ)
  | unlock (blk : ℕ)
  | brelse (blk : ℕ)
deriving DecidableEq, Repr

/-- Where `commit` or `recover_from_log` is; `tail` is the variable of the two loops. -/
inductive Stage
  | readHead
  | writeLog (tail : ℕ)
  | writeHead
  | install (tail : ℕ)
  | eraseHead
  | finish
deriving DecidableEq, Repr

/-- The process that commits or recovers: its stage, and what is left of the stage. -/
structure Thread where
  pid : ℕ
  recovering : Bool
  stage : Stage
  code : List Instr
deriving DecidableEq, Repr

/-- `write_head`. -/
def headCode : List Instr :=
  [.bget logstart, .lock logstart, .putHead, .bwrite logstart, .unlock logstart,
    .brelse logstart]

/-- The statements of one stage, for the header `block`. A stage of a loop is one turn of it. -/
def stageCode (block : List ℕ) (recovering : Bool) : Stage → List Instr
  | .readHead =>
    [.bget logstart, .lock logstart, .getHead, .unlock logstart, .brelse logstart]
  | .writeLog tail =>
    let dst := logstart + tail + 1
    let src := block.getD tail 0
    [.bget dst, .lock dst, .bget src, .lock src, .copy dst src, .bwrite dst,
      .unlock src, .brelse src, .unlock dst, .brelse dst]
  | .writeHead => headCode
  | .install tail =>
    let lbuf := logstart + tail + 1
    let dbuf := block.getD tail 0
    [.bget lbuf, .lock lbuf, .bget dbuf, .lock dbuf, .copy dbuf lbuf, .bwrite dbuf] ++
      (if recovering then [] else [.bunpin dbuf]) ++
      [.unlock lbuf, .brelse lbuf, .unlock dbuf, .brelse dbuf]
  | .eraseHead => headCode
  | .finish => []

/-- The next turn of the loop of `install_trans`, or what follows it. -/
def installFrom (block : List ℕ) (tail : ℕ) : Stage :=
  if tail < block.length then .install tail else .eraseHead

/-- The stage that comes after one. -/
def Stage.next (block : List ℕ) : Stage → Stage
  | .readHead => installFrom block 0
  | .writeLog tail => if tail + 1 < block.length then .writeLog (tail + 1) else .writeHead
  | .writeHead => installFrom block 0
  | .install tail => installFrom block (tail + 1)
  | .eraseHead => .finish
  | .finish => .finish

/-- A thread at the start of a stage. -/
def Thread.enter (t : Thread) (block : List ℕ) (stage : Stage) : Thread :=
  { t with stage := stage, code := stageCode block t.recovering stage }

/-- The process at the start of `commit`, which does nothing for an empty log. -/
def commitThread (pid : ℕ) (block : List ℕ) : Thread :=
  Thread.enter ⟨pid, false, .finish, []⟩ block (if 0 < block.length then .writeLog 0 else .finish)

/-- The process at the start of `recover_from_log`. -/
def recoverThread (pid : ℕ) : Thread := Thread.enter ⟨pid, true, .finish, []⟩ [] .readHead

/-! ### States and steps -/

/-- A call of `log_write`: the operation, the block and its bytes. -/
structure Write where
  op : ℕ
  blk : ℕ
  data : Block

structure State where
  io : Bio
  log : Log
  /-- The running operations, each as its process and its number. -/
  ops : List (ℕ × ℕ)
  nextOp : ℕ
  /-- The process in `commit` or `recover_from_log`. -/
  thread : Option Thread
  /-- Recovery has finished. -/
  up : Bool
  -- history
  /-- The disk after the last recovery. -/
  base : ℕ → Block
  /-- The groups whose commit has begun since then. -/
  groups : List (List Write)
  /-- How many of these commits have returned. -/
  returned : ℕ
  /-- The calls of `log_write` of the group that is being built. -/
  current : List Write
  /-- The operations that have called `end_op`. -/
  ended : List ℕ

def State.act (s : State) (p : ℕ) (a : Act) : Option State :=
  (s.io.act p a).map fun io => { s with io := io }

/-- The data of the buffer that process `p` holds for a block. -/
def State.held (s : State) (p blk : ℕ) : Option Block :=
  (s.io.ref p blk .holding).map fun r => (s.io.cache.buf r.buf).data

/-- What a statement of process `p` does to a buffer. -/
def Instr.act (s : State) (p : ℕ) : Instr → Option Act
  | .bget blk => some (.bget blk)
  | .lock blk => some (.lock blk)
  | .copy dst src => (s.held p src).map fun d => .store dst d
  | .putHead => (s.held p logstart).map fun d => .store logstart (Storage.putHead d s.log.block)
  | .getHead => none
  | .bwrite blk => some (.bwrite blk)
  | .bunpin blk => some (.bunpin blk)
  | .unlock blk => some (.unlock blk)
  | .brelse blk => some (.brelse blk)

/-- One statement of the committing or recovering process `p`. A header with more than
`LOGBLOCKS` entries would be copied over the end of `log.lh.block`, which is not modelled. -/
def exec (s : State) (p : ℕ) : Instr → Option State
  | .getHead => do
    let d ← s.held p logstart
    guard ((getHead d).length ≤ logblocks)
    return { s with log := { s.log with block := getHead d } }
  | i => do
    let a ← i.act s p
    s.act p a

/-- The thread goes to its next stage. The header is emptied in memory before it is erased on
the disk. -/
def advance (s : State) (t : Thread) : State :=
  let next := t.stage.next s.log.block
  let s := if next = .eraseHead then { s with log := { s.log with block := [] } } else s
  { s with
    thread := some (t.enter s.log.block next)
    returned := if next = .finish ∧ t.recovering = false then s.returned + 1 else s.returned }

/-- The thread is done: the last section of `end_op`, or the end of `initlog`. -/
def finish (s : State) (t : Thread) : State :=
  if t.recovering then
    { s with
      thread := none
      up := true
      base := s.io.disk
      groups := []
      returned := 0 }
  else { s with thread := none, log := { s.log with committing := false } }

/-- The next statement of the thread. -/
def threadStep (s : State) (t : Thread) : Option State :=
  match t.code with
  | i :: code => (exec s t.pid i).map fun s => { s with thread := some { t with code := code } }
  | [] => if t.stage = .finish then some (finish s t) else some (advance s t)

/-- `log_write` of process `p`, which runs operation `op`. -/
def logWrite (s : State) (p blk op : ℕ) : Option State := do
  let r ← s.io.ref p blk .holding
  let x := s.io.cache.buf r.buf
  match s.log.logWrite x.blockno with
  | .error _ => none
  | .ok (l, pin) =>
    let s ← s.act p (.logWrite blk pin)
    return { s with log := l, current := s.current ++ [⟨op, blk, x.data⟩] }

/-- `end_op` of process `p`, which runs operation `op`, up to the call of `commit`. -/
def endOp (s : State) (p op : ℕ) : Option State :=
  match s.log.endOp with
  | .error _ => none
  | .ok (l, last) =>
    let s := { s with log := l, ops := s.ops.erase (p, op), ended := op :: s.ended }
    if last then
      some { s with
        thread := some (commitThread p l.block)
        groups := s.groups ++ [s.current]
        returned := if l.block = [] then s.returned + 1 else s.returned
        current := [] }
    else some s

/-- A crash leaves the disk. Process `p` recovers. -/
def crash (s : State) (p : ℕ) : State :=
  { s with
    io := Bio.boot s.io.disk
    log := {}
    ops := []
    thread := some (recoverThread p)
    up := false
    current := [] }

/-- An action that is not a part of `log_write` or of `install_trans`. -/
def Act.plain : Act → Bool
  | .logWrite _ _ | .bunpin _ => false
  | _ => true

/-- The events: what a process does, the next statement of the thread, and a crash. -/
inductive Event
  | act (p : ℕ) (a : Act)
  | logWrite (p blk op : ℕ)
  | beginOp (p : ℕ)
  | endOp (p op : ℕ)
  | thread
  | crash (p : ℕ)

/-- Process `p` runs, and not in `commit`. -/
def State.client (s : State) (p : ℕ) : Bool := s.up && s.thread.all fun t => t.pid != p

/-- One step; `none` if the event waits, panics or cannot happen. -/
def step (s : State) : Event → Option State
  | .act p a => do
    guard (s.client p ∧ a.plain)
    s.act p a
  | .logWrite p blk op => do
    guard (s.client p ∧ (p, op) ∈ s.ops)
    logWrite s p blk op
  | .beginOp p => do
    guard (s.client p)
    let l ← s.log.beginOp
    return { s with log := l, ops := (p, s.nextOp) :: s.ops, nextOp := s.nextOp + 1 }
  | .endOp p op => do
    guard (s.client p ∧ (p, op) ∈ s.ops)
    endOp s p op
  | .thread => do
    let t ← s.thread
    threadStep s t
  | .crash p => some (crash s p)

/-- The machine after a boot from a disk whose log is empty. -/
def boot (disk : ℕ → Block) : State where
  io := Bio.boot disk
  log := {}
  ops := []
  nextOp := 0
  thread := none
  up := true
  base := disk
  groups := []
  returned := 0
  current := []
  ended := []

/-- The start states. -/
def Booted (s : State) : Prop := ∃ disk : ℕ → Block, getHead (disk logstart) = [] ∧ s = boot disk

end Storage

end Xv6
