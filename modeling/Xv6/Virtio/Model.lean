import Mathlib.Data.Nat.Notation
import Xv6.Logic.Fifo
import Xv6.Logic.Transition

/-!
# The disk driver

`virtio_disk_rw` and `virtio_disk_intr` of `kernel/virtio_disk.c`, with the device at the other end
of the two rings and the sleep-locks under which `kernel/bio.c` calls the driver.

The driver's code runs under `disk.vdisk_lock`, but the device does not take it. So a call is cut
where the device can tell the difference: between filling the descriptors, writing the entry of the
available ring and moving its index, and at each turn of a loop. A process in one of the two
`sleep`s may go on as soon as the lock is free. That covers every wakeup, those of `kkill` included.

The device is the one of the virtio specification: it takes the entries of the available ring in
order, works on the requests it has taken in any order, follows the chain of descriptors to find
the request, the buffer and the byte for the status, and posts one entry of the used ring for each.

Fields that are not in the source record what has happened. An entry of a ring carries the number
of the request it is for.
-/

namespace Xv6

namespace Virtio

/-- `NUM`. -/
def num : ℕ := 8

/-- The indices of the rings are of type `uint16`. -/
def uint16 : ℕ := 2 ^ 16

/-- `VRING_DESC_F_NEXT`. -/
def flagNext : ℕ := 1

/-- `VRING_DESC_F_WRITE`. -/
def flagWrite : ℕ := 2

/-- What the address of a descriptor points to. -/
inductive Addr
  | null
  /-- `&disk.ops[i]` -/
  | ops (i : ℕ)
  /-- `b->data` -/
  | data (b : ℕ)
  /-- `&disk.info[i].status` -/
  | status (i : ℕ)
deriving DecidableEq, Repr

/-- `struct virtq_desc`. -/
structure Desc where
  addr : Addr := .null
  len : ℕ := 0
  flags : ℕ := 0
  next : ℕ := 0
deriving DecidableEq, Repr

/-- `struct virtio_blk_req`: `type` is `VIRTIO_BLK_T_OUT` if `out` holds and `VIRTIO_BLK_T_IN`
otherwise. -/
structure BlkReq where
  out : Bool := false
  sector : ℕ := 0
deriving DecidableEq, Repr

/-- An entry of `disk.info`. -/
structure Info where
  b : Option ℕ := none
  status : ℕ := 0
deriving DecidableEq, Repr

/-- An entry of a ring: the head of a chain, and the request it is for. -/
structure Cell where
  id : ℕ := 0
  req : ℕ := 0
deriving DecidableEq, Repr

/-- The array `idx` of `virtio_disk_rw`. -/
structure Idx where
  fst : ℕ := 0
  snd : ℕ := 0
  thd : ℕ := 0
deriving DecidableEq, Repr

def Idx.toList (idx : Idx) : List ℕ := [idx.fst, idx.snd, idx.thd]

/-- Where a process is in `virtio_disk_rw`. -/
inductive Pc
  | out
  /-- Waiting for the lock to go to the first loop: at the start, or in the `sleep` of the loop. -/
  | enter
  /-- At the first loop. -/
  | alloc
  /-- About to format the descriptors. -/
  | format
  /-- About to write the entry of the available ring. -/
  | ring
  /-- About to move the index of the available ring. -/
  | publish
  /-- At the second loop. -/
  | wait
  /-- In the `sleep` of the second loop. -/
  | asleep
deriving DecidableEq, Repr

/-- The places where the process holds `disk.vdisk_lock`. -/
def Pc.locked : Pc → Bool
  | .alloc | .format | .ring | .publish | .wait => true
  | .out | .enter | .asleep => false

/-- The places where the process has a chain of descriptors. -/
def Pc.chained : Pc → Bool
  | .format | .ring | .publish | .wait | .asleep => true
  | .out | .enter | .alloc => false

/-- The places where the process's descriptors are formatted. -/
def Pc.formatted : Pc → Bool
  | .ring | .publish | .wait | .asleep => true
  | .out | .enter | .alloc | .format => false

/-- The places where the process's request has been made known to the device. -/
def Pc.published : Pc → Bool
  | .wait | .asleep => true
  | .out | .enter | .alloc | .format | .ring | .publish => false

structure Thread where
  pc : Pc := .out
  b : ℕ := 0
  write : Bool := false
  idx : Idx := {}
  /-- The number of the request. -/
  req : ℕ := 0
deriving DecidableEq, Repr

/-- The entry of the available ring for the process's request. -/
def Thread.cell (t : Thread) : Cell := ⟨t.idx.fst, t.req⟩

/-- Who holds `disk.vdisk_lock`. -/
inductive Owner
  | proc (p : ℕ)
  /-- `virtio_disk_intr` -/
  | intr
deriving DecidableEq, Repr

/-- A request as `virtio_disk_rw` was asked for it. -/
structure Request where
  b : ℕ
  op : BlkReq
deriving DecidableEq, Repr

structure State where
  free : ℕ → Bool
  desc : ℕ → Desc
  ops : ℕ → BlkReq
  info : ℕ → Info
  /-- `disk.avail->ring` -/
  availRing : ℕ → Cell
  /-- `disk.avail->idx` -/
  availIdx : ℕ
  /-- `disk.used->ring` -/
  usedRing : ℕ → Cell
  /-- `disk.used->idx` -/
  usedRingIdx : ℕ
  /-- `disk.used_idx` -/
  usedIdx : ℕ
  /-- How far the device has read the available ring. -/
  lastAvail : ℕ
  /-- The requests that the device has taken and not begun to answer. -/
  taken : List Cell
  /-- The requests whose status the device has written. -/
  answered : List Cell
  /-- `disk.vdisk_lock` -/
  lock : Option Owner
  /-- `b->disk` -/
  disk : ℕ → Bool
  blockno : ℕ → ℕ
  /-- Who holds the sleep-lock `b->lock`. -/
  holder : ℕ → Option ℕ
  thread : ℕ → Thread
  panicked : Bool
  /-- The requests made, in order. -/
  requests : List Request
  /-- The entries put into the available ring. -/
  published : List Cell
  /-- The entries the device has taken from it. -/
  fetched : List Cell
  /-- What the device has carried out: for which request, which operation, on which buffer. -/
  served : List (ℕ × BlkReq × Addr)
  /-- The entries the device has put into the used ring. -/
  posted : List Cell
  /-- The entries `virtio_disk_intr` has read there, with the buffers it completed. -/
  completed : List (Cell × ℕ)
  /-- The requests whose calls have returned. -/
  returned : List ℕ

def State.setThread (s : State) (p : ℕ) (t : Thread) : State :=
  { s with thread := Function.update s.thread p t }

def State.goto (s : State) (p : ℕ) (pc : Pc) : State :=
  s.setThread p { s.thread p with pc }

/-- After `virtio_disk_init`. The rings are cleared and all descriptors are free; the buffers are
in no call. -/
def booted (blockno : ℕ → ℕ) : State where
  free _ := true
  desc _ := {}
  ops _ := {}
  info _ := {}
  availRing _ := {}
  availIdx := 0
  usedRing _ := {}
  usedRingIdx := 0
  usedIdx := 0
  lastAvail := 0
  taken := []
  answered := []
  lock := none
  disk _ := false
  blockno := blockno
  holder _ := none
  thread _ := {}
  panicked := false
  requests := []
  published := []
  fetched := []
  served := []
  posted := []
  completed := []
  returned := []

/-- `panic` when there is no result. -/
def State.orPanic (s : State) (r : Option State) : State :=
  r.getD { s with panicked := true }

/-! ### Descriptors -/

/-- `alloc_desc`. -/
def allocDesc (s : State) : Option (ℕ × State) :=
  ((List.range num).find? s.free).map fun i =>
    (i, { s with free := Function.update s.free i false })

/-- `free_desc`, with no result for its two panics. -/
def freeDesc (s : State) (i : ℕ) : Option State :=
  if num ≤ i then none
  else if s.free i then none
  else some { s with
    desc := Function.update s.desc i {}
    free := Function.update s.free i true }

/-- `free_chain`. Each turn frees a descriptor that was not free or panics, so there are at most
`num` turns before one that panics. -/
def freeChain (s : State) (i : ℕ) : (turns : ℕ) → Option State
  | 0 => none
  | turns + 1 =>
    let flag := (s.desc i).flags
    let nxt := (s.desc i).next
    (freeDesc s i).bind fun s => if flag &&& flagNext ≠ 0 then freeChain s nxt turns else some s

/-- `alloc3_desc`, with no result if it panics. -/
def alloc3Desc (s : State) : Option (Option Idx × State) :=
  match allocDesc s with
  | none => some (none, s)
  | some (i, s₁) =>
    match allocDesc s₁ with
    | none => (freeDesc s₁ i).map fun s => (none, s)
    | some (j, s₂) =>
      match allocDesc s₂ with
      | none => ((freeDesc s₂ i).bind fun s => freeDesc s j).map fun s => (none, s)
      | some (k, s₃) => some (some ⟨i, j, k⟩, s₃)

/-! ### `virtio_disk_rw` -/

/-- The operation that `virtio_disk_rw(b, write)` asks for. -/
def State.blkReq (s : State) (b : ℕ) (write : Bool) : BlkReq :=
  ⟨write, s.blockno b * 2 % 2 ^ 32⟩

/-- Format the three descriptors, and record the buffer for `virtio_disk_intr`. -/
def format (s : State) (p : ℕ) : State :=
  let t := s.thread p
  let s' : State := { s with
    ops := Function.update s.ops t.idx.fst (s.blkReq t.b t.write)
    desc := Function.update (Function.update (Function.update s.desc
      t.idx.fst ⟨.ops t.idx.fst, 16, flagNext, t.idx.snd⟩)
      t.idx.snd ⟨.data t.b, 1024, (if t.write then 0 else flagWrite) ||| flagNext, t.idx.thd⟩)
      t.idx.thd ⟨.status t.idx.fst, 1, flagWrite, 0⟩
    info := Function.update s.info t.idx.fst ⟨some t.b, 0xff⟩
    disk := Function.update s.disk t.b true
    requests := s.requests ++ [⟨t.b, s.blkReq t.b t.write⟩] }
  s'.setThread p { t with pc := .ring, req := s.requests.length }

/-- What `virtio_disk_rw` does after its second loop. -/
def finish (s : State) (p : ℕ) : Option State :=
  let t := s.thread p
  let s := { s with
    info := Function.update s.info t.idx.fst { s.info t.idx.fst with b := none } }
  (freeChain s t.idx.fst (num + 1)).map fun s =>
    { s with lock := none, returned := s.returned ++ [t.req] }.goto p .out

/-- The next piece of `virtio_disk_rw`. -/
def turn (s : State) (p : ℕ) : Option State :=
  let t := s.thread p
  match t.pc with
  | .out => none
  | .enter => if s.lock = none then some ({ s with lock := some (.proc p) }.goto p .alloc) else none
  | .alloc =>
    match alloc3Desc s with
    | none => some { s with panicked := true }
    | some (none, s) => some ({ s with lock := none }.goto p .enter)
    | some (some idx, s) => some (s.setThread p { t with pc := .format, idx })
  | .format => some (format s p)
  | .ring => some ({ s with
      availRing := Function.update s.availRing (s.availIdx % num) t.cell }.goto p .publish)
  | .publish => some ({ s with
      availIdx := (s.availIdx + 1) % uint16
      published := s.published ++ [t.cell] }.goto p .wait)
  | .wait =>
    if s.disk t.b then some ({ s with lock := none }.goto p .asleep)
    else some (s.orPanic (finish s p))
  | .asleep => if s.lock = none then some ({ s with lock := some (.proc p) }.goto p .wait) else none

/-! ### The device and the interrupt -/

/-- The device takes the next entry of the available ring. -/
def take (s : State) : Option State :=
  if s.lastAvail = s.availIdx then none
  else
    let c := s.availRing (s.lastAvail % num)
    some { s with
      lastAvail := (s.lastAvail + 1) % uint16
      taken := s.taken ++ [c]
      fetched := s.fetched ++ [c] }

/-- Write the status byte, if that is what the address points to. -/
def setStatus (info : ℕ → Info) : Addr → ℕ → Info
  | .status i => Function.update info i { info i with status := 0 }
  | _ => info

/-- What the device finds at the address of a request. -/
def State.opAt (s : State) : Addr → BlkReq
  | .ops i => s.ops i
  | _ => {}

/-- The device carries out a request it has taken and writes its status. -/
def answer (s : State) (c : Cell) : Option State :=
  if c ∈ s.taken then
    let d₀ := s.desc c.id
    let d₁ := s.desc d₀.next
    let d₂ := s.desc d₁.next
    some { s with
      info := setStatus s.info d₂.addr
      taken := s.taken.erase c
      answered := c :: s.answered
      served := s.served ++ [(c.req, s.opAt d₀.addr, d₁.addr)] }
  else none

/-- The device posts the entry of a request it has answered. -/
def post (s : State) (c : Cell) : Option State :=
  if c ∈ s.answered then
    some { s with
      answered := s.answered.erase c
      usedRing := Function.update s.usedRing (s.usedRingIdx % num) c
      usedRingIdx := (s.usedRingIdx + 1) % uint16
      posted := s.posted ++ [c] }
  else none

/-- A turn of the loop of `virtio_disk_intr`, or its end. -/
def intrTurn (s : State) : State :=
  if s.usedIdx = s.usedRingIdx then { s with lock := none }
  else
    let c := s.usedRing (s.usedIdx % num)
    if (s.info c.id).status ≠ 0 then { s with panicked := true }
    else
      match (s.info c.id).b with
      -- the write through the null pointer faults in the kernel
      | none => { s with panicked := true }
      | some b => { s with
          disk := Function.update s.disk b false
          usedIdx := (s.usedIdx + 1) % uint16
          completed := s.completed ++ [(c, b)] }

/-! ### The system -/

inductive Event
  /-- `bget` gives the process the locked buffer `b`, which may stand for another block now. -/
  | bget (p b blockno : ℕ)
  /-- `brelse` -/
  | brelse (p b : ℕ)
  /-- `bread` or `bwrite` calls `virtio_disk_rw(b, write)`. -/
  | rw (p b : ℕ) (write : Bool)
  | turn (p : ℕ)
  | take
  | answer (c : Cell)
  | post (c : Cell)
  /-- `virtio_disk_intr` gets the lock. -/
  | intr
  | intrTurn
deriving DecidableEq, Repr

/-- One step of a process, of the device or of the interrupt handler. Nothing runs after a panic. -/
def step (s : State) (e : Event) : Option State :=
  if s.panicked then none
  else
    match e with
    | .bget p b n =>
      if (s.thread p).pc = .out ∧ s.holder b = none then
        some { s with
          holder := Function.update s.holder b (some p)
          blockno := Function.update s.blockno b n }
      else none
    | .brelse p b =>
      if (s.thread p).pc = .out ∧ s.holder b = some p then
        some { s with holder := Function.update s.holder b none }
      else none
    | .rw p b write =>
      if (s.thread p).pc = .out ∧ s.holder b = some p then
        some (s.setThread p { s.thread p with pc := .enter, b, write })
      else none
    | .turn p => turn s p
    | .take => take s
    | .answer c => answer s c
    | .post c => post s c
    | .intr => if s.lock = none then some { s with lock := some .intr } else none
    | .intrTurn => if s.lock = some .intr then some (intrTurn s) else none

end Virtio

end Xv6
