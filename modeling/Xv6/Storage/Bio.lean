import Xv6.Logic.Linked
import Xv6.Storage.Log

/-!
# The buffer cache

`kernel/bio.c` over a disk. Any number of processes get, lock, change, write, log and release
buffers. An action is a section under `bcache.lock` or something the holder of a buffer does:
`bread` is the section of `bget` followed by the acquisition of the sleep lock, and `brelse` is
the release of that lock followed by its section, so that other processes come in between.

A `Ref` is a buffer pointer in a local variable of a process, together with the number of the
block it was obtained for. `content`, `changed` and `pins` are written and never read: what was
last stored in each block, who has stored in a block without logging or writing it since, and
which blocks the log has pinned.

A block is its 256 words of 32 bits, taken as natural numbers. The one device is `ROOTDEV`.
-/

namespace Xv6

namespace Storage

open Linked

/-! ### Buffers -/

/-- `ROOTDEV`. -/
def rootdev : ℕ := 1

/-- `NBUF`. -/
def nbuf : ℕ := maxopblocks * 3

/-- The words of a block. -/
abbrev Block := Fin 256 → ℕ

/-- `struct buf`, without its place in the list and its sleep lock. -/
structure Buf where
  valid : Bool := false
  dev : ℕ := 0
  blockno : ℕ := 0
  refcnt : ℕ := 0
  data : Block := fun _ => 0

/-- `bcache`: the buffers, and the list through them. Node `nbuf` is `bcache.head`. -/
structure Cache where
  buf : ℕ → Buf
  links : Links ℕ

/-- The list when `binit` has inserted its first `n` buffers. -/
def binitLinks : ℕ → Links ℕ
  | 0 => ⟨fun _ => nbuf, fun _ => nbuf⟩
  | n + 1 => (binitLinks n).pushFront nbuf n

/-- `binit`. -/
def binit : Cache := ⟨fun _ => {}, binitLinks nbuf⟩

/-- The buffer that caches a block, searched along `next`. -/
def Cache.lookup (c : Cache) (dev blockno : ℕ) : Option ℕ :=
  search c.links.next nbuf (fun b => (c.buf b).dev == dev && (c.buf b).blockno == blockno)
    (nbuf + 1) (c.links.next nbuf)

/-- The least recently used buffer without references, searched along `prev`. -/
def Cache.unused (c : Cache) : Option ℕ :=
  search c.links.prev nbuf (fun b => (c.buf b).refcnt == 0) (nbuf + 1) (c.links.prev nbuf)

def Cache.setBuf (c : Cache) (b : ℕ) (x : Buf) : Cache :=
  { c with buf := Function.update c.buf b x }

/-- The section of `bget`; `none` for the panic "bget: no buffers". -/
def Cache.bget (c : Cache) (dev blockno : ℕ) : Option (Cache × ℕ) :=
  match c.lookup dev blockno with
  | some b => some (c.setBuf b { c.buf b with refcnt := (c.buf b).refcnt + 1 }, b)
  | none =>
    match c.unused with
    | some b => some (c.setBuf b
        { c.buf b with dev := dev, blockno := blockno, valid := false, refcnt := 1 }, b)
    | none => none

/-- What `bread` does once it has the lock: read the block unless the buffer is valid. -/
def Cache.load (c : Cache) (disk : ℕ → Block) (b : ℕ) : Cache :=
  if (c.buf b).valid then c
  else c.setBuf b { c.buf b with data := disk (c.buf b).blockno, valid := true }

/-- The section of `brelse`. -/
def Cache.brelse (c : Cache) (b : ℕ) : Cache :=
  let c := c.setBuf b { c.buf b with refcnt := (c.buf b).refcnt - 1 }
  if (c.buf b).refcnt = 0 then { c with links := (c.links.unlink b).pushFront nbuf b } else c

/-- `bpin`. -/
def Cache.bpin (c : Cache) (b : ℕ) : Cache :=
  c.setBuf b { c.buf b with refcnt := (c.buf b).refcnt + 1 }

/-- `bunpin`. -/
def Cache.bunpin (c : Cache) (b : ℕ) : Cache :=
  c.setBuf b { c.buf b with refcnt := (c.buf b).refcnt - 1 }

/-! ### Actions of processes -/

/-- How far a process is with a buffer: `bget` has chosen it, the process has its sleep lock, or
it has released that and the section of `brelse` is still to come. -/
inductive Phase
  | waiting | holding | dropping
deriving DecidableEq, Repr

/-- A pointer of process `pid` to buffer `buf`, obtained for block `blk`. -/
structure Ref where
  pid : ℕ
  blk : ℕ
  buf : ℕ
  phase : Phase
deriving DecidableEq, Repr

/-- The disk, the cache, and the pointers that processes have into it. -/
structure Bio where
  disk : ℕ → Block
  cache : Cache
  refs : List Ref
  -- history
  content : ℕ → Block
  changed : List (ℕ × ℕ)
  pins : List ℕ

namespace Bio

/-- The pointer of process `p` for block `blk` in the given phase. -/
def ref (s : Bio) (p blk : ℕ) (phase : Phase) : Option Ref :=
  s.refs.find? fun r => r.pid == p && r.blk == blk && r.phase == phase

/-- Some process has the sleep lock of buffer `b`. -/
def locked (s : Bio) (b : ℕ) : Bool := s.refs.any fun r => r.buf == b && r.phase == .holding

def setPhase (s : Bio) (r : Ref) (phase : Phase) : Bio :=
  { s with refs := { r with phase := phase } :: s.refs.erase r }

/-- The section of `bget`. -/
def bget (s : Bio) (p blk : ℕ) : Option Bio :=
  (s.cache.bget rootdev blk).map fun (c, b) =>
    { s with cache := c, refs := ⟨p, blk, b, .waiting⟩ :: s.refs }

/-- The rest of `bread`: take the sleep lock and read the block if need be. Nobody else writes
the block in between, for that takes the same lock. -/
def lock (s : Bio) (p blk : ℕ) : Option Bio := do
  let r ← s.ref p blk .waiting
  guard (!s.locked r.buf)
  return { s.setPhase r .holding with cache := s.cache.load s.disk r.buf }

/-- The holder stores in the buffer. -/
def store (s : Bio) (p blk : ℕ) (d : Block) : Option Bio := do
  let r ← s.ref p blk .holding
  return { s with
    cache := s.cache.setBuf r.buf { s.cache.buf r.buf with data := d }
    content := Function.update s.content blk d
    changed := (p, blk) :: s.changed }

/-- `bwrite`. -/
def bwrite (s : Bio) (p blk : ℕ) : Option Bio := do
  let r ← s.ref p blk .holding
  let x := s.cache.buf r.buf
  return { s with
    disk := Function.update s.disk x.blockno x.data
    changed := s.changed.filter (· ≠ (p, blk)) }

/-- What `log_write` does to the buffer, once the log has said whether to pin it. -/
def logWrite (s : Bio) (p blk : ℕ) (pin : Bool) : Option Bio := do
  let r ← s.ref p blk .holding
  return { s with
    cache := if pin then s.cache.bpin r.buf else s.cache
    pins := if pin then s.pins ++ [blk] else s.pins
    changed := s.changed.filter (· ≠ (p, blk)) }

/-- `bunpin`, which `install_trans` calls with the buffer locked. -/
def bunpin (s : Bio) (p blk : ℕ) : Option Bio := do
  let r ← s.ref p blk .holding
  return { s with cache := s.cache.bunpin r.buf, pins := s.pins.erase blk }

/-- The release of the sleep lock in `brelse`. -/
def unlock (s : Bio) (p blk : ℕ) : Option Bio := do
  let r ← s.ref p blk .holding
  return s.setPhase r .dropping

/-- The section of `brelse`. -/
def brelse (s : Bio) (p blk : ℕ) : Option Bio := do
  let r ← s.ref p blk .dropping
  return { s with cache := s.cache.brelse r.buf, refs := s.refs.erase r }

end Bio

/-- An action of a process on the buffer of a block. -/
inductive Act
  | bget (blk : ℕ)
  | lock (blk : ℕ)
  | store (blk : ℕ) (d : Block)
  | bwrite (blk : ℕ)
  | logWrite (blk : ℕ) (pin : Bool)
  | bunpin (blk : ℕ)
  | unlock (blk : ℕ)
  | brelse (blk : ℕ)

/-- One action of process `p`; `none` if it waits, panics or cannot happen. -/
def Bio.act (s : Bio) (p : ℕ) : Act → Option Bio
  | .bget blk => s.bget p blk
  | .lock blk => s.lock p blk
  | .store blk d => s.store p blk d
  | .bwrite blk => s.bwrite p blk
  | .logWrite blk pin => s.logWrite p blk pin
  | .bunpin blk => s.bunpin p blk
  | .unlock blk => s.unlock p blk
  | .brelse blk => s.brelse p blk

/-- The cache after a boot. -/
def Bio.boot (disk : ℕ → Block) : Bio where
  disk := disk
  cache := binit
  refs := []
  content := disk
  changed := []
  pins := []

/-! ### Small facts -/

/-- Buffer `i` caches block `blk`. -/
def Cache.Caches (c : Cache) (i blk : ℕ) : Prop :=
  (c.buf i).dev = rootdev ∧ (c.buf i).blockno = blk

instance (c : Cache) (i blk : ℕ) : Decidable (c.Caches i blk) :=
  inferInstanceAs (Decidable (_ ∧ _))

@[simp] theorem Cache.setBuf_buf (c : Cache) (b : ℕ) (x : Buf) (i : ℕ) :
    (c.setBuf b x).buf i = if i = b then x else c.buf i := by
  simp [Cache.setBuf, Function.update_apply]

theorem Cache.brelse_buf (c : Cache) (b : ℕ) :
    (c.brelse b).buf = (c.setBuf b { c.buf b with refcnt := (c.buf b).refcnt - 1 }).buf := by
  simp only [Cache.brelse]
  split <;> rfl

theorem Cache.load_buf (c : Cache) (disk : ℕ → Block) (b i : ℕ) : (c.load disk b).buf i =
    if i = b ∧ (c.buf b).valid = false then
      { c.buf b with data := disk (c.buf b).blockno, valid := true } else c.buf i := by
  unfold Cache.load
  split
  · rename_i hv
    simp [hv]
  · rename_i hv
    simp [hv]

theorem Cache.load_links (c : Cache) (disk : ℕ → Block) (b : ℕ) :
    (c.load disk b).links = c.links := by
  unfold Cache.load
  split <;> rfl

/-- Process `p` has the sleep lock of the buffer of a block. -/
def Bio.Holds (s : Bio) (p blk : ℕ) : Prop :=
  ∃ r ∈ s.refs, r.pid = p ∧ r.blk = blk ∧ r.phase = .holding

theorem Bio.ref_eq_some {s : Bio} {p blk : ℕ} {phase : Phase} {r : Ref}
    (h : s.ref p blk phase = some r) :
    r ∈ s.refs ∧ r.pid = p ∧ r.blk = blk ∧ r.phase = phase := by
  have hr := List.find?_some h
  simp only [Bool.and_eq_true, beq_iff_eq] at hr
  exact ⟨List.mem_of_find?_eq_some h, hr.1.1, hr.1.2, hr.2⟩

theorem Bio.locked_eq_false {s : Bio} {b : ℕ} (h : s.locked b = false) :
    ∀ r ∈ s.refs, r.buf = b → r.phase ≠ .holding := by
  intro r hr hb hp
  have hl : s.locked b = true := List.any_eq_true.mpr ⟨r, hr, by simp [hb, hp]⟩
  rw [h] at hl
  cases hl

/-- Taking one element out of a count. -/
theorem countP_take_out {α : Type*} [DecidableEq α] {l : List α} {a : α} (h : a ∈ l)
    (p : α → Bool) : (l.erase a).countP p + (if p a then 1 else 0) = l.countP p := by
  rw [(List.perm_cons_erase h).countP_eq p, List.countP_cons]

end Storage

end Xv6
