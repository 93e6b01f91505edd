import Xv6.Logic.Wp
import Xv6.Machine.Riscv

/-!
# The kernel state

The state splits in two. `Memory` is what the allocator, the swap code and the page-table
code change: physical pages, the free list, the frame table, the swap mask and the page
tables. `World` is everything else the memory code reads or hands pages to: the process
table, open files and pipes, and the locals of a `kexec` in progress. Code that only moves
pages between frames and swap leaves `World` alone, and most specifications say so in one
equation.

A user page table is a three-level radix tree. `PageTable` indexes its nodes by the part of
the virtual page number that leads to them: `mid i` is the page holding the level-1 table
under root entry `i`, `low j` the page holding the level-0 table for the 512 virtual pages
`512 * j, …`, and `leaf v` the leaf entry of virtual page `v`. A `pagetable_t` is the
physical address of the root page.

Kernel functions are computations in `K`: they return a value or stop with a `Panic`, and
pass the machine along. The machine carries, besides the kernel state, the history of the
calls whose circumstances the invariants talk about; the history is written and never read.
-/

namespace Xv6

/-! ### Memory -/

/-- The bytes of one physical page. -/
abbrev Page := Fin pgsize → UInt8

/-- A page filled with one byte, as `memset(p, c, PGSIZE)` leaves it. -/
def Page.fill (c : UInt8) : Page := fun _ => c

/-- The `n` bytes of a page from offset `off`. -/
def Page.read (pg : Page) (off n : ℕ) : List UInt8 :=
  (List.range n).map fun j => if h : off + j < pgsize then pg ⟨off + j, h⟩ else 0

/-- A page with `bs` stored from offset `off`. -/
def Page.write (pg : Page) (off : ℕ) (bs : List UInt8) : Page := fun i =>
  if off ≤ i.val ∧ i.val < off + bs.length then bs.getD (i.val - off) 0 else pg i

/-- `struct frame`: one entry of the frame table. -/
structure Frame where
  isUsed : Bool
  p : Option ℕ
  va : ℕ
  rb : Bool
deriving DecidableEq, Repr

/-- The entry of a frame that holds no user page. -/
def Frame.clear : Frame := ⟨false, none, 0, false⟩

/-- A user page table, its nodes indexed by the path that leads to them. A level-0 table
hangs below a level-1 table, and an entry can only be nonzero in a table that exists. -/
structure PageTable where
  mid : ℕ → Option ℕ
  low : ℕ → Option ℕ
  leaf : ℕ → Pte
  mid_lt : ∀ i, (mid i).isSome → i < 512
  mid_of_low : ∀ j, (low j).isSome → (mid (j / 512)).isSome
  low_of_leaf : ∀ v, leaf v ≠ 0 → (low (v / 512)).isSome

namespace PageTable

/-- A root page just cleared by `uvmcreate`. -/
def empty : PageTable where
  mid _ := none
  low _ := none
  leaf _ := 0
  mid_lt _ h := absurd h (by simp)
  mid_of_low _ h := absurd h (by simp)
  low_of_leaf _ h := absurd rfl h

/-- Store a leaf entry. There is a place to store it only if its level-0 table exists. -/
def setLeaf (t : PageTable) (v : ℕ) (e : Pte) : PageTable :=
  if h : (t.low (v / 512)).isSome then
    { t with
      leaf := Function.update t.leaf v e
      low_of_leaf := fun u hu => by
        by_cases huv : u = v
        · exact huv ▸ h
        · exact t.low_of_leaf u (by simpa [huv] using hu) }
  else t

/-- Hang the cleared page `pg` below root entry `i`. -/
def addMid (t : PageTable) (i pg : ℕ) : PageTable :=
  if h : i < 512 then
    { mid := Function.update t.mid i (some pg)
      low := fun j => if j / 512 = i then none else t.low j
      leaf := fun u => if u / 512 / 512 = i then 0 else t.leaf u
      mid_lt := fun x hx => by
        by_cases hxi : x = i
        · exact hxi ▸ h
        · exact t.mid_lt x (by simpa [hxi] using hx)
      mid_of_low := fun j hj => by
        by_cases hji : j / 512 = i
        · simp [hji]
        · simpa [hji] using t.mid_of_low j (by simpa [hji] using hj)
      low_of_leaf := fun u hu => by
        by_cases hui : u / 512 / 512 = i
        · simp [hui] at hu
        · simpa [hui] using t.low_of_leaf u (by simpa [hui] using hu) }
  else t

/-- Hang the cleared page `pg` below the level-1 entry that leads to virtual pages
`512 * j, …`, if that level-1 table exists. -/
def addLow (t : PageTable) (j pg : ℕ) : PageTable :=
  if h : (t.mid (j / 512)).isSome then
    { t with
      low := Function.update t.low j (some pg)
      leaf := fun u => if u / 512 = j then 0 else t.leaf u
      mid_of_low := fun x hx => by
        by_cases hxj : x = j
        · exact hxj ▸ h
        · exact t.mid_of_low x (by simpa [hxj] using hx)
      low_of_leaf := fun u hu => by
        by_cases huj : u / 512 = j
        · simp [huj]
        · simpa [huj] using t.low_of_leaf u (by simpa [huj] using hu) }
  else t

/-- Clear the level-1 entry that leads to virtual pages `512 * j, …`. -/
def dropLow (t : PageTable) (j : ℕ) : PageTable :=
  { t with
    low := Function.update t.low j none
    leaf := fun u => if u / 512 = j then 0 else t.leaf u
    mid_of_low := fun x hx => by
      by_cases hxj : x = j
      · simp [hxj] at hx
      · exact t.mid_of_low x (by simpa [hxj] using hx)
    low_of_leaf := fun u hu => by
      by_cases huj : u / 512 = j
      · simp [huj] at hu
      · simpa [huj] using t.low_of_leaf u (by simpa [huj] using hu) }

/-- Clear root entry `i`. -/
def dropMid (t : PageTable) (i : ℕ) : PageTable where
  mid := Function.update t.mid i none
  low := fun j => if j / 512 = i then none else t.low j
  leaf := fun u => if u / 512 / 512 = i then 0 else t.leaf u
  mid_lt x hx := by
    by_cases hxi : x = i
    · simp [hxi] at hx
    · exact t.mid_lt x (by simpa [hxi] using hx)
  mid_of_low j hj := by
    by_cases hji : j / 512 = i
    · simp [hji] at hj
    · simpa [hji] using t.mid_of_low j (by simpa [hji] using hj)
  low_of_leaf u hu := by
    by_cases hui : u / 512 / 512 = i
    · simp [hui] at hu
    · simpa [hui] using t.low_of_leaf u (by simpa [hui] using hu)

section Fields

variable (t : PageTable) (v i j pg u : ℕ) (e : Pte)

@[simp]
theorem setLeaf_mid : (t.setLeaf v e).mid = t.mid := by
  rw [setLeaf]
  split <;> rfl

@[simp]
theorem setLeaf_low : (t.setLeaf v e).low = t.low := by
  rw [setLeaf]
  split <;> rfl

theorem setLeaf_leaf (h : (t.low (v / 512)).isSome) :
    (t.setLeaf v e).leaf u = if u = v then e else t.leaf u := by
  rw [setLeaf, dif_pos h]
  by_cases huv : u = v
  · simp [huv]
  · simp [huv]

theorem addMid_mid (h : i < 512) : (t.addMid i pg).mid = Function.update t.mid i (some pg) := by
  rw [addMid, dif_pos h]

/-- Entries below a missing level-1 table are zero, so clearing the new page loses none. -/
theorem addMid_leaf (h : t.mid i = none) : (t.addMid i pg).leaf = t.leaf := by
  rw [addMid]
  split
  · funext u
    by_cases hu : u / 512 / 512 = i
    · have hz : t.leaf u = 0 := by
        by_contra hne
        have hmid := t.mid_of_low _ (t.low_of_leaf u hne)
        rw [hu, h] at hmid
        cases hmid
      simp [hu, hz]
    · simp [hu]
  · rfl

theorem addMid_low (h : t.mid i = none) : (t.addMid i pg).low = t.low := by
  rw [addMid]
  split
  · funext j
    by_cases hj : j / 512 = i
    · have hn : t.low j = none := by
        by_contra hne
        have hmid := t.mid_of_low j (Option.isSome_iff_ne_none.mpr hne)
        rw [hj, h] at hmid
        cases hmid
      simp [hj, hn]
    · simp [hj]
  · rfl

@[simp]
theorem addLow_mid : (t.addLow j pg).mid = t.mid := by
  rw [addLow]
  split <;> rfl

theorem addLow_low (h : (t.mid (j / 512)).isSome) :
    (t.addLow j pg).low = Function.update t.low j (some pg) := by
  rw [addLow, dif_pos h]

theorem addLow_leaf (h : t.low j = none) : (t.addLow j pg).leaf = t.leaf := by
  rw [addLow]
  split
  · funext u
    by_cases hu : u / 512 = j
    · have hz : t.leaf u = 0 := by
        by_contra hne
        have hlow := t.low_of_leaf u hne
        rw [hu, h] at hlow
        cases hlow
      simp [hu, hz]
    · simp [hu]
  · rfl

end Fields

end PageTable

/-- The paging counters of `struct proc`. -/
structure VmStats where
  pageFaults : ℤ := 0
  pageEvicted : ℤ := 0
  pagesSwappedIn : ℤ := 0
  pagesSwappedOut : ℤ := 0
  residentPages : ℤ := 0
deriving DecidableEq, Repr

/-- Physical memory and the tables that describe it. -/
structure Memory where
  /-- Contents of the page starting at a physical address, the swap area included. -/
  mem : ℕ → Page
  /-- `kmem.freelist`. -/
  freelist : List ℕ
  /-- `frametable.f`. -/
  frames : ℕ → Frame
  /-- `frametable.clock_p`. -/
  clockP : ℕ
  /-- `swap_mask`. -/
  swapMask : ℕ → Bool
  /-- The user page tables in memory, by the address of their root page. -/
  pt : ℕ → Option PageTable
  /-- The paging counters, by process. -/
  vmstats : ℕ → VmStats

/-- The leaf entry of virtual page `v` in the table rooted at `root`; 0 if it has none. -/
def Memory.leaf (m : Memory) (root v : ℕ) : Pte :=
  match m.pt root with
  | some t => t.leaf v
  | none => 0

/-- The table rooted at `root` has a place for the leaf entry of virtual page `v`. -/
def Memory.HasEntry (m : Memory) (root v : ℕ) : Prop :=
  ∃ t, m.pt root = some t ∧ (t.low (v / 512)).isSome

theorem Memory.leaf_eq {m : Memory} {root : ℕ} {t : PageTable} (h : m.pt root = some t)
    (v : ℕ) : m.leaf root v = t.leaf v := by
  rw [Memory.leaf, h]

theorem Memory.leaf_of_none {m : Memory} {root : ℕ} (h : m.pt root = none) (v : ℕ) :
    m.leaf root v = 0 := by
  rw [Memory.leaf, h]

theorem Memory.hasEntry_of_leaf {m : Memory} {root v : ℕ} (h : m.leaf root v ≠ 0) :
    m.HasEntry root v := by
  cases ht : m.pt root with
  | none =>
    rw [Memory.leaf, ht] at h
    exact absurd rfl h
  | some t =>
    rw [Memory.leaf_eq ht] at h
    exact ⟨t, ht, t.low_of_leaf v h⟩

/-! ### Processes, files and the rest -/

/-- `enum procstate`. -/
inductive ProcState
  | unused | used | sleeping | runnable | running | zombie
deriving DecidableEq, Repr

/-- The registers of `struct trapframe` that `kfork` and `kexec` set. -/
structure Trapframe where
  epc : ℕ := 0
  sp : ℕ := 0
  a0 : ℤ := 0
  a1 : ℕ := 0
deriving DecidableEq, Repr

/-- `struct proc`; a null page table or trapframe is 0. -/
structure Proc where
  state : ProcState := .unused
  killed : Bool := false
  xstate : ℤ := 0
  pid : ℕ := 0
  qlevel : ℕ := 0
  parent : Option ℕ := none
  sz : ℕ := 0
  pagetable : ℕ := 0
  trapframe : ℕ := 0
  tf : Trapframe := {}
  ofile : ℕ → Option ℕ := fun _ => none
  name : List UInt8 := []

/-- `struct file`'s type field. -/
inductive FdType
  | none | pipe | inode | device
deriving DecidableEq, Repr

/-- `struct file`, without the inode part. A pipe is named by its page. -/
structure File where
  type : FdType := .none
  ref : ℕ := 0
  readable : Bool := false
  writable : Bool := false
  pipe : ℕ := 0
deriving DecidableEq, Repr

/-- The two ends of `struct pipe`. -/
structure Pipe where
  readopen : Bool
  writeopen : Bool
deriving DecidableEq, Repr

/-- A page table that only a running `kexec` knows, in its locals, and the size it goes with:
the new image until it is committed, the old one from then on. -/
structure Image where
  pagetable : ℕ
  sz : ℕ
deriving DecidableEq, Repr

/-- The pages the kernel takes for itself while booting. -/
structure BootPages where
  kpgtbl : List ℕ
  kstack : List ℕ
  virtq : List ℕ

/-- What the memory code reads and hands pages to, but does not manage. -/
structure World where
  /-- The linker symbol `end`: the first address after the kernel. -/
  kend : ℕ
  /-- The linker symbol `trampoline`: the page of `trampoline.S`. -/
  ktramp : ℕ
  boot : BootPages
  proc : ℕ → Proc
  /-- `myproc()` on the CPU whose kernel code is running. -/
  cur : ℕ
  initproc : ℕ
  nextpid : ℕ
  ftable : ℕ → File
  /-- The pipes that exist, by the page they live in. -/
  pipes : ℕ → Option Pipe
  /-- The page table each process holds in a local of `kexec`, if any. -/
  image : ℕ → Option Image
  /-- The argument pages each process holds in `sys_exec`. -/
  args : ℕ → List ℕ
  /-- Pages obtained by a bare `kalloc` or `evict_page` and not yet given back. -/
  held : List ℕ

/-- The kernel state. -/
structure Kernel extends World, Memory

/-- A kernel whose data is all zero, as it is loaded; `kend` is the linker symbol `end`. -/
def Kernel.zeroed (kend : ℕ) : Kernel where
  kend := kend
  ktramp := kernbase + 0x6000
  boot := ⟨[], [], []⟩
  proc _ := {}
  cur := 0
  initproc := 0
  nextpid := 1
  ftable _ := {}
  pipes _ := none
  image _ := none
  args _ := []
  held := []
  mem _ := .fill 0
  freelist := []
  frames _ := .clear
  clockP := 0
  swapMask _ := false
  pt _ := none
  vmstats _ := {}

/-! ### Computations -/

/-- Why the kernel stops. -/
inductive Panic
  | kfree | cannotEvict | pteNotValid3 | oom | walk
  | mappagesVa | mappagesAlign | mappagesSize | remap
  | uvmunmap | freewalk | uvmclear
  | vmfaultPte | invalidPte | vmfaultMem | invalidPte2
  | loadseg | memAllocFailed | initExiting | filedup | fileclose
  | kerneltrap
deriving DecidableEq, Repr

/-- The text each call of `panic` prints. `kerneltrap` stands for the page fault the kernel
itself takes when it follows a null page-table pointer. -/
def Panic.msg : Panic → String
  | kfree => "kfree"
  | cannotEvict => "cannot evict"
  | pteNotValid3 => "pte not valid 3"
  | oom => "OOM"
  | walk => "walk"
  | mappagesVa => "mappages: va not aligned"
  | mappagesAlign => "mappages: size not aligned"
  | mappagesSize => "mappages: size"
  | remap => "mappages: remap"
  | uvmunmap => "uvmunmap: not aligned"
  | freewalk => "freewalk: leaf"
  | uvmclear => "uvmclear"
  | vmfaultPte => "error in vmfault : pte not valid 1"
  | invalidPte => "Invalid pte"
  | vmfaultMem => "error in vmfault : mem == 0"
  | invalidPte2 => "Invalid pte 2"
  | loadseg => "loadseg: address should exist"
  | memAllocFailed => "mem alloc failed"
  | initExiting => "init exiting"
  | filedup => "filedup"
  | fileclose => "fileclose"
  | kerneltrap => "kerneltrap"

/-- The calls the history records, with the state each was made in. -/
inductive Call
  | evictPage (k : Kernel)
  | kfree (pa : ℕ) (k : Kernel)
  | transfer (root va : ℕ) (k : Kernel)

/-- The kernel and the history of its recorded calls, latest first. -/
structure Machine where
  k : Kernel
  calls : List Call

/-- Kernel code. -/
abbrev K := EStateM Panic Machine

/-- The current kernel state. -/
def getK : K Kernel := do return (← get).k

/-- An assignment to the kernel state. -/
def modK (f : Kernel → Kernel) : K Unit := modify fun m => { m with k := f m.k }

/-- Append to the history. -/
def record (c : Kernel → Call) : K Unit := modify fun m => { m with calls := c m.k :: m.calls }

/-- `myproc()`. -/
def myproc : K ℕ := do return (← getK).cur

/-- The page table rooted at `root`; following a null or dangling root faults. -/
def table (root : ℕ) : K PageTable := do
  match (← getK).pt root with
  | some t => return t
  | none => throw .kerneltrap

/-! ### Single updates -/

/-- Replace one page table. -/
def Kernel.setPt (k : Kernel) (root : ℕ) (t : Option PageTable) : Kernel :=
  { k with pt := Function.update k.pt root t }

/-- `*pte = e` for the leaf of virtual page `v`. -/
def Kernel.setLeaf (k : Kernel) (root v : ℕ) (e : Pte) : Kernel :=
  match k.pt root with
  | some t => k.setPt root (some (t.setLeaf v e))
  | none => k

/-- Replace the contents of one physical page. -/
def Kernel.setMem (k : Kernel) (pa : ℕ) (pg : Page) : Kernel :=
  { k with mem := Function.update k.mem pa pg }

/-- Replace one frame-table entry. -/
def Kernel.setFrame (k : Kernel) (i : ℕ) (f : Frame) : Kernel :=
  { k with frames := Function.update k.frames i f }

/-- Replace one entry of the swap mask. -/
def Kernel.setSlot (k : Kernel) (i : ℕ) (b : Bool) : Kernel :=
  { k with swapMask := Function.update k.swapMask i b }

/-- Replace the free list. -/
def Kernel.setFree (k : Kernel) (l : List ℕ) : Kernel := { k with freelist := l }

/-- Replace one entry of the process table. -/
def Kernel.setProc (k : Kernel) (p : ℕ) (q : Proc) : Kernel :=
  { k with proc := Function.update k.proc p q }

/-- Replace one entry of the file table. -/
def Kernel.setFile (k : Kernel) (i : ℕ) (f : File) : Kernel :=
  { k with ftable := Function.update k.ftable i f }

/-- Replace the pipe that lives in page `pa`. -/
def Kernel.setPipe (k : Kernel) (pa : ℕ) (pi : Option Pipe) : Kernel :=
  { k with pipes := Function.update k.pipes pa pi }

/-- Replace the page table process `p` holds in a local of `kexec`. -/
def Kernel.setImage (k : Kernel) (p : ℕ) (im : Option Image) : Kernel :=
  { k with image := Function.update k.image p im }

/-- Replace the argument pages process `p` holds in `sys_exec`. -/
def Kernel.setArgs (k : Kernel) (p : ℕ) (l : List ℕ) : Kernel :=
  { k with args := Function.update k.args p l }

/-- Replace one process's paging counters. -/
def Kernel.setStats (k : Kernel) (p : ℕ) (st : VmStats) : Kernel :=
  { k with vmstats := Function.update k.vmstats p st }

/-- Let process `p` be the one whose kernel code runs. -/
def Kernel.setCur (k : Kernel) (p : ℕ) : Kernel := { k with cur := p }

/-- The machine with process `p` on the CPU. -/
def Machine.onCpu (m : Machine) (p : ℕ) : Machine := { m with k := m.k.setCur p }

/-- The frame-table index of a physical page. -/
def frameIndex (pa : ℕ) : ℕ := (pa - kernbase) / pgsize

/-! ### What an update leaves alone

Each update touches one field. The lemmas below let a proof read any other field through a
chain of updates. -/

section Fields

variable (k : Kernel) (root v : ℕ) (e : Pte) (t : Option PageTable) (pa : ℕ) (pg : Page)
  (i : ℕ) (f : Frame) (p : ℕ) (q : Proc) (st : VmStats) (b : Bool) (l : List ℕ)

@[simp] theorem Kernel.setPt_mem : (k.setPt root t).mem = k.mem := rfl
@[simp] theorem Kernel.setPt_freelist : (k.setPt root t).freelist = k.freelist := rfl
@[simp] theorem Kernel.setPt_frames : (k.setPt root t).frames = k.frames := rfl
@[simp] theorem Kernel.setPt_pt : (k.setPt root t).pt = Function.update k.pt root t := rfl

@[simp] theorem Kernel.setMem_toWorld : (k.setMem pa pg).toWorld = k.toWorld := rfl
@[simp] theorem Kernel.setMem_freelist : (k.setMem pa pg).freelist = k.freelist := rfl
@[simp] theorem Kernel.setMem_frames : (k.setMem pa pg).frames = k.frames := rfl
@[simp] theorem Kernel.setMem_swapMask : (k.setMem pa pg).swapMask = k.swapMask := rfl
@[simp] theorem Kernel.setMem_vmstats : (k.setMem pa pg).vmstats = k.vmstats := rfl
@[simp] theorem Kernel.setMem_pt : (k.setMem pa pg).pt = k.pt := rfl
@[simp] theorem Kernel.setMem_mem : (k.setMem pa pg).mem = Function.update k.mem pa pg := rfl

@[simp] theorem Kernel.setFrame_toWorld : (k.setFrame i f).toWorld = k.toWorld := rfl
@[simp] theorem Kernel.setFrame_mem : (k.setFrame i f).mem = k.mem := rfl
@[simp] theorem Kernel.setFrame_freelist : (k.setFrame i f).freelist = k.freelist := rfl
@[simp] theorem Kernel.setFrame_swapMask : (k.setFrame i f).swapMask = k.swapMask := rfl
@[simp] theorem Kernel.setFrame_vmstats : (k.setFrame i f).vmstats = k.vmstats := rfl
@[simp] theorem Kernel.setFrame_pt : (k.setFrame i f).pt = k.pt := rfl
@[simp] theorem Kernel.setFrame_frames :
    (k.setFrame i f).frames = Function.update k.frames i f := rfl

@[simp] theorem Kernel.setStats_toWorld : (k.setStats p st).toWorld = k.toWorld := rfl
@[simp] theorem Kernel.setStats_mem : (k.setStats p st).mem = k.mem := rfl
@[simp] theorem Kernel.setStats_freelist : (k.setStats p st).freelist = k.freelist := rfl
@[simp] theorem Kernel.setStats_frames : (k.setStats p st).frames = k.frames := rfl
@[simp] theorem Kernel.setStats_swapMask : (k.setStats p st).swapMask = k.swapMask := rfl
@[simp] theorem Kernel.setStats_pt : (k.setStats p st).pt = k.pt := rfl

@[simp] theorem Kernel.setSlot_toWorld : (k.setSlot i b).toWorld = k.toWorld := rfl
@[simp] theorem Kernel.setSlot_mem : (k.setSlot i b).mem = k.mem := rfl
@[simp] theorem Kernel.setSlot_freelist : (k.setSlot i b).freelist = k.freelist := rfl
@[simp] theorem Kernel.setSlot_frames : (k.setSlot i b).frames = k.frames := rfl
@[simp] theorem Kernel.setSlot_vmstats : (k.setSlot i b).vmstats = k.vmstats := rfl
@[simp] theorem Kernel.setSlot_pt : (k.setSlot i b).pt = k.pt := rfl
@[simp] theorem Kernel.setSlot_swapMask :
    (k.setSlot i b).swapMask = Function.update k.swapMask i b := rfl

@[simp] theorem Kernel.setFree_mem : (k.setFree l).mem = k.mem := rfl
@[simp] theorem Kernel.setFree_freelist : (k.setFree l).freelist = l := rfl
@[simp] theorem Kernel.setFree_frames : (k.setFree l).frames = k.frames := rfl

@[simp] theorem Kernel.setProc_toMemory : (k.setProc p q).toMemory = k.toMemory := rfl
@[simp] theorem Kernel.setProc_proc : (k.setProc p q).proc = Function.update k.proc p q := rfl

@[simp]
theorem Kernel.setLeaf_toWorld : (k.setLeaf root v e).toWorld = k.toWorld := by
  rw [Kernel.setLeaf]
  split <;> rfl

@[simp]
theorem Kernel.setLeaf_mem : (k.setLeaf root v e).mem = k.mem := by
  rw [Kernel.setLeaf]
  split <;> rfl

@[simp]
theorem Kernel.setLeaf_freelist : (k.setLeaf root v e).freelist = k.freelist := by
  rw [Kernel.setLeaf]
  split <;> rfl

@[simp]
theorem Kernel.setLeaf_frames : (k.setLeaf root v e).frames = k.frames := by
  rw [Kernel.setLeaf]
  split <;> rfl

@[simp]
theorem Kernel.setLeaf_swapMask : (k.setLeaf root v e).swapMask = k.swapMask := by
  rw [Kernel.setLeaf]
  split <;> rfl

@[simp]
theorem Kernel.setLeaf_vmstats : (k.setLeaf root v e).vmstats = k.vmstats := by
  rw [Kernel.setLeaf]
  split <;> rfl

/-- Storing a leaf entry changes one table and none of its nodes. -/
theorem Kernel.setLeaf_pt (r : ℕ) : (k.setLeaf root v e).pt r =
    if r = root then (k.pt r).map fun t => t.setLeaf v e else k.pt r := by
  rw [Kernel.setLeaf]
  by_cases hr : r = root
  · subst hr
    cases h : k.pt r <;> simp [h]
  · cases h : k.pt root <;> simp [hr]

/-- Reading a leaf back after a store. -/
theorem Kernel.setLeaf_leaf (h : k.HasEntry root v) (r u : ℕ) :
    (k.setLeaf root v e).leaf r u = if r = root ∧ u = v then e else k.leaf r u := by
  obtain ⟨t, ht, hlow⟩ := h
  rw [Memory.leaf, Memory.leaf, Kernel.setLeaf_pt]
  by_cases hr : r = root
  · subst hr
    rw [if_pos rfl, ht]
    simp [PageTable.setLeaf_leaf t v u e hlow]
  · simp [hr]

@[simp] theorem Kernel.setMem_leaf (r u : ℕ) : (k.setMem pa pg).leaf r u = k.leaf r u := rfl
@[simp] theorem Kernel.setFrame_leaf (r u : ℕ) : (k.setFrame i f).leaf r u = k.leaf r u := rfl
@[simp] theorem Kernel.setStats_leaf (r u : ℕ) : (k.setStats p st).leaf r u = k.leaf r u := rfl
@[simp] theorem Kernel.setSlot_leaf (r u : ℕ) : (k.setSlot i b).leaf r u = k.leaf r u := rfl

end Fields

/-! ### Runs of the basic actions -/

section Runs

variable {Q : Kernel → Machine → Prop} {E : Panic → Machine → Prop} {m : Machine}

open StateLogic

@[simp] theorem run_getK (m : Machine) : getK.run m = .ok m.k m := rfl

@[simp] theorem run_modK (f : Kernel → Kernel) (m : Machine) :
    (modK f).run m = .ok () { m with k := f m.k } := rfl

@[simp] theorem run_record (c : Kernel → Call) (m : Machine) :
    (record c).run m = .ok () { m with calls := c m.k :: m.calls } := rfl

@[simp] theorem run_myproc (m : Machine) : myproc.run m = .ok m.k.cur m := rfl

theorem run_table {root : ℕ} {t : PageTable} (h : m.k.pt root = some t) :
    (table root).run m = .ok t m := by
  rw [table, run_bind_ok (run_getK m), h]
  rfl

theorem run_table_none {root : ℕ} (h : m.k.pt root = none) :
    (table root).run m = .error .kerneltrap m := by
  rw [table, run_bind_ok (run_getK m), h]
  rfl

@[simp] theorem wp_getK : wp getK Q E m ↔ Q m.k m := Iff.rfl

@[simp] theorem wp_modK {Q : Unit → Machine → Prop} {f : Kernel → Kernel} :
    wp (modK f) Q E m ↔ Q () { m with k := f m.k } := Iff.rfl

@[simp] theorem wp_record {Q : Unit → Machine → Prop} {c : Kernel → Call} :
    wp (record c) Q E m ↔ Q () { m with calls := c m.k :: m.calls } := Iff.rfl

@[simp] theorem wp_myproc {Q : ℕ → Machine → Prop} : wp myproc Q E m ↔ Q m.k.cur m := Iff.rfl

end Runs

end Xv6
