import Mathlib.Algebra.Ring.Nat
import Mathlib.Data.Int.Notation
import Xv6.Logic.Wp

/-!
# The file system

`kernel/fs.c`, and the system calls of `kernel/sysfile.c` and `kernel/file.c` that change the
file system, executed one after the other with each transaction carried to its end. Blocks are
bytes; the inode blocks and the bitmap are kept apart from the others, as a table of on-disk
inodes and a table of bits. An inode has its on-disk copy and, while it is referenced, one in the
inode table, which `ilock` fills and `iupdate` writes back.

A pointer to an in-memory inode is its number, because the table has at most one entry for it.
Locks are left out: nobody else runs during a call. What a copy from user memory yields is an
argument of the call, and so is whether a file structure and a descriptor are free. `logged`
collects the blocks passed to `log_write`.
-/

namespace Xv6

namespace Fs

/-! ### Sizes -/

/-- `BSIZE`. -/
def bsize : ℕ := 1024

/-- `NDIRECT`. -/
def ndirect : ℕ := 12

/-- `NINDIRECT`. -/
def nindirect : ℕ := bsize / 4

/-- `MAXFILE`. -/
def maxfile : ℕ := ndirect + nindirect

/-- `BPB`, the bits of a bitmap block. -/
def bpb : ℕ := bsize * 8

/-- `IPB`, the inodes of an inode block. -/
def ipb : ℕ := bsize / 64

/-- `ROOTINO`. -/
def rootino : ℕ := 1

/-- `NINODE`. -/
def ninode : ℕ := 50

/-- `NPROC`. -/
abbrev nproc : ℕ := 64

instance : NeZero nproc := ⟨by decide⟩

/-- `NDEV`. -/
def ndev : ℕ := 10

/-- `DIRSIZ`. -/
def dirsiz : ℕ := 14

/-- `sizeof(struct dirent)`. -/
def desize : ℕ := 16

/-! ### Blocks -/

/-- The bytes of a block; only those below `bsize` matter. -/
abbrev Data := ℕ → UInt8

/-- The `j`-th word of a block, as a little-endian `uint`. -/
def Data.word (d : Data) (j : ℕ) : ℕ :=
  (d (4 * j)).toNat + 256 * (d (4 * j + 1)).toNat + 65536 * (d (4 * j + 2)).toNat +
    16777216 * (d (4 * j + 3)).toNat

def Data.setWord (d : Data) (j w : ℕ) : Data := fun i =>
  if i / 4 = j then UInt8.ofNat (w / 256 ^ (i % 4)) else d i

/-- `memmove` of a byte string into a block. -/
def Data.splice (d : Data) (start : ℕ) (l : List UInt8) : Data := fun i =>
  if start ≤ i ∧ i < start + l.length then l.getD (i - start) 0 else d i

/-- `memmove` out of a block. -/
def Data.slice (d : Data) (start n : ℕ) : List UInt8 := (List.range n).map fun i => d (start + i)

/-! ### Names and directory entries -/

abbrev Name := List UInt8

/-- The string that `strncmp` and `strncpy` see with the bound `DIRSIZ`. -/
def cstr (l : List UInt8) : Name := (l.take dirsiz).takeWhile (· ≠ 0)

/-- `namecmp(s, t) == 0`. -/
def nameeq (s t : List UInt8) : Bool := cstr s == cstr t

/-- The array that `strncpy(de.name, name, DIRSIZ)` leaves. -/
def strncpy (name : List UInt8) : List UInt8 :=
  cstr name ++ List.replicate (dirsiz - (cstr name).length) 0

/-- `struct dirent`. -/
structure Dirent where
  inum : ℕ
  name : List UInt8
deriving DecidableEq, Repr

def Dirent.bytes (e : Dirent) : List UInt8 :=
  [UInt8.ofNat e.inum, UInt8.ofNat (e.inum / 256)] ++ e.name

def Dirent.ofBytes (l : List UInt8) : Dirent where
  inum := (l.getD 0 0).toNat + 256 * (l.getD 1 0).toNat
  name := l.drop 2

/-- "." -/
def dot : Name := [46]

/-- ".." -/
def dotdot : Name := [46, 46]

/-- "/" -/
def slash : UInt8 := 47

/-- `skipelem`: the next element of a path, cut to `DIRSIZ` bytes, and what follows it. -/
def skipelem (path : List UInt8) : Option (Name × List UInt8) :=
  let path := path.dropWhile (· == slash)
  if path = [] then none
  else
    let s := path.takeWhile (· ≠ slash)
    some (s.take dirsiz, (path.drop s.length).dropWhile (· == slash))

/-- The elements that the loop of `namex` meets, for a path of at most `n` bytes. -/
def elemsFuel : ℕ → List UInt8 → List Name
  | 0, _ => []
  | n + 1, path =>
    match skipelem path with
    | none => []
    | some (name, rest) => name :: elemsFuel n rest

def elems (path : List UInt8) : List Name := elemsFuel path.length path

/-! ### Inodes -/

/-- The types of `stat.h`, and 0 for a free inode. -/
inductive FileType
  | free | dir | file | device
deriving DecidableEq, Repr

/-- `struct dinode`, also the part of `struct inode` that is a copy of it. `addrs` has
`NDIRECT + 1` entries. -/
structure Dinode where
  type : FileType := .free
  major : ℤ := 0
  minor : ℤ := 0
  nlink : ℤ := 0
  size : ℕ := 0
  addrs : ℕ → ℕ := fun _ => 0

/-- The value of a `short`. -/
def short (x : ℤ) : ℤ := x.bmod (2 ^ 16)

/-- The other part of `struct inode`. -/
structure Inode where
  ref : ℕ := 0
  valid : Bool := false
  d : Dinode := {}

/-- The parts of `struct superblock` that are used. -/
structure Superblock where
  size : ℕ
  nblocks : ℕ
  ninodes : ℕ
  inodestart : ℕ
  bmapstart : ℕ
  /-- Block numbers are of type `uint`. -/
  size_lt : size < 2 ^ 32
deriving DecidableEq, Repr

/-- An open file on an inode, of type `FD_DEVICE` or `FD_INODE`. -/
structure File where
  ip : ℕ
  device : Bool
  writable : Bool
  off : ℕ
deriving DecidableEq, Repr

structure State where
  sb : Superblock
  /-- The bits of the free map. -/
  used : ℕ → Bool
  /-- The inode blocks. -/
  dinode : ℕ → Dinode
  /-- The other blocks. -/
  data : ℕ → Data
  /-- The entry of the inode table for each inode, in use if its `ref` is positive. -/
  itable : ℕ → Inode
  /-- The current directory of each process. -/
  cwd : Fin nproc → Option ℕ
  files : List File
  logged : List ℕ

/-- The panics of `fs.c` and `sysfile.c`, and two accesses that are not modelled. -/
inductive Panic
  | freeing | noInodes | ilock | noType | range | notDir | lookupRead | linkRead | emptyRead
  | unlinkNlink | unlinkWrite
  /-- An inode number outside the inode blocks. -/
  | inum
  /-- No such process or file. -/
  | absent
deriving DecidableEq, Repr

/-- The text each of them prints. -/
def Panic.msg : Panic → String
  | freeing => "freeing free block"
  | noInodes => "iget: no inodes"
  | ilock => "ilock"
  | noType => "ilock: no type"
  | range => "bmap: out of range"
  | notDir => "dirlookup not DIR"
  | lookupRead => "dirlookup read"
  | linkRead => "dirlink read"
  | emptyRead => "isdirempty: readi"
  | unlinkNlink => "unlink: nlink < 1"
  | unlinkWrite => "unlink: writei"
  | inum | absent => ""

abbrev F := EStateM Panic State

/-! ### Blocks: `balloc`, `bfree` -/

/-- `IBLOCK`. -/
def iblock (s : State) (inum : ℕ) : ℕ := inum / ipb + s.sb.inodestart

/-- `BBLOCK`. -/
def bblock (s : State) (b : ℕ) : ℕ := b / bpb + s.sb.bmapstart

def logWrite (b : ℕ) : F PUnit := modify fun s => { s with logged := s.logged ++ [b] }

/-- `bzero`. -/
def bzero (b : ℕ) : F PUnit := do
  modify fun s => { s with data := Function.update s.data b fun _ => 0 }
  logWrite b

/-- `balloc`: the first free bit, in the order of the two loops; 0 if there is none. -/
def balloc : F ℕ := do
  let s ← get
  match (List.range s.sb.size).find? fun b => !s.used b with
  | some b =>
    modify fun s => { s with used := Function.update s.used b true }
    logWrite (bblock s b)
    bzero b
    return b
  | none => return 0

/-- `bfree`. -/
def bfree (b : ℕ) : F PUnit := do
  let s ← get
  if s.used b = false then throw .freeing
  modify fun s => { s with used := Function.update s.used b false }
  logWrite (bblock s b)

/-! ### The inode table -/

/-- The state with one table entry changed. -/
def State.putInode (s : State) (ip : ℕ) (x : Inode) : State :=
  { s with itable := Function.update s.itable ip x }

/-- Change the entry of an inode. -/
def setInode (ip : ℕ) (f : Inode → Inode) : F PUnit :=
  modify fun s => s.putInode ip (f (s.itable ip))

/-- Change the in-memory copy of an inode. -/
def setDinode (ip : ℕ) (f : Dinode → Dinode) : F PUnit :=
  setInode ip fun x => { x with d := f x.d }

/-- The in-memory copy of an inode. -/
def dinodeOf (ip : ℕ) : F Dinode := do
  let s ← get
  return (s.itable ip).d

/-- The number of table entries in use. -/
def active (s : State) : ℕ := (List.range s.sb.ninodes).countP fun i => 0 < (s.itable i).ref

/-- `iget`. -/
def iget (inum : ℕ) : F PUnit := do
  let s ← get
  if 0 < (s.itable inum).ref then setInode inum fun x => { x with ref := x.ref + 1 }
  else if ninode ≤ active s then throw .noInodes
  else setInode inum fun x => { x with ref := 1, valid := false }

/-- `idup`. -/
def idup (ip : ℕ) : F PUnit := setInode ip fun x => { x with ref := x.ref + 1 }

/-- `ialloc`. -/
def ialloc (type : FileType) : F (Option ℕ) := do
  let s ← get
  match (List.range s.sb.ninodes).find? fun i => 1 ≤ i ∧ (s.dinode i).type = .free with
  | some inum =>
    modify fun s => { s with dinode := Function.update s.dinode inum { type := type } }
    logWrite (iblock s inum)
    iget inum
    return some inum
  | none => return none

/-- `iupdate`. -/
def iupdate (ip : ℕ) : F PUnit := do
  modify fun s => { s with dinode := Function.update s.dinode ip (s.itable ip).d }
  let s ← get
  logWrite (iblock s ip)

/-- `ilock`. -/
def ilock (ip : ℕ) : F PUnit := do
  let s ← get
  if (s.itable ip).ref < 1 then throw .ilock
  if s.sb.ninodes ≤ ip then throw .inum
  if (s.itable ip).valid = false then
    setInode ip fun x => { x with d := s.dinode ip, valid := true }
    if (s.dinode ip).type = .free then throw .noType

/-! ### Contents: `bmap`, `itrunc`, `readi`, `writei` -/

/-- The part of `bmap` that finds the indirect block, allocating it if necessary. -/
def bmapIndirect (ip : ℕ) : F ℕ := do
  let d ← dinodeOf ip
  if d.addrs ndirect ≠ 0 then return d.addrs ndirect
  else
    let addr ← balloc
    if addr = 0 then return 0
    else
      setDinode ip fun d => { d with addrs := Function.update d.addrs ndirect addr }
      return addr

/-- `bmap`. -/
def bmap (ip bn : ℕ) : F ℕ := do
  if bn < ndirect then
    let d ← dinodeOf ip
    if d.addrs bn ≠ 0 then return d.addrs bn
    else
      let addr ← balloc
      if addr = 0 then return 0
      else
        setDinode ip fun d => { d with addrs := Function.update d.addrs bn addr }
        return addr
  else if bn - ndirect < nindirect then
    let ind ← bmapIndirect ip
    if ind = 0 then return 0
    else
      let s ← get
      if (s.data ind).word (bn - ndirect) ≠ 0 then return (s.data ind).word (bn - ndirect)
      else
        let addr ← balloc
        if addr = 0 then return 0
        else
          modify fun s => { s with
            data := Function.update s.data ind ((s.data ind).setWord (bn - ndirect) addr) }
          logWrite ind
          return addr
  else throw .range

/-- The first loop of `itrunc`, one turn. -/
def truncDirect (ip i : ℕ) : F PUnit := do
  let d ← dinodeOf ip
  if d.addrs i ≠ 0 then
    bfree (d.addrs i)
    setDinode ip fun d => { d with addrs := Function.update d.addrs i 0 }

/-- The second loop of `itrunc`, one turn, for the words `a` of the indirect block. -/
def truncIndirect (a : Data) (j : ℕ) : F PUnit := do
  if a.word j ≠ 0 then bfree (a.word j)

/-- `itrunc`. -/
def itrunc (ip : ℕ) : F PUnit := do
  (List.range ndirect).forM (truncDirect ip)
  let d ← dinodeOf ip
  if d.addrs ndirect ≠ 0 then
    let s ← get
    (List.range nindirect).forM (truncIndirect (s.data (d.addrs ndirect)))
    bfree (d.addrs ndirect)
    setDinode ip fun d => { d with addrs := Function.update d.addrs ndirect 0 }
  setDinode ip fun d => { d with size := 0 }
  iupdate ip

/-- `iput`. -/
def iput (ip : ℕ) : F PUnit := do
  let s ← get
  if (s.itable ip).ref = 1 ∧ (s.itable ip).valid ∧ (s.itable ip).d.nlink = 0 then
    itrunc ip
    setDinode ip fun d => { d with type := .free }
    iupdate ip
    setInode ip fun x => { x with valid := false }
  setInode ip fun x => { x with ref := x.ref - 1 }

/-- The loop of `readi`. `fuel` bounds the turns by the bytes left, for every turn copies at
least one; `dst` says whether `either_copyout` succeeds. -/
def readLoop (ip : ℕ) (dst : ℕ → Bool) (n : ℕ) : ℕ → ℕ → ℕ → List UInt8 → F (Option (List UInt8))
  | 0, _, _, acc => return some acc
  | fuel + 1, off, tot, acc => do
    if tot < n then
      let addr ← bmap ip (off / bsize)
      if addr = 0 then return some acc
      else
        let s ← get
        let m := min (n - tot) (bsize - off % bsize)
        if dst tot then
          readLoop ip dst n fuel (off + m) (tot + m) (acc ++ (s.data addr).slice (off % bsize) m)
        else return none
    else return some acc

/-- `readi`: the bytes that are copied, or `none` for -1. -/
def readi (ip : ℕ) (dst : ℕ → Bool) (off n : ℕ) : F (Option (List UInt8)) := do
  let d ← dinodeOf ip
  if d.size < off ∨ 2 ^ 32 ≤ off + n then return some []
  else
    let n := if d.size < off + n then d.size - off else n
    readLoop ip dst n n off 0 []

/-- What `either_copyin` does for the bytes from `tot` on, `m` of them: whether it succeeds, and
what it has put in the buffer. -/
abbrev Source := ℕ → ℕ → Bool × List UInt8

/-- A source in the kernel. -/
def kernelSource (l : List UInt8) : Source := fun tot m => (true, (l.drop tot).take m)

/-- The loop of `writei`; it returns `tot` and `off`. -/
def writeLoop (ip : ℕ) (src : Source) (n : ℕ) : ℕ → ℕ → ℕ → F (ℕ × ℕ)
  | 0, off, tot => return (tot, off)
  | fuel + 1, off, tot => do
    if tot < n then
      let addr ← bmap ip (off / bsize)
      if addr = 0 then return (tot, off)
      else
        let m := min (n - tot) (bsize - off % bsize)
        modify fun s => { s with
          data := Function.update s.data addr ((s.data addr).splice (off % bsize)
            ((src tot m).2.take m)) }
        if (src tot m).1 then
          logWrite addr
          writeLoop ip src n fuel (off + m) (tot + m)
        else return (tot, off)
    else return (tot, off)

/-- `writei`; `none` for -1. -/
def writei (ip : ℕ) (src : Source) (off n : ℕ) : F (Option ℕ) := do
  let d ← dinodeOf ip
  if d.size < off ∨ 2 ^ 32 ≤ off + n then return none
  else if maxfile * bsize < off + n then return none
  else
    let (tot, off) ← writeLoop ip src n n off 0
    let d ← dinodeOf ip
    if d.size < off then setDinode ip fun d => { d with size := off }
    iupdate ip
    return some tot

/-! ### Directories -/

/-- `readi` of a directory entry, with the panic if it comes out short. -/
def readEnt (dp off : ℕ) (e : Panic) : F Dirent := do
  match ← readi dp (fun _ => true) off desize with
  | some l => if l.length = desize then return .ofBytes l else throw e
  | none => throw e

/-- `writei` of a directory entry; whether it was written. -/
def writeEnt (dp off : ℕ) (de : Dirent) : F Bool := do
  let r ← writei dp (kernelSource de.bytes) off desize
  return r == some desize

/-- The offsets of the entries, in the order of the loops. -/
def offsets (size : ℕ) : List ℕ := (List.range ((size + (desize - 1)) / desize)).map (· * desize)

/-- The loop of `dirlookup`. -/
def lookupFrom (dp : ℕ) (name : Name) : List ℕ → F (Option (ℕ × ℕ))
  | [] => return none
  | off :: offs => do
    let de ← readEnt dp off .lookupRead
    if de.inum = 0 then lookupFrom dp name offs
    else if nameeq name de.name then
      iget de.inum
      return some (de.inum, off)
    else lookupFrom dp name offs

/-- `dirlookup`: the inode and the offset of its entry. -/
def dirlookup (dp : ℕ) (name : Name) : F (Option (ℕ × ℕ)) := do
  let d ← dinodeOf dp
  if d.type ≠ .dir then throw .notDir
  else lookupFrom dp name (offsets d.size)

/-- The loop of `dirlink`: the offset of the first empty entry, or the end. -/
def emptyFrom (dp size : ℕ) : List ℕ → F ℕ
  | [] => return size
  | off :: offs => do
    let de ← readEnt dp off .linkRead
    if de.inum = 0 then return off
    else emptyFrom dp size offs

/-- `dirlink`; whether it succeeds. -/
def dirlink (dp : ℕ) (name : Name) (inum : ℕ) : F Bool := do
  match ← dirlookup dp name with
  | some (ip, _) =>
    iput ip
    return false
  | none =>
    let d ← dinodeOf dp
    let off ← emptyFrom dp d.size (offsets d.size)
    writeEnt dp off ⟨inum % 2 ^ 16, strncpy name⟩

/-- The loop of `isdirempty`. -/
def emptyAll (dp : ℕ) : List ℕ → F Bool
  | [] => return true
  | off :: offs => do
    let de ← readEnt dp off .emptyRead
    if de.inum ≠ 0 then return false
    else emptyAll dp offs

/-- `isdirempty`. -/
def isdirempty (dp : ℕ) : F Bool := do
  let d ← dinodeOf dp
  emptyAll dp ((offsets d.size).drop 2)

/-! ### Paths -/

/-- The loop of `namex` over the elements of the path. With `parent` it returns the directory and
the last element. -/
def walk (parent : Bool) : ℕ → List Name → F (Option (ℕ × Name))
  | ip, [] =>
    if parent then do
      iput ip
      return none
    else return some (ip, [])
  | ip, name :: rest => do
    ilock ip
    let d ← dinodeOf ip
    if d.type ≠ .dir then
      iput ip
      return none
    else if parent ∧ rest = [] then return some (ip, name)
    else
      match ← dirlookup ip name with
      | none =>
        iput ip
        return none
      | some (next, _) =>
        iput ip
        walk parent next rest

/-- `namex` for process `p`. -/
def namex (p : Fin nproc) (path : List UInt8) (parent : Bool) : F (Option (ℕ × Name)) := do
  if path.head? = some slash then
    iget rootino
    walk parent rootino (elems path)
  else
    let s ← get
    match s.cwd p with
    | none => throw .absent
    | some ip =>
      idup ip
      walk parent ip (elems path)

/-- `namei`. -/
def namei (p : Fin nproc) (path : List UInt8) : F (Option ℕ) := do
  let r ← namex p path false
  return r.map Prod.fst

/-- `nameiparent`. -/
def nameiparent (p : Fin nproc) (path : List UInt8) : F (Option (ℕ × Name)) := namex p path true

/-! ### System calls -/

/-- The part of `create` that makes the entries "." and "..". -/
def createDots (type : FileType) (ip dp : ℕ) : F Bool := do
  if type = .dir then
    if ← dirlink ip dot ip then dirlink ip dotdot dp
    else return false
  else return true

/-- The part of `create` that makes the entries. -/
def createEntries (type : FileType) (ip dp : ℕ) (name : Name) : F Bool := do
  if ← createDots type ip dp then dirlink dp name ip
  else return false

/-- The part of `create` after `ialloc`. -/
def createInode (type : FileType) (major minor : ℤ) (ip dp : ℕ) (name : Name) :
    F (Option ℕ) := do
  ilock ip
  setDinode ip fun d => { d with major := short major, minor := short minor, nlink := 1 }
  iupdate ip
  if ← createEntries type ip dp name then
    if type = .dir then
      setDinode dp fun d => { d with nlink := short (d.nlink + 1) }
      iupdate dp
    iput dp
    return some ip
  else
    setDinode ip fun d => { d with nlink := 0 }
    iupdate ip
    iput ip
    iput dp
    return none

/-- `create`. -/
def create (p : Fin nproc) (path : List UInt8) (type : FileType) (major minor : ℤ) :
    F (Option ℕ) := do
  match ← nameiparent p path with
  | none => return none
  | some (dp, name) =>
    ilock dp
    match ← dirlookup dp name with
    | some (ip, _) =>
      iput dp
      ilock ip
      let d ← dinodeOf ip
      if type = .file ∧ (d.type = .file ∨ d.type = .device) then return some ip
      else
        iput ip
        return none
    | none =>
      match ← ialloc type with
      | none =>
        iput dp
        return none
      | some ip => createInode type major minor ip dp name

/-- The flags of `fcntl.h`: `O_WRONLY`, `O_RDWR`, `O_CREATE` and `O_TRUNC` are the bits 0, 1, 9
and 10 of the mode. -/
abbrev Mode := ℕ

def Mode.writable (omode : Mode) : Bool := omode.testBit 0 || omode.testBit 1

def Mode.create (omode : Mode) : Bool := omode.testBit 9

def Mode.trunc (omode : Mode) : Bool := omode.testBit 10

/-- The first part of `sys_open`: the inode, locked. -/
def openInode (p : Fin nproc) (path : List UInt8) (omode : Mode) : F (Option ℕ) := do
  if omode.create then create p path .file 0 0
  else
    match ← namei p path with
    | none => return none
    | some ip =>
      ilock ip
      let d ← dinodeOf ip
      if d.type = .dir ∧ omode ≠ 0 then
        iput ip
        return none
      else return some ip

/-- `sys_open`; whether it succeeds. `slot` says whether a file structure and a descriptor are
free. -/
def sysOpen (p : Fin nproc) (path : List UInt8) (omode : Mode) (slot : Bool) : F Bool := do
  match ← openInode p path omode with
  | none => return false
  | some ip =>
    let d ← dinodeOf ip
    if d.type = .device ∧ (d.major < 0 ∨ ndev ≤ d.major) then
      iput ip
      return false
    else if slot = false then
      iput ip
      return false
    else
      modify fun s => { s with files := s.files ++
        [⟨ip, decide (d.type = .device), omode.writable, 0⟩] }
      if omode.trunc ∧ d.type = .file then itrunc ip
      return true

/-- The part of `sys_link` that makes the entry. -/
def linkEntry (p : Fin nproc) (new : List UInt8) (ip : ℕ) : F Bool := do
  match ← nameiparent p new with
  | none => return false
  | some (dp, name) =>
    ilock dp
    let linked ← dirlink dp name ip
    iput dp
    return linked

/-- `sys_link`; whether it succeeds. -/
def sysLink (p : Fin nproc) (old new : List UInt8) : F Bool := do
  match ← namei p old with
  | none => return false
  | some ip =>
    ilock ip
    let d ← dinodeOf ip
    if d.type = .dir then
      iput ip
      return false
    else
      setDinode ip fun d => { d with nlink := short (d.nlink + 1) }
      iupdate ip
      if ← linkEntry p new ip then
        iput ip
        return true
      else
        ilock ip
        setDinode ip fun d => { d with nlink := short (d.nlink - 1) }
        iupdate ip
        iput ip
        return false

/-- The part of `sys_unlink` that clears the entry. -/
def unlinkEntry (type : FileType) (dp ip off : ℕ) : F Bool := do
  if ← writeEnt dp off ⟨0, List.replicate dirsiz 0⟩ then
    if type = .dir then
      setDinode dp fun d => { d with nlink := short (d.nlink - 1) }
      iupdate dp
    iput dp
    setDinode ip fun d => { d with nlink := short (d.nlink - 1) }
    iupdate ip
    iput ip
    return true
  else throw .unlinkWrite

/-- The part of `sys_unlink` after the inode `ip` is found at `off`. -/
def unlinkInode (dp ip off : ℕ) : F Bool := do
  ilock ip
  let d ← dinodeOf ip
  if d.nlink < 1 then throw .unlinkNlink
  else
    let empty ← if d.type = .dir then isdirempty ip else pure true
    if empty = false then
      iput ip
      iput dp
      return false
    else unlinkEntry d.type dp ip off

/-- `sys_unlink`; whether it succeeds. -/
def sysUnlink (p : Fin nproc) (path : List UInt8) : F Bool := do
  match ← nameiparent p path with
  | none => return false
  | some (dp, name) =>
    ilock dp
    if nameeq name dot ∨ nameeq name dotdot then
      iput dp
      return false
    else
      match ← dirlookup dp name with
      | none =>
        iput dp
        return false
      | some (ip, off) => unlinkInode dp ip off

/-- `sys_mkdir` and `sys_mknod` after `create`; whether they succeed. -/
def createPut (p : Fin nproc) (path : List UInt8) (type : FileType) (major minor : ℤ) :
    F Bool := do
  match ← create p path type major minor with
  | none => return false
  | some ip =>
    iput ip
    return true

/-- `sys_mkdir`. -/
def sysMkdir (p : Fin nproc) (path : List UInt8) : F Bool := createPut p path .dir 0 0

/-- `sys_mknod`. -/
def sysMknod (p : Fin nproc) (path : List UInt8) (major minor : ℤ) : F Bool :=
  createPut p path .device major minor

/-- `sys_chdir`; whether it succeeds. -/
def sysChdir (p : Fin nproc) (path : List UInt8) : F Bool := do
  match ← namei p path with
  | none => return false
  | some ip =>
    ilock ip
    let d ← dinodeOf ip
    if d.type ≠ .dir then
      iput ip
      return false
    else
      let s ← get
      match s.cwd p with
      | none => throw .absent
      | some cwd =>
        iput cwd
        modify fun s => { s with cwd := Function.update s.cwd p (some ip) }
        return true

/-- `filewrite`, one transaction of its loop; the result of `writei`. -/
def filewrite (i : ℕ) (src : Source) (n1 : ℕ) : F (Option ℕ) := do
  let s ← get
  match s.files[i]? with
  | none => throw .absent
  | some f =>
    if f.writable = false ∨ f.device then return none
    else
      ilock f.ip
      let r ← writei f.ip src f.off n1
      modify fun s => { s with files := s.files.set i { f with off := f.off + r.getD 0 } }
      return r

/-- The last `fileclose` of a file. -/
def fileclose (i : ℕ) : F PUnit := do
  let s ← get
  match s.files[i]? with
  | none => throw .absent
  | some f =>
    modify fun s => { s with files := s.files.eraseIdx i }
    iput f.ip

/-- The part of `kfork` about the current directory. -/
def forkCwd (p q : Fin nproc) : F PUnit := do
  let s ← get
  match s.cwd p, s.cwd q with
  | some ip, none =>
    idup ip
    modify fun s => { s with cwd := Function.update s.cwd q (some ip) }
  | _, _ => throw .absent

/-- The part of `kexit` about the current directory. -/
def exitCwd (p : Fin nproc) : F PUnit := do
  let s ← get
  match s.cwd p with
  | none => throw .absent
  | some ip =>
    iput ip
    modify fun s => { s with cwd := Function.update s.cwd p none }

/-! ### The image that `mkfs` writes -/

/-- The entries of the root directory, for files with these names. -/
def rootEntries (names : List Name) : List Dirent :=
  ⟨rootino, strncpy dot⟩ :: ⟨rootino, strncpy dotdot⟩ ::
    names.mapIdx fun k name => ⟨k + 2, strncpy name⟩

/-- The block of the root directory. -/
def rootBlock (names : List Name) : Data := fun x =>
  ((rootEntries names).map Dirent.bytes)[x / desize]?.elim 0 (·.getD (x % desize) 0)

/-- The file system of `mkfs` for at most 62 empty files, after the first process has set its
current directory. The size of the root directory is what `mkfs` sets it to, the next multiple of
the block size above the end of its entries. -/
def mkfs (names : List Name) : State where
  sb := { size := 2000, nblocks := 1953, ninodes := 200, inodestart := 33, bmapstart := 46,
          size_lt := by decide }
  used b := decide (b < 48)
  dinode i :=
    if i = rootino then
      { type := .dir, nlink := 1, addrs := Function.update (fun _ => 0) 0 47
        size := (desize * (names.length + 2) / bsize + 1) * bsize }
    else if 2 ≤ i ∧ i < names.length + 2 then { type := .file, nlink := 1 }
    else {}
  data b := if b = 47 then rootBlock names else fun _ => 0
  itable i := if i = rootino then { ref := 1 } else {}
  cwd p := if p = 0 then some rootino else none
  files := []
  logged := []

/-! ### Runs -/

/-- The calls. -/
inductive Call
  | open (p : Fin nproc) (path : List UInt8) (omode : Mode) (slot : Bool)
  | link (p : Fin nproc) (old new : List UInt8)
  | unlink (p : Fin nproc) (path : List UInt8)
  | mkdir (p : Fin nproc) (path : List UInt8)
  | mknod (p : Fin nproc) (path : List UInt8) (major minor : ℤ)
  | chdir (p : Fin nproc) (path : List UInt8)
  | write (i : ℕ) (src : Source) (n1 : ℕ)
  | close (i : ℕ)
  | fork (p q : Fin nproc)
  | exit (p : Fin nproc)

def Call.run : Call → F PUnit
  | .open p path omode slot => do let _ ← sysOpen p path omode slot
  | .link p old new => do let _ ← sysLink p old new
  | .unlink p path => do let _ ← sysUnlink p path
  | .mkdir p path => do let _ ← sysMkdir p path
  | .mknod p path major minor => do let _ ← sysMknod p path major minor
  | .chdir p path => do let _ ← sysChdir p path
  | .write i src n1 => do let _ ← filewrite i src n1
  | .close i => fileclose i
  | .fork p q => forkCwd p q
  | .exit p => exitCwd p

/-- One call; `none` if it panics. -/
def step (s : State) (c : Call) : Option State :=
  match c.run.run s with
  | .ok _ s' => some s'
  | .error _ _ => none

end Fs

end Xv6
