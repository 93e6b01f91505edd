import Xv6.Machine.Proc

/-!
# Exec

`kexec` of `kernel/exec.c` and `sys_exec` of `kernel/sysfile.c`. The page table under
construction is known to nobody but the running `kexec`, which is why it is kept in
`World.image`: the pages it owns have an owner there. `kexec` is cut at the points where it
may sleep (`execHeader`, `execGrow`, `loadseg`, `execFinish`, `execBad`), so that the stages
of several processes can be interleaved.

The file system enters as the contents of the file a path leads to; an executable is locked
while it is read, so its contents do not change during the call.
-/

namespace Xv6

/-! ### Executable files -/

/-- The number with the given little-endian bytes. -/
def leNat (bs : List UInt8) : ℕ := bs.foldr (fun b acc => b.toNat + 256 * acc) 0

/-- The bytes `readi` delivers to kernel memory; `off` and `n` are `uint`s. -/
def readi (file : List UInt8) (off n : ℕ) : List UInt8 :=
  if file.length < off ∨ (off + n) % 2 ^ 32 < off then [] else (file.drop off).take n

/-- The fields of `struct elfhdr` that `kexec` uses. -/
structure Elfhdr where
  magic : ℕ
  entry : ℕ
  phoff : ℕ
  phnum : ℕ
deriving DecidableEq, Repr

/-- `sizeof(struct elfhdr)`. -/
def elfhdrSize : ℕ := 64

/-- `ELF_MAGIC`. -/
def elfMagic : ℕ := 0x464C457F

/-- The header in its bytes. -/
def Elfhdr.decode (bs : List UInt8) : Elfhdr :=
  ⟨leNat (bs.take 4), leNat ((bs.drop 24).take 8), leNat ((bs.drop 32).take 8),
    leNat ((bs.drop 56).take 2)⟩

/-- The fields of `struct proghdr` that `kexec` uses. -/
structure Proghdr where
  type : ℕ
  flags : ℕ
  off : ℕ
  vaddr : ℕ
  filesz : ℕ
  memsz : ℕ
deriving DecidableEq, Repr

/-- `sizeof(struct proghdr)`. -/
def proghdrSize : ℕ := 56

/-- `ELF_PROG_LOAD`. -/
def elfProgLoad : ℕ := 1

/-- The program header in its bytes. -/
def Proghdr.decode (bs : List UInt8) : Proghdr :=
  ⟨leNat (bs.take 4), leNat ((bs.drop 4).take 4), leNat ((bs.drop 8).take 8),
    leNat ((bs.drop 16).take 8), leNat ((bs.drop 32).take 8), leNat ((bs.drop 40).take 8)⟩

/-- `flags2perm`. -/
def flags2perm (flags : ℕ) : Pte :=
  (if flags.testBit 0 then pteX else 0) ||| (if flags.testBit 1 then pteW else 0)

/-! ### Building an image -/

/-- Set the locals `pagetable` and `sz` of the current process's `kexec`. -/
def setImage (im : Option Image) : K Unit := do
  let p ← myproc
  modK fun k => k.setImage p im

/-- The locals `pagetable` and `sz` of the current process's `kexec`. -/
def getImage : K Image := do
  let k ← getK
  match k.image k.cur with
  | some im => return im
  | none => throw .kerneltrap

/-- Read the ELF header and create an empty image; `none` for `goto bad`. -/
def execHeader (file : List UInt8) : K (Option Elfhdr) := do
  let hdr := readi file 0 elfhdrSize
  if hdr.length ≠ elfhdrSize then return none
  else if (Elfhdr.decode hdr).magic ≠ elfMagic then return none
  else
    let pagetable ← procPagetable (← myproc)
    if pagetable = 0 then return none
    else
      setImage (some ⟨pagetable, 0⟩)
      return some (.decode hdr)

/-- Give a segment its memory; `false` for `goto bad`. -/
def execGrow (ph : Proghdr) : K Bool := do
  if ph.memsz < ph.filesz then return false
  else if (ph.vaddr + ph.memsz) % word < ph.vaddr then return false
  else if ph.vaddr % pgsize ≠ 0 then return false
  else
    let im ← getImage
    let sz1 ← uvmalloc im.pagetable im.sz ((ph.vaddr + ph.memsz) % word) (flags2perm ph.flags)
    if sz1 = 0 then return false
    else
      setImage (some { im with sz := sz1 })
      return true

/-- The loop of `loadseg` over its remaining `n` pages. -/
def loadsegLoop (pagetable va : ℕ) (file : List UInt8) (offset sz : ℕ) : ℕ → ℕ → K Bool
  | 0, _ => return true
  | n + 1, i => do
    let pa ← walkaddr pagetable ((va + i) % word)
    if pa = 0 then throw .loadseg
    else
      let len := min (sz - i) pgsize
      let bs := readi file ((offset + i) % 2 ^ 32) len
      modK fun k => k.setMem pa ((k.mem pa).write 0 bs)
      if bs.length ≠ len then return false
      else loadsegLoop pagetable va file offset sz n (i + pgsize)

/-- `loadseg`, whose parameters `offset` and `sz` are `uint`s. -/
def loadseg (pagetable va : ℕ) (file : List UInt8) (offset sz : ℕ) : K Bool :=
  loadsegLoop pagetable va file (offset % 2 ^ 32) (sz % 2 ^ 32)
    ((sz % 2 ^ 32 + pgsize - 1) / pgsize) 0

/-- The loop of `kexec` over its remaining `n` program headers. -/
def execSegments (file : List UInt8) : ℕ → ℕ → K Bool
  | 0, _ => return true
  | n + 1, off => do
    let hdr := readi file off proghdrSize
    let ph := Proghdr.decode hdr
    if hdr.length ≠ proghdrSize then return false
    else if ph.type ≠ elfProgLoad then execSegments file n ((off + proghdrSize) % 2 ^ 32)
    else if !(← execGrow ph) then return false
    else if !(← loadseg (← getImage).pagetable ph.vaddr file ph.off ph.filesz) then return false
    else execSegments file n ((off + proghdrSize) % 2 ^ 32)

/-- Allocate the stack and its guard page. -/
def execStack : K Bool := do
  let im ← getImage
  let sz := pgroundup im.sz
  setImage (some { im with sz := sz })
  let sz1 ← uvmalloc im.pagetable sz ((sz + (userstack + 1) * pgsize) % word) pteW
  if sz1 = 0 then return false
  else
    setImage (some { im with sz := sz1 })
    uvmclear im.pagetable (sz1 - (userstack + 1) * pgsize)
    return true

/-- `sp -= n; sp -= sp % 16`. -/
def pushDown (sp n : ℕ) : ℕ :=
  let sp := (sp + word - n) % word
  sp - sp % 16

/-- The loop that copies the argument strings to the new stack: the final `sp` and the
addresses of the strings. -/
def execArgsLoop (pagetable stackbase : ℕ) :
    List (List UInt8) → ℕ → List ℕ → K (Option (ℕ × List ℕ))
  | [], sp, ustack => return some (sp, ustack)
  | s :: argv, sp, ustack => do
    if maxarg ≤ ustack.length then return none
    else
      let sp := pushDown sp (s.length + 1)
      if sp < stackbase then return none
      else if (← copyout pagetable sp (s ++ [0])) < 0 then return none
      else execArgsLoop pagetable stackbase argv sp (ustack ++ [sp])

/-- Push the argument strings and the array of their addresses; the final `sp`. -/
def execArgs (argv : List (List UInt8)) : K (Option ℕ) := do
  let im ← getImage
  let stackbase := im.sz - userstack * pgsize
  match ← execArgsLoop im.pagetable stackbase argv im.sz [] with
  | none => return none
  | some (sp, ustack) =>
    let sp := pushDown sp ((argv.length + 1) * 8)
    if sp < stackbase then return none
    else if (← copyout im.pagetable sp ((ustack ++ [0]).flatMap (leBytes 8))) < 0 then return none
    else return some sp

/-- The part of a path after its last slash. -/
def basename (path : List UInt8) : List UInt8 := (path.reverse.takeWhile (· != 47)).reverse

/-- Free the page table held in `kexec`'s locals. -/
def freeImage : K Unit := do
  let im ← getImage
  procFreepagetable im.pagetable im.sz
  setImage none

/-- Commit to the new image and free the old one. -/
def execCommit (entry : ℕ) (path : List UInt8) (sp : ℕ) : K Unit := do
  let p ← myproc
  let im ← getImage
  let old := (← getK).proc p
  modProc p fun q =>
    { q with
      name := (basename path).take 15
      pagetable := im.pagetable
      sz := im.sz
      tf := { q.tf with a1 := sp, epc := entry, sp := sp } }
  setImage (some ⟨old.pagetable, old.sz⟩)
  freeImage

/-- The label `bad`. -/
def execBad : K ℤ := do
  let k ← getK
  if (k.image k.cur).isSome then freeImage
  return -1

/-- `kexec` from the stack on, after the file has been released: nothing here sleeps. -/
def execFinish (entry : ℕ) (path : List UInt8) (argv : List (List UInt8)) : K ℤ := do
  if !(← execStack) then execBad
  else
    match ← execArgs argv with
    | none => execBad
    | some sp =>
      execCommit entry path sp
      return argv.length

/-- `kexec`, `ip` being the contents of the file that `namei(path)` finds. -/
def kexec (ip : Option (List UInt8)) (path : List UInt8) (argv : List (List UInt8)) : K ℤ := do
  match ip with
  | none => return -1
  | some file =>
    match ← execHeader file with
    | none => execBad
    | some elf =>
      if !(← execSegments file elf.phnum (elf.phoff % 2 ^ 32)) then execBad
      else execFinish elf.entry path argv

/-! ### The system call -/

/-- `fetchaddr`. -/
def fetchaddr (addr : ℕ) : K (Option ℕ) := do
  let k ← getK
  let q := k.proc k.cur
  if q.sz ≤ addr ∨ q.sz < (addr + 8) % word then return none
  else
    let (status, bs) ← copyin q.pagetable addr 8
    if status ≠ 0 then return none else return some (leNat bs)

/-- `fetchstr`: the string, without its NUL. -/
def fetchstr (addr max : ℕ) : K (Option (List UInt8)) := do
  let k ← getK
  let (status, bs) ← copyinstr (k.proc k.cur).pagetable addr max
  if status < 0 then return none else return some bs.dropLast

/-- Free the argument pages of the current process. -/
def freeArgs : List ℕ → K Unit
  | [] => return
  | pg :: rest => do
    kfree pg
    let p ← myproc
    modK fun k => k.setArgs p rest
    freeArgs rest

/-- One argument of `sys_exec`: fetch its address and its string into a page of its own. -/
def execFetch (uarg : ℕ) : K (Option (List UInt8)) := do
  let pg ← kalloc
  if pg = 0 then return none
  else
    let p ← myproc
    modK fun k => k.setArgs p (k.args p ++ [pg])
    match ← fetchstr uarg pgsize with
    | none => return none
    | some s =>
      modK fun k => k.setMem pg ((k.mem pg).write 0 (s ++ [0]))
      return some s

/-- The loop of `sys_exec` over the remaining `n` places of `argv`; `none` for `goto bad`. -/
def execFetchLoop (uargv : ℕ) : ℕ → List (List UInt8) → K (Option (List (List UInt8)))
  | 0, _ => return none
  | n + 1, argv => do
    match ← fetchaddr ((uargv + 8 * argv.length) % word) with
    | none => return none
    | some uarg =>
      if uarg = 0 then return some argv
      else
        match ← execFetch uarg with
        | none => return none
        | some s => execFetchLoop uargv n (argv ++ [s])

/-- `MAXPATH`. -/
def maxpath : ℕ := 128

/-- `sys_exec`, `namei` giving the contents of the file a path leads to. -/
def sysExec (namei : List UInt8 → Option (List UInt8)) (upath uargv : ℕ) : K ℤ := do
  match ← fetchstr upath maxpath with
  | none => return -1
  | some path =>
    match ← execFetchLoop uargv maxarg [] with
    | none =>
      let k ← getK
      freeArgs (k.args k.cur)
      return -1
    | some argv =>
      let ret ← kexec (namei path) path argv
      let k ← getK
      freeArgs (k.args k.cur)
      return ret

end Xv6
