import Xv6.Machine.Kalloc

/-!
# Page tables and user memory

The page-table code of `kernel/vm.c`: `walk` and `mappages`, growing, shrinking, copying and
freeing address spaces, the page-fault handler `vmfault` with its swap-in and lazy
allocation paths, and the three loops that copy between the kernel and user memory. Status
results are the C integers, 0 for success and -1 for failure; a null page address is 0.
-/

namespace Xv6

/-- How `uvmalloc`, `uvmcopy` and `vmfault` obtain a frame: `kalloc`, and `evict_page` again
if that failed. -/
def allocOrEvict : K ℕ := do
  let mem ← kalloc
  if mem = 0 then evictPage else return mem

/-! ### Walking and mapping -/

/-- The level-2 step of `walk` with `alloc != 0`: make sure the level-1 table exists. -/
def walkMid (pagetable v : ℕ) : K Bool := do
  let t ← table pagetable
  let i := v / 512 / 512
  if (t.mid i).isSome then return true
  else
    let pg ← kalloc
    if pg = 0 then return false
    else
      modK fun k => k.setMem pg (.fill 0)
      let t ← table pagetable
      modK fun k => k.setPt pagetable (some (t.addMid i pg))
      return true

/-- The level-1 step of `walk` with `alloc != 0`: make sure the level-0 table exists. -/
def walkLow (pagetable v : ℕ) : K Bool := do
  let t ← table pagetable
  let j := v / 512
  if (t.low j).isSome then return true
  else
    let pg ← kalloc
    if pg = 0 then return false
    else
      modK fun k => k.setMem pg (.fill 0)
      let t ← table pagetable
      modK fun k => k.setPt pagetable (some (t.addLow j pg))
      return true

/-- `walk` with `alloc != 0`. -/
def walkAlloc (pagetable va : ℕ) : K (Option ℕ) := do
  if maxva ≤ va then throw .walk
  else
    let v := va / pgsize
    if ← walkMid pagetable v then
      if ← walkLow pagetable v then return some v else return none
    else return none

/-- `walk`: the virtual page number whose leaf entry the returned pointer addresses. -/
def walk (pagetable va : ℕ) (alloc : Bool) : K (Option ℕ) :=
  if alloc then walkAlloc pagetable va else walkNoalloc pagetable va

/-- `*pte` for a pointer `walk` returned. -/
def loadPte (pagetable v : ℕ) : K Pte := do return (← getK).leaf pagetable v

/-- `*pte = e` for a pointer `walk` returned. -/
def storePte (pagetable v : ℕ) (e : Pte) : K Unit := modK fun k => k.setLeaf pagetable v e

/-- `walkaddr`. -/
def walkaddr (pagetable va : ℕ) : K ℕ := do
  if maxva ≤ va then return 0
  else
    match ← walk pagetable va false with
    | none => return 0
    | some v =>
      let pte ← loadPte pagetable v
      if !pte.has pteV then return 0
      else if !pte.has pteU then return 0
      else return pte2pa pte

/-- The loop of `mappages` over its remaining `n` pages. -/
def mappagesLoop (pagetable : ℕ) (perm : Pte) : ℕ → ℕ → ℕ → K ℤ
  | 0, _, _ => return 0
  | n + 1, a, pa => do
    match ← walk pagetable a true with
    | none => return -1
    | some v =>
      let pte ← loadPte pagetable v
      if pte.has pteV then throw .remap
      else
        storePte pagetable v (mappedPte pa perm)
        mappagesLoop pagetable perm n (a + pgsize) (pa + pgsize)

/-- `mappages`. -/
def mappages (pagetable va size pa : ℕ) (perm : Pte) : K ℤ :=
  if va % pgsize ≠ 0 then throw .mappagesVa
  else if size % pgsize ≠ 0 then throw .mappagesAlign
  else if size = 0 then throw .mappagesSize
  else mappagesLoop pagetable perm (size / pgsize) va pa

/-- `uvmcreate`; 0 if out of memory. -/
def uvmcreate : K ℕ := do
  let pagetable ← kalloc
  if pagetable = 0 then return 0
  else
    modK fun k => (k.setMem pagetable (.fill 0)).setPt pagetable (some .empty)
    return pagetable

/-- The loop of `uvmunmap` over its remaining `n` pages. -/
def uvmunmapLoop (pagetable : ℕ) (doFree : Bool) : ℕ → ℕ → K Unit
  | 0, _ => return
  | n + 1, a => do
    match ← walk pagetable a false with
    | none => uvmunmapLoop pagetable doFree n (a + pgsize)
    | some v =>
      let pte ← loadPte pagetable v
      if !pte.has pteV then
        if pte.has pteS then
          freeSwapIndex (swapIndex pte)
          storePte pagetable v 0
        uvmunmapLoop pagetable doFree n (a + pgsize)
      else
        if doFree then kfree (pte2pa pte)
        storePte pagetable v 0
        uvmunmapLoop pagetable doFree n (a + pgsize)

/-- `uvmunmap`. -/
def uvmunmap (pagetable va npages : ℕ) (doFree : Bool) : K Unit :=
  if va % pgsize ≠ 0 then throw .uvmunmap
  else uvmunmapLoop pagetable doFree npages va

/-- `uvmdealloc`. -/
def uvmdealloc (pagetable oldsz newsz : ℕ) : K ℕ := do
  if oldsz ≤ newsz then return oldsz
  else
    if pgroundup newsz < pgroundup oldsz then
      uvmunmap pagetable (pgroundup newsz) ((pgroundup oldsz - pgroundup newsz) / pgsize) true
    return newsz

/-- Record in the frame table that page `mem` holds virtual page `va` of process `p`. -/
def register (mem p va : ℕ) : K Unit :=
  modK fun k => k.setFrame (frameIndex mem) ⟨true, some p, va, true⟩

/-- `p->resident_pages++`. -/
def countResident (p : ℕ) : K Unit :=
  modK fun k => k.setStats p
    { k.vmstats p with residentPages := (k.vmstats p).residentPages + 1 }

/-- The loop of `uvmalloc` over its remaining `n` pages, `oldsz` being already rounded. -/
def uvmallocLoop (pagetable oldsz newsz : ℕ) (xperm : Pte) : ℕ → ℕ → K ℕ
  | 0, _ => return newsz
  | n + 1, a => do
    let mem ← allocOrEvict
    if mem = 0 then
      let _ ← uvmdealloc pagetable a oldsz
      return 0
    else
      modK fun k => k.setMem mem (.fill 0)
      if (← mappages pagetable a pgsize mem (pteR ||| pteU ||| xperm)) ≠ 0 then
        kfree mem
        let _ ← uvmdealloc pagetable a oldsz
        return 0
      else
        let p ← myproc
        register mem p a
        countResident p
        uvmallocLoop pagetable oldsz newsz xperm n (a + pgsize)

/-- `uvmalloc`. -/
def uvmalloc (pagetable oldsz newsz : ℕ) (xperm : Pte) : K ℕ :=
  if newsz < oldsz then return oldsz
  else
    let oldsz := pgroundup oldsz
    uvmallocLoop pagetable oldsz newsz xperm ((newsz - oldsz + pgsize - 1) / pgsize) oldsz

/-! ### Freeing a page table -/

/-- `freewalk` of the level-0 table `j`. A valid entry there is a leaf; one without any of
`PTE_R`, `PTE_W`, `PTE_X` would be followed as if it pointed at a table. Irreducible, so that
unification never runs the search. -/
@[irreducible]
def freewalkLow (pagetable j pg : ℕ) : K Unit := do
  let k ← getK
  match (List.range 512).find? fun i => (k.leaf pagetable (512 * j + i)).has pteV with
  | some i =>
    if (k.leaf pagetable (512 * j + i)).has (pteR ||| pteW ||| pteX) then throw .freewalk
    else throw .kerneltrap
  | none =>
    kfree pg
    let t ← table pagetable
    modK fun k => k.setPt pagetable (some (t.dropLow j))

/-- The loop of `freewalk` over the remaining `n` entries of the level-1 table `i`. -/
def freewalkMidLoop (pagetable i : ℕ) : ℕ → K Unit
  | 0 => return
  | n + 1 => do
    let t ← table pagetable
    let j := 512 * i + (511 - n)
    match t.low j with
    | some pg => freewalkLow pagetable j pg
    | none => pure ()
    freewalkMidLoop pagetable i n

/-- `freewalk` of the level-1 table `i`. -/
def freewalkMid (pagetable i pg : ℕ) : K Unit := do
  freewalkMidLoop pagetable i 512
  kfree pg
  let t ← table pagetable
  modK fun k => k.setPt pagetable (some (t.dropMid i))

/-- The loop of `freewalk` over the remaining `n` entries of the root. -/
def freewalkLoop (pagetable : ℕ) : ℕ → K Unit
  | 0 => return
  | n + 1 => do
    let t ← table pagetable
    let i := 511 - n
    match t.mid i with
    | some pg => freewalkMid pagetable i pg
    | none => pure ()
    freewalkLoop pagetable n

/-- `freewalk`. -/
def freewalk (pagetable : ℕ) : K Unit := do
  freewalkLoop pagetable 512
  kfree pagetable
  modK fun k => k.setPt pagetable none

/-- `uvmfree`. -/
def uvmfree (pagetable sz : ℕ) : K Unit := do
  if 0 < sz then uvmunmap pagetable 0 (pgroundup sz / pgsize) true
  freewalk pagetable

/-- `uvmclear`. -/
def uvmclear (pagetable va : ℕ) : K Unit := do
  match ← walk pagetable va false with
  | none => throw .uvmclear
  | some v =>
    let pte ← loadPte pagetable v
    storePte pagetable v (pte &&& ~~~pteU)

/-! ### Copying an address space -/

/-- The body of `uvmcopy` for one page with contents at physical address `src`: copy it into
`mem` and map that at `i` in `new`, giving `mem` back if mapping fails. -/
def copyPage (new np i mem src : ℕ) (flags : Pte) : K ℤ := do
  modK fun k => k.setMem mem (k.mem src)
  if (← mappages new i pgsize mem flags) ≠ 0 then
    kfree mem
    return -1
  else
    register mem np i
    countResident np
    return 0

/-- The loop of `uvmcopy` over its remaining `n` pages. -/
def uvmcopyLoop (old new np : ℕ) : ℕ → ℕ → K ℤ
  | 0, _ => return 0
  | n + 1, i => do
    match ← walk old i false with
    | none => uvmcopyLoop old new np n (i + pgsize)
    | some v =>
      let pte ← loadPte old v
      if pte.has pteV then
        let pa := pte2pa pte
        let mem ← allocOrEvict
        if mem = 0 then
          uvmunmap new 0 (i / pgsize) true
          return -1
        else if (← copyPage new np i mem pa (pteFlags pte)) ≠ 0 then
          uvmunmap new 0 (i / pgsize) true
          return -1
        else uvmcopyLoop old new np n (i + pgsize)
      else if pte.has pteS then
        let index := swapIndex pte
        let mem ← allocOrEvict
        if mem = 0 then
          uvmunmap new 0 (i / pgsize) true
          return -1
        else if (← copyPage new np i mem (getSwapAddr index)
            ((pteFlags pte &&& ~~~pteS) ||| pteV)) ≠ 0 then
          uvmunmap new 0 (i / pgsize) true
          return -1
        else uvmcopyLoop old new np n (i + pgsize)
      else uvmcopyLoop old new np n (i + pgsize)

/-- `uvmcopy`. -/
def uvmcopy (old new sz np : ℕ) : K ℤ :=
  uvmcopyLoop old new np ((sz + pgsize - 1) / pgsize) 0

/-! ### Page faults -/

/-- `ismapped`. -/
def ismapped (pagetable va : ℕ) : K Bool := do
  match ← walk pagetable va false with
  | none => return false
  | some v => return (← loadPte pagetable v).has pteV

/-- The swap-in path of `vmfault` for the leaf of virtual page `v`. -/
def swapIn (pagetable va v : ℕ) : K ℕ := do
  let p ← myproc
  let index := swapIndex (← loadPte pagetable v)
  let mem ← allocOrEvict
  -- the code tests `mem` for null only after copying into it
  if mem = 0 then throw .kerneltrap
  else
    modK fun k => k.setMem mem (k.mem (getSwapAddr index))
    freeSwapIndex index
    storePte pagetable v (swappedInPte (← loadPte pagetable v) mem)
    modK fun k => k.setStats p
      { k.vmstats p with
        pagesSwappedIn := (k.vmstats p).pagesSwappedIn + 1
        residentPages := (k.vmstats p).residentPages + 1 }
    if (← loadPte pagetable v) = 0 then throw .invalidPte
    else
      register mem p va
      return mem

/-- The lazy-allocation path of `vmfault` for the leaf of virtual page `v`. -/
def lazyAlloc (pagetable va v : ℕ) : K ℕ := do
  let p ← myproc
  if ← ismapped pagetable va then return 0
  else
    let mem ← allocOrEvict
    if mem = 0 then throw .vmfaultMem
    else
      modK fun k => k.setMem mem (.fill 0)
      countResident p
      let own := ((← getK).proc p).pagetable
      if (← mappages own va pgsize mem (pteW ||| pteU ||| pteR)) ≠ 0 then
        kfree mem
        return 0
      else if (← loadPte pagetable v) = 0 then throw .invalidPte2
      else
        register mem p va
        return mem

/-- `vmfault`, whose argument `read` the code does not use. -/
def vmfault (pagetable va : ℕ) : K ℕ := do
  let p ← myproc
  modK fun k => k.setStats p
    { k.vmstats p with pageFaults := (k.vmstats p).pageFaults + 1 }
  if ((← getK).proc p).sz ≤ va then return 0
  else
    let va := pgrounddown va
    match ← walk pagetable va true with
    | none => throw .vmfaultPte
    | some v =>
      if (← loadPte pagetable v).has pteS then swapIn pagetable va v
      else lazyAlloc pagetable va v

/-! ### Copying between the kernel and user memory -/

/-- The page `copyin` and `copyout` move bytes through: `walkaddr`, then `vmfault`. -/
def userPage (pagetable va0 : ℕ) : K ℕ := do
  let pa0 ← walkaddr pagetable va0
  if pa0 = 0 then vmfault pagetable va0 else return pa0

/-- The loop of `copyout`. Each turn moves at least one byte, so the number of bytes is
enough fuel. -/
def copyoutLoop (pagetable : ℕ) : ℕ → ℕ → List UInt8 → K ℤ
  | 0, _, _ => return 0
  | fuel + 1, dstva, src =>
    if src.isEmpty then return 0
    else
      let va0 := pgrounddown dstva
      if maxva ≤ va0 then return -1
      else do
        let pa0 ← userPage pagetable va0
        if pa0 = 0 then return -1
        else
          match ← walk pagetable va0 false with
          | none => throw .kerneltrap
          | some v =>
            -- forbid copyout over read-only user text pages
            if !(← loadPte pagetable v).has pteW then return -1
            else
              let n := min (pgsize - (dstva - va0)) src.length
              record (.transfer pagetable va0)
              modK fun k => k.setMem pa0 ((k.mem pa0).write (dstva - va0) (src.take n))
              copyoutLoop pagetable fuel ((va0 + pgsize) % word) (src.drop n)

/-- `copyout`, the bytes at `src` given as a list. -/
def copyout (pagetable dstva : ℕ) (src : List UInt8) : K ℤ :=
  copyoutLoop pagetable src.length dstva src

/-- The loop of `copyin`; `acc` is what has reached `dst` so far. -/
def copyinLoop (pagetable : ℕ) : ℕ → ℕ → ℕ → List UInt8 → K (ℤ × List UInt8)
  | 0, _, _, acc => return (0, acc)
  | fuel + 1, srcva, len, acc =>
    if len = 0 then return (0, acc)
    else do
      let va0 := pgrounddown srcva
      let pa0 ← userPage pagetable va0
      if pa0 = 0 then return (-1, acc)
      else
        let n := min (pgsize - (srcva - va0)) len
        record (.transfer pagetable va0)
        let bs := ((← getK).mem pa0).read (srcva - va0) n
        copyinLoop pagetable fuel ((va0 + pgsize) % word) (len - n) (acc ++ bs)

/-- `copyin`: the status and the bytes that reached `dst`. -/
def copyin (pagetable srcva len : ℕ) : K (ℤ × List UInt8) :=
  copyinLoop pagetable len srcva len []

/-- The loop of `copyinstr`; `acc` is what has reached `dst` so far. -/
def copyinstrLoop (pagetable : ℕ) : ℕ → ℕ → ℕ → List UInt8 → K (ℤ × List UInt8)
  | 0, _, _, acc => return (-1, acc)
  | fuel + 1, srcva, max, acc =>
    if max = 0 then return (-1, acc)
    else do
      let va0 := pgrounddown srcva
      let pa0 ← walkaddr pagetable va0
      if pa0 = 0 then return (-1, acc)
      else
        let n := min (pgsize - (srcva - va0)) max
        let bs := ((← getK).mem pa0).read (srcva - va0) n
        if bs.contains 0 then return (0, acc ++ bs.takeWhile (· != 0) ++ [0])
        else copyinstrLoop pagetable fuel ((va0 + pgsize) % word) (max - n) (acc ++ bs)

/-- `copyinstr`: the status and the bytes that reached `dst`. -/
def copyinstr (pagetable srcva max : ℕ) : K (ℤ × List UInt8) :=
  copyinstrLoop pagetable max srcva max []

end Xv6
