import Xv6.Machine.State

/-!
# The page allocator and the swap code

`kfree` and `kalloc` of `kernel/kalloc.c`, and `alloc_swap_index`, `free_swap_index` and
`evict_page` of `kernel/vm.c`. `kalloc` falls back on `evict_page` when the free list is
empty, and `evict_page` looks its victim up in the owner's page table, so the two files
meet here. Each function runs under its locks from beginning to end and is one atomic step.
-/

namespace Xv6

/-! ### Swap slots -/

/-- The first free slot among the `n` slots from `i` on. -/
def firstFree (mask : ℕ → Bool) : ℕ → ℕ → Option ℕ
  | 0, _ => none
  | n + 1, i => if mask i then firstFree mask n (i + 1) else some i

/-- `alloc_swap_index`; -1 is `none`. -/
def allocSwapIndex : K (Option ℕ) := do
  let k ← getK
  match firstFree k.swapMask maxSp 0 with
  | none => return none
  | some i =>
    modK fun k => k.setSlot i true
    return some i

/-- `free_swap_index`. -/
def freeSwapIndex (index : ℕ) : K Unit :=
  modK fun k => k.setSlot index false

/-! ### Victim selection -/

/-- The variables of the search of `evict_page`. The assignment `pass = 2` is made exactly
when `to_evict` is set, so no separate flag is kept for it. -/
structure Scan where
  f : ℕ → Frame
  clockP : ℕ
  toEvict : Option ℕ

/-- The queue level of the process that owns a frame. -/
def ownerLevel (k : Kernel) (v : Frame) : ℕ :=
  match v.p with
  | some o => (k.proc o).qlevel
  | none => 0

/-- One turn of the inner loop: skip a page of a process running on another CPU, give a
referenced page its second chance, else make it the candidate if it is the first one or
its owner has a lower priority than the candidate's. -/
def scanStep (k : Kernel) (c : Scan) : Scan :=
  let v := c.f c.clockP
  let next := (c.clockP + 1) % nframes
  match v.isUsed, v.p with
  | true, some o =>
    if (k.proc o).state = .running ∧ o ≠ k.cur then { c with clockP := next }
    else if v.rb then
      { c with f := Function.update c.f c.clockP { v with rb := false }, clockP := next }
    else
      match c.toEvict with
      | none => { c with toEvict := some c.clockP, clockP := next }
      | some i =>
        if ownerLevel k (c.f i) < (k.proc o).qlevel then
          { c with toEvict := some c.clockP, clockP := next }
        else { c with clockP := next }
  | _, _ => { c with clockP := next }

/-- The variables at the start of the search. -/
def Kernel.scan (k : Kernel) : Scan := ⟨k.frames, k.clockP, none⟩

/-- `n` turns of the inner loop. -/
def sweep (k : Kernel) : ℕ → Scan → Scan
  | 0, c => c
  | n + 1, c => sweep k n (scanStep k c)

/-- The second pass, made only if the first found no candidate. -/
def secondPass (k : Kernel) (c : Scan) : Scan :=
  match c.toEvict with
  | none => sweep k nframes c
  | some _ => c

/-- The two passes over the frame table. Irreducible, so that unification never runs them. -/
@[irreducible]
def selectVictim (k : Kernel) : Scan :=
  secondPass k (sweep k nframes k.scan)

/-- The state after the search: reference bits cleared and the hand moved. -/
def Kernel.scanned (k : Kernel) : Kernel :=
  { k with frames := (selectVictim k).f, clockP := (selectVictim k).clockP }

/-! ### Eviction -/

/-- `walk` with `alloc == 0`: the virtual page number whose leaf entry the returned pointer
addresses, or `none` if a page-table page is missing on the way. -/
def walkNoalloc (pagetable va : ℕ) : K (Option ℕ) := do
  if maxva ≤ va then throw .walk
  else
    let t ← table pagetable
    let v := va / pgsize
    if (t.mid (v / 512 / 512)).isNone then return none
    else if (t.low (v / 512)).isNone then return none
    else return some v

/-- What `evict_page` does to the entry `i` it selected, `v` being that entry, `root` the
owner's page table and `vp` the victim's virtual page: copy the frame to slot `idx`, mark
the leaf swapped, adjust the owner's counters and clear the frame-table entry. -/
def Kernel.swapOut (k : Kernel) (i o root vp idx : ℕ) : Kernel :=
  let pte := k.leaf root vp
  let st := k.vmstats o
  ((((k.setMem (getSwapAddr idx) (k.mem (pte2pa pte))).setLeaf root vp
    (evictedPte pte idx)).setStats o
      { st with
        pageEvicted := st.pageEvicted + 1
        pagesSwappedOut := st.pagesSwappedOut + 1
        residentPages := st.residentPages - 1 }).setFrame i
    { k.frames i with isUsed := false, p := none })

/-- The second half of `evict_page`, after the search selected entry `i`. -/
def evictFrame (i : ℕ) : K ℕ := do
  let k ← getK
  match (k.frames i).p with
  | none => throw .kerneltrap
  | some o =>
    let root := (k.proc o).pagetable
    match ← walkNoalloc root (k.frames i).va with
    | none => throw .pteNotValid3
    | some vp =>
      if !(k.leaf root vp).has pteV then throw .pteNotValid3
      else
        match ← allocSwapIndex with
        | none => throw .oom
        | some idx =>
          modK fun k => k.swapOut i o root vp idx
          return pte2pa (k.leaf root vp)

/-- `evict_page`. -/
def evictPage : K ℕ := do
  record .evictPage
  let toEvict := (selectVictim (← getK)).toEvict
  modK Kernel.scanned
  match toEvict with
  | none => throw .cannotEvict
  | some i => evictFrame i

/-! ### The free list -/

/-- `kfree`. -/
def kfree (pa : ℕ) : K Unit := do
  record (.kfree pa)
  let k ← getK
  if pa % pgsize ≠ 0 ∨ pa < k.kend ∨ phystop ≤ pa then throw .kfree
  else
    if frameIndex pa < nframes then modK fun k => k.setFrame (frameIndex pa) .clear
    modK fun k => (k.setMem pa (.fill 1)).setFree (pa :: k.freelist)

/-- `kalloc`; 0 if no page can be had. -/
def kalloc : K ℕ := do
  match (← getK).freelist with
  | r :: rest =>
    modK fun k => (k.setMem r (.fill 5)).setFree rest
    return r
  | [] =>
    let pa ← evictPage
    if pa ≠ 0 then return pa else return 0

end Xv6
