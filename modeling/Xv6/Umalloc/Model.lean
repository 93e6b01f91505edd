import Mathlib.Algebra.Ring.Nat
import Xv6.Logic.Circular

/-!
# The user-level allocator

A model of user/umalloc.c. Every block begins with a header of 16 bytes, which holds the size of the
block in units of a header and, while the block is free, a pointer to the next free block. The free
blocks and the static header `base` are linked in a circle, which `free` keeps in address order and
`malloc` walks from where it stopped last. Addresses are in bytes.

The state has beside the variables of the program what its guarantees are about: the blocks that
`malloc` has returned and that have not been freed, and the regions that `sbrk` has returned.
-/

namespace Xv6

namespace Umalloc

open Circular

/-- `sizeof(Header)`. -/
def hdr : ℕ := 16

structure State where
  /-- The address of `base`. -/
  base : ℕ
  /-- `s.ptr` and `s.size` of the header at an address. -/
  ptr : ℕ → ℕ
  size : ℕ → ℕ
  /-- Null until the first call of `malloc`. -/
  freep : ℕ := 0
  /-- The headers of the blocks in use. -/
  live : List ℕ := []
  /-- The address and the size of what `sbrk` has returned. -/
  regions : List (ℕ × ℕ) := []

def State.setPtr (s : State) (a x : ℕ) : State := { s with ptr := Function.update s.ptr a x }

/-- Sizes are of type `uint`. -/
def State.setSize (s : State) (a x : ℕ) : State :=
  { s with size := Function.update s.size a (x % 2 ^ 32) }

section

variable {s : State} {a b x : ℕ}

@[simp]
theorem ptr_setPtr_self : (s.setPtr a x).ptr a = x := Function.update_self ..

@[simp]
theorem ptr_setPtr_of_ne (h : b ≠ a) : (s.setPtr a x).ptr b = s.ptr b := Function.update_of_ne h ..

@[simp]
theorem size_setPtr : (s.setPtr a x).size = s.size := rfl

@[simp]
theorem ptr_setSize : (s.setSize a x).ptr = s.ptr := rfl

@[simp]
theorem size_setSize_self : (s.setSize a x).size a = x % 2 ^ 32 := Function.update_self ..

@[simp]
theorem size_setSize_of_ne (h : b ≠ a) : (s.setSize a x).size b = s.size b :=
  Function.update_of_ne h ..

end

/-- Where the loop of `free` stops. -/
def stops (s : State) (bp p : ℕ) : Bool :=
  (p < bp && bp < s.ptr p) || (s.ptr p ≤ p && (p < bp || bp < s.ptr p))

/-- `bp` takes over the block after it, or is linked to it. -/
def joinNext (s : State) (bp p : ℕ) : State :=
  if bp + hdr * s.size bp = s.ptr p then
    (s.setSize bp (s.size bp + s.size (s.ptr p))).setPtr bp (s.ptr (s.ptr p))
  else s.setPtr bp (s.ptr p)

/-- `p` takes over the block `bp` after it, or is linked to it. -/
def joinPrev (s : State) (bp p : ℕ) : State :=
  if p + hdr * s.size p = bp then (s.setSize p (s.size p + s.size bp)).setPtr p (s.ptr bp)
  else s.setPtr p bp

/-- `free(ap)`. `fuel` bounds the turns of its loop. -/
def free (fuel ap : ℕ) (s : State) : Option State := do
  let bp := ap - hdr
  let p ← seek s.ptr (stops s bp) fuel s.freep
  return { joinPrev (joinNext s bp p) bp p with freep := p }

/-- The argument of `sbrk`, which is an `int`. -/
def sbrkArg (nu : ℕ) : ℤ := Int.bmod (nu * hdr) (2 ^ 32)

/-- The units that `morecore` asks for. -/
def coreUnits (nu : ℕ) : ℕ := if nu < 4096 then 4096 else nu

/-- `morecore(nu)`; `ans` is what `sbrk` returns, if it does not fail. -/
def morecore (fuel nu : ℕ) (ans : Option ℕ) (s : State) : Option (State × ℕ) :=
  match ans with
  | none => some (s, 0)
  | some hp => do
    let s := { s with regions := (hp, (sbrkArg (coreUnits nu)).toNat) :: s.regions }
    let s ← free fuel (hp + hdr) (s.setSize hp (coreUnits nu))
    return (s, s.freep)

/-- `malloc` takes `nunits` units from the block `p`, the one after `prevp`. The block is returned
as a whole, or its end is. -/
def take (s : State) (nunits prevp p : ℕ) : State × ℕ :=
  if s.size p = nunits then ({ s.setPtr prevp (s.ptr p) with freep := prevp }, p)
  else
    let s := s.setSize p (s.size p - nunits)
    let q := p + hdr * s.size p
    ({ s.setSize q nunits with freep := prevp }, q)

/-- The loop of `malloc`; the header of the block, or 0. `ans` is for the first call of `morecore`,
after which there is a block to be found. -/
def mallocLoop (nunits : ℕ) : ℕ → Option ℕ → ℕ → ℕ → State → Option (State × ℕ)
  | 0, _, _, _, _ => none
  | fuel + 1, ans, prevp, p, s =>
    if nunits ≤ s.size p then some (take s nunits prevp p)
    else if p = s.freep then do
      let (s, p) ← morecore fuel nunits ans s
      if p = 0 then return (s, 0)
      else mallocLoop nunits fuel none p (s.ptr p) s
    else mallocLoop nunits fuel ans p (s.ptr p) s

/-- The units for `nbytes` bytes and a header. -/
def nunits (nbytes : ℕ) : ℕ := (nbytes + hdr - 1) / hdr + 1

/-- The beginning of `malloc`. -/
def start (s : State) : State :=
  if s.freep = 0 then { (s.setPtr s.base s.base).setSize s.base 0 with freep := s.base } else s

/-- `malloc(nbytes)`. -/
def malloc (fuel nbytes : ℕ) (ans : Option ℕ) (s : State) : Option (State × ℕ) := do
  let s := start s
  let (s, a) ← mallocLoop (nunits nbytes) fuel ans s.freep (s.ptr s.freep) s
  if a = 0 then return (s, 0)
  else return ({ s with live := a :: s.live }, a + hdr)

/-- What a program does with the allocator. -/
inductive Call
  | malloc (nbytes : ℕ) (ans : Option ℕ)
  /-- Free the block with this header. -/
  | free (a : ℕ)
  /-- Write to memory. -/
  | store (ptr size : ℕ → ℕ)

/-- A call whose loops make at most `fuel` turns. -/
def step (s : State) : ℕ × Call → Option State
  | (fuel, .malloc nbytes ans) => (malloc fuel nbytes ans s).map Prod.fst
  | (fuel, .free a) => free fuel (a + hdr) { s with live := s.live.filter (· ≠ a) }
  | (_, .store ptr size) => some { s with ptr := ptr, size := size }

/-- `sbrk` returns a new region: it is above `base` and the earlier ones, and has the size that
`morecore(nu)` asks for. -/
structure Fresh (s : State) (nu hp : ℕ) : Prop where
  base : s.base + hdr ≤ hp
  above : ∀ r ∈ s.regions, r.1 + r.2 ≤ hp
  size : sbrkArg (coreUnits nu) = (hdr * coreUnits nu : ℕ)

/-- The calls that are allowed: `sbrk` fails or returns a new region, only blocks in use are freed,
and what the program writes is inside the blocks in use, behind their headers. -/
def Allowed (s : State) : Call → Prop
  | .malloc nbytes ans => nbytes < 2 ^ 32 ∧ ∀ hp ∈ ans, Fresh s (nunits nbytes) hp
  | .free a => a ∈ s.live
  | .store ptr size => ∀ a, (∀ b ∈ s.live, ¬(b < a ∧ a < b + hdr * s.size b)) →
      ptr a = s.ptr a ∧ size a = s.size a

/-- Before the first call. -/
def Boot (s : State) : Prop := 0 < s.base ∧ s.freep = 0 ∧ s.live = [] ∧ s.regions = []

end Umalloc

end Xv6
