import Mathlib.Tactic.Common
import Mathlib.Data.Nat.Bitwise

/-!
# Addresses and page-table entries

The constants of `kernel/riscv.h`, `kernel/memlayout.h`, `kernel/param.h` and the paging
constants of `kernel/vm.c`, and the macros that take page-table entries apart.

A page-table entry is the 64-bit word the hardware sees. Its low ten bits are flags;
`pteS` is bit 8, which the hardware ignores and the kernel uses to mark a page whose bytes
are in a swap slot. The word above the flags is a physical page number while the entry is
valid and the slot number while it is swapped out. Addresses are natural numbers, reduced
modulo `2 ^ 64` where the C arithmetic can wrap.
-/

namespace Xv6

/-! ### Layout constants -/

/-- `PGSIZE`: bytes per page. -/
def pgsize : ℕ := 4096

/-- `MAXVA`: one beyond the highest virtual address the kernel uses. -/
def maxva : ℕ := 2 ^ (9 + 9 + 9 + 12 - 1)

/-- `TRAMPOLINE`: the highest page of every address space. -/
def trampoline : ℕ := maxva - pgsize

/-- `TRAPFRAME`: the page below the trampoline. -/
def trapframeVa : ℕ := trampoline - pgsize

/-- `KERNBASE`: where RAM starts. -/
def kernbase : ℕ := 0x80000000

/-- `PHYSTOP`: the end of the RAM the allocator hands out. -/
def phystop : ℕ := kernbase + 2 * 1024 * 1024

/-- `NFRAMES`: entries of the frame table. -/
def nframes : ℕ := (phystop - kernbase) / pgsize

/-- `MAX_SP` of `vm.c`: number of swap slots. -/
def maxSp : ℕ := 4096

/-- `SWAP_BASE`: the swap area follows RAM. -/
def swapBase : ℕ := phystop

/-- `NPROC`. -/
def nproc : ℕ := 64

/-- `NOFILE`. -/
def nofile : ℕ := 16

/-- `NFILE`. -/
def nfile : ℕ := 100

/-- `MAXARG`. -/
def maxarg : ℕ := 32

/-- `USERSTACK`. -/
def userstack : ℕ := 1

/-- Range of a C `uint64`. -/
def word : ℕ := 2 ^ 64

/-- `PGROUNDUP`, on 64-bit words. -/
def pgroundup (sz : ℕ) : ℕ := (sz + pgsize - 1) % word / pgsize * pgsize

/-- `PGROUNDDOWN`. -/
def pgrounddown (a : ℕ) : ℕ := a / pgsize * pgsize

/-- `get_swap_addr`: the address of a swap slot. -/
def getSwapAddr (index : ℕ) : ℕ := swapBase + index * pgsize

/-! ### Page-table entries -/

/-- A page-table entry, `pte_t`. -/
abbrev Pte := BitVec 64

/-- `PTE_V`: valid. -/
def pteV : Pte := BitVec.twoPow 64 0

/-- `PTE_R`. -/
def pteR : Pte := BitVec.twoPow 64 1

/-- `PTE_W`. -/
def pteW : Pte := BitVec.twoPow 64 2

/-- `PTE_X`. -/
def pteX : Pte := BitVec.twoPow 64 3

/-- `PTE_U`: user code may access the page. -/
def pteU : Pte := BitVec.twoPow 64 4

/-- `PTE_S`: the page is in the swap area. -/
def pteS : Pte := BitVec.twoPow 64 8

/-- The C test `pte & flag`. -/
def Pte.has (pte flag : Pte) : Bool := pte &&& flag != 0

/-- `PTE_FLAGS`: the low ten bits. -/
def pteFlags (pte : Pte) : Pte := pte &&& 0x3FF#64

/-- `PA2PTE`. -/
def pa2pte (pa : ℕ) : Pte := (BitVec.ofNat 64 pa >>> 12) <<< 10

/-- `PTE2PA`. -/
def pte2pa (pte : Pte) : ℕ := ((pte >>> 10) <<< 12).toNat

/-- `int swap_index = (*pte) >> 10`. -/
def swapIndex (pte : Pte) : ℕ := (pte >>> 10).toNat % 2 ^ 32

/-- The entry `evict_page` writes: `(swap_index << 10) | (flags & ~PTE_V) | PTE_S`. -/
def evictedPte (pte : Pte) (index : ℕ) : Pte :=
  BitVec.ofNat 64 index <<< 10 ||| (pteFlags pte &&& ~~~pteV) ||| pteS

/-- The entry `vmfault` writes on a swap-in: `PA2PTE(mem) | (flags & ~PTE_S) | PTE_V`. -/
def swappedInPte (pte : Pte) (mem : ℕ) : Pte :=
  pa2pte mem ||| (pteFlags pte &&& ~~~pteS) ||| pteV

/-- The entry `mappages` writes: `PA2PTE(pa) | perm | PTE_V`. -/
def mappedPte (pa : ℕ) (perm : Pte) : Pte := pa2pte pa ||| perm ||| pteV

/-! ### Flag tests read single bits -/

theorem Pte.has_twoPow (pte : Pte) {i : ℕ} (hi : i < 64) :
    pte.has (BitVec.twoPow 64 i) = pte.getLsbD i := by
  rw [Pte.has, BitVec.and_twoPow]
  have hne : BitVec.twoPow 64 i ≠ 0#64 := by
    intro h
    have hbit : (BitVec.twoPow 64 i).getLsbD i = (0#64).getLsbD i := by rw [h]
    simp [hi] at hbit
  cases h : pte.getLsbD i <;> simp [hne]

theorem Pte.has_pteV (pte : Pte) : pte.has pteV = pte.getLsbD 0 := pte.has_twoPow (by decide)

theorem Pte.has_pteR (pte : Pte) : pte.has pteR = pte.getLsbD 1 := pte.has_twoPow (by decide)

theorem Pte.has_pteW (pte : Pte) : pte.has pteW = pte.getLsbD 2 := pte.has_twoPow (by decide)

theorem Pte.has_pteX (pte : Pte) : pte.has pteX = pte.getLsbD 3 := pte.has_twoPow (by decide)

theorem Pte.has_pteU (pte : Pte) : pte.has pteU = pte.getLsbD 4 := pte.has_twoPow (by decide)

theorem Pte.has_pteS (pte : Pte) : pte.has pteS = pte.getLsbD 8 := pte.has_twoPow (by decide)

/-- `0x3FF` masks the ten flag bits. -/
theorem getLsbD_flagMask (i : ℕ) : (0x3FF#64).getLsbD i = decide (i < 10) := by
  rw [show (0x3FF#64 : BitVec 64) = BitVec.ofNat 64 (2 ^ 10 - 1) from rfl,
    BitVec.getLsbD_ofNat, Nat.testBit_two_pow_sub_one]
  by_cases h : i < 10
  · simp [h]
    omega
  · simp [h]

theorem getLsbD_pteFlags (pte : Pte) (i : ℕ) :
    (pteFlags pte).getLsbD i = (pte.getLsbD i && decide (i < 10)) := by
  rw [pteFlags, BitVec.getLsbD_and, getLsbD_flagMask]

theorem getLsbD_pa2pte (pa : ℕ) {i : ℕ} (hi : i < 10) : (pa2pte pa).getLsbD i = false := by
  simp [pa2pte, hi]

/-- Eviction clears `PTE_V`, sets `PTE_S` and keeps the other flags. -/
theorem getLsbD_evictedPte (pte : Pte) (index : ℕ) {i : ℕ} (hi : i < 10) :
    (evictedPte pte index).getLsbD i =
      if i = 0 then false else if i = 8 then true else pte.getLsbD i := by
  have h64 : i < 64 := by omega
  rw [evictedPte, BitVec.getLsbD_or, BitVec.getLsbD_or, BitVec.getLsbD_and,
    getLsbD_pteFlags, BitVec.getLsbD_shiftLeft, BitVec.getLsbD_not, pteV, pteS,
    BitVec.getLsbD_twoPow, BitVec.getLsbD_twoPow]
  by_cases h0 : i = 0
  · subst h0
    simp
  · by_cases h8 : i = 8
    · subst h8
      simp
    · simp [hi, h64, h0, h8, Ne.symm h0, Ne.symm h8]

/-- A swap-in sets `PTE_V`, clears `PTE_S` and keeps the other flags. -/
theorem getLsbD_swappedInPte (pte : Pte) (mem : ℕ) {i : ℕ} (hi : i < 10) :
    (swappedInPte pte mem).getLsbD i =
      if i = 0 then true else if i = 8 then false else pte.getLsbD i := by
  have h64 : i < 64 := by omega
  rw [swappedInPte, BitVec.getLsbD_or, BitVec.getLsbD_or, BitVec.getLsbD_and,
    getLsbD_pteFlags, getLsbD_pa2pte mem hi, BitVec.getLsbD_not, pteV, pteS,
    BitVec.getLsbD_twoPow, BitVec.getLsbD_twoPow]
  by_cases h0 : i = 0
  · subst h0
    simp
  · by_cases h8 : i = 8
    · subst h8
      simp
    · simp [hi, h64, h0, h8, Ne.symm h0, Ne.symm h8]

/-- A mapping carries `PTE_V` and the flags it was asked for. -/
theorem getLsbD_mappedPte (pa : ℕ) (perm : Pte) {i : ℕ} (hi : i < 10) :
    (mappedPte pa perm).getLsbD i = if i = 0 then true else perm.getLsbD i := by
  rw [mappedPte, BitVec.getLsbD_or, BitVec.getLsbD_or, getLsbD_pa2pte pa hi, pteV,
    BitVec.getLsbD_twoPow]
  by_cases h0 : i = 0
  · subst h0
    simp
  · simp [h0, Ne.symm h0]

/-! ### The word above the flags -/

/-- Flag bits vanish above bit ten. -/
theorem flags_ushiftRight {fl : Pte} (h : ∀ i, 10 ≤ i → fl.getLsbD i = false) :
    fl >>> 10 = 0#64 := by
  apply BitVec.eq_of_getLsbD_eq
  intro i _
  rw [BitVec.getLsbD_ushiftRight, h _ (by omega)]
  simp

theorem pteFlags_ushiftRight (pte : Pte) : pteFlags pte >>> 10 = 0#64 :=
  flags_ushiftRight fun i hi => by
    rw [getLsbD_pteFlags]
    simp [Nat.not_lt.mpr hi]

theorem twoPow_ushiftRight {k : ℕ} (hk : k < 10) : BitVec.twoPow 64 k >>> 10 = 0#64 :=
  flags_ushiftRight fun i hi => by
    rw [BitVec.getLsbD_twoPow]
    simp
    omega

/-- A number below `2 ^ 54` survives being shifted above the flags and back. -/
theorem ofNat_shiftLeft_ushiftRight {n : ℕ} (hn : n < 2 ^ 54) :
    (BitVec.ofNat 64 n <<< 10) >>> 10 = BitVec.ofNat 64 n := by
  apply BitVec.eq_of_toNat_eq
  rw [BitVec.toNat_ushiftRight, BitVec.toNat_shiftLeft, BitVec.toNat_ofNat,
    Nat.mod_eq_of_lt (by omega : n < 2 ^ 64), Nat.shiftLeft_eq, Nat.shiftRight_eq_div_pow,
    Nat.mod_eq_of_lt (by omega : n * 2 ^ 10 < 2 ^ 64)]
  exact Nat.mul_div_cancel n (by decide)

/-- An evicted entry holds the slot it was given. -/
theorem swapIndex_evictedPte (pte : Pte) {index : ℕ} (h : index < maxSp) :
    swapIndex (evictedPte pte index) = index := by
  have hidx : index < 4096 := h
  have hand : (pteFlags pte &&& ~~~pteV) >>> 10 = 0#64 := by
    apply flags_ushiftRight
    intro i hi
    rw [BitVec.getLsbD_and, getLsbD_pteFlags]
    simp [Nat.not_lt.mpr hi]
  rw [swapIndex, evictedPte, BitVec.ushiftRight_or_distrib, BitVec.ushiftRight_or_distrib,
    ofNat_shiftLeft_ushiftRight (by omega), hand, pteS, twoPow_ushiftRight (by decide)]
  simp only [BitVec.or_zero, BitVec.toNat_ofNat]
  omega

/-- Physical addresses of whole pages that fit a page-table entry. -/
def PageAddr (pa : ℕ) : Prop := pa % pgsize = 0 ∧ pa < 2 ^ 56

theorem pa2pte_ushiftRight {pa : ℕ} (h : PageAddr pa) :
    pa2pte pa >>> 10 = BitVec.ofNat 64 (pa / 4096) := by
  have hlt : pa < 2 ^ 56 := h.2
  have hshift : BitVec.ofNat 64 pa >>> 12 = BitVec.ofNat 64 (pa / 4096) := by
    apply BitVec.eq_of_toNat_eq
    rw [BitVec.toNat_ushiftRight, BitVec.toNat_ofNat, BitVec.toNat_ofNat,
      Nat.mod_eq_of_lt (by omega : pa < 2 ^ 64), Nat.shiftRight_eq_div_pow,
      Nat.mod_eq_of_lt (by omega : pa / 4096 < 2 ^ 64)]
  rw [pa2pte, hshift, ofNat_shiftLeft_ushiftRight (by omega)]

/-- An entry built from a page address and flags points at that page. -/
theorem pte2pa_of_flags {pa : ℕ} (h : PageAddr pa) {fl : Pte} (hfl : fl >>> 10 = 0#64) :
    pte2pa (pa2pte pa ||| fl) = pa := by
  have hmod : pa % 4096 = 0 := h.1
  have hlt : pa < 2 ^ 56 := h.2
  rw [pte2pa, BitVec.ushiftRight_or_distrib, hfl, BitVec.or_zero, pa2pte_ushiftRight h,
    BitVec.toNat_shiftLeft, BitVec.toNat_ofNat, Nat.mod_eq_of_lt (by omega : pa / 4096 < 2 ^ 64),
    Nat.shiftLeft_eq, Nat.mod_eq_of_lt (by omega)]
  omega

theorem pte2pa_swappedInPte (pte : Pte) {mem : ℕ} (h : PageAddr mem) :
    pte2pa (swappedInPte pte mem) = mem := by
  rw [swappedInPte, BitVec.or_assoc]
  refine pte2pa_of_flags h ?_
  rw [BitVec.ushiftRight_or_distrib, pteV, twoPow_ushiftRight (by decide), BitVec.or_zero]
  apply flags_ushiftRight
  intro i hi
  rw [BitVec.getLsbD_and, getLsbD_pteFlags]
  simp [Nat.not_lt.mpr hi]

/-- Clearing a flag leaves the other bits. -/
theorem getLsbD_clear (e : Pte) {j : ℕ} (i : ℕ) (hij : i ≠ j) :
    (e &&& ~~~BitVec.twoPow 64 j).getLsbD i = e.getLsbD i := by
  rw [BitVec.getLsbD_and, BitVec.getLsbD_not, BitVec.getLsbD_twoPow]
  by_cases hi : i < 64
  · simp [hi, Ne.symm hij]
  · simp [BitVec.getLsbD_of_ge e i (by omega)]

theorem getLsbD_clear_self (e : Pte) (j : ℕ) :
    (e &&& ~~~BitVec.twoPow 64 j).getLsbD j = false := by
  rw [BitVec.getLsbD_and, BitVec.getLsbD_not, BitVec.getLsbD_twoPow]
  simp

theorem pte2pa_clear (e : Pte) {j : ℕ} (hj : j < 10) :
    pte2pa (e &&& ~~~BitVec.twoPow 64 j) = pte2pa e := by
  have hshift : (e &&& ~~~BitVec.twoPow 64 j) >>> 10 = e >>> 10 := by
    apply BitVec.eq_of_getLsbD_eq
    intro i _
    rw [BitVec.getLsbD_ushiftRight, BitVec.getLsbD_ushiftRight, getLsbD_clear e _ (by omega)]
  rw [pte2pa, hshift, pte2pa]

theorem pte2pa_mappedPte {pa : ℕ} (h : PageAddr pa) {perm : Pte} (hperm : perm >>> 10 = 0#64) :
    pte2pa (mappedPte pa perm) = pa := by
  rw [mappedPte, BitVec.or_assoc]
  refine pte2pa_of_flags h ?_
  rw [BitVec.ushiftRight_or_distrib, hperm, pteV, twoPow_ushiftRight (by decide),
    BitVec.or_zero]

end Xv6
