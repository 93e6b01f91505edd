import Mathlib.Data.BitVec
import Mathlib.Logic.Function.Basic

/-!
# `memmove`

The kernel and the user library have a `memmove` each. Both copy byte by byte, upwards or downwards,
and they choose the direction by different tests:

* the kernel copies downwards if `dst` is inside the source region;
* the library copies upwards if `src` is above `dst`.

A loop is correct if no byte of the source is overwritten before it is read (`copyUp_moved`,
`copyDown_moved`), and each test implies this for the loop that it chooses (`memmove_moved`).
-/

namespace Xv6

namespace Strings

abbrev Addr := BitVec 64

abbrev Mem := Addr → BitVec 8

/-- The loop `while(n-- > 0) *d++ = *s++`. -/
def copyUp (m : Mem) (d s : Addr) : ℕ → Mem
  | 0 => m
  | n + 1 => copyUp (Function.update m d (m s)) (d + 1) (s + 1) n

/-- The loop `while(n-- > 0) *--d = *--s`. -/
def copyDown (m : Mem) (d s : Addr) : ℕ → Mem
  | 0 => m
  | n + 1 => copyDown (Function.update m (d - 1) (m (s - 1))) (d - 1) (s - 1) n

/-- `memmove` of the kernel; `n` is a `uint`. -/
def memmove (m : Mem) (dst src : Addr) (n : BitVec 32) : Mem × Addr :=
  if n = 0 then (m, dst)
  else if src < dst ∧ src + n.setWidth 64 > dst then
    (copyDown m (dst + n.setWidth 64) (src + n.setWidth 64) n.toNat, dst)
  else (copyUp m dst src n.toNat, dst)

/-- `memmove` of the user library; `n` is an `int`. -/
def ulibMemmove (m : Mem) (vdst vsrc : Addr) (n : BitVec 32) : Mem × Addr :=
  if vsrc > vdst then (copyUp m vdst vsrc n.toInt.toNat, vdst)
  else (copyDown m (vdst + n.signExtend 64) (vsrc + n.signExtend 64) n.toInt.toNat, vdst)

/-- The byte number `i` from `p` on. -/
def nth (p : Addr) (i : ℕ) : Addr := p + BitVec.ofNat 64 i

/-- The memory `m'` has at `d` the `n` bytes that `m` has at `s`, and is otherwise the same. -/
structure Moved (m m' : Mem) (d s : Addr) (n : ℕ) : Prop where
  inside : ∀ i < n, m' (nth d i) = m (nth s i)
  outside : ∀ a, (∀ i < n, a ≠ nth d i) → m' a = m a

section

variable {m : Mem} {d s dst src : Addr} {n : ℕ}

@[simp] theorem nth_zero (p : Addr) : nth p 0 = p := BitVec.add_zero p

theorem nth_add_one (p : Addr) (i : ℕ) : nth (p + 1) i = nth p (i + 1) := by
  rw [nth, nth, BitVec.ofNat_add, BitVec.add_assoc, BitVec.add_comm 1]
  rfl

theorem nth_succ_sub_one (p : Addr) (i : ℕ) : nth p (i + 1) - 1 = nth p i := by
  rw [← nth_add_one, nth, nth, BitVec.add_assoc, BitVec.add_comm 1, ← BitVec.add_assoc]
  exact BitVec.add_sub_cancel _ _

theorem toNat_nth {p : Addr} {i : ℕ} (h : p.toNat + i < 2 ^ 64) : (nth p i).toNat = p.toNat + i := by
  rw [nth, BitVec.toNat_add, BitVec.toNat_ofNat, Nat.add_mod_mod, Nat.mod_eq_of_lt h]

theorem nth_ne {p q : Addr} {i j : ℕ} (hi : p.toNat + i < 2 ^ 64) (hj : q.toNat + j < 2 ^ 64)
    (h : p.toNat + i ≠ q.toNat + j) : nth p i ≠ nth q j := fun heq =>
  h (by rw [← toNat_nth hi, heq, toNat_nth hj])

/-- Upwards: what has been written is not read any more. -/
theorem copyUp_moved (hd : ∀ i j, i < j → j < n → nth d i ≠ nth d j)
    (hs : ∀ i j, i < j → j < n → nth d i ≠ nth s j) : Moved m (copyUp m d s n) d s n := by
  induction n generalizing m d s with
  | zero => exact ⟨nofun, fun _ _ => rfl⟩
  | succ n ih =>
    obtain ⟨hin, hout⟩ := @ih (Function.update m d (m s)) (d + 1) (s + 1)
      (fun i j hij hj => by
        rw [nth_add_one, nth_add_one]
        exact hd _ _ (by omega) (by omega))
      (fun i j hij hj => by
        rw [nth_add_one, nth_add_one]
        exact hs _ _ (by omega) (by omega))
    refine ⟨fun i hi => ?_, fun a ha => ?_⟩
    · cases i with
      | zero =>
        have hd₀ : ∀ i < n, d ≠ nth (d + 1) i := fun i hi => by
          have := hd 0 (i + 1) (by omega) (by omega)
          rwa [nth_zero, ← nth_add_one] at this
        rw [nth_zero, nth_zero, copyUp, hout d hd₀, Function.update_self]
      | succ i =>
        have hs₀ := hs 0 (i + 1) (by omega) hi
        rw [nth_zero] at hs₀
        rw [← nth_add_one, copyUp, hin i (by omega), nth_add_one, Function.update_of_ne hs₀.symm]
    · have ha₀ : a ≠ d := nth_zero d ▸ ha 0 (by omega)
      have ha₁ : ∀ i < n, a ≠ nth (d + 1) i := fun i hi => nth_add_one d i ▸ ha (i + 1) (by omega)
      rw [copyUp, hout a ha₁, Function.update_of_ne ha₀]

/-- Downwards, from the ends of the two regions. -/
theorem copyDown_moved (hd : ∀ i j, i < j → j < n → nth d i ≠ nth d j)
    (hs : ∀ i j, i < j → j < n → nth d j ≠ nth s i) :
    Moved m (copyDown m (nth d n) (nth s n) n) d s n := by
  induction n generalizing m with
  | zero => exact ⟨nofun, fun _ _ => rfl⟩
  | succ n ih =>
    obtain ⟨hin, hout⟩ := @ih (Function.update m (nth d n) (m (nth s n)))
      (fun i j hij hj => hd i j hij (by omega)) (fun i j hij hj => hs i j hij (by omega))
    rw [copyDown, nth_succ_sub_one, nth_succ_sub_one]
    refine ⟨fun i hi => ?_, fun a ha => ?_⟩
    · rcases Nat.lt_succ_iff_lt_or_eq.mp hi with hi | rfl
      · rw [hin i hi, Function.update_of_ne (hs i n hi (by omega)).symm]
      · rw [hout _ fun j hj => (hd j i hj (by omega)).symm, Function.update_self]
    · rw [hout a fun i hi => ha i (by omega), Function.update_of_ne (ha n (by omega))]

/-- Upwards is safe unless the destination begins inside the source region. -/
theorem copyUp_moved_of_outside (hsrc : src.toNat + n ≤ 2 ^ 64) (hdst : dst.toNat + n ≤ 2 ^ 64)
    (h : dst.toNat ≤ src.toNat ∨ src.toNat + n ≤ dst.toNat) :
    Moved m (copyUp m dst src n) dst src n :=
  copyUp_moved (fun i j hij hj => nth_ne (by omega) (by omega) (by omega))
    fun i j hij hj => nth_ne (by omega) (by omega) (by omega)

/-- Downwards is safe if the destination is not below the source. -/
theorem copyDown_moved_of_le (hsrc : src.toNat + n ≤ 2 ^ 64) (hdst : dst.toNat + n ≤ 2 ^ 64)
    (h : src.toNat ≤ dst.toNat) : Moved m (copyDown m (nth dst n) (nth src n) n) dst src n :=
  copyDown_moved (fun i j hij hj => nth_ne (by omega) (by omega) (by omega))
    fun i j hij hj => nth_ne (by omega) (by omega) (by omega)

theorem add_setWidth (p : Addr) (n : BitVec 32) : p + n.setWidth 64 = nth p n.toNat := by
  rw [nth, BitVec.ofNat_toNat]

theorem add_signExtend (p : Addr) {n : BitVec 32} (hn : 0 ≤ n.toInt) :
    p + n.signExtend 64 = nth p n.toInt.toNat := by
  have hmsb : n.msb = false := by
    rw [BitVec.msb_eq_toInt]
    simpa using hn
  rw [BitVec.signExtend_eq_setWidth_of_msb_false hmsb, add_setWidth, BitVec.toInt_eq_toNat_of_msb hmsb,
    Int.toNat_natCast]

/-- Both functions move the `n` bytes, however the regions overlap, and return the destination. -/
theorem memmove_moved (m : Mem) (dst src : Addr) (n : BitVec 32) :
    (src.toNat + n.toNat ≤ 2 ^ 64 → dst.toNat + n.toNat ≤ 2 ^ 64 →
      Moved m (memmove m dst src n).1 dst src n.toNat ∧ (memmove m dst src n).2 = dst) ∧
    (0 ≤ n.toInt → src.toNat + n.toInt ≤ 2 ^ 64 → dst.toNat + n.toInt ≤ 2 ^ 64 →
      Moved m (ulibMemmove m dst src n).1 dst src n.toInt.toNat ∧
        (ulibMemmove m dst src n).2 = dst) := by
  refine ⟨fun hsrc hdst => ?_, fun hn hsrc hdst => ?_⟩
  · rw [memmove]
    split_ifs with h₀ hlt
    · subst h₀
      exact ⟨⟨nofun, fun _ _ => rfl⟩, rfl⟩
    · rw [add_setWidth, add_setWidth]
      exact ⟨copyDown_moved_of_le hsrc hdst hlt.1.le, rfl⟩
    · refine ⟨copyUp_moved_of_outside hsrc hdst ?_, rfl⟩
      -- if the source ended at the top of the address space, a `dst` above `src` would not fit
      by_contra hover
      refine hlt ⟨BitVec.lt_def.mpr (by omega), BitVec.lt_def.mpr ?_⟩
      rw [add_setWidth, toNat_nth (by omega)]
      omega
  · rw [ulibMemmove]
    split_ifs with hlt
    · have hlt : dst.toNat < src.toNat := hlt
      exact ⟨copyUp_moved_of_outside (by omega) (by omega) (Or.inl hlt.le), rfl⟩
    · have hle : src.toNat ≤ dst.toNat := not_lt.mp hlt
      rw [add_signExtend dst hn, add_signExtend src hn]
      exact ⟨copyDown_moved_of_le (by omega) (by omega) hle, rfl⟩

/-- A memory in which the bytes are different from their neighbours. -/
def lowBytes : Mem := fun a => a.setWidth 8

/-- Three bytes are moved up by one, to the end of the address space. -/
theorem memmove_moved_top : Moved lowBytes (memmove lowBytes (-3) (-4) 3).1 (-3) (-4) 3 ∧
    Moved lowBytes (ulibMemmove lowBytes (-3) (-4) 3).1 (-3) (-4) 3 :=
  ⟨((memmove_moved lowBytes (-3) (-4) 3).1 (by decide) (by decide)).1,
    ((memmove_moved lowBytes (-3) (-4) 3).2 (by decide) (by decide) (by decide)).1⟩

end

end Strings

end Xv6
