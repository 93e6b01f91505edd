import Mathlib.Data.Nat.ModEq
import Mathlib.Logic.Function.Basic

/-!
# Ring buffers with wrapping counters

A queue kept in a ring of `n` cells by two counters that run modulo `m`: the reader's counter is
that of the oldest element, the writer's is that of the next one to be stored. Neither counter is
reduced modulo `n`, so a full ring and an empty one can be told apart, as long as `n < m`; the
cell of a counter is found by reducing it, so `n` has to divide `m`.

`Holds data r w q` says that the ring with the counters `r` and `w` holds the elements `q`, oldest
first. `Holds.push` and `Holds.pop` are the two operations, and `Holds.eq_nil_iff` and
`Holds.full_iff` the two tests. A writer that stores first and moves its counter later uses
`Holds.write` and `Holds.advance`; one that takes its last element back uses `Holds.retract`.
-/

namespace Fifo

variable {α : Type*} {n m r w : ℕ} {data : ℕ → α} {q : List α} {x : α}

/-- The ring holds the elements `q`. -/
structure Holds (n m : ℕ) (data : ℕ → α) (r w : ℕ) (q : List α) : Prop where
  length_le : q.length ≤ n
  lt : r < m
  eq : w = (r + q.length) % m
  cell : ∀ k x, q[k]? = some x → data ((r + k) % n) = x

/-- The elements between the two counters. -/
def contents (n m : ℕ) (data : ℕ → α) (r w : ℕ) : List α :=
  (List.range ((w + m - r) % m)).map fun k => data ((r + k) % n)

namespace Holds

/-- A fresh ring. -/
theorem empty (hm : 0 < m) : Holds n m data 0 0 [] :=
  ⟨Nat.zero_le n, hm, (Nat.zero_mod m).symm, fun k x hk => by simp at hk⟩

/-- The counters tell the number of elements. -/
theorem length_eq (h : Holds n m data r w q) (hn : n < m) : (w + m - r) % m = q.length := by
  have hlen := h.length_le
  have hr := h.lt
  rw [h.eq]
  by_cases hlt : r + q.length < m
  · rw [Nat.mod_eq_of_lt hlt, show r + q.length + m - r = q.length + m by omega,
      Nat.add_mod_right, Nat.mod_eq_of_lt (by omega)]
  · rw [Nat.mod_eq_sub_mod (not_lt.mp hlt), Nat.mod_eq_of_lt (by omega : r + q.length - m < m),
      show r + q.length - m + m - r = q.length by omega, Nat.mod_eq_of_lt (by omega)]

/-- The elements can be read off the ring. -/
theorem contents_eq (h : Holds n m data r w q) (hn : n < m) : contents n m data r w = q := by
  rw [contents, h.length_eq hn]
  refine List.ext_getElem? fun k => ?_
  rw [List.getElem?_map]
  by_cases hk : k < q.length
  · rw [List.getElem?_range hk, List.getElem?_eq_getElem hk, Option.map_some,
      h.cell k q[k] (List.getElem?_eq_getElem hk)]
  · rw [List.getElem?_eq_none (by simpa using hk), List.getElem?_eq_none (not_lt.mp hk)]
    rfl

/-- The ring is empty if the counters agree. -/
theorem eq_nil_iff (h : Holds n m data r w q) (hn : n < m) : r = w ↔ q = [] := by
  have hlen := h.length_eq hn
  have hr := h.lt
  constructor
  · rintro rfl
    rw [Nat.add_sub_cancel_left, Nat.mod_self] at hlen
    exact List.eq_nil_of_length_eq_zero hlen.symm
  · rintro rfl
    rw [h.eq, List.length_nil, Nat.add_zero, Nat.mod_eq_of_lt hr]

/-- The ring is full if the writer is `n` ahead. -/
theorem full_iff (h : Holds n m data r w q) (hn : n < m) : w = (r + n) % m ↔ q.length = n := by
  have hlen := h.length_le
  have hr := h.lt
  constructor
  · intro hw
    -- two numbers below `m` ahead of `r` with the same remainder are the same
    have heq : q.length ≡ n [MOD m] := by
      refine Nat.ModEq.add_left_cancel' r ?_
      rw [Nat.ModEq, ← h.eq, hw]
    exact heq.eq_of_lt_of_lt (by omega) hn
  · intro hq
    rw [h.eq, hq]

/-- The writer's cell is not one of those in use. -/
theorem write (h : Holds n m data r w q) (hdvd : n ∣ m) (hlt : q.length < n) :
    Holds n m (Function.update data (w % n) x) r w q := by
  refine ⟨h.length_le, h.lt, h.eq, fun k y hk => ?_⟩
  have hkq : k < q.length := (List.getElem?_eq_some_iff.mp hk).1
  have hne : (r + k) % n ≠ w % n := by
    rw [h.eq, Nat.mod_mod_of_dvd _ hdvd]
    intro heq
    have heq' : k ≡ q.length [MOD n] := Nat.ModEq.add_left_cancel' r heq
    exact hkq.ne (heq'.eq_of_lt_of_lt (hkq.trans hlt) hlt)
  rw [Function.update_of_ne hne]
  exact h.cell k y hk

/-- Move the writer's counter past the element in its cell. -/
theorem advance (h : Holds n m data r w q) (hdvd : n ∣ m) (hlt : q.length < n)
    (hx : data (w % n) = x) : Holds n m data r ((w + 1) % m) (q ++ [x]) := by
  refine ⟨by simpa using Nat.succ_le_of_lt hlt, h.lt, ?_, fun k y hk => ?_⟩
  · rw [h.eq, List.length_append, List.length_singleton, Nat.mod_add_mod, Nat.add_assoc]
  · rcases lt_trichotomy k q.length with hkq | rfl | hkq
    · rw [List.getElem?_append_left hkq] at hk
      exact h.cell k y hk
    · rw [List.getElem?_concat_length, Option.some.injEq] at hk
      rw [← hk, ← hx, h.eq, Nat.mod_mod_of_dvd _ hdvd]
    · rw [List.getElem?_eq_none (by simpa using Nat.succ_le_of_lt hkq)] at hk
      cases hk

/-- Store an element. -/
theorem push (h : Holds n m data r w q) (hdvd : n ∣ m) (hlt : q.length < n) :
    Holds n m (Function.update data (w % n) x) r ((w + 1) % m) (q ++ [x]) :=
  (h.write hdvd hlt).advance hdvd hlt (Function.update_self ..)

/-- The oldest element is in the reader's cell. -/
theorem head (h : Holds n m data r w (x :: q)) : data (r % n) = x := h.cell 0 x rfl

/-- Take the oldest element out. -/
theorem pop (h : Holds n m data r w (x :: q)) (hdvd : n ∣ m) :
    Holds n m data ((r + 1) % m) w q := by
  have hlen := h.length_le
  have hr := h.lt
  rw [List.length_cons] at hlen
  refine ⟨by omega, Nat.mod_lt _ (by omega), ?_, fun k y hk => ?_⟩
  · rw [h.eq, List.length_cons, Nat.mod_add_mod]
    congr 1
    omega
  · rw [Nat.add_mod, Nat.mod_mod_of_dvd _ hdvd, ← Nat.add_mod]
    have hcell := h.cell (k + 1) y (by simpa using hk)
    rw [← hcell]
    congr 2
    omega

/-- Take the newest element back. -/
theorem retract (h : Holds n m data r w (q ++ [x])) : Holds n m data r ((w + m - 1) % m) q := by
  have hlen := h.length_le
  have hr := h.lt
  rw [List.length_append, List.length_singleton] at hlen
  refine ⟨by omega, hr, ?_, fun k y hk => h.cell k y ?_⟩
  · rw [h.eq, List.length_append, List.length_singleton]
    have hw : (r + (q.length + 1)) % m + m - 1 ≡ r + q.length [MOD m] := by
      refine Nat.ModEq.add_right_cancel' 1 ?_
      rw [Nat.sub_add_cancel (by omega), Nat.ModEq, Nat.add_mod_right, Nat.mod_mod, Nat.add_assoc]
    exact hw
  · have hkq : k < q.length := (List.getElem?_eq_some_iff.mp hk).1
    rwa [List.getElem?_append_left hkq]

/-- The first elements, up to a counter between the two. -/
theorem front {q' : List α} (h : Holds n m data r w (q ++ q')) :
    Holds n m data r ((r + q.length) % m) q := by
  have hlen := h.length_le
  rw [List.length_append] at hlen
  refine ⟨by omega, h.lt, rfl, fun k y hk => h.cell k y ?_⟩
  have hkq : k < q.length := (List.getElem?_eq_some_iff.mp hk).1
  rwa [List.getElem?_append_left hkq]

/-- The elements from a counter between the two on. -/
theorem back {q' : List α} (h : Holds n m data r w (q ++ q')) (hdvd : n ∣ m) :
    Holds n m data ((r + q.length) % m) w q' := by
  induction q generalizing r with
  | nil =>
    rw [List.length_nil, Nat.add_zero, Nat.mod_eq_of_lt h.lt]
    exact h
  | cons x q ih =>
    have hpop := ih (h.pop hdvd)
    rwa [Nat.mod_add_mod, Nat.add_assoc, Nat.add_comm 1] at hpop

end Holds

end Fifo
