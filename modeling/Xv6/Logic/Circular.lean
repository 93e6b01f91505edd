import Mathlib.Data.List.Chain
import Mathlib.Data.List.Nodup
import Mathlib.Logic.Function.Basic

/-!
# Circular lists

A list of nodes linked by one pointer each, the last node pointing to the first, as C code builds
it from `next` pointers. `Path next l` says that the pointer of each node of `l` is to the one that
follows, and a ring through `h` is a path from `h` to `h`. A search that follows the pointers from
any node of the ring meets all of them.
-/

namespace Circular

variable {α : Type*} {next next' : α → α} {h p q : α} {l xs ys : List α}

/-- Each node of the list points to the following one. -/
def Path (next : α → α) (l : List α) : Prop := l.IsChain fun x y => next x = y

theorem path_split : Path next (xs ++ p :: ys) ↔ Path next (xs ++ [p]) ∧ Path next (p :: ys) :=
  List.isChain_split

theorem path_cons_cons : Path next (p :: q :: l) ↔ next p = q ∧ Path next (q :: l) :=
  List.isChain_cons_cons

/-- A chain depends on what holds from its elements other than the last. -/
theorem isChain_congr {R R' : α → α → Prop} (hp : (xs ++ [p]).IsChain R)
    (hx : ∀ x ∈ xs, ∀ y, R x y → R' x y) : (xs ++ [p]).IsChain R' := by
  induction xs with
  | nil => exact .singleton p
  | cons x xs ih =>
    have hhead := hx x List.mem_cons_self
    have hrest : ∀ z ∈ xs, ∀ y, R z y → R' z y := fun z hz => hx z (List.mem_cons_of_mem x hz)
    cases xs with
    | nil => exact .cons_cons (hhead p (List.isChain_cons_cons.mp hp).1) (.singleton p)
    | cons y ys =>
      obtain ⟨hxy, hp⟩ := List.isChain_cons_cons.mp hp
      exact .cons_cons (hhead y hxy) (ih hp hrest)

/-- A path depends on the pointers that leave its nodes other than the last. -/
theorem Path.congr (hp : Path next (xs ++ [p])) (hx : ∀ x ∈ xs, next' x = next x) :
    Path next' (xs ++ [p]) :=
  isChain_congr hp fun x hm _ hxy => (hx x hm).trans hxy

theorem Path.cons (hp : Path next (l ++ [h])) (hq : next q = l.headD h) :
    Path next (q :: l ++ [h]) := by
  cases l with
  | nil => exact path_cons_cons.mpr ⟨hq, hp⟩
  | cons x l => exact path_cons_cons.mpr ⟨hq, hp⟩

/-- Following the pointers from `h` meets the nodes of `l` and comes back. -/
def Loop (next : α → α) (h : α) (l : List α) : Prop := Path next (h :: l ++ [h])

/-- A ring goes through each of its nodes. -/
theorem Loop.rotate (hr : Loop next h l) (hl : h :: l = xs ++ p :: ys) :
    Loop next p (ys ++ xs) := by
  rw [Loop, hl, List.append_assoc, List.cons_append, path_split] at hr
  cases xs with
  | nil =>
    obtain ⟨rfl, rfl⟩ := List.cons.inj hl
    rw [Loop, List.append_nil]
    exact hr.2
  | cons x xs =>
    obtain ⟨rfl, -⟩ := List.cons.inj hl
    rw [Loop, ← List.cons_append, List.append_assoc, @List.cons_append _ _ _ [p], path_split]
    exact ⟨hr.2, hr.1⟩

theorem perm_next (xs ys : List α) : (xs ++ p :: q :: ys).Perm (q :: (xs ++ p :: ys)) := by
  have hperm := @List.perm_middle α q (xs ++ [p]) ys
  simpa using hperm

/-- The pointer of a node is to the node after it, or to the first. -/
theorem Loop.next_eq (hr : Loop next h l) (hl : h :: l = xs ++ p :: ys) :
    next p = ys.headD h := by
  rw [Loop, hl, List.append_assoc, List.cons_append, path_split] at hr
  cases ys with
  | nil => exact (path_cons_cons.mp hr.2).1
  | cons y ys => exact (path_cons_cons.mp hr.2).1

/-- `for(; !stop(p); p = p->next)`. -/
def seek (next : α → α) (stop : α → Bool) : ℕ → α → Option α
  | 0, _ => none
  | n + 1, p => if stop p then some p else seek next stop n (next p)

theorem seek_mono {stop : α → Bool} {n m : ℕ} (hs : seek next stop n p = some q) (hnm : n ≤ m) :
    seek next stop m p = some q := by
  induction n generalizing p m with
  | zero => cases hs
  | succ n ih =>
    obtain ⟨m, rfl⟩ : ∃ k, m = k + 1 := ⟨m - 1, (Nat.succ_pred_eq_of_pos (by omega)).symm⟩
    rw [seek] at hs ⊢
    split at hs
    · rename_i hstop
      rw [if_pos hstop]
      exact hs
    · rename_i hstop
      rw [if_neg hstop]
      exact ih hs (Nat.le_of_succ_le_succ hnm)

theorem Path.seek {stop : α → Bool} {n : ℕ} (hp : Path next (p :: l))
    (hex : ∃ x ∈ p :: l, stop x = true) (hn : l.length < n) :
    ∃ x ∈ p :: l, stop x = true ∧ seek next stop n p = some x := by
  induction l generalizing p n with
  | nil =>
    obtain ⟨x, hx, hs⟩ := hex
    rw [List.mem_singleton] at hx
    subst hx
    obtain ⟨n, rfl⟩ : ∃ m, n = m + 1 := ⟨n - 1, (Nat.succ_pred_eq_of_pos hn).symm⟩
    exact ⟨x, List.mem_cons_self, hs, if_pos hs⟩
  | cons y l ih =>
    obtain ⟨n, rfl⟩ : ∃ m, n = m + 1 := ⟨n - 1, (Nat.succ_pred_eq_of_pos (Nat.zero_lt_of_lt hn)).symm⟩
    by_cases hs : stop p = true
    · exact ⟨p, List.mem_cons_self, hs, if_pos hs⟩
    · obtain ⟨hpy, hp⟩ := path_cons_cons.mp hp
      obtain ⟨x, hx, hsx⟩ := hex
      have hx' : x ∈ y :: l := (List.mem_cons.mp hx).resolve_left fun heq => hs (heq ▸ hsx)
      obtain ⟨z, hz, hsz, hseek⟩ := ih hp ⟨x, hx', hsx⟩ (Nat.lt_of_succ_lt_succ hn)
      refine ⟨z, List.mem_cons_of_mem p hz, hsz, ?_⟩
      rw [Circular.seek, if_neg hs, hpy]
      exact hseek

/-- A search from any node of a ring ends if there is something to be found. -/
theorem Loop.seek {stop : α → Bool} {n : ℕ} (hr : Loop next h l) (hp : p ∈ h :: l)
    (hex : ∃ x ∈ h :: l, stop x = true) (hn : l.length < n) :
    ∃ x ∈ h :: l, stop x = true ∧ seek next stop n p = some x := by
  obtain ⟨xs, ys, hl⟩ := List.append_of_mem hp
  have hmem : ∀ x, x ∈ p :: (ys ++ xs) ↔ x ∈ h :: l := fun x => by
    rw [hl]
    simp only [List.mem_cons, List.mem_append]
    tauto
  have hlen : (ys ++ xs).length = l.length := by
    have := congrArg List.length hl
    simp only [List.length_cons, List.length_append] at this ⊢
    omega
  have hpath : Path next (p :: (ys ++ xs)) := (List.isChain_append.mp (hr.rotate hl)).1
  simp only [← hmem] at hex ⊢
  exact hpath.seek hex (hlen ▸ hn)

end Circular
