import Mathlib.Algebra.BigOperators.Group.List.Basic
import Mathlib.Algebra.Ring.Nat
import Xv6.Logic.Transition

/-!
# The log's reservations

`struct log` of `kernel/log.c` and the parts of `begin_op`, `log_write` and `end_op` that run
under its lock. Operations of any number of processes interleave; each is followed by the
list of the distinct blocks it has logged.

`begin_op` admits an operation only if the header has room for `MAXOPBLOCKS` blocks of it and
of every operation that is running. That keeps the header within its size, but `log_write`
tests for a full header before it looks whether the block is already there, so an operation
that logs one of its blocks again when the header is exactly full panics.
-/

namespace Xv6

namespace Storage

/-- `MAXOPBLOCKS`. -/
def maxopblocks : ℕ := 10

/-- `LOGBLOCKS`. -/
def logblocks : ℕ := maxopblocks * 3

/-- `struct log`, the header being the list `lh.block[0 .. lh.n)`. -/
structure Log where
  block : List ℕ := []
  outstanding : ℕ := 0
  committing : Bool := false
deriving DecidableEq, Repr

/-- The panics of `log.c`. -/
inductive LogPanic
  | tooBig | outside | committing
deriving DecidableEq, Repr

/-- The text each of them prints. -/
def LogPanic.msg : LogPanic → String
  | tooBig => "too big a transaction"
  | outside => "log_write outside of trans"
  | committing => "log.committing"

/-- One turn of `begin_op`; `none` if it sleeps. -/
def Log.beginOp (l : Log) : Option Log :=
  if l.committing then none
  else if logblocks < l.block.length + (l.outstanding + 1) * maxopblocks then none
  else some { l with outstanding := l.outstanding + 1 }

/-- `log_write`, and whether it pins the buffer. -/
def Log.logWrite (l : Log) (blockno : ℕ) : Except LogPanic (Log × Bool) :=
  if logblocks ≤ l.block.length then .error .tooBig
  else if l.outstanding < 1 then .error .outside
  else if blockno ∈ l.block then .ok (l, false)
  else .ok ({ l with block := l.block ++ [blockno] }, true)

/-- The first section of `end_op`, and whether the caller commits. -/
def Log.endOp (l : Log) : Except LogPanic (Log × Bool) :=
  let outstanding := l.outstanding - 1
  if l.committing then .error .committing
  else if outstanding = 0 then .ok ({ l with outstanding := 0, committing := true }, true)
  else .ok ({ l with outstanding := outstanding }, false)

theorem Log.logWrite_ok {l l' : Log} {b : ℕ} {pin : Bool} (h : l.logWrite b = .ok (l', pin)) :
    l.block.length < logblocks ∧ 1 ≤ l.outstanding ∧
      l' = { l with block := if pin then l.block ++ [b] else l.block } ∧ (pin = false ↔ b ∈ l.block) := by
  unfold Log.logWrite at h
  split at h
  · cases h
  · rename_i hfull
    split at h
    · cases h
    · rename_i hout
      split at h
      · rename_i hmem
        cases h
        exact ⟨by omega, by omega, rfl, by simp [hmem]⟩
      · rename_i hmem
        cases h
        exact ⟨by omega, by omega, rfl, by simp [hmem]⟩

theorem Log.beginOp_ok {l l' : Log} (h : l.beginOp = some l') :
    l.committing = false ∧ l' = { l with outstanding := l.outstanding + 1 } := by
  unfold Log.beginOp at h
  split at h
  · cases h
  · rename_i hc
    split at h
    · cases h
    · cases h
      exact ⟨by simpa using hc, rfl⟩

theorem Log.endOp_ok {l l' : Log} {last : Bool} (h : l.endOp = .ok (l', last)) :
    l.committing = false ∧ (last = true ↔ l.outstanding - 1 = 0) ∧
      l' = { l with outstanding := l.outstanding - 1, committing := last } := by
  unfold Log.endOp at h
  simp only at h
  split at h
  · cases h
  · rename_i hc
    split at h
    · rename_i hz
      cases h
      exact ⟨by simpa using hc, by simp [hz], by rw [hz]⟩
    · rename_i hz
      cases h
      have hc : l.committing = false := by simpa using hc
      exact ⟨hc, by simp [hz], by rw [hc]⟩

/-! ### Operations -/

/-- The log, and for each running operation the distinct blocks it has logged. -/
structure Ops where
  log : Log := {}
  ops : List (List ℕ) := []
deriving DecidableEq, Repr

/-- What an operation does to the log. -/
inductive OpEvent
  | beginOp
  | logWrite (i blockno : ℕ)
  | endOp (i : ℕ)
  /-- The commit that the last operation makes, with the section after it. -/
  | commit
deriving DecidableEq, Repr

/-- One step; `none` if it sleeps, panics or cannot happen. -/
def Ops.step (s : Ops) : OpEvent → Option Ops
  | .beginOp => s.log.beginOp.map fun l => ⟨l, s.ops ++ [[]]⟩
  | .logWrite i blockno =>
    match s.ops[i]?, s.log.logWrite blockno with
    | some o, .ok (l, _) => some ⟨l, s.ops.set i (o.insert blockno)⟩
    | _, _ => none
  | .endOp i =>
    match s.ops[i]?, s.log.endOp with
    | some _, .ok (l, _) => some ⟨l, s.ops.eraseIdx i⟩
    | _, _ => none
  | .commit =>
    if s.log.committing then some ⟨{ s.log with block := [], committing := false }, s.ops⟩ else none

/-- Each operation logs at most `MAXOPBLOCKS` distinct blocks. -/
def Budget (s : Ops) : OpEvent → Prop
  | .logWrite i blockno => ∀ o ∈ s.ops[i]?, (o.insert blockno).length ≤ maxopblocks
  | _ => True

instance (s : Ops) : (e : OpEvent) → Decidable (Budget s e)
  | .logWrite i blockno => inferInstanceAs
      (Decidable (∀ o ∈ s.ops[i]?, (o.insert blockno).length ≤ maxopblocks))
  | .beginOp | .endOp _ | .commit => inferInstanceAs (Decidable True)

/-- What the operation may still log. -/
def rest (o : List ℕ) : ℕ := maxopblocks - o.length

/-- The reservations of the running operations fit in what is left of the header. -/
structure Reserved (s : Ops) : Prop where
  outstanding : s.log.outstanding = s.ops.length
  room : s.log.block.length + (s.ops.map rest).sum ≤ logblocks
  logged : ∀ o ∈ s.ops, ∀ b ∈ o, b ∈ s.log.block
  within : ∀ o ∈ s.ops, o.length ≤ maxopblocks
  idle : s.log.committing = true → s.ops = []

theorem sum_rest_le (ops : List (List ℕ)) : (ops.map rest).sum ≤ ops.length * maxopblocks := by
  induction ops with
  | nil => simp
  | cons o ops ih =>
    have ho : rest o ≤ maxopblocks := Nat.sub_le _ _
    simp only [List.map_cons, List.sum_cons, List.length_cons, Nat.add_mul]
    omega

theorem rest_le_sum {ops : List (List ℕ)} {o : List ℕ} (h : o ∈ ops) :
    rest o ≤ (ops.map rest).sum := by
  induction ops with
  | nil => cases h
  | cons x xs ih =>
    simp only [List.map_cons, List.sum_cons]
    rcases List.mem_cons.mp h with rfl | h
    · omega
    · have hxs := ih h
      omega

/-- Replacing one operation's list. -/
theorem sum_rest_set {ops : List (List ℕ)} {i : ℕ} {o o' : List ℕ} (h : ops[i]? = some o) :
    ((ops.set i o').map rest).sum + rest o = (ops.map rest).sum + rest o' := by
  induction ops generalizing i with
  | nil => simp at h
  | cons x xs ih =>
    cases i with
    | zero =>
      simp only [List.getElem?_cons_zero, Option.some.injEq] at h
      subst h
      simp only [List.set_cons_zero, List.map_cons, List.sum_cons]
      omega
    | succ i =>
      have hxs := ih (by simpa using h)
      simp only [List.set_cons_succ, List.map_cons, List.sum_cons]
      omega

theorem sum_rest_eraseIdx (ops : List (List ℕ)) (i : ℕ) :
    ((ops.eraseIdx i).map rest).sum ≤ (ops.map rest).sum := by
  induction ops generalizing i with
  | nil => simp
  | cons x xs ih =>
    cases i with
    | zero => simp
    | succ i =>
      have hxs := ih i
      simp only [List.eraseIdx_cons_succ, List.map_cons, List.sum_cons]
      omega

/-- An operation that is admitted has its reservation. -/
theorem Reserved.beginOp {s : Ops} {l : Log} (h : Reserved s) (hl : s.log.beginOp = some l) :
    Reserved ⟨l, s.ops ++ [[]]⟩ := by
  rw [Log.beginOp] at hl
  split at hl
  · cases hl
  · rename_i hcom
    split at hl
    · cases hl
    · rename_i hroom
      cases hl
      refine ⟨by simp [h.outstanding], ?_, fun o ho b hb => ?_, fun o ho => ?_, fun hc => ?_⟩
      · have hsum := sum_rest_le s.ops
        rw [h.outstanding] at hroom
        simp only [List.map_append, List.map_cons, List.map_nil, List.sum_append, List.sum_cons,
          List.sum_nil, rest, List.length_nil]
        rw [Nat.add_mul] at hroom
        omega
      · rcases List.mem_append.mp ho with ho | ho
        · exact h.logged o ho b hb
        · rw [List.mem_singleton.mp ho] at hb
          cases hb
      · rcases List.mem_append.mp ho with ho | ho
        · exact h.within o ho
        · simp [List.mem_singleton.mp ho]
      · exact absurd hc hcom

/-- A block that the header does not have uses up some of its operation's reservation. -/
theorem Reserved.logWrite {s : Ops} {i b : ℕ} {o : List ℕ} {l : Log} {pin : Bool}
    (h : Reserved s) (ho : s.ops[i]? = some o) (hl : s.log.logWrite b = .ok (l, pin))
    (hbudget : (o.insert b).length ≤ maxopblocks) :
    Reserved ⟨l, s.ops.set i (o.insert b)⟩ := by
  have hmem := List.mem_of_getElem? ho
  have hsum := @sum_rest_set _ _ _ (o.insert b) ho
  have hwithin := h.within o hmem
  have hroom := h.room
  -- the operation's list grows by the block unless it is there already
  have hlen : (o.insert b).length = if b ∈ o then o.length else o.length + 1 := by
    by_cases hb : b ∈ o <;> simp [hb]
  have hset : ∀ o' ∈ s.ops.set i (o.insert b), o' ∈ s.ops ∨ o' = o.insert b := fun o' ho' =>
    List.mem_or_eq_of_mem_set ho'
  have hfits : ∀ o' ∈ s.ops.set i (o.insert b), o'.length ≤ maxopblocks := fun o' ho' => by
    rcases hset o' ho' with ho' | rfl
    · exact h.within o' ho'
    · exact hbudget
  have hne : s.ops ≠ [] := List.ne_nil_of_mem hmem
  rw [Log.logWrite] at hl
  split at hl
  · cases hl
  · split at hl
    · cases hl
    · split at hl
      · rename_i hb
        cases hl
        refine ⟨by simp [h.outstanding], ?_, fun o' ho' x hx => ?_, hfits,
          fun hc => absurd (h.idle hc) hne⟩
        · simp only [rest] at hsum ⊢
          split at hlen <;> omega
        · rcases hset o' ho' with ho' | rfl
          · exact h.logged o' ho' x hx
          · rcases List.mem_insert_iff.mp hx with rfl | hx
            · exact hb
            · exact h.logged o hmem x hx
      · rename_i hb
        cases hl
        have hbo : b ∉ o := fun hbo => hb (h.logged o hmem b hbo)
        rw [if_neg hbo] at hlen
        refine ⟨by simp [h.outstanding], ?_, fun o' ho' x hx => ?_, hfits,
          fun hc => absurd (h.idle hc) hne⟩
        · simp only [rest, List.length_append, List.length_singleton] at hsum ⊢
          omega
        · rcases hset o' ho' with ho' | rfl
          · exact List.mem_append_left _ (h.logged o' ho' x hx)
          · rcases List.mem_insert_iff.mp hx with rfl | hx
            · simp
            · exact List.mem_append_left _ (h.logged o hmem x hx)

theorem Reserved.endOp {s : Ops} {i : ℕ} {o : List ℕ} {l : Log} {last : Bool}
    (h : Reserved s) (ho : s.ops[i]? = some o) (hl : s.log.endOp = .ok (l, last)) :
    Reserved ⟨l, s.ops.eraseIdx i⟩ := by
  obtain ⟨hi, -⟩ := List.getElem?_eq_some_iff.mp ho
  have hlen : (s.ops.eraseIdx i).length = s.ops.length - 1 := List.length_eraseIdx_of_lt hi
  have hsum := sum_rest_eraseIdx s.ops i
  have hroom := h.room
  have hmem : ∀ o' ∈ s.ops.eraseIdx i, o' ∈ s.ops := fun o' ho' => List.mem_of_mem_eraseIdx ho'
  simp only [Log.endOp] at hl
  split at hl
  · cases hl
  · rename_i hcom
    split at hl
    · rename_i hlast
      cases hl
      have hnil : s.ops.eraseIdx i = [] := by
        rw [← List.length_eq_zero_iff, hlen, ← h.outstanding]
        exact hlast
      rw [hnil]
      exact ⟨rfl, by simpa using Nat.le_of_add_right_le h.room, by simp, by simp, fun _ => rfl⟩
    · cases hl
      refine ⟨by simp [hlen, h.outstanding], by simpa using (by omega), fun o' ho' =>
        h.logged o' (hmem o' ho'), fun o' ho' => h.within o' (hmem o' ho'), fun hc => ?_⟩
      exact absurd hc hcom

/-- **The reservations hold after every step** within the operations' budgets. -/
theorem Reserved.step {s s' : Ops} {e : OpEvent} (h : Reserved s) (hb : Budget s e)
    (hs : s.step e = some s') : Reserved s' := by
  cases e with
  | beginOp =>
    obtain ⟨l, hl, rfl⟩ := Option.map_eq_some_iff.mp hs
    exact h.beginOp hl
  | logWrite i b =>
    simp only [Ops.step] at hs
    split at hs
    · rename_i o l pin ho hl
      cases hs
      exact h.logWrite ho hl (hb o ho)
    · cases hs
  | endOp i =>
    simp only [Ops.step] at hs
    split at hs
    · rename_i o l last ho hl
      cases hs
      exact h.endOp ho hl
    · cases hs
  | commit =>
    simp only [Ops.step] at hs
    split at hs
    · rename_i hcom
      cases hs
      have hnil := h.idle hcom
      exact ⟨h.outstanding, by simp [hnil, logblocks], by simp [hnil], h.within, by simp⟩
    · cases hs

/-- **The header never overflows**, and `log_write` panics exactly for an operation that logs
one of its own blocks again while the header is full. The runs are those in which each
operation logs at most `MAXOPBLOCKS` distinct blocks. -/
theorem logWrite_fits {s : Ops} (h : Transition.Reach (· = {}) Ops.step Budget s) :
    s.log.block.length ≤ logblocks ∧
    ∀ (i : ℕ) (o : List ℕ) (b : ℕ), s.ops[i]? = some o → (o.insert b).length ≤ maxopblocks →
      (s.log.logWrite b = .error .tooBig ↔ s.log.block.length = logblocks ∧ b ∈ o) := by
  have hres : Reserved s := by
    refine h.inv ?_ fun _ _ _ ih hb hs => ih.step hb hs
    rintro s rfl
    exact ⟨rfl, by simp, by simp, by simp, by simp⟩
  have hroom := hres.room
  refine ⟨by omega, fun i o b ho hbudget => ?_⟩
  have hmem := List.mem_of_getElem? ho
  constructor
  · intro herr
    have hfull : logblocks ≤ s.log.block.length := by
      by_contra hlt
      rw [Log.logWrite, if_neg hlt] at herr
      split at herr
      · cases herr
      · split at herr <;> cases herr
    refine ⟨by omega, ?_⟩
    -- nothing is left of the reservation, so the block is not a new one
    have hrest := rest_le_sum hmem
    by_contra hbo
    rw [List.insert_of_not_mem hbo, List.length_cons] at hbudget
    simp only [rest] at hrest
    omega
  · rintro ⟨hfull, -⟩
    rw [Log.logWrite, if_pos (Nat.le_of_eq hfull.symm)]

/-- Three operations, each of which logs ten blocks of its own. -/
def threeFull : List OpEvent :=
  [.beginOp, .beginOp, .beginOp] ++ (List.range 30).map fun j => .logWrite (j / 10) (100 + j)

/-- The state in which the header is exactly full. -/
def headerFull : Ops := (Transition.runAll Budget Ops.step {} threeFull).get (by decide +kernel)

theorem reach_headerFull : Transition.Reach (· = {}) Ops.step Budget headerFull :=
  (@Transition.Reach.start _ _ (· = {}) Ops.step Budget {} rfl).runAll_get _

/-- In that state the first operation may log its first block again, and panics. -/
theorem logWrite_fits_full : headerFull.ops[0]? = some ((List.range 10).map (109 - ·)) ∧
    headerFull.log.logWrite 100 = .error .tooBig := by
  have hop : headerFull.ops[0]? = some ((List.range 10).map (109 - ·)) := by decide +kernel
  exact ⟨hop, ((logWrite_fits reach_headerFull).2 0 _ 100 hop (by decide)).mpr
    ⟨by decide +kernel, by decide⟩⟩

/-- Three operations that keep to ten blocks each bring the kernel down: the first logs its
first block a second time when the header is full. -/
theorem logWrite_again_panics : Transition.Reach (· = {}) Ops.step Budget headerFull ∧
    Budget headerFull (.logWrite 0 100) ∧ headerFull.log.logWrite 100 = .error .tooBig :=
  ⟨reach_headerFull, by decide +kernel, by decide +kernel⟩

end Storage

end Xv6
