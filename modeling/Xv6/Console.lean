import Mathlib.Data.Int.Notation
import Xv6.Logic.Fifo
import Xv6.Logic.Transition

/-!
# The console

The line discipline of `kernel/console.c`: `consoleintr`, which edits and commits the input line,
and `consoleread`, which any number of processes may be in. The three indices `r`, `w` and `e` are
of type `uint` and are never reduced modulo the size of the buffer.

`cons.lock` is held from the beginning of a read to its end, except in `sleep`. A turn of the
loop of `consoleread` is a step, and so is an interrupt, which has to wait for the lock. Whether a
byte can be copied out and whether the reader has been killed are arguments of the step.

`committed` records the characters that `consoleintr` commits, and `consumed` what became of each
character that a read took out of the buffer. The result is `lines_delivered`: between `r` and `w`
the buffer has the committed characters that no read has taken, in order.
-/

namespace Xv6

namespace Console

open Fifo Transition

/-- `INPUT_BUF_SIZE`. -/
def bufSize : ℕ := 128

/-- The indices are of type `uint`. -/
def uint : ℕ := 2 ^ 32

/-- `C(x)`. -/
def ctrl (c : Char) : UInt8 := c.toUInt8 - 64

def newline : UInt8 := 10

/-- Where a process is. -/
inductive Pc
  | out
  /-- At the loop of `consoleread` with `n` bytes of `target` missing, holding the lock. -/
  | loop (target n : ℤ)
  /-- In the `sleep` of that loop. -/
  | asleep (target n : ℤ)
deriving DecidableEq, Repr

/-- What became of a character that a read took. -/
inductive Fate
  | delivered
  /-- It is a control-D that ended the read. -/
  | ended
  /-- It could not be copied. -/
  | failed
deriving DecidableEq, Repr

structure State where
  buf : ℕ → UInt8
  r : ℕ
  w : ℕ
  e : ℕ
  /-- The process that holds `cons.lock`. -/
  lock : Option ℕ
  pc : ℕ → Pc
  /-- What the last read of a process returned. -/
  ret : ℕ → ℤ
  committed : List UInt8
  consumed : List (UInt8 × Fate)

/-- The console after `consoleinit`, for any contents of the buffer. -/
structure Fresh (s : State) : Prop where
  r : s.r = 0
  w : s.w = 0
  e : s.e = 0
  lock : s.lock = none
  pc : ∀ p, s.pc p = .out
  committed : s.committed = []
  consumed : s.consumed = []

/-! ### `consoleintr` -/

/-- Kill-line has another character to erase. -/
abbrev State.Erases (s : State) : Prop :=
  s.e ≠ s.w ∧ s.buf ((s.e + uint - 1) % uint % bufSize) ≠ newline

/-- The loop of kill-line, for at most so many turns. -/
def killLine : ℕ → State → State
  | 0, s => s
  | k + 1, s => if s.Erases then killLine k { s with e := (s.e + uint - 1) % uint } else s

/-- Erase the last character of the line. -/
def backspace (s : State) : State :=
  if s.e ≠ s.w then { s with e := (s.e + uint - 1) % uint } else s

/-- Store a character, and commit the line if it is complete or the buffer full. -/
def insert (s : State) (c : UInt8) : State :=
  if c ≠ 0 ∧ (s.e + uint - s.r) % uint < bufSize then
    let c := if c = 13 then newline else c
    let s := { s with buf := Function.update s.buf (s.e % bufSize) c, e := (s.e + 1) % uint }
    if c = newline ∨ c = ctrl 'D' ∨ (s.e + uint - s.r) % uint = bufSize then
      { s with w := s.e, committed := s.committed ++ contents bufSize uint s.buf s.w s.e }
    else s
  else s

/-- The input interrupt for a character. Kill-line makes at most as many turns as the line has
characters. -/
def consoleintr (s : State) (c : UInt8) : State :=
  if c = ctrl 'P' then s
  else if c = ctrl 'U' then killLine ((s.e + uint - s.w) % uint) s
  else if c = ctrl 'H' ∨ c = 0x7f then backspace s
  else insert s c

/-! ### `consoleread` -/

/-- The reader gives up the lock and returns `target - n`. -/
def finish (s : State) (p : ℕ) (target n : ℤ) : State :=
  { s with
    lock := none
    pc := Function.update s.pc p .out
    ret := Function.update s.ret p (target - n) }

/-- The reader has taken a character out. -/
def take (s : State) (c : UInt8) (f : Fate) : State :=
  { s with r := (s.r + 1) % uint, consumed := s.consumed ++ [(c, f)] }

/-- A turn of the loop of `consoleread`. -/
def turn (s : State) (p : ℕ) (target n : ℤ) (killed ok : Bool) : State :=
  if n ≤ 0 then finish s p target n
  else if s.r = s.w then
    if killed then
      { s with
        lock := none
        pc := Function.update s.pc p .out
        ret := Function.update s.ret p (-1) }
    else { s with lock := none, pc := Function.update s.pc p (.asleep target n) }
  else
    let c := s.buf (s.r % bufSize)
    if c = ctrl 'D' then
      -- a control-D after the first byte is put back
      if n < target then finish s p target n else finish (take s c .ended) p target n
    else if !ok then finish (take s c .failed) p target n
    else if c = newline then finish (take s c .delivered) p target (n - 1)
    else
      { take s c .delivered with pc := Function.update s.pc p (.loop target (n - 1)) }

/-! ### Steps -/

inductive Event
  | intr (c : UInt8)
  | read (p : ℕ) (n : ℤ)
  | turn (p : ℕ) (killed ok : Bool)
  /-- `sleep` returns, whatever the reason. -/
  | wake (p : ℕ)
deriving DecidableEq, Repr

def step (s : State) : Event → Option State
  | .intr c => if s.lock = none then some (consoleintr s c) else none
  | .read p n =>
    if s.lock = none ∧ s.pc p = .out then
      some { s with lock := some p, pc := Function.update s.pc p (.loop n n) }
    else none
  | .turn p killed ok =>
    match s.pc p with
    | .loop target n =>
      if s.lock = some p then some (Console.turn s p target n killed ok) else none
    | _ => none
  | .wake p =>
    match s.pc p with
    | .asleep target n =>
      if s.lock = none then
        some { s with lock := some p, pc := Function.update s.pc p (.loop target n) }
      else none
    | _ => none

/-! ### The buffer -/

variable {s s' : State} {p k : ℕ} {c : UInt8} {q l : List UInt8}

/-- The committed characters that no read has taken. -/
def State.unread (s : State) : List UInt8 := contents bufSize uint s.buf s.r s.w

/-- The buffer has the committed characters `q` that were not read, and then the line `l` that is
being edited. -/
structure State.Lined (s : State) (q l : List UInt8) : Prop where
  ring : Holds bufSize uint s.buf s.r s.e (q ++ l)
  mark : s.w = (s.r + q.length) % uint
  log : s.consumed.map Prod.fst ++ q = s.committed
  ended : ∀ x ∈ s.consumed, x.2 = .ended → x.1 = ctrl 'D'

theorem bufSize_lt : bufSize < uint := by decide

theorem bufSize_dvd : bufSize ∣ uint := by decide

namespace State.Lined

theorem unread_eq (h : s.Lined q l) : s.unread = q := by
  rw [unread, h.mark]
  exact h.ring.front.contents_eq bufSize_lt

/-- The line that is being edited. -/
theorem line (h : s.Lined q l) : Holds bufSize uint s.buf s.w s.e l := by
  rw [h.mark]
  exact h.ring.back bufSize_dvd

theorem line_eq_nil (h : s.Lined q l) : s.e = s.w ↔ l = [] :=
  eq_comm.trans (h.line.eq_nil_iff bufSize_lt)

/-- There is a last character to erase. -/
theorem line_eq_append (h : s.Lined q l) (hne : s.e ≠ s.w) : ∃ l' x, l = l' ++ [x] := by
  rcases List.eq_nil_or_concat l with rfl | ⟨l', x, rfl⟩
  · exact absurd (h.line_eq_nil.mpr rfl) hne
  · exact ⟨l', x, List.concat_eq_append⟩

theorem retract {x : UInt8} (h : s.Lined q (l ++ [x])) :
    State.Lined { s with e := (s.e + uint - 1) % uint } q l := by
  have hring := h.ring
  rw [← List.append_assoc] at hring
  exact ⟨hring.retract, h.mark, h.log, h.ended⟩

theorem backspace (h : s.Lined q l) : ∃ l', (backspace s).Lined q l' := by
  rw [Console.backspace]
  split
  · rename_i hne
    obtain ⟨l, x, rfl⟩ := h.line_eq_append hne
    exact ⟨l, h.retract⟩
  · exact ⟨l, h⟩

theorem killLine (h : s.Lined q l) : ∃ l', (killLine k s).Lined q l' := by
  induction k generalizing s l with
  | zero => exact ⟨l, h⟩
  | succ k ih =>
    rw [Console.killLine]
    split
    · rename_i hgo
      obtain ⟨l, x, rfl⟩ := h.line_eq_append hgo.1
      exact ih h.retract
    · exact ⟨l, h⟩

/-- The turns that kill-line is given are enough: it stops at the committed part or at a
newline. -/
theorem killLine_stops (h : s.Lined q l) (hk : l.length ≤ k) :
    ¬(Console.killLine k s).Erases := by
  induction k generalizing s l with
  | zero =>
    rw [Console.killLine]
    exact fun hgo => hgo.1 (h.line_eq_nil.mpr (List.eq_nil_of_length_eq_zero (by omega)))
  | succ k ih =>
    rw [Console.killLine]
    split
    · rename_i hgo
      obtain ⟨l, x, rfl⟩ := h.line_eq_append hgo.1
      rw [List.length_append, List.length_singleton] at hk
      exact ih h.retract (by omega)
    · rename_i hstop
      exact hstop

theorem insert (h : s.Lined q l) : ∃ q' l', (insert s c).Lined (q ++ q') l' := by
  rw [Console.insert]
  split
  · rename_i hroom
    have hlt : (q ++ l).length < bufSize := by
      rw [← h.ring.length_eq bufSize_lt]
      exact hroom.2
    dsimp only
    generalize (if c = 13 then newline else c) = d
    have hring := h.ring.push bufSize_dvd hlt (x := d)
    rw [List.append_assoc] at hring
    split
    · -- what is committed is the line with the new character
      have hline := hring.back bufSize_dvd
      rw [← h.mark] at hline
      refine ⟨l ++ [d], [], by rwa [List.append_nil], ?_, ?_, h.ended⟩
      · exact hring.eq
      · dsimp only
        rw [hline.contents_eq bufSize_lt, ← h.log, List.append_assoc]
    · refine ⟨[], l ++ [d], ?_, ?_, ?_, h.ended⟩
      · rwa [List.append_nil]
      · rw [List.append_nil]
        exact h.mark
      · rw [List.append_nil]
        exact h.log
  · exact ⟨[], l, by rwa [List.append_nil]⟩

/-- An interrupt keeps what has been committed. -/
theorem consoleintr (h : s.Lined q l) : ∃ q' l', (consoleintr s c).Lined (q ++ q') l' := by
  have hkeep : ∀ {t : State}, (∃ l', t.Lined q l') → ∃ q' l', t.Lined (q ++ q') l' := by
    rintro t ⟨l', ht⟩
    exact ⟨[], l', by rwa [List.append_nil]⟩
  rw [Console.consoleintr]
  split
  · exact hkeep ⟨l, h⟩
  · split
    · exact hkeep h.killLine
    · split
      · exact hkeep h.backspace
      · exact h.insert

/-- A read takes the oldest character. -/
theorem take {f : Fate} (h : s.Lined (c :: q) l) (hf : f = .ended → c = ctrl 'D') :
    (take s c f).Lined q l := by
  refine ⟨h.ring.pop bufSize_dvd, ?_, ?_, ?_⟩
  · change s.w = ((s.r + 1) % uint + q.length) % uint
    rw [h.mark, List.length_cons, Nat.mod_add_mod, Nat.add_assoc, Nat.add_comm 1]
  · change (s.consumed ++ [(c, f)]).map Prod.fst ++ q = s.committed
    rw [← h.log, List.map_append, List.append_assoc]
    rfl
  · intro x hx he
    rcases List.mem_append.mp hx with hx | hx
    · exact h.ended x hx he
    · rw [List.mem_singleton.mp hx] at he ⊢
      exact hf he

theorem congr (h : s.Lined q l) (hbuf : s'.buf = s.buf) (hr : s'.r = s.r) (hw : s'.w = s.w)
    (he : s'.e = s.e) (hcommitted : s'.committed = s.committed)
    (hconsumed : s'.consumed = s.consumed) : s'.Lined q l := by
  refine ⟨?_, ?_, ?_, ?_⟩
  · rw [hbuf, hr, he]
    exact h.ring
  · rw [hw, hr]
    exact h.mark
  · rw [hconsumed, hcommitted]
    exact h.log
  · rw [hconsumed]
    exact h.ended

theorem turn {target n : ℤ} {killed ok : Bool} (h : s.Lined q l) :
    ∃ q', (turn s p target n killed ok).Lined q' l := by
  rw [Console.turn]
  split
  · exact ⟨q, h.congr rfl rfl rfl rfl rfl rfl⟩
  · split
    · split <;> exact ⟨q, h.congr rfl rfl rfl rfl rfl rfl⟩
    · rename_i hrw
      cases q with
      | nil =>
        have hring := h.ring.lt
        rw [h.mark, List.length_nil, Nat.add_zero, Nat.mod_eq_of_lt hring] at hrw
        exact absurd rfl hrw
      | cons x q =>
        have hx : s.buf (s.r % bufSize) = x := Holds.head (q := q ++ l) h.ring
        dsimp only
        rw [hx]
        split
        · rename_i hd
          split
          · exact ⟨x :: q, h.congr rfl rfl rfl rfl rfl rfl⟩
          · exact ⟨q, (h.take fun _ => hd).congr rfl rfl rfl rfl rfl rfl⟩
        · split
          · exact ⟨q, (h.take (f := .failed) nofun).congr rfl rfl rfl rfl rfl rfl⟩
          · have hdone := h.take (f := .delivered) nofun
            split <;> exact ⟨q, hdone.congr rfl rfl rfl rfl rfl rfl⟩

end State.Lined

theorem consumed_killLine : (killLine k s).consumed = s.consumed := by
  induction k generalizing s with
  | zero => rfl
  | succ k ih =>
    rw [killLine]
    split
    · exact ih
    · rfl

theorem consumed_insert : (insert s c).consumed = s.consumed := by
  rw [insert]
  split
  · dsimp only
    generalize (if c = 13 then newline else c) = d
    split <;> rfl
  · rfl

theorem consumed_consoleintr : (consoleintr s c).consumed = s.consumed := by
  rw [consoleintr, backspace]
  split_ifs
  · rfl
  · exact consumed_killLine
  · rfl
  · rfl
  · exact consumed_insert

theorem step_lined {e : Event} (h : s.Lined q l) (hs : step s e = some s') :
    ∃ q' l', s'.Lined q' l' := by
  cases e with
  | intr c =>
    obtain ⟨-, ⟨⟩⟩ := Option.ite_none_right_eq_some.mp hs
    obtain ⟨q', l', hl⟩ := h.consoleintr
    exact ⟨_, l', hl⟩
  | read p n =>
    obtain ⟨-, ⟨⟩⟩ := Option.ite_none_right_eq_some.mp hs
    exact ⟨q, l, h.congr rfl rfl rfl rfl rfl rfl⟩
  | turn p killed ok =>
    rw [step] at hs
    split at hs
    · obtain ⟨-, ⟨⟩⟩ := Option.ite_none_right_eq_some.mp hs
      obtain ⟨q', hq⟩ := h.turn
      exact ⟨q', l, hq⟩
    · cases hs
  | wake p =>
    rw [step] at hs
    split at hs
    · obtain ⟨-, ⟨⟩⟩ := Option.ite_none_right_eq_some.mp hs
      exact ⟨q, l, h.congr rfl rfl rfl rfl rfl rfl⟩
    · cases hs

theorem lined_of_reach (h : Reach Fresh step Any s) : ∃ q l, s.Lined q l := by
  refine Reach.inv (I := fun s => ∃ q l, State.Lined s q l) h ?_ ?_
  · intro s hs
    refine ⟨[], [], ?_, ?_, ?_, ?_⟩
    · rw [hs.r, hs.e]
      exact Holds.empty (by decide)
    · rw [hs.r, hs.w]
      rfl
    · rw [hs.consumed, hs.committed]
      rfl
    · rw [hs.consumed]
      nofun
  · rintro s e s' ⟨q, l, hl⟩ - hs
    exact step_lined hl hs

/-- **The console delivers the committed characters, once and in order.** In every state of every
run the buffer is not overrun and `w` is between `r` and `e`; no input character takes back what has
been committed, the loop of kill-line having come to its end; and the characters that reads have
taken are the committed ones, followed by those between `r` and `w`. What was taken and not delivered is a control-D that ended a read or a byte
that could not be copied. -/
theorem lines_delivered (h : Reach Fresh step Any s) :
    (s.e + uint - s.r) % uint ≤ bufSize ∧
    (s.w + uint - s.r) % uint ≤ (s.e + uint - s.r) % uint ∧
    (∀ c, s.unread <+: (consoleintr s c).unread ∧ s.committed <+: (consoleintr s c).committed) ∧
    ¬(consoleintr s (ctrl 'U')).Erases ∧
    s.consumed.map Prod.fst ++ s.unread = s.committed ∧
    ∀ x ∈ s.consumed, x.2 = .delivered ∨ x = (ctrl 'D', .ended) ∨ x.2 = .failed := by
  obtain ⟨q, l, hl⟩ := lined_of_reach h
  have he := hl.ring.length_eq bufSize_lt
  have hw := hl.ring.front.length_eq bufSize_lt
  rw [← hl.mark] at hw
  refine ⟨?_, ?_, fun c => ?_, ?_, ?_, ?_⟩
  · rw [he]
    exact hl.ring.length_le
  · rw [he, hw, List.length_append]
    exact Nat.le_add_right ..
  · obtain ⟨q', l', hl'⟩ := hl.consoleintr (c := c)
    rw [hl.unread_eq, hl'.unread_eq, ← hl.log, ← hl'.log, consumed_consoleintr,
      ← List.append_assoc]
    exact ⟨List.prefix_append .., List.prefix_append ..⟩
  · rw [consoleintr, if_neg (by decide), if_pos rfl]
    exact hl.killLine_stops (hl.line.length_eq bufSize_lt).ge
  · rw [hl.unread_eq, hl.log]
  · rintro ⟨x, f⟩ hx
    cases f with
    | delivered => exact .inl rfl
    | ended =>
      have hd : x = ctrl 'D' := hl.ended _ hx rfl
      exact .inr (.inl (by rw [hd]))
    | failed => exact .inr (.inr rfl)

/-- A reader finds nothing and sleeps. The characters `a` and `b` are typed, `b` is erased, and the
line is completed; the reader takes `a`. -/
def typing : List Event :=
  [.read 0 5, .turn 0 false true, .intr 97, .intr 98, .intr 8, .intr 13, .wake 0, .turn 0 false true]

/-- The console after `consoleinit`. -/
def quiet : State := ⟨fun _ => 0, 0, 0, 0, none, fun _ => .out, fun _ => 0, [], []⟩

theorem typing_runs : (runAll Any step quiet typing).isSome = true := by decide +kernel

def afterTyping : State := (runAll Any step quiet typing).get typing_runs

theorem lines_delivered_afterTyping : afterTyping.consumed = [(97, .delivered)] ∧
    afterTyping.unread = [newline] := by
  have hreach : Reach Fresh step Any afterTyping :=
    (Reach.start ⟨rfl, rfl, rfl, rfl, fun _ => rfl, rfl, rfl⟩).runAll_get typing_runs
  have hfacts : afterTyping.consumed = [(97, .delivered)] ∧
      afterTyping.committed = [97, newline] := by decide +kernel
  obtain ⟨hconsumed, hcommitted⟩ := hfacts
  have hlog := (lines_delivered hreach).2.2.2.2.1
  rw [hconsumed, hcommitted] at hlog
  exact ⟨hconsumed, (List.cons.inj hlog).2⟩

end Console

end Xv6
