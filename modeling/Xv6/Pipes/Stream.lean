import Xv6.Pipes.Model

/-!
# A pipe is a queue of bytes

The ring of the pipe and its two counters hold the bytes that were accepted and not yet delivered,
in the order in which they came. A step of any process either leaves the ring alone, or stores a
byte while there is room, or takes the oldest one; which process it is, and how far its call has
got, does not matter. The counters wrap, and nothing depends on how often they have.
-/

namespace Xv6

namespace Pipes

open State Transition Fifo

variable {s s' : State} {e : Event}

/-- The ring of the pipe with what has gone in and out. -/
structure Streams (s : State) (q : List UInt8) : Prop where
  holds : Holds pipesize uint s.data s.nread s.nwrite q
  accepted : s.accepted = s.delivered ++ q

/-- The state has the same ring and history. -/
structure SameRing (s s' : State) : Prop where
  data : s'.data = s.data
  nread : s'.nread = s.nread
  nwrite : s'.nwrite = s.nwrite
  accepted : s'.accepted = s.accepted
  delivered : s'.delivered = s.delivered

/-- What a step does to the ring. -/
inductive RingMove (s s' : State) : Prop
  | same (h : SameRing s s')
  | put (ch : UInt8) (room : s.nwrite ≠ (s.nread + pipesize) % uint) (h : SameRing (s.put ch) s')
  | take (full : s.nread ≠ s.nwrite) (h : SameRing s.take s')

theorem writeTurn_ring (s : State) (p : ℕ) (i n : ℤ) (copyin : Option UInt8) :
    RingMove s (writeTurn s p i n copyin) := by
  have hkeep : ∀ ret, RingMove s ((s.wakeup .nread).leave p ret) := fun ret =>
    .same ⟨rfl, rfl, rfl, rfl, rfl⟩
  unfold writeTurn
  split
  · split
    · exact .same ⟨rfl, rfl, rfl, rfl, rfl⟩
    · split
      · exact .same ⟨rfl, rfl, rfl, rfl, rfl⟩
      · rename_i hroom
        cases copyin with
        | none => exact hkeep i
        | some ch => exact .put ch hroom ⟨rfl, rfl, rfl, rfl, rfl⟩
  · exact hkeep i

theorem waitTurn_ring (s : State) (p : ℕ) (n : ℤ) : RingMove s (waitTurn s p n) := by
  rw [waitTurn]
  split
  · split <;> exact .same ⟨rfl, rfl, rfl, rfl, rfl⟩
  · exact .same ⟨rfl, rfl, rfl, rfl, rfl⟩

theorem readTurn_ring (s : State) (p : ℕ) (i n : ℤ) (copyout : Bool) :
    RingMove s (readTurn s p i n copyout) := by
  have hkeep : ∀ ret, RingMove s ((s.wakeup .nwrite).leave p ret) := fun ret =>
    .same ⟨rfl, rfl, rfl, rfl, rfl⟩
  rw [readTurn]
  split
  · split
    · exact hkeep i
    · rename_i hne
      split
      · exact .take hne ⟨rfl, rfl, rfl, rfl, rfl⟩
      · exact hkeep _
  · exact hkeep i

/-- Every step stores at most one byte or takes at most one. -/
theorem step_ring (hs : step s e = some s') : RingMove s s' := by
  cases e with
  | pipewrite p n =>
    rw [step] at hs
    split at hs <;> cases hs
    exact .same ⟨rfl, rfl, rfl, rfl, rfl⟩
  | piperead p n =>
    rw [step] at hs
    split at hs <;> cases hs
    exact .same ⟨rfl, rfl, rfl, rfl, rfl⟩
  | writeTurn p copyin =>
    rw [step] at hs
    split at hs <;> cases hs
    exact writeTurn_ring s p _ _ copyin
  | waitTurn p =>
    rw [step] at hs
    split at hs <;> cases hs
    exact waitTurn_ring s p _
  | readTurn p copyout =>
    rw [step] at hs
    split at hs <;> cases hs
    exact readTurn_ring s p _ _ copyout
  | resume p =>
    rw [step] at hs
    split at hs
    · dsimp only at hs
      split at hs <;> cases hs
      · exact .same ⟨rfl, rfl, rfl, rfl, rfl⟩
      · exact .same ⟨rfl, rfl, rfl, rfl, rfl⟩
    · cases hs
  | pipeclose p writable =>
    obtain ⟨-, hs⟩ := Option.ite_none_right_eq_some.mp hs
    cases hs
    rw [Pipes.pipeclose]
    split <;> exact .same ⟨rfl, rfl, rfl, rfl, rfl⟩
  | kkill p =>
    cases hs
    exact .same ⟨rfl, rfl, rfl, rfl, rfl⟩

theorem pipesize_lt : pipesize < uint := by decide

theorem pipesize_dvd : pipesize ∣ uint := by decide

theorem Streams.congr {q : List UInt8} (hq : Streams s q) (h : SameRing s s') : Streams s' q := by
  obtain ⟨hdata, hread, hwrite, hacc, hdel⟩ := h
  refine ⟨?_, ?_⟩
  · rw [hdata, hread, hwrite]
    exact hq.holds
  · rw [hacc, hdel]
    exact hq.accepted

theorem Streams.pending_eq {q : List UInt8} (hq : Streams s q) : s.pending = q :=
  hq.holds.contents_eq pipesize_lt

/-- The queue after a step. -/
theorem Streams.move {q : List UInt8} (hq : Streams s q) (h : RingMove s s') :
    ∃ q', Streams s' q' := by
  cases h with
  | same h => exact ⟨q, hq.congr h⟩
  | put ch room h =>
    have hlt : q.length < pipesize := by
      refine lt_of_le_of_ne hq.holds.length_le fun hlen => room ?_
      exact (hq.holds.full_iff pipesize_lt).mpr hlen
    have hput : Streams (s.put ch) (q ++ [ch]) := by
      refine ⟨hq.holds.push pipesize_dvd hlt, ?_⟩
      change s.accepted ++ [ch] = s.delivered ++ (q ++ [ch])
      rw [hq.accepted, List.append_assoc]
    exact ⟨q ++ [ch], hput.congr h⟩
  | take full h =>
    cases q with
    | nil => exact absurd ((hq.holds.eq_nil_iff pipesize_lt).mpr rfl) full
    | cons x q =>
      have htake : Streams s.take q := by
        refine ⟨hq.holds.pop pipesize_dvd, ?_⟩
        change s.accepted = s.delivered ++ [s.next] ++ q
        rw [hq.accepted, State.next, hq.holds.head, List.append_assoc]
        rfl
      exact ⟨q, htake.congr h⟩

theorem Fresh.streams (h : Fresh s) : Streams s [] := by
  refine ⟨?_, ?_⟩
  · rw [h.nread, h.nwrite]
    exact .empty (by decide)
  · rw [h.accepted, h.delivered, List.append_nil]

theorem streams_reach (hr : Reach Fresh step Any s) : Streams s s.pending := by
  have hex : ∃ q, Streams s q :=
    hr.inv (I := fun s => ∃ q, Streams s q) (fun _ hf => ⟨[], hf.streams⟩)
      fun _ _ _ ⟨_, hq⟩ _ hs => hq.move (step_ring hs)
  obtain ⟨q, hq⟩ := hex
  rw [hq.pending_eq]
  exact hq

/-- Process 0 writes two bytes, and process 1 reads one of them. -/
def oneOfTwo : List Event :=
  [.pipewrite 0 2, .writeTurn 0 (some 7), .writeTurn 0 (some 8), .writeTurn 0 none,
    .piperead 1 2, .waitTurn 1, .readTurn 1 true]

def midRead : State := (runAll Any step made oneOfTwo).get (by decide)

end Pipes

end Xv6
