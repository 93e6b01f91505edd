import Xv6.Pipes.Model

/-!
# Sleeping on a pipe

A reader sleeps while the pipe is empty and its write end is open, a writer while it is full and its
read end is open. What changes one of these conditions is followed by a `wakeup` before the lock is
given up, with one exception: a writer that finds itself killed returns at once, and the bytes that
it has stored since it took the lock are announced to nobody. So the property holds along every run
in which no process is killed at such a moment, and a kill at such a moment breaks it.
-/

namespace Xv6

namespace Pipes

open State Transition

variable {s s' : State} {e : Event} {p q : ℕ} {pc : Pc} {chan : Chan}

/-- Process `p` is asleep in `piperead`. -/
def State.ReaderAsleep (s : State) (p : ℕ) : Prop :=
  (s.proc p).state = .sleeping ∧ ∃ n, (s.proc p).pc = .waitSleep n

/-- Process `p` is asleep in `pipewrite`. -/
def State.WriterAsleep (s : State) (p : ℕ) : Prop :=
  (s.proc p).state = .sleeping ∧ ∃ i n, (s.proc p).pc = .writeSleep i n

/-- Those asleep have a reason to be. -/
structure State.Rested (s : State) : Prop where
  reader : ∀ p, s.ReaderAsleep p → s.nread = s.nwrite ∧ s.writeopen = true
  writer : ∀ p, s.WriterAsleep p → s.nwrite = (s.nread + pipesize) % uint ∧ s.readopen = true

/-- Process `p` is in the loop of `pipewrite` with bytes left to write, the pipe is not empty, and a
reader is asleep all the same. -/
def State.Unannounced (s : State) (p : ℕ) : Prop :=
  (∃ i n, (s.proc p).pc = .write i n ∧ i < n) ∧ s.nread ≠ s.nwrite ∧ ∃ q, s.ReaderAsleep q

/-- No process is killed at such a moment. -/
def Spared (s : State) : Event → Prop
  | .kkill p => ¬s.Unannounced p
  | _ => True

/-! ### Processes after an update -/

/-- The process is in a call and holds the lock. -/
def Pc.holds : Pc → Bool
  | .write _ _ | .wait _ | .read _ _ => true
  | _ => false

@[simp]
theorem proc_setProc_self {x : Proc} : (s.setProc p x).proc p = x := Function.update_self ..

@[simp]
theorem proc_setProc_of_ne {x : Proc} (hne : q ≠ p) : (s.setProc p x).proc q = s.proc q :=
  Function.update_of_ne hne ..

theorem proc_wakeup (s : State) (chan : Chan) (q : ℕ) : (s.wakeup chan).proc q =
    if (s.proc q).state = .sleeping ∧ (s.proc q).chan = some chan then
      { s.proc q with state := .runnable }
    else s.proc q := rfl

/-- `wakeup` moves nobody. -/
@[simp]
theorem pc_wakeup (s : State) (chan : Chan) (q : ℕ) :
    ((s.wakeup chan).proc q).pc = (s.proc q).pc := by
  rw [proc_wakeup]
  split <;> rfl

/-- It lets the others sleep on. -/
theorem sleeping_of_wakeup (h : ((s.wakeup chan).proc q).state = .sleeping) :
    (s.proc q).state = .sleeping ∧ (s.proc q).chan ≠ some chan ∧
      ((s.wakeup chan).proc q).chan = (s.proc q).chan := by
  rw [proc_wakeup] at h ⊢
  split at h
  · cases h
  · rename_i hno
    exact ⟨h, fun hc => hno ⟨h, hc⟩, by rw [if_neg hno]⟩

/-! ### The invariant -/

/-- Who holds the lock, and where those asleep are. -/
structure State.Placed (s : State) : Prop where
  holder : ∀ p, (s.proc p).pc.holds = true → s.lock = some p
  asleep : ∀ p, (s.proc p).state = .sleeping →
    (∃ n, (s.proc p).pc = .waitSleep n) ∧ (s.proc p).chan = some .nread ∨
      (∃ i n, (s.proc p).pc = .writeSleep i n) ∧ (s.proc p).chan = some .nwrite

/-- What holds at every step of a run. While a writer holds the lock the pipe may have bytes that a
sleeping reader has not been told about, but then the writer is going to tell. -/
structure State.Sound (s : State) : Prop extends s.Placed where
  reader : ∀ q, s.ReaderAsleep q → s.writeopen = true ∧ (s.nread = s.nwrite ∨
    ∃ p i n, (s.proc p).pc = .write i n ∧
      (i < n → (s.proc p).killed = false ∧ s.readopen = true))
  writer : ∀ q, s.WriterAsleep q → s.readopen = true ∧
    (s.nwrite = (s.nread + pipesize) % uint ∨ ∃ p i n, (s.proc p).pc = .read i n)

theorem Fresh.sound (h : Fresh s) : s.Sound where
  holder p hp := by
    rw [(h.proc p).1] at hp
    cases hp
  asleep p hp := by
    rw [(h.proc p).2.1] at hp
    cases hp
  reader p hp := by
    have hrun := hp.1
    rw [(h.proc p).2.1] at hrun
    cases hrun
  writer p hp := by
    have hrun := hp.1
    rw [(h.proc p).2.1] at hrun
    cases hrun

namespace State.Sound

/-- When the lock is free, nobody is about to tell anything. -/
theorem rested (h : s.Sound) (hl : s.lock = none) : s.Rested := by
  have hfree : ∀ p, (s.proc p).pc.holds ≠ true := by
    intro p hp
    have := h.holder p hp
    rw [hl] at this
    cases this
  constructor
  · intro q hq
    obtain ⟨hopen, hempty | ⟨p, i, n, hpc, -⟩⟩ := h.reader q hq
    · exact ⟨hempty, hopen⟩
    · exact absurd (by rw [hpc]; rfl) (hfree p)
  · intro q hq
    obtain ⟨hopen, hfull | ⟨p, i, n, hpc⟩⟩ := h.writer q hq
    · exact ⟨hfull, hopen⟩
    · exact absurd (by rw [hpc]; rfl) (hfree p)

/-- The holder of the lock is the only one at the head of a loop. -/
theorem eq_of_holds (h : s.Sound) (hp : (s.proc p).pc.holds = true)
    (hq : (s.proc q).pc.holds = true) : q = p := by
  have hp' := h.holder p hp
  rw [h.holder q hq] at hp'
  exact Option.some.inj hp'

/-- A process at the head of a loop is not asleep. -/
theorem awake (h : s.Sound) (hp : (s.proc p).pc.holds = true) : (s.proc p).state ≠ .sleeping := by
  intro hsl
  rcases h.asleep p hsl with ⟨⟨n, hpc⟩, -⟩ | ⟨⟨i, n, hpc⟩, -⟩
  · rw [hpc] at hp
    cases hp
  · rw [hpc] at hp
    cases hp

/-- Unless a writer holds the lock, the readers asleep have a reason. -/
theorem readers (h : s.Sound) (hno : ∀ p i n, (s.proc p).pc ≠ .write i n) (hq : s.ReaderAsleep q) :
    s.nread = s.nwrite ∧ s.writeopen = true := by
  obtain ⟨hopen, hempty | ⟨p, i, n, hpc, -⟩⟩ := h.reader q hq
  · exact ⟨hempty, hopen⟩
  · exact absurd hpc (hno p i n)

/-- Unless a reader holds the lock, the writers asleep have a reason. -/
theorem writers (h : s.Sound) (hno : ∀ p i n, (s.proc p).pc ≠ .read i n) (hq : s.WriterAsleep q) :
    s.nwrite = (s.nread + pipesize) % uint ∧ s.readopen = true := by
  obtain ⟨hopen, hfull | ⟨p, i, n, hpc⟩⟩ := h.writer q hq
  · exact ⟨hfull, hopen⟩
  · exact absurd hpc (hno p i n)

/-- Two processes at the head of a loop are the same one. -/
theorem pc_unique (h : s.Sound) {pc' : Pc} (hp : (s.proc p).pc = pc) (hq : (s.proc q).pc = pc')
    (hh : pc.holds = true) (hh' : pc'.holds = true) : pc = pc' := by
  have heq := h.eq_of_holds (p := p) (q := q) (by rw [hp]; exact hh) (by rw [hq]; exact hh')
  rw [← hp, ← hq, heq]

/-- `wakeup` leaves nobody asleep on its channel. -/
theorem not_readerAsleep_wakeup (h : s.Sound) (q : ℕ) : ¬(s.wakeup .nread).ReaderAsleep q := by
  rintro ⟨hsl, n, hpc⟩
  obtain ⟨hsl, hchan, -⟩ := sleeping_of_wakeup hsl
  rw [pc_wakeup] at hpc
  rcases h.asleep q hsl with ⟨-, hc⟩ | ⟨⟨i, m, hpc'⟩, -⟩
  · exact hchan hc
  · rw [hpc] at hpc'
    cases hpc'

theorem not_writerAsleep_wakeup (h : s.Sound) (q : ℕ) : ¬(s.wakeup .nwrite).WriterAsleep q := by
  rintro ⟨hsl, i, n, hpc⟩
  obtain ⟨hsl, hchan, -⟩ := sleeping_of_wakeup hsl
  rw [pc_wakeup] at hpc
  rcases h.asleep q hsl with ⟨⟨m, hpc'⟩, -⟩ | ⟨-, hc⟩
  · rw [hpc] at hpc'
    cases hpc'
  · exact hchan hc

/-- Those asleep after a `wakeup` were asleep before. -/
theorem readerAsleep_of_wakeup (hq : (s.wakeup chan).ReaderAsleep q) : s.ReaderAsleep q := by
  obtain ⟨hsl, n, hpc⟩ := hq
  rw [pc_wakeup] at hpc
  exact ⟨(sleeping_of_wakeup hsl).1, n, hpc⟩

theorem writerAsleep_of_wakeup (hq : (s.wakeup chan).WriterAsleep q) : s.WriterAsleep q := by
  obtain ⟨hsl, i, n, hpc⟩ := hq
  rw [pc_wakeup] at hpc
  exact ⟨(sleeping_of_wakeup hsl).1, i, n, hpc⟩

end State.Sound

/-- Where everybody asleep has a reason, the invariant holds. -/
theorem State.Placed.sound (h : s.Placed) (hr : s.Rested) : s.Sound where
  toPlaced := h
  reader q hq := ⟨(hr.reader q hq).2, Or.inl (hr.reader q hq).1⟩
  writer q hq := ⟨(hr.writer q hq).2, Or.inl (hr.writer q hq).1⟩

namespace State.Placed

theorem wakeup (h : s.Placed) : (s.wakeup chan).Placed where
  holder q hq := h.holder q (by rwa [pc_wakeup] at hq)
  asleep q hq := by
    obtain ⟨hsl, -, hchan⟩ := sleeping_of_wakeup hq
    rw [pc_wakeup, hchan]
    exact h.asleep q hsl

/-- The holder of the lock changes its place and may give the lock up. -/
theorem move (h : s.Placed) {x : Proc} (hs : s'.proc = Function.update s.proc p x)
    (hl : ∀ q, s.lock = some q → q = p) (hholds : x.pc.holds = true → s'.lock = some p)
    (hsl : x.state = .sleeping → (∃ n, x.pc = .waitSleep n) ∧ x.chan = some .nread ∨
      (∃ i n, x.pc = .writeSleep i n) ∧ x.chan = some .nwrite) : s'.Placed where
  holder q hq := by
    rw [hs] at hq
    by_cases hne : q = p
    · subst hne
      rw [Function.update_self] at hq
      exact hholds hq
    · rw [Function.update_of_ne hne] at hq
      exact absurd (hl q (h.holder q hq)) hne
  asleep q hq := by
    rw [hs] at hq ⊢
    by_cases hne : q = p
    · subst hne
      rw [Function.update_self] at hq ⊢
      exact hsl hq
    · rw [Function.update_of_ne hne] at hq ⊢
      exact h.asleep q hq

end State.Placed

/-- Only those who were asleep are, after a change of an awake process. -/
theorem readerAsleep_update {x : Proc} (hq : s'.ReaderAsleep q)
    (hs : s'.proc = Function.update s.proc p x) (hx : x.state ≠ .sleeping) : s.ReaderAsleep q := by
  rw [State.ReaderAsleep, hs] at hq
  by_cases hne : q = p
  · subst hne
    rw [Function.update_self] at hq
    exact absurd hq.1 hx
  · rw [Function.update_of_ne hne] at hq
    exact hq

theorem writerAsleep_update {x : Proc} (hq : s'.WriterAsleep q)
    (hs : s'.proc = Function.update s.proc p x) (hx : x.state ≠ .sleeping) : s.WriterAsleep q := by
  rw [State.WriterAsleep, hs] at hq
  by_cases hne : q = p
  · subst hne
    rw [Function.update_self] at hq
    exact absurd hq.1 hx
  · rw [Function.update_of_ne hne] at hq
    exact hq

section Sections

variable {i n ret : ℤ}

theorem State.Placed.leave (h : s.Placed) (hl : ∀ q, s.lock = some q → q = p)
    (hawake : (s.proc p).state ≠ .sleeping) (hr : s.Rested) : (s.leave p ret).Sound := by
  have hplaced : (s.leave p ret).Placed := h.move rfl hl nofun fun hsl => absurd hsl hawake
  refine hplaced.sound ⟨fun q hq => ?_, fun q hq => ?_⟩
  · exact hr.reader q (readerAsleep_update hq rfl hawake)
  · exact hr.writer q (writerAsleep_update hq rfl hawake)

theorem State.Placed.acquire (h : s.Placed) (hl : s.lock = none)
    (hawake : (s.proc p).state ≠ .sleeping) (hr : s.Rested) : (s.acquire p pc).Sound := by
  have hl' : ∀ q, s.lock = some q → q = p := by
    intro q hq
    rw [hl] at hq
    cases hq
  have hplaced : (s.acquire p pc).Placed :=
    h.move rfl hl' (fun _ => rfl) fun hsl => absurd hsl hawake
  refine hplaced.sound ⟨fun q hq => ?_, fun q hq => ?_⟩
  · exact hr.reader q (readerAsleep_update hq rfl hawake)
  · exact hr.writer q (writerAsleep_update hq rfl hawake)

/-- A reader goes to sleep on an empty pipe. -/
theorem State.Placed.sleepReader (h : s.Placed) (hl : ∀ q, s.lock = some q → q = p) (hr : s.Rested)
    (hempty : s.nread = s.nwrite) (hopen : s.writeopen = true) :
    (s.sleep p .nread (.waitSleep n)).Sound := by
  have hplaced : (s.sleep p .nread (.waitSleep n)).Placed :=
    h.move rfl hl nofun fun _ => Or.inl ⟨⟨n, rfl⟩, rfl⟩
  refine hplaced.sound ⟨fun q hq => ⟨hempty, hopen⟩, ?_⟩
  rintro q ⟨hsl, i, m, hpc⟩
  change (Function.update s.proc p _ q).state = _ at hsl
  change (Function.update s.proc p _ q).pc = _ at hpc
  by_cases hne : q = p
  · subst hne
    rw [Function.update_self] at hpc
    cases hpc
  · rw [Function.update_of_ne hne] at hsl hpc
    exact hr.writer q ⟨hsl, i, m, hpc⟩

/-- A writer goes to sleep on a full pipe. -/
theorem State.Placed.sleepWriter (h : s.Placed) (hl : ∀ q, s.lock = some q → q = p) (hr : s.Rested)
    (hfull : s.nwrite = (s.nread + pipesize) % uint) (hopen : s.readopen = true) :
    (s.sleep p .nwrite (.writeSleep i n)).Sound := by
  have hplaced : (s.sleep p .nwrite (.writeSleep i n)).Placed :=
    h.move rfl hl nofun fun _ => Or.inr ⟨⟨i, n, rfl⟩, rfl⟩
  refine hplaced.sound ⟨?_, fun q hq => ⟨hfull, hopen⟩⟩
  rintro q ⟨hsl, m, hpc⟩
  change (Function.update s.proc p _ q).state = _ at hsl
  change (Function.update s.proc p _ q).pc = _ at hpc
  by_cases hne : q = p
  · subst hne
    rw [Function.update_self] at hpc
    cases hpc
  · rw [Function.update_of_ne hne] at hsl hpc
    exact hr.reader q ⟨hsl, m, hpc⟩

theorem State.Sound.eq_of_lock (h : s.Sound) (hp : (s.proc p).pc.holds = true) :
    ∀ q, s.lock = some q → q = p := by
  intro q hq
  rw [h.holder p hp] at hq
  exact (Option.some.inj hq).symm

/-- One turn of a writer. -/
theorem State.Sound.writeTurn (h : s.Sound) (hpc : (s.proc p).pc = .write i n)
    (copyin : Option UInt8) : (Pipes.writeTurn s p i n copyin).Sound := by
  have hp : (s.proc p).pc.holds = true := by rw [hpc]; rfl
  have hl := h.eq_of_lock hp
  have hawake := h.awake hp
  have hwriters : ∀ q, s.WriterAsleep q →
      s.nwrite = (s.nread + pipesize) % uint ∧ s.readopen = true := fun q hq =>
    h.writers (fun q' i' n' hq' => nomatch h.pc_unique hpc hq' rfl rfl) hq
  -- after the `wakeup` everybody asleep is a writer, and has a reason
  have hrest : (s.wakeup .nread).Rested :=
    ⟨fun q hq => absurd hq (h.not_readerAsleep_wakeup q),
      fun q hq => hwriters q (writerAsleep_of_wakeup hq)⟩
  have hawake' : ((s.wakeup .nread).proc p).state ≠ .sleeping := fun hsl =>
    hawake (sleeping_of_wakeup hsl).1
  have hdone : ∀ ret, ((s.wakeup .nread).leave p ret).Sound := fun ret =>
    h.toPlaced.wakeup.leave hl hawake' hrest
  unfold Pipes.writeTurn
  split
  · rename_i hlt
    split
    · rename_i hstop
      -- a writer that owes a wakeup is not killed, and its read end is open
      refine h.toPlaced.leave hl hawake ⟨fun q hq => ?_, hwriters⟩
      obtain ⟨hopen, hempty | ⟨p', i', n', hpc', htell⟩⟩ := h.reader q hq
      · exact ⟨hempty, hopen⟩
      · have heq : p' = p := h.eq_of_holds hp (by rw [hpc']; rfl)
        rw [heq, hpc] at hpc'
        cases hpc'
        rw [heq] at htell
        rcases hstop with hclosed | hkilled
        · rw [(htell hlt).2] at hclosed
          cases hclosed
        · rw [(htell hlt).1] at hkilled
          cases hkilled
    · rename_i hgo
      have hgo : s.readopen = true ∧ (s.proc p).killed = false := by simpa using hgo
      split
      · rename_i hfull
        exact h.toPlaced.wakeup.sleepWriter hl hrest hfull hgo.1
      · rename_i hroom
        cases copyin with
        | none => exact hdone i
        | some ch =>
          dsimp only
          have hplaced : ((s.put ch).goto p (.write (i + 1) n)).Placed :=
            h.toPlaced.move rfl hl (fun _ => h.holder p hp) fun hsl => absurd hsl hawake
          refine ⟨hplaced, fun q hq => ?_, fun q hq => ?_⟩
          · have hq' : s.ReaderAsleep q := readerAsleep_update hq rfl hawake
            refine ⟨(h.reader q hq').1, Or.inr ⟨p, i + 1, n, ?_, fun _ => ?_⟩⟩
            · exact congrArg Proc.pc proc_setProc_self
            · exact ⟨(congrArg Proc.killed proc_setProc_self).trans hgo.2, hgo.1⟩
          · have hq' : s.WriterAsleep q := writerAsleep_update hq rfl hawake
            exact absurd (hwriters q hq').1 hroom
  · exact hdone i

/-- One turn of a reader that waits for bytes. -/
theorem State.Sound.waitTurn (h : s.Sound) (hpc : (s.proc p).pc = .wait n) :
    (Pipes.waitTurn s p n).Sound := by
  have hp : (s.proc p).pc.holds = true := by rw [hpc]; rfl
  have hl := h.eq_of_lock hp
  have hawake := h.awake hp
  have hrest : s.Rested :=
    ⟨fun q hq => h.readers (fun q' i' n' hq' => nomatch h.pc_unique hpc hq' rfl rfl) hq,
      fun q hq => h.writers (fun q' i' n' hq' => nomatch h.pc_unique hpc hq' rfl rfl) hq⟩
  rw [Pipes.waitTurn]
  split
  · rename_i hwait
    split
    · exact h.toPlaced.leave hl hawake hrest
    · exact h.toPlaced.sleepReader hl hrest hwait.1 hwait.2
  · have hplaced : (s.goto p (.read 0 n)).Placed :=
      h.toPlaced.move rfl hl (fun _ => h.holder p hp) fun hsl => absurd hsl hawake
    refine hplaced.sound ⟨fun q hq => ?_, fun q hq => ?_⟩
    · exact hrest.reader q (readerAsleep_update hq rfl hawake)
    · exact hrest.writer q (writerAsleep_update hq rfl hawake)

/-- One turn of a reader that takes bytes. -/
theorem State.Sound.readTurn (h : s.Sound) (hpc : (s.proc p).pc = .read i n) (copyout : Bool) :
    (Pipes.readTurn s p i n copyout).Sound := by
  have hp : (s.proc p).pc.holds = true := by rw [hpc]; rfl
  have hl := h.eq_of_lock hp
  have hawake := h.awake hp
  have hreaders : ∀ q, s.ReaderAsleep q → s.nread = s.nwrite ∧ s.writeopen = true := fun q hq =>
    h.readers (fun q' i' n' hq' => nomatch h.pc_unique hpc hq' rfl rfl) hq
  have hrest : (s.wakeup .nwrite).Rested :=
    ⟨fun q hq => hreaders q (readerAsleep_of_wakeup hq),
      fun q hq => absurd hq (h.not_writerAsleep_wakeup q)⟩
  have hawake' : ((s.wakeup .nwrite).proc p).state ≠ .sleeping := fun hsl =>
    hawake (sleeping_of_wakeup hsl).1
  have hdone : ∀ ret, ((s.wakeup .nwrite).leave p ret).Sound := fun ret =>
    h.toPlaced.wakeup.leave hl hawake' hrest
  rw [Pipes.readTurn]
  split
  · split
    · exact hdone i
    · rename_i hne
      split
      · have hplaced : (s.take.goto p (.read (i + 1) n)).Placed :=
          h.toPlaced.move rfl hl (fun _ => h.holder p hp) fun hsl => absurd hsl hawake
        refine ⟨hplaced, fun q hq => ?_, fun q hq => ?_⟩
        · have hq' : s.ReaderAsleep q := readerAsleep_update hq rfl hawake
          exact absurd (hreaders q hq').1 hne
        · have hq' : s.WriterAsleep q := writerAsleep_update hq rfl hawake
          exact ⟨(h.writer q hq').1,
            Or.inr ⟨p, i + 1, n, congrArg Proc.pc proc_setProc_self⟩⟩
      · exact hdone _
  · exact hdone i

/-- A process that is awake and not in a call takes the lock. -/
theorem State.Sound.enter (h : s.Sound) (hl : s.lock = none) (hpc : (s.proc p).pc = .out) :
    (s.acquire p pc).Sound := by
  refine h.toPlaced.acquire hl (fun hsl => ?_) (h.rested hl)
  rcases h.asleep p hsl with ⟨⟨m, hpc'⟩, -⟩ | ⟨⟨i, m, hpc'⟩, -⟩
  · rw [hpc] at hpc'
    cases hpc'
  · rw [hpc] at hpc'
    cases hpc'

/-- A process that has been woken takes the lock again. -/
theorem State.Sound.resume (h : s.Sound) (hl : s.lock = none)
    (hpc : (s.proc p).pc.holds = false) :
    ((s.setProc p (s.proc p).wake).acquire p pc).Sound := by
  have hwake : (s.proc p).wake.state ≠ .sleeping := nofun
  have hplaced : (s.setProc p (s.proc p).wake).Placed := by
    refine h.toPlaced.move rfl (fun q hq => ?_) (fun hh => ?_) fun hsl => absurd hsl hwake
    · rw [hl] at hq
      cases hq
    · change (s.proc p).pc.holds = true at hh
      rw [hpc] at hh
      cases hh
  have hrest : (s.setProc p (s.proc p).wake).Rested :=
    ⟨fun q hq => (h.rested hl).reader q (readerAsleep_update hq rfl hwake),
      fun q hq => (h.rested hl).writer q (writerAsleep_update hq rfl hwake)⟩
  refine hplaced.acquire hl ?_ hrest
  rw [proc_setProc_self]
  exact hwake

theorem State.Sound.pipeclose (h : s.Sound) (hl : s.lock = none) (writable : Bool) :
    (Pipes.pipeclose s writable).Sound := by
  have hrest := h.rested hl
  rw [Pipes.pipeclose]
  split
  · have hclosed : State.Placed { s with writeopen := false } := ⟨h.holder, h.asleep⟩
    refine hclosed.wakeup.sound ⟨fun q hq => ?_, fun q hq => ?_⟩
    · exact absurd hq (h.not_readerAsleep_wakeup q)
    · exact hrest.writer q (writerAsleep_of_wakeup (s := s) hq)
  · have hclosed : State.Placed { s with readopen := false } := ⟨h.holder, h.asleep⟩
    refine hclosed.wakeup.sound ⟨fun q hq => ?_, fun q hq => ?_⟩
    · exact hrest.reader q (readerAsleep_of_wakeup (s := s) hq)
    · exact absurd hq (h.not_writerAsleep_wakeup q)

@[simp]
theorem pc_kkill (s : State) (p q : ℕ) : ((Pipes.kkill s p).proc q).pc = (s.proc q).pc := by
  by_cases hne : q = p
  · rw [hne, Pipes.kkill, proc_setProc_self]
  · rw [Pipes.kkill, proc_setProc_of_ne hne]

/-- A kill only wakes, and spares a writer that owes a wakeup. -/
theorem State.Sound.kkill (h : s.Sound) (hok : ¬s.Unannounced p) : (Pipes.kkill s p).Sound := by
  have hawake : ({ s.proc p with
      killed := true
      state := if (s.proc p).state = .sleeping then .runnable else (s.proc p).state } :
      Proc).state ≠ .sleeping := by
    dsimp only
    split
    · nofun
    · assumption
  refine ⟨⟨fun q hq => ?_, fun q hq => ?_⟩, fun q hq => ?_, fun q hq => ?_⟩
  · rw [pc_kkill] at hq
    exact h.holder q hq
  · by_cases hne : q = p
    · subst hne
      exact absurd ((congrArg Proc.state proc_setProc_self).symm.trans hq) hawake
    · rw [Pipes.kkill, proc_setProc_of_ne hne] at hq ⊢
      exact h.asleep q hq
  · have hq' : s.ReaderAsleep q := readerAsleep_update hq rfl hawake
    obtain ⟨hopen, hempty | ⟨p', i, n, hpc, htell⟩⟩ := h.reader q hq'
    · exact ⟨hopen, Or.inl hempty⟩
    · refine ⟨hopen, ?_⟩
      by_cases hempty : s.nread = s.nwrite
      · exact Or.inl hempty
      · refine Or.inr ⟨p', i, n, by rw [pc_kkill]; exact hpc, fun hlt => ⟨?_, (htell hlt).2⟩⟩
        have hne : p' ≠ p := by
          rintro rfl
          exact hok ⟨⟨i, n, hpc, hlt⟩, hempty, q, hq'⟩
        rw [Pipes.kkill, proc_setProc_of_ne hne]
        exact (htell hlt).1
  · have hq' : s.WriterAsleep q := writerAsleep_update hq rfl hawake
    obtain ⟨hopen, hfull | ⟨p', i, n, hpc⟩⟩ := h.writer q hq'
    · exact ⟨hopen, Or.inl hfull⟩
    · exact ⟨hopen, Or.inr ⟨p', i, n, by rw [pc_kkill]; exact hpc⟩⟩

end Sections

theorem lock_of_canAcquire (h : s.canAcquire = true) : s.lock = none := by
  simp only [State.canAcquire, Bool.and_eq_true, Option.isNone_iff_eq_none] at h
  exact h.1

/-- Every step keeps the invariant, if no writer is killed at the wrong moment. -/
theorem State.Sound.step (h : s.Sound) (hok : Spared s e) (hs : step s e = some s') : s'.Sound := by
  cases e with
  | pipewrite p n =>
    obtain ⟨⟨hpc, hl⟩, hs⟩ := Option.ite_none_right_eq_some.mp hs
    cases hs
    exact h.enter (lock_of_canAcquire hl) hpc
  | piperead p n =>
    obtain ⟨⟨hpc, hl⟩, hs⟩ := Option.ite_none_right_eq_some.mp hs
    cases hs
    exact h.enter (lock_of_canAcquire hl) hpc
  | writeTurn p copyin =>
    rw [Pipes.step] at hs
    split at hs <;> cases hs
    rename_i hpc
    exact h.writeTurn hpc copyin
  | waitTurn p =>
    rw [Pipes.step] at hs
    split at hs <;> cases hs
    rename_i hpc
    exact h.waitTurn hpc
  | readTurn p copyout =>
    rw [Pipes.step] at hs
    split at hs <;> cases hs
    rename_i hpc
    exact h.readTurn hpc copyout
  | resume p =>
    obtain ⟨⟨-, hl⟩, hs⟩ := Option.ite_none_right_eq_some.mp hs
    have hpc : ((s.setProc p (s.proc p).wake).proc p).pc = (s.proc p).pc := by
      rw [proc_setProc_self, Proc.wake]
    rw [hpc] at hs
    split at hs <;> cases hs
    · rename_i hsleep
      exact h.resume (lock_of_canAcquire hl) (by rw [hsleep]; rfl)
    · rename_i hsleep
      exact h.resume (lock_of_canAcquire hl) (by rw [hsleep]; rfl)
  | pipeclose p writable =>
    obtain ⟨⟨-, hl, -⟩, hs⟩ := Option.ite_none_right_eq_some.mp hs
    cases hs
    exact h.pipeclose (lock_of_canAcquire hl) writable
  | kkill p =>
    cases hs
    exact h.kkill hok

theorem sound_reach (hr : Reach Fresh step Spared s) : s.Sound :=
  hr.inv (fun _ hf => hf.sound) fun _ _ _ h hok hs => h.step hok hs

/-- A kill at the wrong moment makes the writer leave without a word. -/
theorem State.Unannounced.lost (h : s.Unannounced p) :
    ∃ s₁ s₂, Pipes.step s (.kkill p) = some s₁ ∧ Pipes.step s₁ (.writeTurn p none) = some s₂ ∧
      s₂.lock = none ∧ ¬s₂.Rested := by
  obtain ⟨⟨i, n, hpc, hlt⟩, hne, q, hq⟩ := h
  have hpc' : ((Pipes.kkill s p).proc p).pc = .write i n := by rw [pc_kkill, hpc]
  have hkilled : ((Pipes.kkill s p).proc p).killed = true := by
    rw [Pipes.kkill, proc_setProc_self]
  have hqp : q ≠ p := by
    rintro rfl
    obtain ⟨-, m, hm⟩ := hq
    rw [hpc] at hm
    cases hm
  refine ⟨Pipes.kkill s p, (Pipes.kkill s p).leave p (-1), rfl, ?_, rfl, fun hrest => ?_⟩
  · rw [Pipes.step, hpc']
    simp only [Pipes.writeTurn, if_pos hlt, hkilled, or_true, if_true]
  · refine hne (hrest.reader q ?_).1
    rw [State.ReaderAsleep, State.leave]
    rw [proc_setProc_of_ne hqp, Pipes.kkill, proc_setProc_of_ne hqp]
    exact hq

/-- Whenever the lock of the pipe is free, no reader is asleep while there are bytes or the write
end is closed, and no writer while there is room or the read end is closed, as long as no writer is
killed before it has announced its bytes. A kill at such a moment makes it fail. -/
theorem pipe_sleepers_rested (hr : Reach Fresh step Spared s) :
    (s.lock = none → s.Rested) ∧
      ∀ p, s.Unannounced p → ∃ s₁ s₂, step s (.kkill p) = some s₁ ∧
        step s₁ (.writeTurn p none) = some s₂ ∧ s₂.lock = none ∧ ¬s₂.Rested :=
  ⟨(sound_reach hr).rested, fun _ hp => hp.lost⟩

/-- Process 1 has found the pipe empty. -/
def afterWait : State := (runAll Any step made [.piperead 1 5, .waitTurn 1]).get (by decide)

theorem pipe_sleepers_rested_afterWait :
    (afterWait.lock = none → afterWait.Rested) ∧
      ∀ p, afterWait.Unannounced p → ∃ s₁ s₂, step afterWait (.kkill p) = some s₁ ∧
        step s₁ (.writeTurn p none) = some s₂ ∧ s₂.lock = none ∧ ¬s₂.Rested :=
  pipe_sleepers_rested
    (((Reach.start fresh_made).step (l := .piperead 1 5) trivial rfl).step (l := .waitTurn 1)
      trivial rfl)

/-- Process 1 sleeps on an empty pipe. Process 0 has written one byte of two when it is killed, and
returns. -/
def killedWriter : List Event :=
  [.piperead 1 5, .waitTurn 1, .pipewrite 0 2, .writeTurn 0 (some 7), .kkill 0, .writeTurn 0 none]

def afterKill : State := (runAll Any step made killedWriter).get (by decide)

theorem killed_writer_loses_wakeup :
    Reach Fresh step Any afterKill ∧ afterKill.lock = none ∧ afterKill.ReaderAsleep 1 ∧
      afterKill.nread ≠ afterKill.nwrite :=
  ⟨(Reach.start fresh_made).runAll_get (by decide), by decide, ⟨by decide, 5, by decide⟩,
    by decide⟩

end Pipes

end Xv6
