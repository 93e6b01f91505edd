import Xv6.Wait.Locks

/-!
# No wakeup is lost

`kexit` wakes the parent before it makes itself a `ZOMBIE`, and `sleep` releases `wait_lock` before
it makes the process `SLEEPING`. What keeps a parent from sleeping beside a zombie is that both
happen to a process whose `p->lock` is held.

A process is on its way to sleep in `kwait` from the moment it takes its own lock in `sleep`, when it
still holds `wait_lock`, until somebody makes it `RUNNABLE` (`State.Waiting`). While `wait_lock` is
held nobody but the holder starts on that way. The invariant says of the holder

* in the loop of `wakeup(initproc)`, that init may be on its way to sleep with a zombie child only as
  long as the loop has not come to it (`Pc.pending`);
* in the loop of `wakeup(p->parent)` and after it, that the parent is not on its way to sleep once
  the loop has passed it (`Pc.cleared`);
* in the scan of `kwait` and after it, that no child among those scanned is a zombie (`Pc.scanned`).
-/

namespace Xv6

namespace Wait

open State Transition

variable {s s' : State} {p q c t : ℕ} {l : Lk} {ok : Bool} {e : Event}

/-- `initproc` is in the process table. -/
theorem initproc_lt : initproc < nproc := by decide

/-! ### Housekeeping -/

/-- In `kexit`, before the process is a zombie. -/
def Pc.exiting : Pc → Bool
  | .exitWait | .reparent _ | .wakeup _ _ | .wakeupHeld _ _ | .exitLock | .exitZombie => true
  | _ => false

structure State.Tidy (s : State) : Prop extends s.Placed where
  bound : ∀ c, (s.proc c).state ≠ .unused → c < nproc
  parents : ∀ c t, (s.proc c).parent = some t → t < nproc
  alloc : ∀ p i, (s.thread p).pc = .allocprocHeld i → i < nproc
  exiter : ∀ p, (s.thread p).pc.exiting = true → p ≠ initproc
  dozing : ∀ p, (s.thread p).sw = .dozing → (s.thread p).pc = .out
  chan : ∀ p, (s.thread p).pc = .asleep → (s.proc p).state = .sleeping →
    (s.proc p).chan = .proc p

theorem booted_tidy : booted.Tidy where
  toPlaced := booted_placed
  bound c hc := by
    by_contra hge
    refine hc ?_
    have hne : c ≠ initproc := by
      rintro rfl
      exact hge initproc_lt
    exact congrArg Proc.state (if_neg hne)
  parents c t hc := by
    rw [booted] at hc
    dsimp only at hc
    split at hc <;> cases hc
  alloc p i hpc := by cases hpc
  exiter p hpc := by cases hpc
  dozing p hsw := by cases hsw
  chan p hpc := by cases hpc

/-- What a step says about where the process is then. -/
structure Tidied (s s' : State) (p : ℕ) : Prop where
  alloc : ∀ i, (s'.thread p).pc = .allocprocHeld i →
    i < nproc ∨ (s.thread p).pc = .allocprocHeld i
  exiter : (s'.thread p).pc.exiting = true → (s.thread p).pc.exiting = true ∨ p ≠ initproc
  dozing : (s'.thread p).sw = .dozing → (s'.thread p).pc = .out
  asleep : (s'.thread p).pc = .asleep →
    (s.thread p).pc = .sleepSet ∨ (s.thread p).pc = .asleep
  sleep : (s'.thread p).pc = .sleepRelease ∨ (s'.thread p).pc = .sleepSet →
    (s.thread p).pc = .sleepLock ∨ (s.thread p).pc = .sleepRelease ∨ (s.thread p).pc = .sleepSet

theorem Turn.tidied (hrun : (s.thread p).sw = .run) (h : Turn s p s') : Tidied s s' p := by
  cases h with
  | @wakeupDone k _ hpc _ =>
    cases k <;> constructor <;>
      simp [*, State.goto, State.setThread, Pc.exiting, Wakeup.next]
  | @birth i hpc _ =>
    by_cases hi : p = i
    · subst hi
      constructor <;> simp [*, State.goto, State.setHeld, State.release, State.setThread, forkChild,
        Pc.exiting]
    · constructor <;> simp [*, State.goto, State.setHeld, State.release, State.setThread,
        State.setProc, forkChild, Pc.exiting]
  | _ =>
    constructor <;> simp [*, State.goto, State.setHeld, State.release, State.setThread,
      State.setProc, State.setRet, forkChild, becomeZombie, Pc.exiting]

/-- A change of a slot other than in `allocproc` takes no slot into use. -/
theorem Change.bound (h : s.Tidy) {x : Proc} (hx : Change s p c x) (hne : x.state ≠ .unused) :
    c < nproc := by
  cases hx with
  | birth hpc _ => exact h.alloc _ _ hpc
  | reap => exact absurd rfl hne
  | noMemory => exact absurd rfl hne
  | wakeup chan =>
    refine h.bound c fun hu => hne ?_
    have hno : ¬((s.proc c).state = .sleeping ∧ (s.proc c).chan = chan) := by
      rintro ⟨hs, -⟩
      cases hu.symm.trans hs
    rw [Proc.wakeup, if_neg hno, hu]
  | kill =>
    refine h.bound c fun hu => hne ?_
    rw [Proc.kill, hu]
    rfl
  | zombie hc hrun hpc =>
    subst hc
    refine h.bound c ?_
    rw [h.running hrun (by rw [hpc]; rfl)]
    rintro ⟨⟩
  | sleep hc hrun hpc =>
    subst hc
    refine h.bound c ?_
    rw [h.running hrun (by rw [hpc]; rfl)]
    rintro ⟨⟩
  | runnable _ hpc =>
    refine h.bound c ?_
    rw [h.used _ c (by rw [hpc]; rfl)]
    rintro ⟨⟩
  | yield hc hsw =>
    subst hc
    refine h.bound c ?_
    have hact := h.active c (by rw [hsw]; rintro ⟨⟩)
    split at hact <;> rw [hact] <;> rintro ⟨⟩
  | doze hc hsw =>
    subst hc
    refine h.bound c ?_
    have hact := h.active c (by rw [hsw]; rintro ⟨⟩)
    split at hact <;> rw [hact] <;> rintro ⟨⟩
  | dispatch hr =>
    refine h.bound c ?_
    rw [hr]
    rintro ⟨⟩
  | same | reparent | adopt | resume => exact h.bound c hne

/-- Parents change in `reparent` and in `kfork` only. -/
theorem Change.parent {x : Proc} (hx : Change s p c x) (hparent : x.parent = some t) :
    (s.proc c).parent = some t ∨ t = initproc ∧ (s.thread p).pc = .reparent c ∨
      t = p ∧ (s.thread p).sw = .run ∧ (s.thread p).pc = .forkParent c := by
  cases hx with
  | reparent hpc hold =>
    cases hparent
    exact Or.inr (Or.inl ⟨rfl, hpc⟩)
  | adopt hrun hpc =>
    cases hparent
    exact Or.inr (Or.inr ⟨rfl, hrun, hpc⟩)
  | reap | noMemory => cases hparent
  | wakeup chan =>
    rw [Proc.wakeup] at hparent
    split at hparent <;> exact Or.inl hparent
  | same | zombie | sleep | birth | runnable | kill | yield | doze | dispatch | resume =>
    exact Or.inl hparent

/-- Only `kexit` makes a zombie. -/
theorem Change.zombie_or {x : Proc} (hx : Change s p c x) (hz : x.state = .zombie) :
    (s.proc c).state = .zombie ∨ c = p ∧ (s.thread p).pc = .exitZombie := by
  cases hx with
  | zombie hc _ hpc => exact Or.inr ⟨hc, hpc⟩
  | wakeup chan =>
    rw [Proc.wakeup] at hz
    split at hz
    · cases hz
    · exact Or.inl hz
  | kill =>
    rw [Proc.kill] at hz
    dsimp only at hz
    split at hz
    · cases hz
    · exact Or.inl hz
  | same | reparent | adopt | resume => exact Or.inl hz
  | _ => cases hz

/-- Only `sleep` makes a process `SLEEPING`. -/
theorem Change.sleeping_or (h : s.Placed) {x : Proc} (hx : Change s p c x)
    (hz : x.state = .sleeping) : (s.proc c).state = .sleeping ∧ x.chan = (s.proc c).chan ∨
      (s.thread c).pc = .sleepSet ∧ x.chan = .proc c ∨ (s.thread c).sw = .dozing := by
  cases hx with
  | sleep hc _ hpc =>
    subst hc
    exact Or.inr (Or.inl ⟨hpc, rfl⟩)
  | doze hc hsw =>
    subst hc
    exact Or.inr (Or.inr hsw)
  | resume hc hsw =>
    subst hc
    have hact := h.active c (by rw [hsw]; nofun)
    split at hact <;> cases hact.symm.trans hz
  | wakeup chan =>
    rw [Proc.wakeup] at hz ⊢
    split at hz
    · cases hz
    · rename_i hno
      rw [if_neg hno]
      exact Or.inl ⟨hz, rfl⟩
  | kill =>
    rw [Proc.kill] at hz
    dsimp only at hz
    split at hz
    · cases hz
    · exact Or.inl ⟨hz, rfl⟩
  | same | reparent | adopt => exact Or.inl ⟨hz, rfl⟩
  | _ => cases hz

/-- A process that stays where it is. -/
theorem tidied_of_pc (hpc : (s'.thread p).pc = (s.thread p).pc)
    (hsw : (s'.thread p).sw = .dozing → (s.thread p).pc = .out) : Tidied s s' p := by
  constructor
  · intro i hi
    exact Or.inr (hpc ▸ hi)
  · intro hi
    exact Or.inl (hpc ▸ hi)
  · rw [hpc]
    exact hsw
  · intro hi
    exact Or.inr (hpc ▸ hi)
  · intro hi
    exact Or.inr (hpc ▸ hi)

/-- A step of process `p`, for the slots and for the threads. -/
structure Moves (s s' : State) (p : ℕ) : Prop where
  change : ∀ c, Change s p c (s'.proc c)
  tidied : Tidied s s' p
  others : ∀ q ≠ p, s'.thread q = s.thread q ∨ s'.thread q = {} ∧ (s.proc q).state = .unused

/-- An event other than a turn. It changes no parent, and where the process is it relies on nothing,
unless it stays there. -/
structure Aside (s s' : State) (p : ℕ) : Prop where
  parent : ∀ c, (s'.proc c).parent = (s.proc c).parent
  pc : (s'.thread p).pc = (s.thread p).pc ∨ (s.thread p).pc.locks p = [] ∧
    (s'.thread p).pc.locks p = [] ∧ (s'.thread p).pc.child? = none

/-- A slot changes, but not its parent. -/
theorem parent_setProc {x : Proc} (hx : x.parent = (s.proc q).parent) (c : ℕ) :
    ((s.setProc q x).proc c).parent = (s.proc c).parent := by
  by_cases hc : c = q
  · subst hc
    rw [proc_setProc_self, hx]
  · rw [proc_setProc_of_ne hc]

theorem Proc.parent_wakeup (x : Proc) (chan : Chan) : (x.wakeup chan).parent = x.parent := by
  rw [Proc.wakeup]
  split <;> rfl

/-- Other code, which moves no process. -/
theorem State.Tidy.moves_of_thread (h : s.Tidy) (hchange : ∀ c, Change s p c (s'.proc c))
    (hparent : ∀ c, (s'.proc c).parent = (s.proc c).parent) (hthread : s'.thread = s.thread) :
    Moves s s' p ∧ Aside s s' p := by
  refine ⟨⟨hchange, tidied_of_pc ?_ ?_, fun q _ => Or.inl ?_⟩, hparent, Or.inl ?_⟩
  · rw [hthread]
  · rw [hthread]
    exact h.dozing p
  · rw [hthread]
  · rw [hthread]

/-- A system call begins. -/
theorem moves_of_call (hidle : (s.thread p).idle) {t : Thread} (hrun : t.sw = .run)
    (hlocks : t.pc.locks p = []) (hex : t.pc.exiting = true → p ≠ initproc)
    (hasleep : t.pc ≠ .asleep) (hchild : t.pc.child? = none) : Moves s (s.setThread p t) p ∧ Aside s (s.setThread p t) p := by
  refine ⟨⟨fun _ => .same, ?_, fun q hq => Or.inl (thread_setThread_of_ne hq)⟩, fun _ => rfl,
    Or.inr ⟨?_, ?_, ?_⟩⟩
  · constructor
    · rw [thread_setThread_self]
      rintro i hi
      rw [hi] at hlocks
      cases hlocks
    · rw [thread_setThread_self]
      exact fun hx => Or.inr (hex hx)
    · rw [thread_setThread_self, hrun]
      nofun
    · rw [thread_setThread_self]
      exact fun hx => absurd hx hasleep
    · rw [thread_setThread_self]
      rintro (hi | hi) <;> rw [hi] at hlocks <;> cases hlocks
  · rw [hidle.2]
    rfl
  · rw [thread_setThread_self]
    exact hlocks
  · rw [thread_setThread_self]
    exact hchild

/-- A process stays where it is while it enters or leaves the processor. -/
theorem moves_of_pc (hchange : ∀ c, Change s p c (s'.proc c))
    (hparent : ∀ c, (s'.proc c).parent = (s.proc c).parent)
    (hother : ∀ q ≠ p, s'.thread q = s.thread q) (hpc : (s'.thread p).pc = (s.thread p).pc)
    (hsw : (s'.thread p).sw = .dozing → (s.thread p).pc = .out) :
    Moves s s' p ∧ Aside s s' p :=
  ⟨⟨hchange, tidied_of_pc hpc hsw, fun q hq => Or.inl (hother q hq)⟩, hparent, Or.inl hpc⟩

theorem moves_of_aside (h : Moves s s' p ∧ Aside s s' p) :
    ∃ p, Moves s s' p ∧ ((s.thread p).sw = .run ∧ Turn s p s' ∨ Aside s s' p) :=
  ⟨p, h.1, Or.inr h.2⟩

theorem step_moves (h : s.Tidy) (hs : step s e = some s') :
    ∃ p, Moves s s' p ∧ ((s.thread p).sw = .run ∧ Turn s p s' ∨ Aside s s' p) := by
  cases e with
  | turn p ok =>
    obtain ⟨hrun, hs⟩ := Option.ite_none_right_eq_some.mp hs
    have ht := turn_eq_some hs
    exact ⟨p, ⟨ht.change hrun, ht.tidied hrun, fun q hq => ht.others hq⟩, Or.inl ⟨hrun, ht⟩⟩
  | kexit p status =>
    obtain ⟨⟨hidle, hne⟩, hs⟩ := Option.ite_none_right_eq_some.mp hs
    cases hs
    exact moves_of_aside (moves_of_call hidle hidle.1 rfl (fun _ => hne) nofun rfl)
  | kwait p addr =>
    obtain ⟨hidle, hs⟩ := Option.ite_none_right_eq_some.mp hs
    cases hs
    exact moves_of_aside (moves_of_call hidle hidle.1 rfl nofun nofun rfl)
  | kfork p =>
    obtain ⟨hidle, hs⟩ := Option.ite_none_right_eq_some.mp hs
    cases hs
    exact moves_of_aside (moves_of_call hidle hidle.1 rfl nofun nofun rfl)
  | kkill p pid =>
    obtain ⟨hidle, hs⟩ := Option.ite_none_right_eq_some.mp hs
    cases hs
    exact moves_of_aside (moves_of_call hidle hidle.1 rfl nofun nofun rfl)
  | yield p =>
    obtain ⟨-, hs⟩ := Option.ite_none_right_eq_some.mp hs
    obtain ⟨-, hs⟩ := Option.ite_none_right_eq_some.mp hs
    cases hs
    refine moves_of_aside (moves_of_pc (p := p) (fun _ => .same) (fun _ => rfl)
      (fun q hq => thread_setThread_of_ne hq) ?_ ?_)
    · simp [State.setThread, State.setHeld]
    · simp [State.setThread, State.setHeld]
  | doze p =>
    obtain ⟨hidle, hs⟩ := Option.ite_none_right_eq_some.mp hs
    obtain ⟨-, hs⟩ := Option.ite_none_right_eq_some.mp hs
    cases hs
    refine moves_of_aside (moves_of_pc (p := p) (fun _ => .same) (fun _ => rfl)
      (fun q hq => thread_setThread_of_ne hq) ?_ fun _ => hidle.2)
    simp [State.setThread, State.setHeld]
  | leave p =>
    obtain ⟨x, hx, rfl⟩ := Option.map_eq_some_iff.mp hs
    have hx' : Change s p p x ∧ x.parent = (s.proc p).parent := by
      cases hsw : (s.thread p).sw with
      | yielding =>
        rw [hsw] at hx
        cases hx
        exact ⟨.yield rfl hsw, rfl⟩
      | dozing =>
        rw [hsw] at hx
        cases hx
        exact ⟨.doze rfl hsw, rfl⟩
      | _ =>
        rw [hsw] at hx
        cases hx
    refine moves_of_aside (moves_of_pc (p := p) (change_setProc hx'.1) (parent_setProc hx'.2)
      (fun q hq => thread_setThread_of_ne hq) ?_ ?_)
    · simp [State.setThread, State.setHeld]
    · simp [State.setThread, State.setHeld]
  | dispatch p =>
    obtain ⟨hr, hs⟩ := Option.ite_none_right_eq_some.mp hs
    obtain ⟨-, hs⟩ := Option.ite_none_right_eq_some.mp hs
    cases hs
    refine moves_of_aside (moves_of_pc (p := p) (change_setProc (.dispatch hr)) (parent_setProc rfl)
      (fun q hq => thread_setThread_of_ne hq) ?_ ?_)
    · simp [State.setThread, State.setHeld, State.setProc]
    · simp [State.setThread, State.setHeld]
  | resume p =>
    obtain ⟨hsw, hs⟩ := Option.ite_none_right_eq_some.mp hs
    cases hs
    by_cases hasleep : (s.thread p).pc = .asleep
    · refine moves_of_aside ⟨⟨change_setProc (.resume rfl hsw), ?_,
        fun q hq => Or.inl (thread_setThread_of_ne hq)⟩, parent_setProc rfl, Or.inr ⟨?_, ?_, ?_⟩⟩
      · constructor <;> simp [State.setThread, State.setHeld, Thread.resume, hasleep, Pc.exiting]
      · simp [hasleep, Pc.locks]
      · simp [State.setThread, State.setHeld, Thread.resume, hasleep, Pc.locks]
      · simp [State.setThread, State.setHeld, Thread.resume, hasleep, Pc.child?]
    · refine moves_of_aside (moves_of_pc (p := p) (change_setProc (.resume rfl hsw))
        (parent_setProc rfl) (fun q hq => thread_setThread_of_ne hq) ?_ ?_) <;>
        simp [State.setThread, State.setHeld, Thread.resume, hasleep]
  | lock l =>
    obtain ⟨-, hs⟩ := Option.ite_none_right_eq_some.mp hs
    cases hs
    exact moves_of_aside (h.moves_of_thread (p := 0) (fun _ => .same) (fun _ => rfl) rfl)
  | rouse p =>
    obtain ⟨-, hs⟩ := Option.ite_none_right_eq_some.mp hs
    cases hs
    exact moves_of_aside (h.moves_of_thread (p := 0) (change_setProc (.wakeup .other))
      (parent_setProc (Proc.parent_wakeup _ _)) rfl)
  | unlock l =>
    obtain ⟨-, hs⟩ := Option.ite_none_right_eq_some.mp hs
    cases hs
    exact moves_of_aside (h.moves_of_thread (p := 0) (fun _ => .same) (fun _ => rfl) rfl)

/-- A process in the middle of `sleep` is on the processor. -/
theorem State.Placed.running_of_sleepSet (h : s.Placed) (hpc : (s.thread p).pc = .sleepSet) :
    (s.thread p).sw = .run ∧ (s.proc p).state = .running := by
  have hrun : (s.thread p).sw = .run := by
    by_contra hne
    have hlocks := h.still p hne
    rw [hpc] at hlocks
    cases hlocks
  exact ⟨hrun, h.running hrun (by rw [hpc]; rfl)⟩

theorem step_tidy (h : s.Tidy) (hs : step s e = some s') : s'.Tidy := by
  have hplaced := step_placed h.toPlaced hs
  obtain ⟨p, ⟨hchange, hp, hother⟩, -⟩ := step_moves h hs
  refine ⟨hplaced, fun c hc => (hchange c).bound h hc, fun c t hc => ?_, fun q i hi => ?_,
    fun q hq => ?_, fun q hq => ?_, fun q hpc hsleep => ?_⟩
  · rcases (hchange c).parent hc with hold | ⟨rfl, -⟩ | ⟨rfl, hrun, hpc⟩
    · exact h.parents c t hold
    · exact initproc_lt
    · refine h.bound t ?_
      rw [h.running hrun (by rw [hpc]; rfl)]
      nofun
  · by_cases hqp : q = p
    · subst hqp
      rcases hp.alloc i hi with hlt | hold
      · exact hlt
      · exact h.alloc q i hold
    · rcases hother q hqp with heq | ⟨heq, -⟩
      · rw [heq] at hi
        exact h.alloc q i hi
      · rw [heq] at hi
        cases hi
  · by_cases hqp : q = p
    · subst hqp
      rcases hp.exiter hq with hold | hne
      · exact h.exiter q hold
      · exact hne
    · rcases hother q hqp with heq | ⟨heq, -⟩
      · rw [heq] at hq
        exact h.exiter q hq
      · rw [heq] at hq
        cases hq
  · by_cases hqp : q = p
    · subst hqp
      exact hp.dozing hq
    · rcases hother q hqp with heq | ⟨heq, -⟩
      · rw [heq] at hq ⊢
        exact h.dozing q hq
      · rw [heq] at hq
        cases hq
  · -- asleep now: it was asleep, or is the one that goes to sleep
    have hold : (s.thread q).pc = .sleepSet ∨ (s.thread q).pc = .asleep := by
      by_cases hqp : q = p
      · subst hqp
        exact hp.asleep hpc
      · rcases hother q hqp with heq | ⟨heq, -⟩
        · exact Or.inr (heq ▸ hpc)
        · rw [heq] at hpc
          cases hpc
    rcases (hchange q).sleeping_or h.toPlaced hsleep with ⟨hwas, hchan⟩ | ⟨-, hchan⟩ | hdoze
    · rcases hold with hset | hasleep
      · cases (h.running_of_sleepSet hset).2.symm.trans hwas
      · rw [hchan]
        exact h.chan q hasleep hwas
    · exact hchan
    · have hout := h.dozing q hdoze
      rcases hold with hpc' | hpc' <;> cases hout.symm.trans hpc'

/-! ### Sleepers and zombies -/

/-- On the way to sleep in `kwait`, or asleep there. -/
def State.Waiting (s : State) (q : ℕ) : Prop :=
  (s.thread q).pc = .sleepRelease ∨ (s.thread q).pc = .sleepSet ∨
    (s.thread q).pc = .asleep ∧ (s.proc q).state = .sleeping

/-- The wakeup of `q` as the new parent of a zombie is still to come. -/
def Pc.pending : Pc → ℕ → Prop
  | .wakeup (.init _) j, q | .wakeupHeld (.init _) j, q => q = initproc ∧ j ≤ q
  | _, _ => False

/-- The wakeup of the parent `t` is over. -/
def Pc.cleared : Pc → ℕ → Prop
  | .wakeup .parent j, t | .wakeupHeld .parent j, t => t < j
  | .exitLock, _ | .exitZombie, _ => True
  | _, _ => False

/-- The child `c` was not a zombie. -/
def Pc.scanned : Pc → ℕ → Prop
  | .scan i _, c | .scanHeld i, c => c < i
  | .killed, _ | .killedHeld, _ | .sleepLock, _ => True
  | _, _ => False

structure State.Rested (s : State) : Prop where
  pending : ∀ q c, s.Waiting q → (s.proc c).parent = some q → (s.proc c).state = .zombie →
    ∃ p, (s.thread p).pc.pending q
  cleared : ∀ p t, (s.proc p).parent = some t → (s.thread p).pc.cleared t → ¬s.Waiting t
  scanned : ∀ p c, (s.proc c).parent = some p → (s.thread p).pc.scanned c →
    (s.proc c).state ≠ .zombie

theorem wait_of_pending {pc : Pc} (h : pc.pending q) : .wait ∈ pc.locks p := by
  cases pc with
  | wakeup k j => simp [Pc.locks]
  | wakeupHeld k j => simp [Pc.locks]
  | _ => cases h

theorem wait_of_cleared {pc : Pc} (h : pc.cleared t) : .wait ∈ pc.locks p := by
  cases pc with
  | wakeup k j => simp [Pc.locks]
  | wakeupHeld k j => simp [Pc.locks]
  | exitLock => simp [Pc.locks]
  | exitZombie => simp [Pc.locks]
  | _ => cases h

theorem wait_of_scanned {pc : Pc} (h : pc.scanned c) : .wait ∈ pc.locks p := by
  cases pc with
  | scan i havekids => simp [Pc.locks]
  | scanHeld i => simp [Pc.locks]
  | killed => simp [Pc.locks]
  | killedHeld => simp [Pc.locks]
  | sleepLock => simp [Pc.locks]
  | _ => cases h

theorem mem_locks_of_pc (h : l ∈ (s.thread p).pc.locks p) : l ∈ (s.thread p).locks p := by
  rw [Thread.locks]
  split <;> simp [h]

/-- Nobody relies on `wait_lock` but the one who has it. -/
theorem State.Placed.eq_of_wait (h : s.Placed) (hp : .wait ∈ (s.thread p).pc.locks p)
    (hq : .wait ∈ (s.thread q).pc.locks q) : q = p :=
  h.eq_of_mem (mem_locks_of_pc hp) (mem_locks_of_pc hq)

theorem booted_rested : booted.Rested where
  pending q c hq := by rcases hq with hq | hq | ⟨hq, -⟩ <;> cases hq
  cleared p t _ hc := by cases hc
  scanned p c _ hc := by cases hc

/-- When `wait_lock` is free, nobody sleeps in `kwait` beside a zombie child. -/
theorem State.Rested.quiet (h : s.Rested) (hp : s.Placed) (hfree : s.held .wait = none)
    (hq : s.Waiting q) (hparent : (s.proc c).parent = some q) : (s.proc c).state ≠ .zombie := by
  intro hz
  obtain ⟨p, hpend⟩ := h.pending q c hq hparent hz
  have hmem := mem_locks_of_pc (wait_of_pending hpend)
  exact hp.locked.not_relies hfree _ (relies_of_mem hmem)

/-- Only the process that moves can start on the way to sleep, and it has `wait_lock` then. -/
theorem Moves.waiting (h : s.Tidy) (hm : Moves s s' p) (hq : s'.Waiting q) :
    s.Waiting q ∨ q = p ∧ (s.thread p).pc = .sleepLock := by
  -- it is asleep, and was already where it is
  have hasleep : (s.thread q).pc = .asleep → (s'.proc q).state = .sleeping → s.Waiting q := by
    intro hpc hsleep
    rcases (hm.change q).sleeping_or h.toPlaced hsleep with ⟨hwas, -⟩ | ⟨hset, -⟩ | hdoze
    · exact Or.inr (Or.inr ⟨hpc, hwas⟩)
    · exact Or.inr (Or.inl hset)
    · cases (h.dozing q hdoze).symm.trans hpc
  by_cases hqp : q = p
  · subst hqp
    have hsleep : (s.thread q).pc = .sleepLock ∨ (s.thread q).pc = .sleepRelease ∨
        (s.thread q).pc = .sleepSet → s.Waiting q ∨ q = q ∧ (s.thread q).pc = .sleepLock := by
      rintro (hpc | hpc | hpc)
      · exact Or.inr ⟨rfl, hpc⟩
      · exact Or.inl (Or.inl hpc)
      · exact Or.inl (Or.inr (Or.inl hpc))
    rcases hq with hpc | hpc | ⟨hpc, hstate⟩
    · exact hsleep (hm.tidied.sleep (Or.inl hpc))
    · exact hsleep (hm.tidied.sleep (Or.inr hpc))
    · rcases hm.tidied.asleep hpc with hset | hold
      · exact Or.inl (Or.inr (Or.inl hset))
      · exact Or.inl (hasleep hold hstate)
  · refine Or.inl ?_
    rcases hm.others q hqp with heq | ⟨heq, -⟩
    · rw [State.Waiting, heq] at hq
      rcases hq with hpc | hpc | ⟨hpc, hstate⟩
      · exact Or.inl hpc
      · exact Or.inr (Or.inl hpc)
      · exact hasleep hpc hstate
    · rw [State.Waiting, heq] at hq
      rcases hq with hpc | hpc | ⟨hpc, -⟩ <;> cases hpc

/-- The thread of an unused slot relies on nothing. -/
theorem State.Placed.locks_of_unused (h : s.Placed) (hu : (s.proc q).state = .unused) :
    (s.thread q).pc.locks q = [] := by
  refine h.still q ?_
  rw [h.off (by rw [hu]; exact ⟨nofun, nofun⟩)]
  nofun

theorem not_waiting_of_fork (hpc : (s.thread p).pc = .forkParent c) :
    ¬(s.Waiting p ∨ p = p ∧ (s.thread p).pc = .sleepLock) := by
  rw [State.Waiting, hpc]
  rintro ((hpc | hpc | ⟨hpc, -⟩) | ⟨-, hpc⟩) <;> cases hpc

section

variable {pc₀ pc : Pc}

/-- A step that reparents nobody keeps the invariant, if it does so for the process `p` that takes
it: what is claimed then was claimed before, or is seen to be true. -/
theorem State.Rested.move (h : s.Rested) (htidy : s.Tidy) (hm : Moves s s' p)
    (hpc₀ : (s.thread p).pc = pc₀) (hpc : (s'.thread p).pc = pc)
    (hparent : ∀ c, pc₀ = .reparent c → (s'.proc c).parent = (s.proc c).parent)
    (hpending : ∀ q, pc₀.pending q → pc.pending q ∨ ¬s'.Waiting q)
    (hcleared : ∀ t, (s'.proc p).parent = some t → pc.cleared t → pc₀.cleared t ∨ ¬s'.Waiting t)
    (hscanned : ∀ c, (s'.proc c).parent = some p → pc.scanned c →
      pc₀.scanned c ∨ (s'.proc c).state ≠ .zombie) : s'.Rested := by
  have hwaiting : ∀ {q}, s'.Waiting q → s.Waiting q ∨ q = p ∧ (s.thread p).pc = .sleepLock :=
    fun hq => hm.waiting htidy hq
  have hold : ∀ {c q}, (s'.proc c).parent = some q → (s.proc c).parent = some q ∨
      q = p ∧ (s.thread p).pc = .forkParent c := by
    intro c q hc
    rcases (hm.change c).parent hc with hold | ⟨-, hrep⟩ | ⟨rfl, -, hfork⟩
    · exact Or.inl hold
    · rw [hparent c (hpc₀.symm.trans hrep)] at hc
      exact Or.inl hc
    · exact Or.inr ⟨rfl, hfork⟩
  -- who is where `wait_lock` is relied on is `p`
  have honly : ∀ {x}, .wait ∈ (s.thread x).pc.locks x → .wait ∈ (s.thread p).pc.locks p → x = p :=
    fun hx hp => htidy.eq_of_wait hp hx
  refine ⟨fun q c hq hpar hz => ?_, fun x t hpar hx hw => ?_, fun x c hpar hx hz => ?_⟩
  · rcases hold hpar with hpar | ⟨rfl, hfork⟩
    · rcases (hm.change c).zombie_or hz with hz | ⟨rfl, hexit⟩
      · rcases hwaiting hq with hw | ⟨rfl, hsleep⟩
        · obtain ⟨x, hx⟩ := h.pending q c hw hpar hz
          by_cases hxp : x = p
          · subst hxp
            rw [hpc₀] at hx
            rcases hpending q hx with hx | hno
            · exact ⟨x, hpc ▸ hx⟩
            · exact absurd hq hno
          · rcases hm.others x hxp with heq | ⟨-, hu⟩
            · exact ⟨x, heq ▸ hx⟩
            · have hmem := wait_of_pending (p := x) hx
              rw [htidy.locks_of_unused hu] at hmem
              cases hmem
        · exact absurd hz (h.scanned q c hpar (by rw [hsleep]; trivial))
      · rcases hwaiting hq with hw | ⟨rfl, hsleep⟩
        · exact absurd hw (h.cleared c q hpar (by rw [hexit]; trivial))
        · cases hexit.symm.trans hsleep
    · exact absurd (hwaiting hq) (not_waiting_of_fork hfork)
  · by_cases hxp : x = p
    · subst hxp
      rw [hpc] at hx
      rcases hold hpar with hpar' | ⟨rfl, hfork⟩
      · rcases hcleared t hpar hx with hx | hno
        · rcases hwaiting hw with hw | ⟨rfl, hsleep⟩
          · exact h.cleared x t hpar' (hpc₀ ▸ hx) hw
          · rw [← hpc₀, hsleep] at hx
            exact hx
        · exact hno hw
      · exact not_waiting_of_fork hfork (hwaiting hw)
    · rcases hm.others x hxp with heq | ⟨heq, -⟩
      · rw [heq] at hx
        have hmem := wait_of_cleared (p := x) hx
        rcases hold hpar with hpar | ⟨rfl, hfork⟩
        · rcases hwaiting hw with hw | ⟨rfl, hsleep⟩
          · exact h.cleared x t hpar hx hw
          · exact hxp (honly hmem (by rw [hsleep]; simp [Pc.locks]))
        · exact hxp (honly hmem (by rw [hfork]; simp [Pc.locks]))
      · rw [heq] at hx
        exact hx
  · by_cases hxp : x = p
    · subst hxp
      rw [hpc] at hx
      rcases hscanned c hpar hx with hx | hno
      · rw [← hpc₀] at hx
        rcases hold hpar with hpar | ⟨-, hfork⟩
        · rcases (hm.change c).zombie_or hz with hz | ⟨rfl, hexit⟩
          · exact h.scanned x c hpar hx hz
          · rw [hexit] at hx
            exact hx
        · rw [hfork] at hx
          exact hx
      · exact hno hz
    · rcases hm.others x hxp with heq | ⟨heq, -⟩
      · rw [heq] at hx
        have hmem := wait_of_scanned (p := x) hx
        rcases hold hpar with hpar | ⟨rfl, -⟩
        · rcases (hm.change c).zombie_or hz with hz | ⟨rfl, hexit⟩
          · exact h.scanned x c hpar hx hz
          · exact hxp (honly hmem (by rw [hexit]; simp [Pc.locks]))
        · exact hxp rfl
      · rw [heq] at hx
        exact hx

/-- A step about which the invariant claims nothing. -/
theorem State.Rested.plain (h : s.Rested) (htidy : s.Tidy) (hm : Moves s s' p)
    (hpc₀ : (s.thread p).pc = pc₀) (hpc : (s'.thread p).pc = pc)
    (hparent : ∀ c, pc₀ = .reparent c → (s'.proc c).parent = (s.proc c).parent)
    (hpending : ∀ q, ¬pc₀.pending q) (hcleared : ∀ t, ¬pc.cleared t) (hscanned : ∀ c, ¬pc.scanned c) : s'.Rested :=
  h.move htidy hm hpc₀ hpc hparent (fun q hq => absurd hq (hpending q))
    (fun t _ ht => absurd ht (hcleared t)) fun c _ hc => absurd hc (hscanned c)

end

/-- The child `i` of `p` becomes a child of init, whose wakeup is then still to come. -/
theorem State.Rested.reparent (h : s.Rested) (htidy : s.Tidy) {i : ℕ}
    (hpc : (s.thread p).pc = .reparent i)
    (hm : Moves s s' p) (hpc' : (s'.thread p).pc = .wakeup (.init i) 0)
    (hstate : ∀ c, (s'.proc c).state = (s.proc c).state)
    (hparent : ∀ c ≠ i, (s'.proc c).parent = (s.proc c).parent)
    (hinit : (s'.proc i).parent = some initproc) : s'.Rested := by
  have hmem : .wait ∈ (s.thread p).pc.locks p := by
    rw [hpc]
    simp [Pc.locks]
  have hwaiting : ∀ {q}, s'.Waiting q → s.Waiting q := by
    intro q hq
    rcases hm.waiting htidy hq with hw | ⟨-, hsleep⟩
    · exact hw
    · cases hpc.symm.trans hsleep
  -- what is claimed of another process it claims with `wait_lock`, which `p` has
  have hnone : ∀ {x}, .wait ∈ (s'.thread x).pc.locks x → x = p := by
    intro x hx
    by_contra hxp
    rcases hm.others x hxp with heq | ⟨heq, -⟩
    · rw [heq] at hx
      exact hxp (htidy.eq_of_wait hmem hx)
    · rw [heq] at hx
      cases hx
  refine ⟨fun q c hq hpar hz => ?_, fun x t _ hx => ?_, fun x c _ hx => ?_⟩
  · by_cases hc : c = i
    · subst hc
      rw [hinit, Option.some.injEq] at hpar
      exact ⟨p, by rw [hpc']; exact ⟨hpar.symm, Nat.zero_le q⟩⟩
    · rw [hparent c hc] at hpar
      rw [hstate] at hz
      obtain ⟨x, hx⟩ := h.pending q c (hwaiting hq) hpar hz
      have hxp := htidy.eq_of_wait hmem (wait_of_pending (p := x) hx)
      subst hxp
      rw [hpc] at hx
      exact absurd hx id
  · have hxp := hnone (wait_of_cleared hx)
    subst hxp
    rw [hpc'] at hx
    exact absurd hx id
  · have hxp := hnone (wait_of_scanned hx)
    subst hxp
    rw [hpc'] at hx
    exact absurd hx id

/-- After the visit of slot `j` by the right `wakeup`, the process there is not on its way to
sleep. -/
theorem State.Tidy.not_waiting_of_wakeup (h : s.Tidy) {k : Wakeup} {j : ℕ}
    (hrun : (s.thread p).sw = .run) (hpc : (s.thread p).pc = .wakeupHeld k j)
    (hchan : k.chan (s.proc p).parent = .proc j) :
    ¬((s.setProc j ((s.proc j).wakeup (k.chan (s.proc p).parent))).release p (.proc j)
      (.wakeup k (j + 1))).Waiting j := by
  have hlocks : (s.thread p).locks p = [.wait, .proc j] := by
    rw [locks_of_run hrun, hpc]
    rfl
  intro hw
  by_cases hjp : j = p
  · subst hjp
    rw [State.Waiting] at hw
    rcases hw with hpc' | hpc' | ⟨hpc', -⟩ <;> cases pc_goto_self.symm.trans hpc'
  · have hthread : ((s.setProc j ((s.proc j).wakeup (k.chan (s.proc p).parent))).release p (.proc j)
        (.wakeup k (j + 1))).thread j = s.thread j := thread_goto_of_ne hjp
    rw [State.Waiting, hthread] at hw
    rcases hw with hpc' | hpc' | ⟨hpc', hsleep⟩
    · refine hjp (h.eq_of_mem (l := .wait) ?_ ?_)
      · simp [hlocks]
      · refine mem_locks_of_pc ?_
        simp [hpc', Pc.locks]
    · refine hjp (h.eq_of_mem (l := .proc j) ?_ ?_)
      · simp [hlocks]
      · refine mem_locks_of_pc ?_
        simp [hpc', Pc.locks]
    · have hproc : ((s.setProc j ((s.proc j).wakeup (k.chan (s.proc p).parent))).release p (.proc j)
          (.wakeup k (j + 1))).proc j = (s.proc j).wakeup (k.chan (s.proc p).parent) :=
        proc_setProc_self
      rw [hproc, Proc.wakeup] at hsleep
      split at hsleep
      · cases hsleep
      · rename_i hno
        refine hno ⟨hsleep, ?_⟩
        rw [h.chan j hpc' hsleep, hchan]

theorem State.Rested.turn (h : s.Rested) (htidy : s.Tidy) (hrun : (s.thread p).sw = .run)
    (ht : Turn s p s') : s'.Rested := by
  have hm : Moves s s' p := ⟨ht.change hrun, ht.tidied hrun, fun q hq => ht.others hq⟩
  cases ht with
  | exitWait hpc | exitRelease hpc | exitSched hpc | waitReturn hpc | sleepRelease hpc | sleepSet hpc
  | allocLock hpc | allocNone hpc | birth hpc | noMemory hpc | allocNext hpc | forkWait hpc
  | forkParent hpc | forkLock hpc | forkRunnable hpc | killLock hpc | killNone hpc | killSlot hpc
  | killNext hpc | exitZombie hpc | sleepLock hpc | copyoutFails hpc | reap hpc | scanNone hpc
  | killedYes hpc =>
    exact h.plain htidy hm hpc pc_goto_self (fun _ => nofun) (fun _ => id) (fun _ => id) fun _ => id
  | reparentSkip hpc =>
    exact h.plain htidy hm hpc pc_goto_self (fun _ _ => rfl) (fun _ => id) (fun _ => id) fun _ => id
  | reparentDone hpc =>
    refine h.plain htidy hm hpc pc_goto_self (fun _ _ => rfl) (fun _ => id) (fun t ht => ?_)
      fun _ => id
    exact absurd ht (Nat.not_lt_zero t)
  | @reparentChild i hpc _ _ =>
    refine h.reparent htidy hpc hm pc_goto_self (fun c => ?_) (fun c hc => ?_) ?_
    · by_cases hc : c = i
      · subst hc
        change ((s.setProc c _).proc c).state = _
        rw [proc_setProc_self]
      · change ((s.setProc i _).proc c).state = _
        rw [proc_setProc_of_ne hc]
    · change ((s.setProc i _).proc c).parent = _
      rw [proc_setProc_of_ne hc]
    · change ((s.setProc i _).proc i).parent = _
      rw [proc_setProc_self]
  | @wakeupSelf k hpc =>
    -- the process that exits is neither init nor asleep
    cases k with
    | init i =>
      refine h.move htidy hm hpc pc_goto_self (fun _ => nofun) (fun q hq => Or.inl ?_)
        (fun _ _ ht => absurd ht id) fun _ _ hc => absurd hc id
      obtain ⟨rfl, hle⟩ := hq
      exact ⟨rfl, lt_of_le_of_ne hle (htidy.exiter p (by rw [hpc]; rfl))⟩
    | parent =>
      refine h.move htidy hm hpc pc_goto_self (fun _ => nofun) (fun _ hq => absurd hq id)
        (fun t _ ht => ?_) fun _ _ hc => absurd hc id
      rcases Nat.lt_succ_iff_lt_or_eq.mp ht with hlt | rfl
      · exact Or.inl hlt
      · refine Or.inr ?_
        rintro (hpc' | hpc' | ⟨hpc', -⟩) <;> cases pc_goto_self.symm.trans hpc'
  | @wakeupLock k j hpc _ _ =>
    cases k with
    | init i =>
      exact h.move htidy hm hpc pc_goto_self (fun _ => nofun) (fun _ hq => Or.inl hq)
        (fun _ _ ht => absurd ht id) fun _ _ hc => absurd hc id
    | parent =>
      exact h.move htidy hm hpc pc_goto_self (fun _ => nofun) (fun _ hq => absurd hq id)
        (fun _ _ ht => Or.inl ht) fun _ _ hc => absurd hc id
  | @wakeupDone k j hpc hj =>
    cases k with
    | init i =>
      refine h.move htidy hm hpc pc_goto_self (fun _ => nofun) (fun q hq => ?_)
        (fun _ _ ht => absurd ht id) fun _ _ hc => absurd hc id
      obtain ⟨rfl, hle⟩ := hq
      exact absurd (hj.trans hle) (not_le.mpr initproc_lt)
    | parent =>
      refine h.move htidy hm hpc pc_goto_self (fun _ => nofun) (fun _ hq => absurd hq id)
        (fun t hpar _ => Or.inl ?_) fun _ _ hc => absurd hc id
      exact (htidy.parents p t hpar).trans_le hj
  | @wakeupSlot k j hpc =>
    have hno := htidy.not_waiting_of_wakeup hrun hpc
    cases k with
    | init i =>
      refine h.move htidy hm hpc pc_goto_self (fun _ => nofun) (fun q hq => ?_)
        (fun _ _ ht => absurd ht id) fun _ _ hc => absurd hc id
      obtain ⟨rfl, hle⟩ := hq
      rcases Nat.lt_or_eq_of_le hle with hlt | rfl
      · exact Or.inl ⟨rfl, hlt⟩
      · exact Or.inr (hno rfl)
    | parent =>
      refine h.move htidy hm hpc pc_goto_self (fun _ => nofun) (fun _ hq => absurd hq id)
        (fun t hpar ht => ?_) fun _ _ hc => absurd hc id
      rcases Nat.lt_succ_iff_lt_or_eq.mp ht with hlt | rfl
      · exact Or.inl hlt
      · refine Or.inr (hno ?_)
        rcases (hm.change p).parent hpar with hold | ⟨-, hrep⟩ | ⟨-, -, hfork⟩
        · rw [hold]
          rfl
        · cases hpc.symm.trans hrep
        · cases hpc.symm.trans hfork
  | exitLock hpc =>
    exact h.move htidy hm hpc pc_goto_self (fun _ => nofun) (fun _ hq => absurd hq id)
      (fun _ _ ht => Or.inl ht) fun _ _ hc => absurd hc id
  | waitWait hpc =>
    refine h.plain htidy hm hpc pc_goto_self (fun _ => nofun) (fun _ => id) (fun _ => id)
      fun c hc => ?_
    exact absurd hc (Nat.not_lt_zero c)
  | scanLock hpc | killed hpc | killedNo hpc =>
    exact h.move htidy hm hpc pc_goto_self (fun _ => nofun) (fun _ hq => absurd hq id)
      (fun _ _ ht => absurd ht id) fun _ _ hc => Or.inl hc
  | @scanSkip i _ hpc hparent =>
    refine h.move htidy hm hpc pc_goto_self (fun _ => nofun) (fun _ hq => absurd hq id)
      (fun _ _ ht => absurd ht id) fun c hpar hc => ?_
    rcases Nat.lt_succ_iff_lt_or_eq.mp hc with hlt | rfl
    · exact Or.inl hlt
    · exact absurd hpar hparent
  | @scanNext i hpc hz =>
    refine h.move htidy hm hpc pc_goto_self (fun _ => nofun) (fun _ hq => absurd hq id)
      (fun _ _ ht => absurd ht id) fun c _ hc => ?_
    rcases Nat.lt_succ_iff_lt_or_eq.mp hc with hlt | rfl
    · exact Or.inl hlt
    · exact Or.inr hz
  | @scanKids i hpc hi =>
    refine h.move htidy hm hpc pc_goto_self (fun _ => nofun) (fun _ hq => absurd hq id)
      (fun _ _ ht => absurd ht id) fun c _ _ => ?_
    -- slots beyond the table are not in use
    by_cases hz : (s.proc c).state = .zombie
    · exact Or.inl ((htidy.bound c (by rw [hz]; nofun)).trans_le hi)
    · exact Or.inr hz

/-- The events other than a turn claim nothing new. -/
theorem State.Rested.aside (h : s.Rested) (htidy : s.Tidy) (hm : Moves s s' p)
    (ha : Aside s s' p) : s'.Rested := by
  rcases ha.pc with hpc | ⟨hold, hnew, -⟩
  · exact h.move htidy hm rfl hpc (fun c _ => ha.parent c) (fun _ hq => Or.inl hq)
      (fun _ _ ht => Or.inl ht) fun _ _ hc => Or.inl hc
  · refine h.plain htidy hm rfl rfl (fun c _ => ha.parent c) (fun q hq => ?_) (fun t ht => ?_)
      fun c hc => ?_
    · have hmem := wait_of_pending (p := p) hq
      rw [hold] at hmem
      cases hmem
    · have hmem := wait_of_cleared (p := p) ht
      rw [hnew] at hmem
      cases hmem
    · have hmem := wait_of_scanned (p := p) hc
      rw [hnew] at hmem
      cases hmem

theorem step_rested (h : s.Rested) (htidy : s.Tidy) (hs : step s e = some s') : s'.Rested := by
  obtain ⟨p, hm, ⟨hrun, ht⟩ | ha⟩ := step_moves htidy hs
  · exact h.turn htidy hrun ht
  · exact h.aside htidy hm ha

/-- The runs of the process table. -/
abbrev Reachable (s : State) : Prop := Transition.Reach (· = booted) step Any s

theorem Reachable.rested (h : Reachable s) : s.Tidy ∧ s.Rested := by
  refine Transition.Reach.inv (I := fun s => s.Tidy ∧ s.Rested) h ?_ ?_
  · rintro s rfl
    exact ⟨booted_tidy, booted_rested⟩
  · intro s e s' hi _ hs
    exact ⟨step_tidy hi.1 hs, step_rested hi.2 hi.1 hs⟩

/-- In every reachable state in which `wait_lock` is free, a process that sleeps in `kwait` has no
zombie child. -/
theorem kwait_no_lost_wakeup (h : Reachable s) (hfree : s.held .wait = none)
    (hsleep : (s.proc p).state = .sleeping) (hpc : (s.thread p).pc = .asleep)
    (hchild : (s.proc c).parent = some p) : (s.proc c).state ≠ .zombie := by
  obtain ⟨htidy, hrested⟩ := h.rested
  exact hrested.quiet htidy.toPlaced hfree (Or.inr (Or.inr ⟨hpc, hsleep⟩)) hchild

/-- Init forks a child and waits for it. -/
def initWaits : List Event :=
  [.dispatch 0, .resume 0, .kfork 0] ++ List.replicate 8 (.turn 0 true) ++
    .kwait 0 false :: List.replicate 72 (.turn 0 true)

theorem initWaits_runs : (runAll Any step booted initWaits).isSome = true := by decide +kernel

/-- Init is asleep in `kwait`, and its child has not exited. -/
def initAsleep : State := (runAll Any step booted initWaits).get initWaits_runs

theorem initAsleep_reachable : Reachable initAsleep := by
  have hstart : Reachable booted := .start rfl
  exact hstart.runAll_get initWaits_runs

theorem kwait_no_lost_wakeup_initAsleep :
    (initAsleep.proc 0).state = .sleeping ∧ (initAsleep.proc 1).parent = some 0 ∧
      (initAsleep.proc 1).state ≠ .zombie := by
  have hfacts : (initAsleep.proc 0).state = .sleeping ∧ (initAsleep.proc 1).parent = some 0 ∧
      initAsleep.held .wait = none ∧ (initAsleep.thread 0).pc = .asleep := by decide +kernel
  obtain ⟨hsleep, hparent, hfree, hpc⟩ := hfacts
  exact ⟨hsleep, hparent, kwait_no_lost_wakeup initAsleep_reachable hfree hsleep hpc hparent⟩

end Wait

end Xv6
