import Xv6.Wait.Model

/-!
# What a step can do

`Turn` lists the branches of `turn`, one constructor for each; the invariants about where processes
are go by cases over it. `Change` lists what any step can do to one slot of the process table; the
invariants about slots go by cases over that.
-/

namespace Xv6

namespace Wait

open State

variable {s s' : State} {p q c : ℕ} {l : Lk} {ok : Bool} {e : Event}

/-! ### Slots and threads after an update -/

theorem proc_setProc_self {x : Proc} : (s.setProc q x).proc q = x := Function.update_self ..

theorem proc_setProc_of_ne {x : Proc} (hne : p ≠ q) : (s.setProc q x).proc p = s.proc p :=
  Function.update_of_ne hne ..

theorem thread_setThread_self {t : Thread} : (s.setThread p t).thread p = t :=
  Function.update_self ..

theorem thread_setThread_of_ne {t : Thread} (hne : q ≠ p) :
    (s.setThread p t).thread q = s.thread q := Function.update_of_ne hne ..

theorem pc_setRet {r : ℤ} : ((s.setRet p r).thread q).pc = (s.thread q).pc := by
  by_cases hq : q = p
  · subst hq
    rw [State.setRet, thread_setThread_self]
  · rw [State.setRet, thread_setThread_of_ne hq]

theorem sw_setRet {r : ℤ} : ((s.setRet p r).thread q).sw = (s.thread q).sw := by
  by_cases hq : q = p
  · subst hq
    rw [State.setRet, thread_setThread_self]
  · rw [State.setRet, thread_setThread_of_ne hq]

theorem pc_goto_self {pc : Pc} : ((s.goto p pc).thread p).pc = pc := by
  rw [State.goto, thread_setThread_self]

theorem thread_goto_setThread {t : Thread} {pc : Pc} :
    ((s.setThread p t).goto p pc).thread = Function.update s.thread p { t with pc := pc } := by
  rw [State.goto, thread_setThread_self]
  exact Function.update_idem ..

/-! ### Branches -/

/-- The branches of `turn`. -/
inductive Turn (s : State) (p : ℕ) : State → Prop
  | exitWait (hpc : (s.thread p).pc = .exitWait) (hl : s.held .wait = none) :
      Turn s p ((s.goto p (.reparent 0)).setHeld .wait (some (.proc p)))
  | reparentChild {i : ℕ} (hpc : (s.thread p).pc = .reparent i) (hi : i < nproc)
      (hparent : (s.proc i).parent = some p) :
      Turn s p ((s.setProc i { s.proc i with parent := some initproc }).goto p
        (.wakeup (.init i) 0))
  | reparentSkip {i : ℕ} (hpc : (s.thread p).pc = .reparent i) (hi : i < nproc)
      (hparent : (s.proc i).parent ≠ some p) : Turn s p (s.goto p (.reparent (i + 1)))
  | reparentDone {i : ℕ} (hpc : (s.thread p).pc = .reparent i) (hi : nproc ≤ i) :
      Turn s p (s.goto p (.wakeup .parent 0))
  | wakeupSelf {k : Wakeup} (hpc : (s.thread p).pc = .wakeup k p) :
      Turn s p (s.goto p (.wakeup k (p + 1)))
  | wakeupLock {k : Wakeup} {j : ℕ} (hpc : (s.thread p).pc = .wakeup k j) (hj : j ≠ p)
      (hl : s.held (.proc j) = none) :
      Turn s p ((s.goto p (.wakeupHeld k j)).setHeld (.proc j) (some (.proc p)))
  | wakeupDone {k : Wakeup} {j : ℕ} (hpc : (s.thread p).pc = .wakeup k j) (hj : nproc ≤ j) :
      Turn s p (s.goto p k.next)
  | wakeupSlot {k : Wakeup} {j : ℕ} (hpc : (s.thread p).pc = .wakeupHeld k j) :
      Turn s p ((s.setProc j ((s.proc j).wakeup (k.chan (s.proc p).parent))).release p (.proc j)
        (.wakeup k (j + 1)))
  | exitLock (hpc : (s.thread p).pc = .exitLock) (hl : s.held (.proc p) = none) :
      Turn s p ((s.goto p .exitZombie).setHeld (.proc p) (some (.proc p)))
  | exitZombie (hpc : (s.thread p).pc = .exitZombie) : Turn s p (becomeZombie s p)
  | exitRelease (hpc : (s.thread p).pc = .exitRelease) : Turn s p (s.release p .wait .exitSched)
  | exitSched (hpc : (s.thread p).pc = .exitSched) :
      Turn s p ((s.setThread p { s.thread p with sw := .off }).release p (.proc p) .gone)
  | waitWait (hpc : (s.thread p).pc = .waitWait) (hl : s.held .wait = none) :
      Turn s p ((s.goto p (.scan 0 false)).setHeld .wait (some (.proc p)))
  | scanLock {i : ℕ} {havekids : Bool} (hpc : (s.thread p).pc = .scan i havekids)
      (hl : s.held (.proc i) = none) (hparent : (s.proc i).parent = some p) :
      Turn s p ((s.goto p (.scanHeld i)).setHeld (.proc i) (some (.proc p)))
  | scanSkip {i : ℕ} {havekids : Bool} (hpc : (s.thread p).pc = .scan i havekids)
      (hparent : (s.proc i).parent ≠ some p) : Turn s p (s.goto p (.scan (i + 1) havekids))
  | scanKids {i : ℕ} (hpc : (s.thread p).pc = .scan i true) (hi : nproc ≤ i) :
      Turn s p (s.goto p .killed)
  | scanNone {i : ℕ} (hpc : (s.thread p).pc = .scan i false) :
      Turn s p ((s.setRet p (-1)).goto p .waitReturn)
  | copyoutFails {i : ℕ} (hpc : (s.thread p).pc = .scanHeld i)
      (hz : (s.proc i).state = .zombie) :
      Turn s p ((s.setRet p (-1)).release p (.proc i) .waitReturn)
  | reap {i : ℕ} (hpc : (s.thread p).pc = .scanHeld i) (hz : (s.proc i).state = .zombie) :
      Turn s p { ((s.setProc i {}).setRet p (s.proc i).pid).release p (.proc i) .waitReturn with
        reports := s.reports ++ [⟨(s.proc i).inc, (s.proc i).pid,
          if (s.thread p).addr then some (s.proc i).xstate else none⟩] }
  | scanNext {i : ℕ} (hpc : (s.thread p).pc = .scanHeld i) (hz : (s.proc i).state ≠ .zombie) :
      Turn s p (s.release p (.proc i) (.scan (i + 1) true))
  | waitReturn (hpc : (s.thread p).pc = .waitReturn) : Turn s p (s.release p .wait .out)
  | killed (hpc : (s.thread p).pc = .killed) (hl : s.held (.proc p) = none) :
      Turn s p ((s.goto p .killedHeld).setHeld (.proc p) (some (.proc p)))
  | killedYes (hpc : (s.thread p).pc = .killedHeld) :
      Turn s p ((s.setRet p (-1)).release p (.proc p) .waitReturn)
  | killedNo (hpc : (s.thread p).pc = .killedHeld) :
      Turn s p (s.release p (.proc p) .sleepLock)
  | sleepLock (hpc : (s.thread p).pc = .sleepLock) (hl : s.held (.proc p) = none) :
      Turn s p ((s.goto p .sleepRelease).setHeld (.proc p) (some (.proc p)))
  | sleepRelease (hpc : (s.thread p).pc = .sleepRelease) :
      Turn s p (s.release p .wait .sleepSet)
  | sleepSet (hpc : (s.thread p).pc = .sleepSet) :
      Turn s p (((s.setProc p { s.proc p with chan := .proc p, state := .sleeping }).setThread p
        { s.thread p with sw := .off }).release p (.proc p) .asleep)
  | allocLock {i : ℕ} (hpc : (s.thread p).pc = .allocproc i) (hi : i < nproc)
      (hl : s.held (.proc i) = none) :
      Turn s p ((s.goto p (.allocprocHeld i)).setHeld (.proc i) (some (.proc p)))
  | allocNone {i : ℕ} (hpc : (s.thread p).pc = .allocproc i) :
      Turn s p ((s.setRet p (-1)).goto p .out)
  | birth {i : ℕ} (hpc : (s.thread p).pc = .allocprocHeld i)
      (hu : (s.proc i).state = .unused) : Turn s p (forkChild s p i true)
  | noMemory {i : ℕ} (hpc : (s.thread p).pc = .allocprocHeld i)
      (hu : (s.proc i).state = .unused) : Turn s p (forkChild s p i false)
  | allocNext {i : ℕ} (hpc : (s.thread p).pc = .allocprocHeld i) :
      Turn s p (s.release p (.proc i) (.allocproc (i + 1)))
  | forkWait {c : ℕ} (hpc : (s.thread p).pc = .forkWait c) (hl : s.held .wait = none) :
      Turn s p ((s.goto p (.forkParent c)).setHeld .wait (some (.proc p)))
  | forkParent {c : ℕ} (hpc : (s.thread p).pc = .forkParent c) :
      Turn s p ((s.setProc c { s.proc c with parent := some p }).release p .wait (.forkLock c))
  | forkLock {c : ℕ} (hpc : (s.thread p).pc = .forkLock c) (hl : s.held (.proc c) = none) :
      Turn s p ((s.goto p (.forkRunnable c)).setHeld (.proc c) (some (.proc p)))
  | forkRunnable {c : ℕ} (hpc : (s.thread p).pc = .forkRunnable c) :
      Turn s p (((s.setProc c { s.proc c with state := .runnable }).setRet p
        (s.proc c).pid).release p (.proc c) .out)
  | killLock {pid : ℤ} {i : ℕ} (hpc : (s.thread p).pc = .kkill pid i)
      (hl : s.held (.proc i) = none) :
      Turn s p ((s.goto p (.kkillHeld pid i)).setHeld (.proc i) (some (.proc p)))
  | killNone {pid : ℤ} {i : ℕ} (hpc : (s.thread p).pc = .kkill pid i) :
      Turn s p ((s.setRet p (-1)).goto p .out)
  | killSlot {pid : ℤ} {i : ℕ} (hpc : (s.thread p).pc = .kkillHeld pid i) :
      Turn s p (((s.setProc i (s.proc i).kill).setRet p 0).release p (.proc i) .out)
  | killNext {pid : ℤ} {i : ℕ} (hpc : (s.thread p).pc = .kkillHeld pid i) :
      Turn s p (s.release p (.proc i) (.kkill pid (i + 1)))

theorem acquire_eq_some {pc : Pc} : s.acquire p l pc = some s' ↔
    s.held l = none ∧ (s.goto p pc).setHeld l (some (.proc p)) = s' := by
  rw [State.acquire, Option.ite_none_right_eq_some, Option.some.injEq]

theorem turn_eq_some (h : turn s p ok = some s') : Turn s p s' := by
  rw [turn] at h
  split at h
  · cases h
  · cases h
  · cases h
  · rename_i hpc
    obtain ⟨hl, rfl⟩ := acquire_eq_some.mp h
    exact .exitWait hpc hl
  · rename_i i hpc
    split at h
    · rename_i hi
      split at h
      · rename_i hparent
        cases h
        exact .reparentChild hpc hi hparent
      · rename_i hparent
        cases h
        exact .reparentSkip hpc hi hparent
    · rename_i hi
      cases h
      exact .reparentDone hpc (not_lt.mp hi)
  · rename_i k j hpc
    split at h
    · split at h
      · rename_i hj
        subst hj
        cases h
        exact .wakeupSelf hpc
      · rename_i hj
        obtain ⟨hl, rfl⟩ := acquire_eq_some.mp h
        exact .wakeupLock hpc hj hl
    · rename_i hj
      cases h
      exact .wakeupDone hpc (not_lt.mp hj)
  · rename_i k j hpc
    cases h
    exact .wakeupSlot hpc
  · rename_i hpc
    obtain ⟨hl, rfl⟩ := acquire_eq_some.mp h
    exact .exitLock hpc hl
  · rename_i hpc
    cases h
    exact .exitZombie hpc
  · rename_i hpc
    cases h
    exact .exitRelease hpc
  · rename_i hpc
    cases h
    exact .exitSched hpc
  · rename_i hpc
    obtain ⟨hl, rfl⟩ := acquire_eq_some.mp h
    exact .waitWait hpc hl
  · rename_i i havekids hpc
    split at h
    · split at h
      · rename_i hparent
        obtain ⟨hl, rfl⟩ := acquire_eq_some.mp h
        exact .scanLock hpc hl hparent
      · rename_i hparent
        cases h
        exact .scanSkip hpc hparent
    · rename_i hi
      cases havekids with
      | true =>
        cases h
        exact .scanKids hpc (not_lt.mp hi)
      | false =>
        cases h
        exact .scanNone hpc
  · rename_i i hpc
    split at h
    · rename_i hz
      rw [Wait.reap] at h
      dsimp only at h
      split at h
      · cases h
        exact .copyoutFails hpc hz
      · cases h
        exact .reap hpc hz
    · rename_i hz
      cases h
      exact .scanNext hpc hz
  · rename_i hpc
    cases h
    exact .waitReturn hpc
  · rename_i hpc
    obtain ⟨hl, rfl⟩ := acquire_eq_some.mp h
    exact .killed hpc hl
  · rename_i hpc
    split at h
    · cases h
      exact .killedYes hpc
    · cases h
      exact .killedNo hpc
  · rename_i hpc
    obtain ⟨hl, rfl⟩ := acquire_eq_some.mp h
    exact .sleepLock hpc hl
  · rename_i hpc
    cases h
    exact .sleepRelease hpc
  · rename_i hpc
    cases h
    exact .sleepSet hpc
  · rename_i i hpc
    split at h
    · rename_i hi
      obtain ⟨hl, rfl⟩ := acquire_eq_some.mp h
      exact .allocLock hpc hi hl
    · cases h
      exact .allocNone hpc
  · rename_i i hpc
    split at h
    · rename_i hu
      cases h
      cases ok with
      | true => exact .birth hpc hu
      | false => exact .noMemory hpc hu
    · cases h
      exact .allocNext hpc
  · rename_i c hpc
    obtain ⟨hl, rfl⟩ := acquire_eq_some.mp h
    exact .forkWait hpc hl
  · rename_i c hpc
    cases h
    exact .forkParent hpc
  · rename_i c hpc
    obtain ⟨hl, rfl⟩ := acquire_eq_some.mp h
    exact .forkLock hpc hl
  · rename_i c hpc
    cases h
    exact .forkRunnable hpc
  · rename_i pid i hpc
    split at h
    · obtain ⟨hl, rfl⟩ := acquire_eq_some.mp h
      exact .killLock hpc hl
    · cases h
      exact .killNone hpc
  · rename_i pid i hpc
    split at h
    · cases h
      exact .killSlot hpc
    · cases h
      exact .killNext hpc

/-! ### Slots -/

/-- What a step of `p` can make of slot `c`. -/
inductive Change (s : State) (p c : ℕ) : Proc → Prop
  | same : Change s p c (s.proc c)
  | reparent (hpc : (s.thread p).pc = .reparent c) (hparent : (s.proc c).parent = some p) :
      Change s p c { s.proc c with parent := some initproc }
  | wakeup (chan : Chan) : Change s p c ((s.proc c).wakeup chan)
  | zombie (hc : c = p) (hrun : (s.thread p).sw = .run) (hpc : (s.thread p).pc = .exitZombie) :
      Change s p c { s.proc c with xstate := (s.thread p).status, state := .zombie }
  | reap (hrun : (s.thread p).sw = .run) (hpc : (s.thread p).pc = .scanHeld c)
      (hz : (s.proc c).state = .zombie) : Change s p c {}
  | sleep (hc : c = p) (hrun : (s.thread p).sw = .run) (hpc : (s.thread p).pc = .sleepSet) :
      Change s p c { s.proc c with chan := .proc p, state := .sleeping }
  | birth (hpc : (s.thread p).pc = .allocprocHeld c) (hu : (s.proc c).state = .unused) :
      Change s p c { s.proc c with state := .used, pid := s.nextpid, inc := s.births.length }
  | noMemory (hu : (s.proc c).state = .unused) : Change s p c {}
  | adopt (hrun : (s.thread p).sw = .run) (hpc : (s.thread p).pc = .forkParent c) :
      Change s p c { s.proc c with parent := some p }
  | runnable (hrun : (s.thread p).sw = .run) (hpc : (s.thread p).pc = .forkRunnable c) :
      Change s p c { s.proc c with state := .runnable }
  | kill : Change s p c (s.proc c).kill
  | yield (hc : c = p) (hsw : (s.thread p).sw = .yielding) :
      Change s p c { s.proc c with state := .runnable }
  | doze (hc : c = p) (hsw : (s.thread p).sw = .dozing) :
      Change s p c { s.proc c with state := .sleeping, chan := .other }
  | dispatch (hr : (s.proc c).state = .runnable) :
      Change s p c { s.proc c with state := .running }
  | resume (hc : c = p) (hsw : (s.thread p).sw = .entering) :
      Change s p c { s.proc c with chan := .none }

/-- One slot changes, the others stay. -/
theorem change_setProc {x : Proc} (hx : Change s p q x) (c : ℕ) :
    Change s p c ((s.setProc q x).proc c) := by
  by_cases hc : c = q
  · subst hc
    rwa [proc_setProc_self]
  · rw [proc_setProc_of_ne hc]
    exact .same

theorem Turn.change (hrun : (s.thread p).sw = .run) (h : Turn s p s') (c : ℕ) :
    Change s p c (s'.proc c) := by
  cases h with
  | reparentChild hpc _ hparent => exact change_setProc (.reparent hpc hparent) c
  | wakeupSlot => exact change_setProc (.wakeup _) c
  | exitZombie hpc => exact change_setProc (.zombie rfl hrun hpc) c
  | reap hpc hz => exact change_setProc (.reap hrun hpc hz) c
  | sleepSet hpc => exact change_setProc (.sleep rfl hrun hpc) c
  | birth hpc hu => exact change_setProc (.birth hpc hu) c
  | noMemory _ hu => exact change_setProc (.noMemory hu) c
  | forkParent hpc => exact change_setProc (.adopt hrun hpc) c
  | forkRunnable hpc => exact change_setProc (.runnable hrun hpc) c
  | killSlot => exact change_setProc .kill c
  | _ => exact .same

/-! ### Threads -/

theorem thread_goto_of_ne {pc : Pc} (hne : q ≠ p) : (s.goto p pc).thread q = s.thread q :=
  thread_setThread_of_ne hne

/-- A step of `p` leaves the other threads alone, but for that of a child that it makes. -/
theorem Turn.others (h : Turn s p s') (hne : q ≠ p) :
    s'.thread q = s.thread q ∨ s'.thread q = {} ∧ (s.proc q).state = .unused := by
  cases h with
  | exitSched hpc =>
    exact Or.inl ((thread_goto_of_ne hne).trans (thread_setThread_of_ne hne))
  | sleepSet hpc => exact Or.inl ((thread_goto_of_ne hne).trans (thread_setThread_of_ne hne))
  | @birth i hpc hu =>
    by_cases hq : q = i
    · subst hq
      exact Or.inr ⟨(thread_goto_of_ne hne).trans thread_setThread_self, hu⟩
    · exact Or.inl ((thread_goto_of_ne hne).trans (thread_setThread_of_ne hq))
  | noMemory | reap | forkRunnable | killSlot | killedYes | scanNone | copyoutFails | allocNone
  | killNone => exact Or.inl ((thread_goto_of_ne hne).trans (thread_setThread_of_ne hne))
  | _ => exact Or.inl (thread_goto_of_ne hne)

end Wait

end Xv6
