import Xv6.Logic.Monitor

/-!
# Sleep locks

`acquiresleep`, `releasesleep` and `holdingsleep` of `kernel/sleeplock.c` for one lock and any
number of processes. The inner spinlock, `sleep` and `wakeup` are those of `Monitor`: `sleep` takes
`p->lock` before it releases the inner lock, `wakeup` takes every `p->lock` in turn while the inner
lock is held. `kkill`, and whatever else takes a `p->lock`, is a visit. A process that has not got
the lock may exit, and another one with a new pid may get its slot.

A process has the lock from the assignments in `acquiresleep` to those in `releasesleep`. The two
tests of `lk->locked` and the assignments behind them are under the inner lock, so they are one step
of the program.
-/

namespace Xv6

namespace Sleeplock

open Monitor Transition

/-- Where a process is with respect to the lock. -/
inductive Pc
  | out
  /-- `acquiresleep`, with the inner lock, at the head of the loop. -/
  | want
  /-- About to release the inner lock. -/
  | got
  /-- Between `acquiresleep` and `releasesleep`. -/
  | holds
  /-- `releasesleep`, with the inner lock. -/
  | clear
  | cleared
  /-- `holdingsleep`, called by the process that has the lock or by another one. -/
  | ask (own : Bool)
  /-- About to return `r`. -/
  | told (own r : Bool)
deriving DecidableEq

/-- The places with the inner lock. -/
def Pc.inner : Pc → Bool
  | .out | .holds => false
  | _ => true

/-- The places at which a process has the sleep lock. -/
def Pc.owns : Pc → Bool
  | .got | .holds | .clear | .ask true | .told true _ => true
  | _ => false

/-- `lk->locked` and `lk->pid`, and the pids of the processes. -/
structure Data (n : ℕ) where
  locked : Bool
  pid : ℕ
  pids : Fin n → ℕ

/-- What a process is going to do, where there is a choice. -/
inductive Call (n : ℕ)
  | acquiresleep
  | releasesleep
  | holdingsleep
  /-- One turn of the loop of `kkill`, at slot `q`. -/
  | kkill (q : Fin n) (hit : Bool)
  /-- The slot has a new process. -/
  | allocproc (pid : ℕ)
  | continue
deriving DecidableEq

variable {n : ℕ}

def prog : Program n Pc (Data n) (Call n) := fun p a k d =>
  match k, a with
  | .out, .acquiresleep => some (.acquire .want, d)
  | .out, .holdingsleep => some (.acquire (.ask false), d)
  | .out, .kkill q hit => some (.visit q hit .out, d)
  | .out, .allocproc pid => some (.goto .out, { d with pids := Function.update d.pids p pid })
  | .holds, .releasesleep => some (.acquire .clear, d)
  | .holds, .holdingsleep => some (.acquire (.ask true), d)
  | .holds, .kkill q hit => some (.visit q hit .holds, d)
  | .want, .continue =>
    if d.locked then some (.sleep .want, d)
    else some (.goto .got, { d with locked := true, pid := d.pids p })
  | .got, .continue => some (.release .holds, d)
  | .clear, .continue => some (.wakeup .cleared, { d with locked := false, pid := 0 })
  | .cleared, .continue => some (.release .out, d)
  | .ask own, .continue => some (.goto (.told own (d.locked && d.pid == d.pids p)), d)
  | .told own _, .continue => some (.release (if own then .holds else .out), d)
  | _, _ => none

/-- What `initsleeplock` makes. -/
def Boot (s : State n Pc (Data n)) : Prop :=
  s.Start Pc.inner ∧ (∀ p, s.places p = .out) ∧ s.data.locked = false ∧ s.data.pid = 0

/-- The two fields say who has the lock. -/
structure Described (pl : Fin n → Pc) (d : Data n) : Prop where
  unique : ∀ p q, (pl p).owns = true → (pl q).owns = true → p = q
  locked : d.locked = true ↔ ∃ p, (pl p).owns = true
  pid : ∀ p, (pl p).owns = true → d.pid = d.pids p
  free : d.locked = false → d.pid = 0
  /-- The process that has the lock is told so. -/
  told : ∀ p r, pl p = .told true r → r = true

section

variable {pl : Fin n → Pc} {d d' : Data n} {p : Fin n} {k : Pc}

/-- A step that neither gets the lock nor gives it up. -/
theorem Described.keep (h : Described pl d) (hk : k.owns = (pl p).owns)
    (hlocked : d'.locked = d.locked) (hpid : d'.pid = d.pid)
    (hpids : ∀ q, (pl q).owns = true → d'.pids q = d.pids q)
    (htold : ∀ r, k = .told true r → r = true) : Described (Function.update pl p k) d' := by
  have howns : ∀ q, (Function.update pl p k q).owns = (pl q).owns := by
    intro q
    by_cases hq : q = p
    · subst hq
      rw [Function.update_self, hk]
    · rw [Function.update_of_ne hq]
  refine ⟨fun q r => ?_, ?_, fun q hq => ?_, ?_, fun q r hq => ?_⟩
  · rw [howns, howns]
    exact h.unique q r
  · simp only [howns, hlocked, h.locked]
  · rw [howns] at hq
    rw [hpid, hpids q hq, h.pid q hq]
  · rw [hlocked, hpid]
    exact h.free
  · by_cases hqp : q = p
    · subst hqp
      rw [Function.update_self] at hq
      exact htold r hq
    · rw [Function.update_of_ne hqp] at hq
      exact h.told q r hq

/-- The lock is taken when nobody has it. -/
theorem Described.take (h : Described pl d) (hd : d.locked = false) :
    Described (Function.update pl p .got) { d with locked := true, pid := d.pids p } := by
  have hnone : ∀ q, (pl q).owns ≠ true := fun q hq => by
    rw [h.locked.mpr ⟨q, hq⟩] at hd
    cases hd
  have honly : ∀ q, (Function.update pl p .got q).owns = true → q = p := by
    intro q hq
    by_contra hqp
    rw [Function.update_of_ne hqp] at hq
    exact hnone q hq
  refine ⟨fun q r hq hr => (honly q hq).trans (honly r hr).symm,
    iff_of_true rfl ⟨p, by rw [Function.update_self]; rfl⟩, fun q hq => by rw [honly q hq], nofun,
    fun q r hq => ?_⟩
  by_cases hqp : q = p
  · subst hqp
    rw [Function.update_self] at hq
    cases hq
  · rw [Function.update_of_ne hqp] at hq
    exact h.told q r hq

/-- The lock is given up by the process that has it. -/
theorem Described.drop (h : Described pl d) (hp : (pl p).owns = true) :
    Described (Function.update pl p .cleared) { d with locked := false, pid := 0 } := by
  have hnone : ∀ q, (Function.update pl p .cleared q).owns ≠ true := by
    intro q hq
    by_cases hqp : q = p
    · subst hqp
      rw [Function.update_self] at hq
      cases hq
    · rw [Function.update_of_ne hqp] at hq
      exact hqp (h.unique q p hq hp)
  refine ⟨fun q _ hq => absurd hq (hnone q), iff_of_false nofun fun ⟨q, hq⟩ => hnone q hq,
    fun q hq => absurd hq (hnone q), fun _ => rfl, fun q r hq => ?_⟩
  exact absurd (by rw [hq]; rfl) (hnone q)

theorem described_prog {a : Call n} {r : Monitor.Act n Pc × Data n} (h : Described pl d)
    (hr : prog p a (pl p) d = some r) : Described (Function.update pl p r.1.place) r.2 := by
  -- the places that do not touch the fields
  have hkeep : ∀ {k}, k.owns = (pl p).owns → (∀ r, k = .told true r → r = true) →
      Described (Function.update pl p k) d := fun hk htold =>
    h.keep hk rfl rfl (fun _ _ => rfl) htold
  rw [prog.eq_def] at hr
  split at hr
  case h_4 hk =>
    -- a new process in a slot that does not have the lock
    cases hr
    refine h.keep (by rw [hk]; rfl) rfl rfl (fun q hq => Function.update_of_ne ?_ ..) nofun
    rintro rfl
    rw [hk] at hq
    cases hq
  case h_8 hk =>
    split at hr
    next =>
      cases hr
      exact hkeep (by rw [hk]; rfl) nofun
    next hd =>
      cases hr
      exact h.take (Bool.eq_false_iff.mpr hd)
  case h_10 hk =>
    cases hr
    exact h.drop (by rw [hk]; rfl)
  case h_12 own hk =>
    cases hr
    refine hkeep (by rw [hk]; cases own <;> rfl) fun r hr => ?_
    -- the fields say that it is the caller
    obtain ⟨rfl, rfl⟩ := Pc.told.inj hr
    have howns : (pl p).owns = true := by rw [hk]; rfl
    rw [h.locked.mpr ⟨p, howns⟩, h.pid p howns, beq_self_eq_true]
    rfl
  case h_13 own _ hk =>
    cases hr
    cases own <;> exact hkeep (by rw [hk]; rfl) nofun
  case h_14 => cases hr
  all_goals
    rename_i hk
    cases hr
    exact hkeep (by rw [hk]; rfl) nofun

theorem good_prog {a : Call n} {r : Monitor.Act n Pc × Data n} (hr : prog p a k d = some r) :
    Good Pc.inner (fun d : Data n => d.locked = true) k d r := by
  rw [prog.eq_def] at hr
  split at hr
  case h_8 =>
    split at hr
    next hd =>
      cases hr
      exact ⟨rfl, rfl, hd, id⟩
    next hd =>
      cases hr
      exact ⟨rfl, fun _ => rfl⟩
  case h_10 =>
    cases hr
    exact ⟨rfl, rfl⟩
  case h_13 own _ =>
    cases hr
    cases own <;> exact ⟨rfl, rfl, id⟩
  case h_14 => cases hr
  all_goals
    cases hr
    first
    | exact ⟨rfl, id⟩
    | exact ⟨rfl, rfl, id⟩

theorem Boot.described {s : State n Pc (Data n)} (h : Boot s) : Described s.places s.data := by
  obtain ⟨-, hout, hlocked, hpid⟩ := h
  have hnone : ∀ p, (s.places p).owns ≠ true := fun p hp => by
    rw [hout p] at hp
    cases hp
  refine ⟨fun p _ hp => absurd hp (hnone p), iff_of_false (by rw [hlocked]; nofun)
    fun ⟨p, hp⟩ => hnone p hp, fun p hp => absurd hp (hnone p), fun _ => hpid, fun p r hp => ?_⟩
  rw [hout p] at hp
  cases hp

end

/-- At most one process has the lock, the fields describe it, and nobody is asleep for a lock that
is free. -/
theorem sleeplock_sound {s : State n Pc (Data n)}
    (hr : Transition.Reach Boot (State.step prog) Any s) :
    (∀ p q, (s.places p).owns = true → (s.places q).owns = true → p = q) ∧
    (s.data.locked = true ↔ ∃ p, (s.places p).owns = true) ∧
    (∀ p, (s.places p).owns = true → s.data.pid = s.data.pids p) ∧
    (s.data.locked = false → s.data.pid = 0) ∧
    (s.held .main = none → s.data.locked = false → ∀ q, s.sleeping q = false) := by
  have hdesc : Monitor.Inv Pc.inner (fun d : Data n => d.locked = true) s ∧ Described s.places s.data :=
    reach_inv (fun s hs => ⟨hs.1, hs.described⟩) (fun _ _ _ _ _ h hr => described_prog h hr)
      (fun _ _ _ _ _ _ hr => good_prog hr) hr
  obtain ⟨hinv, hdesc⟩ := hdesc
  refine ⟨hdesc.unique, hdesc.locked, hdesc.pid, hdesc.free, fun hfree hl q => ?_⟩
  rw [Bool.eq_false_iff]
  intro hq
  rw [hinv.rested hfree hq] at hl
  cases hl

/-- Two processes, with the pids 1 and 2. -/
def bootTwo : State 2 Pc (Data 2) :=
  ⟨fun _ => none, fun _ => false, ⟨false, 0, fun p => p + 1⟩, fun _ => .run .out⟩

theorem boot_bootTwo : Boot bootTwo :=
  ⟨⟨fun _ => rfl, fun _ => rfl, fun _ => ⟨.out, rfl, rfl⟩⟩, fun _ => rfl, rfl, rfl⟩

/-- The first process gets the lock and the second one goes to sleep. -/
def twoCalls : List (Fin 2 × Call 2) :=
  [(0, .acquiresleep), (0, .continue), (0, .continue), (1, .acquiresleep), (1, .continue),
    (1, .continue), (1, .continue), (1, .continue)]

theorem twoCalls_run : (runAll Any (State.step prog) bootTwo twoCalls).isSome := by decide +kernel

def afterTwo : State 2 Pc (Data 2) :=
  (runAll Any (State.step prog) bootTwo twoCalls).get twoCalls_run

theorem sleeplock_sound_afterTwo : afterTwo.sleeping 1 = true ∧ afterTwo.data.locked = true ∧
    afterTwo.data.pid = 1 ∧ (afterTwo.places 0).owns = true ∧
    (∀ p q, (afterTwo.places p).owns = true → (afterTwo.places q).owns = true → p = q) := by
  have hfacts : afterTwo.sleeping 1 = true ∧ afterTwo.data.locked = true ∧
      afterTwo.data.pid = 1 ∧ (afterTwo.places 0).owns = true := by decide +kernel
  have hr : Transition.Reach Boot (State.step prog) Any afterTwo :=
    (Transition.Reach.start boot_bootTwo).runAll_get twoCalls_run
  exact ⟨hfacts.1, hfacts.2.1, hfacts.2.2.1, hfacts.2.2.2, (sleeplock_sound hr).1⟩

end Sleeplock

end Xv6
