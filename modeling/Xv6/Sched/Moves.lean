import Mathlib.Data.List.Perm.Subperm
import Xv6.Sched.Model

/-!
# One step of the scheduler

`Move` lists what each step can do, with the circumstances under which it does it, and
`step_move` says that there is nothing else. `Sane` is what every step keeps whatever the
queues contain: a process is running exactly while one CPU has it, and a child that `kfork`
has not started stays as `allocproc` left it.
-/

namespace Xv6

namespace Sched

variable {s s' : State} {c i j p : ℕ} {l : Event}

/-! ### Fields after an update -/

@[simp] theorem setTask_proc (t : Task) :
    (s.setTask p t).proc = Function.update s.proc p t := rfl
@[simp] theorem setTask_queue (t : Task) : (s.setTask p t).queue = s.queue := rfl
@[simp] theorem setTask_cpu (t : Task) : (s.setTask p t).cpu = s.cpu := rfl
@[simp] theorem setTask_child (t : Task) : (s.setTask p t).child = s.child := rfl

@[simp] theorem setQueue_proc (q : List ℕ) : (s.setQueue i q).proc = s.proc := rfl
@[simp] theorem setQueue_queue (q : List ℕ) :
    (s.setQueue i q).queue = Function.update s.queue i q := rfl
@[simp] theorem setQueue_cpu (q : List ℕ) : (s.setQueue i q).cpu = s.cpu := rfl

@[simp] theorem setCpu_proc (u : Cpu) : (s.setCpu c u).proc = s.proc := rfl
@[simp] theorem setCpu_cpu (u : Cpu) : (s.setCpu c u).cpu = Function.update s.cpu c u := rfl

@[simp] theorem setChild_proc (o : Option ℕ) : (s.setChild p o).proc = s.proc := rfl
@[simp] theorem setChild_queue (o : Option ℕ) : (s.setChild p o).queue = s.queue := rfl
@[simp] theorem setChild_cpu (o : Option ℕ) : (s.setChild p o).cpu = s.cpu := rfl
@[simp] theorem setChild_child (o : Option ℕ) :
    (s.setChild p o).child = Function.update s.child p o := rfl

@[simp] theorem setPc_proc (pc : Pc) : (s.setPc c pc).proc = s.proc := rfl
@[simp] theorem setPc_queue (pc : Pc) : (s.setPc c pc).queue = s.queue := rfl
@[simp] theorem setPc_cpu (pc : Pc) :
    (s.setPc c pc).cpu = Function.update s.cpu c { s.cpu c with pc := pc } := rfl

@[simp] theorem leave_proc : (s.leave c).proc = s.proc := rfl
@[simp] theorem leave_queue : (s.leave c).queue = s.queue := rfl
@[simp] theorem leave_cpu : (s.leave c).cpu = Function.update s.cpu c {} := rfl
@[simp] theorem leave_child : (s.leave c).child = s.child := rfl

@[simp] theorem popProc_proc : (popProc s i).proc = s.proc := rfl
@[simp] theorem popProc_queue :
    (popProc s i).queue = Function.update s.queue i (s.queue i).tail := rfl
@[simp] theorem popProc_cpu : (popProc s i).cpu = s.cpu := rfl

@[simp]
theorem pushProc_proc : (pushProc s p).proc = s.proc := by
  rw [pushProc]
  split <;> rfl

@[simp]
theorem pushProc_cpu : (pushProc s p).cpu = s.cpu := by
  rw [pushProc]
  split <;> rfl

@[simp]
theorem pushProc_child : (pushProc s p).child = s.child := by
  rw [pushProc]
  split <;> rfl

theorem pushProc_queue_congr (hq : s'.queue = s.queue) (hp : s'.proc = s.proc) :
    (pushProc s' p).queue = (pushProc s p).queue := by
  simp only [pushProc, hq, hp]
  split
  · simp [hq]
  · exact hq

/-- A push only adds to a queue. -/
theorem mem_pushProc_of_mem (h : j ∈ s.queue i) : j ∈ (pushProc s p).queue i := by
  rw [pushProc]
  split
  · by_cases hi : i = (s.proc p).qlevel
    · subst hi
      simp [h]
    · simpa [hi] using h
  · exact h

/-- With room, a push puts the process in the queue of its level. -/
theorem pushProc_queue (h : (s.queue (s.proc p).qlevel).length < nproc) :
    (pushProc s p).queue = Function.update s.queue (s.proc p).qlevel
      (s.queue (s.proc p).qlevel ++ [p]) := by
  rw [pushProc, if_pos h]
  rfl

/-- The processes that the boost puts in queue 0. -/
def boosts (t : Task) : Prop := t.state ≠ .unused ∧ t.state ≠ .zombie ∧ t.state ≠ .sleeping

/-- The fields of a process after the boost. -/
def Task.boosted (t : Task) : Task := { t with qlevel := 0, pticks := 0, dSysCount := t.sysCount }

theorem boostProc_of_boosts (h : boosts (s.proc j)) (hroom : (s.queue 0).length < nproc) :
    boostProc s j = (s.setTask j (s.proc j).boosted).setQueue 0 (s.queue 0 ++ [j]) := by
  rw [boosts] at h
  simp only [boostProc, if_pos h]
  exact if_pos hroom

theorem boostProc_of_not_boosts (h : ¬boosts (s.proc j)) : boostProc s j = s := by
  rw [boosts] at h
  simp only [boostProc, if_neg h]

@[simp]
theorem boostProc_cpu : (boostProc s j).cpu = s.cpu := by
  simp only [boostProc]
  split
  · split <;> rfl
  · rfl

@[simp]
theorem boostProc_child : (boostProc s j).child = s.child := by
  simp only [boostProc]
  split
  · split <;> rfl
  · rfl

theorem boostProc_state : ((boostProc s j).proc p).state = (s.proc p).state := by
  have hset : ((s.setTask j (s.proc j).boosted).proc p).state = (s.proc p).state := by
    by_cases hp : p = j
    · subst hp
      simp [Task.boosted]
    · simp [hp]
  simp only [boostProc]
  split
  · split <;> exact hset
  · rfl

/-! ### What a step can do -/

/-- The steps, each with its circumstances and its result. -/
inductive Move (s : State) : Event → State → Prop
  | userinit (h : ∀ p < nproc, (s.proc p).state = .unused) : Move s .userinit (userinit s)
  | boost {c : ℕ} (hpc : (s.cpu c).pc = .top) :
      Move s (.mlfq c) ({ s with lastMod128 := s.ticks }.setPc c (.clear 0))
  | enter {c : ℕ} (hpc : (s.cpu c).pc = .top) : Move s (.mlfq c) (s.setPc c (.scan 0))
  | clear {c i : ℕ} (hpc : (s.cpu c).pc = .clear i) : Move s (.mlfq c)
      ((s.setQueue i []).setPc c (if i + 1 < levels then .clear (i + 1) else .refill 0))
  | refill {c j : ℕ} (hpc : (s.cpu c).pc = .refill j) : Move s (.mlfq c)
      ((boostProc s j).setPc c (if j + 1 < nproc then .refill (j + 1) else .scan 0))
  | pop {c i p : ℕ} {rest : List ℕ} (hpc : (s.cpu c).pc = .scan i) (hq : s.queue i = p :: rest) :
      Move s (.mlfq c) ((popProc s i).setPc c (.popped i p))
  | skip {c i : ℕ} (hpc : (s.cpu c).pc = .scan i) : Move s (.mlfq c) (s.setPc c (nextLevel i))
  | dispatch {c i p : ℕ} (hpc : (s.cpu c).pc = .popped i p)
      (hst : (s.proc p).state = .runnable) : Move s (.mlfq c) (dispatch s c p)
  | discard {c i p : ℕ} (hpc : (s.cpu c).pc = .popped i p)
      (hst : (s.proc p).state ≠ .runnable) : Move s (.mlfq c) (s.setPc c (nextLevel i))
  | clockintr : Move s .clockintr { s with ticks := (s.ticks + 1) % 2 ^ 32 }
  | eventTick {c p : ℕ} (hp : (s.cpu c).proc = some p) : Move s (.eventTick c) (eventTick s c p)
  | syscall {c p : ℕ} (hp : (s.cpu c).proc = some p) : Move s (.syscall c)
      (s.setTask p { s.proc p with sysCount := (s.proc p).sysCount + 1 })
  | sleep {c p chan : ℕ} (hp : (s.cpu c).proc = some p) :
      Move s (.sleep c chan) (sleep s c p chan)
  | wakeup {c chan j : ℕ} (hj : j < nproc) : Move s (.wakeup c chan j) (wakeup s chan j)
  | kkill {c pid j : ℕ} (hj : j < nproc) : Move s (.kkill c pid j) (kkill s pid j)
  | forkAlloc {c p j : ℕ} {mem : Supply} (hp : (s.cpu c).proc = some p) (hj : j < nproc)
      (hst : (s.proc j).state = .unused) : Move s (.forkAlloc c j mem) (forkAlloc s p j mem)
  | forkParent {c p np : ℕ} (hp : (s.cpu c).proc = some p) (hnp : s.child p = some np) :
      Move s (.forkParent c) (s.setTask np { s.proc np with parent := some p })
  | forkStart {c p np : ℕ} (hp : (s.cpu c).proc = some p) (hnp : s.child p = some np) :
      Move s (.forkStart c) (forkStart s p np)
  | reparent {c j : ℕ} : Move s (.reparent c j)
      (s.setTask j { s.proc j with parent := some s.initproc })
  | exit {c p : ℕ} (hp : (s.cpu c).proc = some p) : Move s (.exit c)
      ((s.setTask p { s.proc p with state := .zombie }).leave c)
  | reap {c j : ℕ} (hst : (s.proc j).state = .zombie) : Move s (.reap c j)
      (s.setTask j (s.proc j).free)

theorem scMlfq_move (h : scMlfq s c = some s') : Move s (.mlfq c) s' := by
  rw [scMlfq] at h
  split at h
  case h_1 hpc =>
    split at h
    · cases h
      exact .boost hpc
    · cases h
      exact .enter hpc
  case h_2 i hpc =>
    cases h
    exact .clear hpc
  case h_3 j hpc =>
    cases h
    exact .refill hpc
  case h_4 i hpc =>
    split at h
    · rename_i p rest hq
      cases h
      exact .pop hpc hq
    · cases h
      exact .skip hpc
  case h_5 i p hpc =>
    split at h
    · rename_i hst
      cases h
      exact .dispatch hpc hst
    · rename_i hst
      cases h
      exact .discard hpc hst
  case h_6 => cases h

/-- Every step is one of the moves. -/
theorem step_move (h : step s l = some s') : Move s l s' := by
  cases l with
  | userinit =>
    rw [step] at h
    split at h
    · rename_i hall
      cases h
      exact .userinit fun p hp => by simpa using List.all_eq_true.mp hall p (List.mem_range.mpr hp)
    · cases h
  | mlfq c => exact scMlfq_move h
  | clockintr =>
    cases h
    exact .clockintr
  | eventTick c =>
    obtain ⟨p, hp, h⟩ := Option.bind_eq_some_iff.mp h
    cases h
    exact .eventTick hp
  | syscall c =>
    obtain ⟨p, hp, h⟩ := Option.bind_eq_some_iff.mp h
    cases h
    exact .syscall hp
  | sleep c chan =>
    obtain ⟨p, hp, h⟩ := Option.bind_eq_some_iff.mp h
    obtain ⟨_, hg, h⟩ := Option.bind_eq_some_iff.mp h
    cases h
    exact .sleep hp
  | wakeup c chan j =>
    obtain ⟨_, hg, h⟩ := Option.bind_eq_some_iff.mp h
    cases h
    simp at hg
    exact .wakeup hg.2
  | kkill c pid j =>
    obtain ⟨p, hp, h⟩ := Option.bind_eq_some_iff.mp h
    obtain ⟨_, hg, h⟩ := Option.bind_eq_some_iff.mp h
    cases h
    exact .kkill (by simpa using hg)
  | forkAlloc c j mem =>
    obtain ⟨p, hp, h⟩ := Option.bind_eq_some_iff.mp h
    obtain ⟨_, hg, h⟩ := Option.bind_eq_some_iff.mp h
    cases h
    simp at hg
    exact .forkAlloc hp hg.2.1 hg.2.2
  | forkParent c =>
    obtain ⟨p, hp, h⟩ := Option.bind_eq_some_iff.mp h
    obtain ⟨np, hnp, h⟩ := Option.bind_eq_some_iff.mp h
    cases h
    exact .forkParent hp hnp
  | forkStart c =>
    obtain ⟨p, hp, h⟩ := Option.bind_eq_some_iff.mp h
    obtain ⟨np, hnp, h⟩ := Option.bind_eq_some_iff.mp h
    cases h
    exact .forkStart hp hnp
  | reparent c j =>
    obtain ⟨p, hp, h⟩ := Option.bind_eq_some_iff.mp h
    obtain ⟨_, hg, h⟩ := Option.bind_eq_some_iff.mp h
    cases h
    exact .reparent
  | exit c =>
    obtain ⟨p, hp, h⟩ := Option.bind_eq_some_iff.mp h
    obtain ⟨_, hg, h⟩ := Option.bind_eq_some_iff.mp h
    cases h
    exact .exit hp
  | reap c j =>
    obtain ⟨p, hp, h⟩ := Option.bind_eq_some_iff.mp h
    obtain ⟨_, hg, h⟩ := Option.bind_eq_some_iff.mp h
    cases h
    simp at hg
    exact .reap hg.2.2

/-- The CPU on which an event happens, if it can change that CPU. -/
def Event.cpu : Event → Option ℕ
  | .mlfq c | .eventTick c | .sleep c _ | .exit c => some c
  | _ => none

/-- A step moves only its own CPU. -/
theorem Move.cpu_of_ne (hm : Move s l s') (hc : l.cpu ≠ some c) : s'.cpu c = s.cpu c := by
  have hne : ∀ {d}, l.cpu = some d → c ≠ d := by
    rintro d hd rfl
    exact hc hd
  cases hm with
  | userinit => simp [Sched.userinit]
  | eventTick =>
    simp only [Sched.eventTick]
    split <;> simp [hne rfl]
  | sleep => simp [Sched.sleep, hne rfl]
  | wakeup =>
    simp only [Sched.wakeup]
    split <;> simp
  | kkill =>
    simp only [Sched.kkill]
    split <;> rfl
  | @forkAlloc d p j mem => cases mem <;> rfl
  | forkStart => simp [Sched.forkStart]
  | dispatch => simp [Sched.dispatch, hne rfl]
  | clockintr | syscall | forkParent | reparent | reap => rfl
  | boost | enter | clear | refill | pop | skip | discard | exit => simp [hne rfl]

theorem runAll_cpu {ls : List Event} (h : Transition.runAll Transition.Any step s ls = some s')
    (hc : ∀ l ∈ ls, l.cpu ≠ some c) : s'.cpu c = s.cpu c := by
  induction ls generalizing s with
  | nil =>
    cases h
    rfl
  | cons l ls ih =>
    obtain ⟨-, s₁, hs, h⟩ := Transition.runAll_cons h
    rw [ih h fun l' hl' => hc l' (List.mem_cons_of_mem l hl')]
    exact (step_move hs).cpu_of_ne (hc l List.mem_cons_self)

/-! ### Who runs where -/

/-- What holds whatever the queues contain. -/
structure Sane (s : State) : Prop where
  /-- A CPU in its scheduler has no process. -/
  idle : ∀ c, (s.cpu c).pc ≠ .running → (s.cpu c).proc = none
  running : ∀ c p, (s.cpu c).proc = some p → (s.proc p).state = .running
  current : ∀ p, (s.proc p).state = .running → ∃ c, (s.cpu c).proc = some p
  alone : ∀ c c' p, (s.cpu c).proc = some p → (s.cpu c').proc = some p → c = c'
  /-- A child that `kfork` has not started is as `allocproc` left it, and has one parent. -/
  used : ∀ p np, s.child p = some np → (s.proc np).state = .used
  once : ∀ p p' np, s.child p = some np → s.child p' = some np → p = p'
  bound : ∀ p, nproc ≤ p → (s.proc p).state = .unused
  level : ∀ p, (s.proc p).qlevel < levels

/-- No process changes state and no CPU changes process. -/
theorem Sane.keep (h : Sane s) (hst : ∀ p, (s'.proc p).state = (s.proc p).state)
    (hlevel : ∀ p, (s'.proc p).qlevel < levels)
    (hproc : ∀ c, (s'.cpu c).proc = (s.cpu c).proc)
    (hpc : ∀ c, (s'.cpu c).pc ≠ .running → (s.cpu c).pc ≠ .running)
    (hchild : s'.child = s.child) : Sane s' where
  idle c hc := (hproc c).trans (h.idle c (hpc c hc))
  running c p hp := (hst p).trans (h.running c p (hproc c ▸ hp))
  current p hp := by
    obtain ⟨c, hc⟩ := h.current p (hst p ▸ hp)
    exact ⟨c, (hproc c).trans hc⟩
  alone c c' p hc hc' := h.alone c c' p (hproc c ▸ hc) (hproc c' ▸ hc')
  used p np hnp := (hst np).trans (h.used p np (hchild ▸ hnp))
  once p p' np hp hp' := h.once p p' np (hchild ▸ hp) (hchild ▸ hp')
  bound p hp := (hst p).trans (h.bound p hp)
  level := hlevel

/-- A process that is not running changes to a state in which it is not running either. -/
theorem Sane.change {t : Task} (h : Sane s) (hproc : s'.proc = Function.update s.proc j t)
    (hcpu : s'.cpu = s.cpu) (hold : (s.proc j).state ≠ .running) (hnew : t.state ≠ .running)
    (hused : ∀ p np, s'.child p = some np → (s'.proc np).state = .used)
    (honce : ∀ p p' np, s'.child p = some np → s'.child p' = some np → p = p')
    (hj : j < nproc) (hlevel : t.qlevel < levels) : Sane s' := by
  have hiff : ∀ p, (s'.proc p).state = .running ↔ (s.proc p).state = .running := by
    intro p
    by_cases hp : p = j
    · subst hp
      simp [hproc, hold, hnew]
    · simp [hproc, hp]
  refine ⟨fun c => ?_, fun c p hp => ?_, fun p hp => ?_, fun c c' p hc hc' => ?_, hused, honce,
    fun p hp => ?_, fun p => ?_⟩
  · rw [hcpu]
    exact h.idle c
  · rw [hcpu] at hp
    exact (hiff p).mpr (h.running c p hp)
  · rw [hcpu]
    exact h.current p ((hiff p).mp hp)
  · rw [hcpu] at hc hc'
    exact h.alone c c' p hc hc'
  · rw [hproc, Function.update_of_ne (by omega)]
    exact h.bound p hp
  · rw [hproc]
    by_cases hp : p = j
    · simpa [hp] using hlevel
    · simpa [hp] using h.level p

/-- The process on CPU `c` switches to the scheduler. -/
theorem Sane.switchOut {t : Task} (h : Sane s) (hp : (s.cpu c).proc = some p)
    (hproc : s'.proc = Function.update s.proc p t) (hcpu : s'.cpu = Function.update s.cpu c {})
    (hchild : s'.child = s.child) (hnew : t.state ≠ .running) (hlevel : t.qlevel < levels) :
    Sane s' := by
  have hrun := h.running c p hp
  have hne : ∀ {q}, (s.proc q).state ≠ .running → q ≠ p := by
    rintro q hq rfl
    exact hq hrun
  refine ⟨fun d hd => ?_, fun d q hq => ?_, fun q hq => ?_, fun d d' q hd hd' => ?_,
    fun x np hnp => ?_, fun x x' np hx hx' => ?_, fun q hq => ?_, fun q => ?_⟩
  · rw [hcpu] at hd ⊢
    by_cases hdc : d = c
    · simp [hdc]
    · simpa [hdc] using h.idle d (by simpa [hdc] using hd)
  · rw [hcpu] at hq
    by_cases hdc : d = c
    · simp [hdc] at hq
    · simp only [Function.update_of_ne hdc] at hq
      have hqp : q ≠ p := fun heq => hdc (h.alone d c p (heq ▸ hq) hp)
      simpa [hproc, hqp] using h.running d q hq
  · have hqp : q ≠ p := by
      rintro rfl
      exact hnew (by simpa [hproc] using hq)
    obtain ⟨d, hd⟩ := h.current q (by simpa [hproc, hqp] using hq)
    have hdc : d ≠ c := by
      rintro rfl
      exact hqp (Option.some.inj (hd.symm.trans hp))
    exact ⟨d, by simpa [hcpu, hdc] using hd⟩
  · rw [hcpu] at hd hd'
    by_cases hdc : d = c
    · simp [hdc] at hd
    · by_cases hdc' : d' = c
      · simp [hdc'] at hd'
      · exact h.alone d d' q (by simpa [hdc] using hd) (by simpa [hdc'] using hd')
  · have hused := h.used x np (hchild ▸ hnp)
    have hnpp := hne (show (s.proc np).state ≠ .running by rw [hused]; simp)
    simpa [hproc, hnpp] using hused
  · exact h.once x x' np (hchild ▸ hx) (hchild ▸ hx')
  · have hun := h.bound q hq
    have hqp := hne (show (s.proc q).state ≠ .running by rw [hun]; simp)
    simpa [hproc, hqp] using hun
  · rw [hproc]
    by_cases hqp : q = p
    · simpa [hqp] using hlevel
    · simpa [hqp] using h.level q

/-- An idle CPU switches to a runnable process. -/
theorem Sane.dispatch (h : Sane s) (hc : (s.cpu c).pc ≠ .running)
    (hst : (s.proc p).state = .runnable) : Sane (dispatch s c p) := by
  have hidle := h.idle c hc
  have hne : ∀ {q}, (s.proc q).state ≠ .runnable → q ≠ p := by
    rintro q hq rfl
    exact hq hst
  have hcpu : ∀ d, ((Sched.dispatch s c p).cpu d).proc =
      if d = c then some p else (s.cpu d).proc := by
    intro d
    by_cases hdc : d = c <;> simp [Sched.dispatch, hdc]
  have hstate : ∀ q, ((Sched.dispatch s c p).proc q).state =
      if q = p then .running else (s.proc q).state := by
    intro q
    by_cases hqp : q = p <;> simp [Sched.dispatch, hqp]
  have hnone : ∀ d, (s.cpu d).proc ≠ some p := fun d hd => by
    rw [h.running d p hd] at hst
    cases hst
  refine ⟨fun d hd => ?_, fun d q hq => ?_, fun q hq => ?_, fun d d' q hd hd' => ?_,
    fun x np hnp => ?_, h.once, fun q hq => ?_, fun q => ?_⟩
  · by_cases hdc : d = c
    · simp [Sched.dispatch, hdc] at hd
    · rw [hcpu, if_neg hdc]
      exact h.idle d (by simpa [Sched.dispatch, hdc] using hd)
  · rw [hcpu] at hq
    rw [hstate]
    split at hq
    · cases hq
      exact if_pos rfl
    · have hrun := h.running d q hq
      rw [if_neg (hne (by rw [hrun]; simp)), hrun]
  · rw [hstate] at hq
    split at hq
    · rename_i hqp
      exact ⟨c, by rw [hcpu, if_pos rfl, hqp]⟩
    · obtain ⟨d, hd⟩ := h.current q hq
      have hdc : d ≠ c := by
        rintro rfl
        rw [hidle] at hd
        cases hd
      exact ⟨d, by rw [hcpu, if_neg hdc, hd]⟩
  · rw [hcpu] at hd hd'
    split at hd <;> split at hd'
    · rename_i hdc hdc'
      exact hdc.trans hdc'.symm
    · cases hd
      exact absurd hd' (hnone d')
    · cases hd'
      exact absurd hd (hnone d)
    · exact h.alone d d' q hd hd'
  · have hused := h.used x np hnp
    rw [hstate, if_neg (hne (by rw [hused]; simp)), hused]
  · have hun := h.bound q hq
    rw [hstate, if_neg (hne (by rw [hun]; simp)), hun]
  · by_cases hqp : q = p
    · subst hqp
      simpa [Sched.dispatch] using h.level q
    · simpa [Sched.dispatch, hqp] using h.level q

theorem tickTask_state {t : Task} : (tickTask s t).1.state = t.state := by
  simp only [tickTask]
  split <;> rfl

/-- The level `event_tick` leaves is one of the levels. -/
theorem tickTask_level {t : Task} (h : t.qlevel < levels) :
    (tickTask s t).1.qlevel < levels := by
  simp only [tickTask]
  split
  · simp only
    split <;> omega
  · exact h

/-- A field of one process changes, but not its state. -/
theorem Sane.setTask {t : Task} (h : Sane s) (hst : t.state = (s.proc j).state)
    (hlevel : t.qlevel < levels) : Sane (s.setTask j t) := by
  refine h.keep (fun p => ?_) (fun p => ?_) (fun _ => rfl) (fun _ hc => hc) rfl
  · by_cases hp : p = j
    · subst hp
      simpa using hst
    · simp [hp]
  · by_cases hp : p = j
    · simpa [hp] using hlevel
    · simpa [hp] using h.level p

/-- A CPU moves on inside its scheduler. -/
theorem Sane.setPc {pc : Pc} (h : Sane s) (hold : (s.cpu c).pc ≠ .running) :
    Sane (s.setPc c pc) := by
  refine h.keep (fun _ => rfl) h.level (fun d => ?_) (fun d hd => ?_) rfl
  · by_cases hdc : d = c <;> simp [hdc]
  · by_cases hdc : d = c
    · exact hdc ▸ hold
    · simpa [hdc] using hd

theorem Sane.boostProc (h : Sane s) : Sane (boostProc s j) := by
  refine h.keep (fun _ => boostProc_state) (fun p => ?_) (by simp) (by simp) (by simp)
  have hset : ((s.setTask j (s.proc j).boosted).proc p).qlevel < levels := by
    by_cases hp : p = j
    · simp [hp, Task.boosted, levels]
    · simpa [hp] using h.level p
  simp only [Sched.boostProc]
  split
  · split <;> exact hset
  · exact h.level p

/-- A push changes no process and no CPU. -/
theorem Sane.pushProc (h : Sane s) : Sane (pushProc s p) :=
  h.keep (by simp) (by simpa using h.level) (by simp) (by simp) (by simp)

/-- **Every step keeps a running process on one CPU**, whatever the queues contain. -/
theorem Sane.move (h : Sane s) (hm : Move s l s') : Sane s' := by
  -- a process that is not running and not a child yet to be started
  have hchange : ∀ {j : ℕ} {t : Task}, (s.proc j).state ≠ .running →
      (s.proc j).state ≠ .used → t.state ≠ .running → j < nproc → t.qlevel < levels →
      Sane (s.setTask j t) := by
    intro j t hold hused hnew hj hlevel
    refine h.change rfl rfl hold hnew (fun p np hnp => ?_) h.once hj hlevel
    have hu := h.used p np hnp
    have hne : np ≠ j := by
      rintro rfl
      exact hused hu
    simpa [hne] using hu
  cases hm with
  | userinit hall =>
    have h0 := hall 0 (by decide)
    have h1 : Sane (s.setTask 0
        { (s.proc 0).fresh s.nextpid with state := .runnable }) :=
      hchange (by simp [h0]) (by simp [h0]) (by simp) (by decide) (by simp [Task.fresh, levels])
    refine Sane.pushProc (h1.keep (fun _ => rfl) h1.level (fun _ => rfl) (fun _ hc => hc) rfl)
  | boost hpc =>
    exact Sane.setPc (h.keep (fun _ => rfl) h.level (fun _ => rfl) (fun _ hc => hc) rfl)
      (by simp [hpc])
  | enter hpc => exact h.setPc (by rw [hpc]; simp)
  | clear hpc =>
    exact Sane.setPc (h.keep (fun _ => rfl) h.level (fun _ => rfl) (fun _ hc => hc) rfl)
      (by simp [hpc])
  | refill hpc => exact h.boostProc.setPc (by simp [hpc])
  | pop hpc hq =>
    exact Sane.setPc (h.keep (fun _ => rfl) h.level (fun _ => rfl) (fun _ hc => hc) rfl)
      (by simp [hpc])
  | skip hpc => exact h.setPc (by rw [hpc]; simp)
  | dispatch hpc hst => exact h.dispatch (by rw [hpc]; simp) hst
  | discard hpc hst => exact h.setPc (by rw [hpc]; simp)
  | clockintr => exact h.keep (fun _ => rfl) h.level (fun _ => rfl) (fun _ hc => hc) rfl
  | @eventTick c p hp =>
    have hlevel := tickTask_level (s := s) (h.level p)
    simp only [eventTick]
    split
    · exact h.switchOut (t := { (tickTask s (s.proc p)).1 with state := .runnable }) hp
        (by simp) (by simp) (by simp) (by simp) hlevel
    · exact h.setTask tickTask_state hlevel
  | syscall hp => exact h.setTask rfl (h.level _)
  | sleep hp =>
    exact h.switchOut (t := { s.proc _ with chan := _, state := .sleeping }) hp rfl rfl rfl
      (by simp) (h.level _)
  | @wakeup c chan j hj =>
    simp only [wakeup]
    split
    · rename_i hsl
      have h1 : Sane (s.setTask j { s.proc j with state := .runnable }) :=
        hchange (by simp [hsl.1]) (by simp [hsl.1]) (by simp) hj (h.level j)
      exact h1.pushProc
    · exact h
  | kkill hj =>
    simp only [kkill]
    split
    · split
      · rename_i hsl
        exact hchange (by simp [hsl]) (by simp [hsl]) (by simp) hj (h.level _)
      · exact h.setTask rfl (h.level _)
    · exact h
  | @forkAlloc c p j mem hp hj hst =>
    have hnext : Sane { s with nextpid := s.nextpid + 1 } :=
      h.keep (fun _ => rfl) h.level (fun _ => rfl) (fun _ hc => hc) rfl
    cases mem with
    | none => exact hnext.setTask hst.symm (h.level j)
    | table => exact hnext.setTask hst.symm (by simp [Task.free, Task.fresh, levels])
    | full =>
      have hne : ∀ {x np}, s.child x = some np → np ≠ j := by
        rintro x np hx rfl
        rw [h.used x np hx] at hst
        cases hst
      refine hnext.change (j := j) (t := (s.proc j).fresh s.nextpid) rfl rfl (by simp [hst])
        (by simp [Task.fresh]) (fun x np hx => ?_) (fun x x' np hx hx' => ?_) hj
        (by simp [Task.fresh, levels])
      · rw [show (forkAlloc s p j .full).child = Function.update s.child p (some j) from rfl] at hx
        rw [show (forkAlloc s p j .full).proc =
          Function.update s.proc j ((s.proc j).fresh s.nextpid) from rfl]
        by_cases hxp : x = p
        · subst hxp
          simp only [Function.update_self, Option.some.injEq] at hx
          simp [← hx, Task.fresh]
        · rw [Function.update_of_ne hxp] at hx
          simpa [hne hx] using h.used x np hx
      · rw [show (forkAlloc s p j .full).child = Function.update s.child p (some j) from rfl]
          at hx hx'
        by_cases hxp : x = p <;> by_cases hxp' : x' = p
        · rw [hxp, hxp']
        · simp only [hxp, Function.update_self, Option.some.injEq] at hx
          rw [Function.update_of_ne hxp'] at hx'
          exact absurd hx.symm (hne hx')
        · simp only [hxp', Function.update_self, Option.some.injEq] at hx'
          rw [Function.update_of_ne hxp] at hx
          exact absurd hx'.symm (hne hx)
        · rw [Function.update_of_ne hxp] at hx
          rw [Function.update_of_ne hxp'] at hx'
          exact h.once x x' np hx hx'
  | forkParent hp hnp => exact h.setTask rfl (h.level _)
  | @forkStart c p np hp hnp =>
    have hu := h.used p np hnp
    have hnpn : np < nproc := by
      by_contra hge
      rw [h.bound np (by omega)] at hu
      cases hu
    have hkeep : ∀ {x n}, (forkStart s p np).child x = some n → x ≠ p ∧ s.child x = some n := by
      intro x n hx
      rw [show (forkStart s p np).child = Function.update s.child p none by simp [forkStart]] at hx
      by_cases hxp : x = p
      · simp [hxp] at hx
      · exact ⟨hxp, by simpa [hxp] using hx⟩
    refine h.change (j := np) (t := { s.proc np with state := .runnable }) (by simp [forkStart])
      (by simp [forkStart]) (by simp [hu]) (by simp) (fun x n hx => ?_) (fun x x' n hx hx' => ?_)
      hnpn (h.level np)
    · obtain ⟨hxp, hx₀⟩ := hkeep hx
      have hne : n ≠ np := by
        rintro rfl
        exact hxp (h.once x p n hx₀ hnp)
      simpa [forkStart, hne] using h.used x n hx₀
    · exact h.once x x' n (hkeep hx).2 (hkeep hx').2
  | reparent => exact h.setTask rfl (h.level _)
  | exit hp =>
    exact h.switchOut (t := { s.proc _ with state := .zombie }) hp rfl rfl rfl (by simp) (h.level _)
  | @reap c j hst =>
    have hj : j < nproc := by
      by_contra hge
      rw [h.bound j (by omega)] at hst
      cases hst
    exact hchange (by simp [hst]) (by simp [hst]) (by simp [Task.free]) hj (h.level j)

/-- A state in which no process runs, with anything in the queues. -/
structure Idle (s : State) : Prop where
  cpu : ∀ c, (s.cpu c).proc = none
  state : ∀ p, (s.proc p).state ≠ .running
  child : ∀ p, s.child p = none
  bound : ∀ p, nproc ≤ p → (s.proc p).state = .unused
  level : ∀ p, (s.proc p).qlevel < levels

theorem Idle.sane (h : Idle s) : Sane s where
  idle c _ := h.cpu c
  running c p hp := absurd ((h.cpu c).symm.trans hp) (by simp)
  current p hp := absurd hp (h.state p)
  alone c _ p hp := absurd ((h.cpu c).symm.trans hp) (by simp)
  used p np hp := absurd ((h.child p).symm.trans hp) (by simp)
  once p _ np hp := absurd ((h.child p).symm.trans hp) (by simp)
  bound := h.bound
  level := h.level

theorem idle_boot : Idle boot where
  cpu _ := rfl
  state _ := by simp [boot]
  child _ := rfl
  bound _ _ := rfl
  level _ := by simp [boot, levels]

end Sched

end Xv6
