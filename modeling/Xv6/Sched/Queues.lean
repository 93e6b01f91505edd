import Mathlib.Data.List.Nodup
import Xv6.Sched.Moves

/-!
# Runnable processes and the queues

Three results over every interleaving of the CPUs' schedulers, the processes and the
interrupts. A process is running exactly while one CPU has it, whatever is in the queues:
the scheduler looks at the state again once it has the lock of a process it popped. The
other two need care from the callers. A runnable process is in a queue as long as `kkill`
does not wake a sleeping process that is in none, since `kkill` does not enqueue what it
wakes. The queues hold exactly runnable processes, each once and at its level, as long as
the boost does not visit a process that is running, being created, already queued or just
popped, since it enqueues those as well.
-/

namespace Xv6

namespace Sched

open Transition

variable {s s' : State} {c i j p : ℕ} {l : Event}

/-! ### One CPU to a running process -/

theorem sane_of_reach (h : Reach Idle step Any s) : Sane s :=
  h.inv (fun _ h0 => h0.sane) fun _ _ _ ih _ hs => ih.move (step_move hs)

/-- **At most one CPU runs a process.** From any state in which no process runs, whatever its
queues contain, every run keeps this: a process is running exactly when it is the current
process of one and only one CPU, and no CPU's current process is an unused slot. -/
theorem running_iff_on_one_cpu (h : Reach Idle step Any s) :
    (∀ p, (s.proc p).state = .running ↔ ∃! c, (s.cpu c).proc = some p) ∧
    ∀ c p, (s.cpu c).proc = some p → (s.proc p).state ≠ .unused := by
  have hsane := sane_of_reach h
  refine ⟨fun p => ⟨fun hp => ?_, ?_⟩, fun c p hc => ?_⟩
  · obtain ⟨c, hc⟩ := hsane.current p hp
    exact ⟨c, hc, fun d hd => hsane.alone d c p hd hc⟩
  · rintro ⟨c, hc, -⟩
    exact hsane.running c p hc
  · rw [hsane.running c p hc]
    simp

/-- The first process is dispatched by CPU 1. -/
def dispatchFirst : List Event := [.userinit, .mlfq 1, .mlfq 1, .mlfq 1]

/-- The state in which the first process runs on CPU 1. -/
def firstRunning : State := (runAll Any step boot dispatchFirst).get (by decide +kernel)

theorem running_iff_on_one_cpu_first : (firstRunning.proc 0).state = .running ∧
    ∃! c, (firstRunning.cpu c).proc = some 0 := by
  have hrun : (firstRunning.proc 0).state = .running := by decide +kernel
  exact ⟨hrun, ((running_iff_on_one_cpu ((Reach.start idle_boot).runAll_get _)).1 0).mp hrun⟩

theorem reach_boot {ok : State → Event → Prop} : Reach (· = boot) step ok boot :=
  @Reach.start _ _ (· = boot) step ok boot rfl

/-! ### Where an entry can be -/

/-- The process is in one of the queues. -/
def Queued (s : State) (p : ℕ) : Prop := ∃ i < levels, p ∈ s.queue i

/-- A scheduler holds the process as a just-popped entry. -/
def Held (s : State) (p : ℕ) : Prop := ∃ c i, (s.cpu c).pc = .popped i p

/-- A boost is under way that has yet to visit the process. -/
def Pending (s : State) (p : ℕ) : Prop :=
  ∃ c, (∃ i, (s.cpu c).pc = .clear i) ∨ ∃ j ≤ p, (s.cpu c).pc = .refill j

/-- A boost is under way. -/
def Boosting (s : State) : Prop :=
  ∃ c, (∃ i, (s.cpu c).pc = .clear i) ∨ ∃ j, (s.cpu c).pc = .refill j

/-- What the event pushes, if anything, finds room in its queue. -/
def HasRoom (s : State) : Event → Prop
  | .userinit => (s.queue 0).length < nproc
  | .mlfq c => ∀ j, (s.cpu c).pc = .refill j → boosts (s.proc j) → (s.queue 0).length < nproc
  | .eventTick c => ∀ p, (s.cpu c).proc = some p → (tickTask s (s.proc p)).2 = true →
      (s.queue (tickTask s (s.proc p)).1.qlevel).length < nproc
  | .wakeup _ chan j => (s.proc j).state = .sleeping → (s.proc j).chan = chan →
      (s.queue (s.proc j).qlevel).length < nproc
  | .forkStart c => ∀ p np, (s.cpu c).proc = some p → s.child p = some np →
      (s.queue (s.proc np).qlevel).length < nproc
  | _ => True

/-- A sleeping process that `kkill` wakes is already in a queue. -/
def KillsQueued (s : State) : Event → Prop
  | .kkill _ pid j => (s.proc j).pid = pid → (s.proc j).state = .sleeping → Queued s j
  | _ => True

/-! ### No runnable process is lost -/

/-- A runnable process is in a queue, held by a scheduler, or will be visited by a boost. -/
structure Listed (s : State) : Prop extends Sane s where
  listed : ∀ p, (s.proc p).state = .runnable → Queued s p ∨ Held s p ∨ Pending s p

/-- The evidence survives a step that keeps the entries of runnable processes and moves only
CPUs that neither hold one nor boost. -/
theorem Listed.next (h : Listed s) (hs : Sane s')
    (hnew : ∀ p, (s'.proc p).state = .runnable → (s.proc p).state = .runnable ∨ Queued s' p)
    (hqueue : ∀ p, (s'.proc p).state = .runnable → Queued s p → Queued s' p ∨ Held s' p)
    (hcpu : ∀ d, (s'.cpu d).pc = (s.cpu d).pc ∨
      (∀ p i, (s'.proc p).state = .runnable → (s.cpu d).pc ≠ .popped i p) ∧
      (∀ i, (s.cpu d).pc ≠ .clear i) ∧ ∀ j, (s.cpu d).pc ≠ .refill j) : Listed s' := by
  refine ⟨hs, fun p hp => ?_⟩
  rcases hnew p hp with hold | hq
  · rcases h.listed p hold with hq | ⟨d, i, hd⟩ | ⟨d, hd⟩
    · rcases hqueue p hp hq with hq | hheld
      · exact .inl hq
      · exact .inr (.inl hheld)
    · rcases hcpu d with heq | ⟨hpop, -⟩
      · exact .inr (.inl ⟨d, i, heq.trans hd⟩)
      · exact absurd hd (hpop p i hp)
    · rcases hcpu d with heq | ⟨-, hclear, hrefill⟩
      · refine .inr (.inr ⟨d, ?_⟩)
        rw [heq]
        exact hd
      · rcases hd with ⟨i, hd⟩ | ⟨j, -, hd⟩
        · exact absurd hd (hclear i)
        · exact absurd hd (hrefill j)
  · exact .inl hq

/-- A process that becomes runnable is pushed. -/
theorem queued_pushProc (hlevel : (s.proc p).qlevel < levels)
    (hroom : (s.queue (s.proc p).qlevel).length < nproc) : Queued (pushProc s p) p :=
  ⟨_, hlevel, by simp [pushProc_queue hroom]⟩

theorem Queued.pushProc (h : Queued s j) : Queued (pushProc s p) j := by
  obtain ⟨i, hi, hmem⟩ := h
  exact ⟨i, hi, mem_pushProc_of_mem hmem⟩

/-- A process that is on a CPU has its CPU in `swtch`. -/
theorem Sane.pc_running (h : Sane s) (hp : (s.cpu c).proc = some p) :
    (s.cpu c).pc = .running := by
  by_contra hpc
  rw [h.idle c hpc] at hp
  cases hp

/-- A CPU that holds no entry and does not boost moves on; the queues stay. -/
theorem Listed.setPc {pc : Pc} (h : Listed s) (hs : Sane (s.setPc c pc))
    (hpop : ∀ p i, (s.proc p).state = .runnable → (s.cpu c).pc ≠ .popped i p)
    (hclear : ∀ i, (s.cpu c).pc ≠ .clear i) (hrefill : ∀ j, (s.cpu c).pc ≠ .refill j) :
    Listed (s.setPc c pc) := by
  refine h.next hs (fun p hp => .inl hp) (fun p _ hq => .inl hq) fun d => ?_
  by_cases hd : d = c
  · subst hd
    exact .inr ⟨hpop, hclear, hrefill⟩
  · exact .inl (by simp [hd])

/-- A process changes, and is not runnable afterwards unless it was before. -/
theorem Listed.setTask {t : Task} (h : Listed s) (hs : Sane (s.setTask j t))
    (ht : t.state = .runnable → (s.proc j).state = .runnable ∨ Queued s j) :
    Listed (s.setTask j t) := by
  refine h.next hs (fun p hp => ?_) (fun p _ hq => .inl hq) fun _ => .inl rfl
  by_cases hpj : p = j
  · subst hpj
    exact ht (by simpa using hp)
  · exact .inl (by simpa [hpj] using hp)

/-- A process becomes runnable and is pushed; the CPU it may have left goes to the top. -/
theorem Listed.push {t : Task} (h : Listed s) (hs : Sane s')
    (hproc : s'.proc = Function.update s.proc p t)
    (hqueue : s'.queue = (pushProc (s.setTask p t) p).queue)
    (hlevel : t.qlevel < levels) (hroom : (s.queue t.qlevel).length < nproc)
    (hcpu : ∀ d, (s'.cpu d).pc = (s.cpu d).pc ∨ (s.cpu d).pc = .running) : Listed s' := by
  have hmono : ∀ q, Queued (pushProc (s.setTask p t) p) q → Queued s' q := by
    rintro q ⟨i, hi, hq⟩
    exact ⟨i, hi, hqueue ▸ hq⟩
  refine h.next hs (fun q hq => ?_) (fun q _ hq => .inl (hmono q (Queued.pushProc hq)))
    fun d => ?_
  · by_cases hqp : q = p
    · subst hqp
      exact .inr (hmono q (queued_pushProc (by simpa using hlevel) (by simpa using hroom)))
    · exact .inl (by simpa [hproc, hqp] using hq)
  · rcases hcpu d with heq | hrun
    · exact .inl heq
    · exact .inr (by simp [hrun])

/-- The boost's visit leaves the visited process in queue 0 if it is runnable. -/
theorem Listed.refill (h : Listed s) (hpc : (s.cpu c).pc = .refill j)
    (hroom : boosts (s.proc j) → (s.queue 0).length < nproc) (hs : Sane s')
    (heq : s' = (boostProc s j).setPc c (if j + 1 < nproc then .refill (j + 1) else .scan 0)) :
    Listed s' := by
  have hqueue : ∀ i q, q ∈ s.queue i → q ∈ s'.queue i := by
    intro i q hq
    rw [heq]
    by_cases hb : boosts (s.proc j)
    · rw [boostProc_of_boosts hb (hroom hb)]
      by_cases hi : i = 0
      · subst hi
        simp [hq]
      · simpa [hi] using hq
    · rw [boostProc_of_not_boosts hb]
      exact hq
  have hstate : ∀ q, (s'.proc q).state = (s.proc q).state := by
    intro q
    rw [heq]
    exact boostProc_state
  refine ⟨hs, fun q hq => ?_⟩
  rw [hstate] at hq
  by_cases hqj : q = j
  · -- the visited process itself
    subst hqj
    have hb : boosts (s.proc q) := by simp [boosts, hq]
    refine .inl ⟨0, by decide, ?_⟩
    rw [heq, boostProc_of_boosts hb (hroom hb)]
    simp
  · rcases h.listed q hq with ⟨i, hi, hmem⟩ | ⟨d, i, hd⟩ | ⟨d, hd⟩
    · exact .inl ⟨i, hi, hqueue i q hmem⟩
    · have hdc : d ≠ c := by
        rintro rfl
        rw [hpc] at hd
        cases hd
      exact .inr (.inl ⟨d, i, by simpa [heq, hdc] using hd⟩)
    · by_cases hdc : d = c
      · subst hdc
        rw [hpc] at hd
        rcases hd with ⟨i, hd⟩ | ⟨j', hle, hd⟩
        · cases hd
        · cases hd
          have hqn : q < nproc := by
            by_contra hge
            rw [h.bound q (by omega)] at hq
            cases hq
          refine .inr (.inr ⟨d, .inr ⟨j + 1, by omega, ?_⟩⟩)
          rw [heq]
          simp [show j + 1 < nproc by omega]
      · exact .inr (.inr ⟨d, by simpa [heq, hdc] using hd⟩)

/-- **Every step keeps the runnable processes listed**, if what it pushes finds room and what
it kills is in a queue. -/
theorem Listed.move (h : Listed s) (hroom : HasRoom s l) (hkill : KillsQueued s l)
    (hm : Move s l s') : Listed s' := by
  have hs := h.toSane.move hm
  cases hm with
  | userinit hall =>
    exact h.push (p := 0) (t := { (s.proc 0).fresh s.nextpid with state := .runnable }) hs
      (by simp [userinit]) (pushProc_queue_congr rfl rfl) (by simp [Task.fresh, levels]) hroom
      fun d => .inl (by simp [userinit])
  | @boost c hpc => exact ⟨hs, fun p _ => .inr (.inr ⟨c, .inl ⟨0, by simp⟩⟩)⟩
  | @enter c hpc => exact h.setPc hs (by simp [hpc]) (by simp [hpc]) (by simp [hpc])
  | @clear c i hpc =>
    -- the boost has every process still to visit
    refine ⟨hs, fun p _ => .inr (.inr ⟨c, ?_⟩)⟩
    by_cases hi : i + 1 < levels
    · exact .inl ⟨i + 1, by simp [hi]⟩
    · exact .inr ⟨0, Nat.zero_le p, by simp [hi]⟩
  | @refill c j hpc => exact h.refill hpc (hroom j hpc) hs rfl
  | @pop c i p rest hpc hq =>
    refine h.next hs (fun q hq => .inl hq) (fun q _ hmem => ?_) fun d => ?_
    · obtain ⟨i', hi', hmem⟩ := hmem
      by_cases hqp : q = p
      · subst hqp
        exact .inr ⟨c, i, by simp⟩
      · refine .inl ⟨i', hi', ?_⟩
        by_cases hii : i' = i
        · subst hii
          rw [hq, List.mem_cons] at hmem
          simpa [hq] using hmem.resolve_left hqp
        · simpa [hii] using hmem
    · by_cases hd : d = c
      · subst hd
        exact .inr (by simp [hpc])
      · exact .inl (by simp [hd])
  | @skip c i hpc => exact h.setPc hs (by simp [hpc]) (by simp [hpc]) (by simp [hpc])
  | @dispatch c i p hpc hst =>
    have hne : ∀ q, ((dispatch s c p).proc q).state = .runnable → q ≠ p := by
      rintro q hq rfl
      simp [dispatch] at hq
    refine h.next hs (fun q hq => .inl ?_) (fun q _ hmem => .inl hmem) fun d => ?_
    · simpa [dispatch, hne q hq] using hq
    · by_cases hd : d = c
      · subst hd
        refine .inr ⟨fun q i' hq heq => ?_, by simp [hpc], by simp [hpc]⟩
        rw [hpc] at heq
        cases heq
        exact hne p hq rfl
      · exact .inl (by simp [dispatch, hd])
  | @discard c i p hpc hst =>
    refine h.setPc hs (fun q i' hq heq => ?_) (by simp [hpc]) (by simp [hpc])
    rw [hpc] at heq
    cases heq
    exact hst hq
  | clockintr => exact h.next hs (fun _ hp => .inl hp) (fun _ _ hq => .inl hq) fun _ => .inl rfl
  | @eventTick c p hp =>
    have hrun := h.pc_running hp
    simp only [eventTick] at hs ⊢
    split
    · rename_i hy
      rw [if_pos hy] at hs
      refine h.push (p := p) (t := { (tickTask s (s.proc p)).1 with state := .runnable }) hs (by simp)
        (by simp) (tickTask_level (h.level p)) (hroom p hp hy) fun d => ?_
      by_cases hd : d = c
      · exact .inr (hd ▸ hrun)
      · exact .inl (by simp [hd])
    · rename_i hy
      rw [if_neg hy] at hs
      exact h.setTask hs fun ht => .inl (tickTask_state ▸ ht)
  | syscall hp => exact h.setTask hs fun ht => .inl ht
  | @sleep c p chan hp =>
    have hrun := h.pc_running hp
    refine h.next hs (fun q hq => ?_) (fun q _ hq => .inl hq) fun d => ?_
    · by_cases hqp : q = p
      · simp [sleep, hqp] at hq
      · exact .inl (by simpa [sleep, hqp] using hq)
    · by_cases hd : d = c
      · exact .inr (by simp [hd, hrun])
      · exact .inl (by simp [sleep, hd])
  | @wakeup c chan j hj =>
    simp only [wakeup] at hs ⊢
    split
    · rename_i hsl
      rw [if_pos hsl] at hs
      exact h.push (p := j) hs (by simp) rfl (h.level j) (hroom hsl.1 hsl.2) fun d => .inl (by simp)
    · exact h
  | @kkill c pid j hj =>
    simp only [kkill] at hs ⊢
    split
    · rename_i hpid
      rw [if_pos hpid] at hs
      refine h.setTask hs fun ht => ?_
      by_cases hsl : (s.proc j).state = .sleeping
      · exact .inr (hkill hpid hsl)
      · exact .inl (by simpa [hsl] using ht)
    · exact h
  | @forkAlloc c p j mem hp hj hst =>
    refine h.next hs (fun q hq => .inl ?_) (fun q _ hq => .inl ?_) fun d => .inl ?_
    · have hqj : q ≠ j := by
        rintro rfl
        cases mem <;> simp [forkAlloc, Task.free, Task.fresh] at hq
      cases mem <;> simpa [forkAlloc, hqj] using hq
    · cases mem <;> exact hq
    · cases mem <;> rfl
  | forkParent hp hnp => exact h.setTask hs fun ht => .inl ht
  | @forkStart c p np hp hnp =>
    exact h.push (p := np) (t := { s.proc np with state := .runnable }) hs (by simp [forkStart])
      (by simp [forkStart]) (h.level np) (hroom p np hp hnp) fun d => .inl (by simp [forkStart])
  | reparent => exact h.setTask hs fun ht => .inl ht
  | @exit c p hp =>
    have hrun := h.pc_running hp
    refine h.next hs (fun q hq => ?_) (fun q _ hq => .inl hq) fun d => ?_
    · by_cases hqp : q = p
      · simp [hqp] at hq
      · exact .inl (by simpa [hqp] using hq)
    · by_cases hd : d = c
      · exact .inr (by simp [hd, hrun])
      · exact .inl (by simp [hd])
  | reap hst => exact h.setTask hs fun ht => absurd ht (by simp [Task.free])

/-- The steps under which no runnable process is lost. -/
def Keeps (s : State) (l : Event) : Prop := HasRoom s l ∧ KillsQueued s l

/-- **No runnable process is lost**, in runs whose pushes find room and in which `kkill` wakes
no sleeping process that is in no queue: in every state reached in which no scheduler holds a
just-popped entry and no boost is under way, every runnable process is in a queue. -/
theorem runnable_queued (h : Reach (· = boot) step Keeps s) (hheld : ∀ p, ¬Held s p)
    (hboost : ¬Boosting s) (hp : (s.proc p).state = .runnable) : Queued s p := by
  have hlisted : Listed s := by
    refine h.inv ?_ fun s l s' ih hok hs => ih.move hok.1 hok.2 (step_move hs)
    rintro s rfl
    exact ⟨idle_boot.sane, fun p hp => absurd hp (by simp [boot])⟩
  rcases hlisted.listed p hp with hq | hh | ⟨c, hc⟩
  · exact hq
  · exact absurd hh (hheld p)
  · refine absurd ⟨c, ?_⟩ hboost
    rcases hc with hc | ⟨j, -, hc⟩
    · exact .inl hc
    · exact .inr ⟨j, hc⟩

/-- After `userinit` the first process is in queue 0. -/
theorem runnable_queued_first : Queued (userinit boot) 0 := by
  have hreach : Reach (· = boot) step Keeps (userinit boot) :=
    reach_boot.step (l := .userinit) ⟨show (boot.queue 0).length < nproc by decide, trivial⟩
      (by rw [step, if_pos]; decide +kernel)
  refine runnable_queued hreach ?_ ?_ (by decide)
  · rintro p ⟨c, i, hc⟩
    simp [userinit, boot] at hc
  · rintro ⟨c, hc⟩
    simp [userinit, boot] at hc

/-- The first process forks a child, which another CPU runs; the child sleeps and the parent
kills it. -/
def killSleeper : List Event :=
  dispatchFirst ++ [.forkAlloc 1 1 .full, .forkParent 1, .forkStart 1, .mlfq 2, .mlfq 2, .mlfq 2,
    .sleep 2 7, .kkill 1 2 0, .kkill 1 2 1]

/-- The state in which the child has been killed. -/
def sleeperKilled : State := (runAll Any step boot killSleeper).get (by decide +kernel)

/-- Both CPUs run a process, the child is runnable, and the queues are empty. -/
theorem sleeperKilled_facts : (sleeperKilled.cpu 1).pc = .running ∧
    (sleeperKilled.cpu 2).pc = .top ∧ (sleeperKilled.proc 1).state = .runnable ∧
    ∀ i < levels, sleeperKilled.queue i = [] := by decide +kernel

theorem sleeperKilled_cpu (c : ℕ) :
    (sleeperKilled.cpu c).pc = .top ∨ (sleeperKilled.cpu c).pc = .running := by
  by_cases h1 : c = 1
  · subst h1
    exact .inr sleeperKilled_facts.1
  · by_cases h2 : c = 2
    · subst h2
      exact .inl sleeperKilled_facts.2.1
    · refine .inl ?_
      have hcpu : sleeperKilled.cpu c = boot.cpu c := by
        refine runAll_cpu (Option.some_get _).symm fun l hl => ?_
        simp only [killSleeper, dispatchFirst, List.mem_append, List.mem_cons, List.not_mem_nil,
          or_false] at hl
        rcases hl with (rfl | rfl | rfl | rfl) | rfl | rfl | rfl | rfl | rfl | rfl | rfl | rfl | rfl
        all_goals simp [Event.cpu, Ne.symm h1, Ne.symm h2]
      rw [hcpu]
      rfl

/-- A sleeping child that is killed becomes runnable and is in no queue, though no scheduler
holds it and no boost is under way. -/
theorem killed_sleeper_lost : Reach (· = boot) step Any sleeperKilled ∧
    (∀ p, ¬Held sleeperKilled p) ∧ ¬Boosting sleeperKilled ∧
    (sleeperKilled.proc 1).state = .runnable ∧ ¬Queued sleeperKilled 1 := by
  refine ⟨reach_boot.runAll_get _, ?_, ?_, sleeperKilled_facts.2.2.1, ?_⟩
  · rintro p ⟨c, i, hc⟩
    rcases sleeperKilled_cpu c with h | h <;> simp [h] at hc
  · rintro ⟨c, hc⟩
    rcases sleeperKilled_cpu c with h | h <;> simp [h] at hc
  · rintro ⟨i, hi, hmem⟩
    rw [sleeperKilled_facts.2.2.2 i hi] at hmem
    cases hmem

/-! ### The queues hold runnable processes, once and at their level -/

/-- The boost enqueues only a runnable process that is in no queue and that no scheduler
holds. -/
def BoostClean (s : State) : Event → Prop
  | .mlfq c => ∀ j, (s.cpu c).pc = .refill j → boosts (s.proc j) →
      (s.proc j).state = .runnable ∧ ¬Queued s j ∧ ¬Held s j
  | _ => True

/-- Each entry is a runnable process at its level, and no process has two entries, those
that schedulers hold included. -/
structure Tidy (s : State) : Prop extends Sane s where
  entry : ∀ i p, p ∈ s.queue i → (s.proc p).state = .runnable ∧ (s.proc p).qlevel = i
  nodup : ∀ i, (s.queue i).Nodup
  held : ∀ c i p, (s.cpu c).pc = .popped i p →
    (s.proc p).state = .runnable ∧ ∀ i', p ∉ s.queue i'
  holder : ∀ c c' i i' p, (s.cpu c).pc = .popped i p → (s.cpu c').pc = .popped i' p → c = c'

theorem Tidy.not_mem (h : Tidy s) (hp : (s.proc p).state ≠ .runnable) (i : ℕ) :
    p ∉ s.queue i := fun hmem => hp (h.entry i p hmem).1

theorem Sane.lt_nproc (h : Sane s) (hp : (s.proc p).state ≠ .unused) : p < nproc := by
  by_contra hge
  exact hp (h.bound p (by omega))

/-- A queue that misses a process has room. -/
theorem Tidy.room (h : Tidy s) (hp : p < nproc) (hmem : p ∉ s.queue i) :
    (s.queue i).length < nproc := by
  have hsub : p :: s.queue i ⊆ List.range nproc := by
    intro q hq
    rw [List.mem_range]
    rcases List.mem_cons.mp hq with rfl | hq
    · exact hp
    · exact h.lt_nproc (by simp [(h.entry i q hq).1])
  have hlen := (List.subperm_of_subset (List.nodup_cons.mpr ⟨hmem, h.nodup i⟩) hsub).length_le
  rw [List.length_cons, List.length_range] at hlen
  omega

/-- The queues stay, runnable processes keep state and level, and no entry is popped. -/
theorem Tidy.next (h : Tidy s) (hs : Sane s') (hq : s'.queue = s.queue)
    (hproc : ∀ p, (s.proc p).state = .runnable →
      (s'.proc p).state = .runnable ∧ (s'.proc p).qlevel = (s.proc p).qlevel)
    (hcpu : ∀ d i p, (s'.cpu d).pc = .popped i p → (s.cpu d).pc = .popped i p) : Tidy s' := by
  refine ⟨hs, fun i p hp => ?_, fun i => hq ▸ h.nodup i, fun d i p hd => ?_,
    fun d d' i i' p hd hd' => h.holder d d' i i' p (hcpu d i p hd) (hcpu d' i' p hd')⟩
  · obtain ⟨hst, hlevel⟩ := h.entry i p (hq ▸ hp)
    exact ⟨(hproc p hst).1, (hproc p hst).2.trans hlevel⟩
  · obtain ⟨hst, hmem⟩ := h.held d i p (hcpu d i p hd)
    exact ⟨(hproc p hst).1, hq ▸ hmem⟩

/-- A CPU moves on without popping. -/
theorem Tidy.setPc {pc : Pc} (h : Tidy s) (hs : Sane (s.setPc c pc))
    (hpc : ∀ i p, pc ≠ .popped i p) : Tidy (s.setPc c pc) := by
  refine h.next hs rfl (fun p hp => ⟨hp, rfl⟩) fun d i p hd => ?_
  by_cases hdc : d = c
  · simp only [setPc_cpu, hdc, Function.update_self] at hd
    exact absurd hd (hpc i p)
  · simpa [hdc] using hd

/-- A process that is not runnable changes and stays so. -/
theorem Tidy.setTask {t : Task} (h : Tidy s) (hs : Sane (s.setTask j t))
    (ht : (s.proc j).state = .runnable →
      t.state = .runnable ∧ t.qlevel = (s.proc j).qlevel) : Tidy (s.setTask j t) := by
  refine h.next hs rfl (fun p hp => ?_) fun _ _ _ hd => hd
  by_cases hpj : p = j
  · subst hpj
    simpa using ht hp
  · simp [hpj, hp]

/-- The process on a CPU stops running and leaves it. -/
theorem Tidy.leave {t : Task} (h : Tidy s) (hp : (s.cpu c).proc = some p) (hs : Sane s')
    (heq : s' = (s.setTask p t).leave c) : Tidy s' := by
  have hrun := h.running c p hp
  subst heq
  refine h.next hs rfl (fun q hq => ?_) fun d i q hd => ?_
  · have hqp : q ≠ p := by
      rintro rfl
      rw [hrun] at hq
      cases hq
    simp [hqp, hq]
  · by_cases hdc : d = c
    · simp [hdc] at hd
    · simpa [hdc] using hd

/-- A process becomes runnable and is pushed. -/
theorem Tidy.push {t : Task} (h : Tidy s) (hs : Sane s')
    (hproc : s'.proc = Function.update s.proc p t)
    (hqueue : s'.queue = (pushProc (s.setTask p t) p).queue) (hp : p < nproc)
    (hmem : ∀ i, p ∉ s.queue i) (hheld : ∀ d i, (s.cpu d).pc ≠ .popped i p)
    (ht : t.state = .runnable)
    (hcpu : ∀ d i q, (s'.cpu d).pc = .popped i q → (s.cpu d).pc = .popped i q) : Tidy s' := by
  have hroom := h.room hp (hmem t.qlevel)
  have hq' : s'.queue = Function.update s.queue t.qlevel (s.queue t.qlevel ++ [p]) := by
    rw [hqueue, pushProc_queue (by simpa using hroom)]
    simp
  have hne : ∀ {i q}, q ∈ s.queue i → q ≠ p := by
    rintro i q hq rfl
    exact hmem i hq
  have hmem' : ∀ i q, q ∈ s'.queue i → q ∈ s.queue i ∨ q = p ∧ i = t.qlevel := by
    intro i q hq
    rw [hq'] at hq
    by_cases hi : i = t.qlevel
    · subst hi
      simpa using hq
    · exact .inl (by simpa [hi] using hq)
  refine ⟨hs, fun i q hq => ?_, fun i => ?_, fun d i q hd => ?_, fun d d' i i' q hd hd' =>
    h.holder d d' i i' q (hcpu d i q hd) (hcpu d' i' q hd')⟩
  · rcases hmem' i q hq with hq | ⟨rfl, rfl⟩
    · simpa [hproc, hne hq] using h.entry i q hq
    · simp [hproc, ht]
  · rw [hq']
    by_cases hi : i = t.qlevel
    · subst hi
      rw [Function.update_self]
      refine List.nodup_append.mpr ⟨h.nodup _, by simp, fun x hx y hy => ?_⟩
      rw [List.mem_singleton.mp hy]
      exact hne hx
    · rw [Function.update_of_ne hi]
      exact h.nodup i
  · have hold := hcpu d i q hd
    have hqp : q ≠ p := by
      rintro rfl
      exact hheld d i hold
    obtain ⟨hst, hno⟩ := h.held d i q hold
    refine ⟨by simpa [hproc, hqp] using hst, fun i' hq => ?_⟩
    rcases hmem' i' q hq with hq | ⟨rfl, -⟩
    · exact hno i' hq
    · exact hqp rfl

/-- A queue is emptied. -/
theorem Tidy.clear (h : Tidy s) (hs : Sane s') (hproc : s'.proc = s.proc)
    (hq : s'.queue = Function.update s.queue i [])
    (hcpu : ∀ d i p, (s'.cpu d).pc = .popped i p → (s.cpu d).pc = .popped i p) : Tidy s' := by
  have hmem : ∀ i' p, p ∈ s'.queue i' → p ∈ s.queue i' := by
    intro i' p hp
    rw [hq] at hp
    by_cases hi : i' = i
    · simp [hi] at hp
    · simpa [hi] using hp
  refine ⟨hs, fun i' p hp => hproc ▸ h.entry i' p (hmem i' p hp), fun i' => ?_,
    fun d i' p hd => ?_, fun d d' i' i'' p hd hd' =>
    h.holder d d' i' i'' p (hcpu d i' p hd) (hcpu d' i'' p hd')⟩
  · rw [hq]
    by_cases hi : i' = i
    · simp [hi]
    · rw [Function.update_of_ne hi]
      exact h.nodup i'
  · obtain ⟨hst, hno⟩ := h.held d i' p (hcpu d i' p hd)
    exact ⟨hproc ▸ hst, fun i'' hp => hno i'' (hmem i'' p hp)⟩

/-- A scheduler pops the head of a queue. -/
theorem Tidy.pop {rest : List ℕ} (h : Tidy s) (hq : s.queue i = p :: rest)
    (hs : Sane ((popProc s i).setPc c (.popped i p))) :
    Tidy ((popProc s i).setPc c (.popped i p)) := by
  have hpi : p ∈ s.queue i := hq ▸ List.mem_cons_self
  have hmem : ∀ i' q, q ∈ ((popProc s i).setPc c (.popped i p)).queue i' →
      q ∈ s.queue i' ∧ q ≠ p := by
    intro i' q hmem
    by_cases hi : i' = i
    · subst hi
      have hnd := h.nodup i'
      rw [hq, List.nodup_cons] at hnd
      have hqr : q ∈ rest := by simpa [hq] using hmem
      exact ⟨hq ▸ List.mem_cons_of_mem p hqr, fun heq => hnd.1 (heq ▸ hqr)⟩
    · have hqi : q ∈ s.queue i' := by simpa [hi] using hmem
      refine ⟨hqi, ?_⟩
      rintro rfl
      exact hi ((h.entry i' q hqi).2.symm.trans (h.entry i q hpi).2)
  have hpc : ∀ d i' q, (((popProc s i).setPc c (.popped i p)).cpu d).pc = .popped i' q →
      d = c ∧ q = p ∨ d ≠ c ∧ (s.cpu d).pc = .popped i' q := by
    intro d i' q hd
    by_cases hdc : d = c
    · subst hdc
      simp only [setPc_cpu, Function.update_self, Pc.popped.injEq] at hd
      exact .inl ⟨rfl, hd.2.symm⟩
    · exact .inr ⟨hdc, by simpa [hdc] using hd⟩
  refine ⟨hs, fun i' q hq => h.entry i' q (hmem i' q hq).1, fun i' => ?_, fun d i' q hd => ?_,
    fun d d' i' i'' q hd hd' => ?_⟩
  · by_cases hi : i' = i
    · subst hi
      simpa using (h.nodup i').sublist (List.tail_sublist _)
    · simpa [hi] using h.nodup i'
  · rcases hpc d i' q hd with ⟨-, rfl⟩ | ⟨-, hd⟩
    · exact ⟨(h.entry i q hpi).1, fun i'' hq => (hmem i'' q hq).2 rfl⟩
    · obtain ⟨hst, hno⟩ := h.held d i' q hd
      exact ⟨hst, fun i'' hq => hno i'' (hmem i'' q hq).1⟩
  · rcases hpc d i' q hd with ⟨hdc, hqp⟩ | ⟨-, hold⟩ <;>
      rcases hpc d' i'' q hd' with ⟨hdc', hqp'⟩ | ⟨-, hold'⟩
    · exact hdc.trans hdc'.symm
    · exact absurd hpi ((h.held d' i'' p (hqp ▸ hold')).2 i)
    · exact absurd hpi ((h.held d i' p (hqp' ▸ hold)).2 i)
    · exact h.holder d d' i' i'' q hold hold'

/-- A scheduler dispatches the entry it holds. -/
theorem Tidy.dispatch (h : Tidy s) (hpc : (s.cpu c).pc = .popped i p)
    (hs : Sane (dispatch s c p)) : Tidy (dispatch s c p) := by
  have hold : ∀ d i' q, ((Sched.dispatch s c p).cpu d).pc = .popped i' q →
      (s.cpu d).pc = .popped i' q ∧ q ≠ p := by
    intro d i' q hd
    by_cases hdc : d = c
    · simp [Sched.dispatch, hdc] at hd
    · have hds : (s.cpu d).pc = .popped i' q := by simpa [Sched.dispatch, hdc] using hd
      refine ⟨hds, ?_⟩
      rintro rfl
      exact hdc (h.holder d c i' i q hds hpc)
  refine ⟨hs, fun i' q hq => ?_, h.nodup, fun d i' q hd => ?_,
    fun d d' i' i'' q hd hd' => h.holder d d' i' i'' q (hold d i' q hd).1 (hold d' i'' q hd').1⟩
  · have hqp : q ≠ p := by
      rintro rfl
      exact (h.held c i q hpc).2 i' hq
    simpa [Sched.dispatch, hqp] using h.entry i' q hq
  · obtain ⟨hd, hqp⟩ := hold d i' q hd
    obtain ⟨hst, hno⟩ := h.held d i' q hd
    exact ⟨by simpa [Sched.dispatch, hqp] using hst, hno⟩

/-- The boost visits a process it may enqueue. -/
theorem Tidy.refill {pc : Pc} (h : Tidy s) (hpc : ∀ i p, pc ≠ .popped i p)
    (hclean : boosts (s.proc j) → (s.proc j).state = .runnable ∧ ¬Queued s j ∧ ¬Held s j)
    (hs : Sane ((boostProc s j).setPc c pc)) : Tidy ((boostProc s j).setPc c pc) := by
  have hcpu : ∀ d i p, (((boostProc s j).setPc c pc).cpu d).pc = .popped i p →
      (s.cpu d).pc = .popped i p := by
    intro d i p hd
    by_cases hdc : d = c
    · simp only [setPc_cpu, hdc, Function.update_self] at hd
      exact absurd hd (hpc i p)
    · simpa [hdc] using hd
  by_cases hb : boosts (s.proc j)
  · obtain ⟨hst, hnq, hnh⟩ := hclean hb
    have hmem : ∀ i, j ∉ s.queue i := fun i hj =>
      hnq ⟨i, (h.entry i j hj).2 ▸ h.level j, hj⟩
    have hj : j < nproc := h.lt_nproc (by simp [hst])
    have hroom := h.room hj (hmem 0)
    rw [boostProc_of_boosts hb hroom] at hs hcpu ⊢
    refine h.push (p := j) hs rfl ?_ hj hmem (fun d i hd => hnh ⟨d, i, hd⟩) hst hcpu
    rw [pushProc_queue (by simpa [Task.boosted] using hroom)]
    simp [Task.boosted]
  · rw [boostProc_of_not_boosts hb] at hs hcpu ⊢
    exact h.setPc hs hpc

theorem nextLevel_ne_popped (i' : ℕ) (q : ℕ) : nextLevel i ≠ .popped i' q := by
  rw [nextLevel]
  split <;> simp

/-- **Every step keeps the queues tidy**, if the boost is clean. -/
theorem Tidy.move (h : Tidy s) (hclean : BoostClean s l) (hm : Move s l s') : Tidy s' := by
  have hs := h.toSane.move hm
  -- a process that is not runnable has no entry, in a queue or in a scheduler's hand
  have hno : ∀ {p}, (s.proc p).state ≠ .runnable → ∀ d i, (s.cpu d).pc ≠ .popped i p :=
    fun hp d i hd => hp (h.held d i _ hd).1
  cases hm with
  | userinit hall =>
    have h0 : (s.proc 0).state ≠ .runnable := by simp [hall 0 (by decide)]
    exact h.push (p := 0) (t := { (s.proc 0).fresh s.nextpid with state := .runnable }) hs
      (by simp [userinit]) (pushProc_queue_congr rfl rfl) (by decide) (h.not_mem h0) (hno h0) rfl
      fun d i q hd => by simpa [userinit] using hd
  | boost hpc =>
    refine Tidy.setPc (h.next ?_ rfl (fun p hp => ⟨hp, rfl⟩) fun _ _ _ hd => hd) hs (by simp)
    exact h.toSane.keep (fun _ => rfl) h.level (fun _ => rfl) (fun _ hc => hc) rfl
  | enter hpc => exact h.setPc hs (by simp)
  | @clear c i hpc =>
    refine h.clear hs rfl rfl fun d i' p hd => ?_
    by_cases hdc : d = c
    · subst hdc
      by_cases hi : i + 1 < levels <;> simp [hi] at hd
    · simpa [hdc] using hd
  | @refill c j hpc =>
    refine h.refill (fun i p => ?_) (hclean j hpc) hs
    split <;> simp
  | pop hpc hq => exact h.pop hq hs
  | skip hpc => exact h.setPc hs nextLevel_ne_popped
  | dispatch hpc hst => exact h.dispatch hpc hs
  | discard hpc hst => exact h.setPc hs nextLevel_ne_popped
  | clockintr => exact h.next hs rfl (fun p hp => ⟨hp, rfl⟩) fun _ _ _ hd => hd
  | @eventTick c p hp =>
    have hrun := h.running c p hp
    have hnr : (s.proc p).state ≠ .runnable := by simp [hrun]
    simp only [eventTick] at hs ⊢
    split
    · rename_i hy
      rw [if_pos hy] at hs
      refine h.push (p := p) (t := { (tickTask s (s.proc p)).1 with state := .runnable }) hs
        (by simp) (by simp) (h.lt_nproc (by simp [hrun])) (h.not_mem hnr) (hno hnr) rfl
        fun d i q hd => ?_
      by_cases hdc : d = c
      · simp [hdc] at hd
      · simpa [hdc] using hd
    · rename_i hy
      rw [if_neg hy] at hs
      exact h.setTask hs fun ht => absurd ht hnr
  | syscall hp => exact h.setTask hs fun ht => ⟨ht, rfl⟩
  | sleep hp => exact h.leave hp hs rfl
  | @wakeup c chan j hj =>
    simp only [wakeup] at hs ⊢
    split
    · rename_i hsl
      have hnr : (s.proc j).state ≠ .runnable := by simp [hsl.1]
      rw [if_pos hsl] at hs
      exact h.push (p := j) hs (by simp) rfl hj (h.not_mem hnr) (hno hnr) rfl
        fun d i q hd => by simpa using hd
    · exact h
  | @kkill c pid j hj =>
    simp only [kkill] at hs ⊢
    split
    · rename_i hpid
      rw [if_pos hpid] at hs
      exact h.setTask hs fun ht => by simp [ht]
    · exact h
  | @forkAlloc c p j mem hp hj hst =>
    refine h.next hs ?_ (fun q hq => ?_) fun d i q hd => ?_
    · cases mem <;> rfl
    · have hqj : q ≠ j := by
        rintro rfl
        rw [hst] at hq
        cases hq
      cases mem <;> simp [forkAlloc, hqj, hq]
    · cases mem <;> exact hd
  | forkParent hp hnp => exact h.setTask hs fun ht => ⟨ht, rfl⟩
  | @forkStart c p np hp hnp =>
    have hu := h.used p np hnp
    have hnr : (s.proc np).state ≠ .runnable := by simp [hu]
    exact h.push (p := np) (t := { s.proc np with state := .runnable }) hs (by simp [forkStart])
      (by simp [forkStart]) (h.lt_nproc (by simp [hu])) (h.not_mem hnr) (hno hnr) rfl
      fun d i q hd => by simpa [forkStart] using hd
  | reparent => exact h.setTask hs fun ht => ⟨ht, rfl⟩
  | exit hp => exact h.leave hp hs rfl
  | reap hst => exact h.setTask hs fun ht => absurd (hst.symm.trans ht) (by simp)

/-- With tidy queues every push has room. -/
theorem Tidy.hasRoom (h : Tidy s) (hclean : BoostClean s l) (hs : step s l = some s') :
    HasRoom s l := by
  have hroom : ∀ {p i}, (s.proc p).state ≠ .unused → (s.proc p).state ≠ .runnable →
      (s.queue i).length < nproc := fun hu hr => h.room (h.lt_nproc hu) (h.not_mem hr _)
  cases step_move hs with
  | userinit hall => exact h.room (p := 0) (by decide) (h.not_mem (by simp [hall 0 (by decide)]) 0)
  | eventTick =>
    intro p hp _
    have hrun := h.running _ p hp
    exact hroom (p := p) (by simp [hrun]) (by simp [hrun])
  | @wakeup c chan j hj =>
    intro hsl _
    exact hroom (p := j) (by simp [hsl]) (by simp [hsl])
  | forkStart =>
    intro p np _ hnp
    have hu := h.used p np hnp
    exact hroom (p := np) (by simp [hu]) (by simp [hu])
  | refill =>
    intro j hj hb
    obtain ⟨hst, hnq, -⟩ := hclean j hj hb
    exact h.room (h.lt_nproc (p := j) (by simp [hst])) fun hmem => hnq ⟨0, by decide, hmem⟩
  | boost hpc | enter hpc | clear hpc | pop hpc | skip hpc | dispatch hpc | discard hpc =>
    intro j hj
    rw [hpc] at hj
    cases hj
  | clockintr | syscall | sleep | kkill | forkAlloc | forkParent | reparent | exit | reap =>
    trivial

/-- **The queues hold no duplicates and no stale entries**, in runs whose boosts enqueue only
runnable processes that have no entry: over all queues together each process occurs at most
once, only while it is runnable and in the queue of its level. So no queue has more than
`NPROC` entries and no push is dropped. -/
theorem queues_exact (h : Reach (· = boot) step BoostClean s) :
    ((List.range levels).flatMap s.queue).Nodup ∧
    (∀ i p, p ∈ s.queue i → (s.proc p).state = .runnable ∧ (s.proc p).qlevel = i) ∧
    (∀ i, (s.queue i).length ≤ nproc) ∧
    ∀ l s', BoostClean s l → step s l = some s' → HasRoom s l := by
  have htidy : Tidy s := by
    refine h.inv ?_ fun s l s' ih hok hs => ih.move hok (step_move hs)
    rintro s rfl
    exact ⟨idle_boot.sane, by simp [boot], by simp [boot], by simp [boot], by simp [boot]⟩
  refine ⟨?_, htidy.entry, fun i => ?_, fun l s' hok hs => htidy.hasRoom hok hs⟩
  · rw [List.nodup_flatMap]
    refine ⟨fun i _ => htidy.nodup i, List.nodup_range.imp fun {i i'} hne => ?_⟩
    refine List.disjoint_left.mpr fun p hp hp' => hne ?_
    exact (htidy.entry i p hp).2.symm.trans (htidy.entry i' p hp').2
  · have hsub : s.queue i ⊆ List.range nproc := fun p hp =>
      List.mem_range.mpr (htidy.lt_nproc (by simp [(htidy.entry i p hp).1]))
    simpa using (List.subperm_of_subset (htidy.nodup i) hsub).length_le

/-- After `userinit` queue 0 has the first process, which is runnable at level 0. -/
theorem queues_exact_first : 0 ∈ (userinit boot).queue 0 ∧
    ((userinit boot).proc 0).state = .runnable ∧ ((userinit boot).proc 0).qlevel = 0 := by
  have hreach : Reach (· = boot) step BoostClean (userinit boot) :=
    reach_boot.step (l := .userinit) trivial (by rw [step, if_pos]; decide +kernel)
  have hmem : 0 ∈ (userinit boot).queue 0 := by decide
  exact ⟨hmem, (queues_exact hreach).2.1 0 0 hmem⟩

/-- While CPU 1 runs the first process, tick 128 comes and CPU 0 makes the boost, up to its
visit of that process. -/
def boostRunning : List Event :=
  dispatchFirst ++ .replicate 128 .clockintr ++ .replicate 6 (.mlfq 0)

/-- The state in the middle of that boost. -/
def runningBoosted : State := (runAll Any step boot boostRunning).get (by decide +kernel)

/-- The boost enqueues a running process. -/
theorem running_process_queued : Reach (· = boot) step Any runningBoosted ∧
    0 ∈ runningBoosted.queue 0 ∧ (runningBoosted.proc 0).state = .running := by
  refine ⟨reach_boot.runAll_get _, ?_⟩
  decide +kernel

end Sched

end Xv6
