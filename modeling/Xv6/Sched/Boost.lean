import Xv6.Sched.Queues

/-!
# The boost

Every 128 ticks CPU 0 empties the queues and visits the process table, to start every process
anew at level 0.

* What the boost does when nothing comes between its sections is computed exactly (`boost_proc`,
  `boost_queue`). It leaves sleeping processes where they are, and it also enqueues processes that
  are running or still being made, so it does what it is for exactly when there are none of these.
* Whether a boost is due is asked with the tick that the scheduler happens to read, and only a
  multiple of 128 will do. A multiple that falls between two readings is therefore missed; a
  multiple that is read is never used twice.
-/

namespace Xv6

namespace Sched

open Transition

variable {s s' : State} {c i j n p : ℕ}

instance (t : Task) : Decidable (boosts t) :=
  inferInstanceAs (Decidable (t.state ≠ .unused ∧ t.state ≠ .zombie ∧ t.state ≠ .sleeping))

/-! ### The section as a whole -/

/-- The boost empties the queues. -/
def clearQueues (s : State) : State := (List.range levels).foldl (fun s i => s.setQueue i []) s

/-- The boost, with nothing between its sections. -/
def boost (s : State) : State := (List.range nproc).foldl boostProc (clearQueues s)

theorem setPc_setPc (a b : Pc) : (s.setPc c a).setPc c b = s.setPc c b := by
  simp [State.setPc, State.setCpu]

theorem boostProc_of_full (h : boosts (s.proc j)) (hfull : ¬(s.queue 0).length < nproc) :
    boostProc s j = s.setTask j (s.proc j).boosted := by
  rw [boosts] at h
  simp only [boostProc, if_pos h]
  exact if_neg hfull

theorem boostProc_setPc (a : Pc) : boostProc (s.setPc c a) j = (boostProc s j).setPc c a := by
  by_cases hb : boosts (s.proc j)
  · by_cases hroom : (s.queue 0).length < nproc
    · rw [boostProc_of_boosts hb hroom, boostProc_of_boosts (s := s.setPc c a) hb hroom]
      rfl
    · rw [boostProc_of_full hb hroom, boostProc_of_full (s := s.setPc c a) hb hroom]
      rfl
  · rw [boostProc_of_not_boosts hb, boostProc_of_not_boosts (s := s.setPc c a) hb]

theorem clear_runs (h : i + n + 1 = levels) :
    runAll Any step (s.setPc c (.clear i)) (List.replicate (n + 1) (.mlfq c)) =
      some (((List.range' i (n + 1)).foldl (fun s i => s.setQueue i []) s).setPc c (.refill 0)) := by
  induction n generalizing s i with
  | zero =>
    have hstep : step (s.setPc c (.clear i)) (.mlfq c) =
        some ((s.setQueue i []).setPc c (.refill 0)) := by
      rw [step, scMlfq, setPc_cpu, Function.update_self]
      dsimp only
      rw [if_neg (by omega)]
      exact congrArg some (setPc_setPc (s := s.setQueue i []) ..)
    simp [runAll, Any, hstep]
  | succ n ih =>
    have hstep : step (s.setPc c (.clear i)) (.mlfq c) =
        some ((s.setQueue i []).setPc c (.clear (i + 1))) := by
      rw [step, scMlfq, setPc_cpu, Function.update_self]
      dsimp only
      rw [if_pos (by omega)]
      exact congrArg some (setPc_setPc (s := s.setQueue i []) ..)
    rw [List.replicate_succ, runAll, if_pos (show Any _ _ from trivial), hstep, Option.bind_some, ih (by omega),
      List.range'_succ (n := n + 1), List.foldl_cons]

theorem refill_runs (h : j + n + 1 = nproc) :
    runAll Any step (s.setPc c (.refill j)) (List.replicate (n + 1) (.mlfq c)) =
      some (((List.range' j (n + 1)).foldl boostProc s).setPc c (.scan 0)) := by
  induction n generalizing s j with
  | zero =>
    have hstep : step (s.setPc c (.refill j)) (.mlfq c) =
        some ((boostProc s j).setPc c (.scan 0)) := by
      rw [step, scMlfq, setPc_cpu, Function.update_self]
      dsimp only
      rw [if_neg (by omega), boostProc_setPc, setPc_setPc]
    simp [runAll, Any, hstep]
  | succ n ih =>
    have hstep : step (s.setPc c (.refill j)) (.mlfq c) =
        some ((boostProc s j).setPc c (.refill (j + 1))) := by
      rw [step, scMlfq, setPc_cpu, Function.update_self]
      dsimp only
      rw [if_pos (by omega), boostProc_setPc, setPc_setPc]
    rw [List.replicate_succ, runAll, if_pos (show Any _ _ from trivial), hstep, Option.bind_some, ih (by omega),
      List.range'_succ (n := n + 1), List.foldl_cons]

/-- The sections of the boost, one after the other, do what `boost` does. -/
theorem boost_runs (h : (s.cpu c).pc = .clear 0) :
    runAll Any step s (List.replicate (levels + nproc) (.mlfq c)) =
      some ((boost s).setPc c (.scan 0)) := by
  have hs : s = s.setPc c (.clear 0) := by
    rw [State.setPc, ← h, State.setCpu, Function.update_eq_self]
  rw [List.replicate_add]
  have hclear := clear_runs (s := s) (c := c) (i := 0) (n := 3) rfl
  rw [← hs] at hclear
  refine runAll_append hclear ?_
  rw [boost, List.range_eq_range']
  exact refill_runs (n := 63) rfl

/-! ### What it leaves -/

theorem clearQueues_queue (hi : i < levels) : (clearQueues s).queue i = [] := by
  have hall : ∀ n, i < n →
      ((List.range n).foldl (fun s i => s.setQueue i []) s).queue i = [] := by
    intro n
    induction n with
    | zero => nofun
    | succ n ih =>
      intro hin
      rw [List.range_succ, List.foldl_append, List.foldl_cons, List.foldl_nil, setQueue_queue]
      by_cases heq : i = n
      · rw [heq, Function.update_self]
      · rw [Function.update_of_ne heq]
        exact ih (by omega)
  exact hall levels hi

/-- The first `n` visits of the boost. -/
theorem visits (hq : s.queue 0 = []) (hn : n ≤ nproc) :
    (((List.range n).foldl boostProc s).queue 0 =
        (List.range n).filter fun p => decide (boosts (s.proc p))) ∧
      (∀ i, i ≠ 0 → ((List.range n).foldl boostProc s).queue i = s.queue i) ∧
      ∀ p, ((List.range n).foldl boostProc s).proc p =
        if p < n ∧ boosts (s.proc p) then (s.proc p).boosted else s.proc p := by
  induction n with
  | zero => exact ⟨hq, fun _ _ => rfl, fun _ => by simp⟩
  | succ n ih =>
    obtain ⟨hzero, hrest, hproc⟩ := ih (by omega)
    rw [List.range_succ, List.foldl_append, List.foldl_cons, List.foldl_nil, List.filter_append]
    set b := (List.range n).foldl boostProc s
    have hpn : b.proc n = s.proc n := by rw [hproc, if_neg (by omega)]
    by_cases hb : boosts (s.proc n)
    · -- the queue has fewer entries than there are processes
      have hroom : (b.queue 0).length < nproc := by
        have hle := List.length_filter_le (fun p => decide (boosts (s.proc p))) (List.range n)
        rw [List.length_range] at hle
        rw [hzero]
        omega
      rw [boostProc_of_boosts (hpn ▸ hb) hroom]
      refine ⟨?_, fun i hi => ?_, fun p => ?_⟩
      · simp [hzero, hb]
      · simp [hi, hrest i hi]
      · by_cases hp : p = n
        · subst hp
          simp [hpn, hb]
        · have hlt : p < n + 1 ↔ p < n := by omega
          simp [hp, hproc, hlt]
    · rw [boostProc_of_not_boosts (hpn ▸ hb)]
      refine ⟨by simp [hzero, hb], hrest, fun p => ?_⟩
      rw [hproc]
      by_cases hp : p = n
      · subst hp
        rw [if_neg (fun h => hb h.2), if_neg (fun h => hb h.2)]
      · have hlt : p < n + 1 ↔ p < n := by omega
        simp only [hlt]

theorem boost_queue_zero :
    (boost s).queue 0 = (List.range nproc).filter fun p => decide (boosts (s.proc p)) := by
  rw [boost]
  exact (visits (clearQueues_queue (by decide)) le_rfl).1

theorem boost_queue (h0 : 0 < i) (hi : i < levels) : (boost s).queue i = [] := by
  rw [boost, (visits (clearQueues_queue (by decide)) le_rfl).2.1 i (by omega)]
  exact clearQueues_queue hi

theorem boost_proc : (boost s).proc p =
    if p < nproc ∧ boosts (s.proc p) then (s.proc p).boosted else s.proc p := by
  rw [boost]
  exact (visits (clearQueues_queue (by decide)) le_rfl).2.2 p

theorem boost_state : ((boost s).proc p).state = (s.proc p).state := by
  rw [boost_proc]
  split <;> rfl

/-! ### What it is for -/

/-- A process that starts anew at the highest level. -/
def Task.Anew (t : Task) : Prop := t.qlevel = 0 ∧ t.pticks = 0 ∧ t.dSysCount = t.sysCount

/-- Every live process starts anew, and the queues hold each runnable process once, in queue 0, and
nothing else. -/
structure Boosted (s : State) : Prop where
  anew : ∀ p < nproc, (s.proc p).state ≠ .unused → (s.proc p).state ≠ .zombie → (s.proc p).Anew
  empty : ∀ i, 0 < i → i < levels → s.queue i = []
  once : ∀ p < nproc, (s.proc p).state = .runnable → (s.queue 0).count p = 1
  only : ∀ p ∈ s.queue 0, (s.proc p).state = .runnable

/-- No process is running or being made, and the sleeping ones start anew already. -/
def Settled (s : State) : Prop :=
  ∀ p < nproc, ((s.proc p).state = .sleeping → (s.proc p).Anew) ∧ (s.proc p).state ≠ .used ∧
    (s.proc p).state ≠ .running

theorem boosted_boost (h : Settled s) : Boosted (boost s) where
  anew p hp hu hz := by
    rw [boost_state] at hu hz
    rw [boost_proc]
    split
    · exact ⟨rfl, rfl, rfl⟩
    · rename_i hb
      have hsleep : (s.proc p).state = .sleeping := by
        by_contra hs
        exact hb ⟨hp, hu, hz, hs⟩
      exact (h p hp).1 hsleep
  empty i h0 hi := boost_queue h0 hi
  once p hp hr := by
    rw [boost_state] at hr
    rw [boost_queue_zero]
    have hb : boosts (s.proc p) := by simp [boosts, hr]
    exact List.count_eq_one_of_mem (List.nodup_range.filter _) (by simp [hp, hb])
  only p hp := by
    rw [boost_queue_zero, List.mem_filter, List.mem_range, decide_eq_true_iff] at hp
    obtain ⟨hp, hu, hz, hs⟩ := hp
    rw [boost_state]
    have hused := (h p hp).2.1
    have hrun := (h p hp).2.2
    generalize (s.proc p).state = st at hu hz hs hused hrun ⊢
    cases st <;> first | rfl | contradiction

theorem settled_of_boosted (h : Boosted (boost s)) : Settled s := by
  have hqueued : ∀ p < nproc, boosts (s.proc p) → (s.proc p).state = .runnable := by
    intro p hp hb
    have hmem : p ∈ (boost s).queue 0 := by
      rw [boost_queue_zero]
      simp [hp, hb]
    rw [← boost_state]
    exact h.only p hmem
  intro p hp
  refine ⟨fun hsleep => ?_, fun hused => ?_, fun hrun => ?_⟩
  · have hanew := h.anew p hp (by rw [boost_state, hsleep]; nofun)
      (by rw [boost_state, hsleep]; nofun)
    have hb : ¬boosts (s.proc p) := fun hb => hb.2.2 hsleep
    rwa [boost_proc, if_neg fun hb' => hb hb'.2] at hanew
  · have hr := hqueued p hp (by simp [boosts, hused])
    rw [hused] at hr
    cases hr
  · have hr := hqueued p hp (by simp [boosts, hrun])
    rw [hrun] at hr
    cases hr

theorem boosted_setPc_iff (pc : Pc) : Boosted (s.setPc c pc) ↔ Boosted s :=
  ⟨fun h => ⟨h.anew, h.empty, h.once, h.only⟩, fun h => ⟨h.anew, h.empty, h.once, h.only⟩⟩

/-- The first process uses up its slice, is dispatched again and goes to sleep; at tick 128 CPU 0
begins the boost. -/
def sleepDemoted : List Event :=
  dispatchFirst ++ [.eventTick 1, .eventTick 1, .mlfq 1, .mlfq 1, .mlfq 1, .mlfq 1, .sleep 1 7] ++
    .replicate 128 .clockintr ++ [.mlfq 0]

theorem sleepDemoted_runs : (runAll Any step boot sleepDemoted).isSome = true := by
  decide +kernel

/-- The state at the beginning of that boost. -/
def boostBegun : State := (runAll Any step boot sleepDemoted).get sleepDemoted_runs

/-- CPU 0 does not begin an iteration of its loop. -/
def Between (s : State) (e : Event) : Prop := e = .mlfq 0 → (s.cpu 0).pc ≠ .top

instance (s : State) (e : Event) : Decidable (Between s e) :=
  inferInstanceAs (Decidable (e = .mlfq 0 → (s.cpu 0).pc ≠ .top))

/-- The states in which CPU 0 begins its successive iterations, the latest first. -/
inductive Iterations : List State → Prop
  | first {s : State} (h : Reach (· = boot) step Between s) (htop : (s.cpu 0).pc = .top) :
      Iterations [s]
  | next {s s₁ s' : State} {ss : List State} (h : Iterations (s :: ss))
      (hs : scMlfq s 0 = some s₁) (hr : Reach (· = s₁) step Between s')
      (htop : (s'.cpu 0).pc = .top) : Iterations (s' :: s :: ss)

/-- The iteration that begins in the state makes a boost. -/
def MakesBoost (s : State) : Prop := ∃ s', scMlfq s 0 = some s' ∧ (s'.cpu 0).pc = .clear 0

/-- A positive multiple of 128 lies after `a` and not after `b`. -/
def Crosses (a b : ℕ) : Prop := ∃ m, 0 < m ∧ a < 128 * m ∧ 128 * m ≤ b

/-- The tick that the last of the iterations read. -/
def lastRead : List State → ℕ
  | [] => 0
  | s :: _ => s.ticks

/-- An iteration boosts when a multiple of 128 has come up since the one before it, and for a
multiple that no other iteration boosted for. -/
def NoneSkipped : List State → Prop
  | [] => True
  | s :: ss => (Crosses (lastRead ss) s.ticks → MakesBoost s) ∧
      (MakesBoost s → ∀ u ∈ ss, MakesBoost u → u.ticks / 128 ≠ s.ticks / 128) ∧ NoneSkipped ss

/-- Whenever a multiple of 128 has come up since the last iteration, the tick read is one. -/
def Sampled : List State → Prop
  | [] => True
  | s :: ss => (Crosses (lastRead ss) s.ticks → 128 ∣ s.ticks) ∧ Sampled ss

/-- The ticks that the iterations read do not decrease. -/
def Increasing (ss : List State) : Prop := ss.Pairwise fun s u => u.ticks ≤ s.ticks

theorem pushProc_lastMod128 : (pushProc s p).lastMod128 = s.lastMod128 := by
  simp only [pushProc]
  split <;> rfl

theorem boostProc_lastMod128 : (boostProc s j).lastMod128 = s.lastMod128 := by
  simp only [boostProc]
  split
  · split <;> rfl
  · rfl

theorem scMlfq_top (hpc : (s.cpu c).pc = .top) (h : scMlfq s c = some s') :
    s'.lastMod128 = (if s.boostDue c then s.ticks else s.lastMod128) ∧
      ((s'.cpu c).pc = .clear 0 ↔ s.boostDue c = true) := by
  rw [scMlfq, hpc] at h
  dsimp only at h
  split at h
  · rename_i hdue
    cases h
    simp [hdue, State.setPc, State.setCpu]
  · rename_i hdue
    cases h
    simp [hdue, State.setPc, State.setCpu]

/-- Only the beginning of an iteration of CPU 0 writes `last_mod128`. -/
theorem step_lastMod128 {e : Event} (h : step s e = some s') (hb : Between s e) :
    s'.lastMod128 = s.lastMod128 := by
  cases step_move h with
  | @boost c hpc | @enter c hpc =>
    have hc : c ≠ 0 := by
      rintro rfl
      exact hb rfl hpc
    rw [(scMlfq_top hpc h).1, if_neg (by simp [State.boostDue, hc])]
  | refill => exact boostProc_lastMod128
  | userinit => exact pushProc_lastMod128
  | eventTick =>
    simp only [Sched.eventTick]
    split
    · exact pushProc_lastMod128
    · rfl
  | wakeup =>
    simp only [Sched.wakeup]
    split
    · exact pushProc_lastMod128
    · rfl
  | kkill =>
    simp only [Sched.kkill]
    split <;> rfl
  | @forkAlloc d p j mem => cases mem <;> rfl
  | forkStart => exact pushProc_lastMod128
  | clear | pop | skip | dispatch | discard | clockintr | syscall | sleep | forkParent | reparent
  | exit | reap => rfl

theorem lastMod128_between {s₁ : State} (h : Reach (· = s₁) step Between s) :
    s.lastMod128 = s₁.lastMod128 := by
  refine Reach.inv (I := fun s => s.lastMod128 = s₁.lastMod128) h ?_ ?_
  · rintro s rfl
    rfl
  · intro u e u' hi hb hs
    rw [step_lastMod128 hs hb, hi]

theorem makesBoost_iff (hpc : (s.cpu 0).pc = .top) :
    MakesBoost s ↔ 128 ∣ s.ticks ∧ 0 < s.ticks ∧ s.ticks ≠ s.lastMod128 := by
  have hdue : MakesBoost s ↔ s.boostDue 0 = true := by
    constructor
    · rintro ⟨s', hs, hclear⟩
      exact (scMlfq_top hpc hs).2.mp hclear
    · intro hdue
      have hs : ∃ s', scMlfq s 0 = some s' := by
        rw [scMlfq, hpc]
        exact ⟨_, if_pos hdue⟩
      obtain ⟨s', hs⟩ := hs
      exact ⟨s', hs, (scMlfq_top hpc hs).2.mpr hdue⟩
  rw [hdue, State.boostDue]
  simp [Nat.dvd_iff_mod_eq_zero]
  tauto

theorem Iterations.top {ss : List State} (h : Iterations ss) : ∀ s ∈ ss, (s.cpu 0).pc = .top := by
  induction h with
  | first _ htop => simpa using htop
  | next _ _ _ htop ih =>
    intro s hs
    rcases List.mem_cons.mp hs with rfl | hs
    · exact htop
    · exact ih s hs

/-- `last_mod128` is the tick of the latest boost. -/
theorem Iterations.lastMod128 {ss : List State} (h : Iterations (s :: ss))
    (hinc : Increasing (s :: ss)) :
    s.lastMod128 ≤ lastRead ss ∧ ∀ u ∈ ss, MakesBoost u → u.ticks ≤ s.lastMod128 := by
  generalize hl : s :: ss = l at h
  induction h generalizing s ss with
  | first h =>
    cases hl
    rw [lastMod128_between h]
    exact ⟨le_rfl, nofun⟩
  | @next u u₁ _ us h hs hr _ ih =>
    cases hl
    have htop := h.top u List.mem_cons_self
    obtain ⟨hle, hmax⟩ := ih (List.pairwise_cons.mp hinc).2 rfl
    have hticks : lastRead us ≤ u.ticks := by
      cases us with
      | nil => exact Nat.zero_le _
      | cons v vs =>
        exact (List.pairwise_cons.mp (List.pairwise_cons.mp hinc).2).1 v List.mem_cons_self
    rw [lastMod128_between hr, (scMlfq_top htop hs).1]
    split
    · refine ⟨le_rfl, fun v hv _ => ?_⟩
      rcases List.mem_cons.mp hv with rfl | hv
      · exact le_rfl
      · exact (List.pairwise_cons.mp (List.pairwise_cons.mp hinc).2).1 v hv
    · rename_i hdue
      refine ⟨hle.trans hticks, fun v hv hb => ?_⟩
      rcases List.mem_cons.mp hv with rfl | hv
      · obtain ⟨s', hs', hclear⟩ := hb
        exact absurd ((scMlfq_top htop hs').2.mp hclear) hdue
      · exact hmax v hv hb

theorem Iterations.tail {ss : List State} (h : Iterations (s :: ss)) (hne : ss ≠ []) :
    Iterations ss := by
  cases h with
  | first => exact absurd rfl hne
  | next h => exact h

/-- **No boost is skipped exactly when the ticks that CPU 0 reads hit the multiples of 128.** -/
theorem none_skipped_iff_sampled {ss : List State} (h : Iterations ss) (hinc : Increasing ss) :
    NoneSkipped ss ↔ Sampled ss := by
  induction ss with
  | nil => exact Iff.rfl
  | cons s ss ih =>
    obtain ⟨hle, hmax⟩ := h.lastMod128 hinc
    have hiff := makesBoost_iff (h.top s List.mem_cons_self)
    have hrest : NoneSkipped ss ↔ Sampled ss := by
      by_cases hne : ss = []
      · subst hne
        exact Iff.rfl
      · exact ih (h.tail hne) (List.pairwise_cons.mp hinc).2
    have hread : lastRead ss ≤ s.ticks := by
      cases ss with
      | nil => exact Nat.zero_le _
      | cons v vs => exact (List.pairwise_cons.mp hinc).1 v List.mem_cons_self
    -- a multiple is used once: the latest boost was at `last_mod128`
    have honce : MakesBoost s → ∀ u ∈ ss, MakesBoost u → u.ticks / 128 ≠ s.ticks / 128 := by
      intro hb u hu hbu heq
      obtain ⟨hdvd, -, hne⟩ := hiff.mp hb
      have hdvd' := ((makesBoost_iff (h.top u (List.mem_cons_of_mem s hu))).mp hbu).1
      have hlast := hmax u hu hbu
      omega
    have hcross : (Crosses (lastRead ss) s.ticks → MakesBoost s) ↔
        (Crosses (lastRead ss) s.ticks → 128 ∣ s.ticks) := by
      refine imp_congr_right fun ⟨m, hm, hlt, hge⟩ => hiff.trans ?_
      refine and_iff_left ⟨by omega, by omega⟩
    rw [NoneSkipped, Sampled, hcross, hrest]
    exact ⟨fun ⟨h1, _, h2⟩ => ⟨h1, h2⟩, fun ⟨h1, h2⟩ => ⟨h1, honce, h2⟩⟩

/-- CPU 0 finds the queues empty, and `n` ticks later it begins its next iteration. -/
def rescan (n : ℕ) : List Event := .replicate 4 (.mlfq 0) ++ .replicate n .clockintr

/-- The first iteration of CPU 0 begins at tick 127. -/
def tick127 : State :=
  (runAll Between step boot (List.replicate 127 .clockintr)).get (by decide +kernel)

theorem rescan_runs : ∀ n ∈ [1, 2],
    (runAll Between step (tick127.setPc 0 (.scan 0)) (rescan n)).isSome = true := by
  decide +kernel

/-- The second one begins one tick later. -/
def tick128 : State :=
  (runAll Between step (tick127.setPc 0 (.scan 0)) (rescan 1)).get (rescan_runs 1 (by decide))

/-- The second one begins two ticks later. -/
def tick129 : State :=
  (runAll Between step (tick127.setPc 0 (.scan 0)) (rescan 2)).get (rescan_runs 2 (by decide))

theorem tick_facts : ((tick127.cpu 0).pc = .top ∧ tick127.ticks = 127) ∧
    ((tick128.cpu 0).pc = .top ∧ tick128.ticks = 128) ∧
    (tick129.cpu 0).pc = .top ∧ tick129.ticks = 129 ∧ tick127.boostDue 0 = false := by
  decide +kernel

theorem scMlfq_tick127 : scMlfq tick127 0 = some (tick127.setPc 0 (.scan 0)) := by
  obtain ⟨⟨hpc, -⟩, -, -, -, hdue⟩ := tick_facts
  rw [scMlfq, hpc]
  exact if_neg (by rw [hdue]; rintro ⟨⟩)

theorem reach_scan : Reach (· = tick127.setPc 0 (.scan 0)) step Between
    (tick127.setPc 0 (.scan 0)) := .start rfl

theorem iterations_tick127 : Iterations [tick127] :=
  .first (reach_boot.runAll_get _) tick_facts.1.1

/-- CPU 0 reads the ticks 127 and 128, and boosts at the second. -/
theorem none_skipped_iff_sampled_tick128 : NoneSkipped [tick128, tick127] := by
  obtain ⟨⟨-, h127⟩, ⟨hpc, h128⟩, -⟩ := tick_facts
  have hiter : Iterations [tick128, tick127] :=
    iterations_tick127.next scMlfq_tick127 (reach_scan.runAll_get _) hpc
  refine (none_skipped_iff_sampled hiter ?_).mpr ⟨fun _ => ?_, fun ⟨m, hm, _, hle⟩ => ?_, trivial⟩
  · simp [Increasing, h127, h128]
  · rw [h128]
  · rw [h127] at hle
    omega

/-- CPU 0 reads the ticks 127 and 129 and makes no boost. -/
theorem boost_skipped : Iterations [tick129, tick127] ∧ Increasing [tick129, tick127] ∧
    ¬NoneSkipped [tick129, tick127] := by
  obtain ⟨⟨-, h127⟩, -, hpc, h129, -⟩ := tick_facts
  refine ⟨iterations_tick127.next scMlfq_tick127 (reach_scan.runAll_get _) hpc, ?_, ?_⟩
  · simp [Increasing, h127, h129]
  · intro hnone
    have hboost := hnone.1 ⟨1, by decide, by rw [lastRead, h127]; decide, by rw [h129]; decide⟩
    have hdvd := ((makesBoost_iff hpc).mp hboost).1
    rw [h129] at hdvd
    exact absurd hdvd (by decide)

end Sched

end Xv6
