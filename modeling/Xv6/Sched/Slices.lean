import Mathlib.Algebra.BigOperators.Group.Finset.Piecewise
import Xv6.Sched.Boost

/-!
# Levels and slices

Which process an iteration of `SC_MLFQ` dispatches, and what a process is charged.

* An iteration looks at the first entry of each queue only, and an entry whose process is no longer
  runnable makes it go on to the next level. So it passes over the runnable processes behind a stale
  entry; it keeps to the order of the levels exactly when it meets no such entry.
* The accounting of a process is compared with a ledger of what happened to it: the ticks charged to
  it since `allocproc`, and the ticks and system calls of its present slice. A slice ends at the
  tick that completes it or at a boost of the process, so sleeping and preemption do not restart it.
-/

namespace Xv6

namespace Sched

open Transition

variable {s s' u w : State} {us : List State} {c i j n p q : ℕ} {e : Event}

/-! ### The order of the levels -/

/-- Queue `i` has a process that is runnable. -/
def HasRunnable (s : State) (i : ℕ) : Prop := ∃ p ∈ s.queue i, (s.proc p).state = .runnable

/-- CPU `c` is in an iteration that has made its sections in the states `us`, the latest first;
other CPUs go on in between. -/
inductive Scan (c : ℕ) : List State → State → Prop
  | start {s : State} (hpc : (s.cpu c).pc = .scan 0) : Scan c [] s
  | other {us : List State} {s s' : State} {e : Event} (h : Scan c us s) (he : e.cpu ≠ some c)
      (hs : step s e = some s') : Scan c us s'
  | own {us : List State} {s s' : State} (h : Scan c us s) (hs : scMlfq s c = some s')
      (htop : (s'.cpu c).pc ≠ .top) (hrun : (s'.cpu c).pc ≠ .running) : Scan c (s :: us) s'

/-- The last section of an iteration, which made the others in the states `us`, dispatches from a
level only if the levels before had no runnable process when they were looked at, and goes back to
wait for an interrupt only if none had. -/
def Strict (c : ℕ) (us : List State) (s s' : State) : Prop :=
  (∀ i p, (s.cpu c).pc = .popped i p → (s'.cpu c).pc = .running →
    ∀ u ∈ us, ∀ j < i, (u.cpu c).pc = .scan j → ¬HasRunnable u j) ∧
  ((s'.cpu c).pc = .top → ∀ u ∈ s :: us, ∀ j, (u.cpu c).pc = .scan j → ¬HasRunnable u j)

/-- When a queue that is looked at has a runnable process, its first entry is still runnable when
the lock of the process has been taken. -/
def Fresh (c : ℕ) (us : List State) : Prop :=
  ∀ u ∈ us, ∀ j, (u.cpu c).pc = .scan j → HasRunnable u j →
    ∀ w ∈ us, ∀ p, (w.cpu c).pc = .popped j p → (w.proc p).state = .runnable

/-- The sections `us` went over the levels below `i` and found nothing to dispatch. -/
structure Passed (c i : ℕ) (us : List State) : Prop where
  below : ∀ u ∈ us, ∃ j < i, (u.cpu c).pc = .scan j ∨
    ∃ p, (u.cpu c).pc = .popped j p ∧ (u.proc p).state ≠ .runnable
  stale : ∀ u ∈ us, ∀ j, (u.cpu c).pc = .scan j → u.queue j ≠ [] →
    ∃ w ∈ us, ∃ p, (w.cpu c).pc = .popped j p ∧ (w.proc p).state ≠ .runnable

theorem Passed.empty (h : Passed c i us) (hpc : (s.cpu c).pc = .scan i) (hq : s.queue i = []) :
    Passed c (i + 1) (s :: us) where
  below u hu := by
    rcases List.mem_cons.mp hu with rfl | hu
    · exact ⟨i, i.lt_succ_self, .inl hpc⟩
    · obtain ⟨j, hj, hu⟩ := h.below u hu
      exact ⟨j, hj.trans i.lt_succ_self, hu⟩
  stale u hu j hj hne := by
    rcases List.mem_cons.mp hu with rfl | hu
    · rw [hpc, Pc.scan.injEq] at hj
      exact absurd (hj ▸ hq) hne
    · obtain ⟨w, hw, hstale⟩ := h.stale u hu j hj hne
      exact ⟨w, List.mem_cons_of_mem s hw, hstale⟩

theorem Passed.discard (h : Passed c i us) (hu : (u.cpu c).pc = .scan i)
    (hpc : (s.cpu c).pc = .popped i p) (hst : (s.proc p).state ≠ .runnable) :
    Passed c (i + 1) (s :: u :: us) where
  below v hv := by
    rcases List.mem_cons.mp hv with rfl | hv
    · exact ⟨i, i.lt_succ_self, .inr ⟨p, hpc, hst⟩⟩
    · rcases List.mem_cons.mp hv with rfl | hv
      · exact ⟨i, i.lt_succ_self, .inl hu⟩
      · obtain ⟨j, hj, hv⟩ := h.below v hv
        exact ⟨j, hj.trans i.lt_succ_self, hv⟩
  stale v hv j hj hne := by
    rcases List.mem_cons.mp hv with rfl | hv
    · rw [hpc] at hj
      cases hj
    · rcases List.mem_cons.mp hv with rfl | hv
      · rw [hu, Pc.scan.injEq] at hj
        exact ⟨s, List.mem_cons_self, p, hj ▸ hpc, hst⟩
      · obtain ⟨w, hw, hstale⟩ := h.stale v hv j hj hne
        exact ⟨w, List.mem_cons_of_mem s (List.mem_cons_of_mem u hw), hstale⟩

/-- An iteration is about to look at a level, or has an entry of it in hand. -/
def Place (c : ℕ) (us : List State) (s : State) : Prop :=
  (∃ i, (s.cpu c).pc = .scan i ∧ Passed c i us) ∨
  ∃ i p u us', us = u :: us' ∧ (s.cpu c).pc = .popped i p ∧ (u.cpu c).pc = .scan i ∧
    Passed c i us'

theorem nextLevel_eq : nextLevel i = .scan (i + 1) ∨ nextLevel i = .top := by
  rw [nextLevel]
  split
  · exact .inl rfl
  · exact .inr rfl

theorem Scan.place (h : Scan c us s) : Place c us s := by
  induction h with
  | start hpc => exact .inl ⟨0, hpc, ⟨nofun, nofun⟩⟩
  | other _ he hs ih =>
    rw [Place, (step_move hs).cpu_of_ne he]
    exact ih
  | @own us s s' _ hs htop hrun ih =>
    obtain ⟨i, hpc, hp⟩ | ⟨i, p, u, us', rfl, hpc, hu, hp⟩ := ih
    · rw [scMlfq, hpc] at hs
      dsimp only at hs
      split at hs
      · rename_i q _ hq
        cases hs
        exact .inr ⟨i, q, s, us, rfl, by simp, hpc, hp⟩
      · rename_i hq
        cases hs
        rcases nextLevel_eq (i := i) with hnext | hnext
        · exact .inl ⟨i + 1, by simp [hnext], hp.empty hpc hq⟩
        · simp [hnext] at htop
    · rw [scMlfq, hpc] at hs
      dsimp only at hs
      split at hs
      · cases hs
        simp [dispatch] at hrun
      · rename_i hst
        cases hs
        rcases nextLevel_eq (i := i) with hnext | hnext
        · exact .inl ⟨i + 1, by simp [hnext], hp.discard hu hpc hst⟩
        · simp [hnext] at htop

/-- How an iteration ends. -/
theorem Scan.last (h : Scan c us s) (hs : scMlfq s c = some s')
    (hend : (s'.cpu c).pc = .running ∨ (s'.cpu c).pc = .top) :
    (∃ i p u us', us = u :: us' ∧ (s.cpu c).pc = .popped i p ∧ (s.proc p).state = .runnable ∧
      (s'.cpu c).pc = .running ∧ (u.cpu c).pc = .scan i ∧ Passed c i us') ∨
    (s'.cpu c).pc = .top ∧ ∃ i, Passed c i (s :: us) := by
  obtain ⟨i, hpc, hp⟩ | ⟨i, p, u, us', rfl, hpc, hu, hp⟩ := h.place
  · rw [scMlfq, hpc] at hs
    dsimp only at hs
    split at hs
    · cases hs
      simp at hend
    · rename_i hq
      cases hs
      refine .inr ⟨hend.resolve_left ?_, i + 1, hp.empty hpc hq⟩
      rcases nextLevel_eq (i := i) with hnext | hnext <;> simp [hnext]
  · rw [scMlfq, hpc] at hs
    dsimp only at hs
    split at hs
    · rename_i hst
      cases hs
      exact .inl ⟨i, p, u, us', rfl, hpc, hst, by simp [dispatch], hu, hp⟩
    · rename_i hst
      cases hs
      refine .inr ⟨hend.resolve_left ?_, i + 1, hp.discard hu hpc hst⟩
      rcases nextLevel_eq (i := i) with hnext | hnext <;> simp [hnext]

theorem HasRunnable.ne_nil (h : HasRunnable s i) : s.queue i ≠ [] := by
  obtain ⟨p, hp, -⟩ := h
  exact List.ne_nil_of_mem hp

/-- The section that CPU 0 makes next. -/
def turn (s : State) : State := (scMlfq s 0).getD s

/-- The states before the first `n` sections, the latest first. -/
def turns (s : State) : ℕ → List State
  | 0 => []
  | n + 1 => turn^[n] s :: turns s n

/-- CPU 0 can make its next section, and is in its iteration afterwards. -/
def GoesOn (s : State) : Prop :=
  (scMlfq s 0).isSome = true ∧ ((turn s).cpu 0).pc ≠ .top ∧ ((turn s).cpu 0).pc ≠ .running
deriving Decidable

theorem scMlfq_turn (h : (scMlfq s 0).isSome = true) : scMlfq s 0 = some (turn s) := by
  obtain ⟨s', hs⟩ := Option.isSome_iff_exists.mp h
  rw [turn, hs, Option.getD_some]

theorem scan_turns (hpc : (s.cpu 0).pc = .scan 0) (h : ∀ k < n, GoesOn (turn^[k] s)) :
    Scan 0 (turns s n) (turn^[n] s) := by
  induction n with
  | zero => exact .start hpc
  | succ n ih =>
    obtain ⟨hsome, htop, hrun⟩ := h n n.lt_succ_self
    rw [Function.iterate_succ_apply', turns]
    exact (ih fun k hk => h k (by omega)).own (scMlfq_turn hsome) htop hrun

/-- CPU 0 begins an iteration of an idle machine. -/
def idleScan : State := boot.setPc 0 (.scan 0)

/-- The first process forks, and while it runs CPU 0 makes the boost of tick 128. -/
def staleRun : List Event :=
  dispatchFirst ++ [.forkAlloc 1 1 .full, .forkParent 1, .forkStart 1] ++
    .replicate 128 .clockintr ++ .replicate 69 (.mlfq 0)

theorem staleRun_runs : (runAll Any step boot staleRun).isSome = true := by decide +kernel

/-- Queue 0 has the running parent in front of the child. -/
def staleHead : State := (runAll Any step boot staleRun).get staleRun_runs

theorem ticksMax_eq (i : ℕ) : ticksMax i = 2 ^ (i + 1) := by
  induction i with
  | zero => rfl
  | succ i ih => rw [ticksMax, ih, pow_succ 2 (i + 1)]

/-- What happened to a process: the ticks charged to it since `allocproc`, and the ticks and system
calls of its present slice. -/
structure Ledger where
  charged : ℕ := 0
  slice : ℕ := 0
  calls : ℕ := 0

/-- A tick at a level, which may complete the slice. -/
def Ledger.tick (l : Ledger) (level : ℕ) : Ledger :=
  if l.slice + 1 = 2 ^ (level + 1) then ⟨l.charged + 1, 0, 0⟩
  else ⟨l.charged + 1, l.slice + 1, l.calls⟩

/-- The tick of an event is charged to `p`. -/
def Charged (s : State) (e : Event) (p : ℕ) : Prop :=
  ∃ c, e = .eventTick c ∧ (s.cpu c).proc = some p

/-- The event is a boost of `p`. -/
def BoostOf (s : State) (e : Event) (p : ℕ) : Prop :=
  ∃ c, e = .mlfq c ∧ (s.cpu c).pc = .refill p ∧ boosts (s.proc p)

/-- In the event `allocproc` initialises `p`. -/
def Allocates (e : Event) (p : ℕ) : Prop :=
  e = .userinit ∧ p = 0 ∨ ∃ c mem, e = .forkAlloc c p mem ∧ mem ≠ .none

/-- The ledgers of all processes after an event. -/
def note (s : State) (e : Event) (g : ℕ → Ledger) : ℕ → Ledger :=
  match e with
  | .userinit => Function.update g 0 {}
  | .mlfq c =>
    match (s.cpu c).pc with
    | .refill j =>
      if boosts (s.proc j) then Function.update g j { g j with slice := 0, calls := 0 } else g
    | _ => g
  | .eventTick c =>
    match (s.cpu c).proc with
    | some p => Function.update g p ((g p).tick (s.proc p).qlevel)
    | none => g
  | .syscall c =>
    match (s.cpu c).proc with
    | some p => Function.update g p { g p with calls := (g p).calls + 1 }
    | none => g
  | .forkAlloc _ j mem => if mem = .none then g else Function.update g j {}
  | _ => g

/-- A step, with the ledgers. -/
def stepNoted (x : State × (ℕ → Ledger)) (e : Event) : Option (State × (ℕ → Ledger)) :=
  (step x.1 e).map fun s' => (s', note x.1 e x.2)

/-- The fields of a process that the accounting uses. -/
structure Account where
  qlevel : ℕ
  pticks : ℤ
  qticks : ℕ → ℤ
  sysCount : ℤ
  dSysCount : ℤ

def Task.account (t : Task) : Account := ⟨t.qlevel, t.pticks, t.qticks, t.sysCount, t.dSysCount⟩

/-- What an event does to the account and the ledger of `p`, who had the task `t` and the ledger
`l`. -/
inductive Effect (s : State) (e : Event) (p : ℕ) (t : Task) (l : Ledger) : Account → Ledger → Prop
  | none (hc : ¬Charged s e p) (hb : ¬BoostOf s e p) (ha : ¬Allocates e p) :
      Effect s e p t l t.account l
  | call (hc : ¬Charged s e p) (hb : ¬BoostOf s e p) (ha : ¬Allocates e p) :
      Effect s e p t l { t.account with sysCount := t.sysCount + 1 }
        { l with calls := l.calls + 1 }
  | tick (hc : Charged s e p) : Effect s e p t l (tickTask s t).1.account (l.tick t.qlevel)
  | boost (hb : BoostOf s e p) :
      Effect s e p t l t.boosted.account { l with slice := 0, calls := 0 }
  | alloc (ha : Allocates e p) : Effect s e p t l ({} : Task).account {}

variable {g : ℕ → Ledger}

theorem account_setTask {t : Task} (h : t.account = (s.proc q).account) :
    ((s.setTask q t).proc p).account = (s.proc p).account := by
  rw [setTask_proc]
  by_cases hp : p = q
  · rw [hp, Function.update_self, h]
  · rw [Function.update_of_ne hp]

theorem effect_of_same {t : Task} {l : Ledger} (ht : t.account = (s.proc p).account)
    (hl : l = g p) (hc : ¬Charged s e p) (hb : ¬BoostOf s e p) (ha : ¬Allocates e p) :
    Effect s e p (s.proc p) (g p) t.account l := by
  rw [ht, hl]
  exact .none hc hb ha

theorem note_of_pc (hpc : ∀ j, (s.cpu c).pc ≠ .refill j) : note s (.mlfq c) g = g := by
  rw [note]
  split
  · rename_i j hj
    exact absurd hj (hpc j)
  · rfl

/-- The events that neither charge nor boost nor allocate anything. -/
def Event.idle : Event → Bool
  | .userinit | .mlfq _ | .eventTick _ | .forkAlloc .. => false
  | _ => true

theorem not_of_idle (h : e.idle = true) : ¬Charged s e p ∧ ¬BoostOf s e p ∧ ¬Allocates e p := by
  refine ⟨?_, ?_, ?_⟩
  · rintro ⟨c, rfl, -⟩
    cases h
  · rintro ⟨c, rfl, -⟩
    cases h
  · rintro (⟨rfl, -⟩ | ⟨c, mem, rfl, -⟩)
    · cases h
    · cases h

theorem effect_of_idle {t : Task} {l : Ledger} (he : e.idle = true)
    (ht : t.account = (s.proc p).account) (hl : l = g p) :
    Effect s e p (s.proc p) (g p) t.account l := by
  obtain ⟨hc, hb, ha⟩ := not_of_idle (s := s) (p := p) he
  exact effect_of_same ht hl hc hb ha

/-- The scheduler only boosts. -/
theorem not_charged_mlfq : ¬Charged s (.mlfq c) p := nofun

theorem not_allocates_mlfq : ¬Allocates (.mlfq c) p := nofun

theorem not_boost_tick : ¬BoostOf s (.eventTick c) p := nofun

theorem not_allocates_tick : ¬Allocates (.eventTick c) p := nofun

theorem not_charged_userinit : ¬Charged s .userinit p ∧ ¬BoostOf s .userinit p := ⟨nofun, nofun⟩

theorem not_charged_forkAlloc {mem : Supply} :
    ¬Charged s (.forkAlloc c q mem) p ∧ ¬BoostOf s (.forkAlloc c q mem) p := ⟨nofun, nofun⟩

/-- Every event has one of these effects. -/
theorem step_effect (h : step s e = some s') :
    Effect s e p (s.proc p) (g p) (s'.proc p).account (note s e g p) := by
  cases step_move h with
  | @boost c hpc | @enter c hpc | @clear c _ hpc | @pop c _ _ _ hpc | @skip c _ hpc
  | @discard c _ _ hpc =>
    refine effect_of_same rfl (congrFun (note_of_pc fun j => by rw [hpc]; rintro ⟨⟩) p)
      not_charged_mlfq ?_ not_allocates_mlfq
    rintro ⟨d, hd, hj, -⟩
    cases hd
    rw [hpc] at hj
    cases hj
  | @dispatch c i q hpc =>
    refine effect_of_same (account_setTask rfl)
      (congrFun (note_of_pc fun j => by rw [hpc]; rintro ⟨⟩) p) not_charged_mlfq ?_
      not_allocates_mlfq
    rintro ⟨d, hd, hj, -⟩
    cases hd
    rw [hpc] at hj
    cases hj
  | @refill c j hpc =>
    have hnote : note s (.mlfq c) g = if boosts (s.proc j) then
        Function.update g j { g j with slice := 0, calls := 0 } else g := by rw [note, hpc]
    rw [hnote, setPc_proc]
    by_cases hj : boosts (s.proc j)
    · have hproc : (boostProc s j).proc = Function.update s.proc j (s.proc j).boosted := by
        by_cases hroom : (s.queue 0).length < nproc
        · rw [boostProc_of_boosts hj hroom]
          rfl
        · rw [boostProc_of_full hj hroom]
          rfl
      rw [if_pos hj, hproc]
      by_cases hp : p = j
      · subst hp
        rw [Function.update_self, Function.update_self]
        exact .boost ⟨c, rfl, hpc, hj⟩
      · rw [Function.update_of_ne hp, Function.update_of_ne hp]
        refine effect_of_same rfl rfl not_charged_mlfq ?_ not_allocates_mlfq
        rintro ⟨d, hd, hj', -⟩
        cases hd
        rw [hpc, Pc.refill.injEq] at hj'
        exact hp hj'.symm
    · rw [if_neg hj, boostProc_of_not_boosts hj]
      refine effect_of_same rfl rfl not_charged_mlfq ?_ not_allocates_mlfq
      rintro ⟨d, hd, hj', hb⟩
      cases hd
      rw [hpc, Pc.refill.injEq] at hj'
      exact hj (hj' ▸ hb)
  | userinit =>
    rw [Sched.userinit, pushProc_proc, note, setTask_proc]
    by_cases hp : p = 0
    · subst hp
      rw [Function.update_self, Function.update_self]
      exact .alloc (.inl ⟨rfl, rfl⟩)
    · rw [Function.update_of_ne hp, Function.update_of_ne hp]
      refine effect_of_same rfl rfl not_charged_userinit.1 not_charged_userinit.2 ?_
      rintro (⟨-, h0⟩ | ⟨_, _, ha, -⟩)
      · exact hp h0
      · cases ha
  | @eventTick c q hq =>
    have hproc : (eventTick s c q).proc p =
        if p = q then { (tickTask s (s.proc q)).1 with
          state := ((eventTick s c q).proc p).state } else s.proc p := by
      simp only [Sched.eventTick]
      split
      · rw [leave_proc, pushProc_proc, setTask_proc]
        by_cases hp : p = q <;> simp [hp]
      · rw [setTask_proc]
        by_cases hp : p = q <;> simp [hp]
    rw [hproc, note, hq]
    by_cases hp : p = q
    · subst hp
      rw [if_pos rfl]
      dsimp only
      rw [Function.update_self]
      exact .tick ⟨c, rfl, hq⟩
    · rw [if_neg hp]
      dsimp only
      rw [Function.update_of_ne hp]
      refine effect_of_same rfl rfl ?_ not_boost_tick not_allocates_tick
      rintro ⟨d, hd, hq'⟩
      cases hd
      rw [hq, Option.some.injEq] at hq'
      exact hp hq'.symm
  | @syscall c q hq =>
    rw [note, hq, setTask_proc]
    dsimp only
    by_cases hp : p = q
    · subst hp
      rw [Function.update_self, Function.update_self]
      obtain ⟨hc, hb, ha⟩ := not_of_idle (e := .syscall c) (s := s) (p := p) rfl
      exact .call hc hb ha
    · rw [Function.update_of_ne hp, Function.update_of_ne hp]
      exact effect_of_idle rfl rfl rfl
  | @forkAlloc c q j mem hq =>
    have hne : mem ≠ .none → p = j → Allocates (.forkAlloc c j mem) p := by
      rintro hm rfl
      exact .inr ⟨c, mem, rfl, hm⟩
    have hnot : mem = .none ∨ p ≠ j → ¬Allocates (.forkAlloc c j mem) p := by
      rintro hor (⟨h0, -⟩ | ⟨_, _, h0, hm⟩)
      · cases h0
      · cases h0
        exact hor.elim hm fun hp => hp rfl
    rw [note]
    cases mem with
    | none =>
      exact effect_of_same (account_setTask rfl) (by simp) not_charged_forkAlloc.1
        not_charged_forkAlloc.2 (hnot (.inl rfl))
    | table | full =>
      rw [if_neg (by rintro ⟨⟩)]
      simp only [Sched.forkAlloc, setChild_proc, setTask_proc]
      by_cases hp : p = j
      · subst hp
        rw [Function.update_self, Function.update_self]
        exact .alloc (hne (by rintro ⟨⟩) rfl)
      · rw [Function.update_of_ne hp, Function.update_of_ne hp]
        exact .none not_charged_forkAlloc.1 not_charged_forkAlloc.2 (hnot (.inr hp))
  | wakeup =>
    simp only [Sched.wakeup]
    split
    · rw [pushProc_proc]
      exact effect_of_idle rfl (account_setTask rfl) rfl
    · exact effect_of_idle rfl rfl rfl
  | kkill =>
    simp only [Sched.kkill]
    split
    · exact effect_of_idle rfl (account_setTask rfl) rfl
    · exact effect_of_idle rfl rfl rfl
  | forkStart =>
    rw [Sched.forkStart, setChild_proc, pushProc_proc]
    exact effect_of_idle rfl (account_setTask rfl) rfl
  | clockintr => exact effect_of_idle rfl rfl rfl
  | sleep | forkParent | reparent | exit | reap =>
    exact effect_of_idle rfl (account_setTask rfl) rfl

/-- The account of a process agrees with its ledger. -/
structure Account.Agrees (a : Account) (l : Ledger) : Prop where
  level : a.qlevel < levels
  within : l.slice < 2 ^ (a.qlevel + 1)
  pticks : a.pticks = l.slice
  qticks : ∑ i ∈ Finset.range levels, a.qticks i = l.charged
  calls : a.sysCount - a.dSysCount = l.calls

theorem zero_lt_levels : 0 < levels := by decide

theorem agrees_start : ({} : Task).account.Agrees {} :=
  ⟨zero_lt_levels, Nat.two_pos, rfl, by simp [Task.account], by simp [Task.account]⟩

/-- What a tick does to an account that agrees with its ledger. -/
theorem tickTask_account {t : Task} {l : Ledger} (h : t.account.Agrees l) :
    (tickTask s t).1.account.Agrees (l.tick t.qlevel) ∧
      (tickTask s t).1.qlevel = if l.slice + 1 = 2 ^ (t.qlevel + 1) ∧ l.calls < l.slice + 1 ∧
        t.qlevel + 1 < levels then t.qlevel + 1 else t.qlevel := by
  obtain ⟨hlevel, hwithin, hpticks, hqticks, hcalls⟩ := h
  simp only [Task.account] at hlevel hwithin hpticks hqticks hcalls
  have hsum : ∑ i ∈ Finset.range levels,
      Function.update t.qticks t.qlevel (t.qticks t.qlevel + 1) i = ((l.charged + 1 : ℕ) : ℤ) := by
    have hmem := Finset.mem_range.mpr hlevel
    rw [Finset.sum_update_of_mem hmem, Int.natCast_add, ← hqticks,
      ← Finset.add_sum_erase _ _ hmem, Finset.sdiff_singleton_eq_erase]
    exact add_right_comm ..
  have hmax : ticksMax t.qlevel ≤ t.pticks + 1 ↔ l.slice + 1 = 2 ^ (t.qlevel + 1) := by
    rw [ticksMax_eq, hpticks]
    have hcast : ((2 : ℤ) ^ (t.qlevel + 1)) = ((2 ^ (t.qlevel + 1) : ℕ) : ℤ) := by push_cast; rfl
    rw [hcast]
    omega
  have hfew : t.sysCount - t.dSysCount < t.pticks + 1 ∧ t.qlevel < levels - 1 ↔
      l.calls < l.slice + 1 ∧ t.qlevel + 1 < levels := by
    rw [hcalls, hpticks]
    omega
  simp only [tickTask, Ledger.tick]
  by_cases hend : l.slice + 1 = 2 ^ (t.qlevel + 1)
  · rw [if_pos (hmax.mpr hend), if_pos hend]
    refine ⟨⟨?_, Nat.pow_pos Nat.two_pos, rfl, hsum, by simp [Task.account]⟩, ?_⟩
    · dsimp only [Task.account]
      split <;> omega
    · simp only [hfew, hend, true_and]
  · rw [if_neg (hmax.not.mpr hend), if_neg hend]
    refine ⟨⟨hlevel, ?_, ?_, hsum, hcalls⟩, ?_⟩
    · dsimp only [Task.account]
      omega
    · dsimp only [Task.account]
      rw [hpticks]
      push_cast
      rfl
    · rw [if_neg fun h => hend h.1]

theorem Effect.agrees {t : Task} {l l' : Ledger} {a : Account} (h : Effect s e p t l a l')
    (ht : t.account.Agrees l) : a.Agrees l' := by
  cases h with
  | none => exact ht
  | call =>
    refine ⟨ht.level, ht.within, ht.pticks, ht.qticks, ?_⟩
    have hcalls : t.sysCount - t.dSysCount = l.calls := ht.calls
    dsimp only [Task.account]
    push_cast
    omega
  | tick => exact (tickTask_account ht).1
  | boost => exact ⟨zero_lt_levels, Nat.two_pos, rfl, ht.qticks, sub_self _⟩
  | alloc => exact agrees_start

/-- How the level of a process changes with an event. -/
structure LevelChange (s : State) (e : Event) (p : ℕ) (l : Ledger) (level level' : ℕ) : Prop where
  tick : Charged s e p → level' = if l.slice + 1 = 2 ^ (level + 1) ∧ l.calls < l.slice + 1 ∧
    level + 1 < levels then level + 1 else level
  boost : BoostOf s e p → level' = 0
  alloc : Allocates e p → level' = 0
  other : ¬Charged s e p → ¬BoostOf s e p → ¬Allocates e p → level' = level

theorem Effect.level {t : Task} {l l' : Ledger} {a : Account} (h : Effect s e p t l a l')
    (ht : t.account.Agrees l) : LevelChange s e p l t.qlevel a.qlevel := by
  cases h with
  | none hc hb ha | call hc hb ha =>
    exact ⟨fun h => absurd h hc, fun h => absurd h hb, fun h => absurd h ha, fun _ _ _ => rfl⟩
  | tick hc =>
    refine ⟨fun _ => (tickTask_account ht).2, fun hb => ?_, fun ha => ?_, fun h => absurd hc h⟩
    · obtain ⟨c, rfl, -⟩ := hc
      obtain ⟨d, hd, -⟩ := hb
      cases hd
    · obtain ⟨c, rfl, -⟩ := hc
      obtain ⟨h, -⟩ | ⟨_, _, h, -⟩ := ha <;> cases h
  | boost hb =>
    refine ⟨fun hc => ?_, fun _ => rfl, fun _ => rfl, fun _ h => absurd hb h⟩
    obtain ⟨c, rfl, -⟩ := hb
    obtain ⟨d, hd, -⟩ := hc
    cases hd
  | alloc ha =>
    refine ⟨fun hc => ?_, fun _ => rfl, fun _ => rfl, fun _ _ h => absurd ha h⟩
    obtain ⟨c, rfl, -⟩ := hc
    obtain ⟨h, -⟩ | ⟨_, _, h, -⟩ := ha <;> cases h

/-- The runs from boot, with ledgers. -/
abbrev Noted (x : State × (ℕ → Ledger)) : Prop :=
  Reach (· = (boot, fun _ => {})) stepNoted Any x

theorem Noted.agrees (h : Noted (s, g)) : ∀ p, (s.proc p).account.Agrees (g p) := by
  refine Reach.inv (I := fun x => ∀ p, (x.1.proc p).account.Agrees (x.2 p)) h ?_ ?_
  · rintro x rfl p
    exact agrees_start
  · rintro ⟨s, g⟩ e ⟨s', g'⟩ hi - hs p
    obtain ⟨s₁, hs₁, heq⟩ := Option.map_eq_some_iff.mp hs
    cases heq
    exact (step_effect hs₁).agrees (hi p)

/-- The first process is charged two ticks. -/
def twoTicks : List Event := dispatchFirst ++ [.eventTick 1, .eventTick 1]

theorem twoTicks_runs :
    (runAll Any stepNoted (boot, fun _ => {}) twoTicks).isSome = true := by decide +kernel

def afterTwoTicks : State × (ℕ → Ledger) :=
  (runAll Any stepNoted (boot, fun _ => {}) twoTicks).get twoTicks_runs

theorem noted_afterTwoTicks : Noted (afterTwoTicks.1, afterTwoTicks.2) := by
  have hstart : Noted (boot, fun _ => {}) := .start rfl
  exact hstart.runAll_get twoTicks_runs

end Sched

end Xv6
