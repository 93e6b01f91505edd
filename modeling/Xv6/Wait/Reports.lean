import Mathlib.Data.List.Nodup
import Xv6.Wait.Family

/-!
# Exits and reports

Every process that exits is entered in `exits`, and every successful `kwait` in `reports`. An entry
of `reports` is about a process that has exited, with the pid it was born with and the status it
exited with, and there is one for each process at most. A process that has exited and has not been
reported still has its slot, and a parent that can wait for it.
-/

namespace Xv6

namespace Wait

open State Transition

variable {s s' : State} {p q c t : ℕ} {l : Lk} {ok : Bool} {e : Event}

structure State.Recorded (s : State) : Prop where
  birth : ∀ c, (s.proc c).state ≠ .unused → s.births[(s.proc c).inc]? = some (s.proc c).pid
  apart : ∀ c d, (s.proc c).state ≠ .unused → (s.proc d).state ≠ .unused →
    (s.proc c).inc = (s.proc d).inc → c = d
  exit : ∀ x ∈ s.exits, s.births[x.inc]? = some x.pid
  exits_nodup : (s.exits.map Exit.inc).Nodup
  zombie : ∀ c, (s.proc c).state = .zombie →
    ⟨(s.proc c).inc, (s.proc c).pid, (s.proc c).xstate⟩ ∈ s.exits
  once : ∀ c, ∀ x ∈ s.exits, (s.proc c).state ≠ .unused → x.inc = (s.proc c).inc →
    (s.proc c).state = .zombie
  waits : ∀ x ∈ s.exits, (∃ r ∈ s.reports, r.inc = x.inc) ∨
    ∃ c, (s.proc c).state = .zombie ∧ (s.proc c).inc = x.inc
  report : ∀ r ∈ s.reports, ∃ x ∈ s.exits, x.inc = r.inc ∧ x.pid = r.pid ∧
    (r.status = none ∨ r.status = some x.status)
  reports_nodup : (s.reports.map Report.inc).Nodup
  reported : ∀ r ∈ s.reports, ∀ c, (s.proc c).state ≠ .unused → (s.proc c).inc ≠ r.inc

theorem booted_recorded : booted.Recorded := by
  have hslot : ∀ c, (booted.proc c).state ≠ .unused → c = initproc := by
    intro c hc
    by_contra hne
    exact hc (congrArg Proc.state (if_neg hne))
  constructor
  · intro c hc
    rw [hslot c hc]
    rfl
  · intro c d hc hd _
    rw [hslot c hc, hslot d hd]
  · nofun
  · exact List.nodup_nil
  · intro c hc
    have hinit := hslot c (by rw [hc]; nofun)
    subst hinit
    cases hc
  · nofun
  · nofun
  · nofun
  · exact List.nodup_nil
  · nofun

/-! ### Steps -/

/-- What the records say about a slot stays true of it. -/
structure SameSlot (x y : Proc) : Prop where
  unused : y.state = .unused ↔ x.state = .unused
  zombie : y.state = .zombie ↔ x.state = .zombie
  data : x.state ≠ .unused → y.inc = x.inc ∧ y.pid = x.pid ∧ y.xstate = x.xstate

theorem SameSlot.refl (x : Proc) : SameSlot x x :=
  ⟨Iff.rfl, Iff.rfl, fun _ => ⟨rfl, rfl, rfl⟩⟩

/-- An unused slot stays unused. -/
theorem SameSlot.of_unused {x y : Proc} (hx : x.state = .unused) (hy : y.state = .unused) :
    SameSlot x y := by
  refine ⟨⟨fun _ => hx, fun _ => hy⟩, ⟨fun hz => ?_, fun hz => ?_⟩, fun hne => absurd hx hne⟩
  · cases hy.symm.trans hz
  · cases hx.symm.trans hz

theorem SameSlot.of_state {x y : Proc} (hx : x.state ≠ .unused ∧ x.state ≠ .zombie)
    (hy : y.state ≠ .unused ∧ y.state ≠ .zombie)
    (hdata : y.inc = x.inc ∧ y.pid = x.pid ∧ y.xstate = x.xstate) : SameSlot x y :=
  ⟨⟨fun h => absurd h hy.1, fun h => absurd h hx.1⟩,
    ⟨fun h => absurd h hy.2, fun h => absurd h hx.2⟩, fun _ => hdata⟩

theorem SameSlot.wakeup (x : Proc) (chan : Chan) : SameSlot x (x.wakeup chan) := by
  rw [Proc.wakeup]
  split
  · rename_i hsleep
    exact .of_state (by rw [hsleep.1]; decide) ⟨by rintro ⟨⟩, by rintro ⟨⟩⟩ ⟨rfl, rfl, rfl⟩
  · exact .refl _

/-- A process that enters or leaves the processor has not exited. -/
theorem State.Placed.running_of_sw (h : s.Placed) (hrun : (s.thread p).sw ≠ .run)
    (hoff : (s.thread p).sw ≠ .off) : (s.proc p).state = .running := by
  have hact := h.active p hoff
  split at hact
  · rename_i hex
    have hmem := State.Placed.mem_locks_of_exited (p := p) hex
    rw [h.still p hrun] at hmem
    cases hmem
  · exact hact

/-- A change that enters nothing in the records. -/
theorem Change.sameSlot (h : s.Placed) {x : Proc} (hx : Change s p c x)
    (hzombie : (s.thread p).pc ≠ .exitZombie) (hreap : (s.thread p).pc ≠ .scanHeld c)
    (hbirth : (s.thread p).pc ≠ .allocprocHeld c) : SameSlot (s.proc c) x := by
  cases hx with
  | zombie _ _ hpc => exact absurd hpc hzombie
  | reap _ hpc => exact absurd hpc hreap
  | birth hpc => exact absurd hpc hbirth
  | noMemory hu => exact .of_unused hu rfl
  | same => exact .refl _
  | reparent | adopt | resume => exact ⟨Iff.rfl, Iff.rfl, fun _ => ⟨rfl, rfl, rfl⟩⟩
  | wakeup chan => exact .wakeup _ _
  | kill =>
    by_cases hsleep : (s.proc c).state = .sleeping
    · refine .of_state (by rw [hsleep]; decide) ?_ ⟨rfl, rfl, rfl⟩
      rw [Proc.kill]
      dsimp only
      rw [if_pos hsleep]
      decide
    · have hstate : (s.proc c).kill.state = (s.proc c).state := if_neg hsleep
      exact ⟨by rw [hstate], by rw [hstate], fun _ => ⟨rfl, rfl, rfl⟩⟩
  | sleep hc hrun hpc =>
    subst hc
    refine .of_state ?_ ⟨by rintro ⟨⟩, by rintro ⟨⟩⟩ ⟨rfl, rfl, rfl⟩
    rw [h.running hrun (by rw [hpc]; rfl)]
    decide
  | runnable hrun hpc =>
    refine .of_state ?_ ⟨by rintro ⟨⟩, by rintro ⟨⟩⟩ ⟨rfl, rfl, rfl⟩
    rw [h.used p c (by rw [hpc]; rfl)]
    decide
  | yield hc hsw =>
    subst hc
    refine .of_state ?_ ⟨by rintro ⟨⟩, by rintro ⟨⟩⟩ ⟨rfl, rfl, rfl⟩
    rw [h.running_of_sw (by rw [hsw]; rintro ⟨⟩) (by rw [hsw]; rintro ⟨⟩)]
    decide
  | doze hc hsw =>
    subst hc
    refine .of_state ?_ ⟨by rintro ⟨⟩, by rintro ⟨⟩⟩ ⟨rfl, rfl, rfl⟩
    rw [h.running_of_sw (by rw [hsw]; rintro ⟨⟩) (by rw [hsw]; rintro ⟨⟩)]
    decide
  | dispatch hr =>
    exact .of_state (by rw [hr]; decide) ⟨by rintro ⟨⟩, by rintro ⟨⟩⟩ ⟨rfl, rfl, rfl⟩

namespace State.Recorded

theorem keep (h : s.Recorded) (hsame : ∀ c, SameSlot (s.proc c) (s'.proc c))
    (hbirths : s'.births = s.births) (hexits : s'.exits = s.exits)
    (hreports : s'.reports = s.reports) : s'.Recorded := by
  have hused : ∀ {c}, (s'.proc c).state ≠ .unused → (s.proc c).state ≠ .unused :=
    fun hc hu => hc ((hsame _).unused.mpr hu)
  have hinc : ∀ {c}, (s'.proc c).state ≠ .unused → (s'.proc c).inc = (s.proc c).inc :=
    fun hc => ((hsame _).data (hused hc)).1
  constructor
  · intro c hc
    rw [hbirths, hinc hc, ((hsame c).data (hused hc)).2.1]
    exact h.birth c (hused hc)
  · intro c d hc hd heq
    rw [hinc hc, hinc hd] at heq
    exact h.apart c d (hused hc) (hused hd) heq
  · rw [hexits, hbirths]
    exact h.exit
  · rw [hexits]
    exact h.exits_nodup
  · intro c hz
    have hz' := (hsame c).zombie.mp hz
    obtain ⟨hi, hp, hx⟩ := (hsame c).data (by rw [hz']; nofun)
    rw [hexits, hi, hp, hx]
    exact h.zombie c hz'
  · intro c x hx hc heq
    rw [hexits] at hx
    rw [hinc hc] at heq
    exact (hsame c).zombie.mpr (h.once c x hx (hused hc) heq)
  · intro x hx
    rw [hexits] at hx
    rw [hreports]
    rcases h.waits x hx with hr | ⟨c, hz, hi⟩
    · exact Or.inl hr
    · refine Or.inr ⟨c, (hsame c).zombie.mpr hz, ?_⟩
      rw [((hsame c).data (by rw [hz]; nofun)).1, hi]
  · rw [hreports, hexits]
    exact h.report
  · rw [hreports]
    exact h.reports_nodup
  · rw [hreports]
    intro r hr c hc
    rw [hinc hc]
    exact h.reported r hr c (hused hc)

/-- A process that has a slot was born before now. -/
theorem inc_lt (h : s.Recorded) (hc : (s.proc c).state ≠ .unused) :
    (s.proc c).inc < s.births.length :=
  (List.getElem?_eq_some_iff.mp (h.birth c hc)).1

theorem exit_inc_lt (h : s.Recorded) {x : Exit} (hx : x ∈ s.exits) : x.inc < s.births.length :=
  (List.getElem?_eq_some_iff.mp (h.exit x hx)).1

section

variable {x : Proc} (hproc : s'.proc = Function.update s.proc c x)

include hproc

theorem proc_self : s'.proc c = x := by
  rw [hproc, Function.update_self]

theorem proc_other (hne : q ≠ c) : s'.proc q = s.proc q := by
  rw [hproc, Function.update_of_ne hne]

/-- A child gets a slot, and a number that nobody had. -/
theorem newborn (h : s.Recorded) (hu : (s.proc c).state = .unused) (hx : x.state = .used)
    (hinc : x.inc = s.births.length) (hbirths : s'.births = s.births ++ [x.pid])
    (hexits : s'.exits = s.exits) (hreports : s'.reports = s.reports) : s'.Recorded := by
  have hself := proc_self hproc
  have hold : ∀ {n : ℕ} {pid : ℤ}, s.births[n]? = some pid → s'.births[n]? = some pid := by
    intro n pid hn
    rw [hbirths, List.getElem?_append_left (List.getElem?_eq_some_iff.mp hn).1, hn]
  -- whoever has a slot and is not the child was there before
  have hother : ∀ {q}, (s'.proc q).state ≠ .unused → q ≠ c →
      s'.proc q = s.proc q ∧ (s.proc q).state ≠ .unused := by
    intro q hq hne
    have heq := proc_other hproc hne
    rw [heq] at hq
    exact ⟨heq, hq⟩
  constructor
  · intro q hq
    by_cases hqc : q = c
    · subst hqc
      rw [hself, hinc, hbirths, List.getElem?_concat_length]
    · obtain ⟨heq, hq⟩ := hother hq hqc
      rw [heq]
      exact hold (h.birth q hq)
  · intro q r hq hr heq
    by_cases hqc : q = c
    · by_cases hrc : r = c
      · rw [hqc, hrc]
      · obtain ⟨hre, hr⟩ := hother hr hrc
        rw [hqc, hself, hinc, hre] at heq
        exact absurd heq (h.inc_lt hr).ne'
    · obtain ⟨hqe, hq⟩ := hother hq hqc
      by_cases hrc : r = c
      · rw [hrc, hself, hinc, hqe] at heq
        exact absurd heq (h.inc_lt hq).ne
      · obtain ⟨hre, hr⟩ := hother hr hrc
        rw [hqe, hre] at heq
        exact h.apart q r hq hr heq
  · intro y hy
    rw [hexits] at hy
    exact hold (h.exit y hy)
  · rw [hexits]
    exact h.exits_nodup
  · intro q hz
    by_cases hqc : q = c
    · rw [hqc, hself, hx] at hz
      cases hz
    · rw [proc_other hproc hqc] at hz ⊢
      rw [hexits]
      exact h.zombie q hz
  · intro q y hy hq heq
    rw [hexits] at hy
    by_cases hqc : q = c
    · rw [hqc, hself, hinc] at heq
      exact absurd heq (h.exit_inc_lt hy).ne
    · obtain ⟨hqe, hq⟩ := hother hq hqc
      rw [hqe] at heq ⊢
      exact h.once q y hy hq heq
  · intro y hy
    rw [hexits] at hy
    rw [hreports]
    rcases h.waits y hy with hr | ⟨q, hz, hi⟩
    · exact Or.inl hr
    · have hqc : q ≠ c := by
        rintro rfl
        cases hz.symm.trans hu
      refine Or.inr ⟨q, ?_⟩
      rw [proc_other hproc hqc]
      exact ⟨hz, hi⟩
  · rw [hreports, hexits]
    exact h.report
  · rw [hreports]
    exact h.reports_nodup
  · rw [hreports]
    intro r hr q hq heq
    obtain ⟨y, hy, hyr, -⟩ := h.report r hr
    by_cases hqc : q = c
    · rw [hqc, hself, hinc, ← hyr] at heq
      exact absurd heq (h.exit_inc_lt hy).ne'
    · obtain ⟨hqe, hq⟩ := hother hq hqc
      rw [hqe] at heq
      exact h.reported r hr q hq heq

/-- A process exits. -/
theorem exits (h : s.Recorded) (hrunning : (s.proc c).state = .running) (hx : x.state = .zombie)
    (hinc : x.inc = (s.proc c).inc) (hpid : x.pid = (s.proc c).pid)
    (hbirths : s'.births = s.births) (hexits : s'.exits = s.exits ++ [⟨x.inc, x.pid, x.xstate⟩])
    (hreports : s'.reports = s.reports) : s'.Recorded := by
  have hself := proc_self hproc
  have hin : (s.proc c).state ≠ .unused := by
    rw [hrunning]
    nofun
  -- slots in use, and who has them, are as before
  have hslot : ∀ q, ((s'.proc q).state ≠ .unused → (s.proc q).state ≠ .unused) ∧
      (s'.proc q).inc = (s.proc q).inc ∧ (s'.proc q).pid = (s.proc q).pid := by
    intro q
    by_cases hqc : q = c
    · subst hqc
      rw [hself, hinc, hpid]
      exact ⟨fun _ => hin, rfl, rfl⟩
    · rw [proc_other hproc hqc]
      exact ⟨id, rfl, rfl⟩
  -- the process has not exited before
  have hfirst : ∀ y ∈ s.exits, y.inc ≠ (s.proc c).inc := by
    intro y hy heq
    cases hrunning.symm.trans (h.once c y hy hin heq)
  constructor
  · intro q hq
    rw [hbirths, (hslot q).2.1, (hslot q).2.2]
    exact h.birth q ((hslot q).1 hq)
  · intro q r hq hr heq
    rw [(hslot q).2.1, (hslot r).2.1] at heq
    exact h.apart q r ((hslot q).1 hq) ((hslot r).1 hr) heq
  · intro y hy
    rw [hexits, List.mem_append, List.mem_singleton] at hy
    rw [hbirths]
    rcases hy with hy | rfl
    · exact h.exit y hy
    · dsimp only
      rw [hinc, hpid]
      exact h.birth c hin
  · rw [hexits, List.map_append, List.map_singleton, List.nodup_append]
    refine ⟨h.exits_nodup, List.nodup_singleton _, fun a ha b hb => ?_⟩
    obtain ⟨y, hy, rfl⟩ := List.mem_map.mp ha
    rw [List.mem_singleton.mp hb, hinc]
    exact hfirst y hy
  · intro q hz
    rw [hexits]
    by_cases hqc : q = c
    · subst hqc
      rw [hself]
      exact List.mem_append_right _ (List.mem_singleton_self _)
    · rw [proc_other hproc hqc] at hz ⊢
      exact List.mem_append_left _ (h.zombie q hz)
  · intro q y hy hq heq
    rw [hexits, List.mem_append, List.mem_singleton] at hy
    rw [(hslot q).2.1] at heq
    by_cases hqc : q = c
    · subst hqc
      rw [hself, hx]
    · rw [proc_other hproc hqc] at hq ⊢
      rcases hy with hy | rfl
      · exact h.once q y hy hq heq
      · exact absurd (h.apart q c hq hin (heq.symm.trans hinc)) hqc
  · intro y hy
    rw [hexits, List.mem_append, List.mem_singleton] at hy
    rw [hreports]
    rcases hy with hy | rfl
    · rcases h.waits y hy with hr | ⟨q, hz, hi⟩
      · exact Or.inl hr
      · have hqc : q ≠ c := by
          rintro rfl
          cases hz.symm.trans hrunning
        refine Or.inr ⟨q, ?_⟩
        rw [proc_other hproc hqc]
        exact ⟨hz, hi⟩
    · refine Or.inr ⟨c, ?_⟩
      rw [hself]
      exact ⟨hx, rfl⟩
  · rw [hreports, hexits]
    intro r hr
    obtain ⟨y, hy, hyr⟩ := h.report r hr
    exact ⟨y, List.mem_append_left _ hy, hyr⟩
  · rw [hreports]
    exact h.reports_nodup
  · rw [hreports]
    intro r hr q hq
    rw [(hslot q).2.1]
    exact h.reported r hr q ((hslot q).1 hq)

/-- A zombie is reported and its slot freed. -/
theorem reaps (h : s.Recorded) (hz : (s.proc c).state = .zombie) (hx : x.state = .unused)
    {st : Option ℤ} (hst : st = none ∨ st = some (s.proc c).xstate)
    (hbirths : s'.births = s.births) (hexits : s'.exits = s.exits)
    (hreports : s'.reports = s.reports ++ [⟨(s.proc c).inc, (s.proc c).pid, st⟩]) :
    s'.Recorded := by
  have hself := proc_self hproc
  have hin : (s.proc c).state ≠ .unused := by
    rw [hz]
    nofun
  -- the slots in use are those from before without `c`
  have hother : ∀ {q}, (s'.proc q).state ≠ .unused →
      q ≠ c ∧ s'.proc q = s.proc q ∧ (s.proc q).state ≠ .unused := by
    intro q hq
    have hqc : q ≠ c := by
      rintro rfl
      rw [hself] at hq
      exact hq hx
    have heq := proc_other hproc hqc
    rw [heq] at hq
    exact ⟨hqc, heq, hq⟩
  constructor
  · intro q hq
    obtain ⟨-, heq, hq⟩ := hother hq
    rw [hbirths, heq]
    exact h.birth q hq
  · intro q r hq hr heq
    obtain ⟨-, hqe, hq⟩ := hother hq
    obtain ⟨-, hre, hr⟩ := hother hr
    rw [hqe, hre] at heq
    exact h.apart q r hq hr heq
  · rw [hexits, hbirths]
    exact h.exit
  · rw [hexits]
    exact h.exits_nodup
  · intro q hq
    obtain ⟨-, heq, -⟩ := hother (q := q) (by rw [hq]; nofun)
    rw [heq] at hq ⊢
    rw [hexits]
    exact h.zombie q hq
  · intro q y hy hq heq
    obtain ⟨-, hqe, hq⟩ := hother hq
    rw [hexits] at hy
    rw [hqe] at heq ⊢
    exact h.once q y hy hq heq
  · intro y hy
    rw [hexits] at hy
    rw [hreports]
    rcases h.waits y hy with ⟨r, hr, hry⟩ | ⟨q, hq, hi⟩
    · exact Or.inl ⟨r, List.mem_append_left _ hr, hry⟩
    · by_cases hqc : q = c
      · subst hqc
        exact Or.inl ⟨_, List.mem_append_right _ (List.mem_singleton_self _), hi⟩
      · refine Or.inr ⟨q, ?_⟩
        rw [proc_other hproc hqc]
        exact ⟨hq, hi⟩
  · rw [hreports, hexits]
    intro r hr
    rw [List.mem_append, List.mem_singleton] at hr
    rcases hr with hr | rfl
    · exact h.report r hr
    · exact ⟨_, h.zombie c hz, rfl, rfl, hst⟩
  · rw [hreports, List.map_append, List.map_singleton, List.nodup_append]
    refine ⟨h.reports_nodup, List.nodup_singleton _, fun a ha b hb => ?_⟩
    obtain ⟨r, hr, rfl⟩ := List.mem_map.mp ha
    rw [List.mem_singleton.mp hb]
    exact (h.reported r hr c hin).symm
  · rw [hreports]
    intro r hr q hq heq
    obtain ⟨hqc, hqe, hq⟩ := hother hq
    rw [hqe] at heq
    rw [List.mem_append, List.mem_singleton] at hr
    rcases hr with hr | rfl
    · exact h.reported r hr q hq heq
    · exact hqc (h.apart q c hq hin heq)

end

theorem turn (h : s.Recorded) (hp : s.Placed) (hrun : (s.thread p).sw = .run)
    (ht : Turn s p s') : s'.Recorded := by
  have hchange := ht.change hrun
  cases ht with
  | exitZombie hpc =>
    exact h.exits rfl (hp.running hrun (by rw [hpc]; rfl)) rfl rfl rfl rfl rfl rfl
  | @reap c hpc hz =>
    have hst : (if (s.thread p).addr then some (s.proc c).xstate else none) = none ∨
        (if (s.thread p).addr then some (s.proc c).xstate else none) = some (s.proc c).xstate := by
      split
      · exact Or.inr rfl
      · exact Or.inl rfl
    exact h.reaps rfl hz rfl hst rfl rfl rfl
  | @birth c hpc hu =>
    have hproc : (forkChild s p c true).proc = Function.update s.proc c
        { s.proc c with state := .used, pid := s.nextpid, inc := s.births.length } := rfl
    exact h.newborn hproc hu rfl rfl rfl rfl rfl
  | @noMemory c hpc hu =>
    refine h.keep (fun q => ?_) rfl rfl rfl
    by_cases hq : q = c
    · subst hq
      refine .of_unused hu ?_
      exact congrArg Proc.state (proc_setProc_self (s := s) (x := {}))
    · have heq : (forkChild s p c false).proc q = s.proc q := proc_setProc_of_ne (s := s) hq
      rw [heq]
      exact .refl _
  | copyoutFails | scanNext | allocNext => exact h.keep (fun _ => .refl _) rfl rfl rfl
  | exitWait hpc | reparentChild hpc | reparentSkip hpc | reparentDone hpc | wakeupSelf hpc
  | wakeupLock hpc | wakeupDone hpc | wakeupSlot hpc | exitLock hpc | exitRelease hpc
  | exitSched hpc | waitWait hpc | scanLock hpc | scanSkip hpc | scanKids hpc | scanNone hpc
  | waitReturn hpc | killed hpc | killedYes hpc | killedNo hpc | sleepLock hpc | sleepRelease hpc
  | sleepSet hpc | allocLock hpc | allocNone hpc | forkWait hpc | forkParent hpc | forkLock hpc
  | forkRunnable hpc | killLock hpc | killNone hpc | killSlot hpc | killNext hpc =>
    exact h.keep (fun c => (hchange c).sameSlot hp (by rw [hpc]; nofun) (by rw [hpc]; nofun)
      (by rw [hpc]; nofun)) rfl rfl rfl

end State.Recorded

/-- One slot changes, and the records say the same about it. -/
theorem sameSlot_setProc {x : Proc} (hx : SameSlot (s.proc q) x) (c : ℕ) :
    SameSlot (s.proc c) ((s.setProc q x).proc c) := by
  by_cases hc : c = q
  · subst hc
    rwa [proc_setProc_self]
  · rw [proc_setProc_of_ne hc]
    exact .refl _

/-- The events other than a turn enter nothing in the records. -/
theorem step_sameSlot (hp : s.Placed) (hs : step s e = some s') : (∃ p ok, e = .turn p ok) ∨
    (∀ c, SameSlot (s.proc c) (s'.proc c)) ∧ s'.births = s.births ∧ s'.exits = s.exits ∧
      s'.reports = s.reports := by
  cases e with
  | turn p ok => exact Or.inl ⟨p, ok, rfl⟩
  | leave p =>
    obtain ⟨x, hx, rfl⟩ := Option.map_eq_some_iff.mp hs
    refine Or.inr ⟨sameSlot_setProc ?_, rfl, rfl, rfl⟩
    have hsw : (s.thread p).sw ≠ .run ∧ (s.thread p).sw ≠ .off := by
      constructor <;> (intro hsw; rw [hsw] at hx; cases hx)
    have hrunning : (s.proc p).state ≠ .unused ∧ (s.proc p).state ≠ .zombie := by
      rw [hp.running_of_sw hsw.1 hsw.2]
      exact ⟨nofun, nofun⟩
    unfold Proc.leave at hx
    split at hx
    · cases hx
      exact .of_state hrunning ⟨nofun, nofun⟩ ⟨rfl, rfl, rfl⟩
    · cases hx
      exact .of_state hrunning ⟨nofun, nofun⟩ ⟨rfl, rfl, rfl⟩
    · cases hx
  | dispatch p =>
    obtain ⟨hr, hs⟩ := Option.ite_none_right_eq_some.mp hs
    obtain ⟨-, hs⟩ := Option.ite_none_right_eq_some.mp hs
    cases hs
    refine Or.inr ⟨sameSlot_setProc (.of_state ?_ ⟨nofun, nofun⟩ ⟨rfl, rfl, rfl⟩), rfl, rfl, rfl⟩
    rw [hr]
    exact ⟨nofun, nofun⟩
  | resume p =>
    obtain ⟨-, hs⟩ := Option.ite_none_right_eq_some.mp hs
    cases hs
    exact Or.inr ⟨sameSlot_setProc ⟨Iff.rfl, Iff.rfl, fun _ => ⟨rfl, rfl, rfl⟩⟩, rfl, rfl, rfl⟩
  | rouse p =>
    obtain ⟨-, hs⟩ := Option.ite_none_right_eq_some.mp hs
    cases hs
    exact Or.inr ⟨sameSlot_setProc (SameSlot.wakeup _ _), rfl, rfl, rfl⟩
  | yield p =>
    obtain ⟨-, hs⟩ := Option.ite_none_right_eq_some.mp hs
    obtain ⟨-, hs⟩ := Option.ite_none_right_eq_some.mp hs
    cases hs
    exact Or.inr ⟨fun _ => .refl _, rfl, rfl, rfl⟩
  | doze p =>
    obtain ⟨-, hs⟩ := Option.ite_none_right_eq_some.mp hs
    obtain ⟨-, hs⟩ := Option.ite_none_right_eq_some.mp hs
    cases hs
    exact Or.inr ⟨fun _ => .refl _, rfl, rfl, rfl⟩
  | _ =>
    obtain ⟨-, hs⟩ := Option.ite_none_right_eq_some.mp hs
    cases hs
    exact Or.inr ⟨fun _ => .refl _, rfl, rfl, rfl⟩

theorem step_recorded (h : s.Recorded) (hp : s.Placed) (hs : step s e = some s') :
    s'.Recorded := by
  rcases step_sameSlot hp hs with ⟨p, ok, rfl⟩ | ⟨hsame, hbirths, hexits, hreports⟩
  · obtain ⟨hrun, hs⟩ := Option.ite_none_right_eq_some.mp hs
    exact h.turn hp hrun (turn_eq_some hs)
  · exact h.keep hsame hbirths hexits hreports

theorem Proc.Forked.not_unused {x : Proc} (h : x.Forked) : x.state ≠ .unused := by
  rcases h with (h | h | h) | h <;> rw [h] <;> nofun

/-- Only `kwait` frees the slot of a forked process. -/
theorem Change.freed {x : Proc} (hx : Change s p c x) (hf : (s.proc c).Forked)
    (hu : x.state = .unused) : (s.thread p).pc = .scanHeld c ∧ (s.proc c).state = .zombie := by
  rcases hx.unused_or hu with hold | -
  · exact absurd hold hf.not_unused
  · cases hx with
    | reap _ hpc hz => exact ⟨hpc, hz⟩
    | noMemory hold => exact absurd hold hf.not_unused
    | same | reparent | adopt | resume => exact absurd hu hf.not_unused
    | wakeup chan =>
      exact absurd ((SameSlot.wakeup _ _).unused.mp hu) hf.not_unused
    | kill =>
      rw [Proc.kill] at hu
      dsimp only at hu
      split at hu
      · cases hu
      · exact absurd hu hf.not_unused
    | _ => cases hu

/-! ### The result -/

theorem Reachable.recorded (h : Reachable s) : s.Tidy ∧ s.Family ∧ s.Recorded := by
  refine Transition.Reach.inv (I := fun s => s.Tidy ∧ s.Family ∧ s.Recorded) h ?_ ?_
  · rintro s rfl
    exact ⟨booted_tidy, booted_family, booted_recorded⟩
  · intro s e s' hi _ hs
    exact ⟨step_tidy hi.1 hs, step_family hi.2.1 hi.1 hs, step_recorded hi.2.2 hi.1.toPlaced hs⟩

/-- Exits and waits are in order. -/
structure State.Orderly (s : State) : Prop where
  /-- A live process other than init has a parent that has a slot and has not exited. -/
  parent : ∀ c ≠ initproc, (s.proc c).Live → ∃ q, (s.proc c).parent = some q ∧
    (s.proc q).state ≠ .unused ∧ (s.proc q).state ≠ .zombie
  /-- The slot of a forked process is freed by a `kwait` of its parent, after it has exited. -/
  freed : ∀ e s' c, step s e = some s' → (s.proc c).Forked → (s'.proc c).state = .unused →
    ∃ p ok, e = .turn p ok ∧ (s.thread p).pc = .scanHeld c ∧ (s.proc c).parent = some p ∧
      (s.proc c).state = .zombie
  /-- No process is reported twice. -/
  once : (s.reports.map Report.inc).Nodup
  /-- A report is about a process that has exited, with its pid and its status. -/
  report : ∀ r ∈ s.reports, ∃ x ∈ s.exits, x.inc = r.inc ∧ x.pid = r.pid ∧
    s.births[r.inc]? = some r.pid ∧ (r.status = none ∨ r.status = some x.status)
  /-- A process that has exited and has not been reported is a zombie with a live parent. -/
  waits : ∀ x ∈ s.exits, (∀ r ∈ s.reports, r.inc ≠ x.inc) → ∃ c q,
    (s.proc c).state = .zombie ∧ (s.proc c).inc = x.inc ∧ (s.proc c).pid = x.pid ∧
      (s.proc c).xstate = x.status ∧ (s.proc c).parent = some q ∧ (s.proc q).Live
  /-- When `copyout` fails, the child stays as it is, nothing is reported, and `kwait` returns
  -1. -/
  fails : ∀ p c s', (s.thread p).pc = .scanHeld c → (s.proc c).state = .zombie →
    (s.thread p).addr = true → step s (.turn p false) = some s' →
      s'.proc = s.proc ∧ s'.reports = s.reports ∧ (s'.thread p).ret = -1

theorem exit_wait_orderly (h : Reachable s) : s.Orderly := by
  obtain ⟨htidy, hfamily, hrecorded⟩ := h.recorded
  constructor
  · intro c hc hlive
    obtain ⟨q, hpar, hq⟩ := hfamily.parent c hc (Or.inl hlive)
    refine ⟨q, hpar, ?_⟩
    rcases hq with hq | hq | hq <;> rw [hq] <;> decide
  · intro e s' c hs hf hu
    rcases step_sameSlot htidy.toPlaced hs with ⟨p, ok, rfl⟩ | ⟨hsame, -⟩
    · obtain ⟨hrun, hs⟩ := Option.ite_none_right_eq_some.mp hs
      obtain ⟨hpc, hz⟩ := ((turn_eq_some hs).change hrun c).freed hf hu
      exact ⟨p, ok, rfl, hpc, hfamily.counts p c (by rw [hpc]; rfl), hz⟩
    · exact absurd ((hsame c).unused.mp hu) hf.not_unused
  · exact hrecorded.reports_nodup
  · intro r hr
    obtain ⟨x, hx, hinc, hpid, hst⟩ := hrecorded.report r hr
    refine ⟨x, hx, hinc, hpid, ?_, hst⟩
    rw [← hinc, ← hpid]
    exact hrecorded.exit x hx
  · intro x hx hno
    rcases hrecorded.waits x hx with ⟨r, hr, hrx⟩ | ⟨c, hz, hinc⟩
    · exact absurd hrx (hno r hr)
    · have heq := List.inj_on_of_nodup_map hrecorded.exits_nodup (hrecorded.zombie c hz) hx hinc
      have hc : c ≠ initproc := by
        rintro rfl
        rcases hfamily.init with hi | hi | hi <;> cases hi.symm.trans hz
      obtain ⟨q, hpar, hq⟩ := hfamily.parent c hc (Or.inr hz)
      exact ⟨c, q, hz, hinc, congrArg Exit.pid heq, congrArg Exit.status heq, hpar, hq⟩
  · intro p c s' hpc hz haddr hs
    obtain ⟨-, hs⟩ := Option.ite_none_right_eq_some.mp hs
    rw [turn, hpc] at hs
    dsimp only at hs
    rw [if_pos hz, reap, if_pos ⟨haddr, by rintro ⟨⟩⟩] at hs
    cases hs
    refine ⟨rfl, rfl, ?_⟩
    simp [State.release, State.goto, State.setHeld, State.setRet, State.setThread]

theorem exit_wait_orderly_initAsleep : initAsleep.Orderly :=
  exit_wait_orderly initAsleep_reachable

end Wait

end Xv6
