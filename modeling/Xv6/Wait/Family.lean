import Xv6.Wait.Asleep

/-!
# Parents and children

A process that has been forked has a parent that has not exited, as long as it has a slot: `reparent`
has given the children of a process to init before it makes itself a `ZOMBIE`, and init does not
exit. So every zombie is waited for by somebody who can still do it, and is freed by that process and
nobody else.
-/

namespace Xv6

namespace Wait

open State Transition

variable {s s' : State} {p q c t : ℕ} {l : Lk} {ok : Bool} {e : Event}

/-- Forked, and not exited. -/
def Proc.Live (x : Proc) : Prop :=
  x.state = .runnable ∨ x.state = .running ∨ x.state = .sleeping

/-- Its `kfork` has been completed, and its slot has not been freed. -/
def Proc.Forked (x : Proc) : Prop := x.Live ∨ x.state = .zombie

/-- The slots in which `reparent` has left no child behind. -/
def Pc.left : Pc → ℕ → Prop
  | .reparent i, c => c < i
  | .wakeup (.init i) _, c | .wakeupHeld (.init i) _, c => c ≤ i
  | .wakeup .parent _, _ | .wakeupHeld .parent _, _ | .exitLock, _ | .exitZombie, _ => True
  | _, _ => False

/-- The child whose parent pointer the process counts on. -/
def Pc.counts : Pc → ℕ → Prop
  | .forkLock c, d | .forkRunnable c, d => d = c
  | .scanHeld i, d => d = i
  | _, _ => False

structure State.Family (s : State) : Prop where
  parent : ∀ c ≠ initproc, (s.proc c).Forked → ∃ q, (s.proc c).parent = some q ∧ (s.proc q).Live
  init : (s.proc initproc).Live
  unused : ∀ c, (s.proc c).state = .unused → (s.proc c).parent = none
  childless : ∀ p c, (s.thread p).pc.left c → (s.proc c).parent ≠ some p
  counts : ∀ p c, (s.thread p).pc.counts c → (s.proc c).parent = some p

theorem booted_family : booted.Family where
  parent c hc hf := by
    have hslot : booted.proc c = {} := if_neg hc
    rw [hslot] at hf
    rcases hf with (hf | hf | hf) | hf <;> cases hf
  init := Or.inl rfl
  unused c _ := by
    rw [booted]
    dsimp only
    split <;> rfl
  childless p c hc := by cases hc
  counts p c hc := by cases hc

/-! ### Changes of slots -/

/-- A live process stays so until it makes itself a zombie. -/
theorem Change.live {x : Proc} (hx : Change s p c x) (h : (s.proc c).Live) :
    x.Live ∨ c = p ∧ (s.thread p).pc = .exitZombie := by
  cases hx with
  | zombie hc _ hpc => exact Or.inr ⟨hc, hpc⟩
  | reap _ _ hz =>
    rw [Proc.Live, hz] at h
    rcases h with h | h | h <;> cases h
  | birth _ hu =>
    rw [Proc.Live, hu] at h
    rcases h with h | h | h <;> cases h
  | noMemory hu =>
    rw [Proc.Live, hu] at h
    rcases h with h | h | h <;> cases h
  | wakeup chan =>
    rw [Proc.wakeup]
    split
    · exact Or.inl (Or.inl rfl)
    · exact Or.inl h
  | kill =>
    refine Or.inl ?_
    by_cases hsleep : (s.proc c).state = .sleeping
    · exact Or.inl (if_pos hsleep)
    · rw [Proc.Live, Proc.kill]
      dsimp only
      rw [if_neg hsleep]
      exact h
  | same | reparent | adopt | resume => exact Or.inl h
  | runnable | yield => exact Or.inl (Or.inl rfl)
  | dispatch => exact Or.inl (Or.inr (Or.inl rfl))
  | sleep | doze => exact Or.inl (Or.inr (Or.inr rfl))

/-- A process on the processor, or leaving it, is forked. -/
theorem State.Placed.forked (h : s.Placed) (hon : (s.thread p).sw ≠ .off) :
    (s.proc p).Forked := by
  have hact := h.active p hon
  split at hact
  · exact Or.inr hact
  · exact Or.inl (Or.inr (Or.inl hact))

/-- Only the end of `kfork` makes a forked process. -/
theorem Change.forked (h : s.Placed) {x : Proc} (hx : Change s p c x) (hf : x.Forked) :
    (s.proc c).Forked ∨ (s.thread p).sw = .run ∧ (s.thread p).pc = .forkRunnable c := by
  cases hx with
  | runnable hrun hpc => exact Or.inr ⟨hrun, hpc⟩
  | reap | birth | noMemory => rcases hf with (hf | hf | hf) | hf <;> cases hf
  | zombie hc hrun _ =>
    subst hc
    exact Or.inl (h.forked (by rw [hrun]; nofun))
  | sleep hc hrun _ =>
    subst hc
    exact Or.inl (h.forked (by rw [hrun]; nofun))
  | yield hc hsw =>
    subst hc
    exact Or.inl (h.forked (by rw [hsw]; nofun))
  | doze hc hsw =>
    subst hc
    exact Or.inl (h.forked (by rw [hsw]; nofun))
  | dispatch hr => exact Or.inl (Or.inl (Or.inl hr))
  | wakeup chan =>
    rw [Proc.wakeup] at hf
    split at hf
    · rename_i hsleep
      exact Or.inl (Or.inl (Or.inr (Or.inr hsleep.1)))
    · exact Or.inl hf
  | kill =>
    refine Or.inl ?_
    by_cases hsleep : (s.proc c).state = .sleeping
    · exact Or.inl (Or.inr (Or.inr hsleep))
    · rw [Proc.Forked, Proc.Live, Proc.kill] at hf
      dsimp only at hf
      rwa [if_neg hsleep] at hf
  | same | reparent | adopt | resume => exact Or.inl hf

/-- Slots are freed as a whole. -/
theorem Change.unused_or {x : Proc} (hx : Change s p c x) (hu : x.state = .unused) :
    (s.proc c).state = .unused ∨ x = {} := by
  cases hx with
  | reap | noMemory => exact Or.inr rfl
  | wakeup chan =>
    rw [Proc.wakeup] at hu
    split at hu
    · cases hu
    · exact Or.inl hu
  | kill =>
    rw [Proc.kill] at hu
    dsimp only at hu
    split at hu
    · cases hu
    · exact Or.inl hu
  | same | reparent | adopt | resume => exact Or.inl hu
  | _ => cases hu

/-- What becomes of a parent pointer. -/
theorem Change.parent_or {x : Proc} (hx : Change s p c x) :
    x.parent = (s.proc c).parent ∨
      (s.thread p).pc = .reparent c ∧ (s.proc c).parent = some p ∧ x.parent = some initproc ∨
      (s.thread p).pc = .forkParent c ∧ x.parent = some p ∨
      (s.thread p).pc = .scanHeld c ∧ (s.proc c).state = .zombie ∧ x = {} ∨
      (s.proc c).state = .unused ∧ x = {} := by
  cases hx with
  | reparent hpc hparent => exact Or.inr (Or.inl ⟨hpc, hparent, rfl⟩)
  | adopt _ hpc => exact Or.inr (Or.inr (Or.inl ⟨hpc, rfl⟩))
  | reap _ hpc hz => exact Or.inr (Or.inr (Or.inr (Or.inl ⟨hpc, hz, rfl⟩)))
  | noMemory hu => exact Or.inr (Or.inr (Or.inr (Or.inr ⟨hu, rfl⟩)))
  | wakeup chan => exact Or.inl (Proc.parent_wakeup _ _)
  | same | zombie | sleep | birth | runnable | kill | yield | doze | dispatch | resume =>
    exact Or.inl rfl

/-! ### Steps -/

theorem child_or_scan {pc : Pc} (h : pc.counts c) : pc.child? = some c ∨ pc = .scanHeld c := by
  cases pc with
  | forkLock d =>
    cases h
    exact Or.inl rfl
  | forkRunnable d =>
    cases h
    exact Or.inl rfl
  | scanHeld i =>
    cases h
    exact Or.inr rfl
  | _ => cases h

theorem exiting_of_left {pc : Pc} (h : pc.left c) : pc.exiting = true := by
  cases pc with
  | reparent i => rfl
  | wakeup k j => rfl
  | wakeupHeld k j => rfl
  | exitLock => rfl
  | exitZombie => rfl
  | _ => cases h

theorem wait_of_left {pc : Pc} (h : pc.left c) : .wait ∈ pc.locks p := by
  cases pc with
  | reparent i => simp [Pc.locks]
  | wakeup k j => simp [Pc.locks]
  | wakeupHeld k j => simp [Pc.locks]
  | exitLock => simp [Pc.locks]
  | exitZombie => simp [Pc.locks]
  | _ => cases h

theorem State.Placed.wait_of_scan (h : s.Placed) (hp : (s.thread p).pc = .scanHeld c)
    (hq : .wait ∈ (s.thread q).pc.locks q) : q = p :=
  h.eq_of_wait (by rw [hp]; simp [Pc.locks]) hq

namespace State.Family

variable (h : s.Family) (htidy : s.Tidy) (hm : Moves s s' p)

include h htidy hm

/-- A forked process keeps a live parent. -/
theorem parent_step (hc : c ≠ initproc) (hf : (s'.proc c).Forked) :
    ∃ q, (s'.proc c).parent = some q ∧ (s'.proc q).Live := by
  have hlive : ∀ {q}, (s.proc q).Live → (s.thread p).pc ≠ .exitZombie → (s'.proc q).Live := by
    intro q hq hne
    rcases (hm.change q).live hq with hq | ⟨-, hpc⟩
    · exact hq
    · exact absurd hpc hne
  rcases (hm.change c).forked htidy.toPlaced hf with hold | ⟨hrun, hpc⟩
  · obtain ⟨q, hpar, hq⟩ := h.parent c hc hold
    rcases (hm.change c).parent_or with hsame | ⟨hpc, -, hinit⟩ | ⟨hpc, -⟩ | ⟨-, -, hx⟩ | ⟨-, hx⟩
    · refine ⟨q, hsame.trans hpar, ?_⟩
      rcases (hm.change q).live hq with hq | ⟨rfl, hpc⟩
      · exact hq
      · -- a process that exits has no children left
        exact absurd hpar (h.childless q c (by rw [hpc]; trivial))
    · exact ⟨initproc, hinit, hlive h.init (by rw [hpc]; nofun)⟩
    · -- the child of a `kfork` in progress is not forked
      have hu := htidy.used p c (by rw [hpc]; rfl)
      rw [Proc.Forked, Proc.Live, hu] at hold
      rcases hold with (hold | hold | hold) | hold <;> cases hold
    · rw [hx] at hf
      rcases hf with (hf | hf | hf) | hf <;> cases hf
    · rw [hx] at hf
      rcases hf with (hf | hf | hf) | hf <;> cases hf
  · have hpar := h.counts p c (by rw [hpc]; rfl)
    have hp : (s.proc p).Live := Or.inr (Or.inl (htidy.running hrun (by rw [hpc]; rfl)))
    rcases (hm.change c).parent_or with hsame | ⟨hpc', -⟩ | ⟨hpc', -⟩ | ⟨hpc', -⟩ | ⟨hu, -⟩
    · exact ⟨p, hsame.trans hpar, hlive hp (by rw [hpc]; nofun)⟩
    · cases hpc.symm.trans hpc'
    · cases hpc.symm.trans hpc'
    · cases hpc.symm.trans hpc'
    · rw [h.unused c hu] at hpar
      cases hpar

/-- A step keeps the invariant, if it does so for what the process `p` that takes it claims. -/
theorem move (hleft : ∀ c, (s'.thread p).pc.left c →
      (s.thread p).pc.left c ∨ (s'.proc c).parent ≠ some p)
    (hcounts : ∀ c, (s'.thread p).pc.counts c → (s'.proc c).parent = some p) : s'.Family := by
  refine ⟨fun c hc hf => h.parent_step htidy hm hc hf, ?_, fun c hu => ?_, fun x c hx hpar => ?_,
    fun x c hx => ?_⟩
  · rcases (hm.change initproc).live h.init with hlive | ⟨hp, hpc⟩
    · exact hlive
    · exact absurd hp.symm (htidy.exiter p (by rw [hpc]; rfl))
  · rcases (hm.change c).unused_or hu with hold | hx
    · have hnone := h.unused c hold
      rcases (hm.change c).parent_or with hsame | ⟨-, hpar, -⟩ | ⟨hpc, -⟩ | ⟨-, -, hx⟩ | ⟨-, hx⟩
      · exact hsame.trans hnone
      · cases hnone.symm.trans hpar
      · cases (htidy.used p c (by rw [hpc]; rfl)).symm.trans hold
      · rw [hx]
      · rw [hx]
    · rw [hx]
  · have hne := htidy.exiter x
    by_cases hxp : x = p
    · subst hxp
      rcases hleft c hx with hold | hno
      · rcases (hm.change c).parent hpar with hpar | ⟨rfl, -⟩ | ⟨-, -, hpc⟩
        · exact h.childless x c hold hpar
        · exact hne (exiting_of_left hold) rfl
        · rw [hpc] at hold
          exact hold
      · exact hno hpar
    · rcases hm.others x hxp with heq | ⟨heq, -⟩
      · rw [heq] at hx
        rcases (hm.change c).parent hpar with hpar | ⟨rfl, -⟩ | ⟨hxp', -⟩
        · exact h.childless x c hx hpar
        · exact hne (exiting_of_left hx) rfl
        · exact hxp hxp'
      · rw [heq] at hx
        exact hx
  · by_cases hxp : x = p
    · subst hxp
      exact hcounts c hx
    · rcases hm.others x hxp with heq | ⟨heq, -⟩
      · rw [heq] at hx
        have hpar := h.counts x c hx
        rcases (hm.change c).parent_or with hsame | ⟨-, hpar', -⟩ | ⟨hpc, -⟩ | ⟨hpc, hz, -⟩ | ⟨hu, -⟩
        · exact hsame.trans hpar
        · exact absurd (Option.some.inj (hpar.symm.trans hpar')) hxp
        · rcases child_or_scan hx with hchild | hscan
          · exact absurd (htidy.maker x p c hchild (by rw [hpc]; rfl)) hxp
          · exact absurd (htidy.wait_of_scan hscan (by rw [hpc]; simp [Pc.locks])).symm hxp
        · rcases child_or_scan hx with hchild | hscan
          · rw [htidy.used x c hchild] at hz
            cases hz
          · exact absurd (htidy.wait_of_scan hscan (by rw [hpc]; simp [Pc.locks])).symm hxp
        · rw [h.unused c hu] at hpar
          cases hpar
      · rw [heq] at hx
        exact absurd hx id

omit h htidy hm

/-- A step outside `reparent`. -/
theorem count (h : s.Family) (htidy : s.Tidy) (hm : Moves s s' p) {pc₀ pc : Pc}
    (hpc₀ : (s.thread p).pc = pc₀) (hpc : (s'.thread p).pc = pc)
    (hleft : ∀ c, pc.left c → pc₀.left c)
    (hcounts : ∀ c, pc.counts c → (s'.proc c).parent = some p) : s'.Family := by
  refine h.move htidy hm (fun c hc => Or.inl ?_) fun c hc => ?_
  · rw [hpc] at hc
    rw [hpc₀]
    exact hleft c hc
  · rw [hpc] at hc
    exact hcounts c hc

/-- A step about which the invariant claims nothing new. -/
theorem plain (h : s.Family) (htidy : s.Tidy) (hm : Moves s s' p) {pc₀ pc : Pc}
    (hpc₀ : (s.thread p).pc = pc₀) (hpc : (s'.thread p).pc = pc)
    (hleft : ∀ c, pc.left c → pc₀.left c) (hcounts : ∀ c, ¬pc.counts c) : s'.Family :=
  h.count htidy hm hpc₀ hpc hleft fun c hc => absurd hc (hcounts c)

theorem turn (h : s.Family) (htidy : s.Tidy) (hrun : (s.thread p).sw = .run)
    (ht : Turn s p s') : s'.Family := by
  have hm : Moves s s' p := ⟨ht.change hrun, ht.tidied hrun, fun q hq => ht.others hq⟩
  cases ht with
  | exitWait hpc =>
    refine h.plain htidy hm hpc pc_goto_self (fun c hc => ?_) fun _ => id
    exact absurd hc (Nat.not_lt_zero c)
  | @reparentChild i hpc _ _ =>
    have hne := htidy.exiter p (by rw [hpc]; rfl)
    refine h.move htidy hm (fun c hc => ?_) fun c hc => ?_
    · have hle : c ≤ i := by
        rwa [pc_goto_self] at hc
      rcases Nat.lt_or_eq_of_le hle with hlt | rfl
      · rw [hpc]
        exact Or.inl hlt
      · refine Or.inr ?_
        change ((s.setProc c _).proc c).parent ≠ _
        rw [proc_setProc_self]
        exact fun heq => hne (Option.some.inj heq).symm
    · rw [pc_goto_self] at hc
      exact absurd hc id
  | @reparentSkip i hpc _ hparent =>
    refine h.move htidy hm (fun c hc => ?_) fun c hc => ?_
    · rw [pc_goto_self] at hc
      rw [hpc]
      rcases Nat.lt_succ_iff_lt_or_eq.mp hc with hlt | rfl
      · exact Or.inl hlt
      · exact Or.inr hparent
    · rw [pc_goto_self] at hc
      exact absurd hc id
  | @reparentDone i hpc hi =>
    refine h.move htidy hm (fun c _ => ?_) fun c hc => ?_
    · rw [hpc]
      -- slots beyond the table have no parent
      by_cases hu : (s.proc c).state = .unused
      · refine Or.inr ?_
        change (s.proc c).parent ≠ _
        rw [h.unused c hu]
        nofun
      · exact Or.inl ((htidy.bound c hu).trans_le hi)
    · rw [pc_goto_self] at hc
      exact absurd hc id
  | @wakeupSelf k hpc | @wakeupLock k _ hpc | @wakeupSlot k _ hpc =>
    cases k with
    | init i => exact h.plain htidy hm hpc pc_goto_self (fun _ hc => hc) fun _ => id
    | parent => exact h.plain htidy hm hpc pc_goto_self (fun _ hc => hc) fun _ => id
  | @wakeupDone k _ hpc _ =>
    cases k with
    | init i =>
      exact h.plain htidy hm hpc pc_goto_self (fun _ hc => Nat.le_of_lt_succ hc) fun _ => id
    | parent => exact h.plain htidy hm hpc pc_goto_self (fun _ hc => hc) fun _ => id
  | exitLock hpc => exact h.plain htidy hm hpc pc_goto_self (fun _ hc => hc) fun _ => id
  | scanLock hpc _ hparent =>
    refine h.count htidy hm hpc pc_goto_self (fun _ hc => absurd hc id) fun c hc => ?_
    cases hc
    exact hparent
  | @forkParent d hpc =>
    refine h.count htidy hm hpc pc_goto_self (fun _ hc => absurd hc id) fun c hc => ?_
    cases hc
    change ((s.setProc d _).proc d).parent = _
    rw [proc_setProc_self]
  | @forkLock d hpc =>
    refine h.count htidy hm hpc pc_goto_self (fun _ hc => absurd hc id) fun c hc => ?_
    cases hc
    exact h.counts p d (by rw [hpc]; rfl)
  | exitZombie hpc | exitRelease hpc | exitSched hpc | waitWait hpc | scanSkip hpc | scanKids hpc
  | scanNone hpc | copyoutFails hpc | reap hpc | scanNext hpc | waitReturn hpc | killed hpc
  | killedYes hpc | killedNo hpc | sleepLock hpc | sleepRelease hpc | sleepSet hpc | allocLock hpc
  | allocNone hpc | birth hpc | noMemory hpc | allocNext hpc | forkWait hpc | forkRunnable hpc
  | killLock hpc | killNone hpc | killSlot hpc | killNext hpc =>
    exact h.plain htidy hm hpc pc_goto_self (fun _ hc => absurd hc id) fun _ => id

theorem aside (h : s.Family) (htidy : s.Tidy) (hm : Moves s s' p) (ha : Aside s s' p) :
    s'.Family := by
  rcases ha.pc with hpc | ⟨-, hnew, hchild⟩
  · refine h.count htidy hm rfl hpc (fun _ hc => hc) fun c hc => ?_
    rw [ha.parent c]
    exact h.counts p c hc
  · refine h.plain htidy hm rfl rfl (fun c hc => ?_) fun c hc => ?_
    · have hmem := wait_of_left (p := p) hc
      rw [hnew] at hmem
      cases hmem
    · rcases child_or_scan hc with hc | hc
      · rw [hchild] at hc
        cases hc
      · rw [hc] at hnew
        cases hnew

end State.Family

theorem step_family (h : s.Family) (htidy : s.Tidy) (hs : step s e = some s') : s'.Family := by
  obtain ⟨p, hm, ⟨hrun, ht⟩ | ha⟩ := step_moves htidy hs
  · exact h.turn htidy hrun ht
  · exact h.aside htidy hm ha

end Wait

end Xv6
