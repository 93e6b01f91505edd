import Xv6.Wait.Steps

/-!
# Processes and their locks

The invariant about control: a process holds the locks that the place where it is relies on, a
process on the processor is `RUNNING` until it has made itself a `ZOMBIE`, and a child that is still
being made is `USED` and belongs to one `kfork`.
-/

namespace Xv6

namespace Wait

open State

variable {s s' : State} {p q c : ℕ} {l : Lk} {ok : Bool}

attribute [local simp] Pc.locks

/-! ### Control -/

/-- The process has made itself a `ZOMBIE` and not left the processor yet. -/
def Pc.exited : Pc → Bool
  | .exitRelease | .exitSched => true
  | _ => false

/-- The child that `kfork` has taken a slot for and not finished. -/
def Pc.child? : Pc → Option ℕ
  | .forkWait c | .forkParent c | .forkLock c | .forkRunnable c => some c
  | _ => none

/-- A process relies on a lock. -/
def State.relies (s : State) (a : Owner) (l : Lk) : Prop :=
  ∃ p, a = .proc p ∧ l ∈ (s.thread p).locks p

structure State.Placed (s : State) : Prop where
  locked : Locks.Sound s.held s.relies
  active : ∀ p, (s.thread p).sw ≠ .off →
    (s.proc p).state = if (s.thread p).pc.exited then .zombie else .running
  still : ∀ p, (s.thread p).sw ≠ .run → (s.thread p).pc.locks p = []
  used : ∀ p c, (s.thread p).pc.child? = some c → (s.proc c).state = .used
  maker : ∀ p q c, (s.thread p).pc.child? = some c → (s.thread q).pc.child? = some c → p = q

/-- The slot has been taken for a child and no `kfork` has it. -/
def State.Unclaimed (s : State) (c : ℕ) : Prop :=
  (s.proc c).state = .used ∧ ∀ q, (s.thread q).pc.child? ≠ some c

theorem relies_of_mem (h : l ∈ (s.thread p).locks p) : s.relies (.proc p) l := ⟨p, rfl, h⟩

theorem locks_of_run {t : Thread} (hrun : t.sw = .run) : t.locks p = t.pc.locks p := by
  rw [Thread.locks, hrun]

theorem booted_placed : booted.Placed where
  locked := by
    rintro a l ⟨p, -, hp⟩
    cases hp
  active p hp := absurd rfl hp
  still p _ := rfl
  used p c hc := by cases hc
  maker p q c hc := by cases hc

section

variable (hthread : ∀ q ≠ p, s'.thread q = s.thread q)

include hthread

theorem locked_acquire (h : Locks.Sound s.held s.relies) (hl : s.held l = none)
    (hheld : s'.held = Function.update s.held l (some (.proc p)))
    (hsub : (s'.thread p).locks p ⊆ l :: (s.thread p).locks p) :
    Locks.Sound s'.held s'.relies := by
  rw [hheld]
  refine h.acquire hl ?_
  rintro _ k ⟨q, rfl, hk⟩
  by_cases hq : q = p
  · subst hq
    rcases List.mem_cons.mp (hsub hk) with rfl | hk
    · exact Or.inr ⟨rfl, rfl⟩
    · exact Or.inl ⟨q, rfl, hk⟩
  · rw [hthread q hq] at hk
    exact Or.inl ⟨q, rfl, hk⟩

theorem locked_release (h : Locks.Sound s.held s.relies) (hl : l ∈ (s.thread p).locks p)
    (hheld : s'.held = Function.update s.held l none)
    (hsub : ∀ k ∈ (s'.thread p).locks p, k ∈ (s.thread p).locks p ∧ k ≠ l) :
    Locks.Sound s'.held s'.relies := by
  rw [hheld]
  refine h.release (h _ _ (relies_of_mem hl)) ?_
  rintro _ k ⟨q, rfl, hk⟩
  by_cases hq : q = p
  · subst hq
    exact ⟨⟨q, rfl, (hsub k hk).1⟩, fun _ => (hsub k hk).2⟩
  · rw [hthread q hq] at hk
    refine ⟨⟨q, rfl, hk⟩, fun heq => ?_⟩
    exact absurd (Owner.proc.inj heq) hq

theorem locked_keep (h : Locks.Sound s.held s.relies) (hheld : s'.held = s.held)
    (hsub : (s'.thread p).locks p ⊆ (s.thread p).locks p) : Locks.Sound s'.held s'.relies := by
  rw [hheld]
  refine h.keep ?_
  rintro _ k ⟨q, rfl, hk⟩
  by_cases hq : q = p
  · subst hq
    exact ⟨q, rfl, hsub hk⟩
  · rw [hthread q hq] at hk
    exact ⟨q, rfl, hk⟩

/-- A step that changes only the thread of `p` and the state of its slot. -/
theorem State.Placed.move (h : s.Placed)
    (hstate : ∀ q ≠ p, (s'.proc q).state = (s.proc q).state)
    (hlocked : Locks.Sound s'.held s'.relies)
    (hactive : (s'.thread p).sw ≠ .off →
      (s'.proc p).state = if (s'.thread p).pc.exited then .zombie else .running)
    (hstill : (s'.thread p).sw ≠ .run → (s'.thread p).pc.locks p = [])
    (hchild : ∀ c, (s'.thread p).pc.child? = some c →
      (s.thread p).pc.child? = some c ∨ s.Unclaimed c)
    (hused : (s.proc p).state = .used → (s'.proc p).state = .used) : s'.Placed := by
  have hback : ∀ q c, (s'.thread q).pc.child? = some c →
      (s.thread q).pc.child? = some c ∨ q = p ∧ s.Unclaimed c := by
    intro q c hc
    by_cases hq : q = p
    · subst hq
      rcases hchild c hc with hold | hnew
      · exact Or.inl hold
      · exact Or.inr ⟨rfl, hnew⟩
    · rw [hthread q hq] at hc
      exact Or.inl hc
  refine ⟨hlocked, fun q hq => ?_, fun q hq => ?_, fun q c hc => ?_, fun q r c hq hr => ?_⟩
  · by_cases hqp : q = p
    · subst hqp
      exact hactive hq
    · rw [hthread q hqp] at hq ⊢
      rw [hstate q hqp]
      exact h.active q hq
  · by_cases hqp : q = p
    · subst hqp
      exact hstill hq
    · rw [hthread q hqp] at hq ⊢
      exact h.still q hq
  · have hu : (s.proc c).state = .used := by
      rcases hback q c hc with hold | ⟨-, hnew⟩
      · exact h.used q c hold
      · exact hnew.1
    by_cases hcp : c = p
    · subst hcp
      exact hused hu
    · rw [hstate c hcp]
      exact hu
  · rcases hback q c hq with hq | ⟨rfl, hnew⟩
    · rcases hback r c hr with hr | ⟨-, hnew⟩
      · exact h.maker q r c hq hr
      · exact absurd hq (hnew.2 q)
    · rcases hback r c hr with hr | ⟨rfl, -⟩
      · exact absurd hr (hnew.2 r)
      · rfl

end

namespace State.Placed

/-- A process on the processor that has not exited is `RUNNING`. -/
theorem running (h : s.Placed) (hrun : (s.thread p).sw = .run)
    (hex : (s.thread p).pc.exited = false) : (s.proc p).state = .running := by
  have hstate := h.active p (by rw [hrun]; nofun)
  rwa [hex] at hstate

/-- Nobody else is where a lock that `p` relies on is relied on. -/
theorem eq_of_mem (h : s.Placed) (hp : l ∈ (s.thread p).locks p)
    (hq : l ∈ (s.thread q).locks q) : q = p :=
  Owner.proc.inj (h.locked.exclusive (relies_of_mem hq) (relies_of_mem hp))

section

variable (h : s.Placed) (hrun : (s.thread p).sw = .run) {pc₀ pc : Pc}
  (hpc : (s.thread p).pc = pc₀) (hex : pc.exited = pc₀.exited)
  (hchild : pc.child? = none ∨ pc.child? = pc₀.child? ∨ ∃ c, pc.child? = some c ∧ s.Unclaimed c)

include h hrun hpc hex hchild

/-- A process goes on, and what it relies on is right. -/
theorem advance (hproc : s'.proc = s.proc)
    (hthread : s'.thread = Function.update s.thread p { s.thread p with pc := pc })
    (hlocked : (∀ q ≠ p, s'.thread q = s.thread q) → (s'.thread p).locks p = pc.locks p →
      Locks.Sound s'.held s'.relies) : s'.Placed := by
  have hself : s'.thread p = { s.thread p with pc := pc } := by
    rw [hthread, Function.update_self]
  have hother : ∀ q ≠ p, s'.thread q = s.thread q := by
    intro q hq
    rw [hthread, Function.update_of_ne hq]
  have hlocks : (s'.thread p).locks p = pc.locks p := by
    rw [hself, Thread.locks, hrun]
  refine h.move hother (fun _ _ => by rw [hproc]) (hlocked hother hlocks) ?_ ?_ ?_ ?_
  · rw [hself, hproc]
    dsimp only
    rw [hex, ← hpc]
    exact h.active p
  · rw [hself, hrun]
    exact fun hne => absurd rfl hne
  · rw [hself, hpc]
    intro c hc
    rcases hchild with hnone | heq | ⟨c', heq, hnew⟩
    · rw [hnone] at hc
      cases hc
    · exact Or.inl (by rwa [← heq])
    · rw [heq, Option.some.injEq] at hc
      subst hc
      exact Or.inr hnew
  · rw [hproc]
    exact id

theorem goto (hlocks : pc.locks p ⊆ pc₀.locks p) : (s.goto p pc).Placed := by
  refine h.advance hrun hpc hex hchild rfl rfl fun hother hself => ?_
  refine locked_keep hother h.locked rfl ?_
  rwa [hself, locks_of_run hrun, hpc]

theorem acquire (hl : s.held l = none) (hlocks : pc.locks p ⊆ l :: pc₀.locks p) :
    ((s.goto p pc).setHeld l (some (.proc p))).Placed := by
  refine h.advance hrun hpc hex hchild rfl rfl fun hother hself => ?_
  refine locked_acquire hother h.locked hl rfl ?_
  rwa [hself, locks_of_run hrun, hpc]

theorem release (hl : l ∈ pc₀.locks p) (hlocks : ∀ k ∈ pc.locks p, k ∈ pc₀.locks p ∧ k ≠ l) :
    (s.release p l pc).Placed := by
  refine h.advance hrun hpc hex hchild rfl rfl fun hother hself => ?_
  refine locked_release hother h.locked ?_ rfl ?_
  · rwa [locks_of_run hrun, hpc]
  · rwa [hself, locks_of_run hrun, hpc]

end

theorem setRet (h : s.Placed) (r : ℤ) : (s.setRet p r).Placed := by
  have hlocks : ∀ q, ((s.setRet p r).thread q).locks q = (s.thread q).locks q := by
    intro q
    rw [Thread.locks, Thread.locks, pc_setRet, sw_setRet]
  refine ⟨h.locked.keep ?_, fun q => ?_, fun q => ?_, fun q c => ?_, fun q r c => ?_⟩
  · rintro _ k ⟨q, rfl, hk⟩
    rw [hlocks] at hk
    exact ⟨q, rfl, hk⟩
  · rw [pc_setRet, sw_setRet]
    exact h.active q
  · rw [pc_setRet, sw_setRet]
    exact h.still q
  · rw [pc_setRet]
    exact h.used q c
  · rw [pc_setRet, pc_setRet]
    exact h.maker q r c

/-- The history does not matter here. -/
theorem congr (h : s.Placed) (hproc : s'.proc = s.proc) (hthread : s'.thread = s.thread)
    (hheld : s'.held = s.held) : s'.Placed := by
  have hrelies : s'.relies = s.relies := by
    funext a l
    rw [State.relies, State.relies, hthread]
  refine ⟨?_, ?_, ?_, ?_, ?_⟩
  · rw [hheld, hrelies]
    exact h.locked
  · rw [hproc, hthread]
    exact h.active
  · rw [hthread]
    exact h.still
  · rw [hproc, hthread]
    exact h.used
  · rw [hthread]
    exact h.maker

/-- Slots change freely as far as the state of a process on the processor, or of a child in the
making, stays. -/
theorem setProc (h : s.Placed) {x : Proc}
    (hactive : (s.thread q).sw ≠ .off → x.state = (s.proc q).state)
    (hused : ∀ r, (s.thread r).pc.child? = some q → x.state = .used) : (s.setProc q x).Placed := by
  refine ⟨h.locked, fun r hr => ?_, h.still, fun r c hc => ?_, h.maker⟩
  · by_cases hrq : r = q
    · subst hrq
      rw [proc_setProc_self, hactive hr]
      exact h.active r hr
    · rw [proc_setProc_of_ne hrq]
      exact h.active r hr
  · by_cases hcq : c = q
    · subst hcq
      rw [proc_setProc_self]
      exact hused r hc
    · rw [proc_setProc_of_ne hcq]
      exact h.used r c hc

/-- The state is all that matters of a slot. -/
theorem setProc_of_state (h : s.Placed) {x : Proc} (hx : x.state = (s.proc q).state) :
    (s.setProc q x).Placed :=
  h.setProc (fun _ => hx) fun r hr => hx.trans (h.used r q hr)

/-- Whoever is asleep, or was never started, is off the processor. -/
theorem off (h : s.Placed) (hstate : (s.proc q).state ≠ .running ∧ (s.proc q).state ≠ .zombie) :
    (s.thread q).sw = .off := by
  by_contra hne
  have hact := h.active q hne
  split at hact
  · exact hstate.2 hact
  · exact hstate.1 hact

/-- A slot that is neither on a processor nor in the making changes freely. -/
theorem setProc_of_off (h : s.Placed) {x : Proc}
    (hoff : (s.thread q).sw = .off) (hused : (s.proc q).state ≠ .used) : (s.setProc q x).Placed :=
  h.setProc (fun hne => absurd hoff hne) fun r hr => absurd (h.used r q hr) hused

theorem wakeup (h : s.Placed) (chan : Chan) : (s.setProc q ((s.proc q).wakeup chan)).Placed := by
  rw [Proc.wakeup]
  split
  · rename_i hsleep
    refine h.setProc_of_off (h.off ?_) ?_
    · rw [hsleep.1]
      exact ⟨nofun, nofun⟩
    · rw [hsleep.1]
      nofun
  · exact h.setProc_of_state rfl

theorem kill (h : s.Placed) : (s.setProc q (s.proc q).kill).Placed := by
  by_cases hsleep : (s.proc q).state = .sleeping
  · refine h.setProc_of_off (h.off ?_) ?_
    · rw [hsleep]
      exact ⟨nofun, nofun⟩
    · rw [hsleep]
      nofun
  · exact h.setProc_of_state (if_neg hsleep)

theorem mem_locks_of_exited {pc : Pc} (h : pc.exited = true) : .proc p ∈ pc.locks p := by
  cases pc with
  | exitRelease => simp
  | exitSched => simp
  | _ => cases h

/-- A zombie whose lock another process holds has left the processor. -/
theorem off_of_zombie (h : s.Placed) (hz : (s.proc c).state = .zombie) (hne : c ≠ p)
    (hl : .proc c ∈ (s.thread p).locks p) : (s.thread c).sw = .off := by
  by_contra hon
  have hact := h.active c hon
  have hex : (s.thread c).pc.exited = true := by
    by_contra hex
    rw [hz, if_neg hex] at hact
    cases hact
  have hself : .proc c ∈ (s.thread c).locks c := by
    have hpc := mem_locks_of_exited (p := c) hex
    rw [Thread.locks]
    split <;> simp [hpc, -Pc.locks]
  exact hne (h.eq_of_mem hl hself)

/-- A process changes its own state and where it is. -/
theorem change (h : s.Placed) {x : Proc} {t : Thread} (hproc : s'.proc = Function.update s.proc p x)
    (hthread : s'.thread = Function.update s.thread p t)
    (hused : (s.proc p).state ≠ .used)
    (hactive : t.sw ≠ .off → x.state = if t.pc.exited then .zombie else .running)
    (hstill : t.sw ≠ .run → t.pc.locks p = [])
    (hchild : ∀ c, t.pc.child? = some c → (s.thread p).pc.child? = some c)
    (hlocked : (∀ q ≠ p, s'.thread q = s.thread q) → s'.thread p = t →
      Locks.Sound s'.held s'.relies) : s'.Placed := by
  have hself : s'.thread p = t := by rw [hthread, Function.update_self]
  have hother : ∀ q ≠ p, s'.thread q = s.thread q := by
    intro q hq
    rw [hthread, Function.update_of_ne hq]
  refine h.move hother (fun q hq => ?_) (hlocked hother hself) ?_ ?_ ?_ fun hu => absurd hu hused
  · rw [hproc, Function.update_of_ne hq]
  · rw [hself, hproc, Function.update_self]
    exact hactive
  · rw [hself]
    exact hstill
  · rw [hself]
    exact fun c hc => Or.inl (hchild c hc)

theorem becomeZombie (h : s.Placed) (hrun : (s.thread p).sw = .run)
    (hpc : (s.thread p).pc = .exitZombie) : (becomeZombie s p).Placed := by
  refine h.change (p := p) (t := { s.thread p with pc := .exitRelease }) rfl rfl ?_ (fun _ => rfl)
    (fun hne => absurd hrun hne) nofun fun hother hself => locked_keep hother h.locked rfl ?_
  · rw [h.running hrun (by rw [hpc]; rfl)]
    nofun
  · have hnew : Thread.locks p { s.thread p with pc := .exitRelease } = [.wait, .proc p] :=
      locks_of_run hrun
    rw [hself, hnew, locks_of_run hrun, hpc]
    exact List.Subset.refl _

/-- The last step of `kexit`, and `sleep` in `kwait`: the process leaves the processor. -/
theorem depart (h : s.Placed) {x : Proc} {t : Thread} (hproc : s'.proc = Function.update s.proc p x)
    (hthread : s'.thread = Function.update s.thread p t)
    (hheld : s'.held = Function.update s.held (.proc p) none)
    (hl : .proc p ∈ (s.thread p).locks p) (hused : (s.proc p).state ≠ .used)
    (hoff : t.sw = .off) (hlocks : t.pc.locks p = [])
    (hchild : ∀ c, t.pc.child? = some c → (s.thread p).pc.child? = some c) : s'.Placed := by
  refine h.change hproc hthread hused (fun hne => absurd hoff hne) (fun _ => hlocks) hchild
    fun hother hself => locked_release hother h.locked hl hheld ?_
  rw [hself, Thread.locks, hoff, hlocks]
  nofun

theorem reap (h : s.Placed) (hrun : (s.thread p).sw = .run) (hpc : (s.thread p).pc = .scanHeld c)
    (hz : (s.proc c).state = .zombie) (r : ℤ) :
    (((s.setProc c {}).setRet p r).release p (.proc c) .waitReturn).Placed := by
  have hrunning := h.running hrun (by rw [hpc]; rfl)
  have hne : c ≠ p := by
    rintro rfl
    rw [hz] at hrunning
    cases hrunning
  have hoff := h.off_of_zombie hz hne (by rw [locks_of_run hrun, hpc]; simp)
  have hfree : (s.setProc c {}).Placed := h.setProc_of_off hoff (by rw [hz]; nofun)
  exact (hfree.setRet r).release (sw_setRet.trans hrun) (pc_setRet.trans hpc) rfl (.inl rfl)
    (by simp) (by simp)

theorem newborn (h : s.Placed) : (s.setThread c {}).Placed := by
  have hother : ∀ q ≠ c, (s.setThread c {}).thread q = s.thread q :=
    fun q hq => thread_setThread_of_ne hq
  refine h.move hother (fun _ _ => rfl) (locked_keep hother h.locked rfl ?_) ?_ ?_ ?_ id
  · rw [thread_setThread_self]
    nofun
  · rw [thread_setThread_self]
    exact fun hne => absurd rfl hne
  · rw [thread_setThread_self]
    exact fun _ => rfl
  · rw [thread_setThread_self]
    nofun

/-- A child gets a slot. Nobody else is making a child in it, for it was `UNUSED`. -/
theorem birth (h : s.Placed) (hrun : (s.thread p).sw = .run)
    (hpc : (s.thread p).pc = .allocprocHeld c) (hu : (s.proc c).state = .unused) :
    (forkChild s p c true).Placed := by
  have hrunning := h.running hrun (by rw [hpc]; rfl)
  have hne : p ≠ c := by
    rintro rfl
    rw [hu] at hrunning
    cases hrunning
  have hoff : (s.thread c).sw = .off := h.off (by rw [hu]; exact ⟨nofun, nofun⟩)
  have hfresh : ∀ q, (s.thread q).pc.child? ≠ some c := by
    intro q hq
    have hused := h.used q c hq
    rw [hu] at hused
    cases hused
  set x : Proc := { s.proc c with state := .used, pid := s.nextpid, inc := s.births.length }
  have hslot : ((s.setProc c x).setThread c {}).Placed :=
    newborn (h.setProc_of_off hoff (by rw [hu]; nofun))
  have hnew : ((s.setProc c x).setThread c {}).Unclaimed c := by
    refine ⟨?_, fun q => ?_⟩
    · exact congrArg Proc.state (proc_setProc_self (s := s))
    · by_cases hq : q = c
      · subst hq
        rw [thread_setThread_self]
        nofun
      · rw [thread_setThread_of_ne hq]
        exact hfresh q
  have hthread : ((s.setProc c x).setThread c {}).thread p = s.thread p :=
    thread_setThread_of_ne hne
  have hpc' : (((s.setProc c x).setThread c {}).thread p).pc = .allocprocHeld c := by
    rw [hthread, hpc]
  have hdone : (((s.setProc c x).setThread c {}).release p (.proc c) (.forkWait c)).Placed :=
    hslot.release (by rw [hthread, hrun]) hpc' rfl (.inr (.inr ⟨c, rfl, hnew⟩))
      (by simp) (by simp)
  exact hdone.congr rfl rfl rfl

theorem noMemory (h : s.Placed) (hrun : (s.thread p).sw = .run)
    (hpc : (s.thread p).pc = .allocprocHeld c) (hu : (s.proc c).state = .unused) :
    (forkChild s p c false).Placed := by
  have hoff : (s.thread c).sw = .off := h.off (by rw [hu]; exact ⟨nofun, nofun⟩)
  have hfree : (s.setProc c {}).Placed := h.setProc_of_off hoff (by rw [hu]; nofun)
  have hfree' : ({ s with nextpid := succPid s.nextpid }.setProc c {}).Placed :=
    hfree.congr rfl rfl rfl
  exact (hfree'.setRet _).release (sw_setRet.trans hrun) (pc_setRet.trans hpc) rfl (.inl rfl)
    (by simp) (by simp)

theorem forkRunnable (h : s.Placed) (hrun : (s.thread p).sw = .run)
    (hpc : (s.thread p).pc = .forkRunnable c) :
    (((s.setProc c { s.proc c with state := .runnable }).setRet p (s.proc c).pid).release p
      (.proc c) .out).Placed := by
  have hu : (s.proc c).state = .used := h.used p c (by rw [hpc]; rfl)
  have hoff : (s.thread c).sw = .off := h.off (by rw [hu]; exact ⟨nofun, nofun⟩)
  have hdone : ((s.setRet p (s.proc c).pid).release p (.proc c) .out).Placed :=
    (h.setRet _).release (sw_setRet.trans hrun) (pc_setRet.trans hpc) rfl (.inl rfl)
      (by simp) (by simp)
  have hother : ∀ q ≠ p, ((s.setRet p (s.proc c).pid).release p (.proc c) .out).thread q =
      s.thread q := by
    intro q hq
    exact (Function.update_of_ne hq ..).trans (thread_setThread_of_ne hq)
  have hself : (((s.setRet p (s.proc c).pid).release p (.proc c) .out).thread p).pc = .out :=
    pc_goto_self
  have hne : c ≠ p := by
    rintro rfl
    rw [hoff] at hrun
    cases hrun
  refine hdone.setProc (fun hon => absurd ?_ hon) fun r hr => ?_
  · rw [hother c hne, hoff]
  · -- the child has one maker, who is done
    by_cases hrp : r = p
    · subst hrp
      rw [hself] at hr
      cases hr
    · rw [hother r hrp] at hr
      exact absurd (h.maker r p c hr (by rw [hpc]; rfl)) hrp

theorem turn (h : s.Placed) (hrun : (s.thread p).sw = .run) (ht : Turn s p s') : s'.Placed := by
  have hlocks := locks_of_run (p := p) hrun
  cases ht with
  | exitWait hpc hl | wakeupLock hpc _ hl | exitLock hpc hl | waitWait hpc hl | scanLock hpc hl _
  | killed hpc hl | sleepLock hpc hl | allocLock hpc _ hl | killLock hpc hl =>
    exact h.acquire hrun hpc rfl (.inl rfl) hl (by simp)
  | forkWait hpc hl | forkLock hpc hl =>
    exact h.acquire hrun hpc rfl (.inr (.inl rfl)) hl (by simp)
  | reparentSkip hpc | reparentDone hpc | wakeupSelf hpc | scanSkip hpc | scanKids hpc =>
    exact h.goto hrun hpc rfl (.inl rfl) (by simp)
  | scanNone hpc | allocNone hpc | killNone hpc =>
    exact (h.setRet _).goto (sw_setRet.trans hrun) (pc_setRet.trans hpc) rfl (.inl rfl)
      (by simp)
  | exitRelease hpc | scanNext hpc | waitReturn hpc | killedNo hpc | sleepRelease hpc
  | allocNext hpc | killNext hpc =>
    exact h.release hrun hpc rfl (.inl rfl) (by simp) (by simp)
  | copyoutFails hpc _ | killedYes hpc =>
    exact (h.setRet _).release (sw_setRet.trans hrun) (pc_setRet.trans hpc) rfl (.inl rfl)
      (by simp) (by simp)
  | @reparentChild i hpc hi hparent =>
    have hslot : (s.setProc i { s.proc i with parent := some initproc }).Placed :=
      h.setProc_of_state rfl
    exact hslot.goto hrun hpc rfl (.inl rfl) (by simp)
  | @wakeupDone k j hpc hj =>
    cases k with
    | init i => exact h.goto hrun hpc rfl (.inl rfl) (by simp [Pc.locks, Wakeup.next])
    | parent => exact h.goto hrun hpc rfl (.inl rfl) (by simp [Pc.locks, Wakeup.next])
  | wakeupSlot hpc =>
    exact (h.wakeup _).release hrun hpc rfl (.inl rfl) (by simp) (by simp)
  | exitZombie hpc => exact h.becomeZombie hrun hpc
  | exitSched hpc =>
    have hz := h.active p (by rw [hrun]; nofun)
    rw [hpc] at hz
    refine h.depart (t := { s.thread p with sw := .off, pc := .gone })
      (Function.update_eq_self p s.proc).symm ?_ rfl ?_ ?_ rfl rfl nofun
    · exact thread_goto_setThread
    · rw [hlocks, hpc]
      simp
    · rw [hz]
      nofun
  | reap hpc hz => exact (h.reap hrun hpc hz _).congr rfl rfl rfl
  | sleepSet hpc =>
    have hrunning := h.running hrun (by rw [hpc]; rfl)
    refine h.depart (t := { s.thread p with sw := .off, pc := .asleep })
      rfl ?_ rfl ?_ ?_ rfl rfl nofun
    · exact thread_goto_setThread
    · rw [hlocks, hpc]
      simp
    · rw [hrunning]
      nofun
  | birth hpc hu => exact h.birth hrun hpc hu
  | noMemory hpc hu => exact h.noMemory hrun hpc hu
  | @forkParent c hpc =>
    have hslot : (s.setProc c { s.proc c with parent := some p }).Placed := h.setProc_of_state rfl
    exact hslot.release hrun hpc rfl (.inr (.inl rfl)) (by simp) (by simp)
  | forkRunnable hpc => exact h.forkRunnable hrun hpc
  | killSlot hpc =>
    exact (h.kill.setRet _).release (sw_setRet.trans hrun) (pc_setRet.trans hpc) rfl (.inl rfl)
      (by simp) (by simp)

/-- A system call begins. -/
theorem call (h : s.Placed) {t : Thread} (hidle : (s.thread p).idle) (hrun : t.sw = .run)
    (hlocks : t.pc.locks p = []) (hex : t.pc.exited = false) (hchild : t.pc.child? = none) :
    (s.setThread p t).Placed := by
  obtain ⟨hsw, hpc⟩ := hidle
  have hrunning := h.running hsw (by rw [hpc]; rfl)
  refine h.change (x := s.proc p) (Function.update_eq_self p s.proc).symm rfl ?_ (fun _ => ?_)
    (fun hne => absurd hrun hne) (fun c hc => ?_) fun hother hself =>
      locked_keep hother h.locked rfl ?_
  · rw [hrunning]
    nofun
  · rw [hrunning, hex]
    rfl
  · rw [hchild] at hc
    cases hc
  · rw [hself, locks_of_run hrun, hlocks]
    exact List.nil_subset _

/-- A process takes its own lock to leave the processor. -/
theorem lockSelf (h : s.Placed) {sw : Sw} (hrun : (s.thread p).sw = .run)
    (hlocks : (s.thread p).pc.locks p = []) (hsw : sw = .yielding ∨ sw = .dozing)
    (hs : lockSelf s p sw = some s') : s'.Placed := by
  obtain ⟨hl, hs⟩ := Option.ite_none_right_eq_some.mp hs
  cases hs
  have hex : (s.thread p).pc.exited = false := by
    by_contra hex
    have hmem := mem_locks_of_exited (p := p) (Bool.not_eq_false _ ▸ hex)
    rw [hlocks] at hmem
    cases hmem
  have hrunning := h.running hrun hex
  refine h.change (x := s.proc p) (t := { s.thread p with sw := sw })
    (Function.update_eq_self p s.proc).symm rfl ?_ (fun _ => ?_) (fun _ => hlocks) (fun c hc => hc)
    fun hother hself => locked_acquire hother h.locked hl rfl ?_
  · rw [hrunning]
    nofun
  · rw [hrunning]
    exact (if_neg (by rw [hex]; nofun)).symm
  · have hnew : Thread.locks p { s.thread p with sw := sw } = [.proc p] := by
      rw [Thread.locks]
      rcases hsw with rfl | rfl
      · exact congrArg _ hlocks
      · exact congrArg _ hlocks
    rw [hself, hnew]
    simp

theorem leave (h : s.Placed) {x : Proc} (hx : (s.proc p).leave (s.thread p).sw = some x) :
    (((s.setProc p x).setThread p { s.thread p with sw := .off }).setHeld (.proc p)
      none).Placed := by
  have hsw : (s.thread p).sw = .yielding ∨ (s.thread p).sw = .dozing := by
    cases hsw : (s.thread p).sw with
    | yielding => exact Or.inl rfl
    | dozing => exact Or.inr rfl
    | _ =>
      rw [hsw] at hx
      cases hx
  have hon : (s.thread p).sw ≠ .off ∧ (s.thread p).sw ≠ .run := by
    rcases hsw with hsw | hsw <;> rw [hsw] <;> exact ⟨nofun, nofun⟩
  have hmem : .proc p ∈ (s.thread p).locks p := by
    rw [Thread.locks]
    rcases hsw with hsw | hsw <;> rw [hsw] <;> exact List.mem_cons_self
  refine h.depart (t := { s.thread p with sw := .off }) rfl rfl rfl hmem ?_ rfl (h.still p hon.2)
    fun c hc => hc
  have hact := h.active p hon.1
  split at hact <;> rw [hact] <;> nofun

/-- The scheduler takes the lock of a process and switches to it. -/
theorem dispatch (h : s.Placed) (hr : (s.proc p).state = .runnable)
    (hs : Wait.lockSelf (s.setProc p { s.proc p with state := .running }) p .entering = some s') :
    s'.Placed := by
  obtain ⟨hl, hs⟩ := Option.ite_none_right_eq_some.mp hs
  cases hs
  have hoff : (s.thread p).sw = .off := h.off (by rw [hr]; exact ⟨nofun, nofun⟩)
  have hlocks := h.still p (by rw [hoff]; nofun)
  have hex : (s.thread p).pc.exited = false := by
    by_contra hex
    have hmem := mem_locks_of_exited (p := p) (Bool.not_eq_false _ ▸ hex)
    rw [hlocks] at hmem
    cases hmem
  refine h.change (t := { s.thread p with sw := .entering }) rfl rfl (by rw [hr]; nofun)
    (fun _ => ?_) (fun _ => hlocks) (fun c hc => hc)
    fun hother hself => locked_acquire hother h.locked hl rfl ?_
  · exact (if_neg (by rw [hex]; nofun)).symm
  · have hnew : Thread.locks p { s.thread p with sw := .entering } = [.proc p] :=
      congrArg _ hlocks
    rw [hself, hnew]
    simp

/-- The process goes on where it was, and releases its lock. -/
theorem resume (h : s.Placed) (hsw : (s.thread p).sw = .entering) :
    (((s.setProc p { s.proc p with chan := .none }).setThread p (s.thread p).resume).setHeld
      (.proc p) none).Placed := by
  have hlocks := h.still p (by rw [hsw]; nofun)
  have hact := h.active p (by rw [hsw]; nofun)
  have hmem : .proc p ∈ (s.thread p).locks p := by
    rw [Thread.locks, hsw]
    exact List.mem_cons_self
  have hpc : (s.thread p).resume.pc.locks p = [] ∧
      (s.thread p).resume.pc.exited = (s.thread p).pc.exited ∧
      (s.thread p).resume.pc.child? = (s.thread p).pc.child? := by
    rw [Thread.resume]
    dsimp only
    split
    · rename_i hasleep
      rw [hasleep]
      exact ⟨rfl, rfl, rfl⟩
    · exact ⟨hlocks, rfl, rfl⟩
  refine h.change rfl rfl ?_ (fun _ => ?_) (fun hne => absurd rfl hne) (fun c hc => ?_)
    fun hother hself => locked_release hother h.locked hmem rfl ?_
  · split at hact <;> rw [hact] <;> nofun
  · rw [hpc.2.1]
    exact hact
  · rwa [hpc.2.2] at hc
  · rw [hself, locks_of_run rfl, hpc.1]
    nofun

end State.Placed

/-- The invariant of control along runs. -/
theorem step_placed {e : Event} (h : s.Placed) (hs : step s e = some s') : s'.Placed := by
  cases e with
  | kexit p status =>
    obtain ⟨hc, hs⟩ := Option.ite_none_right_eq_some.mp hs
    cases hs
    exact h.call hc.1 hc.1.1 rfl rfl rfl
  | kwait p addr =>
    obtain ⟨hc, hs⟩ := Option.ite_none_right_eq_some.mp hs
    cases hs
    exact h.call hc hc.1 rfl rfl rfl
  | kfork p =>
    obtain ⟨hc, hs⟩ := Option.ite_none_right_eq_some.mp hs
    cases hs
    exact h.call hc hc.1 rfl rfl rfl
  | kkill p pid =>
    obtain ⟨hc, hs⟩ := Option.ite_none_right_eq_some.mp hs
    cases hs
    exact h.call hc hc.1 rfl rfl rfl
  | turn p ok =>
    obtain ⟨hrun, hs⟩ := Option.ite_none_right_eq_some.mp hs
    exact h.turn hrun (turn_eq_some hs)
  | yield p =>
    obtain ⟨hc, hs⟩ := Option.ite_none_right_eq_some.mp hs
    exact h.lockSelf hc.1 hc.2 (.inl rfl) hs
  | doze p =>
    obtain ⟨hc, hs⟩ := Option.ite_none_right_eq_some.mp hs
    exact h.lockSelf hc.1 (by rw [hc.2]; rfl) (.inr rfl) hs
  | leave p =>
    obtain ⟨x, hx, rfl⟩ := Option.map_eq_some_iff.mp hs
    exact h.leave hx
  | dispatch p =>
    obtain ⟨hr, hs⟩ := Option.ite_none_right_eq_some.mp hs
    exact h.dispatch hr hs
  | resume p =>
    obtain ⟨hsw, hs⟩ := Option.ite_none_right_eq_some.mp hs
    cases hs
    exact h.resume hsw
  | lock l =>
    obtain ⟨hl, hs⟩ := Option.ite_none_right_eq_some.mp hs
    cases hs
    exact ⟨h.locked.acquire hl fun _ _ hb => Or.inl hb, h.active, h.still, h.used, h.maker⟩
  | rouse p =>
    obtain ⟨-, hs⟩ := Option.ite_none_right_eq_some.mp hs
    cases hs
    exact h.wakeup .other
  | unlock l =>
    obtain ⟨hl, hs⟩ := Option.ite_none_right_eq_some.mp hs
    cases hs
    refine ⟨h.locked.release hl fun b k hb => ⟨hb, ?_⟩, h.active, h.still, h.used, h.maker⟩
    obtain ⟨q, rfl, -⟩ := hb
    exact nofun

end Wait

end Xv6
