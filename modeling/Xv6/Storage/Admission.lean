import Xv6.Logic.Monitor
import Xv6.Logic.Refcount
import Xv6.Storage.Log

/-!
# Waiting for the log

`begin_op`, `log_write`, `end_op` and `commit` of any number of processes, at the level of
`log.lock`, `sleep` and `wakeup`, which are those of `Monitor`. The sections under the lock are the
functions of `Log`; `commit` runs without the lock.

`begin_op` waits while a commit is running or the space is reserved. The condition is relaxed by
two events: an operation ends while others are running, which wakes at once, or a commit has ended.
The last operation that ends sets `committing` in the same section, so the condition goes on, and it
holds while `commit` empties the header without the lock.
-/

namespace Xv6

namespace Storage

namespace Admission

open Monitor Transition

/-- Where a process is. -/
inductive Pc
  | out
  /-- `begin_op`, with the lock, at the head of the loop. -/
  | begin
  | begun
  /-- Between `begin_op` and `end_op`. -/
  | op
  /-- `log_write`, with the lock. -/
  | write (blockno : ℕ)
  | wrote
  /-- `end_op`, with the lock. -/
  | ending
  | ended (doCommit : Bool)
  | commit
  /-- In the loop of `write_log`. -/
  | writeLog (tail : ℕ)
  /-- `write_head` and `install_trans`. -/
  | install
  /-- `write_head`. -/
  | erase
  /-- The second section of `end_op`, with the lock. -/
  | finish
  | finished
deriving DecidableEq

/-- The places with `log.lock`. -/
def Pc.locks : Pc → Bool
  | .begin | .begun | .write _ | .wrote | .ending | .ended _ | .finish | .finished => true
  | _ => false

/-- The operation counts from `begin_op` to `end_op`. -/
def Pc.inOp : Pc → Bool
  | .begun | .op | .write _ | .wrote | .ending => true
  | _ => false

/-- The process commits, or is about to, or has just done so. -/
def Pc.commits : Pc → Bool
  | .ended true | .commit | .writeLog _ | .install | .erase | .finish => true
  | _ => false

/-- What a process is going to do, where there is a choice. -/
inductive Call (n : ℕ)
  | beginOp
  | logWrite (blockno : ℕ)
  | endOp
  /-- One turn of the loop of `kkill`, at slot `q`. -/
  | kkill (q : Fin n) (hit : Bool)
  | continue
deriving DecidableEq

variable {n : ℕ}

/-- A process that panics stays where it is, with the lock. -/
def prog : Program n Pc Log (Call n) := fun _ a k l =>
  match k, a with
  | .out, .beginOp => some (.acquire .begin, l)
  | .out, .kkill q hit => some (.visit q hit .out, l)
  | .begin, .continue =>
    match l.beginOp with
    | none => some (.sleep .begin, l)
    | some l => some (.goto .begun, l)
  | .begun, .continue => some (.release .op, l)
  | .op, .logWrite blockno => some (.acquire (.write blockno), l)
  | .op, .endOp => some (.acquire .ending, l)
  | .op, .kkill q hit => some (.visit q hit .op, l)
  | .write blockno, .continue =>
    match l.logWrite blockno with
    | .ok (l, _) => some (.goto .wrote, l)
    | .error _ => none
  | .wrote, .continue => some (.release .op, l)
  | .ending, .continue =>
    match l.endOp with
    | .ok (l, true) => some (.goto (.ended true), l)
    | .ok (l, false) => some (.wakeup (.ended false), l)
    | .error _ => none
  | .ended doCommit, .continue => some (.release (if doCommit then .commit else .out), l)
  | .commit, .continue =>
    if l.block = [] then some (.acquire .finish, l) else some (.goto (.writeLog 0), l)
  | .writeLog tail, .continue =>
    if tail < l.block.length then some (.goto (.writeLog (tail + 1)), l)
    else some (.goto .install, l)
  | .install, .continue => some (.goto .erase, { l with block := [] })
  | .erase, .continue => some (.acquire .finish, l)
  | .finish, .continue => some (.wakeup .finished, { l with committing := false })
  | .finished, .continue => some (.release .out, l)
  | _, _ => none

/-- The log after `initlog`; nobody is in an operation. -/
def Boot (s : State n Pc Log) : Prop :=
  s.Start Pc.locks ∧ (∀ p, s.places p = .out) ∧ s.data = {}

/-- `begin_op` has to wait. -/
def Waits (l : Log) : Prop :=
  l.committing = true ∨ logblocks < l.block.length + (l.outstanding + 1) * maxopblocks

/-- The number of operations that are running. -/
def running (pl : Fin n → Pc) : ℕ := (Finset.univ.filter fun p => (pl p).inOp = true).card

/-- What the fields say about the processes. -/
structure Counted (pl : Fin n → Pc) (l : Log) : Prop where
  outstanding : l.outstanding = running pl
  committing : l.committing = true ↔ ∃ p, (pl p).commits = true
  unique : ∀ p q, (pl p).commits = true → (pl q).commits = true → p = q
  quiet : ∀ p, (pl p).commits = true → l.outstanding = 0

section

variable {pl : Fin n → Pc} {l l' : Log} {p q : Fin n} {k : Pc} {a : Call n}
  {r : Monitor.Act n Pc × Log}

theorem beginOp_eq_none : l.beginOp = none ↔ Waits l := by
  rw [Log.beginOp, Waits]
  split
  next h => exact iff_of_true rfl (Or.inl h)
  next h =>
    split
    next hlt => exact iff_of_true rfl (Or.inr hlt)
    next hlt => exact iff_of_false (by rintro ⟨⟩) fun hw => hw.elim h hlt

/-! ### Counting -/

theorem running_pos (hp : (pl p).inOp = true) : 0 < running pl :=
  Finset.card_pos.mpr ⟨p, Finset.mem_filter.mpr ⟨Finset.mem_univ p, hp⟩⟩

/-- The processes as a table of references to the log. -/
theorem running_eq (pl : Fin n → Pc) : running pl =
    Refcount.count Finset.univ ((fun k : Pc => if k.inOp then some () else none) ∘ pl) () := by
  rw [running, Refcount.count]
  congr 1
  refine Finset.filter_congr fun p _ => ?_
  rw [Function.comp_apply]
  split
  next h => exact iff_of_true h rfl
  next h => exact iff_of_false h (by rintro ⟨⟩)

theorem running_enter (hp : (pl p).inOp = false) (hk : k.inOp = true) :
    running (Function.update pl p k) = running pl + 1 := by
  rw [running_eq, running_eq, Function.comp_update, if_pos hk]
  exact Refcount.count_fill (Finset.mem_univ p) (by rw [Function.comp_apply, hp]; rfl)

theorem running_keep (hk : k.inOp = (pl p).inOp) :
    running (Function.update pl p k) = running pl := by
  rw [running_eq, running_eq, Function.comp_update, hk]
  exact congrArg (Refcount.count Finset.univ · ()) (Function.update_eq_self p _)

theorem running_leave (hp : (pl p).inOp = true) (hk : k.inOp = false) :
    running (Function.update pl p k) + 1 = running pl := by
  have hback : Function.update (Function.update pl p k) p (pl p) = pl := by
    rw [Function.update_idem, Function.update_eq_self]
  have hk' : (Function.update pl p k p).inOp = false := by rw [Function.update_self, hk]
  rw [← running_enter hk' hp, hback]

/-! ### The steps of the program -/

theorem Counted.not_committing (h : Counted pl l) (hp : (pl p).inOp = true) :
    l.committing = false := by
  rw [Bool.eq_false_iff]
  intro hc
  obtain ⟨q, hq⟩ := h.committing.mp hc
  have hpos := running_pos hp
  rw [← h.outstanding, h.quiet q hq] at hpos
  exact absurd hpos (lt_irrefl 0)

theorem Counted.not_commits (h : Counted pl l) (hl : l.committing = false) (q : Fin n) :
    (pl q).commits ≠ true := fun hq => by
  rw [h.committing.mpr ⟨q, hq⟩] at hl
  cases hl

/-- The processes that commit, when `p` goes to a place at which it does so as before. -/
theorem commits_update (hk : k.commits = (pl p).commits) (q : Fin n) :
    (Function.update pl p k q).commits = (pl q).commits := by
  by_cases hq : q = p
  · subst hq
    rw [Function.update_self, hk]
  · rw [Function.update_of_ne hq]

/-- A step between places of the same kind. -/
theorem Counted.keep (h : Counted pl l) (hop : k.inOp = (pl p).inOp)
    (hk : k.commits = (pl p).commits) (ho : l'.outstanding = l.outstanding)
    (hc : l'.committing = l.committing) : Counted (Function.update pl p k) l' := by
  refine ⟨by rw [ho, h.outstanding, running_keep hop], ?_, fun q r => ?_, fun q => ?_⟩
  · simp only [hc, h.committing, commits_update hk]
  · rw [commits_update hk, commits_update hk]
    exact h.unique q r
  · rw [commits_update hk, ho]
    exact h.quiet q

/-- An operation begins or ends when nobody commits. -/
theorem Counted.count (h : Counted pl l) (hl : l.committing = false)
    (hk : k.commits = (pl p).commits) (ho : l'.outstanding = running (Function.update pl p k))
    (hc : l'.committing = false) : Counted (Function.update pl p k) l' := by
  have hnone : ∀ q, (Function.update pl p k q).commits ≠ true := fun q => by
    rw [commits_update hk]
    exact h.not_commits hl q
  exact ⟨ho, iff_of_false (by rw [hc]; nofun) fun ⟨q, hq⟩ => hnone q hq,
    fun q _ hq => absurd hq (hnone q), fun q hq => absurd hq (hnone q)⟩

/-- The last operation ends, and its process commits. -/
theorem Counted.start (h : Counted pl l) (hp : (pl p).inOp = true) (hk : k.commits = true)
    (ho : l'.outstanding = 0) (hrun : running (Function.update pl p k) = 0)
    (hc : l'.committing = true) : Counted (Function.update pl p k) l' := by
  have honly : ∀ q, (Function.update pl p k q).commits = true → q = p := by
    intro q hq
    by_contra hqp
    rw [Function.update_of_ne hqp] at hq
    exact h.not_commits (h.not_committing hp) q hq
  exact ⟨by rw [ho, hrun], iff_of_true hc ⟨p, by rw [Function.update_self, hk]⟩,
    fun q r hq hr => (honly q hq).trans (honly r hr).symm, fun _ _ => ho⟩

/-- The commit has ended. -/
theorem Counted.stop (h : Counted pl l) (hp : (pl p).commits = true)
    (hop : k.inOp = (pl p).inOp) (hk : k.commits = false) :
    Counted (Function.update pl p k) { l with committing := false } := by
  have hnone : ∀ q, (Function.update pl p k q).commits ≠ true := by
    intro q hq
    by_cases hqp : q = p
    · subst hqp
      rw [Function.update_self, hk] at hq
      cases hq
    · rw [Function.update_of_ne hqp] at hq
      exact hqp (h.unique q p hq hp)
  exact ⟨by rw [running_keep hop]; exact h.outstanding,
    iff_of_false nofun fun ⟨q, hq⟩ => hnone q hq, fun q _ hq => absurd hq (hnone q),
    fun q hq => absurd hq (hnone q)⟩

theorem counted_prog (h : Counted pl l) (hr : prog p a (pl p) l = some r) :
    Counted (Function.update pl p r.1.place) r.2 := by
  have hkeep : ∀ {k}, k.inOp = (pl p).inOp → k.commits = (pl p).commits →
      Counted (Function.update pl p k) l := fun hop hk => h.keep hop hk rfl rfl
  rw [prog.eq_def] at hr
  split at hr
  case h_3 hk =>
    split at hr
    next =>
      cases hr
      exact hkeep (by rw [hk]; rfl) (by rw [hk]; rfl)
    next l' hbegin =>
      cases hr
      obtain ⟨hc, rfl⟩ := Log.beginOp_ok hbegin
      refine h.count hc (by rw [hk]; rfl) ?_ hc
      exact (congrArg (· + 1) h.outstanding).trans (running_enter (by rw [hk]; rfl) rfl).symm
  case h_8 hk =>
    split at hr
    next hwrite =>
      cases hr
      obtain ⟨-, -, rfl, -⟩ := Log.logWrite_ok hwrite
      exact h.keep (by rw [hk]; rfl) (by rw [hk]; rfl) rfl rfl
    next => cases hr
  case h_10 hk =>
    have hop : (pl p).inOp = true := by rw [hk]; rfl
    have hleave : ∀ {k : Pc}, k.inOp = false → running (Function.update pl p k) = l.outstanding - 1 :=
      fun hk => by rw [h.outstanding, ← running_leave hop hk, Nat.add_sub_cancel]
    split at hr
    next hend =>
      cases hr
      obtain ⟨-, hlast, rfl⟩ := Log.endOp_ok hend
      have h₀ := hlast.mp rfl
      exact h.start hop rfl h₀ ((hleave rfl).trans h₀) rfl
    next hend =>
      cases hr
      obtain ⟨hl, -, rfl⟩ := Log.endOp_ok hend
      exact h.count hl (by rw [hk]; rfl) (hleave rfl).symm rfl
    next => cases hr
  case h_11 b hk =>
    cases hr
    cases b <;> exact hkeep (by rw [hk]; rfl) (by rw [hk]; rfl)
  case h_12 hk =>
    split at hr <;>
      · cases hr
        exact hkeep (by rw [hk]; rfl) (by rw [hk]; rfl)
  case h_13 tail hk =>
    split at hr <;>
      · cases hr
        exact hkeep (by rw [hk]; rfl) (by rw [hk]; rfl)
  case h_14 hk =>
    cases hr
    exact h.keep (by rw [hk]; rfl) (by rw [hk]; rfl) rfl rfl
  case h_16 hk =>
    cases hr
    exact h.stop (by rw [hk]; rfl) (by rw [hk]; rfl) rfl
  case h_18 => cases hr
  all_goals
    rename_i hk
    cases hr
    exact hkeep (by rw [hk]; rfl) (by rw [hk]; rfl)

/-- The condition ends only with a `wakeup`. -/
theorem good_prog (h : Counted pl l) (hr : prog p a (pl p) l = some r) :
    Good Pc.locks Waits (pl p) l r := by
  rw [prog.eq_def] at hr
  split at hr
  case h_3 hk =>
    split at hr
    next hbegin =>
      cases hr
      have hw := beginOp_eq_none.mp hbegin
      exact ⟨by rw [hk]; rfl, rfl, hw, id⟩
    next l' hbegin =>
      cases hr
      refine ⟨by rw [hk]; rfl, fun hw => ?_⟩
      rw [beginOp_eq_none.mpr hw] at hbegin
      cases hbegin
  case h_8 hk =>
    split at hr
    next hwrite =>
      cases hr
      obtain ⟨-, -, rfl, -⟩ := Log.logWrite_ok hwrite
      refine ⟨by rw [hk]; rfl, fun hw => hw.imp_right fun hw => lt_of_lt_of_le hw ?_⟩
      refine Nat.add_le_add_right ?_ _
      split
      next => exact (List.sublist_append_left _ _).length_le
      next => exact le_rfl
    next => cases hr
  case h_10 hk =>
    split at hr
    next hend =>
      cases hr
      obtain ⟨-, -, rfl⟩ := Log.endOp_ok hend
      exact ⟨by rw [hk]; rfl, fun _ => Or.inl rfl⟩
    next =>
      cases hr
      exact ⟨by rw [hk]; rfl, rfl⟩
    next => cases hr
  case h_11 b hk =>
    cases hr
    cases b <;> exact ⟨by rw [hk]; rfl, rfl, id⟩
  case h_12 hk =>
    split at hr
    next =>
      cases hr
      exact ⟨by rw [hk]; rfl, rfl, id⟩
    next =>
      cases hr
      exact ⟨by rw [hk]; rfl, id⟩
  case h_13 tail hk =>
    split at hr <;>
      · cases hr
        exact ⟨by rw [hk]; rfl, id⟩
  case h_14 hk =>
    -- the header is emptied while `committing` is set
    cases hr
    exact ⟨by rw [hk]; rfl, fun _ => Or.inl (h.committing.mpr ⟨p, by rw [hk]; rfl⟩)⟩
  case h_16 hk =>
    cases hr
    exact ⟨by rw [hk]; rfl, rfl⟩
  case h_18 => cases hr
  all_goals
    rename_i hk
    cases hr
    first
    | exact ⟨by rw [hk]; rfl, rfl, id⟩
    | exact ⟨by rw [hk], id⟩

theorem Boot.counted {s : State n Pc Log} (h : Boot s) : Counted s.places s.data := by
  obtain ⟨-, hout, hdata⟩ := h
  have hnone : ∀ p, (s.places p).commits ≠ true := fun p hp => by
    rw [hout p] at hp
    cases hp
  refine ⟨?_, iff_of_false (by rw [hdata]; nofun) fun ⟨p, hp⟩ => hnone p hp,
    fun p _ hp => absurd hp (hnone p), fun p hp => absurd hp (hnone p)⟩
  rw [hdata, running, Finset.card_eq_zero.mpr]
  refine Finset.filter_eq_empty_iff.mpr fun p _ hp => ?_
  rw [hout p] at hp
  cases hp

end

/-- Whoever is asleep when the lock is free has to wait, `outstanding` is the number of operations,
and a commit runs only when there are none. -/
theorem admission_sound {s : State n Pc Log}
    (hr : Transition.Reach Boot (State.step prog) Any s) :
    (s.held .main = none → ∀ q, s.sleeping q = true → s.data.committing = true ∨
      logblocks < s.data.block.length + (s.data.outstanding + 1) * maxopblocks) ∧
    s.data.outstanding = (Finset.univ.filter fun p => (s.places p).inOp = true).card ∧
    (∀ p, (s.places p).commits = true →
      s.data.outstanding = 0 ∧ ∀ q, (s.places q).inOp = false) := by
  have hcount : Monitor.Inv Pc.locks Waits s ∧ Counted s.places s.data :=
    reach_inv (fun s hs => ⟨hs.1, hs.counted⟩) (fun _ _ _ _ _ h hr => counted_prog h hr)
      (fun _ _ _ _ _ h hr => good_prog h hr) hr
  obtain ⟨hinv, hcount⟩ := hcount
  refine ⟨fun hfree q hq => hinv.rested hfree hq, hcount.outstanding, fun p hp => ?_⟩
  refine ⟨hcount.quiet p hp, fun q => Bool.eq_false_iff.mpr fun hq => ?_⟩
  have hc := hcount.not_committing hq
  rw [hcount.committing.mpr ⟨p, hp⟩] at hc
  cases hc

/-- Four processes. -/
def bootFour : State 4 Pc Log := ⟨fun _ => none, fun _ => false, {}, fun _ => .run .out⟩

theorem boot_bootFour : Boot bootFour :=
  ⟨⟨fun _ => rfl, fun _ => rfl, fun _ => ⟨.out, rfl, rfl⟩⟩, fun _ => rfl, rfl⟩

/-- Three operations begin, and there is no space for the fourth. -/
def fourCalls : List (Fin 4 × Call 4) :=
  [0, 1, 2].flatMap (fun p => [(p, .beginOp), (p, .continue), (p, .continue)]) ++
    [(3, .beginOp), (3, .continue), (3, .continue), (3, .continue), (3, .continue)]

theorem fourCalls_run : (runAll Any (State.step prog) bootFour fourCalls).isSome := by
  decide +kernel

def afterFour : State 4 Pc Log :=
  (runAll Any (State.step prog) bootFour fourCalls).get fourCalls_run

theorem admission_sound_afterFour : afterFour.sleeping 3 = true ∧ afterFour.held .main = none ∧
    (afterFour.data.committing = true ∨
      logblocks < afterFour.data.block.length + (afterFour.data.outstanding + 1) * maxopblocks) := by
  have hfacts : afterFour.sleeping 3 = true ∧ afterFour.held .main = none := by decide +kernel
  have hr : Transition.Reach Boot (State.step prog) Any afterFour :=
    (Transition.Reach.start boot_bootFour).runAll_get fourCalls_run
  exact ⟨hfacts.1, hfacts.2, (admission_sound hr).1 hfacts.2 3 hfacts.1⟩

end Admission

end Storage

end Xv6
