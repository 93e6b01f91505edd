import Mathlib.Data.Fintype.Basic
import Xv6.Logic.Locks
import Xv6.Logic.Transition

/-!
# Sleeping and waking under a lock

Processes run a program over shared data. The program takes and gives up one lock, and while it
holds the lock it can put the process to sleep or wake all that are asleep. Each process also has a
lock of its own, which guards whether it is asleep:

* to sleep, a process takes its own lock, gives up the main lock, marks itself as sleeping and
  leaves the processor, which gives up its own lock; when it has been woken it comes back with its
  own lock, gives it up and takes the main lock again;
* to wake, a process goes through the table and takes the lock of every other process in turn;
* anybody may visit a process, that is, hold its lock for a while and perhaps wake it.

A program is disciplined with respect to a condition on the data (`Good`) if it sleeps only under
the condition, and wakes in the step in which it ends the condition. Then nobody is asleep without
the condition when the main lock is free (`Inv.rested`). What holds of the data and of the places
of the processes in the program is an invariant of the program alone (`step_places`), and the two
are put together in `reach_inv`.
-/

namespace Monitor

open Locks Transition

variable {n : ℕ} {K D A : Type}

/-- The main lock, and the locks of the processes. -/
inductive Lk (n : ℕ)
  | main | own (p : Fin n)
deriving DecidableEq

/-- What a program does next, and where it continues. -/
inductive Act (n : ℕ) (K : Type)
  | goto (k : K)
  | acquire (k : K)
  | release (k : K)
  | sleep (k : K)
  | wakeup (k : K)
  | visit (q : Fin n) (rouse : Bool) (k : K)

/-- Where a process is: in the program at `k`, or in one of the operations, after which it is there. -/
inductive Pos (n : ℕ) (K : Type)
  | run (k : K)
  /-- Takes its own lock. -/
  | sleepLock (k : K)
  /-- Gives up the main lock. -/
  | sleepRelease (k : K)
  /-- Marks itself as sleeping and leaves the processor. -/
  | sleepSet (k : K)
  /-- Off the processor. -/
  | asleep (k : K)
  /-- Back, with its own lock. -/
  | tidy (k : K)
  /-- Takes the main lock again. -/
  | retake (k : K)
  /-- In the loop that wakes, at process `i`. -/
  | wake (i : ℕ) (k : K)
  /-- With the lock of that process. -/
  | wakeHeld (i : Fin n) (k : K)
  | visit (q : Fin n) (rouse : Bool) (k : K)
  | visitHeld (q : Fin n) (rouse : Bool) (k : K)

structure State (n : ℕ) (K D : Type) where
  held : Lk n → Option (Fin n)
  sleeping : Fin n → Bool
  data : D
  pos : Fin n → Pos n K

/-- What a process does at `k`, and the data after it; the argument is what is left open. -/
abbrev Program (n : ℕ) (K D A : Type) := Fin n → A → K → D → Option (Act n K × D)

namespace State

def move (s : State n K D) (p : Fin n) (x : Pos n K) : State n K D :=
  { s with pos := Function.update s.pos p x }

/-- Take a lock, if it is free. -/
def take (s : State n K D) (l : Lk n) (p : Fin n) : Option (State n K D) :=
  if s.held l = none then some { s with held := Function.update s.held l (some p) } else none

def give (s : State n K D) (l : Lk n) : State n K D :=
  { s with held := Function.update s.held l none }

def mark (s : State n K D) (q : Fin n) : State n K D :=
  { s with sleeping := Function.update s.sleeping q true }

/-- Wake process `q`, or leave it as it is. -/
def rouse (s : State n K D) (q : Fin n) (b : Bool) : State n K D :=
  { s with sleeping := Function.update s.sleeping q (s.sleeping q && !b) }

/-- The first part of what the program asks for. -/
def act (s : State n K D) (p : Fin n) : Act n K → Option (State n K D)
  | .goto k => some (s.move p (.run k))
  | .acquire k => (s.take .main p).map fun s => s.move p (.run k)
  | .release k => some ((s.give .main).move p (.run k))
  | .sleep k => some (s.move p (.sleepLock k))
  | .wakeup k => some (s.move p (.wake 0 k))
  | .visit q rouse k => some (s.move p (.visit q rouse k))

/-- A step of a process. -/
def step (prog : Program n K D A) (s : State n K D) : Fin n × A → Option (State n K D)
  | (p, a) =>
    match s.pos p with
    | .run k => (prog p a k s.data).bind fun x => { s with data := x.2 }.act p x.1
    | .sleepLock k => (s.take (.own p) p).map fun s => s.move p (.sleepRelease k)
    | .sleepRelease k => some ((s.give .main).move p (.sleepSet k))
    | .sleepSet k => some (((s.mark p).give (.own p)).move p (.asleep k))
    | .asleep k =>
      if s.sleeping p then none
      else (s.take (.own p) p).map fun s => s.move p (.tidy k)
    | .tidy k => some ((s.give (.own p)).move p (.retake k))
    | .retake k => (s.take .main p).map fun s => s.move p (.run k)
    | .wake i k =>
      if h : i < n then
        if i = p then some (s.move p (.wake (i + 1) k))
        else (s.take (.own ⟨i, h⟩) p).map fun s => s.move p (.wakeHeld ⟨i, h⟩ k)
      else some (s.move p (.run k))
    | .wakeHeld i k => some (((s.rouse i true).give (.own i)).move p (.wake (i + 1) k))
    | .visit q rouse k => (s.take (.own q) p).map fun s => s.move p (.visitHeld q rouse k)
    | .visitHeld q rouse k => some (((s.rouse q rouse).give (.own q)).move p (.run k))

end State

/-- The place in the program where the process is or continues. -/
def Pos.place : Pos n K → K
  | .run k | .sleepLock k | .sleepRelease k | .sleepSet k | .asleep k | .tidy k | .retake k
  | .wake _ k | .wakeHeld _ k | .visit _ _ k | .visitHeld _ _ k => k

def Act.place : Act n K → K
  | .goto k | .acquire k | .release k | .sleep k | .wakeup k | .visit _ _ k => k

/-- The index of the loop that wakes. -/
def Pos.waking : Pos n K → Option ℕ
  | .wake i _ => some i
  | .wakeHeld i _ => some i
  | _ => none

/-- On the way to sleep with the main lock. -/
def Pos.Entering : Pos n K → Prop
  | .sleepLock _ | .sleepRelease _ => True
  | _ => False

/-- The locks that a process relies on, where `holds` says at which places of the program it has the
main lock. -/
def Pos.Relies (holds : K → Bool) (p : Fin n) : Pos n K → Lk n → Prop
  | .run k, .main | .visit _ _ k, .main | .visitHeld _ _ k, .main => holds k = true
  | .sleepLock _, .main | .sleepRelease _, .main | .wake _ _, .main | .wakeHeld _ _, .main => True
  | .sleepRelease _, .own q | .sleepSet _, .own q | .tidy _, .own q => q = p
  | .wakeHeld i _, .own q => q = i
  | .visitHeld r _ _, .own q => q = r
  | _, _ => False

/-- What a disciplined program may do at `k`. A step that ends the condition wakes. -/
def Good (holds : K → Bool) (wait : D → Prop) (k : K) (d : D) : Act n K × D → Prop
  | (.goto k', d') => holds k' = holds k ∧ (wait d → wait d')
  | (.acquire k', d') => holds k = false ∧ holds k' = true ∧ (wait d → wait d')
  | (.release k', d') => holds k = true ∧ holds k' = false ∧ (wait d → wait d')
  | (.sleep k', d') => holds k = true ∧ holds k' = true ∧ wait d' ∧ (wait d → wait d')
  | (.wakeup k', _) => holds k = true ∧ holds k' = true
  | (.visit _ _ k', d') => holds k' = holds k ∧ (wait d → wait d')

section

variable {s s' : State n K D} {p q : Fin n} {x : Pos n K} {l : Lk n} {a : A}
  {prog : Program n K D A} {holds : K → Bool} {wait : D → Prop}

/-- The process is asleep, or cannot be kept from it any more. -/
def State.Resting (s : State n K D) (q : Fin n) : Prop :=
  (∃ k, s.pos q = .sleepSet k) ∨ s.sleeping q = true

/-- Somebody wakes and has not come to `q` yet. -/
def State.Due (s : State n K D) (q : Fin n) : Prop := ∃ w i, (s.pos w).waking = some i ∧ i ≤ q

/-- The invariant. -/
structure Inv (holds : K → Bool) (wait : D → Prop) (s : State n K D) : Prop where
  locks : Sound s.held fun p => (s.pos p).Relies holds p
  placed : ∀ q, s.sleeping q = true → ∃ k, s.pos q = .asleep k
  entering : ∀ q, (s.pos q).Entering → wait s.data
  resting : ∀ q, s.Resting q → wait s.data ∨ s.Due q

theorem Pos.Entering.relies (h : x.Entering) : x.Relies holds p .main := by
  cases x <;> first | exact h | trivial

theorem Pos.relies_of_waking {i : ℕ} (h : x.waking = some i) : x.Relies holds p .main := by
  cases x <;> first | cases h; done | trivial

theorem sleeping_rouse {r : Fin n} {b : Bool} (h : (s.rouse q b).sleeping r = true) :
    s.sleeping r = true ∧ (b = true → r ≠ q) := by
  have h : Function.update s.sleeping q (s.sleeping q && !b) r = true := h
  by_cases hr : r = q
  · subst hr
    rw [Function.update_self, Bool.and_eq_true, Bool.not_eq_true'] at h
    exact ⟨h.1, fun hb => absurd (h.2.symm.trans hb) nofun⟩
  · rw [Function.update_of_ne hr] at h
    exact ⟨h, fun _ => hr⟩

namespace Inv

/-- When the main lock is free, whoever is asleep has the condition as a reason. -/
theorem rested (h : Inv holds wait s) (hfree : s.held .main = none) (hq : s.sleeping q = true) :
    wait s.data := by
  refine (h.resting q (Or.inr hq)).resolve_right ?_
  rintro ⟨w, i, hw, -⟩
  exact h.locks.not_relies hfree w (Pos.relies_of_waking hw)

theorem not_waking {i : ℕ} (h : Inv holds wait s) (hq : s.Resting q) :
    (s.pos q).waking ≠ some i := by
  obtain ⟨k, hk⟩ | ⟨k, hk⟩ := hq.imp_right (h.placed q) <;>
    · rw [hk]
      nofun

/-- A step of process `p`, which is at `x` afterwards. The waker goes on, and a step that ends the
condition is the start of waking. -/
theorem frame (h : Inv holds wait s) (hpos : s'.pos = Function.update s.pos p x)
    (hlocks : Sound s'.held fun q => (s'.pos q).Relies holds q)
    (hsleep : ∀ q, q ≠ p → s'.sleeping q = true → s.sleeping q = true)
    (hp : s'.sleeping p = true → ∃ k, x = .asleep k)
    (hwait : (wait s.data → wait s'.data) ∨ x.waking = some 0 ∧ (s.pos p).Relies holds p .main)
    (henter : x.Entering → wait s'.data)
    (hrest : (∃ k, x = .sleepSet k) ∨ s'.sleeping p = true → wait s'.data ∨ s.Resting p)
    (hdue : ∀ i (q : Fin n), (s.pos p).waking = some i → i ≤ q → q ≠ p → s'.Resting q →
      ∃ j, x.waking = some j ∧ j ≤ q) : Inv holds wait s' := by
  have hx : s'.pos p = x := by rw [hpos, Function.update_self]
  have hne : ∀ {q}, q ≠ p → s'.pos q = s.pos q := fun hq => by rw [hpos, Function.update_of_ne hq]
  refine ⟨hlocks, fun q hq => ?_, fun q hq => ?_, fun q hq => ?_⟩
  · by_cases hqp : q = p
    · subst hqp
      rw [hx]
      exact hp hq
    · rw [hne hqp]
      exact h.placed q (hsleep q hqp hq)
  · by_cases hqp : q = p
    · subst hqp
      exact henter (hx ▸ hq)
    · rw [hne hqp] at hq
      refine hwait.elim (fun hw => hw (h.entering q hq)) fun hw => ?_
      exact absurd (h.locks.exclusive hq.relies hw.2) hqp
  · have hbefore : wait s'.data ∨ s.Resting q := by
      by_cases hqp : q = p
      · subst hqp
        exact hrest (hx ▸ hq)
      · right
        rcases hq with ⟨k, hk⟩ | hq
        · exact Or.inl ⟨k, hne hqp ▸ hk⟩
        · exact Or.inr (hsleep q hqp hq)
    rcases hbefore with hw | hq₀
    · exact Or.inl hw
    rcases h.resting q hq₀ with hw | ⟨w, i, hi, hle⟩
    · exact hwait.imp (· hw) fun hw => ⟨p, 0, hx ▸ hw.1, Nat.zero_le _⟩
    · right
      by_cases hwp : w = p
      · subst hwp
        have hqw : q ≠ w := by
          rintro rfl
          exact h.not_waking hq₀ hi
        obtain ⟨j, hj, hle⟩ := hdue i q hi hle hqw hq
        exact ⟨w, j, hx ▸ hj, hle⟩
      · exact ⟨w, i, by rwa [hne hwp], hle⟩

/-- Taking no lock. -/
theorem sound_keep (h : Inv holds wait s)
    (hx : ∀ l, x.Relies holds p l → (s.pos p).Relies holds p l) :
    Sound s.held fun q => (Function.update s.pos p x q).Relies holds q := by
  refine h.locks.keep fun q l hq => ?_
  by_cases hqp : q = p
  · subst hqp
    rw [Function.update_self] at hq
    exact hx l hq
  · rwa [Function.update_of_ne hqp] at hq

theorem sound_take (h : Inv holds wait s) (hl : s.held l = none)
    (hx : ∀ k, x.Relies holds p k → (s.pos p).Relies holds p k ∨ k = l) :
    Sound (Function.update s.held l (some p)) fun q =>
      (Function.update s.pos p x q).Relies holds q := by
  refine h.locks.acquire hl fun q k hq => ?_
  by_cases hqp : q = p
  · subst hqp
    rw [Function.update_self] at hq
    exact (hx k hq).imp_right fun hk => ⟨rfl, hk⟩
  · rw [Function.update_of_ne hqp] at hq
    exact Or.inl hq

theorem sound_give (h : Inv holds wait s) (hl : (s.pos p).Relies holds p l)
    (hx : ∀ k, x.Relies holds p k → (s.pos p).Relies holds p k ∧ k ≠ l) :
    Sound (Function.update s.held l none) fun q =>
      (Function.update s.pos p x q).Relies holds q := by
  refine h.locks.release (h.locks p l hl) fun q k hq => ?_
  by_cases hqp : q = p
  · subst hqp
    rw [Function.update_self] at hq
    exact ⟨(hx k hq).1, fun _ => (hx k hq).2⟩
  · rw [Function.update_of_ne hqp] at hq
    exact ⟨hq, fun heq => absurd heq hqp⟩

theorem awake (h : Inv holds wait s) (hp : ∀ k, s.pos p ≠ .asleep k) : s.sleeping p = false := by
  rw [Bool.eq_false_iff]
  intro hsl
  obtain ⟨k, hk⟩ := h.placed p hsl
  exact hp k hk

/-- A step that has nothing to do with sleeping and waking, except that it may wake others. -/
theorem calm (h : Inv holds wait s) (hpos : s'.pos = Function.update s.pos p x)
    (hlocks : Sound s'.held fun q => (s'.pos q).Relies holds q)
    (hsleep : ∀ q, s'.sleeping q = true → s.sleeping q = true) (hp : s.sleeping p = false)
    (hwait : wait s.data → wait s'.data) (hold : (s.pos p).waking = none)
    (hx : ¬x.Entering ∧ ∀ k, x ≠ .sleepSet k) : Inv holds wait s' := by
  have hpsl : s'.sleeping p ≠ true := fun hsl => by rw [hsleep p hsl] at hp; cases hp
  refine h.frame hpos hlocks (fun q _ => hsleep q) (fun hsl => absurd hsl hpsl) (Or.inl hwait)
    (fun henter => absurd henter hx.1) ?_ fun i q hi => ?_
  · rintro (⟨k, hk⟩ | hsl)
    · exact absurd hk (hx.2 k)
    · exact absurd hsl hpsl
  · rw [hold] at hi
    cases hi

/-- What holds of a state in which a process has taken a lock. -/
theorem take_eq_some {s₁ : State n K D} (h : s.take l p = some s₁) :
    s.held l = none ∧ s₁ = { s with held := Function.update s.held l (some p) } := by
  rw [State.take] at h
  split at h
  next hl => exact ⟨hl, (Option.some.inj h).symm⟩
  next => cases h

/-- A step of the program. -/
theorem act {k : K} {r : Act n K × D} (h : Inv holds wait s) (hk : s.pos p = .run k)
    (hgood : Good holds wait k s.data r) (hs : { s with data := r.2 }.act p r.1 = some s') :
    Inv holds wait s' := by
  have hawake := h.awake (p := p) (by rw [hk]; nofun)
  have hold : (s.pos p).waking = none := by rw [hk]; rfl
  have hrun : ∀ {k'}, holds k' = holds k → ∀ l, (Pos.run k').Relies holds p l →
      (s.pos p).Relies holds p l := by
    intro k' heq l hl
    rw [hk]
    cases l with
    | main => exact heq.symm.trans hl
    | own q => cases hl
  have hawake' : ¬s.sleeping p = true := by rw [hawake]; nofun
  obtain ⟨act, d⟩ := r
  cases act with
  | goto k' =>
    cases hs
    exact h.calm rfl (h.sound_keep (hrun hgood.1)) (fun _ hq => hq) hawake hgood.2 hold ⟨id, nofun⟩
  | acquire k' =>
    obtain ⟨s₁, hs₁, rfl⟩ := Option.map_eq_some_iff.mp hs
    obtain ⟨hl, rfl⟩ := take_eq_some hs₁
    refine h.calm rfl (h.sound_take hl fun l hl => ?_) (fun _ hq => hq) hawake hgood.2.2 hold
      ⟨id, nofun⟩
    cases l with
    | main => exact Or.inr rfl
    | own q => cases hl
  | release k' =>
    cases hs
    refine h.calm rfl (h.sound_give (l := .main) (by rw [hk]; exact hgood.1) fun l hl => ?_)
      (fun _ hq => hq) hawake hgood.2.2 hold ⟨id, nofun⟩
    cases l with
    | main => exact absurd (hgood.2.1.symm.trans hl) nofun
    | own q => cases hl
  | sleep k' =>
    cases hs
    refine h.frame (x := .sleepLock k') rfl (h.sound_keep fun l hl => ?_) (fun _ _ hq => hq)
      (fun hsl => absurd hsl hawake') (Or.inl hgood.2.2.2) (fun _ => hgood.2.2.1)
      (fun _ => Or.inl hgood.2.2.1) fun i q hi => ?_
    · rw [hk]
      cases l with
      | main => exact hgood.1
      | own q => cases hl
    · rw [hold] at hi
      cases hi
  | wakeup k' =>
    cases hs
    have hmain : (s.pos p).Relies holds p .main := by rw [hk]; exact hgood.1
    refine h.frame (x := .wake 0 k') rfl (h.sound_keep fun l hl => ?_) (fun _ _ hq => hq)
      (fun hsl => absurd hsl hawake') (Or.inr ⟨rfl, hmain⟩) nofun ?_ fun i q hi => ?_
    · cases l with
      | main => exact hmain
      | own q => cases hl
    · rintro (⟨_, hk₁⟩ | hsl)
      · cases hk₁
      · exact absurd hsl hawake'
    · rw [hold] at hi
      cases hi
  | visit q rouse k' =>
    cases hs
    refine h.calm rfl (h.sound_keep fun l hl => hrun hgood.1 l ?_) (fun _ hq => hq) hawake hgood.2
      hold ⟨id, nofun⟩
    cases l with
    | main => exact hl
    | own r => cases hl

theorem step (h : Inv holds wait s)
    (hgood : ∀ k r, s.pos p = .run k → prog p a k s.data = some r → Good holds wait k s.data r)
    (hs : s.step prog (p, a) = some s') : Inv holds wait s' := by
  rw [State.step] at hs
  cases hk : s.pos p with rw [hk] at hs
  | run k =>
    obtain ⟨r, hr, hs⟩ := Option.bind_eq_some_iff.mp hs
    exact h.act hk (hgood k r hk hr) hs
  | sleepLock k =>
    obtain ⟨s₁, hs₁, rfl⟩ := Option.map_eq_some_iff.mp hs
    obtain ⟨hl, rfl⟩ := take_eq_some hs₁
    have hw : wait s.data := h.entering p (by rw [hk]; trivial)
    refine h.frame (x := .sleepRelease k) rfl (h.sound_take hl fun l hx => ?_) (fun _ _ hq => hq)
      (fun hsl => ?_) (Or.inl id) (fun _ => hw) (fun _ => Or.inl hw) fun i q hi => ?_
    · rw [hk]
      cases l with
      | main => exact Or.inl trivial
      | own q => exact Or.inr (congrArg Lk.own hx)
    · obtain ⟨k', hk'⟩ := h.placed p hsl
      cases hk.symm.trans hk'
    · rw [hk] at hi
      cases hi
  | sleepRelease k =>
    cases hs
    have hw : wait s.data := h.entering p (by rw [hk]; trivial)
    refine h.frame (x := .sleepSet k) rfl (h.sound_give (by rw [hk]; trivial) fun l hx => ?_)
      (fun _ _ hq => hq) (fun hsl => ?_) (Or.inl id) nofun (fun _ => Or.inl hw) fun i q hi => ?_
    · rw [hk]
      cases l with
      | main => cases hx
      | own q => exact ⟨hx, nofun⟩
    · obtain ⟨k', hk'⟩ := h.placed p hsl
      cases hk.symm.trans hk'
    · rw [hk] at hi
      cases hi
  | sleepSet k =>
    cases hs
    refine h.frame (x := .asleep k) rfl (h.sound_give (by rw [hk]; rfl) nofun) (fun q hq hsl => ?_)
      (fun _ => ⟨k, rfl⟩) (Or.inl id) nofun (fun _ => Or.inr (Or.inl ⟨k, hk⟩)) fun i q hi => ?_
    · rwa [← Function.update_of_ne hq true s.sleeping]
    · rw [hk] at hi
      cases hi
  | asleep k =>
    dsimp only at hs
    split at hs
    next => cases hs
    next hsl =>
      obtain ⟨s₁, hs₁, rfl⟩ := Option.map_eq_some_iff.mp hs
      obtain ⟨hl, rfl⟩ := take_eq_some hs₁
      refine h.calm rfl (h.sound_take hl fun l hx => ?_) (fun _ hq => hq)
        (Bool.eq_false_iff.mpr hsl) id (by rw [hk]; rfl) ⟨id, nofun⟩
      cases l with
      | main => cases hx
      | own q => exact Or.inr (congrArg Lk.own hx)
  | tidy k =>
    cases hs
    exact h.calm rfl (h.sound_give (by rw [hk]; rfl) nofun) (fun _ hq => hq)
      (h.awake (by rw [hk]; nofun)) id (by rw [hk]; rfl) ⟨id, nofun⟩
  | retake k =>
    obtain ⟨s₁, hs₁, rfl⟩ := Option.map_eq_some_iff.mp hs
    obtain ⟨hl, rfl⟩ := take_eq_some hs₁
    refine h.calm rfl (h.sound_take hl fun l hx => ?_) (fun _ hq => hq)
      (h.awake (by rw [hk]; nofun)) id (by rw [hk]; rfl) ⟨id, nofun⟩
    cases l with
    | main => exact Or.inr rfl
    | own q => cases hx
  | wake i k =>
    have hawake := h.awake (p := p) (by rw [hk]; nofun)
    have hlive : ∀ {x : Pos n K}, (∀ k', x ≠ .sleepSet k') → (∃ k', x = .sleepSet k') ∨
        s.sleeping p = true → wait s.data ∨ s.Resting p := by
      rintro x hx (⟨k', hk'⟩ | hsl)
      · exact absurd hk' (hx k')
      · exact Or.inr (Or.inr hsl)
    have hsl : s.sleeping p = true → ∀ x : Pos n K, ∃ k', x = .asleep k' := fun hsl => by
      rw [hawake] at hsl
      cases hsl
    dsimp only at hs
    split at hs
    next hi =>
      split at hs
      next hip =>
        -- it does not wake itself
        cases hs
        refine h.frame (x := .wake (i + 1) k) rfl
          (h.sound_keep fun l hx => by rw [hk]; cases l <;> exact hx)
          (fun _ _ hq => hq) (fun h => hsl h _) (Or.inl id) nofun (hlive nofun)
          fun j q hj hle hqp _ => ?_
        rw [hk] at hj
        cases hj
        have hne : i ≠ q := fun heq => hqp (Fin.ext (heq.symm.trans hip))
        exact ⟨i + 1, rfl, by omega⟩
      next =>
        obtain ⟨s₁, hs₁, rfl⟩ := Option.map_eq_some_iff.mp hs
        obtain ⟨hl, rfl⟩ := take_eq_some hs₁
        refine h.frame (x := .wakeHeld ⟨i, hi⟩ k) rfl (h.sound_take hl fun l hx => ?_)
          (fun _ _ hq => hq) (fun h => hsl h _) (Or.inl id) nofun (hlive nofun)
          fun j q hj hle _ _ => ?_
        · rw [hk]
          cases l with
          | main => exact Or.inl trivial
          | own q => exact Or.inr (congrArg Lk.own hx)
        · rw [hk] at hj
          cases hj
          exact ⟨i, rfl, hle⟩
    next hi =>
      cases hs
      refine h.frame (x := .run k) rfl (h.sound_keep fun l hx => ?_) (fun _ _ hq => hq)
        (fun h => hsl h _) (Or.inl id) nofun (hlive nofun) fun j q hj hle _ _ => ?_
      · rw [hk]
        cases l with
        | main => trivial
        | own q => cases hx
      · rw [hk] at hj
        cases hj
        omega
  | wakeHeld i k =>
    cases hs
    have hawake := h.awake (p := p) (by rw [hk]; nofun)
    have hown : (s.pos p).Relies holds p (.own i) := by rw [hk]; rfl
    have hsl : (s.rouse i true).sleeping p ≠ true := fun hsl => by
      rw [(sleeping_rouse hsl).1] at hawake
      cases hawake
    refine h.frame (x := .wake (i + 1) k) rfl (h.sound_give hown fun l hx => ?_)
      (fun q _ hq => (sleeping_rouse hq).1) (fun h => absurd h hsl) (Or.inl id) nofun ?_
      fun j q hj hji hqp hrest => ?_
    · cases l with
      | main => exact ⟨by rw [hk]; trivial, nofun⟩
      | own q => cases hx
    · rintro (⟨_, hk'⟩ | h)
      · cases hk'
      · exact absurd h hsl
    · rw [hk] at hj
      cases hj
      -- the process whose lock is held is neither asleep now nor on the way
      have hne : q ≠ i := by
        rcases hrest with ⟨k', hk'⟩ | hrest
        · rintro rfl
          have hk' : s.pos q = .sleepSet k' := (Function.update_of_ne hqp ..).symm.trans hk'
          exact hqp (h.locks.exclusive (a := q) (l := .own q) (by rw [hk']; rfl) hown)
        · exact (sleeping_rouse hrest).2 rfl
      have := Fin.val_ne_of_ne hne
      exact ⟨i + 1, rfl, by omega⟩
  | visit q rouse k =>
    obtain ⟨s₁, hs₁, rfl⟩ := Option.map_eq_some_iff.mp hs
    obtain ⟨hl, rfl⟩ := take_eq_some hs₁
    refine h.calm rfl (h.sound_take hl fun l hx => ?_) (fun _ hq => hq)
      (h.awake (by rw [hk]; nofun)) id (by rw [hk]; rfl) ⟨id, nofun⟩
    rw [hk]
    cases l with
    | main => exact Or.inl hx
    | own r => exact Or.inr (congrArg Lk.own hx)
  | visitHeld q rouse k =>
    cases hs
    refine h.calm (x := .run k) rfl (h.sound_give (by rw [hk]; rfl) fun l hx => ?_)
      (fun _ hr => (sleeping_rouse hr).1) (h.awake (by rw [hk]; nofun)) id (by rw [hk]; rfl)
      ⟨id, nofun⟩
    rw [hk]
    cases l with
    | main => exact ⟨hx, nofun⟩
    | own r => cases hx

end Inv

/-! ### Runs -/

/-- The places of the processes in the program. -/
def State.places (s : State n K D) (p : Fin n) : K := (s.pos p).place

theorem places_move (p : Fin n) (x : Pos n K) :
    (s.move p x).places = Function.update s.places p x.place :=
  Function.comp_update Pos.place s.pos p x

/-- A step is one of the program, or it is inside an operation. -/
theorem step_places (hs : s.step prog (p, a) = some s') :
    s'.places = s.places ∧ s'.data = s.data ∨
      ∃ k r, s.pos p = .run k ∧ prog p a k s.data = some r ∧
        s'.places = Function.update s.places p r.1.place ∧ s'.data = r.2 := by
  have hin : ∀ {t : State n K D} {x : Pos n K}, t.pos = s.pos → t.data = s.data →
      x.place = (s.pos p).place → (t.move p x).places = s.places ∧ (t.move p x).data = s.data := by
    intro t x ht hd hx
    have hpl : t.places = s.places := by
      funext q
      rw [State.places, ht, State.places]
    rw [places_move, hx, hpl]
    exact ⟨Function.update_eq_self p s.places, hd⟩
  rw [State.step] at hs
  cases hk : s.pos p with rw [hk] at hs
  | run k =>
    obtain ⟨r, hr, hs⟩ := Option.bind_eq_some_iff.mp hs
    refine Or.inr ⟨k, r, rfl, hr, ?_⟩
    obtain ⟨act, d⟩ := r
    cases act with
    | acquire k' =>
      obtain ⟨s₁, hs₁, rfl⟩ := Option.map_eq_some_iff.mp hs
      obtain ⟨-, rfl⟩ := Inv.take_eq_some hs₁
      exact ⟨places_move p _, rfl⟩
    | goto k' | release k' | sleep k' | wakeup k' | visit q b k' =>
      cases hs
      exact ⟨places_move p _, rfl⟩
  | sleepLock k | retake k | visit q b k =>
    obtain ⟨s₁, hs₁, rfl⟩ := Option.map_eq_some_iff.mp hs
    obtain ⟨-, rfl⟩ := Inv.take_eq_some hs₁
    exact Or.inl (hin rfl rfl (by rw [hk]; rfl))
  | sleepRelease k | sleepSet k | tidy k | wakeHeld i k | visitHeld q b k =>
    cases hs
    exact Or.inl (hin rfl rfl (by rw [hk]; rfl))
  | asleep k =>
    dsimp only at hs
    split at hs
    next => cases hs
    next =>
      obtain ⟨s₁, hs₁, rfl⟩ := Option.map_eq_some_iff.mp hs
      obtain ⟨-, rfl⟩ := Inv.take_eq_some hs₁
      exact Or.inl (hin rfl rfl (by rw [hk]; rfl))
  | wake i k =>
    dsimp only at hs
    split at hs
    next =>
      split at hs
      next =>
        cases hs
        exact Or.inl (hin rfl rfl (by rw [hk]; rfl))
      next =>
        obtain ⟨s₁, hs₁, rfl⟩ := Option.map_eq_some_iff.mp hs
        obtain ⟨-, rfl⟩ := Inv.take_eq_some hs₁
        exact Or.inl (hin rfl rfl (by rw [hk]; rfl))
    next =>
      cases hs
      exact Or.inl (hin rfl rfl (by rw [hk]; rfl))

/-- All processes are in the program, no lock is held and nobody is asleep. -/
structure State.Start (holds : K → Bool) (s : State n K D) : Prop where
  held : ∀ l, s.held l = none
  sleeping : ∀ q, s.sleeping q = false
  pos : ∀ q, ∃ k, s.pos q = .run k ∧ holds k = false

theorem State.Start.inv (h : s.Start holds) : Inv holds wait s where
  locks p l hl := by
    obtain ⟨k, hk, hno⟩ := h.pos p
    dsimp only at hl
    rw [hk] at hl
    cases l with
    | main => exact absurd (hno.symm.trans hl) nofun
    | own q => cases hl
  placed q hq := absurd ((h.sleeping q).symm.trans hq) nofun
  entering q hq := by
    obtain ⟨k, hk, -⟩ := h.pos q
    rw [hk] at hq
    cases hq
  resting q hq := by
    obtain ⟨k, hk, -⟩ := h.pos q
    rcases hq with ⟨k', hk'⟩ | hq
    · cases hk.symm.trans hk'
    · exact absurd ((h.sleeping q).symm.trans hq) nofun

/-- The rule for programs: an invariant `J` of the program under which it is disciplined. -/
theorem reach_inv {J : (Fin n → K) → D → Prop} {init : State n K D → Prop}
    (hinit : ∀ s, init s → s.Start holds ∧ J s.places s.data)
    (hJ : ∀ pl d p a r, J pl d → prog p a (pl p) d = some r →
      J (Function.update pl p r.1.place) r.2)
    (hgood : ∀ pl d p a r, J pl d → prog p a (pl p) d = some r → Good holds wait (pl p) d r)
    (hr : Reach init (State.step prog) Any s) : Inv holds wait s ∧ J s.places s.data := by
  refine hr.inv (I := fun s => Inv holds wait s ∧ J s.places s.data)
    (fun s hs => ⟨(hinit s hs).1.inv, (hinit s hs).2⟩) ?_
  rintro s ⟨p, a⟩ s' ⟨hinv, hJs⟩ - hs
  have hplace : ∀ {k}, s.pos p = .run k → s.places p = k := fun hk => by rw [State.places, hk]; rfl
  refine ⟨hinv.step (fun k r hk hrun => ?_) hs, ?_⟩
  · have := hgood s.places s.data p a r hJs
    rw [hplace hk] at this
    exact this hrun
  · rcases step_places hs with ⟨hpl, hd⟩ | ⟨k, r, hk, hrun, hpl, hd⟩
    · rwa [hpl, hd]
    · rw [hpl, hd]
      exact hJ _ _ p a r hJs (by rwa [hplace hk])

end

end Monitor
