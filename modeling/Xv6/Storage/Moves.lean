import Xv6.Storage.Coherence
import Xv6.Storage.Machine

/-!
# What a step of the storage machine can do

`Move` lists the kinds of steps, with what their guards give. `State.Sound` holds in every
reachable state: the cache is sound, and the log, the running operations and the thread fit
together. While the log is open its header lists the pinned blocks; a commit has no running
operations beside it and unpins one block in each turn of `install_trans`.
-/

namespace Xv6

namespace Storage

open Transition

variable {s s' : State} {e : Event} {p blk op : ℕ}

/-! ### Moves -/

/-- The kinds of steps. -/
inductive Move (s : State) : Event → State → Prop
  | act {p : ℕ} {a : Act} {io : Bio} (hp : s.client p) (ha : a.plain) (hio : s.io.act p a = some io) :
    Move s (.act p a) { s with io := io }
  | logWrite {p blk op : ℕ} {r : Ref} {l : Log} {pin : Bool} {io : Bio} (hp : s.client p)
      (hop : (p, op) ∈ s.ops) (hr : s.io.ref p blk .holding = some r)
      (hl : s.log.logWrite (s.io.cache.buf r.buf).blockno = .ok (l, pin))
      (hio : s.io.act p (.logWrite blk pin) = some io) :
    Move s (.logWrite p blk op)
      { s with
        io := io
        log := l
        current := s.current ++ [⟨op, blk, (s.io.cache.buf r.buf).data⟩] }
  | beginOp {p : ℕ} {l : Log} (hp : s.client p) (hl : s.log.beginOp = some l) :
    Move s (.beginOp p)
      { s with log := l, ops := (p, s.nextOp) :: s.ops, nextOp := s.nextOp + 1 }
  | endOp {p op : ℕ} {l : Log} (hp : s.client p) (hop : (p, op) ∈ s.ops)
      (hl : s.log.endOp = .ok (l, false)) :
    Move s (.endOp p op) { s with log := l, ops := s.ops.erase (p, op), ended := op :: s.ended }
  | commit {p op : ℕ} {l : Log} (hp : s.client p) (hop : (p, op) ∈ s.ops)
      (hl : s.log.endOp = .ok (l, true)) :
    Move s (.endOp p op)
      { s with
        log := l
        ops := s.ops.erase (p, op)
        ended := op :: s.ended
        thread := some (commitThread p l.block)
        groups := s.groups ++ [s.current]
        returned := if l.block = [] then s.returned + 1 else s.returned
        current := [] }
  | exec {t : Thread} {i : Instr} {code : List Instr} {a : Act} {io : Bio}
      (ht : s.thread = some t) (hcode : t.code = i :: code) (ha : i.act s t.pid = some a)
      (hio : s.io.act t.pid a = some io) :
    Move s .thread { s with io := io, thread := some { t with code := code } }
  | getHead {t : Thread} {code : List Instr} {d : Block} (ht : s.thread = some t)
      (hcode : t.code = .getHead :: code) (hd : s.held t.pid logstart = some d)
      (hlen : (getHead d).length ≤ logblocks) :
    Move s .thread
      { s with
        log := { s.log with block := getHead d }
        thread := some { t with code := code } }
  | advance {t : Thread} (ht : s.thread = some t) (hcode : t.code = [])
      (hstage : t.stage ≠ .finish) : Move s .thread (advance s t)
  | finish {t : Thread} (ht : s.thread = some t) (hcode : t.code = [])
      (hstage : t.stage = .finish) : Move s .thread (finish s t)
  | crash {p : ℕ} : Move s (.crash p) (crash s p)

theorem act_eq_some {a : Act} (h : s.act p a = some s') :
    ∃ io, s.io.act p a = some io ∧ s' = { s with io := io } := by
  obtain ⟨io, hio, rfl⟩ := Option.map_eq_some_iff.mp h
  exact ⟨io, hio, rfl⟩

theorem exec_of_ne {i : Instr} (hi : i ≠ .getHead) :
    exec s p i = (i.act s p).bind fun a => s.act p a := by
  cases i <;> first | rfl | exact absurd rfl hi

/-- A statement is an action on a buffer or reads the header. -/
theorem exec_eq_some {i : Instr} (h : exec s p i = some s') :
    (∃ a io, i.act s p = some a ∧ s.io.act p a = some io ∧ s' = { s with io := io }) ∨
    (i = .getHead ∧ ∃ d, s.held p logstart = some d ∧ (getHead d).length ≤ logblocks ∧
      s' = { s with log := { s.log with block := getHead d } }) := by
  by_cases hi : i = .getHead
  · subst hi
    right
    simp only [exec, Option.bind_eq_bind, Option.bind_eq_some_iff] at h
    obtain ⟨d, hd, _, hg, h⟩ := h
    cases h
    exact ⟨rfl, d, hd, by simpa using hg, rfl⟩
  · left
    rw [exec_of_ne hi, Option.bind_eq_some_iff] at h
    obtain ⟨a, ha, h⟩ := h
    obtain ⟨io, hio, rfl⟩ := act_eq_some h
    exact ⟨a, io, ha, hio, rfl⟩

theorem threadStep_move {t : Thread} (ht : s.thread = some t) (h : threadStep s t = some s') :
    Move s .thread s' := by
  unfold threadStep at h
  split at h
  · rename_i i code hcode
    obtain ⟨s₁, hex, rfl⟩ := Option.map_eq_some_iff.mp h
    rcases exec_eq_some hex with ⟨a, io, ha, hio, rfl⟩ | ⟨rfl, d, hd, hlen, rfl⟩
    · exact .exec ht hcode ha hio
    · exact .getHead ht hcode hd hlen
  · rename_i hcode
    split at h
    · rename_i hstage
      cases h
      exact .finish ht hcode hstage
    · rename_i hstage
      cases h
      exact .advance ht hcode hstage

/-- Every step is a move. -/
theorem step_move (h : step s e = some s') : Move s e s' := by
  cases e with
  | act p a =>
    obtain ⟨_, hg, h⟩ := Option.bind_eq_some_iff.mp h
    obtain ⟨io, hio, rfl⟩ := act_eq_some h
    have hg : s.client p ∧ a.plain := by simpa using hg
    exact .act hg.1 hg.2 hio
  | logWrite p blk op =>
    obtain ⟨_, hg, h⟩ := Option.bind_eq_some_iff.mp h
    have hg : s.client p ∧ (p, op) ∈ s.ops := by simpa using hg
    obtain ⟨r, hr, h⟩ := Option.bind_eq_some_iff.mp h
    simp only at h
    split at h
    · cases h
    · rename_i l pin hl
      obtain ⟨s₁, hs₁, h⟩ := Option.bind_eq_some_iff.mp h
      obtain ⟨io, hio, rfl⟩ := act_eq_some hs₁
      cases h
      exact .logWrite hg.1 hg.2 hr hl hio
  | beginOp p =>
    obtain ⟨_, hg, h⟩ := Option.bind_eq_some_iff.mp h
    obtain ⟨l, hl, h⟩ := Option.bind_eq_some_iff.mp h
    cases h
    exact .beginOp (by simpa using hg) hl
  | endOp p op =>
    obtain ⟨_, hg, h⟩ := Option.bind_eq_some_iff.mp h
    have hg : s.client p ∧ (p, op) ∈ s.ops := by simpa using hg
    simp only [endOp] at h
    split at h
    · cases h
    · rename_i l last hl
      cases last with
      | false =>
        cases h
        exact .endOp hg.1 hg.2 hl
      | true =>
        cases h
        exact .commit hg.1 hg.2 hl
  | thread =>
    obtain ⟨t, ht, h⟩ := Option.bind_eq_some_iff.mp h
    exact threadStep_move ht h
  | crash p =>
    cases h
    exact .crash

/-! ### The thread -/

/-- The unpinning statements of a piece of code. -/
def unpins (code : List Instr) : List ℕ :=
  code.filterMap fun
    | .bunpin blk => some blk
    | _ => none

/-- The blocks that a thread has still to unpin. -/
def Thread.pending (t : Thread) (block : List ℕ) : List ℕ :=
  if t.recovering then []
  else
    match t.stage with
    | .writeLog _ | .writeHead => block
    | .install tail => unpins t.code ++ block.drop (tail + 1)
    | .readHead | .eraseHead | .finish => []

/-- The stages that a commit and a recovery go through, and the header there. -/
def Stage.Fits (recovering : Bool) (block : List ℕ) : Stage → Prop
  | .readHead => recovering = true
  | .writeLog tail => recovering = false ∧ tail < block.length
  | .writeHead => recovering = false
  | .install tail => tail < block.length
  | .eraseHead | .finish => block = []

/-- The header when the thread has entered `stage`. -/
def headerAt (block : List ℕ) (stage : Stage) : List ℕ := if stage = .eraseHead then [] else block

theorem installFrom_fits (recovering : Bool) (block : List ℕ) (tail : ℕ) :
    (installFrom block tail).Fits recovering (headerAt block (installFrom block tail)) := by
  unfold installFrom headerAt
  split
  · rename_i hlt
    simpa [Stage.Fits] using hlt
  · simp [Stage.Fits]

theorem Stage.Fits.next {recovering : Bool} {block : List ℕ} {stage : Stage}
    (h : stage.Fits recovering block) :
    (stage.next block).Fits recovering (headerAt block (stage.next block)) := by
  cases stage with
  | readHead => exact installFrom_fits _ _ _
  | writeLog tail =>
    simp only [Stage.next]
    split
    · rename_i hlt
      exact ⟨h.1, by simpa [headerAt] using hlt⟩
    · exact h.1
  | writeHead => exact installFrom_fits _ _ _
  | install tail => exact installFrom_fits _ _ _
  | eraseHead => simpa [Stage.next, headerAt, Stage.Fits] using h
  | finish => simpa [Stage.next, headerAt, Stage.Fits] using h

theorem unpins_install (block : List ℕ) (tail : ℕ) :
    unpins (stageCode block false (.install tail)) = [block.getD tail 0] := rfl

theorem drop_eq_getD_cons {block : List ℕ} {tail : ℕ} (h : tail < block.length) :
    block.drop tail = block.getD tail 0 :: block.drop (tail + 1) := by
  rw [List.drop_eq_getElem_cons h, List.getD_eq_getElem?_getD, List.getElem?_eq_getElem h,
    Option.getD_some]

theorem pending_installFrom (t : Thread) (block : List ℕ) (tail : ℕ) (ht : t.recovering = false) :
    (t.enter (headerAt block (installFrom block tail)) (installFrom block tail)).pending
      (headerAt block (installFrom block tail)) = block.drop tail := by
  unfold installFrom headerAt
  split
  · rename_i hlt
    simp only [Thread.pending, Thread.enter, ht, Bool.false_eq_true, if_false, reduceCtorEq,
      unpins_install]
    exact (drop_eq_getD_cons hlt).symm
  · rename_i hge
    have hnil : block.drop tail = [] := List.drop_eq_nil_of_le (by omega)
    simp [Thread.pending, Thread.enter, hnil]

/-- Going to the next stage does not change what is left to unpin. -/
theorem pending_enter {t : Thread} {block : List ℕ} (hfit : t.stage.Fits t.recovering block)
    (hcode : t.code = []) :
    (t.enter (headerAt block (t.stage.next block)) (t.stage.next block)).pending
      (headerAt block (t.stage.next block)) = t.pending block := by
  cases hr : t.recovering with
  | true => simp [Thread.pending, Thread.enter, hr]
  | false =>
    cases hst : t.stage with
    | readHead =>
      rw [hst, hr] at hfit
      cases hfit
    | writeLog tail =>
      have hother : t.pending block = block := by simp [Thread.pending, hr, hst]
      rw [hother]
      simp only [Stage.next]
      split <;> simp [Thread.pending, Thread.enter, hr, headerAt]
    | writeHead =>
      have hother : t.pending block = block := by simp [Thread.pending, hr, hst]
      rw [hother]
      exact pending_installFrom t block 0 hr
    | install tail =>
      have hother : t.pending block = block.drop (tail + 1) := by
        simp [Thread.pending, hr, hst, hcode, unpins]
      rw [hother]
      exact pending_installFrom t block (tail + 1) hr
    | eraseHead => simp [Thread.pending, Thread.enter, hr, hst, Stage.next]
    | finish => simp [Thread.pending, Thread.enter, hr, hst, Stage.next]

/-! ### Soundness -/

/-- The thread beside the header of the log. -/
structure Thread.Fits (t : Thread) (block : List ℕ) : Prop where
  code : t.code <:+ stageCode block t.recovering t.stage
  stage : t.stage.Fits t.recovering block

/-- The cache is sound, and the log, the operations and the thread fit together. -/
structure State.Sound (s : State) : Prop where
  io : s.io.Sound
  outstanding : s.log.outstanding = s.ops.length
  size : s.log.block.length ≤ logblocks
  idle : s.thread = none → s.up = true ∧ s.log.committing = false ∧ s.io.pins = s.log.block
  busy : ∀ t, s.thread = some t → s.ops = [] ∧ t.recovering = !s.up ∧ s.log.committing = s.up ∧
    s.io.pins = t.pending s.log.block ∧ t.Fits s.log.block

theorem Bio.act_pins {s s' : Bio} {a : Act} (h : s.act p a = some s') :
    s'.pins = match a with
      | .logWrite blk true => s.pins ++ [blk]
      | .bunpin blk => s.pins.erase blk
      | _ => s.pins := by
  cases a with
  | bget k =>
    obtain ⟨cb, -, rfl⟩ := Option.map_eq_some_iff.mp h
    rfl
  | lock k =>
    simp only [Bio.act, Bio.lock, Option.bind_eq_bind, Option.bind_eq_some_iff] at h
    obtain ⟨r, -, _, -, h⟩ := h
    cases h
    rfl
  | logWrite k pin =>
    obtain ⟨r, -, h⟩ := Option.bind_eq_some_iff.mp h
    cases h
    cases pin <;> rfl
  | store k d | bwrite k | bunpin k | unlock k | brelse k =>
    obtain ⟨r, -, h⟩ := Option.bind_eq_some_iff.mp h
    cases h
    rfl

theorem Bio.act_pins_plain {s s' : Bio} {a : Act} (h : s.act p a = some s') (ha : a.plain) :
    s'.pins = s.pins := by
  rw [Bio.act_pins h]
  cases a with
  | logWrite k pin | bunpin k => cases ha
  | bget k | lock k | store k d | bwrite k | unlock k | brelse k => rfl

/-- A statement other than `bunpin` does not touch the pins. -/
theorem Instr.act_plain {i : Instr} {a : Act} (h : i.act s p = some a) :
    (∃ k, i = .bunpin k ∧ a = .bunpin k) ∨ (a.plain ∧ ∀ k, i ≠ .bunpin k) := by
  cases i with
  | bunpin k =>
    cases h
    exact Or.inl ⟨k, rfl, rfl⟩
  | copy dst src | putHead =>
    obtain ⟨d, -, rfl⟩ := Option.map_eq_some_iff.mp h
    exact Or.inr ⟨rfl, nofun⟩
  | getHead => cases h
  | bget k | lock k | bwrite k | unlock k | brelse k =>
    cases h
    exact Or.inr ⟨rfl, nofun⟩

/-- Executing the first statement takes it out of what is left to unpin. -/
theorem Thread.pending_cons {t : Thread} {block : List ℕ} {i : Instr} {code : List Instr}
    (hfit : t.Fits block) (hcode : t.code = i :: code) :
    t.pending block = match i with
      | .bunpin k => k :: Thread.pending { t with code := code } block
      | _ => Thread.pending { t with code := code } block := by
  have hsuffix := hfit.code
  rw [hcode] at hsuffix
  have hmem : i ∈ stageCode block t.recovering t.stage := hsuffix.subset List.mem_cons_self
  cases hr : t.recovering with
  | true =>
    have hne : ∀ k, i ≠ .bunpin k := fun k hi => by
      subst hi
      rw [hr] at hmem
      cases hst : t.stage <;> simp [hst, stageCode, headCode] at hmem
    simp only [Thread.pending, hr, if_true]
    cases i <;> first | rfl | exact absurd rfl (hne _)
  | false =>
    cases hst : t.stage with
    | install tail => cases i <;> simp [Thread.pending, hr, hst, hcode, unpins]
    | readHead | writeLog tail | writeHead | eraseHead | finish =>
      have hne : ∀ k, i ≠ .bunpin k := fun k hi => by
        subst hi
        simp [hst, stageCode, headCode] at hmem
      simp only [Thread.pending, hr, hst, Bool.false_eq_true, if_false]
      cases i <;> first | rfl | exact absurd rfl (hne _)

/-- Only recovery reads the header. -/
theorem Thread.Fits.getHead_stage {t : Thread} {block : List ℕ} {code : List Instr}
    (h : t.Fits block) (hcode : t.code = .getHead :: code) : t.stage = .readHead := by
  have hsuffix := h.code
  rw [hcode] at hsuffix
  have hg := hsuffix.subset List.mem_cons_self
  cases hst : t.stage with
  | readHead => rfl
  | install tail => cases hr : t.recovering <;> simp [hst, hr, stageCode] at hg
  | writeLog tail | writeHead | eraseHead | finish => simp [hst, stageCode, headCode] at hg

namespace State.Sound

/-- While an operation runs the log is open. -/
theorem thread_none (h : s.Sound) (hop : s.ops ≠ []) : s.thread = none := by
  cases ht : s.thread with
  | none => rfl
  | some t => exact absurd (h.busy t ht).1 hop

theorem ops_ne_nil {x : ℕ × ℕ} (hop : x ∈ s.ops) : s.ops ≠ [] := List.ne_nil_of_mem hop

/-- A client runs only after recovery. -/
theorem up_of_client (hp : s.client p) : s.up = true := by
  simp only [State.client, Bool.and_eq_true] at hp
  exact hp.1

theorem logWrite {r : Ref} {l : Log} {pin : Bool} {io : Bio} {cur : List Write} (h : s.Sound)
    (hop : (p, op) ∈ s.ops) (hr : s.io.ref p blk .holding = some r)
    (hl : s.log.logWrite (s.io.cache.buf r.buf).blockno = .ok (l, pin))
    (hio : s.io.act p (.logWrite blk pin) = some io) :
    Sound { s with io := io, log := l, current := cur } := by
  obtain ⟨hfull, -, rfl, -⟩ := Log.logWrite_ok hl
  obtain ⟨hmem, -, rfl, -⟩ := Bio.ref_eq_some hr
  have ht := h.thread_none (ops_ne_nil hop)
  obtain ⟨hup, hcom, hpins⟩ := h.idle ht
  have hblk := (h.io.refs r hmem).2.2
  refine ⟨h.io.act (fun k hk => ?_) hio, h.outstanding, ?_, fun _ => ⟨hup, hcom, ?_⟩,
    fun t ht' => ?_⟩
  · cases hk
  · cases pin
    · exact h.size
    · simp only [if_true, List.length_append, List.length_singleton]
      omega
  · cases pin
    · exact (Bio.act_pins hio).trans hpins
    · simp only [if_true, hblk]
      exact (Bio.act_pins hio).trans (by rw [hpins])
  · cases ht.symm.trans ht'

theorem exec {t : Thread} {i : Instr} {code : List Instr} {a : Act} {io : Bio} (h : s.Sound)
    (ht : s.thread = some t) (hcode : t.code = i :: code) (ha : i.act s t.pid = some a)
    (hio : s.io.act t.pid a = some io) :
    Sound { s with io := io, thread := some { t with code := code } } := by
  obtain ⟨hops, hrec, hcom, hpins, hfit⟩ := h.busy t ht
  have hcons := Thread.pending_cons hfit hcode
  have hfit' : Thread.Fits { t with code := code } s.log.block :=
    ⟨(List.suffix_cons i code).trans (hcode ▸ hfit.code), hfit.stage⟩
  rcases Instr.act_plain ha with ⟨k, rfl, rfl⟩ | ⟨hplain, hne⟩
  · simp only at hcons
    have hk : k ∈ s.io.pins := by
      rw [hpins, hcons]
      exact List.mem_cons_self
    refine ⟨h.io.act (fun k' hk' => ?_) hio, h.outstanding, h.size, nofun, fun t' ht' => ?_⟩
    · cases hk'
      exact hk
    · cases ht'
      refine ⟨hops, hrec, hcom, ?_, hfit'⟩
      rw [Bio.act_pins hio, hpins, hcons]
      exact List.erase_cons_head k _
  · have hsame : t.pending s.log.block = Thread.pending { t with code := code } s.log.block := by
      rw [hcons]
      cases i <;> first | rfl | exact absurd rfl (hne _)
    refine ⟨h.io.act (fun k hk => ?_) hio, h.outstanding, h.size, nofun, fun t' ht' => ?_⟩
    · subst hk
      cases hplain
    · cases ht'
      refine ⟨hops, hrec, hcom, ?_, hfit'⟩
      exact (Bio.act_pins_plain hio hplain).trans (hpins.trans hsame)

theorem advance {t : Thread} (h : s.Sound) (ht : s.thread = some t) (hcode : t.code = []) :
    (advance s t).Sound := by
  obtain ⟨hops, hrec, hcom, hpins, hfit⟩ := h.busy t ht
  have hpend := pending_enter hfit.stage hcode
  have hnext := hfit.stage.next
  have hlog : (Storage.advance s t).log = { s.log with
      block := headerAt s.log.block (t.stage.next s.log.block) } := by
    simp only [Storage.advance, headerAt]
    split <;> rfl
  have hthread : (Storage.advance s t).thread = some
      (t.enter (headerAt s.log.block (t.stage.next s.log.block)) (t.stage.next s.log.block)) := by
    simp only [Storage.advance, headerAt]
    split <;> rfl
  have hrest : (Storage.advance s t).io = s.io ∧ (Storage.advance s t).ops = s.ops ∧
      (Storage.advance s t).up = s.up := by
    simp only [Storage.advance]
    split <;> exact ⟨rfl, rfl, rfl⟩
  obtain ⟨hio, hops', hup⟩ := hrest
  refine ⟨hio ▸ h.io, ?_, ?_, fun hnone => ?_, fun t' ht' => ?_⟩
  · rw [hlog, hops']
    exact h.outstanding
  · rw [hlog]
    simp only [headerAt]
    split
    · exact Nat.zero_le _
    · exact h.size
  · rw [hthread] at hnone
    cases hnone
  · rw [hthread] at ht'
    cases ht'
    rw [hlog, hio, hops', hup]
    exact ⟨hops, hrec, hcom, hpins.trans hpend.symm, List.suffix_rfl, hnext⟩

theorem finish {t : Thread} (h : s.Sound) (ht : s.thread = some t) (hstage : t.stage = .finish) :
    (finish s t).Sound := by
  obtain ⟨hops, hrec, hcom, hpins, hfit⟩ := h.busy t ht
  have hblock : s.log.block = [] := by
    have hst := hfit.stage
    rwa [hstage] at hst
  have hpend : t.pending s.log.block = [] := by
    simp [Thread.pending, hstage]
  unfold Storage.finish
  split
  · rename_i hr
    rw [hr] at hrec
    have hup : s.up = false := by simpa using hrec.symm
    refine ⟨h.io, h.outstanding, h.size, fun _ => ⟨rfl, hcom.trans hup, ?_⟩, nofun⟩
    exact hpins.trans (hpend.trans hblock.symm)
  · rename_i hr
    have hup : s.up = true := by
      rw [Bool.not_eq_true] at hr
      simpa [hr] using hrec.symm
    refine ⟨h.io, h.outstanding, h.size, fun _ => ⟨hup, rfl, ?_⟩, nofun⟩
    exact hpins.trans (hpend.trans hblock.symm)

theorem commitThread_fits (q : ℕ) (block : List ℕ) : (commitThread q block).Fits block := by
  refine ⟨List.suffix_rfl, ?_⟩
  simp only [commitThread, Thread.enter]
  split
  · rename_i hpos
    exact ⟨rfl, hpos⟩
  · rename_i hz
    exact List.length_eq_zero_iff.mp (by omega)

theorem commitThread_pending (q : ℕ) (block : List ℕ) : (commitThread q block).pending block = block := by
  simp only [commitThread, Thread.enter, Thread.pending, Bool.false_eq_true, if_false]
  split
  · rename_i hst
    split at hst <;> cases hst
    rfl
  · rfl
  · rename_i hst
    split at hst <;> cases hst
  · rename_i hst
    split at hst <;> cases hst
  · rename_i hst
    split at hst <;> cases hst
  · rename_i hst
    split at hst
    · cases hst
    · exact (List.length_eq_zero_iff.mp (by omega)).symm

/-- Every step keeps the machine sound. -/
theorem move (h : s.Sound) (hm : Move s e s') : s'.Sound := by
  cases hm with
  | act hp ha hio =>
    have hpins := Bio.act_pins_plain hio ha
    refine ⟨h.io.act (fun k hk => ?_) hio, h.outstanding, h.size, fun ht => ?_, fun t ht => ?_⟩
    · subst hk
      cases ha
    · rw [hpins]
      exact h.idle ht
    · rw [hpins]
      exact h.busy t ht
  | logWrite hp hop hr hl hio => exact h.logWrite hop hr hl hio
  | beginOp hp hl =>
    obtain ⟨hcom, rfl⟩ := Log.beginOp_ok hl
    have ht : s.thread = none := by
      cases ht : s.thread with
      | none => rfl
      | some t =>
        have hbusy := (h.busy t ht).2.2.1
        rw [hcom, up_of_client hp] at hbusy
        cases hbusy
    refine ⟨h.io, by simp [h.outstanding], h.size, h.idle, fun t ht' => ?_⟩
    cases ht.symm.trans ht'
  | endOp hp hop hl =>
    obtain ⟨hcom, -, rfl⟩ := Log.endOp_ok hl
    have ht := h.thread_none (ops_ne_nil hop)
    have hlen := List.length_erase_of_mem hop
    obtain ⟨hup, -, hpins⟩ := h.idle ht
    refine ⟨h.io, ?_, h.size, fun _ => ⟨hup, rfl, hpins⟩, fun t ht' => ?_⟩
    · simp only [hlen, h.outstanding]
    · cases ht.symm.trans ht'
  | commit hp hop hl =>
    obtain ⟨hcom, hlast, rfl⟩ := Log.endOp_ok hl
    have hz := hlast.mp rfl
    have ht := h.thread_none (ops_ne_nil hop)
    have hlen := List.length_erase_of_mem hop
    obtain ⟨hup, -, hpins⟩ := h.idle ht
    rw [h.outstanding] at hz
    refine ⟨h.io, by simp only [hlen, h.outstanding], h.size, nofun, fun t ht' => ?_⟩
    cases ht'
    refine ⟨List.length_eq_zero_iff.mp (hlen.trans hz), ?_, hup.symm, ?_, commitThread_fits _ _⟩
    · simp [commitThread, Thread.enter, hup]
    · exact hpins.trans (commitThread_pending _ _).symm
  | exec ht hcode ha hio => exact h.exec ht hcode ha hio
  | @getHead t code d ht hcode hd hlen =>
    obtain ⟨hops, hrec, hcom, hpins, hfit⟩ := h.busy t ht
    have hmem := hfit.code
    rw [hcode] at hmem
    have hst := hfit.getHead_stage hcode
    have hr : t.recovering = true := by
      have hstage := hfit.stage
      rwa [hst] at hstage
    refine ⟨h.io, h.outstanding, hlen, nofun, fun t' ht' => ?_⟩
    cases ht'
    refine ⟨hops, hrec, hcom, ?_, (List.suffix_cons .getHead code).trans ?_, ?_⟩
    · rw [hpins]
      simp [Thread.pending, hr]
    · rw [hst] at hmem ⊢
      exact hmem
    · rw [hst]
      exact hr
  | advance ht hcode hstage => exact h.advance ht hcode
  | finish ht hcode hstage => exact h.finish ht hstage
  | crash =>
    refine ⟨Bio.sound_boot _, rfl, Nat.zero_le _, nofun, fun t ht => ?_⟩
    cases ht
    exact ⟨rfl, rfl, rfl, rfl, List.suffix_rfl, rfl⟩

end State.Sound

theorem sound_booted (h : Booted s) : s.Sound := by
  obtain ⟨disk, -, rfl⟩ := h
  exact ⟨Bio.sound_boot disk, rfl, Nat.zero_le _, fun _ => ⟨rfl, rfl, rfl⟩, nofun⟩

/-- The machine is sound in every run. -/
theorem sound_reach {ok : State → Event → Prop} (h : Reach Booted step ok s) : s.Sound :=
  h.inv (fun _ => sound_booted) fun _ _ _ hs _ hstep => hs.move (step_move hstep)

end Storage

end Xv6
