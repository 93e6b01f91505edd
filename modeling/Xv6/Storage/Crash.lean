import Xv6.Storage.Commit

/-!
# Crash atomicity

A crash at any step of any run, during a commit or during the recovery from an earlier crash,
followed by a recovery that is not interrupted: that recovery returns, and the disk outside the
log is then the one after a prefix of the groups (`crash_atomic`). The prefix includes every group
whose commit had returned, and all its writes are of operations that had called `end_op`.

Recovery is alone on the machine. What it holds at each statement is computed from its code
(`Instr.effect`), which shows that it neither waits nor panics.
-/

namespace Xv6

namespace Storage

open Transition

variable {s s' : State} {e : Event} {p blk op : ℕ}

/-! ### Numbers of operations -/

/-- Operations have different numbers, and a group has writes of ended operations only. -/
structure State.Numbered (s : State) : Prop where
  running : ∀ x ∈ s.ops, x.2 < s.nextOp ∧ x.2 ∉ s.ended
  nodup : (s.ops.map Prod.snd).Nodup
  ended : ∀ o ∈ s.ended, o < s.nextOp
  current : ∀ w ∈ s.current, w.op ∈ s.ops.map Prod.snd ∨ w.op ∈ s.ended
  groups : ∀ g ∈ s.groups, ∀ w ∈ g, w.op ∈ s.ended

namespace State.Numbered

theorem ne_of_mem_erase (h : s.Numbered) (hop : (p, op) ∈ s.ops) {x : ℕ × ℕ}
    (hx : x ∈ s.ops.erase (p, op)) : x.2 ≠ op := by
  have hperm := (List.perm_cons_erase hop).map Prod.snd
  have hnodup := hperm.nodup_iff.mp h.nodup
  rw [List.map_cons, List.nodup_cons] at hnodup
  exact fun heq => hnodup.1 (List.mem_map.mpr ⟨x, hx, heq⟩)

/-- The numbers when operation `op` has ended. -/
theorem endOp (h : s.Numbered) (hop : (p, op) ∈ s.ops) {l : Log} :
    Numbered { s with log := l, ops := s.ops.erase (p, op), ended := op :: s.ended } := by
  refine ⟨fun x hx => ?_, ?_, fun o ho => ?_, fun w hw => ?_, fun g hg w hw =>
    List.mem_cons_of_mem _ (h.groups g hg w hw)⟩
  · obtain ⟨hlt, hne⟩ := h.running x (List.mem_of_mem_erase hx)
    exact ⟨hlt, fun hmem => (List.mem_cons.mp hmem).elim (h.ne_of_mem_erase hop hx) hne⟩
  · exact h.nodup.sublist ((List.erase_sublist).map _)
  · rcases List.mem_cons.mp ho with rfl | ho
    · exact (h.running _ hop).1
    · exact h.ended o ho
  · rcases h.current w hw with hmem | hend
    · obtain ⟨x, hx, hxw⟩ := List.mem_map.mp hmem
      by_cases heq : x = (p, op)
      · right
        rw [← hxw, heq]
        exact List.mem_cons_self
      · exact Or.inl (List.mem_map.mpr ⟨x, (List.mem_erase_of_ne heq).mpr hx, hxw⟩)
    · exact Or.inr (List.mem_cons_of_mem _ hend)

theorem move (h : s.Numbered) (hs : s.Sound) (hm : Move s e s') : s'.Numbered := by
  cases hm with
  | act hp ha hio => exact ⟨h.running, h.nodup, h.ended, h.current, h.groups⟩
  | logWrite hp hop hr hl hio =>
    refine ⟨h.running, h.nodup, h.ended, fun w hw => ?_, h.groups⟩
    rcases List.mem_append.mp hw with hw | hw
    · exact h.current w hw
    · rw [List.mem_singleton.mp hw]
      exact Or.inl (List.mem_map_of_mem hop)
  | beginOp hp hl =>
    refine ⟨fun x hx => ?_, ?_, fun o ho => Nat.lt_succ_of_lt (h.ended o ho), fun w hw => ?_,
      h.groups⟩
    · rcases List.mem_cons.mp hx with rfl | hx
      · exact ⟨Nat.lt_succ_self _, fun hmem => Nat.lt_irrefl _ (h.ended _ hmem)⟩
      · exact ⟨Nat.lt_succ_of_lt (h.running x hx).1, (h.running x hx).2⟩
    · rw [List.map_cons, List.nodup_cons]
      refine ⟨fun hmem => ?_, h.nodup⟩
      obtain ⟨x, hx, hxn⟩ := List.mem_map.mp hmem
      exact Nat.ne_of_lt (h.running x hx).1 hxn
    · exact (h.current w hw).imp (List.mem_cons_of_mem _) id
  | endOp hp hop hl => exact h.endOp hop
  | @commit p op l hp hop hl =>
    have hend := h.endOp (l := l) hop
    have hops : s.ops.erase (p, op) = [] := by
      obtain ⟨-, hlast, -⟩ := Log.endOp_ok hl
      have hz := hlast.mp rfl
      rw [hs.outstanding] at hz
      exact List.length_eq_zero_iff.mp ((List.length_erase_of_mem hop).trans hz)
    refine ⟨hend.running, hend.nodup, hend.ended, by rintro _ ⟨⟩, fun g hg w hw => ?_⟩
    rcases List.mem_append.mp hg with hg | hg
    · exact hend.groups g hg w hw
    · rw [List.mem_singleton.mp hg] at hw
      rcases hend.current w hw with hmem | hmem
      · rw [hops] at hmem
        cases hmem
      · exact hmem
  | exec ht hcode ha hio => exact ⟨h.running, h.nodup, h.ended, h.current, h.groups⟩
  | getHead ht hcode hd hlen => exact ⟨h.running, h.nodup, h.ended, h.current, h.groups⟩
  | advance ht hcode hstage =>
    simp only [advance]
    split <;> exact ⟨h.running, h.nodup, h.ended, h.current, h.groups⟩
  | finish ht hcode hstage =>
    unfold finish
    split
    · exact ⟨h.running, h.nodup, h.ended, h.current, by rintro _ ⟨⟩⟩
    · exact ⟨h.running, h.nodup, h.ended, h.current, h.groups⟩
  | crash => exact ⟨by rintro _ ⟨⟩, List.nodup_nil, h.ended, by rintro _ ⟨⟩, h.groups⟩

end State.Numbered

theorem numbered_reach {ok : State → Event → Prop} (h : Reach Booted step ok s) : s.Numbered := by
  induction h with
  | start h =>
    obtain ⟨disk, -, rfl⟩ := h
    exact ⟨nofun, List.nodup_nil, nofun, nofun, nofun⟩
  | step h _ hs ih => exact ih.move (sound_reach h) (step_move hs)

/-! ### What the thread holds -/

/-- The pointers of the thread after a statement, as blocks and phases; `none` if it could not
be executed. -/
def Instr.effect (l : List (ℕ × Phase)) : Instr → Option (List (ℕ × Phase))
  | .bget b => if l.length < nbuf then some ((b, .waiting) :: l) else none
  | .lock b =>
    if (b, .waiting) ∈ l ∧ (b, .holding) ∉ l then some ((b, .holding) :: l.erase (b, .waiting))
    else none
  | .copy dst src => if (dst, .holding) ∈ l ∧ (src, .holding) ∈ l then some l else none
  | .putHead | .getHead => if (logstart, .holding) ∈ l then some l else none
  | .bwrite b | .bunpin b => if (b, .holding) ∈ l then some l else none
  | .unlock b =>
    if (b, .holding) ∈ l then some ((b, .dropping) :: l.erase (b, .holding)) else none
  | .brelse b => if (b, .dropping) ∈ l then some (l.erase (b, .dropping)) else none

/-- The pointers after a piece of code. -/
def effects : List Instr → List (ℕ × Phase) → Option (List (ℕ × Phase))
  | [], l => some l
  | i :: code, l => (i.effect l).bind (effects code)

/-- Each stage of a recovery can be executed and gives all buffers back. -/
theorem effects_stageCode {block : List ℕ} {stage : Stage} (hfit : stage.Fits true block)
    (hsize : block.length ≤ logblocks) (hhome : ∀ b ∈ block, ¬ InLog b) :
    effects (stageCode block true stage) [] = some [] := by
  cases stage with
  | install tail =>
    have hne : logstart + tail + 1 ≠ block.getD tail 0 := fun heq => by
      have hlt : tail < logblocks := lt_of_lt_of_le hfit hsize
      exact hhome _ (getD_mem hfit) (heq ▸ inLog_copy hlt)
    simp only [stageCode]
    generalize logstart + tail + 1 = lbuf at hne ⊢
    generalize block.getD tail 0 = dbuf at hne ⊢
    simp [effects, Instr.effect, nbuf, maxopblocks, hne, Ne.symm hne]
  | writeLog tail => cases hfit.1
  | writeHead => cases hfit
  | readHead | eraseHead | finish => rfl

/-- The pointers of process `p` are those of the list, and there are no others. -/
def Bio.Owns (io : Bio) (p : ℕ) (l : List (ℕ × Phase)) : Prop :=
  (io.refs.map fun r => (r.pid, r.blk, r.phase)).Perm (l.map fun x => (p, x.1, x.2))

namespace Bio.Owns

variable {io io' : Bio} {l l' : List (ℕ × Phase)} {b : ℕ} {phase : Phase} {r : Ref}

theorem length (h : io.Owns p l) : io.refs.length = l.length := by
  simpa using h.length_eq

theorem mem (h : io.Owns p l) (hr : r ∈ io.refs) : (r.blk, r.phase) ∈ l := by
  have hmem := h.mem_iff.mp (List.mem_map_of_mem hr)
  obtain ⟨x, hx, heq⟩ := List.mem_map.mp hmem
  simp only [Prod.mk.injEq] at heq
  rw [← heq.2.1, ← heq.2.2]
  exact hx

theorem ref (h : io.Owns p l) (hmem : (b, phase) ∈ l) : ∃ r, io.ref p b phase = some r := by
  have hkey := h.mem_iff.mpr (List.mem_map_of_mem hmem)
  obtain ⟨r, hr, heq⟩ := List.mem_map.mp hkey
  simp only [Prod.mk.injEq] at heq
  refine Option.isSome_iff_exists.mp (List.find?_isSome.mpr ⟨r, hr, ?_⟩)
  simp [heq.1, heq.2.1, heq.2.2]

theorem erase (h : io.Owns p l) (hr : io.ref p b phase = some r) :
    ((io.refs.erase r).map fun r => (r.pid, r.blk, r.phase)).Perm
      ((l.erase (b, phase)).map fun x => (p, x.1, x.2)) := by
  obtain ⟨hmem, rfl, rfl, rfl⟩ := Bio.ref_eq_some hr
  have hleft := (List.perm_cons_erase hmem).map fun r => (r.pid, r.blk, r.phase)
  have hright := (List.perm_cons_erase (h.mem hmem)).map fun x => (r.pid, x.1, x.2)
  exact (hleft.symm.trans (h.trans hright)).cons_inv

theorem setPhase (h : io.Owns p l) (hr : io.ref p b phase = some r) (phase' : Phase) {c : Cache} :
    Owns { io.setPhase r phase' with cache := c } p ((b, phase') :: l.erase (b, phase)) := by
  obtain ⟨-, hp, hb, -⟩ := Bio.ref_eq_some hr
  have herase := h.erase hr
  simp only [Owns, Bio.setPhase, List.map_cons, hp, hb]
  exact herase.cons _

theorem bget (h : io.Owns p l) (hs : io.Sound) (hpins : io.pins = []) (hlt : l.length < nbuf) :
    ∃ io', io.act p (.bget b) = some io' ∧ io'.Owns p ((b, .waiting) :: l) := by
  obtain ⟨io', i, hio', hrefs⟩ := hs.bget_some p b (by rw [h.length, hpins]; exact hlt)
  refine ⟨io', hio', ?_⟩
  simp only [Owns, hrefs, List.map_cons]
  exact h.cons _

theorem lock (h : io.Owns p l) (hs : io.Sound) (hw : (b, .waiting) ∈ l) (hh : (b, .holding) ∉ l) :
    ∃ io', io.act p (.lock b) = some io' ∧
      io'.Owns p ((b, .holding) :: l.erase (b, .waiting)) := by
  obtain ⟨r, hr⟩ := h.ref hw
  obtain ⟨hmem, -, hb, -⟩ := Bio.ref_eq_some hr
  have hfree : io.locked r.buf = false := by
    rw [Bool.eq_false_iff]
    intro hl
    obtain ⟨x, hx, hxb⟩ := List.any_eq_true.mp hl
    simp only [Bool.and_eq_true, beq_iff_eq] at hxb
    -- the holder would hold the same block
    have hxr : x.blk = r.blk := by
      rw [← (hs.refs x hx).2.2, ← (hs.refs r hmem).2.2, hxb.1]
    have hxl := h.mem hx
    rw [hxb.2, hxr, hb] at hxl
    exact hh hxl
  refine ⟨{ io.setPhase r .holding with cache := io.cache.load io.disk r.buf }, ?_,
    h.setPhase hr .holding⟩
  simp [Bio.act, Bio.lock, hr, hfree, guard]

theorem unlock (h : io.Owns p l) (hh : (b, .holding) ∈ l) :
    ∃ io', io.act p (.unlock b) = some io' ∧
      io'.Owns p ((b, .dropping) :: l.erase (b, .holding)) := by
  obtain ⟨r, hr⟩ := h.ref hh
  exact ⟨io.setPhase r .dropping, by simp [Bio.act, Bio.unlock, hr], h.setPhase hr .dropping⟩

theorem brelse (h : io.Owns p l) (hd : (b, .dropping) ∈ l) :
    ∃ io', io.act p (.brelse b) = some io' ∧ io'.Owns p (l.erase (b, .dropping)) := by
  obtain ⟨r, hr⟩ := h.ref hd
  exact ⟨_, Option.bind_eq_some_iff.mpr ⟨r, hr, rfl⟩, h.erase hr⟩

theorem store {d : Block} (h : io.Owns p l) (hh : (b, .holding) ∈ l) :
    ∃ io', io.act p (.store b d) = some io' ∧ io'.Owns p l := by
  obtain ⟨r, hr⟩ := h.ref hh
  exact ⟨_, Option.bind_eq_some_iff.mpr ⟨r, hr, rfl⟩, h⟩

theorem bwrite (h : io.Owns p l) (hh : (b, .holding) ∈ l) :
    ∃ io', io.act p (.bwrite b) = some io' ∧ io'.Owns p l := by
  obtain ⟨r, hr⟩ := h.ref hh
  exact ⟨_, Option.bind_eq_some_iff.mpr ⟨r, hr, rfl⟩, h⟩

theorem bunpin (h : io.Owns p l) (hh : (b, .holding) ∈ l) :
    ∃ io', io.act p (.bunpin b) = some io' ∧ io'.Owns p l := by
  obtain ⟨r, hr⟩ := h.ref hh
  exact ⟨_, Option.bind_eq_some_iff.mpr ⟨r, hr, rfl⟩, h⟩

end Bio.Owns

/-- A statement of the thread other than reading the header can be executed. -/
theorem effect_act {l l' : List (ℕ × Phase)} {i : Instr} (hs : s.io.Sound) (hpins : s.io.pins = [])
    (hown : s.io.Owns p l) (hi : i ≠ .getHead) (he : i.effect l = some l') :
    ∃ a io, i.act s p = some a ∧ s.io.act p a = some io ∧ io.Owns p l' := by
  cases i with
  | bget b =>
    simp only [Instr.effect, Option.ite_none_right_eq_some] at he
    obtain ⟨hlt, he⟩ := he
    cases he
    obtain ⟨io, hio, hown'⟩ := hown.bget (b := b) hs hpins hlt
    exact ⟨_, io, rfl, hio, hown'⟩
  | lock b =>
    simp only [Instr.effect, Option.ite_none_right_eq_some] at he
    obtain ⟨⟨hw, hh⟩, he⟩ := he
    cases he
    obtain ⟨io, hio, hown'⟩ := hown.lock hs hw hh
    exact ⟨_, io, rfl, hio, hown'⟩
  | copy dst src =>
    simp only [Instr.effect, Option.ite_none_right_eq_some] at he
    obtain ⟨⟨hdst, hsrc⟩, he⟩ := he
    cases he
    obtain ⟨r, hr⟩ := hown.ref hsrc
    obtain ⟨io, hio, hown'⟩ := hown.store (d := (s.io.cache.buf r.buf).data) hdst
    exact ⟨_, io, by simp [Instr.act, State.held, hr], hio, hown'⟩
  | putHead =>
    simp only [Instr.effect, Option.ite_none_right_eq_some] at he
    obtain ⟨hh, he⟩ := he
    cases he
    obtain ⟨r, hr⟩ := hown.ref hh
    obtain ⟨io, hio, hown'⟩ := hown.store
      (d := putHead (s.io.cache.buf r.buf).data s.log.block) hh
    exact ⟨_, io, by simp [Instr.act, State.held, hr], hio, hown'⟩
  | getHead => exact absurd rfl hi
  | bwrite b =>
    simp only [Instr.effect, Option.ite_none_right_eq_some] at he
    obtain ⟨hh, he⟩ := he
    cases he
    obtain ⟨io, hio, hown'⟩ := hown.bwrite hh
    exact ⟨_, io, rfl, hio, hown'⟩
  | bunpin b =>
    simp only [Instr.effect, Option.ite_none_right_eq_some] at he
    obtain ⟨hh, he⟩ := he
    cases he
    obtain ⟨io, hio, hown'⟩ := hown.bunpin hh
    exact ⟨_, io, rfl, hio, hown'⟩
  | unlock b =>
    simp only [Instr.effect, Option.ite_none_right_eq_some] at he
    obtain ⟨hh, he⟩ := he
    cases he
    obtain ⟨io, hio, hown'⟩ := hown.unlock hh
    exact ⟨_, io, rfl, hio, hown'⟩
  | brelse b =>
    simp only [Instr.effect, Option.ite_none_right_eq_some] at he
    obtain ⟨hd, he⟩ := he
    cases he
    obtain ⟨io, hio, hown'⟩ := hown.brelse hd
    exact ⟨_, io, rfl, hio, hown'⟩

/-! ### Recovery returns -/

/-- `s'` has the history of `s`. -/
structure SameHistory (s s' : State) : Prop where
  base : s'.base = s.base
  groups : s'.groups = s.groups
  returned : s'.returned = s.returned
  ended : s'.ended = s.ended

theorem SameHistory.trans {s₁ s₂ s₃ : State} (h : SameHistory s₁ s₂) (h' : SameHistory s₂ s₃) :
    SameHistory s₁ s₃ :=
  ⟨h'.base.trans h.base, h'.groups.trans h.groups, h'.returned.trans h.returned,
    h'.ended.trans h.ended⟩

/-- Running the thread for a while leads from `s` to `s'`. -/
def Leads (s s' : State) : Prop :=
  SameHistory s s' ∧ ∃ n, runAll Transactional step s (List.replicate n .thread) = some s'

theorem Leads.refl (s : State) : Leads s s := ⟨⟨rfl, rfl, rfl, rfl⟩, 0, rfl⟩

theorem Leads.trans {s₁ s₂ s₃ : State} (h : Leads s₁ s₂) (h' : Leads s₂ s₃) : Leads s₁ s₃ := by
  obtain ⟨hist, n, hn⟩ := h
  obtain ⟨hist', m, hm⟩ := h'
  refine ⟨hist.trans hist', n + m, ?_⟩
  rw [List.replicate_add]
  exact runAll_append hn hm

theorem Leads.one (h : step s .thread = some s') (hist : SameHistory s s') : Leads s s' :=
  ⟨hist, 1, by simp [runAll, Transactional, h]⟩

theorem Leads.reach (h : Leads s s') (hr : Reach Booted step Transactional s) :
    Reach Booted step Transactional s' := by
  obtain ⟨-, n, hn⟩ := h
  exact hr.runAll hn

section Recover

variable {t : Thread} {l l' : List (ℕ × Phase)}

/-- What is known of a recovery under way. -/
structure Recovering (s : State) (t : Thread) (l : List (ℕ × Phase)) : Prop where
  reach : Reach Booted step Transactional s
  thread : s.thread = some t
  recovering : t.recovering = true
  owns : s.io.Owns t.pid l

theorem Recovering.pins (h : Recovering s t l) : s.io.pins = [] := by
  obtain ⟨-, -, -, hpins, -⟩ := (sound_reach h.reach).busy t h.thread
  rw [hpins]
  simp [Thread.pending, h.recovering]

/-- The next statement of a recovery. -/
theorem Recovering.exec {i : Instr} {code : List Instr} (h : Recovering s t l)
    (hcode : t.code = i :: code) (he : i.effect l = some l') :
    ∃ s', Leads s s' ∧ Recovering s' { t with code := code } l' ∧
      (i ≠ .getHead → s'.log.block = s.log.block) := by
  have hs := sound_reach h.reach
  by_cases hi : i = .getHead
  · subst hi
    simp only [Instr.effect, Option.ite_none_right_eq_some] at he
    obtain ⟨hh, he⟩ := he
    cases he
    obtain ⟨r, hr⟩ := h.owns.ref hh
    have hheld : s.held t.pid logstart = some (s.io.cache.buf r.buf).data := by simp [State.held, hr]
    -- the header on the disk is not too long
    have hc := coherent_reach (fun _ _ hok => hok.released) h.reach
    have hdur := durable_reach h.reach
    have hlen : (getHead (s.io.cache.buf r.buf).data).length ≤ logblocks := by
      obtain ⟨k, -, -, hrcv⟩ := hdur.recoverable
      rw [held_eq_content hs hc hheld,
        ← hdur.log_on_disk hs hc h.thread inLog_logstart (by rw [hcode]; nofun)]
      exact hrcv.size
    have hstep : step s .thread = some { s with
        log := { s.log with block := getHead (s.io.cache.buf r.buf).data }
        thread := some { t with code := code } } := by
      simp [step, h.thread, threadStep, hcode, Storage.exec, hheld, hlen, guard]
    have hlead := Leads.one hstep ⟨rfl, rfl, rfl, rfl⟩
    exact ⟨_, hlead, ⟨hlead.reach h.reach, rfl, h.recovering, h.owns⟩, fun hne => absurd rfl hne⟩
  · obtain ⟨a, io, ha, hio, hown⟩ := effect_act hs.io h.pins h.owns hi he
    have hexec : Storage.exec s t.pid i = some { s with io := io } := by
      rw [exec_of_ne hi, ha]
      simp [State.act, hio]
    have hstep : step s .thread = some { s with
        io := io
        thread := some { t with code := code } } := by
      simp [step, h.thread, threadStep, hcode, hexec]
    have hlead := Leads.one hstep ⟨rfl, rfl, rfl, rfl⟩
    exact ⟨_, hlead, ⟨hlead.reach h.reach, rfl, h.recovering, hown⟩, fun _ => rfl⟩

/-- The rest of a stage. -/
theorem Recovering.exec_all {code : List Instr} (h : Recovering s t l) (hcode : t.code = code)
    (he : effects code l = some l') :
    ∃ s', Leads s s' ∧ Recovering s' { t with code := [] } l' ∧
      (.getHead ∉ code → s'.log.block = s.log.block) := by
  induction code generalizing s t l with
  | nil =>
    cases he
    refine ⟨s, .refl s, ?_, fun _ => rfl⟩
    have ht : ({ t with code := [] } : Thread) = t := by rw [← hcode]
    rw [ht]
    exact h
  | cons i code ih =>
    obtain ⟨l₁, he₁, he⟩ := Option.bind_eq_some_iff.mp he
    obtain ⟨s₁, hlead₁, hrec₁, hblock₁⟩ := h.exec hcode he₁
    obtain ⟨s', hlead, hrec, hblock⟩ := ih hrec₁ rfl he
    refine ⟨s', hlead₁.trans hlead, hrec, fun hnot => ?_⟩
    rw [List.mem_cons, not_or] at hnot
    exact (hblock hnot.2).trans (hblock₁ fun heq => hnot.1 heq.symm)

/-- The start of a stage, with no buffer in hand. -/
structure AtStage (s : State) (t : Thread) : Prop where
  recovering : Recovering s t []
  code : t.code = stageCode s.log.block true t.stage

/-- A whole stage of a recovery, up to the start of the next. -/
theorem AtStage.next (h : AtStage s t) (hne : t.stage ≠ .finish) :
    ∃ s' t' block, Leads s s' ∧ AtStage s' t' ∧ t'.stage = t.stage.next block ∧
      s'.log.block = headerAt block (t.stage.next block) ∧
      (t.stage ≠ .readHead → block = s.log.block) := by
  have hr := h.recovering
  have hs := sound_reach hr.reach
  obtain ⟨-, -, -, -, hfit⟩ := hs.busy t hr.thread
  have hstage := hfit.stage
  rw [hr.recovering] at hstage
  obtain ⟨s₁, hlead₁, hr₁, hblock₁⟩ := hr.exec_all h.code
    (effects_stageCode hstage hs.size (durable_reach hr.reach).home)
  have hstep : step s₁ .thread = some (advance s₁ { t with code := [] }) := by
    simp [step, hr₁.thread, threadStep, hne]
  have hfields : (advance s₁ { t with code := [] }).io = s₁.io ∧
      SameHistory s₁ (advance s₁ { t with code := [] }) ∧
      (advance s₁ { t with code := [] }).log.block =
        headerAt s₁.log.block (t.stage.next s₁.log.block) ∧
      (advance s₁ { t with code := [] }).thread = some (t.enter
        (headerAt s₁.log.block (t.stage.next s₁.log.block)) (t.stage.next s₁.log.block)) := by
    simp only [advance, headerAt]
    split
    · exact ⟨rfl, ⟨rfl, rfl, if_neg fun hf => by simp [hr.recovering] at hf, rfl⟩, rfl, rfl⟩
    · exact ⟨rfl, ⟨rfl, rfl, if_neg fun hf => by simp [hr.recovering] at hf, rfl⟩, rfl, rfl⟩
  obtain ⟨hio, hist, hblock, hthread⟩ := hfields
  have hlead₂ := Leads.one hstep hist
  refine ⟨_, _, s₁.log.block, hlead₁.trans hlead₂,
    ⟨⟨hlead₂.reach hr₁.reach, hthread, hr.recovering, by rw [hio]; exact hr₁.owns⟩, ?_⟩, rfl, hblock,
    fun hnr => hblock₁ ?_⟩
  · rw [hblock]
    simp only [Thread.enter, hr.recovering]
  · cases hst : t.stage with
    | readHead => exact absurd hst hnr
    | writeLog tail | writeHead | install tail | eraseHead | finish => simp [stageCode, headCode]

/-- The thread comes to the end of `recover_from_log`. -/
def Returns (s : State) : Prop := ∃ s' t', Leads s s' ∧ AtStage s' t' ∧ t'.stage = .finish

theorem Returns.of_leads (h : Leads s s') (hr : Returns s') : Returns s := by
  obtain ⟨s₂, t₂, hlead, hrest⟩ := hr
  exact ⟨s₂, t₂, h.trans hlead, hrest⟩

theorem AtStage.eraseHead_returns (h : AtStage s t) (hst : t.stage = .eraseHead) : Returns s := by
  obtain ⟨s', t', block, hlead, hat, hstage, -, -⟩ := h.next (by rw [hst]; nofun)
  exact ⟨s', t', hlead, hat, by rw [hstage, hst]; rfl⟩

/-- From the loop of `install_trans`, by induction on the turns left. -/
theorem AtStage.install_returns (n : ℕ) (h : AtStage s t) {tail : ℕ} {block : List ℕ}
    (hst : t.stage = installFrom block tail) (hblock : s.log.block = headerAt block t.stage)
    (hn : block.length ≤ tail + n) : Returns s := by
  induction n generalizing s t tail with
  | zero => exact h.eraseHead_returns (hst.trans (if_neg (by omega)))
  | succ n ih =>
    by_cases hlt : tail < block.length
    · have hinst : t.stage = .install tail := hst.trans (if_pos hlt)
      obtain ⟨s', t', block', hlead, hat, hstage, hblock', hsame⟩ := h.next (by rw [hinst]; nofun)
      have heq : block' = block := by
        rw [hsame (by rw [hinst]; nofun), hblock, hinst]
        rfl
      subst heq
      rw [hinst] at hstage hblock'
      refine .of_leads hlead (ih hat hstage ?_ (by omega))
      rw [hblock', hstage]
    · exact h.eraseHead_returns (hst.trans (if_neg hlt))

theorem AtStage.readHead_returns (h : AtStage s t) (hst : t.stage = .readHead) : Returns s := by
  obtain ⟨s', t', block, hlead, hat, hstage, hblock, -⟩ := h.next (by rw [hst]; nofun)
  rw [hst] at hstage hblock
  refine .of_leads hlead (hat.install_returns block.length hstage ?_ (by omega))
  rw [hblock, hstage]

end Recover

theorem runAll_thread {n : ℕ} (h : runAll Transactional step s (List.replicate n .thread) = some s') :
    runAll Any step s (List.replicate n .thread) = some s' := by
  induction n generalizing s with
  | zero => exact h
  | succ n ih =>
    rw [List.replicate_succ] at h ⊢
    obtain ⟨-, s₁, hs, hr⟩ := runAll_cons h
    rw [runAll_step hs]
    exact ih hr

/-- **Crash atomicity.** After any run of transactional operations, commits, crashes and
recoveries, let the machine crash and recover. The recovery returns, and every block outside the
log then holds what the first `k` groups have made of it: all the groups whose commit had returned
are among them, and their writes are of operations that had called `end_op`. -/
theorem crash_atomic (h : Reach Booted step Transactional s) (p : ℕ) :
    ∃ n s', runAll Any step (crash s p) (List.replicate n .thread) = some s' ∧
      s'.up = true ∧ s'.thread = none ∧
      ∃ k, s.returned ≤ k ∧ k ≤ s.groups.length ∧
        (∀ b, ¬ InLog b → s'.io.disk b = applyGroups s.base (s.groups.take k) b) ∧
        ∀ g ∈ s.groups.take k, ∀ w ∈ g, w.op ∈ s.ended ∧ ∀ x ∈ s.ops, x.2 ≠ w.op := by
  have hcrash : Reach Booted step Transactional (crash s p) := h.step (l := .crash p) trivial rfl
  have hat : AtStage (crash s p) (recoverThread p) :=
    ⟨⟨hcrash, rfl, rfl, List.Perm.nil⟩, rfl⟩
  obtain ⟨s₁, t, ⟨hist, n, hrun⟩, ⟨hrec, hcode⟩, hstage⟩ := hat.readHead_returns rfl
  rw [hstage] at hcode
  have hfin : step s₁ .thread = some (finish s₁ t) := by
    simp [step, hrec.thread, threadStep, hcode, stageCode, hstage]
  have hnum := numbered_reach h
  obtain ⟨g, hret, hlen, -, hg⟩ := (durable_reach hrec.reach).disk
  simp only [State.OnDisk, hrec.thread, hstage] at hg
  obtain ⟨-, hset, -⟩ := hg
  refine ⟨n + 1, finish s₁ t, ?_, by simp [finish, hrec.recovering], by simp [finish, hrec.recovering],
    g, ?_, ?_, fun b hb => ?_, fun gs hgs w hw => ?_⟩
  · rw [List.replicate_succ']
    exact runAll_append (runAll_thread hrun) (by rw [runAll_step hfin, runAll])
  · rw [hist.returned] at hret
    exact hret
  · rw [hist.groups] at hlen
    exact hlen
  · have hb' := hset b hb
    rw [State.after, hist.base, hist.groups] at hb'
    have hdisk : (finish s₁ t).io.disk = s₁.io.disk := by simp [finish, hrec.recovering]
    rw [hdisk]
    exact hb'
  · have hend := hnum.groups gs (List.mem_of_mem_take hgs) w hw
    exact ⟨hend, fun x hx heq => (hnum.running x hx).2 (heq ▸ hend)⟩

/-- Process 1 changes block 50 in operation 0 and ends it; its commit has just written the
header. -/
def midCommit : List Event :=
  [.beginOp 1, .act 1 (.bget 50), .act 1 (.lock 50), .act 1 (.store 50 fun _ => 7),
    .logWrite 1 50 0, .act 1 (.unlock 50), .act 1 (.brelse 50), .endOp 1 0] ++
    List.replicate 15 .thread

def afterCommit : State :=
  (runAll Transactional step (boot zeroDisk) midCommit).get (by decide +kernel)

theorem crash_atomic_midCommit :
    getHead (afterCommit.io.disk logstart) = [50] ∧ afterCommit.io.disk 50 0 = 0 ∧
      ∃ n s', runAll Any step (crash afterCommit 2) (List.replicate n .thread) = some s' ∧
        ∃ k ≤ 1, s'.io.disk 50 = applyGroups afterCommit.base (afterCommit.groups.take k) 50 := by
  have h : Reach Booted step Transactional afterCommit :=
    (Reach.start booted_zeroDisk).runAll_get _
  obtain ⟨n, s', hrun, -, -, k, -, hk, hdisk, -⟩ := crash_atomic h 2
  have hfacts : afterCommit.groups.length = 1 ∧ getHead (afterCommit.io.disk logstart) = [50] ∧
      afterCommit.io.disk 50 0 = 0 := by decide +kernel
  obtain ⟨hlen, hhead, hold⟩ := hfacts
  exact ⟨hhead, hold, n, s', hrun, k, hlen ▸ hk, hdisk 50 (by decide)⟩

end Storage

end Xv6
