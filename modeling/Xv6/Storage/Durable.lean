import Xv6.Storage.Cache

/-!
# What the log keeps on the disk

Operations change blocks outside the log only, and log what they change before they release it
or end (`Transactional`). Then at every step the disk can be recovered to the state after some
of the groups (`State.Durable`): `u = s.after g`, the disk after the last recovery with the
first `g` groups applied.

While a commit copies its blocks to the log the header is empty and the home locations are those
of the groups before; its one write of the header makes the group's own copies count
(`Recoverable`), installing them changes nothing that recovery would not do, and the header is
erased when all of them are installed. Recovery goes through the same stages from `install` on.
Each stage writes one block (`Stage.target`), right after storing in it what belongs there
(`Writing`).
-/

namespace Xv6

namespace Storage

open Transition

variable {s s' : State} {e : Event} {p blk op : ℕ}

/-! ### Groups -/

/-- The blocks of the log: the header and the copies. -/
def InLog (b : ℕ) : Prop := logstart ≤ b ∧ b ≤ logstart + logblocks

instance (b : ℕ) : Decidable (InLog b) := inferInstanceAs (Decidable (_ ∧ _))

/-- A disk after a list of writes. -/
def applyWrites (d : ℕ → Block) (ws : List Write) : ℕ → Block :=
  ws.foldl (fun d w => Function.update d w.blk w.data) d

/-- A disk after the writes of a list of groups. -/
def applyGroups (d : ℕ → Block) (gs : List (List Write)) : ℕ → Block := gs.foldl applyWrites d

/-- The disk after the last recovery with the first `g` groups applied. -/
def State.after (s : State) (g : ℕ) : ℕ → Block := applyGroups s.base (s.groups.take g)

theorem applyWrites_append (d : ℕ → Block) (ws : List Write) (w : Write) :
    applyWrites d (ws ++ [w]) = Function.update (applyWrites d ws) w.blk w.data := by
  simp [applyWrites]

theorem applyWrites_of_notMem {ws : List Write} {b : ℕ} (h : ∀ w ∈ ws, w.blk ≠ b) (d : ℕ → Block) :
    applyWrites d ws b = d b := by
  induction ws generalizing d with
  | nil => rfl
  | cons w ws ih =>
    have hw : b ≠ w.blk := Ne.symm (h w List.mem_cons_self)
    exact (ih (fun w hw => h w (List.mem_cons_of_mem _ hw)) _).trans (Function.update_of_ne hw _ _)

theorem applyGroups_append (d : ℕ → Block) (gs : List (List Write)) (g : List Write) :
    applyGroups d (gs ++ [g]) = applyWrites (applyGroups d gs) g := by
  simp [applyGroups]

theorem after_length (s : State) : s.after s.groups.length = applyGroups s.base s.groups := by
  rw [State.after, List.take_length]

/-! ### The header block -/

/-- `read_head` finds the header that `write_head` has stored. -/
theorem getHead_putHead (d : Block) {l : List ℕ} (h : l.length < 256) :
    getHead (putHead d l) = l := by
  have hlen : word (putHead d l) 0 = l.length := by simp [word, putHead]
  refine List.ext_getElem (by simp [getHead, hlen]) fun i hi hi' => ?_
  have hlt : i + 1 < 256 := by omega
  simp only [getHead, List.getElem_map, List.getElem_range, word, dif_pos hlt, putHead]
  rw [if_neg (by omega), Nat.add_sub_cancel, if_pos hi', List.getD_eq_getElem?_getD,
    List.getElem?_eq_getElem hi', Option.getD_some]

/-- The log on the disk is empty. -/
def Erased (disk : ℕ → Block) : Prop := getHead (disk logstart) = []

/-- The home locations are those of `u`. -/
def Settled (disk u : ℕ → Block) : Prop := ∀ b, ¬ InLog b → disk b = u b

/-- Recovery makes the home locations those of `u`. -/
structure Recoverable (disk u : ℕ → Block) : Prop where
  size : (getHead (disk logstart)).length ≤ logblocks
  home : ∀ b ∈ getHead (disk logstart), ¬ InLog b
  copies : ∀ i < (getHead (disk logstart)).length,
    disk (logstart + i + 1) = u ((getHead (disk logstart)).getD i 0)
  rest : ∀ b, ¬ InLog b → b ∉ getHead (disk logstart) → disk b = u b

theorem Settled.recoverable {disk u : ℕ → Block} (h : Settled disk u) (he : Erased disk) :
    Recoverable disk u := by
  rw [Erased] at he
  refine ⟨?_, ?_, ?_, fun b hb _ => h b hb⟩
  · rw [he]
    exact Nat.zero_le _
  · rw [he]
    exact nofun
  · rw [he]
    exact nofun

theorem Recoverable.settled {disk u : ℕ → Block} (h : Recoverable disk u)
    (hall : ∀ i < (getHead (disk logstart)).length,
      disk ((getHead (disk logstart)).getD i 0) = u ((getHead (disk logstart)).getD i 0)) :
    Settled disk u := by
  intro b hb
  by_cases hmem : b ∈ getHead (disk logstart)
  · obtain ⟨i, hi, rfl⟩ := List.getElem_of_mem hmem
    have hi' := hall i hi
    rwa [List.getD_eq_getElem?_getD, List.getElem?_eq_getElem hi, Option.getD_some] at hi'
  · exact h.rest b hb hmem

theorem inLog_logstart : InLog logstart := ⟨le_rfl, Nat.le_add_right _ _⟩

theorem inLog_copy {i : ℕ} (h : i < logblocks) : InLog (logstart + i + 1) :=
  ⟨by omega, by omega⟩

/-- Installing a block of the header keeps the disk recoverable. -/
theorem Recoverable.install {disk disk' u : ℕ → Block} {b : ℕ} (h : Recoverable disk u)
    (hb : b ∈ getHead (disk logstart)) (hsame : ∀ k, k ≠ b → disk' k = disk k) :
    Recoverable disk' u := by
  have hlog : ∀ k, InLog k → disk' k = disk k := fun k hk => hsame k fun heq => h.home b hb (heq ▸ hk)
  have hhead := hlog _ inLog_logstart
  constructor
  · rw [hhead]
    exact h.size
  · rw [hhead]
    exact h.home
  · rw [hhead]
    intro i hi
    have hi' : i < logblocks := lt_of_lt_of_le hi h.size
    rw [hlog _ (inLog_copy hi')]
    exact h.copies i hi
  · rw [hhead]
    intro k hk hmem
    rw [hsame k fun heq => hmem (heq ▸ hb)]
    exact h.rest k hk hmem

/-! ### The block that a stage writes -/

/-- The block that a stage writes. -/
def Stage.target (block : List ℕ) : Stage → Option ℕ
  | .writeLog tail => some (logstart + tail + 1)
  | .install tail => some (block.getD tail 0)
  | .writeHead | .eraseHead => some logstart
  | .readHead | .finish => none

/-- The block that a stage copies. -/
def Stage.source (block : List ℕ) : Stage → Option ℕ
  | .writeLog tail => some (block.getD tail 0)
  | .install tail => some (logstart + tail + 1)
  | .readHead | .writeHead | .eraseHead | .finish => none

/-- What belongs in that block, when the groups to be installed lead to `u`. -/
def Stage.Wants (block : List ℕ) (u : ℕ → Block) : Stage → Block → Prop
  | .writeLog tail | .install tail => fun d => d = u (block.getD tail 0)
  | .writeHead | .eraseHead => fun d => getHead d = block
  | .readHead | .finish => fun _ => True

/-- A statement in its stage, before the statements `code`: only the target is stored in and
written, and it is written right after. -/
def Instr.Paced (block : List ℕ) (stage : Stage) (code : List Instr) : Instr → Prop
  | .copy b src => stage.target block = some b ∧ stage.source block = some src ∧
    code.head? = some (.bwrite b)
  | .putHead => (stage = .writeHead ∨ stage = .eraseHead) ∧ code.head? = some (.bwrite logstart)
  | .bwrite b => stage.target block = some b ∧ ∀ k, code.head? ≠ some (.bwrite k)
  | _ => ∀ k, code.head? ≠ some (.bwrite k)

/-- All the statements of a piece of code are paced. -/
def Paced (block : List ℕ) (stage : Stage) : List Instr → Prop
  | [] => True
  | i :: code => i.Paced block stage code ∧ Paced block stage code

theorem paced_stageCode (block : List ℕ) (recovering : Bool) (stage : Stage) :
    Paced block stage (stageCode block recovering stage) := by
  cases stage with
  | install tail =>
    cases recovering <;> simp [stageCode, Paced, Instr.Paced, Stage.target, Stage.source]
  | readHead | writeLog tail | writeHead | eraseHead | finish =>
    simp [stageCode, headCode, Paced, Instr.Paced, Stage.target, Stage.source]

theorem Paced.suffix {block : List ℕ} {stage : Stage} {code code' : List Instr}
    (h : Paced block stage code) (hs : code' <:+ code) : Paced block stage code' := by
  induction code with
  | nil =>
    rw [List.suffix_nil.mp hs]
    trivial
  | cons i code ih =>
    rcases List.suffix_cons_iff.mp hs with rfl | hs
    · exact h
    · exact ih h.2 hs

theorem Thread.Fits.paced {t : Thread} {block : List ℕ} {i : Instr} {code : List Instr}
    (h : t.Fits block) (hcode : t.code = i :: code) : i.Paced block t.stage code := by
  have hp := (paced_stageCode block t.recovering t.stage).suffix h.code
  rw [hcode] at hp
  exact hp.1

/-- The target is still to be written or has what belongs there; and just before the write its
buffer has it. -/
structure Writing (code : List Instr) (io : Bio) (target : Option ℕ) (want : Block → Prop) :
    Prop where
  done : ∀ b ∈ target, .bwrite b ∈ code ∨ want (io.disk b)
  ready : ∀ b ∈ target, code.head? = some (.bwrite b) → want (io.content b)

theorem mem_stageCode_target {block : List ℕ} {recovering : Bool} {stage : Stage} {b : ℕ}
    (h : b ∈ stage.target block) : .bwrite b ∈ stageCode block recovering stage := by
  cases stage <;> simp_all [Stage.target, stageCode, headCode]

theorem head_ne_bwrite (block : List ℕ) (recovering : Bool) (stage : Stage) (b : ℕ) :
    (stageCode block recovering stage).head? ≠ some (.bwrite b) := by
  cases stage <;> simp [stageCode, headCode]

theorem Writing.enter (t : Thread) (block : List ℕ) (stage : Stage) (io : Bio)
    (want : Block → Prop) :
    Writing (t.enter block stage).code io (stage.target block) want where
  done _ hb := Or.inl (mem_stageCode_target hb)
  ready b _ hhead := absurd hhead (head_ne_bwrite _ _ _ b)

theorem Instr.act_bwrite {i : Instr} {b : ℕ} (h : i.act s p = some (.bwrite b)) : i = .bwrite b := by
  cases i with
  | bwrite k =>
    cases h
    rfl
  | copy dst src | putHead =>
    obtain ⟨d, -, hd⟩ := Option.map_eq_some_iff.mp h
    cases hd
  | bget k | lock k | getHead | bunpin k | unlock k | brelse k => cases h

/-- A statement that stores copies a block or puts the header. -/
theorem Instr.act_store {i : Instr} {b : ℕ} {d : Block} (h : i.act s p = some (.store b d)) :
    (∃ src, i = .copy b src ∧ s.held p src = some d) ∨
    (i = .putHead ∧ b = logstart ∧ ∃ d', s.held p logstart = some d' ∧ d = Storage.putHead d' s.log.block) := by
  cases i with
  | copy dst src =>
    obtain ⟨d, hd, heq⟩ := Option.map_eq_some_iff.mp h
    cases heq
    exact Or.inl ⟨src, rfl, hd⟩
  | putHead =>
    obtain ⟨d, hd, heq⟩ := Option.map_eq_some_iff.mp h
    cases heq
    exact Or.inr ⟨rfl, rfl, d, hd, rfl⟩
  | bget k | lock k | getHead | bwrite k | bunpin k | unlock k | brelse k => cases h

theorem Bio.store_content {io io' : Bio} {b : ℕ} {d : Block}
    (h : io.act p (.store b d) = some io') : io'.content b = d := by
  obtain ⟨r, -, h⟩ := Option.bind_eq_some_iff.mp h
  cases h
  exact Function.update_self _ _ _

section Exec

variable {t : Thread} {i : Instr} {code : List Instr} {a : Act} {io : Bio}

/-- The next statement of the thread touches the target only. -/
theorem exec_other (hs : s.io.Sound) (hfit : t.Fits s.log.block) (hcode : t.code = i :: code)
    (ha : i.act s t.pid = some a) (hio : s.io.act t.pid a = some io) {k : ℕ}
    (hk : t.stage.target s.log.block ≠ some k) :
    io.disk k = s.io.disk k ∧ io.content k = s.io.content k := by
  have hpaced := hfit.paced hcode
  constructor
  · rcases hs.act_disk (k := k) hio with hsame | ⟨-, rfl⟩
    · exact hsame
    · cases Instr.act_bwrite ha
      exact absurd hpaced.1 hk
  · rcases Bio.act_content (k := k) hio with hsame | ⟨-, d, rfl, -⟩
    · exact hsame
    · rcases Instr.act_store ha with ⟨src, rfl, -⟩ | ⟨rfl, rfl, -⟩
      · exact absurd hpaced.1 hk
      · rcases hpaced.1 with hst | hst
        · exact absurd (by rw [hst]; rfl) hk
        · exact absurd (by rw [hst]; rfl) hk

/-- It keeps `Writing`, if it stores what belongs in the target. -/
theorem Writing.exec {want : Block → Prop} (hs : s.io.Sound) (hc : s.io.Coherent)
    (h : Writing t.code s.io (t.stage.target s.log.block) want) (hfit : t.Fits s.log.block)
    (hcode : t.code = i :: code) (ha : i.act s t.pid = some a)
    (hio : s.io.act t.pid a = some io)
    (hstore : ∀ b d, a = .store b d → t.stage.target s.log.block = some b → want d) :
    Writing code io (t.stage.target s.log.block) want := by
  have hpaced := hfit.paced hcode
  constructor
  · intro b hb
    by_cases hi : i = .bwrite b
    · -- this is the write
      subst hi
      cases ha
      right
      have hwant := h.ready b hb (by rw [hcode]; rfl)
      obtain ⟨hdisk, -⟩ := hc.bwrite_disk hs hio
      rcases Bio.act_content (k := b) hio with hcont | ⟨-, d, hd, -⟩
      · rw [hdisk, hcont]
        exact hwant
      · cases hd
    · rcases h.done b hb with hmem | hdone
      · rw [hcode, List.mem_cons] at hmem
        exact Or.inl (hmem.resolve_left fun heq => hi heq.symm)
      · rcases hs.act_disk (k := b) hio with hsame | ⟨-, rfl⟩
        · exact Or.inr (by rw [hsame]; exact hdone)
        · exact absurd (Instr.act_bwrite ha) hi
  · intro b hb hhead
    -- the statement before the write has stored in the block
    cases i with
    | copy dst src =>
      obtain ⟨htarget, -, hnext⟩ := hpaced
      cases htarget.symm.trans hb
      obtain ⟨d, hd, rfl⟩ := Option.map_eq_some_iff.mp ha
      rw [Bio.store_content hio]
      exact hstore b d rfl hb
    | putHead =>
      cases hpaced.2.symm.trans hhead
      obtain ⟨d, hd, rfl⟩ := Option.map_eq_some_iff.mp ha
      rw [Bio.store_content hio]
      exact hstore logstart _ rfl hb
    | bwrite k => exact absurd hhead (hpaced.2 b)
    | bget k | lock k | getHead | bunpin k | unlock k | brelse k => exact absurd hhead (hpaced b)

end Exec

/-! ### The disk in each stage -/

/-- A commit before its write of the header: the home locations are those of the groups before,
and the group changes only what is in the header. -/
structure Preparing (s : State) (u : ℕ → Block) : Prop where
  erased : Erased s.io.disk
  settled : Settled s.io.disk (s.after s.returned)
  only : ∀ b, ¬ InLog b → b ∉ s.log.block → u b = s.after s.returned b

/-- The disk at a stage, when the groups to be installed lead to `u`. -/
def Stage.OnDisk (s : State) (u : ℕ → Block) (code : List Instr) : Stage → Prop
  | .readHead => Recoverable s.io.disk u ∧
    (.getHead ∈ code ∨ getHead (s.io.disk logstart) = s.log.block)
  | .writeLog tail => Preparing s u ∧
    ∀ i < tail, s.io.disk (logstart + i + 1) = u (s.log.block.getD i 0)
  | .writeHead =>
    (.bwrite logstart ∈ code ∧ Preparing s u ∧
      ∀ i < s.log.block.length, s.io.disk (logstart + i + 1) = u (s.log.block.getD i 0)) ∨
    (Recoverable s.io.disk u ∧ getHead (s.io.disk logstart) = s.log.block)
  | .install tail => Recoverable s.io.disk u ∧ getHead (s.io.disk logstart) = s.log.block ∧
    ∀ i < tail, s.io.disk (s.log.block.getD i 0) = u (s.log.block.getD i 0)
  | .eraseHead => Recoverable s.io.disk u ∧ Settled s.io.disk u
  | .finish => Settled s.io.disk u ∧ Erased s.io.disk

/-- The disk beside the thread. -/
def State.OnDisk (s : State) (u : ℕ → Block) : Prop :=
  match s.thread with
  | none => Settled s.io.disk u ∧ Erased s.io.disk
  | some t =>
    Writing t.code s.io (t.stage.target s.log.block) (t.stage.Wants s.log.block u) ∧
      t.stage.OnDisk s u t.code

/-- How many commits are under way: those whose last write of the header is still to come. -/
def State.unreturned (s : State) : ℕ :=
  match s.thread with
  | none => 0
  | some t => if t.stage = .finish then 0 else 1

/-- What the log keeps, in runs whose steps are all `Transactional`. -/
structure State.Durable (s : State) : Prop where
  content : s.up = true → ∀ b, ¬ InLog b →
    (∃ p op, (p, b) ∈ s.io.changed ∧ (p, op) ∈ s.ops) ∨
      s.io.content b = applyWrites (applyGroups s.base s.groups) s.current b
  current : ∀ w ∈ s.current, w.blk ∈ s.log.block
  busy : ∀ t, s.thread = some t → s.current = []
  home : ∀ b ∈ s.log.block, ¬ InLog b
  changed : ∀ p b, (p, b) ∈ s.io.changed → ((∃ op, (p, op) ∈ s.ops) ∧ ¬ InLog b) ∨
    ∃ t, s.thread = some t ∧ t.pid = p ∧ t.code.head? = some (.bwrite b)
  count : s.up = true → s.returned + s.unreturned = s.groups.length
  disk : ∃ g, s.returned ≤ g ∧ g ≤ s.groups.length ∧ (s.up = true → g = s.groups.length) ∧
    s.OnDisk (s.after g)

/-- Operations store in and log blocks outside the log only, log what they change before they
release it or end, and leave writing to the log. -/
def Transactional (s : State) : Event → Prop
  | .act p (.store blk _) => ¬ InLog blk ∧ p ∈ s.ops.map Prod.fst
  | .act _ (.bwrite _) => False
  | .act p (.unlock blk) => (p, blk) ∉ s.io.changed
  | .logWrite _ blk _ => ¬ InLog blk
  | .endOp p _ => ∀ c ∈ s.io.changed, c.1 ≠ p
  | _ => True

instance (s : State) : (e : Event) → Decidable (Transactional s e)
  | .act p (.store blk _) => inferInstanceAs (Decidable (¬ InLog blk ∧ p ∈ s.ops.map Prod.fst))
  | .act _ (.bwrite _) => inferInstanceAs (Decidable False)
  | .act p (.unlock blk) => inferInstanceAs (Decidable ((p, blk) ∉ s.io.changed))
  | .logWrite _ blk _ => inferInstanceAs (Decidable (¬ InLog blk))
  | .endOp p _ => inferInstanceAs (Decidable (∀ c ∈ s.io.changed, c.1 ≠ p))
  | .act _ (.bget _) | .act _ (.lock _) | .act _ (.logWrite _ _) | .act _ (.bunpin _)
  | .act _ (.brelse _) | .beginOp _ | .thread | .crash _ => inferInstanceAs (Decidable True)

theorem Transactional.released (h : Transactional s e) : Released s e := by
  cases e with
  | act p a => cases a <;> first | exact h | trivial
  | logWrite | beginOp | endOp | thread | crash => trivial

/-! ### Steps of clients -/

/-- What the disk's part of the invariant depends on. -/
theorem State.OnDisk.congr {u : ℕ → Block} (h : s.OnDisk u) (hthread : s'.thread = s.thread)
    (hblock : s'.log.block = s.log.block) (hafter : s'.after s'.returned = s.after s.returned)
    (hdisk : s'.io.disk = s.io.disk)
    (hcontent : ∀ t, s.thread = some t → s'.io.content = s.io.content) : s'.OnDisk u := by
  unfold State.OnDisk at h ⊢
  rw [hthread]
  cases ht : s.thread with
  | none =>
    rw [ht] at h
    rw [hdisk]
    exact h
  | some t =>
    rw [ht] at h
    simp only at h ⊢
    obtain ⟨hw, hst⟩ := h
    have hprep : Preparing s u → Preparing s' u := fun hp =>
      ⟨by rw [hdisk]; exact hp.erased, by rw [hdisk, hafter]; exact hp.settled,
        by rw [hblock, hafter]; exact hp.only⟩
    refine ⟨⟨?_, ?_⟩, ?_⟩
    · rw [hblock, hdisk]
      exact hw.done
    · rw [hblock, hcontent t ht]
      exact hw.ready
    · cases hstage : t.stage with
      | writeLog tail =>
        rw [hstage] at hst
        refine ⟨hprep hst.1, ?_⟩
        rw [hblock, hdisk]
        exact hst.2
      | writeHead =>
        rw [hstage] at hst
        rcases hst with ⟨hb, hp, hcopies⟩ | hst
        · refine Or.inl ⟨hb, hprep hp, ?_⟩
          rw [hblock, hdisk]
          exact hcopies
        · refine Or.inr ?_
          rw [hblock, hdisk]
          exact hst
      | readHead | install tail | eraseHead | finish =>
        rw [hstage] at hst
        simp only [Stage.OnDisk, hblock, hdisk] at hst ⊢
        exact hst

/-- A change of a block lasts until it is logged or written. -/
theorem Bio.act_changed_keep {io io' : Bio} {a : Act} {q k : ℕ} (h : io.act p a = some io')
    (hq : (q, k) ∈ io.changed) (hne : a ≠ .bwrite k ∧ ∀ pin, a ≠ .logWrite k pin) :
    (q, k) ∈ io'.changed := by
  cases a with
  | bget b =>
    obtain ⟨cb, -, rfl⟩ := Option.map_eq_some_iff.mp h
    exact hq
  | lock b =>
    simp only [Bio.act, Bio.lock, Option.bind_eq_bind, Option.bind_eq_some_iff] at h
    obtain ⟨r, -, _, -, h⟩ := h
    cases h
    exact hq
  | store b d =>
    obtain ⟨r, -, h⟩ := Option.bind_eq_some_iff.mp h
    cases h
    exact List.mem_cons_of_mem _ hq
  | bwrite b =>
    obtain ⟨r, -, h⟩ := Option.bind_eq_some_iff.mp h
    cases h
    refine List.mem_filter.mpr ⟨hq, ?_⟩
    have hkb : k ≠ b := fun heq => hne.1 (by rw [heq])
    simp [hkb]
  | logWrite b pin =>
    obtain ⟨r, -, h⟩ := Option.bind_eq_some_iff.mp h
    cases h
    refine List.mem_filter.mpr ⟨hq, ?_⟩
    have hkb : k ≠ b := fun heq => hne.2 pin (by rw [heq])
    simp [hkb]
  | bunpin b | unlock b | brelse b =>
    obtain ⟨r, -, h⟩ := Option.bind_eq_some_iff.mp h
    cases h
    exact hq

namespace State.Durable

theorem act {a : Act} {io : Bio} (h : s.Durable) (hs : s.Sound)
    (hok : Transactional s (.act p a)) (ha : a.plain) (hio : s.io.act p a = some io) :
    Durable { s with io := io } := by
  have hnw : ∀ k, a ≠ .bwrite k := fun k hk => by
    subst hk
    exact hok
  have hnl : ∀ k pin, a ≠ .logWrite k pin := fun k pin hk => by
    subst hk
    cases ha
  have hstore : ∀ k d, a = .store k d → ¬ InLog k ∧ ∃ op, (p, op) ∈ s.ops := fun k d hk => by
    subst hk
    obtain ⟨x, hx, rfl⟩ := List.mem_map.mp hok.2
    exact ⟨hok.1, x.2, hx⟩
  have hdisk : io.disk = s.io.disk := by
    funext k
    rcases hs.io.act_disk (k := k) hio with hsame | ⟨-, hk⟩
    · exact hsame
    · exact absurd hk (hnw k)
  refine ⟨fun hup b hb => ?_, h.current, h.busy, h.home, fun q b hq => ?_, h.count, ?_⟩
  · rcases Bio.act_content (k := b) hio with hsame | ⟨-, d, hd, -⟩
    · rcases h.content hup b hb with ⟨q, o, hq, ho⟩ | hc
      · exact Or.inl ⟨q, o, Bio.act_changed_keep hio hq ⟨hnw b, hnl b⟩, ho⟩
      · exact Or.inr (hsame.trans hc)
    · obtain ⟨-, o, ho⟩ := hstore b d hd
      subst hd
      obtain ⟨r, -, hio⟩ := Option.bind_eq_some_iff.mp hio
      cases hio
      exact Or.inl ⟨p, o, List.mem_cons_self, ho⟩
  · rcases Bio.act_changed hio hq with ⟨hq, -⟩ | ⟨rfl, d, hd⟩
    · exact h.changed q b hq
    · exact Or.inl ⟨(hstore b d hd).2, (hstore b d hd).1⟩
  · obtain ⟨g, hret, hlen, hup, hg⟩ := h.disk
    refine ⟨g, hret, hlen, hup, hg.congr rfl rfl rfl hdisk fun t ht => ?_⟩
    -- a store needs an operation, and there is none beside the thread
    funext k
    rcases Bio.act_content (k := k) hio with hsame | ⟨-, d, hd, -⟩
    · exact hsame
    · obtain ⟨-, o, ho⟩ := hstore k d hd
      rw [(hs.busy t ht).1] at ho
      cases ho

theorem logWrite {r : Ref} {l : Log} {pin : Bool} {io : Bio} (h : s.Durable) (hs : s.Sound)
    (hc : s.Coherent) (hok : Transactional s (.logWrite p blk op)) (hop : (p, op) ∈ s.ops)
    (hr : s.io.ref p blk .holding = some r)
    (hl : s.log.logWrite (s.io.cache.buf r.buf).blockno = .ok (l, pin))
    (hio : s.io.act p (.logWrite blk pin) = some io) :
    Durable { s with
      io := io
      log := l
      current := s.current ++ [⟨op, blk, (s.io.cache.buf r.buf).data⟩] } := by
  have ht := hs.thread_none (Sound.ops_ne_nil hop)
  obtain ⟨hmem, -, rfl, hh⟩ := Bio.ref_eq_some hr
  obtain ⟨-, -, rfl, hpin⟩ := Log.logWrite_ok hl
  have hblk := (hs.io.refs r hmem).2.2
  rw [hblk] at hpin
  have hcontent : io.content = s.io.content := by
    funext k
    rcases Bio.act_content (k := k) hio with hsame | ⟨-, d, hd, -⟩
    · exact hsame
    · cases hd
  have hdisk : io.disk = s.io.disk := by
    funext k
    rcases hs.io.act_disk (k := k) hio with hsame | ⟨-, hk⟩
    · exact hsame
    · cases hk
  have hblock : ∀ k, k ∈ (if pin then s.log.block ++ [(s.io.cache.buf r.buf).blockno]
      else s.log.block) ↔ k ∈ s.log.block ∨ k = r.blk := fun k => by
    rw [hblk]
    cases pin with
    | true => simp
    | false =>
      have hin := hpin.mp rfl
      simp only [Bool.false_eq_true, if_false]
      constructor
      · exact Or.inl
      · rintro (hk | rfl)
        · exact hk
        · exact hin
  refine ⟨fun hup b hb => ?_, fun w hw => ?_, fun t ht' => ?_, fun b hb => ?_, fun q b hq => ?_,
    h.count, ?_⟩
  · simp only [applyWrites_append, hcontent]
    by_cases hbk : b = r.blk
    · subst hbk
      exact Or.inr (by rw [Function.update_self, hc.io.data_of_holder hs.io hmem hh])
    · rw [Function.update_of_ne hbk]
      rcases h.content hup b hb with ⟨q, o, hq, ho⟩ | hc
      · refine Or.inl ⟨q, o, Bio.act_changed_keep hio hq ⟨nofun, fun pin' heq => ?_⟩, ho⟩
        cases heq
        exact hbk rfl
      · exact Or.inr hc
  · simp only [hblock]
    rcases List.mem_append.mp hw with hw | hw
    · exact Or.inl (h.current w hw)
    · rw [List.mem_singleton.mp hw]
      exact Or.inr rfl
  · cases ht.symm.trans ht'
  · rcases (hblock b).mp hb with hb | rfl
    · exact h.home b hb
    · exact hok
  · rcases Bio.act_changed hio hq with ⟨hq, -⟩ | ⟨-, d, hd⟩
    · exact h.changed q b hq
    · cases hd
  · obtain ⟨g, hret, hlen, hup, hg⟩ := h.disk
    refine ⟨g, hret, hlen, hup, ?_⟩
    simp only [State.OnDisk, ht] at hg ⊢
    rw [hdisk]
    exact hg

theorem beginOp {l : Log} {n : ℕ} (h : s.Durable) (hl : s.log.beginOp = some l) :
    Durable { s with log := l, ops := (p, s.nextOp) :: s.ops, nextOp := n } := by
  obtain ⟨-, rfl⟩ := Log.beginOp_ok hl
  obtain ⟨g, hret, hlen, hup, hg⟩ := h.disk
  refine ⟨fun hup b hb => ?_, h.current, h.busy, h.home, fun q b hq => ?_, h.count,
    g, hret, hlen, hup, hg.congr rfl rfl rfl rfl fun _ _ => rfl⟩
  · rcases h.content hup b hb with ⟨q, o, hq, ho⟩ | hc
    · exact Or.inl ⟨q, o, hq, List.mem_cons_of_mem _ ho⟩
    · exact Or.inr hc
  · rcases h.changed q b hq with ⟨⟨o, ho⟩, hb⟩ | ht
    · exact Or.inl ⟨⟨o, List.mem_cons_of_mem _ ho⟩, hb⟩
    · exact Or.inr ht

/-- Ending an operation does not hide a change of another process. -/
theorem mem_erase_of_changed {q o b : ℕ} (hok : Transactional s (.endOp p op))
    (hq : (q, b) ∈ s.io.changed) (ho : (q, o) ∈ s.ops) : (q, o) ∈ s.ops.erase (p, op) := by
  refine (List.mem_erase_of_ne fun heq => ?_).mpr ho
  cases heq
  exact hok _ hq rfl

theorem endOp {l : Log} (h : s.Durable) (hok : Transactional s (.endOp p op))
    (hl : s.log.endOp = .ok (l, false)) :
    Durable { s with log := l, ops := s.ops.erase (p, op), ended := op :: s.ended } := by
  obtain ⟨-, -, rfl⟩ := Log.endOp_ok hl
  obtain ⟨g, hret, hlen, hup, hg⟩ := h.disk
  refine ⟨fun hup b hb => ?_, h.current, h.busy, h.home, fun q b hq => ?_, h.count,
    g, hret, hlen, hup, hg.congr rfl rfl rfl rfl fun _ _ => rfl⟩
  · rcases h.content hup b hb with ⟨q, o, hq, ho⟩ | hc
    · exact Or.inl ⟨q, o, hq, mem_erase_of_changed hok hq ho⟩
    · exact Or.inr hc
  · rcases h.changed q b hq with ⟨⟨o, ho⟩, hb⟩ | ht
    · exact Or.inl ⟨⟨o, mem_erase_of_changed hok hq ho⟩, hb⟩
    · exact Or.inr ht

end State.Durable

end Storage

end Xv6
