import Xv6.Storage.Durable

/-!
# Commit and recovery keep the disk recoverable

The steps of the thread, and a crash at any of them. A statement of the thread touches only the
block that its stage writes, so that each stage's facts about the rest of the disk stay; what it
writes is what belongs there, because the blocks of a group are coherent in the cache and because
the copies in the log are never changed while they are read.
-/

namespace Xv6

namespace Storage

open Transition

variable {s s' : State} {e : Event} {p blk op : ℕ}

/-! ### The beginning of a commit -/

theorem State.Durable.commit {l : Log} (h : s.Durable) (hs : s.Sound)
    (hok : Transactional s (.endOp p op)) (hop : (p, op) ∈ s.ops)
    (hl : s.log.endOp = .ok (l, true)) :
    Durable { s with
      log := l
      ops := s.ops.erase (p, op)
      ended := op :: s.ended
      thread := some (commitThread p l.block)
      groups := s.groups ++ [s.current]
      returned := if l.block = [] then s.returned + 1 else s.returned
      current := [] } := by
  obtain ⟨-, hlast, rfl⟩ := Log.endOp_ok hl
  have ht := hs.thread_none (Sound.ops_ne_nil hop)
  have hup := (hs.idle ht).1
  have hops : s.ops.erase (p, op) = [] := by
    have hz := hlast.mp rfl
    rw [hs.outstanding] at hz
    exact List.length_eq_zero_iff.mp ((List.length_erase_of_mem hop).trans hz)
  have hnone : ∀ q b, (q, b) ∉ s.io.changed := fun q b hq => by
    rcases h.changed q b hq with ⟨⟨o, ho⟩, -⟩ | ⟨t, ht', -⟩
    · have hmem := mem_erase_of_changed hok hq ho
      rw [hops] at hmem
      cases hmem
    · cases ht.symm.trans ht'
  have hcount : s.returned = s.groups.length := by
    have hc := h.count hup
    simpa [State.unreturned, ht] using hc
  obtain ⟨g, -, -, hg, hdisk⟩ := h.disk
  rw [hg hup] at hdisk
  simp only [State.OnDisk, ht] at hdisk
  rw [after_length] at hdisk
  refine ⟨fun _ b hb => Or.inr ?_, by rintro _ ⟨⟩, fun _ _ => rfl, h.home, fun q b hq => absurd hq (hnone q b),
    fun _ => ?_, s.groups.length + 1, ?_, by simp, by simp, ?_⟩
  · rcases h.content hup b hb with ⟨q, o, hq, -⟩ | hc
    · exact absurd hq (hnone q b)
    · rw [applyGroups_append]
      exact hc
  · simp only [State.unreturned, commitThread, Thread.enter, List.length_append,
      List.length_singleton, hcount, List.length_pos_iff]
    by_cases hb : s.log.block = [] <;> simp [hb]
  · simp only [hcount]
    split <;> omega
  · have hafter : applyGroups s.base ((s.groups ++ [s.current]).take (s.groups.length + 1)) =
        applyWrites (applyGroups s.base s.groups) s.current := by
      rw [List.take_of_length_le (by simp), applyGroups_append]
    simp only [State.OnDisk, State.after, hafter]
    by_cases hb : s.log.block = []
    · -- an empty group changes nothing
      have hcur : s.current = [] := List.eq_nil_iff_forall_not_mem.mpr fun w hw => by
        have hmem := h.current w hw
        rw [hb] at hmem
        cases hmem
      simp only [commitThread, Thread.enter, hb, List.length_nil, Nat.lt_irrefl, if_false, hcur]
      exact ⟨⟨by rintro _ ⟨⟩, by rintro _ ⟨⟩⟩, hdisk⟩
    · simp only [commitThread, Thread.enter, List.length_pos_iff.mpr hb, if_true]
      refine ⟨Writing.enter ⟨p, false, .finish, []⟩ _ (.writeLog 0) _ _, ⟨hdisk.2, ?_, ?_⟩, by rintro _ ⟨⟩⟩
      · simp only [State.after, hb, if_false, hcount, List.take_left]
        exact hdisk.1
      · intro b _ hmem
        simp only [State.after, hb, if_false, hcount, List.take_left]
        refine applyWrites_of_notMem (fun w hw heq => hmem ?_) _
        rw [← heq]
        exact h.current w hw

/-! ### Statements of the thread -/

section Exec

variable {t : Thread} {i : Instr} {code : List Instr} {a : Act} {io : Bio}

/-- What the thread holds of a block is what was last stored there. -/
theorem held_eq_content (hs : s.Sound) (hc : s.Coherent) {b : ℕ} {d : Block}
    (h : s.held p b = some d) : d = s.io.content b := by
  obtain ⟨r, hr, rfl⟩ := Option.map_eq_some_iff.mp h
  obtain ⟨hmem, -, rfl, hh⟩ := Bio.ref_eq_some hr
  exact hc.io.data_of_holder hs.io hmem hh

theorem pending_subset {block : List ℕ} (hfit : t.Fits block) : ∀ b ∈ t.pending block, b ∈ block := by
  intro b hb
  unfold Thread.pending at hb
  split at hb
  · cases hb
  · rename_i hr
    split at hb
    · exact hb
    · exact hb
    · rename_i tail hst
      rcases List.mem_append.mp hb with hb | hb
      · have hcode := hfit.code
        have hlt := hfit.stage
        rw [hst, Bool.eq_false_of_not_eq_true hr] at hcode
        rw [hst] at hlt
        have hmem := (hcode.filterMap _).subset hb
        rw [show List.filterMap _ _ = [block.getD tail 0] from unpins_install block tail,
          List.mem_singleton] at hmem
        rw [hmem, List.getD_eq_getElem?_getD, List.getElem?_eq_getElem hlt, Option.getD_some]
        exact List.getElem_mem hlt
      · exact List.mem_of_mem_drop hb
    · cases hb
    · cases hb
    · cases hb

/-- A block of the log is on the disk as last stored, except just before the thread writes it. -/
theorem State.Durable.log_on_disk (h : s.Durable) (hs : s.Sound) (hc : s.Coherent)
    (ht : s.thread = some t) {b : ℕ} (hb : InLog b) (hne : t.code.head? ≠ some (.bwrite b)) :
    s.io.disk b = s.io.content b := by
  obtain ⟨hops, -, -, hpins, hfit⟩ := hs.busy t ht
  by_contra hdiff
  rcases hc.io.disk b hdiff with hpin | ⟨q, hq⟩
  · rw [hpins] at hpin
    exact h.home b (pending_subset hfit b hpin) hb
  · rcases h.changed q b hq with ⟨-, hnb⟩ | ⟨t', ht', -, hhead⟩
    · exact hnb hb
    · cases ht.symm.trans ht'
      exact hne hhead

/-- The block of the header that a turn of a loop is about. -/
theorem getD_mem {block : List ℕ} {tail : ℕ} (h : tail < block.length) : block.getD tail 0 ∈ block := by
  rw [List.getD_eq_getElem?_getD, List.getElem?_eq_getElem h, Option.getD_some]
  exact List.getElem_mem h

/-- What the thread stores belongs there. -/
theorem State.Durable.wants (h : s.Durable) (hs : s.Sound) (hc : s.Coherent)
    (ht : s.thread = some t) (hcode : t.code = i :: code) {g : ℕ}
    (hup : s.up = true → g = s.groups.length) (hg : t.stage.OnDisk s (s.after g) t.code) {b : ℕ}
    {d : Block} (ha : i.act s t.pid = some (.store b d)) :
    t.stage.Wants s.log.block (s.after g) d := by
  obtain ⟨hops, hrec, -, -, hfit⟩ := hs.busy t ht
  have hpaced := hfit.paced hcode
  have hstage := hfit.stage
  rcases Instr.act_store ha with ⟨src, rfl, hheld⟩ | ⟨rfl, rfl, d', -, rfl⟩
  · obtain ⟨htarget, hsource, -⟩ := hpaced
    have hd := held_eq_content hs hc hheld
    cases hst : t.stage with
    | writeLog tail =>
      -- the cache has the group's block
      rw [hst] at hsource hstage
      cases hsource
      have hup' : s.up = true := by simpa [hstage.1] using hrec
      have hmem := getD_mem hstage.2
      have hcont := h.content hup' _ (h.home _ hmem)
      rw [hops, h.busy t ht] at hcont
      rw [hup hup', after_length]
      rcases hcont with ⟨q, o, -, ho⟩ | hcont
      · cases ho
      · exact hd.trans hcont
    | install tail =>
      -- the log has a copy of it
      rw [hst] at hsource hstage hg
      cases hsource
      obtain ⟨hrcv, hhead, -⟩ := hg
      have hlt : tail < logblocks := lt_of_lt_of_le hstage hs.size
      have hdisk := h.log_on_disk hs hc ht (inLog_copy hlt) (by rw [hcode]; nofun)
      have hcopy := hrcv.copies tail (by rw [hhead]; exact hstage)
      rw [hhead] at hcopy
      exact hd.trans (hdisk.symm.trans hcopy)
    | readHead | writeHead | eraseHead | finish =>
      rw [hst] at hsource
      cases hsource
  · have hsize : s.log.block.length < 256 := lt_of_le_of_lt hs.size (by decide)
    rcases hpaced.1 with hst | hst
    · rw [hst]
      exact getHead_putHead d' hsize
    · rw [hst]
      exact getHead_putHead d' hsize

/-- The target after a statement: as before, or just written with what belongs there. -/
theorem Writing.disk_target {want : Block → Prop} (hs : s.Sound) (hc : s.Coherent)
    (h : Writing t.code s.io (t.stage.target s.log.block) want) (hcode : t.code = i :: code)
    (ha : i.act s t.pid = some a) (hio : s.io.act t.pid a = some io) {b : ℕ}
    (hb : t.stage.target s.log.block = some b) :
    (i ≠ .bwrite b ∧ io.disk b = s.io.disk b) ∨ (i = .bwrite b ∧ want (io.disk b)) := by
  by_cases hi : i = .bwrite b
  · right
    subst hi
    cases ha
    refine ⟨rfl, ?_⟩
    rw [(hc.io.bwrite_disk hs.io hio).1]
    rcases Bio.act_content (k := b) hio with hcont | ⟨-, d, hd, -⟩
    · rw [hcont]
      exact h.ready b hb (by rw [hcode]; rfl)
    · cases hd
  · left
    rcases hs.io.act_disk (k := b) hio with hsame | ⟨-, rfl⟩
    · exact ⟨hi, hsame⟩
    · exact absurd (Instr.act_bwrite ha) hi

theorem Recoverable.congr {disk disk' u : ℕ → Block} (h : Recoverable disk u)
    (hsame : ∀ k, k ≠ logstart → disk' k = disk k)
    (hhead : getHead (disk' logstart) = getHead (disk logstart)) : Recoverable disk' u := by
  constructor
  · rw [hhead]
    exact h.size
  · rw [hhead]
    exact h.home
  · rw [hhead]
    intro i hi
    rw [hsame _ (by omega)]
    exact h.copies i hi
  · rw [hhead]
    intro b hb hmem
    rw [hsame b fun heq => hb (heq ▸ inLog_logstart)]
    exact h.rest b hb hmem

/-- The disk's part of the invariant after a statement of the thread. -/
theorem Stage.OnDisk.exec {u : ℕ → Block} (hs : s.Sound) (hc : s.Coherent)
    (ht : s.thread = some t) (hcode : t.code = i :: code) (ha : i.act s t.pid = some a)
    (hio : s.io.act t.pid a = some io) (hhome : ∀ b ∈ s.log.block, ¬ InLog b)
    (hw : Writing t.code s.io (t.stage.target s.log.block) (t.stage.Wants s.log.block u))
    (h : t.stage.OnDisk s u t.code) :
    t.stage.OnDisk { s with io := io, thread := some { t with code := code } } u code := by
  have hfit := (hs.busy t ht).2.2.2.2
  have hother := fun k => exec_other (k := k) hs.io hfit hcode ha hio
  have htarget := fun b => hw.disk_target (b := b) hs hc hcode ha hio
  have hstage := hfit.stage
  cases hst : t.stage with
  | readHead =>
    rw [hst] at h hother
    have hdisk : io.disk = s.io.disk := funext fun k => (hother k nofun).1
    refine ⟨by simpa only [hdisk] using h.1, ?_⟩
    have hget := h.2
    rw [hcode, List.mem_cons] at hget
    rcases hget with (heq | hmem) | hhead
    · subst heq
      cases ha
    · exact Or.inl hmem
    · exact Or.inr (by simpa only [hdisk] using hhead)
  | writeLog tail =>
    rw [hst] at h hother hstage
    have hlt : tail < logblocks := lt_of_lt_of_le hstage.2 hs.size
    have hsame : ∀ k, k ≠ logstart + tail + 1 → io.disk k = s.io.disk k := fun k hk =>
      (hother k fun heq => hk (Option.some.inj heq).symm).1
    obtain ⟨⟨hera, hset, honly⟩, hcopies⟩ := h
    refine ⟨⟨?_, fun b hb => ?_, honly⟩, fun j hj => ?_⟩
    · rw [Erased, hsame logstart (by omega)]
      exact hera
    · rw [hsame b fun heq => hb (heq ▸ inLog_copy hlt)]
      exact hset b hb
    · rw [hsame _ (by omega)]
      exact hcopies j hj
  | writeHead =>
    rw [hst] at h hother htarget
    have hsame : ∀ k, k ≠ logstart → io.disk k = s.io.disk k := fun k hk =>
      (hother k fun heq => hk (Option.some.inj heq).symm).1
    rcases htarget logstart rfl with ⟨hne, hhead⟩ | ⟨rfl, hhead⟩
    · have hdisk : io.disk = s.io.disk := funext fun k => by
        by_cases hk : k = logstart
        · rw [hk, hhead]
        · exact hsame k hk
      rcases h with ⟨hmem, ⟨hera, hset, honly⟩, hcopies⟩ | ⟨hrcv, hblock⟩
      · rw [hcode, List.mem_cons] at hmem
        refine Or.inl ⟨hmem.resolve_left fun heq => hne heq.symm, ⟨?_, ?_, honly⟩, ?_⟩
        · simpa only [hdisk] using hera
        · have hset' : Settled io.disk (s.after s.returned) := by rwa [hdisk]
          exact hset'
        · simpa only [hdisk] using hcopies
      · exact Or.inr (by simpa only [hdisk] using ⟨hrcv, hblock⟩)
    · -- the header is written: from here on the group counts
      refine Or.inr ⟨?_, hhead⟩
      have hhead : getHead (io.disk logstart) = s.log.block := hhead
      rcases h with ⟨-, ⟨hera, hset, honly⟩, hcopies⟩ | ⟨hrcv, hblock⟩
      · constructor
        · simp only [hhead]
          exact hs.size
        · simp only [hhead]
          exact hhome
        · simp only [hhead]
          intro j hj
          rw [hsame _ (by omega)]
          exact hcopies j hj
        · simp only [hhead]
          intro b hb hmem
          rw [hsame b fun heq => hb (heq ▸ inLog_logstart), honly b hb hmem]
          exact hset b hb
      · exact hrcv.congr hsame (hhead.trans hblock.symm)
  | install tail =>
    rw [hst] at h hother htarget hstage
    have hsame : ∀ k, k ≠ s.log.block.getD tail 0 → io.disk k = s.io.disk k := fun k hk =>
      (hother k fun heq => hk (Option.some.inj heq).symm).1
    obtain ⟨hrcv, hhead, hdone⟩ := h
    have hmem := getD_mem hstage
    refine ⟨hrcv.install (by rw [hhead]; exact hmem) hsame, ?_, fun j hj => ?_⟩
    · rw [hsame logstart fun heq => hhome _ hmem (heq ▸ inLog_logstart)]
      exact hhead
    · by_cases hj' : s.log.block.getD j 0 = s.log.block.getD tail 0
      · rw [hj']
        rcases htarget _ rfl with ⟨-, hkeep⟩ | ⟨-, hnew⟩
        · simp only [hkeep]
          rw [← hj']
          exact hdone j hj
        · exact hnew
      · rw [hsame _ hj']
        exact hdone j hj
  | eraseHead =>
    rw [hst] at h hother htarget hstage
    have hsame : ∀ k, k ≠ logstart → io.disk k = s.io.disk k := fun k hk =>
      (hother k fun heq => hk (Option.some.inj heq).symm).1
    have hset : Settled io.disk u := fun b hb => by
      rw [hsame b fun heq => hb (heq ▸ inLog_logstart)]
      exact h.2 b hb
    refine ⟨?_, hset⟩
    rcases htarget logstart rfl with ⟨-, hkeep⟩ | ⟨-, hnew⟩
    · exact h.1.congr hsame (by rw [hkeep])
    · exact hset.recoverable (hnew.trans hstage)
  | finish =>
    have hsuffix := hfit.code
    rw [hst, hcode] at hsuffix
    cases List.suffix_nil.mp hsuffix

theorem State.Durable.exec (h : s.Durable) (hs : s.Sound) (hc : s.Coherent)
    (ht : s.thread = some t) (hcode : t.code = i :: code) (ha : i.act s t.pid = some a)
    (hio : s.io.act t.pid a = some io) :
    Durable { s with io := io, thread := some { t with code := code } } := by
  obtain ⟨hops, hrec, -, -, hfit⟩ := hs.busy t ht
  obtain ⟨g, hret, hlen, hup, hg⟩ := h.disk
  simp only [State.OnDisk, ht] at hg
  obtain ⟨hw, hst⟩ := hg
  have hwants : ∀ b d, a = .store b d → t.stage.Wants s.log.block (s.after g) d := fun b d had =>
    h.wants hs hc ht hcode hup hst (had ▸ ha)
  refine ⟨fun hup' b hb => Or.inr ?_, h.current, fun _ _ => h.busy t ht, h.home, fun q b hq => ?_,
    fun hup' => ?_, g, hret, hlen, hup, ?_⟩
  · have hold : s.io.content b = applyWrites (applyGroups s.base s.groups) s.current b := by
      rcases h.content hup' b hb with ⟨q, o, -, ho⟩ | hcont
      · rw [hops] at ho
        cases ho
      · exact hcont
    rcases Bio.act_content (k := b) hio with hsame | ⟨-, d, had, hnew⟩
    · exact hsame.trans hold
    · -- a home location that is stored in is being installed
      have hwd := hwants b d had
      have htarget : t.stage.target s.log.block = some b := by
        by_contra hne
        have hsame := (exec_other hs.io hfit hcode ha hio hne).2
        subst had
        rcases Instr.act_store ha with ⟨src, rfl, -⟩ | ⟨rfl, rfl, -⟩
        · exact hne (hfit.paced hcode).1
        · exact hb inLog_logstart
      rw [hnew, h.busy t ht]
      cases hstage : t.stage with
      | install tail =>
        rw [hstage] at hwd htarget
        cases htarget
        rw [hup hup', after_length] at hwd
        exact hwd
      | writeLog tail =>
        have hlt := hfit.stage
        rw [hstage] at htarget hlt
        cases htarget
        exact absurd (inLog_copy (lt_of_lt_of_le hlt.2 hs.size)) hb
      | writeHead | eraseHead =>
        rw [hstage] at htarget
        cases htarget
        exact absurd inLog_logstart hb
      | readHead | finish =>
        rw [hstage] at htarget
        cases htarget
  · right
    refine ⟨_, rfl, ?_⟩
    rcases Bio.act_changed hio hq with ⟨hq, hnw⟩ | ⟨rfl, d, rfl⟩
    · rcases h.changed q b hq with ⟨⟨o, ho⟩, -⟩ | ⟨t', ht', rfl, hhead⟩
      · rw [hops] at ho
        cases ho
      · cases ht.symm.trans ht'
        rw [hcode] at hhead
        cases hhead
        cases ha
        exact absurd rfl (hnw rfl)
    · exact ⟨rfl, (hc.thread t ht).store_next hcode ha⟩
  · have hcount := h.count hup'
    simpa only [State.unreturned, ht] using hcount
  · have hw' := hw.exec hs.io hc.io hfit hcode ha hio fun b d had _ => hwants b d had
    exact ⟨hw', Stage.OnDisk.exec hs hc ht hcode ha hio h.home hw hst⟩

end Exec

/-! ### From stage to stage -/

/-- Recovery reads the header that is on the disk. -/
theorem State.Durable.getHead {t : Thread} {code : List Instr} {d : Block} (h : s.Durable)
    (hs : s.Sound) (hc : s.Coherent) (ht : s.thread = some t) (hcode : t.code = .getHead :: code)
    (hstage : t.stage = .readHead) (hd : s.held t.pid logstart = some d) :
    Durable { s with
      log := { s.log with block := Storage.getHead d }
      thread := some { t with code := code } } := by
  obtain ⟨hops, hrec, -, -, hfit⟩ := hs.busy t ht
  have hr : t.recovering = true := by
    have hfs := hfit.stage
    rwa [hstage] at hfs
  have hdown : s.up = false := by simpa [hr] using hrec
  have hdisk : d = s.io.disk logstart := by
    rw [held_eq_content hs hc hd]
    exact (h.log_on_disk hs hc ht inLog_logstart (by rw [hcode]; rintro ⟨⟩)).symm
  obtain ⟨g, hret, hlen, -, hg⟩ := h.disk
  simp only [State.OnDisk, ht, hstage] at hg
  obtain ⟨-, hrcv, -⟩ := hg
  refine ⟨fun hup => ?_, fun w hw => ?_, fun _ _ => h.busy t ht, ?_, fun q b hq => ?_, fun hup => ?_,
    g, hret, hlen, fun hup => ?_, ?_⟩
  · cases hdown.symm.trans hup
  · rw [h.busy t ht] at hw
    cases hw
  · rw [hdisk]
    exact hrcv.home
  · rcases h.changed q b hq with ⟨⟨o, ho⟩, -⟩ | ⟨t', ht', -, hhead⟩
    · rw [hops] at ho
      cases ho
    · cases ht.symm.trans ht'
      rw [hcode] at hhead
      cases hhead
  · cases hdown.symm.trans hup
  · cases hdown.symm.trans hup
  · simp only [State.OnDisk, hstage]
    exact ⟨⟨by rintro _ ⟨⟩, by rintro _ ⟨⟩⟩, hrcv, Or.inr (by rw [hdisk])⟩

/-- The thread goes on to install from the copy number `tail` on, or to erase the header. -/
theorem onDisk_installFrom {u : ℕ → Block} {tail : ℕ} (hrcv : Recoverable s.io.disk u)
    (hhead : getHead (s.io.disk logstart) = s.log.block)
    (hdone : ∀ j < tail, s.io.disk (s.log.block.getD j 0) = u (s.log.block.getD j 0))
    (hio : s'.io = s.io) (hblock : s'.log.block = headerAt s.log.block (installFrom s.log.block tail))
    (code : List Instr) : (installFrom s.log.block tail).OnDisk s' u code := by
  unfold installFrom headerAt at *
  split
  · rename_i hlt
    rw [if_pos hlt] at hblock
    simp only [reduceCtorEq, if_false] at hblock
    simp only [Stage.OnDisk, hio, hblock]
    exact ⟨hrcv, hhead, hdone⟩
  · rename_i hge
    simp only [Stage.OnDisk, hio]
    refine ⟨hrcv, hrcv.settled fun j hj => ?_⟩
    rw [hhead] at hj ⊢
    exact hdone j (by omega)

/-- The disk's part of the invariant when the thread goes to its next stage. -/
theorem Stage.OnDisk.next {t : Thread} {u : ℕ → Block} (hcode : t.code = [])
    (hne : t.stage ≠ .finish) (hfit : t.stage.Fits t.recovering s.log.block)
    (hw : Writing t.code s.io (t.stage.target s.log.block) (t.stage.Wants s.log.block u))
    (h : t.stage.OnDisk s u t.code) (hio : s'.io = s.io)
    (hblock : s'.log.block = headerAt s.log.block (t.stage.next s.log.block))
    (hafter : t.stage.next s.log.block ≠ .finish → s'.after s'.returned = s.after s.returned) :
    (t.stage.next s.log.block).OnDisk s' u
      (stageCode s'.log.block t.recovering (t.stage.next s.log.block)) := by
  have hdone : ∀ b, t.stage.target s.log.block = some b →
      t.stage.Wants s.log.block u (s.io.disk b) := fun b hb => by
    have hd := hw.done b hb
    rw [hcode] at hd
    exact hd.resolve_left (by rintro ⟨⟩)
  cases hst : t.stage with
  | readHead =>
    rw [hst] at h hblock
    rcases h with ⟨hrcv, hget | hhead⟩
    · rw [hcode] at hget
      cases hget
    · exact onDisk_installFrom hrcv hhead (fun j hj => absurd hj (Nat.not_lt_zero j)) hio hblock _
  | writeLog tail =>
    rw [hst] at h hblock hafter hdone hfit
    obtain ⟨⟨hera, hset, honly⟩, hcopies⟩ := h
    have hnew := hdone _ rfl
    have hall : ∀ j < tail + 1, s.io.disk (logstart + j + 1) = u (s.log.block.getD j 0) := fun j hj => by
      rcases Nat.lt_succ_iff_lt_or_eq.mp hj with hj | rfl
      · exact hcopies j hj
      · exact hnew
    by_cases hlt : tail + 1 < s.log.block.length
    · have hnext : (Stage.writeLog tail).next s.log.block = .writeLog (tail + 1) := if_pos hlt
      rw [hnext] at hblock hafter ⊢
      have hblock : s'.log.block = s.log.block := hblock
      have hret := hafter (by rintro ⟨⟩)
      simp only [Stage.OnDisk, hio, hblock]
      refine ⟨⟨by rw [hio]; exact hera, by rw [hio, hret]; exact hset, ?_⟩, hall⟩
      rw [hblock, hret]
      exact honly
    · have hnext : (Stage.writeLog tail).next s.log.block = .writeHead := if_neg hlt
      rw [hnext] at hblock hafter ⊢
      have hblock : s'.log.block = s.log.block := hblock
      have hret := hafter (by rintro ⟨⟩)
      refine Or.inl ⟨by simp [stageCode, headCode], ⟨by rw [hio]; exact hera,
        by rw [hio, hret]; exact hset, ?_⟩, fun j hj => ?_⟩
      · rw [hblock, hret]
        exact honly
      · rw [hblock] at hj ⊢
        rw [hio]
        exact hall j (by omega)
  | writeHead =>
    rw [hst] at h hblock
    rcases h with ⟨hmem, -⟩ | ⟨hrcv, hhead⟩
    · rw [hcode] at hmem
      cases hmem
    · exact onDisk_installFrom hrcv hhead (fun j hj => absurd hj (Nat.not_lt_zero j)) hio hblock _
  | install tail =>
    rw [hst] at h hblock hdone
    obtain ⟨hrcv, hhead, hinst⟩ := h
    have hnew := hdone _ rfl
    refine onDisk_installFrom hrcv hhead (fun j hj => ?_) hio hblock _
    rcases Nat.lt_succ_iff_lt_or_eq.mp hj with hj | rfl
    · exact hinst j hj
    · exact hnew
  | eraseHead =>
    rw [hst] at h hdone hfit
    simp only [Stage.next, Stage.OnDisk, hio]
    exact ⟨h.2, (hdone _ rfl).trans hfit⟩
  | finish => exact absurd hst hne

/-- No block is changed and not written when the statements of a stage are done. -/
theorem State.Durable.unchanged {t : Thread} (h : s.Durable) (hs : s.Sound)
    (ht : s.thread = some t) (hcode : t.code = []) (q b : ℕ) : (q, b) ∉ s.io.changed := by
  intro hq
  rcases h.changed q b hq with ⟨⟨o, ho⟩, -⟩ | ⟨t', ht', -, hhead⟩
  · rw [(hs.busy t ht).1] at ho
    cases ho
  · cases ht.symm.trans ht'
    rw [hcode] at hhead
    cases hhead

theorem State.Durable.advance {t : Thread} (h : s.Durable) (hs : s.Sound) (ht : s.thread = some t)
    (hcode : t.code = []) (hne : t.stage ≠ .finish) : (advance s t).Durable := by
  obtain ⟨hops, hrec, -, -, hfit⟩ := hs.busy t ht
  have hfields : (Storage.advance s t).io = s.io ∧ (Storage.advance s t).ops = s.ops ∧
      (Storage.advance s t).up = s.up ∧ (Storage.advance s t).base = s.base ∧
      (Storage.advance s t).groups = s.groups ∧ (Storage.advance s t).current = s.current ∧
      (Storage.advance s t).log.block = headerAt s.log.block (t.stage.next s.log.block) ∧
      (Storage.advance s t).thread = some
        (t.enter (headerAt s.log.block (t.stage.next s.log.block)) (t.stage.next s.log.block)) ∧
      (Storage.advance s t).returned =
        if t.stage.next s.log.block = .finish ∧ t.recovering = false then s.returned + 1
        else s.returned := by
    simp only [Storage.advance, headerAt]
    split <;> exact ⟨rfl, rfl, rfl, rfl, rfl, rfl, rfl, rfl, rfl⟩
  obtain ⟨hio, hops', hup', hbase, hgroups, hcur, hblock, hthread, hret'⟩ := hfields
  obtain ⟨g, hret, hlen, hup, hg⟩ := h.disk
  simp only [State.OnDisk, ht] at hg
  have hcur' := h.busy t ht
  have hcount : s.up = true → s.returned + 1 = s.groups.length := fun hu => by
    have hc := h.count hu
    simpa only [State.unreturned, ht, if_neg hne] using hc
  refine ⟨?_, ?_, fun _ _ => hcur.trans hcur', ?_, ?_, ?_, g, ?_, ?_, ?_, ?_⟩
  · rw [hup', hio, hops', hbase, hgroups, hcur]
    exact h.content
  · rw [hcur, hcur']
    exact fun w hw => absurd hw List.not_mem_nil
  · rw [hblock]
    intro b hb
    unfold headerAt at hb
    split at hb
    · cases hb
    · exact h.home b hb
  · rw [hio]
    exact fun q b hq => absurd hq (h.unchanged hs ht hcode q b)
  · rw [hup', hgroups, hret']
    intro hu
    have hr : t.recovering = false := by simpa [hu] using hrec
    have hc := hcount hu
    simp only [State.unreturned, hthread, Thread.enter, hr, and_true]
    split <;> omega
  · rw [hret']
    split
    · rename_i hfin
      have hu : s.up = true := by simpa [hfin.2] using hrec
      have hc := hcount hu
      rw [hup hu]
      omega
    · exact hret
  · rw [hgroups]
    exact hlen
  · rw [hup', hgroups]
    exact hup
  · have hafter : ∀ k, (Storage.advance s t).after k = s.after k := fun k => by
      rw [State.after, State.after, hbase, hgroups]
    rw [hafter]
    simp only [State.OnDisk, hthread]
    refine ⟨?_, ?_⟩
    · rw [hblock, hio]
      exact Writing.enter t _ _ _ _
    · have hnext := @Stage.OnDisk.next s (Storage.advance s t) t _ hcode hne hfit.stage hg.1 hg.2 hio
        hblock fun hnf => by rw [hret', if_neg fun hf => hnf hf.1, hafter]
      rw [hblock] at hnext
      exact hnext

theorem State.Durable.finish {t : Thread} (h : s.Durable) (hs : s.Sound) (hc : s.Coherent)
    (ht : s.thread = some t) (hcode : t.code = []) (hstage : t.stage = .finish) :
    (finish s t).Durable := by
  obtain ⟨hops, hrec, -, hpins, hfit⟩ := hs.busy t ht
  have hblock : s.log.block = [] := by
    have hfs := hfit.stage
    rwa [hstage] at hfs
  have hcur := h.busy t ht
  have hunch := h.unchanged hs ht hcode
  obtain ⟨g, hret, hlen, hup, hg⟩ := h.disk
  simp only [State.OnDisk, ht, hstage] at hg
  obtain ⟨-, hset, hera⟩ := hg
  unfold Storage.finish
  split
  · -- what is on the disk now is the new base
    refine ⟨fun _ b hb => Or.inr ?_, h.current, by rintro _ ⟨⟩, h.home, fun q b hq => absurd hq (hunch q b),
      fun _ => rfl, 0, le_rfl, le_rfl, fun _ => rfl, fun b _ => rfl, hera⟩
    simp only [hcur, applyGroups, applyWrites, List.foldl_nil]
    by_contra hne
    rcases hc.io.disk b (Ne.symm hne) with hpin | ⟨q, hq⟩
    · rw [hpins] at hpin
      have hmem := pending_subset hfit b hpin
      rw [hblock] at hmem
      cases hmem
    · exact hunch q b hq
  · refine ⟨h.content, h.current, by rintro _ ⟨⟩, h.home, fun q b hq => absurd hq (hunch q b), fun hu => ?_,
      g, hret, hlen, hup, hset, hera⟩
    have hcount := h.count hu
    simpa only [State.unreturned, ht, hstage, if_true] using hcount

/-! ### Crashes -/

/-- At every step the disk can be recovered to the state after a prefix of the groups that
includes those whose commit has returned. -/
theorem State.Durable.recoverable (h : s.Durable) :
    ∃ k, s.returned ≤ k ∧ k ≤ s.groups.length ∧ Recoverable s.io.disk (s.after k) := by
  obtain ⟨g, hret, hlen, -, hg⟩ := h.disk
  have hprep : ∀ u, Preparing s u →
      ∃ k, s.returned ≤ k ∧ k ≤ s.groups.length ∧ Recoverable s.io.disk (s.after k) := fun u hp =>
    ⟨s.returned, le_rfl, hret.trans hlen, hp.settled.recoverable hp.erased⟩
  unfold State.OnDisk at hg
  cases ht : s.thread with
  | none =>
    rw [ht] at hg
    exact ⟨g, hret, hlen, hg.1.recoverable hg.2⟩
  | some t =>
    rw [ht] at hg
    obtain ⟨-, hst⟩ := hg
    cases hstage : t.stage with
    | writeLog tail =>
      rw [hstage] at hst
      exact hprep _ hst.1
    | writeHead =>
      rw [hstage] at hst
      rcases hst with ⟨-, hp, -⟩ | ⟨hrcv, -⟩
      · exact hprep _ hp
      · exact ⟨g, hret, hlen, hrcv⟩
    | readHead | install tail | eraseHead =>
      rw [hstage] at hst
      exact ⟨g, hret, hlen, hst.1⟩
    | finish =>
      rw [hstage] at hst
      exact ⟨g, hret, hlen, hst.1.recoverable hst.2⟩

theorem State.Durable.crash (h : s.Durable) : (crash s p).Durable := by
  obtain ⟨k, hret, hlen, hrcv⟩ := h.recoverable
  refine ⟨nofun, nofun, fun _ _ => rfl, nofun, nofun, nofun, k, hret, hlen, nofun, ?_⟩
  exact ⟨Writing.enter ⟨p, true, .finish, []⟩ [] .readHead _ _, hrcv,
    Or.inl (by simp [recoverThread, Thread.enter, stageCode])⟩

/-! ### Runs -/

theorem State.Durable.move (h : s.Durable) (hs : s.Sound) (hc : s.Coherent)
    (hok : Transactional s e) (hm : Move s e s') : s'.Durable := by
  cases hm with
  | act hp ha hio => exact h.act hs hok ha hio
  | logWrite hp hop hr hl hio => exact h.logWrite hs hc hok hop hr hl hio
  | beginOp hp hl => exact h.beginOp hl
  | endOp hp hop hl => exact h.endOp hok hl
  | commit hp hop hl => exact h.commit hs hok hop hl
  | exec ht hcode ha hio => exact h.exec hs hc ht hcode ha hio
  | @getHead t code d ht hcode hd hlen =>
    have hst : t.stage = .readHead := (hs.busy t ht).2.2.2.2.getHead_stage hcode
    exact h.getHead hs hc ht hcode hst hd
  | advance ht hcode hstage => exact h.advance hs ht hcode hstage
  | finish ht hcode hstage => exact h.finish hs hc ht hcode hstage
  | crash => exact h.crash

theorem durable_booted (h : Booted s) : s.Durable := by
  obtain ⟨disk, hhead, rfl⟩ := h
  exact ⟨fun _ b _ => Or.inr rfl, nofun, nofun, nofun, nofun, fun _ => rfl,
    0, le_rfl, le_rfl, fun _ => rfl, fun b _ => rfl, hhead⟩

theorem durable_reach (h : Reach Booted step Transactional s) : s.Durable := by
  induction h with
  | start h => exact durable_booted h
  | step h hok hs ih =>
    exact ih.move (sound_reach h) (coherent_reach (fun _ _ hok => hok.released) h) hok (step_move hs)

end Storage

end Xv6
