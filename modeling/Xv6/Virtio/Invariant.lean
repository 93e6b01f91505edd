import Mathlib.Data.List.Nodup
import Mathlib.Data.List.Perm.Subperm
import Xv6.Virtio.Chains

/-!
# The invariant of the disk driver

Between its publication and its completion, a request is in exactly one of four places: the
available ring, the requests the device has taken, those it has answered, and the used ring. They
hold the requests of the processes that wait with `b->disk` set, so a process gives its descriptors
back only when its request is in none of them, and an entry's head is that of a chain which is
still formatted. As the chains are apart, neither ring can hold more than `NUM` entries.

`Move` lists the steps that are possible in a state with the invariant, none of which is a panic.
This module shows that they keep the locks, the chains and the format of the descriptors.
-/

namespace Xv6

namespace Virtio

variable {s s' : State} {p q b d : ℕ} {c : Cell} {aq uq : List Cell}

/-! ### The invariant -/

/-- The two kinds of locks. -/
structure State.Guarded (s : State) : Prop where
  lock : ∀ p, (s.thread p).pc.locked = true → s.lock = some (.proc p)
  holder : ∀ p, (s.thread p).pc ≠ .out → s.holder (s.thread p).b = some p

/-- The descriptor is in the process's chain. -/
structure State.Has (s : State) (p d : ℕ) : Prop where
  chained : (s.thread p).pc.chained = true
  mem : d ∈ (s.thread p).idx.toList

/-- The descriptors that are not free make up the chains. -/
structure State.Chained (s : State) : Prop where
  nodup : ∀ p, (s.thread p).pc.chained = true → (s.thread p).idx.toList.Nodup
  lt : ∀ p d, s.Has p d → d < num
  free_iff : ∀ d, s.free d = false ↔ ∃ p, s.Has p d
  apart : ∀ p q d, s.Has p d → s.Has q d → p = q

/-- The process waits for the request of the entry. -/
structure State.Pending (s : State) (p : ℕ) (c : Cell) : Prop where
  published : (s.thread p).pc.published = true
  disk : s.disk (s.thread p).b = true
  cell : (s.thread p).cell = c

/-- The entries `aq` are in the available ring and the entries `uq` in the used ring. -/
structure State.Tracked (s : State) (aq uq : List Cell) : Prop where
  avail : Fifo.Holds num uint16 s.availRing s.lastAvail s.availIdx aq
  used : Fifo.Holds num uint16 s.usedRing s.usedIdx s.usedRingIdx uq
  published : s.published = s.fetched ++ aq
  posted : s.posted = s.completed.map Prod.fst ++ uq
  nodup : (aq ++ s.taken ++ s.answered ++ uq).Nodup
  mem_iff : ∀ c, c ∈ aq ++ s.taken ++ s.answered ++ uq ↔ ∃ p, s.Pending p c
  answer : ∀ c ∈ s.answered ++ uq,
    (s.info c.id).status = 0 ∧ c.req ∈ s.served.map Prod.fst
  written : ∀ p, (s.thread p).pc = .publish →
    s.availRing (s.availIdx % num) = (s.thread p).cell
  disk : ∀ p, (s.thread p).pc.formatted = true → (s.thread p).pc.published = false →
    s.disk (s.thread p).b = true

/-- The requests of the completions. -/
def State.completions (s : State) : List ℕ := s.completed.map fun x => x.1.req

/-- What has happened to the requests. -/
structure State.Logged (s : State) : Prop where
  apart : ∀ p q, (s.thread p).pc.formatted = true → (s.thread q).pc.formatted = true →
    (s.thread p).req = (s.thread q).req → p = q
  nodup : s.completions.Nodup
  completed : ∀ x ∈ s.completed, x.1.req ∈ s.served.map Prod.fst ∧
    ∃ r, s.requests[x.1.req]? = some r ∧ r.b = x.2
  completed_iff : ∀ p, (s.thread p).pc.formatted = true →
    ((s.thread p).req ∈ s.completions ↔ s.disk (s.thread p).b = false)
  returned : ∀ r ∈ s.returned, r ∈ s.completions
  served : ∀ x ∈ s.served, ∃ r, s.requests[x.1]? = some r ∧ x.2.1 = r.op ∧ x.2.2 = .data r.b

structure State.Sound (s : State) : Prop where
  guarded : s.Guarded
  chained : s.Chained
  formatted : ∀ p, (s.thread p).pc.formatted = true → s.Formatted (s.thread p)
  tracked : ∃ aq uq, s.Tracked aq uq
  logged : s.Logged
  running : s.panicked = false

/-! ### Consequences -/

theorem Pc.chained_of_formatted {pc : Pc} (h : pc.formatted = true) : pc.chained = true := by
  cases pc <;> first | rfl | cases h

theorem Pc.formatted_of_published {pc : Pc} (h : pc.published = true) : pc.formatted = true := by
  cases pc <;> first | rfl | cases h

theorem Pc.ne_out_of_chained {pc : Pc} (h : pc.chained = true) : pc ≠ .out := by
  rintro rfl
  cases h

/-- No two processes are in a call on one buffer. -/
theorem State.Guarded.eq_of_b (h : s.Guarded) (hp : (s.thread p).pc ≠ .out)
    (hq : (s.thread q).pc ≠ .out) (hb : (s.thread p).b = (s.thread q).b) : p = q := by
  have hholder := h.holder p hp
  rw [hb, h.holder q hq, Option.some.injEq] at hholder
  exact hholder.symm

/-- No two processes hold the lock. -/
theorem State.Guarded.eq_of_locked (h : s.Guarded) (hp : (s.thread p).pc.locked = true)
    (hq : (s.thread q).pc.locked = true) : p = q := by
  have hlock := h.lock p hp
  rw [h.lock q hq, Option.some.injEq, Owner.proc.injEq] at hlock
  exact hlock.symm

/-- The head of a chain belongs to one process. -/
theorem State.Chained.eq_of_fst (h : s.Chained) (hp : (s.thread p).pc.chained = true)
    (hq : (s.thread q).pc.chained = true) (heq : (s.thread p).idx.fst = (s.thread q).idx.fst) :
    p = q :=
  h.apart p q (s.thread p).idx.fst ⟨hp, by simp⟩ ⟨hq, by simp [heq]⟩

/-- What the entries of a list of requests are the heads of. -/
theorem State.Chained.length_le (h : s.Chained) {l : List Cell} (hnodup : l.Nodup)
    (hl : ∀ c ∈ l, ∃ p, (s.thread p).pc.chained = true ∧ (s.thread p).cell = c) :
    l.length ≤ num := by
  have hinj : (l.map Cell.id).Nodup := by
    refine hnodup.map_on fun c hc c' hc' heq => ?_
    obtain ⟨p, hp, rfl⟩ := hl c hc
    obtain ⟨q, hq, rfl⟩ := hl c' hc'
    rw [h.eq_of_fst hp hq heq]
  have hsub : l.map Cell.id ⊆ List.range num := by
    intro d hd
    obtain ⟨c, hc, rfl⟩ := List.mem_map.mp hd
    obtain ⟨p, hp, rfl⟩ := hl c hc
    exact List.mem_range.mpr (h.lt p _ ⟨hp, by simp [Thread.cell]⟩)
  have hle := (List.subperm_of_subset hinj hsub).length_le
  rwa [List.length_map, List.length_range] at hle

theorem State.Tracked.pending (h : s.Tracked aq uq) (hc : c ∈ aq ++ s.taken ++ s.answered ++ uq) :
    ∃ p, s.Pending p c :=
  (h.mem_iff c).mp hc

theorem State.Pending.chained (h : s.Pending p c) : (s.thread p).pc.chained = true :=
  Pc.chained_of_formatted (Pc.formatted_of_published h.published)

/-- There is room in the available ring for an entry that is not there. -/
theorem State.Tracked.avail_lt (h : s.Tracked aq uq) (hc : s.Chained)
    (hp : (s.thread p).pc.chained = true) (hnp : (s.thread p).pc.published = false) :
    aq.length < num := by
  have hnew : (s.thread p).cell ∉ aq := by
    intro hmem
    obtain ⟨q, hq⟩ := h.pending (List.mem_append_left _ (List.mem_append_left _
      (List.mem_append_left _ hmem)))
    have heq := hc.eq_of_fst hq.chained hp (congrArg Cell.id hq.cell)
    rw [← heq, hq.published] at hnp
    cases hnp
  have hnodup : aq.Nodup := by
    have hn := h.nodup
    rw [List.append_assoc, List.append_assoc] at hn
    exact (List.nodup_append.mp hn).1
  refine hc.length_le (l := (s.thread p).cell :: aq) (List.nodup_cons.mpr ⟨hnew, hnodup⟩) ?_
  intro c hmem
  rcases List.mem_cons.mp hmem with rfl | hmem
  · exact ⟨p, hp, rfl⟩
  · obtain ⟨q, hq⟩ := h.pending (List.mem_append_left _ (List.mem_append_left _
      (List.mem_append_left _ hmem)))
    exact ⟨q, hq.chained, hq.cell⟩

/-- There is room in the used ring for a request that is answered. -/
theorem State.Tracked.used_lt (h : s.Tracked aq uq) (hc : s.Chained) (hmem : c ∈ s.answered) :
    uq.length < num := by
  have hn := h.nodup
  rw [List.append_assoc, List.nodup_append] at hn
  have hdisj := (List.nodup_append.mp hn.2.1).2.2
  have hnew : c ∉ uq := fun hu => hdisj c hmem c hu rfl
  refine hc.length_le (l := c :: uq)
    (List.nodup_cons.mpr ⟨hnew, (List.nodup_append.mp hn.2.1).2.1⟩) ?_
  intro c' hmem'
  have hlive : c' ∈ aq ++ s.taken ++ s.answered ++ uq := by
    rcases List.mem_cons.mp hmem' with rfl | hmem'
    · exact List.mem_append_left _ (List.mem_append_right _ hmem)
    · exact List.mem_append_right _ hmem'
  obtain ⟨q, hq⟩ := h.pending hlive
  exact ⟨q, hq.chained, hq.cell⟩

/-! ### The steps -/

/-- The steps from a sound state. -/
inductive Move (s : State) : State → Prop
  | bget {p b n : ℕ} (hpc : (s.thread p).pc = .out) (hb : s.holder b = none) : Move s { s with
      holder := Function.update s.holder b (some p)
      blockno := Function.update s.blockno b n }
  | brelse {p b : ℕ} (hpc : (s.thread p).pc = .out) (hb : s.holder b = some p) :
      Move s { s with holder := Function.update s.holder b none }
  | rw {p b : ℕ} {write : Bool} (hpc : (s.thread p).pc = .out) (hb : s.holder b = some p) :
      Move s (s.setThread p { s.thread p with pc := .enter, b, write })
  | enter {p : ℕ} (hpc : (s.thread p).pc = .enter) (hlock : s.lock = none) :
      Move s ({ s with lock := some (.proc p) }.goto p .alloc)
  | retry {p : ℕ} {desc : ℕ → Desc} (hpc : (s.thread p).pc = .alloc)
      (hdesc : ∀ d, s.free d = false → desc d = s.desc d) :
      Move s ({ s with desc, lock := none }.goto p .enter)
  | alloc {p : ℕ} {idx : Idx} {free : ℕ → Bool} (hpc : (s.thread p).pc = .alloc)
      (hnodup : idx.toList.Nodup) (hidx : ∀ d ∈ idx.toList, d < num ∧ s.free d = true)
      (hfree : ∀ d, free d = false ↔ s.free d = false ∨ d ∈ idx.toList) :
      Move s ({ s with free }.setThread p { s.thread p with pc := .format, idx })
  | format {p : ℕ} (hpc : (s.thread p).pc = .format) : Move s (format s p)
  | ring {p : ℕ} (hpc : (s.thread p).pc = .ring) : Move s ({ s with
      availRing := Function.update s.availRing (s.availIdx % num) (s.thread p).cell }.goto p
        .publish)
  | publish {p : ℕ} (hpc : (s.thread p).pc = .publish) : Move s ({ s with
      availIdx := (s.availIdx + 1) % uint16
      published := s.published ++ [(s.thread p).cell] }.goto p .wait)
  | sleep {p : ℕ} (hpc : (s.thread p).pc = .wait) :
      Move s ({ s with lock := none }.goto p .asleep)
  | finish {p : ℕ} {free : ℕ → Bool} {desc : ℕ → Desc} (hpc : (s.thread p).pc = .wait)
      (hdisk : s.disk (s.thread p).b = false)
      (hfree : ∀ d, free d = true ↔ s.free d = true ∨ d ∈ (s.thread p).idx.toList)
      (hdesc : ∀ d, d ∉ (s.thread p).idx.toList → desc d = s.desc d) : Move s ({ s with
        free, desc
        info := Function.update s.info (s.thread p).idx.fst
          { s.info (s.thread p).idx.fst with b := none }
        lock := none
        returned := s.returned ++ [(s.thread p).req] }.goto p .out)
  | wake {p : ℕ} (hpc : (s.thread p).pc = .asleep) (hlock : s.lock = none) :
      Move s ({ s with lock := some (.proc p) }.goto p .wait)
  | take (hne : s.lastAvail ≠ s.availIdx) : Move s { s with
      lastAvail := (s.lastAvail + 1) % uint16
      taken := s.taken ++ [s.availRing (s.lastAvail % num)]
      fetched := s.fetched ++ [s.availRing (s.lastAvail % num)] }
  | answer {p : ℕ} {c : Cell} (hc : c ∈ s.taken) (hp : s.Pending p c) : Move s { s with
      info := Function.update s.info c.id { s.info c.id with status := 0 }
      taken := s.taken.erase c
      answered := c :: s.answered
      served := s.served ++ [(c.req, s.ops c.id, .data (s.thread p).b)] }
  | post {c : Cell} (hc : c ∈ s.answered) : Move s { s with
      answered := s.answered.erase c
      usedRing := Function.update s.usedRing (s.usedRingIdx % num) c
      usedRingIdx := (s.usedRingIdx + 1) % uint16
      posted := s.posted ++ [c] }
  | intr (hlock : s.lock = none) : Move s { s with lock := some .intr }
  | intrEnd (hlock : s.lock = some .intr) : Move s { s with lock := none }
  | complete {p : ℕ} {c : Cell} (hne : s.usedIdx ≠ s.usedRingIdx)
      (hc : s.usedRing (s.usedIdx % num) = c) (hp : s.Pending p c) : Move s { s with
      disk := Function.update s.disk (s.thread p).b false
      usedIdx := (s.usedIdx + 1) % uint16
      completed := s.completed ++ [(c, (s.thread p).b)] }

namespace State.Sound

/-- A waiting process's chain is still formatted. -/
theorem formatted_of_pending (h : s.Sound) (hp : s.Pending p c) : s.Formatted (s.thread p) :=
  h.formatted p (Pc.formatted_of_published hp.published)

theorem turn_move (h : s.Sound) (hs : turn s p = some s') : Move s s' := by
  unfold turn at hs
  cases hpc : (s.thread p).pc <;> simp only [hpc] at hs
  case out => cases hs
  case enter =>
    obtain ⟨hlock, hs⟩ := Option.ite_none_right_eq_some.mp hs
    cases hs
    exact .enter hpc hlock
  case alloc =>
    obtain ⟨r, hr, ha⟩ := alloc3Desc_spec s
    rw [hr] at hs
    cases ha with
    | none hdesc =>
      cases hs
      exact .retry hpc hdesc
    | some hnodup hidx hfree =>
      cases hs
      exact .alloc hpc hnodup hidx hfree
  case format =>
    cases hs
    exact .format hpc
  case ring =>
    cases hs
    exact .ring hpc
  case publish =>
    cases hs
    exact .publish hpc
  case wait =>
    have hch : (s.thread p).pc.chained = true := by rw [hpc]; rfl
    have hfm : s.Formatted (s.thread p) := h.formatted p (by rw [hpc]; rfl)
    split at hs
    · cases hs
      exact .sleep hpc
    · rename_i hdisk
      obtain ⟨free, desc, hfree, hdesc, heq⟩ := finish_eq hfm (h.chained.nodup p hch) fun d hd =>
        ⟨h.chained.lt p d ⟨hch, hd⟩, (h.chained.free_iff d).mpr ⟨p, hch, hd⟩⟩
      rw [heq] at hs
      cases hs
      exact .finish hpc (by simpa using hdisk) hfree hdesc
  case asleep =>
    obtain ⟨hlock, hs⟩ := Option.ite_none_right_eq_some.mp hs
    cases hs
    exact .wake hpc hlock

theorem answer_move (h : s.Sound) (hs : answer s c = some s') : Move s s' := by
  obtain ⟨hc, hs⟩ := Option.ite_none_right_eq_some.mp hs
  obtain ⟨aq, uq, ht⟩ := h.tracked
  obtain ⟨p, hp⟩ := ht.pending (List.mem_append_left _ (List.mem_append_left _
    (List.mem_append_right _ hc)))
  have hf := h.formatted_of_pending hp
  have hid : c.id = (s.thread p).idx.fst := (congrArg Cell.id hp.cell).symm
  -- the chain leads to the request, the buffer and the status of the same entry
  have hmove := Move.answer hc hp
  rw [hid] at hmove
  simp only [hid, hf.fst, hf.snd, hf.thd, setStatus, State.opAt, Option.some.injEq] at hs
  rw [← hs]
  exact hmove

theorem intrTurn_move (h : s.Sound) (hlock : s.lock = some .intr) : Move s (intrTurn s) := by
  unfold intrTurn
  obtain ⟨aq, uq, ht⟩ := h.tracked
  split
  · exact .intrEnd hlock
  · rename_i hne
    cases huq : uq with
    | nil => exact absurd ((ht.used.eq_nil_iff (by decide)).mpr huq) hne
    | cons c uq' =>
      rw [huq] at ht
      have hc : s.usedRing (s.usedIdx % num) = c := ht.used.head
      obtain ⟨p, hp⟩ := ht.pending (c := c) (by simp)
      have hid : c.id = (s.thread p).idx.fst := (congrArg Cell.id hp.cell).symm
      have hstatus := (ht.answer c (by simp)).1
      have hb : (s.info c.id).b = some (s.thread p).b := by
        rw [hid]
        exact (h.formatted_of_pending hp).info
      simp only [hc, hstatus, hb]
      exact .complete hne hc hp

theorem step_move (h : s.Sound) {e : Event} (hs : step s e = some s') : Move s s' := by
  unfold step at hs
  rw [if_neg (by rw [h.running]; nofun)] at hs
  cases e with
  | bget p b n =>
    obtain ⟨⟨hpc, hb⟩, hs⟩ := Option.ite_none_right_eq_some.mp hs
    cases hs
    exact .bget hpc hb
  | brelse p b =>
    obtain ⟨⟨hpc, hb⟩, hs⟩ := Option.ite_none_right_eq_some.mp hs
    cases hs
    exact .brelse hpc hb
  | rw p b write =>
    obtain ⟨⟨hpc, hb⟩, hs⟩ := Option.ite_none_right_eq_some.mp hs
    cases hs
    exact .rw hpc hb
  | turn p => exact h.turn_move hs
  | take =>
    obtain ⟨hne, hs⟩ := Option.ite_none_left_eq_some.mp hs
    cases hs
    exact .take hne
  | answer c => exact h.answer_move hs
  | post c =>
    obtain ⟨hc, hs⟩ := Option.ite_none_right_eq_some.mp hs
    cases hs
    exact .post hc
  | intr =>
    obtain ⟨hlock, hs⟩ := Option.ite_none_right_eq_some.mp hs
    cases hs
    exact .intr hlock
  | intrTurn =>
    obtain ⟨hlock, hs⟩ := Option.ite_none_right_eq_some.mp hs
    cases hs
    exact h.intrTurn_move hlock

end State.Sound

/-! ### Locks -/

section Locks

variable {t : Thread}

/-- What is known of each thread after one of them has moved. -/
theorem forall_update {f : ℕ → Thread} {P : ℕ → Thread → Prop} (hp : P p t)
    (hq : ∀ q, q ≠ p → P q (f q)) (q : ℕ) : P q (Function.update f p t q) := by
  by_cases hqp : q = p
  · rw [hqp, Function.update_self]
    exact hp
  · rw [Function.update_of_ne hqp]
    exact hq q hqp

/-- A process that keeps the lock as it is, gets it or gives it up. -/
theorem State.Guarded.thread (h : s.Guarded) (hthread : s'.thread = Function.update s.thread p t)
    (hholder : s'.holder = s.holder) (hb : t.pc ≠ .out → s.holder t.b = some p)
    (hlock : t.pc.locked = true → s'.lock = some (.proc p))
    (hother : ∀ q, q ≠ p → (s.thread q).pc.locked = true → s'.lock = s.lock) : s'.Guarded where
  lock := by
    rw [hthread]
    refine forall_update (P := fun q x => x.pc.locked = true → s'.lock = some (.proc q)) hlock ?_
    intro q hqp hq
    rw [hother q hqp hq]
    exact h.lock q hq
  holder := by
    rw [hthread, hholder]
    exact forall_update (P := fun q x => x.pc ≠ .out → s.holder x.b = some q) hb
      fun q _ => h.holder q

/-- A process in a call that goes on with it. -/
theorem State.Guarded.goto (h : s.Guarded) {pc : Pc} (hin : (s.thread p).pc ≠ .out)
    (hthread : s'.thread = Function.update s.thread p { s.thread p with pc })
    (hholder : s'.holder = s.holder) (hlock : pc.locked = true → s'.lock = some (.proc p))
    (hother : ∀ q, q ≠ p → (s.thread q).pc.locked = true → s'.lock = s.lock) : s'.Guarded :=
  h.thread hthread hholder (fun _ => h.holder p hin) hlock hother

theorem State.Guarded.move (h : s.Guarded) (hm : Move s s') : s'.Guarded := by
  -- who holds the lock is alone with it, and nobody is when it is free
  have halone : ∀ {p q : ℕ}, (s.thread p).pc.locked = true → q ≠ p →
      (s.thread q).pc.locked = true → s'.lock = s.lock :=
    fun hp hqp hq => absurd (h.eq_of_locked hq hp) hqp
  have hnobody : ∀ {q : ℕ}, s.lock = none → (s.thread q).pc.locked = true → s'.lock = s.lock := by
    intro q hnone hq
    rw [h.lock q hq] at hnone
    cases hnone
  cases hm with
  | @bget p b n hpc hb =>
    refine ⟨h.lock, fun q hq => ?_⟩
    have hne : (s.thread q).b ≠ b := by
      intro heq
      have hholder := h.holder q hq
      rw [heq, hb] at hholder
      cases hholder
    exact (Function.update_of_ne hne ..).trans (h.holder q hq)
  | @brelse p b hpc hb =>
    refine ⟨h.lock, fun q hq => ?_⟩
    have hne : (s.thread q).b ≠ b := by
      intro heq
      have hholder := h.holder q hq
      rw [heq, hb, Option.some.injEq] at hholder
      rw [← hholder] at hq
      exact hq hpc
    exact (Function.update_of_ne hne ..).trans (h.holder q hq)
  | rw hpc hb => exact h.thread rfl rfl (fun _ => hb) nofun fun _ _ _ => rfl
  | enter hpc hlock | wake hpc hlock =>
    exact h.goto (by rw [hpc]; nofun) rfl rfl (fun _ => rfl) fun q _ => hnobody hlock
  | @retry p desc hpc =>
    have hp : (s.thread p).pc.locked = true := by rw [hpc]; rfl
    exact h.goto (by rw [hpc]; nofun) rfl rfl nofun fun q => halone hp
  | @alloc p idx free hpc =>
    have hp : (s.thread p).pc.locked = true := by rw [hpc]; rfl
    exact h.thread rfl rfl (fun _ => h.holder p (by rw [hpc]; nofun)) (fun _ => h.lock p hp)
      fun _ _ _ => rfl
  | @format p hpc =>
    have hp : (s.thread p).pc.locked = true := by rw [hpc]; rfl
    exact h.thread rfl rfl (fun _ => h.holder p (by rw [hpc]; nofun)) (fun _ => h.lock p hp)
      fun _ _ _ => rfl
  | @ring p hpc | @publish p hpc =>
    have hp : (s.thread p).pc.locked = true := by rw [hpc]; rfl
    exact h.goto (by rw [hpc]; nofun) rfl rfl (fun _ => h.lock p hp) fun _ _ _ => rfl
  | @sleep p hpc =>
    have hp : (s.thread p).pc.locked = true := by rw [hpc]; rfl
    exact h.goto (by rw [hpc]; nofun) rfl rfl nofun fun q => halone hp
  | @finish p free desc hpc =>
    have hp : (s.thread p).pc.locked = true := by rw [hpc]; rfl
    exact h.goto (by rw [hpc]; nofun) rfl rfl nofun fun q => halone hp
  | take | answer | post | complete => exact ⟨h.lock, h.holder⟩
  | intr hlock => exact ⟨fun q hq => (hnobody hlock hq).trans (h.lock q hq), h.holder⟩
  | intrEnd hlock =>
    refine ⟨fun q hq => ?_, h.holder⟩
    have hheld := h.lock q hq
    rw [hlock] at hheld
    cases hheld

end Locks

/-! ### Chains -/

section Chains

variable {t : Thread}

namespace State.Chained

/-- The chains are as they were. -/
theorem keep (h : s.Chained) (hfree : s'.free = s.free)
    (hpc : ∀ q, (s'.thread q).pc.chained = (s.thread q).pc.chained)
    (hidx : ∀ q, (s'.thread q).idx = (s.thread q).idx) : s'.Chained := by
  have hiff : ∀ q d, s'.Has q d ↔ s.Has q d := by
    intro q d
    constructor
    · rintro ⟨hq, hd⟩
      exact ⟨(hpc q).symm.trans hq, hidx q ▸ hd⟩
    · rintro ⟨hq, hd⟩
      exact ⟨(hpc q).trans hq, (hidx q).symm ▸ hd⟩
  refine ⟨fun q hq => ?_, fun q d hd => h.lt q d ((hiff q d).mp hd), fun d => ?_,
    fun q q' d hd hd' => h.apart q q' d ((hiff q d).mp hd) ((hiff q' d).mp hd')⟩
  · rw [hidx]
    exact h.nodup q ((hpc q).symm.trans hq)
  · rw [hfree, h.free_iff]
    simp only [hiff]

theorem has_of_ne (hthread : s'.thread = Function.update s.thread p t) (hqp : q ≠ p) : s'.Has q d ↔ s.Has q d := by
  have heq : s'.thread q = s.thread q := by
    rw [hthread, Function.update_of_ne hqp]
  constructor
  · rintro ⟨hq, hd⟩
    exact ⟨heq ▸ hq, heq ▸ hd⟩
  · rintro ⟨hq, hd⟩
    exact ⟨heq.symm ▸ hq, heq.symm ▸ hd⟩

section

variable (h : s.Chained) (hthread : s'.thread = Function.update s.thread p t)
include h hthread

theorem thread (hfree : s'.free = s.free)
    (hpc : t.pc.chained = (s.thread p).pc.chained) (hidx : t.idx = (s.thread p).idx) :
    s'.Chained := by
  refine h.keep hfree ?_ ?_
  · rw [hthread]
    exact forall_update (P := fun q x => x.pc.chained = (s.thread q).pc.chained) hpc
      fun q _ => rfl
  · rw [hthread]
    exact forall_update (P := fun q x => x.idx = (s.thread q).idx) hidx fun q _ => rfl

/-- A process gets a chain of descriptors that were free. -/
theorem add (hp : (s.thread p).pc.chained = false) (ht : t.pc.chained = true)
    (hnodup : t.idx.toList.Nodup) (hidx : ∀ d ∈ t.idx.toList, d < num ∧ s.free d = true)
    (hfree : ∀ d, s'.free d = false ↔ s.free d = false ∨ d ∈ t.idx.toList) : s'.Chained := by
  have hself : s'.thread p = t := by
    rw [hthread, Function.update_self]
  have hne : ∀ q d, s.Has q d → q ≠ p := by
    rintro q d hd rfl
    rw [hd.chained] at hp
    cases hp
  have hiff : ∀ q d, s'.Has q d ↔ s.Has q d ∨ q = p ∧ d ∈ t.idx.toList := by
    intro q d
    by_cases hqp : q = p
    · subst hqp
      constructor
      · intro hd
        exact Or.inr ⟨rfl, hself ▸ hd.mem⟩
      · rintro (hd | ⟨_, hd⟩)
        · exact absurd rfl (hne q d hd)
        · exact ⟨hself.symm ▸ ht, hself.symm ▸ hd⟩
    · rw [has_of_ne hthread hqp]
      exact ⟨Or.inl, fun hor => hor.resolve_right fun hr => hqp hr.1⟩
  have hnew : ∀ q d, s.Has q d → d ∉ t.idx.toList := by
    intro q d hd hin
    have hbusy := (h.free_iff d).mpr ⟨q, hd⟩
    rw [(hidx d hin).2] at hbusy
    cases hbusy
  refine ⟨?_, fun q d hd => ?_, fun d => ?_, fun q q' d hd hd' => ?_⟩
  · rw [hthread]
    exact forall_update (P := fun _ x => x.pc.chained = true → x.idx.toList.Nodup)
      (fun _ => hnodup) fun q _ => h.nodup q
  · rcases (hiff q d).mp hd with hd | ⟨_, hd⟩
    · exact h.lt q d hd
    · exact (hidx d hd).1
  · rw [hfree, h.free_iff]
    simp only [hiff, exists_or, exists_eq_left]
  · rcases (hiff q d).mp hd with hd | ⟨rfl, hd⟩
    · rcases (hiff q' d).mp hd' with hd' | ⟨_, hd'⟩
      · exact h.apart q q' d hd hd'
      · exact absurd hd' (hnew q d hd)
    · rcases (hiff q' d).mp hd' with hd' | ⟨rfl, _⟩
      · exact absurd hd (hnew q' d hd')
      · rfl

/-- A process gives its chain back. -/
theorem remove (hp : (s.thread p).pc.chained = true) (ht : t.pc.chained = false)
    (hfree : ∀ d, s'.free d = true ↔ s.free d = true ∨ d ∈ (s.thread p).idx.toList) :
    s'.Chained := by
  have hself : s'.thread p = t := by
    rw [hthread, Function.update_self]
  have hiff : ∀ q d, s'.Has q d ↔ s.Has q d ∧ q ≠ p := by
    intro q d
    by_cases hqp : q = p
    · subst hqp
      refine ⟨fun hd => ?_, fun hd => absurd rfl hd.2⟩
      have hq := hd.chained
      rw [hself, ht] at hq
      cases hq
    · rw [has_of_ne hthread hqp]
      exact ⟨fun hd => ⟨hd, hqp⟩, fun hd => hd.1⟩
  refine ⟨?_, fun q d hd => h.lt q d ((hiff q d).mp hd).1, fun d => ?_,
    fun q q' d hd hd' => h.apart q q' d ((hiff q d).mp hd).1 ((hiff q' d).mp hd').1⟩
  · rw [hthread]
    refine forall_update (P := fun _ x => x.pc.chained = true → x.idx.toList.Nodup) ?_
      fun q _ => h.nodup q
    intro hc
    rw [ht] at hc
    cases hc
  · rw [← Bool.not_eq_true, hfree, not_or, Bool.not_eq_true, h.free_iff]
    simp only [hiff]
    constructor
    · rintro ⟨⟨q, hq⟩, hd⟩
      refine ⟨q, hq, ?_⟩
      rintro rfl
      exact hd hq.mem
    · rintro ⟨q, hq, hqp⟩
      exact ⟨⟨q, hq⟩, fun hd => hqp (h.apart q p d hq ⟨hp, hd⟩)⟩

end

theorem move (h : s.Chained) (hm : Move s s') : s'.Chained := by
  cases hm with
  | bget | brelse | take | answer | post | intr | intrEnd | complete =>
    exact h.keep rfl (fun _ => rfl) fun _ => rfl
  | rw hpc | enter hpc | retry hpc | format hpc | ring hpc | publish hpc | sleep hpc | wake hpc =>
    exact h.thread rfl rfl (by rw [hpc]; rfl) rfl
  | alloc hpc hnodup hidx hfree =>
    exact h.add rfl (by rw [hpc]; rfl) rfl hnodup hidx hfree
  | finish hpc hdisk hfree =>
    exact h.remove rfl (by rw [hpc]; rfl) rfl hfree

end State.Chained

end Chains

/-! ### Formatted chains -/

/-- Formatting makes a chain. -/
theorem formatted_format (hnodup : (s.thread p).idx.toList.Nodup) :
    (format s p).Formatted ((format s p).thread p) := by
  obtain ⟨h₁, h₂, h₃⟩ := Idx.ne_of_nodup hnodup
  have hself : (format s p).thread p =
      { s.thread p with pc := .ring, req := s.requests.length } := Function.update_self ..
  rw [hself]
  refine ⟨?_, ?_, ?_, ?_, ?_⟩
  · exact (Function.update_of_ne h₂ ..).trans
      ((Function.update_of_ne h₁ ..).trans (Function.update_self ..))
  · exact (Function.update_of_ne h₃ ..).trans (Function.update_self ..)
  · exact Function.update_self ..
  · have hinfo : (format s p).info (s.thread p).idx.fst = ⟨some (s.thread p).b, 0xff⟩ :=
      Function.update_self ..
    rw [hinfo]
  · have hops : (format s p).ops (s.thread p).idx.fst =
        s.blkReq (s.thread p).b (s.thread p).write := Function.update_self ..
    rw [hops]
    exact List.getElem?_concat_length ..

namespace State.Sound

/-- The chains of two processes are apart. -/
theorem not_mem (h : s.Sound) (hqp : q ≠ p) (hp : (s.thread p).pc.chained = true)
    (hq : (s.thread q).pc.chained = true) (hd : d ∈ (s.thread q).idx.toList) :
    d ∉ (s.thread p).idx.toList :=
  fun hd' => hqp (h.chained.apart q p d ⟨hq, hd⟩ ⟨hp, hd'⟩)

theorem fst_ne (h : s.Sound) (hqp : q ≠ p) (hp : (s.thread p).pc.chained = true)
    (hq : (s.thread q).pc.chained = true) : (s.thread q).idx.fst ≠ (s.thread p).idx.fst :=
  fun heq => hqp (h.chained.eq_of_fst hq hp heq)

/-- The number of a request that is under way. -/
theorem req_lt (h : s.Sound) (hp : (s.thread p).pc.formatted = true) :
    (s.thread p).req < s.requests.length :=
  (List.getElem?_eq_some_iff.mp (h.formatted p hp).request).1

/-- The formatted chains are not written to. -/
theorem formatted_goto (h : s.Sound) {t : Thread}
    (hthread : s'.thread = Function.update s.thread p t)
    (hp : t.pc.formatted = true → s'.Formatted t)
    (hq : ∀ q, q ≠ p → (s.thread q).pc.formatted = true → s.Formatted (s.thread q) →
      s'.Formatted (s.thread q)) :
    ∀ q, (s'.thread q).pc.formatted = true → s'.Formatted (s'.thread q) := by
  rw [hthread]
  exact forall_update (P := fun _ x => x.pc.formatted = true → s'.Formatted x) hp
    fun q hqp hf => hq q hqp hf (h.formatted q hf)

theorem formatted_move (h : s.Sound) (hm : Move s s') :
    ∀ q, (s'.thread q).pc.formatted = true → s'.Formatted (s'.thread q) := by
  cases hm with
  | bget | brelse | take | post | intr | intrEnd | complete =>
    exact fun q hq => (h.formatted q hq).keep (fun _ _ => rfl) rfl rfl rfl
  | @answer p c hc hp =>
    refine fun q hq => (h.formatted q hq).keep (fun _ _ => rfl) ?_ rfl rfl
    by_cases hid : (s.thread q).idx.fst = c.id
    · rw [hid]
      change (Function.update s.info c.id { s.info c.id with status := 0 } c.id).b = _
      rw [Function.update_self]
    · exact congrArg Info.b (Function.update_of_ne hid ..)
  | rw hpc | enter hpc | alloc hpc =>
    exact h.formatted_goto rfl nofun fun q _ _ hf => hf.keep (fun _ _ => rfl) rfl rfl rfl
  | retry hpc hdesc =>
    refine h.formatted_goto rfl nofun fun q _ hq hf => hf.keep (fun d hd => ?_) rfl rfl rfl
    exact hdesc d ((h.chained.free_iff d).mpr ⟨q, Pc.chained_of_formatted hq, hd⟩)
  | @format p hpc =>
    have hp : (s.thread p).pc.chained = true := by rw [hpc]; rfl
    refine h.formatted_goto rfl (fun _ => ?_) fun q hqp hq hf => ?_
    · have hself := formatted_format (h.chained.nodup p hp)
      rwa [show (format s p).thread p = _ from Function.update_self ..] at hself
    · have hq' := Pc.chained_of_formatted hq
      refine hf.keep (fun d hd => ?_) ?_ ?_ ?_
      · have hd' := h.not_mem hqp hp hq' hd
        rw [Idx.mem_toList, not_or, not_or] at hd'
        exact (Function.update_of_ne hd'.2.2 ..).trans
          ((Function.update_of_ne hd'.2.1 ..).trans (Function.update_of_ne hd'.1 ..))
      · exact congrArg Info.b (Function.update_of_ne (h.fst_ne hqp hp hq') ..)
      · exact Function.update_of_ne (h.fst_ne hqp hp hq') ..
      · exact List.getElem?_append_left (h.req_lt hq)
  | @ring p hpc | @publish p hpc | @sleep p hpc | @wake p hpc =>
    have hp : (s.thread p).pc.formatted = true := by rw [hpc]; rfl
    have hf := h.formatted p hp
    exact h.formatted_goto rfl (fun _ => ⟨hf.fst, hf.snd, hf.thd, hf.info, hf.request⟩)
      fun q _ _ hf => hf.keep (fun _ _ => rfl) rfl rfl rfl
  | @finish p free desc hpc hdisk hfree hdesc =>
    have hp : (s.thread p).pc.chained = true := by rw [hpc]; rfl
    refine h.formatted_goto rfl nofun fun q hqp hq hf => hf.keep (fun d hd => ?_) ?_ rfl rfl
    · exact hdesc d (h.not_mem hqp hp (Pc.chained_of_formatted hq) hd)
    · exact congrArg Info.b
        (Function.update_of_ne (h.fst_ne hqp hp (Pc.chained_of_formatted hq)) ..)

end State.Sound

end Virtio

end Xv6
