import Xv6.Virtio.Invariant

/-!
# The disk request protocol

The steps keep track of the requests and of what has happened to them. `disk_protocol` draws the
conclusions for every run of the processes, the device and the interrupt handler.
-/

namespace Xv6

namespace Virtio

variable {s s' : State} {p q b d : ℕ} {c : Cell} {aq uq : List Cell}

/-! ### Requests on their way -/

/-- What the device and the interrupt handler see of the requests. -/
def State.traffic (s : State) :=
  (s.availRing, s.availIdx, s.lastAvail, s.usedRing, s.usedRingIdx, s.usedIdx, s.taken,
    s.answered, s.published, s.fetched, s.posted, s.completed, s.served)

namespace State.Tracked

/-- The requests stay where they are. -/
theorem keep (h : s.Tracked aq uq) (htraffic : s'.traffic = s.traffic)
    (hpending : ∀ q c, s'.Pending q c ↔ s.Pending q c)
    (hinfo : ∀ q c, s.Pending q c → (s'.info c.id).status = (s.info c.id).status)
    (hwritten : ∀ q, (s'.thread q).pc = .publish →
      s.availRing (s.availIdx % num) = (s'.thread q).cell)
    (hdisk : ∀ q, (s'.thread q).pc.formatted = true → (s'.thread q).pc.published = false →
      s'.disk (s'.thread q).b = true) : s'.Tracked aq uq := by
  simp only [State.traffic, Prod.mk.injEq] at htraffic
  obtain ⟨h₁, h₂, h₃, h₄, h₅, h₆, h₇, h₈, h₉, h₁₀, h₁₁, h₁₂, h₁₃⟩ := htraffic
  constructor
  · rw [h₁, h₂, h₃]
    exact h.avail
  · rw [h₄, h₅, h₆]
    exact h.used
  · rw [h₉, h₁₀]
    exact h.published
  · rw [h₁₁, h₁₂]
    exact h.posted
  · rw [h₇, h₈]
    exact h.nodup
  · rw [h₇, h₈]
    simp only [hpending]
    exact h.mem_iff
  · rw [h₈, h₁₃]
    intro c hc
    obtain ⟨q, hq⟩ := h.pending (c := c) (by
      rw [List.append_assoc]
      exact List.mem_append_right _ hc)
    rw [hinfo q c hq]
    exact h.answer c hc
  · rw [h₁, h₂]
    exact hwritten
  · exact hdisk

/-- A process moves on in its call and the requests stay where they are. -/
theorem thread (h : s.Tracked aq uq) {t : Thread}
    (hthread : s'.thread = Function.update s.thread p t) (htraffic : s'.traffic = s.traffic)
    (hself : ∀ c, t.pc.published = true ∧ s'.disk t.b = true ∧ t.cell = c ↔ s.Pending p c)
    (hother : ∀ q, q ≠ p → (s.thread q).pc.formatted = true →
      s'.disk (s.thread q).b = s.disk (s.thread q).b)
    (hinfo : ∀ q c, s.Pending q c → (s'.info c.id).status = (s.info c.id).status)
    (hpc : t.pc ≠ .publish)
    (hdisk : t.pc.formatted = true → t.pc.published = false → s'.disk t.b = true) :
    s'.Tracked aq uq := by
  refine h.keep htraffic (fun q c => ?_) hinfo ?_ ?_
  · by_cases hqp : q = p
    · have ht : s'.thread q = t := by
        rw [hthread, hqp, Function.update_self]
      rw [hqp, ← hself]
      constructor
      · intro hp
        rw [hqp] at ht
        exact ⟨ht ▸ hp.published, ht ▸ hp.disk, ht ▸ hp.cell⟩
      · intro hp
        rw [hqp] at ht
        exact ⟨ht.symm ▸ hp.1, ht.symm ▸ hp.2.1, ht.symm ▸ hp.2.2⟩
    · have ht : s'.thread q = s.thread q := by
        rw [hthread, Function.update_of_ne hqp]
      constructor
      · intro hp
        have hpub := ht ▸ hp.published
        refine ⟨hpub, ?_, ht ▸ hp.cell⟩
        rw [← hother q hqp (Pc.formatted_of_published hpub)]
        exact ht ▸ hp.disk
      · intro hp
        refine ⟨ht.symm ▸ hp.published, ?_, ht.symm ▸ hp.cell⟩
        rw [ht, hother q hqp (Pc.formatted_of_published hp.published)]
        exact hp.disk
  · rw [hthread]
    exact forall_update (P := fun _ x => x.pc = .publish →
      s.availRing (s.availIdx % num) = x.cell) (fun ht => absurd ht hpc) fun q _ => h.written q
  · rw [hthread]
    refine forall_update (P := fun _ x => x.pc.formatted = true → x.pc.published = false →
      s'.disk x.b = true) hdisk fun q hqp hf hn => ?_
    rw [hother q hqp hf]
    exact h.disk q hf hn

/-- A process that is not waiting for a request, before and after the move. -/
theorem idle (h : s.Tracked aq uq) {t : Thread}
    (hthread : s'.thread = Function.update s.thread p t) (htraffic : s'.traffic = s.traffic)
    (hinfo : s'.info = s.info) (hdisk : s'.disk = s.disk)
    (hbefore : (s.thread p).pc.published = false) (hafter : t.pc.formatted = false) :
    s'.Tracked aq uq := by
  refine h.thread hthread htraffic (fun c => ?_) (fun _ _ _ => by rw [hdisk])
    (fun _ _ _ => by rw [hinfo]) ?_ ?_
  · constructor
    · rintro ⟨ht, -⟩
      rw [Pc.formatted_of_published ht] at hafter
      cases hafter
    · intro hp
      rw [hp.published] at hbefore
      cases hbefore
  · intro ht
    rw [ht] at hafter
    cases hafter
  · intro ht
    rw [hafter] at ht
    cases ht

/-- A process that waits for its request, before and after the move. -/
theorem waits (h : s.Tracked aq uq) {pc : Pc}
    (hthread : s'.thread = Function.update s.thread p { s.thread p with pc })
    (htraffic : s'.traffic = s.traffic) (hinfo : s'.info = s.info) (hdisk : s'.disk = s.disk)
    (hbefore : (s.thread p).pc.published = true) (hafter : pc.published = true) :
    s'.Tracked aq uq := by
  refine h.thread hthread htraffic (fun c => ?_) (fun _ _ _ => by rw [hdisk])
    (fun _ _ _ => by rw [hinfo]) ?_ ?_
  · rw [hdisk]
    exact ⟨fun ht => ⟨hbefore, ht.2.1, ht.2.2⟩, fun hp => ⟨hafter, hp.disk, hp.cell⟩⟩
  · rintro rfl
    cases hafter
  · intro _ hn
    rw [hafter] at hn
    cases hn

end State.Tracked

/-- Another process's buffer is another one. -/
theorem State.Sound.b_ne (h : s.Sound) (hqp : q ≠ p) (hp : (s.thread p).pc.chained = true)
    (hq : (s.thread q).pc.chained = true) : (s.thread q).b ≠ (s.thread p).b :=
  fun heq => hqp (h.guarded.eq_of_b (Pc.ne_out_of_chained hq) (Pc.ne_out_of_chained hp) heq)

namespace State.Tracked

/-- A step of the device moves a request from one of the four places to another. -/
theorem mem_of_perm (h : s.Tracked aq uq) {l : List Cell}
    (hperm : l.Perm (aq ++ s.taken ++ s.answered ++ uq)) (hthread : s'.thread = s.thread)
    (hdisk : s'.disk = s.disk) (c : Cell) : c ∈ l ↔ ∃ p, s'.Pending p c := by
  rw [hperm.mem_iff, h.mem_iff]
  refine exists_congr fun q => ⟨fun hq => ?_, fun hq => ?_⟩
  · refine ⟨?_, ?_, ?_⟩
    · rw [hthread]
      exact hq.published
    · rw [hthread, hdisk]
      exact hq.disk
    · rw [hthread]
      exact hq.cell
  · refine ⟨?_, ?_, ?_⟩
    · rw [← hthread]
      exact hq.published
    · rw [← hthread, ← hdisk]
      exact hq.disk
    · rw [← hthread]
      exact hq.cell

/-- An answered request has its status. -/
theorem answer_of_mem (h : s.Tracked aq uq) (served : List (ℕ × BlkReq × Addr))
    (hc : c ∈ s.answered ++ uq) : (s.info c.id).status = 0 ∧
    c.req ∈ (s.served ++ served).map Prod.fst := by
  obtain ⟨hstatus, hreq⟩ := h.answer c hc
  rw [List.map_append]
  exact ⟨hstatus, List.mem_append_left _ hreq⟩

/-- The device takes an entry. -/
theorem take (h : s.Tracked aq uq) (hne : s.lastAvail ≠ s.availIdx) :
    ∃ aq', State.Tracked { s with
      lastAvail := (s.lastAvail + 1) % uint16
      taken := s.taken ++ [s.availRing (s.lastAvail % num)]
      fetched := s.fetched ++ [s.availRing (s.lastAvail % num)] } aq' uq := by
  cases haq : aq with
  | nil => exact absurd ((h.avail.eq_nil_iff (by decide)).mpr haq) hne
  | cons c aq' =>
    subst haq
    rw [h.avail.head]
    have hperm : (aq' ++ (s.taken ++ [c]) ++ s.answered ++ uq).Perm
        (c :: aq' ++ s.taken ++ s.answered ++ uq) := by
      rw [List.perm_iff_count]
      intro x
      simp only [List.count_append, List.count_cons, List.count_nil]
      omega
    refine ⟨aq', h.avail.pop (by decide), h.used, ?_, h.posted, hperm.nodup_iff.mpr h.nodup,
      h.mem_of_perm hperm rfl rfl, h.answer, h.written, h.disk⟩
    rw [List.append_assoc]
    exact h.published

/-- The device answers a request. -/
theorem answers (h : s.Tracked aq uq) {op : BlkReq} {a : Addr} (hc : c ∈ s.taken) :
    State.Tracked { s with
      info := Function.update s.info c.id { s.info c.id with status := 0 }
      taken := s.taken.erase c
      answered := c :: s.answered
      served := s.served ++ [(c.req, op, a)] } aq uq := by
  have hperm : (aq ++ s.taken.erase c ++ (c :: s.answered) ++ uq).Perm
      (aq ++ s.taken ++ s.answered ++ uq) := by
    rw [List.perm_iff_count]
    intro x
    have hcount := (List.perm_cons_erase hc).count_eq x
    rw [List.count_cons] at hcount
    simp only [List.count_append, List.count_cons, hcount]
    omega
  refine ⟨h.avail, h.used, h.published, h.posted, hperm.nodup_iff.mpr h.nodup,
    h.mem_of_perm hperm rfl rfl, fun c' hc' => ?_, h.written, h.disk⟩
  rcases List.mem_cons.mp hc' with rfl | hc'
  · refine ⟨?_, ?_⟩
    · change (Function.update s.info c'.id _ c'.id).status = 0
      rw [Function.update_self]
    · simp
  · obtain ⟨hstatus, hreq⟩ := h.answer_of_mem [(c.req, op, a)] hc'
    refine ⟨?_, hreq⟩
    change (Function.update s.info c.id _ c'.id).status = 0
    by_cases hid : c'.id = c.id
    · rw [hid, Function.update_self]
    · rw [Function.update_of_ne hid, hstatus]

/-- The device posts an answered request. -/
theorem post (h : s.Tracked aq uq) (hch : s.Chained) (hc : c ∈ s.answered) :
    State.Tracked { s with
      answered := s.answered.erase c
      usedRing := Function.update s.usedRing (s.usedRingIdx % num) c
      usedRingIdx := (s.usedRingIdx + 1) % uint16
      posted := s.posted ++ [c] } aq (uq ++ [c]) := by
  have hperm : (aq ++ s.taken ++ s.answered.erase c ++ (uq ++ [c])).Perm
      (aq ++ s.taken ++ s.answered ++ uq) := by
    rw [List.perm_iff_count]
    intro x
    have hcount := (List.perm_cons_erase hc).count_eq x
    rw [List.count_cons] at hcount
    simp only [List.count_append, List.count_cons, List.count_nil, hcount]
    omega
  refine ⟨h.avail, h.used.push (by decide) (h.used_lt hch hc), h.published, ?_,
    hperm.nodup_iff.mpr h.nodup, h.mem_of_perm hperm rfl rfl, fun c' hc' => ?_, h.written, h.disk⟩
  · rw [← List.append_assoc]
    exact congrArg (· ++ [c]) h.posted
  · refine h.answer c' ?_
    rw [List.mem_append, List.mem_append, List.mem_singleton] at hc'
    rw [List.mem_append]
    rcases hc' with hc' | hc' | rfl
    · exact Or.inl (List.mem_of_mem_erase hc')
    · exact Or.inr hc'
    · exact Or.inl hc

/-- `virtio_disk_intr` reads an entry of the used ring and completes its request. -/
theorem complete (h : s.Tracked aq uq) (hs : s.Sound) (hne : s.usedIdx ≠ s.usedRingIdx)
    (hc : s.usedRing (s.usedIdx % num) = c) (hp : s.Pending p c) :
    ∃ uq', State.Tracked { s with
      disk := Function.update s.disk (s.thread p).b false
      usedIdx := (s.usedIdx + 1) % uint16
      completed := s.completed ++ [(c, (s.thread p).b)] } aq uq' := by
  cases huq : uq with
  | nil => exact absurd ((h.used.eq_nil_iff (by decide)).mpr huq) hne
  | cons c' uq' =>
    subst huq
    obtain rfl : c' = c := h.used.head.symm.trans hc
    have hnodup : (c' :: (aq ++ s.taken ++ s.answered ++ uq')).Nodup :=
      List.perm_middle.nodup_iff.mp h.nodup
    -- the other processes' buffers are left alone
    have hdisk : ∀ q, q ≠ p → (s.thread q).pc.formatted = true →
        Function.update s.disk (s.thread p).b false (s.thread q).b = s.disk (s.thread q).b :=
      fun q hqp hq => Function.update_of_ne (hs.b_ne hqp hp.chained (Pc.chained_of_formatted hq)) ..
    refine ⟨uq', h.avail, h.used.pop (by decide), h.published, ?_, (List.nodup_cons.mp hnodup).2,
      fun x => ?_, fun x hx => h.answer x ?_, h.written, fun q hq hn => ?_⟩
    · rw [List.map_append, List.append_assoc]
      exact h.posted
    · have hx := h.mem_iff x
      rw [List.perm_middle.mem_iff, List.mem_cons] at hx
      constructor
      · intro hmem
        obtain ⟨q, hq⟩ := hx.mp (Or.inr hmem)
        have hqp : q ≠ p := by
          rintro rfl
          rw [← hq.cell, hp.cell] at hmem
          exact (List.nodup_cons.mp hnodup).1 hmem
        exact ⟨q, hq.published,
          (hdisk q hqp (Pc.formatted_of_published hq.published)).trans hq.disk, hq.cell⟩
      · rintro ⟨q, hq⟩
        have hqp : q ≠ p := by
          rintro rfl
          have hfalse : Function.update s.disk (s.thread q).b false (s.thread q).b = true := hq.disk
          rw [Function.update_self] at hfalse
          cases hfalse
        have hqs : s.Pending q x := ⟨hq.published,
          (hdisk q hqp (Pc.formatted_of_published hq.published)).symm.trans hq.disk, hq.cell⟩
        refine (hx.mpr ⟨q, hqs⟩).resolve_left ?_
        rintro rfl
        exact hqp (hs.chained.eq_of_fst hqs.chained hp.chained
          (congrArg Cell.id (hqs.cell.trans hp.cell.symm)))
    · rw [List.mem_append] at hx ⊢
      exact hx.imp_right (List.mem_cons_of_mem _)
    · have hqp : q ≠ p := by
        rintro rfl
        cases hn.symm.trans hp.published
      exact (hdisk q hqp hq).trans (h.disk q hq hn)

/-- A process whose request is not published is not waiting for one. -/
theorem not_mem (h : s.Tracked aq uq) (hch : s.Chained) (hp : (s.thread p).pc.chained = true)
    (hn : (s.thread p).pc.published = false) :
    (s.thread p).cell ∉ aq ++ s.taken ++ s.answered ++ uq := by
  intro hmem
  obtain ⟨q, hq⟩ := h.pending hmem
  have heq := hch.eq_of_fst hq.chained hp (congrArg Cell.id hq.cell)
  rw [← heq, hq.published] at hn
  cases hn

/-- The driver writes an entry of the available ring. -/
theorem ring (h : s.Tracked aq uq) (hs : s.Sound) (hpc : (s.thread p).pc = .ring) :
    State.Tracked ({ s with
      availRing := Function.update s.availRing (s.availIdx % num) (s.thread p).cell }.goto p
        .publish) aq uq := by
  have hp : (s.thread p).pc.chained = true := by rw [hpc]; rfl
  have hn : (s.thread p).pc.published = false := by rw [hpc]; rfl
  have hlocked : (s.thread p).pc.locked = true := by rw [hpc]; rfl
  refine ⟨h.avail.write (by decide) (h.avail_lt hs.chained hp hn), h.used, h.published, h.posted,
    h.nodup, fun c => (h.mem_iff c).trans (exists_congr fun q => ?_), h.answer, ?_, ?_⟩
  · by_cases hqp : q = p
    · subst hqp
      constructor
      · intro hq
        cases hn.symm.trans hq.published
      · intro hq
        have hpub := hq.published
        rw [thread_goto_self] at hpub
        cases hpub
    · constructor
      · rintro ⟨h₁, h₂, h₃⟩
        refine ⟨?_, ?_, ?_⟩ <;> rw [thread_goto_of_ne hqp] <;> assumption
      · rintro ⟨h₁, h₂, h₃⟩
        rw [thread_goto_of_ne hqp] at h₁ h₂ h₃
        exact ⟨h₁, h₂, h₃⟩
  · refine forall_update (P := fun _ x => x.pc = .publish → Function.update s.availRing
      (s.availIdx % num) (s.thread p).cell (s.availIdx % num) = x.cell) ?_ fun q hqp hq => ?_
    · exact fun _ => Function.update_self ..
    · exact absurd (hs.guarded.eq_of_locked (by rw [hq]; rfl) hlocked) hqp
  · exact forall_update (P := fun _ x => x.pc.formatted = true → x.pc.published = false →
      s.disk x.b = true) (fun _ _ => h.disk p (by rw [hpc]; rfl) hn) fun q _ => h.disk q

/-- The driver moves the index of the available ring past the entry. -/
theorem publish (h : s.Tracked aq uq) (hs : s.Sound) (hpc : (s.thread p).pc = .publish) :
    State.Tracked ({ s with
      availIdx := (s.availIdx + 1) % uint16
      published := s.published ++ [(s.thread p).cell] }.goto p .wait)
      (aq ++ [(s.thread p).cell]) uq := by
  have hp : (s.thread p).pc.chained = true := by rw [hpc]; rfl
  have hn : (s.thread p).pc.published = false := by rw [hpc]; rfl
  have hlocked : (s.thread p).pc.locked = true := by rw [hpc]; rfl
  have hdisk := h.disk p (by rw [hpc]; rfl) hn
  have hperm : (aq ++ [(s.thread p).cell] ++ s.taken ++ s.answered ++ uq).Perm
      ((s.thread p).cell :: (aq ++ s.taken ++ s.answered ++ uq)) := by
    rw [List.perm_iff_count]
    intro x
    simp only [List.count_append, List.count_cons, List.count_nil]
    omega
  refine ⟨h.avail.advance (by decide) (h.avail_lt hs.chained hp hn) (h.written p hpc), h.used, ?_,
    h.posted, hperm.nodup_iff.mpr (List.nodup_cons.mpr ⟨h.not_mem hs.chained hp hn, h.nodup⟩),
    fun c => ?_, h.answer, ?_, ?_⟩
  · rw [← List.append_assoc]
    exact congrArg (· ++ [(s.thread p).cell]) h.published
  · refine hperm.mem_iff.trans ?_
    rw [List.mem_cons, h.mem_iff]
    constructor
    · rintro (rfl | ⟨q, hq⟩)
      · refine ⟨p, ?_, ?_, ?_⟩ <;> rw [thread_goto_self]
        · rfl
        · exact hdisk
        · rfl
      · have hqp : q ≠ p := by
          rintro rfl
          cases hn.symm.trans hq.published
        refine ⟨q, ?_, ?_, ?_⟩ <;> rw [thread_goto_of_ne hqp]
        · exact hq.published
        · exact hq.disk
        · exact hq.cell
    · rintro ⟨q, h₁, h₂, h₃⟩
      by_cases hqp : q = p
      · rw [hqp, thread_goto_self] at h₃
        exact Or.inl h₃.symm
      · rw [thread_goto_of_ne hqp] at h₁ h₂ h₃
        exact Or.inr ⟨q, h₁, h₂, h₃⟩
  · refine forall_update (P := fun _ x => x.pc = .publish →
      s.availRing ((s.availIdx + 1) % uint16 % num) = x.cell) nofun fun q hqp hq => ?_
    exact absurd (hs.guarded.eq_of_locked (by rw [hq]; rfl) hlocked) hqp
  · exact forall_update (P := fun _ x => x.pc.formatted = true → x.pc.published = false →
      s.disk x.b = true) nofun fun q _ => h.disk q

theorem move (h : s.Tracked aq uq) (hs : s.Sound) (hm : Move s s') :
    ∃ aq' uq', s'.Tracked aq' uq' := by
  cases hm with
  | bget | brelse | intr | intrEnd =>
    exact ⟨aq, uq, h.avail, h.used, h.published, h.posted, h.nodup,
      h.mem_of_perm (List.Perm.refl _) rfl rfl, h.answer, h.written, h.disk⟩
  | rw hpc | enter hpc | retry hpc | alloc hpc =>
    exact ⟨aq, uq, h.idle rfl rfl rfl rfl (by rw [hpc]; rfl) rfl⟩
  | @format p hpc =>
    have hp : (s.thread p).pc.chained = true := by rw [hpc]; rfl
    refine ⟨aq, uq, h.thread rfl rfl (fun c => ?_) (fun q hqp hq => ?_) (fun q c hq => ?_) nofun
      fun _ _ => Function.update_self ..⟩
    · constructor
      · rintro ⟨hpub, -⟩
        cases hpub
      · intro hpend
        have hpub := hpend.published
        rw [hpc] at hpub
        cases hpub
    · exact Function.update_of_ne (hs.b_ne hqp hp (Pc.chained_of_formatted hq)) ..
    · have hqp : q ≠ p := by
        rintro rfl
        have hpub := hq.published
        rw [hpc] at hpub
        cases hpub
      have hid : c.id ≠ (s.thread p).idx.fst := by
        rw [← hq.cell]
        exact hs.fst_ne hqp hp hq.chained
      exact congrArg Info.status (Function.update_of_ne hid ..)
  | ring hpc => exact ⟨aq, uq, h.ring hs hpc⟩
  | publish hpc => exact ⟨_, uq, h.publish hs hpc⟩
  | sleep hpc | wake hpc => exact ⟨aq, uq, h.waits rfl rfl rfl rfl (by rw [hpc]; rfl) rfl⟩
  | @finish p free desc hpc hdisk hfree hdesc =>
    refine ⟨aq, uq, h.thread rfl rfl (fun c => ?_) (fun _ _ _ => rfl) (fun q c hq => ?_) nofun
      nofun⟩
    · constructor
      · rintro ⟨hpub, -⟩
        cases hpub
      · intro hpend
        cases hdisk.symm.trans hpend.disk
    · by_cases hid : c.id = (s.thread p).idx.fst
      · rw [hid]
        change (Function.update s.info (s.thread p).idx.fst
          { s.info (s.thread p).idx.fst with b := none } (s.thread p).idx.fst).status = _
        rw [Function.update_self]
      · exact congrArg Info.status (Function.update_of_ne hid ..)
  | take hne =>
    obtain ⟨aq', h'⟩ := h.take hne
    exact ⟨aq', uq, h'⟩
  | answer hc hp => exact ⟨aq, uq, h.answers hc⟩
  | post hc => exact ⟨aq, _, h.post hs.chained hc⟩
  | complete hne hc hp =>
    obtain ⟨uq', h'⟩ := h.complete hs hne hc hp
    exact ⟨aq, uq', h'⟩

end State.Tracked

/-! ### What has happened to the requests -/

namespace State.Logged

theorem req_lt (h : s.Logged) {r : ℕ} (hr : r ∈ s.completions) : r < s.requests.length := by
  obtain ⟨x, hx, rfl⟩ := List.mem_map.mp hr
  obtain ⟨-, r, hreq, -⟩ := h.completed x hx
  exact (List.getElem?_eq_some_iff.mp hreq).1

/-- A process moves on in its call, which completes no request. -/
theorem thread (h : s.Logged) {t : Thread} (new : List Request)
    (hthread : s'.thread = Function.update s.thread p t)
    (hrequests : s'.requests = s.requests ++ new) (hcompleted : s'.completed = s.completed)
    (hserved : s'.served = s.served) (hreturned : ∀ r ∈ s'.returned, r ∈ s.completions)
    (hother : ∀ q, q ≠ p → (s.thread q).pc.formatted = true →
      s'.disk (s.thread q).b = s.disk (s.thread q).b)
    (hself : t.pc.formatted = true → (t.req ∈ s.completions ↔ s'.disk t.b = false) ∧
      ∀ q, q ≠ p → (s.thread q).pc.formatted = true → (s.thread q).req ≠ t.req) : s'.Logged := by
  have hcompletions : s'.completions = s.completions := by
    rw [completions, hcompleted]
    rfl
  have hold : ∀ {i : ℕ} {r : Request}, s.requests[i]? = some r → s'.requests[i]? = some r := by
    intro i r hr
    rw [hrequests, List.getElem?_append_left (List.getElem?_eq_some_iff.mp hr).1, hr]
  constructor
  · rw [hthread]
    intro q q' hq hq' heq
    by_cases hqp : q = p
    · by_cases hqp' : q' = p
      · rw [hqp, hqp']
      · rw [hqp, Function.update_self] at hq heq
        rw [Function.update_of_ne hqp'] at hq' heq
        exact absurd heq.symm ((hself hq).2 q' hqp' hq')
    · rw [Function.update_of_ne hqp] at hq heq
      by_cases hqp' : q' = p
      · rw [hqp', Function.update_self] at hq' heq
        exact absurd heq ((hself hq').2 q hqp hq)
      · rw [Function.update_of_ne hqp'] at hq' heq
        exact h.apart q q' hq hq' heq
  · rw [hcompletions]
    exact h.nodup
  · rw [hcompleted, hserved]
    intro x hx
    obtain ⟨hs, r, hr, hb⟩ := h.completed x hx
    exact ⟨hs, r, hold hr, hb⟩
  · rw [hthread, hcompletions]
    refine forall_update (P := fun _ x => x.pc.formatted = true →
      (x.req ∈ s.completions ↔ s'.disk x.b = false)) (fun ht => (hself ht).1) fun q hqp hq => ?_
    rw [hother q hqp hq]
    exact h.completed_iff q hq
  · rw [hcompletions]
    exact hreturned
  · rw [hserved]
    intro x hx
    obtain ⟨r, hr, hop⟩ := h.served x hx
    exact ⟨r, hold hr, hop⟩

/-- A process whose request has just been made, or was made before. -/
theorem goto (h : s.Logged) {pc : Pc}
    (hthread : s'.thread = Function.update s.thread p { s.thread p with pc })
    (hrequests : s'.requests = s.requests) (hcompleted : s'.completed = s.completed)
    (hserved : s'.served = s.served) (hreturned : s'.returned = s.returned)
    (hdisk : s'.disk = s.disk) (hp : pc.formatted = true → (s.thread p).pc.formatted = true) :
    s'.Logged := by
  refine h.thread [] hthread (by rw [hrequests, List.append_nil]) hcompleted hserved ?_
    (fun _ _ _ => by rw [hdisk]) fun ht => ⟨?_, fun q hqp hq heq => ?_⟩
  · rw [hreturned]
    exact h.returned
  · rw [hdisk]
    exact h.completed_iff p (hp ht)
  · exact hqp (h.apart q p hq (hp ht) heq)

/-- `virtio_disk_intr` completes the request that the process waits for. -/
theorem complete (h : s.Logged) (hs : s.Sound) (hreq : c.req ∈ s.served.map Prod.fst)
    (hp : s.Pending p c) {usedIdx : ℕ} : State.Logged { s with
      disk := Function.update s.disk (s.thread p).b false
      usedIdx
      completed := s.completed ++ [(c, (s.thread p).b)] } := by
  have hpf := Pc.formatted_of_published hp.published
  have hcell : (s.thread p).req = c.req := congrArg Cell.req hp.cell
  have hcompletions : State.completions { s with
      disk := Function.update s.disk (s.thread p).b false
      usedIdx
      completed := s.completed ++ [(c, (s.thread p).b)] } = s.completions ++ [c.req] :=
    List.map_append ..
  have hnew : c.req ∉ s.completions := by
    intro hmem
    rw [← hcell, h.completed_iff p hpf, hp.disk] at hmem
    cases hmem
  refine ⟨h.apart, ?_, ?_, fun q hq => ?_, ?_, h.served⟩
  · rw [hcompletions]
    exact List.nodup_append.mpr ⟨h.nodup, List.nodup_singleton _, fun a ha b hb heq =>
      hnew (List.mem_singleton.mp hb ▸ heq ▸ ha)⟩
  · intro x hx
    rcases List.mem_append.mp hx with hx | hx
    · exact h.completed x hx
    · rw [List.mem_singleton.mp hx]
      refine ⟨hreq, ⟨(s.thread p).b, s.ops (s.thread p).idx.fst⟩, ?_, rfl⟩
      rw [← hcell]
      exact (hs.formatted_of_pending hp).request
  · rw [hcompletions, List.mem_append, List.mem_singleton]
    change _ ↔ Function.update s.disk (s.thread p).b false (s.thread q).b = false
    by_cases hqp : q = p
    · subst hqp
      rw [Function.update_self]
      exact ⟨fun _ => rfl, fun _ => Or.inr hcell⟩
    · rw [Function.update_of_ne (hs.b_ne hqp hp.chained (Pc.chained_of_formatted hq)),
        ← h.completed_iff q hq]
      refine or_iff_left fun heq => hqp ?_
      exact h.apart q p hq hpf (heq.trans hcell.symm)
  · rw [hcompletions]
    exact fun r hr => List.mem_append_left _ (h.returned r hr)

/-- The device carries out the request that the process waits for. -/
theorem answers (h : s.Logged) (hs : s.Sound) (hp : s.Pending p c) {info : ℕ → Info}
    {taken answered : List Cell} : State.Logged { s with
      info, taken, answered
      served := s.served ++ [(c.req, s.ops c.id, .data (s.thread p).b)] } := by
  refine ⟨h.apart, h.nodup, fun x hx => ?_, h.completed_iff, h.returned, fun x hx => ?_⟩
  · obtain ⟨hserved, hr⟩ := h.completed x hx
    rw [List.map_append]
    exact ⟨List.mem_append_left _ hserved, hr⟩
  · rcases List.mem_append.mp hx with hx | hx
    · exact h.served x hx
    · rw [List.mem_singleton.mp hx]
      refine ⟨⟨(s.thread p).b, s.ops c.id⟩, ?_, rfl, rfl⟩
      rw [← hp.cell]
      exact (hs.formatted_of_pending hp).request

theorem move (h : s.Logged) (hs : s.Sound) (hm : Move s s') : s'.Logged := by
  cases hm with
  | bget | brelse | take | post | intr | intrEnd =>
    exact ⟨h.apart, h.nodup, h.completed, h.completed_iff, h.returned, h.served⟩
  | rw hpc | alloc hpc =>
    exact h.thread [] rfl (List.append_nil _).symm rfl rfl h.returned
      (fun _ _ _ => rfl) nofun
  | enter hpc | retry hpc => exact h.goto rfl rfl rfl rfl rfl rfl nofun
  | ring hpc | publish hpc | sleep hpc | wake hpc =>
    exact h.goto rfl rfl rfl rfl rfl rfl fun _ => by rw [hpc]; rfl
  | @format p hpc =>
    have hp : (s.thread p).pc.chained = true := by rw [hpc]; rfl
    refine h.thread _ rfl rfl rfl rfl h.returned (fun q hqp hq => ?_)
      fun _ => ⟨⟨fun hr => ?_, fun hd => ?_⟩, fun q _ hq => (hs.req_lt hq).ne⟩
    · exact Function.update_of_ne (hs.b_ne hqp hp (Pc.chained_of_formatted hq)) ..
    · exact absurd (h.req_lt hr) (lt_irrefl _)
    · have htrue : (format s p).disk (s.thread p).b = true := Function.update_self ..
      cases htrue.symm.trans hd
  | @finish p free desc hpc hdisk hfree hdesc =>
    refine h.thread [] rfl (List.append_nil _).symm rfl rfl (fun r hr => ?_)
      (fun _ _ _ => rfl) nofun
    rcases List.mem_append.mp hr with hr | hr
    · exact h.returned r hr
    · rw [List.mem_singleton.mp hr]
      exact (h.completed_iff p (by rw [hpc]; rfl)).mpr hdisk
  | answer hc hp => exact h.answers hs hp
  | @complete p c hne hc hp =>
    obtain ⟨aq, uq, ht⟩ := hs.tracked
    have hmem : c ∈ uq := by
      cases huq : uq with
      | nil => exact absurd ((ht.used.eq_nil_iff (by decide)).mpr huq) hne
      | cons c' uq' =>
        rw [huq] at ht
        rw [← hc, ht.used.head]
        exact List.mem_cons_self
    exact h.complete hs (ht.answer c (List.mem_append_right _ hmem)).2 hp

end State.Logged

/-! ### Every run -/

theorem Move.running (hm : Move s s') : s'.panicked = s.panicked := by
  cases hm <;> rfl

theorem State.Sound.move (h : s.Sound) (hm : Move s s') : s'.Sound where
  guarded := h.guarded.move hm
  chained := h.chained.move hm
  formatted := h.formatted_move hm
  tracked := by
    obtain ⟨aq, uq, ht⟩ := h.tracked
    exact ht.move h hm
  logged := h.logged.move h hm
  running := hm.running.trans h.running

theorem sound_booted (blockno : ℕ → ℕ) : (booted blockno).Sound where
  guarded := ⟨nofun, fun _ hp => absurd rfl hp⟩
  chained := ⟨nofun, fun _ _ hd => (nomatch hd.chained), fun _ => ⟨nofun, fun ⟨_, hd⟩ =>
    (nomatch hd.chained)⟩, fun _ _ _ hd => (nomatch hd.chained)⟩
  formatted := nofun
  tracked := ⟨[], [], .empty (by decide), .empty (by decide), rfl, rfl, List.nodup_nil,
    fun _ => ⟨nofun, fun ⟨_, hp⟩ => (nomatch hp.published)⟩, nofun, nofun, nofun⟩
  logged := ⟨nofun, List.nodup_nil, nofun, nofun, nofun, nofun⟩
  running := rfl

/-- The states of the runs of any number of processes, the device and the interrupt handler. -/
def Reachable (s : State) : Prop :=
  Transition.Reach (fun s => ∃ blockno, s = booted blockno) step Transition.Any s

theorem Reachable.sound (h : Reachable s) : s.Sound := by
  refine Transition.Reach.inv (I := State.Sound) h ?_ fun s e s' hI _ hs => hI.move (hI.step_move hs)
  rintro s ⟨blockno, rfl⟩
  exact sound_booted blockno

/-- What is true of the protocol at any time. -/
structure State.Orderly (s : State) : Prop where
  /-- A descriptor is free or in exactly one chain. -/
  descriptor : ∀ d < num, s.free d = true ∧ (∀ p, ¬s.Has p d) ∨
    s.free d = false ∧ ∃! p, s.Has p d
  /-- A chain is made of three descriptors. -/
  chain : ∀ p, (s.thread p).pc.chained = true →
    (s.thread p).idx.toList.Nodup ∧ ∀ d ∈ (s.thread p).idx.toList, d < num
  /-- No request is completed twice. -/
  once : s.completions.Nodup
  /-- A completion is of a request that the device has carried out, and for its buffer. -/
  own : ∀ x ∈ s.completed, x.1.req ∈ s.served.map Prod.fst ∧
    ∃ r, s.requests[x.1.req]? = some r ∧ r.b = x.2
  /-- What the device carries out is the operation of a request, on its buffer. -/
  served : ∀ x ∈ s.served, ∃ r, s.requests[x.1]? = some r ∧ x.2.1 = r.op ∧ x.2.2 = .data r.b
  /-- The buffer of a request under way is with the disk until the request is completed. -/
  disk : ∀ p, (s.thread p).pc.formatted = true →
    ((s.thread p).req ∈ s.completions ↔ s.disk (s.thread p).b = false)
  /-- A call returns when its request is completed. -/
  returned : ∀ r ∈ s.returned, r ∈ s.completions
  /-- The available ring holds the entries that were put there and that the device has not taken,
  in their order. -/
  avail : s.published =
    s.fetched ++ Fifo.contents num uint16 s.availRing s.lastAvail s.availIdx
  /-- The used ring holds the entries that the device has posted and that are not completed. -/
  used : s.posted = s.completed.map Prod.fst ++
    Fifo.contents num uint16 s.usedRing s.usedIdx s.usedRingIdx
  /-- Neither `free_desc` nor `virtio_disk_intr` has panicked. -/
  running : s.panicked = false

/-- In every run the descriptors are accounted for, each request is completed once and by its own
completion, no ring entry is overwritten before it is read, and nothing panics. -/
theorem disk_protocol (h : Reachable s) : s.Orderly := by
  have hs := h.sound
  obtain ⟨aq, uq, ht⟩ := hs.tracked
  constructor
  · intro d _
    cases hfree : s.free d with
    | false =>
      obtain ⟨p, hp⟩ := (hs.chained.free_iff d).mp hfree
      exact Or.inr ⟨rfl, p, hp, fun q hq => hs.chained.apart q p d hq hp⟩
    | true =>
      refine Or.inl ⟨rfl, fun p hp => ?_⟩
      cases hfree.symm.trans ((hs.chained.free_iff d).mpr ⟨p, hp⟩)
  · exact fun p hp => ⟨hs.chained.nodup p hp, fun d hd => hs.chained.lt p d ⟨hp, hd⟩⟩
  · exact hs.logged.nodup
  · exact hs.logged.completed
  · exact hs.logged.served
  · exact hs.logged.completed_iff
  · exact hs.logged.returned
  · rw [ht.avail.contents_eq (by decide)]
    exact ht.published
  · rw [ht.used.contents_eq (by decide)]
    exact ht.posted
  · exact hs.running

/-- Three processes ask for three blocks, and the third has to wait for descriptors. The device
answers the second request first, and one interrupt completes both. -/
def threeCalls : List Event :=
  [.bget 0 0 7, .bget 1 1 8, .bget 2 2 9, .rw 0 0 false, .rw 1 1 true, .rw 2 2 false,
    .turn 0, .turn 0, .turn 0, .turn 0, .turn 0, .turn 0,
    .turn 1, .turn 1, .turn 1, .turn 1, .take, .turn 1, .turn 1,
    .turn 2, .turn 2, .take, .answer ⟨3, 1⟩, .post ⟨3, 1⟩, .intr, .answer ⟨0, 0⟩, .intrTurn,
    .post ⟨0, 0⟩, .intrTurn, .intrTurn, .turn 1, .turn 1, .turn 2, .turn 2, .turn 2]

theorem threeCalls_runs : (Transition.runAll Transition.Any step (booted fun _ => 0)
    threeCalls).isSome = true := by
  decide +kernel

/-- The second request has returned, the first is completed, and the third is formatted. -/
def twoDone : State :=
  (Transition.runAll Transition.Any step (booted fun _ => 0) threeCalls).get threeCalls_runs

theorem twoDone_reachable : Reachable twoDone := by
  have hstart : Reachable (booted fun _ => 0) := .start ⟨_, rfl⟩
  exact hstart.runAll_get threeCalls_runs

theorem disk_protocol_twoDone :
    twoDone.returned = [1] ∧ twoDone.completions = [1, 0] ∧ twoDone.Orderly := by
  have hfacts : twoDone.returned = [1] ∧ twoDone.completions = [1, 0] := by decide +kernel
  exact ⟨hfacts.1, hfacts.2, disk_protocol twoDone_reachable⟩

end Virtio

end Xv6
