import Mathlib.Data.Finset.Card
import Xv6.Storage.Bio

/-!
# The buffer cache is sound

What every sequence of actions on the cache keeps (`Bio.Sound`): the list runs through all the
buffers in both directions, a block has at most one of them, a sleep lock has at most one
holder, and a reference count is the number of pointers and pins. So `bget` never takes a
buffer that someone uses, and it finds one exactly as long as fewer than `NBUF` different
blocks are pointed to or pinned (`Bio.Sound.bget_isSome`).
-/

namespace Xv6

namespace Storage

open Linked

/-- What every sequence of actions keeps. -/
structure Bio.Sound (s : Bio) : Prop where
  ring : ∃ l, Ring s.cache.links nbuf l ∧ l.Perm (List.range nbuf)
  uniq : ∀ i < nbuf, ∀ j < nbuf, ∀ blk, s.cache.Caches i blk → s.cache.Caches j blk → i = j
  refs : ∀ r ∈ s.refs, r.buf < nbuf ∧ s.cache.Caches r.buf r.blk
  pins : ∀ blk ∈ s.pins, ∃ i < nbuf, s.cache.Caches i blk ∧ (s.cache.buf i).valid
  refcnt : ∀ i < nbuf, (s.cache.buf i).refcnt =
    s.refs.countP (fun r => r.buf == i) + s.pins.countP (fun blk => s.cache.Caches i blk)
  holder : ∀ i, s.refs.countP (fun r => r.buf == i && r.phase == .holding) ≤ 1
  valid : ∀ r ∈ s.refs, r.phase = .holding → (s.cache.buf r.buf).valid

namespace Bio.Sound

variable {s s' : Bio} {p blk b : ℕ} {r : Ref}

/-- The searches of `bget` go through all the buffers. -/
theorem lookup_some (h : s.Sound) (hl : s.cache.lookup rootdev blk = some b) :
    b < nbuf ∧ s.cache.Caches b blk := by
  obtain ⟨l, hring, hperm⟩ := h.ring
  rw [Cache.lookup, hring.search_next _ (by simp [hperm.length_eq])] at hl
  have hp := List.find?_some hl
  simp only [Bool.and_eq_true, beq_iff_eq] at hp
  exact ⟨List.mem_range.mp (hperm.mem_iff.mp (List.mem_of_find?_eq_some hl)), hp⟩

theorem lookup_none (h : s.Sound) (hl : s.cache.lookup rootdev blk = none) :
    ∀ i < nbuf, ¬ s.cache.Caches i blk := by
  obtain ⟨l, hring, hperm⟩ := h.ring
  rw [Cache.lookup, hring.search_next _ (by simp [hperm.length_eq]), List.find?_eq_none] at hl
  intro i hi hc
  have hmem : i ∈ l := hperm.mem_iff.mpr (List.mem_range.mpr hi)
  exact hl i hmem (by simp [hc.1, hc.2])

theorem unused_some (h : s.Sound) (hl : s.cache.unused = some b) :
    b < nbuf ∧ (s.cache.buf b).refcnt = 0 := by
  obtain ⟨l, hring, hperm⟩ := h.ring
  rw [Cache.unused, hring.search_prev _ (by simp [hperm.length_eq])] at hl
  have hp := List.find?_some hl
  have hmem := List.mem_reverse.mp (List.mem_of_find?_eq_some hl)
  exact ⟨List.mem_range.mp (hperm.mem_iff.mp hmem), by simpa using hp⟩

theorem unused_none (h : s.Sound) : s.cache.unused = none ↔
    ∀ i < nbuf, (s.cache.buf i).refcnt ≠ 0 := by
  obtain ⟨l, hring, hperm⟩ := h.ring
  rw [Cache.unused, hring.search_prev _ (by simp [hperm.length_eq]), List.find?_eq_none]
  simp only [List.mem_reverse, hperm.mem_iff, List.mem_range, beq_iff_eq]

/-- The holder of a buffer is the only one. -/
theorem holder_eq (h : s.Sound) {r' : Ref} (hr : r ∈ s.refs) (hr' : r' ∈ s.refs)
    (hh : r.phase = .holding) (hh' : r'.phase = .holding) (hb : r.blk = r'.blk) : r = r' := by
  by_contra hne
  have hbuf : r.buf = r'.buf := by
    obtain ⟨hlt, hc⟩ := h.refs r hr
    obtain ⟨hlt', hc'⟩ := h.refs r' hr'
    exact h.uniq _ hlt _ hlt' _ hc (hb ▸ hc')
  have hmem : r' ∈ s.refs.erase r := (List.mem_erase_of_ne (Ne.symm hne)).mpr hr'
  have hpos : 0 < (s.refs.erase r).countP fun x => x.buf == r.buf && x.phase == .holding :=
    List.countP_pos_iff.mpr ⟨r', hmem, by simp [hbuf, hh']⟩
  have hsum := countP_take_out hr fun x => x.buf == r.buf && x.phase == .holding
  have hle := h.holder r.buf
  simp only [hh, beq_self_eq_true, Bool.and_self, if_true] at hsum
  omega

/-- A buffer without references has no pointers and no pin. -/
theorem unreferenced (h : s.Sound) (hb : b < nbuf) (hz : (s.cache.buf b).refcnt = 0) :
    (∀ r ∈ s.refs, r.buf ≠ b) ∧ ∀ blk ∈ s.pins, ¬ s.cache.Caches b blk := by
  have hcnt := h.refcnt b hb
  rw [hz] at hcnt
  have hrefs : s.refs.countP (fun r => r.buf == b) = 0 := by omega
  have hpins : s.pins.countP (fun blk => s.cache.Caches b blk) = 0 := by omega
  rw [List.countP_eq_zero] at hrefs hpins
  exact ⟨fun r hr => by simpa using hrefs r hr, fun k hk => by simpa using hpins k hk⟩

/-- The fields of soundness when no buffer changes its block. -/
theorem keep (h : s.Sound) (hring : ∃ l, Ring s'.cache.links nbuf l ∧ l.Perm (List.range nbuf))
    (hid : ∀ i, (s'.cache.buf i).dev = (s.cache.buf i).dev ∧
      (s'.cache.buf i).blockno = (s.cache.buf i).blockno)
    (hval : ∀ i, (s.cache.buf i).valid → (s'.cache.buf i).valid)
    (hrefs : ∀ r ∈ s'.refs, r.buf < nbuf ∧ s.cache.Caches r.buf r.blk ∧
      (r.phase = .holding → (s'.cache.buf r.buf).valid))
    (hpins : ∀ blk ∈ s'.pins, ∃ i < nbuf, s.cache.Caches i blk ∧ (s.cache.buf i).valid)
    (hcnt : ∀ i < nbuf, (s'.cache.buf i).refcnt = s'.refs.countP (fun r => r.buf == i) +
      s'.pins.countP (fun blk => s.cache.Caches i blk))
    (hhold : ∀ i, s'.refs.countP (fun r => r.buf == i && r.phase == .holding) ≤ 1) :
    s'.Sound := by
  have hc : ∀ i blk, s'.cache.Caches i blk ↔ s.cache.Caches i blk := fun i blk => by
    rw [Cache.Caches, Cache.Caches, (hid i).1, (hid i).2]
  refine ⟨hring, fun i hi j hj blk => ?_, fun r hr => ?_, fun blk hblk => ?_, fun i hi => ?_, hhold,
    fun r hr => (hrefs r hr).2.2⟩
  · rw [hc, hc]
    exact h.uniq i hi j hj blk
  · exact ⟨(hrefs r hr).1, (hc _ _).mpr (hrefs r hr).2.1⟩
  · obtain ⟨i, hi, hci, hv⟩ := hpins blk hblk
    exact ⟨i, hi, (hc _ _).mpr hci, hval i hv⟩
  · rw [hcnt i hi]
    simp only [hc]

/-- A new pointer to a cached block. -/
theorem hit (h : s.Sound) (hb : b < nbuf) (hc : s.cache.Caches b blk) :
    Sound { s with
      cache := s.cache.setBuf b { s.cache.buf b with refcnt := (s.cache.buf b).refcnt + 1 }
      refs := ⟨p, blk, b, .waiting⟩ :: s.refs } := by
  refine h.keep h.ring (fun i => ?_) (fun i hv => ?_) (fun r hr => ?_) h.pins (fun i hi => ?_)
    fun i => ?_
  · by_cases hib : i = b <;> simp [hib]
  · by_cases hib : i = b
    · subst hib
      simpa using hv
    · simpa [hib] using hv
  · rcases List.mem_cons.mp hr with rfl | hr
    · exact ⟨hb, hc, nofun⟩
    · refine ⟨(h.refs r hr).1, (h.refs r hr).2, fun hh => ?_⟩
      have hv := h.valid r hr hh
      by_cases hrb : r.buf = b
      · simpa [hrb] using hrb ▸ hv
      · simpa [hrb] using hv
  · have hcnt := h.refcnt i hi
    by_cases hib : i = b
    · subst hib
      simp only [Cache.setBuf_buf, if_true, List.countP_cons, beq_self_eq_true]
      omega
    · simp only [Cache.setBuf_buf, if_neg hib, List.countP_cons, beq_iff_eq, Ne.symm hib, if_false]
      omega
  · simpa [List.countP_cons] using h.holder i

/-- An unreferenced buffer takes over a block that is not cached. -/
theorem recycle (h : s.Sound) (hb : b < nbuf) (hz : (s.cache.buf b).refcnt = 0)
    (hnone : ∀ i < nbuf, ¬ s.cache.Caches i blk) :
    Sound { s with
      cache := s.cache.setBuf b
        { s.cache.buf b with dev := rootdev, blockno := blk, valid := false, refcnt := 1 }
      refs := ⟨p, blk, b, .waiting⟩ :: s.refs } := by
  obtain ⟨hnr, hnp⟩ := h.unreferenced hb hz
  have hpb : blk ∉ s.pins := fun hmem => by
    obtain ⟨i, hi, hc, -⟩ := h.pins blk hmem
    exact hnone i hi hc
  have hother : ∀ i k, i ≠ b → ((s.cache.setBuf b { s.cache.buf b with
      dev := rootdev, blockno := blk, valid := false, refcnt := 1 }).Caches i k ↔
      s.cache.Caches i k) := fun i k hib => by simp [Cache.Caches, hib]
  have hself : ∀ k, (s.cache.setBuf b { s.cache.buf b with
      dev := rootdev, blockno := blk, valid := false, refcnt := 1 }).Caches b k ↔ blk = k :=
    fun k => by simp [Cache.Caches]
  refine ⟨h.ring, fun i hi j hj k hci hcj => ?_, fun r hr => ?_, fun k hk => ?_, fun i hi => ?_,
    fun i => ?_, fun r hr hh => ?_⟩
  · by_cases hib : i = b <;> by_cases hjb : j = b
    · rw [hib, hjb]
    · subst hib
      rw [hself] at hci
      rw [hother j k hjb] at hcj
      exact absurd (hci ▸ hcj) (hnone j hj)
    · subst hjb
      rw [hself] at hcj
      rw [hother i k hib] at hci
      exact absurd (hcj ▸ hci) (hnone i hi)
    · exact h.uniq i hi j hj k ((hother i k hib).mp hci) ((hother j k hjb).mp hcj)
  · rcases List.mem_cons.mp hr with rfl | hr
    · exact ⟨hb, (hself blk).mpr rfl⟩
    · exact ⟨(h.refs r hr).1, (hother _ _ (hnr r hr)).mpr (h.refs r hr).2⟩
  · obtain ⟨i, hi, hc, hv⟩ := h.pins k hk
    have hib : i ≠ b := by
      rintro rfl
      exact hnp k hk hc
    exact ⟨i, hi, (hother i k hib).mpr hc, by simpa [hib] using hv⟩
  · by_cases hib : i = b
    · subst hib
      have hrefs : s.refs.countP (fun r => r.buf == i) = 0 :=
        List.countP_eq_zero.mpr fun r hr => by simpa using hnr r hr
      have hpins : s.pins.countP (fun k => decide (blk = k)) = 0 :=
        List.countP_eq_zero.mpr fun k hk => by simpa using fun heq : blk = k => hpb (heq ▸ hk)
      simp only [Cache.setBuf_buf, if_true, List.countP_cons, beq_self_eq_true, hself, hrefs, hpins]
    · simp only [Cache.setBuf_buf, if_neg hib, List.countP_cons, beq_iff_eq, Ne.symm hib, if_false,
        hother i _ hib]
      exact h.refcnt i hi
  · simpa [List.countP_cons] using h.holder i
  · rcases List.mem_cons.mp hr with rfl | hr
    · cases hh
    · simpa [hnr r hr] using h.valid r hr hh

theorem bget (h : s.Sound) (ha : s.bget p blk = some s') : s'.Sound := by
  simp only [Bio.bget, Cache.bget, Option.map_eq_some_iff] at ha
  obtain ⟨⟨c, b⟩, hcb, rfl⟩ := ha
  split at hcb
  · rename_i b' hl
    cases hcb
    obtain ⟨hb, hc⟩ := h.lookup_some hl
    exact h.hit hb hc
  · rename_i hl
    split at hcb
    · rename_i b' hu
      cases hcb
      obtain ⟨hb, hz⟩ := h.unused_some hu
      exact h.recycle hb hz (h.lookup_none hl)
    · cases hcb

/-- Counting pointers when one of them changes its phase. -/
theorem countP_setPhase (hr : r ∈ s.refs) (phase : Phase) (i : ℕ) :
    (s.setPhase r phase).refs.countP (fun x => x.buf == i) = s.refs.countP fun x => x.buf == i := by
  rw [← countP_take_out hr, Bio.setPhase, List.countP_cons]

/-- A pointer changes its phase and becomes no second holder; the buffers keep their blocks. -/
theorem setPhase (h : s.Sound) (hr : r ∈ s.refs) {phase : Phase} {c : Cache}
    (hlinks : c.links = s.cache.links)
    (hid : ∀ i, (c.buf i).dev = (s.cache.buf i).dev ∧
      (c.buf i).blockno = (s.cache.buf i).blockno ∧ (c.buf i).refcnt = (s.cache.buf i).refcnt)
    (hval : ∀ i, (s.cache.buf i).valid → (c.buf i).valid)
    (hhold : phase = .holding → (∀ x ∈ s.refs, x.buf = r.buf → x.phase ≠ .holding) ∧
      (c.buf r.buf).valid) :
    Sound { s.setPhase r phase with cache := c } := by
  refine h.keep ?_ (fun i => ⟨(hid i).1, (hid i).2.1⟩) hval (fun x hx => ?_) h.pins (fun i hi => ?_)
    fun i => ?_
  · rw [hlinks]
    exact h.ring
  · rcases List.mem_cons.mp hx with rfl | hx
    · exact ⟨(h.refs r hr).1, (h.refs r hr).2, fun hh => (hhold hh).2⟩
    · have hx := List.mem_of_mem_erase hx
      exact ⟨(h.refs x hx).1, (h.refs x hx).2, fun hh => hval _ (h.valid x hx hh)⟩
  · exact (hid i).2.2.trans ((h.refcnt i hi).trans (by rw [← countP_setPhase hr phase i]; rfl))
  · have hsum := countP_take_out hr fun x => x.buf == i && x.phase == .holding
    have hle := h.holder i
    simp only [Bio.setPhase, List.countP_cons]
    by_cases hh : phase = .holding ∧ r.buf = i
    · obtain ⟨rfl, rfl⟩ := hh
      have hz : s.refs.countP (fun x => x.buf == r.buf && x.phase == .holding) = 0 :=
        List.countP_eq_zero.mpr fun x hx => by simpa using (hhold rfl).1 x hx
      split <;> omega
    · have hfalse : (r.buf == i && phase == .holding) = false := by
        simpa using fun hb hp => hh ⟨hp, hb⟩
      rw [hfalse]
      simp only [Bool.false_eq_true, if_false]
      omega

theorem lock (h : s.Sound) (ha : s.lock p blk = some s') : s'.Sound := by
  simp only [Bio.lock, Option.bind_eq_bind, Option.bind_eq_some_iff] at ha
  obtain ⟨r, hr, _, hg, hs⟩ := ha
  cases hs
  have hfree := Bio.locked_eq_false (by simpa using hg)
  refine h.setPhase (Bio.ref_eq_some hr).1 (Cache.load_links _ _ _) (fun i => ?_) (fun i hv => ?_)
    fun _ => ⟨hfree, ?_⟩
  · rw [Cache.load_buf]
    split
    · rename_i hi
      simp [hi.1]
    · exact ⟨rfl, rfl, rfl⟩
  · rw [Cache.load_buf]
    split
    · rfl
    · exact hv
  · rw [Cache.load_buf]
    split
    · rfl
    · rename_i hv
      simpa using hv

theorem unlock (h : s.Sound) (ha : s.unlock p blk = some s') : s'.Sound := by
  simp only [Bio.unlock, Option.bind_eq_bind, Option.bind_eq_some_iff] at ha
  obtain ⟨r, hr, hs⟩ := ha
  cases hs
  exact h.setPhase (Bio.ref_eq_some hr).1 rfl (fun i => ⟨rfl, rfl, rfl⟩) (fun i hv => hv) nofun

theorem store {d : Block} (h : s.Sound) (ha : s.store p blk d = some s') : s'.Sound := by
  simp only [Bio.store, Option.bind_eq_bind, Option.bind_eq_some_iff] at ha
  obtain ⟨r, hr, hs⟩ := ha
  cases hs
  have hbuf : ∀ i, (s.cache.setBuf r.buf { s.cache.buf r.buf with data := d }).buf i =
      { s.cache.buf i with data := if i = r.buf then d else (s.cache.buf i).data } := fun i => by
    by_cases hi : i = r.buf <;> simp [hi]
  refine h.keep h.ring (fun i => ?_) (fun i hv => ?_) (fun x hx => ?_) h.pins (fun i hi => ?_) h.holder
  · simp only [hbuf, and_self]
  · simpa only [hbuf] using hv
  · exact ⟨(h.refs x hx).1, (h.refs x hx).2, by simpa only [hbuf] using h.valid x hx⟩
  · simpa only [hbuf] using h.refcnt i hi

theorem bwrite (h : s.Sound) (ha : s.bwrite p blk = some s') : s'.Sound := by
  simp only [Bio.bwrite, Option.bind_eq_bind, Option.bind_eq_some_iff] at ha
  obtain ⟨r, hr, hs⟩ := ha
  cases hs
  exact ⟨h.ring, h.uniq, h.refs, h.pins, h.refcnt, h.holder, h.valid⟩

/-- The reference count of one buffer changes along with the pointers or the pins. -/
theorem recount (h : s.Sound) {links : Links ℕ} {b n : ℕ} {refs : List Ref} {pins : List ℕ}
    (hring : ∃ l, Ring links nbuf l ∧ l.Perm (List.range nbuf))
    (hrefs : ∀ r ∈ refs, r ∈ s.refs)
    (hpins : ∀ k ∈ pins, ∃ i < nbuf, s.cache.Caches i k ∧ (s.cache.buf i).valid)
    (hb : n = refs.countP (fun r => r.buf == b) + pins.countP fun k => s.cache.Caches b k)
    (hother : ∀ i < nbuf, i ≠ b →
      s.refs.countP (fun r => r.buf == i) + s.pins.countP (fun k => s.cache.Caches i k) =
      refs.countP (fun r => r.buf == i) + pins.countP fun k => s.cache.Caches i k)
    (hhold : ∀ i, refs.countP (fun r => r.buf == i && r.phase == .holding) ≤ 1) {changed} :
    Sound { s with
      cache := ⟨(s.cache.setBuf b { s.cache.buf b with refcnt := n }).buf, links⟩
      refs := refs
      pins := pins
      changed := changed } := by
  have hbuf : ∀ i, (s.cache.setBuf b { s.cache.buf b with refcnt := n }).buf i =
      { s.cache.buf i with refcnt := if i = b then n else (s.cache.buf i).refcnt } := fun i => by
    by_cases hi : i = b <;> simp [hi]
  refine h.keep hring (fun i => ?_) (fun i hv => ?_) (fun x hx => ?_) hpins (fun i hi => ?_) hhold
  · simp only [hbuf, and_self]
  · simpa only [hbuf] using hv
  · have hx := hrefs x hx
    exact ⟨(h.refs x hx).1, (h.refs x hx).2, by simpa only [hbuf] using h.valid x hx⟩
  · simp only [hbuf]
    by_cases hib : i = b
    · subst hib
      simpa using hb
    · simpa only [if_neg hib] using (h.refcnt i hi).trans (hother i hi hib)

theorem logWrite {pin : Bool} (h : s.Sound) (ha : s.logWrite p blk pin = some s') : s'.Sound := by
  simp only [Bio.logWrite, Option.bind_eq_bind, Option.bind_eq_some_iff] at ha
  obtain ⟨r, hr, hs⟩ := ha
  obtain ⟨hmem, -, rfl, hh⟩ := Bio.ref_eq_some hr
  obtain ⟨hlt, hc⟩ := h.refs r hmem
  cases pin with
  | false =>
    cases hs
    exact ⟨h.ring, h.uniq, h.refs, h.pins, h.refcnt, h.holder, h.valid⟩
  | true =>
    cases hs
    refine h.recount h.ring (fun _ hx => hx) (fun k hk => ?_) ?_ (fun i hi hib => ?_) h.holder
    · rcases List.mem_append.mp hk with hk | hk
      · exact h.pins k hk
      · rw [List.mem_singleton.mp hk]
        exact ⟨r.buf, hlt, hc, h.valid r hmem hh⟩
    · have hcnt := h.refcnt r.buf hlt
      simp only [List.countP_append, List.countP_singleton, hc, decide_true, if_true]
      omega
    · have hnc : ¬ s.cache.Caches i r.blk := fun hci => hib (h.uniq i hi r.buf hlt _ hci hc)
      simp [List.countP_append, hnc]

theorem bunpin (h : s.Sound) (hpin : blk ∈ s.pins) (ha : s.bunpin p blk = some s') : s'.Sound := by
  simp only [Bio.bunpin, Option.bind_eq_bind, Option.bind_eq_some_iff] at ha
  obtain ⟨r, hr, hs⟩ := ha
  cases hs
  obtain ⟨hmem, -, rfl, hh⟩ := Bio.ref_eq_some hr
  obtain ⟨hlt, hc⟩ := h.refs r hmem
  refine h.recount h.ring (fun _ hx => hx) (fun k hk => h.pins k (List.mem_of_mem_erase hk)) ?_
    (fun i hi hib => ?_) h.holder
  · have hcnt := h.refcnt r.buf hlt
    have hsum := countP_take_out hpin fun k => s.cache.Caches r.buf k
    simp only [hc, decide_true, if_true] at hsum
    omega
  · have hnc : ¬ s.cache.Caches i r.blk := fun hci => hib (h.uniq i hi r.buf hlt _ hci hc)
    have hsum := countP_take_out hpin fun k => s.cache.Caches i k
    simp only [hnc, decide_false, Bool.false_eq_true, if_false] at hsum
    omega

/-- `brelse` moves the buffer to the front of the list if it was the last pointer. -/
theorem brelse_ring (h : s.Sound) (hb : b < nbuf) :
    ∃ l, Ring (s.cache.brelse b).links nbuf l ∧ l.Perm (List.range nbuf) := by
  obtain ⟨l, hring, hperm⟩ := h.ring
  simp only [Cache.brelse]
  split
  · have hbl : b ∈ l := hperm.mem_iff.mpr (List.mem_range.mpr hb)
    obtain ⟨hhead, hnodup⟩ := List.nodup_cons.mp hring.nodup
    refine ⟨b :: l.erase b, (hring.unlink hbl).pushFront ?_, ?_⟩
    · rw [List.mem_cons, not_or]
      exact ⟨fun heq => hhead (heq ▸ hbl), hnodup.not_mem_erase⟩
    · exact (List.perm_cons_erase hbl).symm.trans hperm
  · exact ⟨l, hring, hperm⟩

theorem brelse (h : s.Sound) (ha : s.brelse p blk = some s') : s'.Sound := by
  simp only [Bio.brelse, Option.bind_eq_bind, Option.bind_eq_some_iff] at ha
  obtain ⟨r, hr, hs⟩ := ha
  cases hs
  obtain ⟨hmem, -, rfl, hd⟩ := Bio.ref_eq_some hr
  have hlt := (h.refs r hmem).1
  have hcache : s.cache.brelse r.buf = ⟨(s.cache.setBuf r.buf { s.cache.buf r.buf with
      refcnt := (s.cache.buf r.buf).refcnt - 1 }).buf, (s.cache.brelse r.buf).links⟩ := by
    rw [← Cache.brelse_buf]
  rw [hcache]
  have hsum := fun i => countP_take_out hmem fun x => x.buf == i
  refine h.recount (h.brelse_ring hlt) (fun x hx => List.mem_of_mem_erase hx) h.pins ?_
    (fun i hi hib => ?_) fun i => ?_
  · have hcnt := h.refcnt r.buf hlt
    have := hsum r.buf
    simp only [beq_self_eq_true, if_true] at this
    omega
  · have := hsum i
    simp only [beq_iff_eq, Ne.symm hib, if_false] at this
    omega
  · have hle := h.holder i
    have := countP_take_out hmem fun x => x.buf == i && x.phase == .holding
    omega

/-- An action keeps the cache sound, if it unpins only what is pinned. -/
theorem act {a : Act} (h : s.Sound) (hpin : ∀ k, a = .bunpin k → k ∈ s.pins)
    (ha : s.act p a = some s') : s'.Sound := by
  cases a with
  | bget k => exact h.bget ha
  | lock k => exact h.lock ha
  | store k d => exact h.store ha
  | bwrite k => exact h.bwrite ha
  | logWrite k pin => exact h.logWrite ha
  | bunpin k => exact h.bunpin (hpin k rfl) ha
  | unlock k => exact h.unlock ha
  | brelse k => exact h.brelse ha

end Bio.Sound

theorem binitLinks_ring (n : ℕ) (hn : n ≤ nbuf) :
    ∃ l, Ring (binitLinks n) nbuf l ∧ l.Perm (List.range n) := by
  induction n with
  | zero => exact ⟨[], ⟨by simp [Seg, binitLinks], by simp⟩, .refl _⟩
  | succ n ih =>
    obtain ⟨l, hring, hperm⟩ := ih (by omega)
    have hnl : n ∉ nbuf :: l := by
      rw [List.mem_cons, hperm.mem_iff, List.mem_range]
      omega
    refine ⟨n :: l, hring.pushFront hnl, ?_⟩
    rw [List.range_succ]
    exact (hperm.cons n).trans (List.perm_append_singleton n _).symm

theorem Bio.sound_boot (disk : ℕ → Block) : (Bio.boot disk).Sound := by
  refine ⟨binitLinks_ring nbuf le_rfl, ?_, nofun, nofun, fun i _ => rfl, fun i => Nat.zero_le _, nofun⟩
  intro i _ j _ blk hc
  cases hc.1

/-! ### Frames -/

section Frames

variable {s s' : Bio} {p : ℕ} {a : Act}

/-- A buffer in use keeps its block. -/
theorem Bio.Sound.act_keeps (h : s.Sound) (ha : s.act p a = some s') {i : ℕ}
    (hi : 0 < (s.cache.buf i).refcnt) :
    (s'.cache.buf i).dev = (s.cache.buf i).dev ∧
      (s'.cache.buf i).blockno = (s.cache.buf i).blockno := by
  cases a with
  | bget k =>
    simp only [Bio.act, Bio.bget, Cache.bget, Option.map_eq_some_iff] at ha
    obtain ⟨⟨c, b⟩, hcb, rfl⟩ := ha
    split at hcb
    · cases hcb
      by_cases hib : i = b <;> simp [hib]
    · split at hcb
      · rename_i b' hu
        cases hcb
        have hib : i ≠ b := by
          rintro rfl
          exact absurd (h.unused_some hu).2 (by omega)
        simp [hib]
      · cases hcb
  | lock k =>
    simp only [Bio.act, Bio.lock, Option.bind_eq_bind, Option.bind_eq_some_iff] at ha
    obtain ⟨r, hr, _, -, hs⟩ := ha
    cases hs
    simp only [Cache.load_buf]
    split
    · rename_i hir
      simp [hir.1]
    · exact ⟨rfl, rfl⟩
  | store k d =>
    obtain ⟨r, -, hs⟩ := Option.bind_eq_some_iff.mp ha
    cases hs
    by_cases hib : i = r.buf <;> simp [hib]
  | bwrite k =>
    obtain ⟨r, -, hs⟩ := Option.bind_eq_some_iff.mp ha
    cases hs
    exact ⟨rfl, rfl⟩
  | logWrite k pin =>
    obtain ⟨r, -, hs⟩ := Option.bind_eq_some_iff.mp ha
    cases hs
    by_cases hib : i = r.buf <;> cases pin <;> simp [Cache.bpin, hib]
  | bunpin k =>
    obtain ⟨r, -, hs⟩ := Option.bind_eq_some_iff.mp ha
    cases hs
    by_cases hib : i = r.buf <;> simp [Cache.bunpin, hib]
  | unlock k =>
    obtain ⟨r, -, hs⟩ := Option.bind_eq_some_iff.mp ha
    cases hs
    exact ⟨rfl, rfl⟩
  | brelse k =>
    obtain ⟨r, -, hs⟩ := Option.bind_eq_some_iff.mp ha
    cases hs
    simp only [Cache.brelse_buf]
    by_cases hib : i = r.buf <;> simp [hib]

end Frames

/-! ### Capacity -/

/-- The blocks that processes point to or the log has pinned. -/
def Bio.inUse (s : Bio) : Finset ℕ := (s.refs.map Ref.blk ++ s.pins).toFinset

/-- A buffer with references caches a block in use. -/
theorem Bio.Sound.inUse_of_refcnt {s : Bio} (h : s.Sound) {i : ℕ} (hi : i < nbuf)
    (hne : (s.cache.buf i).refcnt ≠ 0) : ∃ blk ∈ s.inUse, s.cache.Caches i blk := by
  by_contra hnone
  push Not at hnone
  refine hne ((h.refcnt i hi).trans ?_)
  have hrefs : s.refs.countP (fun r => r.buf == i) = 0 :=
    List.countP_eq_zero.mpr fun r hr => by
      have hmem : r.blk ∈ s.inUse := by
        simp only [Bio.inUse, List.toFinset_append, Finset.mem_union, List.mem_toFinset]
        exact Or.inl (List.mem_map_of_mem hr)
      simpa using fun heq : r.buf = i => hnone r.blk hmem (heq ▸ (h.refs r hr).2)
  have hpins : s.pins.countP (fun blk => s.cache.Caches i blk) = 0 :=
    List.countP_eq_zero.mpr fun k hk => by
      have hmem : k ∈ s.inUse := by simp [Bio.inUse, hk]
      simpa using hnone k hmem
  rw [hrefs, hpins]

/-- The buffers in use are as many as the blocks in use. -/
theorem Bio.Sound.card_inUse {s : Bio} (h : s.Sound) :
    s.inUse.card = ((Finset.range nbuf).filter fun i => (s.cache.buf i).refcnt ≠ 0).card := by
  have himage : s.inUse = ((Finset.range nbuf).filter fun i =>
      (s.cache.buf i).refcnt ≠ 0).image fun i => (s.cache.buf i).blockno := by
    ext k
    simp only [Finset.mem_image, Finset.mem_filter, Finset.mem_range]
    constructor
    · intro hk
      simp only [Bio.inUse, List.mem_toFinset, List.mem_append, List.mem_map] at hk
      rcases hk with ⟨r, hr, rfl⟩ | hk
      · obtain ⟨hlt, hc⟩ := h.refs r hr
        refine ⟨r.buf, ⟨hlt, fun hz => ?_⟩, hc.2⟩
        exact (h.unreferenced hlt hz).1 r hr rfl
      · obtain ⟨i, hi, hc, -⟩ := h.pins k hk
        refine ⟨i, ⟨hi, fun hz => ?_⟩, hc.2⟩
        exact (h.unreferenced hi hz).2 k hk hc
    · rintro ⟨i, ⟨hi, hne⟩, rfl⟩
      obtain ⟨k, hk, hc⟩ := h.inUse_of_refcnt hi hne
      rw [hc.2]
      exact hk
  rw [himage]
  refine Finset.card_image_of_injOn fun i hi j hj heq => ?_
  simp only [Finset.coe_filter, Finset.mem_range, Set.mem_ofPred_eq] at hi hj
  obtain ⟨k, -, hci⟩ := h.inUse_of_refcnt hi.1 hi.2
  obtain ⟨k', -, hcj⟩ := h.inUse_of_refcnt hj.1 hj.2
  refine h.uniq i hi.1 j hj.1 k hci ⟨hcj.1, ?_⟩
  exact heq.symm.trans hci.2

/-- All buffers have references exactly if `NBUF` blocks are in use. -/
theorem Bio.Sound.all_inUse {s : Bio} (h : s.Sound) :
    (∀ i < nbuf, (s.cache.buf i).refcnt ≠ 0) ↔ ¬ s.inUse.card < nbuf := by
  have hle := Finset.card_filter_le (Finset.range nbuf) fun i => (s.cache.buf i).refcnt ≠ 0
  have hall := @Finset.card_filter_eq_iff _ (Finset.range nbuf)
    (fun i => (s.cache.buf i).refcnt ≠ 0) _
  rw [Finset.card_range] at hle hall
  rw [h.card_inUse, hle.lt_iff_ne, Ne, not_not, hall]
  simp only [Finset.mem_range]

/-- When all buffers are in use, only blocks in use are cached. -/
theorem Bio.Sound.inUse_of_caches {s : Bio} (h : s.Sound) (hfull : ¬ s.inUse.card < nbuf) {i blk : ℕ}
    (hi : i < nbuf) (hc : s.cache.Caches i blk) : blk ∈ s.inUse := by
  obtain ⟨k, hk, hck⟩ := h.inUse_of_refcnt hi (h.all_inUse.mpr hfull i hi)
  rwa [← hc.2, hck.2]

/-- `bget` finds a buffer for a block that is not cached exactly if fewer than `NBUF` blocks are
in use. -/
theorem Bio.Sound.bget_isSome {s : Bio} (h : s.Sound) {p blk : ℕ}
    (hnone : ∀ i < nbuf, ¬ s.cache.Caches i blk) :
    (s.bget p blk).isSome ↔ s.inUse.card < nbuf := by
  have hl : s.cache.lookup rootdev blk = none := by
    cases hl : s.cache.lookup rootdev blk with
    | none => rfl
    | some b => exact absurd (h.lookup_some hl).2 (hnone b (h.lookup_some hl).1)
  have hunused : (s.bget p blk).isSome ↔ s.cache.unused ≠ none := by
    simp only [Bio.bget, Cache.bget, hl, Option.isSome_map]
    cases s.cache.unused <;> simp
  rw [hunused, Ne, h.unused_none, h.all_inUse, not_not]

/-- Few pointers and pins leave a buffer for every block. -/
theorem Bio.Sound.bget_some {s : Bio} (h : s.Sound) (p blk : ℕ)
    (hlt : s.refs.length + s.pins.length < nbuf) :
    ∃ s' b, s.act p (.bget blk) = some s' ∧ s'.refs = ⟨p, blk, b, .waiting⟩ :: s.refs := by
  have hsome : (s.bget p blk).isSome := by
    by_cases hc : ∃ i < nbuf, s.cache.Caches i blk
    · obtain ⟨i, hi, hc⟩ := hc
      cases hl : s.cache.lookup rootdev blk with
      | none => exact absurd hc (h.lookup_none hl i hi)
      | some b => simp [Bio.bget, Cache.bget, hl]
    · push Not at hc
      rw [h.bget_isSome hc]
      have hcard := List.toFinset_card_le (s.refs.map Ref.blk ++ s.pins)
      rw [List.length_append, List.length_map] at hcard
      exact lt_of_le_of_lt hcard hlt
  obtain ⟨s', hs'⟩ := Option.isSome_iff_exists.mp hsome
  obtain ⟨⟨c, b⟩, -, rfl⟩ := Option.map_eq_some_iff.mp hs'
  exact ⟨_, b, hs', rfl⟩

end Storage

end Xv6
