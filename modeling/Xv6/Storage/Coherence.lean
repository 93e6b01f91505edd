import Xv6.Storage.Sound

/-!
# The buffer cache is coherent

A valid buffer holds what was last stored in its block, also while that is only in memory
(`Bio.Coherent`). The actions keep this if a process logs or writes a buffer it has changed
before it releases it, and if a block is unpinned only when the disk has it (`Act.Clean`).
-/

namespace Xv6

namespace Storage

/-- Valid buffers hold what was last stored in their block, and a block that differs on the disk
is pinned or still in the hands of the process that changed it. -/
structure Bio.Coherent (s : Bio) : Prop where
  data : ∀ i < nbuf, ∀ blk, s.cache.Caches i blk → (s.cache.buf i).valid →
    (s.cache.buf i).data = s.content blk
  disk : ∀ blk, s.disk blk ≠ s.content blk → blk ∈ s.pins ∨ ∃ p, (p, blk) ∈ s.changed
  changed : ∀ p blk, (p, blk) ∈ s.changed → s.Holds p blk

/-- The condition under which an action keeps coherence: a changed buffer is not released, a
block is unpinned when the disk has it, and a logged block is pinned. -/
def Act.Clean (s : Bio) (p : ℕ) : Act → Prop
  | .unlock blk => (p, blk) ∉ s.changed
  | .bunpin blk => s.disk blk = s.content blk
  | .logWrite blk pin => pin = true ∨ blk ∈ s.pins
  | _ => True

namespace Bio.Coherent

variable {s s' : Bio} {p blk b : ℕ} {r : Ref}

/-- A block whose buffer is not valid is up to date on the disk. -/
theorem disk_of_invalid (h : s.Coherent) (hs : s.Sound) (hb : b < nbuf)
    (hc : s.cache.Caches b blk) (hv : (s.cache.buf b).valid = false) :
    s.disk blk = s.content blk := by
  by_contra hne
  have hvalid : ∃ i < nbuf, s.cache.Caches i blk ∧ (s.cache.buf i).valid := by
    rcases h.disk blk hne with hpin | ⟨q, hq⟩
    · exact hs.pins blk hpin
    · obtain ⟨r, hr, -, rfl, hh⟩ := h.changed q blk hq
      exact ⟨r.buf, (hs.refs r hr).1, (hs.refs r hr).2, hs.valid r hr hh⟩
  obtain ⟨i, hi, hci, hvi⟩ := hvalid
  rw [hs.uniq i hi b hb blk hci hc, hv] at hvi
  cases hvi

/-- What the holder of a buffer sees. -/
theorem data_of_holder (h : s.Coherent) (hs : s.Sound) (hr : r ∈ s.refs)
    (hh : r.phase = .holding) : (s.cache.buf r.buf).data = s.content r.blk :=
  h.data _ (hs.refs r hr).1 _ (hs.refs r hr).2 (hs.valid r hr hh)

/-- Reference counts and the list do not matter, and pointers may be added or dropped as long as
those of the processes that have changed a block stay. -/
theorem keep (h : s.Coherent) {c : Cache} {refs : List Ref}
    (hbuf : ∀ i, (c.buf i).valid → (c.buf i).dev = (s.cache.buf i).dev ∧
      (c.buf i).blockno = (s.cache.buf i).blockno ∧ (s.cache.buf i).valid ∧
      (c.buf i).data = (s.cache.buf i).data)
    (hrefs : ∀ r ∈ s.refs, (r.pid, r.blk) ∈ s.changed → r.phase = .holding → r ∈ refs) :
    Coherent { s with cache := c, refs := refs } := by
  refine ⟨fun i hi k hc hv => ?_, h.disk, fun q k hq => ?_⟩
  · obtain ⟨hdev, hblk, hv', hdata⟩ := hbuf i hv
    exact hdata.trans (h.data i hi k ⟨hdev.symm.trans hc.1, hblk.symm.trans hc.2⟩ hv')
  · obtain ⟨r, hr, rfl, rfl, hh⟩ := h.changed q k hq
    exact ⟨r, hrefs r hr hq hh, rfl, rfl, hh⟩

theorem bget (h : s.Coherent) (ha : s.bget p blk = some s') : s'.Coherent := by
  simp only [Bio.bget, Cache.bget, Option.map_eq_some_iff] at ha
  obtain ⟨⟨c, b⟩, hcb, rfl⟩ := ha
  refine h.keep (fun i hv => ?_) fun r hr _ _ => List.mem_cons_of_mem _ hr
  split at hcb
  · cases hcb
    by_cases hib : i = b
    · subst hib
      simpa using hv
    · simpa [hib] using hv
  · split at hcb
    · cases hcb
      by_cases hib : i = b
      · subst hib
        simp at hv
      · simpa [hib] using hv
    · cases hcb

theorem lock (h : s.Coherent) (hs : s.Sound) (ha : s.lock p blk = some s') : s'.Coherent := by
  simp only [Bio.lock, Option.bind_eq_bind, Option.bind_eq_some_iff] at ha
  obtain ⟨r, hr, _, -, ha⟩ := ha
  cases ha
  obtain ⟨hmem, -, rfl, hw⟩ := Bio.ref_eq_some hr
  obtain ⟨hlt, hc⟩ := hs.refs r hmem
  refine ⟨fun i hi k hk hv => ?_, h.disk, fun q k hq => ?_⟩
  · simp only [Cache.Caches, Cache.load_buf] at hk hv ⊢
    split at hk
    · -- the buffer is filled from the disk
      rename_i hfill
      simp only [if_pos hfill, hc.2]
      obtain ⟨-, rfl⟩ := hk
      rw [hc.2]
      exact h.disk_of_invalid hs hlt hc hfill.2
    · rename_i hfill
      rw [if_neg hfill] at hv ⊢
      exact h.data i hi k hk hv
  · obtain ⟨x, hx, hxp, hxb, hh⟩ := h.changed q k hq
    have hne : x ≠ r := by
      rintro rfl
      rw [hw] at hh
      cases hh
    exact ⟨x, List.mem_cons_of_mem _ ((List.mem_erase_of_ne hne).mpr hx), hxp, hxb, hh⟩

theorem store {d : Block} (h : s.Coherent) (hs : s.Sound) (ha : s.store p blk d = some s') :
    s'.Coherent := by
  obtain ⟨r, hr, ha⟩ := Option.bind_eq_some_iff.mp ha
  cases ha
  obtain ⟨hmem, rfl, rfl, hh⟩ := Bio.ref_eq_some hr
  obtain ⟨hlt, hc⟩ := hs.refs r hmem
  refine ⟨fun i hi k hk hv => ?_, fun k hk => ?_, fun q k hq => ?_⟩
  · by_cases hib : i = r.buf
    · subst hib
      have hkb : k = r.blk := by
        simp only [Cache.Caches, Cache.setBuf_buf, if_true] at hk
        exact hk.2.symm.trans hc.2
      simp [hkb]
    · simp only [Cache.Caches, Cache.setBuf_buf, if_neg hib] at hk hv ⊢
      have hkb : k ≠ r.blk := by
        rintro rfl
        exact hib (hs.uniq i hi _ hlt _ hk hc)
      rw [Function.update_of_ne hkb]
      exact h.data i hi k hk hv
  · by_cases hkb : k = r.blk
    · exact Or.inr ⟨r.pid, by simp [hkb]⟩
    · simp only [Function.update_of_ne hkb] at hk
      rcases h.disk k hk with hpin | ⟨q, hq⟩
      · exact Or.inl hpin
      · exact Or.inr ⟨q, List.mem_cons_of_mem _ hq⟩
  · rcases List.mem_cons.mp hq with heq | hq
    · cases heq
      exact ⟨r, hmem, rfl, rfl, hh⟩
    · exact h.changed q k hq

theorem bwrite (h : s.Coherent) (hs : s.Sound) (ha : s.bwrite p blk = some s') :
    s'.Coherent := by
  obtain ⟨r, hr, ha⟩ := Option.bind_eq_some_iff.mp ha
  cases ha
  obtain ⟨hmem, rfl, rfl, hh⟩ := Bio.ref_eq_some hr
  obtain ⟨hlt, hc⟩ := hs.refs r hmem
  refine ⟨h.data, fun k hk => ?_, fun q k hq => h.changed q k (List.mem_filter.mp hq).1⟩
  simp only [hc.2] at hk
  by_cases hkb : k = r.blk
  · subst hkb
    rw [Function.update_self] at hk
    exact absurd (h.data_of_holder hs hmem hh) hk
  · rw [Function.update_of_ne hkb] at hk
    rcases h.disk k hk with hpin | ⟨q, hq⟩
    · exact Or.inl hpin
    · exact Or.inr ⟨q, List.mem_filter.mpr ⟨hq, by simp [hkb]⟩⟩

theorem logWrite {pin : Bool} (h : s.Coherent) (hpin : pin = true ∨ blk ∈ s.pins)
    (ha : s.logWrite p blk pin = some s') : s'.Coherent := by
  obtain ⟨r, hr, ha⟩ := Option.bind_eq_some_iff.mp ha
  cases ha
  refine ⟨fun i hi k hk hv => ?_, fun k hk => ?_,
    fun q k hq => h.changed q k (List.mem_filter.mp hq).1⟩
  · have hbuf : ((if pin then s.cache.bpin r.buf else s.cache).buf i) =
        { s.cache.buf i with
          refcnt := ((if pin then s.cache.bpin r.buf else s.cache).buf i).refcnt } := by
      by_cases hib : i = r.buf <;> cases pin <;> simp [Cache.bpin, hib]
    simp only [Cache.Caches] at hk hv ⊢
    rw [hbuf] at hk hv ⊢
    exact h.data i hi k hk hv
  · by_cases hkb : k = blk
    · left
      subst hkb
      rcases hpin with rfl | hpin
      · simp
      · cases pin <;> simp [hpin]
    · rcases h.disk k hk with hkp | ⟨q, hq⟩
      · left
        cases pin <;> simp [hkp]
      · exact Or.inr ⟨q, List.mem_filter.mpr ⟨hq, by simp [hkb]⟩⟩

theorem bunpin (h : s.Coherent) (hd : s.disk blk = s.content blk)
    (ha : s.bunpin p blk = some s') : s'.Coherent := by
  obtain ⟨r, hr, ha⟩ := Option.bind_eq_some_iff.mp ha
  cases ha
  refine ⟨fun i hi k hk hv => ?_, fun k hk => ?_, h.changed⟩
  · have hbuf : (s.cache.bunpin r.buf).buf i =
        { s.cache.buf i with refcnt := ((s.cache.bunpin r.buf).buf i).refcnt } := by
      by_cases hib : i = r.buf <;> simp [Cache.bunpin, hib]
    simp only [Cache.Caches] at hk hv ⊢
    rw [hbuf] at hk hv ⊢
    exact h.data i hi k hk hv
  · rcases h.disk k hk with hkp | hq
    · have hkb : k ≠ blk := by
        rintro rfl
        exact hk hd
      exact Or.inl ((List.mem_erase_of_ne hkb).mpr hkp)
    · exact Or.inr hq

theorem unlock (h : s.Coherent) (hd : (p, blk) ∉ s.changed) (ha : s.unlock p blk = some s') :
    s'.Coherent := by
  obtain ⟨r, hr, ha⟩ := Option.bind_eq_some_iff.mp ha
  cases ha
  obtain ⟨hmem, rfl, rfl, hh⟩ := Bio.ref_eq_some hr
  refine h.keep (fun i hv => ⟨rfl, rfl, hv, rfl⟩) fun x hx hxc hxh => ?_
  have hne : x ≠ r := by
    rintro rfl
    exact hd hxc
  exact List.mem_cons_of_mem _ ((List.mem_erase_of_ne hne).mpr hx)

theorem brelse (h : s.Coherent) (ha : s.brelse p blk = some s') : s'.Coherent := by
  obtain ⟨r, hr, ha⟩ := Option.bind_eq_some_iff.mp ha
  cases ha
  obtain ⟨hmem, -, -, hd⟩ := Bio.ref_eq_some hr
  refine h.keep (fun i hv => ?_) fun x hx _ hxh => ?_
  · rw [Cache.brelse_buf] at hv ⊢
    by_cases hib : i = r.buf
    · subst hib
      simpa using hv
    · simpa [hib] using hv
  · have hne : x ≠ r := by
      rintro rfl
      rw [hd] at hxh
      cases hxh
    exact (List.mem_erase_of_ne hne).mpr hx

theorem act {a : Act} (h : s.Coherent) (hs : s.Sound) (hclean : a.Clean s p)
    (ha : s.act p a = some s') : s'.Coherent := by
  cases a with
  | bget k => exact h.bget ha
  | lock k => exact h.lock hs ha
  | store k d => exact h.store hs ha
  | bwrite k => exact h.bwrite hs ha
  | logWrite k pin => exact h.logWrite hclean ha
  | bunpin k => exact h.bunpin hclean ha
  | unlock k => exact h.unlock hclean ha
  | brelse k => exact h.brelse ha

end Bio.Coherent

theorem Bio.coherent_boot (disk : ℕ → Block) : (Bio.boot disk).Coherent :=
  ⟨nofun, fun _ hne => absurd rfl hne, nofun⟩

/-! ### What others can change -/

section Others

variable {s s' : Bio} {p q k : ℕ} {a : Act}

/-- A process keeps what it holds until it releases it. -/
theorem Bio.Holds.act (hq : s.Holds q k) (h : s.act p a = some s')
    (hne : q ≠ p ∨ a ≠ .unlock k) : s'.Holds q k := by
  obtain ⟨x, hx, rfl, rfl, hh⟩ := hq
  -- a pointer in another phase or of another process is not this one
  have hkeep : ∀ r, r ∈ s.refs → r ≠ x → x ∈ s.refs.erase r := fun r _ hrx =>
    (List.mem_erase_of_ne (Ne.symm hrx)).mpr hx
  cases a with
  | bget k =>
    obtain ⟨cb, -, rfl⟩ := Option.map_eq_some_iff.mp h
    exact ⟨x, List.mem_cons_of_mem _ hx, rfl, rfl, hh⟩
  | lock k =>
    simp only [Bio.act, Bio.lock, Option.bind_eq_bind, Option.bind_eq_some_iff] at h
    obtain ⟨r, hr, _, -, h⟩ := h
    cases h
    obtain ⟨hmem, -, -, hw⟩ := Bio.ref_eq_some hr
    have hrx : r ≠ x := by
      rintro rfl
      cases hw.symm.trans hh
    exact ⟨x, List.mem_cons_of_mem _ (hkeep r hmem hrx), rfl, rfl, hh⟩
  | unlock k =>
    obtain ⟨r, hr, h⟩ := Option.bind_eq_some_iff.mp h
    cases h
    obtain ⟨hmem, hp, hk, -⟩ := Bio.ref_eq_some hr
    have hrx : r ≠ x := by
      rintro rfl
      rcases hne with hne | hne
      · exact hne hp
      · exact hne (by rw [hk])
    exact ⟨x, List.mem_cons_of_mem _ (hkeep r hmem hrx), rfl, rfl, hh⟩
  | brelse k =>
    obtain ⟨r, hr, h⟩ := Option.bind_eq_some_iff.mp h
    cases h
    obtain ⟨hmem, -, -, hd⟩ := Bio.ref_eq_some hr
    have hrx : r ≠ x := by
      rintro rfl
      cases hd.symm.trans hh
    exact ⟨x, hkeep r hmem hrx, rfl, rfl, hh⟩
  | store k d | bwrite k | logWrite k pin | bunpin k =>
    obtain ⟨r, -, h⟩ := Option.bind_eq_some_iff.mp h
    cases h
    exact ⟨x, hx, rfl, rfl, hh⟩

/-- Only a holder stores in a block. -/
theorem Bio.act_content (h : s.act p a = some s') :
    s'.content k = s.content k ∨ (s.Holds p k ∧ ∃ d, a = .store k d ∧ s'.content k = d) := by
  cases a with
  | bget k =>
    obtain ⟨cb, -, rfl⟩ := Option.map_eq_some_iff.mp h
    exact Or.inl rfl
  | lock k =>
    simp only [Bio.act, Bio.lock, Option.bind_eq_bind, Option.bind_eq_some_iff] at h
    obtain ⟨r, -, _, -, h⟩ := h
    cases h
    exact Or.inl rfl
  | store b d =>
    obtain ⟨r, hr, h⟩ := Option.bind_eq_some_iff.mp h
    cases h
    obtain ⟨hmem, hp, rfl, hh⟩ := Bio.ref_eq_some hr
    by_cases hk : k = r.blk
    · subst hk
      exact Or.inr ⟨⟨r, hmem, hp, rfl, hh⟩, d, rfl, by simp⟩
    · exact Or.inl (by simp [hk])
  | bwrite k | logWrite k pin | bunpin k | unlock k | brelse k =>
    obtain ⟨r, -, h⟩ := Option.bind_eq_some_iff.mp h
    cases h
    exact Or.inl rfl

/-- Only a holder writes a block. -/
theorem Bio.Sound.act_disk (hs : s.Sound) (h : s.act p a = some s') :
    s'.disk k = s.disk k ∨ (s.Holds p k ∧ a = .bwrite k) := by
  cases a with
  | bget k =>
    obtain ⟨cb, -, rfl⟩ := Option.map_eq_some_iff.mp h
    exact Or.inl rfl
  | lock k =>
    simp only [Bio.act, Bio.lock, Option.bind_eq_bind, Option.bind_eq_some_iff] at h
    obtain ⟨r, -, _, -, h⟩ := h
    cases h
    exact Or.inl rfl
  | bwrite b =>
    obtain ⟨r, hr, h⟩ := Option.bind_eq_some_iff.mp h
    cases h
    obtain ⟨hmem, hp, rfl, hh⟩ := Bio.ref_eq_some hr
    simp only [(hs.refs r hmem).2.2]
    by_cases hk : k = r.blk
    · subst hk
      exact Or.inr ⟨⟨r, hmem, hp, rfl, hh⟩, rfl⟩
    · exact Or.inl (Function.update_of_ne hk _ _)
  | store k d | logWrite k pin | bunpin k | unlock k | brelse k =>
    obtain ⟨r, -, h⟩ := Option.bind_eq_some_iff.mp h
    cases h
    exact Or.inl rfl

/-- After `bwrite` the disk has the block. -/
theorem Bio.Coherent.bwrite_disk (hc : s.Coherent) (hs : s.Sound)
    (h : s.act p (.bwrite k) = some s') : s'.disk k = s'.content k ∧ s'.Holds p k := by
  obtain ⟨r, hr, h⟩ := Option.bind_eq_some_iff.mp h
  cases h
  obtain ⟨hmem, hp, rfl, hh⟩ := Bio.ref_eq_some hr
  refine ⟨?_, r, hmem, hp, rfl, hh⟩
  simp only [(hs.refs r hmem).2.2, Function.update_self]
  exact hc.data_of_holder hs hmem hh

/-- A process becomes one that has changed a block by storing in it. -/
theorem Bio.act_changed (h : s.act p a = some s') (hq : (q, k) ∈ s'.changed) :
    ((q, k) ∈ s.changed ∧ (q = p → a ≠ .bwrite k)) ∨ (q = p ∧ ∃ d, a = .store k d) := by
  cases a with
  | bget k =>
    obtain ⟨cb, -, rfl⟩ := Option.map_eq_some_iff.mp h
    exact Or.inl ⟨hq, by rintro _ ⟨⟩⟩
  | lock k =>
    simp only [Bio.act, Bio.lock, Option.bind_eq_bind, Option.bind_eq_some_iff] at h
    obtain ⟨r, -, _, -, h⟩ := h
    cases h
    exact Or.inl ⟨hq, by rintro _ ⟨⟩⟩
  | store b d =>
    obtain ⟨r, -, h⟩ := Option.bind_eq_some_iff.mp h
    cases h
    rcases List.mem_cons.mp hq with heq | hq
    · cases heq
      exact Or.inr ⟨rfl, d, rfl⟩
    · exact Or.inl ⟨hq, by rintro _ ⟨⟩⟩
  | bwrite b =>
    obtain ⟨r, -, h⟩ := Option.bind_eq_some_iff.mp h
    cases h
    obtain ⟨hq, hne⟩ := List.mem_filter.mp hq
    refine Or.inl ⟨hq, fun hqp heq => ?_⟩
    cases heq
    simp [hqp] at hne
  | logWrite b pin =>
    obtain ⟨r, -, h⟩ := Option.bind_eq_some_iff.mp h
    cases h
    exact Or.inl ⟨(List.mem_filter.mp hq).1, by rintro _ ⟨⟩⟩
  | bunpin k | unlock k | brelse k =>
    obtain ⟨r, -, h⟩ := Option.bind_eq_some_iff.mp h
    cases h
    exact Or.inl ⟨hq, by rintro _ ⟨⟩⟩

/-- Two processes do not hold one block. -/
theorem Bio.Sound.holds_unique (hs : s.Sound) (hp : s.Holds p k) (hq : s.Holds q k) : p = q := by
  obtain ⟨r, hr, rfl, hrk, hh⟩ := hp
  obtain ⟨r', hr', rfl, hrk', hh'⟩ := hq
  rw [hs.holder_eq hr hr' hh hh' (hrk.trans hrk'.symm)]

/-- A process that gets the lock finds the block unchanged. -/
theorem Bio.Coherent.lock_unchanged (hc : s.Coherent) (hs : s.Sound)
    (h : s.act p (.lock k) = some s') : (q, k) ∉ s.changed := by
  intro hq
  simp only [Bio.act, Bio.lock, Option.bind_eq_bind, Option.bind_eq_some_iff] at h
  obtain ⟨r, hr, _, hg, -⟩ := h
  obtain ⟨hmem, -, rfl, -⟩ := Bio.ref_eq_some hr
  obtain ⟨x, hx, -, hxk, hh⟩ := hc.changed q _ hq
  have hbuf : x.buf = r.buf := by
    obtain ⟨hlt, hcx⟩ := hs.refs x hx
    obtain ⟨hlt', hcr⟩ := hs.refs r hmem
    exact hs.uniq _ hlt _ hlt' _ hcx (hxk ▸ hcr)
  exact Bio.locked_eq_false (by simpa using hg) x hx hbuf hh

end Others

end Storage

end Xv6
