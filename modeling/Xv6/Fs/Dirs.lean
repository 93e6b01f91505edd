import Xv6.Fs.Inodes

/-!
# Directories

A directory is a file of entries of 16 bytes. Since the size of a block is a multiple of that, an
entry lies in one block, and since a directory has no holes, reading one changes nothing. So
`dirlookup` is a search in the list of entries followed by `iget`, and `dirlink` writes one entry
or none.
-/

namespace Xv6

namespace Fs

open StateLogic State

/-- The `k`-th entry of a directory. -/
def State.ent (s : State) (d k : ℕ) : Dirent :=
  .ofBytes ((List.range desize).map fun j => s.byte d (k * desize + j))

section

variable {s : State} {h l : List ℕ} {dp k : ℕ} {P : Panic → Prop} {e : Panic}

/-- Reading an entry of a directory changes nothing. -/
theorem readEnt_spec (hi : Inv s h l) (hm : dp ∈ l) (hdir : (s.cur dp).type = .dir)
    (hk : k * desize < (s.cur dp).size) (hP : ¬(k + 1) * desize ≤ (s.cur dp).size → P e) :
    wp (readEnt dp (k * desize) e)
      (fun de s' => s' = s ∧ de = s.ent dp k ∧ (k + 1) * desize ≤ (s.cur dp).size)
      (fun e _ => P e) s := by
  have hr := hi.locked_ready hm
  have hfull := hi.whole dp hr.lt hdir
  have hsmall : k * desize + desize < 2 ^ 32 := by
    have := hfull.le_maxfile hr
    simp only [maxfile, ndirect, nindirect, bsize, desize] at this hk ⊢
    omega
  have hadd : (k + 1) * desize = k * desize + desize := by rw [Nat.add_mul, Nat.one_mul]
  rw [readEnt]
  refine wp_seq (readi_full hi.owned.safe hr hfull hk.le hsmall) ?_
  rintro _ _ ⟨rfl, rfl⟩
  simp only [List.length_map, List.length_range, wp_ite, wp_pure, wp_throw]
  refine ⟨fun hlen => ⟨trivial, ?_, by omega⟩, fun hlen => hP (by omega)⟩
  rw [hlen]
  rfl

/-! ### Searching -/

/-- The number of entries. -/
def State.nents (s : State) (d : ℕ) : ℕ := (s.cur d).size / desize

/-- Entry `k` is in use for a name. -/
def State.Matches (s : State) (d : ℕ) (name : Name) (k : ℕ) : Prop :=
  (s.ent d k).inum ≠ 0 ∧ nameeq name (s.ent d k).name = true

theorem mem_offsets {size off : ℕ} (hoff : off ∈ offsets size) :
    ∃ k, off = k * desize ∧ k * desize < size := by
  simp only [offsets, List.mem_map, List.mem_range] at hoff
  obtain ⟨k, hk, rfl⟩ := hoff
  refine ⟨k, rfl, ?_⟩
  simp only [desize] at hk ⊢
  omega

theorem mem_offsets_of_lt {size k : ℕ} (hk : k < size / desize) : k * desize ∈ offsets size := by
  refine List.mem_map.mpr ⟨k, List.mem_range.mpr ?_, rfl⟩
  simp only [desize] at hk ⊢
  omega

/-- An entry that begins below the size but does not end there. -/
theorem not_dvd_of_split {size : ℕ} (hk : k * desize < size) (hlast : ¬(k + 1) * desize ≤ size) :
    ¬desize ∣ size := by
  simp only [desize] at hk hlast ⊢
  omega

theorem lt_nents (hk : (k + 1) * desize ≤ (s.cur dp).size) : k < s.nents dp := by
  rw [State.nents, Nat.lt_iff_add_one_le, Nat.le_div_iff_mul_le (by decide)]
  exact hk

/-- What a search through the entries at `offs` for `name` has found. -/
def Found (dp : ℕ) (name : Name) (offs : List ℕ) (h l : List ℕ) (s : State) :
    Option (ℕ × ℕ) → State → Prop
  | none, s' => s' = s ∧ ∀ k, k * desize ∈ offs → ¬s.Matches dp name k
  | some (i, off), s' => Inv s' (i :: h) l ∧ Same s s' ∧ ∃ k < s.nents dp, k * desize = off ∧
      s.Matches dp name k ∧ (s.ent dp k).inum = i

theorem lookupFrom_spec {name : Name} (hi : Inv s h l) (hm : dp ∈ l)
    (hdir : (s.cur dp).type = .dir) (hread : ¬desize ∣ (s.cur dp).size → P .lookupRead)
    (hnode : (∃ k < s.nents dp, s.Matches dp name k) → ninode ≤ active s → P .noInodes)
    (offs : List ℕ)
    (hoffs : ∀ off ∈ offs, ∃ k, off = k * desize ∧ k * desize < (s.cur dp).size) :
    wp (lookupFrom dp name offs) (Found dp name offs h l s) (fun e _ => P e) s := by
  induction offs with
  | nil => exact ⟨rfl, fun k hk => absurd hk List.not_mem_nil⟩
  | cons off offs ih =>
    obtain ⟨k, rfl, hk⟩ := hoffs off List.mem_cons_self
    have hrest := ih fun off hoff => hoffs off (List.mem_cons_of_mem _ hoff)
    -- an entry that does not match leaves the search to the others
    have hskip : ¬s.Matches dp name k →
        wp (lookupFrom dp name offs) (Found dp name (k * desize :: offs) h l s) (fun e _ => P e)
          s := fun hno => by
      refine wp_mono hrest (fun r s' hr => ?_) fun _ _ he => he
      cases r with
      | some r => exact hr
      | none =>
        refine ⟨hr.1, fun k' hk' => ?_⟩
        rcases List.mem_cons.mp hk' with heq | hk'
        · rw [Nat.eq_of_mul_eq_mul_right (by decide) heq]
          exact hno
        · exact hr.2 k' hk'
    rw [lookupFrom]
    refine wp_seq (readEnt_spec hi hm hdir hk fun hl => hread (not_dvd_of_split hk hl)) ?_
    rintro _ _ ⟨rfl, rfl, hlast⟩
    simp only [wp_ite, wp_bind, wp_pure]
    refine ⟨fun h0 => hskip fun hmatch => hmatch.1 h0, fun h0 => ⟨fun hname => ?_, fun hname =>
      hskip fun hmatch => hname hmatch.2⟩⟩
    have hk := lt_nents hlast
    refine wp_mono (iget_spec (P := P) hi (hnode ⟨k, hk, h0, hname⟩)) (fun _ s' hs' => ?_)
      fun _ _ he => he
    exact ⟨hs'.1, hs'.2, k, hk, rfl, ⟨h0, hname⟩, rfl⟩

/-- `dirlookup` finds the entry for a name, or there is none. -/
theorem dirlookup_spec {name : Name} (hi : Inv s h l) (hm : dp ∈ l)
    (hdir : (s.cur dp).type ≠ .dir → P .notDir)
    (hread : ¬desize ∣ (s.cur dp).size → P .lookupRead)
    (hnode : (∃ k < s.nents dp, s.Matches dp name k) → ninode ≤ active s → P .noInodes) :
    wp (dirlookup dp name) (fun r s' => (s.cur dp).type = .dir ∧
      Found dp name (offsets (s.cur dp).size) h l s r s') (fun e _ => P e) s := by
  have hr := hi.locked_ready hm
  rw [dirlookup, dinodeOf]
  simp only [wp_bind, wp_get, wp_pure, wp_ite, wp_throw, ← hr.cur]
  refine ⟨hdir, fun ht => ?_⟩
  rw [not_not] at ht
  refine wp_mono (lookupFrom_spec hi hm ht hread hnode _ fun off => mem_offsets)
    (fun _ _ hf => ⟨ht, hf⟩) fun _ _ he => he

/-- The loop of `dirlink` finds an entry that is not in use, or the end. -/
theorem emptyFrom_spec (hi : Inv s h l) (hm : dp ∈ l) (hdir : (s.cur dp).type = .dir)
    (hread : ¬desize ∣ (s.cur dp).size → P .linkRead) (offs : List ℕ)
    (hoffs : ∀ off ∈ offs, ∃ k, off = k * desize ∧ k * desize < (s.cur dp).size) :
    wp (emptyFrom dp (s.cur dp).size offs) (fun r s' => s' = s ∧
      ((∃ k < s.nents dp, k * desize = r ∧ (s.ent dp k).inum = 0) ∨
        r = (s.cur dp).size ∧ ∀ k, k * desize ∈ offs →
          (k + 1) * desize ≤ (s.cur dp).size ∧ (s.ent dp k).inum ≠ 0)) (fun e _ => P e) s := by
  induction offs with
  | nil => exact ⟨rfl, Or.inr ⟨rfl, fun k hk => absurd hk List.not_mem_nil⟩⟩
  | cons off offs ih =>
    obtain ⟨k, rfl, hk⟩ := hoffs off List.mem_cons_self
    rw [emptyFrom]
    refine wp_seq (readEnt_spec hi hm hdir hk fun hl => hread (not_dvd_of_split hk hl)) ?_
    rintro _ _ ⟨rfl, rfl, hlast⟩
    simp only [wp_ite, wp_pure]
    refine ⟨fun h0 => ⟨trivial, Or.inl ⟨k, lt_nents hlast, rfl, h0⟩⟩, fun h0 => ?_⟩
    refine wp_mono (ih fun off hoff => hoffs off (List.mem_cons_of_mem _ hoff)) ?_
      fun _ _ he => he
    rintro r s' ⟨rfl, hr | ⟨rfl, hall⟩⟩
    · exact ⟨rfl, Or.inl hr⟩
    · refine ⟨rfl, Or.inr ⟨rfl, fun k' hk' => ?_⟩⟩
      rcases List.mem_cons.mp hk' with heq | hk'
      · rw [Nat.eq_of_mul_eq_mul_right (by decide) heq]
        exact ⟨hlast, h0⟩
      · exact hall k' hk'

/-- The loop of `isdirempty`. -/
theorem emptyAll_spec (hi : Inv s h l) (hm : dp ∈ l) (hdir : (s.cur dp).type = .dir)
    (hread : ¬desize ∣ (s.cur dp).size → P .emptyRead) (offs : List ℕ)
    (hoffs : ∀ off ∈ offs, ∃ k, off = k * desize ∧ k * desize < (s.cur dp).size) :
    wp (emptyAll dp offs) (fun r s' => s' = s ∧
      (r = true → ∀ k, k * desize ∈ offs → (s.ent dp k).inum = 0)) (fun e _ => P e) s := by
  induction offs with
  | nil => exact ⟨rfl, fun _ k hk => absurd hk List.not_mem_nil⟩
  | cons off offs ih =>
    obtain ⟨k, rfl, hk⟩ := hoffs off List.mem_cons_self
    rw [emptyAll]
    refine wp_seq (readEnt_spec hi hm hdir hk fun hl => hread (not_dvd_of_split hk hl)) ?_
    rintro _ _ ⟨rfl, rfl, hlast⟩
    simp only [wp_ite, wp_pure]
    refine ⟨fun _ => ⟨trivial, by rintro ⟨⟩⟩, fun h0 => ?_⟩
    rw [not_not] at h0
    refine wp_mono (ih fun off hoff => hoffs off (List.mem_cons_of_mem _ hoff)) ?_
      fun _ _ he => he
    rintro r s' ⟨rfl, hall⟩
    refine ⟨rfl, fun hr k' hk' => ?_⟩
    rcases List.mem_cons.mp hk' with heq | hk'
    · rw [Nat.eq_of_mul_eq_mul_right (by decide) heq]
      exact h0
    · exact hall hr k' hk'

/-- If `isdirempty` says so, there are no entries after the first two. -/
theorem isdirempty_spec (hi : Inv s h l) (hm : dp ∈ l) (hdir : (s.cur dp).type = .dir)
    (hread : ¬desize ∣ (s.cur dp).size → P .emptyRead) :
    wp (isdirempty dp) (fun r s' => s' = s ∧
      (r = true → ∀ k, 2 ≤ k → k < s.nents dp → (s.ent dp k).inum = 0)) (fun e _ => P e) s := by
  have hr := hi.locked_ready hm
  rw [isdirempty, dinodeOf]
  simp only [wp_bind, wp_get, wp_pure, ← hr.cur]
  refine wp_mono (emptyAll_spec hi hm hdir hread _ fun off hoff =>
    mem_offsets (List.mem_of_mem_drop hoff)) ?_ fun _ _ he => he
  rintro r s' ⟨rfl, hall⟩
  refine ⟨rfl, fun hr k h2 hk => hall hr k ?_⟩
  rw [offsets, ← List.map_drop]
  refine List.mem_map.mpr ⟨k, ?_, rfl⟩
  rw [State.nents] at hk
  simp only [desize] at hk ⊢
  refine List.mem_iff_getElem.mpr ⟨k - 2, ?_, ?_⟩
  · simp only [List.length_drop, List.length_range]
    omega
  · rw [List.getElem_drop, List.getElem_range]
    omega

/-! ### Writing -/

/-- `writeEnt` has failed: the directory may have got a block, but no byte has changed. -/
structure Unwritten (dp : ℕ) (s s' : State) : Prop where
  sb : s'.sb = s.sb
  cwd : s'.cwd = s.cwd
  files : s'.files = s.files
  cur_self : ∃ a, s'.cur dp = { s.cur dp with addrs := a }
  cur : ∀ i, i ≠ dp → s'.cur i = s.cur i
  byte : ∀ i x, s'.byte i x = s.byte i x

/-- `writeEnt` has written the bytes of entry `k`. -/
structure Entered (dp k : ℕ) (de : Dirent) (s s' : State) : Prop where
  sb : s'.sb = s.sb
  cwd : s'.cwd = s.cwd
  files : s'.files = s.files
  cur_self : ∃ a, s'.cur dp =
    { s.cur dp with addrs := a, size := max (s.cur dp).size ((k + 1) * desize) }
  cur : ∀ i, i ≠ dp → s'.cur i = s.cur i
  byte_of_ne : ∀ i, i ≠ dp → ∀ x, s'.byte i x = s.byte i x
  byte : ∀ x, s'.byte dp x =
    if k * desize ≤ x ∧ x < (k + 1) * desize then de.bytes.getD (x - k * desize) 0
    else s.byte dp x

/-- The loop of `writei` writes an entry, if there is a block for it. -/
theorem writeLoop_entry {de : Dirent} (hi : Inv s h l) (hm : dp ∈ l)
    (hlen : de.bytes.length = desize) (hmax : (k + 1) * desize ≤ maxfile * bsize)
    {E : Panic → State → Prop} :
    wp (writeLoop dp (kernelSource de.bytes) desize desize (k * desize) 0)
      (fun r s' => r = (0, k * desize) ∧ Wrote dp (k * desize) desize s (k * desize) s' ∧
          (∀ x, s'.byte dp x = s.byte dp x) ∧ s.hold dp (slotOf (k * desize / bsize)) = 0 ∧
          (∀ b < s'.sb.size, s'.used b = true) ∨
        r = (desize, (k + 1) * desize) ∧
          Wrote dp (k * desize) desize s ((k + 1) * desize) s' ∧
          ∀ x, s'.byte dp x =
            if k * desize ≤ x ∧ x < (k + 1) * desize then de.bytes.getD (x - k * desize) 0
            else s.byte dp x) E s := by
  have hadd : (k + 1) * desize = k * desize + desize := by rw [Nat.add_mul, Nat.one_mul]
  refine wp_mono (writeLoop_copies dp (kernelSource de.bytes) desize desize (Nat.sub_le ..)
    (Nat.zero_le _) hi.owned.safe (hi.locked_ready hm) (by omega)) ?_ fun _ _ he => he
  rintro ⟨tot, off⟩ s' ⟨s₁, hc, hstop⟩
  have hw := hc.wrote hstop hi.owned
  rw [Nat.sub_zero] at hw
  -- a copy inside the kernel does not fail, so nothing is written beyond what is counted
  have hclean : s' = s₁ ∧ (tot < desize → s₁.hold dp (slotOf (off / bsize)) = 0 ∧
      ∀ b < s₁.sb.size, s₁.used b = true) := by
    cases hstop with
    | all htot => exact ⟨rfl, fun hlt => absurd htot hlt.ne⟩
    | full _ hb hfull => exact ⟨rfl, fun _ => ⟨hb, hfull⟩⟩
    | fault _ _ hf => cases hf
  obtain ⟨rfl, hfull⟩ := hclean
  have hsum := hc.sum
  have hle := hc.le_n
  -- the entry does not cross the end of a block
  have hcase : tot = 0 ∨ tot = desize := by
    rcases hc.edge with he | he | he
    · exact Or.inl (by omega)
    · exact Or.inr he
    · simp only [bsize, desize] at he hsum hle ⊢
      omega
  rcases hcase with rfl | rfl
  · obtain rfl : off = k * desize := by omega
    obtain ⟨hb, hused⟩ := hfull (by decide)
    refine Or.inl ⟨rfl, hw, fun x => hc.outside x (by omega), ?_, hused⟩
    by_contra h0
    rw [hc.ext.keep _ h0] at hb
    exact h0 hb
  · obtain rfl : off = (k + 1) * desize := by omega
    refine Or.inr ⟨rfl, hw, fun x => ?_⟩
    by_cases hx : k * desize ≤ x ∧ x < (k + 1) * desize
    · rw [if_pos hx, hc.inside _ (kernelSource_delivers hlen.ge) x hx.1 hx.2, Nat.zero_add]
    · rw [if_neg hx, hc.outside x (by omega)]

/-- There is no room for entry `k`: the directory has its largest size, or there is no block. -/
def NoSpace (dp k : ℕ) (s s' : State) : Prop :=
  maxfile * bsize < (k + 1) * desize ∨
    s.hold dp (slotOf (k * desize / bsize)) = 0 ∧ ∀ b < s'.sb.size, s'.used b = true

/-- There is space where an entry is. -/
theorem State.Inv.has_space {s' : State} (hi : Inv s h l) (hm : dp ∈ l)
    (hdir : (s.cur dp).type = .dir) (hk : k < s.nents dp) : ¬NoSpace dp k s s' := by
  have hr := hi.locked_ready hm
  have hfull := hi.whole dp hr.lt hdir
  have hle : (k + 1) * desize ≤ (s.cur dp).size :=
    (Nat.mul_le_mul_right _ hk).trans (Nat.div_mul_le_self _ _)
  rintro (hmax | ⟨hzero, -⟩)
  · exact absurd (hle.trans (hfull.le_maxfile hr)) hmax.not_ge
  · refine hfull (k * desize / bsize) ?_ hzero
    simp only [desize, bsize] at hle ⊢
    omega

theorem Unwritten.refl (s : State) (dp : ℕ) : Unwritten dp s s :=
  ⟨rfl, rfl, rfl, ⟨(s.cur dp).addrs, rfl⟩, fun _ _ => rfl, fun _ _ => rfl⟩

/-- An entry is written as a whole or not at all. -/
theorem writeEnt_spec {de : Dirent} (hi : Inv s h l) (hm : dp ∈ l)
    (hlen : de.bytes.length = desize) (hk : k * desize ≤ (s.cur dp).size) :
    wp (writeEnt dp (k * desize) de) (fun r s' => Inv s' h l ∧
      (r = false ∧ Unwritten dp s s' ∧ NoSpace dp k s s' ∨ r = true ∧ Entered dp k de s s'))
      (fun e _ => P e) s := by
  have hr := hi.locked_ready hm
  have hadd : (k + 1) * desize = k * desize + desize := by rw [Nat.add_mul, Nat.one_mul]
  rw [writeEnt, writei, dinodeOf]
  simp only [wp_bind, wp_get, wp_pure, wp_ite, ← hr.cur]
  have hbig : maxfile * bsize < 2 ^ 32 := by decide
  refine ⟨fun hor => ⟨hi, Or.inl ⟨rfl, .refl s dp, Or.inl (by omega)⟩⟩, fun _ =>
    ⟨fun hlt => ⟨hi, Or.inl ⟨rfl, .refl s dp, Or.inl (by omega)⟩⟩, fun hmax => ?_⟩⟩
  refine wp_mono (writeLoop_entry hi hm hlen (by omega)) ?_ fun _ _ he => he
  intro r s₁ hloop
  have hsize : ∀ {off'}, Wrote dp (k * desize) desize s off' s₁ →
      (s₁.itable dp).d.size = (s.cur dp).size := fun hw => by
    obtain ⟨a, ha⟩ := hw.ext.itable
    rw [ha, Function.update_self, hr.cur]
  rcases hloop with ⟨rfl, hw, hbyte, hno⟩ | ⟨rfl, hw, hbyte⟩
  · obtain ⟨hinv, hwr, -, hb⟩ := hw.finish hi hm hk rfl
    obtain ⟨a, ha⟩ := hw.ext.cur_self hr.live
    refine writeEnd_spec (hsize hw) ⟨hinv, Or.inl ⟨rfl, ⟨hwr.sb, hwr.cwd, hwr.files, ⟨a, ?_⟩,
      hwr.cur, fun i x => ?_⟩, Or.inr hno⟩⟩
    · rw [cur_update, if_pos rfl, max_eq_left hk, ← (hw.ext.ready hr).cur, ha]
    · by_cases hne : i = dp
      · rw [hne, hb, hbyte]
      · exact hwr.byte_of_ne i hne x
  · obtain ⟨hinv, hwr, -, hb⟩ := hw.finish hi hm hk rfl
    obtain ⟨a, ha⟩ := hw.ext.cur_self hr.live
    refine writeEnd_spec (hsize hw) ⟨hinv, Or.inr ⟨rfl, hwr.sb, hwr.cwd, hwr.files, ⟨a, ?_⟩, hwr.cur,
      hwr.byte_of_ne, fun x => ?_⟩⟩
    · rw [cur_update, if_pos rfl, ← (hw.ext.ready hr).cur, ha]
    · rw [hb, hbyte]

/-- A directory is the same in both states. -/
structure State.SameDir (dp : ℕ) (s s' : State) : Prop where
  type : (s'.cur dp).type = (s.cur dp).type
  size : (s'.cur dp).size = (s.cur dp).size
  byte : ∀ x, s'.byte dp x = s.byte dp x

theorem State.SameDir.trans {s₁ s' : State} (h : SameDir dp s s₁) (h' : SameDir dp s₁ s') :
    SameDir dp s s' :=
  ⟨h'.type.trans h.type, h'.size.trans h.size, fun x => (h'.byte x).trans (h.byte x)⟩

theorem State.Same.sameDir {s' : State} (hs : Same s s') (dp : ℕ) : SameDir dp s s' :=
  ⟨by rw [hs.cur], by rw [hs.cur], hs.byte dp⟩

theorem Unwritten.sameDir {s' : State} (hu : Unwritten dp s s') : State.SameDir dp s s' := by
  obtain ⟨a, ha⟩ := hu.cur_self
  exact ⟨by rw [ha], by rw [ha], hu.byte dp⟩

/-- If `iput` frees an inode, it is not one that is locked. -/
theorem iput_sameDir {ip : ℕ} (hi : Inv s (ip :: h) l) (hm : dp ∈ l) (hl : ∀ i ∈ l, s.Kept h i) :
    wp (iput ip) (fun _ s' => Inv s' h l ∧ SameDir dp s s') (fun e _ => P e) s := by
  refine wp_mono (iput_spec hi hl) ?_ fun _ _ he => he
  rintro _ s' ⟨hi', hs | ⟨hf, hnot⟩⟩
  · exact ⟨hi', hs.sameDir dp⟩
  · have hne : dp ≠ ip := fun heq => hnot (heq ▸ hl dp hm)
    exact ⟨hi', by rw [hf.cur dp hne], by rw [hf.cur dp hne], hf.byte hne⟩

theorem length_strncpy (name : Name) : (strncpy name).length = dirsiz := by
  have : (cstr name).length ≤ dirsiz := by
    rw [cstr]
    exact (List.takeWhile_sublist _).length_le.trans (List.length_take_le _ _)
  rw [strncpy, List.length_append, List.length_replicate]
  omega

theorem length_bytes {de : Dirent} (hn : de.name.length = dirsiz) : de.bytes.length = desize := by
  rw [Dirent.bytes, List.length_append, hn]
  rfl

/-- What `dirlink` does. -/
def Linked (dp : ℕ) (name : Name) (inum : ℕ) (s : State) (r : Bool) (s' : State) : Prop :=
  r = false ∧ State.SameDir dp s s' ∧
      ((∃ k < s.nents dp, s.Matches dp name k) ∨
        (∀ k < s.nents dp, (s.ent dp k).inum ≠ 0) ∧ NoSpace dp (s.nents dp) s s') ∨
    r = true ∧ (∀ k < s.nents dp, ¬s.Matches dp name k) ∧
      ∃ k ≤ s.nents dp, (k < s.nents dp → (s.ent dp k).inum = 0) ∧ k * desize ≤ (s.cur dp).size ∧
        Entered dp k ⟨inum % 2 ^ 16, strncpy name⟩ s s'

theorem dirlink_spec {name : Name} {inum : ℕ} (hi : Inv s h l) (hm : dp ∈ l)
    (hdir : (s.cur dp).type ≠ .dir → P .notDir)
    (hread : ¬desize ∣ (s.cur dp).size → P .lookupRead ∧ P .linkRead)
    (hnode : (∃ k < s.nents dp, s.Matches dp name k) → ninode ≤ active s → P .noInodes) :
    wp (dirlink dp name inum) (fun r s' => Inv s' h l ∧ Linked dp name inum s r s')
      (fun e _ => P e) s := by
  have hr := hi.locked_ready hm
  rw [dirlink]
  refine wp_seq (dirlookup_spec hi hm hdir (fun hn => (hread hn).1) hnode) ?_
  rintro (_ | ⟨ip, off⟩) s₁ ⟨ht, hfound⟩
  · obtain ⟨rfl, hno⟩ := hfound
    have hno' : ∀ k < s₁.nents dp, ¬s₁.Matches dp name k := fun k hk =>
      hno k (mem_offsets_of_lt hk)
    rw [dinodeOf]
    simp only [wp_bind, wp_get, wp_pure, ← hr.cur]
    refine wp_mono (emptyFrom_spec hi hm ht (fun hn => (hread hn).2) _ fun off => mem_offsets) ?_
      fun _ _ he => he
    rintro off s₁ ⟨rfl, hoff⟩
    -- the entry to be written is an empty one, or the one after the last if there is none
    have hslot : ∃ k ≤ s₁.nents dp, (k < s₁.nents dp → (s₁.ent dp k).inum = 0) ∧
        (k = s₁.nents dp → ∀ j < s₁.nents dp, (s₁.ent dp j).inum ≠ 0) ∧
        k * desize = off ∧ k * desize ≤ (s₁.cur dp).size := by
      rcases hoff with ⟨k, hk, rfl, h0⟩ | ⟨rfl, hall⟩
      · refine ⟨k, hk.le, fun _ => h0, fun heq => absurd heq hk.ne, rfl, ?_⟩
        exact (Nat.mul_le_mul_right _ hk.le).trans (Nat.div_mul_le_self _ _)
      · have hdvd : desize ∣ (s₁.cur dp).size := by
          by_contra hn
          have hlast := (hall ((s₁.cur dp).size / desize) ?_).1
          · simp only [desize] at hlast
            omega
          · refine List.mem_map.mpr ⟨_, List.mem_range.mpr ?_, rfl⟩
            simp only [desize] at hn ⊢
            omega
        exact ⟨s₁.nents dp, le_rfl, fun hlt => absurd hlt (lt_irrefl _),
          fun _ j hj => (hall j (mem_offsets_of_lt hj)).2, Nat.div_mul_cancel hdvd,
          (Nat.div_mul_cancel hdvd).le⟩
    obtain ⟨k, hk, h0, hall, rfl, hle⟩ := hslot
    refine wp_mono (writeEnt_spec hi hm (length_bytes (length_strncpy name)) hle) ?_
      fun _ _ he => he
    rintro r s' ⟨hi', ⟨rfl, hun, hspace⟩ | ⟨rfl, hen⟩⟩
    · obtain rfl : k = s₁.nents dp :=
        hk.eq_of_not_lt fun hlt => hi.has_space hm ht hlt hspace
      exact ⟨hi', Or.inl ⟨rfl, hun.sameDir, Or.inr ⟨hall rfl, hspace⟩⟩⟩
    · exact ⟨hi', Or.inr ⟨rfl, hno', k, hk, h0, hle, hen⟩⟩
  · obtain ⟨hi₁, hs₁, k, hk, -, hmatch, -⟩ := hfound
    simp only [wp_bind, wp_pure]
    refine wp_mono (iput_sameDir hi₁ hm fun i him => hs₁.kept.mpr (hi.kept i him)) ?_
      fun _ _ he => he
    rintro _ s' ⟨hi', hs'⟩
    exact ⟨hi', Or.inl ⟨rfl, (hs₁.sameDir dp).trans hs', Or.inl ⟨k, hk, hmatch⟩⟩⟩

end

end Fs

end Xv6
