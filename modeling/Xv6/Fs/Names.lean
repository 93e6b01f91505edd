import Xv6.Fs.Owned

/-!
# Directories as maps

A directory is a file of entries, and `State.lookup` is the map from names to inodes and offsets
that the entries make. `dirlookup` computes it, `dirlink` adds a name to it, and the clearing of an
entry by `sys_unlink` removes one. No two entries in use have the same name, for `dirlink` looks the
name up first; this is what makes the map the same whichever of the matching entries a search finds.

Names are equal if `strncmp` with the bound `DIRSIZ` says so, so a name of `DIRSIZ` bytes needs no
terminator (`cstr_strncpy`).
-/

namespace Xv6

namespace Fs

open StateLogic State

section

variable {s s₁ s' : State} {h l : List ℕ} {dp k : ℕ} {name name' : Name} {de : Dirent}

/-! ### The map -/

/-- The inode and the offset of the entry for a name. -/
def State.lookup (s : State) (dp : ℕ) (name : Name) : Option (ℕ × ℕ) :=
  ((List.range (s.nents dp)).find? fun k =>
    (s.ent dp k).inum != 0 && nameeq name (s.ent dp k).name).map fun k =>
      ((s.ent dp k).inum, k * desize)

/-- A directory of whole entries, no two of which are in use for the same name. -/
structure State.IsDir (s : State) (dp : ℕ) : Prop where
  type : (s.cur dp).type = .dir
  dvd : desize ∣ (s.cur dp).size
  distinct : ∀ k < s.nents dp, ∀ k' < s.nents dp, (s.ent dp k).inum ≠ 0 → (s.ent dp k').inum ≠ 0 →
    cstr (s.ent dp k).name = cstr (s.ent dp k').name → k = k'

theorem nameeq_iff {a b : List UInt8} : nameeq a b = true ↔ cstr a = cstr b := beq_iff_eq

theorem lookup_eq_none_iff : s.lookup dp name = none ↔ ∀ k < s.nents dp, ¬s.Matches dp name k := by
  rw [State.lookup, Option.map_eq_none_iff, List.find?_eq_none]
  simp only [List.mem_range, Bool.and_eq_true, bne_iff_ne]
  rfl

theorem State.IsDir.lookup_eq_some_iff (hd : s.IsDir dp) {i off : ℕ} :
    s.lookup dp name = some (i, off) ↔
      ∃ k < s.nents dp, s.Matches dp name k ∧ (s.ent dp k).inum = i ∧ k * desize = off := by
  rw [State.lookup, Option.map_eq_some_iff]
  constructor
  · rintro ⟨k, hk, heq⟩
    obtain ⟨rfl, rfl⟩ := Prod.mk.inj heq
    have hmatch := List.find?_some hk
    simp only [Bool.and_eq_true, bne_iff_ne] at hmatch
    exact ⟨k, List.mem_range.mp (List.mem_of_find?_eq_some hk), hmatch, rfl, rfl⟩
  · rintro ⟨k, hk, hmatch, rfl, rfl⟩
    cases hf : (List.range (s.nents dp)).find? fun k =>
        (s.ent dp k).inum != 0 && nameeq name (s.ent dp k).name with
    | none =>
      have := List.find?_eq_none.mp hf k (List.mem_range.mpr hk)
      simp only [Bool.and_eq_true, bne_iff_ne] at this
      exact absurd hmatch this
    | some k' =>
      have hmatch' := List.find?_some hf
      simp only [Bool.and_eq_true, bne_iff_ne] at hmatch'
      have hk' := List.mem_range.mp (List.mem_of_find?_eq_some hf)
      obtain rfl := hd.distinct k' hk' k hk hmatch'.1 hmatch.1
        ((nameeq_iff.mp hmatch'.2).symm.trans (nameeq_iff.mp hmatch.2))
      exact ⟨k', rfl, rfl⟩

theorem State.SameDir.ent (hs : SameDir dp s s') (k : ℕ) : s'.ent dp k = s.ent dp k := by
  simp only [State.ent, hs.byte]

theorem State.SameDir.nents (hs : SameDir dp s s') : s'.nents dp = s.nents dp := by
  rw [State.nents, State.nents, hs.size]

theorem State.SameDir.lookup (hs : SameDir dp s s') (name : Name) :
    s'.lookup dp name = s.lookup dp name := by
  simp only [State.lookup, hs.nents, hs.ent]

theorem State.SameDir.isDir (hs : SameDir dp s s') (hd : s.IsDir dp) : s'.IsDir dp := by
  refine ⟨hs.type.trans hd.type, hs.size.symm ▸ hd.dvd, ?_⟩
  simp only [hs.nents, hs.ent]
  exact hd.distinct

/-! ### Writing an entry -/

/-- Entry `k` of the directory is written. -/
structure State.Puts (dp k : ℕ) (de : Dirent) (s s' : State) : Prop where
  type : (s'.cur dp).type = (s.cur dp).type
  size : (s'.cur dp).size = max (s.cur dp).size ((k + 1) * desize)
  byte : ∀ x, s'.byte dp x =
    if k * desize ≤ x ∧ x < (k + 1) * desize then de.bytes.getD (x - k * desize) 0
    else s.byte dp x

theorem Entered.puts (he : Entered dp k de s s') : Puts dp k de s s' := by
  obtain ⟨a, ha⟩ := he.cur_self
  exact ⟨by rw [ha], by rw [ha], he.byte⟩

/-- An entry is what its bytes say. -/
theorem ofBytes_bytes (hi : de.inum < 2 ^ 16) : Dirent.ofBytes de.bytes = de := by
  obtain ⟨inum, name⟩ := de
  simp only [Dirent.ofBytes, Dirent.bytes, List.cons_append, List.nil_append, List.drop_succ_cons,
    List.drop_zero, Dirent.mk.injEq, and_true]
  change (UInt8.ofNat inum).toNat + 256 * (UInt8.ofNat (inum / 256)).toNat = inum
  rw [UInt8.toNat_ofNat', UInt8.toNat_ofNat']
  simp only at hi
  omega

theorem State.Puts.ent (hp : Puts dp k de s s') (hi : de.inum < 2 ^ 16)
    (hn : de.name.length = dirsiz) (j : ℕ) :
    s'.ent dp j = if j = k then de else s.ent dp j := by
  have hlen := length_bytes hn
  by_cases hj : j = k
  · subst hj
    rw [if_pos rfl, State.ent]
    have hbytes : ((List.range desize).map fun x => s'.byte dp (j * desize + x)) = de.bytes := by
      refine List.ext_getElem (by simp [hlen]) fun x hx hx' => ?_
      simp only [List.length_map, List.length_range] at hx
      simp only [List.getElem_map, List.getElem_range, hp.byte]
      rw [if_pos (by rw [Nat.add_mul, Nat.one_mul]; omega), Nat.add_sub_cancel_left, List.getD,
        List.getElem?_eq_getElem hx']
      rfl
    rw [hbytes, ofBytes_bytes hi]
  · rw [if_neg hj, State.ent, State.ent]
    congr 1
    refine List.map_congr_left fun x hx => ?_
    have hx := List.mem_range.mp hx
    rw [hp.byte, if_neg]
    simp only [desize] at hx ⊢
    omega

theorem State.Puts.nents (hp : Puts dp k de s s') (hd : s.IsDir dp) :
    s'.nents dp = max (s.nents dp) (k + 1) := by
  obtain ⟨m, hm⟩ := hd.dvd
  rw [State.nents, State.nents, hp.size, hm]
  simp only [desize]
  omega

theorem cstr_append_zeros {a : List UInt8} (h0 : ∀ x ∈ a, x ≠ 0) (ha : a.length ≤ dirsiz) :
    cstr (a ++ List.replicate (dirsiz - a.length) 0) = a := by
  rw [cstr, List.take_of_length_le (by simp; omega), List.takeWhile_append_of_pos (by simpa using h0)]
  cases hz : dirsiz - a.length with
  | zero => simp
  | succ m => simp [List.replicate_succ]

/-- A name is found again, whether or not it fills the entry. -/
theorem cstr_strncpy (name : Name) : cstr (strncpy name) = cstr name := by
  rw [strncpy]
  refine cstr_append_zeros (fun x hx => ?_) ?_
  · exact of_decide_eq_true (List.all_eq_true.mp (List.all_takeWhile ..) x hx)
  · rw [cstr]
    exact (List.takeWhile_sublist _).length_le.trans (List.length_take_le _ _)

section

variable {inum : ℕ} (hp : Puts dp k ⟨inum % 2 ^ 16, strncpy name⟩ s s') (hd : s.IsDir dp)
  (hno : ∀ j < s.nents dp, ¬s.Matches dp name j)

include hp in
theorem State.Puts.ent_new :
    (s'.ent dp k).inum = inum % 2 ^ 16 ∧ cstr (s'.ent dp k).name = cstr name := by
  rw [hp.ent (Nat.mod_lt _ (by decide)) (length_strncpy name), if_pos rfl]
  exact ⟨rfl, cstr_strncpy name⟩

include hp in
theorem State.Puts.ent_old {j : ℕ} (hj : j ≠ k) : s'.ent dp j = s.ent dp j := by
  rw [hp.ent (Nat.mod_lt _ (by decide)) (length_strncpy name), if_neg hj]

include hp hd hno in
/-- An entry in use other than the new one was there, and has another name. -/
theorem State.Puts.other (hk : k ≤ s.nents dp) {j : ℕ} (hj : j < s'.nents dp) (hjk : j ≠ k)
    (h0 : (s'.ent dp j).inum ≠ 0) : j < s.nents dp ∧ cstr (s'.ent dp j).name ≠ cstr name := by
  have hj' : j < s.nents dp := by
    have := hp.nents hd
    omega
  rw [hp.ent_old hjk] at h0 ⊢
  exact ⟨hj', fun heq => hno j hj' ⟨h0, nameeq_iff.mpr heq.symm⟩⟩

include hp hd hno in
/-- A name that is not there is put into an empty entry or after the last one. -/
theorem State.Puts.isDir_link (hk : k ≤ s.nents dp) : s'.IsDir dp := by
  have hother : ∀ {j}, j < s'.nents dp → j ≠ k → (s'.ent dp j).inum ≠ 0 →
      j < s.nents dp ∧ cstr (s'.ent dp j).name ≠ cstr name := hp.other hd hno hk
  refine ⟨hp.type.trans hd.type, ?_, fun j hj j' hj' h0 h0' heq => ?_⟩
  · rw [hp.size]
    rcases max_choice (s.cur dp).size ((k + 1) * desize) with hmax | hmax
    · rw [hmax]
      exact hd.dvd
    · rw [hmax]
      exact Nat.dvd_mul_left ..
  · by_cases hjk : j = k
    · by_cases hjk' : j' = k
      · rw [hjk, hjk']
      · refine absurd ?_ (hother hj' hjk' h0').2
        rw [← heq, hjk, hp.ent_new.2]
    · have hj₁ := hother hj hjk h0
      by_cases hjk' : j' = k
      · refine absurd ?_ hj₁.2
        rw [heq, hjk', hp.ent_new.2]
      · have hj₂ := hother hj' hjk' h0'
        rw [hp.ent_old hjk] at h0 heq
        rw [hp.ent_old hjk'] at h0' heq
        exact hd.distinct j hj₁.1 j' hj₂.1 h0 h0' heq

include hp hd hno in
theorem State.Puts.lookup_link (hk : k ≤ s.nents dp)
    (hempty : k < s.nents dp → (s.ent dp k).inum = 0) (hi : 0 < inum) (hi' : inum < 2 ^ 16)
    (name' : Name) : s'.lookup dp name' =
      if cstr name' = cstr name then some (inum, k * desize) else s.lookup dp name' := by
  have hd' := hp.isDir_link hd hno hk
  have hents := hp.nents hd
  have hnew := hp.ent_new
  rw [Nat.mod_eq_of_lt hi'] at hnew
  split
  · rename_i heq
    refine hd'.lookup_eq_some_iff.mpr ⟨k, by omega, ⟨?_, nameeq_iff.mpr ?_⟩, hnew.1, rfl⟩
    · rw [hnew.1]
      omega
    · rw [hnew.2, heq]
  · rename_i hne
    refine Option.ext fun ⟨i, off⟩ => ?_
    rw [hd'.lookup_eq_some_iff, hd.lookup_eq_some_iff]
    constructor
    · rintro ⟨j, hj, hmatch, rfl, rfl⟩
      have hjk : j ≠ k := by
        rintro rfl
        exact hne ((nameeq_iff.mp hmatch.2).trans hnew.2)
      have hj' := (hp.other hd hno hk hj hjk hmatch.1).1
      rw [State.Matches, hp.ent_old hjk] at hmatch
      exact ⟨j, hj', hmatch, by rw [hp.ent_old hjk], rfl⟩
    · rintro ⟨j, hj, hmatch, rfl, rfl⟩
      have hjk : j ≠ k := by
        rintro rfl
        exact hmatch.1 (hempty hj)
      refine ⟨j, by omega, ?_, by rw [hp.ent_old hjk], rfl⟩
      rw [State.Matches, hp.ent_old hjk]
      exact hmatch

end

/-- The entry of a name is cleared. -/
theorem State.Puts.unlink (hp : Puts dp k ⟨0, List.replicate dirsiz 0⟩ s s') (hd : s.IsDir dp)
    (hk : k < s.nents dp) (hmatch : s.Matches dp name k) :
    s'.IsDir dp ∧ ∀ name', s'.lookup dp name' =
      if cstr name' = cstr name then none else s.lookup dp name' := by
  have hent := hp.ent (by decide) (List.length_replicate ..)
  have hents : s'.nents dp = s.nents dp := by
    rw [hp.nents hd]
    omega
  have hold : ∀ j, j ≠ k → s'.ent dp j = s.ent dp j := fun j hj => by rw [hent, if_neg hj]
  have huse : ∀ j, (s'.ent dp j).inum ≠ 0 → j ≠ k := by
    rintro j h0 rfl
    rw [hent, if_pos rfl] at h0
    exact h0 rfl
  have hd' : s'.IsDir dp := by
    refine ⟨hp.type.trans hd.type, ?_, fun j hj j' hj' h0 h0' heq => ?_⟩
    · have hle : (k + 1) * desize ≤ (s.cur dp).size := by
        have := Nat.div_mul_le_self (s.cur dp).size desize
        exact (Nat.mul_le_mul_right _ hk).trans this
      rw [hp.size, max_eq_left hle]
      exact hd.dvd
    · have hjk := huse j h0
      have hjk' := huse j' h0'
      rw [hold j hjk] at h0 heq
      rw [hold j' hjk'] at h0' heq
      exact hd.distinct j (hents ▸ hj) j' (hents ▸ hj') h0 h0' heq
  -- the other entries in use have other names
  have hother : ∀ j < s.nents dp, ∀ name', s.Matches dp name' j → cstr name' = cstr name → j = k := by
    intro j hj name' hm heq
    refine hd.distinct j hj k hk hm.1 hmatch.1 ?_
    rw [← nameeq_iff.mp hm.2, heq, nameeq_iff.mp hmatch.2]
  refine ⟨hd', fun name' => ?_⟩
  split
  · rename_i heq
    refine lookup_eq_none_iff.mpr fun j hj hm => ?_
    have hjk := huse j hm.1
    rw [State.Matches, hold j hjk] at hm
    exact hjk (hother j (hents ▸ hj) name' hm heq)
  · rename_i hne
    refine Option.ext fun ⟨i, off⟩ => ?_
    rw [hd'.lookup_eq_some_iff, hd.lookup_eq_some_iff, hents]
    refine exists_congr fun j => and_congr_right fun hj => ?_
    by_cases hjk : j = k
    · subst hjk
      have hno : ¬s'.Matches dp name' j := fun hm => huse j hm.1 rfl
      have hno' : ¬s.Matches dp name' j := fun hm =>
        hne ((nameeq_iff.mp hm.2).trans (nameeq_iff.mp hmatch.2).symm)
      exact ⟨fun hm => absurd hm.1 hno, fun hm => absurd hm.1 hno'⟩
    · rw [State.Matches, State.Matches, hold j hjk]

/-! ### The calls -/

/-- The states of a directory under `dirlink` and the clearing of entries. The directory is locked
at each of these, and between them the rest of the kernel leaves it as it is. At the start its
names are distinct, as they are if it is empty or made by `mkfs`. -/
inductive DirReach (dp : ℕ) : State → List ℕ → List ℕ → Prop
  | start {s : State} {h l : List ℕ} : Inv s h l → dp ∈ l → s.IsDir dp → DirReach dp s h l
  | link {s s' : State} {h l : List ℕ} {r : Bool} (name : Name) (inum : ℕ) : DirReach dp s h l →
      (dirlink dp name inum).run s = .ok r s' → DirReach dp s' h l
  | clear {s s' : State} {h l : List ℕ} {r : Bool} {ip off : ℕ} (name : Name) :
      DirReach dp s h l → s.lookup dp name = some (ip, off) →
      (writeEnt dp off ⟨0, List.replicate dirsiz 0⟩).run s = .ok r s' → DirReach dp s' h l
  | other {s s' : State} {h l h' l' : List ℕ} : DirReach dp s h l → Inv s' h' l' → dp ∈ l' →
      SameDir dp s s' → DirReach dp s' h' l'

/-- The only panic of a search: the name is there, and the inode table is full. -/
def TableFull (dp : ℕ) (name : Name) (s : State) (e : Panic) : Prop :=
  e = .noInodes ∧ s.lookup dp name ≠ none ∧ ninode ≤ active s

theorem exists_matches_iff :
    (∃ k < s.nents dp, s.Matches dp name k) ↔ s.lookup dp name ≠ none := by
  rw [ne_eq, lookup_eq_none_iff]
  push Not
  rfl

theorem dirlookup_lookup (hi : Inv s h l) (hm : dp ∈ l) (hd : s.IsDir dp) (name : Name) :
    wp (dirlookup dp name) (fun r s' => r = s.lookup dp name ∧ SameDir dp s s')
      (fun e _ => TableFull dp name s e) s := by
  refine wp_mono (dirlookup_spec hi hm (fun hne => absurd hd.type hne)
    (fun hne => absurd hd.dvd hne) fun hex hfull => ⟨rfl, exists_matches_iff.mp hex, hfull⟩) ?_
    fun _ _ he => he
  rintro (_ | ⟨ip, off⟩) s' ⟨-, hfound⟩
  · obtain ⟨rfl, hno⟩ := hfound
    refine ⟨(lookup_eq_none_iff.mpr fun k hk => hno k (mem_offsets_of_lt hk)).symm, rfl, rfl, ?_⟩
    exact fun _ => rfl
  · obtain ⟨-, hs, k, hk, rfl, hmatch, rfl⟩ := hfound
    exact ⟨(hd.lookup_eq_some_iff.mpr ⟨k, hk, hmatch, rfl, rfl⟩).symm, hs.sameDir dp⟩

theorem dirlink_lookup (hi : Inv s h l) (hm : dp ∈ l) (hd : s.IsDir dp) (name : Name)
    (inum : ℕ) :
    wp (dirlink dp name inum) (fun r s' => (Inv s' h l ∧ s'.IsDir dp) ∧
      (r = true ∧ (0 < inum → inum < 2 ^ 16 → ∃ off, ∀ name', s'.lookup dp name' =
          if cstr name' = cstr name then some (inum, off) else s.lookup dp name') ∨
        r = false ∧ (∀ name', s'.lookup dp name' = s.lookup dp name') ∧
          (s.lookup dp name ≠ none ∨
            (∀ k < s.nents dp, (s.ent dp k).inum ≠ 0) ∧ NoSpace dp (s.nents dp) s s')))
      (fun e _ => TableFull dp name s e) s := by
  refine wp_mono (dirlink_spec hi hm (fun hne => absurd hd.type hne)
    (fun hne => absurd hd.dvd hne) fun hex hfull => ⟨rfl, exists_matches_iff.mp hex, hfull⟩) ?_
    fun _ _ he => he
  rintro r s' ⟨hi', ⟨rfl, hs, hwhy⟩ | ⟨rfl, hno, k, hk, hempty, -, hen⟩⟩
  · rw [exists_matches_iff] at hwhy
    exact ⟨⟨hi', hs.isDir hd⟩, Or.inr ⟨rfl, hs.lookup, hwhy⟩⟩
  · refine ⟨⟨hi', hen.puts.isDir_link hd hno hk⟩, Or.inl ⟨rfl, fun h0 hlt => ⟨k * desize, ?_⟩⟩⟩
    exact hen.puts.lookup_link hd hno hk hempty h0 hlt

theorem clear_lookup (hi : Inv s h l) (hm : dp ∈ l) (hd : s.IsDir dp) {ip off : ℕ}
    (hl : s.lookup dp name = some (ip, off)) :
    wp (writeEnt dp off ⟨0, List.replicate dirsiz 0⟩) (fun r s' => (Inv s' h l ∧ s'.IsDir dp) ∧
      r = true ∧ ∀ name', s'.lookup dp name' =
        if cstr name' = cstr name then none else s.lookup dp name') (fun _ _ => False) s := by
  obtain ⟨k, hk, hmatch, -, rfl⟩ := hd.lookup_eq_some_iff.mp hl
  have hle : k * desize ≤ (s.cur dp).size :=
    (Nat.mul_le_mul_right _ hk.le).trans (Nat.div_mul_le_self _ _)
  refine wp_mono (writeEnt_spec hi hm (length_bytes (List.length_replicate ..)) hle) ?_
    fun _ _ he => he
  rintro r s' ⟨hi', ⟨-, -, hspace⟩ | ⟨rfl, hen⟩⟩
  · exact absurd hspace (hi.has_space hm hd.type hk)
  · obtain ⟨hd', hl'⟩ := hen.puts.unlink hd hk hmatch
    exact ⟨⟨hi', hd'⟩, rfl, hl'⟩

theorem DirReach.inv (hr : DirReach dp s h l) : Inv s h l ∧ dp ∈ l ∧ s.IsDir dp := by
  induction hr with
  | start hi hm hd => exact ⟨hi, hm, hd⟩
  | link name inum _ hrun ih =>
    obtain ⟨hi', hd'⟩ := (wp_ok (dirlink_lookup ih.1 ih.2.1 ih.2.2 name inum) hrun).1
    exact ⟨hi', ih.2.1, hd'⟩
  | clear name _ hl hrun ih =>
    obtain ⟨hi', hd'⟩ := (wp_ok (clear_lookup ih.1 ih.2.1 ih.2.2 hl) hrun).1
    exact ⟨hi', ih.2.1, hd'⟩
  | other _ hi hm hs ih => exact ⟨hi, hm, hs.isDir ih.2.2⟩

end

/-! ### A root directory with the file "a" -/

theorem isDir_root : (mkfs [[97]]).IsDir rootino := by
  have hfacts : ((mkfs [[97]]).cur rootino).type = .dir ∧
      ((mkfs [[97]]).cur rootino).size = 64 * desize ∧
      (∀ k < 64, 3 ≤ k → ((mkfs [[97]]).ent rootino k).inum = 0) ∧
      ∀ k < 3, ∀ k' < 3, cstr ((mkfs [[97]]).ent rootino k).name =
        cstr ((mkfs [[97]]).ent rootino k').name → k = k' := by decide +kernel
  obtain ⟨ht, hsize, hempty, hdist⟩ := hfacts
  have hents : (mkfs [[97]]).nents rootino = 64 := by
    rw [State.nents, hsize, Nat.mul_div_cancel _ (by decide)]
  refine ⟨ht, hsize ▸ Nat.dvd_mul_left .., fun k hk k' hk' h0 h0' heq => ?_⟩
  rw [hents] at hk hk'
  have hlt : ∀ k < 64, ((mkfs [[97]]).ent rootino k).inum ≠ 0 → k < 3 := fun k hk h0 => by
    by_contra hge
    exact h0 (hempty k hk (not_lt.mp hge))
  exact hdist k (hlt k hk h0) k' (hlt k' hk' h0') heq

/-- The root directory is locked, and 49 other inodes are in the table. -/
def fullTable : State :=
  (List.range' 3 49).foldl (fun s i => s.putInode i { ref := 1 })
    ((mkfs [[97]]).putInode rootino
      { ref := 1, valid := true, d := (mkfs [[97]]).dinode rootino })

theorem inv_foldl_putInode {s : State} {h l : List ℕ} (hi : Inv s h l) (is : List ℕ)
    (hnd : is.Nodup) (hz : ∀ i ∈ is, (s.itable i).ref = 0) :
    ∃ h', Inv (is.foldl (fun s i => s.putInode i { ref := 1 }) s) h' l ∧
      Same s (is.foldl (fun s i => s.putInode i { ref := 1 }) s) := by
  induction is generalizing s h with
  | nil => exact ⟨h, hi, .refl s⟩
  | cons i is ih =>
    obtain ⟨hni, hnd⟩ := List.nodup_cons.mp hnd
    have h0 := hi.refs i
    rw [hz i List.mem_cons_self] at h0
    have hput : Inv (s.putInode i { ref := 1 }) (i :: h) l ∧ Same s (s.putInode i { ref := 1 }) := by
      refine hi.putInode nofun ?_ (fun j hne => List.count_cons_of_ne hne.symm) fun j hj => ?_
      · change 1 = _
        rw [List.count_cons_self]
        omega
      · refine Or.inr ⟨?_, hj⟩
        rintro rfl
        exact absurd (hi.locked j hj).1 (by rw [hz j List.mem_cons_self]; exact lt_irrefl 0)
    obtain ⟨h', hi', hs'⟩ := ih hput.1 hnd fun j hj => by
      have hne : j ≠ i := fun heq => hni (heq ▸ hj)
      simp only [State.putInode, Function.update_of_ne hne]
      exact hz j (List.mem_cons_of_mem _ hj)
    exact ⟨h', hi', hput.2.trans hs'⟩

theorem fullTable_reach : ∃ h l, DirReach rootino fullTable h l := by
  have hidle : (mkfs [[97]]).Idle := (booted_mkfs _).idle (whole_mkfs (by decide))
  have hpoint : (mkfs [[97]]).pointers rootino = 1 := by
    have := (booted_mkfs [[97]]).refs rootino
    rw [← this]
    rfl
  obtain ⟨hi, hs⟩ : Inv ((mkfs [[97]]).putInode rootino
        { ref := 1, valid := true, d := (mkfs [[97]]).dinode rootino }) [] [rootino] ∧
      Same (mkfs [[97]]) ((mkfs [[97]]).putInode rootino
        { ref := 1, valid := true, d := (mkfs [[97]]).dinode rootino }) :=
    hidle.putInode (fun _ _ => ⟨by decide, by decide, rfl⟩) (by rw [hpoint]; rfl) (fun _ _ => rfl)
      fun i hm => Or.inl ⟨List.mem_singleton.mp hm, Nat.one_pos, rfl⟩
  obtain ⟨h', hi', hs'⟩ := inv_foldl_putInode hi (List.range' 3 49) (by decide) (by decide)
  refine ⟨h', [rootino], .start hi' List.mem_cons_self ?_⟩
  exact ((hs.trans hs').sameDir rootino).isDir isDir_root

end Fs

end Xv6
