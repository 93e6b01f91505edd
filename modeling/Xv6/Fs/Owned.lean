import Xv6.Fs.Dirs
import Xv6.Logic.Transition

/-!
# Block ownership is kept by every call

From a disk on which the free map marks exactly the metadata and the blocks of the allocated
inodes, each held once, every sequence of calls leads to such a disk again, and `bfree` never
meets a free block, as long as no directory has a hole. A hole lets `dirlookup` allocate a block
that no `iupdate` records.
-/

namespace Xv6

namespace Fs

open StateLogic State Transition

variable {s : State} {h l : List ℕ} {ip dp : ℕ} {p : Fin nproc}

/-! ### References that outlive a call -/

theorem State.pointers_cwd (hp : s.cwd p = some ip) : 0 < s.pointers ip := by
  rw [State.pointers, ← Finset.add_sum_erase _ _ (Finset.mem_univ p), if_pos hp]
  omega

theorem State.pointers_file {f : File} (hf : f ∈ s.files) : 0 < s.pointers f.ip := by
  have := List.count_pos_iff.mpr (List.mem_map_of_mem (f := File.ip) hf)
  rw [State.pointers]
  omega

/-- The current directory of a process is replaced. -/
theorem sum_cwd_update (cwd : Fin nproc → Option ℕ) (p : Fin nproc) (x : Option ℕ) (i : ℕ) :
    (∑ q, if Function.update cwd p x q = some i then 1 else 0) +
        (if cwd p = some i then 1 else 0) =
      (∑ q, if cwd q = some i then 1 else 0) + if x = some i then 1 else 0 := by
  rw [← Finset.add_sum_erase _ _ (Finset.mem_univ p),
    ← Finset.add_sum_erase Finset.univ (fun q => if cwd q = some i then 1 else 0)
      (Finset.mem_univ p), Function.update_self]
  have : ∀ q ∈ Finset.univ.erase p, (if Function.update cwd p x q = some i then 1 else 0) =
      if cwd q = some i then 1 else 0 := fun q hq => by
    rw [Function.update_of_ne (Finset.ne_of_mem_erase hq)]
  rw [Finset.sum_congr rfl this]
  omega

/-- References pass between the call and the process. -/
theorem State.Inv.reassign {h' : List ℕ} {fs : List File} {c : Fin nproc → Option ℕ}
    (hi : Inv s h l) (hc : ∀ i, h'.count i + ({ s with files := fs, cwd := c } : State).pointers i =
      h.count i + s.pointers i) : Inv { s with files := fs, cwd := c } h' l where
  owned := hi.owned.congr rfl rfl fun _ _ => rfl
  ready i hl := ⟨hl, (hi.ready i hl).lt, (hi.ready i hl).type⟩
  synced := hi.synced
  whole := hi.whole
  refs i := (hi.refs i).trans (hc i).symm
  locked := hi.locked

theorem State.Inv.unlock (hi : Inv s h l) : Inv s h [] := hi.weaken nofun

/-! ### The functions -/

/-- The panic that ownership excludes. -/
def NoFreeing (e : Panic) (_ : State) : Prop := e ≠ .freeing

theorem idup_keeps (hi : Inv s h l) (hk : s.Kept h ip) :
    wp (idup ip) (fun _ s' => Inv s' (ip :: h) l) NoFreeing s :=
  wp_mono (idup_spec (P := (· ≠ .freeing)) hi (hi.ref_pos.mpr hk)) (fun _ _ hs => hs.1)
    fun _ _ he => he

theorem iget_keeps (hi : Inv s h l) :
    wp (iget ip) (fun _ s' => Inv s' (ip :: h) l) NoFreeing s :=
  wp_mono (iget_spec (P := (· ≠ .freeing)) hi fun _ => nofun) (fun _ _ hs => hs.1)
    fun _ _ he => he

theorem ilock_keeps (hi : Inv s h l) (hk : s.Kept h ip) :
    wp (ilock ip) (fun _ s' => Inv s' h (ip :: l)) NoFreeing s :=
  wp_mono (ilock_spec (P := (· ≠ .freeing)) hi hk (fun _ => nofun) fun _ => nofun)
    (fun _ _ hs => hs.1) fun _ _ he => he

theorem iput_keeps (hi : Inv s (ip :: h) l) (hl : ∀ i ∈ l, i ∈ h) :
    wp (iput ip) (fun _ s' => Inv s' h l) NoFreeing s :=
  wp_mono (iput_spec (P := (· ≠ .freeing)) hi fun i hm => Or.inl (hl i hm)) (fun _ _ hs => hs.1)
    fun _ _ he => he

theorem ialloc_keeps {type : FileType} (hi : Inv s h l) :
    wp (ialloc type) (fun r s' => match r with
      | none => Inv s' h l
      | some ip => Inv s' (ip :: h) l) NoFreeing s := by
  refine wp_mono (ialloc_spec (P := (· ≠ .freeing)) hi fun _ => nofun) ?_ fun _ _ he => he
  rintro (_ | ip) s' hs
  · subst hs
    exact hi
  · exact hs.1

theorem dirlookup_keeps {name : Name} (hi : Inv s h l) (hm : dp ∈ l) :
    wp (dirlookup dp name) (fun r s' => match r with
      | none => Inv s' h l
      | some (ip, _) => Inv s' (ip :: h) l) NoFreeing s := by
  refine wp_mono (dirlookup_spec (P := (· ≠ .freeing)) hi hm (fun _ => nofun) (fun _ => nofun)
    fun _ _ => nofun) ?_ fun _ _ he => he
  rintro (_ | ⟨ip, off⟩) s' ⟨-, hf⟩
  · rw [hf.1]
    exact hi
  · exact hf.1

theorem dirlink_keeps {name : Name} {inum : ℕ} (hi : Inv s h l) (hm : dp ∈ l) :
    wp (dirlink dp name inum) (fun _ s' => Inv s' h l) NoFreeing s :=
  wp_mono (dirlink_spec (P := (· ≠ .freeing)) hi hm (fun _ => nofun) (fun _ => ⟨nofun, nofun⟩)
    fun _ _ => nofun) (fun _ _ hs => hs.1) fun _ _ he => he

/-- A locked inode is changed and written back. -/
theorem update_keeps {f : Dinode → Dinode} {Q : PUnit → State → Prop}
    (hf : ∀ d, (f d).type = d.type ∧ (f d).addrs = d.addrs ∧ (f d).size = d.size)
    (hi : Inv s h l) (hm : ip ∈ l) (hQ : ∀ s', Inv s' h l → Q ⟨⟩ s') :
    wp (setDinode ip f) (fun _ s' => wp (iupdate ip) Q NoFreeing s') NoFreeing s := by
  have hr := hi.locked_ready hm
  rw [wp_update]
  have hd := hf (s.itable ip).d
  refine hQ _ (update_spec hi hm ?_ ?_ ?_).1
  · rw [hr.cur, hd.1]
  · rw [hr.cur, hd.2.1]
  · rw [hr.cur, hd.2.2]

theorem itrunc_keeps (hi : Inv s h l) (hl : s.Live ip) :
    wp (itrunc ip) (fun _ s' => Inv s' h l) NoFreeing s := by
  have hr := hi.ready ip hl
  refine wp_mono (itrunc_spec hi.owned.safe hr) (fun _ s' ht => ?_) fun _ _ he => he
  obtain ⟨a, ha, htab, hdin⟩ := ht.node
  have hlive : ∀ i, s'.Live i ↔ s.Live i := fun i => by
    rw [Live, Live, htab]
    by_cases hne : i = ip
    · subst hne
      rw [Function.update_self]
    · rw [Function.update_of_ne hne]
  have hcur : ∀ i, i ≠ ip → s'.cur i = s.cur i := fun i hne => by
    rw [State.cur, State.cur]
    simp only [hlive, htab, hdin, Function.update_of_ne hne]
  have hself : s'.cur ip = { (s.itable ip).d with addrs := a, size := 0 } := by
    rw [State.cur, if_pos ((hlive ip).mpr hl), htab, Function.update_self]
  have hhold : ∀ i, i ≠ ip → ∀ sl, s'.hold i sl = s.hold i sl := fun i hne sl => by
    rw [State.hold, State.hold, ht.sb, hcur i hne, ht.data]
  refine ⟨?_, fun i hli => ?_, fun i hli => ?_, fun i hlt hdir bn hbn => ?_, fun i => ?_,
    fun i hm => (hlive i).mpr (hi.locked i hm)⟩
  · refine hi.owned.drop (by rw [nmeta, nmeta, ht.sb]) ht.used (fun sl => ?_) hhold
    rw [State.hold, hself]
    cases sl with
    | direct k =>
      by_cases hk : k < ndirect
      · simp [Dinode.block, ha k hk.le]
      · simp [Dinode.block, hk]
    | indirect => simp [Dinode.block, ha ndirect le_rfl]
    | word j => simp [Dinode.block, ha ndirect le_rfl]
  · have hri := hi.ready i ((hlive i).mp hli)
    refine ⟨hli, ht.sb ▸ hri.lt, ?_⟩
    rw [htab]
    by_cases hne : i = ip
    · subst hne
      rw [Function.update_self]
      exact hri.type
    · rw [Function.update_of_ne hne]
      exact hri.type
  · rw [htab, hdin]
    by_cases hne : i = ip
    · subst hne
      rw [Function.update_self, Function.update_self]
    · rw [Function.update_of_ne hne, Function.update_of_ne hne]
      exact hi.synced i ((hlive i).mp hli)
  · by_cases hne : i = ip
    · subst hne
      rw [hself] at hbn
      exact absurd hbn (Nat.not_lt_zero _)
    · rw [hcur i hne] at hdir hbn
      rw [hhold i hne]
      exact hi.whole i (ht.sb ▸ hlt) hdir bn hbn
  · rw [htab, State.pointers, ht.files, ht.cwd]
    refine Eq.trans ?_ (hi.refs i)
    by_cases hne : i = ip
    · subst hne
      rw [Function.update_self]
    · rw [Function.update_of_ne hne]

/-- `namex` walks with one reference in hand. -/
theorem walk_keeps (parent : Bool) (hl : ∀ i ∈ l, i ∈ h) (names : List Name) :
    ∀ {s : State} {ip : ℕ}, Inv s (ip :: h) l →
    wp (walk parent ip names) (fun r s' => match r with
      | none => Inv s' h l
      | some (j, _) => Inv s' (j :: h) l) NoFreeing s := by
  induction names with
  | nil =>
    intro s ip hi
    rw [walk]
    split
    · exact wp_seq (iput_keeps hi hl) fun _ _ hi' => hi'
    · exact hi
  | cons name rest ih =>
    intro s ip hi
    rw [walk]
    refine wp_seq (ilock_keeps hi (Or.inl List.mem_cons_self)) fun _ s₁ hi₁ => ?_
    have hdrop : ∀ {s' h'}, Inv s' h' (ip :: l) → Inv s' h' l := fun hi' =>
      hi'.weaken fun i hm => List.mem_cons_of_mem _ hm
    have hput : ∀ {s'}, Inv s' (ip :: h) (ip :: l) →
        wp (do iput ip; return (none : Option (ℕ × Name))) (fun r s' => match r with
          | none => Inv s' h l
          | some (j, _) => Inv s' (j :: h) l) NoFreeing s' := fun hi' =>
      wp_seq (iput_keeps (hdrop hi') hl) fun _ _ hi'' => hi''
    rw [dinodeOf]
    simp only [wp_bind, wp_get, wp_pure, wp_ite]
    refine ⟨fun _ => wp_bind.mp (hput hi₁), fun _ => ⟨fun _ => hdrop hi₁, fun _ => ?_⟩⟩
    refine wp_mono (dirlookup_keeps hi₁ List.mem_cons_self) ?_ fun _ _ he => he
    rintro (_ | ⟨next, off⟩) s₂ hi₂
    · exact hput hi₂
    · have hi₂' : Inv s₂ (ip :: next :: h) l := (hdrop hi₂).perm (List.Perm.swap ip next h)
      refine wp_seq (iput_keeps hi₂' fun i hm => List.mem_cons_of_mem _ (hl i hm)) ?_
      exact fun _ s₃ hi₃ => ih hi₃

theorem namex_keeps {path : List UInt8} {parent : Bool} (hi : Inv s h l) (hl : ∀ i ∈ l, i ∈ h) :
    wp (namex p path parent) (fun r s' => match r with
      | none => Inv s' h l
      | some (j, _) => Inv s' (j :: h) l) NoFreeing s := by
  rw [namex]
  split
  · exact wp_seq (iget_keeps hi) fun _ s₁ hi₁ => walk_keeps parent hl _ hi₁
  · simp only [wp_bind, wp_get]
    cases hp : s.cwd p with
    | none => rintro ⟨⟩
    | some ip =>
      exact wp_seq (idup_keeps hi (Or.inr (pointers_cwd hp))) fun _ s₁ hi₁ =>
        walk_keeps parent hl _ hi₁

theorem namei_keeps {path : List UInt8} (hi : Inv s h l) (hl : ∀ i ∈ l, i ∈ h) :
    wp (namei p path) (fun r s' => match r with
      | none => Inv s' h l
      | some j => Inv s' (j :: h) l) NoFreeing s := by
  refine wp_seq (namex_keeps hi hl) ?_
  rintro (_ | ⟨j, name⟩) s₁ hi₁ <;> exact hi₁

theorem createEntries_keeps {type : FileType} {name : Name} (hi : Inv s h l) (hm : ip ∈ l)
    (hd : dp ∈ l) :
    wp (createEntries type ip dp name) (fun _ s' => Inv s' h l) NoFreeing s := by
  have hdots : wp (createDots type ip dp) (fun _ s' => Inv s' h l) NoFreeing s := by
    rw [createDots]
    simp only [wp_ite, wp_bind, wp_pure]
    refine ⟨fun _ => wp_mono (dirlink_keeps hi hm) (fun r s₁ hi₁ => ?_) fun _ _ he => he,
      fun _ => hi⟩
    exact ⟨fun _ => dirlink_keeps hi₁ hm, fun _ => hi₁⟩
  refine wp_seq hdots fun r s₁ hi₁ => ?_
  simp only [wp_ite, wp_pure]
  exact ⟨fun _ => dirlink_keeps hi₁ hd, fun _ => hi₁⟩

theorem createInode_keeps {type : FileType} {major minor : ℤ} {name : Name}
    (hi : Inv s (ip :: dp :: h) (dp :: l)) (hl : ∀ i ∈ l, i ∈ h) :
    wp (createInode type major minor ip dp name) (fun r s' => match r with
      | none => Inv s' h l
      | some i => Inv s' (i :: h) (i :: l)) NoFreeing s := by
  rw [createInode]
  refine wp_seq (ilock_keeps hi (Or.inl List.mem_cons_self)) fun _ s₁ hi₁ => ?_
  simp only [wp_bind]
  refine update_keeps (fun d => ⟨rfl, rfl, rfl⟩) hi₁ List.mem_cons_self fun s₂ hi₂ => ?_
  refine wp_mono (createEntries_keeps hi₂ List.mem_cons_self (by simp)) (fun r s₃ hi₃ => ?_)
    fun _ _ he => he
  -- on success the reference to the new inode is what is left
  have hdone : ∀ {s'}, Inv s' (ip :: dp :: h) (ip :: dp :: l) →
      wp (iput dp) (fun _ s'' => Inv s'' (ip :: h) (ip :: l)) NoFreeing s' := fun hi' => by
    refine iput_keeps ((hi'.perm (List.Perm.swap dp ip h)).weaken ?_) ?_
    · simp
      tauto
    · simp
      tauto
  simp only [wp_ite, wp_bind, wp_pure]
  refine ⟨fun _ => ⟨fun _ => ?_, fun _ => hdone hi₃⟩, fun _ => ?_⟩
  · exact update_keeps (fun d => ⟨rfl, rfl, rfl⟩) hi₃ (by simp) fun s₄ hi₄ => hdone hi₄
  · refine update_keeps (fun d => ⟨rfl, rfl, rfl⟩) hi₃ (by simp) fun s₄ hi₄ => ?_
    have hi₄' : Inv s₄ (ip :: dp :: h) (dp :: l) := hi₄.weaken fun i hm =>
      List.mem_cons_of_mem _ hm
    refine wp_mono (iput_keeps hi₄' ?_) (fun _ s₅ hi₅ => ?_) fun _ _ he => he
    · simp
      tauto
    · exact iput_keeps (hi₅.weaken fun i hm => List.mem_cons_of_mem _ hm) hl

theorem create_keeps {path : List UInt8} {type : FileType} {major minor : ℤ} (hi : Inv s h l)
    (hl : ∀ i ∈ l, i ∈ h) :
    wp (create p path type major minor) (fun r s' => match r with
      | none => Inv s' h l
      | some i => Inv s' (i :: h) (i :: l)) NoFreeing s := by
  have hdrop : ∀ {s' h' i}, Inv s' h' (i :: l) → Inv s' h' l := fun hi' =>
    hi'.weaken fun i hm => List.mem_cons_of_mem _ hm
  rw [create, nameiparent]
  refine wp_seq (namex_keeps hi hl) ?_
  rintro (_ | ⟨dp, name⟩) s₁ hi₁
  · exact hi₁
  · refine wp_seq (ilock_keeps hi₁ (Or.inl List.mem_cons_self)) fun _ s₂ hi₂ => ?_
    refine wp_seq (dirlookup_keeps hi₂ List.mem_cons_self) ?_
    rintro (_ | ⟨ip, off⟩) s₃ hi₃
    · refine wp_seq (ialloc_keeps hi₃) ?_
      rintro (_ | ip) s₄ hi₄
      · exact wp_seq (iput_keeps (hdrop hi₄) hl) fun _ s₅ hi₅ => hi₅
      · exact createInode_keeps hi₄ hl
    · have hi₃' : Inv s₃ (dp :: ip :: h) l := (hdrop hi₃).perm (List.Perm.swap dp ip h)
      refine wp_seq (iput_keeps hi₃' fun i hm => List.mem_cons_of_mem _ (hl i hm))
        fun _ s₄ hi₄ => ?_
      refine wp_seq (ilock_keeps hi₄ (Or.inl List.mem_cons_self)) fun _ s₅ hi₅ => ?_
      rw [dinodeOf]
      simp only [wp_bind, wp_get, wp_pure, wp_ite]
      exact ⟨fun _ => hi₅, fun _ => iput_keeps (hdrop hi₅) hl⟩

/-! ### The calls -/

/-- Between two calls. -/
def State.Idle (s : State) : Prop := Inv s [] []

theorem openInode_keeps {path : List UInt8} {omode : Mode} (hi : s.Idle) :
    wp (openInode p path omode) (fun r s' => match r with
      | none => Inv s' [] []
      | some i => Inv s' [i] [i]) NoFreeing s := by
  rw [openInode]
  split
  · exact create_keeps hi nofun
  · refine wp_seq (namei_keeps hi nofun) ?_
    rintro (_ | ip) s₁ hi₁
    · exact hi₁
    · refine wp_seq (ilock_keeps hi₁ (Or.inl List.mem_cons_self)) fun _ s₂ hi₂ => ?_
      rw [dinodeOf]
      simp only [wp_bind, wp_get, wp_pure, wp_ite]
      exact ⟨fun _ => iput_keeps hi₂.unlock nofun, fun _ => hi₂⟩

/-- A new open file takes over the reference. -/
theorem State.Inv.openFile {f : File} (hi : Inv s (f.ip :: h) l) :
    Inv { s with files := s.files ++ [f] } h l := by
  refine hi.reassign fun i => ?_
  simp only [State.pointers, List.map_append, List.map_cons, List.map_nil, List.count_append,
    List.count_cons, List.count_nil]
  omega

theorem sysOpen_keeps {path : List UInt8} {omode : Mode} {slot : Bool} (hi : s.Idle) :
    wp (sysOpen p path omode slot) (fun _ s' => s'.Idle) NoFreeing s := by
  rw [sysOpen]
  refine wp_seq (openInode_keeps hi) ?_
  rintro (_ | ip) s₁ hi₁
  · exact hi₁
  · have hput : wp (iput ip) (fun _ s' => s'.Idle) NoFreeing s₁ :=
      iput_keeps hi₁.unlock nofun
    simp only [dinodeOf, wp_bind, wp_get, wp_pure, wp_ite, wp_modify]
    refine ⟨fun _ => hput, fun _ => ⟨fun _ => hput, fun _ => ⟨fun _ => ?_, fun _ => ?_⟩⟩⟩
    · exact itrunc_keeps (State.Inv.openFile hi₁.unlock)
        (hi₁.locked ip List.mem_cons_self)
    · exact State.Inv.openFile hi₁.unlock

theorem linkEntry_keeps {new : List UInt8} (hi : Inv s h l) (hl : ∀ i ∈ l, i ∈ h) :
    wp (linkEntry p new ip) (fun _ s' => Inv s' h l) NoFreeing s := by
  rw [linkEntry, nameiparent]
  refine wp_seq (namex_keeps hi hl) ?_
  rintro (_ | ⟨dp, name⟩) s₁ hi₁
  · exact hi₁
  · refine wp_seq (ilock_keeps hi₁ (Or.inl List.mem_cons_self)) fun _ s₂ hi₂ => ?_
    refine wp_seq (dirlink_keeps hi₂ List.mem_cons_self) fun r s₃ hi₃ => ?_
    exact wp_seq (iput_keeps (hi₃.weaken fun i hm => List.mem_cons_of_mem _ hm) hl)
      fun _ s₄ hi₄ => hi₄

theorem sysLink_keeps {old new : List UInt8} (hi : s.Idle) :
    wp (sysLink p old new) (fun _ s' => s'.Idle) NoFreeing s := by
  rw [sysLink]
  refine wp_seq (namei_keeps hi nofun) ?_
  rintro (_ | ip) s₁ hi₁
  · exact hi₁
  · have hput : ∀ {s' l'}, Inv s' [ip] l' → wp (iput ip) (fun _ s'' => s''.Idle) NoFreeing s' :=
      fun hi' => iput_keeps hi'.unlock nofun
    refine wp_seq (ilock_keeps hi₁ (Or.inl List.mem_cons_self)) fun _ s₂ hi₂ => ?_
    rw [dinodeOf]
    simp only [wp_bind, wp_get, wp_pure, wp_ite]
    refine ⟨fun _ => hput hi₂, fun _ => ?_⟩
    refine update_keeps (fun d => ⟨rfl, rfl, rfl⟩) hi₂ List.mem_cons_self fun s₃ hi₃ => ?_
    refine wp_mono (linkEntry_keeps hi₃ fun i hm => hm) (fun r s₄ hi₄ => ?_) fun _ _ he => he
    refine ⟨fun _ => hput hi₄, fun _ => ?_⟩
    refine wp_mono (ilock_keeps hi₄ (Or.inl List.mem_cons_self)) (fun _ s₅ hi₅ => ?_)
      fun _ _ he => he
    exact update_keeps (fun d => ⟨rfl, rfl, rfl⟩) hi₅ List.mem_cons_self fun s₆ hi₆ => hput hi₆

theorem writei_keeps {src : Source} {off n : ℕ} (hi : Inv s h l) (hm : ip ∈ l) :
    wp (writei ip src off n) (fun _ s' => Inv s' h l) NoFreeing s :=
  wp_mono (writei_spec (P := (· ≠ .freeing)) hi hm src off n) (fun _ _ hs => hs.1)
    fun _ _ he => he

theorem unlinkEntry_keeps {type : FileType} {off : ℕ} (hi : Inv s [ip, dp] [ip, dp]) :
    wp (unlinkEntry type dp ip off) (fun _ s' => s'.Idle) NoFreeing s := by
  -- the end of the call, after the entry is cleared
  have hend : ∀ {s'}, Inv s' [ip, dp] [ip, dp] → wp (iput dp) (fun _ s₁ =>
      wp (setDinode ip fun d => { d with nlink := short (d.nlink - 1) }) (fun _ s₂ =>
        wp (iupdate ip) (fun _ s₃ => wp (iput ip) (fun _ s₄ => s₄.Idle) NoFreeing s₃)
          NoFreeing s₂) NoFreeing s₁) NoFreeing s' := fun hi' => by
    have hi'' : Inv _ [dp, ip] [ip] :=
      (hi'.perm (List.Perm.swap dp ip [])).weaken fun i hm => by simpa using Or.inl hm
    refine wp_mono (iput_keeps hi'' fun i hm => hm) (fun _ s₁ hi₁ => ?_) fun _ _ he => he
    refine update_keeps (fun d => ⟨rfl, rfl, rfl⟩) hi₁ List.mem_cons_self fun s₂ hi₂ => ?_
    exact iput_keeps hi₂.unlock (by rintro _ ⟨⟩)
  rw [unlinkEntry, writeEnt]
  simp only [wp_bind, wp_pure, wp_ite, wp_throw]
  refine wp_mono (writei_keeps hi (by simp)) (fun r s₁ hi₁ => ?_) fun _ _ he => he
  refine ⟨fun _ => ⟨fun _ => ?_, fun _ => hend hi₁⟩, fun _ => by rintro ⟨⟩⟩
  exact update_keeps (fun d => ⟨rfl, rfl, rfl⟩) hi₁ (by simp) fun s₂ hi₂ => hend hi₂

theorem unlinkInode_keeps {off : ℕ} (hi : Inv s [ip, dp] [dp]) :
    wp (unlinkInode dp ip off) (fun _ s' => s'.Idle) NoFreeing s := by
  -- what follows the check for emptiness
  have hrest : ∀ {s' r type}, Inv s' [ip, dp] [ip, dp] →
      (r = false → wp (iput ip) (fun _ s₁ => wp (iput dp) (fun _ s₂ => s₂.Idle) NoFreeing s₁)
          NoFreeing s') ∧
        (¬r = false → wp (unlinkEntry type dp ip off) (fun _ s₁ => s₁.Idle) NoFreeing s') :=
    fun hi' => by
      refine ⟨fun _ => ?_, fun _ => unlinkEntry_keeps hi'⟩
      refine wp_mono (iput_keeps hi'.unlock (by rintro _ ⟨⟩)) (fun _ s₁ hi₁ => ?_) fun _ _ he => he
      exact iput_keeps hi₁ (by rintro _ ⟨⟩)
  rw [unlinkInode]
  refine wp_seq (ilock_keeps hi (Or.inl List.mem_cons_self)) fun _ s₁ hi₁ => ?_
  have hr := hi₁.locked_ready List.mem_cons_self
  simp only [dinodeOf, wp_bind, wp_get, wp_pure, wp_ite, wp_throw]
  refine ⟨fun _ => by rintro ⟨⟩, fun _ => ⟨fun hdir => ?_, fun _ => hrest hi₁⟩⟩
  rw [← hr.cur] at hdir
  refine wp_mono (isdirempty_spec (P := (· ≠ .freeing)) hi₁ List.mem_cons_self hdir
    fun _ => by rintro ⟨⟩) ?_ fun _ _ he => he
  rintro r _ ⟨rfl, -⟩
  exact hrest hi₁

theorem sysUnlink_keeps {path : List UInt8} (hi : s.Idle) :
    wp (sysUnlink p path) (fun _ s' => s'.Idle) NoFreeing s := by
  rw [sysUnlink, nameiparent]
  refine wp_seq (namex_keeps hi nofun) ?_
  rintro (_ | ⟨dp, name⟩) s₁ hi₁
  · exact hi₁
  · refine wp_seq (ilock_keeps hi₁ (Or.inl List.mem_cons_self)) fun _ s₂ hi₂ => ?_
    simp only [wp_ite, wp_bind, wp_pure]
    refine ⟨fun _ => iput_keeps hi₂.unlock nofun, fun _ => ?_⟩
    refine wp_mono (dirlookup_keeps hi₂ List.mem_cons_self) ?_ fun _ _ he => he
    rintro (_ | ⟨ip, off⟩) s₃ hi₃
    · exact wp_seq (iput_keeps hi₃.unlock nofun) fun _ _ hi₄ => hi₄
    · exact unlinkInode_keeps hi₃

theorem createPut_keeps {path : List UInt8} {type : FileType} {major minor : ℤ} (hi : s.Idle) :
    wp (createPut p path type major minor) (fun _ s' => s'.Idle) NoFreeing s := by
  rw [createPut]
  refine wp_seq (create_keeps hi nofun) ?_
  rintro (_ | ip) s₁ hi₁
  · exact hi₁
  · exact wp_seq (iput_keeps hi₁.unlock nofun) fun _ _ hi₂ => hi₂

theorem State.pointers_setCwd (s : State) (p : Fin nproc) (x : Option ℕ) (i : ℕ) :
    ({ s with cwd := Function.update s.cwd p x } : State).pointers i +
        (if s.cwd p = some i then 1 else 0) = s.pointers i + if x = some i then 1 else 0 := by
  have hsum := sum_cwd_update s.cwd p x i
  simp only [State.pointers]
  omega

theorem count_toList (x : Option ℕ) (i : ℕ) : x.toList.count i = if x = some i then 1 else 0 := by
  cases x with
  | none => simp
  | some j => simp [List.count_cons]

/-- The reference of the current directory is given up before the directory is replaced. -/
theorem iputCwd_keeps {c : ℕ} {x : Option ℕ} (hp : s.cwd p = some c) (hi : Inv s x.toList l) :
    wp (iput c) (fun _ s' => State.Idle { s' with cwd := Function.update s'.cwd p x })
      NoFreeing s := by
  have hpos := s.pointers_cwd hp
  -- count the reference as one that the call holds
  have hrefs : ∀ i, (s.itable i).ref = (c :: x.toList).count i +
      (s.pointers i - if s.cwd p = some i then 1 else 0) := fun i => by
    rw [hi.refs i, List.count_cons, hp]
    by_cases hci : c = i
    · subst hci
      simp only [beq_self_eq_true, if_true]
      omega
    · simp [hci]
  have hi' : InvOf s (fun i => s.pointers i - if s.cwd p = some i then 1 else 0)
      (c :: x.toList) [] :=
    ⟨hi.owned, hi.ready, hi.synced, hi.whole, hrefs, nofun⟩
  refine wp_mono (iput_specOf (P := (· ≠ .freeing)) hi' nofun) ?_ fun _ _ he => he
  rintro _ s' ⟨hi₁, hs⟩
  have hfix : s'.files = s.files ∧ s'.cwd = s.cwd := by
    rcases hs with hs | ⟨hf, -⟩
    · exact ⟨hs.files, hs.cwd⟩
    · exact ⟨hf.files, hf.cwd⟩
  refine ⟨hi₁.owned.congr rfl rfl fun _ _ => rfl,
    fun i hl => ⟨hl, (hi₁.ready i hl).lt, (hi₁.ready i hl).type⟩, hi₁.synced, hi₁.whole,
    fun i => (hi₁.refs i).trans ?_, nofun⟩
  have hset := s'.pointers_setCwd p x i
  have hptr : s'.pointers i = s.pointers i := by
    rw [State.pointers, State.pointers, hfix.1, hfix.2]
  rw [hfix.2, hptr, hp] at hset
  rw [hp, count_toList, List.count_nil, Nat.zero_add, hfix.2]
  by_cases hci : c = i
  · subst hci
    simp only [if_true] at hset ⊢
    omega
  · simp only [Option.some.injEq, hci, if_false] at hset ⊢
    omega

theorem sysChdir_keeps {path : List UInt8} (hi : s.Idle) :
    wp (sysChdir p path) (fun _ s' => s'.Idle) NoFreeing s := by
  rw [sysChdir]
  refine wp_seq (namei_keeps hi (by rintro _ ⟨⟩)) ?_
  rintro (_ | ip) s₁ hi₁
  · exact hi₁
  · refine wp_seq (ilock_keeps hi₁ (Or.inl List.mem_cons_self)) fun _ s₂ hi₂ => ?_
    simp only [dinodeOf, wp_bind, wp_get, wp_pure, wp_ite]
    refine ⟨fun _ => iput_keeps hi₂.unlock (by rintro _ ⟨⟩), fun _ => ?_⟩
    cases hp : s₂.cwd p with
    | none => rintro ⟨⟩
    | some c => exact wp_seq (iputCwd_keeps (x := some ip) hp hi₂) fun _ _ hi₃ => hi₃

theorem exitCwd_keeps (hi : s.Idle) : wp (exitCwd p) (fun _ s' => s'.Idle) NoFreeing s := by
  rw [exitCwd]
  simp only [wp_bind, wp_get]
  cases hp : s.cwd p with
  | none => rintro ⟨⟩
  | some c => exact wp_seq (iputCwd_keeps (x := none) hp hi) fun _ _ hi₁ => hi₁

theorem forkCwd_keeps {q : Fin nproc} (hi : s.Idle) :
    wp (forkCwd p q) (fun _ s' => s'.Idle) NoFreeing s := by
  rw [forkCwd]
  simp only [wp_bind, wp_get]
  cases hp : s.cwd p with
  | none => rintro ⟨⟩
  | some ip =>
    cases hq : s.cwd q with
    | some j => rintro ⟨⟩
    | none =>
      refine wp_seq (wp_mono (idup_spec (P := (· ≠ .freeing)) hi
        (hi.ref_pos.mpr (Or.inr (pointers_cwd hp)))) (fun _ _ hs => hs) fun _ _ he => he) ?_
      rintro _ s₁ ⟨hi₁, hs₁⟩
      refine hi₁.reassign fun i => ?_
      have hset := s₁.pointers_setCwd q (some ip) i
      have hq₁ : s₁.cwd q = none := by rw [hs₁.cwd, hq]
      rw [hq₁] at hset
      rw [List.count_cons, List.count_nil]
      simp only [reduceCtorEq, if_false, Option.some.injEq, beq_iff_eq, Nat.zero_add,
        Nat.add_zero] at hset ⊢
      rw [hset]
      omega

theorem fileclose_keeps {i : ℕ} (hi : s.Idle) :
    wp (fileclose i) (fun _ s' => s'.Idle) NoFreeing s := by
  rw [fileclose]
  simp only [wp_bind, wp_get]
  cases hf : s.files[i]? with
  | none => rintro ⟨⟩
  | some f =>
    obtain ⟨hlt, rfl⟩ := List.getElem?_eq_some_iff.mp hf
    refine iput_keeps (hi.reassign fun j => ?_) (by rintro _ ⟨⟩)
    have hperm := (List.getElem_cons_eraseIdx_perm hlt).map File.ip
    have hcount := hperm.count_eq j
    rw [List.map_cons, List.count_cons] at hcount
    simp only [State.pointers, List.count_cons, List.count_nil]
    omega

theorem filewrite_keeps {i : ℕ} {src : Source} {n1 : ℕ} (hi : s.Idle) :
    wp (filewrite i src n1) (fun _ s' => s'.Idle) NoFreeing s := by
  rw [filewrite]
  simp only [wp_bind, wp_get]
  cases hf : s.files[i]? with
  | none => rintro ⟨⟩
  | some f =>
    obtain ⟨hlt, rfl⟩ := List.getElem?_eq_some_iff.mp hf
    have hkept : s.Kept [] (s.files[i]).ip := Or.inr (pointers_file (List.getElem_mem hlt))
    simp only [wp_ite, wp_pure, wp_bind, wp_modify]
    refine ⟨fun _ => hi, fun _ => ?_⟩
    refine wp_mono (ilock_spec (P := (· ≠ .freeing)) hi hkept (fun _ => by rintro ⟨⟩) fun _ => by rintro ⟨⟩) ?_
      fun _ _ he => he
    rintro _ s₁ ⟨hi₁, hs₁⟩
    refine wp_mono (writei_spec (P := (· ≠ .freeing)) hi₁ List.mem_cons_self src _ n1) ?_
      fun _ _ he => he
    rintro r s₂ ⟨hi₂, hw⟩
    have hfiles : s₂.files = s.files := by
      rcases hw with rfl | hw
      · exact hs₁.files
      · rw [hw.files, hs₁.files]
    refine hi₂.unlock.reassign (c := s₂.cwd) fun j => ?_
    have hmap : (s₂.files.set i { s.files[i] with off := (s.files[i]).off + r.getD 0 }).map
        File.ip = s₂.files.map File.ip := by
      rw [List.map_set, hfiles]
      refine List.ext_getElem? fun k => ?_
      rw [List.getElem?_set]
      split
      · rename_i hik
        subst hik
        simp [hlt]
      · rfl
    simp only [State.pointers, hmap]

/-- Every call keeps the invariant. -/
theorem run_keeps (c : Call) (hi : s.Idle) :
    wp c.run (fun _ s' => s'.Idle) NoFreeing s := by
  cases c with
  | «open» p path omode slot => exact wp_seq (sysOpen_keeps hi) fun _ _ hi' => hi'
  | link p old new => exact wp_seq (sysLink_keeps hi) fun _ _ hi' => hi'
  | unlink p path => exact wp_seq (sysUnlink_keeps hi) fun _ _ hi' => hi'
  | mkdir p path => exact wp_seq (createPut_keeps hi) fun _ _ hi' => hi'
  | mknod p path major minor => exact wp_seq (createPut_keeps hi) fun _ _ hi' => hi'
  | chdir p path => exact wp_seq (sysChdir_keeps hi) fun _ _ hi' => hi'
  | write i src n1 => exact wp_seq (filewrite_keeps hi) fun _ _ hi' => hi'
  | close i => exact fileclose_keeps hi
  | fork p q => exact forkCwd_keeps hi
  | exit p => exact exitCwd_keeps hi

theorem step_eq_some {c : Call} {s' : State} (hs : step s c = some s') :
    ∃ r, c.run.run s = .ok r s' := by
  rw [step] at hs
  split at hs
  · rename_i r s₁ heq
    cases hs
    exact ⟨r, heq⟩
  · cases hs

theorem step_keeps {c : Call} {s' : State} (hi : s.Idle) (hs : step s c = some s') : s'.Idle := by
  obtain ⟨r, hr⟩ := step_eq_some hs
  have hidle := wp_ok (run_keeps c hi) hr
  exact hidle

/-! ### Runs -/

/-- The block that an inode on disk refers to in a slot. -/
def State.refers (s : State) (i : ℕ) (sl : Slot) : ℕ :=
  if i < s.sb.ninodes ∧ (s.dinode i).type ≠ .free then (s.dinode i).block s.data sl else 0

/-- On disk, the free map marks exactly the metadata blocks and the blocks that allocated inodes
refer to, each of them referred to once. -/
def State.Accounted (s : State) : Prop :=
  Ownership.Exact (owns s.nmeta s.refers) {b | s.used b = true}

/-- A disk just after boot: no inode is in memory except for current directories. -/
structure Booted (s : State) : Prop where
  accounted : s.Accounted
  meta_pos : 0 < s.nmeta
  valid : ∀ i, (s.itable i).valid = false
  refs : ∀ i, (s.itable i).ref = s.pointers i

/-- No directory has a hole. -/
def State.Whole (s : State) : Prop :=
  ∀ i, i < s.sb.ninodes → (s.dinode i).type = .dir →
    ∀ bn, bn * bsize < (s.dinode i).size → s.refers i (slotOf bn) ≠ 0

theorem State.Idle.refers (hi : s.Idle) : s.refers = s.hold := by
  funext i sl
  rw [State.refers, State.hold, hi.cur_dinode]

theorem Booted.idle (hb : Booted s) (hw : s.Whole) : s.Idle := by
  have hdead : ∀ i, ¬s.Live i := fun i hl => by
    have := hl.2
    rw [hb.valid i] at this
    cases this
  have hcur : s.cur = s.dinode := funext fun i => if_neg (hdead i)
  have hhold : s.hold = s.refers := by
    funext i sl
    rw [State.refers, State.hold, hcur]
  refine ⟨⟨?_, hb.meta_pos⟩, fun i hl => absurd hl (hdead i), fun i hl => absurd hl (hdead i),
    fun i hlt hdir bn hbn => ?_, fun i => ?_, by rintro _ ⟨⟩⟩
  · rw [hhold]
    exact hb.accounted
  · rw [hcur] at hdir hbn
    rw [hhold]
    exact hw i hlt hdir bn hbn
  · rw [hb.refs i, List.count_nil, Nat.zero_add]

theorem idle_of_reach (hr : Reach (fun s => Booted s ∧ s.Whole) step Any s) : s.Idle :=
  hr.inv (fun _ hs => hs.1.idle hs.2) fun _ _ _ hi _ hs => step_keeps hi hs

/-- Every sequence of calls on a disk whose directories have no holes keeps the blocks accounted
for, and no call frees a block that is free. -/
theorem blocks_accounted (hr : Reach (fun s => Booted s ∧ s.Whole) step Any s) :
    s.Accounted ∧ ∀ (c : Call) e s', c.run.run s = .error e s' → e ≠ .freeing := by
  have hi := idle_of_reach hr
  refine ⟨?_, fun c e s' he => ?_⟩
  · rw [State.Accounted, hi.refers]
    exact hi.owned.exact
  · have hno := wp_error (run_keeps c hi) he
    exact hno

section Image

variable {names : List Name}

theorem nmeta_mkfs (names : List Name) : (mkfs names).nmeta = 47 := by
  simp [State.nmeta, mkfs]

theorem used_mkfs (names : List Name) (b : ℕ) : (mkfs names).used b = true ↔ b < 48 :=
  decide_eq_true_iff

/-- The image refers to one block, which has the entries of the root directory. -/
theorem refers_mkfs (names : List Name) (i : ℕ) (sl : Slot) :
    (mkfs names).refers i sl = if i = rootino ∧ sl = .direct 0 then 47 else 0 := by
  rw [State.refers]
  by_cases hi : i = rootino
  · subst hi
    have hroot : rootino < (mkfs names).sb.ninodes ∧
        ((mkfs names).dinode rootino).type ≠ .free := ⟨show 1 < 200 by decide, nofun⟩
    rw [if_pos hroot]
    cases sl with
    | direct k =>
      by_cases hk : k = 0
      · subst hk
        rfl
      · simp [mkfs, Dinode.block, hk]
    | indirect => rfl
    | word j => simp [mkfs, Dinode.block, ndirect]
  · rw [if_neg (fun h => hi h.1 : ¬(i = rootino ∧ sl = .direct 0))]
    split
    · simp only [mkfs, hi, if_false]
      split <;> cases sl <;> simp [Dinode.block]
    · rfl

theorem booted_mkfs (names : List Name) : Booted (mkfs names) where
  accounted := by
    refine ⟨?_, fun b hb => ?_, ?_⟩
    · rintro (_ | ⟨i, sl⟩) b hb
      · rw [owns, Set.mem_ofPred_eq, nmeta_mkfs] at hb
        exact (used_mkfs names b).mpr (Nat.lt_succ_of_lt hb)
      · rw [owns, Set.mem_ofPred_eq, refers_mkfs] at hb
        split at hb
        · rw [← hb.2]
          exact (used_mkfs names 47).mpr (by decide)
        · exact absurd hb.2.symm hb.1
    · have hlt : b < 48 := (used_mkfs names b).mp hb
      by_cases hmeta : b < 47
      · refine ⟨none, ?_⟩
        rw [owns, Set.mem_ofPred_eq, nmeta_mkfs]
        exact hmeta
      · refine ⟨some (rootino, .direct 0), by omega, ?_⟩
        rw [refers_mkfs, if_pos ⟨rfl, rfl⟩]
        omega
    · -- the one block in use after the metadata is held by the root directory
      have hroot : ∀ i sl b, b ∈ owns (mkfs names).nmeta (mkfs names).refers (some (i, sl)) →
          (i, sl) = (rootino, .direct 0) ∧ b = 47 := fun i sl b hb => by
        rw [owns, Set.mem_ofPred_eq, refers_mkfs] at hb
        split at hb
        · rename_i hi
          exact ⟨Prod.ext hi.1 hi.2, hb.2.symm⟩
        · exact absurd hb.2.symm hb.1
      rintro (_ | ⟨i, sl⟩) (_ | ⟨i', sl'⟩) b hb hb'
      · rfl
      · rw [owns, Set.mem_ofPred_eq, nmeta_mkfs, (hroot i' sl' b hb').2] at hb
        exact absurd hb (lt_irrefl 47)
      · rw [owns, Set.mem_ofPred_eq, nmeta_mkfs, (hroot i sl b hb).2] at hb'
        exact absurd hb' (lt_irrefl 47)
      · rw [(hroot i sl b hb).1, (hroot i' sl' b hb').1]
  meta_pos := by
    rw [nmeta_mkfs]
    decide
  valid i := by
    simp only [mkfs]
    split <;> rfl
  refs i := by
    simp only [mkfs, State.pointers, List.map_nil, List.count_nil, Nat.zero_add]
    by_cases hi : i = rootino
    · subst hi
      simp
    · have : ∀ p : Fin nproc, ¬(if p = 0 then some rootino else none) = some i := fun p => by
        split
        · exact fun h => hi (Option.some.inj h).symm
        · rintro ⟨⟩
      simp [hi, this]

/-- With fewer than 62 files the root directory of the image has one block for its size. -/
theorem whole_mkfs (hn : names.length < 62) : (mkfs names).Whole := by
  intro i hlt hdir bn hbn
  have hi : i = rootino := by
    by_contra hi
    simp only [mkfs, hi, if_false] at hdir
    split at hdir <;> cases hdir
  subst hi
  have hsize : ((mkfs names).dinode rootino).size = bsize := by
    simp only [mkfs, if_true, desize, bsize]
    omega
  rw [hsize] at hbn
  have hbn0 : bn = 0 := by
    simp only [bsize] at hbn
    omega
  rw [hbn0, refers_mkfs]
  decide

end Image

/-- Make a directory, write 3000 bytes to a file in it that is then unlinked, and close it. -/
def unlinkOpen : List Call :=
  [.mkdir 0 [47, 100], .open 0 [47, 100, 47, 120] 0x201 true,
    .write 0 (fun _ m => (true, List.replicate m 7)) 3000, .unlink 0 [47, 100, 47, 120], .close 0]

theorem unlinkOpen_runs : (runAll Any step (mkfs []) unlinkOpen).isSome = true := by
  decide +kernel

def afterUnlinkOpen : State := (runAll Any step (mkfs []) unlinkOpen).get unlinkOpen_runs

theorem blocks_accounted_afterUnlinkOpen :
    afterUnlinkOpen.Accounted ∧
      ∀ (c : Call) e s', c.run.run afterUnlinkOpen = .error e s' → e ≠ .freeing :=
  blocks_accounted
    ((Reach.start ⟨booted_mkfs [], whole_mkfs (by decide)⟩).runAll_get unlinkOpen_runs)

/-- The names of 62 files. -/
def fullNames : List Name := (List.range 62).map fun k => [102, UInt8.ofNat (65 + k)]

/-- Creating "/x/y" on the image of `mkfs` with 62 files: there is no "/x". -/
def createInFull : Call := .open 0 [47, 120, 47, 121] 0x200 true

def afterCreateInFull : State := (step (mkfs fullNames) createInFull).get (by decide +kernel)

/-- The root directory of that image has a full block and the size of two. The search for "x"
allocates the other one, and the call ends without writing the inode back. -/
theorem create_in_full_root_leaks :
    Booted (mkfs fullNames) ∧ step (mkfs fullNames) createInFull = some afterCreateInFull ∧
      ¬afterCreateInFull.Accounted := by
  refine ⟨booted_mkfs fullNames, (Option.some_get _).symm, fun hacc => ?_⟩
  have hfacts : (∀ i ∈ List.range 200, (afterCreateInFull.dinode i).addrs ndirect = 0 ∧
      ∀ k ∈ List.range ndirect, (afterCreateInFull.dinode i).addrs k ≠ 48) ∧
      afterCreateInFull.sb.ninodes = 200 ∧ afterCreateInFull.nmeta = 47 ∧
      afterCreateInFull.used 48 = true := by decide +kernel
  obtain ⟨hnodes, hlen, hmeta, hused⟩ := hfacts
  obtain ⟨_ | ⟨i, sl⟩, ho⟩ := hacc.held 48 hused
  · rw [owns, Set.mem_ofPred_eq, hmeta] at ho
    exact absurd ho (by decide)
  · rw [owns, Set.mem_ofPred_eq, State.refers, hlen] at ho
    split at ho
    · rename_i hal
      obtain ⟨hind, hdir⟩ := hnodes i (List.mem_range.mpr hal.1)
      cases sl with
      | direct k =>
        rw [Dinode.block] at ho
        split at ho
        · rename_i hk
          exact hdir k (List.mem_range.mpr hk) ho.2
        · cases ho.2
      | indirect =>
        rw [Dinode.block, hind] at ho
        cases ho.2
      | word j =>
        rw [Dinode.block, hind] at ho
        simp at ho
    · cases ho.2

end Fs

end Xv6
