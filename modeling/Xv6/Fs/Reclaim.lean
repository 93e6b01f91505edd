import Xv6.Fs.Writes
import Xv6.Storage.Log

/-!
# Orphaned inodes

A crash can leave inodes on disk that have no name and that no process has open any more.
`ireclaim` frees them at boot, each in a transaction of its own. `Reclaimed m s s'` says that of the
inodes in `m` the orphaned ones have been freed and nothing else has happened to the disk; these
relations compose (`Reclaimed.trans`) and determine the disk (`Reclaimed.sameDisk`), which is why it
does not matter if a crash splits the work in two.

At boot the current directory of the first process is the root directory, so this one is not freed
whatever its link count is.
-/

namespace Xv6

namespace Fs

open StateLogic State

/-- The turn of the loop of `ireclaim` for one inode. -/
def reclaim (inum : ℕ) : F PUnit := do
  let s ← get
  if (s.dinode inum).type ≠ .free ∧ (s.dinode inum).nlink = 0 then
    iget inum
    modify State.beginOp
    ilock inum
    iput inum

/-- The first `n` turns. -/
def reclaimUpto (n : ℕ) : F PUnit := (List.range n).forM fun k => reclaim (k + 1)

/-- `ireclaim`. -/
def ireclaim : F PUnit := do
  let s ← get
  reclaimUpto (s.sb.ninodes - 1)

/-- The disk of `s` with the memory that `fsinit` finds: the root directory is the current directory
of the first process. -/
def State.reboot (s : State) : State :=
  { s with
    itable := fun i => if i = rootino then { ref := 1 } else {}
    cwd := fun p => if p = 0 then some rootino else none
    files := []
    logged := [] }

/-- An inode on disk without a name. -/
def State.Orphan (s : State) (i : ℕ) : Prop :=
  0 < i ∧ i < s.sb.ninodes ∧ (s.dinode i).type ≠ .free ∧ (s.dinode i).nlink = 0

instance (s : State) (i : ℕ) : Decidable (s.Orphan i) := inferInstanceAs (Decidable (_ ∧ _))

/-- Two inodes are the same on disk, where there are `NDIRECT + 1` addresses. -/
structure Dinode.Agrees (d d' : Dinode) : Prop where
  type : d.type = d'.type
  major : d.major = d'.major
  minor : d.minor = d'.minor
  nlink : d.nlink = d'.nlink
  size : d.size = d'.size
  addrs : ∀ k, k ≤ ndirect → d.addrs k = d'.addrs k

/-- What is left of an inode that is freed. -/
def Dinode.freed (d : Dinode) : Dinode := { d with type := .free, size := 0, addrs := fun _ => 0 }

/-- The disks are the same. -/
structure SameDisk (s s' : State) : Prop where
  sb : s'.sb = s.sb
  data : s'.data = s.data
  used : s'.used = s.used
  dinode : ∀ i, (s'.dinode i).Agrees (s.dinode i)

/-- The orphaned inodes among `m` are freed, and the rest of the disk is as before. -/
structure Reclaimed (m : ℕ → Prop) (s s' : State) : Prop where
  sb : s'.sb = s.sb
  data : s'.data = s.data
  used : ∀ b, s'.used b = true ↔
    s.used b = true ∧ ∀ i, m i → s.Orphan i → ∀ sl, s.refers i sl = b → b = 0
  freed : ∀ i, m i → s.Orphan i → (s'.dinode i).Agrees (s.dinode i).freed
  kept : ∀ i, ¬(m i ∧ s.Orphan i) → s'.dinode i = s.dinode i

section

variable {s t t' s' s'' : State} {m m' : ℕ → Prop} {i b : ℕ}

theorem Dinode.Agrees.refl (d : Dinode) : d.Agrees d := ⟨rfl, rfl, rfl, rfl, rfl, fun _ _ => rfl⟩

theorem Dinode.Agrees.trans {d d₁ d' : Dinode} (h : d.Agrees d₁) (h' : d₁.Agrees d') :
    d.Agrees d' :=
  ⟨h.type.trans h'.type, h.major.trans h'.major, h.minor.trans h'.minor, h.nlink.trans h'.nlink,
    h.size.trans h'.size, fun k hk => (h.addrs k hk).trans (h'.addrs k hk)⟩

theorem Dinode.Agrees.symm {d d' : Dinode} (h : d.Agrees d') : d'.Agrees d :=
  ⟨h.type.symm, h.major.symm, h.minor.symm, h.nlink.symm, h.size.symm,
    fun k hk => (h.addrs k hk).symm⟩

namespace Reclaimed

theorem of_eq (hsb : t.sb = s.sb) (hdata : t.data = s.data) (hused : t.used = s.used)
    (hdin : t.dinode = s.dinode) : Reclaimed (fun _ => False) s t :=
  ⟨hsb, hdata, fun b => by rw [hused]; exact ⟨fun h => ⟨h, nofun⟩, fun h => h.1⟩, nofun,
    fun i _ => by rw [hdin]⟩

/-- The inodes that are orphaned afterwards. -/
theorem orphan_iff (h : Reclaimed m s t) (i : ℕ) : t.Orphan i ↔ s.Orphan i ∧ ¬m i := by
  by_cases hi : m i ∧ s.Orphan i
  · have hfree : (t.dinode i).type = .free := (h.freed i hi.1 hi.2).type
    exact ⟨fun ho => absurd hfree ho.2.2.1, fun ho => absurd hi.1 ho.2⟩
  · rw [State.Orphan, h.kept i hi, h.sb]
    exact ⟨fun ho => ⟨ho, fun hm => hi ⟨hm, ho⟩⟩, fun ho => ho.1⟩

theorem refers (h : Reclaimed m s t) (hi : ¬(m i ∧ s.Orphan i)) (sl : Slot) :
    t.refers i sl = s.refers i sl := by
  rw [State.refers, State.refers, h.kept i hi, h.sb, h.data]

theorem trans (h : Reclaimed m s t) (h' : Reclaimed m' t t') :
    Reclaimed (fun i => m i ∨ m' i) s t' where
  sb := h'.sb.trans h.sb
  data := h'.data.trans h.data
  used b := by
    rw [h'.used, h.used, and_assoc, and_congr_right_iff]
    intro _
    constructor
    · rintro ⟨hm, hm'⟩ i hi ho sl hsl
      by_cases hmi : m i
      · exact hm i hmi ho sl hsl
      · rw [← h.refers (fun hc => hmi hc.1)] at hsl
        exact hm' i (hi.resolve_left hmi) ((h.orphan_iff i).mpr ⟨ho, hmi⟩) sl hsl
    · refine fun hall => ⟨fun i hi => hall i (Or.inl hi), fun i hi ho sl hsl => ?_⟩
      obtain ⟨ho, hmi⟩ := (h.orphan_iff i).mp ho
      rw [h.refers fun hc => hmi hc.1] at hsl
      exact hall i (Or.inr hi) ho sl hsl
  freed i hi ho := by
    by_cases hmi : m i
    · rw [h'.kept i fun hc => ((h.orphan_iff i).mp hc.2).2 hmi]
      exact h.freed i hmi ho
    · rw [← h.kept i fun hc => hmi hc.1]
      exact h'.freed i (hi.resolve_left hmi) ((h.orphan_iff i).mpr ⟨ho, hmi⟩)
  kept i hi := by
    have hs : ¬(m i ∧ s.Orphan i) := fun hc => hi ⟨Or.inl hc.1, hc.2⟩
    have ht : ¬(m' i ∧ t.Orphan i) := fun hc => hi ⟨Or.inr hc.1, ((h.orphan_iff i).mp hc.2).1⟩
    rw [h'.kept i ht, h.kept i hs]

theorem congr (h : Reclaimed m s t) (hm : ∀ i, s.Orphan i → (m i ↔ m' i)) :
    Reclaimed m' s t where
  sb := h.sb
  data := h.data
  used b := by
    rw [h.used]
    refine and_congr_right fun _ => forall_congr' fun i => ?_
    exact ⟨fun hall hi ho => hall ((hm i ho).mpr hi) ho, fun hall hi ho => hall ((hm i ho).mp hi) ho⟩
  freed i hi ho := h.freed i ((hm i ho).mpr hi) ho
  kept i hi := h.kept i fun hc => hi ⟨(hm i hc.2).mp hc.1, hc.2⟩

/-- Which disk it is does not depend on how the work was done. -/
theorem sameDisk (h : Reclaimed m s t) (h' : Reclaimed m s t') : SameDisk t t' where
  sb := h'.sb.trans h.sb.symm
  data := h'.data.trans h.data.symm
  used := funext fun b => Bool.eq_iff_iff.mpr ((h'.used b).trans (h.used b).symm)
  dinode i := by
    by_cases hi : m i ∧ s.Orphan i
    · exact (h'.freed i hi.1 hi.2).trans (h.freed i hi.1 hi.2).symm
    · rw [h'.kept i hi, h.kept i hi]
      exact .refl _

end Reclaimed

/-! ### What a transaction logs -/

/-- The blocks that are logged are that of the inode, and those of the free map for blocks that
were in use. -/
structure Frees (ip : ℕ) (s s' : State) : Prop where
  sb : s'.sb = s.sb
  used : ∀ b, s'.used b = true → s.used b = true
  logged : ∀ x ∈ s'.logged,
    x ∈ s.logged ∨ x = iblock s ip ∨ ∃ b, s.used b = true ∧ x = bblock s b

variable {ip : ℕ}

theorem Frees.of_eq (hsb : s'.sb = s.sb) (hu : s'.used = s.used) (hl : s'.logged = s.logged) :
    Frees ip s s' :=
  ⟨hsb, fun b hb => by rwa [hu] at hb, fun x hx => Or.inl (hl ▸ hx)⟩

theorem Frees.trans (h : Frees ip s t) (h' : Frees ip t t') : Frees ip s t' := by
  refine ⟨h'.sb.trans h.sb, fun b hb => h.used b (h'.used b hb), fun x hx => ?_⟩
  rcases h'.logged x hx with hx | rfl | ⟨b, hb, rfl⟩
  · exact h.logged x hx
  · exact Or.inr (Or.inl (by rw [iblock, iblock, h.sb]))
  · exact Or.inr (Or.inr ⟨b, h.used b hb, by rw [bblock, bblock, h.sb]⟩)

theorem bfree_frees (ip b : ℕ) :
    wp (bfree b) (fun _ s' => Frees ip s s') (fun _ _ => True) s := by
  rw [bfree]
  simp only [wp_bind, wp_get, wp_ite, wp_throw, wp_modify, logWrite]
  refine ⟨fun _ => trivial, fun hb => ⟨rfl, fun b' hb' => ?_, fun x hx => ?_⟩⟩
  · by_cases heq : b' = b
    · rw [heq, Bool.not_eq_false] at *
      exact hb
    · simpa only [Function.update_of_ne heq] using hb'
  · rcases List.mem_append.mp hx with hx | hx
    · exact Or.inl hx
    · exact Or.inr (Or.inr ⟨b, Bool.not_eq_false _ ▸ hb, List.mem_singleton.mp hx⟩)

theorem frees_setDinode (f : Dinode → Dinode) {E : Panic → State → Prop} :
    wp (setDinode ip f) (fun _ s' => Frees ip s s') E s :=
  .of_eq rfl rfl rfl

theorem truncDirect_frees (k : ℕ) :
    wp (truncDirect ip k) (fun _ s' => Frees ip s s') (fun _ _ => True) s := by
  rw [truncDirect, dinodeOf]
  simp only [wp_bind, wp_get, wp_pure, wp_ite]
  refine ⟨fun _ => ?_, fun _ => .of_eq rfl rfl rfl⟩
  refine wp_mono (bfree_frees ip _) (fun _ s₁ h => ?_) fun _ _ he => he
  exact wp_mono (frees_setDinode _) (fun _ _ h' => h.trans h') fun _ _ he => he

theorem truncIndirect_frees (a : Data) (j : ℕ) :
    wp (truncIndirect a j) (fun _ s' => Frees ip s s') (fun _ _ => True) s := by
  rw [truncIndirect]
  simp only [wp_pure, wp_ite]
  exact ⟨fun _ => bfree_frees ip _, fun _ => .of_eq rfl rfl rfl⟩

theorem itrunc_frees : wp (itrunc ip) (fun _ s' => Frees ip s s') (fun _ _ => True) s := by
  have hloop : ∀ {n : ℕ} {g : ℕ → F PUnit} {t : State}, (∀ k t, wp (g k)
      (fun _ t' => Frees ip t t') (fun _ _ => True) t) → Frees ip s t →
      wp ((List.range n).forM g) (fun _ t' => Frees ip s t') (fun _ _ => True) t :=
    fun hg ht => wp_forM_range (fun _ t' => Frees ip s t') ht fun k t' _ h =>
      wp_mono (hg k t') (fun _ _ h' => h.trans h') fun _ _ he => he
  have hfinish : ∀ {t : State}, Frees ip s t →
      wp (do setDinode ip fun d => { d with size := 0 }; iupdate ip)
        (fun _ t' => Frees ip s t') (fun _ _ => True) t := fun {t} ht => by
    refine wp_bind.mpr (wp_update.mpr (ht.trans ⟨rfl, fun b hb => hb, fun x hx => ?_⟩))
    rcases List.mem_append.mp hx with hx | hx
    · exact Or.inl hx
    · exact Or.inr (Or.inl (List.mem_singleton.mp hx))
  rw [itrunc]
  refine wp_seq (hloop (fun k t => truncDirect_frees k) (.of_eq rfl rfl rfl)) fun _ s₁ h₁ => ?_
  rw [dinodeOf]
  simp only [wp_bind, wp_get, wp_pure, wp_ite]
  refine ⟨fun _ => ?_, fun _ => wp_bind.mp (hfinish h₁)⟩
  refine wp_mono (hloop (fun j t => truncIndirect_frees _ j) h₁) (fun _ s₂ h₂ => ?_)
    fun _ _ he => he
  refine wp_mono (bfree_frees ip _) (fun _ s₃ h₃ => ?_) fun _ _ he => he
  refine wp_mono (frees_setDinode _) (fun _ s₄ h₄ => ?_) fun _ _ he => he
  exact wp_bind.mp (hfinish ((h₂.trans h₃).trans h₄))

/-! ### One turn -/

/-- Between two turns the table has no entries but that of the root directory. -/
structure Calm (t : State) : Prop where
  owned : t.Owned
  refs : ∀ i, (t.itable i).ref = if i = rootino then 1 else 0
  synced : ∀ i, t.Live i → (t.itable i).d = t.dinode i

theorem Calm.cur (hc : Calm t) : t.cur = t.dinode := by
  funext i
  rw [State.cur]
  split
  · rename_i hl
    exact hc.synced i hl
  · rfl

theorem Calm.refers (hc : Calm t) : t.refers = t.hold := by
  funext i sl
  rw [State.refers, State.hold, hc.cur]

theorem Calm.active_le (hc : Calm t) : active t ≤ 1 := by
  have hp : ∀ i ∈ List.range t.sb.ninodes, decide (0 < (t.itable i).ref) = true →
      (i == rootino) = true := fun i _ hi => by
    rw [decide_eq_true_eq, hc.refs] at hi
    rw [beq_iff_eq]
    by_contra hne
    rw [if_neg hne] at hi
    exact absurd hi (lt_irrefl 0)
  calc active t ≤ (List.range t.sb.ninodes).count rootino := List.countP_mono_left hp
    _ ≤ 1 := List.nodup_iff_count_le_one.mp List.nodup_range _

theorem State.Accounted.calm (ha : s.Accounted) (hm : 0 < s.nmeta) : Calm s.reboot := by
  have hdead : ∀ i, ¬s.reboot.Live i := fun i hl => by
    have hv : (s.reboot.itable i).valid = false := by
      simp only [State.reboot]
      split <;> rfl
    exact absurd (hv.symm.trans hl.2) Bool.false_ne_true
  refine ⟨⟨?_, hm⟩, fun i => ?_, fun i hl => absurd hl (hdead i)⟩
  · have hhold : s.reboot.hold = s.refers := by
      funext i sl
      rw [State.refers, State.hold, State.cur, if_neg (hdead i)]
      rfl
    rw [hhold]
    exact ha
  · simp only [State.reboot]
    split <;> rfl

theorem beginOp_putInode (t : State) (i : ℕ) (x : Inode) :
    (t.putInode i x).beginOp = t.beginOp.putInode i x := rfl

/-- The table entry that `iget` and `ilock` make for an inode. -/
theorem Calm.opens (hc : Calm t) (ho : t.Orphan i) (hi : i ≠ rootino) {Q : PUnit → State → Prop}
    {E : Panic → State → Prop} (hQ : Q ⟨⟩ (t.beginOp.putInode i ⟨1, true, t.dinode i⟩)) :
    wp (do iget i; modify State.beginOp; ilock i) Q E t := by
  have href : (t.itable i).ref = 0 := by rw [hc.refs, if_neg hi]
  have hact : ¬ninode ≤ active t := by
    have := hc.active_le
    simp only [ninode]
    omega
  rw [iget, ilock]
  simp only [wp_bind, wp_get, wp_ite, wp_throw, wp_modify, wp_pure, setInode, href, lt_irrefl,
    false_imp_iff, true_and, not_false_eq_true, true_imp_iff, hact, beginOp_putInode,
    itable_putInode_self, putInode_putInode, Nat.lt_one_iff, one_ne_zero, not_true_eq_false, and_true]
  exact ⟨fun hge => absurd ho.2.1 (not_lt.mpr hge), fun _ => ⟨fun hf => absurd hf ho.2.2.1, fun _ => hQ⟩⟩

/-- An entry that agrees with the disk changes nothing for the blocks. -/
theorem Calm.owned_putInode (hc : Calm t) {x : Inode} (hx : x.d = t.dinode i) :
    (t.beginOp.putInode i x).Owned ∧ (t.beginOp.putInode i x).hold = t.hold := by
  have hcur : (t.beginOp.putInode i x).cur = t.cur := by
    funext j
    by_cases hj : j = i
    · rw [State.cur, hc.cur, hj]
      split
      · rw [itable_putInode_self, hx]
      · rfl
    · exact cur_putInode_of_ne hj
  have hhold : (t.beginOp.putInode i x).hold = t.hold := by
    funext j sl
    rw [State.hold, State.hold, hcur]
    rfl
  exact ⟨hc.owned.congr rfl rfl fun j sl => by rw [hhold], hhold⟩

/-- The root directory stays in the table. -/
theorem Calm.reclaim_root (hc : Calm t) (ho : t.Orphan rootino) :
    wp (reclaim rootino) (fun _ t' =>
      Calm t' ∧ ∃ x, t' = t.beginOp.putInode rootino x) (fun _ _ => False) t := by
  have href : (t.itable rootino).ref = 1 := hc.refs rootino
  have hdone : ∀ x : Inode, x.ref = 1 → x.d = t.dinode rootino →
      Calm (t.beginOp.putInode rootino x) := fun x hx hd => by
    refine ⟨(hc.owned_putInode hd).1, fun j => ?_, fun j hl => ?_⟩
    · by_cases hj : j = rootino
      · rw [hj, itable_putInode_self, hx, if_pos rfl]
      · rw [itable_putInode_of_ne hj]
        exact hc.refs j
    · by_cases hj : j = rootino
      · rw [hj, itable_putInode_self, hd]
        rfl
      · rw [live_putInode_of_ne hj] at hl
        rw [itable_putInode_of_ne hj]
        exact hc.synced j hl
  rw [reclaim, iget, ilock, iput]
  simp only [wp_bind, wp_get, wp_ite, wp_throw, wp_modify, wp_pure, setInode, href, Nat.one_pos,
    true_imp_iff, not_true_eq_false, false_imp_iff, and_true, beginOp_putInode,
    itable_putInode_self, putInode_putInode]
  refine ⟨fun _ => ⟨fun h => absurd h (by decide), fun _ => ⟨fun h => absurd ho.2.1 (not_lt.mpr h),
    fun _ => ⟨fun _ => ⟨fun hf => absurd hf ho.2.2.1, fun _ => ⟨fun h => absurd h.1 (by decide),
      fun _ => ⟨hdone _ rfl rfl, _, rfl⟩⟩⟩, fun hv => ⟨fun h => absurd h.1 (by decide), fun _ => ?_⟩⟩⟩⟩,
    fun hno => absurd ho.2.2 hno⟩
  have hlive : t.Live rootino := ⟨by rw [href]; exact Nat.one_pos, Bool.not_eq_false _ ▸ hv⟩
  exact ⟨hdone _ rfl (hc.synced rootino hlive), _, rfl⟩

/-- An orphaned inode is freed. -/
theorem Calm.reclaim_orphan (hc : Calm t) (ho : t.Orphan i) (hi : i ≠ rootino) :
    wp (reclaim i) (fun _ t' => Calm t' ∧ Reclaimed (· = i) t t' ∧
      ∀ x ∈ t'.logged, x = iblock t i ∨ ∃ b, t.used b = true ∧ x = bblock t b)
      (fun _ _ => False) t := by
  have hopen : ∀ {Q : PUnit → State → Prop} {E : Panic → State → Prop},
      wp (iput i) Q E (t.beginOp.putInode i ⟨1, true, t.dinode i⟩) → wp (reclaim i) Q E t := by
    intro Q E hQ
    have := hc.opens ho hi (Q := fun _ t' => wp (iput i) Q E t') (E := E) hQ
    simp only [wp_bind] at this
    rw [reclaim]
    simp only [wp_bind, wp_get, wp_ite, wp_pure]
    exact ⟨fun _ => this, fun hno => absurd ho.2.2 hno⟩
  apply hopen
  obtain ⟨hown, hhold⟩ := hc.owned_putInode (i := i) (x := ⟨1, true, t.dinode i⟩) rfl
  have hready : (t.beginOp.putInode i ⟨1, true, t.dinode i⟩).Ready i :=
    ⟨live_putInode_self.mpr ⟨Nat.one_pos, rfl⟩, ho.2.1, by rw [itable_putInode_self]; exact ho.2.2.1⟩
  rw [iput]
  simp only [wp_bind, wp_get, wp_ite, itable_putInode_self]
  refine ⟨fun _ => ?_, fun hno => absurd ⟨trivial, trivial, ho.2.2.2⟩ hno⟩
  refine wp_mono (wp_and (itrunc_spec (E := fun _ _ => False) hown.safe hready) itrunc_frees) ?_
    fun _ _ he => he.1
  rintro _ t₃ ⟨htr, hfr⟩
  obtain ⟨a, ha, htab₃, hdin₃⟩ := htr.node
  rw [itable_putInode_self] at htab₃ hdin₃
  rw [wp_update]
  simp only [setInode, wp_modify, putInode_putInode, itable_putInode_self, itable_update_self]
  generalize ht' : State.putInode _ i _ = t'
  have hdin : t'.dinode = Function.update t.dinode i { t.dinode i with
      type := .free, size := 0, addrs := a } := by
    rw [← ht']
    simp [State.update, hdin₃, htab₃, State.beginOp]
  have htab : ∀ j, j ≠ i → t'.itable j = t.itable j := fun j hj => by
    rw [← ht', itable_putInode_of_ne hj, State.update]
    simp [State.putInode, htab₃, hj, State.beginOp]
  have hself : (t'.itable i).ref = 0 := by
    rw [← ht', itable_putInode_self]
    simp [htab₃]
  have hsb : t'.sb = t.sb := ht' ▸ htr.sb
  have hdata : t'.data = t.data := ht' ▸ htr.data
  have hused : ∀ b, t'.used b = true ↔ t.used b = true ∧ ∀ sl, t.hold i sl = b → b = 0 := by
    intro b
    rw [← hhold, ← ht']
    exact htr.used b
  have hdead : ¬t'.Live i := fun hl => by
    rw [State.Live, hself] at hl
    exact absurd hl.1 (lt_irrefl 0)
  have hsync : ∀ j, t'.Live j → (t'.itable j).d = t'.dinode j := fun j hl => by
    have hj : j ≠ i := fun heq => hdead (heq ▸ hl)
    rw [State.Live, htab j hj] at hl
    rw [htab j hj, hdin, Function.update_of_ne hj]
    exact hc.synced j hl
  have hcur : ∀ j, t'.cur j = t'.dinode j := fun j => by
    rw [State.cur]
    split
    · rename_i hl
      exact hsync j hl
    · rfl
  refine ⟨⟨?_, fun j => ?_, hsync⟩, ⟨hsb, hdata, fun b => ?_, ?_, fun j hj => ?_⟩, fun x hx => ?_⟩
  · refine hc.owned.drop (by rw [State.nmeta, State.nmeta, hsb]) hused (fun sl => ?_)
      fun j hj sl => ?_
    · rw [State.hold, hcur, hdin, Function.update_self, if_neg fun h => h.2 rfl]
    · rw [State.hold, State.hold, hcur, hc.cur, hdin, Function.update_of_ne hj, hsb, hdata]
  · by_cases hj : j = i
    · rw [hj, hself, if_neg hi]
    · rw [htab j hj]
      exact hc.refs j
  · rw [hused, hc.refers]
    exact and_congr_right fun _ =>
      ⟨fun hall j hj _ => hj ▸ hall, fun hall => hall i rfl ho⟩
  · rintro j rfl -
    rw [hdin, Function.update_self]
    exact ⟨rfl, rfl, rfl, rfl, rfl, ha⟩
  · rw [hdin, Function.update_of_ne fun heq => hj ⟨heq, heq ▸ ho⟩]
  · rw [← ht'] at hx
    rcases List.mem_append.mp hx with hx | hx
    · rcases hfr.logged x hx with hx | hx
      · exact absurd hx List.not_mem_nil
      · exact hx
    · rw [List.mem_singleton.mp hx, iblock, hfr.sb]
      exact Or.inl rfl

/-! ### All turns -/

/-- The number of blocks of the free map. -/
def State.nbitmap (s : State) : ℕ := (s.sb.size + (bpb - 1)) / bpb

theorem card_logged_le {l : List ℕ} (hbits : ∀ b, t.used b = true → b < t.sb.size)
    (hl : ∀ x ∈ l, x = iblock t i ∨ ∃ b, t.used b = true ∧ x = bblock t b) :
    l.toFinset.card ≤ t.nbitmap + 1 := by
  have hsub : l.toFinset ⊆
      insert (iblock t i) ((Finset.range t.nbitmap).image (· + t.sb.bmapstart)) := fun x hx => by
    rw [Finset.mem_insert, Finset.mem_image]
    rcases hl x (List.mem_toFinset.mp hx) with rfl | ⟨b, hb, rfl⟩
    · exact Or.inl rfl
    · refine Or.inr ⟨b / bpb, Finset.mem_range.mpr ?_, rfl⟩
      have hlt := hbits b hb
      simp only [State.nbitmap, bpb, bsize]
      omega
  calc l.toFinset.card ≤ _ := Finset.card_le_card hsub
    _ ≤ _ := Finset.card_insert_le _ _
    _ ≤ t.nbitmap + 1 := by
      have := Finset.card_image_le (s := Finset.range t.nbitmap) (f := (· + t.sb.bmapstart))
      rw [Finset.card_range] at this
      omega

/-- The state after `n` turns on the disk of `s`. -/
structure Turned (s : State) (n : ℕ) (t : State) : Prop where
  calm : Calm t
  reclaimed : Reclaimed (fun i => i ≤ n ∧ i ≠ rootino) s t
  logged : t.logged.toFinset.card ≤ s.nbitmap + 1

theorem Turned.next {n : ℕ} (ht : Turned s n t) (hn : n + 1 < s.sb.ninodes)
    (hbits : ∀ b, s.used b = true → b < s.sb.size) :
    wp (reclaim (n + 1)) (fun _ t' => Turned s (n + 1) t') (fun _ _ => False) t := by
  by_cases ho : t.Orphan (n + 1)
  · have hnext : ∀ {m : ℕ → Prop} {t'}, Reclaimed m t t' →
        (∀ i, m i ∨ i ≤ n ∧ i ≠ rootino ↔ i ≤ n + 1 ∧ i ≠ rootino) →
        Reclaimed (fun i => i ≤ n + 1 ∧ i ≠ rootino) s t' := fun h hm =>
      (ht.reclaimed.trans h).congr fun i _ => by rw [or_comm, hm]
    by_cases hroot : n + 1 = rootino
    · have hw := ht.calm.reclaim_root (hroot ▸ ho)
      rw [← hroot] at hw
      refine wp_mono hw ?_ fun _ _ he => he
      rintro _ _ ⟨hc, x, rfl⟩
      have hsame : Reclaimed (fun _ => False) t (t.beginOp.putInode (n + 1) x) :=
        .of_eq rfl rfl rfl rfl
      refine ⟨hc, hnext hsame fun i => ?_, Nat.zero_le _⟩
      rw [false_or]
      omega
    · refine wp_mono (ht.calm.reclaim_orphan ho hroot) ?_ fun _ _ he => he
      rintro _ t' ⟨hc, hr, hl⟩
      refine ⟨hc, hnext hr fun i => ?_, ?_⟩
      · omega
      · have hnb : t.nbitmap = s.nbitmap := by rw [State.nbitmap, State.nbitmap, ht.reclaimed.sb]
        rw [← hnb]
        refine card_logged_le (fun b hb => ?_) hl
        rw [ht.reclaimed.sb]
        exact hbits b ((ht.reclaimed.used b).mp hb).1
  · rw [reclaim]
    simp only [wp_bind, wp_get, wp_ite, wp_pure]
    refine ⟨fun h => absurd ⟨Nat.succ_pos n, ht.reclaimed.sb ▸ hn, h⟩ ho, fun _ =>
      ⟨ht.calm, ht.reclaimed.congr fun i hi => ?_, ht.logged⟩⟩
    -- the inode of this turn was not orphaned, or it is the root directory
    have hne : i = n + 1 → i = rootino := by
      rintro rfl
      by_contra hne
      exact ho ((ht.reclaimed.orphan_iff _).mpr ⟨hi, fun h => absurd h.1 (Nat.not_succ_le_self n)⟩)
    omega

section

variable (ha : s.Accounted) (hm : 0 < s.nmeta) (hbits : ∀ b, s.used b = true → b < s.sb.size)

include ha hm hbits

theorem reclaimUpto_turned {n : ℕ} (hn : n ≤ s.sb.ninodes - 1) :
    ∃ t, (reclaimUpto n).run s.reboot = .ok ⟨⟩ t ∧ Turned s n t := by
  have hw : wp (reclaimUpto n) (fun _ t => Turned s n t) (fun _ _ => False) s.reboot := by
    refine wp_forM_range (Turned s) ⟨ha.calm hm, ?_, Nat.zero_le _⟩ fun k t hk ht => ?_
    · have hsame : Reclaimed (fun _ => False) s s.reboot := .of_eq rfl rfl rfl rfl
      refine hsame.congr fun i hi => ?_
      have := hi.1
      rw [false_iff]
      omega
    · exact ht.next (by omega) hbits
  cases hrun : (reclaimUpto n).run s.reboot with
  | ok u t =>
    have ht := wp_ok hw hrun
    exact ⟨t, rfl, ht⟩
  | error e t => exact absurd (wp_error hw hrun) id

theorem ireclaim_turned :
    ∃ t, ireclaim.run s.reboot = .ok ⟨⟩ t ∧ Turned s (s.sb.ninodes - 1) t :=
  reclaimUpto_turned ha hm hbits le_rfl

end

theorem Calm.accounted (hc : Calm t) : t.Accounted := by
  rw [State.Accounted, hc.refers]
  exact hc.owned.exact

end

/-! ### Two disks -/

/-- The file "a" has lost its name, but not its block. -/
def orphanedFile : State :=
  { mkfs [[97]] with
    used := fun b => decide (b < 49)
    dinode := Function.update (mkfs [[97]]).dinode 2
      { type := .file, size := 3, addrs := Function.update (fun _ => 0) 0 48 } }

theorem accounted_orphanedFile : orphanedFile.Accounted := by
  have hrefers : ∀ i sl, orphanedFile.refers i sl =
      if i = 2 ∧ sl = .direct 0 then 48 else (mkfs [[97]]).refers i sl := fun i sl => by
    by_cases hi : i = 2
    · subst hi
      rw [State.refers, if_pos ⟨by decide, by decide⟩, refers_mkfs]
      cases sl with
      | direct k =>
        by_cases hk : k = 0
        · subst hk
          rfl
        · have hne : Slot.direct k ≠ .direct 0 := fun h => hk (Slot.direct.inj h)
          simp [orphanedFile, Dinode.block, hne, hk]
      | indirect => rfl
      | word j => simp [orphanedFile, Dinode.block, ndirect]
    · rw [if_neg fun h => hi h.1, State.refers, State.refers]
      simp only [orphanedFile, Function.update_of_ne hi]
  have hzero : (mkfs [[97]]).refers 2 (.direct 0) = 0 := by rw [refers_mkfs]; rfl
  have hfree : ¬(mkfs [[97]]).used 48 = true := by decide
  refine (booted_mkfs [[97]]).accounted.gain (b := some (2, .direct 0)) hfree (fun x => ?_)
    (fun x => ?_) fun o ho x => ?_
  · change decide (x < 49) = true ↔ _ ∨ _
    rw [decide_eq_true_eq, Set.mem_ofPred_eq, used_mkfs]
    omega
  · simp only [owns, Set.mem_ofPred_eq, hrefers, hzero, and_self, if_true]
    omega
  · cases o with
    | none => rfl
    | some o =>
      have hne : ¬(o.1 = 2 ∧ o.2 = .direct 0) := fun h => ho (by rw [← h.1, ← h.2])
      simp only [owns, Set.mem_ofPred_eq, hrefers, if_neg hne]

/-- A disk on which the root directory has no links. -/
def orphanedRoot : State :=
  { mkfs [] with
    dinode := Function.update (mkfs []).dinode rootino
      { (mkfs []).dinode rootino with nlink := 0 } }

end Fs

end Xv6
