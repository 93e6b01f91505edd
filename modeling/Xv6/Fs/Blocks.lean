import Mathlib.Tactic.NormNum
import Xv6.Fs.Model
import Xv6.Logic.Ownership

/-!
# Who owns the blocks

An inode holds blocks in slots: the direct ones, the indirect block, and the words of the
indirect block. `State.Owned` says that the free map marks exactly the metadata blocks and the
blocks held by allocated inodes, each of them held once. It is about the current inodes: the copy
in the inode table where there is one, the copy on disk otherwise.

`balloc` and `bmap` only add blocks to one inode; `Extends` is what they do to the state, and
`Logs` is what they pass to `log_write`. They need less than exact ownership: `State.Safe` lets
blocks be marked that nobody holds. `itrunc` takes all the blocks of one inode away.
-/

namespace Xv6

namespace Fs

open StateLogic Ownership

/-! ### Slots -/

/-- The places where an inode keeps a block number. -/
inductive Slot
  | direct (k : ℕ)
  | indirect
  | word (j : ℕ)
deriving DecidableEq

/-- The slot of block `bn` of a file. -/
def slotOf (bn : ℕ) : Slot := if bn < ndirect then .direct bn else .word (bn - ndirect)

/-- The block number in a slot, 0 if there is none. -/
def Dinode.block (d : Dinode) (data : ℕ → Data) : Slot → ℕ
  | .direct k => if k < ndirect then d.addrs k else 0
  | .indirect => d.addrs ndirect
  | .word j =>
    if j < nindirect ∧ d.addrs ndirect ≠ 0 then (data (d.addrs ndirect)).word j else 0

@[simp]
theorem Data.word_zero (j : ℕ) : Data.word (fun _ => 0) j = 0 := rfl

theorem Data.word_setWord_self (d : Data) (j : ℕ) {w : ℕ} (hw : w < 2 ^ 32) :
    (d.setWord j w).word j = w := by
  have h0 : 4 * j / 4 = j ∧ 4 * j % 4 = 0 := by omega
  have h1 : (4 * j + 1) / 4 = j ∧ (4 * j + 1) % 4 = 1 := by omega
  have h2 : (4 * j + 2) / 4 = j ∧ (4 * j + 2) % 4 = 2 := by omega
  have h3 : (4 * j + 3) / 4 = j ∧ (4 * j + 3) % 4 = 3 := by omega
  simp only [word, setWord, h0, h1, h2, h3, if_true, UInt8.toNat_ofNat']
  norm_num
  omega

theorem Data.word_setWord_of_ne (d : Data) {j k : ℕ} (w : ℕ) (hk : k ≠ j) :
    (d.setWord j w).word k = d.word k := by
  have h0 : 4 * k / 4 ≠ j := by omega
  have h1 : (4 * k + 1) / 4 ≠ j := by omega
  have h2 : (4 * k + 2) / 4 ≠ j := by omega
  have h3 : (4 * k + 3) / 4 ≠ j := by omega
  simp only [word, setWord, h0, h1, h2, h3, if_false]

namespace State

variable {s s' s₁ : State} {ip b i : ℕ} {sl : Slot} {w w' : Slot → Prop}

/-- The table entry is in use and filled. -/
def Live (s : State) (i : ℕ) : Prop := 0 < (s.itable i).ref ∧ (s.itable i).valid = true

instance (s : State) (i : ℕ) : Decidable (s.Live i) := inferInstanceAs (Decidable (_ ∧ _))

/-- The current contents of an inode. -/
def cur (s : State) (i : ℕ) : Dinode := if s.Live i then (s.itable i).d else s.dinode i

theorem cur_of_live (h : s.Live i) : s.cur i = (s.itable i).d := if_pos h

section PutInode

variable {x y : Inode}

@[simp]
theorem itable_putInode_self : (s.putInode ip x).itable ip = x := Function.update_self ..

@[simp]
theorem itable_putInode_of_ne (hne : i ≠ ip) : (s.putInode ip x).itable i = s.itable i :=
  Function.update_of_ne hne ..

@[simp]
theorem data_putInode : (s.putInode ip x).data = s.data := rfl

@[simp]
theorem dinode_putInode : (s.putInode ip x).dinode = s.dinode := rfl

@[simp]
theorem putInode_putInode : (s.putInode ip x).putInode ip y = s.putInode ip y := by
  simp [putInode]

theorem live_putInode_self : (s.putInode ip x).Live ip ↔ 0 < x.ref ∧ x.valid = true := by
  rw [Live, itable_putInode_self]

theorem live_putInode_of_ne (hne : i ≠ ip) : (s.putInode ip x).Live i ↔ s.Live i := by
  rw [Live, Live, itable_putInode_of_ne hne]

theorem cur_putInode_of_ne (hne : i ≠ ip) : (s.putInode ip x).cur i = s.cur i := by
  rw [cur, cur, itable_putInode_of_ne hne]
  simp only [live_putInode_of_ne hne]
  rfl

end PutInode

/-- The block that inode `i` holds in a slot, 0 if it holds none or is not allocated. -/
def hold (s : State) (i : ℕ) (sl : Slot) : ℕ :=
  if i < s.sb.ninodes ∧ (s.cur i).type ≠ .free then (s.cur i).block s.data sl else 0

/-- The blocks before the data blocks. -/
def nmeta (s : State) : ℕ := s.sb.size - s.sb.nblocks

end State

/-- What the metadata (`none`) and the slots of the inodes hold. -/
def owns (nmeta : ℕ) (hold : ℕ → Slot → ℕ) : Option (ℕ × Slot) → Set ℕ
  | none => {b | b < nmeta}
  | some (i, sl) => {b | b ≠ 0 ∧ hold i sl = b}

namespace State

variable {s s' s₁ : State} {ip b i : ℕ} {sl : Slot} {w w' : Slot → Prop}

/-- The free map marks exactly the blocks that are held, and each is held once. -/
structure Owned (s : State) : Prop where
  exact : Exact (owns s.nmeta s.hold) {b | s.used b = true}
  /-- There is metadata: the boot block. -/
  meta_pos : 0 < s.nmeta

/-- The blocks that are held are marked, and each is held once; a marked block may be lost. -/
structure Safe (s : State) : Prop where
  within : Within (owns s.nmeta s.hold) {b | s.used b = true}
  meta_pos : 0 < s.nmeta

theorem Owned.safe (h : s.Owned) : s.Safe := ⟨h.exact.within, h.meta_pos⟩

theorem Safe.used_hold (h : s.Safe) (hb : s.hold i sl ≠ 0) : s.used (s.hold i sl) = true :=
  h.within.sub (some (i, sl)) _ ⟨hb, rfl⟩

theorem Safe.used_zero (h : s.Safe) : s.used 0 = true := h.within.sub none 0 h.meta_pos

theorem Safe.hold_inj (h : s.Safe) {i' : ℕ} {sl' : Slot} (hb : s.hold i sl ≠ 0)
    (heq : s.hold i' sl' = s.hold i sl) : i' = i ∧ sl' = sl := by
  have := h.within.uniq (some (i', sl')) (some (i, sl)) (s.hold i sl) ⟨hb, heq⟩ ⟨hb, rfl⟩
  simpa using this

/-- A block that is not marked is held by nobody. -/
theorem Safe.ne_of_unused (h : s.Safe) (hb : s.used b = false) (i : ℕ) (sl : Slot) :
    s.hold i sl ≠ b := by
  rintro rfl
  by_cases h0 : s.hold i sl = 0
  · rw [h0, h.used_zero] at hb
    cases hb
  · rw [h.used_hold h0] at hb
    cases hb

/-- Ownership depends on the holdings and the free map. -/
theorem Owned.congr (h : s.Owned) (hm : s'.nmeta = s.nmeta) (hu : s'.used = s.used)
    (hh : ∀ i sl, s'.hold i sl = s.hold i sl) : s'.Owned := by
  have hhold : s'.hold = s.hold := funext fun i => funext (hh i)
  refine ⟨?_, hm ▸ h.meta_pos⟩
  rw [hm, hu, hhold]
  exact h.exact

/-- What an operation that adds blocks does to the ownership. -/
def Keeps (s s' : State) : Prop := s'.Safe ∧ (s.Owned → s'.Owned)

theorem Safe.keeps_refl (h : s.Safe) : Keeps s s := ⟨h, id⟩

theorem Keeps.trans (h : Keeps s s₁) (h' : Keeps s₁ s') : Keeps s s' :=
  ⟨h'.1, fun ho => h'.2 (h.2 ho)⟩

theorem Safe.congr (h : s.Safe) (hm : s'.nmeta = s.nmeta) (hu : s'.used = s.used)
    (hh : ∀ i sl, s'.hold i sl = s.hold i sl) : Keeps s s' := by
  have hhold : s'.hold = s.hold := funext fun i => funext (hh i)
  refine ⟨⟨?_, hm ▸ h.meta_pos⟩, fun ho => ho.congr hm hu hh⟩
  rw [hm, hu, hhold]
  exact h.within

/-- A free block goes into an empty slot. -/
theorem Safe.gain (h : s.Safe) (hb : s.used b = false) (hm : s'.nmeta = s.nmeta)
    (hu : s'.used = Function.update s.used b true) (hold : s'.hold ip sl = b)
    (hempty : s.hold ip sl = 0)
    (hh : ∀ i sl', (i, sl') ≠ (ip, sl) → s'.hold i sl' = s.hold i sl') : Keeps s s' := by
  have hb0 : b ≠ 0 := by
    rintro rfl
    rw [h.used_zero] at hb
    cases hb
  have hnot : b ∉ {b | s.used b = true} := by
    rw [Set.mem_ofPred_eq, hb]
    nofun
  have hstock : ∀ x, x ∈ {b | s'.used b = true} ↔ x ∈ {b | s.used b = true} ∨ x = b := by
    intro x
    rw [Set.mem_ofPred_eq, Set.mem_ofPred_eq, hu]
    by_cases hx : x = b
    · simp [hx]
    · simp [hx]
  have hto : ∀ x, x ∈ owns s'.nmeta s'.hold (some (ip, sl)) ↔
      x ∈ owns s.nmeta s.hold (some (ip, sl)) ∨ x = b := by
    intro x
    simp only [owns, Set.mem_ofPred_eq, hold, hempty]
    constructor
    · rintro ⟨-, rfl⟩
      exact Or.inr rfl
    · rintro (⟨hx, rfl⟩ | rfl)
      · exact absurd rfl hx
      · exact ⟨hb0, rfl⟩
  have hrest : ∀ o, o ≠ some (ip, sl) → ∀ x,
      x ∈ owns s'.nmeta s'.hold o ↔ x ∈ owns s.nmeta s.hold o := by
    rintro (_ | ⟨i, sl'⟩) ho x
    · simp only [owns, hm]
    · simp only [owns, Set.mem_ofPred_eq]
      rw [hh i sl' fun heq => ho (by rw [heq])]
  exact ⟨⟨h.within.gain hnot hstock hto hrest, hm ▸ h.meta_pos⟩,
    fun ho => ⟨ho.exact.gain hnot hstock hto hrest, hm ▸ ho.meta_pos⟩⟩

/-- All the slots of one inode are emptied, and what was there is free. -/
theorem Owned.drop (h : s.Owned) (hm : s'.nmeta = s.nmeta)
    (hu : ∀ b, s'.used b = true ↔ s.used b = true ∧ ∀ sl, s.hold ip sl = b → b = 0)
    (hzero : ∀ sl, s'.hold ip sl = 0)
    (hh : ∀ i, i ≠ ip → ∀ sl, s'.hold i sl = s.hold i sl) : s'.Owned := by
  refine ⟨h.exact.drop (fun o => ∃ sl, o = some (ip, sl)) ?_ ?_, hm ▸ h.meta_pos⟩
  · rintro (_ | ⟨i, sl⟩) x
    · simp [owns, hm]
    · simp only [owns, Set.mem_ofPred_eq, Option.some.injEq, Prod.mk.injEq, not_exists]
      by_cases hi : i = ip
      · subst hi
        rw [hzero]
        constructor
        · rintro ⟨hx, rfl⟩
          exact absurd rfl hx
        · rintro ⟨-, hn⟩
          exact absurd ⟨rfl, rfl⟩ (hn sl)
      · rw [hh i hi]
        exact ⟨fun hx => ⟨hx, fun _ hn => hi hn.1⟩, And.left⟩
  · intro x
    rw [Set.mem_ofPred_eq, Set.mem_ofPred_eq, hu]
    refine and_congr_right fun _ => ⟨?_, fun hx sl hsl => ?_⟩
    · rintro hx _ ⟨sl, rfl⟩ ⟨h0, hsl⟩
      exact h0 (hx sl hsl)
    · by_contra h0
      exact hx _ ⟨sl, rfl⟩ ⟨h0, hsl⟩

/-! ### Adding blocks -/

/-- The inode is allocated and filled in the table. -/
structure Ready (s : State) (i : ℕ) : Prop where
  live : s.Live i
  lt : i < s.sb.ninodes
  type : (s.itable i).d.type ≠ .free

theorem Ready.cur (h : s.Ready ip) : s.cur ip = (s.itable ip).d := cur_of_live h.live

theorem Ready.hold (h : s.Ready ip) (sl : Slot) :
    s.hold ip sl = (s.itable ip).d.block s.data sl := by
  rw [State.hold, h.cur, if_pos ⟨h.lt, h.type⟩]

/-- The holdings of an inode depend on its type and addresses and on its indirect block. -/
theorem hold_congr (hsb : s'.sb = s.sb) (ht : (s'.cur i).type = (s.cur i).type)
    (ha : (s'.cur i).addrs = (s.cur i).addrs)
    (hd : s.hold i .indirect ≠ 0 →
      s'.data (s.hold i .indirect) = s.data (s.hold i .indirect)) (sl : Slot) :
    s'.hold i sl = s.hold i sl := by
  rw [State.hold, State.hold, hsb, ht]
  by_cases hal : i < s.sb.ninodes ∧ (s.cur i).type ≠ .free
  · rw [if_pos hal, if_pos hal]
    have hind : s.hold i .indirect = (s.cur i).addrs ndirect := by
      rw [State.hold, if_pos hal, Dinode.block]
    rw [hind] at hd
    cases sl with
    | direct k => simp only [Dinode.block, ha]
    | indirect => simp only [Dinode.block, ha]
    | word j =>
      simp only [Dinode.block, ha]
      by_cases h0 : (s.cur i).addrs ndirect = 0
      · simp [h0]
      · rw [hd h0]
  · rw [if_neg hal, if_neg hal]

/-- What adding blocks to inode `ip` and writing into those of its blocks in the slots `w` does to
the state. -/
structure Extends (ip : ℕ) (w : Slot → Prop) (s s' : State) : Prop where
  sb : s'.sb = s.sb
  dinode : s'.dinode = s.dinode
  cwd : s'.cwd = s.cwd
  files : s'.files = s.files
  /-- Of the inode table only the addresses of `ip` change. -/
  itable : ∃ a, s'.itable = Function.update s.itable ip
    { s.itable ip with d := { (s.itable ip).d with addrs := a } }
  /-- A slot that holds a block keeps it. -/
  keep : ∀ sl, s.hold ip sl ≠ 0 → s'.hold ip sl = s.hold ip sl
  /-- A block that is new was free. -/
  fresh : ∀ sl, s'.hold ip sl ≠ s.hold ip sl → s.used (s'.hold ip sl) = false
  /-- It is zeroed, and stays so unless it is written. -/
  zero : ∀ sl, s'.hold ip sl ≠ s.hold ip sl → sl ≠ .indirect → ¬w sl →
    s'.data (s'.hold ip sl) = fun _ => 0
  used : ∀ b, s.used b = true → s'.used b = true
  data : ∀ b, s.used b = true → s.hold ip .indirect ≠ b → (∀ sl, w sl → s.hold ip sl ≠ b) →
    s'.data b = s.data b

theorem Extends.refl (ip : ℕ) (w : Slot → Prop) (s : State) : Extends ip w s s where
  sb := rfl
  dinode := rfl
  cwd := rfl
  files := rfl
  itable := ⟨(s.itable ip).d.addrs, (Function.update_eq_self ip s.itable).symm⟩
  keep _ _ := rfl
  fresh _ h := absurd rfl h
  zero _ h := absurd rfl h
  used _ h := h
  data _ _ _ _ := rfl

theorem Extends.mono (h : Extends ip w s s') (hw : ∀ sl, w sl → w' sl) : Extends ip w' s s' :=
  { h with
    zero := fun sl hne hi hs => h.zero sl hne hi fun hw' => hs (hw sl hw')
    data := fun b hb hi hsl => h.data b hb hi fun sl hs => hsl sl (hw sl hs) }

theorem Extends.trans (h : Extends ip w s s₁) (ho : s₁.Safe) (h' : Extends ip w s₁ s') :
    Extends ip w s s' where
  sb := h'.sb.trans h.sb
  dinode := h'.dinode.trans h.dinode
  cwd := h'.cwd.trans h.cwd
  files := h'.files.trans h.files
  itable := by
    obtain ⟨a, ha⟩ := h.itable
    obtain ⟨a', ha'⟩ := h'.itable
    refine ⟨a', ?_⟩
    rw [ha', ha]
    simp
  keep sl hsl := by
    rw [h'.keep sl (by rw [h.keep sl hsl]; exact hsl), h.keep sl hsl]
  fresh sl hsl := by
    by_cases h1 : s'.hold ip sl = s₁.hold ip sl
    · rw [h1] at hsl ⊢
      exact h.fresh sl hsl
    · have := h'.fresh sl h1
      by_contra hu
      rw [Bool.not_eq_false] at hu
      rw [h.used _ hu] at this
      cases this
  zero sl hsl hi hw := by
    by_cases h1 : s'.hold ip sl = s₁.hold ip sl
    · rw [h1] at hsl ⊢
      by_cases h0 : s₁.hold ip sl = 0
      · -- a slot never loses its block
        exact absurd (h.keep sl fun h0' => hsl (h0.trans h0'.symm)) hsl
      · have hne : ∀ sl', sl' ≠ sl → s₁.hold ip sl' ≠ s₁.hold ip sl := fun sl' hs heq =>
          hs (ho.hold_inj h0 heq).2
        rw [h'.data _ (ho.used_hold h0) (hne _ (Ne.symm hi)) fun sl' hs => hne sl' ?_]
        · exact h.zero sl hsl hi hw
        · rintro rfl
          exact hw hs
    · exact h'.zero sl h1 hi hw
  used b hb := h'.used b (h.used b hb)
  data b hb hi hw := by
    -- a block of another inode does not come to `ip` on the way
    have hne : ∀ sl, s.hold ip sl ≠ b → s₁.hold ip sl ≠ b := by
      rintro sl hsl rfl
      have := h.fresh sl hsl.symm
      rw [hb] at this
      cases this
    rw [h'.data b (h.used b hb) (hne _ hi) fun sl hs => hne sl (hw sl hs), h.data b hb hi hw]

theorem Extends.live (h : Extends ip w s s') : s'.Live i ↔ s.Live i := by
  obtain ⟨a, ha⟩ := h.itable
  rw [Live, Live, ha]
  by_cases hi : i = ip
  · subst hi
    simp
  · simp [hi]

/-- The other inodes are as they were. -/
theorem Extends.cur_of_ne (h : Extends ip w s s') (hi : i ≠ ip) : s'.cur i = s.cur i := by
  obtain ⟨a, ha⟩ := h.itable
  rw [cur, cur, h.dinode]
  simp only [h.live, ha, Function.update_of_ne hi]

theorem Extends.cur_self (h : Extends ip w s s') (hr : s.Live ip) :
    ∃ a, s'.cur ip = { s.cur ip with addrs := a } := by
  obtain ⟨a, ha⟩ := h.itable
  refine ⟨a, ?_⟩
  rw [cur_of_live (h.live.mpr hr), cur_of_live hr, ha, Function.update_self]

theorem Extends.ready (h : Extends ip w s s') (hr : s.Ready i) : s'.Ready i := by
  obtain ⟨a, ha⟩ := h.itable
  refine ⟨h.live.mpr hr.live, h.sb ▸ hr.lt, ?_⟩
  rw [ha]
  by_cases hi : i = ip
  · subst hi
    simpa using hr.type
  · simpa [hi] using hr.type

/-- The blocks of another inode are where they were. -/
theorem Extends.hold_of_ne (h : Extends ip w s s') (ho : s.Safe) (hi : i ≠ ip) (sl : Slot) :
    s'.hold i sl = s.hold i sl := by
  refine hold_congr h.sb (by rw [h.cur_of_ne hi]) (by rw [h.cur_of_ne hi]) (fun h0 => ?_) sl
  have hne : ∀ sl', s.hold ip sl' ≠ s.hold i .indirect := fun sl' heq =>
    hi (ho.hold_inj h0 heq).1.symm
  exact h.data _ (ho.used_hold h0) (hne _) fun sl' _ => hne sl'

/-- Their contents too. -/
theorem Extends.data_of_ne (h : Extends ip w s s') (ho : s.Safe) (hi : i ≠ ip)
    (h0 : s.hold i sl ≠ 0) : s'.data (s.hold i sl) = s.data (s.hold i sl) := by
  have hne : ∀ sl', s.hold ip sl' ≠ s.hold i sl := fun sl' heq => hi (ho.hold_inj h0 heq).1.symm
  exact h.data _ (ho.used_hold h0) (hne _) fun sl' _ => hne sl'

/-- What is passed to `log_write` for the blocks of inode `ip` in the slots `v`: such a block and,
if it is new, the block of the free map with its bit. The other blocks stay as they are. -/
structure Logs (ip : ℕ) (v : Slot → Prop) (s s' : State) : Prop where
  mem : ∀ x ∈ s.logged, x ∈ s'.logged
  logged : ∀ x ∈ s'.logged, x ∈ s.logged ∨ ∃ sl, v sl ∧ s'.hold ip sl ≠ 0 ∧
    (x = s'.hold ip sl ∨ s.hold ip sl = 0 ∧ x = bblock s (s'.hold ip sl))
  data : ∀ b, b ∉ s'.logged → s'.data b = s.data b

theorem Logs.refl (ip : ℕ) (v : Slot → Prop) (s : State) : Logs ip v s s :=
  ⟨fun _ h => h, fun _ h => Or.inl h, fun _ _ => rfl⟩

theorem Logs.mono {v v' : Slot → Prop} (h : Logs ip v s s') (hv : ∀ sl, v sl → v' sl) :
    Logs ip v' s s' :=
  { h with
    logged := fun x hx => (h.logged x hx).imp_right fun ⟨sl, hsl, hx⟩ => ⟨sl, hv sl hsl, hx⟩ }

theorem Logs.trans {v : Slot → Prop} (h : Logs ip v s s₁) (hext : Extends ip w s s₁)
    (h' : Logs ip v s₁ s') (hext' : Extends ip w' s₁ s') : Logs ip v s s' where
  mem x hx := h'.mem x (h.mem x hx)
  logged x hx := by
    rcases h'.logged x hx with hx | ⟨sl, hsl, h0, hx⟩
    · refine (h.logged x hx).imp_right ?_
      rintro ⟨sl, hsl, h0, hx⟩
      refine ⟨sl, hsl, ?_⟩
      rw [hext'.keep sl h0]
      exact ⟨h0, hx⟩
    · refine Or.inr ⟨sl, hsl, h0, hx.imp_right ?_⟩
      rintro ⟨hz, rfl⟩
      refine ⟨?_, by rw [bblock, bblock, hext.sb]⟩
      by_contra hs
      rw [hext.keep sl hs] at hz
      exact hs hz
  data b hb := by rw [h'.data b hb, h.data b fun hx => hb (h'.mem b hx)]

/-- The state after `balloc` has found block `b`. -/
def alloc (s : State) (b : ℕ) : State :=
  { s with
    used := Function.update s.used b true
    data := Function.update s.data b fun _ => 0
    logged := s.logged ++ [bblock s b] ++ [b] }

end State

/-- `balloc` finds a free block below the size of the disk, or there is none and it returns 0 and
does nothing. -/
theorem balloc_spec {s : State} {E : Panic → State → Prop} :
    wp balloc (fun b s' => b = 0 ∧ s' = s ∧ (∀ b < s.sb.size, s.used b = true) ∨
      s.used b = false ∧ b < s.sb.size ∧ s' = s.alloc b) E s := by
  rw [balloc]
  simp only [wp_bind, wp_get]
  cases hf : (List.range s.sb.size).find? fun b => !s.used b with
  | none =>
    refine Or.inl ⟨rfl, rfl, fun b hb => ?_⟩
    simpa using List.find?_eq_none.mp hf b (List.mem_range.mpr hb)
  | some b =>
    have hfree := List.find?_some hf
    have hmem := List.mem_of_find?_eq_some hf
    refine Or.inr ⟨by simpa using hfree, List.mem_range.mp hmem, ?_⟩
    simp [State.alloc]

namespace State

variable {s s' : State} {ip b i k j : ℕ} {w : Slot → Prop}

/-- Put a block number into the addresses of an inode. -/
def setAddr (s : State) (ip k b : ℕ) : State :=
  s.putInode ip { s.itable ip with
    d := { (s.itable ip).d with addrs := Function.update (s.itable ip).d.addrs k b } }

/-- The slot of an entry of `addrs`. -/
def addrSlot (k : ℕ) : Slot := if k < ndirect then .direct k else .indirect

theorem Ready.setAddr (hr : s.Ready ip) : (s.setAddr ip k b).Ready ip :=
  ⟨live_putInode_self.mpr hr.live, hr.lt, by simpa [State.setAddr] using hr.type⟩

/-- Among the slots of the inode only that of the new block changes, since a new indirect block
is empty. -/
theorem hold_setAddr (h : s.Safe) (hr : s.Ready ip) (hk : k ≤ ndirect)
    (hempty : (s.itable ip).d.addrs k = 0) (hb : s.used b = false) (sl : Slot) :
    ((s.alloc b).setAddr ip k b).hold ip sl = if sl = addrSlot k then b else s.hold ip sl := by
  have hr' : (s.alloc b).Ready ip := ⟨hr.live, hr.lt, hr.type⟩
  have hd : (((s.alloc b).setAddr ip k b).itable ip).d.addrs =
      Function.update (s.itable ip).d.addrs k b := by
    simp [setAddr, alloc]
  have hind : s.hold ip .indirect = (s.itable ip).d.addrs ndirect := by rw [hr.hold, Dinode.block]
  rw [hr'.setAddr.hold, hr.hold, addrSlot]
  rcases hk.lt_or_eq with hk | rfl
  · rw [if_pos hk]
    cases sl with
    | direct k' =>
      simp only [Dinode.block, hd, Slot.direct.injEq]
      by_cases hkk : k' = k
      · subst hkk
        simp [hk]
      · simp [hkk]
    | indirect => simp [Dinode.block, hd, hk.ne']
    | word j =>
      have hne : (s.itable ip).d.addrs ndirect ≠ b := hind ▸ h.ne_of_unused hb ip .indirect
      simp [Dinode.block, hk.ne', setAddr, alloc, hne]
  · rw [if_neg (lt_irrefl _)]
    cases sl with
    | direct k' =>
      simp only [Dinode.block, hd]
      by_cases hkk : k' < ndirect
      · simp [hkk, hkk.ne]
      · simp [hkk]
    | indirect => simp [Dinode.block, hd]
    | word j => simp [Dinode.block, setAddr, alloc, hempty]

theorem hold_addrSlot (hr : s.Ready ip) (hk : k ≤ ndirect)
    (hempty : (s.itable ip).d.addrs k = 0) : s.hold ip (addrSlot k) = 0 := by
  rw [hr.hold, addrSlot]
  rcases hk.lt_or_eq with hk | rfl
  · simp [hk, Dinode.block, hempty]
  · simp [Dinode.block, hempty]

/-- `bmap` adds a block to the addresses of the inode. -/
theorem extends_addr (h : s.Safe) (hr : s.Ready ip) (hk : k ≤ ndirect)
    (hempty : (s.itable ip).d.addrs k = 0) (hb : s.used b = false) :
    Extends ip w s ((s.alloc b).setAddr ip k b) ∧ Keeps s ((s.alloc b).setAddr ip k b) ∧
      ((s.alloc b).setAddr ip k b).hold ip (addrSlot k) = b := by
  have hhold := hold_setAddr h hr hk hempty hb
  have hslot := hold_addrSlot hr hk hempty
  have hother : ∀ i, i ≠ ip → ∀ sl,
      ((s.alloc b).setAddr ip k b).hold i sl = s.hold i sl := fun i hi sl => by
    have hc : ((s.alloc b).setAddr ip k b).cur i = s.cur i := cur_putInode_of_ne hi
    refine @hold_congr s ((s.alloc b).setAddr ip k b) i rfl (by rw [hc]) (by rw [hc])
      (fun _ => ?_) sl
    exact Function.update_of_ne (h.ne_of_unused hb i .indirect) _ _
  refine ⟨?_, ?_, by rw [hhold, if_pos rfl]⟩
  · refine ⟨rfl, rfl, rfl, rfl, ⟨_, rfl⟩, fun sl hsl => ?_, fun sl hsl => ?_,
      fun sl hsl _ _ => ?_, fun b' hb' => ?_,
      fun b' hb' _ _ => ?_⟩
    · rw [hhold, if_neg]
      rintro rfl
      exact hsl hslot
    · rw [hhold] at hsl ⊢
      by_cases hs : sl = addrSlot k
      · rw [if_pos hs]
        exact hb
      · rw [if_neg hs] at hsl
        exact absurd rfl hsl
    · rw [hhold] at hsl ⊢
      by_cases hs : sl = addrSlot k
      · rw [if_pos hs]
        exact Function.update_self b _ s.data
      · rw [if_neg hs] at hsl
        exact absurd rfl hsl
    · change Function.update s.used b true b' = true
      by_cases hbb : b' = b
      · simp [hbb]
      · simpa [hbb] using hb'
    · change Function.update s.data b _ b' = _
      refine Function.update_of_ne ?_ _ _
      rintro rfl
      rw [hb'] at hb
      cases hb
  · refine h.gain hb rfl rfl (by rw [hhold, if_pos rfl]) hslot fun i sl hne => ?_
    by_cases hi : i = ip
    · subst hi
      rw [hhold, if_neg fun hs => hne (by rw [hs])]
    · exact hother i hi sl

theorem logs_addr (h : s.Safe) (hr : s.Ready ip) (hk : k ≤ ndirect)
    (hempty : (s.itable ip).d.addrs k = 0) (hb : s.used b = false) :
    Logs ip (· = addrSlot k) s ((s.alloc b).setAddr ip k b) := by
  have hhold := hold_setAddr h hr hk hempty hb (addrSlot k)
  rw [if_pos rfl] at hhold
  have hlog : ((s.alloc b).setAddr ip k b).logged = s.logged ++ [bblock s b] ++ [b] := rfl
  refine ⟨fun x hx => ?_, fun x hx => ?_, fun b' hb' => ?_⟩
  · rw [hlog]
    simp [hx]
  · simp only [hlog, List.mem_append, List.mem_singleton, or_assoc] at hx
    refine hx.imp_right fun hx => ⟨addrSlot k, rfl, ?_⟩
    rw [hhold]
    refine ⟨fun h0 => ?_, hx.symm.imp_right fun hx => ⟨hold_addrSlot hr hk hempty, hx⟩⟩
    rw [h0, h.used_zero] at hb
    cases hb
  · refine Function.update_of_ne ?_ _ _
    rintro rfl
    simp [hlog] at hb'

/-- Put a block number into a word of a block. -/
def setWord (s : State) (ind j b : ℕ) : State :=
  { s with
    data := Function.update s.data ind ((s.data ind).setWord j b)
    logged := s.logged ++ [ind] }

theorem hold_setWord (h : s.Safe) (hr : s.Ready ip) (hj : j < nindirect)
    (hind : s.hold ip .indirect ≠ 0) (hb : s.used b = false) (hlt : b < s.sb.size) (sl : Slot) :
    ((s.alloc b).setWord (s.hold ip .indirect) j b).hold ip sl =
      if sl = .word j then b else s.hold ip sl := by
  have hr' : ((s.alloc b).setWord (s.hold ip .indirect) j b).Ready ip :=
    ⟨hr.live, hr.lt, hr.type⟩
  have haddr : s.hold ip .indirect = (s.itable ip).d.addrs ndirect := by rw [hr.hold, Dinode.block]
  have hne : (s.itable ip).d.addrs ndirect ≠ b := haddr ▸ h.ne_of_unused hb ip .indirect
  rw [hr'.hold, hr.hold, hr.hold]
  rw [haddr] at hind
  cases sl with
  | direct k => rfl
  | indirect => rfl
  | word j' =>
    by_cases hjj : j' = j
    · subst hjj
      simp [Dinode.block, hj, hind, setWord, alloc, hne,
        Data.word_setWord_self _ _ (hlt.trans s.sb.size_lt)]
    · simp [Dinode.block, hind, hne, hjj, setWord, alloc, Data.word_setWord_of_ne _ _ hjj]

/-- `bmap` adds a block to the words of the indirect block. -/
theorem extends_word (h : s.Safe) (hr : s.Ready ip) (hj : j < nindirect)
    (hind : s.hold ip .indirect ≠ 0) (hempty : s.hold ip (.word j) = 0)
    (hb : s.used b = false) (hlt : b < s.sb.size) :
    Extends ip w s ((s.alloc b).setWord (s.hold ip .indirect) j b) ∧
      Keeps s ((s.alloc b).setWord (s.hold ip .indirect) j b) ∧
      ((s.alloc b).setWord (s.hold ip .indirect) j b).hold ip (.word j) = b := by
  have hhold := hold_setWord h hr hj hind hb hlt
  refine ⟨?_, ?_, by rw [hhold, if_pos rfl]⟩
  · refine ⟨rfl, rfl, rfl, rfl, ⟨_, (Function.update_eq_self ip s.itable).symm⟩, fun sl hsl => ?_,
      fun sl hsl => ?_, fun sl hsl _ _ => ?_, fun b' hb' => ?_, fun b' hb' hi _ => ?_⟩
    · rw [hhold, if_neg]
      rintro rfl
      exact hsl hempty
    · rw [hhold] at hsl ⊢
      by_cases hs : sl = .word j
      · rw [if_pos hs]
        exact hb
      · rw [if_neg hs] at hsl
        exact absurd rfl hsl
    · rw [hhold] at hsl ⊢
      by_cases hs : sl = .word j
      · rw [if_pos hs]
        simp [setWord, alloc, (h.ne_of_unused hb ip .indirect).symm]
      · rw [if_neg hs] at hsl
        exact absurd rfl hsl
    · change Function.update s.used b true b' = true
      by_cases hbb : b' = b
      · simp [hbb]
      · simpa [hbb] using hb'
    · have hbb : b' ≠ b := by
        rintro rfl
        rw [hb'] at hb
        cases hb
      simp [setWord, alloc, Function.update_of_ne hi.symm, hbb]
  · refine h.gain hb rfl rfl (by rw [hhold, if_pos rfl]) hempty fun i sl hne => ?_
    by_cases hi : i = ip
    · subst hi
      rw [hhold, if_neg fun hs => hne (by rw [hs])]
    · refine @hold_congr s ((s.alloc b).setWord (s.hold ip .indirect) j b) i rfl rfl rfl
        (fun h0 => ?_) sl
      have hne1 : s.hold i .indirect ≠ s.hold ip .indirect := fun heq =>
        hi (h.hold_inj hind heq).1
      have hne2 := h.ne_of_unused hb i .indirect
      simp [setWord, alloc, hne1, hne2]

theorem logs_word (h : s.Safe) (hr : s.Ready ip) (hj : j < nindirect)
    (hind : s.hold ip .indirect ≠ 0) (hempty : s.hold ip (.word j) = 0)
    (hb : s.used b = false) (hlt : b < s.sb.size) :
    Logs ip (fun sl => sl = .word j ∨ sl = .indirect) s
      ((s.alloc b).setWord (s.hold ip .indirect) j b) := by
  have hhold := hold_setWord h hr hj hind hb hlt
  have hword := hhold (.word j)
  have hsame := hhold .indirect
  rw [if_pos rfl] at hword
  rw [if_neg nofun] at hsame
  have hlog : ((s.alloc b).setWord (s.hold ip .indirect) j b).logged =
      s.logged ++ [bblock s b] ++ [b] ++ [s.hold ip .indirect] := rfl
  refine ⟨fun x hx => ?_, fun x hx => ?_, fun b' hb' => ?_⟩
  · rw [hlog]
    simp [hx]
  · have hb0 : b ≠ 0 := by
      rintro rfl
      rw [h.used_zero] at hb
      cases hb
    simp only [hlog, List.mem_append, List.mem_singleton] at hx
    rcases hx with ((hx | rfl) | rfl) | rfl
    · exact Or.inl hx
    · exact Or.inr ⟨.word j, Or.inl rfl, hword.symm ▸ hb0, Or.inr ⟨hempty, by rw [hword]⟩⟩
    · exact Or.inr ⟨.word j, Or.inl rfl, hword.symm ▸ hb0, Or.inl hword.symm⟩
    · exact Or.inr ⟨.indirect, Or.inr rfl, hsame.symm ▸ hind, Or.inl hsame.symm⟩
  · simp only [hlog, List.mem_append, List.mem_singleton, not_or] at hb'
    simp [setWord, alloc, hb'.1.2, hb'.2]

end State

section Map

variable {s : State} {ip bn : ℕ} {w : Slot → Prop} {E : Panic → State → Prop}

/-- What `bmap` and its first part promise about the block they return for a slot. -/
structure Mapped (ip : ℕ) (sl : Slot) (w : Slot → Prop) (s : State) (r : ℕ) (s' : State) :
    Prop where
  ext : State.Extends ip w s s'
  keeps : State.Keeps s s'
  hold : s'.hold ip sl = r
  found : s.hold ip sl ≠ 0 → r ≠ 0 ∧ s' = s
  full : r = 0 → ∀ b < s'.sb.size, s'.used b = true
  logs : State.Logs ip (fun sl' => sl' = sl ∨ sl' = .indirect) s s'

theorem mapped_found (hs : s.Safe) {sl : Slot} {r : ℕ} (hr : s.hold ip sl = r) (h0 : r ≠ 0) :
    Mapped ip sl w s r s :=
  ⟨.refl ip w s, hs.keeps_refl, hr, fun _ => ⟨h0, rfl⟩, fun h => absurd h h0, .refl ..⟩

theorem mapped_full (hs : s.Safe) {sl : Slot} (h0 : s.hold ip sl = 0)
    (hfull : ∀ b < s.sb.size, s.used b = true) : Mapped ip sl w s 0 s :=
  ⟨.refl ip w s, hs.keeps_refl, h0, fun h => absurd h0 h, fun _ => hfull, .refl ..⟩

theorem mapped_added {sl : Slot} {r : ℕ} {s' : State} (h0 : s.hold ip sl = 0) (hr : r ≠ 0)
    (h : State.Extends ip w s s' ∧ State.Keeps s s' ∧ s'.hold ip sl = r)
    (hl : State.Logs ip (fun sl' => sl' = sl ∨ sl' = .indirect) s s') : Mapped ip sl w s r s' :=
  ⟨h.1, h.2.1, h.2.2, fun h' => absurd h0 h', fun h' => absurd h' hr, hl⟩

theorem bmapIndirect_spec (hs : s.Safe) (hr : s.Ready ip) :
    wp (bmapIndirect ip) (Mapped ip .indirect w s) E s := by
  have haddr : s.hold ip .indirect = (s.itable ip).d.addrs ndirect := by
    rw [hr.hold, Dinode.block]
  rw [bmapIndirect, dinodeOf]
  simp only [wp_bind, wp_get, wp_pure, wp_ite]
  refine ⟨fun h0 => mapped_found hs haddr h0, fun h0 => ?_⟩
  rw [not_not] at h0
  refine wp_mono balloc_spec ?_ fun _ _ he => he
  rintro b s' (⟨rfl, rfl, hfull⟩ | ⟨hb, hlt, rfl⟩)
  · exact ⟨fun _ => mapped_full hs (haddr.trans h0) hfull, fun h => absurd rfl h⟩
  · refine ⟨fun hb0 => ?_, fun hb0 => ?_⟩
    · rw [hb0, hs.used_zero] at hb
      cases hb
    · exact mapped_added (haddr.trans h0) hb0 (State.extends_addr hs hr le_rfl h0 hb)
        ((State.logs_addr hs hr le_rfl h0 hb).mono fun _ => Or.inl)

/-- A word of the indirect block needs the indirect block. -/
theorem State.Ready.indirect_ne (hr : s.Ready ip) {j : ℕ} (h : s.hold ip (.word j) ≠ 0) :
    s.hold ip .indirect ≠ 0 := by
  intro h0
  rw [hr.hold, Dinode.block] at h0
  rw [hr.hold, Dinode.block, h0] at h
  simp at h

theorem bmap_spec (hs : s.Safe) (hr : s.Ready ip) (hbn : bn < maxfile) :
    wp (bmap ip bn) (Mapped ip (slotOf bn) w s) E s := by
  rw [bmap, slotOf]
  simp only [wp_ite]
  refine ⟨fun hd => ?_, fun hd => ⟨fun hj => ?_, fun hj => ?_⟩⟩
  · have haddr : s.hold ip (.direct bn) = (s.itable ip).d.addrs bn := by
      rw [hr.hold, Dinode.block, if_pos hd]
    rw [if_pos hd, dinodeOf]
    simp only [wp_bind, wp_get, wp_pure, wp_ite]
    refine ⟨fun h0 => mapped_found hs haddr h0, fun h0 => ?_⟩
    rw [not_not] at h0
    refine wp_mono balloc_spec ?_ fun _ _ he => he
    rintro b s' (⟨rfl, rfl, hfull⟩ | ⟨hb, hlt, rfl⟩)
    · exact ⟨fun _ => mapped_full hs (haddr.trans h0) hfull, fun h => absurd rfl h⟩
    · refine ⟨fun hb0 => ?_, fun hb0 => ?_⟩
      · rw [hb0, hs.used_zero] at hb
        cases hb
      · have hadd := State.extends_addr (w := w) hs hr hd.le h0 hb
        have hlog := State.logs_addr hs hr hd.le h0 hb
        rw [State.addrSlot, if_pos hd] at hadd hlog
        exact mapped_added (haddr.trans h0) hb0 hadd (hlog.mono fun _ => Or.inl)
  · rw [if_neg hd]
    simp only [wp_bind]
    refine wp_mono (bmapIndirect_spec (w := w) hs hr) ?_ fun _ _ he => he
    intro ind s₁ hm
    have hlogs : State.Logs ip (fun sl => sl = .word (bn - ndirect) ∨ sl = .indirect) s s₁ :=
      hm.logs.mono fun _ h => Or.inr (or_self_iff.mp h)
    -- a word that is there is in an indirect block that is there
    have hfound : s.hold ip (.word (bn - ndirect)) ≠ 0 → ind ≠ 0 ∧ s₁ = s :=
      fun h => hm.found (hr.indirect_ne h)
    have hs₁ := hm.keeps.1
    have hr₁ := hm.ext.ready hr
    simp only [wp_ite, wp_pure, wp_bind, wp_get]
    refine ⟨fun h0 => ⟨hm.ext, hm.keeps, ?_, fun h => absurd h0 (hfound h).1,
      fun _ => hm.full h0, hlogs⟩, fun h0 => ?_⟩
    · by_contra h
      exact hr₁.indirect_ne h (hm.hold.trans h0)
    have hword : s₁.hold ip (.word (bn - ndirect)) = (s₁.data ind).word (bn - ndirect) := by
      have haddr := hm.hold
      rw [hr₁.hold, Dinode.block] at haddr
      rw [hr₁.hold, Dinode.block, haddr, if_pos ⟨hj, h0⟩]
    refine ⟨fun hw => ⟨hm.ext, hm.keeps, hword, fun h => ⟨hw, (hfound h).2⟩,
      fun h => absurd h hw, hlogs⟩, fun hw => ?_⟩
    rw [not_not] at hw
    have hempty : s.hold ip (.word (bn - ndirect)) = 0 := by
      by_contra h
      rw [(hfound h).2] at hword hw
      exact h (hword.trans hw)
    refine wp_mono balloc_spec ?_ fun _ _ he => he
    rintro b s' (⟨rfl, rfl, hfull⟩ | ⟨hb, hlt, rfl⟩)
    · exact ⟨fun _ => ⟨hm.ext, hm.keeps, hword.trans hw, fun h => absurd hempty h,
        fun _ => hfull, hlogs⟩, fun h => absurd rfl h⟩
    · refine ⟨fun hb0 => ?_, fun hb0 => ?_⟩
      · rw [hb0, hs₁.used_zero] at hb
        cases hb
      · have hind : s₁.hold ip .indirect ≠ 0 := by
          rw [hm.hold]
          exact h0
        have hadd := State.extends_word (w := w) hs₁ hr₁ hj hind (hword.trans hw) hb hlt
        have hlog := State.logs_word hs₁ hr₁ hj hind (hword.trans hw) hb hlt
        rw [hm.hold] at hadd hlog
        exact mapped_added hempty hb0
          ⟨hm.ext.trans hs₁ hadd.1, hm.keeps.trans hadd.2.1, hadd.2.2⟩
          (hlogs.trans hm.ext hlog hadd.1)
  · simp only [maxfile] at hbn
    omega

end Map

/-! ### Truncation -/

/-- While `itrunc` runs: the blocks of the slots `gone` have been freed, and the addresses are
now `a`. -/
def Dropped (ip : ℕ) (gone : Slot → Prop) (a : ℕ → ℕ) (s s' : State) : Prop :=
  ∃ u l, s' = { s with
      used := u
      logged := l
      itable := Function.update s.itable ip
        { s.itable ip with d := { (s.itable ip).d with addrs := a } } } ∧
    ∀ b, u b = true ↔ s.used b = true ∧ ∀ sl, gone sl → s.hold ip sl = b → b = 0

section Trunc

variable {s s' : State} {ip : ℕ} {gone gone' : Slot → Prop} {a a' : ℕ → ℕ} {sl : Slot}
  {E : Panic → State → Prop}

theorem Dropped.refl (s : State) (ip : ℕ) :
    Dropped ip (fun _ => False) (s.itable ip).d.addrs s s := by
  refine ⟨s.used, s.logged, ?_, fun b => ?_⟩
  · exact (Function.update_eq_self ip s.itable).symm ▸ rfl
  · simp

/-- Only the blocks of the slots matter. -/
theorem Dropped.congr (h : Dropped ip gone a s s')
    (hgone : ∀ sl, s.hold ip sl ≠ 0 → (gone' sl ↔ gone sl)) : Dropped ip gone' a s s' := by
  obtain ⟨u, l, hs, hu⟩ := h
  refine ⟨u, l, hs, fun b => ?_⟩
  rw [hu]
  refine and_congr_right fun _ => forall_congr' fun sl => ?_
  by_cases h0 : s.hold ip sl = 0
  · exact ⟨fun _ _ hb => hb ▸ h0, fun _ _ hb => hb ▸ h0⟩
  · rw [hgone sl h0]

theorem Dropped.addrs (h : Dropped ip gone a s s') : (s'.itable ip).d.addrs = a := by
  obtain ⟨u, l, rfl, -⟩ := h
  simp

theorem Dropped.setAddrs (h : Dropped ip gone a s s') (k : ℕ) :
    wp (setDinode ip fun d => { d with addrs := Function.update d.addrs k 0 })
      (fun _ s'' => Dropped ip gone (Function.update a k 0) s s'') E s' := by
  obtain ⟨u, l, rfl, hu⟩ := h
  refine ⟨u, l, ?_, hu⟩
  simp [State.putInode]

/-- A block of the inode that has not been freed yet can be freed. -/
theorem Dropped.bfree (h : Dropped ip gone a s s') (ho : s.Safe) (h0 : s.hold ip sl ≠ 0)
    (hg : ¬gone sl) :
    wp (bfree (s.hold ip sl))
      (fun _ s'' => Dropped ip (fun sl' => gone sl' ∨ sl' = sl) a s s'') E s' := by
  obtain ⟨u, l, rfl, hu⟩ := h
  have hused : u (s.hold ip sl) = true := by
    rw [hu]
    refine ⟨ho.used_hold h0, fun sl' hg' heq => ?_⟩
    rw [(ho.hold_inj h0 heq).2] at hg'
    exact absurd hg' hg
  rw [Fs.bfree]
  simp only [wp_bind, wp_get, wp_ite, wp_throw, wp_modify, logWrite]
  refine ⟨fun hf => ?_, fun _ => ⟨Function.update u (s.hold ip sl) false, _, rfl, fun b => ?_⟩⟩
  · rw [hused] at hf
    cases hf
  · by_cases hb : b = s.hold ip sl
    · subst hb
      simp only [Function.update_self, Bool.false_eq_true, false_iff, not_and, not_forall]
      exact fun _ => ⟨sl, Or.inr rfl, rfl, h0⟩
    · rw [Function.update_of_ne hb, hu]
      refine and_congr_right fun _ => forall_congr' fun sl' => ⟨fun h' hg' heq => ?_,
        fun h' hg' => h' (Or.inl hg')⟩
      rcases hg' with hg' | rfl
      · exact h' hg' heq
      · exact absurd heq.symm hb

/-- The first loop frees the direct blocks. -/
theorem truncDirect_spec (ho : s.Safe) (hr : s.Ready ip) :
    wp ((List.range ndirect).forM (truncDirect ip))
      (fun _ s' => Dropped ip (fun sl => ∃ k < ndirect, sl = .direct k)
        (fun k => if k < ndirect then 0 else (s.itable ip).d.addrs k) s s') E s := by
  refine wp_forM_range (fun n s' => Dropped ip (fun sl => ∃ k < n, sl = .direct k)
    (fun k => if k < n then 0 else (s.itable ip).d.addrs k) s s') ?_ fun k s' hk hd => ?_
  · exact (Dropped.refl s ip).congr fun sl _ => by simp
  · have hnext : (fun k' => if k' < k + 1 then 0 else (s.itable ip).d.addrs k') =
        Function.update (fun k' => if k' < k then 0 else (s.itable ip).d.addrs k') k 0 := by
      funext k'
      by_cases hkk : k' = k
      · simp [hkk]
      · rw [Function.update_of_ne hkk]
        simp only [Nat.lt_succ_iff_lt_or_eq, hkk, or_false]
    have haddr : (s'.itable ip).d.addrs k = s.hold ip (.direct k) := by
      rw [hd.addrs, hr.hold, Dinode.block, if_pos hk]
      simp only [lt_irrefl, if_false]
    rw [truncDirect, dinodeOf]
    simp only [wp_bind, wp_get, wp_pure, wp_ite, haddr]
    refine ⟨fun h0 => ?_, fun h0 => ?_⟩
    · refine wp_mono (hd.bfree ho h0 ?_) (fun _ s'' hd' => ?_) fun _ _ he => he
      · rintro ⟨j, hj, heq⟩
        exact hj.ne (Slot.direct.inj heq).symm
      · rw [hnext]
        refine wp_mono (hd'.setAddrs k) (fun _ _ hd'' => hd''.congr fun sl _ => ?_) fun _ _ he => he
        constructor
        · rintro ⟨j, hj, rfl⟩
          rcases Nat.lt_succ_iff_lt_or_eq.mp hj with hj | rfl
          · exact Or.inl ⟨j, hj, rfl⟩
          · exact Or.inr rfl
        · rintro (⟨j, hj, rfl⟩ | rfl)
          · exact ⟨j, hj.trans k.lt_succ_self, rfl⟩
          · exact ⟨k, k.lt_succ_self, rfl⟩
    · rw [not_not] at h0
      have hsame : Function.update (fun k' => if k' < k then 0 else (s.itable ip).d.addrs k') k 0 =
          fun k' => if k' < k then 0 else (s.itable ip).d.addrs k' := by
        rw [Function.update_eq_self_iff]
        exact (haddr.trans h0).symm.trans (congrFun hd.addrs k)
      rw [hnext, hsame]
      refine hd.congr fun sl hsl => ⟨?_, ?_⟩
      · rintro ⟨j, hj, rfl⟩
        rcases Nat.lt_succ_iff_lt_or_eq.mp hj with hj | rfl
        · exact ⟨j, hj, rfl⟩
        · exact absurd h0 hsl
      · rintro ⟨j, hj, rfl⟩
        exact ⟨j, hj.trans k.lt_succ_self, rfl⟩

/-- The second loop frees the blocks in the words of the indirect block. -/
theorem truncIndirect_spec (ho : s.Safe) (hr : s.Ready ip) (hind : s.hold ip .indirect ≠ 0)
    (hd : Dropped ip (fun sl => ∃ k < ndirect, sl = .direct k) a s s') :
    wp ((List.range nindirect).forM (truncIndirect (s.data (s.hold ip .indirect))))
      (fun _ s'' => Dropped ip (fun sl => sl ≠ .indirect) a s s'') E s' := by
  have hword : ∀ j, j < nindirect →
      s.hold ip (.word j) = (s.data (s.hold ip .indirect)).word j := fun j hj => by
    rw [hr.hold, Dinode.block] at hind
    rw [hr.hold, hr.hold, Dinode.block, Dinode.block, if_pos ⟨hj, hind⟩]
  have hloop := wp_forM_range (E := E) (s := s') (n := nindirect)
    (g := truncIndirect (s.data (s.hold ip .indirect)))
    (fun n s'' => Dropped ip
      (fun sl => (∃ k < ndirect, sl = .direct k) ∨ ∃ j < n, sl = .word j) a s s'')
    (hd.congr fun sl _ => by simp) fun j s'' hj hd' => ?_
  · refine wp_mono hloop (fun _ _ hd' => hd'.congr fun sl hsl => ?_) fun _ _ he => he
    cases sl with
    | direct k =>
      have hk : k < ndirect := by
        by_contra hk
        rw [hr.hold, Dinode.block, if_neg hk] at hsl
        exact hsl rfl
      exact ⟨fun _ => Or.inl ⟨k, hk, rfl⟩, fun _ => nofun⟩
    | indirect => simp
    | word j =>
      have hj : j < nindirect := by
        by_contra hj
        rw [hr.hold, Dinode.block, if_neg fun h => hj h.1] at hsl
        exact hsl rfl
      exact ⟨fun _ => Or.inr ⟨j, hj, rfl⟩, fun _ => nofun⟩
  · rw [truncIndirect]
    simp only [wp_ite, wp_pure, ← hword j hj]
    refine ⟨fun h0 => ?_, fun h0 => ?_⟩
    · refine wp_mono (hd'.bfree ho h0 ?_) (fun _ _ hd'' => hd''.congr fun sl _ => ?_)
        fun _ _ he => he
      · rintro (⟨k, -, heq⟩ | ⟨j', hj', heq⟩)
        · cases heq
        · exact hj'.ne (Slot.word.inj heq).symm
      · simp only [Nat.lt_succ_iff_lt_or_eq, or_and_right, exists_or, exists_eq_left, or_assoc]
    · rw [not_not] at h0
      refine hd'.congr fun sl hsl => ?_
      have hne : sl ≠ .word j := by
        rintro rfl
        exact hsl h0
      simp only [Nat.lt_succ_iff_lt_or_eq, or_and_right, exists_or, exists_eq_left, hne, or_false]

/-- After `itrunc` the inode has no blocks, and those it had are free. -/
structure Truncated (ip : ℕ) (s s' : State) : Prop where
  sb : s'.sb = s.sb
  cwd : s'.cwd = s.cwd
  files : s'.files = s.files
  data : s'.data = s.data
  used : ∀ b, s'.used b = true ↔ s.used b = true ∧ ∀ sl, s.hold ip sl = b → b = 0
  node : ∃ a, (∀ k, k ≤ ndirect → a k = 0) ∧
    s'.itable = Function.update s.itable ip
      { s.itable ip with d := { (s.itable ip).d with addrs := a, size := 0 } } ∧
    s'.dinode = Function.update s.dinode ip { (s.itable ip).d with addrs := a, size := 0 }

/-- `itrunc` never frees a free block. -/
theorem itrunc_spec (ho : s.Safe) (hr : s.Ready ip) :
    wp (itrunc ip) (fun _ s' => Truncated ip s s') E s := by
  have hfinish : ∀ {a s'}, (∀ k, k ≤ ndirect → a k = 0) → Dropped ip (fun _ => True) a s s' →
      wp (do setDinode ip fun d => { d with size := 0 }; iupdate ip)
        (fun _ s'' => Truncated ip s s'') E s' := by
    rintro a _ ha ⟨u, l, rfl, hu⟩
    refine ⟨rfl, rfl, rfl, rfl, fun b => ?_, ⟨a, ha, ?_, ?_⟩⟩
    · simpa [State.putInode] using hu b
    · simp [State.putInode]
    · simp [State.putInode]
  rw [itrunc]
  refine wp_seq (truncDirect_spec ho hr) fun _ s₁ hd => ?_
  have hind : (s₁.itable ip).d.addrs ndirect = s.hold ip .indirect := by
    rw [hd.addrs, hr.hold, Dinode.block]
    simp only [lt_irrefl, if_false]
  have hdata : s₁.data = s.data := by
    obtain ⟨u, l, rfl, -⟩ := hd
    rfl
  rw [dinodeOf]
  simp only [wp_bind, wp_get, wp_pure, wp_ite, hind, hdata]
  refine ⟨fun h0 => ?_, fun h0 => ?_⟩
  · refine wp_mono (truncIndirect_spec ho hr h0 hd) (fun _ s₂ hd₂ => ?_) fun _ _ he => he
    refine wp_mono (hd₂.bfree ho h0 fun h => h rfl) (fun _ s₃ hd₃ => ?_) fun _ _ he => he
    refine wp_mono (hd₃.setAddrs ndirect) (fun _ s₄ hd₄ => ?_) fun _ _ he => he
    refine wp_bind.mp (hfinish (fun k hk => ?_) (hd₄.congr fun sl _ => ?_))
    · rcases hk.lt_or_eq with hk | rfl
      · simp [hk.ne, hk]
      · simp
    · simp only [true_iff]
      exact (em (sl = .indirect)).symm
  · rw [not_not] at h0
    refine wp_bind.mp (hfinish (fun k hk => ?_) (hd.congr fun sl hsl => ?_))
    · rcases hk.lt_or_eq with hk | rfl
      · simp [hk]
      · rw [← hind, hd.addrs] at h0
        exact h0
    · simp only [true_iff]
      cases sl with
      | direct k =>
        refine ⟨k, ?_, rfl⟩
        by_contra hk
        rw [hr.hold, Dinode.block, if_neg hk] at hsl
        exact hsl rfl
      | indirect => exact absurd h0 hsl
      | word j => exact absurd h0 (hr.indirect_ne hsl)

end Trunc

end Fs

end Xv6
