import Xv6.Fs.Blocks

/-!
# Files as byte arrays

A file is the array of its bytes: `State.byte s i x` reads the one at offset `x` through the block
that inode `i` holds for it. What `bmap` adds reads as zeros, so adding blocks changes no byte.

`writei` copies in pieces, each within a block. `Copied` says what the pieces that succeeded have
done together: the bytes from `off` to `off'` are those of the source, all others are as they were,
and only blocks of these bytes have been logged. `Stopped` says why the loop came to its end. When
it is because a copy failed, the bytes which that copy did deliver are in the buffer of the block,
which is not logged.
-/

namespace Xv6

namespace Fs

open StateLogic

/-! ### Bytes -/

theorem slotOf_ne_indirect (bn : ℕ) : slotOf bn ≠ .indirect := by
  rw [slotOf]
  split <;> rintro ⟨⟩

theorem slotOf_inj {bn bn' : ℕ} (h : slotOf bn = slotOf bn') : bn = bn' := by
  rw [slotOf, slotOf] at h
  split at h <;> split at h
  · exact Slot.direct.inj h
  · cases h
  · cases h
  · have := Slot.word.inj h
    omega

namespace State

variable {s s' : State} {ip b i x off : ℕ} {sl : Slot} {w : Slot → Prop}

/-- The byte at offset `x` of a file; a block that is missing reads as zeros. -/
def byte (s : State) (i x : ℕ) : UInt8 :=
  if s.hold i (slotOf (x / bsize)) = 0 then 0
  else s.data (s.hold i (slotOf (x / bsize))) (x % bsize)

/-- Adding blocks changes no byte, for they are zeroed. -/
theorem Extends.byte (h : Extends ip w s s') (hs : s.Safe) (hw : ¬w (slotOf (x / bsize))) :
    s'.byte ip x = s.byte ip x := by
  have hi := slotOf_ne_indirect (x / bsize)
  rw [State.byte, State.byte]
  by_cases h0 : s.hold ip (slotOf (x / bsize)) = 0
  · rw [if_pos h0]
    by_cases h1 : s'.hold ip (slotOf (x / bsize)) = 0
    · rw [if_pos h1]
    · rw [if_neg h1, h.zero _ (by rw [h0]; exact h1) hi hw]
  · have hne : ∀ sl, sl ≠ slotOf (x / bsize) →
        s.hold ip sl ≠ s.hold ip (slotOf (x / bsize)) := fun sl hsl heq =>
      hsl (hs.hold_inj h0 heq).2
    rw [h.keep _ h0, if_neg h0, if_neg h0, h.data _ (hs.used_hold h0) (hne _ hi.symm)]
    intro sl hsl
    refine hne sl ?_
    rintro rfl
    exact hw hsl

/-- The bytes of another file stay. -/
theorem Extends.byte_of_ne (h : Extends ip w s s') (hs : s.Safe) (hi : i ≠ ip) (x : ℕ) :
    s'.byte i x = s.byte i x := by
  rw [State.byte, State.byte, h.hold_of_ne hs hi]
  by_cases h0 : s.hold i (slotOf (x / bsize)) = 0
  · rw [if_pos h0, if_pos h0]
  · rw [if_neg h0, if_neg h0, h.data_of_ne hs hi h0]

/-- The state after a write into block `b`. -/
def write (s : State) (b : ℕ) (d : Data) (l : List ℕ) : State :=
  { s with data := Function.update s.data b d, logged := l }

/-- A block of data may be written. -/
theorem hold_write (hs : s.Safe) (hb : s.hold ip sl = b) (h0 : b ≠ 0) (hsl : sl ≠ .indirect)
    (d : Data) (l : List ℕ) (i : ℕ) (sl' : Slot) :
    (s.write b d l).hold i sl' = s.hold i sl' := by
  refine @hold_congr s (s.write b d l) i rfl rfl rfl (fun _ => ?_) sl'
  refine Function.update_of_ne (fun heq => ?_) _ _
  subst hb
  exact hsl (hs.hold_inj h0 heq).2.symm

theorem extends_write (hs : s.Safe) (hb : s.hold ip sl = b) (h0 : b ≠ 0) (hsl : sl ≠ .indirect)
    (hw : w sl) (d : Data) (l : List ℕ) :
    Extends ip w s (s.write b d l) ∧ Keeps s (s.write b d l) := by
  have hhold := hold_write hs hb h0 hsl d l
  refine ⟨⟨rfl, rfl, rfl, rfl, ⟨_, (Function.update_eq_self ip s.itable).symm⟩,
    fun sl' _ => hhold ip sl', fun sl' h => absurd (hhold ip sl') h,
    fun sl' h => absurd (hhold ip sl') h, fun _ h => h, fun b' _ _ hne => ?_⟩,
    hs.congr rfl rfl hhold⟩
  refine Function.update_of_ne ?_ _ _
  rintro rfl
  exact hne sl hw hb

/-- A write into one block changes only the bytes of that block. -/
theorem byte_write (hs : s.Safe) {bn : ℕ} (hb : s.hold ip (slotOf bn) = b) (h0 : b ≠ 0)
    (d : Data) (l : List ℕ) (x : ℕ) :
    (s.write b d l).byte ip x = if x / bsize = bn then d (x % bsize) else s.byte ip x := by
  rw [byte, hold_write hs hb h0 (slotOf_ne_indirect bn)]
  by_cases hx : x / bsize = bn
  · rw [if_pos hx, hx, hb, if_neg h0]
    simp [write]
  · rw [if_neg hx, byte]
    by_cases hx0 : s.hold ip (slotOf (x / bsize)) = 0
    · rw [if_pos hx0, if_pos hx0]
    · rw [if_neg hx0, if_neg hx0]
      have hne : s.hold ip (slotOf (x / bsize)) ≠ b := by
        rintro rfl
        exact hx (slotOf_inj (hs.hold_inj hx0 hb).2).symm
      simp [write, hne]

/-- There is a block for every byte below `off`. -/
def Full (s : State) (ip off : ℕ) : Prop :=
  ∀ bn, bn * bsize < off → s.hold ip (slotOf bn) ≠ 0

theorem Extends.full (h : Extends ip w s s') (hf : s.Full ip off) : s'.Full ip off :=
  fun bn hbn => by
    rw [h.keep _ (hf bn hbn)]
    exact hf bn hbn

end State

/-! ### Writing -/

section

variable {s s₁ s' : State} {ip off off₁ off' n tot tot₁ tot' addr : ℕ} {src : Source}

/-- Bytes spliced into the block of offset `off`. -/
theorem byte_splice (hs : s.Safe) (hb : s.hold ip (slotOf (off / bsize)) = addr) (h0 : addr ≠ 0)
    {l : List UInt8} (hl : off % bsize + l.length ≤ bsize) (g : List ℕ) (x : ℕ) :
    (s.write addr ((s.data addr).splice (off % bsize) l) g).byte ip x =
      if off ≤ x ∧ x < off + l.length then l.getD (x - off) 0 else s.byte ip x := by
  have hoff := Nat.div_add_mod off bsize
  have hx := Nat.div_add_mod x bsize
  have hmod := Nat.mod_lt x (show 0 < bsize by decide)
  rw [State.byte_write hs hb h0, Data.splice]
  by_cases hsame : x / bsize = off / bsize
  · rw [hsame] at hx
    rw [if_pos hsame]
    by_cases hin : off ≤ x ∧ x < off + l.length
    · rw [if_pos hin, if_pos (by omega)]
      congr 1
      omega
    · rw [if_neg hin, if_neg (by omega), State.byte, hsame, hb, if_neg h0]
  · rw [if_neg hsame, if_neg]
    rintro ⟨hge, hlt⟩
    refine hsame (Nat.div_eq_of_lt_le ?_ ?_)
    · rw [Nat.mul_comm]
      omega
    · rw [Nat.add_mul, Nat.one_mul, Nat.mul_comm]
      omega

/-- The length of the next piece, `m` in the loops of `readi` and `writei`. -/
def piece (n tot off : ℕ) : ℕ := min (n - tot) (bsize - off % bsize)

theorem piece_le (n tot off : ℕ) : piece n tot off ≤ n - tot := Nat.min_le_left ..

theorem mod_add_piece_le (n tot off : ℕ) : off % bsize + piece n tot off ≤ bsize := by
  have hmod := Nat.mod_lt off (show 0 < bsize by decide)
  rw [piece]
  omega

theorem piece_pos (h : tot < n) (off : ℕ) : 0 < piece n tot off := by
  have hmod := Nat.mod_lt off (show 0 < bsize by decide)
  rw [piece]
  omega

/-- A piece ends the copy or the block. -/
theorem piece_edge (n tot off : ℕ) :
    piece n tot off = n - tot ∨ (off + piece n tot off) % bsize = 0 := by
  have hoff := Nat.div_add_mod off bsize
  rw [piece]
  rcases Nat.le_total (n - tot) (bsize - off % bsize) with h | h
  · exact Or.inl (Nat.min_eq_left h)
  · refine Or.inr ?_
    have hmod := Nat.mod_lt off (show 0 < bsize by decide)
    rw [Nat.min_eq_right h, show off + (bsize - off % bsize) = bsize * (off / bsize + 1) by
      rw [Nat.mul_add, Nat.mul_one]; omega]
    exact Nat.mul_mod_right ..

/-- The copies that succeed yield the bytes `f` of the source. -/
def Source.Delivers (src : Source) (n : ℕ) (f : ℕ → UInt8) : Prop :=
  ∀ t m, t + m ≤ n → (src t m).1 = true → (src t m).2.take m = (List.range m).map fun j => f (t + j)

theorem kernelSource_delivers {l : List UInt8} (hn : n ≤ l.length) :
    (kernelSource l).Delivers n fun j => l.getD j 0 := by
  intro t m htm _
  refine List.ext_getElem ?_ fun j hj hj' => ?_
  · simp only [kernelSource, List.length_take, List.length_drop, List.length_map, List.length_range]
    omega
  · simp only [List.length_map, List.length_range] at hj'
    simp only [kernelSource, List.getElem_take, List.getElem_drop, List.getElem_map,
      List.getElem_range, List.getD, List.getElem?_eq_getElem (show t + j < l.length by omega)]
    rfl

/-- The slots of the bytes from `off` to `lim`, and the indirect block. -/
def Touched (off lim : ℕ) (sl : Slot) : Prop :=
  sl = .indirect ∨ ∃ bn, off / bsize ≤ bn ∧ bn * bsize < lim ∧ sl = slotOf bn

/-- The part of a write from byte `tot` of the source and `off` of the file up to `tot'` and
`off'`. -/
structure Copied (ip : ℕ) (src : Source) (n tot off : ℕ) (s : State) (tot' off' : ℕ) (s' : State) :
    Prop where
  ext : State.Extends ip (fun _ => True) s s'
  keeps : State.Keeps s s'
  le : off ≤ off'
  sum : off' + tot = off + tot'
  le_n : tot' ≤ n
  /-- The loop stops at the end of a block, if at all. -/
  edge : off' = off ∨ tot' = n ∨ off' % bsize = 0
  full : s.Full ip off → s'.Full ip off'
  logs : State.Logs ip (Touched off (off + (n - tot))) s s'
  outside : ∀ x, x < off ∨ off' ≤ x → s'.byte ip x = s.byte ip x
  inside : ∀ f, src.Delivers n f → ∀ x, off ≤ x → x < off' → s'.byte ip x = f (tot + (x - off))

theorem Copied.trans (h : Copied ip src n tot off s tot₁ off₁ s₁)
    (h' : Copied ip src n tot₁ off₁ s₁ tot' off' s') : Copied ip src n tot off s tot' off' s' where
  ext := h.ext.trans h.keeps.1 h'.ext
  keeps := h.keeps.trans h'.keeps
  le := h.le.trans h'.le
  sum := by
    have := h.sum
    have := h'.sum
    omega
  le_n := h'.le_n
  edge := by
    have := h'.le_n
    have := h'.le
    have := h'.sum
    rcases h'.edge with rfl | he | he
    · rcases h.edge with he | he | he
      · exact Or.inl he
      · exact Or.inr (Or.inl (by omega))
      · exact Or.inr (Or.inr he)
    · exact Or.inr (Or.inl he)
    · exact Or.inr (Or.inr he)
  full hf := h'.full (h.full hf)
  logs := by
    refine h.logs.trans h.ext (h'.logs.mono fun sl hsl => hsl.imp_right ?_) h'.ext
    rintro ⟨bn, hbn, hlt, hsl⟩
    refine ⟨bn, (Nat.div_le_div_right h.le).trans hbn, ?_, hsl⟩
    have := h.sum
    have := h.le_n
    omega
  outside x hx := by
    have := h.le
    have := h'.le
    rw [h'.outside x (by omega), h.outside x (by omega)]
  inside f hf x hx hx' := by
    have := h.sum
    rcases Nat.lt_or_ge x off₁ with hlt | hge
    · rw [h'.outside x (Or.inl hlt), h.inside f hf x hx hlt]
    · rw [h'.inside f hf x hge hx']
      congr 1
      omega

/-- `bmap` has found or added the block for the next piece, or there is no block left. -/
theorem Mapped.copied (h : Mapped ip (slotOf (off / bsize)) (fun _ => False) s addr s')
    (src : Source) (hs : s.Safe) (htot : tot < n) : Copied ip src n tot off s tot off s' where
  ext := h.ext.mono fun _ _ => trivial
  keeps := h.keeps
  le := le_rfl
  sum := rfl
  le_n := htot.le
  edge := Or.inl rfl
  full := h.ext.full
  logs := by
    refine h.logs.mono fun sl hsl => hsl.symm.imp_right fun hsl => ⟨_, le_rfl, ?_, hsl⟩
    have := Nat.div_mul_le_self off bsize
    omega
  outside x _ := h.ext.byte hs id
  inside _ _ x hx hx' := absurd hx' (not_lt.mpr hx)

/-- There is a block for every byte of a piece. -/
theorem full_piece {m : ℕ} (hf : s.Full ip off) (hb : s.hold ip (slotOf (off / bsize)) ≠ 0)
    (hm : off % bsize + m ≤ bsize) : s.Full ip (off + m) := by
  intro bn hbn
  by_cases hlt : bn * bsize < off
  · exact hf bn hlt
  · have hoff := Nat.div_add_mod off bsize
    have hge : off / bsize ≤ bn := by
      rw [Nat.div_le_iff_le_mul_add_pred (by decide), Nat.mul_comm]
      omega
    have hle : bn < off / bsize + 1 := by
      refine Nat.lt_of_mul_lt_mul_right (a := bsize) ?_
      rw [Nat.add_mul, Nat.mul_comm (off / bsize)]
      omega
    rw [show bn = off / bsize by omega]
    exact hb

/-- One piece is copied and its block logged. -/
theorem copied_piece (hs : s.Safe) (hb : s.hold ip (slotOf (off / bsize)) = addr) (h0 : addr ≠ 0)
    (htot : tot < n) (hok : (src tot (piece n tot off)).1 = true) :
    Copied ip src n tot off s (tot + piece n tot off) (off + piece n tot off)
      (s.write addr ((s.data addr).splice (off % bsize)
        ((src tot (piece n tot off)).2.take (piece n tot off))) (s.logged ++ [addr])) := by
  have hle := piece_le n tot off
  have hfit := mod_add_piece_le n tot off
  have hlen := List.length_take_le (piece n tot off) (src tot (piece n tot off)).2
  have hbyte := byte_splice hs hb h0
    (l := (src tot (piece n tot off)).2.take (piece n tot off)) (by omega) (s.logged ++ [addr])
  obtain ⟨hext, hkeeps⟩ := State.extends_write (w := fun _ => True) hs hb h0
    (slotOf_ne_indirect _) trivial ((s.data addr).splice (off % bsize)
      ((src tot (piece n tot off)).2.take (piece n tot off))) (s.logged ++ [addr])
  have hhold := State.hold_write hs hb h0 (slotOf_ne_indirect _)
    ((s.data addr).splice (off % bsize) ((src tot (piece n tot off)).2.take (piece n tot off)))
    (s.logged ++ [addr]) ip
  refine ⟨hext, hkeeps, Nat.le_add_right .., by omega, by omega, ?_, fun hf => ?_, ?_,
    fun x hx => ?_, fun f hf x hx hx' => ?_⟩
  · rcases piece_edge n tot off with he | he
    · exact Or.inr (Or.inl (by omega))
    · exact Or.inr (Or.inr he)
  · refine full_piece (hext.full hf) ?_ hfit
    rw [hhold, hb]
    exact h0
  · have hlt : off / bsize * bsize < off + (n - tot) := by
      have := Nat.div_mul_le_self off bsize
      omega
    refine ⟨fun x hx => List.mem_append_left _ hx, fun x hx => ?_, fun b hb' => ?_⟩
    · refine (List.mem_append.mp hx).imp_right fun hx => ?_
      refine ⟨_, Or.inr ⟨_, le_rfl, hlt, rfl⟩, ?_⟩
      rw [hhold, hb]
      exact ⟨h0, Or.inl (List.mem_singleton.mp hx)⟩
    · refine Function.update_of_ne ?_ _ _
      rintro rfl
      exact hb' (List.mem_append_right _ List.mem_cons_self)
  · rw [hbyte, if_neg (by omega)]
  · have hget := hf tot (piece n tot off) (by omega) hok
    have hlt : x - off < piece n tot off := by omega
    rw [hbyte, hget, List.length_map, List.length_range, if_pos ⟨hx, hx'⟩, List.getD,
      List.getElem?_map, List.getElem?_range hlt]
    rfl

/-- Why the loop of `writei` has come to its end, in state `s₁` and at byte `tot` of the source and
`off` of the file, and what it leaves. -/
inductive Stopped (ip : ℕ) (src : Source) (n tot off : ℕ) (s₁ : State) : State → Prop
  /-- Everything is written. -/
  | all (h : tot = n) : Stopped ip src n tot off s₁ s₁
  /-- `balloc` has found no free block. -/
  | full (h : tot < n) (hb : s₁.hold ip (slotOf (off / bsize)) = 0)
      (hfull : ∀ b < s₁.sb.size, s₁.used b = true) : Stopped ip src n tot off s₁ s₁
  /-- `either_copyin` has failed, after part of the piece. -/
  | fault (h : tot < n) (hb : s₁.hold ip (slotOf (off / bsize)) ≠ 0)
      (hf : (src tot (piece n tot off)).1 = false) :
    Stopped ip src n tot off s₁ (s₁.write (s₁.hold ip (slotOf (off / bsize)))
      ((s₁.data (s₁.hold ip (slotOf (off / bsize)))).splice (off % bsize)
        ((src tot (piece n tot off)).2.take (piece n tot off))) s₁.logged)

/-- The loop of `writei`. -/
theorem writeLoop_copies {E : Panic → State → Prop} (ip : ℕ) (src : Source) (n fuel : ℕ) :
    ∀ {s : State} {off tot : ℕ}, n - tot ≤ fuel → tot ≤ n → s.Safe → s.Ready ip →
      off + (n - tot) ≤ maxfile * bsize →
      wp (writeLoop ip src n fuel off tot)
        (fun r s' => ∃ s₁, Copied ip src n tot off s r.1 r.2 s₁ ∧ Stopped ip src n r.1 r.2 s₁ s')
        E s := by
  have hrefl : ∀ {s : State} {off : ℕ}, s.Safe → Copied ip src n n off s n off s := fun hs =>
    ⟨.refl .., hs.keeps_refl, le_rfl, rfl, le_rfl, Or.inl rfl, id, .refl .., fun _ _ => rfl,
      fun _ _ x hx hx' => absurd hx' (not_lt.mpr hx)⟩
  induction fuel with
  | zero =>
    intro s off tot hfuel htot hs _ _
    obtain rfl : tot = n := by omega
    exact ⟨s, hrefl hs, .all rfl⟩
  | succ fuel ih =>
    intro s off tot hfuel htot hs hr hmax
    rw [writeLoop]
    simp only [wp_ite, wp_bind, wp_pure, wp_modify]
    refine ⟨fun hlt => ?_, fun hge => ?_⟩
    · have hbn : off / bsize < maxfile := by
        rw [Nat.div_lt_iff_lt_mul (by decide)]
        omega
      refine wp_mono (bmap_spec (w := fun _ => False) hs hr hbn) ?_ fun _ _ he => he
      intro addr s₁ hm
      have hcopied := hm.copied src hs hlt
      refine ⟨fun h0 => ⟨s₁, hcopied, .full hlt (hm.hold.trans h0) (hm.full h0)⟩, fun h0 => ?_⟩
      rw [show min (n - tot) (bsize - off % bsize) = piece n tot off from rfl]
      refine ⟨fun hok => ?_, fun hfail => ⟨s₁, hcopied, ?_⟩⟩
      · have hpos := piece_pos hlt off
        have hle := piece_le n tot off
        have hstep := hcopied.trans (copied_piece hm.keeps.1 hm.hold h0 hlt hok)
        rw [logWrite, wp_modify]
        refine wp_mono (ih (by omega) (by omega) hstep.keeps.1 (hstep.ext.ready hr) (by omega)) ?_
          fun _ _ he => he
        rintro r s' ⟨s₂, hc, hstop⟩
        exact ⟨s₂, hstep.trans hc, hstop⟩
      · have hb : s₁.hold ip (slotOf (off / bsize)) ≠ 0 := by
          rw [hm.hold]
          exact h0
        have hstop := Stopped.fault hlt hb (Bool.not_eq_true _ ▸ hfail)
        rw [hm.hold] at hstop
        exact hstop
    · obtain rfl : tot = n := by omega
      exact ⟨s, hrefl hs, .all rfl⟩

/-- What a failed copy leaves behind is in a block of the file. -/
theorem Stopped.extends (h : Stopped ip src n tot off s s') (hs : s.Safe) :
    State.Extends ip (fun _ => True) s s' ∧ State.Keeps s s' := by
  cases h with
  | all _ => exact ⟨.refl .., hs.keeps_refl⟩
  | full _ _ _ => exact ⟨.refl .., hs.keeps_refl⟩
  | fault _ hb _ => exact State.extends_write hs rfl hb (slotOf_ne_indirect _) trivial _ _

/-- It is in the piece at which the loop has stopped. -/
theorem Stopped.byte (h : Stopped ip src n tot off s s') (hs : s.Safe) (x : ℕ)
    (hx : x < off ∨ off + (n - tot) ≤ x) : s'.byte ip x = s.byte ip x := by
  cases h with
  | all _ => rfl
  | full _ _ _ => rfl
  | fault _ hb _ =>
    have hfit := mod_add_piece_le n tot off
    have hpiece := piece_le n tot off
    have hlen := List.length_take_le (piece n tot off) (src tot (piece n tot off)).2
    rw [byte_splice hs rfl hb (by omega), if_neg (by omega)]

/-- A write of at most `n` bytes from `off` on, which got as far as `off'`: blocks are added, and
only bytes of the range change. -/
structure Wrote (ip off n : ℕ) (s : State) (off' : ℕ) (s' : State) : Prop where
  ext : State.Extends ip (fun _ => True) s s'
  owned : s'.Owned
  le : off ≤ off'
  le_add : off' ≤ off + n
  full : s.Full ip off → s'.Full ip off'
  byte : ∀ x, x < off ∨ off + n ≤ x → s'.byte ip x = s.byte ip x

theorem Copied.wrote (h : Copied ip src n tot off s tot' off' s₁)
    (hstop : Stopped ip src n tot' off' s₁ s') (ho : s.Owned) :
    Wrote ip off (n - tot) s off' s' := by
  have hsum := h.sum
  have hle := h.le
  have hle_n := h.le_n
  obtain ⟨hext, hkeeps⟩ := hstop.extends h.keeps.1
  refine ⟨h.ext.trans h.keeps.1 hext, hkeeps.2 (h.keeps.2 ho), h.le, by omega,
    fun hf => hext.full (h.full hf), fun x hx => ?_⟩
  rw [hstop.byte h.keeps.1 x (by omega), h.outside x (by omega)]

/-! ### Reading -/

/-- The bytes of a piece. -/
theorem slice_eq {m : ℕ} (hb : s.hold ip (slotOf (off / bsize)) = addr) (h0 : addr ≠ 0)
    (hm : off % bsize + m ≤ bsize) :
    (s.data addr).slice (off % bsize) m = (List.range m).map fun j => s.byte ip (off + j) := by
  refine List.map_congr_left fun j hj => ?_
  have hj := List.mem_range.mp hj
  have hdiv : (off + j) / bsize = off / bsize ∧ (off + j) % bsize = off % bsize + j := by
    simp only [bsize] at hm ⊢
    omega
  rw [State.byte, hdiv.1, hdiv.2, hb, if_neg h0]

/-- The loop of `readi`: it yields the bytes of the file from `off` on, and all of them if the
file has the blocks and every copy succeeds. -/
theorem readLoop_reads {E : Panic → State → Prop} (ip : ℕ) (dst : ℕ → Bool) (n fuel : ℕ) :
    ∀ {s : State} {off tot : ℕ} {acc : List UInt8}, n - tot ≤ fuel → s.Safe → s.Ready ip →
      off + (n - tot) ≤ maxfile * bsize →
      wp (readLoop ip dst n fuel off tot acc) (fun r s' =>
        (∀ l, r = some l →
          ∃ k ≤ n - tot, l = acc ++ (List.range k).map fun j => s.byte ip (off + j)) ∧
        ((∀ t, dst t = true) → s.Full ip (off + (n - tot)) → s' = s ∧
          r = some (acc ++ (List.range (n - tot)).map fun j => s.byte ip (off + j)))) E s := by
  have hnil : ∀ {s : State} {off tot : ℕ} {acc l : List UInt8}, some acc = some l →
      ∃ k ≤ n - tot, l = acc ++ (List.range k).map fun j => s.byte ip (off + j) := by
    rintro s off tot acc _ ⟨⟩
    exact ⟨0, Nat.zero_le _, (List.append_nil _).symm⟩
  induction fuel with
  | zero =>
    intro s off tot acc hfuel _ _ _
    rw [Nat.le_zero.mp hfuel]
    exact ⟨fun l => by rintro ⟨⟩; exact ⟨0, le_rfl, (List.append_nil _).symm⟩,
      fun _ _ => ⟨rfl, by rw [List.range_zero, List.map_nil, List.append_nil]⟩⟩
  | succ fuel ih =>
    intro s off tot acc hfuel hs hr hmax
    rw [readLoop]
    simp only [wp_ite, wp_bind, wp_pure, wp_get]
    refine ⟨fun hlt => ?_, fun hge => ⟨fun l => hnil, fun _ _ => ⟨trivial, ?_⟩⟩⟩
    · have hbn : off / bsize < maxfile := by
        rw [Nat.div_lt_iff_lt_mul (by decide)]
        omega
      have hstart : off / bsize * bsize < off + (n - tot) := by
        have := Nat.div_mul_le_self off bsize
        omega
      refine wp_mono (bmap_spec (w := fun _ => False) hs hr hbn) ?_ fun _ _ he => he
      intro addr s₁ hm
      refine ⟨fun h0 => ⟨fun l => hnil, fun _ hf => ?_⟩, fun h0 => ⟨fun hok => ?_, fun hno =>
        ⟨by rintro _ ⟨⟩, fun hall _ => absurd (hall tot) hno⟩⟩⟩
      · exact absurd h0 (hm.found (hf _ hstart)).1
      rw [show min (n - tot) (bsize - off % bsize) = piece n tot off from rfl,
        slice_eq hm.hold h0 (mod_add_piece_le n tot off)]
      have hle := piece_le n tot off
      have hpos := piece_pos hlt off
      have hbyte : ∀ x, s₁.byte ip x = s.byte ip x := fun x => hm.ext.byte hs id
      -- the bytes of this piece and those after it
      have hjoin : ∀ k, (acc ++ (List.range (piece n tot off)).map fun j => s₁.byte ip (off + j)) ++
          ((List.range k).map fun j => s₁.byte ip (off + piece n tot off + j)) =
          acc ++ (List.range (piece n tot off + k)).map fun j => s.byte ip (off + j) := by
        intro k
        simp only [hbyte, List.range_add, List.map_append, List.map_map, List.append_assoc]
        simp only [Function.comp_def, Nat.add_assoc]
      refine wp_mono (ih (by omega) hm.keeps.1 (hm.ext.ready hr) (by omega)) ?_ fun _ _ he => he
      rintro r s' ⟨hsome, hexact⟩
      refine ⟨fun l hl => ?_, fun hall hf => ?_⟩
      · obtain ⟨k, hk, rfl⟩ := hsome l hl
        exact ⟨piece n tot off + k, by omega, hjoin k⟩
      · obtain ⟨-, rfl⟩ := hm.found (hf _ hstart)
        have hend : off + piece n tot off + (n - (tot + piece n tot off)) = off + (n - tot) := by
          omega
        obtain ⟨rfl, rfl⟩ := hexact hall (hend.symm ▸ hf)
        refine ⟨rfl, ?_⟩
        rw [hjoin, show piece n tot off + (n - (tot + piece n tot off)) = n - tot by omega]
    · rw [show n - tot = 0 by omega, List.range_zero, List.map_nil, List.append_nil]

/-- A file has no block past the largest size. -/
theorem State.Ready.lt_maxfile {ip bn : ℕ} (hr : s.Ready ip) (hb : s.hold ip (slotOf bn) ≠ 0) :
    bn < maxfile := by
  by_contra hge
  rw [maxfile, not_lt] at hge
  have hd : ¬bn < ndirect := by omega
  have hj : ¬bn - ndirect < nindirect := by omega
  rw [hr.hold, slotOf, if_neg hd, Dinode.block, if_neg fun h => hj h.1] at hb
  exact hb rfl

theorem State.Full.le_maxfile (hf : s.Full ip n) (hr : s.Ready ip) : n ≤ maxfile * bsize := by
  by_contra hlt
  exact lt_irrefl _ (hr.lt_maxfile (hf maxfile (not_le.mp hlt)))

/-- `readi` of a file that has all its blocks. -/
theorem readi_full {E : Panic → State → Prop} (hs : s.Safe) (hr : s.Ready ip)
    (hf : s.Full ip (s.cur ip).size) (hoff : off ≤ (s.cur ip).size) (hn : off + n < 2 ^ 32) :
    wp (readi ip (fun _ => true) off n) (fun r s' => s' = s ∧
      r = some ((List.range (min n ((s.cur ip).size - off))).map fun j => s.byte ip (off + j)))
      E s := by
  have hmax := hf.le_maxfile hr
  rw [readi, dinodeOf]
  simp only [wp_bind, wp_get, wp_pure, wp_ite, ← hr.cur]
  refine ⟨fun hor => absurd hor (by omega), fun _ => ?_⟩
  have hlen : (if (s.cur ip).size < off + n then (s.cur ip).size - off else n) =
      min n ((s.cur ip).size - off) := by
    split <;> omega
  rw [hlen]
  generalize hm : min n ((s.cur ip).size - off) = m
  refine wp_mono (readLoop_reads ip (fun _ => true) m m (Nat.sub_le ..) hs hr (by omega)) ?_
    fun _ _ he => he
  rintro r s' ⟨-, hexact⟩
  exact hexact (fun _ => rfl) fun bn hbn => hf bn (by omega)

end

end Fs

end Xv6
