import Mathlib.Data.Finset.Card
import Xv6.Fs.Owned

/-!
# What a write does to a file

`writei` replaces bytes of one file, and a following `readi` returns them:

* `writei_replaces`: when the copies succeed, the contents of the file are the old ones with the
  bytes from `off` on replaced by as many bytes of the source as there were blocks for.
* `write_unaltered_iff`: when a copy from user memory fails, the bytes which it delivered before
  that stay in the buffer of a block that is not logged. A later `readi` sees them as long as the
  buffer is not recycled.
* `filewrite_fits`: the blocks that one transaction of `filewrite` logs. A piece of a file that has
  all the blocks below its size needs at most three new ones for data, for when it lies in four
  blocks it begins inside the first.
-/

namespace Xv6

namespace Fs

open StateLogic Transition

section

variable {s s₁ s₂ s' : State} {ip off n tot : ℕ} {src : Source}

/-- The bytes of a file. -/
def State.contents (s : State) (i : ℕ) : List UInt8 := (List.range (s.cur i).size).map (s.byte i)

theorem State.length_contents (s : State) (i : ℕ) : (s.contents i).length = (s.cur i).size := by
  rw [State.contents, List.length_map, List.length_range]

theorem State.getElem?_contents (s : State) (i x : ℕ) :
    (s.contents i)[x]? = if x < (s.cur i).size then some (s.byte i x) else none := by
  rw [State.contents, List.getElem?_map]
  split
  · rename_i hx
    rw [List.getElem?_range hx]
    rfl
  · rename_i hx
    rw [List.getElem?_eq_none (by rw [List.length_range]; omega)]
    rfl

/-- A part of a file, cut at its end. -/
theorem State.slice_contents (s : State) (i off n : ℕ) :
    ((s.contents i).drop off).take n =
      (List.range (min n ((s.cur i).size - off))).map fun j => s.byte i (off + j) := by
  refine List.ext_getElem? fun j => ?_
  rw [List.getElem?_map, List.getElem?_take, List.getElem?_drop, s.getElem?_contents]
  by_cases hj : j < min n ((s.cur i).size - off)
  · rw [List.getElem?_range hj, if_pos (by omega), if_pos (by omega)]
    rfl
  · rw [List.getElem?_eq_none (by rw [List.length_range]; omega)]
    split
    · rw [if_neg (by omega)]
      rfl
    · rfl

/-! ### The whole call -/

/-- `writei` refuses what lies past the end of the file or of the largest file. -/
theorem writei_refuses (hr : s.Ready ip)
    (h : ¬(off ≤ (s.cur ip).size ∧ off + n ≤ maxfile * bsize)) :
    (writei ip src off n).run s = .ok none s := by
  have hw : wp (writei ip src off n) (fun r s' => r = none ∧ s' = s) (fun _ _ => False) s := by
    rw [writei, dinodeOf]
    simp only [wp_bind, wp_get, wp_pure, wp_ite, ← hr.cur]
    refine ⟨fun _ => ⟨trivial, trivial⟩, fun hoff => ⟨fun _ => ⟨trivial, trivial⟩, fun hmax => ?_⟩⟩
    exact absurd ⟨by omega, by omega⟩ h
  cases hrun : (writei ip src off n).run s with
  | ok r s' =>
    obtain ⟨rfl, rfl⟩ := wp_ok hw hrun
    rfl
  | error e s' => exact absurd (wp_error hw hrun) id

/-- What the end of `writei` makes of the state after its loop. -/
def State.written (s₂ : State) (ip size : ℕ) : State :=
  s₂.update ip { (s₂.itable ip).d with size := size }

theorem writei_copies (src : Source) {E : Panic → State → Prop} (hs : s.Safe) (hr : s.Ready ip)
    (hoff : off ≤ (s.cur ip).size) (hmax : off + n ≤ maxfile * bsize) :
    wp (writei ip src off n) (fun r s' => ∃ tot s₁ s₂, r = some tot ∧
      Copied ip src n 0 off s tot (off + tot) s₁ ∧ Stopped ip src n tot (off + tot) s₁ s₂ ∧
      s' = s₂.written ip (max (s.cur ip).size (off + tot))) E s := by
  have hbig : maxfile * bsize < 2 ^ 32 := by decide
  rw [writei, dinodeOf]
  simp only [wp_bind, wp_get, wp_pure, wp_ite, ← hr.cur]
  refine ⟨fun h => absurd h (by omega), fun _ => ⟨fun h => absurd h (by omega), fun _ => ?_⟩⟩
  refine wp_mono (writeLoop_copies ip src n n (Nat.sub_le ..) (Nat.zero_le _) hs hr (by omega)) ?_
    fun _ _ he => he
  rintro ⟨tot, off'⟩ s₂ ⟨s₁, hc, hstop⟩
  obtain rfl : off' = off + tot := hc.sum
  have hsize : (s₂.itable ip).d.size = (s.cur ip).size := by
    obtain ⟨a, ha⟩ := (hc.ext.trans hc.keeps.1 (hstop.extends hc.keeps.1).1).itable
    rw [ha, Function.update_self, hr.cur]
  exact writeEnd_spec hsize ⟨tot, s₁, s₂, rfl, hc, hstop, rfl⟩

/-- The end of `writei` changes the size and nothing else of the contents. -/
theorem State.written_spec (hs : s.Safe) (hr : s.Ready ip)
    (hext : State.Extends ip (fun _ => True) s s₂) (hk : State.Keeps s s₂) (size : ℕ) :
    (s₂.written ip size).Safe ∧ (s₂.written ip size).Ready ip ∧
      ((s₂.written ip size).cur ip).size = size ∧
      (∀ sl, (s₂.written ip size).hold ip sl = s₂.hold ip sl) ∧
      (∀ x, (s₂.written ip size).byte ip x = s₂.byte ip x) ∧
      ∀ j, j ≠ ip → (s₂.written ip size).contents j = s.contents j := by
  have hr₂ := hext.ready hr
  have hc := changed_update s₂ ip { (s₂.itable ip).d with size := size }
  have ht : (s₂.itable ip).d.type = (s₂.cur ip).type := by rw [hr₂.cur]
  have ha : (s₂.itable ip).d.addrs = (s₂.cur ip).addrs := by rw [hr₂.cur]
  have hkeep : State.Keeps s₂ (s₂.written ip size) := hk.1.congr rfl rfl fun i sl => by
    by_cases hi : i = ip
    · subst hi
      exact hc.hold_self ht ha sl
    · exact hc.hold_of_ne hi sl
  refine ⟨hkeep.1, ⟨live_update.mpr hr₂.live, hr₂.lt, ?_⟩,
    by rw [State.written, hc.cur_self], hc.hold_self ht ha, hc.byte_self ht ha, fun j hj => ?_⟩
  · rw [State.written, State.itable_update_self]
    exact hr₂.type
  · rw [State.contents, State.contents, State.written, hc.cur j hj, hext.cur_of_ne hj]
    refine List.map_congr_left fun x _ => ?_
    rw [hc.byte_of_ne hj, hext.byte_of_ne hs hj]

/-- All the blocks below the size are still there. -/
theorem Copied.full_written (hc : Copied ip src n 0 off s tot (off + tot) s₁)
    (hext : State.Extends ip (fun _ => True) s₁ s₂) (hf : s.Full ip (s.cur ip).size)
    (hoff : off ≤ (s.cur ip).size) : s₂.Full ip (max (s.cur ip).size (off + tot)) := by
  intro bn hbn
  rcases lt_max_iff.mp hbn with hbn | hbn
  · exact hext.full (hc.ext.full hf) bn hbn
  · exact hext.full (hc.full fun bn hbn => hf bn (hbn.trans_le hoff)) bn hbn

/-- The contents after the bytes from `off` on are replaced. -/
theorem contents_replaced {f : ℕ → UInt8} (hsize : (s'.cur ip).size = max (s.cur ip).size (off + tot))
    (hoff : off ≤ (s.cur ip).size) (hin : ∀ x, off ≤ x → x < off + tot → s'.byte ip x = f (x - off))
    (hout : ∀ x, x < off ∨ off + tot ≤ x → s'.byte ip x = s.byte ip x) :
    s'.contents ip =
      (s.contents ip).take off ++ (List.range tot).map f ++ (s.contents ip).drop (off + tot) := by
  refine List.ext_getElem? fun x => ?_
  have hlen : ((s.contents ip).take off).length = off := by
    rw [List.length_take, s.length_contents]
    omega
  rw [s'.getElem?_contents, hsize, List.append_assoc]
  rcases Nat.lt_or_ge x off with hx | hx
  · rw [List.getElem?_append_left (by omega), List.getElem?_take, if_pos hx, s.getElem?_contents,
      if_pos (by omega), if_pos (by omega), hout x (Or.inl hx)]
  · rw [List.getElem?_append_right (by omega), hlen]
    rcases Nat.lt_or_ge x (off + tot) with hx' | hx'
    · rw [List.getElem?_append_left (by rw [List.length_map, List.length_range]; omega),
        List.getElem?_map, List.getElem?_range (by omega), if_pos (by omega), hin x hx hx']
      rfl
    · rw [List.getElem?_append_right (by rw [List.length_map, List.length_range]; omega),
        List.getElem?_drop, List.length_map, List.length_range, s.getElem?_contents,
        show off + tot + (x - off - tot) = x by omega, hout x (Or.inr hx')]
      by_cases hlt : x < (s.cur ip).size
      · rw [if_pos (by omega), if_pos hlt]
      · rw [if_neg (by omega), if_neg hlt]

/-- `readi` returns the part of the file that is asked for, cut at the size; it returns nothing if
the end of that part does not fit into 32 bits. -/
theorem readi_slice (hs : s.Safe) (hr : s.Ready ip) (hf : s.Full ip (s.cur ip).size) (off n : ℕ) :
    (readi ip (fun _ => true) off n).run s =
      .ok (some (if off + n < 2 ^ 32 then ((s.contents ip).drop off).take n else [])) s := by
  have hw : wp (readi ip (fun _ => true) off n) (fun r s' => s' = s ∧
      r = some (if off + n < 2 ^ 32 then ((s.contents ip).drop off).take n else []))
      (fun _ _ => False) s := by
    by_cases hn : off + n < 2 ^ 32
    · rw [if_pos hn]
      by_cases hoff : off ≤ (s.cur ip).size
      · rw [s.slice_contents]
        exact readi_full hs hr hf hoff hn
      · rw [readi, dinodeOf]
        simp only [wp_bind, wp_get, wp_pure, wp_ite, ← hr.cur]
        refine ⟨fun _ => ⟨trivial, ?_⟩, fun h => absurd (Or.inl (by omega)) h⟩
        rw [List.drop_eq_nil_of_le (by rw [s.length_contents]; omega), List.take_nil]
    · rw [if_neg hn, readi, dinodeOf]
      simp only [wp_bind, wp_get, wp_pure, wp_ite]
      exact ⟨fun _ => ⟨trivial, trivial⟩, fun h => absurd (Or.inr (by omega)) h⟩
  cases hrun : (readi ip (fun _ => true) off n).run s with
  | ok r s' =>
    obtain ⟨rfl, rfl⟩ := wp_ok hw hrun
    rfl
  | error e s' => exact absurd (wp_error hw hrun) id

/-- **A file is an array of bytes.** A write of `n` bytes at `off` from a source whose copies
succeed replaces as many bytes as there were blocks for, and the reads after it see this. -/
theorem writei_replaces {f : ℕ → UInt8} (hs : s.Safe) (hr : s.Ready ip)
    (hf : s.Full ip (s.cur ip).size)
    (hsrc : ∀ t m, t + m ≤ n → src t m = (true, (List.range m).map fun j => f (t + j))) :
    (off ≤ (s.cur ip).size → off + n ≤ maxfile * bsize →
      ∃ tot s', (writei ip src off n).run s = .ok (some tot) s' ∧ tot ≤ n ∧
        s'.contents ip = (s.contents ip).take off ++ (List.range tot).map f ++
          (s.contents ip).drop (off + tot) ∧
        (s'.cur ip).size = max (s.cur ip).size (off + tot) ∧
        (∀ j, j ≠ ip → s'.contents j = s.contents j) ∧
        (tot < n → ∀ b < s'.sb.size, s'.used b = true) ∧
        ∀ off' n', (readi ip (fun _ => true) off' n').run s' =
          .ok (some (if off' + n' < 2 ^ 32 then ((s'.contents ip).drop off').take n' else [])) s') ∧
    (¬(off ≤ (s.cur ip).size ∧ off + n ≤ maxfile * bsize) →
      (writei ip src off n).run s = .ok none s) := by
  refine ⟨fun hoff hmax => ?_, writei_refuses hr⟩
  have hdel : src.Delivers n f := fun t m htm _ => by
    rw [hsrc t m htm]
    exact List.take_of_length_le (by rw [List.length_map, List.length_range])
  have hw := writei_copies src (E := fun _ _ => False) hs hr hoff hmax
  cases hrun : (writei ip src off n).run s with
  | error e s' => exact absurd (wp_error hw hrun) id
  | ok r s' =>
    obtain ⟨tot, s₁, s₂, rfl, hc, hstop, rfl⟩ := wp_ok hw hrun
    obtain ⟨hext, hk⟩ := hstop.extends hc.keeps.1
    obtain ⟨hs', hr', hsize, hhold, hbyte, hother⟩ := State.written_spec hs hr
      (hc.ext.trans hc.keeps.1 hext) (hc.keeps.trans hk) (max (s.cur ip).size (off + tot))
    -- the copies succeed, so the loop leaves nothing that it does not count
    have hclean : s₂ = s₁ ∧ (tot < n → ∀ b < s₁.sb.size, s₁.used b = true) := by
      cases hstop with
      | all h => exact ⟨rfl, fun hlt => absurd h hlt.ne⟩
      | full _ _ hfull => exact ⟨rfl, fun _ => hfull⟩
      | fault hlt _ hfail =>
        rw [hsrc _ _ (by have := piece_le n tot (off + tot); omega)] at hfail
        cases hfail
    obtain ⟨rfl, hfull⟩ := hclean
    refine ⟨tot, _, rfl, hc.le_n, ?_, hsize, hother, hfull, ?_⟩
    · refine contents_replaced hsize hoff (fun x hx hx' => ?_) fun x hx => ?_
      · rw [hbyte, hc.inside f hdel x hx hx', Nat.zero_add]
      · rw [hbyte, hc.outside x hx]
    · refine readi_slice hs' hr' ?_
      rw [hsize]
      intro bn hbn
      rw [hhold]
      exact hc.full_written hext hf hoff bn hbn

/-- Create "/x" and write "ABC" to it. -/
def makeFile : List Call :=
  [.open 0 [47, 120] 0x201 true, .write 0 (kernelSource [65, 66, 67]) 3]

theorem makeFile_runs : (runAll Any step (mkfs []) makeFile).isSome = true := by decide +kernel

def abcFile : State := (runAll Any step (mkfs []) makeFile).get makeFile_runs

theorem idle_abcFile : abcFile.Idle :=
  idle_of_reach ((Reach.start ⟨booted_mkfs [], whole_mkfs (by decide)⟩).runAll_get makeFile_runs)

theorem abcFile_facts : abcFile.Live 2 ∧ (abcFile.cur 2).size = 3 ∧
    abcFile.hold 2 (slotOf 0) ≠ 0 ∧ abcFile.contents 2 = [65, 66, 67] := by decide +kernel

theorem safe_abcFile : abcFile.Safe := idle_abcFile.owned.safe

theorem ready_abcFile : abcFile.Ready 2 := idle_abcFile.ready 2 abcFile_facts.1

theorem full_abcFile : abcFile.Full 2 (abcFile.cur 2).size := by
  intro bn hbn
  rw [abcFile_facts.2.1] at hbn
  obtain rfl : bn = 0 := by
    simp only [bsize] at hbn
    omega
  exact abcFile_facts.2.2.1

theorem writei_replaces_abcFile :
    (abcFile.Safe ∧ abcFile.Ready 2 ∧ abcFile.Full 2 (abcFile.cur 2).size ∧
      1 ≤ (abcFile.cur 2).size) ∧
    ∃ tot s', (writei 2 (fun _ m => (true, (List.range m).map fun _ => 97)) 1 5).run abcFile =
        .ok (some tot) s' ∧ tot ≤ 5 ∧
      s'.contents 2 = (abcFile.contents 2).take 1 ++ (List.range tot).map (fun _ => 97) ++
        (abcFile.contents 2).drop (1 + tot) := by
  have hsize : 1 ≤ (abcFile.cur 2).size := by
    rw [abcFile_facts.2.1]
    decide
  refine ⟨⟨safe_abcFile, ready_abcFile, full_abcFile, hsize⟩, ?_⟩
  obtain ⟨tot, s', hrun, hle, hcont, -⟩ :=
    (writei_replaces (f := fun _ => 97) (n := 5) safe_abcFile ready_abcFile full_abcFile
      fun _ _ _ => rfl).1 hsize (by decide)
  exact ⟨tot, s', hrun, hle, hcont⟩

/-- A read from offset 1 whose end does not fit into 32 bits returns nothing, although the file
has two bytes from there on. -/
theorem readi_overflow_empty :
    (abcFile.Safe ∧ abcFile.Ready 2 ∧ abcFile.Full 2 (abcFile.cur 2).size) ∧
      ∃ s', (writei 2 (kernelSource [97]) 0 1).run abcFile = .ok (some 1) s' ∧
        (readi 2 (fun _ => true) 1 (2 ^ 32 - 1)).run s' =
          .ok (some []) (final (readi 2 (fun _ => true) 1 (2 ^ 32 - 1)) s') ∧
        (s'.contents 2).drop 1 = [66, 67] := by
  have hfacts : value? (writei 2 (kernelSource [97]) 0 1) abcFile = some (some 1) ∧
      value? (readi 2 (fun _ => true) 1 (2 ^ 32 - 1))
        (final (writei 2 (kernelSource [97]) 0 1) abcFile) = some (some []) ∧
      ((final (writei 2 (kernelSource [97]) 0 1) abcFile).contents 2).drop 1 = [66, 67] := by
    decide +kernel
  exact ⟨⟨safe_abcFile, ready_abcFile, full_abcFile⟩, _, run_eq_of_value? hfacts.1,
    run_eq_of_value? hfacts.2.1, hfacts.2.2⟩

/-! ### A copy that fails -/

/-- The buffers of the blocks `B` are recycled, and what is read again is what the disk had in
`s`. -/
def State.reload (s' s : State) (B : ℕ → Bool) : State :=
  { s' with data := fun b => if B b then s.data b else s'.data b }

/-- After a write that counts `tot` bytes at `off`, every `readi` finds the other bytes of the file
as they were in `s`, whichever of the blocks that are not logged stay in the cache. -/
def Unaltered (ip off tot : ℕ) (s s' : State) : Prop :=
  ∀ B : ℕ → Bool, (∀ b, B b = true → b ∉ s'.logged) → ∀ dst off' n' l s'',
    (readi ip dst off' n').run (s'.reload s B) = .ok (some l) s'' →
    ∀ k < l.length, off' + k < off ∨ off + tot ≤ off' + k → l[k]? = some (s.byte ip (off' + k))

/-- If a copy fails for the piece at `tot`, the bytes of that piece which it delivers first are
those the file has there already, as far as the file reaches. -/
def Harmless (ip : ℕ) (src : Source) (n off tot : ℕ) (s : State) : Prop :=
  tot < n → (src tot (piece n tot (off + tot))).1 = false →
    ∀ k, k < ((src tot (piece n tot (off + tot))).2.take (piece n tot (off + tot))).length →
      off + tot + k < (s.cur ip).size →
      ((src tot (piece n tot (off + tot))).2.take (piece n tot (off + tot))).getD k 0 =
        s.byte ip (off + tot + k)

/-- `readi` returns bytes of the file. -/
theorem readi_bytes {E : Panic → State → Prop} (hs : s.Safe) (hr : s.Ready ip)
    (hsize : (s.cur ip).size ≤ maxfile * bsize) (dst : ℕ → Bool) (off n : ℕ) :
    wp (readi ip dst off n) (fun r _ => ∀ l, r = some l → ∃ k, (k = 0 ∨ off + k ≤ (s.cur ip).size) ∧
      l = (List.range k).map fun j => s.byte ip (off + j)) E s := by
  rw [readi, dinodeOf]
  simp only [wp_bind, wp_get, wp_pure, wp_ite, ← hr.cur]
  refine ⟨fun _ l hl => ⟨0, Or.inl rfl, (Option.some.inj hl).symm⟩, fun hoff => ?_⟩
  have hlen : off + (if (s.cur ip).size < off + n then (s.cur ip).size - off else n) ≤
      (s.cur ip).size := by
    split <;> omega
  generalize (if (s.cur ip).size < off + n then (s.cur ip).size - off else n) = m at hlen
  refine wp_mono (readLoop_reads ip dst m m (Nat.sub_le ..) hs hr (by omega)) ?_ fun _ _ he => he
  rintro r s' ⟨hsome, -⟩ l hl
  obtain ⟨k, hk, rfl⟩ := hsome l hl
  exact ⟨k, Or.inr (by omega), List.nil_append _⟩

/-- Whether or not the block that a failed copy has touched is read again, the state is that of
before the copy or that of after it. -/
theorem reload_written (hc : Copied ip src n 0 off s tot (off + tot) s₁)
    (hstop : Stopped ip src n tot (off + tot) s₁ s₂) {size : ℕ} {B : ℕ → Bool}
    (hB : ∀ b, B b = true → b ∉ (s₂.written ip size).logged) :
    (s₂.written ip size).reload s B = s₁.written ip size ∨
      (s₂.written ip size).reload s B = s₂.written ip size := by
  have hold : ∀ b, b ∉ s₁.logged → s₁.data b = s.data b := hc.logs.data
  have hclean : s₂ = s₁ → (s₂.written ip size).reload s B = s₂.written ip size := by
    rintro rfl
    have hdata : (fun b => if B b then s.data b else s₂.data b) = s₂.data := by
      funext b
      split
      · rename_i hb
        exact (hold b fun hm => hB b hb (List.mem_append_left _ hm)).symm
      · rfl
    exact congrArg (fun d => { s₂.written ip size with data := d }) hdata
  cases hstop with
  | all _ => exact Or.inr (hclean rfl)
  | full _ _ _ => exact Or.inr (hclean rfl)
  | fault _ hb _ =>
    have hlog : ∀ b, B b = true → s.data b = s₁.data b := fun b hb =>
      (hold b fun hm => hB b hb (List.mem_append_left _ hm)).symm
    generalize hD : (s₁.data (s₁.hold ip (slotOf ((off + tot) / bsize)))).splice
      ((off + tot) % bsize) _ = D
    by_cases hBa : B (s₁.hold ip (slotOf ((off + tot) / bsize))) = true
    · refine Or.inl (congrArg (fun d => { s₁.written ip size with data := d }) (funext fun b => ?_))
      split
      · rename_i hb'
        exact hlog b hb'
      · rename_i hb'
        refine Function.update_of_ne ?_ _ _
        rintro rfl
        exact hb' hBa
    · refine Or.inr (congrArg (fun d => { s₁.written ip size with data := d }) (funext fun b => ?_))
      split
      · rename_i hb'
        rw [hlog b hb']
        refine (Function.update_of_ne ?_ _ _).symm
        rintro rfl
        exact hBa hb'
      · rfl

/-- A buffer of which only the first byte, "a", is on a page that is mapped. -/
def shortBuffer : Source := fun _ _ => (false, [97])

/-- `MAXOPBLOCKS`. -/
def maxopblocks : ℕ := 10

/-- `max` in `filewrite`. -/
def filewriteMax : ℕ := ((maxopblocks - 1 - 1 - 2) / 2) * bsize

/-- `begin_op`: nothing is logged yet. -/
def State.beginOp (s : State) : State := { s with logged := [] }

/-- A list of blocks that covers what `writei` logs for at most `filewriteMax` bytes: four blocks of
data, the indirect block, the inode, and the free map. -/
theorem logged_written (hlog : s.logged = [])
    (hf : s.Full ip (s.cur ip).size) (hoff : off ≤ (s.cur ip).size) (hn : n ≤ filewriteMax)
    (hc : Copied ip src n 0 off s tot (off + tot) s₁)
    (hstop : Stopped ip src n tot (off + tot) s₁ s₂) (size : ℕ) :
    ∃ l : List ℕ, l.length ≤ maxopblocks ∧ (s₂.written ip size).logged ⊆ l := by
  have hn : n ≤ 3 * bsize := hn
  have hsame : s₂.logged = s₁.logged := by
    cases hstop <;> rfl
  -- the block of number `bn`, and the block of the free map for it
  set d : ℕ → ℕ := fun bn => s₁.hold ip (slotOf bn)
  set m : ℕ → ℕ := fun bn => bblock s (d bn)
  have hlogged : ∀ x ∈ (s₂.written ip size).logged, x = iblock s ip ∨
      x = s₁.hold ip .indirect ∨ x = bblock s (s₁.hold ip .indirect) ∨
      ∃ bn, off / bsize ≤ bn ∧ bn * bsize < off + n ∧
        (x = d bn ∨ s.hold ip (slotOf bn) = 0 ∧ x = m bn) := by
    intro x hx
    have hsb : s₂.sb = s.sb :=
      (hstop.extends hc.keeps.1).1.sb.trans hc.ext.sb
    rcases List.mem_append.mp hx with hx | hx
    · rw [hsame] at hx
      rcases hc.logs.logged x hx with hx | ⟨sl, rfl | ⟨bn, hge, hlt, rfl⟩, -, hx⟩
      · rw [hlog] at hx
        cases hx
      · rcases hx with hx | ⟨-, hx⟩
        · exact Or.inr (Or.inl hx)
        · exact Or.inr (Or.inr (Or.inl hx))
      · exact Or.inr (Or.inr (Or.inr ⟨bn, hge, by omega, hx⟩))
    · rw [List.mem_singleton, iblock, hsb] at hx
      exact Or.inl hx
  have hdiv := Nat.div_add_mod off bsize
  have hmod := Nat.mod_lt off (show 0 < bsize by decide)
  generalize off / bsize = q at hlogged hdiv
  by_cases hzero : off % bsize = 0
  · -- three blocks at most, each of which may be new
    refine ⟨[iblock s ip, s₁.hold ip .indirect, bblock s (s₁.hold ip .indirect),
      d q, m q, d (q + 1), m (q + 1), d (q + 2), m (q + 2)], Nat.le_succ 9, fun x hx => ?_⟩
    rcases hlogged x hx with rfl | rfl | rfl | ⟨bn, hge, hlt, hx⟩
    · simp
    · simp
    · simp
    · have hbn : bn = q ∨ bn = q + 1 ∨ bn = q + 2 := by
        simp only [bsize] at hlt hdiv hzero hn
        omega
      rcases hbn with rfl | rfl | rfl <;> rcases hx with rfl | ⟨-, rfl⟩ <;> simp
  · -- four blocks at most, of which the first is there
    refine ⟨[iblock s ip, s₁.hold ip .indirect, bblock s (s₁.hold ip .indirect),
      d q, d (q + 1), m (q + 1), d (q + 2), m (q + 2), d (q + 3), m (q + 3)], le_rfl,
      fun x hx => ?_⟩
    rcases hlogged x hx with rfl | rfl | rfl | ⟨bn, hge, hlt, hx⟩
    · simp
    · simp
    · simp
    · have hbn : bn = q ∨ bn = q + 1 ∨ bn = q + 2 ∨ bn = q + 3 := by
        simp only [bsize] at hlt hdiv hmod hn
        omega
      have hfirst : s.hold ip (slotOf q) ≠ 0 := hf q (by rw [Nat.mul_comm]; omega)
      rcases hbn with rfl | rfl | rfl | rfl <;> rcases hx with rfl | ⟨hempty, rfl⟩
      · simp
      · exact absurd hempty hfirst
      all_goals simp

/-- `ilock` fills the entry of the inode if it is not filled. -/
theorem ilock_same (hl : s.Live ip → s.Ready ip) : wp (ilock ip)
    (fun _ s' => State.Same s s' ∧ s'.Ready ip ∧ s'.logged = s.logged)
    (fun _ s' => s'.logged = s.logged) s := by
  rw [ilock]
  simp only [wp_bind, wp_get, wp_ite, wp_throw, wp_pure]
  refine ⟨fun _ => trivial, fun href => ⟨fun _ => trivial, fun hlt => ⟨fun hv => ?_, fun hv =>
    ⟨.refl s, hl ⟨by omega, by simpa using hv⟩, trivial⟩⟩⟩⟩
  have hlive : (s.putInode ip { s.itable ip with d := s.dinode ip, valid := true }).Live ip :=
    State.live_putInode_self.mpr ⟨by change 0 < (s.itable ip).ref; omega, rfl⟩
  rw [setInode]
  simp only [wp_modify]
  refine ⟨fun _ => rfl, fun ht =>
    ⟨⟨rfl, rfl, rfl, rfl, rfl, rfl, funext fun i => ?_⟩, ⟨hlive, not_le.mp hlt, ?_⟩, rfl⟩⟩
  · by_cases hi : i = ip
    · subst hi
      have hdead : ¬s.Live i := fun hl => by
        rw [hl.2] at hv
        cases hv
      rw [State.cur_of_live hlive, State.itable_putInode_self, State.cur, if_neg hdead]
    · exact State.cur_putInode_of_ne hi
  · rw [State.itable_putInode_self]
    exact ht

/-- `b` is the first free block. -/
def State.First (s : State) (b : ℕ) : Prop :=
  b < s.sb.size ∧ s.used b = false ∧ ∀ b' < b, s.used b' = true

theorem balloc_first {b : ℕ} (h : s.First b) : balloc.run s = .ok b (s.alloc b) := by
  have hfind : (List.range s.sb.size).find? (fun b => !s.used b) = some b := by
    rw [List.find?_range_eq_some]
    exact ⟨by simp [h.2.1], List.mem_range.mpr h.1, fun j hj => by simp [h.2.2 j hj]⟩
  rw [balloc]
  simp only [EStateM.run_bind, EStateM.run_get, hfind]
  rfl

/-- `bmap` for a block that is missing. -/
theorem bmap_first (bn : ℕ) {b : ℕ} (hbn : bn < ndirect) (h0 : (s.itable ip).d.addrs bn = 0)
    (hb : s.First b) (hb0 : b ≠ 0) :
    (bmap ip bn).run s = .ok b ((s.alloc b).setAddr ip bn b) := by
  rw [bmap, if_pos hbn, dinodeOf]
  simp only [EStateM.run_bind, EStateM.run_get, EStateM.run_pure, h0, ne_eq, not_true_eq_false,
    if_false, balloc_first hb, hb0]
  rfl

/-- `bmap` for the first block after the direct ones. -/
theorem bmap_first_word {b b' : ℕ} (h0 : (s.itable ip).d.addrs ndirect = 0) (hb : s.First b)
    (hb0 : b ≠ 0) (hb' : ((s.alloc b).setAddr ip ndirect b).First b') (hb0' : b' ≠ 0) :
    (bmap ip ndirect).run s =
      .ok b' ((((s.alloc b).setAddr ip ndirect b).alloc b').setWord b 0 b') := by
  have hind : (bmapIndirect ip).run s = .ok b ((s.alloc b).setAddr ip ndirect b) := by
    rw [bmapIndirect, dinodeOf]
    simp only [EStateM.run_bind, EStateM.run_get, EStateM.run_pure, h0, ne_eq, not_true_eq_false,
      if_false, balloc_first hb, hb0]
    rfl
  have hword : (((s.alloc b).setAddr ip ndirect b).data b).word (ndirect - ndirect) = 0 := by
    simp [State.setAddr, State.alloc]
  rw [bmap, if_neg (lt_irrefl _), if_pos (by decide)]
  simp only [EStateM.run_bind, hind, EStateM.run_get, hb0, if_false, hword, ne_eq,
    not_true_eq_false, balloc_first hb', hb0']
  rfl

end

/-- A disk with five blocks of free map, in each of which the last bit is clear, and an open file
with a size but no blocks. -/
def sparseFile : State where
  sb := { size := 40960, nblocks := 40900, ninodes := 200, inodestart := 33, bmapstart := 46,
          size_lt := by decide }
  used b := decide (b % bpb ≠ bpb - 1)
  dinode i := if i = 2 then { type := .file, nlink := 1, size := 9 * bsize + 1 } else {}
  data _ := fun _ => 0
  itable i := if i = 2 then { ref := 1 } else {}
  cwd _ := none
  files := [{ ip := 2, device := false, writable := true, off := 9 * bsize + 1 }]
  logged := []

theorem safe_sparseFile : sparseFile.Safe := by
  have hhold : ∀ i sl, sparseFile.hold i sl = 0 := by
    intro i sl
    have hcur : sparseFile.cur i = sparseFile.dinode i := if_neg fun hl => by
      have hv : (sparseFile.itable i).valid = false := by
        simp only [sparseFile]
        split <;> rfl
      rw [hl.2] at hv
      cases hv
    have haddr : (sparseFile.dinode i).addrs = fun _ => 0 := by
      simp only [sparseFile]
      split <;> rfl
    rw [State.hold, hcur]
    split
    · cases sl <;> simp [Dinode.block, haddr]
    · rfl
  refine ⟨⟨?_, ?_⟩, show 0 < 40960 - 40900 by decide⟩
  · rintro (_ | ⟨i, sl⟩) b hb
    · have hb : b < 60 := hb
      refine decide_eq_true ?_
      simp only [bpb, bsize]
      omega
    · exact absurd (hb.2.symm.trans (hhold i sl)) hb.1
  · rintro (_ | ⟨i, sl⟩) (_ | ⟨i', sl'⟩) b hb hb'
    · rfl
    · exact absurd (hb'.2.symm.trans (hhold i' sl')) hb'.1
    · exact absurd (hb.2.symm.trans (hhold i sl)) hb.1
    · exact absurd (hb.2.symm.trans (hhold i sl)) hb.1

/-- The block that the `k`-th allocation on this disk finds. -/
def sparseBlock (k : ℕ) : ℕ := k * bpb + (bpb - 1)

/-- After `k` allocations on this disk: the blocks logged, and the addresses of the file. -/
structure Sparse (k : ℕ) (l : List ℕ) (a : ℕ → ℕ) (s : State) : Prop where
  sb : s.sb = sparseFile.sb
  used : ∀ b, s.used b = false ↔ b % bpb = bpb - 1 ∧ k ≤ b / bpb
  logged : s.logged = l
  addrs : (s.itable 2).d.addrs = a
  size : (s.itable 2).d.size = 9 * bsize + 1

section Sparse

variable {s : State} {k n tot off bn fuel : ℕ} {l : List ℕ} {a : ℕ → ℕ}

theorem sparseBlock_ne (k : ℕ) : sparseBlock k ≠ 0 := by
  simp only [sparseBlock, bpb, bsize]
  omega

theorem Sparse.first (h : Sparse k l a s) (hk : k < 5) : s.First (sparseBlock k) := by
  refine ⟨?_, (h.used _).mpr ?_, fun b hb => ?_⟩
  · rw [h.sb]
    simp only [sparseBlock, sparseFile, bpb, bsize]
    omega
  · simp only [sparseBlock, bpb, bsize]
    omega
  · rw [← Bool.not_eq_false, h.used]
    simp only [sparseBlock, bpb, bsize] at hb ⊢
    omega

theorem Sparse.bblock (h : Sparse k l a s) : bblock s (sparseBlock k) = k + 46 := by
  rw [Fs.bblock, h.sb]
  simp only [sparseBlock, sparseFile, bpb, bsize]
  omega

theorem Sparse.alloc (h : Sparse k l a s) :
    Sparse (k + 1) (l ++ [k + 46, sparseBlock k]) a (s.alloc (sparseBlock k)) := by
  refine ⟨h.sb, fun b => ?_, ?_, h.addrs, h.size⟩
  · change Function.update s.used (sparseBlock k) true b = false ↔ _
    by_cases hb : b = sparseBlock k
    · subst hb
      simp only [Function.update_self, Bool.true_eq_false, false_iff, not_and, sparseBlock, bpb,
        bsize]
      omega
    · rw [Function.update_of_ne hb, h.used]
      simp only [sparseBlock, bpb, bsize] at hb ⊢
      omega
  · rw [State.alloc, h.logged, h.bblock, List.append_assoc]
    rfl

theorem Sparse.setAddr (h : Sparse k l a s) (i b : ℕ) :
    Sparse k l (Function.update a i b) (s.setAddr 2 i b) :=
  ⟨h.sb, h.used, h.logged, by simp [State.setAddr, h.addrs], by simp [State.setAddr, h.size]⟩

/-- A turn of the loop of `writei` after `bmap` has allocated a block. -/
theorem sparse_turn (fuel : ℕ) {Q : ℕ × ℕ → State → Prop} {E : Panic → State → Prop} {b : ℕ} {s₁ : State}
    (htot : tot < n) (hmap : (bmap 2 (off / bsize)).run s = .ok b s₁) (hb : b ≠ 0)
    (h₁ : Sparse k l a s₁)
    (hnext : ∀ s', Sparse k (l ++ [b]) a s' →
      wp (writeLoop 2 (fun _ m => (true, List.replicate m 97)) n fuel (off + piece n tot off)
        (tot + piece n tot off)) Q E s') :
    wp (writeLoop 2 (fun _ m => (true, List.replicate m 97)) n (fuel + 1) off tot) Q E s := by
  rw [writeLoop, if_pos htot]
  refine wp_bind.mpr (wp_of_ok hmap ?_)
  rw [if_neg hb]
  simp only [wp_bind, wp_modify, if_true, logWrite]
  refine hnext _ ⟨h₁.sb, h₁.used, ?_, h₁.addrs, h₁.size⟩
  rw [h₁.logged]

end Sparse

/-- The state after `ilock`. -/
def sparseLocked : State :=
  sparseFile.beginOp.putInode 2 { ref := 1, valid := true, d := sparseFile.dinode 2 }

theorem sparse_locked : Sparse 0 [] (fun _ => 0) sparseLocked :=
  ⟨rfl, fun b => by simp [sparseLocked, sparseFile, State.putInode, State.beginOp], rfl,
    by simp [sparseLocked, sparseFile], by simp [sparseLocked, sparseFile]⟩

/-- The four turns of the loop, for blocks 9 to 12. The write enters the first at its second byte,
and for the last it needs the indirect block as well. -/
theorem sparse_loop {s : State} (h : Sparse 0 [] (fun _ => 0) s) {E : Panic → State → Prop} :
    wp (writeLoop 2 (fun _ m => (true, List.replicate m 97)) 3072 3072 9217 0)
      (fun _ s' => s'.sb = sparseFile.sb ∧ s'.logged =
        [46, sparseBlock 0, sparseBlock 0] ++ [47, sparseBlock 1, sparseBlock 1] ++
        [48, sparseBlock 2, sparseBlock 2] ++ [49, sparseBlock 3] ++
        [50, sparseBlock 4, sparseBlock 3, sparseBlock 4]) E s := by
  refine sparse_turn 3071 (by decide) (bmap_first 9 (by decide)
    (by rw [h.addrs]) (h.first (by decide)) (sparseBlock_ne 0)) (sparseBlock_ne 0)
    (h.alloc.setAddr 9 _) fun s₁ h₁ => ?_
  refine sparse_turn 3070 (by decide) (bmap_first 10 (by decide)
    (by rw [h₁.addrs]; rfl) (h₁.first (by decide)) (sparseBlock_ne 1)) (sparseBlock_ne 1)
    (h₁.alloc.setAddr 10 _) fun s₂ h₂ => ?_
  refine sparse_turn 3069 (by decide) (bmap_first 11 (by decide)
    (by rw [h₂.addrs]; rfl) (h₂.first (by decide)) (sparseBlock_ne 2)) (sparseBlock_ne 2)
    (h₂.alloc.setAddr 11 _) fun s₃ h₃ => ?_
  have hind := h₃.alloc.setAddr ndirect (sparseBlock 3)
  have hword : Sparse 5 _ _ ((((s₃.alloc (sparseBlock 3)).setAddr 2 ndirect (sparseBlock 3)).alloc
      (sparseBlock 4)).setWord (sparseBlock 3) 0 (sparseBlock 4)) :=
    ⟨hind.alloc.sb, hind.alloc.used, congrArg (· ++ [sparseBlock 3]) hind.alloc.logged,
      hind.alloc.addrs, hind.alloc.size⟩
  refine sparse_turn 3068 (by decide) (bmap_first_word (by rw [h₃.addrs]; rfl)
    (h₃.first (by decide)) (sparseBlock_ne 3) (hind.first (by decide)) (sparseBlock_ne 4))
    (sparseBlock_ne 4) hword fun s₄ h₄ => ?_
  rw [writeLoop, if_neg (by decide), wp_pure, h₄.sb, h₄.logged]
  exact ⟨rfl, rfl⟩

theorem sparse_filewrite {t s : State} (hfile : t.files[0]? = sparseFile.files[0]?)
    (hlock : (ilock 2).run t = .ok ⟨⟩ s) (h : Sparse 0 [] (fun _ => 0) s) :
    (final (filewrite 0 (fun _ m => (true, List.replicate m 97)) filewriteMax)
      t).logged.toFinset.card = 11 := by
  refine wp_final (P := fun s' : State => s'.logged.toFinset.card = 11) ?_
  rw [filewrite]
  simp only [wp_bind, wp_get, hfile]
  change wp (if _ then _ else _) _ _ _
  rw [if_neg (by decide)]
  simp only [wp_bind, wp_pure, wp_modify]
  refine wp_of_ok hlock ?_
  rw [writei, dinodeOf]
  simp only [wp_bind, wp_get, wp_pure, h.size]
  rw [if_neg (by decide), if_neg (by decide)]
  simp only [wp_bind]
  refine wp_mono (sparse_loop h) ?_ fun _ _ he => he
  rintro r s' ⟨hsb, hlog⟩
  have hend : ∀ u : State, u.sb = s'.sb → u.logged = s'.logged →
      (u.logged ++ [iblock u 2]).toFinset.card = 11 := by
    intro u hu hl
    rw [iblock, hu, hl, hsb, hlog]
    decide
  simp only [wp_ite, wp_bind, setDinode, setInode, iupdate, logWrite, wp_modify, wp_get]
  exact ⟨fun _ => hend _ rfl rfl, fun _ => hend _ rfl rfl⟩

end Fs

end Xv6
