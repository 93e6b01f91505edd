import Mathlib.Algebra.BigOperators.Group.Finset.Basic
import Mathlib.Data.Fintype.BigOperators
import Xv6.Fs.Contents

/-!
# The inode table

`Inv s h l` is what holds between two steps of a call: the blocks are owned, the copies in the
inode table agree with those on disk, no directory has a hole, and the reference counts are those
of the open files, the current directories, and the references `h` that the call itself holds. The
inodes `l` among them are locked, so their table entries are filled.

Each function of the inode layer has one specification in these terms. What it does to the inodes
beyond that is told by `Same` (nothing but reference counts changes), `Freed` and `Changed`.
-/

namespace Xv6

namespace Fs

open StateLogic Ownership

namespace State

/-- The references that outlive a call. -/
def pointers (s : State) (i : ℕ) : ℕ :=
  (s.files.map File.ip).count i + ∑ p, if s.cwd p = some i then 1 else 0

/-- There is a reference to the inode, held by the call or lasting. -/
def Kept (s : State) (h : List ℕ) (i : ℕ) : Prop := i ∈ h ∨ 0 < s.pointers i

/-- The invariant, when `q` counts the lasting references. -/
structure InvOf (s : State) (q : ℕ → ℕ) (h l : List ℕ) : Prop where
  owned : s.Owned
  ready : ∀ i, s.Live i → s.Ready i
  synced : ∀ i, s.Live i → (s.itable i).d = s.dinode i
  /-- A directory has a block for every byte below its size. -/
  whole : ∀ i, i < s.sb.ninodes → (s.cur i).type = .dir → s.Full i (s.cur i).size
  refs : ∀ i, (s.itable i).ref = h.count i + q i
  locked : ∀ i ∈ l, s.Live i

/-- The invariant between the steps of a call. -/
abbrev Inv (s : State) (h l : List ℕ) : Prop := InvOf s s.pointers h l

variable {s s' s₁ : State} {q : ℕ → ℕ} {h l l' : List ℕ} {ip i : ℕ}

theorem InvOf.weaken (hi : InvOf s q h l) (hl : ∀ i ∈ l', i ∈ l) : InvOf s q h l' :=
  { hi with locked := fun i hm => hi.locked i (hl i hm) }

/-- The order of the references does not matter. -/
theorem InvOf.perm {h' : List ℕ} (hi : InvOf s q h l) (hp : h.Perm h') : InvOf s q h' l :=
  { hi with refs := fun i => by rw [hi.refs i, hp.count_eq] }

theorem Inv.ref_pos (hi : Inv s h l) : 0 < (s.itable i).ref ↔ s.Kept h i := by
  rw [hi.refs i, Kept, ← List.count_pos_iff]
  omega

theorem Inv.kept (hi : Inv s h l) : ∀ i ∈ l, s.Kept h i := fun i hm =>
  hi.ref_pos.mp (hi.locked i hm).1

theorem InvOf.locked_ready (hi : InvOf s q h l) (hm : i ∈ l) : s.Ready i :=
  hi.ready i (hi.locked i hm)

theorem InvOf.cur_dinode (hi : InvOf s q h l) (i : ℕ) : s.cur i = s.dinode i := by
  rw [cur]
  split
  · rename_i hl
    exact hi.synced i hl
  · rfl

/-- Only reference counts, and which copies are in the table, change. -/
structure Same (s s' : State) : Prop where
  sb : s'.sb = s.sb
  used : s'.used = s.used
  dinode : s'.dinode = s.dinode
  data : s'.data = s.data
  cwd : s'.cwd = s.cwd
  files : s'.files = s.files
  cur : s'.cur = s.cur

theorem Same.refl (s : State) : Same s s := ⟨rfl, rfl, rfl, rfl, rfl, rfl, rfl⟩

theorem Same.trans (h : Same s s₁) (h' : Same s₁ s') : Same s s' where
  sb := h'.sb.trans h.sb
  used := h'.used.trans h.used
  dinode := h'.dinode.trans h.dinode
  data := h'.data.trans h.data
  cwd := h'.cwd.trans h.cwd
  files := h'.files.trans h.files
  cur := h'.cur.trans h.cur

theorem Same.hold (h : Same s s') (i : ℕ) (sl : Slot) : s'.hold i sl = s.hold i sl := by
  rw [State.hold, State.hold, h.sb, h.cur, h.data]

theorem Same.byte (h : Same s s') (i x : ℕ) : s'.byte i x = s.byte i x := by
  rw [State.byte, State.byte, h.hold, h.data]

theorem Same.owned (h : Same s s') (ho : s.Owned) : s'.Owned :=
  ho.congr (by rw [nmeta, nmeta, h.sb]) h.used h.hold

theorem Same.pointers (h : Same s s') (i : ℕ) : s'.pointers i = s.pointers i := by
  rw [State.pointers, State.pointers, h.files, h.cwd]

theorem Same.kept (hs : Same s s') : s'.Kept h i ↔ s.Kept h i := by
  rw [Kept, Kept, hs.pointers]

theorem Same.whole (h : Same s s')
    (hw : ∀ i, i < s.sb.ninodes → (s.cur i).type = .dir → s.Full i (s.cur i).size) :
    ∀ i, i < s'.sb.ninodes → (s'.cur i).type = .dir → s'.Full i (s'.cur i).size := by
  intro i hi ht bn hbn
  rw [h.cur] at ht hbn
  rw [h.hold]
  exact hw i (h.sb ▸ hi) ht bn hbn

/-- A table entry may change, as long as it is a copy of the inode on disk if it is filled. -/
theorem InvOf.putInode {h' : List ℕ} (hi : InvOf s q h l) {x : Inode}
    (hx : 0 < x.ref → x.valid = true →
      ip < s.sb.ninodes ∧ x.d.type ≠ .free ∧ x.d = s.dinode ip)
    (href : x.ref = h'.count ip + q ip) (hcount : ∀ i, i ≠ ip → h'.count i = h.count i)
    (hlock : ∀ i ∈ l', i = ip ∧ 0 < x.ref ∧ x.valid = true ∨ i ≠ ip ∧ i ∈ l) :
    InvOf (s.putInode ip x) q h' l' ∧ Same s (s.putInode ip x) := by
  have hcur : (s.putInode ip x).cur = s.cur := by
    funext i
    by_cases hne : i = ip
    · subst hne
      rw [hi.cur_dinode, State.cur]
      split
      · rename_i hl
        have hl' := live_putInode_self.mp hl
        rw [← (hx hl'.1 hl'.2).2.2]
        simp
      · rfl
    · exact cur_putInode_of_ne hne
  have hsame : Same s (s.putInode ip x) := ⟨rfl, rfl, rfl, rfl, rfl, rfl, hcur⟩
  refine ⟨⟨hsame.owned hi.owned, fun i hl => ?_, fun i hl => ?_, hsame.whole hi.whole,
    fun i => ?_, fun i hm => ?_⟩, hsame⟩
  · by_cases hne : i = ip
    · subst hne
      obtain ⟨hr, hv⟩ := live_putInode_self.mp hl
      refine ⟨hl, (hx hr hv).1, ?_⟩
      simpa [State.putInode] using (hx hr hv).2.1
    · have hr := hi.ready i ((live_putInode_of_ne hne).mp hl)
      exact ⟨hl, hr.lt, by simpa [State.putInode, hne] using hr.type⟩
  · by_cases hne : i = ip
    · subst hne
      obtain ⟨hr, hv⟩ := live_putInode_self.mp hl
      simpa [State.putInode] using (hx hr hv).2.2
    · simpa [State.putInode, hne] using hi.synced i ((live_putInode_of_ne hne).mp hl)
  · by_cases hne : i = ip
    · subst hne
      simpa [State.putInode] using href
    · simpa [State.putInode, hne, hcount i hne] using hi.refs i
  · rcases hlock i hm with ⟨rfl, hl⟩ | ⟨hne, hm⟩
    · exact live_putInode_self.mpr hl
    · exact (live_putInode_of_ne hne).mpr (hi.locked i hm)

/-- The table entry of an inode on disk as `Inv` allows it. -/
theorem InvOf.entry (hi : InvOf s q h l) (hl : s.Live ip) :
    ip < s.sb.ninodes ∧ (s.itable ip).d.type ≠ .free ∧ (s.itable ip).d = s.dinode ip :=
  ⟨(hi.ready ip hl).lt, (hi.ready ip hl).type, hi.synced ip hl⟩

end State

section Table

open State

variable {s : State} {q : ℕ → ℕ} {h l : List ℕ} {ip : ℕ} {P : Panic → Prop}

/-- `idup` takes a reference to an inode that has one. -/
theorem idup_spec (hi : Inv s h l) (hr : 0 < (s.itable ip).ref) :
    wp (idup ip) (fun _ s' => Inv s' (ip :: h) l ∧ Same s s') (fun e _ => P e) s := by
  refine hi.putInode (fun _ hv => hi.entry ⟨hr, hv⟩) ?_ (fun i hne => ?_) fun i hm => ?_
  · change (s.itable ip).ref + 1 = _
    rw [List.count_cons_self, hi.refs ip]
    omega
  · rw [List.count_cons_of_ne hne.symm]
  · by_cases hne : i = ip
    · subst hne
      exact Or.inl ⟨rfl, Nat.succ_pos _, (hi.locked i hm).2⟩
    · exact Or.inr ⟨hne, hm⟩

/-- `iget` takes a reference. -/
theorem iget_spec (hi : Inv s h l) (hP : ninode ≤ active s → P .noInodes) :
    wp (iget ip) (fun _ s' => Inv s' (ip :: h) l ∧ Same s s') (fun e _ => P e) s := by
  rw [iget]
  simp only [wp_bind, wp_get, wp_ite, wp_throw]
  refine ⟨fun hr => idup_spec (P := P) hi hr, fun hr => ⟨hP, fun _ => ?_⟩⟩
  refine hi.putInode (by rintro _ ⟨⟩) ?_ (fun i hne => ?_) fun i hm => ?_
  · change 1 = _
    have := hi.refs ip
    rw [List.count_cons_self]
    omega
  · rw [List.count_cons_of_ne hne.symm]
  · refine Or.inr ⟨?_, hm⟩
    rintro rfl
    exact hr (hi.locked i hm).1

/-- `ilock` of an inode to which there is a reference fills its table entry. -/
theorem ilock_spec (hi : Inv s h l) (hk : s.Kept h ip)
    (hn : s.sb.ninodes ≤ ip → P .inum) (ht : (s.cur ip).type = .free → P .noType) :
    wp (ilock ip) (fun _ s' => Inv s' h (ip :: l) ∧ Same s s') (fun e _ => P e) s := by
  have hr := hi.ref_pos.mpr hk
  rw [ilock]
  simp only [wp_bind, wp_get, wp_ite, wp_throw, wp_pure]
  refine ⟨fun hlt => absurd hr (Nat.not_lt.mpr (Nat.lt_one_iff.mp hlt).le), fun _ => ⟨hn, fun hlt => ⟨fun hv => ?_, fun hv => ?_⟩⟩⟩
  · rw [setInode]
    simp only [wp_modify]
    rw [hi.cur_dinode] at ht
    refine ⟨ht, fun hfree => ?_⟩
    refine hi.putInode (fun _ _ => ⟨not_le.mp hlt, hfree, rfl⟩) (hi.refs ip) (fun _ _ => rfl)
      fun i him => ?_
    · by_cases hne : i = ip
      · exact Or.inl ⟨hne, hr, rfl⟩
      · exact Or.inr ⟨hne, (List.mem_cons.mp him).resolve_left hne⟩
  · rw [Bool.not_eq_false] at hv
    refine ⟨{ hi with locked := fun i him => ?_ }, .refl s⟩
    · rcases List.mem_cons.mp him with rfl | him
      · exact ⟨hr, hv⟩
      · exact hi.locked i him

/-- The state after a change of the in-memory copy and `iupdate`. -/
def State.update (s : State) (ip : ℕ) (d : Dinode) : State :=
  { s.putInode ip { s.itable ip with d := d } with
    dinode := Function.update s.dinode ip d
    logged := s.logged ++ [iblock s ip] }

@[simp]
theorem State.itable_update_self {d : Dinode} :
    (s.update ip d).itable ip = { s.itable ip with d := d } := itable_putInode_self

theorem wp_update {f : Dinode → Dinode} {Q : PUnit → State → Prop} {E : Panic → State → Prop} :
    wp (setDinode ip f) (fun _ s₁ => wp (iupdate ip) Q E s₁) E s ↔
      Q ⟨⟩ (s.update ip (f (s.itable ip).d)) := by
  simp only [setDinode, setInode, iupdate, logWrite, wp_bind, wp_modify, wp_get,
    itable_putInode_self]
  rfl

/-- What `iput` does to an inode without names and other references. -/
structure Freed (ip : ℕ) (s s' : State) : Prop where
  sb : s'.sb = s.sb
  data : s'.data = s.data
  cwd : s'.cwd = s.cwd
  files : s'.files = s.files
  lt : ip < s.sb.ninodes
  type : (s.cur ip).type ≠ .free
  nlink : (s.cur ip).nlink = 0
  free : (s'.cur ip).type = .free
  cur : ∀ i, i ≠ ip → s'.cur i = s.cur i

theorem Freed.hold {s' : State} (hf : Freed ip s s') {i : ℕ} (hne : i ≠ ip) (sl : Slot) :
    s'.hold i sl = s.hold i sl := by
  rw [State.hold, State.hold, hf.sb, hf.cur i hne, hf.data]

theorem Freed.byte {s' : State} (hf : Freed ip s s') {i : ℕ} (hne : i ≠ ip) (x : ℕ) :
    s'.byte i x = s.byte i x := by
  rw [State.byte, State.byte, hf.hold hne, hf.data]

/-- The state in which `iput` leaves an inode that it frees. -/
theorem Truncated.freed {s₁ : State} {x : Inode} {d : Dinode} (ht : Truncated ip s s₁)
    (hi : InvOf s q (ip :: h) l) (hl : ∀ i ∈ l, i ∈ h ∨ 0 < q i) (hr : (s.itable ip).ref = 1)
    (hv : (s.itable ip).valid = true) (hn : (s.itable ip).d.nlink = 0) (hd : d.type = .free)
    (hx : x.ref = 0) :
    InvOf ((s₁.update ip d).putInode ip x) q h l ∧
      Freed ip s ((s₁.update ip d).putInode ip x) := by
  obtain ⟨a, -, htab₁, hdin₁⟩ := ht.node
  generalize hs' : (s₁.update ip d).putInode ip x = s'
  have htab : s'.itable = Function.update s.itable ip x := by
    rw [← hs']
    simp [State.putInode, State.update, htab₁]
  have hdin : s'.dinode = Function.update s.dinode ip d := by
    rw [← hs']
    simp [State.update, hdin₁]
  have hsb : s'.sb = s.sb := hs' ▸ ht.sb
  have hdata : s'.data = s.data := hs' ▸ ht.data
  have hcwd : s'.cwd = s.cwd := hs' ▸ ht.cwd
  have hfiles : s'.files = s.files := hs' ▸ ht.files
  have hused : s'.used = s₁.used := hs' ▸ rfl
  have hlive : s.Live ip := ⟨by omega, hv⟩
  have hready := hi.ready ip hlive
  have hne_live : ∀ i, i ≠ ip → (s'.Live i ↔ s.Live i) := fun i hne => by
    rw [Live, Live, htab, Function.update_of_ne hne]
  have hdead : ¬s'.Live ip := fun h => by
    rw [Live, htab, Function.update_self, hx] at h
    exact absurd h.1 (lt_irrefl 0)
  have hfree : (s'.cur ip).type = .free := by
    rw [State.cur, if_neg hdead, hdin, Function.update_self, hd]
  have hcur : ∀ i, i ≠ ip → s'.cur i = s.cur i := fun i hne => by
    rw [State.cur, State.cur]
    simp only [hne_live i hne, htab, hdin, Function.update_of_ne hne]
  have hf : Freed ip s s' :=
    ⟨hsb, hdata, hcwd, hfiles, hready.lt, by rw [hready.cur]; exact hready.type,
      by rw [hready.cur]; exact hn, hfree, hcur⟩
  -- the reference that is given up was the only one
  have hcount := hi.refs ip
  rw [hr, List.count_cons_self] at hcount
  have hnot : ¬(ip ∈ h ∨ 0 < q ip) := by
    rintro (hm | hpos)
    · have := List.count_pos_iff.mpr hm
      omega
    · omega
  refine ⟨⟨?_, fun i hli => ?_, fun i hli => ?_, fun i hlt hdir => ?_, fun i => ?_,
    fun i hm => ?_⟩, hf⟩
  · refine hi.owned.drop (by rw [nmeta, nmeta, hsb]) (fun b => ?_) (fun sl => ?_)
      fun i hne => hf.hold hne
    · rw [hused]
      exact ht.used b
    · rw [State.hold, if_neg fun h => h.2 hfree]
  · have hne : i ≠ ip := fun heq => hdead (heq ▸ hli)
    have hri := hi.ready i ((hne_live i hne).mp hli)
    exact ⟨hli, hsb ▸ hri.lt, by rw [htab, Function.update_of_ne hne]; exact hri.type⟩
  · have hne : i ≠ ip := fun heq => hdead (heq ▸ hli)
    rw [htab, hdin, Function.update_of_ne hne, Function.update_of_ne hne]
    exact hi.synced i ((hne_live i hne).mp hli)
  · have hne : i ≠ ip := by
      rintro rfl
      rw [hfree] at hdir
      cases hdir
    intro bn hbn
    rw [hcur i hne] at hdir hbn
    rw [hf.hold hne]
    exact hi.whole i (hsb ▸ hlt) hdir bn hbn
  · rw [htab]
    by_cases hne : i = ip
    · subst hne
      rw [Function.update_self, hx]
      omega
    · rw [Function.update_of_ne hne, hi.refs i, List.count_cons_of_ne (Ne.symm hne)]
  · have hne : i ≠ ip := fun heq => hnot (heq ▸ hl i hm)
    exact (hne_live i hne).mpr (hi.locked i hm)

/-- `iput` gives a reference up, and frees the inode if it was the last one and there is no name
for it. -/
theorem iput_specOf (hi : InvOf s q (ip :: h) l) (hl : ∀ i ∈ l, i ∈ h ∨ 0 < q i) :
    wp (iput ip) (fun _ s' => InvOf s' q h l ∧
      (Same s s' ∨ Freed ip s s' ∧ ¬(ip ∈ h ∨ 0 < q ip))) (fun e _ => P e) s := by
  have hrefs := hi.refs ip
  rw [List.count_cons_self] at hrefs
  rw [iput]
  simp only [wp_bind, wp_get, wp_ite]
  refine ⟨fun hlast => ?_, fun hno => ?_⟩
  · obtain ⟨hr, hv, hn⟩ := hlast
    have hready := hi.ready ip ⟨by omega, hv⟩
    refine wp_mono (itrunc_spec hi.owned.safe hready) (fun _ s₁ ht => ?_) fun _ _ he => he
    obtain ⟨a, -, htab, -⟩ := ht.node
    have hnot : ¬(ip ∈ h ∨ 0 < q ip) := by
      rintro (hm | hpos)
      · have := List.count_pos_iff.mpr hm
        omega
      · omega
    rw [wp_update]
    simp only [setInode, wp_modify, putInode_putInode, itable_putInode_self, itable_update_self]
    have hfreed := ht.freed (d := { (s₁.itable ip).d with type := .free })
      (x := ⟨(s₁.itable ip).ref - 1, false, { (s₁.itable ip).d with type := .free }⟩)
      hi hl hr hv hn rfl (by simp [htab, hr])
    exact ⟨hfreed.1, Or.inr ⟨hfreed.2, hnot⟩⟩
  · have hput : InvOf (s.putInode ip { s.itable ip with ref := (s.itable ip).ref - 1 }) q h l ∧
        Same s (s.putInode ip { s.itable ip with ref := (s.itable ip).ref - 1 }) := by
      refine hi.putInode (fun _ hv => hi.entry ⟨by omega, hv⟩) (by change _ - 1 = _; omega)
        (fun i hne => ?_) fun i hm => ?_
      · rw [List.count_cons_of_ne hne.symm]
      · by_cases hne : i = ip
        · subst hne
          refine Or.inl ⟨rfl, ?_, (hi.locked i hm).2⟩
          change 0 < (s.itable i).ref - 1
          rcases hl i hm with hmem | hpos
          · have := List.count_pos_iff.mpr hmem
            omega
          · omega
        · exact Or.inr ⟨hne, hm⟩
    exact ⟨hput.1, Or.inl hput.2⟩

theorem iput_spec (hi : Inv s (ip :: h) l) (hl : ∀ i ∈ l, s.Kept h i) :
    wp (iput ip) (fun _ s' => Inv s' h l ∧
      (Same s s' ∨ Freed ip s s' ∧ ¬s.Kept h ip)) (fun e _ => P e) s := by
  refine wp_mono (iput_specOf hi hl) ?_ fun _ _ he => he
  rintro _ s' ⟨hi', hs⟩
  refine ⟨?_, hs⟩
  have hptr : s'.pointers = s.pointers := by
    funext i
    rcases hs with hs | ⟨hf, -⟩
    · exact hs.pointers i
    · rw [State.pointers, State.pointers, hf.files, hf.cwd]
  rw [State.Inv, hptr]
  exact hi'

/-- Inode `ip` is now `d`, and nothing else has changed. -/
structure Changed (ip : ℕ) (d : Dinode) (s s' : State) : Prop where
  sb : s'.sb = s.sb
  used : s'.used = s.used
  data : s'.data = s.data
  cwd : s'.cwd = s.cwd
  files : s'.files = s.files
  cur_self : s'.cur ip = d
  cur : ∀ i, i ≠ ip → s'.cur i = s.cur i

theorem Changed.hold_of_ne {s' : State} {d : Dinode} (hc : Changed ip d s s') {i : ℕ}
    (hne : i ≠ ip) (sl : Slot) : s'.hold i sl = s.hold i sl := by
  rw [State.hold, State.hold, hc.sb, hc.cur i hne, hc.data]

theorem Changed.byte_of_ne {s' : State} {d : Dinode} (hc : Changed ip d s s') {i : ℕ}
    (hne : i ≠ ip) (x : ℕ) : s'.byte i x = s.byte i x := by
  rw [State.byte, State.byte, hc.hold_of_ne hne, hc.data]

/-- If the inode keeps its type and addresses, it keeps its blocks. -/
theorem Changed.hold_self {s' : State} {d : Dinode} (hc : Changed ip d s s')
    (ht : d.type = (s.cur ip).type) (ha : d.addrs = (s.cur ip).addrs) (sl : Slot) :
    s'.hold ip sl = s.hold ip sl :=
  hold_congr hc.sb (by rw [hc.cur_self, ht]) (by rw [hc.cur_self, ha])
    (fun _ => by rw [hc.data]) sl

theorem Changed.byte_self {s' : State} {d : Dinode} (hc : Changed ip d s s')
    (ht : d.type = (s.cur ip).type) (ha : d.addrs = (s.cur ip).addrs) (x : ℕ) :
    s'.byte ip x = s.byte ip x := by
  rw [State.byte, State.byte, hc.hold_self ht ha, hc.data]

/-- The state after `iupdate`, seen from a state in which only `ip` was out of step. -/
theorem cur_update {d : Dinode} {i : ℕ} :
    (s.update ip d).cur i = if i = ip then d else s.cur i := by
  by_cases hne : i = ip
  · subst hne
    rw [if_pos rfl, State.cur]
    split
    · simp
    · simp [State.update]
  · rw [if_neg hne]
    have : (s.update ip d).cur i = (s.putInode ip { s.itable ip with d := d }).cur i := by
      rw [State.cur, State.cur]
      simp only [State.update, Live, Function.update_of_ne hne]
      rfl
    rw [this, cur_putInode_of_ne hne]

theorem changed_update (s : State) (ip : ℕ) (d : Dinode) : Changed ip d s (s.update ip d) :=
  ⟨rfl, rfl, rfl, rfl, rfl, by rw [cur_update, if_pos rfl], fun i hne => by
    rw [cur_update, if_neg hne]⟩

theorem live_update {d : Dinode} {i : ℕ} : (s.update ip d).Live i ↔ s.Live i := by
  by_cases hne : i = ip
  · subst hne
    rw [Live, Live, itable_update_self]
  · exact live_putInode_of_ne hne

/-- The counts and the major and minor numbers of a locked inode can be changed. -/
theorem update_spec (hi : Inv s h l) (hm : ip ∈ l) {d : Dinode}
    (ht : d.type = (s.cur ip).type) (ha : d.addrs = (s.cur ip).addrs)
    (hs : d.size = (s.cur ip).size) :
    Inv (s.update ip d) h l ∧ Changed ip d s (s.update ip d) := by
  have hr := hi.locked_ready hm
  have hc := changed_update s ip d
  have hhold : ∀ i sl, (s.update ip d).hold i sl = s.hold i sl := fun i sl => by
    by_cases hne : i = ip
    · subst hne
      exact hc.hold_self ht ha sl
    · exact hc.hold_of_ne hne sl
  refine ⟨⟨hi.owned.congr rfl rfl hhold, fun i hl => ?_, fun i hl => ?_, fun i hlt hdir bn hbn => ?_,
    fun i => ?_, fun i hil => live_update.mpr (hi.locked i hil)⟩, hc⟩
  · have hri := hi.ready i (live_update.mp hl)
    refine ⟨hl, hri.lt, ?_⟩
    by_cases hne : i = ip
    · subst hne
      rw [itable_update_self]
      change d.type ≠ _
      rw [ht, hr.cur]
      exact hr.type
    · exact (itable_putInode_of_ne hne).symm ▸ hri.type
  · by_cases hne : i = ip
    · subst hne
      simp [State.update]
    · have := hi.synced i (live_update.mp hl)
      simpa [State.update, hne, State.putInode] using this
  · rw [hhold]
    by_cases hne : i = ip
    · subst hne
      rw [hc.cur_self] at hdir hbn
      exact hi.whole i hlt (ht ▸ hdir) bn (hs ▸ hbn)
    · rw [hc.cur i hne] at hdir hbn
      exact hi.whole i hlt hdir bn hbn
  · have hri := hi.refs i
    by_cases hne : i = ip
    · subst hne
      rw [itable_update_self]
      exact hri
    · exact (congrArg Inode.ref (itable_putInode_of_ne hne)).trans hri

theorem Changed.same {s₁ s' : State} {d : Dinode} (hc : Changed ip d s s₁) (hs : Same s₁ s') :
    Changed ip d s s' where
  sb := hs.sb.trans hc.sb
  used := hs.used.trans hc.used
  data := hs.data.trans hc.data
  cwd := hs.cwd.trans hc.cwd
  files := hs.files.trans hc.files
  cur_self := by rw [hs.cur, hc.cur_self]
  cur i hne := by rw [hs.cur, hc.cur i hne]

/-- A free inode can be given a type on disk. -/
theorem State.Inv.newInode {t : FileType} {g : List ℕ} (hi : Inv s h l)
    (hfree : (s.dinode ip).type = .free) :
    Inv { s with dinode := Function.update s.dinode ip { type := t }, logged := g } h l ∧
      Changed ip { type := t } s
        { s with dinode := Function.update s.dinode ip { type := t }, logged := g } := by
  generalize hs' : ({ s with dinode := _, logged := g } : State) = s'
  have hdead : ¬s.Live ip := fun hl =>
    (hi.ready ip hl).type (by rw [hi.synced ip hl]; exact hfree)
  have hlive : ∀ i, s'.Live i ↔ s.Live i := fun i => hs' ▸ Iff.rfl
  have hdin : s'.dinode = Function.update s.dinode ip { type := t } := hs' ▸ rfl
  have hne_of : ∀ i, s'.Live i → i ≠ ip := fun i hl heq => hdead (heq ▸ (hlive i).mp hl)
  have htab : s'.itable = s.itable := hs' ▸ rfl
  have hc : Changed ip { type := t } s s' := by
    refine ⟨hs' ▸ rfl, hs' ▸ rfl, hs' ▸ rfl, hs' ▸ rfl, hs' ▸ rfl, ?_, fun i hne => ?_⟩
    · rw [State.cur, if_neg fun hl => hdead ((hlive ip).mp hl), hdin, Function.update_self]
    · rw [State.cur, State.cur]
      simp only [hlive, htab, hdin, Function.update_of_ne hne]
  have hhold : ∀ i sl, s'.hold i sl = s.hold i sl := fun i sl => by
    by_cases hne : i = ip
    · subst hne
      rw [State.hold, State.hold, hc.cur_self, hi.cur_dinode, hfree]
      cases sl <;> simp [Dinode.block]
    · exact hc.hold_of_ne hne sl
  refine ⟨⟨hi.owned.congr (by rw [nmeta, nmeta, hc.sb]) hc.used hhold, fun i hl => ?_,
    fun i hl => ?_, fun i hlt hdir bn hbn => ?_, fun i => ?_,
    fun i hil => (hlive i).mpr (hi.locked i hil)⟩, hc⟩
  · have hri := hi.ready i ((hlive i).mp hl)
    exact ⟨hl, hc.sb ▸ hri.lt, htab ▸ hri.type⟩
  · rw [htab, hdin, Function.update_of_ne (hne_of i hl)]
    exact hi.synced i ((hlive i).mp hl)
  · by_cases hne : i = ip
    · subst hne
      rw [hc.cur_self] at hbn
      exact absurd hbn (Nat.not_lt_zero _)
    · rw [hc.cur i hne] at hdir hbn
      rw [hhold]
      exact hi.whole i (hc.sb ▸ hlt) hdir bn hbn
  · rw [htab, hi.refs i, State.pointers, State.pointers, hc.files, hc.cwd]

/-- `ialloc` takes an inode that is free on disk. -/
theorem ialloc_spec {type : FileType} (hi : Inv s h l)
    (hP : ninode ≤ active s → P .noInodes) :
    wp (ialloc type) (fun r s' => match r with
      | none => s' = s
      | some ip => Inv s' (ip :: h) l ∧ Changed ip { type := type } s s' ∧
        (s.cur ip).type = .free ∧ 0 < ip ∧ ip < s.sb.ninodes) (fun e _ => P e) s := by
  rw [ialloc]
  simp only [wp_bind, wp_get]
  cases hf : (List.range s.sb.ninodes).find? fun i => 1 ≤ i ∧ (s.dinode i).type = .free with
  | none => rfl
  | some ip =>
    have hsome := List.find?_some hf
    simp only [decide_eq_true_eq] at hsome
    have hlt := List.mem_range.mp (List.mem_of_find?_eq_some hf)
    have hfree : (s.cur ip).type = .free := by
      rw [hi.cur_dinode]
      exact hsome.2
    obtain ⟨hi₁, hc⟩ := hi.newInode (t := type) (g := s.logged ++ [iblock s ip]) hsome.2
    simp only [logWrite, wp_modify, wp_bind, wp_pure]
    refine wp_mono (iget_spec (P := P) hi₁ hP) (fun _ s' hs' => ?_) fun _ _ he => he
    exact ⟨hs'.1, hc.same hs'.2, hfree, hsome.1, hlt⟩

/-- What `writei` does to the files. -/
structure Written (ip off n : ℕ) (s s' : State) : Prop where
  sb : s'.sb = s.sb
  cwd : s'.cwd = s.cwd
  files : s'.files = s.files
  /-- The size grows as far as the write got. -/
  cur_self : ∃ a off', off ≤ off' ∧ off' ≤ off + n ∧
    s'.cur ip = { s.cur ip with addrs := a, size := max (s.cur ip).size off' }
  cur : ∀ i, i ≠ ip → s'.cur i = s.cur i
  byte_of_ne : ∀ i, i ≠ ip → ∀ x, s'.byte i x = s.byte i x
  byte : ∀ x, x < off ∨ off + n ≤ x → s'.byte ip x = s.byte ip x

/-- The end of `writei`, after its loop: the inode is written back. -/
theorem Wrote.finish {s₁ : State} {off n off' : ℕ} (hw : Wrote ip off n s off' s₁)
    (hi : Inv s h l) (hm : ip ∈ l) (hoff : off ≤ (s.cur ip).size) {d : Dinode}
    (hd : d = { (s₁.itable ip).d with size := max (s.cur ip).size off' }) :
    Inv (s₁.update ip d) h l ∧ Written ip off n s (s₁.update ip d) ∧
      (∀ sl, (s₁.update ip d).hold ip sl = s₁.hold ip sl) ∧
      ∀ x, (s₁.update ip d).byte ip x = s₁.byte ip x := by
  have hr := hi.locked_ready hm
  have hr₁ := hw.ext.ready hr
  have hlive₁ : ∀ i, s₁.Live i ↔ s.Live i := fun i => hw.ext.live
  obtain ⟨a, ha⟩ := hw.ext.itable
  have hd₁ : (s₁.itable ip).d = { (s.itable ip).d with addrs := a } := by
    rw [ha, Function.update_self]
  have hc := changed_update s₁ ip d
  have ht : d.type = (s₁.cur ip).type := by rw [hd, hr₁.cur]
  have hda : d.addrs = (s₁.cur ip).addrs := by rw [hd, hr₁.cur]
  have hcur : ∀ i, i ≠ ip → (s₁.update ip d).cur i = s.cur i := fun i hne => by
    rw [hc.cur i hne, hw.ext.cur_of_ne hne]
  have hhold_ne : ∀ i, i ≠ ip → ∀ sl, (s₁.update ip d).hold i sl = s.hold i sl :=
    fun i hne sl => by rw [hc.hold_of_ne hne, hw.ext.hold_of_ne hi.owned.safe hne]
  have hwritten : Written ip off n s (s₁.update ip d) := by
    refine ⟨hw.ext.sb, hw.ext.cwd, hw.ext.files, ⟨a, off', hw.le, hw.le_add, ?_⟩, hcur,
      fun i hne x => ?_, fun x hx => ?_⟩
    · rw [hc.cur_self, hd, hd₁, hr.cur]
    · rw [hc.byte_of_ne hne, hw.ext.byte_of_ne hi.owned.safe hne]
    · rw [hc.byte_self ht hda, hw.byte x hx]
  refine ⟨⟨?_, fun i hl => ?_, fun i hl => ?_, fun i hlt hdir bn hbn => ?_, fun i => ?_,
    fun i hil => live_update.mpr ((hlive₁ i).mpr (hi.locked i hil))⟩, hwritten,
    hc.hold_self ht hda, hc.byte_self ht hda⟩
  · refine hw.owned.congr rfl rfl fun i sl => ?_
    by_cases hne : i = ip
    · subst hne
      exact hc.hold_self ht hda sl
    · exact hc.hold_of_ne hne sl
  · have hri := hi.ready i ((hlive₁ i).mp (live_update.mp hl))
    refine ⟨hl, hwritten.sb ▸ hri.lt, ?_⟩
    by_cases hne : i = ip
    · subst hne
      rw [itable_update_self]
      change d.type ≠ _
      rw [ht, hr₁.cur]
      exact hr₁.type
    · have htab : (s₁.update ip d).itable i = s.itable i := by
        rw [State.update]
        simp [hne, ha, State.putInode]
      rw [htab]
      exact hri.type
  · by_cases hne : i = ip
    · subst hne
      simp [State.update]
    · have := hi.synced i ((hlive₁ i).mp (live_update.mp hl))
      simpa [State.update, hne, State.putInode, ha, hw.ext.dinode] using this
  · by_cases hne : i = ip
    · subst hne
      have hdir' : (s.cur i).type = .dir := by
        rw [hc.cur_self, ht] at hdir
        rw [hr₁.cur, hd₁] at hdir
        rw [hr.cur]
        exact hdir
      have hfull := hi.whole i hr.lt hdir'
      rw [hc.cur_self, hd] at hbn
      rw [hc.hold_self ht hda]
      rcases lt_max_iff.mp hbn with hbn | hbn
      · exact hw.ext.full hfull bn hbn
      · exact hw.full (fun bn hbn => hfull bn (hbn.trans_le hoff)) bn hbn
    · rw [hcur i hne] at hdir hbn
      rw [hhold_ne i hne]
      exact hi.whole i (hwritten.sb ▸ hlt) hdir bn hbn
  · have hri := hi.refs i
    have hptr : (s₁.update ip d).pointers i = s.pointers i := by
      rw [State.pointers, State.pointers, hwritten.files, hwritten.cwd]
    rw [hptr, ← hri]
    by_cases hne : i = ip
    · subst hne
      rw [itable_update_self, ha, Function.update_self]
    · rw [State.update]
      simp [hne, ha, State.putInode]

/-- `iupdate` alone. -/
theorem wp_iupdate {Q : PUnit → State → Prop} {E : Panic → State → Prop} :
    wp (iupdate ip) Q E s ↔ Q ⟨⟩ (s.update ip (s.itable ip).d) := by
  have hsame : s.putInode ip (s.itable ip) = s := by
    rw [State.putInode, Function.update_eq_self]
  rw [State.update]
  simp only [iupdate, logWrite, wp_bind, wp_modify, wp_get]
  rw [show ({ s.itable ip with d := (s.itable ip).d } : Inode) = s.itable ip from rfl, hsame]
  rfl

/-- The last two statements of `writei`. -/
theorem writeEnd_spec {s₁ : State} {off' : ℕ} {Q : PUnit → State → Prop}
    {E : Panic → State → Prop} (hs : (s₁.itable ip).d.size = (s.cur ip).size)
    (hQ : Q ⟨⟩ (s₁.update ip { (s₁.itable ip).d with size := max (s.cur ip).size off' })) :
    ((s₁.itable ip).d.size < off' →
        wp (setDinode ip fun d => { d with size := off' }) (fun _ s' => wp (iupdate ip) Q E s') E
          s₁) ∧
      (¬(s₁.itable ip).d.size < off' → wp (iupdate ip) Q E s₁) := by
  refine ⟨fun hlt => ?_, fun hle => ?_⟩
  · rw [wp_update]
    rw [max_eq_right (hs ▸ hlt.le)] at hQ
    exact hQ
  · rw [wp_iupdate]
    rw [max_eq_left (hs ▸ not_lt.mp hle), ← hs] at hQ
    exact hQ

/-- `writei` to a locked inode. -/
theorem writei_spec (hi : Inv s h l) (hm : ip ∈ l) (src : Source) (off n : ℕ) :
    wp (writei ip src off n) (fun _ s' => Inv s' h l ∧ (s' = s ∨ Written ip off n s s'))
      (fun e _ => P e) s := by
  have hr := hi.locked_ready hm
  rw [writei, dinodeOf]
  simp only [wp_bind, wp_get, wp_pure, wp_ite]
  refine ⟨fun _ => ⟨hi, Or.inl trivial⟩, fun hoff => ⟨fun _ => ⟨hi, Or.inl trivial⟩, fun hmax => ?_⟩⟩
  rw [not_or, not_lt, ← hr.cur] at hoff
  refine wp_mono (writeLoop_copies ip src n n (Nat.sub_le ..) (Nat.zero_le _) hi.owned.safe hr ?_)
    ?_ fun _ _ he => he
  · omega
  · rintro ⟨tot, off'⟩ s₁ ⟨s₀, hc, hstop⟩
    have hw := hc.wrote hstop hi.owned
    rw [Nat.sub_zero] at hw
    have hsize : (s₁.itable ip).d.size = (s.cur ip).size := by
      obtain ⟨a, ha⟩ := hw.ext.itable
      rw [ha, Function.update_self, hr.cur]
    obtain ⟨hinv, hwritten, -⟩ := hw.finish hi hm hoff.1 rfl
    exact writeEnd_spec hsize ⟨hinv, Or.inr hwritten⟩

end Table

end Fs

end Xv6
