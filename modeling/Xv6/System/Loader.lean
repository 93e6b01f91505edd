import Xv6.System.Guard

/-!
# The loader

A program file describes memory by segments: each loadable one has zero pages up to
`vaddr + memsz`, and the bytes `off, …, off + filesz - 1` of the file from `vaddr` on. `program`
reads this off the headers. A `kexec` that succeeds leaves exactly that memory below the guard
page of the stack (`kexec_loads`): `uvmalloc` adds zero pages at the end (`execGrow_loaded`) and
a turn of `loadseg` stores one page's share of the bytes (`loadsegLoop_view`), through the
kernel's own mapping, so that read-only segments are loaded too.

The parameters `offset` and `sz` of `loadseg` are `uint`s, so `off` and `filesz` count modulo
`2 ^ 32`.
-/

namespace Xv6

open StateLogic

/-! ### What a file says -/

/-- Zero pages from the end of `sz` bytes to the end of `top` bytes. -/
def UMem.grow (u : UMem) (sz top : ℕ) (xperm : Pte) : UMem := fun v =>
  if npages sz ≤ v ∧ v < npages top then some (newPage xperm) else u v

structure Program where
  mem : UMem
  sz : ℕ

/-- The bytes of a segment in the file. -/
def Proghdr.bytes (ph : Proghdr) (file : List UInt8) : List UInt8 :=
  (file.drop (ph.off % 2 ^ 32)).take (ph.filesz % 2 ^ 32)

/-- A segment is added. -/
def Program.segment (file : List UInt8) (P : Program) (ph : Proghdr) : Program :=
  ⟨(P.mem.grow P.sz (ph.vaddr + ph.memsz) (flags2perm ph.flags)).store ph.vaddr (ph.bytes file),
    max P.sz (ph.vaddr + ph.memsz)⟩

/-- The `n` program headers from `off` on. -/
def progHeaders (file : List UInt8) : ℕ → ℕ → List Proghdr
  | 0, _ => []
  | n + 1, off => .decode (readi file off proghdrSize) ::
      progHeaders file n ((off + proghdrSize) % 2 ^ 32)

def Program.load (file : List UInt8) (P : Program) (phs : List Proghdr) : Program :=
  (phs.filter (·.type = elfProgLoad)).foldl (.segment file) P

/-- The memory a program file describes. -/
def program (file : List UInt8) : Program :=
  let elf := Elfhdr.decode (readi file 0 elfhdrSize)
  .load file ⟨fun _ => none, 0⟩ (progHeaders file elf.phnum (elf.phoff % 2 ^ 32))

section Load

variable {H : List ℕ} {m m' : Machine} {im : Image} {root : ℕ} {file : List UInt8} {P : Program}

theorem leNat_lt (bs : List UInt8) : leNat bs < 256 ^ bs.length := by
  induction bs with
  | nil => exact Nat.one_pos
  | cons b bs ih =>
    have hb := b.toNat_lt
    rw [leNat] at ih
    rw [leNat, List.foldr_cons, List.length_cons, pow_succ]
    omega

/-- A field of eight bytes is a machine word. -/
theorem leNat_take_lt (bs : List UInt8) : leNat (bs.take 8) < word :=
  (leNat_lt _).trans_le (Nat.pow_le_pow_right (by decide) (List.length_take_le 8 bs))

/-! ### Loading a segment -/

/-- Bytes stored into a resident user page, as the table shows them. -/
theorem MemInv.view_write {v : ℕ} {k : Kernel} (h : MemInv H k) (hv : v < userTop)
    (hV : (k.leaf root v).has pteV = true) (off : ℕ) (bs : List UInt8) :
    (k.setMem (pte2pa (k.leaf root v)) ((k.mem (pte2pa (k.leaf root v))).write off bs)).view root =
      UMem.putPage (k.view root) v off bs := by
  funext u
  rw [h.view_setMem hv hV, View.set, UMem.putPage, Function.update_apply]
  by_cases hu : u = v
  · rw [if_pos ⟨rfl, hu⟩, if_pos hu, Kernel.view_of_valid hv hV]
    rfl
  · rw [if_neg (by simp [hu]), if_neg hu]

/-- What `readi` delivers if it delivers everything. -/
theorem readi_full {off n : ℕ} (hn : 0 < n) (h : (readi file off n).length = n) :
    readi file off n = (file.drop off).take n ∧ off + n ≤ file.length := by
  rw [readi] at h ⊢
  split_ifs at h ⊢ with hbad
  · rw [List.length_nil] at h
    omega
  · rw [List.length_take, List.length_drop] at h
    exact ⟨rfl, by omega⟩

/-- **The loop of `loadseg`**: if it ends with `true`, the rest of the segment is in memory. -/
theorem loadsegLoop_view {va offset sz n i : ℕ} (h : Inv H m) (hs : TopSys m.k root)
    (hfile : file.length < 2 ^ 32) (hva : va % pgsize = 0) (hi : i % pgsize = 0)
    (hw : va + sz + pgsize ≤ word) (hn : n = (sz - i + pgsize - 1) / pgsize)
    (hoff : n ≠ 0 → offset + i < 2 ^ 32) :
    wp (loadsegLoop root va file offset sz n i) (fun b m' => b = true →
      m'.k.view root =
        UMem.store (m.k.view root) (va + i) ((file.drop (offset + i)).take (sz - i))) Crash m := by
  induction n generalizing m i with
  | zero =>
    intro _
    have hz : sz - i = 0 := by
      simp only [pgsize] at hn
      omega
    rw [hz, List.take_zero, UMem.store_nil]
  | succ n ih =>
    have hpos : 0 < sz - i := by
      simp only [pgsize] at hn
      omega
    rw [loadsegLoop, Nat.mod_eq_of_lt (show va + i < word by omega),
      Nat.mod_eq_of_lt (hoff (by omega))]
    refine wp_seq (walkaddr_spec h) ?_
    rintro pa m₁ ⟨rfl, hcase⟩
    rw [wp_ite]
    refine ⟨fun _ => h.log, fun hne => ?_⟩
    obtain ⟨h0, -⟩ | ⟨-, hV, hU, rfl⟩ := hcase
    · exact absurd h0 hne
    have hlt : (va + i) / pgsize < userTop := by
      by_contra hge
      rw [(hs _ (Nat.le_of_not_lt hge)).2.1] at hU
      cases hU
    simp only [wp_bind, wp_modK, wp_ite]
    refine ⟨fun _ => (by intro hb; cases hb), fun hlen => ?_⟩
    rw [not_not] at hlen
    obtain ⟨hbs, hend⟩ := readi_full (by simp only [pgsize]; omega) hlen
    have hview := h.mem.view_write hlt hV 0 ((file.drop (offset + i)).take (min (sz - i) pgsize))
    rw [hbs]
    refine wp_mono (ih (h.setMem _ _) hs (by simp only [pgsize] at hi ⊢; omega)
      (by simp only [pgsize] at hn ⊢; omega) fun h0 => ?_) ?_ fun _ _ he => he
    · simp only [pgsize] at hn hend ⊢
      omega
    · intro b m₂ hres hb
      have hsrc : ((file.drop (offset + i)).take (sz - i)).length =
          min (sz - i) (file.length - (offset + i)) := by
        rw [List.length_take, List.length_drop]
      have hround : pgrounddown (va + i) = va + i := by
        rw [pgrounddown]
        simp only [pgsize] at hva hi ⊢
        omega
      have hchunk : chunk (va + i) ((file.drop (offset + i)).take (sz - i)).length =
          min (sz - i) pgsize := by
        rw [hsrc, chunk, hround]
        simp only [pgsize] at hend ⊢
        omega
      have hnext : nextPage (va + i) = va + (i + pgsize) := by
        rw [nextPage, hround]
        refine (Nat.mod_eq_of_lt ?_).trans (Nat.add_assoc _ _ _)
        omega
      have hstore := @UMem.store_putPage (m₁.k.view root) _ hlt
        ((file.drop (offset + i)).take (sz - i))
      rw [hchunk, hround, Nat.sub_self, hnext, List.take_take, Nat.min_right_comm, min_self,
        List.drop_take, List.drop_drop] at hstore
      rw [hres hb, ← hstore]
      refine congrArg₂ (UMem.store · _ ·) hview ?_
      rcases Nat.le_total (sz - i) pgsize with hle | hle
      · rw [min_eq_left hle, Nat.sub_self, Nat.sub_eq_zero_of_le (by omega), List.take_zero,
          List.take_zero]
      · rw [min_eq_right hle, Nat.sub_sub, Nat.add_assoc]

/-! ### The stages of `kexec` -/

/-- The image of the current process has the memory and the size of `P`. -/
def Loaded (m : Machine) (P : Program) : Prop :=
  ∃ im, m.k.image m.k.cur = some im ∧ im.sz = P.sz ∧ m.k.view im.pagetable = P.mem

theorem execHeader_loaded (h : Inv H m) :
    wp (execHeader file) (fun o m' => ∀ elf, o = some elf →
      elf = .decode (readi file 0 elfhdrSize) ∧ Loaded m' ⟨fun _ => none, 0⟩) Crash m := by
  simp only [execHeader, wp_ite]
  refine ⟨fun _ => (by rintro elf ⟨⟩), fun _ => ⟨fun _ => (by rintro elf ⟨⟩), fun _ => ?_⟩⟩
  rw [wp_bind, wp_myproc]
  refine wp_seq (procPagetable_spec h) ?_
  rintro root m₁ ⟨hroot, hn, -⟩
  rw [if_neg hroot, wp_bind, wp_setImage]
  rintro elf ⟨⟩
  refine ⟨rfl, ⟨root, 0⟩, (Kernel.setImage_image ..).trans (if_pos rfl), rfl, funext fun v => ?_⟩
  change m₁.k.view root v = none
  rw [hn.view, Kernel.view, Memory.lpage, Memory.leaf_of_none hn.fresh]
  exact ite_self none

/-- **The memory of a segment**: zero pages are added at the end. -/
theorem execGrow_loaded {ph : Proghdr} (h : Sys H m) (hP : Loaded m P) (hvaddr : ph.vaddr < word)
    (hmemsz : ph.memsz < word) :
    wp (execGrow ph) (fun b m' => b = true → ph.vaddr % pgsize = 0 ∧
      Loaded m' ⟨P.mem.grow P.sz (ph.vaddr + ph.memsz) (flags2perm ph.flags),
        max P.sz (ph.vaddr + ph.memsz)⟩) Crash m := by
  obtain ⟨im, him, hsz, hmem⟩ := hP
  simp only [execGrow, wp_ite]
  refine ⟨fun _ => (by rintro ⟨⟩), fun _ => ⟨fun _ => (by rintro ⟨⟩), fun hwrap =>
    ⟨fun _ => (by rintro ⟨⟩), fun halign => ?_⟩⟩⟩
  have htop : (ph.vaddr + ph.memsz) % word = ph.vaddr + ph.memsz := by
    simp only [word] at *
    omega
  rw [htop, wp_bind]
  refine wp_of_ok (run_getImage him) ?_
  have hfit := h.images _ im him
  refine wp_seq (uvmalloc_spec h.inv (Or.inr ⟨im, him, rfl⟩) (flags2perm_ok _) hfit.le
    (h.frame _ (h.image_table him)) fun v hge _ => hfit.none_of_le hge) fun sz1 m₁ hcase => ?_
  rw [wp_ite]
  refine ⟨fun _ => (by rintro ⟨⟩), fun _ => ?_⟩
  rw [wp_bind, wp_setImage]
  refine fun _ => ⟨not_not.mp halign, { im with sz := sz1 },
    (Kernel.setImage_image ..).trans (if_pos rfl), ?_, ?_⟩
  · rcases hcase with ⟨hlt, rfl, -⟩ | ⟨hle, rfl, -⟩ <;> simp only <;> omega
  · change m₁.k.view im.pagetable = _
    rw [← hmem, ← hsz]
    funext v
    rcases hcase with ⟨hlt, -, rfl⟩ | ⟨hle, -, -, hg⟩
    · refine (if_neg ?_).symm
      have := npages_mono hlt.le
      omega
    · rw [hg.eff.view, View.fill]
      refine if_congr ?_ rfl rfl
      rw [and_iff_right rfl]
      omega

/-- **Loading a segment.** -/
theorem loadseg_loaded {ph : Proghdr} (h : Sys H m) (him : m.k.image m.k.cur = some im)
    (hsz : im.sz = P.sz) (hmem : m.k.view im.pagetable = P.mem) (hfile : file.length < 2 ^ 32)
    (halign : ph.vaddr % pgsize = 0) (hle : ph.vaddr ≤ im.sz) :
    wp (loadseg im.pagetable ph.vaddr file ph.off ph.filesz) (fun b m' => b = true →
      Loaded m' ⟨P.mem.store ph.vaddr (ph.bytes file), P.sz⟩) Crash m := by
  have hmax := (h.images _ im him).le
  have hlt := Nat.mod_lt ph.filesz (show 2 ^ 32 > 0 by decide)
  have hval : trapframeVa + 2 ^ 32 + pgsize ≤ word := by decide
  refine wp_mono (wp_and (loadsegLoop_spec h.inv) (loadsegLoop_view h.inv (h.sys _) hfile halign
    (Nat.zero_mod _) (by omega) rfl fun _ => Nat.mod_lt _ (by decide))) ?_ fun _ _ he => he.1
  rintro b m₁ ⟨hs, hview⟩ hb
  refine ⟨im, by rw [hs.world]; exact him, hsz, ?_⟩
  rw [hview hb, hmem]
  rfl

/-- **The segments.** -/
theorem execSegments_loaded {n off : ℕ} (h : Sys H m) (hP : Loaded m P)
    (hfile : file.length < 2 ^ 32) :
    wp (execSegments file n off) (fun b m' => b = true →
      Loaded m' (P.load file (progHeaders file n off))) Crash m := by
  induction n generalizing m off P with
  | zero => exact fun _ => hP
  | succ n ih =>
    simp only [execSegments, wp_ite]
    refine ⟨fun _ => (by rintro ⟨⟩), fun _ => ⟨fun hskip => ?_, fun hload => ?_⟩⟩
    · rw [progHeaders, Program.load, List.filter_cons_of_neg (by simpa using hskip)]
      exact ih h hP
    rw [progHeaders, Program.load, List.filter_cons_of_pos (by simpa using hload),
      List.foldl_cons]
    generalize hph : Proghdr.decode (readi file off proghdrSize) = ph
    have hvaddr : ph.vaddr < word := hph ▸ leNat_take_lt _
    have hmemsz : ph.memsz < word := hph ▸ leNat_take_lt _
    refine wp_seq_and (execGrow_spec h) (execGrow_loaded h hP hvaddr hmemsz) ?_
    intro b m₁ h1 hgrow
    rw [wp_ite]
    refine ⟨fun _ => (by rintro ⟨⟩), fun hb => ?_⟩
    obtain ⟨halign, im, him, hsz, hmem⟩ := hgrow (by simpa using hb)
    rw [wp_bind]
    refine wp_of_ok (run_getImage him) ?_
    refine wp_seq_and (loadseg_spec h1.sys) (@loadseg_loaded _ _ _ _ ⟨_, _⟩ ph h1.sys him hsz hmem
      hfile halign (by rw [hsz]; exact (Nat.le_add_right _ _).trans (le_max_right _ _))) ?_
    intro b m₂ h2 hseg
    rw [wp_ite]
    exact ⟨fun _ => (by rintro ⟨⟩), fun hb => ih h2.sys (hseg (by simpa using hb))⟩

/-- Writing the arguments changes the stack page alone. -/
theorem Pushed.view {v sp u : ℕ} (hp : Pushed H im v sp m m') (h : Inv H m)
    (hstack : StackPage m.k im v) (hu : u ≠ v) :
    m'.k.view im.pagetable u = m.k.view im.pagetable u := by
  have hown : pte2pa (m.k.leaf im.pagetable v) ∈ m.k.own H (.leaf im.pagetable v) :=
    ⟨hstack.ready.lt, hstack.ready.valid, rfl⟩
  simp only [Kernel.view]
  split_ifs with hlt
  · refine Memory.lpage_congr (hp.leaf _ _) (fun hV => hp.other _ ?_) fun _ => hp.other _ ?_
    · exact h.mem.ne (o := .leaf im.pagetable u) ⟨hlt, hV, rfl⟩ hown (by simpa using hu)
    · exact ((h.mem.ram hown).ne_swap _).symm
  · rfl

/-- Process `p` has the memory of `P`, its stack above it, and starts at `entry`. -/
def Installed (p : ℕ) (P : Program) (entry : ℕ) (m : Machine) : Prop :=
  (m.k.proc p).sz = (npages P.sz + 2) * pgsize ∧ (m.k.proc p).tf.epc = entry ∧
    ∀ v < npages P.sz, m.k.view (m.k.proc p).pagetable v = P.mem v

theorem execBad_installed (h : Sys H m) {p entry : ℕ} :
    wp execBad (fun res m' => res ≠ -1 → Installed p P entry m') Crash m := by
  obtain ⟨m', hrun⟩ := execBad_run h
  exact wp_of_ok hrun fun hne => absurd rfl hne

/-- **The last stage** installs the image as it is. -/
theorem execFinish_installed {entry : ℕ} {path : List UInt8} {argv : List (List UInt8)}
    (h : Sys H m) (hP : Loaded m P) (hact : (m.k.proc m.k.cur).state.active = true)
    (hargs : ∀ s ∈ argv, s.length < pgsize) :
    wp (execFinish entry path argv) (fun res m' => res ≠ -1 → Installed m.k.cur P entry m')
      Crash m := by
  rw [execFinish]
  refine wp_seq (execStack_full h) ?_
  rintro b m₁ ⟨h1, hstack⟩
  rw [wp_ite]
  refine ⟨fun _ => execBad_installed h1.sys, fun hb => ?_⟩
  obtain ⟨im₀, im, him₀, him, hpage, hlow⟩ := hstack (by simpa using hb)
  obtain ⟨im₀', him₀', hsz₀, hmem₀⟩ := hP
  obtain rfl := Option.some.inj (him₀.symm.trans him₀')
  rw [← h1.cur] at him ⊢
  obtain ⟨m₂, hrun, hp, -⟩ := execArgs_run h1.sys.inv him hpage hargs
  have h2 := h1.sys.staged_stored hp.toStored
  rw [wp_bind]
  refine wp_of_ok hrun ?_
  split_ifs with hfit
  · obtain ⟨m₃, hrun3, hpt, hsz, -, -, hview, hepc⟩ := @execCommit_run _ _ im entry
      (arrayAddr im.sz argv) path h2.sys (by rw [hp.world]; exact him)
      (by rw [h2.cur, h2.state, h1.cur, h1.state]; exact hact)
    rw [h2.cur] at hpt hsz hepc
    rw [wp_bind]
    refine wp_of_ok hrun3 fun _ => ⟨?_, hepc, fun v hv => ?_⟩
    · rw [hsz, hpage.size, hsz₀]
      rfl
    · rw [← hsz₀] at hv
      rw [hpt, hview, hp.view h1.sys.inv hpage (by omega), hlow v hv, hmem₀]
  · exact execBad_installed h2.sys

end Load

/-- **The loader.** If `kexec` of a file by a process of a reachable state does not fail, the
process has below its stack the memory the file describes, permissions included, and starts at
the entry point. A file is shorter than `2 ^ 32` bytes since the size in an inode is a
`uint`. -/
theorem kexec_loads {m m' : Machine} {p : ℕ} {file path : List UInt8} {argv : List (List UInt8)}
    {res : ℤ} (h : Reach m) (hruns : (m.k.proc p).state.runs = true) (hnone : m.k.image p = none)
    (hargs : ∀ s ∈ argv, s.length < pgsize) (hfile : file.length < 2 ^ 32)
    (hrun : (kexec (some file) path argv).run (m.onCpu p) = .ok res m') (hres : res ≠ -1) :
    Installed p (program file) (Elfhdr.decode (readi file 0 elfhdrSize)).entry m' := by
  have hsys := h.sys.onCpu p
  refine wp_ok (Q := fun res m' => res ≠ -1 → Installed p (program file) _ m') (E := Crash) ?_
    hrun hres
  refine wp_seq_and (execHeader_spec hsys hruns hnone) (execHeader_loaded hsys.inv) ?_
  rintro o m₁ ⟨h1, -⟩ hload
  cases o with
  | none => exact execBad_installed h1.sys
  | some elf =>
    obtain ⟨rfl, hempty⟩ := hload elf rfl
    refine wp_seq_and (execSegments_spec h1.sys) (execSegments_loaded h1.sys hempty hfile) ?_
    intro b m₂ h2 hseg
    have h12 := h1.trans h2
    rw [wp_ite, show p = m₂.k.cur from h12.cur.symm]
    refine ⟨fun _ => execBad_installed h12.sys, fun hb => execFinish_installed h12.sys
      (hseg (by simpa using hb)) ?_ hargs⟩
    rw [h12.cur, h12.state]
    exact ProcState.active_of_runs hruns

theorem kexec_loads_sample :
    value? (kexec (some initElf) [] []) (forkRunning.onCpu 0) = some 0 ∧ initElf.length < 2 ^ 32 ∧
    Installed 0 (program initElf) (Elfhdr.decode (readi initElf 0 elfhdrSize)).entry
      (final (kexec (some initElf) [] []) (forkRunning.onCpu 0)) := by
  obtain ⟨hrun, hlen⟩ : value? (kexec (some initElf) [] []) (forkRunning.onCpu 0) = some 0 ∧
      initElf.length < 2 ^ 32 := by
    decide +kernel
  obtain ⟨-, ⟨-, hstate, himage, -⟩, -⟩ := fork_facts
  have hruns : (forkRunning.k.proc 0).state.runs = true := by
    rw [hstate]
    rfl
  exact ⟨hrun, hlen, kexec_loads reach_forkRunning hruns (Option.isNone_iff_eq_none.mp himage)
    (by simp) hlen (run_eq_of_value? hrun) (by decide)⟩

end Xv6
