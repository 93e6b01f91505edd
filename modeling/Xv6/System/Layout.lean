import Xv6.System.Spaces

/-!
# The arguments of a new image

`kexec` pushes the argument strings and the array of their addresses onto the one stack page
of the new image. The page is resident and writable from the moment it is allocated, for the
image is not installed yet and nothing can evict its pages, so each `copyout` returns 0
(`execArgs_run`), and whether the arguments fit is a matter of addresses alone (`ArgsFit`).
The guard page lies below the stack page: a stack pointer in the stack page is at least a page
above 0, and taking a string off it does not wrap around.
-/

namespace Xv6

open StateLogic

/-- The arguments lie in the stack page `pg`, whose address is `base`: the array at `sp` holds
the addresses `us` and a null pointer, and each of `us` is that of a NUL-terminated copy. -/
structure ArgLayout (pg : Page) (base : ℕ) (argv : List (List UInt8)) (us : List ℕ) (sp : ℕ) :
    Prop where
  length : us.length = argv.length
  aligned : sp % 16 = 0
  within : base ≤ sp ∧ sp + (argv.length + 1) * 8 ≤ base + pgsize
  array : pg.read (sp - base) ((argv.length + 1) * 8) = (us ++ [0]).flatMap (leBytes 8)
  inside : ∀ x ∈ argv.zip us, base ≤ x.2 ∧ x.2 + (x.1.length + 1) ≤ base + pgsize
  text : ∀ x ∈ argv.zip us, pg.read (x.2 - base) (x.1.length + 1) = x.1 ++ [0]
  -- each string lies below the one before it, and the array below all
  apart : (argv.zip us).Pairwise fun x y => y.2 + (y.1.length + 1) ≤ x.2
  below : ∀ a ∈ us, sp + (argv.length + 1) * 8 ≤ a

section Layout

variable {H : List ℕ} {m m' : Machine} {im : Image} {v : ℕ} {argv : List (List UInt8)}

/-- If the arguments fit, `execArgs` leaves them laid out. -/
theorem execArgs_layout (h : Inv H m) (him : m.k.image m.k.cur = some im)
    (hstack : StackPage m.k im v) (hargs : ∀ s ∈ argv, s.length < pgsize)
    (hfit : ArgsFit (v * pgsize) im.sz argv) :
    ∃ m', (execArgs argv).run m = .ok (some (arrayAddr im.sz argv)) m' ∧ Stored H m m' ∧
      ArgLayout (m'.k.stack im v) (v * pgsize) argv (argAddrs im.sz argv)
        (arrayAddr im.sz argv) := by
  obtain ⟨m', hrun, hp, hlay⟩ := execArgs_run h him hstack hargs
  rw [if_pos hfit] at hrun
  obtain ⟨htext, harray⟩ := hlay hfit
  have hpos : 0 < v * pgsize := Nat.mul_pos hstack.base (by decide)
  have hsize := hstack.size
  rw [userstack, Nat.add_mul, one_mul] at hsize
  obtain ⟨hpair, htop, hend, hle, -⟩ := argAddrs_apart hpos hfit.1.2
  have hdown : arrayAddr im.sz argv + (argv.length + 1) * 8 ≤ argEnd im.sz argv :=
    lower_add_le hpos hfit.2
  refine ⟨m', hrun, hp.toStored, length_argAddrs _ _, ?_, ⟨hfit.2, by omega⟩, harray,
    fun x hx => ⟨hfit.1.2 _ (List.of_mem_zip hx).2, hsize ▸ htop x hx⟩, htext, hpair,
    fun a ha => hdown.trans (hend a ha)⟩
  rw [arrayAddr, lower]
  exact Nat.mul_mod_left _ _

theorem run_getImage (him : m.k.image m.k.cur = some im) : getImage.run m = .ok im m := by
  rw [getImage, run_bind_ok (run_getK m), him]
  rfl

/-- Freeing what the locals of a `kexec` hold returns and leaves the other address spaces. -/
theorem freeImage_run (h : Sys H m) (him : m.k.image m.k.cur = some im) :
    ∃ m', freeImage.run m = .ok () m' ∧ m'.k.proc = m.k.proc ∧
      ∀ r, r ≠ im.pagetable → ∀ v, m'.k.view r v = m.k.view r v := by
  obtain ⟨m₁, hrun, hg⟩ := h.freepagetable_returns (h.image_table him) (h.images _ im him)
  refine ⟨⟨m₁.k.setImage m₁.k.cur none, m₁.calls⟩, ?_, ?_, fun r hr v => ?_⟩
  · rw [freeImage, run_bind_ok (run_getImage him), run_bind_ok hrun]
    rfl
  · change m₁.k.proc = _
    rw [hg.world]
  · exact (hg.view r v).trans (if_neg hr)

/-- The label `bad` is left with -1. -/
theorem execBad_run (h : Sys H m) : ∃ m', execBad.run m = .ok (-1) m' := by
  rw [execBad, run_bind_ok (run_getK m)]
  cases him : m.k.image m.k.cur with
  | none => exact ⟨m, rfl⟩
  | some im =>
    obtain ⟨m', hrun, -⟩ := freeImage_run h him
    refine ⟨m', ?_⟩
    simp only [Option.isSome_some, if_true]
    rw [run_bind_ok hrun]
    rfl

/-- Committing installs the image and returns. -/
theorem execCommit_run {entry sp : ℕ} {path : List UInt8} (h : Sys H m)
    (him : m.k.image m.k.cur = some im) (hact : (m.k.proc m.k.cur).state.active = true) :
    ∃ m', (execCommit entry path sp).run m = .ok () m' ∧
      (m'.k.proc m.k.cur).pagetable = im.pagetable ∧ (m'.k.proc m.k.cur).sz = im.sz ∧
      (m'.k.proc m.k.cur).tf.a1 = sp ∧ (m'.k.proc m.k.cur).tf.sp = sp ∧
      (∀ v, m'.k.view im.pagetable v = m.k.view im.pagetable v) ∧
      (m'.k.proc m.k.cur).tf.epc = entry := by
  let q : Proc := { m.k.proc m.k.cur with
    name := (basename path).take 15
    pagetable := im.pagetable
    sz := im.sz
    tf := { (m.k.proc m.k.cur).tf with a1 := sp, epc := entry, sp := sp } }
  have h1 := h.commit him hact (q := q) rfl rfl rfl rfl
  obtain ⟨m', hrun, hproc, hview⟩ := @freeImage_run _ _ ⟨_, _⟩ h1
    ((Kernel.setImage_image ..).trans (if_pos rfl))
  have hq : m'.k.proc m.k.cur = q := (congrFun hproc _).trans (Function.update_self _ _ _)
  refine ⟨m', ?_, by rw [hq], by rw [hq], by rw [hq], by rw [hq], fun v => ?_, by rw [hq]⟩
  · rw [execCommit, run_bind_ok (run_myproc m), run_bind_ok (run_getImage him),
      run_bind_ok (run_getK m)]
    exact hrun
  · exact hview _ (h.detached him _).symm v

/-- What a successful `kexec` of process `p` leaves. -/
def Laid (p : ℕ) (argv : List (List UInt8)) (res : ℤ) (m' : Machine) : Prop :=
  res = argv.length ∧ (m'.k.proc p).tf.a1 = (m'.k.proc p).tf.sp ∧
    ∃ v pg us, (m'.k.proc p).sz = (v + 1) * pgsize ∧
      m'.k.view (m'.k.proc p).pagetable v = some pg ∧
      ArgLayout pg.bytes (v * pgsize) argv us (m'.k.proc p).tf.sp

theorem execBad_laid (h : Sys H m) {p : ℕ} :
    wp execBad (fun res m' => res ≠ -1 → Laid p argv res m') Crash m := by
  obtain ⟨m', hrun⟩ := execBad_run h
  exact wp_of_ok hrun fun hne => absurd rfl hne

/-- **The last stage** lays out the arguments or fails. -/
theorem execFinish_laid {entry : ℕ} {path : List UInt8} (h : Sys H m)
    (hact : (m.k.proc m.k.cur).state.active = true) (hargs : ∀ s ∈ argv, s.length < pgsize) :
    wp (execFinish entry path argv) (fun res m' => res ≠ -1 → Laid m.k.cur argv res m')
      Crash m := by
  rw [execFinish]
  refine wp_seq (execStack_spec h) ?_
  rintro b m₁ ⟨h1, hstack⟩
  rw [wp_ite]
  refine ⟨fun _ => execBad_laid h1.sys, fun hb => ?_⟩
  obtain ⟨im, v, him, hpage⟩ := hstack (by simpa using hb)
  rw [← h1.cur] at him ⊢
  rw [wp_bind]
  by_cases hfit : ArgsFit (v * pgsize) im.sz argv
  · obtain ⟨m₂, hrun, hs, hlay⟩ := execArgs_layout h1.sys.inv him hpage hargs hfit
    have h2 := h1.sys.staged_stored hs
    refine wp_of_ok hrun ?_
    obtain ⟨m₃, hrun3, hpt, hsz, ha1, hsp, hview, -⟩ := @execCommit_run _ _ im entry
      (arrayAddr im.sz argv) path h2.sys (by rw [hs.world]; exact him)
      (by rw [h2.cur, h2.state, h1.cur, h1.state]; exact hact)
    rw [h2.cur] at hpt hsz ha1 hsp
    rw [wp_bind]
    refine wp_of_ok hrun3 fun _ => ⟨rfl, ha1.trans hsp.symm, v, ?_⟩
    rw [hpt, hsz, hsp, hview]
    have hready := hpage.ready.stored hs
    exact ⟨_, _, hpage.size, Kernel.view_of_valid hready.lt hready.valid, hlay⟩
  · obtain ⟨m₂, hrun, hp, -⟩ := execArgs_run h1.sys.inv him hpage hargs
    rw [if_neg hfit] at hrun
    exact wp_of_ok hrun (execBad_laid (h1.sys.stored hp.toStored))

theorem kexec_laid {ip : Option (List UInt8)} {path : List UInt8} (h : Sys H m)
    (hruns : (m.k.proc m.k.cur).state.runs = true) (hnone : m.k.image m.k.cur = none)
    (hargs : ∀ s ∈ argv, s.length < pgsize) :
    wp (kexec ip path argv) (fun res m' => res ≠ -1 → Laid m.k.cur argv res m') Crash m := by
  cases ip with
  | none => exact fun hne => absurd rfl hne
  | some file =>
    rw [kexec]
    refine wp_seq (execHeader_spec h hruns hnone) ?_
    rintro o m₁ ⟨h1, -⟩
    cases o with
    | none => exact execBad_laid h1.sys
    | some elf =>
      refine wp_seq (execSegments_spec h1.sys) fun b m₂ h2 => ?_
      have h12 := h1.trans h2
      rw [wp_ite, ← h12.cur]
      refine ⟨fun _ => execBad_laid h12.sys, fun _ => execFinish_laid h12.sys ?_ hargs⟩
      rw [h12.cur, h12.state]
      exact ProcState.active_of_runs hruns

end Layout

/-- **The argument layout.** If `kexec` of a process of a reachable state returns anything but
-1, it returns the number of arguments, and the new image has them laid out in its last page,
with `sp` and `a1` at the array. Whenever the stack page is in place the copying returns, without
a panic: it changes no other page, succeeds exactly if the arguments fit in the page, and
leads to -1 otherwise. -/
theorem kexec_layout {m : Machine} {p : ℕ} {ip : Option (List UInt8)} {path : List UInt8}
    {argv : List (List UInt8)} (h : Reach m) (hruns : (m.k.proc p).state.runs = true)
    (hnone : m.k.image p = none) (hargs : ∀ s ∈ argv, s.length < pgsize) :
    (∀ res m', (kexec ip path argv).run (m.onCpu p) = .ok res m' → res ≠ -1 →
      Laid p argv res m') ∧
    ∀ H m₀ m₁, Sys H m₀ → execStack.run m₀ = .ok true m₁ →
      ∃ im v m₂, m₁.k.image m₁.k.cur = some im ∧ 0 < v ∧ im.sz = (v + 1) * pgsize ∧
        (execArgs argv).run m₁ = .ok (if ArgsFit (v * pgsize) im.sz argv then
          some (arrayAddr im.sz argv) else none) m₂ ∧
        (∀ x, x ≠ pte2pa (m₁.k.leaf im.pagetable v) → m₂.k.mem x = m₁.k.mem x) ∧
        ∃ m₃, execBad.run m₂ = .ok (-1) m₃ := by
  refine ⟨fun res m' hrun => wp_ok (kexec_laid (h.sys.onCpu p) hruns hnone hargs) hrun,
    fun H m₀ m₁ h0 hstack => ?_⟩
  obtain ⟨h1, hpage⟩ := wp_ok (execStack_spec h0) hstack
  obtain ⟨im, v, him, hpage⟩ := hpage rfl
  rw [← h1.cur] at him
  obtain ⟨m₂, hrun, hp, -⟩ := execArgs_run h1.sys.inv him hpage hargs
  exact ⟨im, v, m₂, him, hpage.base, hpage.size, hrun, hp.other,
    execBad_run (h1.sys.stored hp.toStored)⟩

theorem kexec_layout_sample :
    value? (kexec (some initElf) [] [[104, 105], [97]]) (forkRunning.onCpu 0) = some 2 ∧
    Laid 0 [[104, 105], [97]] 2
      (final (kexec (some initElf) [] [[104, 105], [97]]) (forkRunning.onCpu 0)) := by
  have hrun : value? (kexec (some initElf) [] [[104, 105], [97]]) (forkRunning.onCpu 0) =
      some 2 := by decide +kernel
  obtain ⟨-, ⟨-, hstate, himage, -⟩, -⟩ := fork_facts
  refine ⟨hrun, (kexec_layout reach_forkRunning (by rw [hstate]; rfl)
    (Option.isNone_iff_eq_none.mp himage) ?_).1 2 _ (run_eq_of_value? hrun) (by decide)⟩
  simp [pgsize]

end Xv6
