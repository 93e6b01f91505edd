import Xv6.System.Run

/-!
# What holds in every run

Consequences of the system invariant, for every state that a run from boot reaches by any
sequence of steps of any processes. Pages of memory and swap slots have exactly one owner each,
so none is shared, freed twice or lost, and user code reaches its own pages only. The frame
table agrees with the page tables at every eviction, as long as no eviction happens while a
`kexec` is building its image: the pages of an image are registered under the process before
its page table is installed, and an eviction looks them up in the old one.
-/

namespace Xv6

open StateLogic Ownership

/-! ### A sample run

The first process grows by a page, which is then evicted. -/

/-- After `userinit` on a kernel with 8 pages left. -/
def sampleUser : Machine := final Act.userinit.code (Machine.onCpu ⟨Kernel.booted 8, []⟩ 0)

/-- The process has been scheduled. -/
def sampleRunning : Machine := final (Act.sched .running false 0).code (sampleUser.onCpu 0)

/-- It has grown by a page. -/
def sampleGrown : Machine := final (Act.sbrk 4096 true).code (sampleRunning.onCpu 0)

/-- Its page has been evicted. -/
def sampleEvicted : Machine := final Act.evictPage.code (sampleGrown.onCpu 0)

/-- The four steps return and may be taken; the last one leaves the page in slot 0 and its frame
in the hands of the caller. -/
theorem sample_facts :
    (value? Act.userinit.code (Machine.onCpu ⟨Kernel.booted 8, []⟩ 0) = some () ∧
      value? (Act.sched .running false 0).code (sampleUser.onCpu 0) = some () ∧
      value? (Act.sbrk 4096 true).code (sampleRunning.onCpu 0) = some () ∧
      value? Act.evictPage.code (sampleGrown.onCpu 0) = some ()) ∧
    ((sampleUser.k.proc 0).state.runs = true ∧ (sampleRunning.k.proc 0).state = .running ∧
      (sampleRunning.k.image 0).isNone = true ∧ (sampleRunning.k.args 0).isEmpty = true ∧
      (sampleGrown.k.proc 0).state = .running ∧ sampleGrown.calls.isEmpty = true) ∧
    sampleEvicted.k.swapMask 0 = true ∧ kernbase + 393 * pgsize ∈ sampleEvicted.k.held := by
  decide +kernel

theorem sample_userinit : Act.userinit.code.run (Machine.onCpu ⟨Kernel.booted 8, []⟩ 0) =
    .ok () sampleUser := run_eq_of_value? sample_facts.1.1

theorem sample_sbrk : (Act.sbrk 4096 true).code.run (sampleRunning.onCpu 0) =
    .ok () sampleGrown := run_eq_of_value? sample_facts.1.2.2.1

theorem sample_evictPage : Act.evictPage.code.run (sampleGrown.onCpu 0) =
    .ok () sampleEvicted := run_eq_of_value? sample_facts.1.2.2.2

theorem reach_sampleUser : Reach sampleUser :=
  (Reach.boot (boot_booted (by decide))).step (a := .userinit) (p := 0)
    ⟨fun _ => rfl, sample_userinit⟩

theorem reach_sampleRunning : Reach sampleRunning :=
  reach_sampleUser.step (a := .sched .running false 0) (p := 0)
    ⟨⟨sample_facts.2.1.1, rfl⟩, run_eq_of_value? sample_facts.1.2.1⟩

theorem sampleRunning_ordinary : Ordinary sampleRunning.k 0 := by
  obtain ⟨-, hstate, himage, hargs, -⟩ := sample_facts.2.1
  exact ⟨hstate, Option.isNone_iff_eq_none.mp himage, List.isEmpty_iff.mp hargs⟩

theorem reach_sampleGrown : Reach sampleGrown :=
  reach_sampleRunning.step (a := .sbrk 4096 true) (p := 0) ⟨sampleRunning_ordinary, sample_sbrk⟩

theorem reach_sampleEvicted : Reach sampleEvicted :=
  reach_sampleGrown.step (a := .evictPage) (p := 0) ⟨sample_facts.2.1.2.2.2.2.1, sample_evictPage⟩

/-! ### Swap slots -/

/-- **Swap slots have one owner.** In every state a run reaches, a slot is allocated exactly
when one and only one leaf entry of the page tables that exist is swapped out to it. -/
theorem slot_owned_once {m : Machine} (h : Reach m) (i : ℕ) :
    (i < maxSp ∧ m.k.swapMask i = true) ↔ ∃! o : ℕ × ℕ, (m.k.pt o.1).isSome ∧
      (m.k.leaf o.1 o.2).has pteS = true ∧ (m.k.leaf o.1 o.2).has pteV = false ∧
      swapIndex (m.k.leaf o.1 o.2) = i := by
  have hslots := h.sys.inv.mem.slots
  have hiff : ∀ o : ℕ × ℕ, ((m.k.pt o.1).isSome ∧ (m.k.leaf o.1 o.2).has pteS = true ∧
      (m.k.leaf o.1 o.2).has pteV = false ∧ swapIndex (m.k.leaf o.1 o.2) = i) ↔
      i ∈ m.k.slotOwn o := by
    intro o
    have hmem : i ∈ m.k.slotOwn o ↔
        (m.k.leaf o.1 o.2).swapped = true ∧ swapIndex (m.k.leaf o.1 o.2) = i := Iff.rfl
    rw [hmem, Pte.swapped, Bool.and_eq_true, Bool.not_eq_true', and_assoc]
    refine and_iff_right_of_imp fun hs => ?_
    -- an entry that is not zero is in a table that exists
    obtain ⟨t, ht, -⟩ := @Memory.hasEntry_of_leaf m.k.toMemory o.1 o.2
      fun h0 => by
        rw [h0] at hs
        exact absurd hs.1 (by decide)
    rw [ht]
    rfl
  simp only [hiff]
  constructor
  · exact fun hi => hslots.existsUnique hi
  · rintro ⟨o, ho, -⟩
    exact hslots.sub o i ho

/-- In the sample run slot 0 is allocated to the page that was evicted. -/
theorem slot_owned_once_sample : sampleEvicted.k.swapMask 0 = true ∧
    ∃! o : ℕ × ℕ, (sampleEvicted.k.pt o.1).isSome ∧
      (sampleEvicted.k.leaf o.1 o.2).has pteS = true ∧
      (sampleEvicted.k.leaf o.1 o.2).has pteV = false ∧
      swapIndex (sampleEvicted.k.leaf o.1 o.2) = 0 := by
  have hmask := sample_facts.2.2.1
  exact ⟨hmask, (slot_owned_once reach_sampleEvicted 0).mp ⟨by decide, hmask⟩⟩

/-! ### Pages -/

/-- **Pages have one owner.** In every state a run reaches, each page of `[end, PHYSTOP)` has
exactly one owner, the free list having each of its pages once, and no two leaf entries below
`TRAPFRAME` name the same page. No `kfree` made so far, or made by a step that stops the
kernel, was applied to a free page. -/
theorem page_owned_once {m : Machine} (h : Reach m) :
    (∀ pa ∈ m.k.pages, ∃! o, pa ∈ m.k.own m.k.held o) ∧ m.k.freelist.Nodup ∧
    (∀ r v r' v', v < userTop → v' < userTop → (m.k.leaf r v).has pteV = true →
      (m.k.leaf r' v').has pteV = true → pte2pa (m.k.leaf r v) = pte2pa (m.k.leaf r' v') →
      r = r' ∧ v = v') ∧
    (∀ pa k, Call.kfree pa k ∈ m.calls → pa ∉ k.freelist) ∧
    ∀ a p e m', Stop a p e m m' → ∀ pa k, Call.kfree pa k ∈ m'.calls → pa ∉ k.freelist := by
  have hmem := h.sys.inv.mem
  refine ⟨fun pa hpa => hmem.own.existsUnique hpa, hmem.free_nodup,
    fun r v r' v' hv hv' hV hV' heq => ?_, h.sys.inv.log.kfree,
    fun a p e m' hs => (hs.log h.sys).kfree⟩
  have ho := hmem.own.uniq (.leaf r v) (.leaf r' v') _ ⟨hv, hV, rfl⟩ ⟨hv', hV', heq.symm⟩
  injection ho with hr hv
  exact ⟨hr, hv⟩

/-- In the sample run the frame of the evicted page is held by the kernel code that asked for
it. -/
theorem page_owned_once_sample : kernbase + 393 * pgsize ∈ sampleEvicted.k.own
      sampleEvicted.k.held .held ∧
    ∃! o, kernbase + 393 * pgsize ∈ sampleEvicted.k.own sampleEvicted.k.held o := by
  have hheld := sample_facts.2.2.2
  exact ⟨hheld, (page_owned_once reach_sampleEvicted).1 _
    (reach_sampleEvicted.sys.inv.mem.own.sub .held _ hheld)⟩

/-! ### User code -/

/-- The frame table agrees with the installed page tables: a used entry names a page of its
owner that is resident in the entry's own frame. -/
def Kernel.Agrees (k : Kernel) : Prop :=
  ∀ i, (k.frames i).isUsed = true → ∃ p, (k.frames i).p = some p ∧
    (k.leaf (k.proc p).pagetable ((k.frames i).va / pgsize)).has pteV = true ∧
    pte2pa (k.leaf (k.proc p).pagetable ((k.frames i).va / pgsize)) = kernbase + i * pgsize

theorem FrameTable.agrees {k : Kernel} (h : FrameTable k) (hno : NoExec k) : k.Agrees := by
  intro i hi
  obtain ⟨-, p, r, hp, hh, hV, hpa⟩ := h i hi
  rcases hh with rfl | ⟨im, him, -⟩
  · exact ⟨p, hp, hV, hpa⟩
  · rw [hno] at him
    cases him

/-- With a frame table that agrees, an eviction finds its victim where the table says. -/
theorem Kernel.Agrees.evictPage {k : Kernel} (h : k.Agrees) (calls : List Call) :
    (∀ m', evictPage.run ⟨k, calls⟩ ≠ .error .pteNotValid3 m') ∧
    ∀ pa m', evictPage.run ⟨k, calls⟩ = .ok pa m' →
      ∃ i, (selectVictim k).toEvict = some i ∧ pa = kernbase + i * pgsize := by
  refine ⟨fun m' hrun => ?_, fun pa m' hrun => ?_⟩
  · obtain ⟨-, ⟨-, he⟩ | ⟨i, -, hev, hpanic⟩⟩ := evictPage_error hrun
    · cases he
    · obtain ⟨p, hp, hV, -⟩ := h i hev.1
      cases hpanic with
      | pteNotValid3 ho hno =>
        rw [Kernel.scanned_p, hp, Option.some.injEq] at ho
        subst ho
        rw [Kernel.scanned_va, Kernel.scanned_leaf] at hno
        exact absurd (hno.symm.trans hV) (by simp)
  · obtain ⟨i, o, vp, idx, hsel, hev, hv, rfl, -⟩ := evictPage_ok hrun
    refine ⟨i, hsel, ?_⟩
    obtain ⟨p, hp, -, hpa⟩ := h i hev.1
    have ho := hv.owner
    rw [Kernel.scanned_p, hp, Option.some.injEq] at ho
    subst ho
    rw [← hv.page, Kernel.scanned_va]
    exact hpa

/-- **The frame table agrees at every eviction** of a run, finished or stopped, in which no
eviction is made while a `kexec` holds a page table that is not installed. The eviction then
does not stop with "pte not valid 3", and the page it returns is the frame it selected. The
table also agrees in each state reached in which no `kexec` is under way. -/
theorem frames_agree {m : Machine} (h : Runs m) (hq : EvictQuiet m.calls) :
    (Reach m → NoExec m.k → m.k.Agrees) ∧
    ∀ k, Call.evictPage k ∈ m.calls → k.Agrees ∧ ∀ calls,
      (∀ m', evictPage.run ⟨k, calls⟩ ≠ .error .pteNotValid3 m') ∧
      ∀ pa m', evictPage.run ⟨k, calls⟩ = .ok pa m' →
        ∃ i, (selectVictim k).toEvict = some i ∧ pa = kernbase + i * pgsize := by
  refine ⟨fun hr hno => (hr.sys.inv.frames hq).agrees hno, fun k hk => ?_⟩
  have hagree := (h.log.agree hq k hk).agrees (hq k hk)
  exact ⟨hagree, hagree.evictPage⟩

/-- The kernel state of the latest eviction. -/
def lastEvict : List Call → Option Kernel
  | [] => none
  | .evictPage k :: _ => some k
  | _ :: calls => lastEvict calls

theorem mem_of_lastEvict {calls : List Call} {k : Kernel} (h : lastEvict calls = some k) :
    Call.evictPage k ∈ calls := by
  fun_induction lastEvict calls with
  | case1 => cases h
  | case2 k' calls =>
    cases h
    exact List.mem_cons_self
  | case3 c calls _ ih => exact List.mem_cons_of_mem _ (ih h)

theorem hold_calls {pa : ℕ} {m m' : Machine} (h : (hold pa).run m = .ok () m') :
    m'.calls = m.calls := by
  rw [hold] at h
  split at h <;> cases h <;> rfl

theorem sampleGrown_noExec : NoExec sampleGrown.k := by
  have hsys := (Reach.boot (boot_booted (n := 8) (by decide))).sys.onCpu 0
  have huser := (wp_ok (userinit_spec hsys) sample_userinit).2
  have hactive : ((sampleRunning.onCpu 0).k.proc 0).state.active = true := by
    rw [show (sampleRunning.onCpu 0).k.proc = sampleRunning.k.proc from rfl,
      sampleRunning_ordinary.1]
    rfl
  have hgrow : wp (Act.sbrk 4096 true).code (fun _ m' => m'.k.image = sampleRunning.k.image) Crash
      (sampleRunning.onCpu 0) :=
    wp_seq (sysSbrk_spec (reach_sampleRunning.sys.onCpu 0) hactive)
      fun _ _ h1 => h1.2.image
  have hgrown := wp_ok hgrow sample_sbrk
  intro p
  rw [show sampleGrown.k.image = sampleRunning.k.image from hgrown,
    show sampleRunning.k.image = sampleUser.k.image from rfl, huser]
  rfl

/-- The sample run evicts while no `kexec` is under way. -/
theorem frames_agree_sample : EvictQuiet sampleEvicted.calls ∧
    Call.evictPage (sampleGrown.onCpu 0).k ∈ sampleEvicted.calls ∧
    (sampleGrown.onCpu 0).k.Agrees := by
  have hcalls : sampleEvicted.calls = [.evictPage (sampleGrown.onCpu 0).k] := by
    have hempty : sampleGrown.calls = [] := List.isEmpty_iff.mp sample_facts.2.1.2.2.2.2.2
    obtain ⟨pa, m₁, hevict, hhold⟩ := bind_eq_ok.mp sample_evictPage
    obtain ⟨i, o, vp, idx, -, -, -, -, rfl⟩ := evictPage_ok hevict
    rw [hold_calls hhold]
    exact congrArg (_ :: ·) hempty
  have hquiet : EvictQuiet sampleEvicted.calls := by
    intro k hk
    rw [hcalls, List.mem_singleton] at hk
    cases hk
    exact sampleGrown_noExec
  have hmem : Call.evictPage (sampleGrown.onCpu 0).k ∈ sampleEvicted.calls := by
    rw [hcalls]
    exact List.mem_cons_self
  exact ⟨hquiet, hmem, ((frames_agree (.inl reach_sampleEvicted) hquiet).2 _ hmem).1⟩

/-! #### An eviction during `kexec`

The first process runs a program of two pages on a kernel with 10 pages left: the image takes
the last free page for the first page of the program, and the eviction that should provide
the second looks up the first in the table that is still installed. -/

/-- An executable with one segment of two pages, all zero. -/
def initElf : List UInt8 :=
  leBytes 4 elfMagic ++ .replicate 20 0 ++ leBytes 8 0 ++ leBytes 8 64 ++ .replicate 16 0 ++
    leBytes 2 1 ++ .replicate 6 0 ++
  (leBytes 4 elfProgLoad ++ leBytes 4 7 ++ leBytes 8 0 ++ leBytes 8 0 ++ leBytes 8 0 ++
    leBytes 8 0 ++ leBytes 8 8192 ++ leBytes 8 0)

/-- After `userinit` on a kernel with 10 pages left. -/
def execUser : Machine := final Act.userinit.code (Machine.onCpu ⟨Kernel.booted 10, []⟩ 0)

/-- The process has been scheduled. -/
def execRunning : Machine := final (Act.sched .running false 0).code (execUser.onCpu 0)

/-- It has called `kexec`. -/
def execStopped : Machine := final (Act.kexec (some initElf) [] []).code (execRunning.onCpu 0)

/-- The first two steps return and `kexec` may be called; it panics at the eviction, for which
frame 390 is registered for process 0 at an address where its installed table has no page. -/
theorem exec_facts :
    (value? Act.userinit.code (Machine.onCpu ⟨Kernel.booted 10, []⟩ 0) = some () ∧
      (execUser.k.proc 0).state.runs = true ∧
      value? (Act.sched .running false 0).code (execUser.onCpu 0) = some ()) ∧
    ((execRunning.k.proc 0).state = .running ∧ (execRunning.k.image 0).isNone = true ∧
      (execRunning.k.args 0).isEmpty = true) ∧
    stop? (Act.kexec (some initElf) [] []).code (execRunning.onCpu 0) = some .pteNotValid3 ∧
    (lastEvict execStopped.calls).map (fun k => ((k.frames 390).isUsed, (k.frames 390).p,
      (k.leaf (k.proc 0).pagetable ((k.frames 390).va / pgsize)).has pteV)) =
      some (true, some 0, false) := by
  decide +kernel

theorem reach_execUser : Reach execUser :=
  (Reach.boot (boot_booted (n := 10) (by decide))).step (a := .userinit) (p := 0)
    ⟨fun _ => rfl, run_eq_of_value? exec_facts.1.1⟩

theorem reach_execRunning : Reach execRunning :=
  reach_execUser.step (a := .sched .running false 0) (p := 0)
    ⟨⟨exec_facts.1.2.1, rfl⟩, run_eq_of_value? exec_facts.1.2.2⟩

/-- The eviction in the middle of that `kexec` finds a frame-table entry for a page that its
owner's page table does not have, and stops the kernel. -/
theorem frames_disagree_in_kexec : Reach execRunning ∧
    Stop (.kexec (some initElf) [] []) 0 .pteNotValid3 execRunning execStopped ∧
    ∃ k, Call.evictPage k ∈ execStopped.calls ∧ ¬ k.Agrees := by
  obtain ⟨-, ⟨hstate, himage, hargs⟩, hstop, hbad⟩ := exec_facts
  refine ⟨reach_execRunning, ⟨⟨⟨hstate, Option.isNone_iff_eq_none.mp himage,
    List.isEmpty_iff.mp hargs⟩, nofun⟩, run_eq_of_stop? hstop⟩, ?_⟩
  obtain ⟨k, hk, hfacts⟩ := Option.map_eq_some_iff.mp hbad
  simp only [Prod.mk.injEq] at hfacts
  obtain ⟨hused, hp, hV⟩ := hfacts
  refine ⟨k, mem_of_lastEvict hk, fun hagree => ?_⟩
  obtain ⟨p, hp', hV', -⟩ := hagree 390 hused
  rw [hp, Option.some.injEq] at hp'
  subst hp'
  rw [hV] at hV'
  cases hV'

end Xv6
