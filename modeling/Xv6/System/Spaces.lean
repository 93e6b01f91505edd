import Xv6.System.Safety

/-!
# Address spaces over whole runs

Two results about the life of an address space. When one is torn down, `proc_freepagetable`
returns and gives everything back: the pages of a space lie below its size, so `uvmfree` has
removed every leaf before `freewalk` looks for one, and what the table owned cannot belong to
anybody else afterwards. When one is copied by `kfork`, the child sees what the parent saw,
whatever was evicted meanwhile, and neither sees what the other writes later.
-/

namespace Xv6

open StateLogic Ownership

/-! ### A sample run

The first process grows by a page on a kernel with 16 pages left and can fork. -/

def forkUser : Machine := final Act.userinit.code (Machine.onCpu ⟨Kernel.booted 16, []⟩ 0)

def forkRunning : Machine := final (Act.sched .running false 0).code (forkUser.onCpu 0)

def forkParent : Machine := final (Act.sbrk 4096 true).code (forkRunning.onCpu 0)

theorem fork_facts :
    (value? Act.userinit.code (Machine.onCpu ⟨Kernel.booted 16, []⟩ 0) = some () ∧
      value? (Act.sched .running false 0).code (forkUser.onCpu 0) = some () ∧
      value? (Act.sbrk 4096 true).code (forkRunning.onCpu 0) = some ()) ∧
    ((forkUser.k.proc 0).state.runs = true ∧ (forkRunning.k.proc 0).state = .running ∧
      (forkRunning.k.image 0).isNone = true ∧ (forkRunning.k.args 0).isEmpty = true ∧
      (forkParent.k.proc 0).state.active = true) ∧
    value? kfork (forkParent.onCpu 0) = some 2 := by
  decide +kernel

theorem reach_forkRunning : Reach forkRunning := by
  obtain ⟨⟨huser, hsched, -⟩, ⟨hruns, -⟩, -⟩ := fork_facts
  have h1 : Reach forkUser := (Reach.boot (boot_booted (n := 16) (by decide))).step
    (a := .userinit) (p := 0) ⟨fun _ => rfl, run_eq_of_value? huser⟩
  exact h1.step (a := .sched .running false 0) (p := 0) ⟨⟨hruns, rfl⟩, run_eq_of_value? hsched⟩

theorem reach_forkParent : Reach forkParent := by
  obtain ⟨⟨-, -, hsbrk⟩, ⟨-, hstate, himage, hargs, -⟩, -⟩ := fork_facts
  exact reach_forkRunning.step (a := .sbrk 4096 true) (p := 0) ⟨⟨hstate,
    Option.isNone_iff_eq_none.mp himage, List.isEmpty_iff.mp hargs⟩, run_eq_of_value? hsbrk⟩

/-! ### Teardown -/

/-- The table an owner of a page belongs to. -/
def Owner.table : Owner → Option ℕ
  | .leaf r _ | .root r | .mid r _ | .low r _ => some r
  | _ => none

section Gone

variable {H : List ℕ} {m m' : Machine} {root : ℕ}

/-- Removing a table takes pages from no other owner. -/
theorem Gone.own (h : Gone H root m m') {o : Owner} (hfree : o ≠ .free)
    (ht : o.table ≠ some root) {x : ℕ} (hx : x ∈ m'.k.own H o) : x ∈ m.k.own H o := by
  cases o with
  | free => exact absurd rfl hfree
  | held => exact hx
  | leaf r v =>
    have hr : r ≠ root := fun heq => ht (congrArg some heq)
    simpa only [Kernel.own, h.leaf r hr] using hx
  | root r | mid r i | low r j =>
    have hr : r ≠ root := fun heq => ht (congrArg some heq)
    simpa only [Kernel.own, h.others r hr] using hx
  | trapframe p | pipe | arg p | kpgtbl i | kstack i | virtq i =>
    simpa only [Kernel.own, h.world] using hx

/-- What the table owned is free. -/
theorem Gone.freed (h : Gone H root m m') (hinv : Inv H m) {o : Owner}
    (ht : o.table = some root) {x : ℕ} (hx : x ∈ m.k.own H o) : x ∈ m'.k.freelist := by
  have hpage : x ∈ m'.k.pages := by
    rw [Kernel.pages, h.world]
    exact hinv.mem.own.sub o x hx
  obtain ⟨o', ho'⟩ := h.inv.mem.own.held x hpage
  by_cases hfree : o' = .free
  · subst hfree
    exact ho'
  by_cases ht' : o'.table = some root
  · -- a table that is gone owns nothing
    cases o' with
    | leaf r v =>
      cases ht'
      have hV := ho'.2.1
      rw [Memory.leaf_of_none h.gone] at hV
      exact absurd hV (by decide)
    | root r =>
      cases ht'
      have hsome := ho'.1
      rw [h.gone] at hsome
      cases hsome
    | mid r i | low r j =>
      cases ht'
      obtain ⟨t, hsome, -⟩ := ho'
      rw [h.gone] at hsome
      cases hsome
    | free | held | trapframe | pipe | arg | kpgtbl | kstack | virtq => cases ht'
  · obtain rfl := hinv.mem.own.uniq o o' x hx (h.own hfree ht' ho')
    exact absurd ht ht'

/-- The slots of the table are free. -/
theorem Gone.slot (h : Gone H root m m') (hinv : Inv H m) {v : ℕ}
    (hs : (m.k.leaf root v).swapped = true) :
    m'.k.swapMask (swapIndex (m.k.leaf root v)) = false := by
  have hown : swapIndex (m.k.leaf root v) ∈ m.k.slotOwn (root, v) := ⟨hs, rfl⟩
  by_contra hmask
  rw [Bool.not_eq_false] at hmask
  obtain ⟨⟨r, u⟩, hsw, hidx⟩ := h.inv.mem.slots.held _
    ⟨(hinv.mem.slots.sub _ _ hown).1, hmask⟩
  by_cases hr : r = root
  · rw [hr, Memory.leaf_of_none h.gone] at hsw
    exact absurd hsw (by decide)
  · rw [h.leaf r hr] at hsw hidx
    have heq := hinv.mem.slots.uniq (r, u) (root, v) _ ⟨hsw, hidx⟩ hown
    exact hr (congrArg Prod.fst heq)

end Gone

/-- A process or a `kexec` of it has the address space rooted at `root`, of size `sz`. -/
def Kernel.HasSpace (k : Kernel) (p root sz : ℕ) : Prop :=
  ((k.proc p).pagetable = root ∧ (k.proc p).sz = sz) ∨ k.image p = some ⟨root, sz⟩

/-- **Teardown is complete.** In every state a run reaches, the pages of every address space
lie below `PGROUNDUP(sz)`, and `sz` is at most `TRAPFRAME`. If its table exists,
`proc_freepagetable` returns, the table is gone, and every page and every slot it had is
free. -/
theorem teardown_complete {m : Machine} (h : Reach m) {p root sz : ℕ}
    (hsp : m.k.HasSpace p root sz) :
    (∀ v < userTop, ((m.k.leaf root v).has pteV = true ∨ (m.k.leaf root v).has pteS = true) →
      v * pgsize < pgroundup sz) ∧ sz ≤ trapframeVa ∧
    ((m.k.pt root).isSome → ∃ m', (procFreepagetable root sz).run m = .ok () m' ∧
      m'.k.pt root = none ∧
      (∀ o x, o.table = some root → x ∈ m.k.own m.k.held o → x ∈ m'.k.freelist) ∧
      ∀ v, (m.k.leaf root v).swapped = true →
        m'.k.swapMask (swapIndex (m.k.leaf root v)) = false) := by
  have hsys := h.sys
  have hfit : Fits m.k.view root sz := by
    rcases hsp with ⟨rfl, rfl⟩ | him
    · exact hsys.fits p
    · exact hsys.images p _ him
  refine ⟨fun v hv hVS => ?_, hfit.le, fun ht => ?_⟩
  · have hbound := hfit.bound v fun hnone => by
      obtain ⟨hV, hS⟩ := (Kernel.view_eq_none_iff hv).mp hnone
      rw [hV, hS] at hVS
      simp at hVS
    rw [pgroundup_eq hfit.le]
    exact Nat.mul_lt_mul_of_pos_right (lt_npages_iff.mpr hbound) (by decide)
  · obtain ⟨m', hrun, hg⟩ := hsys.freepagetable_returns ht hfit
    exact ⟨m', hrun, hg.gone, fun _ _ ho hx => hg.freed hsys.inv ho hx,
      fun _ => hg.slot hsys.inv⟩

theorem teardown_complete_sample :
    forkParent.k.HasSpace 0 (forkParent.k.proc 0).pagetable (forkParent.k.proc 0).sz ∧
    ∃ m', (procFreepagetable (forkParent.k.proc 0).pagetable (forkParent.k.proc 0).sz).run
      forkParent = .ok () m' ∧ m'.k.pt (forkParent.k.proc 0).pagetable = none := by
  have htable := reach_forkParent.sys.table fork_facts.2.1.2.2.2.2
  obtain ⟨m', hrun, hgone, -⟩ :=
    (teardown_complete reach_forkParent (Or.inl ⟨rfl, rfl⟩)).2.2 htable
  exact ⟨Or.inl ⟨rfl, rfl⟩, m', hrun, hgone⟩

/-! ### Fork -/

/-- **Fork copies memory exactly.** If `kfork` of a process of a reachable state returns a
pid, the process with that pid is a new child of the same size that sees at each page what
the parent saw at the call, permissions included; no other process's memory has changed, the
parent's included. A later store into a page of one is not seen by the other. -/
theorem kfork_exact {m m' : Machine} {p : ℕ} {pid : ℤ} (h : Reach m)
    (hp : (m.k.proc p).state.active = true) (hrun : kfork.run (m.onCpu p) = .ok pid m')
    (hpid : pid ≠ -1) :
    ∃ np, Forked (m.onCpu p) m' pid np ∧
      ∀ r r' v pg, (r = (m.k.proc p).pagetable ∧ r' = (m'.k.proc np).pagetable ∨
          r = (m'.k.proc np).pagetable ∧ r' = (m.k.proc p).pagetable) →
        v < userTop → (m'.k.leaf r v).has pteV = true → ∀ u,
        (m'.k.setMem (pte2pa (m'.k.leaf r v)) pg).view r' u = m'.k.view r' u := by
  obtain ⟨hdone, hres⟩ := wp_ok (kfork_spec (h.sys.onCpu p) hp) hrun
  obtain ⟨np, hf⟩ := hres.resolve_left hpid
  refine ⟨np, hf, fun r r' v pg hrr hv hV u => ?_⟩
  have hrne : r' ≠ r := by
    rcases hrr with ⟨rfl, rfl⟩ | ⟨rfl, rfl⟩
    · exact hf.fresh
    · exact hf.fresh.symm
  rw [hdone.sys.inv.mem.view_setMem hv hV, View.set, if_neg (by simp [hrne])]

theorem kfork_exact_sample : value? kfork (forkParent.onCpu 0) = some 2 ∧
    ∃ np, Forked (forkParent.onCpu 0) (final kfork (forkParent.onCpu 0)) 2 np := by
  obtain ⟨-, ⟨-, -, -, -, hact⟩, hfork⟩ := fork_facts
  obtain ⟨np, hf, -⟩ := kfork_exact reach_forkParent hact (run_eq_of_value? hfork) (by decide)
  exact ⟨hfork, np, hf⟩

end Xv6
