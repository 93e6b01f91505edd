import Xv6.System.Layout
import Xv6.System.Transfers

/-!
# Pages without `PTE_U`

`walkaddr` refuses a resident page without `PTE_U`, and `vmfault`, which `copyin` and
`copyout` then ask for the page, refuses it because it is resident. A page that is swapped out
is brought in by `vmfault` whatever its permissions, and neither `copyin` nor `copyout` looks
at `PTE_U` again. So what a call moves bytes through carries `PTE_U` exactly if no turn of its
loop comes to a page that is swapped out and does not (`copy_user_iff`): the guard page of a
program's stack is refused as long as it is resident and served once it has been evicted
(`guard_served`).
-/

namespace Xv6

open StateLogic

/-- The page is swapped out and has no `PTE_U`. -/
def Exposed (k : Kernel) (root v : ℕ) : Prop :=
  (k.leaf root v).swapped = true ∧ (k.leaf root v).has pteU = false

/-- A turn of a copy loop: the page, the kernel when the turn starts and when it moves bytes. -/
structure Turn where
  page : ℕ
  start : Kernel
  move : Kernel

/-- From `m` to `m'` the `len` bytes at `va` are moved, in the given turns. What a turn stores
into the page is left open, so that the relation is one for `copyin` and `copyout`. -/
inductive Moves (root : ℕ) : ℕ → ℕ → Machine → List Turn → Machine → Prop
  | done (va : ℕ) (m : Machine) : Moves root va 0 m [] m
  | turn {va len pa off : ℕ} {bs : List UInt8} {m m₁ m' : Machine} {T : List Turn} (hlen : len ≠ 0)
      (hpage : (userPage root (pgrounddown va)).run m = .ok pa m₁) (hne : pa ≠ 0)
      (hrest : Moves root (nextPage va) (len - chunk va len)
        ⟨m₁.k.setMem pa ((m₁.k.mem pa).write off bs),
          .transfer root (pgrounddown va) m₁.k :: m₁.calls⟩ T m') :
      Moves root va len m (⟨va / pgsize, m.k, m₁.k⟩ :: T) m'

section Moves

variable {H : List ℕ} {m m' : Machine} {root sz va : ℕ}

/-- The turns of a `copyout` that returns 0. -/
theorem copyoutLoop_moves {fuel : ℕ} {src : List UInt8} (hfuel : src.length ≤ fuel)
    (hrun : (copyoutLoop root fuel va src).run m = .ok 0 m') :
    ∃ T, Moves root va src.length m T m' := by
  induction fuel generalizing m va src with
  | zero =>
    obtain rfl : src = [] := List.eq_nil_of_length_eq_zero (by omega)
    cases hrun
    exact ⟨_, .done _ _⟩
  | succ fuel ih =>
    rw [copyoutLoop] at hrun
    by_cases hnil : src = []
    · subst hnil
      cases hrun
      exact ⟨_, .done _ _⟩
    rw [if_neg (by simpa using hnil)] at hrun
    by_cases hmax : maxva ≤ pgrounddown va
    · rw [if_pos hmax] at hrun
      cases hrun
    rw [if_neg hmax] at hrun
    have hlen : src.length ≠ 0 := fun h0 => hnil (List.eq_nil_of_length_eq_zero h0)
    obtain ⟨pa, m₁, hpage, hrun⟩ := bind_eq_ok.mp hrun
    split_ifs at hrun with hne
    · cases hrun
    obtain ⟨o, m₂, hwalk, hrun⟩ := bind_eq_ok.mp hrun
    obtain ⟨rfl, -⟩ := wp_ok (walk_false_spec (E := fun _ _ => True) fun _ => trivial) hwalk
    cases o with
    | none => cases hrun
    | some v =>
      obtain ⟨e, m₃, hload, hrun⟩ := bind_eq_ok.mp hrun
      cases hload
      split_ifs at hrun with hW
      · cases hrun
      have hpos := @chunk_pos va _ hlen
      obtain ⟨T, hT⟩ := ih (by rw [List.length_drop, ← chunk]; omega) hrun
      rw [List.length_drop] at hT
      exact ⟨_, .turn hlen hpage hne hT⟩

theorem Page.write_nil (pg : Page) (off : ℕ) : pg.write off [] = pg := by
  funext i
  refine if_neg ?_
  rw [List.length_nil]
  omega

/-- The turns of a `copyin` that returns 0. -/
theorem copyinLoop_moves {fuel len : ℕ} {acc bs : List UInt8} (hfuel : len ≤ fuel)
    (hrun : (copyinLoop root fuel va len acc).run m = .ok (0, bs) m') :
    ∃ T, Moves root va len m T m' := by
  induction fuel generalizing m va len acc with
  | zero =>
    obtain rfl : len = 0 := by omega
    cases hrun
    exact ⟨_, .done _ _⟩
  | succ fuel ih =>
    rw [copyinLoop] at hrun
    split_ifs at hrun with hlen
    · subst hlen
      cases hrun
      exact ⟨_, .done _ _⟩
    obtain ⟨pa, m₁, hpage, hrun⟩ := bind_eq_ok.mp hrun
    split_ifs at hrun with hne
    · cases hrun
    have hpos := @chunk_pos va _ hlen
    obtain ⟨T, hT⟩ := ih (by rw [← chunk]; omega) hrun
    refine ⟨_, @Moves.turn _ _ _ _ 0 [] _ _ _ T hlen hpage hne ?_⟩
    rw [Page.write_nil, Kernel.setMem, Function.update_eq_self]
    exact hT

/-- **One turn.** The page it moves bytes through has `PTE_U` unless it was swapped out and
without it. -/
theorem userPage_user (h : Inv H m) (hs : Space m.k root sz) {pa : ℕ}
    (hrun : (userPage root (pgrounddown va)).run m = .ok pa m') (hne : pa ≠ 0) :
    (m'.k.leaf root (va / pgsize)).has pteU = true ↔ ¬Exposed m.k root (va / pgsize) := by
  obtain ⟨hserved, ⟨h0, -⟩ | ⟨-, hmap, hVU⟩⟩ := wp_ok (userPage_spec h hs) hrun
  · exact absurd h0 hne
  -- the permissions are those the process saw before
  have hperm : ∀ lp, m.k.umem root sz (va / pgsize) = some lp →
      (m'.k.leaf root (va / pgsize)).has pteU = lp.perm.u := by
    intro lp hlp
    rw [← hserved.umem, hmap.umem, Option.some.injEq] at hlp
    rw [← hlp]
    rfl
  rw [Exposed]
  by_cases hV : (m.k.leaf root (va / pgsize)).has pteV = true
  · rw [hperm _ (Kernel.umem_of_view (Kernel.view_of_valid hmap.lt hV))]
    simp [Pte.perm, hVU hV]
  by_cases hS : (m.k.leaf root (va / pgsize)).swapped = true
  · have hview : m.k.view root (va / pgsize) = _ :=
      (if_pos hmap.lt).trans (Memory.lpage_of_swapped hS)
    rw [hperm _ (Kernel.umem_of_view hview)]
    simp [Pte.perm, hS]
  · have hview : m.k.view root (va / pgsize) = none := by
      rw [Kernel.view_eq_none_iff hmap.lt]
      simpa [Pte.swapped, hV] using hS
    have hne : m.k.umem root sz (va / pgsize) ≠ none := by
      rw [← hserved.umem, hmap.umem]
      simp
    rw [Kernel.umem_of_none hview] at hperm hne
    rw [if_pos (by by_contra hge; exact hne (if_neg hge))] at hperm
    rw [hperm _ rfl]
    simp [hS, newPage, Pte.perm]
    decide

/-- **A page without `PTE_U`** is refused exactly if it is resident. -/
theorem userPage_refused (h : Inv H m) (hs : Space m.k root sz) {pa : ℕ}
    (hrun : (userPage root (pgrounddown va)).run m = .ok pa m')
    (hU : (m.k.leaf root (va / pgsize)).has pteU = false)
    (hVS : (m.k.leaf root (va / pgsize)).has pteV = true ∨
      (m.k.leaf root (va / pgsize)).swapped = true) :
    pa = 0 ↔ (m.k.leaf root (va / pgsize)).has pteV = true := by
  obtain ⟨-, ⟨rfl, hsw, -⟩ | ⟨hne, -, hVU⟩⟩ := wp_ok (userPage_spec h hs) hrun
  · refine iff_of_true rfl (hVS.resolve_right ?_)
    rw [hsw]
    simp
  · refine iff_of_false hne fun hV => ?_
    rw [hVU hV] at hU
    cases hU

/-- **A whole call.** -/
theorem Moves.user_iff {len : ℕ} {T : List Turn} (hm : Moves root va len m T m') (h : Inv H m)
    (hs : Space m.k root sz) : ∀ t ∈ T, (t.move.leaf root t.page).has pteU = true ↔
      ¬Exposed t.start root t.page := by
  induction hm with
  | done va m => simp
  | @turn va len pa off bs m m₁ m' T hlen hpage hne hrest ih =>
    obtain ⟨hserved, ⟨h0, -⟩ | ⟨-, hmap, -⟩⟩ := wp_ok (userPage_spec h hs) hpage
    · exact absurd h0 hne
    obtain ⟨htouch, hspace, -⟩ := hmap.store hserved.inv (hserved.space hs) (pgrounddown va) off bs
    rw [List.forall_mem_cons]
    exact ⟨userPage_user h hs hpage hne, ih htouch.inv hspace⟩

end Moves

/-- **Bytes move through pages with `PTE_U`** in a `copyin` or `copyout` that returns 0, by a
process of any reachable state, exactly if no turn of it comes to a page that is swapped out
and has no `PTE_U`. A page without `PTE_U` is refused if it is resident and served if it is
swapped out. -/
theorem copy_user_iff {m : Machine} (h : Reach m) {p va : ℕ} :
    (∀ src m', (copyout (m.k.proc p).pagetable va src).run (m.onCpu p) = .ok 0 m' →
      ∃ T, Moves (m.k.proc p).pagetable va src.length (m.onCpu p) T m') ∧
    (∀ len bs m', (copyin (m.k.proc p).pagetable va len).run (m.onCpu p) = .ok (0, bs) m' →
      ∃ T, Moves (m.k.proc p).pagetable va len (m.onCpu p) T m') ∧
    (∀ len T m', Moves (m.k.proc p).pagetable va len (m.onCpu p) T m' →
      ((∀ t ∈ T, (t.move.leaf (m.k.proc p).pagetable t.page).has pteU = true) ↔
        ∀ t ∈ T, ¬Exposed t.start (m.k.proc p).pagetable t.page)) ∧
    ∀ pa m', (userPage (m.k.proc p).pagetable (pgrounddown va)).run (m.onCpu p) = .ok pa m' →
      (m.k.leaf (m.k.proc p).pagetable (va / pgsize)).has pteU = false →
      ((m.k.leaf (m.k.proc p).pagetable (va / pgsize)).has pteV = true ∨
        (m.k.leaf (m.k.proc p).pagetable (va / pgsize)).swapped = true) →
      (pa = 0 ↔ (m.k.leaf (m.k.proc p).pagetable (va / pgsize)).has pteV = true) := by
  have hsys := h.sys.onCpu p
  have hspace : Space (m.onCpu p).k (m.k.proc p).pagetable (m.k.proc p).sz := hsys.space
  refine ⟨fun src m' hrun => copyoutLoop_moves le_rfl hrun,
    fun len bs m' hrun => copyinLoop_moves le_rfl hrun, fun len T m' hm => ?_,
    fun pa m' hrun => userPage_refused hsys.inv hspace hrun⟩
  exact forall₂_congr fun t ht => hm.user_iff hsys.inv hspace t ht

/-! ### The guard page of a stack

The first process has become a program with two pages, a guard page and a stack page; then two
pages are evicted, the stack page and the guard page. -/

def guardResident : Machine :=
  final (Act.kexec (some initElf) [] []).code (forkRunning.onCpu 0)

def guardStack : Machine := final Act.evictPage.code (guardResident.onCpu 0)

def guardEvicted : Machine := final Act.evictPage.code (guardStack.onCpu 0)

theorem guard_facts :
    (value? (Act.kexec (some initElf) [] []).code (forkRunning.onCpu 0) = some () ∧
      (guardResident.k.proc 0).state = .running ∧
      value? Act.evictPage.code (guardResident.onCpu 0) = some () ∧
      (guardStack.k.proc 0).state = .running ∧
      value? Act.evictPage.code (guardStack.onCpu 0) = some ()) ∧
    value? (copyin (guardResident.k.proc 0).pagetable 8192 1) (guardResident.onCpu 0) =
      some (-1, []) ∧
    value? (copyin (guardEvicted.k.proc 0).pagetable 8192 1) (guardEvicted.onCpu 0) =
      some (0, [0]) ∧
    ((final (copyin (guardEvicted.k.proc 0).pagetable 8192 1) (guardEvicted.onCpu 0)).k.leaf
      (guardEvicted.k.proc 0).pagetable 2).has pteU = false := by
  decide +kernel

theorem reach_guardResident : Reach guardResident := by
  obtain ⟨-, ⟨-, hstate, himage, hargs, -⟩, -⟩ := fork_facts
  exact reach_forkRunning.step (a := .kexec (some initElf) [] []) (p := 0)
    ⟨⟨⟨hstate, Option.isNone_iff_eq_none.mp himage, List.isEmpty_iff.mp hargs⟩, by simp⟩,
      run_eq_of_value? guard_facts.1.1⟩

theorem reach_guardEvicted : Reach guardEvicted := by
  obtain ⟨-, hstate, hevict, hstate', hevict'⟩ := guard_facts.1
  have h1 : Reach guardStack := reach_guardResident.step (a := .evictPage) (p := 0)
    ⟨hstate, run_eq_of_value? hevict⟩
  exact h1.step (a := .evictPage) (p := 0) ⟨hstate', run_eq_of_value? hevict'⟩

theorem copy_user_iff_guard : ∃ T m',
    Moves (guardEvicted.k.proc 0).pagetable 8192 1 (guardEvicted.onCpu 0) T m' ∧
    ((∀ t ∈ T, (t.move.leaf (guardEvicted.k.proc 0).pagetable t.page).has pteU = true) ↔
      ∀ t ∈ T, ¬Exposed t.start (guardEvicted.k.proc 0).pagetable t.page) := by
  obtain ⟨-, hin, hiff, -⟩ := @copy_user_iff _ reach_guardEvicted 0 8192
  obtain ⟨T, hT⟩ := hin 1 _ _ (run_eq_of_value? guard_facts.2.2.1)
  exact ⟨T, _, hT, hiff _ _ _ hT⟩

/-- The guard page is refused while it is resident. Once it is swapped out the same `copyin`
returns 0, having read the page, which has no `PTE_U`. -/
theorem guard_served : Reach guardResident ∧ Reach guardEvicted ∧
    (copyin (guardResident.k.proc 0).pagetable 8192 1).run (guardResident.onCpu 0) =
      .ok (-1, []) (final (copyin (guardResident.k.proc 0).pagetable 8192 1)
        (guardResident.onCpu 0)) ∧
    ∃ m', (copyin (guardEvicted.k.proc 0).pagetable 8192 1).run (guardEvicted.onCpu 0) =
        .ok (0, [0]) m' ∧
      (m'.k.leaf (guardEvicted.k.proc 0).pagetable 2).has pteU = false :=
  ⟨reach_guardResident, reach_guardEvicted, run_eq_of_value? guard_facts.2.1, _,
    run_eq_of_value? guard_facts.2.2.1, guard_facts.2.2.2⟩

end Xv6
