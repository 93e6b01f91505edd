import Mathlib.Data.List.TakeWhile
import Xv6.Vm.Fault

/-!
# Copies to and from user memory

`Put` and `Get` say what `copyout` and `copyin` do to memory as the process sees it, page by
page. Both leave one thing open: a page without `PTE_U` may be refused or used, since
`walkaddr` refuses it while it is resident and `vmfault` brings it in while it is swapped
out. Where every page of the range has `PTE_U` they are functions.
-/

namespace Xv6

open StateLogic

/-! ### What the loops do to user memory -/

/-- Memory as a process sees it. -/
abbrev UMem := ℕ → Option LPage

/-- Store bytes into one page. -/
def UMem.putPage (u : UMem) (v off : ℕ) (bs : List UInt8) : UMem :=
  Function.update u v ((u v).map fun lp => { lp with bytes := lp.bytes.write off bs })

/-- The number of bytes a turn of a copy loop moves. -/
def chunk (va len : ℕ) : ℕ := min (pgsize - (va - pgrounddown va)) len

/-- Where the next turn starts. -/
def nextPage (va : ℕ) : ℕ := (pgrounddown va + pgsize) % word

/-- Storing `src` at `va` ends with status `st` and turns the memory into `u'`. -/
inductive Put : UMem → ℕ → List UInt8 → ℤ → UMem → Prop
  | done (u : UMem) (va : ℕ) : Put u va [] 0 u
  | refuse {u : UMem} {va : ℕ} {src : List UInt8} (hsrc : src ≠ [])
      (h : ∀ lp, u (va / pgsize) = some lp → lp.perm.u = false ∨ lp.perm.w = false) :
      Put u va src (-1) u
  | move {u u' : UMem} {va : ℕ} {src : List UInt8} {st : ℤ} {lp : LPage} (hsrc : src ≠ [])
      (h : u (va / pgsize) = some lp) (hw : lp.perm.w = true)
      (hrest : Put (u.putPage (va / pgsize) (va - pgrounddown va) (src.take (chunk va src.length)))
        (nextPage va) (src.drop (chunk va src.length)) st u') : Put u va src st u'

/-- Reading `len` bytes at `va` ends with status `st` and delivers `bs`. -/
inductive Get (u : UMem) : ℕ → ℕ → ℤ → List UInt8 → Prop
  | done (va : ℕ) : Get u va 0 0 []
  | refuse {va len : ℕ} (hlen : len ≠ 0)
      (h : ∀ lp, u (va / pgsize) = some lp → lp.perm.u = false) :
      Get u va len (-1) []
  | move {va len : ℕ} {st : ℤ} {bs : List UInt8} {lp : LPage} (hlen : len ≠ 0)
      (h : u (va / pgsize) = some lp)
      (hrest : Get u (nextPage va) (len - chunk va len) st bs) :
      Get u va len st (lp.bytes.read (va - pgrounddown va) (chunk va len) ++ bs)

/-! ### The space of the current process -/

/-- The current process has the table rooted at `root` and size `sz`, and its pages lie below
that size. -/
structure Space (k : Kernel) (root sz : ℕ) : Prop where
  table : (k.proc k.cur).pagetable = root
  size : (k.proc k.cur).sz = sz
  le : sz ≤ trapframeVa
  sys : TopSys k root
  bound : ∀ v, k.view root v ≠ none → v * pgsize < sz

section Space

variable {H : List ℕ} {m m' : Machine} {root sz va : ℕ}

theorem Served.space (h : Served H root sz m m') (hs : Space m.k root sz) :
    Space m'.k root sz := by
  refine ⟨by rw [h.world]; exact hs.table, by rw [h.world]; exact hs.size, hs.le,
    hs.sys.congr (h.top root), fun v hv => ?_⟩
  by_cases hold : m.k.view root v = none
  · exact h.lt_of_new hv hold
  · exact hs.bound v hold

theorem lt_userTop_of_mul_lt {v : ℕ} (h : v * pgsize < sz) (hle : sz ≤ trapframeVa) :
    v < userTop :=
  lt_of_lt_of_le (lt_npages_iff.mpr h) (npages_le_userTop hle)

/-- What the process sees lies in user memory. -/
theorem Space.lt_userTop {k : Kernel} (hs : Space k root sz) {v : ℕ} {lp : LPage}
    (h : k.umem root sz v = some lp) : v < userTop := by
  by_contra hge
  have hview : k.view root v = none := if_neg hge
  rw [Kernel.umem_of_none hview] at h
  split_ifs at h with hlt
  exact hge (lt_userTop_of_mul_lt hlt hs.le)

/-- What is swapped out lies below the size of the process. -/
theorem Space.not_swapped {k : Kernel} (hs : Space k root sz) {v : ℕ} (hge : sz ≤ v * pgsize) :
    (k.leaf root v).swapped = false := by
  rcases Nat.lt_or_ge v userTop with hlt | htop
  · rw [Bool.eq_false_iff]
    intro hsw
    refine absurd (hs.bound v ?_) (by omega)
    rw [Kernel.view, if_pos hlt, Memory.lpage_of_swapped hsw]
    simp
  · exact (hs.sys v htop).1

/-- **Specification of `walkaddr`.** -/
theorem walkaddr_spec (h : Inv H m) :
    wp (walkaddr root va) (fun pa m' => m' = m ∧
      ((pa = 0 ∧ (maxva ≤ va ∨ (m.k.leaf root (va / pgsize)).has pteV = false ∨
          (m.k.leaf root (va / pgsize)).has pteU = false)) ∨
        (va < maxva ∧ (m.k.leaf root (va / pgsize)).has pteV = true ∧
          (m.k.leaf root (va / pgsize)).has pteU = true ∧
          pte2pa (m.k.leaf root (va / pgsize)) = pa))) Crash m := by
  rw [walkaddr, wp_ite]
  refine ⟨fun hge => ⟨rfl, Or.inl ⟨rfl, Or.inl hge⟩⟩, fun hlt => ?_⟩
  refine wp_seq (walk_false_spec fun _ => h.log) ?_
  rintro o m₁ ⟨rfl, hmax, ⟨rfl, hleaf, -⟩ | ⟨rfl, -⟩⟩
  · rw [hleaf]
    exact ⟨rfl, Or.inl ⟨rfl, Or.inr (Or.inl (by decide))⟩⟩
  · simp only [wp_bind, wp_loadPte, wp_ite, Bool.not_eq_true']
    refine ⟨fun hV => ⟨rfl, Or.inl ⟨rfl, Or.inr (Or.inl hV)⟩⟩, fun hV =>
      ⟨fun hU => ⟨rfl, Or.inl ⟨rfl, Or.inr (Or.inr hU)⟩⟩, fun hU => ⟨rfl, Or.inr ?_⟩⟩⟩
    exact ⟨hmax, by simpa using hV, by simpa using hU, rfl⟩

theorem run_walkaddr {t : PageTable} (ht : m.k.pt root = some t) :
    (walkaddr root va).run m = .ok (if va < maxva ∧
      (m.k.leaf root (va / pgsize)).has pteV = true ∧
      (m.k.leaf root (va / pgsize)).has pteU = true then pte2pa (m.k.leaf root (va / pgsize))
      else 0) m := by
  rw [walkaddr]
  by_cases hmax : maxva ≤ va
  · rw [if_pos hmax, if_neg (by omega)]
    rfl
  · rw [if_neg hmax, walk, if_neg (by simp), run_bind_ok (run_walkNoalloc (by omega) ht)]
    by_cases hlow : (t.low (va / pgsize / 512)).isSome
    · rw [if_pos hlow]
      simp only [run_bind_ok (run_loadPte root (va / pgsize) m)]
      by_cases hV : (m.k.leaf root (va / pgsize)).has pteV = true <;>
        by_cases hU : (m.k.leaf root (va / pgsize)).has pteU = true <;>
        simp [hV, hU, Nat.lt_of_not_le hmax]
    · have hz : t.leaf (va / pgsize) = 0 := by
        by_contra hne
        exact hlow (t.low_of_leaf _ hne)
      rw [if_neg hlow, Memory.leaf_eq ht, hz, if_neg (by simp [Pte.has])]
      rfl

/-- The address handed to a copy loop is that of a page the process sees. -/
structure Mapped (k : Kernel) (root v pa : ℕ) : Prop where
  lt : v < userTop
  valid : (k.leaf root v).has pteV = true
  page : pte2pa (k.leaf root v) = pa

/-- **Where the copy loops get a page from.** It is refused only if the process does not see
it or it has no `PTE_U`, and not if it is swapped out. -/
theorem userPage_spec (h : Inv H m) (hs : Space m.k root sz) :
    wp (userPage root (pgrounddown va)) (fun pa m' => Served H root sz m m' ∧
      ((pa = 0 ∧ (m.k.leaf root (va / pgsize)).swapped = false ∧
          ∀ lp, m.k.umem root sz (va / pgsize) = some lp → lp.perm.u = false) ∨
        (pa ≠ 0 ∧ Mapped m'.k root (va / pgsize) pa ∧
          ((m.k.leaf root (va / pgsize)).has pteV = true →
            (m.k.leaf root (va / pgsize)).has pteU = true)))) Crash m := by
  have hdiv := pgrounddown_div va
  have hmul : va / pgsize * pgsize = pgrounddown va := rfl
  rw [userPage]
  refine wp_seq (walkaddr_spec h) ?_
  rintro pa m₁ ⟨rfl, hcase⟩
  rw [hdiv] at hcase
  rw [wp_ite]
  refine ⟨fun h0 => ?_, fun hne => ⟨Served.refl h, ?_⟩⟩
  · refine wp_mono (vmfault_spec h hs.table hs.size hs.le) ?_ fun _ _ he => he
    rintro pa' m₂ ⟨hserved, hres⟩
    rw [hdiv] at hres
    refine ⟨hserved, ?_⟩
    rcases hres with ⟨rfl, hwhy, -⟩ | ⟨hne, hlt, hno, hV, hpa⟩
    · refine Or.inl ⟨rfl, ?_, fun lp hlp => ?_⟩
      · rcases hwhy with hge | hV
        · exact hs.not_swapped (hge.trans_eq hmul.symm)
        · simp [Pte.swapped, hV]
      have hlt := hs.lt_userTop hlp
      rcases hwhy with hge | hV
      · have hview := Kernel.view_of_umem (by rw [hlp]; simp) (hge.trans_eq hmul.symm)
        exact absurd (hs.bound _ hview) (by omega)
      · rw [Kernel.umem_of_view (Kernel.view_of_valid hlt hV)] at hlp
        cases hlp
        rcases hcase with ⟨-, hmax | hno | hU⟩ | ⟨-, -, -, hpa⟩
        · have hpos : va / pgsize * pgsize < userTop * pgsize :=
            Nat.mul_lt_mul_of_pos_right hlt (by decide)
          have htop : userTop * pgsize ≤ maxva := by decide
          omega
        · rw [hV] at hno
          cases hno
        · exact hU
        · have hram := h.mem.ram (o := .leaf root (va / pgsize)) ⟨hlt, hV, hpa⟩
          exact absurd h0 hram.ne_zero
    · exact Or.inr ⟨hne, ⟨lt_userTop_of_mul_lt hlt hs.le, hV, hpa⟩, fun h0 => by
        rw [hno] at h0
        cases h0⟩
  · rcases hcase with ⟨h0, -⟩ | ⟨-, hV, hU, hpa⟩
    · exact absurd h0 hne
    · refine Or.inr ⟨hne, ⟨?_, hV, hpa⟩, fun _ => hU⟩
      by_contra hge
      rw [(hs.sys _ (Nat.le_of_not_lt hge)).2.1] at hU
      cases hU

/-- Storing into a resident user page changes that page of the view. -/
theorem MemInv.view_setMem {k : Kernel} {r v : ℕ} (h : MemInv H k) (hv : v < userTop)
    (hval : (k.leaf r v).has pteV = true) (pg : Page) :
    (k.setMem (pte2pa (k.leaf r v)) pg).view =
      View.set k.view r v (some ⟨pg, (k.leaf r v).perm⟩) := by
  have hown : pte2pa (k.leaf r v) ∈ k.own H (.leaf r v) := ⟨hv, hval, rfl⟩
  funext r' v'
  rw [View.set]
  split_ifs with hrv
  · obtain ⟨rfl, rfl⟩ := hrv
    rw [Kernel.view_of_valid hv (by rw [Kernel.setMem_leaf]; exact hval), Kernel.setMem_leaf,
      Kernel.setMem_mem, Function.update_self]
  · simp only [Kernel.view]
    split_ifs with hv'
    · refine Memory.lpage_congr (Kernel.setMem_leaf _ _ _ _ _) (fun hval' => ?_) fun _ => ?_
      · have hown' : pte2pa (k.leaf r' v') ∈ k.own H (.leaf r' v') := ⟨hv', hval', rfl⟩
        rw [Kernel.setMem_mem, Function.update_of_ne]
        refine h.ne hown' hown ?_
        simpa using hrv
      · rw [Kernel.setMem_mem, Function.update_of_ne ((h.ram hown).ne_swap _).symm]
    · rfl

/-! ### The loops -/

/-- The step from `m` to `m'` changed nothing but the bytes of pages of the table rooted at
`root` that its process sees. -/
structure Touched (H : List ℕ) (root : ℕ) (m m' : Machine) : Prop where
  inv : Inv H m'
  world : m'.k.toWorld = m.k.toWorld
  view : ∀ r, r ≠ root → ∀ v, m'.k.view r v = m.k.view r v
  top : ∀ r v, userTop ≤ v → m'.k.leaf r v = m.k.leaf r v
  roots : ∀ r, (m'.k.pt r).isSome = (m.k.pt r).isSome
  safe : ∀ r, Safe m.k r → ∀ v, m'.k.leaf r v = m.k.leaf r v

theorem Served.touched (h : Served H root sz m m') : Touched H root m m' :=
  ⟨h.inv, h.world, h.view, h.top, h.roots, h.safe⟩

theorem Touched.refl (h : Inv H m) : Touched H root m m :=
  (@Served.refl _ _ 0 _ h).touched

theorem Touched.trans {m₁ m₂ m₃ : Machine} (h : Touched H root m₁ m₂)
    (h' : Touched H root m₂ m₃) : Touched H root m₁ m₃ :=
  ⟨h'.inv, h'.world.trans h.world, fun r hr v => (h'.view r hr v).trans (h.view r hr v),
    fun r v hv => (h'.top r v hv).trans (h.top r v hv), fun r => (h'.roots r).trans (h.roots r),
    fun r hr v => (h'.safe r (hr.congr h.world) v).trans (h.safe r hr v)⟩

theorem Inv.transfer (h : Inv H m) (r a : ℕ) :
    Inv H ⟨m.k, .transfer r a m.k :: m.calls⟩ := by
  have hquiet : EvictQuiet (.transfer r a m.k :: m.calls) ↔ EvictQuiet m.calls := by
    simp [EvictQuiet]
  refine ⟨h.mem, ⟨fun pa k hk => h.log.kfree pa k (by simpa using hk), fun hq k hk => ?_⟩,
    fun hq => h.frames (hquiet.mp hq)⟩
  exact h.log.agree (hquiet.mp hq) k (by simpa using hk)

/-- Bytes are stored into a page the process sees. -/
theorem Mapped.store {v pa : ℕ} (hm : Mapped m.k root v pa) (h : Inv H m)
    (hs : Space m.k root sz) (a off : ℕ) (bs : List UInt8) :
    Touched H root m ⟨m.k.setMem pa ((m.k.mem pa).write off bs), .transfer root a m.k :: m.calls⟩ ∧
      Space (m.k.setMem pa ((m.k.mem pa).write off bs)) root sz ∧
      (m.k.setMem pa ((m.k.mem pa).write off bs)).umem root sz =
        UMem.putPage (m.k.umem root sz) v off bs := by
  obtain ⟨hlt, hval, rfl⟩ := hm
  have hview := h.mem.view_setMem hlt hval ((m.k.mem (pte2pa (m.k.leaf root v))).write off bs)
  have hold := Kernel.view_of_valid hlt hval
  refine ⟨⟨(h.transfer root a).setMem _ _, rfl, fun r hr u => ?_, fun _ _ _ => rfl, fun _ => rfl,
    fun _ _ _ => rfl⟩, ⟨hs.table, hs.size, hs.le, hs.sys, fun u hu => ?_⟩, ?_⟩
  · rw [hview, View.set, if_neg (by simp [hr])]
  · rw [hview, View.set] at hu
    split_ifs at hu with huv
    · rw [huv.2]
      exact hs.bound v (by rw [hold]; simp)
    · exact hs.bound u hu
  · funext u
    rw [UMem.putPage, Function.update_apply, Kernel.umem, hview, View.set]
    by_cases huv : u = v
    · rw [huv, if_pos ⟨rfl, rfl⟩, if_pos rfl, Kernel.umem_of_view hold]
      rfl
    · rw [if_neg (by simp [huv]), if_neg huv, Kernel.umem]

/-- A page the process sees, as it sees it. -/
theorem Mapped.umem {v pa : ℕ} (hm : Mapped m.k root v pa) :
    m.k.umem root sz v = some ⟨m.k.mem pa, (m.k.leaf root v).perm⟩ := by
  rw [Kernel.umem_of_view (Kernel.view_of_valid hm.lt hm.valid), hm.page]

theorem chunk_pos {len : ℕ} (hlen : len ≠ 0) : 0 < chunk va len := by
  have hoff : va - pgrounddown va < pgsize := by
    rw [pgrounddown, pgsize]
    omega
  rw [chunk]
  omega

/-- **The loop of `copyout`.** -/
theorem copyoutLoop_spec {fuel : ℕ} {src : List UInt8} (h : Inv H m) (hs : Space m.k root sz)
    (hfuel : src.length ≤ fuel) :
    wp (copyoutLoop root fuel va src) (fun st m' => Touched H root m m' ∧ Space m'.k root sz ∧
      Put (m.k.umem root sz) va src st (m'.k.umem root sz)) Crash m := by
  induction fuel generalizing m va src with
  | zero =>
    obtain rfl : src = [] := List.eq_nil_of_length_eq_zero (by omega)
    exact ⟨Touched.refl h, hs, .done _ _⟩
  | succ fuel ih =>
    have hdiv := pgrounddown_div va
    rw [copyoutLoop]
    simp only [wp_ite]
    refine ⟨fun hnil => ?_, fun hnil => ⟨fun hmax => ?_, fun _ => ?_⟩⟩
    · rw [List.isEmpty_iff] at hnil
      subst hnil
      exact ⟨Touched.refl h, hs, .done _ _⟩
    · refine ⟨Touched.refl h, hs, .refuse (by simpa using hnil) fun lp hlp => ?_⟩
      have hlt := hs.lt_userTop hlp
      have hpos : va / pgsize * pgsize < userTop * pgsize :=
        Nat.mul_lt_mul_of_pos_right hlt (by decide)
      have htop : userTop * pgsize ≤ maxva := by decide
      rw [pgrounddown] at hmax
      omega
    · rw [List.isEmpty_iff] at hnil
      refine wp_seq (userPage_spec h hs) ?_
      rintro pa m₁ ⟨hserved, ⟨rfl, -, href⟩ | ⟨hne, hmap, -⟩⟩
      · rw [wp_ite]
        refine ⟨fun _ => ⟨hserved.touched, hserved.space hs, ?_⟩, fun hne => absurd rfl hne⟩
        rw [show m₁.k.umem root sz = m.k.umem root sz from funext hserved.umem]
        exact .refuse hnil fun lp hlp => Or.inl (href lp hlp)
      · rw [wp_ite]
        refine ⟨fun h0 => absurd h0 hne, fun _ => ?_⟩
        have humem := @Mapped.umem m₁ root sz _ _ hmap
        rw [hserved.umem] at humem
        refine wp_seq (walk_false_spec fun _ => hserved.inv.log) ?_
        rintro o m₂ ⟨rfl, -, ⟨rfl, hleaf, -⟩ | ⟨rfl, -⟩⟩
        · exact hserved.inv.log
        · rw [hdiv]
          simp only [wp_bind, wp_loadPte, wp_ite, wp_record, wp_modK]
          refine ⟨fun hW => ⟨hserved.touched, hserved.space hs, ?_⟩, fun hW => ?_⟩
          · rw [show m₂.k.umem root sz = m.k.umem root sz from funext hserved.umem]
            refine .refuse hnil fun lp hlp => Or.inr ?_
            rw [humem] at hlp
            cases hlp
            simpa [Pte.perm] using hW
          · obtain ⟨htouch, hspace, hput⟩ := hmap.store hserved.inv (hserved.space hs)
              (pgrounddown va) (va - pgrounddown va) (src.take (chunk va src.length))
            have hpos : 0 < chunk va src.length := chunk_pos (by simpa using hnil)
            refine wp_mono (ih htouch.inv hspace (by rw [List.length_drop, ← chunk]; omega)) ?_
              fun _ _ he => he
            rintro st m₃ ⟨htouch', hspace', hput'⟩
            refine ⟨hserved.touched.trans (htouch.trans htouch'), hspace', ?_⟩
            refine .move hnil humem (by simpa [Pte.perm] using hW) ?_
            rw [← show m₂.k.umem root sz = m.k.umem root sz from funext hserved.umem, ← hput]
            exact hput'

/-- **Specification of `copyout`** to the current process. -/
theorem copyout_spec {src : List UInt8} (h : Inv H m) (hs : Space m.k root sz) :
    wp (copyout root va src) (fun st m' => Touched H root m m' ∧ Space m'.k root sz ∧
      Put (m.k.umem root sz) va src st (m'.k.umem root sz)) Crash m :=
  copyoutLoop_spec h hs le_rfl

/-- **The loop of `copyin`.** -/
theorem copyinLoop_spec {fuel len : ℕ} {acc : List UInt8} (h : Inv H m)
    (hs : Space m.k root sz) (hfuel : len ≤ fuel) :
    wp (copyinLoop root fuel va len acc) (fun res m' => Served H root sz m m' ∧
      ∃ bs, res.2 = acc ++ bs ∧ Get (m.k.umem root sz) va len res.1 bs) Crash m := by
  induction fuel generalizing m va len acc with
  | zero =>
    obtain rfl : len = 0 := by omega
    exact ⟨Served.refl h, [], (List.append_nil acc).symm, .done _⟩
  | succ fuel ih =>
    rw [copyinLoop, wp_ite]
    refine ⟨fun h0 => ?_, fun hlen => ?_⟩
    · subst h0
      exact ⟨Served.refl h, [], (List.append_nil acc).symm, .done _⟩
    · refine wp_seq (userPage_spec h hs) ?_
      rintro pa m₁ ⟨hserved, ⟨rfl, -, href⟩ | ⟨hne, hmap, -⟩⟩
      · rw [wp_ite]
        exact ⟨fun _ => ⟨hserved, [], (List.append_nil acc).symm, .refuse hlen href⟩,
          fun hne => absurd rfl hne⟩
      · rw [wp_ite]
        refine ⟨fun h0 => absurd h0 hne, fun _ => ?_⟩
        simp only [wp_bind, wp_record, wp_getK]
        have humem := @Mapped.umem m₁ root sz _ _ hmap
        rw [hserved.umem] at humem
        have hserved' : Served H root sz m ⟨m₁.k, .transfer root (pgrounddown va) m₁.k :: m₁.calls⟩ :=
          hserved.trans (.of_quiet (hserved.inv.transfer _ _) (Quiet.refl _))
        have hpos : 0 < chunk va len := chunk_pos hlen
        refine wp_mono (ih hserved'.inv (hserved'.space hs) (by rw [← chunk]; omega)) ?_
          fun _ _ he => he
        rintro res m₂ ⟨h2, bs, hbs, hget⟩
        refine ⟨hserved'.trans h2, _, hbs.trans (List.append_assoc _ _ _), ?_⟩
        rw [show m₁.k.umem root sz = m.k.umem root sz from funext hserved.umem] at hget
        exact .move hlen humem hget

/-- **Specification of `copyin`** from the current process. -/
theorem copyin_spec {len : ℕ} (h : Inv H m) (hs : Space m.k root sz) :
    wp (copyin root va len) (fun res m' => Served H root sz m m' ∧
      Get (m.k.umem root sz) va len res.1 res.2) Crash m := by
  refine wp_mono (copyinLoop_spec h hs le_rfl) ?_ fun _ _ he => he
  rintro res m' ⟨hserved, bs, hbs, hget⟩
  rw [hbs]
  exact ⟨hserved, hget⟩

/-- `copyinstr` changes nothing, and a string it finds ends in a NUL within `max` bytes. -/
theorem copyinstrLoop_spec {fuel max : ℕ} {acc : List UInt8} (h : Inv H m) :
    wp (copyinstrLoop root fuel va max acc) (fun res m' => m' = m ∧
      (res.1 < 0 ∨ res.2.dropLast.length < acc.length + max)) Crash m := by
  induction fuel generalizing m va max acc with
  | zero => exact ⟨rfl, Or.inl (show (-1 : ℤ) < 0 by decide)⟩
  | succ fuel ih =>
    simp only [copyinstrLoop, wp_ite]
    refine ⟨fun _ => ⟨rfl, Or.inl (show (-1 : ℤ) < 0 by decide)⟩, fun hmax => ?_⟩
    refine wp_seq (walkaddr_spec h) ?_
    rintro pa m ⟨rfl, -⟩
    rw [wp_ite]
    refine ⟨fun _ => ⟨rfl, Or.inl (show (-1 : ℤ) < 0 by decide)⟩, fun _ => ?_⟩
    rw [wp_bind, wp_getK, wp_ite]
    set bs := (m.k.mem pa).read (va - pgrounddown va) (min (pgsize - (va - pgrounddown va)) max)
      with hbs
    have hlen : bs.length ≤ max := by
      rw [hbs, Page.read, List.length_map, List.length_range]
      exact min_le_right _ _
    refine ⟨fun hnul => ⟨rfl, Or.inr ?_⟩, fun _ => ?_⟩
    · -- the NUL is one of the bytes read, so what precedes it is shorter
      have hlt : (bs.takeWhile (· != 0)).length < bs.length := by
        refine lt_of_le_of_ne ((List.takeWhile_sublist _).length_le) fun heq => ?_
        have hall := List.takeWhile_eq_self_iff.mp
          ((List.takeWhile_sublist (l := bs) (· != 0)).eq_of_length heq)
        have := hall 0 (by simpa using hnul)
        simp at this
      simp only [List.dropLast_concat, List.length_append]
      omega
    · refine wp_mono (ih h) ?_ fun _ _ he => he
      rintro res m₁ ⟨rfl, hres⟩
      refine ⟨rfl, hres.imp_right fun hlt => ?_⟩
      rw [List.length_append] at hlt
      have hle : bs.length = min (pgsize - (va - pgrounddown va)) max := by
        rw [hbs, Page.read, List.length_map, List.length_range]
      omega

end Space

/-! ### Copying an address space -/

section Uvmcopy

variable {H : List ℕ} {m : Machine} {old new np i a n sz mem src : ℕ} {e flags : Pte}

theorem Pte.perm_congr {e e' : Pte} (h : ∀ i, 1 ≤ i → i ≤ 4 → e'.getLsbD i = e.getLsbD i) :
    e'.perm = e.perm := by
  simp only [Pte.perm, Pte.has_pteR, Pte.has_pteW, Pte.has_pteX, Pte.has_pteU]
  rw [h 1 le_rfl (by decide), h 2 (by decide) (by decide), h 3 (by decide) (by decide),
    h 4 (by decide) le_rfl]

/-- The flags `uvmcopy` gives the copy of a resident page. -/
theorem pteFlags_ok (hS : e.has pteS = false) : FlagsOK (pteFlags e) ∧ (pteFlags e).perm = e.perm := by
  refine ⟨⟨pteFlags_ushiftRight e, ?_⟩, Pte.perm_congr fun i _ hi => ?_⟩
  · rw [Pte.has_pteS] at hS ⊢
    rw [getLsbD_pteFlags, hS]
    rfl
  · rw [getLsbD_pteFlags, decide_eq_true (by omega), Bool.and_true]

/-- The flags `uvmcopy` gives the copy of a swapped-out page. -/
theorem pteFlags_swapped_ok : FlagsOK ((pteFlags e &&& ~~~pteS) ||| pteV) ∧
    ((pteFlags e &&& ~~~pteS) ||| pteV).perm = e.perm := by
  have hbit : ∀ i, i ≠ 0 → i ≠ 8 → ((pteFlags e &&& ~~~pteS) ||| pteV).getLsbD i =
      (pteFlags e).getLsbD i := by
    intro i h0 h8
    rw [BitVec.getLsbD_or, pteS, getLsbD_clear _ i h8, pteV, BitVec.getLsbD_twoPow]
    simp [Ne.symm h0]
  refine ⟨⟨?_, ?_⟩, Pte.perm_congr fun i h1 hi => ?_⟩
  · rw [BitVec.ushiftRight_or_distrib, BitVec.ushiftRight_and_distrib, pteFlags_ushiftRight]
    decide
  · rw [Pte.has_pteS, BitVec.getLsbD_or, pteS, getLsbD_clear_self]
    decide
  · rw [hbit i (by omega) (by omega), getLsbD_pteFlags, decide_eq_true (by omega), Bool.and_true]

/-- The view with `n` pages of `new` from `a` on replaced by those of `old`. -/
def View.copy (w : View) (old new a n : ℕ) : View := fun r v =>
  if r = new ∧ a ≤ v ∧ v < a + n then w old v else w r v

theorem View.copy_zero (w : View) (old new a : ℕ) : w.copy old new a 0 = w := by
  funext r v
  rw [View.copy, if_neg (by omega)]

theorem View.copy_succ (w : View) {old new : ℕ} (hne : old ≠ new) (a n : ℕ) :
    (w.set new a (w old a)).copy old new (a + 1) n = w.copy old new a (n + 1) := by
  funext r v
  simp only [View.copy, View.set]
  by_cases hr : r = new
  · subst hr
    by_cases hv : v = a
    · subst hv
      rw [if_neg (by omega), if_pos ⟨rfl, rfl⟩, if_pos ⟨rfl, by omega, by omega⟩]
    · simp only [hne, hv, and_false, if_false, true_and]
      exact if_congr (by omega) rfl rfl
  · simp [hr]

/-- The step from `m` to `m'` gave pages `a, …, a + n - 1` of the table rooted at `new` the
contents those pages of `old` have. -/
structure Copied (H : List ℕ) (old new a n : ℕ) (m m' : Machine) : Prop where
  inv : Inv H m'
  eff : Eff m.k m'.k (View.copy m.k.view old new a n)
  safe : ∀ r, Safe m.k r → ∀ v, m'.k.leaf r v = m.k.leaf r v

/-- One page is copied: `src` is the frame or the slot it is in. -/
theorem copyPage_spec (h : Inv (mem :: H) m)
    (hnp : (m.k.proc np).pagetable = new ∧ (m.k.proc np).state ≠ .running)
    (hi : i < trapframeVa) (hnone : m.k.view new (i / pgsize) = none) (hf : FlagsOK flags) :
    wp (copyPage new np i mem src flags) (fun st m' => st = 0 ∧ Inv H m' ∧
      Eff m.k m'.k (View.set m.k.view new (i / pgsize) (some ⟨m.k.mem src, flags.perm⟩)) ∧
      ∀ r, Safe m.k r → ∀ v, m'.k.leaf r v = m.k.leaf r v) Crash m := by
  have hv : i / pgsize < userTop :=
    lt_userTop_of_mul_lt (lt_of_le_of_lt (Nat.div_mul_le_self i pgsize) hi) le_rfl
  have hram := (h.mem.fresh List.mem_cons_self).ram
  have hq := h.quiet_setMem List.mem_cons_self (m.k.mem src)
  rw [copyPage]
  simp only [wp_bind, wp_modK]
  refine wp_mono (mappages_spec (h.setMem mem (m.k.mem src)) hv (by rw [hq.view]; exact hnone)
    hf.1 hf.2) ?_ fun _ _ he => he
  rintro st m₁ ⟨rfl, halign, h1, heff, hleaf, hdet⟩
  simp only [ne_eq, not_true_eq_false, if_false, wp_bind, register, countResident, wp_modK]
  rw [hq.view, Kernel.setMem_mem, Function.update_self] at heff
  have hold : Holds m₁.k np new := Or.inl (by rw [heff.world]; exact hnp.1)
  have hpa : pte2pa (m₁.k.leaf new (i / pgsize)) = mem := by
    rw [hleaf]
    exact pte2pa_mappedPte hram.pageAddr hf.1
  have hreg := h1.register hold halign hi (by rw [hleaf]; exact mappedPte_valid _ _) hpa
  refine ⟨rfl, hreg.setStats _ _, (hq.eff.trans heff).trans ⟨rfl, ?_, fun _ _ _ => rfl,
    fun _ => rfl⟩, fun r hr v => ?_⟩
  · rw [← heff.view]
    exact view_congr (fun _ _ => rfl) (by simp)
  · have hne : ¬(r = new ∧ v = i / pgsize) := by
      rintro ⟨rfl, -⟩
      exact hr.ne (fun hrun => hnp.2 hrun.1) hnp.1
    rw [Kernel.setStats_leaf, Kernel.setFrame_leaf, hdet r hr v hne, Kernel.setMem_leaf]

/-- **The loop of `uvmcopy`.** -/
theorem uvmcopyLoop_spec (h : Inv H m) (hne : old ≠ new)
    (hnp : (m.k.proc np).pagetable = new ∧ (m.k.proc np).state ≠ .running)
    (ha : a % pgsize = 0) (hr : a / pgsize + n ≤ userTop)
    (hnone : ∀ v, a / pgsize ≤ v → v < userTop → m.k.view new v = none) :
    wp (uvmcopyLoop old new np n a) (fun st m' => st = 0 ∧ Copied H old new (a / pgsize) n m m')
      Crash m := by
  induction n generalizing m a with
  | zero =>
    exact ⟨rfl, h, by rw [View.copy_zero]; exact Eff.refl _, fun _ _ _ => rfl⟩
  | succ n ih =>
    have hdiv := add_pgsize_div a
    have hv : a / pgsize < userTop := by omega
    have hlt : a < trapframeVa := by
      have hmul : a = a / pgsize * pgsize := by rw [pgsize] at *; omega
      have htop : userTop * pgsize = trapframeVa := by decide
      rw [hmul, ← htop]
      exact Nat.mul_lt_mul_of_pos_right hv (by decide)
    -- once page `a / pgsize` has been copied, the loop copies the others
    have hrest : ∀ m₁, Inv H m₁ → Eff m.k m₁.k (View.set m.k.view new (a / pgsize)
          (m.k.view old (a / pgsize))) →
        (∀ r, Safe m.k r → ∀ v, m₁.k.leaf r v = m.k.leaf r v) →
        wp (uvmcopyLoop old new np n (a + pgsize)) (fun st m' => st = 0 ∧
          Copied H old new (a / pgsize) (n + 1) m m') Crash m₁ := by
      intro m₁ h1 heff hdet
      refine wp_mono (ih h1 (by rw [heff.world]; exact hnp) (add_pgsize_mod ha) (by omega)
        fun v hge hlt => ?_) ?_ fun _ _ he => he
      · rw [heff.view, View.set, if_neg (by omega)]
        exact hnone v (by omega) hlt
      · rintro st m₂ ⟨rfl, h2⟩
        have heff₂ := h2.eff
        rw [heff.view, hdiv, View.copy_succ _ hne] at heff₂
        refine ⟨rfl, h2.inv, heff.trans heff₂, fun r hr v => ?_⟩
        rw [h2.safe r (hr.congr heff.world), hdet r hr]
    have hnew := hnone (a / pgsize) le_rfl hv
    have hskip : m.k.view old (a / pgsize) = none →
        wp (uvmcopyLoop old new np n (a + pgsize)) (fun st m' => st = 0 ∧
          Copied H old new (a / pgsize) (n + 1) m m') Crash m := fun hold =>
      hrest m h (by rw [hold, View.set_self hnew]; exact Eff.refl _) fun _ _ _ => rfl
    -- what follows the allocation is the same for resident and swapped-out pages
    have hcopy : ∀ mem m₂ src flags, mem ≠ 0 → Inv (mem :: H) m₂ → Quiet m.k m₂.k →
        FlagsOK flags → m.k.view old (a / pgsize) = some ⟨m₂.k.mem src, flags.perm⟩ →
        wp (if mem = 0 then do
            uvmunmap new 0 (a / pgsize) true
            return -1
          else do
            let st ← copyPage new np a mem src flags
            if st ≠ 0 then do
              uvmunmap new 0 (a / pgsize) true
              return -1
            else uvmcopyLoop old new np n (a + pgsize)) (fun st m' => st = 0 ∧
          Copied H old new (a / pgsize) (n + 1) m m') Crash m₂ := by
      intro mem m₂ src flags hmem h2 hq hf hview
      rw [if_neg hmem]
      refine wp_seq (copyPage_spec h2 (by rw [hq.world]; exact hnp) hlt
        (by rw [hq.view]; exact hnew) hf) ?_
      rintro st m₃ ⟨rfl, h3, heff, hdet⟩
      rw [if_neg (by simp)]
      rw [hq.view, ← hview] at heff
      exact hrest m₃ h3 (hq.eff.trans heff) fun r hr v =>
        (hdet r (hr.congr hq.world) v).trans (hq.safe r hr v)
    rw [uvmcopyLoop]
    refine wp_seq (walk_false_spec fun _ => h.log) ?_
    rintro o m₁ ⟨rfl, -, ⟨rfl, hleaf, -⟩ | ⟨rfl, -⟩⟩
    · refine hskip ((Kernel.view_eq_none_iff hv).mpr ?_)
      rw [hleaf]
      decide
    · rw [wp_bind, wp_loadPte, wp_ite, wp_ite]
      refine ⟨fun hV => ?_, fun hV => ⟨fun hS => ?_, fun hS => ?_⟩⟩
      · have hS := h.mem.excl _ _ hV
        have hview := Kernel.view_of_valid hv hV
        obtain ⟨hf, hperm⟩ := pteFlags_ok hS
        refine wp_seq (allocOrEvict_spec h) ?_
        rintro mem m₂ ⟨hmem, h2, hgot⟩
        refine hcopy mem m₂ _ _ hmem h2 hgot.quiet hf ?_
        have hown : pte2pa (m₁.k.leaf old (a / pgsize)) ∈ m₁.k.own H (.leaf old (a / pgsize)) :=
          ⟨hv, hV, rfl⟩
        rw [hview, hperm, hgot.mem _ (h.mem.ram hown) (h.mem.not_free hown (by simp))]
      · rw [Bool.not_eq_true] at hV
        have hsw : (m₁.k.leaf old (a / pgsize)).swapped = true := by
          rw [Pte.swapped, hS, hV]
          rfl
        obtain ⟨hf, hperm⟩ := pteFlags_swapped_ok (e := m₁.k.leaf old (a / pgsize))
        refine wp_seq (allocOrEvict_spec h) ?_
        rintro mem m₂ ⟨hmem, h2, hgot⟩
        refine hcopy mem m₂ _ _ hmem h2 hgot.quiet hf ?_
        -- the slot is still this page's after an eviction
        have hkeep := hgot.quiet.keep old (a / pgsize) hV
        rw [← hgot.quiet.view, Kernel.view, if_pos hv, Memory.lpage_of_swapped (by rw [hkeep]; exact hsw),
          hkeep, hperm]
      · exact hskip ((Kernel.view_eq_none_iff hv).mpr ⟨by simpa using hV, by simpa using hS⟩)

/-- **Specification of `uvmcopy`** into an empty table. -/
theorem uvmcopy_spec (h : Inv H m) (hne : old ≠ new)
    (hnp : (m.k.proc np).pagetable = new ∧ (m.k.proc np).state ≠ .running)
    (hsz : sz ≤ trapframeVa) (hnone : ∀ v, m.k.view new v = none) :
    wp (uvmcopy old new sz np) (fun st m' => st = 0 ∧ Copied H old new 0 (npages sz) m m')
      Crash m := by
  have hle := npages_le_userTop hsz
  have h0 : 0 / pgsize = 0 := Nat.zero_div _
  have hloop := uvmcopyLoop_spec (n := npages sz) h hne hnp (Nat.zero_mod _) (by omega)
    fun v _ _ => hnone v
  rw [h0] at hloop
  exact hloop

end Uvmcopy

end Xv6
