import Mathlib.Data.Nat.Find
import Xv6.System.Safety

/-!
# Transfers between the kernel and user memory

`copyout` and `copyin` as operations on the memory a process sees, byte by byte. The loops
work page by page (`Put`, `Get`); over a range whose pages the process may use, the pieces
add up to one store (`UMem.store`) or one load (`UMem.load`), whatever was resident at the
start and whatever was evicted on the way. A range that leaves the memory of the process is
refused.
-/

namespace Xv6

open StateLogic

/-! ### Stores and loads -/

/-- The byte at address `a` once `src` is stored from address `va` on, `b` being the old one. -/
def stored (va : ℕ) (src : List UInt8) (a : ℕ) (b : UInt8) : UInt8 :=
  if va ≤ a ∧ a < va + src.length then src.getD (a - va) 0 else b

/-- Memory with `src` stored from address `va` on. -/
def UMem.store (u : UMem) (va : ℕ) (src : List UInt8) : UMem := fun v =>
  (u v).map fun lp => { lp with bytes := fun i => stored va src (v * pgsize + i) (lp.bytes i) }

/-- The byte at address `a`; a page the process does not see reads as zero. -/
def UMem.byte (u : UMem) (a : ℕ) : UInt8 :=
  match u (a / pgsize) with
  | some lp => lp.bytes ⟨a % pgsize, Nat.mod_lt a (by decide)⟩
  | none => 0

/-- The `n` bytes from address `va` on. -/
def UMem.load (u : UMem) (va n : ℕ) : List UInt8 := (List.range n).map fun j => u.byte (va + j)

/-- The process sees every page of the `n` bytes from `va` on, with permissions `P`. -/
def UMem.Seen (u : UMem) (va n : ℕ) (P : Perm → Prop) : Prop :=
  ∀ a, va ≤ a → a < va + n → ∃ lp, u (a / pgsize) = some lp ∧ P lp.perm

/-- User memory ends below the trapframe. -/
def UMem.Low (u : UMem) : Prop := ∀ v, u v ≠ none → v < userTop

section Pieces

variable {u u' : UMem} {va : ℕ} {st : ℤ}

theorem UMem.putPage_eq_none (v off : ℕ) (bs : List UInt8) (x : ℕ) :
    u.putPage v off bs x = none ↔ u x = none := by
  rw [UMem.putPage, Function.update_apply]
  split_ifs with h
  · rw [h, Option.map_eq_none_iff]
  · exact Iff.rfl

theorem UMem.Low.putPage (h : u.Low) (v off : ℕ) (bs : List UInt8) : (u.putPage v off bs).Low :=
  fun x hx => h x fun hnone => hx ((UMem.putPage_eq_none v off bs x).mpr hnone)

theorem UMem.putPage_of_ne {v x : ℕ} (h : x ≠ v) (off : ℕ) (bs : List UInt8) :
    u.putPage v off bs x = u x :=
  Function.update_of_ne h _ _

/-- User addresses do not wrap. -/
theorem nextPage_eq (h : va / pgsize < userTop) : nextPage va = (va / pgsize + 1) * pgsize := by
  have hlt : (va / pgsize + 1) * pgsize ≤ userTop * pgsize := Nat.mul_le_mul_right _ h
  have htop : userTop * pgsize < word := by decide
  rw [nextPage, pgrounddown, ← Nat.succ_mul, Nat.mod_eq_of_lt (hlt.trans_lt htop)]

/-- The bytes a turn of a loop leaves start where it stops, if there are any. -/
theorem nextPage_range {n a : ℕ} (h : va / pgsize < userTop) :
    (nextPage va ≤ a ∧ a < nextPage va + (n - chunk va n)) ↔
      (va ≤ a ∧ a < va + n ∧ a / pgsize ≠ va / pgsize) := by
  rw [nextPage_eq h, chunk, pgrounddown]
  simp only [pgsize]
  omega

theorem UMem.Seen.next {n : ℕ} {P : Perm → Prop} (hs : u.Seen va n P) (h : va / pgsize < userTop)
    (off : ℕ) (bs : List UInt8) :
    (u.putPage (va / pgsize) off bs).Seen (nextPage va) (n - chunk va n) P := by
  intro a hge hlt
  obtain ⟨hge', hlt', hne⟩ := (nextPage_range h).mp ⟨hge, hlt⟩
  rw [UMem.putPage_of_ne hne]
  exact hs a hge' hlt'

theorem UMem.store_nil : u.store va [] = u := by
  funext v
  rw [UMem.store]
  refine (Option.map_congr fun lp _ => ?_).trans (congrFun Option.map_id (u v))
  exact congrArg (LPage.mk · lp.perm) (funext fun i => if_neg (by simp))

/-- Storing what is left after a page completes the store. -/
theorem UMem.store_putPage (h : va / pgsize < userTop) (src : List UInt8) :
    (u.putPage (va / pgsize) (va - pgrounddown va) (src.take (chunk va src.length))).store
      (nextPage va) (src.drop (chunk va src.length)) = u.store va src := by
  funext v
  by_cases hv : v = va / pgsize
  · subst hv
    rw [UMem.store, UMem.store, UMem.putPage, Function.update_self, Option.map_map]
    refine Option.map_congr fun lp _ => congrArg (LPage.mk · lp.perm) (funext fun i => ?_)
    have hi := i.2
    have hnext : ¬ nextPage va ≤ va / pgsize * pgsize + i := by
      rw [nextPage_eq h, Nat.succ_mul]
      omega
    have hpage : stored (nextPage va) (src.drop (chunk va src.length)) (va / pgsize * pgsize + i)
        (lp.bytes.write (va - pgrounddown va) (src.take (chunk va src.length)) i) =
        lp.bytes.write (va - pgrounddown va) (src.take (chunk va src.length)) i :=
      if_neg fun hin => hnext hin.1
    refine hpage.trans ?_
    rw [Page.write, stored]
    refine if_ctx_congr ?_ (fun hin => ?_) fun _ => rfl
    · rw [List.length_take, chunk, pgrounddown]
      simp only [pgsize] at hi ⊢
      omega
    · have hidx : i.val - (va - pgrounddown va) = va / pgsize * pgsize + i - va := by
        rw [pgrounddown]
        simp only [pgsize]
        omega
      rw [List.getD_eq_getElem?_getD, List.getD_eq_getElem?_getD, List.getElem?_take, if_pos, hidx]
      rw [chunk, pgrounddown]
      simp only [pgsize] at hi hin ⊢
      omega
  · rw [UMem.store, UMem.store, UMem.putPage_of_ne hv]
    refine Option.map_congr fun lp _ => congrArg (LPage.mk · lp.perm) (funext fun i => ?_)
    have hi := i.2
    have hdiv : (v * pgsize + i) / pgsize = v := by
      simp only [pgsize] at hi ⊢
      omega
    refine if_ctx_congr ?_ (fun hin => ?_) fun _ => rfl
    · rw [List.length_drop, nextPage_range h, hdiv]
      tauto
    · have hidx : chunk va src.length + (v * pgsize + i - nextPage va) = v * pgsize + i - va := by
        rw [nextPage_eq h, chunk, pgrounddown]
        simp only [pgsize] at hi hv hin ⊢
        omega
      rw [List.getD_eq_getElem?_getD, List.getD_eq_getElem?_getD, List.getElem?_drop, hidx]

/-- **Over a range the process may write, the pieces make one store.** -/
theorem Put.store {src : List UInt8} (h : Put u va src st u') (hlow : u.Low)
    (hs : u.Seen va src.length fun p => p.u = true ∧ p.w = true) :
    st = 0 ∧ u' = u.store va src := by
  induction h with
  | done u va => exact ⟨rfl, UMem.store_nil.symm⟩
  | @refuse u va src hsrc hno =>
    obtain ⟨lp, hlp, hu, hw⟩ := hs va le_rfl (Nat.lt_add_of_pos_right (List.length_pos_iff.mpr hsrc))
    rcases hno lp hlp with h | h
    · rw [hu] at h
      cases h
    · rw [hw] at h
      cases h
  | @move u u' va src st lp hsrc hlp hw hrest ih =>
    have htop := hlow (va / pgsize) (by rw [hlp]; simp)
    obtain ⟨rfl, rfl⟩ := ih (hlow.putPage _ _ _) (by rw [List.length_drop]; exact hs.next htop _ _)
    exact ⟨rfl, UMem.store_putPage htop src⟩

/-- A store that reaches a page the process does not see is refused. -/
theorem Put.refused {src : List UInt8} {a : ℕ} (h : Put u va src st u') (hlow : u.Low)
    (hge : va ≤ a) (hlt : a < va + src.length) (hnone : u (a / pgsize) = none) : st = -1 := by
  induction h with
  | done u va => exact absurd hlt (by simpa using hge)
  | refuse => rfl
  | @move u u' va src st lp hsrc hlp hw hrest ih =>
    have htop := hlow (va / pgsize) (by rw [hlp]; simp)
    have hne : a / pgsize ≠ va / pgsize := by
      intro heq
      rw [heq, hlp] at hnone
      cases hnone
    obtain ⟨hge', hlt'⟩ := (nextPage_range htop).mpr ⟨hge, hlt, hne⟩
    exact ih (hlow.putPage _ _ _) hge' (by rw [List.length_drop]; exact hlt')
      ((UMem.putPage_eq_none _ _ _ _).mpr hnone)

theorem UMem.load_add (i j : ℕ) : u.load va (i + j) = u.load va i ++ u.load (va + i) j := by
  simp only [UMem.load, List.range_add, List.map_append, List.map_map]
  exact congrArg _ (List.map_congr_left fun _ _ => by rw [Function.comp_apply, Nat.add_assoc])

/-- What a turn reads from its page. -/
theorem UMem.read_chunk {lp : LPage} (hlp : u (va / pgsize) = some lp) (n : ℕ) :
    lp.bytes.read (va - pgrounddown va) (chunk va n) = u.load va (chunk va n) := by
  rw [Page.read, UMem.load]
  refine List.map_congr_left fun j hj => ?_
  rw [List.mem_range, chunk, pgrounddown] at hj
  have hdiv : (va + j) / pgsize = va / pgsize := by
    simp only [pgsize] at hj ⊢
    omega
  have hoff : va - pgrounddown va + j = (va + j) % pgsize := by
    rw [pgrounddown]
    simp only [pgsize] at hj ⊢
    omega
  have hlt : (va + j) % pgsize < pgsize := Nat.mod_lt _ (by decide)
  rw [UMem.byte, hdiv, hlp]
  simp only [hoff, hlt, dif_pos]

/-- If bytes are left, the turn ended at the end of its page. -/
theorem nextPage_eq_add {n : ℕ} (h : va / pgsize < userTop) (hlt : chunk va n < n) :
    nextPage va = va + chunk va n := by
  rw [nextPage_eq h]
  rw [chunk, pgrounddown] at hlt ⊢
  simp only [pgsize] at hlt ⊢
  omega

/-- Loading a page and then what is left is one load. -/
theorem UMem.load_next {n : ℕ} {lp : LPage} (hlp : u (va / pgsize) = some lp)
    (h : va / pgsize < userTop) :
    lp.bytes.read (va - pgrounddown va) (chunk va n) ++ u.load (nextPage va) (n - chunk va n) =
      u.load va n := by
  have hle : chunk va n ≤ n := min_le_right _ _
  rw [UMem.read_chunk hlp]
  rcases hle.eq_or_lt with heq | hlt
  · rw [heq, Nat.sub_self]
    exact List.append_nil _
  · rw [nextPage_eq_add h hlt, ← UMem.load_add, Nat.add_sub_cancel' hle]

/-- **Over a range the process may read, the pieces make one load.** -/
theorem Get.load {n : ℕ} {bs : List UInt8} (h : Get u va n st bs) (hlow : u.Low)
    (hs : u.Seen va n fun p => p.u = true) : st = 0 ∧ bs = u.load va n := by
  induction h with
  | done va => exact ⟨rfl, rfl⟩
  | @refuse va n hn hno =>
    obtain ⟨lp, hlp, hu⟩ := hs va le_rfl (by omega)
    rw [hno lp hlp] at hu
    cases hu
  | @move va n st bs lp hn hlp hrest ih =>
    have htop := hlow (va / pgsize) (by rw [hlp]; simp)
    obtain ⟨rfl, rfl⟩ := ih fun a hge hlt => by
      obtain ⟨hge', hlt', -⟩ := (nextPage_range htop).mp ⟨hge, hlt⟩
      exact hs a hge' hlt'
    exact ⟨rfl, UMem.load_next hlp htop⟩

/-- A load that reaches a page the process does not see is refused. -/
theorem Get.refused {n a : ℕ} {bs : List UInt8} (h : Get u va n st bs) (hlow : u.Low)
    (hge : va ≤ a) (hlt : a < va + n) (hnone : u (a / pgsize) = none) : st = -1 := by
  induction h with
  | done va => exact absurd hlt (by simpa using hge)
  | refuse => rfl
  | @move va n st bs lp hn hlp hrest ih =>
    have htop := hlow (va / pgsize) (by rw [hlp]; simp)
    have hne : a / pgsize ≠ va / pgsize := by
      intro heq
      rw [heq, hlp] at hnone
      cases hnone
    obtain ⟨hge', hlt'⟩ := (nextPage_range htop).mpr ⟨hge, hlt, hne⟩
    exact ih hge' hlt'

/-- What was stored is loaded. -/
theorem UMem.load_store {src : List UInt8} {P : Perm → Prop} (hs : u.Seen va src.length P) :
    (u.store va src).load va src.length = src := by
  refine List.ext_getElem (by simp [UMem.load]) fun j hj hj' => ?_
  obtain ⟨lp, hlp, -⟩ := hs (va + j) (by omega) (by omega)
  have hdm := Nat.div_add_mod' (va + j) pgsize
  simp only [UMem.load, List.getElem_map, List.getElem_range, UMem.byte, UMem.store, hlp,
    Option.map_some, hdm]
  rw [stored, if_pos (by omega), Nat.add_sub_cancel_left, List.getD_eq_getElem _ _ hj']

theorem UMem.Seen.store {src : List UInt8} {n : ℕ} {P : Perm → Prop} (hs : u.Seen va n P) :
    (u.store va src).Seen va n P := by
  intro a hge hlt
  obtain ⟨lp, hlp, hP⟩ := hs a hge hlt
  rw [UMem.store, hlp]
  exact ⟨_, rfl, hP⟩

end Pieces

/-! ### The system calls' copies -/

section Copies

variable {m : Machine} {p va : ℕ}

theorem Space.low {k : Kernel} {root sz : ℕ} (hs : Space k root sz) :
    UMem.Low (k.umem root sz) := by
  intro v hv
  obtain ⟨lp, hlp⟩ := Option.ne_none_iff_exists'.mp hv
  exact hs.lt_userTop hlp

/-- The process sees nothing at or above `PGROUNDUP(sz)`. -/
theorem Space.umem_eq_none {k : Kernel} {root sz a : ℕ} (hs : Space k root sz)
    (h : pgroundup sz ≤ a) : k.umem root sz (a / pgsize) = none := by
  have hge : sz ≤ a / pgsize * pgsize := by
    have htop : trapframeVa + pgsize < word := by decide
    have hle := hs.le
    rw [pgroundup, Nat.mod_eq_of_lt (by omega)] at h
    simp only [pgsize] at h ⊢
    omega
  by_contra hne
  exact absurd (hs.bound _ (Kernel.view_of_umem hne hge)) (by omega)

/-- Memory as process `p` sees it. -/
def Machine.user (m : Machine) (p : ℕ) : UMem :=
  m.k.umem (m.k.proc p).pagetable (m.k.proc p).sz

/-- **`copyout` and `copyin` are a store and a load.** Let a process of any reachable state
call `copyout`. If every page of the range is one it sees and may write, a call that returns
reports success, the process's memory is the old one with the bytes stored and every other
process's memory is as it was; a `copyin` of the range then delivers the bytes. A range that
goes beyond `PGROUNDUP(sz)` is refused by both. -/
theorem copyout_exact (h : Reach m) (src : List UInt8) (st : ℤ) (m' : Machine)
    (hrun : (copyout (m.k.proc p).pagetable va src).run (m.onCpu p) = .ok st m') :
    ((m.user p).Seen va src.length (fun q => q.u = true ∧ q.w = true) →
      st = 0 ∧ m'.user p = (m.user p).store va src ∧
      (∀ r, r ≠ (m.k.proc p).pagetable → ∀ v, m'.k.view r v = m.k.view r v) ∧
      ∀ res m₂, (copyin (m.k.proc p).pagetable va src.length).run m' = .ok res m₂ →
        res = (0, src)) ∧
    (src ≠ [] → pgroundup (m.k.proc p).sz < va + src.length → st = -1 ∧
      ∀ res m₂, (copyin (m.k.proc p).pagetable va src.length).run (m.onCpu p) = .ok res m₂ →
        res.1 = -1) := by
  have hsys := h.sys.onCpu p
  have hspace : Space (m.onCpu p).k (m.k.proc p).pagetable (m.k.proc p).sz := hsys.space
  have hlow : (m.user p).Low := hspace.low
  obtain ⟨htouch, hspace', hput⟩ := wp_ok (copyout_spec hsys.inv hspace) hrun
  have huser : m'.user p = m'.k.umem (m.k.proc p).pagetable (m.k.proc p).sz := by
    rw [Machine.user, htouch.world]
    rfl
  refine ⟨fun hseen => ?_, fun hsrc hend => ?_⟩
  · obtain ⟨rfl, hmem⟩ := hput.store hlow hseen
    refine ⟨rfl, huser.trans hmem, htouch.view, fun res m₂ hin => ?_⟩
    obtain ⟨-, hget⟩ := wp_ok (copyin_spec htouch.inv hspace') hin
    have hlow' := hspace'.low
    rw [hmem] at hget hlow'
    obtain ⟨h0, hbs⟩ := hget.load hlow' fun a hge hlt => by
      obtain ⟨lp, hlp, hu, -⟩ := hseen.store a hge hlt
      exact ⟨lp, hlp, hu⟩
    exact Prod.ext h0 (hbs.trans (UMem.load_store hseen))
  · have hlen := List.length_pos_iff.mpr hsrc
    -- an address of the range outside the memory of the process
    obtain ⟨a, hge, hlt, hout⟩ : ∃ a, va ≤ a ∧ a < va + src.length ∧
        pgroundup (m.k.proc p).sz ≤ a :=
      ⟨max va (pgroundup (m.k.proc p).sz), by omega, by omega, by omega⟩
    have hnone := hspace.umem_eq_none hout
    refine ⟨hput.refused hlow hge hlt hnone, fun res m₂ hin => ?_⟩
    exact (wp_ok (copyin_spec hsys.inv hspace) hin).2.refused hlow hge hlt hnone

end Copies

/-- In the sample run a `copyout` of two bytes to the page that was evicted returns 0, and the
process may write that page. -/
theorem sample_copyout_facts :
    value? (copyout (sampleEvicted.k.proc 0).pagetable 4094 [65, 66]) (sampleEvicted.onCpu 0) =
      some 0 ∧
    (sampleEvicted.user 0 0).map LPage.perm = some ⟨true, true, false, true⟩ := by
  decide +kernel

theorem copyout_exact_sample :
    (sampleEvicted.user 0).Seen 4094 2 (fun q => q.u = true ∧ q.w = true) ∧
    (final (copyout (sampleEvicted.k.proc 0).pagetable 4094 [65, 66])
      (sampleEvicted.onCpu 0)).user 0 = (sampleEvicted.user 0).store 4094 [65, 66] := by
  obtain ⟨hrun, hperm⟩ := sample_copyout_facts
  obtain ⟨lp, hlp, hlperm⟩ := Option.map_eq_some_iff.mp hperm
  have hseen : (sampleEvicted.user 0).Seen 4094 2 fun q => q.u = true ∧ q.w = true := by
    intro a hge hlt
    have hdiv : a / pgsize = 0 := by
      simp only [pgsize]
      omega
    rw [hdiv]
    exact ⟨lp, hlp, by rw [hlperm], by rw [hlperm]⟩
  exact ⟨hseen, ((copyout_exact reach_sampleEvicted _ _ _ (run_eq_of_value? hrun)).1 hseen).2.1⟩

/-! ### Strings

`copyinstr` looks its pages up with `walkaddr` alone, so it reads what is resident and stops
at the first page that is not, where `copyin` would bring the page in. -/

/-- A NUL lies `n` bytes after `va`, none before it, in memory the process may read. -/
def UMem.Nul (u : UMem) (va n : ℕ) : Prop :=
  u.Seen va (n + 1) (fun q => q.u = true) ∧ u.byte (va + n) = 0 ∧ ∀ j < n, u.byte (va + j) ≠ 0

/-- The string at `va`, if it ends within `max` bytes: `res` is what `copyinstr` is to return. -/
def UMem.Str (u : UMem) (va max : ℕ) (res : ℤ × List UInt8) : Prop :=
  (∀ n < max, u.Nul va n → res = (0, u.load va n ++ [0])) ∧
    ((∀ n < max, ¬u.Nul va n) → res.1 = -1)

/-- The user pages of a table that are resident. -/
def Kernel.resident (k : Kernel) (root : ℕ) : UMem := fun v =>
  if v < userTop ∧ (k.leaf root v).has pteV = true then
    some ⟨k.mem (pte2pa (k.leaf root v)), (k.leaf root v).perm⟩
  else none

section Strings

variable {H : List ℕ} {m : Machine} {root va max : ℕ}

/-- The page `copyinstr` reads next is refused unless it is resident and has `PTE_U`. -/
theorem walkaddr_resident (h : Inv H m) (hs : TopSys m.k root) (ht : (m.k.pt root).isSome) :
    ∃ pa, (walkaddr root (pgrounddown va)).run m = .ok pa m ∧
      ((pa = 0 ∧ ∀ lp, m.k.resident root (va / pgsize) = some lp → lp.perm.u = false) ∨
        (pa ≠ 0 ∧ va / pgsize < userTop ∧ ∃ lp, m.k.resident root (va / pgsize) = some lp ∧
          lp.bytes = m.k.mem pa ∧ lp.perm.u = true)) := by
  obtain ⟨t, ht⟩ := Option.isSome_iff_exists.mp ht
  refine ⟨_, run_walkaddr ht, ?_⟩
  rw [pgrounddown_div]
  split_ifs with hif
  · obtain ⟨-, hV, hU⟩ := hif
    have htop : va / pgsize < userTop := by
      by_contra hge
      rw [(hs _ (Nat.le_of_not_lt hge)).2.1] at hU
      cases hU
    have hram := h.mem.ram (o := .leaf root (va / pgsize)) ⟨htop, hV, rfl⟩
    exact Or.inr ⟨hram.ne_zero, htop, _, if_pos ⟨htop, hV⟩, rfl, hU⟩
  · refine Or.inl ⟨rfl, fun lp hlp => ?_⟩
    rw [Kernel.resident] at hlp
    split_ifs at hlp with hres
    obtain ⟨htop, hV⟩ := hres
    have hlt : pgrounddown va < maxva :=
      lt_of_lt_of_le (Nat.mul_lt_mul_of_pos_right htop (by decide)) (by decide)
    cases hlp
    simpa [Pte.perm] using fun hU => hif ⟨hlt, hV, hU⟩

/-- The bytes before the first NUL. -/
theorem takeWhile_range {f : ℕ → UInt8} {n c : ℕ} (hn : n < c) (h0 : f n = 0)
    (hlt : ∀ j < n, f j ≠ 0) :
    ((List.range c).map f).takeWhile (· != 0) = (List.range n).map f := by
  obtain ⟨k, rfl⟩ := Nat.exists_eq_add_of_lt hn
  rw [Nat.add_assoc, List.range_add, List.map_append, List.takeWhile_append_of_pos]
  · rw [List.range_succ_eq_map, List.map_cons, List.map_cons, Nat.add_zero, h0]
    exact List.append_nil _
  · intro b hb
    obtain ⟨j, hj, rfl⟩ := List.mem_map.mp hb
    simpa using hlt j (List.mem_range.mp hj)

/-- The pages of a range that are seen and hold no NUL may be skipped. -/
theorem UMem.nul_add {u : UMem} {c n : ℕ} (hseen : u.Seen va c fun q => q.u = true)
    (hno : ∀ j < c, u.byte (va + j) ≠ 0) : u.Nul va (c + n) ↔ u.Nul (va + c) n := by
  rw [UMem.Nul, UMem.Nul, Nat.add_assoc va c n]
  refine and_congr ⟨fun h a hge hlt => h a (by omega) (by omega), fun h a hge hlt => ?_⟩
    (and_congr_right fun _ => ⟨fun h j hj => ?_, fun h j hj => ?_⟩)
  · by_cases hin : a < va + c
    · exact hseen a hge hin
    · exact h a (by omega) (by omega)
  · rw [Nat.add_assoc]
    exact h (c + j) (by omega)
  · by_cases hin : j < c
    · exact hno j hin
    · have := h (j - c) (by omega)
      rwa [Nat.add_assoc, Nat.add_sub_cancel' (by omega)] at this

theorem UMem.Nul.unique {u : UMem} {n n' : ℕ} (h : u.Nul va n) (h' : u.Nul va n') : n = n' := by
  rcases Nat.lt_trichotomy n n' with hlt | heq | hlt
  · exact absurd h.2.1 (h'.2.2 n hlt)
  · exact heq
  · exact absurd h'.2.1 (h.2.2 n' hlt)

/-- **The loop of `copyinstr`** finds the string in the resident pages. -/
theorem copyinstrLoop_resident {fuel : ℕ} {acc : List UInt8} (h : Inv H m)
    (hs : TopSys m.k root) (ht : (m.k.pt root).isSome) (hfuel : max ≤ fuel) :
    ∃ st bs, (copyinstrLoop root fuel va max acc).run m = .ok (st, acc ++ bs) m ∧
      (m.k.resident root).Str va max (st, bs) := by
  set w := m.k.resident root with hw
  induction fuel generalizing va max acc with
  | zero =>
    obtain rfl : max = 0 := by omega
    exact ⟨-1, [], by rw [List.append_nil]; rfl, fun n hn => absurd hn (by omega), fun _ => rfl⟩
  | succ fuel ih =>
    rw [copyinstrLoop]
    split_ifs with hmax
    · exact ⟨-1, [], by rw [List.append_nil]; rfl, fun n hn => absurd hn (by omega), fun _ => rfl⟩
    · obtain ⟨pa, hrun, ⟨rfl, hno⟩ | ⟨hpa, htop, lp, hlp, hbytes, hu⟩⟩ :=
        @walkaddr_resident H m root va h hs ht
      · refine ⟨-1, [], ?_, fun n hn hnul => ?_, fun _ => rfl⟩
        · rw [run_bind_ok hrun, if_pos rfl, List.append_nil]
          rfl
        · obtain ⟨lp, hlp, hu⟩ := hnul.1 va le_rfl (by omega)
          rw [hno lp hlp] at hu
          cases hu
      · have hread : (m.k.mem pa).read (va - pgrounddown va)
            (min (pgsize - (va - pgrounddown va)) max) = w.load va (chunk va max) := by
          rw [← hbytes, ← UMem.read_chunk hlp]
          rfl
        rw [run_bind_ok hrun, if_neg hpa]
        simp only [run_bind_ok (run_getK m), hread]
        set c := chunk va max with hc
        have hpage : w.Seen va c fun q => q.u = true := fun a hge hlt => by
          refine ⟨lp, ?_, hu⟩
          rw [← hlp]
          congr 1
          rw [hc, chunk, pgrounddown] at hlt
          simp only [pgsize] at hlt ⊢
          omega
        have hcon : (w.load va c).contains 0 = true ↔ ∃ n, n < c ∧ w.byte (va + n) = 0 := by
          simp [UMem.load]
        by_cases hnul : ∃ n, n < c ∧ w.byte (va + n) = 0
        · -- the string ends on this page
          obtain ⟨hlt, h0⟩ := Nat.find_spec hnul
          have hmin : ∀ j < Nat.find hnul, w.byte (va + j) ≠ 0 :=
            fun j hj hj0 => Nat.find_min hnul hj ⟨hj.trans hlt, hj0⟩
          have hfirst : w.Nul va (Nat.find hnul) :=
            ⟨fun a hge hla => hpage a hge (by omega), h0, hmin⟩
          refine ⟨0, w.load va (Nat.find hnul) ++ [0], ?_, fun n _ hn => ?_, fun hnone => ?_⟩
          · rw [if_pos (hcon.mpr hnul), ← List.append_assoc, UMem.load,
              takeWhile_range hlt h0 hmin]
            rfl
          · rw [hn.unique hfirst]
          · exact absurd hfirst (hnone _ (hlt.trans_le (min_le_right _ _)))
        · have hno : ∀ j < c, w.byte (va + j) ≠ 0 := fun j hj h0 => hnul ⟨j, hj, h0⟩
          rw [if_neg fun hc => hnul (hcon.mp hc)]
          have hpos : 0 < c := chunk_pos hmax
          obtain ⟨st, bs, hrest, hstr⟩ := @ih (nextPage va) (max - c) (acc ++ w.load va c)
            (by omega)
          rw [List.append_assoc] at hrest
          refine ⟨st, _, hrest, fun n hn hn' => ?_, fun hnone => hstr.2 fun n hn hn' => ?_⟩
          · -- a NUL within `max` bytes lies on a later page
            have hge : c ≤ n := by
              by_contra hlt
              exact hno n (by omega) hn'.2.1
            obtain ⟨n', rfl⟩ := Nat.exists_eq_add_of_le hge
            have hnext := nextPage_eq_add htop (show chunk va max < max by omega)
            have hres := hstr.1 n' (by omega) (hnext ▸ (UMem.nul_add hpage hno).mp hn')
            rw [Prod.mk.injEq] at hres
            rw [hres.1, hres.2, hnext, ← List.append_assoc, ← UMem.load_add]
          · have hnext := nextPage_eq_add htop (show chunk va max < max by omega)
            exact hnone (c + n) (by omega) ((UMem.nul_add hpage hno).mpr (hnext ▸ hn'))

/-- What is resident is part of what the process sees. -/
theorem Kernel.umem_of_resident {k : Kernel} {v : ℕ} {lp : LPage}
    (h : k.resident root v = some lp) (sz : ℕ) : k.umem root sz v = some lp := by
  rw [Kernel.resident] at h
  split_ifs at h with hres
  rw [← h]
  exact Kernel.umem_of_view (Kernel.view_of_valid hres.1 hres.2)

theorem Kernel.byte_of_resident {k : Kernel} {a : ℕ} {lp : LPage}
    (h : k.resident root (a / pgsize) = some lp) (sz : ℕ) :
    (k.resident root).byte a = UMem.byte (k.umem root sz) a := by
  rw [UMem.byte, UMem.byte, h, Kernel.umem_of_resident h]

/-- The string in the resident pages is the process's if its pages are all resident. -/
theorem Space.nul_resident {sz n : ℕ} (hs : Space m.k root sz) :
    (m.k.resident root).Nul va n ↔ UMem.Nul (m.k.umem root sz) va n ∧
      ∀ a, va ≤ a → a ≤ va + n → (m.k.leaf root (a / pgsize)).has pteV = true := by
  -- on resident pages the bytes agree
  have hbytes : (∀ a, va ≤ a → a ≤ va + n → ∃ lp, m.k.resident root (a / pgsize) = some lp) →
      ∀ j ≤ n, (m.k.resident root).byte (va + j) = UMem.byte (m.k.umem root sz) (va + j) := by
    intro hget j hj
    obtain ⟨lp, hlp⟩ := hget (va + j) (by omega) (by omega)
    exact Kernel.byte_of_resident hlp sz
  constructor
  · rintro ⟨hseen, h0, hlt⟩
    have heq := hbytes fun a hge hle => by
      obtain ⟨lp, hlp, -⟩ := hseen a hge (by omega)
      exact ⟨lp, hlp⟩
    refine ⟨⟨fun a hge hla => ?_, heq n le_rfl ▸ h0, fun j hj => heq j hj.le ▸ hlt j hj⟩,
      fun a hge hle => ?_⟩
    · obtain ⟨lp, hlp, hu⟩ := hseen a hge hla
      exact ⟨lp, Kernel.umem_of_resident hlp sz, hu⟩
    · obtain ⟨lp, hlp, -⟩ := hseen a hge (by omega)
      rw [Kernel.resident] at hlp
      split_ifs at hlp with hres
      exact hres.2
  · rintro ⟨⟨hseen, h0, hlt⟩, hV⟩
    have hget : ∀ a, va ≤ a → a ≤ va + n → ∃ lp, m.k.resident root (a / pgsize) = some lp ∧
        lp.perm.u = true := by
      intro a hge hle
      obtain ⟨lp, hlp, hu⟩ := hseen a hge (by omega)
      have htop := hs.lt_userTop hlp
      rw [Kernel.umem_of_view (Kernel.view_of_valid htop (hV a hge hle))] at hlp
      exact ⟨lp, (if_pos ⟨htop, hV a hge hle⟩).trans hlp, hu⟩
    have heq := hbytes fun a hge hle => (hget a hge hle).imp fun _ hlp => hlp.1
    exact ⟨fun a hge hla => hget a hge (by omega), (heq n le_rfl).trans h0,
      fun j hj => heq j hj.le ▸ hlt j hj⟩

theorem UMem.Nul.load_resident {sz n : ℕ} (h : (m.k.resident root).Nul va n) :
    (m.k.resident root).load va n = UMem.load (m.k.umem root sz) va n := by
  refine List.map_congr_left fun j hj => ?_
  rw [List.mem_range] at hj
  obtain ⟨lp, hlp, -⟩ := h.1 (va + j) (by omega) (by omega)
  exact Kernel.byte_of_resident hlp sz

/-- **When `copyinstr` returns the string.** For every process that can run, in every state a
run reaches, `copyinstr` returns and changes nothing. It delivers the string the process has
at `va`, or -1 if none ends within `max` bytes, exactly if the pages of that string are all
resident. -/
theorem copyinstr_exact_iff {p : ℕ} (h : Reach m) (hp : (m.k.proc p).state.active = true)
    (va max : ℕ) : ∃ res,
      (copyinstr (m.k.proc p).pagetable va max).run (m.onCpu p) = .ok res (m.onCpu p) ∧
      ((m.user p).Str va max res ↔ ∀ n < max, (m.user p).Nul va n → ∀ a, va ≤ a → a ≤ va + n →
        (m.k.leaf (m.k.proc p).pagetable (a / pgsize)).has pteV = true) := by
  have hsys := h.sys.onCpu p
  have hspace : Space (m.onCpu p).k (m.k.proc p).pagetable (m.k.proc p).sz := hsys.space
  obtain ⟨st, bs, hrun, hstr⟩ := @copyinstrLoop_resident _ _ _ va max max [] hsys.inv hspace.sys
    (h.sys.table hp) le_rfl
  have hiff : ∀ n, (m.k.resident (m.k.proc p).pagetable).Nul va n ↔ _ :=
    fun n => hspace.nul_resident
  refine ⟨(st, bs), hrun, fun huser n hn hnul => ?_, fun hres => ⟨fun n hn hnul => ?_,
    fun hnone => hstr.2 fun n hn hnul => hnone n hn ((hiff n).mp hnul).1⟩⟩
  · by_contra hV
    have hfail := hstr.2 fun n' _ hnul' => by
      obtain ⟨hu, hV'⟩ := (hiff n').mp hnul'
      exact hV (hnul.unique hu ▸ hV')
    rw [huser.1 n hn hnul] at hfail
    cases hfail
  · have hnul' := (hiff n).mpr ⟨hnul, hres n hn hnul⟩
    have hload : _ = (m.user p).load va n := @UMem.Nul.load_resident (m.onCpu p) _ _ _ n hnul'
    rw [hstr.1 n hn hnul', hload]

end Strings

/-- In the sample run the process's page is zero, so the string at address 0 is empty:
`copyinstr` finds it while the page is resident and fails once it has been evicted. -/
theorem sample_copyinstr_facts :
    (value? (copyinstr (sampleGrown.k.proc 0).pagetable 0 8) (sampleGrown.onCpu 0) =
        some (0, [0]) ∧
      value? (copyinstr (sampleEvicted.k.proc 0).pagetable 0 8) (sampleEvicted.onCpu 0) =
        some (-1, []) ∧
      (sampleEvicted.k.proc 0).state = .running) ∧
    (sampleEvicted.user 0 0).map LPage.perm = some ⟨true, true, false, true⟩ ∧
    (sampleEvicted.user 0).byte 0 = 0 := by
  decide +kernel

theorem sampleEvicted_nul : (sampleEvicted.user 0).Nul 0 0 := by
  obtain ⟨-, hperm, hbyte⟩ := sample_copyinstr_facts
  obtain ⟨lp, hlp, hlperm⟩ := Option.map_eq_some_iff.mp hperm
  refine ⟨fun a _ hlt => ?_, hbyte, fun j hj => absurd hj (by omega)⟩
  obtain rfl : a = 0 := by omega
  exact ⟨lp, hlp, by rw [hlperm]⟩

/-- The pages of the string are not all resident in the second state, so what `copyinstr`
returns there is not the string. -/
theorem copyinstr_exact_iff_sample : (sampleEvicted.k.proc 0).state.active = true ∧ ∃ res,
    (copyinstr (sampleEvicted.k.proc 0).pagetable 0 8).run (sampleEvicted.onCpu 0) =
      .ok res (sampleEvicted.onCpu 0) ∧
    ((sampleEvicted.user 0).Str 0 8 res ↔ ∀ n < 8, (sampleEvicted.user 0).Nul 0 n → ∀ a, 0 ≤ a →
      a ≤ 0 + n →
      (sampleEvicted.k.leaf (sampleEvicted.k.proc 0).pagetable (a / pgsize)).has pteV = true) := by
  have hact : (sampleEvicted.k.proc 0).state.active = true := by
    rw [sample_copyinstr_facts.1.2.2]
    rfl
  exact ⟨hact, copyinstr_exact_iff reach_sampleEvicted hact 0 8⟩

/-- The eviction of the page turns the result of `copyinstr` into a failure. -/
theorem copyinstr_evicted :
    value? (copyinstr (sampleGrown.k.proc 0).pagetable 0 8) (sampleGrown.onCpu 0) =
      some (0, [0]) ∧
    Step .evictPage 0 sampleGrown sampleEvicted ∧
    ∃ res m', (copyinstr (sampleEvicted.k.proc 0).pagetable 0 8).run (sampleEvicted.onCpu 0) =
      .ok res m' ∧ ¬(sampleEvicted.user 0).Str 0 8 res := by
  obtain ⟨⟨hok, hfail, -⟩, -⟩ := sample_copyinstr_facts
  refine ⟨hok, ⟨sample_facts.2.1.2.2.2.2.1, sample_evictPage⟩, _, _, run_eq_of_value? hfail,
    fun hstr => ?_⟩
  have h0 := congrArg Prod.fst (hstr.1 0 (by decide) sampleEvicted_nul)
  cases h0

end Xv6
