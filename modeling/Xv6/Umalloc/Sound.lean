import Xv6.Logic.Tiling
import Xv6.Logic.Transition
import Xv6.Umalloc.Model

/-!
# The free list

`Holds s l X` is the invariant of the allocator: the free blocks `l` are linked in address order,
with a gap after each, and together with the blocks `X` they tile the memory that `sbrk` has
returned. `free` makes a block of `X` part of the list (`free_holds`), the one before it and the one
after it being merged with it if there is no gap; `malloc` finds a block in the list and moves it or
its end to `X` (`mallocLoop_holds`).
-/

namespace Xv6

namespace Umalloc

open Circular Ownership

/-- The memory that `sbrk` has returned. -/
def State.memory (s : State) : Set ℕ := {x | ∃ r ∈ s.regions, r.1 ≤ x ∧ x < r.1 + r.2}

/-- The length of a block in bytes. -/
def State.len (s : State) (a : ℕ) : ℕ := hdr * s.size a

/-- The free blocks are `l`, and the others are `X`. -/
structure Holds (s : State) (l : List ℕ) (X : Set ℕ) : Prop where
  ring : Loop s.ptr s.base l
  /-- The blocks are in order, and no two are adjacent. -/
  order : (s.base :: l).IsChain fun x y => x + s.len x < y
  zero : s.size s.base = 0
  freep : s.freep ∈ s.base :: l
  tiles : Tiles {a | a ∈ l ∨ a ∈ X} s.len s.memory
  disjoint : ∀ a ∈ l, a ∉ X
  above : ∀ x ∈ s.memory, s.base + hdr ≤ x
  below : ∀ x ∈ s.memory, x < 2 ^ 36
  base_pos : 0 < s.base

section

variable {s s' : State} {l as bs : List ℕ} {X : Set ℕ} {a b p bp n : ℕ}

namespace Holds

theorem pairwise (h : Holds s l X) : (s.base :: l).Pairwise fun x y => x + s.len x < y := by
  have : Trans (fun x y => x + s.len x < y) (fun x y => x + s.len x < y)
      fun x y => x + s.len x < y := ⟨fun hxy hyz => by omega⟩
  exact List.isChain_iff_pairwise.mp h.order

theorem nodup (h : Holds s l X) : (s.base :: l).Nodup :=
  h.pairwise.imp fun hxy => by omega

theorem base_lt (h : Holds s l X) (ha : a ∈ l ∨ a ∈ X) : s.base < a := by
  have := h.above a (h.tiles.mem_start ha)
  simp only [hdr] at this
  omega

/-- A block ends below the bound, so that sizes do not overflow. -/
theorem end_le (h : Holds s l X) (ha : a ∈ l ∨ a ∈ X) : a + s.len a ≤ 2 ^ 36 := by
  have hpos := h.tiles.pos a ha
  have := h.below _ (h.tiles.mem_last ha)
  omega

theorem not_mem_ring (h : Holds s l X) (hb : bp ∈ X) : bp ∉ s.base :: l := fun hm => by
  rcases List.mem_cons.mp hm with rfl | hm
  · exact lt_irrefl _ (h.base_lt (Or.inr hb))
  · exact h.disjoint bp hm hb

/-- The free block, or `base`, before an address. -/
theorem exists_pred (h : Holds s l X) (hb : s.base < bp) (hn : bp ∉ s.base :: l) :
    ∃ as p bs, s.base :: l = as ++ p :: bs ∧ p < bp ∧ ∀ y ∈ bs, bp < y := by
  have hsorted : (s.base :: l).Pairwise (· < ·) := h.pairwise.imp fun hxy => by omega
  -- the last of the nodes below
  have hsplit : ∀ {L : List ℕ} {x}, (x :: L).Pairwise (· < ·) → x < bp → bp ∉ x :: L →
      ∃ as p bs, x :: L = as ++ p :: bs ∧ p < bp ∧ ∀ y ∈ bs, bp < y := by
    intro L
    induction L with
    | nil => exact fun {x} _ hx _ => ⟨[], x, [], rfl, hx, nofun⟩
    | cons y L ih =>
      intro x hs hx hn
      obtain ⟨hxy, hs⟩ := List.pairwise_cons.mp hs
      by_cases hy : y < bp
      · obtain ⟨as, p, bs, heq, hp, hbs⟩ := ih hs hy fun hm => hn (List.mem_cons_of_mem x hm)
        exact ⟨x :: as, p, bs, by rw [heq, List.cons_append], hp, hbs⟩
      · have hlt : bp < y := lt_of_le_of_ne (not_lt.mp hy) fun heq => hn (heq ▸ by simp)
        refine ⟨[], x, y :: L, rfl, hx, fun z hz => ?_⟩
        rcases List.mem_cons.mp hz with rfl | hz
        · exact hlt
        · exact hlt.trans ((List.pairwise_cons.mp hs).1 z hz)
  exact hsplit hsorted hb hn

/-- The loop of `free` stops exactly at the node before `bp`. -/
theorem stops_iff (h : Holds s l X) (hb : s.base < bp) (hl : s.base :: l = as ++ p :: bs) :
    stops s bp p = true ↔ p < bp ∧ ∀ y ∈ bs.head?, bp < y := by
  have hnext := h.ring.next_eq hl
  have hp : s.base ≤ p := by
    rcases List.mem_cons.mp (hl ▸ List.mem_append_right as List.mem_cons_self : p ∈ s.base :: l)
      with rfl | hm
    · exact le_rfl
    · exact (h.base_lt (Or.inl hm)).le
  rw [stops]
  cases bs with
  | nil =>
    rw [List.headD_nil] at hnext
    simp only [hnext, List.head?_nil, Option.mem_def, reduceCtorEq, false_imp_iff, implies_true,
      and_true, Bool.or_eq_true, Bool.and_eq_true, decide_eq_true_eq]
    omega
  | cons y bs =>
    rw [List.headD_cons] at hnext
    have hpy : p < y := by
      have := h.order
      rw [hl, List.isChain_append_cons_cons] at this
      omega
    simp only [hnext, List.head?_cons, Option.mem_def, Option.some.injEq, forall_eq',
      Bool.or_eq_true, Bool.and_eq_true, decide_eq_true_eq]
    omega

/-- The loop of `free` ends at the node before `bp`. -/
theorem seek_pred (h : Holds s l X) (hb : bp ∈ X) :
    ∃ as p bs, s.base :: l = as ++ p :: bs ∧ p < bp ∧ (∀ y ∈ bs.head?, bp < y) ∧
      ∀ n, l.length < n → seek s.ptr (stops s bp) n s.freep = some p := by
  have hlt := h.base_lt (Or.inr hb)
  obtain ⟨as, p, bs, hl, hp, hbs⟩ := h.exists_pred hlt (h.not_mem_ring hb)
  have hstop : stops s bp p = true :=
    (h.stops_iff hlt hl).mpr ⟨hp, fun y hy => hbs y (List.mem_of_mem_head? hy)⟩
  obtain ⟨x, hx, hsx, hseek⟩ :=
    h.ring.seek h.freep ⟨p, hl ▸ by simp, hstop⟩ (Nat.lt_succ_self l.length)
  obtain ⟨as', bs', hl'⟩ := List.append_of_mem hx
  obtain ⟨hxb, hy⟩ := (h.stops_iff hlt hl').mp hsx
  exact ⟨as', x, bs', hl', hxb, hy, fun n hn => seek_mono hseek hn⟩

/-- The nodes up to `p` with other ones after it. -/
theorem exists_tail (hl : s.base :: l = as ++ p :: bs) (cs : List ℕ) :
    ∃ l', s.base :: l' = as ++ p :: cs := by
  cases as with
  | nil =>
    obtain ⟨rfl, -⟩ := List.cons.inj hl
    exact ⟨cs, rfl⟩
  | cons x as =>
    obtain ⟨rfl, -⟩ := List.cons.inj hl
    exact ⟨as ++ p :: cs, rfl⟩

theorem mem_iff (h : Holds s l X) {L : List ℕ} (hl : s.base :: l = L) (c : ℕ) :
    c ∈ l ↔ c ∈ L ∧ c ≠ s.base := by
  rw [← hl, List.mem_cons]
  have hn := (List.nodup_cons.mp h.nodup).1
  constructor
  · exact fun hc => ⟨Or.inr hc, fun heq => hn (heq ▸ hc)⟩
  · exact fun hc => hc.1.resolve_left hc.2

end Holds

/-- The state after `joinNext`: the nodes after `bp` will be `cs`. -/
structure Joined (s : State) (as : List ℕ) (p bp : ℕ) (X : Set ℕ) (cs : List ℕ) (s' : State) :
    Prop where
  base : s'.base = s.base
  regions : s'.regions = s.regions
  ptr : ∀ a, a ≠ bp → s'.ptr a = s.ptr a
  size : ∀ a, a ≠ bp → s'.size a = s.size a
  grows : s.size bp ≤ s'.size bp
  next : s'.ptr bp = cs.headD s.base
  path : Path s.ptr (cs ++ [s.base])
  order : cs.IsChain fun x y => x + s.len x < y
  gap : ∀ y ∈ cs.head?, bp + s'.len bp < y
  nodup : (as ++ p :: cs).Nodup
  tiles : Tiles {a | a ∈ as ++ p :: cs ∧ a ≠ s.base ∨ a ∈ X} s'.len s.memory
  disjoint : ∀ a ∈ as ++ p :: cs, a ∉ X

theorem joinNext_joined (h : Holds s l X) (hb : bp ∈ X) (hl : s.base :: l = as ++ p :: bs)
    (hy : ∀ y ∈ bs.head?, bp < y) :
    ∃ cs, Joined s as p bp X cs (joinNext s bp p) := by
  have hnext := h.ring.next_eq hl
  have hnd := hl ▸ h.nodup
  have hring := h.ring
  rw [Loop, hl, List.append_assoc, List.cons_append, path_split] at hring
  have horder := h.order
  rw [hl, List.isChain_split] at horder
  have hlt := h.base_lt (Or.inr hb)
  have hmem := h.mem_iff hl
  have hdis : ∀ a ∈ as ++ p :: bs, a ∉ X := fun a ha hX =>
    h.not_mem_ring hX (hl ▸ ha)
  rw [joinNext]
  split
  · -- the block after `bp` is merged with it
    rename_i hadj
    cases bs with
    | nil =>
      rw [hnext, List.headD_nil] at hadj
      omega
    | cons q cs =>
      rw [List.headD_cons] at hnext
      rw [hnext] at hadj ⊢
      have hq : q ∈ l := (hmem q).mpr ⟨by simp, fun heq => by omega⟩
      have hbq : bp ≠ q := fun heq => h.disjoint q hq (heq ▸ hb)
      have hsum : (s.size bp + s.size q) % 2 ^ 32 = s.size bp + s.size q := by
        have := h.end_le (Or.inl hq)
        simp only [State.len, hdr] at this hadj
        omega
      have hsub : (as ++ p :: cs).Sublist (as ++ p :: q :: cs) := by simp
      have hqn : q ∉ as ++ p :: cs := by
        have hperm : (as ++ p :: q :: cs).Perm (q :: (as ++ p :: cs)) := perm_next as cs
        exact (List.nodup_cons.mp (hperm.nodup_iff.mp hnd)).1
      have hpath := (path_cons_cons.mp hring.2).2
      refine ⟨cs, rfl, rfl, fun a ha => ptr_setPtr_of_ne ha, fun a ha => size_setSize_of_ne ha, ?_, ?_, ?_, ?_, fun y hyc => ?_, hsub.nodup hnd, ?_,
        fun a ha => hdis a (hsub.mem ha)⟩
      · rw [size_setPtr, size_setSize_self, hsum]
        omega
      · rw [ptr_setPtr_self]
        exact h.ring.next_eq (show s.base :: l = (as ++ [p]) ++ q :: cs by simpa using hl)
      · exact hpath.tail
      · exact ((List.isChain_cons.mp horder.2).2.tail : (q :: cs).tail.IsChain _)
      · have hgap := (List.isChain_cons.mp (List.isChain_cons.mp horder.2).2).1 y hyc
        simp only [State.len, size_setPtr, size_setSize_self, hsum, Nat.mul_add] at hgap hadj ⊢
        omega
      · refine h.tiles.merge (Or.inr hb) (Or.inl hq) hadj (fun c => ?_) ?_ fun c _ hcb _ => ?_
        · simp only [Set.mem_ofPred_eq, hmem]
          by_cases hcq : c = q
          · subst hcq
            simp [hqn, h.disjoint c hq]
          · simp [hcq]
        · simp only [State.len, size_setPtr, size_setSize_self, hsum, Nat.mul_add]
        · simp only [State.len, size_setPtr, size_setSize_of_ne hcb]
  · rename_i hadj
    refine ⟨bs, rfl, rfl, fun a ha => ptr_setPtr_of_ne ha, fun a ha => rfl, le_rfl, ?_, ?_,
      ?_, fun y hyb => ?_, hnd, ?_, hdis⟩
    · rw [ptr_setPtr_self, hnext]
    · exact hring.2.tail
    · exact (List.isChain_cons.mp horder.2).2
    · have hyS : y ∈ l := (hmem y).mpr ⟨by
        rw [List.mem_append, List.mem_cons]
        exact Or.inr (Or.inr (List.mem_of_mem_head? hyb)), fun heq => by
          have := hy y hyb
          omega⟩
      have hle := h.tiles.le_of_lt (Or.inr hb) (Or.inl hyS) (hy y hyb)
      refine lt_of_le_of_ne hle fun heq => hadj ?_
      rw [hnext, List.headD_eq_head?_getD, Option.mem_def.mp hyb]
      exact heq
    · exact h.tiles.congr (fun c => by simp only [Set.mem_ofPred_eq, hmem]) fun c _ => rfl

/-- The invariant for the nodes `ys` after `p`, if nothing has changed before. -/
theorem Holds.relink {t : State} {ys : List ℕ} {Y : Set ℕ} (h : Holds s l X)
    (hl : s.base :: l = as ++ p :: bs) (hbase : t.base = s.base) (hreg : t.regions = s.regions)
    (hptr : ∀ a ∈ as, t.ptr a = s.ptr a) (hsize : ∀ a ∈ as, t.size a = s.size a)
    (hnd : (as ++ p :: ys).Nodup) (hzero : t.size s.base = 0)
    (hpath : Path t.ptr (p :: ys ++ [s.base]))
    (horder : (p :: ys).IsChain fun x y => x + t.len x < y)
    (htiles : Tiles {a | a ∈ as ++ p :: ys ∧ a ≠ s.base ∨ a ∈ Y} t.len s.memory)
    (hdis : ∀ a ∈ as ++ p :: ys, a ∉ Y) :
    ∃ l', s.base :: l' = as ++ p :: ys ∧ Holds { t with freep := p } l' Y := by
  obtain ⟨l', hl'⟩ := Holds.exists_tail hl ys
  have hnot := (List.nodup_cons.mp (hl' ▸ hnd)).1
  have hmem : ∀ c, c ∈ l' ↔ c ∈ as ++ p :: ys ∧ c ≠ s.base := fun c => by
    rw [← hl', List.mem_cons]
    exact ⟨fun hc => ⟨Or.inr hc, fun heq => hnot (heq ▸ hc)⟩, fun hc => hc.1.resolve_left hc.2⟩
  have hmemory : ({ t with freep := p } : State).memory = s.memory := by
    rw [State.memory, State.memory, hreg]
  have hring := h.ring
  rw [Loop, hl, List.append_assoc, List.cons_append, path_split] at hring
  have hord := h.order
  rw [hl, List.isChain_split] at hord
  refine ⟨l', hl', ?_, ?_, ?_, ?_, ?_, fun a ha => hdis a ((hmem a).mp ha).1, ?_, ?_, ?_⟩
  · rw [Loop, hbase, hl', List.append_assoc, List.cons_append, path_split]
    exact ⟨hring.1.congr hptr, hpath⟩
  · rw [hbase, hl', List.isChain_split]
    refine ⟨isChain_congr hord.1 fun x hx y hxy => ?_, horder⟩
    rw [State.len] at hxy ⊢
    rw [hsize x hx]
    exact hxy
  · rw [hbase]
    exact hzero
  · rw [hbase, hl']
    simp
  · rw [hmemory]
    exact htiles.congr (fun c => by simp only [Set.mem_ofPred_eq, hmem]) fun _ _ => rfl
  · rw [hmemory, hbase]
    exact h.above
  · rw [hmemory]
    exact h.below
  · rw [hbase]
    exact h.base_pos

/-- Linking `bp`, or merging it with the block before it, completes the list. -/
theorem Joined.joinPrev_holds {cs : List ℕ} (hj : Joined s as p bp X cs s')
    (h : Holds s l X) (hb : bp ∈ X) (hl : s.base :: l = as ++ p :: bs) (hp : p < bp) :
    ∃ l', Holds { joinPrev s' bp p with freep := p } l' {c | c ∈ X ∧ c ≠ bp} ∧
      ∃ y ∈ l', s.size bp ≤ (joinPrev s' bp p).size y := by
  have hbp : ∀ c ∈ as ++ p :: cs, c ≠ bp := fun c hc heq => hj.disjoint c hc (heq ▸ hb)
  have has : ∀ c ∈ as, c ≠ bp ∧ c ≠ p := fun c hc => by
    refine ⟨hbp c (List.mem_append_left _ hc), ?_⟩
    rintro rfl
    exact List.disjoint_of_nodup_append hj.nodup hc List.mem_cons_self
  have hcs : ∀ c ∈ cs, c ≠ bp ∧ c ≠ p := fun c hc => by
    refine ⟨hbp c (List.mem_append_right _ (List.mem_cons_of_mem p hc)), ?_⟩
    rintro rfl
    exact (List.nodup_cons.mp (List.nodup_append.mp hj.nodup).2.1).1 hc
  have hlt := h.base_lt (Or.inr hb)
  have hbase_ne : s.base ≠ bp := hlt.ne
  have hend : bp + s'.len bp ≤ 2 ^ 36 := by
    have hpos := hj.tiles.pos bp (Or.inr hb)
    have := h.below _ (hj.tiles.mem_last (Or.inr hb))
    omega
  have hcs_order : ∀ {t : State}, (∀ c ∈ cs, t.size c = s.size c) →
      cs.IsChain fun x y => x + t.len x < y := fun {t} ht => by
    refine hj.order.imp_of_mem_imp fun x y hx _ hxy => ?_
    rw [State.len] at hxy ⊢
    rw [ht x hx]
    exact hxy
  have hcs_path : ∀ {t : State}, (∀ c ∈ cs, t.ptr c = s.ptr c) → Path t.ptr (cs ++ [s.base]) :=
    fun ht => hj.path.congr ht
  rw [joinPrev]
  split
  · -- `bp` becomes a part of the block before it
    rename_i hadj
    have hsz := hj.size p hp.ne
    have hpb : p ≠ s.base := by
      rintro rfl
      rw [hsz, h.zero] at hadj
      omega
    have hp0 := h.base_lt (Or.inl ((h.mem_iff hl p).mpr ⟨by simp, hpb⟩))
    have hsum : (s'.size p + s'.size bp) % 2 ^ 32 = s'.size p + s'.size bp := by
      simp only [State.len, hdr] at hend hadj
      omega
    set t := (s'.setSize p (s'.size p + s'.size bp)).setPtr p (s'.ptr bp) with ht
    have htsize : ∀ c, c ≠ bp → c ≠ p → t.size c = s.size c := fun c hc hcp => by
      rw [ht, size_setPtr, size_setSize_of_ne hcp, hj.size c hc]
    have htptr : ∀ c, c ≠ bp → c ≠ p → t.ptr c = s.ptr c := fun c hc hcp => by
      rw [ht, ptr_setPtr_of_ne hcp, ptr_setSize, hj.ptr c hc]
    have hself : t.size p = s'.size p + s'.size bp := by
      rw [ht, size_setPtr, size_setSize_self, hsum]
    have hpath : Path t.ptr (p :: cs ++ [s.base]) := by
      refine (hcs_path fun c hc => htptr c (hcs c hc).1 (hcs c hc).2).cons ?_
      rw [ht, ptr_setPtr_self, hj.next]
    have horder : (p :: cs).IsChain fun x y => x + t.len x < y := by
      refine List.isChain_cons.mpr ⟨fun y hy => ?_, hcs_order fun c hc =>
        htsize c (hcs c hc).1 (hcs c hc).2⟩
      have := hj.gap y hy
      simp only [State.len, hself, Nat.mul_add] at this ⊢
      omega
    have htiles : Tiles {a | a ∈ as ++ p :: cs ∧ a ≠ s.base ∨ a ∈ X ∧ a ≠ bp} t.len s.memory := by
      refine hj.tiles.merge (Or.inl ⟨by simp, hpb⟩) (Or.inr hb) hadj (fun c => ?_) ?_
        fun c _ hcp hcb => ?_
      · simp only [Set.mem_ofPred_eq]
        constructor
        · rintro (hc | hc)
          · exact ⟨Or.inl hc, hbp c hc.1⟩
          · exact ⟨Or.inr hc.1, hc.2⟩
        · rintro ⟨hc | hc, hne⟩
          · exact Or.inl hc
          · exact Or.inr ⟨hc, hne⟩
      · simp only [State.len, hself, Nat.mul_add]
      · simp only [State.len, htsize c hcb hcp, hj.size c hcb]
    obtain ⟨l', hl', hH⟩ := h.relink (t := t) (Y := {c | c ∈ X ∧ c ≠ bp}) hl hj.base
      hj.regions
      (fun c hc => htptr c (has c hc).1 (has c hc).2)
      (fun c hc => htsize c (has c hc).1 (has c hc).2) hj.nodup
      (by rw [htsize _ hbase_ne hpb.symm, h.zero]) hpath horder htiles
      fun c hc hX => hj.disjoint c hc hX.1
    refine ⟨l', hH, p, ?_, ?_⟩
    · have : p ∈ s.base :: l' := hl' ▸ by simp
      exact (List.mem_cons.mp this).resolve_left hpb
    · rw [hself]
      have := hj.grows
      omega
  · rename_i hadj
    set t := s'.setPtr p bp with ht
    have htsize : ∀ c, c ≠ bp → t.size c = s.size c := fun c hc => by
      rw [ht, size_setPtr, hj.size c hc]
    have htptr : ∀ c, c ≠ bp → c ≠ p → t.ptr c = s.ptr c := fun c hc hcp => by
      rw [ht, ptr_setPtr_of_ne hcp, hj.ptr c hc]
    have hmem : ∀ c, c ∈ as ++ p :: bp :: cs ↔ c ∈ as ++ p :: cs ∨ c = bp := fun c => by
      simp only [List.mem_append, List.mem_cons]
      tauto
    have hnd : (as ++ p :: bp :: cs).Nodup := by
      have hperm : (as ++ p :: bp :: cs).Perm (bp :: (as ++ p :: cs)) := perm_next as cs
      exact hperm.nodup_iff.mpr (List.nodup_cons.mpr ⟨fun hc => hbp bp hc rfl, hj.nodup⟩)
    have hpath : Path t.ptr (p :: bp :: cs ++ [s.base]) := by
      refine path_cons_cons.mpr ⟨ptr_setPtr_self, ?_⟩
      refine (hcs_path fun c hc => htptr c (hcs c hc).1 (hcs c hc).2).cons ?_
      rw [ht, ptr_setPtr_of_ne hp.ne', hj.next]
    have horder : (p :: bp :: cs).IsChain fun x y => x + t.len x < y := by
      refine List.isChain_cons_cons.mpr ⟨?_, List.isChain_cons.mpr ⟨hj.gap, hcs_order fun c hc =>
        htsize c (hcs c hc).1⟩⟩
      -- there is a gap before `bp`, for the blocks do not overlap
      refine lt_of_le_of_ne ?_ hadj
      by_cases hpb : p = s.base
      · rw [State.len, htsize p hp.ne, hpb, h.zero]
        omega
      · exact hj.tiles.le_of_lt (Or.inl ⟨by simp, hpb⟩) (Or.inr hb) hp
    have htiles : Tiles {a | a ∈ as ++ p :: bp :: cs ∧ a ≠ s.base ∨ a ∈ X ∧ a ≠ bp} t.len
        s.memory := by
      refine hj.tiles.congr (fun c => ?_) fun _ _ => rfl
      simp only [Set.mem_ofPred_eq, hmem]
      by_cases hc : c = bp
      · subst hc
        simp [hb, hbase_ne.symm]
      · simp [hc]
    obtain ⟨l', hl', hH⟩ := h.relink (t := t) (Y := {c | c ∈ X ∧ c ≠ bp}) hl hj.base
      hj.regions
      (fun c hc => htptr c (has c hc).1 (has c hc).2) (fun c hc => htsize c (has c hc).1) hnd
      (by rw [htsize _ hbase_ne, h.zero]) hpath horder htiles fun c hc hX =>
        ((hmem c).mp hc).elim (fun hc => hj.disjoint c hc hX.1) hX.2
    refine ⟨l', hH, bp, ?_, hj.grows⟩
    have : bp ∈ s.base :: l' := hl' ▸ by simp
    exact (List.mem_cons.mp this).resolve_left hbase_ne.symm

/-! ### `free` -/

theorem frame_joinNext : (joinNext s bp p).base = s.base ∧ (joinNext s bp p).live = s.live ∧
    (joinNext s bp p).regions = s.regions := by
  rw [joinNext]
  split <;> exact ⟨rfl, rfl, rfl⟩

theorem frame_joinPrev : (joinPrev s bp p).base = s.base ∧ (joinPrev s bp p).live = s.live ∧
    (joinPrev s bp p).regions = s.regions := by
  rw [joinPrev]
  split <;> exact ⟨rfl, rfl, rfl⟩

theorem size_joinPrev_of_ne (ha : a ≠ p) : (joinPrev s bp p).size a = s.size a := by
  rw [joinPrev]
  split
  · exact size_setSize_of_ne ha
  · rfl

/-- What a call does not change: the other blocks. -/
structure Frame (X : Set ℕ) (s s' : State) : Prop where
  base : s'.base = s.base
  live : s'.live = s.live
  size : ∀ c ∈ X, s'.size c = s.size c

/-- `free` ends, and the block or the one it has been merged with is in the list. -/
theorem free_holds (h : Holds s l X) (hb : bp ∈ X) :
    ∃ s' l', (∀ n, l.length < n → free n (bp + hdr) s = some s') ∧
      Holds s' l' {c | c ∈ X ∧ c ≠ bp} ∧ (∃ y ∈ l', s.size bp ≤ s'.size y) ∧
      Frame {c | c ∈ X ∧ c ≠ bp} s s' ∧ s'.regions = s.regions := by
  obtain ⟨as, p, bs, hl, hp, hy, hseek⟩ := h.seek_pred hb
  obtain ⟨cs, hj⟩ := joinNext_joined h hb hl hy
  obtain ⟨l', hH, hex⟩ := hj.joinPrev_holds h hb hl hp
  refine ⟨_, l', fun n hn => ?_, hH, hex, ⟨?_, ?_, ?_⟩, ?_⟩
  · rw [free, Nat.add_sub_cancel, hseek n hn]
    rfl
  · exact (frame_joinPrev (s := joinNext s bp p)).1.trans frame_joinNext.1
  · exact (frame_joinPrev (s := joinNext s bp p)).2.1.trans frame_joinNext.2.1
  · rintro c ⟨hc, hne⟩
    have hcp : c ≠ p := fun heq => h.not_mem_ring hc (hl ▸ heq ▸ by simp)
    exact (size_joinPrev_of_ne hcp).trans (hj.size c hne)
  · exact (frame_joinPrev (s := joinNext s bp p)).2.2.trans frame_joinNext.2.2

/-! ### `malloc` -/

/-- Taking `n` units from the block after `x`. -/
theorem take_holds {x : ℕ} (h : Holds s l X) (hx : x ∈ s.base :: l) (hn : 0 < n)
    (hsize : n ≤ s.size (s.ptr x)) :
    ∃ l' a, (take s n x (s.ptr x)).2 = a ∧
      Holds (take s n x (s.ptr x)).1 l' {c | c = a ∨ c ∈ X} ∧ a ∉ X ∧ s.base < a ∧
      (take s n x (s.ptr x)).1.size a = n ∧ Frame X s (take s n x (s.ptr x)).1 ∧
      (take s n x (s.ptr x)).1.regions = s.regions := by
  obtain ⟨as, bs, hl⟩ := List.append_of_mem hx
  have hnext := h.ring.next_eq hl
  -- the block is not `base`, which has no units
  obtain ⟨y, cs, rfl⟩ : ∃ y cs, bs = y :: cs := by
    cases bs with
    | nil =>
      rw [hnext, List.headD_nil, h.zero] at hsize
      omega
    | cons y cs => exact ⟨y, cs, rfl⟩
  rw [List.headD_cons] at hnext
  rw [hnext] at hsize ⊢
  have hmem := h.mem_iff hl
  have hyl : y ∈ l := by
    refine (hmem y).mpr ⟨by simp, ?_⟩
    rintro rfl
    rw [h.zero] at hsize
    omega
  have hby := h.base_lt (Or.inl hyl)
  have hend := h.end_le (Or.inl hyl)
  have hnd := hl ▸ h.nodup
  have horder := h.order
  rw [hl, List.isChain_append_cons_cons] at horder
  have hring := h.ring
  rw [Loop, hl, List.append_assoc, List.cons_append, path_split] at hring
  have hdis : ∀ c ∈ as ++ x :: y :: cs, c ∉ X := fun c hc hX => h.not_mem_ring hX (hl ▸ hc)
  rw [take]
  split
  · -- the whole block
    rename_i heq
    have hperm : (as ++ x :: y :: cs).Perm (y :: (as ++ x :: cs)) := perm_next as cs
    obtain ⟨hyn, hnd'⟩ := List.nodup_cons.mp (hperm.nodup_iff.mp hnd)
    have hne : ∀ c ∈ as ++ cs, c ≠ x := by
      rintro c hc rfl
      exact (List.nodup_cons.mp (List.perm_middle.nodup_iff.mp hnd')).1 hc
    set t := s.setPtr x (s.ptr y) with ht
    have hpath : Path t.ptr (x :: cs ++ [s.base]) := by
      have hcs : Path s.ptr (cs ++ [s.base]) := (path_cons_cons.mp hring.2).2.tail
      refine (hcs.congr fun c hc => ?_).cons ?_
      · exact ptr_setPtr_of_ne (hne c (List.mem_append_right as hc))
      · rw [ht, ptr_setPtr_self]
        exact h.ring.next_eq (show s.base :: l = (as ++ [x]) ++ y :: cs by simpa using hl)
    have hchain : (x :: cs).IsChain fun x y => x + t.len x < y := by
      obtain ⟨hy, hcs⟩ := List.isChain_cons.mp horder.2.2
      refine List.isChain_cons.mpr ⟨fun c hc => ?_, hcs⟩
      have h₁ : x + s.len x < y := horder.2.1
      have h₂ : y + s.len y < c := hy c hc
      have h₃ : t.len x = s.len x := rfl
      omega
    have htiles : Tiles {c | c ∈ as ++ x :: cs ∧ c ≠ s.base ∨ c ∈ {c | c = y ∨ c ∈ X}} t.len
        s.memory := by
      refine h.tiles.congr (fun c => ?_) fun _ _ => rfl
      simp only [Set.mem_ofPred_eq, hmem, hperm.mem_iff, List.mem_cons]
      by_cases hc : c = y
      · simp [hc, hby.ne']
      · simp [hc]
    obtain ⟨l', -, hH⟩ := h.relink (t := t) (Y := {c | c = y ∨ c ∈ X}) hl rfl rfl
      (fun c hc => ptr_setPtr_of_ne (hne c (List.mem_append_left cs hc))) (fun _ _ => rfl) hnd'
      h.zero hpath hchain htiles fun c hc hY =>
        hY.elim (fun heq => hyn (heq ▸ hc)) (hdis c (hperm.mem_iff.mpr (List.mem_cons_of_mem y hc)))
    exact ⟨l', y, rfl, hH, h.disjoint y hyl, hby, heq, ⟨rfl, rfl, fun _ _ => rfl⟩, rfl⟩
  · -- the end of it
    rename_i hneq
    have hk : (s.size y - n) % 2 ^ 32 = s.size y - n := by
      simp only [State.len, hdr] at hend
      omega
    have hnmod : n % 2 ^ 32 = n := by
      simp only [State.len, hdr] at hend
      omega
    simp only [size_setSize_self, hk]
    set q := y + hdr * (s.size y - n) with hq
    have hqy : q ≠ y := by
      simp only [hq, hdr]
      omega
    -- the new block starts inside of an old one
    have hqS : ¬(q ∈ l ∨ q ∈ X) := fun hqS => by
      have := h.tiles.le_of_lt (Or.inl hyl) hqS (by simp only [hq, hdr]; omega)
      simp only [State.len, hq, hdr] at this
      omega
    have hql : q ∉ s.base :: l := by
      rintro hm
      rcases List.mem_cons.mp hm with heq | hm
      · simp only [hq] at heq
        omega
      · exact hqS (Or.inl hm)
    set t := (s.setSize y (s.size y - n)).setSize q n with ht
    have htq : t.size q = n := by rw [ht, size_setSize_self, hnmod]
    have hty : t.size y = s.size y - n := by
      rw [ht, size_setSize_of_ne hqy.symm, size_setSize_self, hk]
    have htsize : ∀ c, c ≠ q → c ≠ y → t.size c = s.size c := fun c hcq hcy => by
      rw [ht, size_setSize_of_ne hcq, size_setSize_of_ne hcy]
    have hring_ne : ∀ c ∈ as ++ x :: y :: cs, c ≠ q := fun c hc heq => hql (hl ▸ heq ▸ hc)
    have hyn : ∀ c ∈ as ++ x :: cs, c ≠ y := by
      have hperm : (as ++ x :: y :: cs).Perm (y :: (as ++ x :: cs)) := perm_next as cs
      rintro c hc rfl
      exact (List.nodup_cons.mp (hperm.nodup_iff.mp hnd)).1 hc
    have hchain : (x :: y :: cs).IsChain fun x y => x + t.len x < y := by
      obtain ⟨hy, hcs⟩ := List.isChain_cons.mp horder.2.2
      refine List.isChain_cons_cons.mpr ⟨?_, List.isChain_cons.mpr ⟨fun c hc => ?_, ?_⟩⟩
      · rw [State.len, htsize x (hring_ne x (by simp)) (hyn x (by simp))]
        exact horder.2.1
      · have := hy c hc
        simp only [State.len, hty, hdr] at this ⊢
        omega
      · refine hcs.imp_of_mem_imp fun c c' hc _ hcc => ?_
        rw [State.len, htsize c (hring_ne c (by simp [hc])) (hyn c (by simp [hc]))]
        exact hcc
    have htiles : Tiles {c | c ∈ as ++ x :: y :: cs ∧ c ≠ s.base ∨ c ∈ {c | c = q ∨ c ∈ X}} t.len
        s.memory := by
      refine h.tiles.split (a := y) (b := q) (Or.inl hyl) ?_ ?_ ?_ ?_ (fun c => ?_)
        fun c hc hcy => ?_
      · simp only [State.len, hty, hdr]
        omega
      · simp only [State.len, hty, hq]
      · simp only [State.len, htq, hdr]
        omega
      · simp only [State.len, hty, htq, hdr]
        omega
      · simp only [Set.mem_ofPred_eq, hmem]
        tauto
      · rw [State.len, State.len, htsize c (fun heq => hqS (heq ▸ hc)) hcy]
    have hbq : s.base < q := by
      simp only [hq]
      omega
    obtain ⟨l', -, hH⟩ := h.relink (t := t) (Y := {c | c = q ∨ c ∈ X}) hl rfl rfl
      (fun _ _ => rfl)
      (fun c hc => htsize c (hring_ne c (by simp [hc])) (hyn c (by simp [hc]))) hnd
      (by rw [htsize _ hbq.ne hby.ne, h.zero]) hring.2 hchain htiles fun c hc hY =>
        hY.elim (hring_ne c hc) (hdis c hc)
    refine ⟨l', q, rfl, hH, fun hX => hqS (Or.inr hX), hbq, htq, ⟨rfl, rfl, fun c hc => ?_⟩, rfl⟩
    exact htsize c (fun heq => hqS (Or.inr (heq ▸ hc))) fun heq => h.disjoint y hyl (heq ▸ hc)

end

end Umalloc

end Xv6
