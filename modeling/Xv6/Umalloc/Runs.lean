import Xv6.Umalloc.Sound

/-!
# Runs of the allocator

`malloc` walks the circle from `freep` and comes back to it unless it finds a block
(`mallocLoop_scan`); in that case `morecore` adds one that is large enough, and a second walk finds
it. So both loops end, and the invariant holds in every run in which `sbrk` returns the memory that
was asked for (`allocator_sound`).

* **Sizes** are of type `uint` and count units of 16 bytes, so the blocks of a heap of 64 GiB or
  more can add up to a size that does not fit (`merged_size_wraps`).
* **`sbrk`** takes an `int`. A request of almost 2 GiB or more reaches it as a small or a negative
  number, and `malloc` returns a block that the process does not have (`malloc_beyond_break`).
-/

namespace Xv6

namespace Umalloc

open Circular Ownership Transition

section

variable {s s' : State} {l : List ℕ} {X X' : Set ℕ} {a hp n nu fuel : ℕ} {ans : Option ℕ}

theorem Holds.congr (h : Holds s l X) (hX : ∀ c, c ∈ X' ↔ c ∈ X) : Holds s l X' := by
  obtain rfl : X' = X := Set.ext hX
  exact h

theorem Holds.freep_pos (h : Holds s l X) : 0 < s.freep := by
  have hb := h.base_pos
  rcases List.mem_cons.mp h.freep with heq | hm
  · omega
  · have := h.base_lt (Or.inl hm)
    omega

/-! ### `morecore` -/

/-- `sbrk` returns a new region, which is below the addresses at which sizes overflow. -/
structure Grants (s : State) (nu hp : ℕ) : Prop extends Fresh s nu hp where
  below : hp + hdr * coreUnits nu ≤ 2 ^ 36

theorem le_coreUnits (nu : ℕ) : nu ≤ coreUnits nu := by
  rw [coreUnits]
  split <;> omega

theorem coreUnits_pos (nu : ℕ) : 0 < coreUnits nu := by
  rw [coreUnits]
  split <;> omega

theorem Grants.lt (hg : Grants s nu hp) : coreUnits nu < 2 ^ 32 := by
  have hb := hg.base
  have hbelow := hg.below
  simp only [hdr] at hb hbelow
  omega

theorem mem_memory_cons {r : ℕ × ℕ} {x : ℕ} (hr : s'.regions = r :: s.regions) :
    x ∈ s'.memory ↔ x ∈ s.memory ∨ r.1 ≤ x ∧ x < r.1 + r.2 := by
  simp only [State.memory, Set.mem_ofPred_eq, hr, List.mem_cons, exists_eq_or_imp]
  exact Or.comm

/-- The new region is a block. -/
theorem Holds.grow (h : Holds s l X) (hg : Grants s nu hp) :
    Holds (({ s with regions := (hp, (sbrkArg (coreUnits nu)).toNat) :: s.regions } :
      State).setSize hp (coreUnits nu)) l {c | c = hp ∨ c ∈ X} ∧ ∀ c, c ∈ l ∨ c ∈ X → c < hp := by
  have hpos := coreUnits_pos nu
  have hmod : coreUnits nu % 2 ^ 32 = coreUnits nu := Nat.mod_eq_of_lt hg.lt
  have hreg : (sbrkArg (coreUnits nu)).toNat = hdr * coreUnits nu := by
    rw [hg.size, Int.toNat_natCast]
  have hout : ∀ x ∈ s.memory, x < hp := by
    rintro x ⟨r, hr, -, hlt⟩
    exact hlt.trans_le (hg.above r hr)
  have hblock : ∀ c, c ∈ l ∨ c ∈ X → c < hp := fun c hc => hout c (h.tiles.mem_start hc)
  rw [hreg]
  set t := ({ s with regions := (hp, hdr * coreUnits nu) :: s.regions } : State).setSize hp
    (coreUnits nu) with ht
  have htsize : ∀ c, c ≠ hp → t.size c = s.size c := fun c hc => size_setSize_of_ne hc
  have htself : t.size hp = coreUnits nu := by rw [ht, size_setSize_self, hmod]
  have hmem : ∀ x, x ∈ t.memory ↔ x ∈ s.memory ∨ hp ≤ x ∧ x < hp + hdr * coreUnits nu := fun x =>
    mem_memory_cons (r := (hp, hdr * coreUnits nu)) rfl
  have hbase : s.base ≠ hp := by
    have := hg.base
    simp only [hdr] at this
    omega
  have hne : ∀ c ∈ s.base :: l, c ≠ hp := fun c hc => by
    rcases List.mem_cons.mp hc with rfl | hc
    · exact hbase
    · exact (hblock c (Or.inl hc)).ne
  refine ⟨⟨h.ring, ?_, ?_, h.freep, ?_, fun c hc => ?_, fun x hx => ?_, fun x hx => ?_,
    h.base_pos⟩, hblock⟩
  · refine h.order.imp_of_mem_imp fun x y hx _ hxy => ?_
    rw [State.len, htsize x (hne x hx)]
    exact hxy
  · exact (htsize _ hbase).trans h.zero
  · refine h.tiles.add (a := hp) hout ?_ (fun c => ?_) (fun c hc => ?_) fun x => ?_
    · rw [State.len, htself]
      exact Nat.mul_pos (by decide) hpos
    · simp only [Set.mem_ofPred_eq]
      rw [@or_comm (c = hp), or_assoc]
    · rw [State.len, State.len, htsize c (hblock c hc).ne]
    · rw [hmem, State.len, htself]
  · rintro (rfl | hX)
    · exact lt_irrefl _ (hblock c (Or.inl hc))
    · exact h.disjoint c hc hX
  · rcases (hmem x).mp hx with hx | hx
    · exact h.above x hx
    · exact hg.base.trans hx.1
  · rcases (hmem x).mp hx with hx | hx
    · exact h.below x hx
    · exact hx.2.trans_le hg.below

/-- `morecore` puts a block that is large enough into the list. -/
theorem morecore_holds (h : Holds s l X) (hg : Grants s nu hp) :
    ∃ s' l', (∀ n, l.length < n → morecore n nu (some hp) s = some (s', s'.freep)) ∧
      Holds s' l' X ∧ (∃ y ∈ l', nu ≤ s'.size y) ∧ Frame X s s' := by
  obtain ⟨hH, hlt⟩ := h.grow hg
  obtain ⟨s', l', hrun, hH', ⟨y, hy, hsize⟩, hf, -⟩ := free_holds hH (Or.inl rfl)
  have hX : ∀ c, c ∈ X ↔ (c = hp ∨ c ∈ X) ∧ c ≠ hp := fun c =>
    ⟨fun hc => ⟨Or.inr hc, (hlt c (Or.inr hc)).ne⟩, fun hc => hc.1.resolve_left hc.2⟩
  refine ⟨s', l', fun n hn => ?_, hH'.congr hX, ⟨y, hy, ?_⟩, ⟨hf.base, hf.live, fun c hc => ?_⟩⟩
  · rw [morecore]
    simp only [hrun n hn]
    rfl
  · rw [size_setSize_self, Nat.mod_eq_of_lt hg.lt] at hsize
    exact (le_coreUnits nu).trans hsize
  · rw [hf.size c ((hX c).mp hc), size_setSize_of_ne (hlt c (Or.inr hc)).ne]

/-! ### The loop of `malloc` -/

/-- The walk from `prevp` to `freep` stops at a block that is large enough, or ends with a call of
`morecore`. -/
theorem mallocLoop_scan (n : ℕ) (ans : Option ℕ) : ∀ (rest : List ℕ) (prevp : ℕ),
    Path s.ptr (prevp :: rest ++ [s.freep]) → s.freep ∉ rest →
      (∃ x ∈ prevp :: rest, n ≤ s.size (s.ptr x) ∧ ∀ fuel,
        mallocLoop n (fuel + rest.length + 1) ans prevp (s.ptr prevp) s =
          some (take s n x (s.ptr x))) ∨
      (∀ y ∈ rest ++ [s.freep], s.size y < n) ∧ ∀ fuel,
        mallocLoop n (fuel + rest.length + 1) ans prevp (s.ptr prevp) s = (do
          let (s, p) ← morecore fuel n ans s
          if p = 0 then return (s, 0)
          else mallocLoop n fuel none p (s.ptr p) s) := by
  intro rest
  induction rest with
  | nil =>
    intro prevp hpath _
    have hnext : s.ptr prevp = s.freep := (path_cons_cons.mp hpath).1
    by_cases hsize : n ≤ s.size (s.ptr prevp)
    · refine Or.inl ⟨prevp, List.mem_cons_self, hsize, fun fuel => ?_⟩
      rw [mallocLoop, if_pos hsize]
    · rw [hnext] at hsize
      refine Or.inr ⟨by simpa using hsize, fun fuel => ?_⟩
      rw [List.length_nil, Nat.add_zero, hnext, mallocLoop, if_neg hsize, if_pos rfl]
  | cons y rest ih =>
    intro prevp hpath hnot
    obtain ⟨hnext, hpath⟩ := path_cons_cons.mp hpath
    obtain ⟨hne, hnot⟩ := not_or.mp (List.mem_cons.not.mp hnot)
    by_cases hsize : n ≤ s.size y
    · refine Or.inl ⟨prevp, List.mem_cons_self, hnext ▸ hsize, fun fuel => ?_⟩
      rw [hnext, mallocLoop, if_pos hsize]
    · -- one turn, after which the walk is from `y`
      have hturn : ∀ fuel, mallocLoop n (fuel + (y :: rest).length + 1) ans prevp (s.ptr prevp) s =
          mallocLoop n (fuel + rest.length + 1) ans y (s.ptr y) s := fun fuel => by
        rw [hnext, mallocLoop, if_neg hsize, if_neg (Ne.symm hne)]
        rfl
      rcases ih y hpath hnot with ⟨x, hx, hxs, hrun⟩ | ⟨hall, hrun⟩
      · exact Or.inl ⟨x, List.mem_cons_of_mem prevp hx, hxs, fun fuel => (hturn fuel).trans (hrun fuel)⟩
      · refine Or.inr ⟨fun z hz => ?_, fun fuel => (hturn fuel).trans (hrun fuel)⟩
        rcases List.mem_cons.mp hz with rfl | hz
        · exact not_le.mp hsize
        · exact hall z hz

/-- The nodes in the order of the walk from `freep`. -/
theorem Holds.walk (h : Holds s l X) : ∃ rest, Path s.ptr (s.freep :: rest ++ [s.freep]) ∧
    s.freep ∉ rest ∧ ∀ x, x ∈ s.freep :: rest ↔ x ∈ s.base :: l := by
  obtain ⟨xs, ys, hl⟩ := List.append_of_mem h.freep
  have hperm : (s.base :: l).Perm (s.freep :: (ys ++ xs)) := by
    rw [hl]
    exact List.perm_middle.trans (List.Perm.cons _ List.perm_append_comm)
  exact ⟨ys ++ xs, h.ring.rotate hl, (List.nodup_cons.mp (hperm.nodup_iff.mp h.nodup)).1,
    fun x => hperm.mem_iff.symm⟩

/-- What the loop of `malloc` returns: no block, or one of `n` units that was not in use. -/
inductive Found (n : ℕ) (X : Set ℕ) (ans : Option ℕ) (s s' : State) (a : ℕ) : Prop
  | failed (l' : List ℕ) (hans : ans = none) (ha : a = 0) (hH : Holds s' l' X) (hf : Frame X s s')
  | block (l' : List ℕ) (hH : Holds s' l' {c | c = a ∨ c ∈ X}) (hX : a ∉ X) (hpos : 0 < a)
      (hsize : s'.size a = n) (hf : Frame X s s')

theorem Frame.trans {t : State} (h : Frame X s t) (h' : Frame X t s') : Frame X s s' :=
  ⟨h'.base.trans h.base, h'.live.trans h.live, fun c hc => (h'.size c hc).trans (h.size c hc)⟩

theorem take_found {x : ℕ} (h : Holds s l X) (hx : x ∈ s.base :: l) (hn : 0 < n)
    (hsize : n ≤ s.size (s.ptr x)) :
    Found n X ans s (take s n x (s.ptr x)).1 (take s n x (s.ptr x)).2 := by
  obtain ⟨l', a, ha, hH, hX, hlt, hs, hf, -⟩ := take_holds h hx hn hsize
  rw [ha]
  exact .block l' hH hX (Nat.zero_lt_of_lt hlt) hs hf

/-- The loop of `malloc` ends. -/
theorem mallocLoop_found (h : Holds s l X) (hn : 0 < n) (hg : ∀ hp ∈ ans, Grants s n hp) :
    ∃ N s' a, (∀ fuel, N ≤ fuel →
      mallocLoop n fuel ans s.freep (s.ptr s.freep) s = some (s', a)) ∧ Found n X ans s s' a := by
  obtain ⟨rest, hpath, hnot, hmem⟩ := h.walk
  have hfuel : ∀ {k fuel}, k + rest.length + 1 ≤ fuel →
      ∃ m, k ≤ m ∧ fuel = m + rest.length + 1 := fun hle =>
    ⟨_, Nat.le_sub_of_add_le (Nat.le_sub_of_add_le hle), by omega⟩
  rcases mallocLoop_scan n ans rest s.freep hpath hnot with ⟨x, hx, hsize, hrun⟩ | ⟨-, hrun⟩
  · refine ⟨0 + rest.length + 1, _, _, fun fuel hle => ?_, take_found h ((hmem x).mp hx) hn hsize⟩
    obtain ⟨m, -, rfl⟩ := hfuel hle
    exact hrun m
  · cases ans with
    | none =>
      refine ⟨0 + rest.length + 1, s, 0, fun fuel hle => ?_, .failed l rfl rfl h ⟨rfl, rfl, fun _ _ => rfl⟩⟩
      obtain ⟨m, -, rfl⟩ := hfuel hle
      rw [hrun m]
      rfl
    | some hp =>
      obtain ⟨s₁, l₁, hcore, h₁, ⟨y, hy, hysize⟩, hf₁⟩ := morecore_holds h (hg hp rfl)
      obtain ⟨rest₁, hpath₁, hnot₁, hmem₁⟩ := h₁.walk
      rcases mallocLoop_scan n none rest₁ s₁.freep hpath₁ hnot₁ with
        ⟨x, hx, hsize, hrun₁⟩ | ⟨hall, -⟩
      · refine ⟨(l.length + 1 + rest₁.length + 1) + rest.length + 1, (take s₁ n x (s₁.ptr x)).1,
          (take s₁ n x (s₁.ptr x)).2, fun fuel hle => ?_, ?_⟩
        · obtain ⟨m, hm, rfl⟩ := hfuel hle
          obtain ⟨m₁, rfl⟩ : ∃ k, m = k + rest₁.length + 1 := ⟨m - rest₁.length - 1, by omega⟩
          rw [hrun, hcore _ (by omega)]
          simp only [Option.bind_eq_bind, Option.bind_some, h₁.freep_pos.ne', if_false]
          exact hrun₁ m₁
        · have hfound : Found n X none s₁ _ _ := take_found h₁ ((hmem₁ x).mp hx) hn hsize
          rcases hfound with
            ⟨l', -, ha, hH, hf⟩ | ⟨l', hH, hX, hpos, hs, hf⟩
          · obtain ⟨-, a, ha', -, -, hlt, -⟩ := take_holds h₁ ((hmem₁ x).mp hx) hn hsize
            omega
          · exact .block l' hH hX hpos hs (hf₁.trans hf)
      · -- the block that was added would have been too small
        have hym : y ∈ rest₁ ++ [s₁.freep] := by
          have := (hmem₁ y).mpr (List.mem_cons_of_mem _ hy)
          rw [List.mem_cons] at this
          rw [List.mem_append, List.mem_singleton]
          exact this.symm
        exact absurd hysize (not_le.mpr (hall y hym))

/-! ### Calls -/

theorem free_mono {ap m : ℕ} (h : free fuel ap s = some s') (hm : fuel ≤ m) :
    free m ap s = some s' := by
  rw [free] at h ⊢
  obtain ⟨p, hp, h⟩ := Option.bind_eq_some_iff.mp h
  rw [seek_mono hp hm]
  exact h

theorem morecore_mono {r : State × ℕ} {m : ℕ} (h : morecore fuel nu ans s = some r)
    (hm : fuel ≤ m) : morecore m nu ans s = some r := by
  cases ans with
  | none => exact h
  | some hp =>
    rw [morecore] at h ⊢
    obtain ⟨s₁, hs₁, h⟩ := Option.bind_eq_some_iff.mp h
    rw [Option.bind_eq_bind, free_mono hs₁ hm]
    exact h

theorem mallocLoop_mono {r : State × ℕ} {prevp p m : ℕ}
    (h : mallocLoop n fuel ans prevp p s = some r) (hm : fuel ≤ m) :
    mallocLoop n m ans prevp p s = some r := by
  induction fuel generalizing ans prevp p s m with
  | zero => cases h
  | succ fuel ih =>
    obtain ⟨m, rfl⟩ : ∃ k, m = k + 1 := ⟨m - 1, by omega⟩
    have hle := Nat.le_of_succ_le_succ hm
    rw [mallocLoop] at h ⊢
    by_cases hsize : n ≤ s.size p
    · rw [if_pos hsize] at h ⊢
      exact h
    · rw [if_neg hsize] at h ⊢
      by_cases hp : p = s.freep
      · rw [if_pos hp] at h ⊢
        obtain ⟨⟨s₁, p₁⟩, hs₁, h⟩ := Option.bind_eq_some_iff.mp h
        rw [Option.bind_eq_bind, morecore_mono hs₁ hle, Option.bind_some]
        by_cases h0 : p₁ = 0
        · simp only [h0, if_true] at h ⊢
          exact h
        · simp only [h0, if_false] at h ⊢
          exact ih h hle
      · rw [if_neg hp] at h ⊢
        exact ih h hle

theorem malloc_mono {m : ℕ} {x : State × ℕ} (h : malloc fuel a ans s = some x)
    (hm : fuel ≤ m) : malloc m a ans s = some x := by
  rw [malloc] at h ⊢
  obtain ⟨y, hy, h⟩ := Option.bind_eq_some_iff.mp h
  rw [Option.bind_eq_bind, mallocLoop_mono hy hm]
  exact h

/-- The invariant of the allocator between two calls. -/
structure Inv (s : State) : Prop where
  base_pos : 0 < s.base
  list : s.freep = 0 ∧ s.live = [] ∧ s.regions = [] ∨ ∃ l, Holds s l {a | a ∈ s.live}

theorem Inv.start (h : Inv s) : ∃ l, Holds (start s) l {a | a ∈ s.live} ∧
    Frame {a | a ∈ s.live} s (start s) ∧ (start s).regions = s.regions := by
  rw [Umalloc.start]
  rcases h.list with ⟨hnull, hlive, hreg⟩ | ⟨l, hH⟩
  · rw [if_pos hnull]
    have hmem : ∀ x, x ∉ s.memory := by
      rintro x ⟨r, hr, -⟩
      rw [hreg] at hr
      exact absurd hr List.not_mem_nil
    refine ⟨[], ⟨?_, .singleton _, ?_, List.mem_cons_self, ⟨.empty ?_ hmem, ?_⟩, nofun, fun x hx =>
      absurd hx (hmem x), fun x hx => absurd hx (hmem x), h.base_pos⟩, ⟨rfl, rfl, ?_⟩, rfl⟩
    · exact path_cons_cons.mpr ⟨ptr_setPtr_self, .singleton _⟩
    · exact size_setSize_self
    · rintro a x ⟨ha, -⟩
      rw [hlive] at ha
      simp at ha
    · intro a ha
      rw [hlive] at ha
      simp at ha
    · intro c hc
      rw [Set.mem_ofPred_eq, hlive] at hc
      exact absurd hc List.not_mem_nil
  · rw [if_neg hH.freep_pos.ne']
    exact ⟨l, hH, ⟨rfl, rfl, fun _ _ => rfl⟩, rfl⟩

/-- `malloc` ends. It returns a new block that has room for `nbytes` bytes after its header, or
`sbrk` has failed. -/
theorem malloc_inv (h : Inv s) (nbytes : ℕ) (ans : Option ℕ)
    (hg : ∀ hp ∈ ans, Grants s (nunits nbytes) hp) :
    ∃ N s' r, (∀ fuel, N ≤ fuel → malloc fuel nbytes ans s = some (s', r)) ∧ Inv s' ∧
      (r = 0 ∧ ans = none ∨ ∃ a, r = a + hdr ∧ s'.live = a :: s.live ∧ a ∉ s.live ∧
        nbytes + hdr ≤ s'.len a) := by
  obtain ⟨l, hH, hf, hreg⟩ := h.start
  have hg' : ∀ hp ∈ ans, Grants (start s) (nunits nbytes) hp := fun hp hm =>
    ⟨⟨by rw [hf.base]; exact (hg hp hm).base, by rw [hreg]; exact (hg hp hm).above, (hg hp hm).size⟩,
      (hg hp hm).below⟩
  have hpos : 0 < nunits nbytes := Nat.succ_pos _
  obtain ⟨N, s', a, hrun, hfound⟩ := mallocLoop_found hH hpos hg'
  cases hfound with
  | failed l' hans ha hH' hf' =>
    subst ha
    have hlive : s'.live = s.live := hf'.live.trans hf.live
    refine ⟨N, s', 0, fun fuel hle => ?_, ⟨hH'.base_pos, Or.inr ⟨l', ?_⟩⟩, Or.inl ⟨rfl, hans⟩⟩
    · rw [malloc, Option.bind_eq_bind, hrun fuel hle]
      rfl
    · exact hH'.congr fun c => by rw [hlive]
  | block l' hH' hX hpos hsize hf' =>
    have hlive : s'.live = s.live := hf'.live.trans hf.live
    refine ⟨N, { s' with live := a :: s'.live }, a + hdr, fun fuel hle => ?_,
      ⟨hH'.base_pos, Or.inr ⟨l', ?_⟩⟩, Or.inr ⟨a, rfl, by rw [hlive], hX, ?_⟩⟩
    · rw [malloc, Option.bind_eq_bind, hrun fuel hle, Option.bind_some]
      simp only [hpos.ne', if_false]
      rfl
    · have hH'' : Holds { s' with live := a :: s'.live } l' {c | c = a ∨ c ∈ s.live} :=
        ⟨hH'.ring, hH'.order, hH'.zero, hH'.freep, hH'.tiles, hH'.disjoint, hH'.above, hH'.below,
          hH'.base_pos⟩
      refine hH''.congr fun c => ?_
      simp only [Set.mem_ofPred_eq, hlive, List.mem_cons]
    · have hlen : ({ s' with live := a :: s'.live } : State).len a = hdr * nunits nbytes :=
        congrArg (hdr * ·) hsize
      rw [hlen, nunits]
      simp only [hdr]
      omega

/-- `free` of a block in use ends. -/
theorem free_inv (h : Inv s) (ha : a ∈ s.live) :
    ∃ N s', (∀ fuel, N ≤ fuel →
      free fuel (a + hdr) { s with live := s.live.filter (· ≠ a) } = some s') ∧ Inv s' := by
  rcases h.list with ⟨-, hlive, -⟩ | ⟨l, hH⟩
  · rw [hlive] at ha
    exact absurd ha List.not_mem_nil
  · have hH' : Holds { s with live := s.live.filter (· ≠ a) } l {c | c ∈ s.live} :=
      ⟨hH.ring, hH.order, hH.zero, hH.freep, hH.tiles, hH.disjoint, hH.above, hH.below, hH.base_pos⟩
    obtain ⟨s', l', hrun, hH'', -, hf, -⟩ := free_holds hH' ha
    refine ⟨l.length + 1, s', fun fuel hle => hrun fuel hle, hH''.base_pos, Or.inr ⟨l', ?_⟩⟩
    refine hH''.congr fun c => ?_
    simp only [hf.live, Set.mem_ofPred_eq, List.mem_filter, decide_eq_true_eq]

/-- Writing inside the blocks in use changes nothing. -/
theorem store_inv (h : Inv s) {ptr size : ℕ → ℕ} (hw : Allowed s (.store ptr size)) :
    Inv { s with ptr := ptr, size := size } := by
  refine ⟨h.base_pos, ?_⟩
  rcases h.list with ⟨hnull, hlive, hreg⟩ | ⟨l, hH⟩
  · exact Or.inl ⟨hnull, hlive, hreg⟩
  -- no header is strictly inside a block
  have hsame : ∀ a, a ∈ s.base :: l ∨ a ∈ s.live → ptr a = s.ptr a ∧ size a = s.size a := by
    refine fun a ha => hw a fun b hb hlt => ?_
    rcases ha with ha | ha
    · rcases List.mem_cons.mp ha with rfl | ha
      · exact absurd hlt.1 (not_lt.mpr (hH.base_lt (Or.inr hb)).le)
      · have := hH.tiles.le_of_lt (Or.inr hb) (Or.inl ha) hlt.1
        exact absurd hlt.2 (not_lt.mpr this)
    · have := hH.tiles.le_of_lt (Or.inr hb) (Or.inr ha) hlt.1
      exact absurd hlt.2 (not_lt.mpr this)
  have hring : ∀ a ∈ s.base :: l, ptr a = s.ptr a ∧ size a = s.size a := fun a ha =>
    hsame a (Or.inl ha)
  refine Or.inr ⟨l, hH.ring.congr fun a ha => (hring a ha).1, ?_, ?_, hH.freep, ?_, hH.disjoint,
    hH.above, hH.below, hH.base_pos⟩
  · refine hH.order.imp_of_mem_imp fun x y hx _ hxy => ?_
    change x + hdr * size x < y
    rw [(hring x hx).2]
    exact hxy
  · exact (hring s.base List.mem_cons_self).2.trans hH.zero
  · refine hH.tiles.congr (fun _ => Iff.rfl) fun a ha => ?_
    have hmem : a ∈ s.base :: l ∨ a ∈ s.live := ha.imp_left (List.mem_cons_of_mem _)
    exact congrArg (hdr * ·) (hsame a hmem).2

/-- The regions that `sbrk` returns end below the addresses at which sizes overflow. -/
def Call.Below : Call → Prop
  | .malloc nbytes ans => ∀ hp ∈ ans, hp + hdr * coreUnits (nunits nbytes) ≤ 2 ^ 36
  | _ => True

/-- The runs of a program with the allocator. -/
abbrev Runs (s : State) : Prop :=
  Transition.Reach Boot step (fun s c => Allowed s c.2 ∧ c.2.Below) s

theorem step_inv {c : ℕ × Call} (h : Inv s) (hok : Allowed s c.2 ∧ c.2.Below)
    (hs : step s c = some s') : Inv s' := by
  obtain ⟨fuel, c⟩ := c
  cases c with
  | malloc nbytes ans =>
    obtain ⟨N, s₁, r, hrun, hi, -⟩ := malloc_inv h nbytes ans fun hp hm =>
      ⟨hok.1.2 hp hm, hok.2 hp hm⟩
    obtain ⟨⟨s₂, r₂⟩, hs₂, rfl⟩ := Option.map_eq_some_iff.mp hs
    have hmono := malloc_mono hs₂ (Nat.le_max_right N fuel)
    rw [hrun _ (Nat.le_max_left N fuel)] at hmono
    obtain ⟨rfl, -⟩ := Prod.mk.inj (Option.some.inj hmono)
    exact hi
  | free a =>
    obtain ⟨N, s₁, hrun, hi⟩ := free_inv h hok.1
    have hmono := free_mono hs (Nat.le_max_right N fuel)
    rw [hrun _ (Nat.le_max_left N fuel)] at hmono
    obtain rfl := Option.some.inj hmono
    exact hi
  | store ptr size =>
    obtain rfl := Option.some.inj hs
    exact store_inv h hok.1

theorem inv_of_runs (hr : Runs s) : Inv s :=
  hr.inv (fun _ hb => ⟨hb.1, Or.inl hb.2⟩) fun _ _ _ hi hok hs => step_inv hi hok hs

/-- The free list is circular, in address order, and without adjacent blocks; the free blocks, the
blocks in use and `base` do not overlap, and the blocks tile the memory that `sbrk` has returned;
`malloc` returns blocks that are large enough; and the loops of `malloc` and `free` end. -/
theorem allocator_sound (hr : Runs s) :
    (s.freep = 0 ∧ s.live = [] ∧ s.regions = [] ∨
      ∃ l, Loop s.ptr s.base l ∧ s.freep ∈ s.base :: l ∧
        (s.base :: l).Pairwise (fun x y => x + s.len x < y) ∧ (∀ a ∈ l, a ∉ s.live) ∧
        Tiles {a | a ∈ l ∨ a ∈ s.live} s.len s.memory ∧ ∀ x ∈ s.memory, s.base + hdr ≤ x) ∧
    (∀ nbytes ans, Allowed s (.malloc nbytes ans) → (Call.malloc nbytes ans).Below →
      ∃ N s' r, (∀ fuel, N ≤ fuel → malloc fuel nbytes ans s = some (s', r)) ∧
        (r = 0 ∧ ans = none ∨ ∃ a, r = a + hdr ∧ s'.live = a :: s.live ∧ a ∉ s.live ∧
          nbytes + hdr ≤ s'.len a)) ∧
    ∀ a ∈ s.live, ∃ N s', ∀ fuel, N ≤ fuel → step s (fuel, .free a) = some s' := by
  have hi := inv_of_runs hr
  refine ⟨hi.list.imp_right ?_, fun nbytes ans hok hbelow => ?_, fun a ha => ?_⟩
  · rintro ⟨l, hH⟩
    exact ⟨l, hH.ring, hH.freep, hH.pairwise, hH.disjoint, hH.tiles, hH.above⟩
  · obtain ⟨N, s', r, hrun, -, hres⟩ := malloc_inv hi nbytes ans fun hp hm =>
      ⟨hok.2 hp hm, hbelow hp hm⟩
    exact ⟨N, s', r, hrun, hres⟩
  · obtain ⟨N, s', hrun, -⟩ := free_inv hi ha
    exact ⟨N, s', hrun⟩

end

/-! ### Runs on fixed inputs -/

/-- The calls that a run below makes: those that can be checked. -/
def Plain (s : State) (c : ℕ × Call) : Prop :=
  match c.2 with
  | .malloc nbytes (some hp) => nbytes < 2 ^ 32 ∧ s.base + hdr ≤ hp ∧
      (∀ r ∈ s.regions, r.1 + r.2 ≤ hp) ∧
      sbrkArg (coreUnits (nunits nbytes)) = (hdr * coreUnits (nunits nbytes) : ℕ)
  | .free a => a ∈ s.live
  | _ => False

instance : ∀ (s : State) (c : ℕ × Call), Decidable (Plain s c)
  | _, (_, .malloc _ (some _)) => inferInstanceAs (Decidable (_ ∧ _))
  | _, (_, .malloc _ none) => inferInstanceAs (Decidable False)
  | s, (_, .free a) => inferInstanceAs (Decidable (a ∈ s.live))
  | _, (_, .store _ _) => inferInstanceAs (Decidable False)

theorem Plain.allowed {s : State} {c : ℕ × Call} (h : Plain s c) : Allowed s c.2 := by
  obtain ⟨fuel, c⟩ := c
  cases c with
  | malloc nbytes ans =>
    cases ans with
    | none => exact absurd h id
    | some hp =>
      refine ⟨h.1, ?_⟩
      rintro _ ⟨⟩
      exact ⟨h.2.1, h.2.2.1, h.2.2.2⟩
  | free a => exact h
  | store ptr size => exact absurd h id

def bootHeap : State := { base := 0x1000, ptr := fun _ => 0, size := fun _ => 0 }

theorem boot_bootHeap : Boot bootHeap := ⟨by decide, rfl, rfl, rfl⟩

def hundred : Call := .malloc 100 (some 0x4000)

def afterHundred : State := (step bootHeap (5, hundred)).get (by decide +kernel)

theorem allocator_sound_afterHundred :
    afterHundred.live = [0x13f80] ∧
      ∃ N s', ∀ fuel, N ≤ fuel → step afterHundred (fuel, .free 0x13f80) = some s' := by
  have hplain : Plain bootHeap (5, hundred) := by decide
  have hr : Runs afterHundred := by
    refine (Reach.start boot_bootHeap).step (l := (5, hundred)) ⟨hplain.allowed, ?_⟩
      (Option.some_get _).symm
    rintro _ ⟨⟩
    decide
  have hlive : afterHundred.live = [0x13f80] := by decide +kernel
  exact ⟨hlive, (allocator_sound hr).2.2 _ (hlive ▸ List.mem_cons_self)⟩

/-- Regions of almost 2 GiB, one after the other. -/
def hugeRegion (k : ℕ) : ℕ := 0x4000 + k * (2 ^ 31 - 16)

/-- Take 33 such regions, and free them all. -/
def hugeCalls : List (ℕ × Call) :=
  (List.range 33).map (fun k => (5, .malloc (2 ^ 31 - 32) (some (hugeRegion k)))) ++
    (List.range 33).map fun k => (5, .free (hugeRegion k))

theorem hugeCalls_run : (runAll Plain step bootHeap hugeCalls).isSome = true := by decide +kernel

def afterHuge : State := (runAll Plain step bootHeap hugeCalls).get hugeCalls_run

/-- The nodes of a ring lie in every set that the pointers do not leave. -/
theorem mem_of_path {next : ℕ → ℕ} {C : List ℕ} (hC : ∀ x ∈ C, next x ∈ C) {p : ℕ} {l : List ℕ}
    (hpath : Path next (p :: l)) (hp : p ∈ C) : ∀ x ∈ p :: l, x ∈ C := by
  induction l generalizing p with
  | nil => exact fun x hx => List.mem_singleton.mp hx ▸ hp
  | cons y l ih =>
    obtain ⟨hpy, hpath⟩ := path_cons_cons.mp hpath
    intro x hx
    rcases List.mem_cons.mp hx with rfl | hx
    · exact hp
    · exact ih hpath (hpy ▸ hC p hp) x hx

/-- The sum of the sizes of the blocks does not fit into 32 bits: when all are free, most of the
memory is in no block. -/
theorem merged_size_wraps :
    Transition.Reach Boot step (fun s c => Allowed s c.2) afterHuge ∧
      ¬∃ l, Loop afterHuge.ptr afterHuge.base l ∧
        Tiles {a | a ∈ l ∨ a ∈ afterHuge.live} afterHuge.len afterHuge.memory := by
  refine ⟨?_, ?_⟩
  · have hr : Transition.Reach Boot step Plain afterHuge :=
      (Reach.start boot_bootHeap).runAll_get hugeCalls_run
    exact hr.mono fun _ _ h => h.allowed
  · rintro ⟨l, hring, htiles⟩
    have hfacts : (∀ x ∈ [0x1000, 0x4000], afterHuge.ptr x ∈ [0x1000, 0x4000]) ∧
        afterHuge.live = [] ∧ afterHuge.base = 0x1000 ∧
        (∀ x ∈ [0x1000, 0x4000], x + afterHuge.len x ≤ hugeRegion 1) ∧
        ∃ r ∈ afterHuge.regions, r.1 ≤ hugeRegion 1 ∧ hugeRegion 1 < r.1 + r.2 := by
      decide +kernel
    obtain ⟨hC, hlive, hbase, hend, hmem⟩ := hfacts
    generalize afterHuge = s at *
    obtain ⟨a, ⟨ha, -, hlt⟩⟩ := htiles.exact.held (hugeRegion 1) hmem
    have haC : a ∈ [0x1000, 0x4000] := by
      rcases ha with ha | ha
      · refine mem_of_path hC hring (hbase ▸ List.mem_cons_self) a ?_
        simp [ha]
      · have ha : a ∈ s.live := ha
        rw [hlive] at ha
        exact absurd ha List.not_mem_nil
    exact absurd hlt (not_lt.mpr (hend a haC))

end Umalloc

end Xv6
