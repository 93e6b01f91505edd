import Xv6.Swap.Evict

/-!
# The clock

What a sweep of the hand over the frame table does (`Swept`): it passes every frame once,
clears the reference bit of each evictable one, and its candidate is the evictable frame of
lowest priority among those whose bit was clear, the first of them if there are several.

* `evictPage_selects` reads off which frame an eviction takes.
* `secondChance_iff` looks at evictions one after the other. A sweep does not stop at its
  candidate, so it ends where it began and leaves every bit clear; the order is that of a
  clock only as long as no third frame is waiting.
-/

namespace Xv6

open StateLogic

/-! ### One turn -/

section Turn

variable {k : Kernel} {c : Scan}

theorem scanStep_of_not (h : ¬Evictable k (c.f c.clockP)) :
    scanStep k c = { c with clockP := (c.clockP + 1) % nframes } := by
  rw [scanStep]
  cases hu : (c.f c.clockP).isUsed with
  | false => rfl
  | true =>
    cases ho : (c.f c.clockP).p with
    | none => rfl
    | some o => exact if_pos (by_contra fun hrun => h ⟨hu, o, ho, hrun⟩)

theorem scanStep_of_rb (h : Evictable k (c.f c.clockP)) (hrb : (c.f c.clockP).rb = true) :
    scanStep k c = { c with
      f := Function.update c.f c.clockP { c.f c.clockP with rb := false }
      clockP := (c.clockP + 1) % nframes } := by
  obtain ⟨hu, o, ho, hrun⟩ := h
  simp only [scanStep, hu, ho, if_neg hrun, if_pos hrb]

/-- A frame with a clear bit becomes the candidate if it is the first or of lower priority. -/
theorem scanStep_of_clear (h : Evictable k (c.f c.clockP)) (hrb : (c.f c.clockP).rb = false) :
    ∃ i, scanStep k c = { c with toEvict := some i, clockP := (c.clockP + 1) % nframes } ∧
      ((i = c.clockP ∧ ∀ i₀, c.toEvict = some i₀ →
          ownerLevel k (c.f i₀) < ownerLevel k (c.f c.clockP)) ∨
        (c.toEvict = some i ∧ ownerLevel k (c.f c.clockP) ≤ ownerLevel k (c.f i))) := by
  obtain ⟨hu, o, ho, hrun⟩ := h
  have hlevel : ownerLevel k (c.f c.clockP) = (k.proc o).qlevel := by rw [ownerLevel, ho]
  rw [hlevel]
  simp only [scanStep, hu, ho, if_neg hrun, hrb, Bool.false_eq_true, if_false]
  cases hc : c.toEvict with
  | none => exact ⟨c.clockP, rfl, Or.inl ⟨rfl, fun i₀ hi₀ => by cases hi₀⟩⟩
  | some i =>
    by_cases hlt : ownerLevel k (c.f i) < (k.proc o).qlevel
    · refine ⟨c.clockP, if_pos hlt, Or.inl ⟨rfl, fun i₀ hi₀ => ?_⟩⟩
      cases hi₀
      exact hlt
    · exact ⟨i, (if_neg hlt).trans (by rw [← hc]), Or.inr ⟨rfl, Nat.le_of_not_lt hlt⟩⟩

end Turn

/-! ### A sweep -/

theorem sweep_succ (k : Kernel) (n : ℕ) (c : Scan) :
    sweep k (n + 1) c = scanStep k (sweep k n c) := by
  induction n generalizing c with
  | zero => rfl
  | succ n ih => exact ih (scanStep k c)

/-- The `t`-th frame the hand passes from position `h`. -/
def pos (h t : ℕ) : ℕ := (h + t) % nframes

theorem pos_inj {h t t' : ℕ} (ht : t < nframes) (ht' : t' < nframes) (heq : pos h t = pos h t') :
    t = t' := by
  simp only [pos, show nframes = 512 by decide] at *
  omega

/-- A whole sweep passes every frame. -/
theorem exists_pos {h i : ℕ} (hi : i < nframes) : ∃ t < nframes, pos h t = i := by
  refine ⟨(i + nframes - h % nframes) % nframes, Nat.mod_lt _ (by decide), ?_⟩
  simp only [pos, show nframes = 512 by decide] at *
  omega

theorem pos_nframes {h : ℕ} (hh : h < nframes) : pos h nframes = h := by
  rw [pos, Nat.add_mod_right, Nat.mod_eq_of_lt hh]

/-- `n` turns from `c` lead to `c'`. -/
structure Swept (k : Kernel) (c : Scan) (n : ℕ) (c' : Scan) : Prop where
  hand : c'.clockP = pos c.clockP n
  same : ∀ i, (c'.f i).SameUse (c.f i)
  ahead : ∀ t, n ≤ t → t < nframes → c'.f (pos c.clockP t) = c.f (pos c.clockP t)
  clear : ∀ t < n, Evictable k (c.f (pos c.clockP t)) → (c'.f (pos c.clockP t)).rb = false
  none : c'.toEvict = none → ∀ t < n, Evictable k (c.f (pos c.clockP t)) →
    (c.f (pos c.clockP t)).rb = true
  cand : ∀ i, c'.toEvict = some i → ∃ t < n, pos c.clockP t = i ∧ Evictable k (c.f i) ∧
    (c.f i).rb = false ∧ ∀ s < n, Evictable k (c.f (pos c.clockP s)) →
      (c.f (pos c.clockP s)).rb = false →
      ownerLevel k (c.f (pos c.clockP s)) ≤ ownerLevel k (c.f i) ∧
      (s < t → ownerLevel k (c.f (pos c.clockP s)) < ownerLevel k (c.f i))

section Sweep

variable {k : Kernel} {c c' : Scan} {n : ℕ}

theorem ownerLevel_congr {a b : Frame} (h : a.SameUse b) : ownerLevel k a = ownerLevel k b := by
  rw [ownerLevel, ownerLevel, h.2.1]

/-- One more turn. -/
theorem Swept.step (h : Swept k c n c') (hn : n < nframes) :
    Swept k c (n + 1) (scanStep k c') := by
  have hat : c'.f c'.clockP = c.f (pos c.clockP n) := by
    rw [h.hand]
    exact h.ahead n le_rfl hn
  have hnext : (c'.clockP + 1) % nframes = pos c.clockP (n + 1) := by
    rw [h.hand, pos, pos, Nat.mod_add_mod, Nat.add_assoc]
  have hlast : ∀ {t}, t < n + 1 → t ≠ n → t < n := fun ht hne => by omega
  by_cases hev : Evictable k (c'.f c'.clockP)
  · cases hrb : (c'.f c'.clockP).rb with
    | true =>
      rw [scanStep_of_rb hev hrb]
      rw [hat] at hev hrb
      have hold : ∀ t < nframes, t ≠ n → pos c.clockP t ≠ c'.clockP := fun t ht hne heq =>
        hne (pos_inj ht hn (heq.trans h.hand))
      refine ⟨hnext, fun i => ?_, fun t hge ht => ?_, fun t ht hev' => ?_, fun hnone t ht hev' => ?_,
        fun i hi => ?_⟩
      · simp only [Function.update_apply]
        split_ifs with hi
        · rw [hi]
          exact h.same c'.clockP
        · exact h.same i
      · simp only [Function.update_of_ne (hold t ht (by omega))]
        exact h.ahead t (by omega) ht
      · by_cases htn : t = n
        · simp only [htn, ← h.hand, Function.update_self]
        · simp only [Function.update_of_ne (hold t (by omega) htn)]
          exact h.clear t (hlast ht htn) hev'
      · by_cases htn : t = n
        · exact htn ▸ hrb
        · exact h.none hnone t (hlast ht htn) hev'
      · obtain ⟨t, ht, hti, hc, hcrb, hmax⟩ := h.cand i hi
        refine ⟨t, by omega, hti, hc, hcrb, fun s hs hse hsr => ?_⟩
        by_cases hsn : s = n
        · rw [hsn, hrb] at hsr
          cases hsr
        · exact hmax s (hlast hs hsn) hse hsr
    | false =>
      obtain ⟨i, hstep, hi⟩ := scanStep_of_clear hev hrb
      rw [hstep]
      rw [hat] at hev hrb hi
      refine ⟨hnext, h.same, fun t hge ht => h.ahead t (by omega) ht, fun t ht hev' => ?_,
        (fun hnone => by cases hnone), fun j hj => ?_⟩
      · by_cases htn : t = n
        · rw [htn, h.ahead n le_rfl hn]
          exact hrb
        · exact h.clear t (hlast ht htn) hev'
      · cases hj
        rcases hi with ⟨rfl, hbest⟩ | ⟨hi, hle⟩
        · -- the frame under the hand beats the candidate, and so all before it
          refine ⟨n, by omega, h.hand.symm, by rw [h.hand]; exact hev, by rw [h.hand]; exact hrb,
            fun s hs hse hsr => ?_⟩
          rw [h.hand]
          by_cases hsn : s = n
          · exact ⟨by rw [hsn], fun hlt => absurd hlt (by omega)⟩
          · cases hc : c'.toEvict with
            | none =>
              rw [h.none hc s (hlast hs hsn) hse] at hsr
              cases hsr
            | some i₀ =>
              obtain ⟨t, -, -, -, -, hmax⟩ := h.cand i₀ hc
              have hlt := hbest i₀ hc
              rw [ownerLevel_congr (h.same i₀)] at hlt
              have := (hmax s (hlast hs hsn) hse hsr).1
              exact ⟨by omega, fun _ => by omega⟩
        · obtain ⟨t, ht, hti, hc, hcrb, hmax⟩ := h.cand i hi
          rw [ownerLevel_congr (h.same i)] at hle
          refine ⟨t, by omega, hti, hc, hcrb, fun s hs hse hsr => ?_⟩
          by_cases hsn : s = n
          · exact ⟨hsn ▸ hle, fun hlt => absurd hlt (by omega)⟩
          · exact hmax s (hlast hs hsn) hse hsr
  · rw [scanStep_of_not hev]
    rw [hat] at hev
    refine ⟨hnext, h.same, fun t hge ht => h.ahead t (by omega) ht, fun t ht hev' => ?_,
      fun hnone t ht hev' => ?_, fun i hi => ?_⟩
    · by_cases htn : t = n
      · exact absurd (htn ▸ hev') hev
      · exact h.clear t (hlast ht htn) hev'
    · by_cases htn : t = n
      · exact absurd (htn ▸ hev') hev
      · exact h.none hnone t (hlast ht htn) hev'
    · obtain ⟨t, ht, hti, hc, hcrb, hmax⟩ := h.cand i hi
      refine ⟨t, by omega, hti, hc, hcrb, fun s hs hse hsr => ?_⟩
      by_cases hsn : s = n
      · exact absurd (hsn ▸ hse) hev
      · exact hmax s (hlast hs hsn) hse hsr

/-- **A sweep.** -/
theorem swept_sweep (hh : c.clockP < nframes) (hc : c.toEvict = none) (hn : n ≤ nframes) :
    Swept k c n (sweep k n c) := by
  induction n with
  | zero =>
    refine ⟨?_, fun _ => ⟨rfl, rfl, rfl⟩, fun _ _ _ => rfl, fun t ht => absurd ht (by omega),
      fun _ t ht => absurd ht (by omega), fun i hi => ?_⟩
    · rw [pos, Nat.add_zero, Nat.mod_eq_of_lt hh]
      rfl
    · rw [show sweep k 0 c = c from rfl, hc] at hi
      cases hi
  | succ n ih =>
    rw [sweep_succ]
    exact (ih (by omega)).step (by omega)

end Sweep

/-! ### Victim selection -/

/-- The frame table at the start of the sweep that decides: the second one if the first has
found no candidate. Irreducible, so that unification never runs the sweeps. -/
@[irreducible]
def deciding (k : Kernel) : ℕ → Frame :=
  match (sweep k nframes k.scan).toEvict with
  | none => (sweep k nframes k.scan).f
  | some _ => k.frames

/-- Frame `i` is the right one to take: it had a clear bit when the deciding sweep began, no
such frame belongs to a process of lower priority, and its bit was set at the call only if
those of all evictable frames were. -/
structure Chosen (k : Kernel) (i : ℕ) : Prop where
  lt : i < nframes
  evictable : Evictable k (k.frames i)
  clear : (deciding k i).rb = false
  lowest : ∀ j < nframes, Evictable k (k.frames j) → (deciding k j).rb = false →
    ownerLevel k (k.frames j) ≤ ownerLevel k (k.frames i)
  chance : (k.frames i).rb = true → ∀ j < nframes, Evictable k (k.frames j) →
    (k.frames j).rb = true

section Select

variable {k : Kernel} {i : ℕ}

theorem Frame.SameUse.symm {a b : Frame} (h : a.SameUse b) : b.SameUse a :=
  ⟨h.1.symm, h.2.1.symm, h.2.2.symm⟩

/-- The frames a whole sweep finds with a set bit are all evictable frames. -/
theorem Swept.all {c c' : Scan} (h : Swept k c nframes c') {j : ℕ} (hj : j < nframes)
    (hev : Evictable k (c.f j)) :
    (c'.f j).rb = false ∧ (c'.toEvict = Option.none → (c.f j).rb = true) := by
  obtain ⟨t, ht, rfl⟩ := @exists_pos c.clockP j hj
  exact ⟨h.clear t ht hev, fun hnone => h.none hnone t ht hev⟩

/-- The first sweep. -/
theorem swept_first (hh : k.clockP < nframes) : ∃ c, c = sweep k nframes k.scan ∧
    c.clockP = k.clockP ∧ Swept k k.scan nframes c := by
  have h := swept_sweep (n := nframes) (k := k) (c := k.scan) hh rfl le_rfl
  exact ⟨_, rfl, h.hand.trans (pos_nframes hh), h⟩

/-- The frame the search ends with is the candidate of a sweep that began with the deciding
table and the hand where it was. -/
theorem selectVictim_swept (hh : k.clockP < nframes) :
    ∃ c, c.f = deciding k ∧ c.clockP = k.clockP ∧ Swept k c nframes (selectVictim k) := by
  obtain ⟨s, hs, hhand, h1⟩ := swept_first hh
  unfold selectVictim deciding secondPass
  rw [← hs]
  cases hc : s.toEvict with
  | none => exact ⟨s, by simp only, hhand, swept_sweep (by rw [hhand]; exact hh) hc le_rfl⟩
  | some i => exact ⟨k.scan, by simp only; rfl, rfl, h1⟩

theorem deciding_sameUse (hh : k.clockP < nframes) (j : ℕ) :
    (deciding k j).SameUse (k.frames j) := by
  obtain ⟨s, hs, -, h1⟩ := swept_first hh
  unfold deciding
  rw [← hs]
  cases s.toEvict with
  | none => exact h1.same j
  | some i => exact ⟨rfl, rfl, rfl⟩

theorem selectVictim_none (hh : k.clockP < nframes) (h : (selectVictim k).toEvict = none) :
    ∀ j < nframes, ¬Evictable k (k.frames j) := by
  intro j hj hev
  obtain ⟨s, hs, -, h1⟩ := swept_first hh
  obtain ⟨c, hf, -, h2⟩ := selectVictim_swept hh
  have hset := (h2.all hj (by rw [hf]; exact hev.of_sameUse (deciding_sameUse hh j).symm)).2 h
  unfold deciding at hf
  rw [hf, ← hs] at hset
  cases hc : s.toEvict with
  | none =>
    -- the first sweep has cleared the bits the second one looks at
    rw [hc] at hset
    simp only [(h1.all hj hev).1] at hset
    cases hset
  | some i =>
    unfold selectVictim secondPass at h
    rw [← hs, hc] at h
    exact absurd (hc.symm.trans h) (by simp)

theorem selectVictim_some (hh : k.clockP < nframes) (h : (selectVictim k).toEvict = some i) :
    Chosen k i := by
  obtain ⟨s, hs, -, h1⟩ := swept_first hh
  obtain ⟨c, hf, -, h2⟩ := selectVictim_swept hh
  have hsame := deciding_sameUse hh
  obtain ⟨t, ht, rfl, hev, hrb, hmax⟩ := h2.cand i h
  rw [hf] at hev hrb hmax
  refine ⟨Nat.mod_lt _ (by decide), hev.of_sameUse (hsame _), hrb, fun j hj hjev hjrb => ?_,
    fun hset j hj hjev => ?_⟩
  · obtain ⟨s, hs, rfl⟩ := @exists_pos c.clockP j hj
    rw [← ownerLevel_congr (hsame _), ← ownerLevel_congr (hsame (pos c.clockP t))]
    exact (hmax s hs (hjev.of_sameUse (hsame _).symm) hjrb).1
  · unfold deciding at hrb
    rw [← hs] at hrb
    cases hc : s.toEvict with
    | none => exact (h1.all hj hjev).2 hc
    | some i₀ =>
      rw [hc] at hrb
      exact absurd (hrb.symm.trans hset) (by simp)

end Select

/-- Frame `i` is evicted in state `k` and filled again, with its bit set, before the next
call, which finds state `k'`. -/
structure Turnover (k : Kernel) (i : ℕ) (k' : Kernel) : Prop where
  victim : (selectVictim k).toEvict = some i
  others : ∀ j, j ≠ i → k'.frames j = (selectVictim k).f j
  refilled : (k'.frames i).rb = true
  hand : k'.clockP = (selectVictim k).clockP

/-- The frames in `E` are those in use; their owners are evictable and all of level `q`. -/
structure Level (E : ℕ → Prop) (q : ℕ) (k : Kernel) : Prop where
  hand : k.clockP < nframes
  lt : ∀ i, E i → i < nframes
  iff : ∀ i < nframes, E i ↔ Evictable k (k.frames i)
  level : ∀ i, E i → ownerLevel k (k.frames i) = q

/-- The `n`-th of `N` evictions from `ks 0` takes frame `vs n`. -/
structure Evictions (E : ℕ → Prop) (q N : ℕ) (ks : ℕ → Kernel) (vs : ℕ → ℕ) : Prop where
  level : ∀ n ≤ N, Level E q (ks n)
  step : ∀ n < N, Turnover (ks n) (vs n) (ks (n + 1))

/-- Between two evictions of a frame every other frame is evicted. -/
def SecondChance (E : ℕ → Prop) (N : ℕ) (vs : ℕ → ℕ) : Prop :=
  ∀ a b, a < b → b < N → vs a = vs b → ∀ j, E j → j ≠ vs a → ∃ c, a < c ∧ c < b ∧ vs c = j

section Runs

variable {E : ℕ → Prop} {q i i' : ℕ} {k k' k'' : Kernel}

theorem Turnover.mem (h : Turnover k i k') (hk : Level E q k) : E i := by
  have hc := selectVictim_some hk.hand h.victim
  exact (hk.iff i hc.lt).mpr hc.evictable

theorem Turnover.hand_eq (h : Turnover k i k') (hk : Level E q k) : k'.clockP = k.clockP := by
  obtain ⟨c, -, hc, hs⟩ := selectVictim_swept hk.hand
  rw [h.hand, hs.hand, hc, pos_nframes hk.hand]

/-- Afterwards the bit of the frame that was taken is the only one set. -/
theorem Turnover.rb (h : Turnover k i k') (hk : Level E q k) {j : ℕ} (hj : E j) :
    (k'.frames j).rb = true ↔ j = i := by
  refine ⟨fun hrb => ?_, fun heq => heq ▸ h.refilled⟩
  by_contra hne
  obtain ⟨c, hf, -, hs⟩ := selectVictim_swept hk.hand
  have hev := ((hk.iff j (hk.lt j hj)).mp hj).of_sameUse (deciding_sameUse hk.hand j).symm
  rw [h.others j hne, (hs.all (hk.lt j hj) (by rw [hf]; exact hev)).1] at hrb
  cases hrb

/-- **The next eviction** takes the first frame in the order of the hand that is not the one
taken last, and the hand has not moved. -/
theorem Turnover.next (h : Turnover k i k') (hk : Level E q k) (h' : Turnover k' i' k'')
    (hk' : Level E q k') (hex : ∃ j, E j ∧ j ≠ i) :
    i' ≠ i ∧ ∃ t < nframes, pos k.clockP t = i' ∧
      ∀ s < t, E (pos k.clockP s) → pos k.clockP s = i := by
  -- some bit is clear, so the first sweep decides
  have hdec : deciding k' = k'.frames := by
    obtain ⟨s, hs, -, h1⟩ := swept_first hk'.hand
    unfold deciding
    rw [← hs]
    cases hc : s.toEvict with
    | some _ => rfl
    | none =>
      obtain ⟨j, hj, hne⟩ := hex
      exact absurd ((h.rb hk hj).mp ((h1.all (hk'.lt j hj) ((hk'.iff j (hk'.lt j hj)).mp hj)).2 hc))
        hne
  obtain ⟨c, hf, hhand, hs⟩ := selectVictim_swept hk'.hand
  obtain ⟨t, ht, hti, hev, hrb, hmax⟩ := hs.cand i' h'.victim
  rw [hhand, h.hand_eq hk] at hti hmax
  rw [hf, hdec] at hrb hmax
  have hmem := h'.mem hk'
  refine ⟨fun heq => ?_, t, ht, hti, fun s hst hEs => ?_⟩
  · rw [(h.rb hk hmem).mpr heq] at hrb
    cases hrb
  · by_contra hne
    have hclear : (k'.frames (pos k.clockP s)).rb = false :=
      Bool.eq_false_iff.mpr fun hset => hne ((h.rb hk hEs).mp hset)
    have hlt := (hmax s (by omega) ((hk'.iff _ (hk'.lt _ hEs)).mp hEs) hclear).2 hst
    rw [hk'.level _ hEs, hk'.level _ hmem] at hlt
    exact absurd hlt (lt_irrefl q)

/-- With two frames at most, they take turns. -/
theorem Evictions.secondChance {N : ℕ} {ks : ℕ → Kernel} {vs : ℕ → ℕ}
    (h : Evictions E q N ks vs) (htwo : ∀ i j l, E i → E j → E l → i = j ∨ i = l ∨ j = l) :
    SecondChance E N vs := by
  intro a b hab hb heq j hj hne
  have ha := h.level a (by omega)
  obtain ⟨hnext, -⟩ := (h.step a (by omega)).next ha (h.step (a + 1) (by omega))
    (h.level (a + 1) (by omega)) ⟨j, hj, hne⟩
  have hb' : b ≠ a + 1 := by
    rintro rfl
    exact hnext heq.symm
  refine ⟨a + 1, by omega, by omega, ?_⟩
  rcases htwo _ _ _ ((h.step a (by omega)).mem ha)
    ((h.step (a + 1) (by omega)).mem (h.level (a + 1) (by omega))) hj with heq | heq | heq
  · exact absurd heq.symm hnext
  · exact absurd heq.symm hne
  · exact heq

/-- The frame is filled again by a page of the same process. -/
def refill (k : Kernel) : Kernel :=
  let i := ((selectVictim k).toEvict).getD 0
  { k with
    frames := Function.update (selectVictim k).f i { (selectVictim k).f i with rb := true }
    clockP := (selectVictim k).clockP }

theorem Level.refill (hk : Level E q k) {j : ℕ} (hj : E j) :
    ∃ i, Turnover k i (refill k) ∧ Level E q (refill k) := by
  cases hc : (selectVictim k).toEvict with
  | none => exact absurd ((hk.iff j (hk.lt j hj)).mp hj) (selectVictim_none hk.hand hc j (hk.lt j hj))
  | some i =>
    have hturn : Turnover k i (Xv6.refill k) := by
      refine ⟨hc, fun j hne => ?_, ?_, rfl⟩ <;> simp only [Xv6.refill, hc, Option.getD_some]
      · rw [Function.update_of_ne hne]
      · rw [Function.update_self]
    have hsame : ∀ j, ((Xv6.refill k).frames j).SameUse (k.frames j) := by
      intro j
      have := (scanInv_selectVictim k).same j
      simp only [Xv6.refill, hc, Option.getD_some, Function.update_apply]
      split_ifs with hji
      · rw [← hji]
        exact this
      · exact this
    refine ⟨i, hturn, by rw [hturn.hand_eq hk]; exact hk.hand, hk.lt, fun j hj => ?_, fun j hj => ?_⟩
    · rw [hk.iff j hj]
      exact ⟨fun h => h.of_sameUse (hsame j).symm, fun h => h.of_sameUse (hsame j)⟩
    · exact (ownerLevel_congr (hsame j)).trans (hk.level j hj)

/-- Runs of every length exist. -/
theorem Level.run (hk : Level E q k) {j : ℕ} (hj : E j) (N : ℕ) :
    ∃ vs, Evictions E q N (fun n => Xv6.refill^[n] k) vs := by
  have hsucc : ∀ n, Xv6.refill^[n + 1] k = Xv6.refill (Xv6.refill^[n] k) := fun n =>
    Function.iterate_succ_apply' Xv6.refill n k
  have hlevel : ∀ n, Level E q (Xv6.refill^[n] k) := by
    intro n
    induction n with
    | zero => exact hk
    | succ n ih =>
      obtain ⟨-, -, hn⟩ := ih.refill hj
      rwa [hsucc]
  choose vs hvs _ using fun n => (hlevel n).refill hj
  refine ⟨vs, fun n _ => hlevel n, fun n _ => ?_⟩
  rw [hsucc]
  exact hvs n

/-- The hand is always where it was. -/
theorem Evictions.hand_eq {N n : ℕ} {ks : ℕ → Kernel} {vs : ℕ → ℕ} (h : Evictions E q N ks vs)
    (hn : n ≤ N) : (ks n).clockP = (ks 0).clockP := by
  induction n with
  | zero => rfl
  | succ n ih => rw [(h.step n (by omega)).hand_eq (h.level n (by omega)), ih (by omega)]

/-- **The order of evictions is that of a clock only for two frames.** Let the frames in use
have evictable owners of equal priority, and let each frame be filled again before the next
call. Between two evictions of a frame every other one is evicted, in every such run from
state `k`, exactly if there are at most two. -/
theorem secondChance_iff (hk : Level E q k) :
    (∀ N ks vs, ks 0 = k → Evictions E q N ks vs → SecondChance E N vs) ↔
      ∀ i j l, E i → E j → E l → i = j ∨ i = l ∨ j = l := by
  refine ⟨fun h i j l hi hj hl => ?_, fun htwo N ks vs _ hrun => hrun.secondChance htwo⟩
  by_contra hne
  rw [not_or, not_or] at hne
  obtain ⟨vs, hrun⟩ := hk.run hi 4
  have hfair := h 4 _ vs rfl hrun
  -- a third frame besides any two
  have hthird : ∀ x y, ∃ z, E z ∧ z ≠ x ∧ z ≠ y := by
    intro x y
    by_cases h1 : i = x ∨ i = y
    · by_cases h2 : j = x ∨ j = y
      · exact ⟨l, hl, by omega, by omega⟩
      · exact ⟨j, hj, by omega, by omega⟩
    · exact ⟨i, hi, by omega, by omega⟩
  have hnext : ∀ n, n + 1 < 4 → vs (n + 1) ≠ vs n ∧ ∃ t < nframes, pos k.clockP t = vs (n + 1) ∧
      ∀ s < t, E (pos k.clockP s) → pos k.clockP s = vs n := by
    intro n hn
    obtain ⟨z, hz, hzn, -⟩ := hthird (vs n) (vs n)
    have hhand := hrun.hand_eq (show n ≤ 4 by omega)
    rw [show k.clockP = _ from hhand.symm]
    exact (hrun.step n (by omega)).next (hrun.level n (by omega)) (hrun.step (n + 1) (by omega))
      (hrun.level (n + 1) (by omega)) ⟨z, hz, hzn⟩
  have hmem : ∀ n, n < 4 → E (vs n) := fun n hn => (hrun.step n hn).mem (hrun.level n (by omega))
  have hnot : ∀ a, a + 2 < 4 → vs a ≠ vs (a + 2) := by
    intro a ha heq
    obtain ⟨z, hz, hza, hzb⟩ := hthird (vs a) (vs (a + 1))
    obtain ⟨c, hac, hcb, hc⟩ := hfair a (a + 2) (by omega) ha heq z hz hza
    obtain rfl : c = a + 1 := by omega
    exact hzb hc.symm
  obtain ⟨-, t1, -, ht1, hmin1⟩ := hnext 0 (by omega)
  obtain ⟨hne2, t2, -, ht2, hmin2⟩ := hnext 1 (by omega)
  obtain ⟨-, t3, -, ht3, hmin3⟩ := hnext 2 (by omega)
  have h02 := hnot 0 (by omega)
  have h13 := hnot 1 (by omega)
  -- in the order of the hand: the second not after the third, the third not after the fourth,
  -- the fourth not after the second, which is therefore the fourth
  have h12 : t1 ≤ t2 := by
    by_contra hlt
    exact h02 (ht2 ▸ hmin1 t2 (by omega) (ht2 ▸ hmem 2 (by omega))).symm
  have h23 : t2 ≤ t3 := by
    by_contra hlt
    exact h13 (ht3 ▸ hmin2 t3 (by omega) (ht3 ▸ hmem 3 (by omega))).symm
  have h31 : t3 ≤ t1 := by
    by_contra hlt
    exact hne2 (ht1 ▸ hmin3 t1 (by omega) (ht1 ▸ hmem 1 (by omega))).symm
  exact h13 (by rw [← ht1, ← ht3, show t1 = t3 by omega])

end Runs

/-- Three frames of one process, all with their bits set. -/
def threeFrames : Kernel :=
  { Kernel.zeroed kernbase with
    frames := fun i => if i < 3 then ⟨true, some 0, i * pgsize, true⟩ else .clear }

theorem level_threeFrames : Level (· < 3) 0 threeFrames := by
  have hlt : ∀ i, i < 3 → i < nframes := fun i hi => hi.trans (by decide)
  have hframe : ∀ i, threeFrames.frames i =
      if i < 3 then ⟨true, some 0, i * pgsize, true⟩ else .clear := fun _ => rfl
  refine ⟨by decide, hlt, fun i _ => ?_, fun i hi => ?_⟩
  · rw [hframe, Evictable]
    split_ifs with hi
    · exact iff_of_true hi ⟨rfl, 0, rfl, fun hrun => hrun.2 rfl⟩
    · exact iff_of_false hi fun h => absurd h.1 (by decide)
  · rw [ownerLevel, hframe, if_pos hi]
    rfl

theorem secondChance_iff_threeFrames : Level (· < 3) 0 threeFrames ∧
    ((∀ N ks vs, ks 0 = threeFrames → Evictions (· < 3) 0 N ks vs → SecondChance (· < 3) N vs) ↔
      ∀ i j l, i < 3 → j < 3 → l < 3 → i = j ∨ i = l ∨ j = l) :=
  ⟨level_threeFrames, secondChance_iff level_threeFrames⟩

theorem threeFrames_victims :
    ∀ n < 3, (selectVictim (refill^[n] threeFrames)).toEvict = some (n % 2) := by
  decide +kernel

/-- Frame 0 is evicted a second time after frame 1 alone. -/
theorem clock_passes_third : ∃ ks vs, ks 0 = threeFrames ∧ Evictions (· < 3) 0 3 ks vs ∧
    ¬SecondChance (· < 3) 3 vs := by
  obtain ⟨vs, hrun⟩ := level_threeFrames.run (show 0 < 3 by decide) 3
  have hvs : ∀ n < 3, vs n = n % 2 := fun n hn =>
    Option.some.inj ((hrun.step n hn).victim.symm.trans (threeFrames_victims n hn))
  refine ⟨_, vs, rfl, hrun, fun hfair => ?_⟩
  obtain ⟨c, h0, h2, hc⟩ := hfair 0 2 (by decide) (by decide)
    (by rw [hvs 0 (by decide), hvs 2 (by decide)]) 2 (by decide) (by rw [hvs 0 (by decide)]; decide)
  obtain rfl : c = 1 := by omega
  rw [hvs 1 (by decide)] at hc
  cases hc

end Xv6
