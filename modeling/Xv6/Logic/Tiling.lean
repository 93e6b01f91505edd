import Xv6.Logic.Ownership

/-!
# Tilings by blocks

A set `S` of addresses, each the start of a block of length `len a`, tiles a set `R` of addresses
when every address of `R` lies in exactly one block. Blocks that touch can be merged, a block can be
split, and an interval outside of `R` can be added.
-/

namespace Ownership

/-- **An owner takes over all that another one holds.** -/
theorem Exact.absorb {O X : Type} {own own' : O → Set X} {R : Set X} {a b : O} (h : Exact own R)
    (ha : ∀ x, x ∈ own' a ↔ x ∈ own a ∨ x ∈ own b) (hb : ∀ x, x ∉ own' b)
    (hrest : ∀ c, c ≠ a → c ≠ b → ∀ x, x ∈ own' c ↔ x ∈ own c) : Exact own' R := by
  -- the old owner of what `c` holds now
  have hold : ∀ c x, x ∈ own' c → ∃ d, x ∈ own d ∧ (d = c ∨ d = b ∧ c = a) := by
    intro c x hx
    by_cases hca : c = a
    · subst hca
      rcases (ha x).mp hx with hx | hx
      · exact ⟨c, hx, Or.inl rfl⟩
      · exact ⟨b, hx, Or.inr ⟨rfl, rfl⟩⟩
    · by_cases hcb : c = b
      · exact absurd (hcb ▸ hx) (hb x)
      · exact ⟨c, (hrest c hca hcb x).mp hx, Or.inl rfl⟩
  refine ⟨fun c x hx => ?_, fun x hx => ?_, fun c c' x hx hx' => ?_⟩
  · obtain ⟨d, hd, -⟩ := hold c x hx
    exact h.sub d x hd
  · obtain ⟨d, hd⟩ := h.held x hx
    by_cases hda : d = a
    · exact ⟨a, (ha x).mpr (Or.inl (hda ▸ hd))⟩
    · by_cases hdb : d = b
      · exact ⟨a, (ha x).mpr (Or.inr (hdb ▸ hd))⟩
      · exact ⟨d, (hrest d hda hdb x).mpr hd⟩
  · have hne : ∀ c, x ∈ own' c → c ≠ b := fun c hc heq => hb x (heq ▸ hc)
    obtain ⟨d, hd, hc⟩ := hold c x hx
    obtain ⟨d', hd', hc'⟩ := hold c' x hx'
    obtain rfl := h.uniq d d' x hd hd'
    rcases hc with rfl | ⟨rfl, rfl⟩
    · rcases hc' with rfl | ⟨rfl, -⟩
      · rfl
      · exact absurd rfl (hne d hx)
    · rcases hc' with rfl | ⟨-, rfl⟩
      · exact absurd rfl (hne d hx')
      · rfl

/-- The addresses of the block that starts at `a`. -/
def block (S : Set ℕ) (len : ℕ → ℕ) (a : ℕ) : Set ℕ := {x | a ∈ S ∧ a ≤ x ∧ x < a + len a}

structure Tiles (S : Set ℕ) (len : ℕ → ℕ) (R : Set ℕ) : Prop where
  exact : Exact (block S len) R
  pos : ∀ a ∈ S, 0 < len a

namespace Tiles

variable {S S' R R' : Set ℕ} {len len' : ℕ → ℕ} {a b k n x : ℕ}

theorem mem_start (h : Tiles S len R) (ha : a ∈ S) : a ∈ R :=
  h.exact.sub a a ⟨ha, le_rfl, Nat.lt_add_of_pos_right (h.pos a ha)⟩

theorem mem_last (h : Tiles S len R) (ha : a ∈ S) : a + len a - 1 ∈ R := by
  have := h.pos a ha
  exact h.exact.sub a _ ⟨ha, by omega, by omega⟩

/-- Blocks do not overlap. -/
theorem le_of_lt (h : Tiles S len R) (ha : a ∈ S) (hb : b ∈ S) (hab : a < b) : a + len a ≤ b := by
  by_contra hlt
  have hpos := h.pos b hb
  exact hab.ne (h.exact.uniq a b b ⟨ha, hab.le, not_le.mp hlt⟩ ⟨hb, le_rfl, by omega⟩)

theorem congr (h : Tiles S len R) (hS : ∀ a, a ∈ S' ↔ a ∈ S) (hlen : ∀ a ∈ S, len' a = len a) :
    Tiles S' len' R := by
  refine ⟨h.exact.congr fun a x => ?_, fun a ha => ?_⟩
  · simp only [block, Set.mem_ofPred_eq, hS]
    refine and_congr_right fun ha => ?_
    rw [hlen a ha]
  · rw [hlen a ((hS a).mp ha)]
    exact h.pos a ((hS a).mp ha)

/-- A block takes over the one that follows it. -/
theorem merge (h : Tiles S len R) (ha : a ∈ S) (hb : b ∈ S) (hab : a + len a = b)
    (hS : ∀ c, c ∈ S' ↔ c ∈ S ∧ c ≠ b) (hlen : len' a = len a + len b)
    (hrest : ∀ c ∈ S, c ≠ a → c ≠ b → len' c = len c) : Tiles S' len' R := by
  have hpos := h.pos a ha
  have hne : a ≠ b := by omega
  refine ⟨h.exact.absorb (a := a) (b := b) (fun x => ?_) (fun x hx => ?_) fun c hca hcb x => ?_,
    fun c hc => ?_⟩
  · simp only [block, Set.mem_ofPred_eq, hS, ha, hb, hne, hlen, ne_eq, not_false_eq_true, true_and,
      and_self]
    omega
  · exact ((hS b).mp hx.1).2 rfl
  · simp only [block, Set.mem_ofPred_eq, hS, hcb, ne_eq, not_false_eq_true, and_true]
    refine and_congr_right fun hc => ?_
    rw [hrest c hc hca hcb]
  · obtain ⟨hc, hcb⟩ := (hS c).mp hc
    by_cases hca : c = a
    · rw [hca, hlen]
      omega
    · rw [hrest c hc hca hcb]
      exact h.pos c hc

/-- A block gives up its end. -/
theorem split (h : Tiles S len R) (ha : a ∈ S) (hk : 0 < len' a) (hb : a + len' a = b)
    (hlt : 0 < len' b) (hlen : len' a + len' b = len a) (hS : ∀ c, c ∈ S' ↔ c ∈ S ∨ c = b)
    (hrest : ∀ c ∈ S, c ≠ a → len' c = len c) : Tiles S' len' R := by
  have hne : a ≠ b := by omega
  -- the new block starts inside of an old one
  have hbS : b ∉ S := fun hbS => by
    have := h.le_of_lt ha hbS (by omega)
    omega
  have hcS : ∀ c ∈ S, c ≠ b := fun c hc heq => hbS (heq ▸ hc)
  refine ⟨⟨fun c x hx => ?_, fun x hx => ?_, fun c c' x hx hx' => ?_⟩, fun c hc => ?_⟩
  · obtain ⟨hc, hx⟩ := hx
    rcases (hS c).mp hc with hc | rfl
    · by_cases hca : c = a
      · subst hca
        exact h.exact.sub c x ⟨hc, by omega, by omega⟩
      · rw [hrest c hc hca] at hx
        exact h.exact.sub c x ⟨hc, hx⟩
    · exact h.exact.sub a x ⟨ha, by omega, by omega⟩
  · obtain ⟨c, hc, hx⟩ := h.exact.held x hx
    by_cases hca : c = a
    · subst hca
      by_cases hxb : x < b
      · exact ⟨c, (hS c).mpr (Or.inl hc), by omega, by omega⟩
      · exact ⟨b, (hS b).mpr (Or.inr rfl), by omega, by omega⟩
    · exact ⟨c, (hS c).mpr (Or.inl hc), by rw [hrest c hc hca]; exact hx⟩
  · -- the old owner tells the new ones apart, unless it is the block that is split
    have hold : ∀ c, x ∈ block S' len' c →
        c ≠ b ∧ x ∈ block S len c ∧ (c = a → x < b) ∨ c = b ∧ x ∈ block S len a ∧ b ≤ x := by
      rintro c ⟨hc, hxc⟩
      rcases (hS c).mp hc with hc | rfl
      · by_cases hca : c = a
        · subst hca
          exact Or.inl ⟨hne, ⟨hc, by omega, by omega⟩, fun _ => by omega⟩
        · rw [hrest c hc hca] at hxc
          exact Or.inl ⟨hcS c hc, ⟨hc, hxc⟩, fun heq => absurd heq hca⟩
      · exact Or.inr ⟨rfl, ⟨ha, by omega, by omega⟩, hxc.1⟩
    rcases hold c hx with ⟨-, hc, hlo⟩ | ⟨rfl, hc, hhi⟩
    · rcases hold c' hx' with ⟨-, hc', -⟩ | ⟨rfl, hc', hhi⟩
      · exact h.exact.uniq c c' x hc hc'
      · exact absurd (hlo (h.exact.uniq c a x hc hc')) (not_lt.mpr hhi)
    · rcases hold c' hx' with ⟨-, hc', hlo⟩ | ⟨rfl, -, -⟩
      · exact absurd (hlo (h.exact.uniq c' a x hc' hc)) (not_lt.mpr hhi)
      · rfl
  · rcases (hS c).mp hc with hc | rfl
    · by_cases hca : c = a
      · rw [hca]
        exact hk
      · rw [hrest c hc hca]
        exact h.pos c hc
    · exact hlt

/-- An interval that is outside becomes a block. -/
theorem add (h : Tiles S len R) (hout : ∀ x ∈ R, x < a) (hn : 0 < len' a)
    (hS : ∀ c, c ∈ S' ↔ c ∈ S ∨ c = a) (hrest : ∀ c ∈ S, len' c = len c)
    (hR : ∀ x, x ∈ R' ↔ x ∈ R ∨ a ≤ x ∧ x < a + len' a) : Tiles S' len' R' := by
  have haS : a ∉ S := fun ha => absurd (hout a (h.mem_start ha)) (lt_irrefl a)
  have hold : ∀ c x, x ∈ block S' len' c → c ∈ S ∧ x ∈ block S len c ∨ c = a ∧ a ≤ x ∧
      x < a + len' a := by
    rintro c x ⟨hc, hx⟩
    rcases (hS c).mp hc with hc | rfl
    · rw [hrest c hc] at hx
      exact Or.inl ⟨hc, hc, hx⟩
    · exact Or.inr ⟨rfl, hx⟩
  refine ⟨⟨fun c x hx => (hR x).mpr ?_, fun x hx => ?_, fun c c' x hx hx' => ?_⟩, fun c hc => ?_⟩
  · exact (hold c x hx).imp (fun hc => h.exact.sub c x hc.2) fun hc => hc.2
  · rcases (hR x).mp hx with hx | hx
    · obtain ⟨c, hc, hxc⟩ := h.exact.held x hx
      exact ⟨c, (hS c).mpr (Or.inl hc), by rw [hrest c hc]; exact hxc⟩
    · exact ⟨a, (hS a).mpr (Or.inr rfl), hx⟩
  · rcases hold c x hx with ⟨-, hc⟩ | ⟨rfl, hc⟩
    · rcases hold c' x hx' with ⟨-, hc'⟩ | ⟨rfl, hc'⟩
      · exact h.exact.uniq c c' x hc hc'
      · exact absurd (hout x (h.exact.sub c x hc)) (not_lt.mpr hc'.1)
    · rcases hold c' x hx' with ⟨-, hc'⟩ | ⟨rfl, -⟩
      · exact absurd (hout x (h.exact.sub c' x hc')) (not_lt.mpr hc.1)
      · rfl
  · rcases (hS c).mp hc with hc | rfl
    · rw [hrest c hc]
      exact h.pos c hc
    · exact hn

end Tiles

end Ownership
