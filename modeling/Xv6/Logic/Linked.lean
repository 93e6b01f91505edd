import Mathlib.Data.List.Nodup
import Mathlib.Logic.Function.Basic

/-!
# Doubly linked rings

A ring of nodes linked in both directions through a head, as C code builds it from `prev` and
`next` pointers. `Ring k h l` says that following `next` from the head `h` meets the nodes of
`l` in order and comes back, and that `prev` goes the opposite way. Unlinking a node and
inserting one after the head act on the list, and searching along either pointer is a search
in the list or in its reverse.
-/

namespace Linked

/-- The two pointers of every node. -/
structure Links (α : Type*) where
  next : α → α
  prev : α → α

variable {α : Type*}

/-- The nodes of `l` lie between `a` and `z`, linked in both directions. -/
def Seg (k : Links α) : α → List α → α → Prop
  | a, [], z => k.next a = z ∧ k.prev z = a
  | a, x :: l, z => k.next a = x ∧ k.prev x = a ∧ Seg k x l z

/-- The nodes of `l` form a ring through the head `h`, each once. -/
structure Ring (k : Links α) (h : α) (l : List α) : Prop where
  seg : Seg k h l h
  nodup : (h :: l).Nodup

section Seg

variable {k k' : Links α} {a b x y z : α} {l xs ys : List α}

theorem seg_append : Seg k a (xs ++ y :: ys) z ↔ Seg k a xs y ∧ Seg k y ys z := by
  induction xs generalizing a with
  | nil => simp [Seg, and_assoc]
  | cons x xs ih => simp [Seg, ih, and_assoc]

/-- A segment only depends on the pointers that leave its nodes inwards. -/
theorem Seg.congr (h : Seg k a l z) (hnext : ∀ x ∈ a :: l, k'.next x = k.next x)
    (hprev : ∀ x ∈ l ++ [z], k'.prev x = k.prev x) : Seg k' a l z := by
  induction l generalizing a with
  | nil => exact ⟨(hnext a (by simp)).trans h.1, (hprev z (by simp)).trans h.2⟩
  | cons x l ih =>
    refine ⟨(hnext a (by simp)).trans h.1, (hprev x (by simp)).trans h.2.1, ?_⟩
    exact ih h.2.2 (fun y hy => hnext y (List.mem_cons_of_mem a hy))
      fun y hy => hprev y (List.mem_cons_of_mem x hy)

/-- Read backwards, a segment is one of the exchanged pointers. -/
theorem Seg.reverse (hseg : Seg k a l z) : Seg ⟨k.prev, k.next⟩ z l.reverse a := by
  induction l generalizing a with
  | nil => exact ⟨hseg.2, hseg.1⟩
  | cons x l ih =>
    rw [List.reverse_cons, seg_append]
    exact ⟨ih hseg.2.2, hseg.2.1, hseg.1⟩

end Seg

variable [DecidableEq α] {k : Links α} {h b : α} {l : List α}

/-! ### Splicing -/

/-- `b->next->prev = b->prev; b->prev->next = b->next;` -/
def Links.unlink (k : Links α) (b : α) : Links α :=
  let k := { k with prev := Function.update k.prev (k.next b) (k.prev b) }
  { k with next := Function.update k.next (k.prev b) (k.next b) }

/-- `b->next = h->next; b->prev = h; h->next->prev = b; h->next = b;` -/
def Links.pushFront (k : Links α) (h b : α) : Links α :=
  let k := { k with next := Function.update k.next b (k.next h) }
  let k := { k with prev := Function.update k.prev b h }
  let k := { k with prev := Function.update k.prev (k.next h) b }
  { k with next := Function.update k.next h b }

/-- Taking out the node between `u` and the rest of a segment. -/
theorem Seg.unlink {u z : α} {ys : List α} (hb : k.prev b = u) (hseg : Seg k b ys z)
    (huys : u ∉ ys) (hys : ys.Nodup) (hz : z ∉ ys) (hbz : b ≠ z) (hbys : b ∉ ys) : Seg (k.unlink b) u ys z := by
  cases ys with
  | nil =>
    obtain ⟨hn, -⟩ := hseg
    simp [Seg, Links.unlink, hn, hb, hbz]
  | cons y ys =>
    obtain ⟨hn, -, hseg⟩ := hseg
    have hby : b ≠ y := fun heq => hbys (heq ▸ List.mem_cons_self)
    have huy : ∀ x ∈ y :: ys, x ≠ u := fun x hx heq => huys (heq ▸ hx)
    have hyl : ∀ x ∈ ys ++ [z], x ≠ y := by
      rintro x hx rfl
      rcases List.mem_append.mp hx with hx | hx
      · exact (List.nodup_cons.mp hys).1 hx
      · exact hz (List.mem_singleton.mp hx ▸ List.mem_cons_self)
    refine ⟨by simp [Links.unlink, hn, hb, hby], by simp [Links.unlink, hn, hb], ?_⟩
    refine hseg.congr (fun x hx => ?_) fun x hx => ?_
    · simp [Links.unlink, hn, hb, hby, huy x hx]
    · simp [Links.unlink, hn, hyl x hx]

/-- Unlinking a node erases it. -/
theorem Ring.unlink (hr : Ring k h l) (hb : b ∈ l) : Ring (k.unlink b) h (l.erase b) := by
  obtain ⟨xs, ys, rfl⟩ := List.append_of_mem hb
  have hnd := hr.nodup
  rw [List.nodup_cons, List.mem_append, List.mem_cons, List.nodup_append, List.nodup_cons] at hnd
  obtain ⟨hh, hxs, ⟨hbys, hys⟩, hdisj⟩ := hnd
  push Not at hh
  obtain ⟨hhxs, hhb, hhys⟩ := hh
  have hbxs : b ∉ xs := fun hbx => hdisj b hbx b List.mem_cons_self rfl
  rw [List.erase_append_right _ hbxs, List.erase_cons_head]
  refine ⟨?_, List.nodup_cons.mpr ⟨by simp [hhxs, hhys], List.nodup_append.mpr
    ⟨hxs, hys, fun x hx y hy => hdisj x hx y (List.mem_cons_of_mem b hy)⟩⟩⟩
  obtain ⟨hleft, hright⟩ := seg_append.mp hr.seg
  rcases List.eq_nil_or_concat xs with rfl | ⟨xs', u, rfl⟩
  · -- the node follows the head
    exact Seg.unlink hleft.2 hright hhys hys hhys (Ne.symm hhb) hbys
  · rw [List.concat_eq_append] at hleft hxs hhxs hdisj ⊢
    obtain ⟨hleft, hnu, hpb⟩ := seg_append.mp hleft
    have hu : ∀ y ∈ b :: ys, u ≠ y := hdisj u (by simp)
    have huys : u ∉ ys := fun hmem => hu u (List.mem_cons_of_mem b hmem) rfl
    have hbig := Seg.unlink hpb hright huys hys hhys (Ne.symm hhb) hbys
    rw [List.append_assoc, List.singleton_append, seg_append]
    refine ⟨hleft.congr (fun x hx => ?_) fun x hx => ?_, hbig⟩
    · -- only `u`'s `next` changes, and `u` is the end of this segment
      have hxu : x ≠ u := by
        rintro rfl
        rcases List.mem_cons.mp hx with rfl | hx
        · exact hhxs (by simp)
        · exact (List.nodup_append.mp hxs).2.2 x hx x (by simp) rfl
      have hbn : b ≠ k.next b := by
        cases ys with
        | nil => exact fun heq => hhb (hright.1.symm.trans heq.symm)
        | cons y ys => exact fun heq => hbys (heq.trans hright.1 ▸ List.mem_cons_self)
      simp [Links.unlink, hbn, hpb, hxu]
    · -- only the `prev` of the node after `b` changes
      have hxn : x ≠ k.next b := by
        have hx' : x ∈ xs' ++ [u] := hx
        cases ys with
        | nil =>
          rintro rfl
          rw [hright.1] at hx'
          exact hhxs hx'
        | cons y ys =>
          rintro rfl
          rw [hright.1] at hx'
          exact hdisj y hx' y (by simp) rfl
      simp [Links.unlink, hxn]

/-- Inserting a new node after the head puts it in front. -/
theorem Ring.pushFront (hr : Ring k h l) (hb : b ∉ h :: l) : Ring (k.pushFront h b) h (b :: l) := by
  have hnd := hr.nodup
  rw [List.mem_cons, not_or] at hb
  obtain ⟨hbh, hbl⟩ := hb
  have hseg := hr.seg
  refine ⟨?_, ?_⟩
  · cases l with
    | nil => simp [Seg, Links.pushFront, hseg.1, hbh, Ne.symm hbh]
    | cons x xs =>
      obtain ⟨hn, -, hseg⟩ := hseg
      rw [List.nodup_cons, List.mem_cons, not_or, List.nodup_cons] at hnd
      obtain ⟨⟨hhx, hhxs⟩, hxxs, -⟩ := hnd
      rw [List.mem_cons, not_or] at hbl
      refine ⟨?_, ?_, ?_, ?_, hseg.congr (fun y hy => ?_) fun y hy => ?_⟩
      · simp [Links.pushFront]
      · simp [Links.pushFront, hn, Ne.symm hbh, hbl.1]
      · simp [Links.pushFront, hn, hbh]
      · simp [Links.pushFront, hn, Ne.symm hbh]
      · have hyh : y ≠ h := by
          rintro rfl
          rcases List.mem_cons.mp hy with rfl | hy
          · exact hhx rfl
          · exact hhxs hy
        have hyb : y ≠ b := by
          rintro rfl
          rcases List.mem_cons.mp hy with rfl | hy
          · exact hbl.1 rfl
          · exact hbl.2 hy
        simp [Links.pushFront, hyh, hyb]
      · have hyx : y ≠ x := by
          rintro rfl
          rcases List.mem_append.mp hy with hy | hy
          · exact hxxs hy
          · exact hhx (List.mem_singleton.mp hy).symm
        have hyb : y ≠ b := by
          rintro rfl
          rcases List.mem_append.mp hy with hy | hy
          · exact hbl.2 hy
          · exact hbh (List.mem_singleton.mp hy)
        simp [Links.pushFront, hn, Ne.symm hbh, hyx, hyb]
  · rw [List.nodup_cons, List.mem_cons, not_or, List.nodup_cons]
    exact ⟨⟨Ne.symm hbh, (List.nodup_cons.mp hnd).1⟩, hbl, (List.nodup_cons.mp hnd).2⟩

/-! ### Searching -/

/-- Follow a pointer from `b` until the head comes round, and return the first node that
satisfies `p`. -/
def search (step : α → α) (h : α) (p : α → Bool) : ℕ → α → Option α
  | 0, _ => none
  | n + 1, b => if b = h then none else if p b then some b else search step h p n (step b)

theorem Seg.search_next {a : α} {p : α → Bool} (hseg : Seg k a l h) (hh : h ∉ l) {n : ℕ}
    (hn : l.length < n) : search k.next h p n (k.next a) = l.find? p := by
  induction l generalizing a n with
  | nil =>
    obtain ⟨n, rfl⟩ := Nat.exists_eq_succ_of_ne_zero (by omega : n ≠ 0)
    simp [search, hseg.1]
  | cons x l ih =>
    obtain ⟨n, rfl⟩ := Nat.exists_eq_succ_of_ne_zero (by simp at hn; omega : n ≠ 0)
    obtain ⟨hx, -, hseg⟩ := hseg
    rw [List.mem_cons, not_or] at hh
    rw [search, hx, if_neg (Ne.symm hh.1), List.find?_cons]
    cases p x with
    | true => rfl
    | false => simpa using ih hseg hh.2 (by simpa using hn)

/-- A search along `next` goes through the list. -/
theorem Ring.search_next (hr : Ring k h l) (p : α → Bool) {n : ℕ} (hn : l.length < n) :
    search k.next h p n (k.next h) = l.find? p :=
  hr.seg.search_next (List.nodup_cons.mp hr.nodup).1 hn

/-- A search along `prev` goes through the list from its end. -/
theorem Ring.search_prev (hr : Ring k h l) (p : α → Bool) {n : ℕ} (hn : l.length < n) :
    search k.prev h p n (k.prev h) = l.reverse.find? p := by
  have hh : h ∉ l.reverse := by simpa using (List.nodup_cons.mp hr.nodup).1
  exact hr.seg.reverse.search_next hh (by simpa using hn)

end Linked
