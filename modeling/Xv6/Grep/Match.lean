import Mathlib.Computability.Language

/-!
# The matcher of `grep`

`match`, `matchhere` and `matchstar` of `user/grep.c`. A string is the list of the bytes before its
NUL, so the end of a string is the empty list.

What a pattern means is said by its items (`items`), read from left to right: a character, or a
character with a star behind it. Each item has a language (`Item.lang`), and `Regexp.Matches` is the
meaning of the whole pattern with its anchors. The star is searched from the shortest candidate on
and the rest of the pattern is tried behind each (`matchstar_iff`), so the search is complete, and
`matchRe_iff` says that `match` computes the meaning.

The recursion of `matchhere` is on the pattern, the loops of `matchstar` and `match` are on the
text.
-/

namespace Xv6

namespace Grep

open Computability

abbrev Str := List UInt8

def caret : UInt8 := '^'.toUInt8

def dot : UInt8 := '.'.toUInt8

def asterisk : UInt8 := '*'.toUInt8

def dollar : UInt8 := '$'.toUInt8

mutual

/-- `matchhere(re, text)`. -/
def matchhere (re text : Str) : Bool :=
  match re with
  | [] => true
  | c :: re =>
    if re.head? = some asterisk then matchstar c re.tail text
    else if c = dollar ∧ re = [] then text.isEmpty
    else
      match text with
      | [] => false
      | t :: text => if c = dot ∨ c = t then matchhere re text else false
termination_by (re.length, 0)
decreasing_by
  all_goals
    simp only [Prod.lex_def, List.length_tail, List.length_cons]
    omega

/-- `matchstar(c, re, text)`. -/
def matchstar (c : UInt8) (re text : Str) : Bool :=
  if matchhere re text then true
  else
    match text with
    | [] => false
    | t :: text => if t = c ∨ c = dot then matchstar c re text else false
termination_by (re.length, text.length + 1)
decreasing_by
  · exact Prod.Lex.right _ (Nat.succ_pos _)
  · exact Prod.Lex.right _ (Nat.lt_succ_self _)

end

/-- The loop of `match`, which also looks at the empty string at the end of the text. -/
def matchLoop (re : Str) : Str → Bool
  | [] => matchhere re []
  | t :: text => if matchhere re (t :: text) then true else matchLoop re text

/-- `match(re, text)`. -/
def matchRe (re text : Str) : Bool :=
  if re.head? = some caret then matchhere re.tail text else matchLoop re text

/-! ### The meaning of a pattern -/

/-- A character of the pattern, with or without a star. -/
structure Item where
  char : UInt8
  starred : Bool
deriving DecidableEq

/-- The items of a pattern. A star with no character before it is a character. -/
def items : Str → List Item
  | [] => []
  | [c] => [⟨c, false⟩]
  | c :: d :: re => if d = asterisk then ⟨c, true⟩ :: items re else ⟨c, false⟩ :: items (d :: re)

/-- The characters that `c` stands for. -/
def charLang (c : UInt8) : Language UInt8 := {w | ∃ t, w = [t] ∧ (c = dot ∨ c = t)}

def Item.lang (i : Item) : Language UInt8 := if i.starred then (charLang i.char)∗ else charLang i.char

/-- The item that stands for the end of the text if it is the last one. -/
def endItem : Item := ⟨dollar, false⟩

/-- What a pattern asks for. -/
structure Regexp where
  atStart : Bool
  body : List Item
  atEnd : Bool

/-- The items without a `$` at the end. -/
def unanchored (l : List Item) : List Item := if l.getLast? = some endItem then l.dropLast else l

/-- A pattern, read. -/
def Regexp.parse (re : Str) : Regexp :=
  let atStart : Bool := re.head? = some caret
  let l := items (if atStart then re.tail else re)
  ⟨atStart, unanchored l, l.getLast? = some endItem⟩

/-- Some substring is in the language of the items, at the start or at the end of the text if this
is asked for. -/
def Regexp.Matches (r : Regexp) (text : Str) : Prop :=
  ∃ before found after, text = before ++ found ++ after ∧ (r.atStart → before = []) ∧
    (r.atEnd → after = []) ∧ found ∈ (r.body.map Item.lang).prod

/-! ### The matcher computes the meaning -/

section

variable {c : UInt8} {re text w : Str} {i : Item} {l : List Item}

/-- A text begins with a string that the items stand for. -/
def Begins (l : List Item) (text : Str) : Prop :=
  ∃ found after, text = found ++ after ∧ (l.getLast? = some endItem → after = []) ∧
    found ∈ ((unanchored l).map Item.lang).prod

theorem begins_nil : Begins [] text := ⟨[], text, rfl, nofun, Set.mem_singleton _⟩

theorem begins_endItem : Begins [endItem] text ↔ text = [] := by
  constructor
  · rintro ⟨found, after, rfl, hafter, hfound⟩
    rw [hafter rfl, List.append_nil]
    exact hfound
  · rintro rfl
    exact ⟨[], [], rfl, fun _ => rfl, Set.mem_singleton _⟩

/-- Items are read one after the other. -/
theorem begins_cons (h : i :: l ≠ [endItem]) :
    Begins (i :: l) text ↔ ∃ a b, text = a ++ b ∧ a ∈ i.lang ∧ Begins l b := by
  have hlast : (i :: l).getLast? = some endItem ↔ l.getLast? = some endItem := by
    cases l with
    | nil => simpa using h
    | cons j l => rw [List.getLast?_cons_cons]
  have hbody : unanchored (i :: l) = i :: unanchored l := by
    rw [unanchored, unanchored, if_congr hlast rfl rfl]
    split
    next hl => exact List.dropLast_cons_of_ne_nil (by rintro rfl; cases hl)
    next => rfl
  rw [Begins, hbody, List.map_cons, List.prod_cons]
  constructor
  · rintro ⟨found, after, rfl, hafter, hfound⟩
    obtain ⟨a, ha, b, hb, rfl⟩ := Language.mem_mul.mp hfound
    exact ⟨a, b ++ after, List.append_assoc .., ha, b, after, rfl, fun hl => hafter (hlast.mpr hl), hb⟩
  · rintro ⟨a, -, rfl, ha, b, after, rfl, hafter, hb⟩
    exact ⟨a ++ b, after, (List.append_assoc ..).symm, fun hl => hafter (hlast.mp hl),
      Language.mem_mul.mpr ⟨a, ha, b, hb, rfl⟩⟩

theorem mem_lang_starred : w ∈ (⟨c, true⟩ : Item).lang ↔ ∀ t ∈ w, t = c ∨ c = dot := by
  rw [Item.lang, if_pos rfl, Language.mem_kstar]
  constructor
  · rintro ⟨L, rfl, hL⟩ t ht
    obtain ⟨v, hv, ht⟩ := List.mem_flatten.mp ht
    obtain ⟨u, rfl, hu⟩ := hL v hv
    obtain rfl := List.mem_singleton.mp ht
    exact hu.symm.imp_left Eq.symm
  · intro hw
    refine ⟨w.map fun t => [t], ?_, fun v hv => ?_⟩
    · rw [← List.flatMap_def, List.flatMap_singleton']
    · obtain ⟨t, ht, rfl⟩ := List.mem_map.mp hv
      exact ⟨t, rfl, (hw t ht).symm.imp_right Eq.symm⟩

/-- The search for a star tries the rest of the pattern behind every run of the character. -/
theorem matchstar_iff : matchstar c re text = true ↔
    ∃ a b, text = a ++ b ∧ (∀ t ∈ a, t = c ∨ c = dot) ∧ matchhere re b = true := by
  induction text with
  | nil =>
    rw [matchstar]
    constructor
    · intro h
      split at h
      next hh => exact ⟨[], [], rfl, nofun, hh⟩
      next => cases h
    · rintro ⟨a, b, hab, -, hh⟩
      obtain ⟨rfl, rfl⟩ := List.append_eq_nil_iff.mp hab.symm
      rw [if_pos hh]
  | cons t text ih =>
    rw [matchstar]
    constructor
    · intro h
      split at h
      next hh => exact ⟨[], t :: text, rfl, nofun, hh⟩
      next =>
        rw [Bool.if_false_right, Bool.and_eq_true, decide_eq_true_eq] at h
        obtain ⟨a, b, rfl, ha, hb⟩ := ih.mp h.2
        exact ⟨t :: a, b, rfl, List.forall_mem_cons.mpr ⟨h.1, ha⟩, hb⟩
    · rintro ⟨a, b, hab, ha, hb⟩
      split
      next => rfl
      next hh =>
        -- the run is not empty, since the rest does not match here
        cases a with
        | nil => exact absurd (hab ▸ hb) hh
        | cons u a =>
          obtain ⟨rfl, rfl⟩ := List.cons.inj hab
          obtain ⟨hu, ha⟩ := List.forall_mem_cons.mp ha
          rw [if_pos hu]
          exact ih.mpr ⟨a, b, rfl, ha, hb⟩

/-- A character without a star. -/
theorem begins_char (h : (⟨c, false⟩ : Item) :: l ≠ [endItem]) :
    Begins (⟨c, false⟩ :: l) text ↔ ∃ t b, text = t :: b ∧ (c = dot ∨ c = t) ∧ Begins l b := by
  rw [begins_cons h]
  constructor
  · rintro ⟨-, b, rfl, ⟨t, rfl, ht⟩, hb⟩
    exact ⟨t, b, rfl, ht, hb⟩
  · rintro ⟨t, b, rfl, ht, hb⟩
    exact ⟨[t], b, rfl, ⟨t, rfl, ht⟩, hb⟩

theorem matchhere_star : matchhere (c :: asterisk :: re) text = matchstar c re text := by
  rw [matchhere.eq_def]
  rfl

/-- `matchhere` where no star follows the character. -/
theorem matchhere_char (hstar : re.head? ≠ some asterisk) (hend : ¬(c = dollar ∧ re = [])) :
    matchhere (c :: re) text = true ↔
      ∃ t b, text = t :: b ∧ (c = dot ∨ c = t) ∧ matchhere re b = true := by
  rw [matchhere.eq_def]
  simp only [hstar, hend, if_false]
  cases text with
  | nil => simp
  | cons t b =>
    dsimp only
    rw [Bool.if_false_right, Bool.and_eq_true, decide_eq_true_eq]
    constructor
    · intro h
      exact ⟨t, b, rfl, h⟩
    · rintro ⟨_, _, heq, h⟩
      obtain ⟨rfl, rfl⟩ := List.cons.inj heq
      exact h

theorem matchhere_iff : matchhere re text = true ↔ Begins (items re) text := by
  fun_induction items re generalizing text with
  | case1 =>
    rw [matchhere]
    exact iff_of_true rfl begins_nil
  | case2 c =>
    by_cases hc : c = dollar
    · subst hc
      rw [matchhere.eq_def]
      simp only [List.head?_nil, reduceCtorEq, if_false, and_self, if_true, List.isEmpty_iff]
      exact begins_endItem.symm
    · rw [matchhere_char (by simp) fun h => hc h.1, begins_char (by simpa [endItem] using hc)]
      simp only [matchhere, begins_nil]
  | case3 c re ih =>
    rw [matchhere_star, matchstar_iff, begins_cons (by simp [endItem])]
    simp only [ih, mem_lang_starred]
  | case4 c d re hd ih =>
    have hne : (⟨c, false⟩ : Item) :: items (d :: re) ≠ [endItem] := by
      rw [items.eq_def]
      split <;> first | split | skip
      all_goals simp_all
    rw [matchhere_char (by simpa using hd) (by simp), begins_char hne]
    simp only [ih]

theorem matchLoop_iff : matchLoop re text = true ↔
    ∃ before rest, text = before ++ rest ∧ matchhere re rest = true := by
  induction text with
  | nil =>
    rw [matchLoop]
    constructor
    · exact fun h => ⟨[], [], rfl, h⟩
    · rintro ⟨before, rest, heq, h⟩
      obtain ⟨rfl, rfl⟩ := List.append_eq_nil_iff.mp heq.symm
      exact h
  | cons t text ih =>
    rw [matchLoop, Bool.if_true_left, Bool.or_eq_true, decide_eq_true_eq, ih]
    constructor
    · rintro (h | ⟨before, rest, rfl, h⟩)
      · exact ⟨[], t :: text, rfl, h⟩
      · exact ⟨t :: before, rest, rfl, h⟩
    · rintro ⟨before, rest, heq, h⟩
      cases before with
      | nil => exact Or.inl (heq ▸ h)
      | cons u before => exact Or.inr ⟨before, rest, (List.cons.inj heq).2, h⟩

/-- `match` finds a text if and only if the pattern means it. -/
theorem matchRe_iff (re text : Str) :
    matchRe re text = true ↔ (Regexp.parse re).Matches text := by
  rw [matchRe, Regexp.Matches]
  by_cases hre : re.head? = some caret
  · rw [if_pos hre, matchhere_iff, Begins]
    simp only [Regexp.parse, hre, decide_true, if_true, decide_eq_true_eq]
    constructor
    · rintro ⟨found, after, rfl, hafter, hfound⟩
      exact ⟨[], found, after, rfl, fun _ => rfl, hafter, hfound⟩
    · rintro ⟨before, found, after, rfl, hbefore, hafter, hfound⟩
      rw [hbefore trivial]
      exact ⟨found, after, rfl, hafter, hfound⟩
  · rw [if_neg hre, matchLoop_iff]
    simp only [matchhere_iff, Begins, Regexp.parse, hre, decide_false, Bool.false_eq_true, if_false,
      decide_eq_true_eq]
    constructor
    · rintro ⟨before, -, rfl, found, after, rfl, hafter, hfound⟩
      exact ⟨before, found, after, (List.append_assoc ..).symm, nofun, hafter, hfound⟩
    · rintro ⟨before, found, after, rfl, -, hafter, hfound⟩
      exact ⟨before, found ++ after, List.append_assoc .., found, after, rfl, hafter, hfound⟩

end

end Grep

end Xv6
