import Xv6.Grep.Match

/-!
# The lines of `grep`

`grep` reads into a buffer of 1024 bytes and carries the part behind the last newline over to the
next turn. `sizes` says how much each `read` has to give; a `read` returns at least one byte unless
it is asked for none or the input is at its end.

A line and its newline have to fit into the 1023 bytes that are read at most. A longer line fills
the buffer, `read` is asked for 0 bytes, and `grep` stops as at the end of the input. `strchr` does
not find the newline behind a NUL, so a line with a NUL ends in the same way. Up to the first such
line the output does not depend on the sizes of the reads (`grepLoop_eq`), from there on there is
none (`grep_lines_iff`).
-/

namespace Xv6

namespace Grep

def newline : UInt8 := '\n'.toUInt8

/-- `sizeof(buf)`. -/
def bufSize : ℕ := 1024

/-- `strchr(s, c)`, as an index. -/
def strchr (c : UInt8) : Str → Option ℕ
  | [] => none
  | x :: s =>
    if x = 0 then none
    else if x = c then some 0
    else (strchr c s).map (· + 1)

theorem strchr_lt {c : UInt8} {s : Str} {q : ℕ} (h : strchr c s = some q) : q < s.length := by
  induction s generalizing q with
  | nil => cases h
  | cons x s ih =>
    rw [strchr] at h
    split at h
    · cases h
    · split at h
      · cases h
        exact Nat.succ_pos _
      · obtain ⟨k, hk, rfl⟩ := Option.map_eq_some_iff.mp h
        exact Nat.succ_lt_succ (ih hk)

/-- The inner loop, from `p` on: what is written, and the rest of the buffer. -/
def scan (pattern s : Str) : Str × Str :=
  match h : strchr newline s with
  | none => ([], s)
  | some q =>
    let r := scan pattern (s.drop (q + 1))
    (if matchRe pattern (s.take q) then s.take (q + 1) ++ r.1 else r.1, r.2)
termination_by s.length
decreasing_by
  have := strchr_lt h
  rw [List.length_drop]
  omega

/-- `read(fd, …, req)` where `k` bytes have arrived: the bytes, and the rest of the input. -/
def read (k req : ℕ) (inp : Str) : Str × Str :=
  let n := min (max 1 k) (min req inp.length)
  (inp.take n, inp.drop n)

theorem read_append (k req : ℕ) (inp : Str) : (read k req inp).1 ++ (read k req inp).2 = inp :=
  List.take_append_drop _ _

theorem length_read_le (k req : ℕ) (inp : Str) : (read k req inp).1.length ≤ req := by
  rw [read, List.length_take]
  omega

theorem length_read_lt {k req : ℕ} {inp : Str} (h : (read k req inp).1 ≠ []) :
    (read k req inp).2.length < inp.length := by
  have hlen := congrArg List.length (read_append k req inp)
  have hpos := List.length_pos_iff.mpr h
  rw [List.length_append] at hlen
  omega

theorem read_eq_nil {k req : ℕ} {inp : Str} (h : (read k req inp).1 = []) :
    req = 0 ∨ inp = [] := by
  have hlen := congrArg List.length h
  rw [read, List.length_take, List.length_nil] at hlen
  rcases Nat.eq_zero_or_pos req with hreq | hreq
  · exact Or.inl hreq
  · exact Or.inr (List.length_eq_zero_iff.mp (by omega))

/-- The outer loop, with the first bytes `held` of the buffer. -/
def grepLoop (pattern : Str) (sizes : ℕ → ℕ) (held inp : Str) : Str :=
  let r := read (sizes 0) (bufSize - held.length - 1) inp
  if h : r.1 = [] then []
  else
    let t := scan pattern (held ++ r.1)
    t.1 ++ grepLoop pattern (fun k => sizes (k + 1)) t.2 r.2
termination_by inp.length
decreasing_by
  exact length_read_lt h

/-- What `grep(pattern, fd)` writes. -/
def grep (pattern : Str) (sizes : ℕ → ℕ) (inp : Str) : Str := grepLoop pattern sizes [] inp

/-- The input that consists of these lines. -/
def unlines (lines : List Str) : Str := lines.flatMap (· ++ [newline])

/-- A line that `grep` can find in its buffer. -/
def Fits (line : Str) : Prop := line.length + 1 < bufSize ∧ 0 ∉ line

instance : DecidablePred Fits := fun _ => inferInstanceAs (Decidable (_ ∧ _))

section

variable {pattern s t l inp held : Str} {c : UInt8} {lines : List Str} {q : ℕ}

theorem strchr_of_notMem (h : c ∉ s) : strchr c s = none := by
  induction s with
  | nil => rfl
  | cons x s ih =>
    rw [List.mem_cons, not_or] at h
    rw [strchr, ih h.2, if_neg (Ne.symm h.1), Option.map_none, ite_self]

/-- The search ends at a NUL. -/
theorem strchr_append_of_zero (h₀ : 0 ∈ l) (h : c ∉ l) : strchr c (l ++ s) = none := by
  induction l with
  | nil => cases h₀
  | cons x l ih =>
    rw [List.mem_cons, not_or] at h
    rw [List.cons_append, strchr, if_neg (Ne.symm h.1)]
    split
    · rfl
    · rename_i hx
      rw [ih ((List.mem_cons.mp h₀).resolve_left (Ne.symm hx)) h.2]
      rfl

theorem strchr_append (h₀ : 0 ∉ l) (h : c ∉ l) (hc : c ≠ 0) :
    strchr c (l ++ c :: s) = some l.length := by
  induction l with
  | nil => rw [List.nil_append, strchr, if_neg hc, if_pos rfl, List.length_nil]
  | cons x l ih =>
    rw [List.mem_cons, not_or] at h h₀
    rw [List.cons_append, strchr, if_neg (Ne.symm h₀.1), if_neg (Ne.symm h.1), ih h₀.2 h.2]
    rfl

theorem scan_none (h : strchr newline s = none) : scan pattern s = ([], s) := by
  rw [scan]
  split
  · rfl
  · simp_all

theorem scan_line (h₀ : 0 ∉ l) (h : newline ∉ l) : scan pattern (l ++ newline :: s) =
    (if matchRe pattern l then l ++ newline :: (scan pattern s).1 else (scan pattern s).1,
      (scan pattern s).2) := by
  have hq : strchr newline (l ++ newline :: s) = some l.length := strchr_append h₀ h (by decide)
  rw [scan]
  split
  · simp_all
  · rename_i q hq'
    obtain rfl := Option.some.inj (hq.symm.trans hq')
    have hdrop : (l ++ newline :: s).drop (l.length + 1) = s := by
      rw [List.drop_append, List.drop_of_length_le (Nat.le_succ _), Nat.add_sub_cancel_left]
      rfl
    have htake : (l ++ newline :: s).take (l.length + 1) = l ++ [newline] := by
      rw [List.take_append, List.take_of_length_le (Nat.le_succ _), Nat.add_sub_cancel_left]
      rfl
    simp only [hdrop, htake, List.take_left, List.append_assoc, List.singleton_append]

theorem unlines_cons : unlines (l :: lines) = l ++ newline :: unlines lines := by
  rw [unlines, List.flatMap_cons, List.append_assoc]
  rfl

/-- What the inner loop does with a buffer `s` that is the beginning of the `lines`, where `t` is not
yet read: the lines that are done are written, if they match. -/
def Scanned (pattern s t : Str) (lines : List Str) : Prop :=
  ∃ done todo rest, lines = done ++ todo ∧ (∀ l ∈ done, 0 ∉ l ∧ l.length < s.length) ∧
    scan pattern s = (unlines (done.filter (matchRe pattern)), rest) ∧
    rest ++ t = unlines todo ∧ strchr newline rest = none ∧ rest.length ≤ s.length

/-- Nothing is done if no newline is found. -/
theorem scanned_of_none (h : s ++ t = unlines lines) (hs : strchr newline s = none) :
    Scanned pattern s t lines :=
  ⟨[], lines, s, rfl, nofun, scan_none hs, h, hs, le_rfl⟩

theorem Scanned.cons (h : Scanned pattern s t lines) (h₀ : 0 ∉ l) (hl : newline ∉ l) :
    Scanned pattern (l ++ newline :: s) t (l :: lines) := by
  obtain ⟨done, todo, rest, rfl, hdone, hscan, hrest, hnone, hle⟩ := h
  have hlen : (l ++ newline :: s).length = l.length + s.length + 1 := by
    rw [List.length_append, List.length_cons, Nat.add_assoc]
  refine ⟨l :: done, todo, rest, rfl, ?_, ?_, hrest, hnone, by omega⟩
  · refine List.forall_mem_cons.mpr ⟨⟨h₀, by omega⟩, fun k hk => ?_⟩
    obtain ⟨hk₀, hk⟩ := hdone k hk
    exact ⟨hk₀, by omega⟩
  · rw [scan_line h₀ hl, hscan, List.filter_cons]
    split
    · rw [unlines_cons]
    · rfl

theorem scan_lines (hnl : ∀ l ∈ lines, newline ∉ l) (h : s ++ t = unlines lines) :
    Scanned pattern s t lines := by
  induction lines generalizing s with
  | nil =>
    obtain ⟨rfl, -⟩ := List.append_eq_nil_iff.mp h
    exact scanned_of_none h rfl
  | cons l lines ih =>
    obtain ⟨hl, hnl⟩ := List.forall_mem_cons.mp hnl
    have hsplit := h
    rw [unlines_cons, List.append_eq_append_iff] at hsplit
    rcases hsplit with ⟨u, rfl, -⟩ | ⟨u, rfl, hu⟩
    · -- the line is not whole yet
      exact scanned_of_none h (strchr_of_notMem fun hs => hl (List.mem_append_left _ hs))
    · cases u with
      | nil => exact scanned_of_none h (by rw [List.append_nil]; exact strchr_of_notMem hl)
      | cons x u =>
        obtain ⟨rfl, hrest⟩ := List.cons.inj hu
        by_cases h₀ : 0 ∈ l
        · exact scanned_of_none h (strchr_append_of_zero h₀ hl)
        · exact (ih hnl hrest.symm).cons h₀ hl

/-- A line that is in the buffer with its newline is found, unless it has a NUL. -/
theorem strchr_ne_none (h₀ : 0 ∉ l) (hl : newline ∉ l) (hlen : l.length < held.length)
    (h : held ++ inp = l ++ newline :: s) : strchr newline held ≠ none := by
  rcases List.append_eq_append_iff.mp h with ⟨u, rfl, -⟩ | ⟨u, rfl, hu⟩
  · rw [List.length_append] at hlen
    omega
  · cases u with
    | nil =>
      rw [List.append_nil] at hlen
      omega
    | cons x u =>
      obtain ⟨rfl, -⟩ := List.cons.inj hu
      rw [strchr_append h₀ hl (by decide)]
      nofun

/-- When `read` returns 0, no line that fits is left. -/
theorem takeWhile_fits_eq_nil (hnl : ∀ l ∈ lines, newline ∉ l) (h : held ++ inp = unlines lines)
    (hheld : strchr newline held = none) (hread : bufSize - held.length - 1 = 0 ∨ inp = []) :
    lines.takeWhile Fits = [] := by
  cases lines with
  | nil => rfl
  | cons l lines =>
    refine List.takeWhile_cons_of_neg fun hfit => ?_
    obtain ⟨hlen, h₀⟩ := of_decide_eq_true hfit
    rw [unlines_cons] at h
    refine strchr_ne_none h₀ (hnl l List.mem_cons_self) ?_ h hheld
    rcases hread with hreq | rfl
    · omega
    · rw [List.append_nil] at h
      rw [h, List.length_append, List.length_cons]
      omega

/-- `grep` finds the matching lines before the first one that does not fit, however the input is
split. -/
theorem grepLoop_eq (sizes : ℕ → ℕ) (hnl : ∀ l ∈ lines, newline ∉ l)
    (h : held ++ inp = unlines lines) (hheld : strchr newline held = none)
    (hlen : held.length < bufSize) : grepLoop pattern sizes held inp =
      unlines ((lines.takeWhile Fits).filter (matchRe pattern)) := by
  induction hn : inp.length using Nat.strong_induction_on generalizing sizes lines held inp with
  | _ n ih =>
    subst hn
    rw [grepLoop]
    dsimp only
    split
    next hnil =>
      rw [takeWhile_fits_eq_nil hnl h hheld (read_eq_nil hnil)]
      rfl
    next hne =>
      have hpiece := read_append (sizes 0) (bufSize - held.length - 1) inp
      have hle := length_read_le (sizes 0) (bufSize - held.length - 1) inp
      have hlt := length_read_lt hne
      generalize read (sizes 0) (bufSize - held.length - 1) inp = r at *
      rw [← hpiece, ← List.append_assoc] at h
      have hscanned : Scanned pattern (held ++ r.1) r.2 lines := scan_lines hnl h
      obtain ⟨done, todo, rest, rfl, hdone, hscan, hrest, hnone, hrestlen⟩ := hscanned
      rw [List.length_append] at hdone hrestlen
      have hfits : ∀ l ∈ done, decide (Fits l) = true := fun l hl => by
        obtain ⟨h₀, hl⟩ := hdone l hl
        exact decide_eq_true ⟨by omega, h₀⟩
      have hnl' : ∀ l ∈ todo, newline ∉ l := fun l hl => hnl l (List.mem_append_right _ hl)
      rw [hscan, ih _ hlt _ hnl' hrest hnone (by omega) rfl, List.takeWhile_append_of_pos hfits, List.filter_append, unlines, unlines, unlines,
        List.flatMap_append]

/-- The output is the matching lines, in order, if and only if none of them comes after a line that
does not fit or is one. -/
theorem grep_lines_iff (pattern : Str) (sizes : ℕ → ℕ) (hnl : ∀ l ∈ lines, newline ∉ l) :
    grep pattern sizes (unlines lines) = unlines (lines.filter (matchRe pattern)) ↔
      ∀ l ∈ lines.dropWhile Fits, matchRe pattern l = false := by
  rw [grep, grepLoop_eq sizes hnl rfl rfl (by decide)]
  have hsplit : lines.filter (matchRe pattern) = (lines.takeWhile Fits).filter (matchRe pattern) ++
      (lines.dropWhile Fits).filter (matchRe pattern) := by
    rw [← List.filter_append, List.takeWhile_append_dropWhile]
  rw [hsplit, unlines, unlines, List.flatMap_append, List.self_eq_append_right, List.flatMap_eq_nil_iff]
  constructor
  · intro hnil l hl
    by_contra hmatch
    have := hnil l (List.mem_filter.mpr ⟨hl, by simpa using hmatch⟩)
    simp at this
  · intro hnone l hl
    obtain ⟨hl, hmatch⟩ := List.mem_filter.mp hl
    rw [hnone l hl] at hmatch
    cases hmatch

/-- The lines `a` and `b`, a byte at a time. -/
theorem grep_lines_iff_two : grep [98] (fun _ => 1) (unlines [[97], [98]]) =
    unlines ([[97], [98]].filter (matchRe [98])) :=
  (grep_lines_iff _ _ (by decide)).mpr (by
    have hnil : ([[97], [98]] : List Str).dropWhile Fits = [] := by decide
    rw [hnil]
    nofun)

/-- A line of 1023 times `a`. -/
def longLine : Str := List.replicate 1023 97

/-- The line matches `a`, and nothing is written. -/
theorem grep_longLine : grep [97] (fun _ => 1) (unlines [longLine]) = [] ∧
    unlines ([longLine].filter (matchRe [97])) = longLine ++ [newline] := by
  have hnl : newline ∉ longLine := fun h => absurd (List.eq_of_mem_replicate h) (by decide)
  have hfit : ¬Fits longLine := fun h => absurd h.1 (by rw [longLine, List.length_replicate]; decide)
  have hmatch : matchRe [97] longLine = true := by
    have hhere : matchhere [97] longLine = true :=
      (matchhere_char (by decide) (by decide)).mpr
        ⟨97, List.replicate 1022 97, List.replicate_succ, Or.inr rfl, by rw [matchhere]⟩
    rw [matchRe, if_neg (by decide)]
    exact matchLoop_iff.mpr ⟨[], longLine, rfl, hhere⟩
  refine ⟨?_, ?_⟩
  · have hnone : [longLine].takeWhile Fits = [] :=
      List.takeWhile_cons_of_neg fun h => hfit (of_decide_eq_true h)
    rw [grep, grepLoop_eq _ (List.forall_mem_singleton.mpr hnl) (List.nil_append _) rfl (by decide),
      hnone]
    rfl
  · rw [List.filter_cons_of_pos hmatch, List.filter_nil, unlines_cons]
    rfl

end

end Grep

end Xv6
