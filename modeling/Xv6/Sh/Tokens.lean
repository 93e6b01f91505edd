import Mathlib.Data.List.TakeWhile
import Xv6.Sh.Grammar

/-!
# The cursor and the tokens

The cursor stands for the tokens of the rest of the line. `gettoken` takes the first of them and
`peek` looks at its first character; where the white space between two tokens is skipped makes no
difference to what is left.
-/

namespace Xv6

namespace Sh

open StateLogic

variable {s : List UInt8} {i : ℕ}

/-- The tokens from the cursor on. -/
def rest (s : List UInt8) (i : ℕ) : List Token := lex (s.drop i)

/-! ### Lexing -/

theorem lex_space {c : UInt8} {r : List UInt8} (hc : isSpace c = true) : lex (c :: r) = lex r := by
  rw [lex, if_pos hc]

theorem lex_word {c : UInt8} {r : List UInt8} (hc : isWord c = true) :
    lex (c :: r) = .word ((c :: r).takeWhile isWord) :: lex ((c :: r).dropWhile isWord) := by
  have hs : ¬isSpace c = true := by
    intro hs
    simp [isWord, hs] at hc
  rw [lex, if_neg hs, if_pos hc, List.takeWhile_cons_of_pos hc, List.dropWhile_cons_of_pos hc]

theorem lex_append {c : UInt8} {r : List UInt8} (hc : c = 62) :
    lex (c :: 62 :: r) = .app :: lex r := by
  subst hc
  rw [lex, if_neg (by decide), if_neg (by decide), if_pos ⟨rfl, rfl⟩, List.tail_cons]

theorem lex_symbol {c : UInt8} {r : List UInt8} (hc : c ∈ symbols)
    (hr : c = 62 → r.head? ≠ some 62) : lex (c :: r) = symbolToken c :: lex r := by
  have hspace : ¬isSpace c = true ∧ ¬isWord c = true := by
    have hall : symbols.all (fun c => !isSpace c && !isWord c) = true := by decide
    simpa using List.all_eq_true.mp hall c hc
  rw [lex, if_neg hspace.1, if_neg hspace.2, if_neg fun h => hr h.1 h.2]

/-- White space in front does not matter. -/
theorem lex_dropWhile (l : List UInt8) : lex (l.dropWhile isSpace) = lex l := by
  induction l with
  | nil => rfl
  | cons c r ih =>
    by_cases hc : isSpace c = true
    · rw [List.dropWhile_cons_of_pos hc, ih, lex_space hc]
    · rw [List.dropWhile_cons_of_neg hc]

/-- There are at most as many tokens as characters. -/
theorem length_lex_le (l : List UInt8) : (lex l).length ≤ l.length := by
  induction hn : l.length using Nat.strong_induction_on generalizing l with
  | _ n ih =>
    subst hn
    cases l with
    | nil => simp [lex]
    | cons c r =>
      have hr := ih r.length (by simp) r rfl
      have hdrop := ih (r.dropWhile isWord).length
        (Nat.lt_succ_of_le (List.dropWhile_sublist _).length_le) _ rfl
      have hdrop' := (List.dropWhile_sublist isWord (l := r)).length_le
      have htail := ih r.tail.length (by rw [List.length_tail, List.length_cons]; omega) _ rfl
      rw [lex]
      simp only [List.length_cons, List.length_tail] at hr htail ⊢
      split
      · omega
      · split
        · rw [List.length_cons]
          omega
        · split
          · rw [List.length_cons]
            omega
          · rw [List.length_cons]
            omega

theorem take_takeWhile (p : UInt8 → Bool) (l : List UInt8) :
    l.take (l.takeWhile p).length = l.takeWhile p := by
  induction l with
  | nil => rfl
  | cons c r ih =>
    by_cases hc : p c = true
    · rw [List.takeWhile_cons_of_pos hc, List.length_cons, List.take_succ_cons, ih]
    · rw [List.takeWhile_cons_of_neg hc, List.length_nil, List.take_zero]

/-! ### The cursor -/

theorem drop_skip (s : List UInt8) (i : ℕ) : s.drop (skip s i) = (s.drop i).dropWhile isSpace := by
  have hsplit := List.takeWhile_append_dropWhile (p := isSpace) (l := s.drop i)
  rw [skip, ← List.drop_drop]
  nth_rewrite 2 [← hsplit]
  rw [List.drop_left]

theorem rest_skip (s : List UInt8) (i : ℕ) : rest s (skip s i) = rest s i := by
  rw [rest, rest, drop_skip, lex_dropWhile]

theorem byteAt_eq (s : List UInt8) (i : ℕ) : byteAt s i = (s.drop i).headD 0 := by
  rw [byteAt, List.headD_eq_head?_getD, List.head?_drop, List.getD_eq_getElem?_getD]

/-- The first character of a token that is a symbol. -/
def Token.symbol? : Token → Option UInt8
  | .word _ => none
  | .bar => some 124
  | .lpar => some 40
  | .rpar => some 41
  | .semi => some 59
  | .amp => some 38
  | .lt => some 60
  | .gt | .app => some 62

/-- What `peek` answers for these tokens. -/
def peeks (toks : List UInt8) (ts : List Token) : Bool :=
  (ts.head?.bind Token.symbol?).elim false toks.contains

/-- What `gettoken` returns for a token. -/
def Token.tok : Token → Tok
  | .word _ => .word
  | .bar => .bar
  | .lpar => .lpar
  | .rpar => .rpar
  | .semi => .semi
  | .amp => .amp
  | .lt => .lt
  | .gt => .gt
  | .app => .app

/-- The span is that of a word: it has characters of words only, and ends at the end of the line or
at another character. -/
structure Span.IsWord (sp : Span) (s : List UInt8) : Prop where
  ordered : sp.q ≤ sp.eq
  le : sp.eq ≤ s.length
  word : ∀ k, sp.q ≤ k → k < sp.eq → isWord (byteAt s k) = true
  stop : sp.eq < s.length → isWord (byteAt s sp.eq) = false

/-- At the first character of a token, `gettoken` finds it and its end. -/
structure TokenAt (s : List UInt8) (q : ℕ) (t : Token) (r : Tok × ℕ) : Prop where
  tok : r.1 = t.tok
  rest : rest s q = t :: rest s r.2
  le : r.2 ≤ s.length
  word : ∀ w, t = .word w → Span.IsWord ⟨q, r.2⟩ s ∧ Span.text ⟨q, r.2⟩ s = w

theorem isWord_iff (c : UInt8) : isWord c = true ↔ isSpace c = false ∧ c ∉ symbols := by
  simp [isWord, isSymbol]

section

variable {q : ℕ} {c : UInt8} {r : List UInt8}

theorem byteAt_of_drop (h : s.drop q = c :: r) : byteAt s q = c := by
  rw [byteAt_eq, h, List.headD_cons]

theorem lt_of_drop (h : s.drop q = c :: r) : q < s.length := by
  by_contra hge
  rw [List.drop_eq_nil_of_le (not_lt.mp hge)] at h
  cases h

theorem drop_succ_of_drop (h : s.drop q = c :: r) : s.drop (q + 1) = r := by
  rw [← List.drop_drop, h, List.drop_succ_cons, List.drop_zero]

/-- A symbol of one character. -/
theorem tokenAt_symbol (h : s.drop q = c :: r) (hc : c ∈ symbols)
    (hr : c = 62 → r.head? ≠ some 62) : TokenAt s q (symbolToken c) (tokenAt s q) := by
  have hbyte := byteAt_of_drop h
  have hdrop := drop_succ_of_drop h
  have hnext : c = 62 → byteAt s (q + 1) ≠ 62 := by
    intro hgt heq
    rw [byteAt_eq, hdrop] at heq
    cases r with
    | nil => exact absurd heq (by decide)
    | cons d r' => exact hr hgt (by rw [List.headD_cons] at heq; rw [heq, List.head?_cons])
  have hrest : rest s q = symbolToken c :: rest s (q + 1) := by
    rw [rest, rest, h, hdrop, lex_symbol hc hr]
  have hword : ∀ w, symbolToken c ≠ .word w := by
    intro w
    rw [symbolToken]
    split_ifs <;> nofun
  have hval : tokenAt s q = ((symbolToken c).tok, q + 1) := by
    rw [tokenAt, hbyte]
    simp only [symbols, List.mem_cons, List.not_mem_nil, or_false] at hc
    rcases hc with rfl | rfl | rfl | rfl | rfl | rfl | rfl
    · rfl
    · rfl
    · rw [if_neg (hnext rfl)]
      rfl
    · rfl
    · rfl
    · rfl
    · rfl
  rw [hval]
  exact ⟨rfl, hrest, lt_of_drop h, fun w hw => absurd hw (hword w)⟩

theorem tokenAt_append (h : s.drop q = 62 :: 62 :: r) : TokenAt s q .app (tokenAt s q) := by
  have hdrop := drop_succ_of_drop h
  have hval : tokenAt s q = (.app, q + 2) := by
    rw [tokenAt, byteAt_of_drop h, byteAt_of_drop hdrop]
    rfl
  rw [hval]
  refine ⟨rfl, ?_, lt_of_drop hdrop, nofun⟩
  rw [rest, rest, h, drop_succ_of_drop hdrop, lex_append rfl]

theorem tokenAt_word (hs : 0 ∉ s) (h : s.drop q = c :: r) (hc : isWord c = true) :
    TokenAt s q (.word ((s.drop q).takeWhile isWord)) (tokenAt s q) := by
  have hbyte := byteAt_of_drop h
  have hne : c ≠ 0 := by
    rintro rfl
    exact hs (List.mem_of_mem_drop (h ▸ List.mem_cons_self))
  have hsym := ((isWord_iff c).mp hc).2
  have hval : tokenAt s q = (.word, q + ((s.drop q).takeWhile isWord).length) := by
    simp only [symbols, List.mem_cons, List.not_mem_nil, or_false, not_or] at hsym
    rw [tokenAt, hbyte, if_neg hne, if_neg hsym.2.1, if_neg hsym.2.2.2.2.2.1,
      if_neg hsym.2.2.2.2.2.2, if_neg hsym.2.2.2.2.1, if_neg hsym.2.2.2.1, if_neg hsym.1,
      if_neg hsym.2.2.1]
  have hsplit := List.takeWhile_append_dropWhile (p := isWord) (l := s.drop q)
  have hdrop : s.drop (q + ((s.drop q).takeWhile isWord).length) =
      (s.drop q).dropWhile isWord := by
    rw [← List.drop_drop]
    nth_rewrite 2 [← hsplit]
    rw [List.drop_left]
  have hlen : ((s.drop q).takeWhile isWord).length ≤ s.length - q := by
    rw [← List.length_drop]
    exact (List.takeWhile_sublist _).length_le
  have hq := lt_of_drop h
  rw [hval]
  refine ⟨rfl, ?_, by dsimp only; omega, fun w hw => ?_⟩
  · rw [rest, rest, hdrop, h, lex_word hc]
  · cases hw
    refine ⟨⟨Nat.le_add_right _ _, by dsimp only; omega, fun k hqk hk => ?_, fun _ => ?_⟩, ?_⟩
    · obtain ⟨j, rfl⟩ := Nat.exists_eq_add_of_le hqk
      have hj : j < ((s.drop q).takeWhile isWord).length := by
        dsimp only at hk
        omega
      have hmem := List.mem_takeWhile_imp (List.getElem_mem hj)
      have hget : ((s.drop q).takeWhile isWord ++ (s.drop q).dropWhile isWord)[j]? =
          ((s.drop q).takeWhile isWord)[j]? := List.getElem?_append_left hj
      rw [hsplit, List.getElem?_eq_getElem hj, List.getElem?_drop] at hget
      rw [byteAt, List.getD_eq_getElem?_getD, hget, Option.getD_some]
      exact hmem
    · rw [byteAt_eq, hdrop]
      cases hd : (s.drop q).dropWhile isWord with
      | nil =>
        have := congrArg List.length hdrop
        rw [hd, List.length_drop, List.length_nil] at this
        dsimp only at *
        omega
      | cons d r' =>
        have hhead := List.head_dropWhile_not isWord (l := s.drop q) (by rw [hd]; nofun)
        simpa [hd] using hhead
    · rw [Span.text]
      dsimp only
      rw [Nat.add_sub_cancel_left, take_takeWhile]

/-- After white space there is the end of the line or the first character of a token. -/
theorem tokenAt_skip (hs : 0 ∉ s) (i : ℕ) :
    rest s i = [] ∧ tokenAt s (skip s i) = (.nul, skip s i) ∧ s.drop (skip s i) = [] ∨
      ∃ t, TokenAt s (skip s i) t (tokenAt s (skip s i)) := by
  have hskip := drop_skip s i
  cases hd : s.drop (skip s i) with
  | nil =>
    refine Or.inl ⟨?_, ?_, rfl⟩
    · rw [← rest_skip, rest, hd, lex]
    · rw [tokenAt, if_pos (by rw [byteAt_eq, hd, List.headD_nil])]
  | cons c r =>
    refine Or.inr ?_
    have hc : isSpace c = false := by
      have hhead := List.head_dropWhile_not isSpace (l := s.drop i) (by rw [← hskip, hd]; rintro ⟨⟩)
      simpa [← hskip, hd] using hhead
    by_cases hsym : c ∈ symbols
    · by_cases hgt : c = 62 ∧ r.head? = some 62
      · obtain ⟨rfl, hr⟩ := hgt
        cases r with
        | nil => cases hr
        | cons d r' =>
          cases hr
          exact ⟨.app, tokenAt_append hd⟩
      · exact ⟨_, tokenAt_symbol hd hsym fun hc' hr => hgt ⟨hc', hr⟩⟩
    · exact ⟨_, tokenAt_word hs hd ((isWord_iff c).mpr ⟨hc, hsym⟩)⟩

end

/-! ### The two functions -/

/-- The cursor is in the line and stands for the tokens `ts`. -/
structure At (s : List UInt8) (i : ℕ) (ts : List Token) : Prop where
  le : i ≤ s.length
  rest : rest s i = ts

theorem skip_le (hi : i ≤ s.length) : skip s i ≤ s.length := by
  have hlen : ((s.drop i).takeWhile isSpace).length ≤ s.length - i := by
    rw [← List.length_drop]
    exact (List.takeWhile_sublist _).length_le
  rw [skip]
  omega

theorem At.skip {ts : List Token} (h : At s i ts) : At s (skip s i) ts :=
  ⟨skip_le h.le, (rest_skip s i).trans h.rest⟩

/-- What `gettoken` does to the tokens. -/
def Took (s : List UInt8) (r : Tok × Span) (i' : ℕ) : List Token → Prop
  | [] => r.1 = .nul ∧ At s i' []
  | t :: ts => r.1 = t.tok ∧ At s i' ts ∧ ∀ w, t = .word w → r.2.IsWord s ∧ r.2.text s = w

theorem gettoken_spec (hs : 0 ∉ s) {ts : List Token} (hi : At s i ts) {E : Panic → ℕ → Prop} :
    wp (gettoken s) (fun r i' => Took s r i' ts) E i := by
  rw [gettoken]
  simp only [wp_bind, wp_get, wp_set, wp_pure]
  have hrest := hi.rest
  subst hrest
  rcases tokenAt_skip hs i with ⟨hnil, htok, hend⟩ | ⟨t, ht⟩
  · rw [hnil, htok]
    refine ⟨rfl, skip_le (skip_le hi.le), ?_⟩
    rw [rest_skip, rest, hend, lex]
  · rw [← rest_skip, ht.rest]
    exact ⟨ht.tok, ⟨skip_le ht.le, rest_skip s _⟩, ht.word⟩

/-- `peek` answers for the first token, if it is asked for symbols. -/
theorem peek_spec (hs : 0 ∉ s) {toks : List UInt8} (htoks : toks ⊆ symbols)
    {ts : List Token} (hi : At s i ts) {E : Panic → ℕ → Prop} :
    wp (peek s toks) (fun b i' => b = peeks toks ts ∧ At s i' ts) E i := by
  rw [peek]
  simp only [wp_bind, wp_get, wp_set, wp_pure]
  refine ⟨?_, hi.skip⟩
  have hrest := hi.rest
  subst hrest
  have hskip := drop_skip s i
  cases hd : s.drop (skip s i) with
  | nil =>
    rw [byteAt_eq, hd, List.headD_nil, ← rest_skip, rest, hd, lex]
    rfl
  | cons c r =>
    have hne : c ≠ 0 := by
      rintro rfl
      exact hs (List.mem_of_mem_drop (hd ▸ List.mem_cons_self))
    have hc : isSpace c = false := by
      have hhead := List.head_dropWhile_not isSpace (l := s.drop i) (by rw [← hskip, hd]; rintro ⟨⟩)
      simpa [← hskip, hd] using hhead
    rw [byteAt_of_drop hd, ← rest_skip, rest, hd]
    have hbne : (c != 0) = true := by simpa using hne
    rw [hbne, Bool.true_and]
    by_cases hsym : c ∈ symbols
    · have hhead : (lex (c :: r)).head?.bind Token.symbol? = some c := by
        by_cases hgt : c = 62 ∧ r.head? = some 62
        · obtain ⟨rfl, hr⟩ := hgt
          cases r with
          | nil => cases hr
          | cons d r' =>
            cases hr
            rw [lex_append rfl]
            rfl
        · rw [lex_symbol hsym fun hc' hr => hgt ⟨hc', hr⟩]
          have hall : symbols.all (fun c => (symbolToken c).symbol? == some c) = true := by decide
          exact eq_of_beq (List.all_eq_true.mp hall c hsym)
      rw [peeks, hhead, Option.elim_some]
    · have hword : isWord c = true := (isWord_iff c).mpr ⟨hc, hsym⟩
      rw [peeks, lex_word hword]
      have hno : c ∉ toks := fun hmem => hsym (htoks hmem)
      simpa [Token.symbol?] using hno

/-! ### Rules for the parser -/

section

variable {ts : List Token} {t : Token} {α : Type} {Q : α → ℕ → Prop} {E : Panic → ℕ → Prop}

/-- A branch on `peek`. -/
theorem wp_peek {toks : List UInt8} {x : Bool → P α} (hs : 0 ∉ s) (hi : At s i ts)
    (htoks : toks ⊆ symbols) (hx : ∀ i', At s i' ts → wp (x (peeks toks ts)) Q E i') :
    wp (peek s toks >>= x) Q E i := by
  refine wp_seq (peek_spec hs htoks hi) fun b i' ⟨hb, hi'⟩ => ?_
  rw [hb]
  exact hx i' hi'

/-- `gettoken` when there is a token. -/
theorem wp_gettoken {x : Tok × Span → P α} (hs : 0 ∉ s) (hi : At s i (t :: ts))
    (hx : ∀ sp i', At s i' ts → (∀ w, t = .word w → sp.IsWord s ∧ sp.text s = w) →
      wp (x (t.tok, sp)) Q E i') : wp (gettoken s >>= x) Q E i := by
  refine wp_seq (gettoken_spec hs hi) fun ⟨_, sp⟩ i' ⟨htok, hi', hword⟩ => ?_
  cases htok
  exact hx sp i' hi' hword

/-- `gettoken` at the end. -/
theorem wp_gettoken_nil {x : Tok × Span → P α} (hs : 0 ∉ s) (hi : At s i [])
    (hx : ∀ sp i', At s i' [] → wp (x (.nul, sp)) Q E i') : wp (gettoken s >>= x) Q E i := by
  refine wp_seq (gettoken_spec hs hi) fun ⟨_, sp⟩ i' ⟨htok, hi'⟩ => ?_
  cases htok
  exact hx sp i' hi'

end

end Sh

end Xv6
