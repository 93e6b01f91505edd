import Xv6.Sh.Sound

/-!
# The parser accepts exactly the grammar

The converse of soundness: when a rule derives a part of the tokens, and the token after it is one
that can follow, the function for the rule returns the tree of that derivation and leaves the rest.
The induction is on the derivation. A line has therefore one derivation at most, and a line on which
the parser stops has none.

`nulterminate` writes only where words end. A word ends at the end of the line or before a character
that is not of a word, so no character of another word is written over.
-/

namespace Xv6

namespace Sh

open StateLogic

variable {s : List UInt8} {i n : ℕ} {ts us : List Token}

/-! ### What follows a rule -/

/-- The first characters of the tokens that can stand after a rule. -/
def Kind.follow : Kind → List UInt8
  | .line => [41]
  | .pipe => [41, 38, 59]
  | .exec => [41, 38, 59, 124]

/-- There is nothing left, or what can stand after the rule. -/
def Follow (k : Kind) (us : List Token) : Prop :=
  ∀ t ∈ us.head?, ∃ c ∈ k.follow, t.symbol? = some c

theorem follow_nil (k : Kind) : Follow k [] := nofun

theorem follow_cons {k : Kind} {t : Token} {c : UInt8} (ht : t.symbol? = some c)
    (hc : c ∈ k.follow) : Follow k (t :: us) := by
  rintro _ ⟨⟩
  exact ⟨c, hc, ht⟩

theorem Follow.mono {k l : Kind} (hkl : k.follow ⊆ l.follow) (h : Follow k us) :
    Follow l us := by
  intro t ht
  obtain ⟨c, hc, hsymbol⟩ := h t ht
  exact ⟨c, hkl hc, hsymbol⟩

theorem peeks_cons {toks : List UInt8} {t : Token} {c : UInt8} (ht : t.symbol? = some c) :
    peeks toks (t :: us) = toks.contains c := by
  rw [peeks, List.head?_cons, Option.bind_some, ht, Option.elim_some]

/-- What cannot follow is not seen. -/
theorem Follow.peeks_eq_false {k : Kind} {toks : List UInt8} (h : Follow k us)
    (htoks : k.follow.all (!toks.contains ·) = true) : peeks toks us = false := by
  cases us with
  | nil => rfl
  | cons t us =>
    obtain ⟨c, hc, ht⟩ := h t rfl
    rw [peeks_cons ht]
    exact Bool.not_eq_true' _ ▸ List.all_eq_true.mp htoks c hc

/-- '&' can follow a pipeline, and so can what follows a line. -/
theorem Follow.replicate {k : ℕ} (h : Follow .pipe us) :
    Follow .pipe (List.replicate k .amp ++ us) := by
  cases k with
  | zero => exact h
  | succ k => exact follow_cons rfl (by decide)

/-- Only the bound on the turns stops the parser here. -/
abbrev Runs (e : Panic) (_ : ℕ) : Prop := e = .fuel

/-! ### Redirections and arguments -/

theorem parseredirs_nil (hs : 0 ∉ s) (hi : At s i us) (hus : peeks [60, 62] us = false) :
    wp (parseredirs s n) (fun rs i' => rs = [] ∧ At s i' us) Runs i := by
  cases n with
  | zero => exact rfl
  | succ n =>
    rw [parseredirs]
    refine wp_peek hs hi (by decide) fun i₁ hi₁ => ?_
    rw [hus]
    exact ⟨rfl, hi₁⟩

/-- One redirection in front. -/
theorem parseredirs_cons (hs : 0 ∉ s) {op : Token} {w : Text} {r : Redirect}
    {Q : List Redir → ℕ → Prop} (hop : redirect op w = some r) (hi : At s i (op :: .word w :: ts))
    (hQ : ∀ r' n i', r'.tree (·.text s) = r → At s i' ts →
      wp (parseredirs s n) (fun rs i'' => Q (r' :: rs) i'') Runs i') :
    wp (parseredirs s n) Q Runs i := by
  cases n with
  | zero => exact rfl
  | succ n =>
    rw [parseredirs]
    refine wp_peek hs hi (by decide) fun i₁ hi₁ => ?_
    have hpeek : peeks [60, 62] (op :: .word w :: ts) = true := by
      cases op <;> first | rfl | cases hop
    rw [hpeek]
    refine wp_ite.mpr ⟨fun _ => ?_, fun h => absurd rfl h⟩
    refine wp_gettoken hs hi₁ fun _ i₂ hi₂ _ => ?_
    refine wp_gettoken hs hi₂ fun sp i₃ hi₃ hword => ?_
    refine wp_ite.mpr ⟨fun hne => absurd rfl hne, fun _ => ?_⟩
    rw [wp_bind]
    exact hQ _ n i₃ (redirect_tok hop (hword w rfl).2) hi₃

theorem parseredirs_complete (hs : 0 ∉ s) {rs : List Redirect} (h : Redirects ts rs)
    (hus : peeks [60, 62] us = false) (hi : At s i (ts ++ us)) :
    wp (parseredirs s n) (fun rs' i' => rs'.map (Redir.tree (·.text s)) = rs ∧ At s i' us)
      Runs i := by
  induction h generalizing i n with
  | nil =>
    refine wp_mono (parseredirs_nil hs hi hus) (fun rs' i' ⟨hrs, hi'⟩ => ?_) fun _ _ he => he
    exact ⟨by rw [hrs, List.map_nil], hi'⟩
  | cons hop _ ih =>
    refine parseredirs_cons hs hop hi fun r' n i' hr' hi' => ?_
    refine wp_mono (ih hi') (fun rs' i'' ⟨hrs, hi''⟩ => ?_) fun _ _ he => he
    exact ⟨by rw [List.map_cons, hr', hrs], hi''⟩

/-- The redirections and the arguments after them together: an item is taken by the one or by the
other. -/
theorem parseargs_complete (hs : 0 ∉ s) {args : List Text} {rs : List Redirect}
    (h : Items ts args rs) (hus : Follow .exec us) (hi : At s i (ts ++ us)) {m argc : ℕ}
    (hargc : argc + args.length < maxargs) :
    wp (parseredirs s n) (fun rs₁ i₁ => wp (parseargs s m argc) (fun r i₂ =>
      r.1.map (·.text s) = args ∧ (rs₁ ++ r.2).map (Redir.tree (·.text s)) = rs ∧ At s i₂ us)
      Runs i₁) Runs i := by
  induction h generalizing i n m argc with
  | nil =>
    have hno : peeks [60, 62] us = false := hus.peeks_eq_false (by decide)
    refine wp_mono (parseredirs_nil hs hi hno) (fun rs₁ i₁ hrs => ?_) fun _ _ he => he
    obtain ⟨hrs, hi₁⟩ := hrs
    subst hrs
    cases m with
    | zero => exact rfl
    | succ m =>
      rw [parseargs]
      refine wp_peek hs hi₁ (by decide) fun i₂ hi₂ => ?_
      refine wp_ite.mpr ⟨fun _ => ⟨rfl, rfl, hi₂⟩, fun hpeek => ?_⟩
      -- what follows is one of the four symbols, or there is nothing
      cases us with
      | nil => exact wp_gettoken_nil hs hi₂ fun _ i₃ hi₃ => ⟨rfl, rfl, hi₃⟩
      | cons t us =>
        obtain ⟨c, hc, ht⟩ := hus t rfl
        have hall : Kind.exec.follow.all ([124, 41, 38, 59].contains ·) = true := by decide
        exact absurd ((peeks_cons ht).trans (List.all_eq_true.mp hall c hc)) hpeek
  | @word w ts args rs _ ih =>
    refine wp_mono (parseredirs_nil hs hi rfl) (fun rs₁ i₁ hrs => ?_) fun _ _ he => he
    obtain ⟨hrs, hi₁⟩ := hrs
    subst hrs
    cases m with
    | zero => exact rfl
    | succ m =>
      rw [List.length_cons] at hargc
      rw [parseargs]
      refine wp_peek hs hi₁ (by decide) fun i₂ hi₂ => ?_
      refine wp_ite.mpr ⟨by rintro ⟨⟩, fun _ => ?_⟩
      refine wp_gettoken hs hi₂ fun sp i₃ hi₃ hword => ?_
      obtain ⟨-, htext⟩ := hword w rfl
      refine wp_ite.mpr ⟨by rintro ⟨⟩, fun _ => wp_ite.mpr ⟨fun hne => absurd rfl hne, fun _ => ?_⟩⟩
      refine wp_ite.mpr ⟨fun hle => by omega, fun _ => ?_⟩
      simp only [wp_bind]
      have hargc' : argc + 1 + args.length < maxargs := by omega
      refine wp_mono (ih (m := m) hi₃ hargc') (fun rs₄ i₄ h₄ => ?_) fun _ _ he => he
      refine wp_mono h₄ (fun res i₅ hres => ?_) fun _ _ he => he
      obtain ⟨args', rs'⟩ := res
      obtain ⟨hargs, hrs', hi₅⟩ := hres
      exact ⟨by rw [List.map_cons, htext, hargs], hrs', hi₅⟩
  | redir hop _ ih =>
    refine parseredirs_cons hs hop hi fun r' n i' hr' hi' => ?_
    refine wp_mono (ih (m := m) hi' hargc) (fun rs₁ i₁ h₁ => ?_) fun _ _ he => he
    refine wp_mono h₁ (fun r i₂ hargs => ?_) fun _ _ he => he
    obtain ⟨hargs, hrs, hi₂⟩ := hargs
    exact ⟨hargs, by rw [List.cons_append, List.map_cons, hr', hrs], hi₂⟩

theorem parseback_complete (hs : 0 ∉ s) {k : ℕ} {cmd : Cmd} (hus : peeks [38] us = false)
    (hi : At s i (List.replicate k .amp ++ us)) :
    wp (parseback s n cmd) (fun cmd' i' => cmd'.told s = (cmd.told s).backs k ∧ At s i' us)
      Runs i := by
  induction k generalizing i n cmd with
  | zero =>
    cases n with
    | zero => exact rfl
    | succ n =>
      rw [parseback]
      refine wp_peek hs hi (by decide) fun i₁ hi₁ => ?_
      rw [List.replicate_zero, List.nil_append] at hi₁ ⊢
      rw [hus]
      exact ⟨rfl, hi₁⟩
  | succ k ih =>
    cases n with
    | zero => exact rfl
    | succ n =>
      rw [parseback]
      refine wp_peek hs hi (by decide) fun i₁ hi₁ => ?_
      refine wp_ite.mpr ⟨fun _ => ?_, fun h => absurd rfl h⟩
      exact wp_gettoken hs hi₁ fun _ i₂ hi₂ _ => ih hi₂

/-! ### Lines, pipelines and commands -/

theorem parse_complete (hs : 0 ∉ s) {k : Kind} {t : Tree} (h : Derives k ts t) (hus : Follow k us)
    (hi : At s i (ts ++ us)) :
    wp (parse s n k) (fun cmd i' => cmd.told s = t ∧ At s i' us) Runs i := by
  induction h generalizing i n us with
  | @line ts t _ k ih =>
    cases n with
    | zero => exact rfl
    | succ n =>
      rw [parse, parseline]
      rw [List.append_assoc] at hi
      refine wp_seq (ih (hus.mono (by decide)).replicate hi) fun cmd i₁ hcmd => ?_
      obtain ⟨hcmd, hi₁⟩ := hcmd
      refine wp_seq (parseback_complete hs (hus.peeks_eq_false (by decide)) hi₁)
        fun cmd' i₂ hcmd' => ?_
      obtain ⟨hcmd', hi₂⟩ := hcmd'
      refine wp_peek hs hi₂ (by decide) fun i₃ hi₃ => ?_
      rw [hus.peeks_eq_false (by decide)]
      exact ⟨by rw [hcmd', hcmd], hi₃⟩
  | @seq ts us' t u _ k _ ih ih' =>
    cases n with
    | zero => exact rfl
    | succ n =>
      rw [parse, parseline]
      rw [List.append_assoc, List.append_assoc, List.cons_append] at hi
      have hsemi : Follow .pipe (.semi :: (us' ++ us)) := follow_cons rfl (by decide)
      refine wp_seq (ih hsemi.replicate hi) fun cmd i₁ hcmd => ?_
      obtain ⟨hcmd, hi₁⟩ := hcmd
      refine wp_seq (parseback_complete hs rfl hi₁) fun cmd' i₂ hcmd' => ?_
      obtain ⟨hcmd', hi₂⟩ := hcmd'
      refine wp_peek hs hi₂ (by decide) fun i₃ hi₃ => ?_
      refine wp_ite.mpr ⟨fun _ => ?_, fun hpeek => absurd rfl hpeek⟩
      refine wp_gettoken hs hi₃ fun _ i₄ hi₄ _ => ?_
      refine wp_seq (ih' hus hi₄) fun right i₅ hright => ?_
      obtain ⟨hright, hi₅⟩ := hright
      refine ⟨?_, hi₅⟩
      rw [← hcmd, ← hcmd', ← hright]
      rfl
  | @single ts t _ ih =>
    cases n with
    | zero => exact rfl
    | succ n =>
      rw [parse, parsepipe]
      refine wp_seq (ih (hus.mono (by decide)) hi) fun cmd i₁ hcmd => ?_
      obtain ⟨hcmd, hi₁⟩ := hcmd
      refine wp_peek hs hi₁ (by decide) fun i₂ hi₂ => ?_
      rw [hus.peeks_eq_false (by decide)]
      exact ⟨hcmd, hi₂⟩
  | @pipe ts us' t u _ _ ih ih' =>
    cases n with
    | zero => exact rfl
    | succ n =>
      rw [parse, parsepipe]
      rw [List.append_assoc, List.cons_append] at hi
      refine wp_seq (ih (follow_cons rfl (by decide)) hi) fun cmd i₁ hcmd => ?_
      obtain ⟨hcmd, hi₁⟩ := hcmd
      refine wp_peek hs hi₁ (by decide) fun i₂ hi₂ => ?_
      refine wp_ite.mpr ⟨fun _ => ?_, fun hpeek => absurd rfl hpeek⟩
      refine wp_gettoken hs hi₂ fun _ i₃ hi₃ _ => ?_
      refine wp_seq (ih' hus hi₃) fun right i₄ hright => ?_
      obtain ⟨hright, hi₄⟩ := hright
      refine ⟨?_, hi₄⟩
      rw [← hcmd, ← hright]
      rfl
  | @block ts us' t rs _ h' ih =>
    cases n with
    | zero => exact rfl
    | succ n =>
      rw [parse, parseexec]
      rw [List.cons_append, List.cons_append, List.append_assoc, List.cons_append] at hi
      refine wp_peek hs hi (by decide) fun i₁ hi₁ => ?_
      refine wp_ite.mpr ⟨fun _ => ?_, fun hpeek => absurd rfl hpeek⟩
      cases n with
      | zero => exact rfl
      | succ n =>
        rw [parseblock]
        refine wp_peek hs hi₁ (by decide) fun i₂ hi₂ => ?_
        refine wp_ite.mpr ⟨fun _ => ?_, fun hpeek => absurd rfl hpeek⟩
        refine wp_gettoken hs hi₂ fun _ i₃ hi₃ _ => ?_
        refine wp_seq (ih (follow_cons rfl (by decide)) hi₃) fun cmd i₄ hcmd => ?_
        obtain ⟨hcmd, hi₄⟩ := hcmd
        refine wp_peek hs hi₄ (by decide) fun i₅ hi₅ => ?_
        refine wp_ite.mpr ⟨fun _ => ?_, fun hpeek => absurd rfl hpeek⟩
        refine wp_gettoken hs hi₅ fun _ i₆ hi₆ _ => ?_
        refine wp_seq (parseredirs_complete hs h' (hus.peeks_eq_false (by decide)) hi₆)
          fun rs' i₇ hrs => ?_
        obtain ⟨hrs, hi₇⟩ := hrs
        refine ⟨?_, hi₇⟩
        rw [← hcmd, ← hrs]
        exact Cmd.tree_wrap _ _ _
  | @simple ts args rs h hlt =>
    cases n with
    | zero => exact rfl
    | succ n =>
      rw [parse, parseexec]
      refine wp_peek hs hi (by decide) fun i₁ hi₁ => ?_
      refine wp_ite.mpr ⟨fun hpeek => ?_, fun _ => ?_⟩
      · -- a simple command starts with a word or a redirection, or is empty
        obtain ⟨us', heq⟩ := eq_cons_of_peeks (t := .lpar) rfl (by decide) hpeek
        cases h with
        | nil =>
          rw [List.nil_append] at heq
          obtain ⟨c, hc, hlpar⟩ := hus .lpar (by rw [heq]; rfl)
          cases hlpar
          exact absurd hc (by decide)
        | word => cases heq
        | redir hop =>
          cases heq
          cases hop
      · simp only [wp_bind]
        have hargc : 0 + args.length < maxargs := by rwa [Nat.zero_add]
        refine wp_mono (parseargs_complete (m := n) hs h hus hi₁ hargc) (fun rs₁ i₂ h₂ => ?_)
          fun _ _ he => he
        refine wp_mono h₂ (fun r i₃ hargs => ?_) fun _ _ he => he
        obtain ⟨hargs, hrs, hi₃⟩ := hargs
        refine ⟨?_, hi₃⟩
        rw [← hargs, ← hrs]
        exact Cmd.tree_wrap _ _ _

/-! ### The words in memory -/

theorem nulterminate_eq (cmd : Cmd) (buf : List UInt8) :
    nulterminate cmd buf = cmd.spans.foldl (fun buf w => buf.set w.eq 0) buf := by
  induction cmd generalizing buf with
  | exec argv => rfl
  | redir cmd r ih => rw [nulterminate, ih, Cmd.spans, List.foldl_append]; rfl
  | pipe left right ihl ihr => rw [nulterminate, ihl, ihr, Cmd.spans, List.foldl_append]
  | list left right ihl ihr => rw [nulterminate, ihl, ihr, Cmd.spans, List.foldl_append]
  | back cmd ih => rw [nulterminate, ih, Cmd.spans]

/-- What is not the end of a word is as it was. -/
theorem getElem?_of_not_end {sps : List Span} {k : ℕ} (hk : ∀ sp ∈ sps, sp.eq ≠ k)
    (buf : List UInt8) : (sps.foldl (fun buf w => buf.set w.eq 0) buf)[k]? = buf[k]? := by
  induction sps generalizing buf with
  | nil => rfl
  | cons sp sps ih =>
    rw [List.foldl_cons, ih fun sp' h => hk sp' (List.mem_cons_of_mem _ h),
      List.getElem?_set_ne (hk sp List.mem_cons_self)]

/-- A 0 stays, and there is one at the end of every word. -/
theorem getElem?_of_end {sps : List Span} {sp : Span} {buf : List UInt8}
    (h : sp ∈ sps ∧ sp.eq < buf.length ∨ buf[sp.eq]? = some 0) :
    (sps.foldl (fun buf w => buf.set w.eq 0) buf)[sp.eq]? = some 0 := by
  induction sps generalizing buf with
  | nil =>
    rcases h with ⟨hmem, -⟩ | h
    · cases hmem
    · exact h
  | cons w sps ih =>
    rw [List.foldl_cons]
    refine ih ?_
    by_cases heq : w.eq = sp.eq
    · refine Or.inr ?_
      have hlt : sp.eq < buf.length := by
        rcases h with ⟨-, hlt⟩ | h
        · exact hlt
        · exact (List.getElem?_eq_some_iff.mp h).1
      rw [heq, List.getElem?_set_self hlt]
    · rw [List.length_set, List.getElem?_set_ne heq]
      rcases h with ⟨hmem, hlt⟩ | h
      · rcases List.mem_cons.mp hmem with rfl | hmem
        · exact absurd rfl heq
        · exact Or.inl ⟨hmem, hlt⟩
      · exact Or.inr h

/-- After `nulterminate` a pointer to a word points to a string with its characters. -/
theorem cstr_nulterminate (hs : 0 ∉ s) {cmd : Cmd} (hcmd : cmd.InLine s) {sp : Span}
    (hsp : sp ∈ cmd.spans) : sp.cstr (nulterminate cmd (s ++ [0])) = sp.text s := by
  have hword := hcmd sp hsp
  have hle := hword.le
  rw [nulterminate_eq]
  generalize hbuf : cmd.spans.foldl (fun buf w => buf.set w.eq 0) (s ++ [0]) = buf
  have hend : buf[sp.eq]? = some 0 := by
    rw [← hbuf]
    refine getElem?_of_end (Or.inl ⟨hsp, ?_⟩)
    rw [List.length_append, List.length_singleton]
    omega
  -- no word ends inside this one
  have hinside : ∀ k, sp.q ≤ k → k < sp.eq → buf[k]? = s[k]? := by
    intro k hq hk
    rw [← hbuf, getElem?_of_not_end, List.getElem?_append_left (by omega)]
    rintro sp' hsp' rfl
    have hstop := (hcmd sp' hsp').stop (by omega)
    rw [hword.word _ hq hk] at hstop
    cases hstop
  have hord := hword.ordered
  obtain ⟨hlen, hzero⟩ := List.getElem?_eq_some_iff.mp hend
  have hfind : (buf.drop sp.q).findIdx (fun c => !decide (c ≠ 0)) = sp.eq - sp.q := by
    rw [List.findIdx_eq (by rw [List.length_drop]; omega)]
    refine ⟨?_, fun j hj => ?_⟩
    · simp only [List.getElem_drop, Nat.add_sub_of_le hord, hzero]
      rfl
    · have hget := hinside (sp.q + j) (by omega) (by omega)
      rw [List.getElem?_eq_getElem (by omega), List.getElem?_eq_getElem (by omega)] at hget
      have hne : s[sp.q + j] ≠ 0 := fun h0 => hs (h0 ▸ List.getElem_mem _)
      simpa [List.getElem_drop, Option.some.inj hget] using hne
  rw [Span.cstr, Span.text, List.takeWhile_eq_take_findIdx_not, hfind]
  refine List.ext_getElem? fun j => ?_
  rw [List.getElem?_take, List.getElem?_take, List.getElem?_drop, List.getElem?_drop]
  by_cases hj : j < sp.eq - sp.q
  · rw [if_pos hj, if_pos hj, hinside _ (by omega) (by omega)]
  · rw [if_neg hj, if_neg hj]

theorem Cmd.tree_congr {f g : Span → Text} {cmd : Cmd} (h : ∀ sp ∈ cmd.spans, f sp = g sp) :
    cmd.tree f = cmd.tree g := by
  induction cmd with
  | exec argv => exact congrArg Tree.exec (List.map_congr_left h)
  | redir cmd r ih =>
    obtain ⟨hcmd, hr⟩ := List.forall_mem_append.mp h
    rw [Cmd.tree, Cmd.tree, ih hcmd, Redir.tree, Redir.tree, hr _ List.mem_cons_self]
  | pipe left right ihl ihr =>
    obtain ⟨hl, hr⟩ := List.forall_mem_append.mp h
    rw [Cmd.tree, Cmd.tree, ihl hl, ihr hr]
  | list left right ihl ihr =>
    obtain ⟨hl, hr⟩ := List.forall_mem_append.mp h
    rw [Cmd.tree, Cmd.tree, ihl hl, ihr hr]
  | back cmd ih => rw [Cmd.tree, Cmd.tree, ih h]

/-! ### The whole line -/

theorem at_zero (s : List UInt8) : At s 0 (lex s) := ⟨Nat.zero_le _, rfl⟩

/-- After the white space the cursor is at the end of the line if there is no token left. -/
theorem peek_end (hs : 0 ∉ s) (hi : At s i ts) {E : Panic → ℕ → Prop} :
    wp (peek s []) (fun _ i' => i' = s.length ↔ ts = []) E i := by
  rw [peek]
  simp only [wp_bind, wp_get, wp_set, wp_pure]
  have hskip := hi.skip
  constructor
  · intro heq
    rw [← hskip.rest, rest, heq, List.drop_length, lex]
  · intro hnil
    rcases tokenAt_skip hs i with ⟨-, -, hend⟩ | ⟨t, ht⟩
    · exact le_antisymm hskip.le (List.drop_eq_nil_iff.mp hend)
    · have hrest := ht.rest
      rw [hskip.rest, hnil] at hrest
      cases hrest

/-- The last test of `parsecmd`. -/
theorem wp_leftovers (hs : 0 ∉ s) {cmd : Cmd} {Q : Cmd → ℕ → Prop} {E : Panic → ℕ → Prop}
    (hi : At s i ts) (hnil : ts = [] → Q cmd s.length) (hcons : ∀ i', ts ≠ [] → E .badSyntax i') :
    wp (do
      let _ ← peek s []
      if (← get) ≠ s.length then throw .badSyntax
      else return cmd) Q E i := by
  refine wp_seq (peek_end hs hi) fun _ i' hend => ?_
  simp only [wp_bind, wp_get, wp_ite, wp_throw, wp_pure]
  refine ⟨fun hne => hcons i' fun hts => hne (hend.mpr hts), fun heq => ?_⟩
  rw [not_not] at heq
  rw [heq]
  exact hnil (hend.mp heq)

theorem parsecmdFrom_sound (hs : 0 ∉ s) :
    wp (parsecmdFrom s) (fun cmd _ => Derives .line (lex s) (cmd.told s) ∧ cmd.InLine s)
      Stops 0 := by
  have hturns : Kind.line.turns (lex s).length ≤ depth s := by
    have hlen := length_lex_le s
    rw [Kind.turns, depth]
    omega
  rw [parsecmdFrom]
  refine wp_seq (parse_sound hs (k := .line) (at_zero s) hturns)
    fun cmd i₁ hcmd => ?_
  obtain ⟨⟨pre, us, hpre, hi₁, hcmd⟩, hin⟩ := hcmd
  refine wp_leftovers hs hi₁ (fun hnil => ?_) fun _ _ => by rintro ⟨⟩
  rw [hpre, hnil, List.append_nil]
  exact ⟨hcmd, hin⟩

theorem parsecmdFrom_complete (hs : 0 ∉ s) {t : Tree} (h : Derives .line (lex s) t) :
    wp (parsecmdFrom s) (fun cmd _ => cmd.told s = t) Runs 0 := by
  have hi : At s 0 (lex s ++ []) := by
    rw [List.append_nil]
    exact at_zero s
  rw [parsecmdFrom]
  refine wp_seq (parse_complete (n := depth s) hs h (follow_nil _) hi) fun cmd i₁ ⟨hcmd, hi₁⟩ => ?_
  exact wp_leftovers hs hi₁ (fun _ => hcmd) fun _ hne => absurd rfl hne

/-- `parsecmd` returns exactly on the lines of the grammar. What it returns is the tree of the only
derivation, when its words are read from memory as C reads them; on every other line it stops with
one of the messages of the source. -/
theorem parsecmd_exact (s : CStr) :
    match parsecmd s with
    | .ok (cmd, buf) => ∀ t, Derives .line (lex s.bytes) t ↔ t = cmd.tree (·.cstr buf)
    | .error e => e ≠ .fuel ∧ ∀ t, ¬Derives .line (lex s.bytes) t := by
  have hsound := parsecmdFrom_sound s.nul
  rw [parsecmd]
  cases hrun : (parsecmdFrom s.bytes).run 0 with
  | ok cmd i =>
    obtain ⟨hcmd, hin⟩ := wp_ok hsound hrun
    have htree : cmd.tree (·.cstr (nulterminate cmd (s.bytes ++ [0]))) = cmd.told s.bytes :=
      Cmd.tree_congr fun sp hsp => cstr_nulterminate s.nul hin hsp
    intro t
    rw [htree]
    constructor
    · intro ht
      exact (wp_ok (parsecmdFrom_complete s.nul ht) hrun).symm
    · rintro rfl
      exact hcmd
  | error e i =>
    have hne := wp_error hsound hrun
    refine ⟨hne, fun t ht => ?_⟩
    have hfuel := wp_error (parsecmdFrom_complete s.nul ht) hrun
    exact hne hfuel

end Sh

end Xv6
