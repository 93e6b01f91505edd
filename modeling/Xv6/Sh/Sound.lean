import Xv6.Sh.Tokens

/-!
# What the parser accepts is in the grammar

From a cursor that stands for the tokens `ts`, each function of the parser either stops with one of
the messages of the source, or takes a part of `ts` that its rule derives and leaves the rest. The
tree of the derivation is that of the command it returns, read through the characters of the line.

Every loop and every recursion takes a token, so four turns for each token left are enough; that the
error is not `Panic.fuel` is a part of every statement here.
-/

namespace Xv6

namespace Sh

open StateLogic

variable {s : List UInt8} {i : ℕ} {ts : List Token}

/-! ### Commands and their words -/

/-- The words of a command, in the order in which `nulterminate` meets them. -/
def Cmd.spans : Cmd → List Span
  | .exec argv => argv
  | .redir cmd r => cmd.spans ++ [r.file]
  | .pipe left right => left.spans ++ right.spans
  | .list left right => left.spans ++ right.spans
  | .back cmd => cmd.spans

/-- The pointers of a command are to words of the line. -/
def Cmd.InLine (s : List UInt8) (cmd : Cmd) : Prop := ∀ sp ∈ cmd.spans, sp.IsWord s

theorem Cmd.tree_wrap (f : Span → Text) (cmd : Cmd) (rs : List Redir) :
    (cmd.wrap rs).tree f = (cmd.tree f).wrap (rs.map (Redir.tree f)) := by
  induction rs generalizing cmd with
  | nil => rfl
  | cons r rs ih => exact ih (cmd.redir r)

theorem Cmd.spans_wrap (cmd : Cmd) (rs : List Redir) :
    (cmd.wrap rs).spans = cmd.spans ++ rs.map Redir.file := by
  induction rs generalizing cmd with
  | nil => exact (List.append_nil _).symm
  | cons r rs ih =>
    refine (ih (cmd.redir r)).trans ?_
    rw [Cmd.spans, List.append_assoc, List.map_cons, List.singleton_append]

theorem Cmd.InLine.wrap {cmd : Cmd} {rs : List Redir} (hcmd : cmd.InLine s)
    (hrs : ∀ r ∈ rs, r.file.IsWord s) : (cmd.wrap rs).InLine s := by
  intro sp hsp
  rw [Cmd.spans_wrap, List.mem_append, List.mem_map] at hsp
  rcases hsp with hsp | ⟨r, hr, rfl⟩
  · exact hcmd sp hsp
  · exact hrs r hr

/-- The command and its tree, read through the line. -/
abbrev Cmd.told (s : List UInt8) (cmd : Cmd) : Tree := cmd.tree (·.text s)

/-! ### What `peek` says about the next token -/

/-- A symbol other than '>' is the first character of one token only. -/
theorem Token.symbol?_inj {t u : Token} {c : UInt8} (ht : t.symbol? = some c) (hc : c ≠ 62)
    (hu : u.symbol? = some c) : u = t := by
  cases u <;> cases hu <;> cases t <;> first | rfl | exact absurd rfl hc | cases ht

theorem eq_cons_of_peeks {c : UInt8} {t : Token} (ht : t.symbol? = some c) (hc : c ≠ 62)
    (h : peeks [c] ts = true) : ∃ us, ts = t :: us := by
  cases ts with
  | nil => cases h
  | cons u us =>
    refine ⟨us, ?_⟩
    rw [peeks, List.head?_cons, Option.bind_some] at h
    cases hu : u.symbol? with
    | none =>
      rw [hu] at h
      cases h
    | some d =>
      rw [hu, Option.elim_some, List.contains_iff_mem, List.mem_singleton] at h
      subst h
      rw [Token.symbol?_inj ht hc hu]

/-- After '<' or '>' comes an operator of redirection. -/
theorem redirect_of_peeks (h : peeks [60, 62] ts = true) (w : Text) :
    ∃ op us r, ts = op :: us ∧ redirect op w = some r := by
  cases ts with
  | nil => cases h
  | cons op us =>
    cases op with
    | lt => exact ⟨_, us, _, rfl, rfl⟩
    | gt => exact ⟨_, us, _, rfl, rfl⟩
    | app => exact ⟨_, us, _, rfl, rfl⟩
    | _ => cases h

/-! ### Redirections and arguments -/

theorem redirOf_file (tok : Tok) (sp : Span) : (redirOf tok sp).file = sp := by
  cases tok <;> rfl

/-- The redirection that `parseredirs` builds after an operator. -/
theorem redirect_tok {op : Token} {sp : Span} {w : Text} {r : Redirect}
    (hop : redirect op w = some r) (hsp : sp.text s = w) :
    (redirOf op.tok sp).tree (·.text s) = r := by
  subst hsp
  cases op with
  | lt => exact Option.some.inj hop
  | gt => exact Option.some.inj hop
  | app => exact Option.some.inj hop
  | _ => cases hop

theorem Redirects.items {us ts : List Token} {rs rs' : List Redirect} {args : List Text}
    (h : Redirects us rs) (h' : Items ts args rs') : Items (us ++ ts) args (rs ++ rs') := by
  induction h with
  | nil => exact h'
  | cons hop _ ih => exact ih.redir hop

/-- The part of the tokens that was taken, and what is said about it. -/
def Takes (s : List UInt8) (ts : List Token) (i' : ℕ) (R : List Token → Prop) : Prop :=
  ∃ pre us, ts = pre ++ us ∧ At s i' us ∧ R pre

/-- No function of the parser runs out of turns. -/
abbrev Stops (e : Panic) (_ : ℕ) : Prop := e ≠ .fuel

theorem parseredirs_sound (hs : 0 ∉ s) {n : ℕ} (hi : At s i ts) (hn : ts.length < n) :
    wp (parseredirs s n) (fun rs i' => Takes s ts i'
      (Redirects · (rs.map (Redir.tree (·.text s)))) ∧ ∀ r ∈ rs, r.file.IsWord s) Stops i := by
  induction n generalizing i ts with
  | zero => cases hn
  | succ n ih =>
    rw [parseredirs]
    refine wp_peek hs hi (by decide) fun i₁ hi₁ => ?_
    rw [wp_ite]
    constructor
    · intro hpeek
      obtain ⟨op, us, -, rfl, -⟩ := redirect_of_peeks hpeek []
      refine wp_gettoken hs hi₁ fun _ i₂ hi₂ _ => ?_
      rw [List.length_cons] at hn
      -- the token after the operator
      cases us with
      | nil => exact wp_gettoken_nil hs hi₂ fun sp i₃ hi₃ => nofun
      | cons t us =>
        refine wp_gettoken hs hi₂ fun sp i₃ hi₃ hword => ?_
        dsimp only
        cases t with
        | word w =>
          obtain ⟨hsp, htext⟩ := hword w rfl
          obtain ⟨op', us', r, heq, hop⟩ := redirect_of_peeks hpeek w
          obtain ⟨rfl, rfl⟩ := List.cons.inj heq
          refine wp_ite.mpr ⟨fun hne => absurd rfl hne, fun _ => ?_⟩
          rw [List.length_cons] at hn
          refine wp_seq (ih hi₃ (by omega)) fun rs i₄ ⟨⟨pre, us₄, hpre, hi₄, hrs⟩, hfiles⟩ => ?_
          subst hpre
          refine ⟨⟨op :: .word w :: pre, us₄, rfl, hi₄, ?_⟩, ?_⟩
          · dsimp only
            rw [List.map_cons, redirect_tok hop htext]
            exact hrs.cons hop
          · intro r' hr'
            rcases List.mem_cons.mp hr' with rfl | hr'
            · rw [redirOf_file]
              exact hsp
            · exact hfiles r' hr'
        | _ => exact nofun
    · intro _
      exact ⟨⟨[], ts, rfl, hi₁, .nil⟩, nofun⟩

/-- The arguments and redirections of a simple command, with room for `argc` more words. -/
theorem parseargs_sound (hs : 0 ∉ s) {n argc : ℕ} (hi : At s i ts) (hn : ts.length < n)
    (hargc : argc < maxargs) :
    wp (parseargs s n argc) (fun r i' => Takes s ts i'
      (Items · (r.1.map (·.text s)) (r.2.map (Redir.tree (·.text s)))) ∧
      argc + r.1.length < maxargs ∧ (∀ sp ∈ r.1, sp.IsWord s) ∧ ∀ r' ∈ r.2, r'.file.IsWord s)
      Stops i := by
  induction n generalizing i ts argc with
  | zero => cases hn
  | succ n ih =>
    rw [parseargs]
    refine wp_peek hs hi (by decide) fun i₁ hi₁ => ?_
    rw [wp_ite]
    refine ⟨fun _ => ⟨⟨[], ts, rfl, hi₁, .nil⟩, hargc, nofun, nofun⟩, fun _ => ?_⟩
    cases ts with
    | nil =>
      refine wp_gettoken_nil hs hi₁ fun sp i₂ hi₂ => ?_
      exact ⟨⟨[], [], rfl, hi₂, .nil⟩, hargc, nofun, nofun⟩
    | cons t us =>
      refine wp_gettoken hs hi₁ fun sp i₂ hi₂ hword => ?_
      dsimp only
      rw [List.length_cons] at hn
      cases t with
      | word w =>
        obtain ⟨hsp, rfl⟩ := hword w rfl
        refine wp_ite.mpr ⟨nofun, fun _ => wp_ite.mpr ⟨fun hne => absurd rfl hne, fun _ => ?_⟩⟩
        refine wp_ite.mpr ⟨fun _ => nofun, fun hlt => ?_⟩
        refine wp_seq (parseredirs_sound hs hi₂ (by omega))
          fun rs i₃ ⟨⟨pre, us₃, hpre, hi₃, hrs⟩, hfiles⟩ => ?_
        subst hpre
        rw [List.length_append] at hn
        refine wp_seq (ih hi₃ (by omega) (not_le.mp hlt))
          fun ⟨args, rs'⟩ i₄ ⟨⟨pre', us₄, hpre', hi₄, hitems⟩, hlen, hargs, hfiles'⟩ => ?_
        subst hpre'
        refine ⟨⟨.word (sp.text s) :: (pre ++ pre'), us₄, ?_, hi₄, ?_⟩, ?_, ?_, ?_⟩
        · rw [List.cons_append, List.append_assoc]
        · rw [List.map_cons, List.map_append]
          exact (hrs.items hitems).word
        · rw [List.length_cons]
          dsimp only at hlen
          omega
        · exact List.forall_mem_cons.mpr ⟨hsp, hargs⟩
        · exact List.forall_mem_append.mpr ⟨hfiles, hfiles'⟩
      | _ => exact wp_ite.mpr ⟨nofun, fun _ => wp_ite.mpr ⟨fun _ => nofun, fun h => absurd nofun h⟩⟩

theorem parseback_sound (hs : 0 ∉ s) {n : ℕ} {cmd : Cmd} (hi : At s i ts) (hn : ts.length < n)
    (hcmd : cmd.InLine s) :
    wp (parseback s n cmd) (fun cmd' i' => (∃ k, Takes s ts i' (· = List.replicate k .amp ∧
      cmd'.told s = (cmd.told s).backs k)) ∧ cmd'.InLine s) Stops i := by
  induction n generalizing i ts cmd with
  | zero => cases hn
  | succ n ih =>
    rw [parseback]
    refine wp_peek hs hi (by decide) fun i₁ hi₁ => ?_
    refine wp_ite.mpr ⟨fun hpeek => ?_, fun _ => ⟨⟨0, [], ts, rfl, hi₁, rfl, rfl⟩, hcmd⟩⟩
    obtain ⟨us, rfl⟩ := eq_cons_of_peeks (t := .amp) rfl (by decide) hpeek
    refine wp_gettoken hs hi₁ fun _ i₂ hi₂ _ => ?_
    rw [List.length_cons] at hn
    refine wp_mono (ih hi₂ (by omega) hcmd)
      (fun cmd' i₃ ⟨⟨k, pre, us₃, hpre, hi₃, hk, htree⟩, hcmd'⟩ => ?_) fun _ _ he => he
    subst hpre hk
    exact ⟨⟨k + 1, .amp :: List.replicate k .amp, us₃, rfl, hi₃, rfl, htree⟩, hcmd'⟩

/-! ### Lines, pipelines and commands -/

/-- The function for each rule. -/
def parse (s : List UInt8) (n : ℕ) : Kind → P Cmd
  | .line => parseline s n
  | .pipe => parsepipe s n
  | .exec => parseexec s n

/-- What a function of the parser has taken is derived by its rule. -/
def Parsed (s : List UInt8) (k : Kind) (ts : List Token) (cmd : Cmd) (i' : ℕ) : Prop :=
  Takes s ts i' (Derives k · (cmd.told s)) ∧ cmd.InLine s

/-- The turns that a rule needs when there are `m` tokens. -/
def Kind.turns (m : ℕ) : Kind → ℕ
  | .line => 4 * m + 8
  | .pipe => 4 * m + 7
  | .exec => 4 * m + 6

section

variable {n : ℕ} (hs : 0 ∉ s)
  (ih : ∀ {k ts i}, At s i ts → Kind.turns ts.length k ≤ n →
    wp (parse s n k) (Parsed s k ts) Stops i)

include hs ih

theorem parseline_sound (hi : At s i ts) (hn : 4 * ts.length + 7 ≤ n) :
    wp (parseline s (n + 1)) (Parsed s .line ts) Stops i := by
  rw [parseline]
  refine wp_seq (ih (k := .pipe) hi hn) fun cmd i₁ ⟨⟨pre, us, hpre, hi₁, hcmd⟩, hin⟩ => ?_
  subst hpre
  rw [List.length_append] at hn
  refine wp_seq (parseback_sound hs hi₁ (by omega) hin)
    fun cmd' i₂ ⟨⟨k, pre', us₂, hpre', hi₂, hk, htree⟩, hin'⟩ => ?_
  subst hpre' hk
  rw [List.length_append] at hn
  refine wp_peek hs hi₂ (by decide) fun i₃ hi₃ => ?_
  refine wp_ite.mpr ⟨fun hpeek => ?_, fun _ => ?_⟩
  · obtain ⟨us₃, rfl⟩ := eq_cons_of_peeks (t := .semi) rfl (by decide) hpeek
    refine wp_gettoken hs hi₃ fun _ i₄ hi₄ _ => ?_
    rw [List.length_cons] at hn
    refine wp_seq (ih (k := .line) hi₄ (by rw [Kind.turns]; omega))
      fun right i₅ ⟨⟨pre₅, us₅, hpre₅, hi₅, hright⟩, hin₅⟩ => ?_
    subst hpre₅
    refine ⟨⟨pre ++ (List.replicate k .amp ++ .semi :: pre₅), us₅, ?_, hi₅, ?_⟩,
      List.forall_mem_append.mpr ⟨hin', hin₅⟩⟩
    · simp only [List.append_assoc, List.cons_append]
    · have hlist : (Cmd.list cmd' right).told s = .list ((cmd.told s).backs k) (right.told s) := by
        rw [← htree]
        rfl
      rw [hlist]
      exact .seq hcmd k hright
  · refine ⟨⟨pre ++ List.replicate k .amp, us₂, (List.append_assoc _ _ _).symm, hi₃, ?_⟩, hin'⟩
    rw [htree]
    exact .line hcmd k

theorem parsepipe_sound (hi : At s i ts) (hn : 4 * ts.length + 6 ≤ n) :
    wp (parsepipe s (n + 1)) (Parsed s .pipe ts) Stops i := by
  rw [parsepipe]
  refine wp_seq (ih (k := .exec) hi hn) fun cmd i₁ ⟨⟨pre, us, hpre, hi₁, hcmd⟩, hin⟩ => ?_
  subst hpre
  rw [List.length_append] at hn
  refine wp_peek hs hi₁ (by decide) fun i₂ hi₂ => ?_
  refine wp_ite.mpr ⟨fun hpeek => ?_, fun _ => ⟨⟨pre, us, rfl, hi₂, .single hcmd⟩, hin⟩⟩
  obtain ⟨us₂, rfl⟩ := eq_cons_of_peeks (t := .bar) rfl (by decide) hpeek
  refine wp_gettoken hs hi₂ fun _ i₃ hi₃ _ => ?_
  rw [List.length_cons] at hn
  refine wp_seq (ih (k := .pipe) hi₃ (by rw [Kind.turns]; omega))
    fun right i₄ ⟨⟨pre₄, us₄, hpre₄, hi₄, hright⟩, hin₄⟩ => ?_
  subst hpre₄
  refine ⟨⟨pre ++ .bar :: pre₄, us₄, ?_, hi₄, .pipe hcmd hright⟩,
    List.forall_mem_append.mpr ⟨hin, hin₄⟩⟩
  rw [List.append_assoc, List.cons_append]

theorem parseblock_sound (hi : At s i (.lpar :: ts)) (hn : 4 * ts.length + 8 ≤ n) :
    wp (parseblock s (n + 1)) (Parsed s .exec (.lpar :: ts)) Stops i := by
  rw [parseblock]
  refine wp_peek hs hi (by decide) fun i₁ hi₁ => ?_
  refine wp_ite.mpr ⟨fun _ => ?_, fun hpeek => absurd rfl hpeek⟩
  refine wp_gettoken hs hi₁ fun _ i₂ hi₂ _ => ?_
  refine wp_seq (ih (k := .line) hi₂ hn) fun cmd i₃ ⟨⟨pre, us, hpre, hi₃, hcmd⟩, hin⟩ => ?_
  subst hpre
  refine wp_peek hs hi₃ (by decide) fun i₄ hi₄ => ?_
  refine wp_ite.mpr ⟨fun hpeek => ?_, fun _ => nofun⟩
  obtain ⟨us₂, rfl⟩ := eq_cons_of_peeks (t := .rpar) rfl (by decide) hpeek
  refine wp_gettoken hs hi₄ fun _ i₅ hi₅ _ => ?_
  simp only [List.length_append, List.length_cons] at hn
  refine wp_seq (parseredirs_sound hs hi₅ (by omega))
    fun rs i₆ ⟨⟨pre₆, us₆, hpre₆, hi₆, hrs⟩, hfiles⟩ => ?_
  subst hpre₆
  refine ⟨⟨.lpar :: pre ++ .rpar :: pre₆, us₆, ?_, hi₆, ?_⟩, hin.wrap hfiles⟩
  · simp only [List.append_assoc, List.cons_append]
  · rw [Cmd.told, Cmd.tree_wrap]
    exact .block hcmd hrs

end

theorem parseexec_sound (hs : 0 ∉ s) {n : ℕ}
    (ih : ∀ m < n, ∀ {k ts i}, At s i ts → Kind.turns ts.length k ≤ m →
      wp (parse s m k) (Parsed s k ts) Stops i)
    (hi : At s i ts) (hn : 4 * ts.length + 5 ≤ n) :
    wp (parseexec s (n + 1)) (Parsed s .exec ts) Stops i := by
  rw [parseexec]
  refine wp_peek hs hi (by decide) fun i₁ hi₁ => wp_ite.mpr ⟨fun hpeek => ?_, fun _ => ?_⟩
  · obtain ⟨us, rfl⟩ := eq_cons_of_peeks (t := .lpar) rfl (by decide) hpeek
    rw [List.length_cons] at hn
    cases n with
    | zero => omega
    | succ n => exact parseblock_sound hs (ih n n.lt_succ_self) hi₁ (by omega)
  · refine wp_seq (parseredirs_sound hs hi₁ (by omega))
      fun rs i₂ ⟨⟨pre, us, hpre, hi₂, hrs⟩, hfiles⟩ => ?_
    subst hpre
    rw [List.length_append] at hn
    refine wp_seq (parseargs_sound hs hi₂ (by omega) (by decide))
      fun ⟨args, rs'⟩ i₃ ⟨⟨pre₃, us₃, hpre₃, hi₃, hitems⟩, hlen, hargs, hfiles'⟩ => ?_
    subst hpre₃
    refine ⟨⟨pre ++ pre₃, us₃, (List.append_assoc _ _ _).symm, hi₃, ?_⟩, ?_⟩
    · rw [Cmd.told, Cmd.tree_wrap, List.map_append]
      refine .simple (hrs.items hitems) ?_
      rw [List.length_map]
      dsimp only at hlen
      omega
    · have hexec : (Cmd.exec args).InLine s := hargs
      exact hexec.wrap (List.forall_mem_append.mpr ⟨hfiles, hfiles'⟩)

/-- With enough turns, every rule ends, and what it has taken is derived. -/
theorem parse_sound (hs : 0 ∉ s) {n : ℕ} {k : Kind} (hi : At s i ts)
    (hn : k.turns ts.length ≤ n) : wp (parse s n k) (Parsed s k ts) Stops i := by
  induction n using Nat.strong_induction_on generalizing i ts k with
  | _ n ih =>
    cases n with
    | zero => cases k <;> cases hn
    | succ n =>
      cases k with
      | line => exact parseline_sound hs (ih n n.lt_succ_self) hi (Nat.le_of_succ_le_succ hn)
      | pipe => exact parsepipe_sound hs (ih n n.lt_succ_self) hi (Nat.le_of_succ_le_succ hn)
      | exec =>
        exact parseexec_sound hs (fun m hm => ih m (by omega)) hi (Nat.le_of_succ_le_succ hn)

end Sh

end Xv6
