import Xv6.Files.Model
import Xv6.Logic.Ownership

/-!
# What the open files own

An open file of an inode or a device owns a reference to the inode, and an open end of a pipe keeps
the pipe's page. `InodesOK` says that each reference is owned by exactly one of the files, the call
that has just taken it, and the past; `PipesOK` says the same of the pipes, and that an end is marked
open if there is a file for it.
-/

namespace Xv6

namespace Files

open Ownership

variable {file file' : ℕ → File} {taken made i f g pi : ℕ} {puts freed : List ℕ} {hand : Option ℕ}
  {pipes : ℕ → Option Pipe} {q : Pipe} {w : Bool}

/-! ### Inodes -/

/-- The file owns the reference. -/
structure HasIp (file : ℕ → File) (f i : ℕ) : Prop where
  type : (file f).type = .inode ∨ (file f).type = .device
  ip : (file f).ip = i

/-- Where a reference can be. -/
inductive Keeper
  | past | hand | file (f : ℕ)

/-- The references of a keeper. -/
def keeps (file : ℕ → File) (puts : List ℕ) (hand : Option ℕ) : Keeper → Set ℕ
  | .past => {i | i ∈ puts}
  | .hand => {i | hand = some i}
  | .file f => {i | HasIp file f i}

/-- Each reference that was taken is in one place. -/
structure InodesOK (file : ℕ → File) (taken : ℕ) (puts : List ℕ) (hand : Option ℕ) : Prop where
  exact : Exact (keeps file puts hand) {i | i < taken}
  nodup : puts.Nodup

/-- A file that owns nothing. -/
theorem not_hasIp_update {x : File} (hx : x.type ≠ .inode ∧ x.type ≠ .device) :
    HasIp (Function.update file f x) g i ↔ HasIp file g i ∧ g ≠ f := by
  by_cases hg : g = f
  · subst hg
    refine ⟨fun h => ?_, fun h => absurd rfl h.2⟩
    have ht := h.type
    rw [Function.update_self] at ht
    exact absurd ht (not_or.mpr hx)
  · constructor
    · rintro ⟨ht, hi⟩
      rw [Function.update_of_ne hg] at ht hi
      exact ⟨⟨ht, hi⟩, hg⟩
    · rintro ⟨⟨ht, hi⟩, -⟩
      constructor <;> rwa [Function.update_of_ne hg]

namespace InodesOK

theorem keep (h : InodesOK file taken puts hand)
    (hsame : ∀ g i, HasIp file' g i ↔ HasIp file g i) : InodesOK file' taken puts hand := by
  refine ⟨h.exact.congr fun o i => ?_, h.nodup⟩
  cases o with
  | past | hand => exact Iff.rfl
  | file g => exact hsame g i

/-- A file without an inode stays without one. -/
theorem update (h : InodesOK file taken puts hand) {x : File}
    (hf : (file f).type ≠ .inode ∧ (file f).type ≠ .device)
    (hx : x.type ≠ .inode ∧ x.type ≠ .device) :
    InodesOK (Function.update file f x) taken puts hand := by
  refine h.keep fun g i => ?_
  rw [not_hasIp_update hx]
  refine and_iff_left_of_imp ?_
  rintro hg rfl
  exact not_or.mpr hf hg.type

/-- The count of a file changes. -/
theorem setRef (h : InodesOK file taken puts hand) (f n : ℕ) :
    InodesOK (Function.update file f { file f with ref := n }) taken puts hand := by
  refine h.keep fun g i => ?_
  by_cases hg : g = f
  · subst hg
    constructor
    · rintro ⟨ht, hi⟩
      rw [Function.update_self] at ht hi
      exact ⟨ht, hi⟩
    · rintro ⟨ht, hi⟩
      constructor <;> rw [Function.update_self] <;> assumption
  · constructor
    · rintro ⟨ht, hi⟩
      rw [Function.update_of_ne hg] at ht hi
      exact ⟨ht, hi⟩
    · rintro ⟨ht, hi⟩
      constructor <;> rwa [Function.update_of_ne hg]

/-- `create` or `namei` hands out a reference. -/
theorem take (h : InodesOK file taken puts none) :
    InodesOK file (taken + 1) puts (some taken) := by
  refine ⟨h.exact.gain (r := taken) (b := .hand) (lt_irrefl taken) (fun x => ?_) (fun x => ?_)
    fun o ho x => ?_, h.nodup⟩
  · exact Nat.lt_succ_iff_lt_or_eq
  · exact ⟨fun hx => Or.inr (Option.some.inj hx).symm, fun hx => hx.elim nofun fun hx => hx ▸ rfl⟩
  · cases o with
    | hand => exact absurd rfl ho
    | past | file g => exact Iff.rfl

/-- A reference that is put is put for the first time. -/
theorem put_nodup (h : InodesOK file taken puts hand) {o : Keeper} (ho : o ≠ .past)
    (hi : i ∈ keeps file puts hand o) : (puts ++ [i]).Nodup := by
  refine List.nodup_append.mpr ⟨h.nodup, List.nodup_singleton i, fun a ha b hb heq => ?_⟩
  rw [List.mem_singleton.mp hb] at heq
  subst heq
  exact ho (h.exact.uniq o .past a hi ha)

/-- `iput` of the reference in hand. -/
theorem putHand (h : InodesOK file taken puts (some i)) :
    InodesOK file taken (puts ++ [i]) none := by
  refine ⟨h.exact.move (r := i) (a := .hand) (b := .past) rfl (fun x => ?_) (fun x => ?_)
    fun o ho ho' x => ?_, h.put_nodup (o := .hand) nofun rfl⟩
  · exact ⟨nofun, fun hx => absurd (Option.some.inj hx.1).symm hx.2⟩
  · exact List.mem_append.trans (or_congr_right List.mem_singleton)
  · cases o with
    | past => exact absurd rfl ho'
    | hand => exact absurd rfl ho
    | file g => exact Iff.rfl

/-- The reference in hand goes to a file. -/
theorem store (h : InodesOK file taken puts (some i)) {x : File}
    (hf : (file f).type ≠ .inode ∧ (file f).type ≠ .device)
    (hx : x.type = .inode ∨ x.type = .device) (hi : x.ip = i) :
    InodesOK (Function.update file f x) taken puts none := by
  have hself : ∀ j, HasIp (Function.update file f x) f j ↔ j = i := by
    intro j
    constructor
    · rintro ⟨-, hj⟩
      rw [Function.update_self, hi] at hj
      exact hj.symm
    · rintro rfl
      constructor <;> rw [Function.update_self] <;> assumption
  refine ⟨h.exact.move (r := i) (a := .hand) (b := .file f) rfl (fun j => ?_) (fun j => ?_)
    fun o ho ho' j => ?_, h.nodup⟩
  · exact ⟨nofun, fun hj => absurd (Option.some.inj hj.1).symm hj.2⟩
  · refine (hself j).trans ⟨Or.inr, fun hj => hj.resolve_left fun hold => ?_⟩
    exact not_or.mpr hf hold.type
  · cases o with
    | past => exact Iff.rfl
    | hand => exact absurd rfl ho
    | file g =>
      have hg : g ≠ f := fun heq => ho' (heq ▸ rfl)
      constructor
      · rintro ⟨ht, hj⟩
        rw [Function.update_of_ne hg] at ht hj
        exact ⟨ht, hj⟩
      · rintro ⟨ht, hj⟩
        constructor <;> rwa [Function.update_of_ne hg]

/-- `iput` of the reference of a file that is closed. -/
theorem close (h : InodesOK file taken puts hand) {x : File} (hf : HasIp file f i)
    (hx : x.type ≠ .inode ∧ x.type ≠ .device) :
    InodesOK (Function.update file f x) taken (puts ++ [i]) hand := by
  refine ⟨h.exact.move (r := i) (a := .file f) (b := .past) hf (fun j => ?_) (fun j => ?_)
    fun o ho ho' j => ?_, h.put_nodup (o := .file f) nofun hf⟩
  · refine (not_hasIp_update hx).trans ⟨fun hj => absurd rfl hj.2, fun hj => absurd ?_ hj.2⟩
    exact hj.1.ip.symm.trans hf.ip
  · exact List.mem_append.trans (or_congr_right List.mem_singleton)
  · cases o with
    | past => exact absurd rfl ho'
    | hand => exact Iff.rfl
    | file g =>
      have hg : g ≠ f := fun heq => ho (heq ▸ rfl)
      exact (not_hasIp_update hx).trans (and_iff_left hg)

end InodesOK

/-! ### Pipes -/

/-- The file is an end of the pipe in page `pi`. -/
structure IsEnd (file : ℕ → File) (f pi : ℕ) (w : Bool) : Prop where
  type : (file f).type = .pipe
  pipe : (file f).pipe = pi
  writable : (file f).writable = w

/-- The end is marked open. -/
def Pipe.isOpen (q : Pipe) (w : Bool) : Bool := if w then q.writeopen else q.readopen

/-- What `pipeclose` does to the marks. -/
def Pipe.close (q : Pipe) (w : Bool) : Pipe :=
  if w then { q with writeopen := false } else { q with readopen := false }

/-- Where a pipe can be: in its page, or nowhere. -/
def places (pipes : ℕ → Option Pipe) (freed : List ℕ) : Option ℕ → Set ℕ
  | none => {i | i ∈ freed}
  | some pi => {i | (pipes pi).map Pipe.id = some i}

/-- Each pipe that was made is in one place, and its open ends have one file each. -/
structure PipesOK (file : ℕ → File) (pipes : ℕ → Option Pipe) (made : ℕ) (freed : List ℕ) :
    Prop where
  exact : Exact (places pipes freed) {i | i < made}
  nodup : freed.Nodup
  opened : ∀ f pi w, IsEnd file f pi w → ∃ q, pipes pi = some q ∧ q.isOpen w = true
  inj : ∀ f g pi w, IsEnd file f pi w → IsEnd file g pi w → f = g
  ends : ∀ pi q, pipes pi = some q → ∀ w, q.isOpen w = true → ∃ f, IsEnd file f pi w
  used : ∀ pi q, pipes pi = some q → ∃ w, q.isOpen w = true

@[simp] theorem Pipe.id_close : (q.close w).id = q.id := by
  cases w <;> rfl

theorem Pipe.isOpen_close {w' : Bool} :
    (q.close w).isOpen w' = true ↔ q.isOpen w' = true ∧ w' ≠ w := by
  cases w <;> cases w' <;> simp [Pipe.close, Pipe.isOpen]

/-- A file that is no end of a pipe. -/
theorem not_isEnd_update {x : File} (hx : x.type ≠ .pipe) :
    IsEnd (Function.update file f x) g pi w ↔ IsEnd file g pi w ∧ g ≠ f := by
  by_cases hg : g = f
  · subst hg
    refine ⟨fun h => ?_, fun h => absurd rfl h.2⟩
    have ht := h.type
    rw [Function.update_self] at ht
    exact absurd ht hx
  · constructor
    · rintro ⟨ht, hp, hw⟩
      rw [Function.update_of_ne hg] at ht hp hw
      exact ⟨⟨ht, hp, hw⟩, hg⟩
    · rintro ⟨⟨ht, hp, hw⟩, -⟩
      refine ⟨?_, ?_, ?_⟩ <;> rwa [Function.update_of_ne hg]

/-- A file becomes an end of a pipe. -/
theorem isEnd_update {x : File} (hf : (file f).type ≠ .pipe) (hx : x.type = .pipe) :
    IsEnd (Function.update file f x) g pi w ↔
      IsEnd file g pi w ∨ g = f ∧ pi = x.pipe ∧ w = x.writable := by
  by_cases hg : g = f
  · subst hg
    constructor
    · rintro ⟨-, hp, hw⟩
      rw [Function.update_self] at hp hw
      exact Or.inr ⟨rfl, hp.symm, hw.symm⟩
    · rintro (h | ⟨-, rfl, rfl⟩)
      · exact absurd h.type hf
      · refine ⟨?_, ?_, ?_⟩ <;> rw [Function.update_self]
        exact hx
  · have hiff : IsEnd (Function.update file f x) g pi w ↔ IsEnd file g pi w := by
      constructor
      · rintro ⟨ht, hp, hw⟩
        rw [Function.update_of_ne hg] at ht hp hw
        exact ⟨ht, hp, hw⟩
      · rintro ⟨ht, hp, hw⟩
        refine ⟨?_, ?_, ?_⟩ <;> rwa [Function.update_of_ne hg]
    rw [hiff]
    exact ⟨Or.inl, fun h => h.resolve_right fun hr => hg hr.1⟩

namespace PipesOK

theorem keep (h : PipesOK file pipes made freed)
    (hsame : ∀ g pi w, IsEnd file' g pi w ↔ IsEnd file g pi w) : PipesOK file' pipes made freed where
  exact := h.exact
  nodup := h.nodup
  opened f pi w hf := h.opened f pi w ((hsame f pi w).mp hf)
  inj f g pi w hf hg := h.inj f g pi w ((hsame f pi w).mp hf) ((hsame g pi w).mp hg)
  ends pi q hq w hw := by
    obtain ⟨f, hf⟩ := h.ends pi q hq w hw
    exact ⟨f, (hsame f pi w).mpr hf⟩
  used := h.used

/-- A file that is not an end of a pipe stays none. -/
theorem update (h : PipesOK file pipes made freed) {x : File} (hf : (file f).type ≠ .pipe)
    (hx : x.type ≠ .pipe) : PipesOK (Function.update file f x) pipes made freed := by
  refine h.keep fun g pi w => ?_
  rw [not_isEnd_update hx]
  refine and_iff_left_of_imp ?_
  rintro hg rfl
  exact hf hg.type

/-- The count of a file changes. -/
theorem setRef (h : PipesOK file pipes made freed) (f n : ℕ) :
    PipesOK (Function.update file f { file f with ref := n }) pipes made freed := by
  refine h.keep fun g pi w => ?_
  by_cases hg : g = f
  · subst hg
    constructor
    · rintro ⟨ht, hp, hw⟩
      rw [Function.update_self] at ht hp hw
      exact ⟨ht, hp, hw⟩
    · rintro ⟨ht, hp, hw⟩
      refine ⟨?_, ?_, ?_⟩ <;> rw [Function.update_self] <;> assumption
  · constructor
    · rintro ⟨ht, hp, hw⟩
      rw [Function.update_of_ne hg] at ht hp hw
      exact ⟨ht, hp, hw⟩
    · rintro ⟨ht, hp, hw⟩
      refine ⟨?_, ?_, ?_⟩ <;> rwa [Function.update_of_ne hg]

/-- The pages of the other pipes. -/
theorem places_update {o : Option ℕ} {v : Option Pipe} {freed' : List ℕ} (ho : o ≠ none)
    (ho' : o ≠ some pi) : places (Function.update pipes pi v) freed' o = places pipes freed o := by
  cases o with
  | none => exact absurd rfl ho
  | some a =>
    have ha : a ≠ pi := fun heq => ho' (heq ▸ rfl)
    simp only [places, Function.update_of_ne ha]

section

variable (h : PipesOK file pipes made freed) (hf : IsEnd file f pi w) (hq : pipes pi = some q)
include h hf hq

/-- The other ends are still open after one is closed. -/
theorem opened_close (hends : ∀ g a v, IsEnd file' g a v ↔ IsEnd file g a v ∧ g ≠ f) {g a : ℕ}
    {v : Bool} (hg : IsEnd file' g a v) : a ≠ pi ∧ (∃ r, pipes a = some r ∧ r.isOpen v = true) ∨
      a = pi ∧ v ≠ w ∧ q.isOpen v = true := by
  obtain ⟨hg, hgf⟩ := (hends g a v).mp hg
  obtain ⟨r, hr, hopen⟩ := h.opened g a v hg
  by_cases ha : a = pi
  · subst ha
    refine Or.inr ⟨rfl, ?_, ?_⟩
    · rintro rfl
      exact hgf (h.inj g f a v hg hf)
    · rw [hq, Option.some.injEq] at hr
      rw [hr]
      exact hopen
  · exact Or.inl ⟨ha, r, hr, hopen⟩

/-- The files of the open ends are not the one that is closed. -/
theorem ends_close (hends : ∀ g a v, IsEnd file' g a v ↔ IsEnd file g a v ∧ g ≠ f) {a : ℕ} {r : Pipe}
    (hr : pipes a = some r) {v : Bool} (hv : r.isOpen v = true) (hne : a = pi → v ≠ w) :
    ∃ g, IsEnd file' g a v := by
  obtain ⟨g, hg⟩ := h.ends a r hr v hv
  refine ⟨g, (hends g a v).mpr ⟨hg, ?_⟩⟩
  rintro rfl
  exact hne (hg.pipe.symm.trans hf.pipe) (hg.writable.symm.trans hf.writable)

/-- `pipeclose` when the other end is open. -/
theorem closeEnd (hends : ∀ g a v, IsEnd file' g a v ↔ IsEnd file g a v ∧ g ≠ f)
    (hopen : ∃ v, (q.close w).isOpen v = true) :
    PipesOK file' (Function.update pipes pi (some (q.close w))) made freed := by
  have hid : (pipes pi).map Pipe.id = (some (q.close w)).map Pipe.id := by
    rw [hq, Option.map_some, Option.map_some, Pipe.id_close]
  refine ⟨h.exact.congr fun o i => ?_, h.nodup, fun g a v hg => ?_, fun g g' a v hg hg' => ?_,
    fun a r hr v hv => ?_, fun a r hr => ?_⟩
  · cases o with
    | none => exact Iff.rfl
    | some a =>
      by_cases ha : a = pi
      · subst ha
        simp only [places, Function.update_self, hid]
      · rw [places_update (Option.some_ne_none a) (by simp [ha])]
  · rcases opened_close h hf hq hends hg with ⟨ha, r, hr, hopen⟩ | ⟨rfl, hv, hopen⟩
    · refine ⟨r, ?_, hopen⟩
      rwa [Function.update_of_ne ha]
    · exact ⟨q.close w, Function.update_self .., Pipe.isOpen_close.mpr ⟨hopen, hv⟩⟩
  · exact h.inj g g' a v ((hends g a v).mp hg).1 ((hends g' a v).mp hg').1
  · by_cases ha : a = pi
    · subst ha
      rw [Function.update_self, Option.some.injEq] at hr
      rw [← hr, Pipe.isOpen_close] at hv
      exact ends_close h hf hq hends hq hv.1 fun _ => hv.2
    · rw [Function.update_of_ne ha] at hr
      exact ends_close h hf hq hends hr hv fun heq => absurd heq ha
  · by_cases ha : a = pi
    · subst ha
      rw [Function.update_self, Option.some.injEq] at hr
      rw [← hr]
      exact hopen
    · rw [Function.update_of_ne ha] at hr
      exact h.used a r hr

/-- `pipeclose` when the other end is closed. -/
theorem freePage (hends : ∀ g a v, IsEnd file' g a v ↔ IsEnd file g a v ∧ g ≠ f)
    (hclosed : ∀ v, (q.close w).isOpen v = false) :
    PipesOK file' (Function.update pipes pi none) made (freed ++ [q.id]) := by
  have hplace : q.id ∈ places pipes freed (some pi) := by
    simp only [places, hq, Option.map_some]
    exact rfl
  have hnone : ∀ v, v ≠ w → q.isOpen v = true → False := by
    intro v hv hopen
    have htrue := Pipe.isOpen_close.mpr ⟨hopen, hv⟩
    rw [hclosed v] at htrue
    cases htrue
  refine ⟨h.exact.move (r := q.id) (a := some pi) (b := none) hplace (fun i => ?_)
      (fun i => ?_) fun o ho ho' i => ?_, ?_, fun g a v hg => ?_, fun g g' a v hg hg' => ?_,
    fun a r hr v hv => ?_, fun a r hr => ?_⟩
  · simp only [places, Function.update_self, hq, Option.map_none, Option.map_some]
    exact ⟨nofun, fun hi => absurd (Option.some.inj hi.1).symm hi.2⟩
  · exact List.mem_append.trans (or_congr_right List.mem_singleton)
  · rw [places_update ho' ho]
  · refine List.nodup_append.mpr ⟨h.nodup, List.nodup_singleton _, fun a ha b hb heq => ?_⟩
    rw [List.mem_singleton.mp hb] at heq
    subst heq
    cases h.exact.uniq none (some pi) q.id ha hplace
  · rcases opened_close h hf hq hends hg with ⟨ha, r, hr, hopen⟩ | ⟨rfl, hv, hopen⟩
    · refine ⟨r, ?_, hopen⟩
      rwa [Function.update_of_ne ha]
    · exact (hnone v hv hopen).elim
  · exact h.inj g g' a v ((hends g a v).mp hg).1 ((hends g' a v).mp hg').1
  · by_cases ha : a = pi
    · subst ha
      rw [Function.update_self] at hr
      cases hr
    · rw [Function.update_of_ne ha] at hr
      exact ends_close h hf hq hends hr hv fun heq => absurd heq ha
  · by_cases ha : a = pi
    · subst ha
      rw [Function.update_self] at hr
      cases hr
    · rw [Function.update_of_ne ha] at hr
      exact h.used a r hr

end

/-- `pipealloc` makes a pipe in a page that holds none, with two new files for its ends. -/
theorem make (h : PipesOK file pipes made freed) (hpi : pipes pi = none) (fd : Bool → ℕ)
    (hends : ∀ g a v, IsEnd file' g a v ↔ IsEnd file g a v ∨ g = fd v ∧ a = pi) :
    PipesOK file' (Function.update pipes pi (some { id := made })) (made + 1) freed := by
  have hold : ∀ g v, ¬IsEnd file g pi v := by
    intro g v hg
    obtain ⟨r, hr, -⟩ := h.opened g pi v hg
    rw [hpi] at hr
    cases hr
  have hopen : ∀ v, ({ id := made } : Pipe).isOpen v = true := by
    intro v
    cases v <;> rfl
  refine ⟨h.exact.gain (r := made) (b := some pi) (lt_irrefl made) (fun i => ?_)
      (fun i => ?_) fun o ho i => ?_, h.nodup, fun g a v hg => ?_, fun g g' a v hg hg' => ?_,
    fun a r hr v hv => ?_, fun a r hr => ?_⟩
  · exact Nat.lt_succ_iff_lt_or_eq
  · simp only [places, Function.update_self, hpi, Option.map_none, Option.map_some]
    exact ⟨fun hi => Or.inr (Option.some.inj hi).symm, fun hi => hi.elim nofun fun hi => hi ▸ rfl⟩
  · cases o with
    | none => exact Iff.rfl
    | some a => rw [places_update (Option.some_ne_none a) ho]
  · rcases (hends g a v).mp hg with hg | ⟨-, rfl⟩
    · obtain ⟨r, hr, hv⟩ := h.opened g a v hg
      refine ⟨r, ?_, hv⟩
      rw [Function.update_of_ne, hr]
      rintro rfl
      exact hold g v hg
    · exact ⟨_, Function.update_self .., hopen v⟩
  · rcases (hends g a v).mp hg with hg | ⟨hg, rfl⟩
    · rcases (hends g' a v).mp hg' with hg' | ⟨-, rfl⟩
      · exact h.inj g g' a v hg hg'
      · exact absurd hg (hold g v)
    · rcases (hends g' a v).mp hg' with hg' | ⟨hg', -⟩
      · exact absurd hg' (hold g' v)
      · rw [hg, hg']
  · by_cases ha : a = pi
    · exact ⟨fd v, (hends _ a v).mpr (Or.inr ⟨rfl, ha⟩)⟩
    · rw [Function.update_of_ne ha] at hr
      obtain ⟨g, hg⟩ := h.ends a r hr v hv
      exact ⟨g, (hends g a v).mpr (Or.inl hg)⟩
  · by_cases ha : a = pi
    · subst ha
      rw [Function.update_self, Option.some.injEq] at hr
      rw [← hr]
      exact ⟨true, rfl⟩
    · rw [Function.update_of_ne ha] at hr
      exact h.used a r hr

end PipesOK

end Files

end Xv6
