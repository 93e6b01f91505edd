import Xv6.Files.Table
import Xv6.Logic.Refcount
import Xv6.Logic.Wp

/-!
# Reference counts of open files

The invariant of the file table between calls and inside them. `held` is the balance of the
references that a call has in its variables, and `hand` the reference to an inode that it holds.
Each function of the kernel is given the balance it leaves behind; none of them panics.

`open_files_counted` draws the conclusions for the states between the calls of every run.
-/

namespace Xv6

namespace Files

open StateLogic

variable {s s' : State} {held : ℕ → ℤ} {hand : Option ℕ} {p f fd : ℕ} {E : Panic → State → Prop}

theorem wp_setOfile {v : Option ℕ} {Q : Unit → State → Prop} : wp (setOfile p fd v) Q E s ↔
    Q () { s with ofile := Function.update s.ofile (p, fd) v } := Iff.rfl

theorem wp_setSlot {x : Slot} {Q : Unit → State → Prop} : wp (setSlot p x) Q E s ↔
    Q () { s with slot := Function.update s.slot p x } := Iff.rfl

/-- The counts of the entries. -/
def State.refs (s : State) (f : ℕ) : ℕ := (s.file f).ref

/-- The invariant of the file table. -/
structure Inv (held : ℕ → ℤ) (hand : Option ℕ) (s : State) : Prop where
  balanced : Refcount.Balanced descriptors s.ofile s.refs held
  ofile : ∀ x f, s.ofile x = some f → x ∈ descriptors ∧ s.slot x.1 = .live ∧ f < nfile
  idle : ∀ f, (s.file f).ref = 0 → (s.file f).type = .none
  inodes : InodesOK s.file s.taken s.puts hand
  pipes : PipesOK s.file s.pipes s.made s.freed
  reuses : ∀ x ∈ s.reuses, x.2 = 0

/-- Only live processes have descriptors. -/
theorem Inv.slots_eq (h : Inv held hand s) (f : ℕ) :
    s.slots f = Refcount.count descriptors s.ofile f := by
  refine congrArg Finset.card (Finset.filter_congr fun x _ => ?_)
  exact and_iff_right_of_imp fun hx => (h.ofile x f hx).2.1

theorem refs_update {x : File} :
    (fun g => (Function.update s.file f x g).ref) = Function.update s.refs f x.ref := by
  funext g
  by_cases hg : g = f
  · rw [hg, Function.update_self, Function.update_self]
  · rw [Function.update_of_ne hg, Function.update_of_ne hg]
    rfl

/-- The entries that are not in use are of no type after one of them is assigned to. -/
theorem Inv.idle_update (h : Inv held hand s) {x : File} (hx : x.ref = 0 → x.type = .none) (g : ℕ) :
    (Function.update s.file f x g).ref = 0 → (Function.update s.file f x g).type = .none := by
  by_cases hg : g = f
  · rw [hg, Function.update_self]
    exact hx
  · rw [Function.update_of_ne hg]
    exact h.idle g

/-- Assign to the count of an entry in use. -/
theorem Inv.setRef {held' : ℕ → ℤ} {n : ℕ} (h : Inv held hand s)
    (hn : n = 0 → (s.file f).type = .none)
    (hb : Refcount.Balanced descriptors s.ofile (Function.update s.refs f n) held') :
    Inv held' hand { s with file := Function.update s.file f { s.file f with ref := n } } where
  balanced := by
    rw [← refs_update (x := { s.file f with ref := n })] at hb
    exact hb
  ofile := h.ofile
  idle := h.idle_update hn
  inodes := h.inodes.setRef f n
  pipes := h.pipes.setRef f n
  reuses := h.reuses

/-! ### The file table -/

/-- What `filealloc` returns. -/
def Allocated (held : ℕ → ℤ) (hand : Option ℕ) (s : State) (o : Option ℕ) (s' : State) : Prop :=
  match o with
  | none => s' = s
  | some f => f < nfile ∧ (s.file f).ref = 0 ∧ Inv (held + Pi.single f 1) hand s' ∧
      s' = { s with
        file := Function.update s.file f { s.file f with ref := 1 }
        reuses := s.reuses ++ [(f, 0)] }

/-- **Specification of `filealloc`.** -/
theorem filealloc_spec (h : Inv held hand s) (hheld : ∀ f, 0 ≤ held f) :
    wp filealloc (Allocated held hand s) E s := by
  rw [filealloc, wp_bind, wp_get]
  cases hfind : (List.range nfile).find? fun f => (s.file f).ref = 0 with
  | none => exact rfl
  | some f =>
    have hlt := List.mem_range.mp (List.mem_of_find?_eq_some hfind)
    have href : (s.file f).ref = 0 := by simpa using List.find?_some hfind
    have hslots : s.slots f = 0 := by
      have hb := h.balanced f
      have hr : s.refs f = 0 := href
      have hh := hheld f
      rw [h.slots_eq]
      omega
    have hraise := h.balanced.raise f
    rw [show s.refs f = 0 from href] at hraise
    have hinv := h.setRef (n := 1) nofun hraise
    refine ⟨hlt, href, ⟨hinv.balanced, hinv.ofile, hinv.idle, hinv.inodes, hinv.pipes, ?_⟩, ?_⟩
    · rw [hslots]
      intro x hx
      rcases List.mem_append.mp hx with hx | hx
      · exact h.reuses x hx
      · rw [List.mem_singleton.mp hx]
    · rw [hslots]

/-- The counts are held up by the descriptors and by the call. -/
theorem Inv.ref_pos (h : Inv held hand s) (hf : 0 < s.slots f + held f) : 1 ≤ (s.file f).ref := by
  rw [h.slots_eq] at hf
  exact h.balanced.ref_pos hf

/-- **Specification of `filedup`.** -/
theorem filedup_spec (h : Inv held hand s) (hf : 1 ≤ (s.file f).ref) :
    wp (filedup f) (fun g s' => g = f ∧ Inv (held + Pi.single f 1) hand s' ∧
      s'.ofile = s.ofile ∧ s'.slot = s.slot) E s := by
  rw [filedup, wp_bind, wp_get, wp_ite]
  refine ⟨fun hlt => absurd hf (not_le.mpr hlt), fun _ => ?_⟩
  exact ⟨rfl, h.setRef nofun (h.balanced.raise f), rfl, rfl⟩

/-- **Specification of `pipeclose`.** -/
theorem pipeclose_spec {pi : ℕ} {w : Bool} {q : Pipe} (file' : ℕ → File)
    (hp : PipesOK file' s.pipes s.made s.freed) (hf : IsEnd file' f pi w)
    (hq : s.pipes pi = some q)
    (hends : ∀ g a v, IsEnd s.file g a v ↔ IsEnd file' g a v ∧ g ≠ f) :
    wp (pipeclose pi w) (fun _ s' => PipesOK s'.file s'.pipes s'.made s'.freed ∧
      ∃ pipes freed, s' = { s with pipes, freed }) E s := by
  rw [pipeclose, wp_bind, wp_get, hq]
  change wp (do
    modify fun s => { s with pipes := Function.update s.pipes pi (some (q.close w)) }
    if (q.close w).readopen = false ∧ (q.close w).writeopen = false then
      modify fun s => { s with
        pipes := Function.update s.pipes pi none
        freed := s.freed ++ [(q.close w).id] }) _ E s
  rw [wp_bind, wp_modify, wp_ite]
  constructor
  · rintro ⟨hr, hw⟩
    have hclosed : ∀ v, (q.close w).isOpen v = false := by
      intro v
      cases v
      · exact hr
      · exact hw
    have hfree := PipesOK.freePage hp hf hq hends hclosed
    rw [wp_modify, Function.update_idem, Pipe.id_close]
    exact ⟨hfree, _, _, rfl⟩
  · intro hopen
    have hv : ∃ v, (q.close w).isOpen v = true := by
      by_contra hno
      rw [not_exists] at hno
      exact hopen ⟨Bool.eq_false_of_not_eq_true (hno false), Bool.eq_false_of_not_eq_true (hno true)⟩
    exact ⟨PipesOK.closeEnd hp hf hq hends hv, _, _, rfl⟩

/-- **Specification of `fileclose`.** -/
theorem fileclose_spec (h : Inv held hand s) (hf : 1 ≤ (s.file f).ref) :
    wp (fileclose f) (fun _ s' => Inv (held - Pi.single f 1) hand s' ∧
      s'.ofile = s.ofile ∧ s'.slot = s.slot) E s := by
  have hlower := h.balanced.lower (a := f) hf
  rw [fileclose, wp_bind, wp_get, wp_ite, wp_ite]
  refine ⟨fun hlt => absurd hf (not_le.mpr hlt), fun _ => ⟨fun hgt => ?_, fun hle => ?_⟩⟩
  · exact ⟨h.setRef (fun h0 => absurd h0 (Nat.sub_ne_zero_of_lt hgt)) hlower, rfl, rfl⟩
  · -- the last reference goes
    have href : s.refs f - 1 = 0 := by
      have hle' : s.refs f ≤ 1 := not_lt.mp hle
      omega
    rw [href] at hlower
    have hb : Refcount.Balanced descriptors s.ofile (fun g => (Function.update s.file f
        { s.file f with ref := 0, type := .none } g).ref) (held - Pi.single f 1) := by
      rw [refs_update]
      exact hlower
    have hidle := h.idle_update (f := f) (x := { s.file f with ref := 0, type := .none })
      fun _ => rfl
    rw [wp_bind, setFile, wp_modify, wp_ite, wp_ite]
    refine ⟨fun hpipe => ?_, fun hpipe => ⟨fun hinode => ?_, fun hinode => ?_⟩⟩
    · have hend : IsEnd s.file f (s.file f).pipe (s.file f).writable := ⟨hpipe, rfl, rfl⟩
      obtain ⟨q, hq, -⟩ := h.pipes.opened _ _ _ hend
      have hnot : (s.file f).type ≠ .inode ∧ (s.file f).type ≠ .device := by
        rw [hpipe]
        exact ⟨nofun, nofun⟩
      have hino := h.inodes.update (x := { s.file f with ref := 0, type := .none }) hnot
        ⟨nofun, nofun⟩
      refine wp_mono (pipeclose_spec (f := f) s.file h.pipes hend hq
        fun g a v => not_isEnd_update nofun) ?_ fun _ _ he => he
      rintro - s' ⟨hpipes, pipes, freed, rfl⟩
      exact ⟨⟨hb, h.ofile, hidle, hino, hpipes, h.reuses⟩, rfl, rfl⟩
    · have hp := h.pipes.update (x := { s.file f with ref := 0, type := .none }) hpipe nofun
      have hi := h.inodes.close (f := f) (x := { s.file f with ref := 0, type := .none })
        ⟨hinode, rfl⟩ ⟨nofun, nofun⟩
      exact ⟨⟨hb, h.ofile, hidle, hi, hp, h.reuses⟩, rfl, rfl⟩
    · have hnot := not_or.mp hinode
      have hp := h.pipes.update (x := { s.file f with ref := 0, type := .none }) hpipe nofun
      have hi := h.inodes.update (x := { s.file f with ref := 0, type := .none }) hnot
        ⟨nofun, nofun⟩
      exact ⟨⟨hb, h.ofile, hidle, hi, hp, h.reuses⟩, rfl, rfl⟩

/-- A reference that the call holds is counted. -/
theorem Inv.ref_pos_of_held (h : Inv held hand s) (hf : 0 < held f) : 1 ≤ (s.file f).ref :=
  h.ref_pos (by omega)

/-- An entry that a descriptor stands for is counted. -/
theorem Inv.ref_pos_of_ofile (h : Inv held hand s) (hf : 0 ≤ held f) {x : ℕ × ℕ}
    (hx : s.ofile x = some f) : 1 ≤ (s.file f).ref := by
  have hpos := Refcount.count_pos (h.ofile x f hx).1 hx
  rw [← h.slots_eq] at hpos
  exact h.ref_pos (by omega)

/-! ### Descriptors -/

/-- Fill an empty descriptor. -/
theorem Inv.fill (h : Inv held hand s) (hx : (p, fd) ∈ descriptors) (hnone : s.ofile (p, fd) = none)
    (hlive : s.slot p = .live) (hf : f < nfile) : Inv (held - Pi.single f 1) hand
      { s with ofile := Function.update s.ofile (p, fd) (some f) } where
  balanced := h.balanced.fill hx hnone f
  ofile y g hy := by
    by_cases hyx : y = (p, fd)
    · subst hyx
      rw [show ({ s with ofile := _ } : State).ofile (p, fd) = _ from Function.update_self ..,
        Option.some.injEq] at hy
      exact ⟨hx, hlive, hy ▸ hf⟩
    · exact h.ofile y g ((Function.update_of_ne hyx ..).symm.trans hy)
  idle := h.idle
  inodes := h.inodes
  pipes := h.pipes
  reuses := h.reuses

/-- Clear a descriptor. -/
theorem Inv.clear (h : Inv held hand s) (hx : s.ofile (p, fd) = some f) :
    Inv (held + Pi.single f 1) hand { s with ofile := Function.update s.ofile (p, fd) none } where
  balanced := h.balanced.clear (h.ofile _ _ hx).1 hx
  ofile y g hy := by
    by_cases hyx : y = (p, fd)
    · subst hyx
      rw [show ({ s with ofile := _ } : State).ofile (p, fd) = _ from Function.update_self ..] at hy
      cases hy
    · exact h.ofile y g ((Function.update_of_ne hyx ..).symm.trans hy)
  idle := h.idle
  inodes := h.inodes
  pipes := h.pipes
  reuses := h.reuses

theorem mem_descriptors : (p, fd) ∈ descriptors ↔ p < nproc ∧ fd < nofile := by
  unfold descriptors
  exact Finset.mem_product.trans (and_congr Finset.mem_range Finset.mem_range)

/-- What `fdalloc` returns. -/
def Installed (held : ℕ → ℤ) (hand : Option ℕ) (s : State) (p f : ℕ) (o : Option ℕ) (s' : State) :
    Prop :=
  match o with
  | none => s' = s
  | some fd => s.ofile (p, fd) = none ∧ Inv (held - Pi.single f 1) hand s' ∧
      s' = { s with ofile := Function.update s.ofile (p, fd) (some f) }

/-- **Specification of `fdalloc`.** -/
theorem fdalloc_spec (h : Inv held hand s) (hp : p < nproc) (hlive : s.slot p = .live)
    (hf : f < nfile) : wp (fdalloc p f) (Installed held hand s p f) E s := by
  rw [fdalloc, wp_bind, wp_get]
  cases hfind : (List.range nofile).find? fun fd => s.ofile (p, fd) = none with
  | none => exact rfl
  | some fd =>
    have hlt := List.mem_range.mp (List.mem_of_find?_eq_some hfind)
    have hnone : s.ofile (p, fd) = none := by simpa using List.find?_some hfind
    exact ⟨hnone, h.fill (mem_descriptors.mpr ⟨hp, hlt⟩) hnone hlive hf, rfl⟩

/-- **Specification of `argfd`.** -/
theorem argfd_spec {n : ℤ} :
    wp (argfd p n) (fun o s' => s' = s ∧ ∀ f, o = some f → s.ofile (p, n.toNat) = some f) E s := by
  rw [argfd, wp_ite]
  exact ⟨fun _ => ⟨rfl, nofun⟩, fun _ => ⟨rfl, fun _ hf => hf⟩⟩

/-! ### The calls -/

/-- The post-state of a call. -/
abbrev Done (_ : ℤ) (s : State) : Prop := Inv 0 none s

/-- **`sys_dup` keeps the counts.** -/
theorem sysDup_spec {n : ℤ} (h : Inv 0 none s) (hp : p < nproc) (hlive : s.slot p = .live) :
    wp (sysDup p n) Done E s := by
  refine wp_seq argfd_spec ?_
  rintro (_ | f) s' ⟨rfl, hf⟩
  · exact h
  · have hof := hf f rfl
    have hlt := (h.ofile _ _ hof).2.2
    refine wp_seq (fdalloc_spec h hp hlive hlt) ?_
    rintro (_ | fd) s₁ hinst
    · rw [show s₁ = s' from hinst]
      exact h
    · obtain ⟨-, hinv, rfl⟩ := hinst
      -- the descriptor is counted before the entry is
      refine wp_seq (filedup_spec hinv (h.ref_pos_of_ofile le_rfl hof)) ?_
      rintro g s₂ ⟨-, hinv₂, -⟩
      rw [sub_add_cancel] at hinv₂
      exact hinv₂

/-- **`sys_close` keeps the counts.** -/
theorem sysClose_spec {n : ℤ} (h : Inv 0 none s) : wp (sysClose p n) Done E s := by
  refine wp_seq argfd_spec ?_
  rintro (_ | f) s' ⟨rfl, hf⟩
  · exact h
  · have hclear := h.clear (hf f rfl)
    rw [zero_add] at hclear
    rw [wp_bind, wp_setOfile]
    refine wp_seq (fileclose_spec hclear (hclear.ref_pos_of_held (by simp))) ?_
    rintro - s₂ ⟨h₂, -⟩
    rw [sub_self] at h₂
    exact h₂

/-- The ends of a new pipe. -/
def File.asEnd (x : File) (pi : ℕ) (w : Bool) : File :=
  { x with type := .pipe, readable := !w, writable := w, pipe := pi }

/-- The entry becomes an end of a pipe. -/
theorem inodes_asEnd {file : ℕ → File} {taken pi : ℕ} {puts : List ℕ} {w : Bool}
    (h : InodesOK file taken puts hand) (ht : (file f).type = .none) :
    InodesOK (Function.update file f ((file f).asEnd pi w)) taken puts hand := by
  refine h.update ?_ ⟨nofun, nofun⟩
  rw [ht]
  exact ⟨nofun, nofun⟩

/-- Two entries that nobody uses become the ends of a pipe. -/
theorem Inv.makePipe (pi f0 f1 : ℕ) (h : Inv held hand s) (hpi : s.pipes pi = none)
    (hne : f1 ≠ f0) (ht0 : (s.file f0).type = .none) (ht1 : (s.file f1).type = .none)
    (href0 : (s.file f0).ref ≠ 0) (href1 : (s.file f1).ref ≠ 0) : Inv held hand { s with
      pipes := Function.update s.pipes pi (some { id := s.made })
      made := s.made + 1
      file := Function.update (Function.update s.file f0 ((s.file f0).asEnd pi false)) f1
        ((s.file f1).asEnd pi true) } := by
  have hfile : Function.update s.file f0 ((s.file f0).asEnd pi false) f1 = s.file f1 :=
    Function.update_of_ne hne ..
  have ht1' : (Function.update s.file f0 ((s.file f0).asEnd pi false) f1).type = .none := by
    rw [hfile]
    exact ht1
  have hnone : ∀ {k : Kind}, k = .none → k ≠ .pipe := by
    rintro k rfl
    nofun
  refine ⟨?_, h.ofile, fun g => ?_, ?_, h.pipes.make hpi (fun w => if w then f1 else f0)
    fun g a v => ?_, h.reuses⟩
  · -- the counts are as they were
    have href : (fun g => (Function.update (Function.update s.file f0
        ((s.file f0).asEnd pi false)) f1 ((s.file f1).asEnd pi true) g).ref) = s.refs := by
      funext g
      by_cases hg1 : g = f1
      · rw [hg1, Function.update_self]
        rfl
      · rw [Function.update_of_ne hg1]
        by_cases hg0 : g = f0
        · rw [hg0, Function.update_self]
          rfl
        · rw [Function.update_of_ne hg0]
          rfl
    have hb := h.balanced
    rw [← href] at hb
    exact hb
  · change (Function.update (Function.update s.file f0 ((s.file f0).asEnd pi false)) f1
      ((s.file f1).asEnd pi true) g).ref = 0 → _
    by_cases hg1 : g = f1
    · rw [hg1, Function.update_self]
      exact fun h0 => absurd h0 href1
    · rw [Function.update_of_ne hg1]
      intro h0
      refine (congrArg File.type (Function.update_of_ne hg1 ..)).trans ?_
      exact h.idle_update (x := (s.file f0).asEnd pi false) (fun h0' => absurd h0' href0) g h0
  · rw [← hfile]
    exact inodes_asEnd (inodes_asEnd h.inodes ht0) ht1'
  · rw [← hfile, isEnd_update (hnone ht1') rfl, isEnd_update (hnone ht0) rfl, or_assoc]
    refine or_congr_right ?_
    cases v <;> simp [File.asEnd]

/-- **Specification of `pipealloc`.** -/
theorem pipealloc_spec {pi : Option ℕ} (h : Inv 0 none s) (hpi : ∀ a ∈ pi, s.pipes a = none) :
    wp (pipealloc pi) (fun o s' => s'.ofile = s.ofile ∧ s'.slot = s.slot ∧
      match o with
      | none => Inv 0 none s'
      | some (f0, f1) => f0 < nfile ∧ f1 < nfile ∧ Inv (Pi.single f0 1 + Pi.single f1 1) none s')
      E s := by
  refine wp_seq (filealloc_spec h fun _ => le_rfl) ?_
  rintro (_ | f0) s₁ halloc
  · rw [show s₁ = s from halloc]
    exact ⟨rfl, rfl, h⟩
  obtain ⟨hlt0, href0, h₁, hs₁⟩ := halloc
  have htype0 := h.idle f0 href0
  rw [zero_add] at h₁
  refine wp_seq (filealloc_spec h₁ fun g => ?_) ?_
  · rw [Pi.single_apply]
    split
    · exact zero_le_one
    · exact le_rfl
  rintro (_ | f1) s₂ halloc
  · rw [show s₂ = s₁ from halloc]
    refine wp_seq (fileclose_spec h₁ (h₁.ref_pos_of_held (by simp))) ?_
    rintro - s₃ ⟨h₃, hof, hslot⟩
    rw [sub_self] at h₃
    rw [hs₁] at hof hslot
    exact ⟨hof, hslot, h₃⟩
  obtain ⟨hlt1, href1, h₂, hs₂⟩ := halloc
  have hne : f1 ≠ f0 := by
    rintro rfl
    rw [hs₁] at href1
    simp at href1
  have htype1 := h₁.idle f1 href1
  have hof₂ : s₂.ofile = s.ofile := by rw [hs₂, hs₁]
  have hslot₂ : s₂.slot = s.slot := by rw [hs₂, hs₁]
  cases pi with
  | none =>
    refine wp_seq (fileclose_spec h₂ (h₂.ref_pos_of_held (by simp [hne.symm]))) ?_
    rintro - s₃ ⟨h₃, hof₃, hslot₃⟩
    rw [add_sub_cancel_left] at h₃
    refine wp_seq (fileclose_spec h₃ (h₃.ref_pos_of_held (by simp))) ?_
    rintro - s₄ ⟨h₄, hof₄, hslot₄⟩
    rw [sub_self] at h₄
    exact ⟨hof₄.trans (hof₃.trans hof₂), hslot₄.trans (hslot₃.trans hslot₂), h₄⟩
  | some pi =>
    have hne1 : s₂.file f1 = { s₁.file f1 with ref := 1 } := by
      rw [hs₂]
      exact Function.update_self ..
    have hne0 : s₂.file f0 = { s.file f0 with ref := 1 } := by
      rw [hs₂, hs₁]
      exact (Function.update_of_ne hne.symm ..).trans (Function.update_self ..)
    have hmake := h₂.makePipe pi f0 f1 (by rw [hs₂, hs₁]; exact hpi pi rfl)
      hne (by rw [hne0]; exact htype0) (by rw [hne1]; exact htype1) (by rw [hne0]; nofun)
      (by rw [hne1]; nofun)
    have hget : Function.update s₂.file f0 ((s₂.file f0).asEnd pi false) f1 = s₂.file f1 :=
      Function.update_of_ne hne ..
    rw [← hget] at hmake
    exact ⟨hof₂, hslot₂, hlt0, hlt1, hmake⟩

/-- Close the two files that a call of `sys_pipe` cannot install. -/
theorem closeBoth_spec {rf wf : ℕ} (h : Inv (Pi.single rf 1 + Pi.single wf 1) none s) :
    wp (do fileclose rf; fileclose wf; return -1) Done E s := by
  have hnonneg : ∀ f g : ℕ, (0 : ℤ) ≤ (Pi.single f 1 : ℕ → ℤ) g := by
    intro f g
    rw [Pi.single_apply]
    split
    · exact zero_le_one
    · exact le_rfl
  have hpos : 0 < (Pi.single rf 1 + Pi.single wf 1 : ℕ → ℤ) rf := by
    have := hnonneg wf rf
    rw [Pi.add_apply, Pi.single_eq_same]
    omega
  refine wp_seq (fileclose_spec h (h.ref_pos_of_held hpos)) ?_
  rintro - s₁ ⟨h₁, -⟩
  rw [add_sub_cancel_left] at h₁
  refine wp_seq (fileclose_spec h₁ (h₁.ref_pos_of_held (by simp))) ?_
  rintro - s₂ ⟨h₂, -⟩
  rw [sub_self] at h₂
  exact h₂

/-- **`sys_pipe` keeps the counts.** -/
theorem sysPipe_spec {pi : Option ℕ} {copied : Bool × Bool} (h : Inv 0 none s) (hp : p < nproc)
    (hlive : s.slot p = .live) (hpi : ∀ a ∈ pi, s.pipes a = none) :
    wp (sysPipe p pi copied) Done E s := by
  refine wp_seq (pipealloc_spec h hpi) ?_
  rintro (_ | ⟨rf, wf⟩) s₁ ⟨hof₁, hslot₁, hpost⟩
  · exact hpost
  obtain ⟨hrf, hwf, h₁⟩ := hpost
  rw [← hslot₁] at hlive
  refine wp_seq (fdalloc_spec h₁ hp hlive hrf) ?_
  rintro (_ | fd0) s₂ hinst
  · rw [show s₂ = s₁ from hinst]
    exact closeBoth_spec h₁
  obtain ⟨hnone0, h₂, hs₂⟩ := hinst
  rw [add_sub_cancel_left] at h₂
  have hof0 : s₂.ofile (p, fd0) = some rf := by
    rw [hs₂]
    exact Function.update_self ..
  have hlive₂ : s₂.slot p = .live := by
    rw [hs₂]
    exact hlive
  refine wp_seq (fdalloc_spec h₂ hp hlive₂ hwf) ?_
  rintro (_ | fd1) s₃ hinst
  · rw [show s₃ = s₂ from hinst]
    have h₃ := h₂.clear hof0
    rw [add_comm] at h₃
    rw [wp_bind, wp_setOfile]
    exact closeBoth_spec h₃
  obtain ⟨hnone1, h₃, hs₃⟩ := hinst
  rw [sub_self] at h₃
  rw [wp_ite]
  refine ⟨fun _ => ?_, fun _ => h₃⟩
  -- both descriptors are given back
  have hne : (p, fd0) ≠ (p, fd1) := by
    intro heq
    rw [heq, hnone1] at hof0
    cases hof0
  have hof0' : s₃.ofile (p, fd0) = some rf := by
    rw [hs₃]
    exact (Function.update_of_ne hne ..).trans hof0
  have hof1 : s₃.ofile (p, fd1) = some wf := by
    rw [hs₃]
    exact Function.update_self ..
  have h₄ := h₃.clear hof0'
  rw [zero_add] at h₄
  have hof1' : Function.update s₃.ofile (p, fd0) none (p, fd1) = some wf :=
    (Function.update_of_ne hne.symm ..).trans hof1
  have h₅ := h₄.clear hof1'
  rw [wp_bind, wp_setOfile, wp_bind, wp_setOfile]
  exact closeBoth_spec h₅

/-- `iput` of the reference that the call holds. -/
theorem iput_spec {r : ℕ} (h : Inv held (some r) s) :
    wp (iput r) (fun _ s' => Inv held none s') E s :=
  ⟨h.balanced, h.ofile, h.idle, h.inodes.putHand, h.pipes, h.reuses⟩

theorem File.ref_opened (x : File) (omode : BitVec 32) (ip : Inode) (r : ℕ) :
    (x.opened omode ip r).ref = x.ref := by
  unfold File.opened
  split <;> rfl

theorem File.type_opened (x : File) (omode : BitVec 32) (ip : Inode) (r : ℕ) :
    (x.opened omode ip r).type = .inode ∨ (x.opened omode ip r).type = .device := by
  unfold File.opened
  split
  · exact Or.inr rfl
  · exact Or.inl rfl

/-- The call's reference goes to a new entry. -/
theorem Inv.opened {r : ℕ} {omode : BitVec 32} {ip : Inode} (h : Inv held (some r) s)
    (ht : (s.file f).type = .none) (href : (s.file f).ref ≠ 0) : Inv held none { s with
      file := Function.update s.file f ((s.file f).opened omode ip r) } := by
  have hx := File.type_opened (s.file f) omode ip r
  have hxr := File.ref_opened (s.file f) omode ip r
  refine ⟨?_, h.ofile, h.idle_update fun h0 => absurd (hxr.symm.trans h0) href,
    h.inodes.store (by rw [ht]; exact ⟨nofun, nofun⟩) hx rfl,
    h.pipes.update (by rw [ht]; nofun) ?_, h.reuses⟩
  · have hrefs : (fun g => (Function.update s.file f ((s.file f).opened omode ip r) g).ref) =
        s.refs := by
      rw [refs_update, hxr]
      exact Function.update_eq_self f s.refs
    have hb := h.balanced
    rw [← hrefs] at hb
    exact hb
  · rcases hx with hx | hx <;> rw [hx] <;> nofun

/-- **`sys_open` keeps the counts.** -/
theorem sysOpen_spec {omode : BitVec 32} {path : Option Inode} (h : Inv 0 none s) (hp : p < nproc)
    (hlive : s.slot p = .live) : wp (sysOpen p omode path) Done E s := by
  cases path with
  | none => exact h
  | some ip =>
    have htake : Inv 0 (some s.taken) { s with taken := s.taken + 1 } :=
      ⟨h.balanced, h.ofile, h.idle, h.inodes.take, h.pipes, h.reuses⟩
    refine wp_seq (R := fun r s₁ => Inv 0 (some r) s₁ ∧ s₁.slot = s.slot) ⟨htake, rfl⟩ ?_
    rintro r s₁ ⟨h₁, hslot₁⟩
    have hput : wp (do iput r; return -1) Done E s₁ :=
      wp_seq (iput_spec h₁) fun _ _ h₂ => h₂
    rw [wp_ite, wp_ite]
    refine ⟨fun _ => hput, fun _ => ⟨fun _ => hput, fun _ => ?_⟩⟩
    refine wp_seq (filealloc_spec h₁ fun _ => le_rfl) ?_
    rintro (_ | f) s₂ halloc
    · rw [show s₂ = s₁ from halloc]
      exact hput
    obtain ⟨hf, href, h₂, hs₂⟩ := halloc
    rw [zero_add] at h₂
    have hlive₂ : s₂.slot p = .live := by
      rw [hs₂]
      exact (congrFun hslot₁ p).trans hlive
    have hfile₂ : s₂.file f = { s₁.file f with ref := 1 } := by
      rw [hs₂]
      exact Function.update_self ..
    refine wp_seq (fdalloc_spec h₂ hp hlive₂ hf) ?_
    rintro (_ | fd) s₃ hinst
    · rw [show s₃ = s₂ from hinst]
      refine wp_seq (fileclose_spec h₂ (h₂.ref_pos_of_held (by simp))) ?_
      rintro - s₄ ⟨h₄, -⟩
      rw [sub_self] at h₄
      exact wp_seq (iput_spec h₄) fun _ _ h₅ => h₅
    obtain ⟨-, h₃, hs₃⟩ := hinst
    rw [sub_self] at h₃
    have hfile₃ : s₃.file f = { s₁.file f with ref := 1 } := by
      rw [hs₃]
      exact hfile₂
    exact h₃.opened (by rw [hfile₃]; exact h₁.idle f href) (by rw [hfile₃]; nofun)

/-- Assign to the state of a process without descriptors, or make it live. -/
theorem Inv.setSlot (h : Inv held hand s) {x : Slot}
    (hx : x = .live ∨ ∀ fd, s.ofile (p, fd) = none) :
    Inv held hand { s with slot := Function.update s.slot p x } := by
  refine ⟨h.balanced, fun y f hy => ?_, h.idle, h.inodes, h.pipes, h.reuses⟩
  obtain ⟨hmem, hlive, hf⟩ := h.ofile y f hy
  refine ⟨hmem, ?_, hf⟩
  by_cases hyp : y.1 = p
  · rcases hx with rfl | hx
    · rw [hyp]
      exact Function.update_self ..
    · have hnone := hx y.2
      rw [← hyp] at hnone
      cases hnone.symm.trans hy
  · exact (Function.update_of_ne hyp ..).trans hlive

/-- A process that is not live has no descriptors. -/
theorem Inv.ofile_none (h : Inv held hand s) (hp : s.slot p ≠ .live) (fd : ℕ) :
    s.ofile (p, fd) = none := by
  cases hof : s.ofile (p, fd) with
  | none => rfl
  | some f => exact absurd (h.ofile _ _ hof).2.1 hp

/-- The loop of `kfork` has copied the descriptors below `k`. -/
structure Forking (p np k : ℕ) (s : State) : Prop where
  inv : Inv 0 none s
  live : s.slot np = .live
  rest : ∀ fd, k ≤ fd → s.ofile (np, fd) = none

theorem forkFile_spec {np : ℕ} (h : Forking p np fd s) (hnp : np < nproc) (hfd : fd < nofile) :
    wp (forkFile p np fd) (fun _ s' => Forking p np (fd + 1) s') E s := by
  rw [forkFile, wp_bind, wp_get]
  cases hof : s.ofile (p, fd) with
  | none => exact ⟨h.inv, h.live, fun fd' hle => h.rest fd' (by omega)⟩
  | some f =>
    refine wp_seq (filedup_spec h.inv (h.inv.ref_pos_of_ofile le_rfl hof)) ?_
    rintro g s₁ ⟨rfl, h₁, hof₁, hslot₁⟩
    rw [zero_add] at h₁
    have hnone : s₁.ofile (np, fd) = none := by
      rw [hof₁]
      exact h.rest fd le_rfl
    have hlive : s₁.slot np = .live := by
      rw [hslot₁]
      exact h.live
    have hfill := h₁.fill (mem_descriptors.mpr ⟨hnp, hfd⟩) hnone hlive (h.inv.ofile _ _ hof).2.2
    rw [sub_self] at hfill
    refine ⟨hfill, hlive, fun fd' hle => ?_⟩
    have hne : (np, fd') ≠ (np, fd) := by
      intro heq
      rw [(Prod.mk.injEq ..).mp heq |>.2] at hle
      omega
    refine (Function.update_of_ne hne ..).trans ?_
    rw [hof₁]
    exact h.rest fd' (by omega)

/-- **`kfork` keeps the counts.** -/
theorem kfork_spec {copied : Bool} (h : Inv 0 none s) : wp (kfork p copied) Done E s := by
  rw [kfork, wp_bind, wp_get]
  cases hfind : (List.range nproc).find? fun np => s.slot np = .unused with
  | none => exact h
  | some np =>
    have hlt := List.mem_range.mp (List.mem_of_find?_eq_some hfind)
    have hunused : s.slot np = .unused := by simpa using List.find?_some hfind
    have hnone := h.ofile_none (p := np) (by rw [hunused]; nofun)
    have hlive : Inv 0 none { s with slot := Function.update s.slot np .live } :=
      h.setSlot (Or.inl rfl)
    rw [wp_bind, wp_setSlot, wp_ite]
    refine ⟨fun _ => hlive.setSlot (p := np) (x := .unused) (Or.inr hnone), fun _ => ?_⟩
    have hstart : Forking p np 0 { s with slot := Function.update s.slot np .live } :=
      ⟨hlive, Function.update_self .., fun fd _ => hnone fd⟩
    refine wp_seq (wp_forM_range (fun k s => Forking p np k s) hstart fun k s hk hs =>
      forkFile_spec hs hlt hk) ?_
    exact fun _ s₂ h₂ => h₂.inv

/-- The loop of `kexit` has closed the descriptors below `k`. -/
structure Exiting (p k : ℕ) (s : State) : Prop where
  inv : Inv 0 none s
  closed : ∀ fd, fd < k → s.ofile (p, fd) = none

theorem exitFile_spec (h : Exiting p fd s) :
    wp (exitFile p fd) (fun _ s' => Exiting p (fd + 1) s') E s := by
  rw [exitFile, wp_bind, wp_get]
  cases hof : s.ofile (p, fd) with
  | none =>
    refine ⟨h.inv, fun fd' hlt => ?_⟩
    rcases Nat.lt_succ_iff_lt_or_eq.mp hlt with hlt | rfl
    · exact h.closed fd' hlt
    · exact hof
  | some f =>
    -- the entry is closed while the descriptor still stands for it
    refine wp_seq (fileclose_spec h.inv (h.inv.ref_pos_of_ofile le_rfl hof)) ?_
    rintro - s₁ ⟨h₁, hof₁, -⟩
    have hclear := h₁.clear (by rw [hof₁]; exact hof)
    rw [sub_add_cancel] at hclear
    refine ⟨hclear, fun fd' hlt => ?_⟩
    by_cases heq : fd' = fd
    · rw [heq]
      exact Function.update_self ..
    · have hne : (p, fd') ≠ (p, fd) := fun he => heq ((Prod.mk.injEq ..).mp he).2
      refine (Function.update_of_ne hne ..).trans ?_
      rw [hof₁]
      exact h.closed fd' (by omega)

/-- **`kexit` keeps the counts**; it panics if init calls it. -/
theorem kexit_spec (h : Inv 0 none s) :
    wp (kexit p) (fun _ s' => Inv 0 none s') (fun e _ => e = .initExiting) s := by
  rw [kexit, wp_ite]
  refine ⟨fun _ => rfl, fun _ => ?_⟩
  have hstart : Exiting p 0 s := ⟨h, nofun⟩
  refine wp_seq (wp_forM_range (fun k s => Exiting p k s) hstart fun k s _ hs =>
    exitFile_spec hs) fun _ s₁ h₁ => ?_
  refine h₁.inv.setSlot (Or.inr fun fd => ?_)
  cases hof : s₁.ofile (p, fd) with
  | none => rfl
  | some f =>
    have hlt := (mem_descriptors.mp (h₁.inv.ofile _ _ hof).1).2
    cases (h₁.closed fd hlt).symm.trans hof

/-! ### Every run -/

/-- **A call keeps the counts.** The only panic is that of an exiting init. -/
theorem call_spec {e : Event} (h : Inv 0 none s) (he : enabled s e = true) :
    wp (call e) (fun _ s' => Inv 0 none s') (fun err _ => err = .initExiting) s := by
  cases e with
  | sysOpen p omode path =>
    obtain ⟨hp, hlive⟩ := of_decide_eq_true he
    exact wp_seq (sysOpen_spec h hp hlive) fun _ _ h' => h'
  | sysDup p fd =>
    obtain ⟨hp, hlive⟩ := of_decide_eq_true he
    exact wp_seq (sysDup_spec h hp hlive) fun _ _ h' => h'
  | sysPipe p pi copied =>
    obtain ⟨hp, hlive, hpi⟩ := of_decide_eq_true he
    exact wp_seq (sysPipe_spec h hp hlive hpi) fun _ _ h' => h'
  | sysClose p fd => exact wp_seq (sysClose_spec h) fun _ _ h' => h'
  | kfork p copied => exact wp_seq (kfork_spec h) fun _ _ h' => h'
  | kexit p => exact kexit_spec h
  | kwait p =>
    have hz : s.slot p = .zombie := of_decide_eq_true he
    exact h.setSlot (Or.inr (h.ofile_none (by rw [hz]; nofun)))

theorem inv_booted : Inv 0 none booted where
  balanced f := by
    have hcount : Refcount.count descriptors booted.ofile f = 0 :=
      Finset.card_eq_zero.mpr (Finset.filter_eq_empty_iff.mpr fun _ _ => nofun)
    rw [hcount]
    rfl
  ofile := nofun
  idle _ _ := rfl
  inodes := by
    refine ⟨.empty (fun o i hi => ?_) fun i => Nat.not_lt_zero i, List.nodup_nil⟩
    cases o with
    | past | hand => cases hi
    | file f => exact hi.type.elim nofun nofun
  pipes := by
    refine ⟨.empty (fun o i hi => ?_) fun i => Nat.not_lt_zero i, List.nodup_nil,
      fun _ _ _ hf => (nomatch hf.type), fun _ _ _ _ hf => (nomatch hf.type), nofun, nofun⟩
    cases o <;> cases hi
  reuses := nofun

theorem Reachable.inv (h : Reachable s) : Inv 0 none s := by
  refine Transition.Reach.inv (I := Inv 0 none) h ?_ fun s e s' hI _ hs => ?_
  · rintro s rfl
    exact inv_booted
  · obtain ⟨he, hs⟩ := Option.ite_none_right_eq_some.mp hs
    have hw := call_spec hI he
    cases hrun : (call e).run s with
    | ok a s₁ =>
      rw [hrun, Option.some.injEq] at hs
      have hpost := wp_ok hw hrun
      rwa [hs] at hpost
    | error err s₁ =>
      rw [hrun] at hs
      cases hs

/-- The entry is an end of the pipe of that number. -/
structure State.EndOf (s : State) (f i : ℕ) : Prop where
  type : (s.file f).type = .pipe
  pipe : (s.pipes (s.file f).pipe).map Pipe.id = some i

/-- What is true of the open files between calls. -/
structure State.Counted (s : State) : Prop where
  /-- The count of an entry is the number of descriptors that stand for it. -/
  ref : ∀ f, (s.file f).ref = s.slots f
  /-- Whenever an entry was given out, no descriptor stood for it. -/
  reuse : ∀ x ∈ s.reuses, x.2 = 0
  /-- A reference to an inode is put once at most. -/
  puts : s.puts.Nodup
  /-- A reference that was taken has been put, or else it is that of one open file. -/
  inode : ∀ r < s.taken, r ∈ s.puts ∧ (∀ f, ¬HasIp s.file f r) ∨
    r ∉ s.puts ∧ ∃! f, HasIp s.file f r ∧ 0 < s.slots f
  /-- The page of a pipe is freed once at most. -/
  freed : s.freed.Nodup
  /-- The page of a pipe is freed if no descriptor is left for its ends. -/
  pipe : ∀ i < s.made, i ∈ s.freed ↔ ∀ x f, s.ofile x = some f → ¬s.EndOf f i
  /-- A call does not panic, unless init exits. -/
  safe : ∀ e, enabled s e = true → ∀ err s', (call e).run s = .error err s' → err = .initExiting

/-- An entry of some type is in use. -/
theorem Inv.slots_pos (h : Inv 0 none s) (hf : (s.file f).type ≠ .none) : 0 < s.slots f := by
  have hb := h.balanced f
  rw [← h.slots_eq, Pi.zero_apply, add_zero] at hb
  have href : s.refs f ≠ 0 := fun h0 => hf (h.idle f h0)
  omega

/-- The open files are counted, each reference to an inode is put once, and each pipe's page is
freed once, in every run of the calls. -/
theorem open_files_counted (h : Reachable s) : s.Counted := by
  have hs := h.inv
  constructor
  · intro f
    have hb := hs.balanced f
    rw [← hs.slots_eq, Pi.zero_apply, add_zero] at hb
    exact Nat.cast_inj.mp hb
  · exact hs.reuses
  · exact hs.inodes.nodup
  · intro r hr
    obtain ⟨o, ho, huniq⟩ := hs.inodes.exact.existsUnique hr
    cases o with
    | past => exact Or.inl ⟨ho, fun f hf => (nomatch huniq (.file f) hf)⟩
    | hand => cases ho
    | file f =>
      have htype : (s.file f).type ≠ .none := by
        rcases ho.type with ht | ht <;> rw [ht] <;> nofun
      refine Or.inr ⟨fun hp => (nomatch huniq .past hp), f, ⟨ho, hs.slots_pos htype⟩, ?_⟩
      rintro g ⟨hg, -⟩
      exact Keeper.file.inj (huniq (.file g) hg)
  · exact hs.pipes.nodup
  · intro i hi
    constructor
    · intro hfreed x f hx hend
      cases hs.pipes.exact.uniq none (some (s.file f).pipe) i hfreed hend.pipe
    · intro hno
      obtain ⟨o, ho⟩ := hs.pipes.exact.held i hi
      cases o with
      | none => exact ho
      | some pi =>
        -- the pipe is still there, so one of its ends is open and has a file
        obtain ⟨q, hq, hid⟩ := Option.map_eq_some_iff.mp ho
        obtain ⟨w, hw⟩ := hs.pipes.used pi q hq
        obtain ⟨f, hf⟩ := hs.pipes.ends pi q hq w hw
        have hpos := hs.slots_pos (f := f) (by rw [hf.type]; nofun)
        rw [hs.slots_eq] at hpos
        obtain ⟨x, -, hx⟩ := Refcount.exists_of_count_pos hpos
        refine absurd ⟨hf.type, ?_⟩ (hno x f hx)
        rw [hf.pipe, hq, Option.map_some, hid]
  · intro e he err s' hrun
    have herr := wp_error (call_spec hs he) hrun
    exact herr

/-- Init opens the console, makes a pipe and forks. The child closes the write end and exits, its
`sys_pipe` having failed in `copyout`; init closes the pipe, and opens a file again. -/
def session : List Event :=
  [.sysOpen 0 oRdwr (some ⟨.device, 1⟩), .sysDup 0 0, .sysPipe 0 (some 0x1000) (true, true),
    .kfork 0 true, .sysClose 1 3, .sysPipe 1 (some 0x2000) (true, false), .kexit 1, .kwait 1,
    .sysClose 0 2, .sysClose 0 3, .sysOpen 0 oRdonly (some ⟨.file, 0⟩),
    .sysOpen 0 oWronly (some ⟨.dir, 0⟩)]

theorem session_runs :
    (Transition.runAll Transition.Any step booted session).isSome = true := by
  decide +kernel

def afterSession : State :=
  (Transition.runAll Transition.Any step booted session).get session_runs

theorem afterSession_reachable : Reachable afterSession := by
  have hstart : Reachable booted := .start rfl
  exact hstart.runAll_get session_runs

theorem open_files_counted_afterSession : afterSession.freed = [1, 0] ∧
    afterSession.puts = [2] ∧ afterSession.taken = 3 ∧ afterSession.slots 0 = 2 ∧
    afterSession.Counted := by
  have hfacts : afterSession.freed = [1, 0] ∧ afterSession.puts = [2] ∧
      afterSession.taken = 3 ∧ afterSession.slots 0 = 2 := by decide +kernel
  obtain ⟨hfreed, hputs, htaken, hslots⟩ := hfacts
  exact ⟨hfreed, hputs, htaken, hslots, open_files_counted afterSession_reachable⟩

end Files

end Xv6
