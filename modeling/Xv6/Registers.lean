import Xv6.Machine.Riscv

/-!
# Saving and restoring registers

The assembly of `trampoline.S`, `swtch.S` and `kernelvec.S` consists of runs of `sd` and `ld`
at fixed offsets from one register (`run_saves`, `run_loads`). It takes control away and gives it
back in three ways:

* a trap from user space, `uservec` to `userret` (`trap_keeps_registers`);
* a context switch, from the `swtch` that saves a context to the one that loads it
  (`swtch_resumes`);
* an interrupt in the kernel, `kernelvec` (`kernelvec_keeps_registers`).

Memory is addressed by doublewords, all offsets being multiples of 8. `sfence.vma` and the jumps
that end the pieces of code have no effect on registers and memory.
-/

namespace Xv6.Registers

/-! ### The machine -/

inductive Reg
  | ra | sp | gp | tp | t0 | t1 | t2 | s0 | s1 | a0 | a1 | a2 | a3 | a4 | a5 | a6 | a7
  | s2 | s3 | s4 | s5 | s6 | s7 | s8 | s9 | s10 | s11 | t3 | t4 | t5 | t6
deriving DecidableEq

inductive Csr
  | sscratch | satp
deriving DecidableEq

structure Hart where
  reg : Reg → BitVec 64
  csr : Csr → BitVec 64
  mem : BitVec 64 → BitVec 64

inductive Ins
  | sd (r base : Reg) (off : BitVec 64)
  | ld (r base : Reg) (off : BitVec 64)
  | li (r : Reg) (n : BitVec 64)
  | addi (r : Reg) (n : BitVec 64)
  | csrw (c : Csr) (r : Reg)
  | csrr (r : Reg) (c : Csr)

def Ins.exec (s : Hart) : Ins → Hart
  | sd r base off => { s with mem := Function.update s.mem (s.reg base + off) (s.reg r) }
  | ld r base off => { s with reg := Function.update s.reg r (s.mem (s.reg base + off)) }
  | li r n => { s with reg := Function.update s.reg r n }
  | addi r n => { s with reg := Function.update s.reg r (s.reg r + n) }
  | csrw c r => { s with csr := Function.update s.csr c (s.reg r) }
  | csrr r c => { s with reg := Function.update s.reg r (s.csr c) }

def run (code : List Ins) (s : Hart) : Hart := code.foldl Ins.exec s

/-- `sd` of each register at its offset. -/
def saves (base : Reg) (l : List (Reg × BitVec 64)) : List Ins := l.map fun x => .sd x.1 base x.2

/-- `ld` of each register from its offset. -/
def loads (base : Reg) (l : List (Reg × BitVec 64)) : List Ins := l.map fun x => .ld x.1 base x.2

section Runs

variable {s : Hart} {base : Reg} {l : List (Reg × BitVec 64)}

theorem run_append (c c' : List Ins) (s : Hart) : run (c ++ c') s = run c' (run c s) :=
  List.foldl_append

/-- **A run of stores** at distinct offsets. -/
theorem run_saves (hl : (l.map Prod.snd).Nodup) :
    (run (saves base l) s).reg = s.reg ∧ (run (saves base l) s).csr = s.csr ∧
    (∀ x ∈ l, (run (saves base l) s).mem (s.reg base + x.2) = s.reg x.1) ∧
    ∀ a, (∀ x ∈ l, a ≠ s.reg base + x.2) → (run (saves base l) s).mem a = s.mem a := by
  induction l generalizing s with
  | nil => exact ⟨rfl, rfl, by simp, fun _ _ => rfl⟩
  | cons x l ih =>
    rw [List.map_cons, List.nodup_cons] at hl
    obtain ⟨hreg, hcsr, hmem, hother⟩ := ih (s := Ins.exec s (.sd x.1 base x.2)) hl.2
    refine ⟨hreg, hcsr, ?_, fun a ha => ?_⟩
    · rw [List.forall_mem_cons]
      refine ⟨(hother _ fun y hy heq => hl.1 ?_).trans (Function.update_self ..), hmem⟩
      have hsame : s.reg base + x.2 = s.reg base + y.2 := heq
      rw [show x.2 = y.2 by bv_omega]
      exact List.mem_map_of_mem hy
    · rw [List.forall_mem_cons] at ha
      exact (hother a ha.2).trans (Function.update_of_ne ha.1 _ _)

/-- **A run of loads** into distinct registers other than the base. -/
theorem run_loads (hl : (l.map Prod.fst).Nodup) (hbase : base ∉ l.map Prod.fst) :
    (run (loads base l) s).mem = s.mem ∧
    (∀ x ∈ l, (run (loads base l) s).reg x.1 = s.mem (s.reg base + x.2)) ∧
    ∀ r, r ∉ l.map Prod.fst → (run (loads base l) s).reg r = s.reg r := by
  induction l generalizing s with
  | nil => exact ⟨rfl, by simp, fun _ _ => rfl⟩
  | cons x l ih =>
    rw [List.map_cons, List.nodup_cons] at hl
    rw [List.map_cons, List.mem_cons, not_or] at hbase
    obtain ⟨hmem, hreg, hother⟩ := ih (s := Ins.exec s (.ld x.1 base x.2)) hl.2 hbase.2
    refine ⟨hmem, ?_, fun r hr => ?_⟩
    · rw [List.forall_mem_cons]
      refine ⟨(hother _ hl.1).trans (Function.update_self ..), fun y hy => (hreg y hy).trans ?_⟩
      exact congrArg (fun b => s.mem (b + y.2)) (Function.update_of_ne hbase.1 _ _)
    · rw [List.map_cons, List.mem_cons, not_or] at hr
      exact (hother r hr.2).trans (Function.update_of_ne hr.1 _ _)

end Runs

/-! ### Traps from user space -/

def trapframe : BitVec 64 := .ofNat 64 trapframeVa

/-- The registers `uservec` saves first, with their place in `struct trapframe`. -/
def userRegs : List (Reg × BitVec 64) :=
  [(.ra, 40), (.sp, 48), (.gp, 56), (.tp, 64), (.t0, 72), (.t1, 80), (.t2, 88), (.s0, 96),
    (.s1, 104), (.a1, 120), (.a2, 128), (.a3, 136), (.a4, 144), (.a5, 152), (.a6, 160),
    (.a7, 168), (.s2, 176), (.s3, 184), (.s4, 192), (.s5, 200), (.s6, 208), (.s7, 216),
    (.s8, 224), (.s9, 232), (.s10, 240), (.s11, 248), (.t3, 256), (.t4, 264), (.t5, 272),
    (.t6, 280)]

def uservec : List Ins :=
  [.csrw .sscratch .a0, .li .a0 trapframe] ++ saves .a0 userRegs ++
    [.csrr .t0 .sscratch, .sd .t0 .a0 112, .ld .sp .a0 8, .ld .tp .a0 32, .ld .t0 .a0 16,
      .ld .t1 .a0 0, .csrw .satp .t1]

def userret : List Ins :=
  [.csrw .satp .a0, .li .a0 trapframe] ++ loads .a0 userRegs ++ [.ld .a0 .a0 112]

theorem userRegs_ne_a0 : ∀ x ∈ userRegs, x.1 ≠ .a0 := by decide

/-- What `uservec` leaves in the trapframe and in the registers of the kernel. -/
theorem run_uservec (s : Hart) :
    (∀ x ∈ (.a0, 112) :: userRegs, (run uservec s).mem (trapframe + x.2) = s.reg x.1) ∧
    (run uservec s).reg .sp = s.mem (trapframe + 8) ∧
    (run uservec s).reg .tp = s.mem (trapframe + 32) ∧
    (run uservec s).csr .satp = s.mem (trapframe + 0) := by
  have hnodup : ((112 : BitVec 64) :: userRegs.map Prod.snd).Nodup := by decide
  obtain ⟨hoff, hoffs⟩ := List.nodup_cons.mp hnodup
  obtain ⟨hr, hc, hsaved, hother⟩ := @run_saves
    (run [.csrw .sscratch .a0, .li .a0 trapframe] s) .a0 userRegs hoffs
  rw [uservec, run_append, run_append]
  generalize run (saves .a0 userRegs) (run [.csrw .sscratch .a0, .li .a0 trapframe] s) = s₂ at *
  have hbase : trapframe = s₂.reg .a0 := by
    rw [hr]
    rfl
  have hne : ∀ o : BitVec 64, o ≠ 112 → trapframe + o ≠ trapframe + 112 := fun o ho heq =>
    ho (by bv_omega)
  have hmem : ∀ o, o ≠ 112 → (run [.csrr .t0 .sscratch, .sd .t0 .a0 112, .ld .sp .a0 8,
      .ld .tp .a0 32, .ld .t0 .a0 16, .ld .t1 .a0 0, .csrw .satp .t1] s₂).mem (trapframe + o) =
        s₂.mem (trapframe + o) := fun o ho =>
    Function.update_of_ne (hbase ▸ hne o ho) _ _
  -- the words the kernel left in the trapframe are not overwritten
  have hkept : ∀ o, o ∉ 112 :: userRegs.map Prod.snd →
      s₂.mem (trapframe + o) = s.mem (trapframe + o) := by
    intro o ho
    refine hother _ fun x hx heq => ho ?_
    have hsame : trapframe + o = trapframe + x.2 := heq
    rw [show o = x.2 by bv_omega]
    exact List.mem_cons_of_mem _ (List.mem_map_of_mem hx)
  refine ⟨?_, ?_, ?_, ?_⟩
  · rw [List.forall_mem_cons]
    refine ⟨?_, fun x hx => ?_⟩
    · rw [hbase]
      exact (Function.update_self ..).trans (congrFun hc _)
    · have hx112 : x.2 ≠ 112 := fun h0 => hoff (h0 ▸ List.mem_map_of_mem hx)
      rw [hmem x.2 hx112]
      exact (hsaved x hx).trans (Function.update_of_ne (userRegs_ne_a0 x hx) _ _)
  all_goals
    rw [← hkept _ (by decide), ← hmem _ (by decide), hbase]
    rfl

/-- **A trap keeps the user's registers.** Let `uservec` run from any state, and `userret` later
from a state in which the saved words are as they were: every register is as before the trap. In
between, the kernel has the stack, hart id and page table that it left in the trapframe. -/
theorem trap_keeps_registers (s t : Hart) (h : ∀ x ∈ (.a0, 112) :: userRegs,
      t.mem (trapframe + x.2) = (run uservec s).mem (trapframe + x.2)) :
    (run userret t).reg = s.reg ∧
    (run uservec s).reg .sp = s.mem (trapframe + 8) ∧
    (run uservec s).reg .tp = s.mem (trapframe + 32) ∧
    (run uservec s).csr .satp = s.mem (trapframe + 0) := by
  obtain ⟨hsaved, hkernel⟩ := run_uservec s
  refine ⟨funext fun r => ?_, hkernel⟩
  obtain ⟨hmem, hload, hrest⟩ := @run_loads (run [.csrw .satp .a0, .li .a0 trapframe] t) .a0
    userRegs (by decide) (by decide)
  have hall : ∃ x ∈ (Reg.a0, (112 : BitVec 64)) :: userRegs, x.1 = r := by cases r <;> decide
  obtain ⟨x, hx, rfl⟩ := hall
  rw [← hsaved x hx, ← h x hx, userret, run_append, run_append]
  rcases List.mem_cons.mp hx with rfl | hx
  · have hlast : ∀ u, (run [.ld .a0 .a0 112] u).reg .a0 = u.mem (u.reg .a0 + 112) := fun _ => rfl
    rw [hlast, hmem, hrest .a0 (by decide)]
    rfl
  · exact (Function.update_of_ne (userRegs_ne_a0 x hx) _ _).trans (hload x hx)

def sampleHart : Hart := ⟨fun r => if r = .a0 then 4096 else 8192, fun _ => 0, fun _ => 0⟩

theorem trap_keeps_registers_sample :
    (run userret (run uservec sampleHart)).reg = sampleHart.reg :=
  (trap_keeps_registers sampleHart _ fun _ _ => rfl).1

/-! ### Context switches -/

/-- The fields of `struct context`. -/
def contextRegs : List (Reg × BitVec 64) :=
  [(.ra, 0), (.sp, 8), (.s0, 16), (.s1, 24), (.s2, 32), (.s3, 40), (.s4, 48), (.s5, 56),
    (.s6, 64), (.s7, 72), (.s8, 80), (.s9, 88), (.s10, 96), (.s11, 104)]

def swtch : List Ins := saves .a0 contextRegs ++ loads .a1 contextRegs

/-- **A context switch resumes a thread** with the return address, stack and callee-saved
registers it had: if `s` switched out into the context at `a0` and `t` switches to that context,
which still has its contents and is not the one `t` saves to. -/
theorem swtch_resumes (s t : Hart) (hctx : t.reg .a1 = s.reg .a0)
    (hkept : ∀ x ∈ contextRegs, t.mem (s.reg .a0 + x.2) = (run swtch s).mem (s.reg .a0 + x.2))
    (hapart : ∀ x ∈ contextRegs, ∀ y ∈ contextRegs, t.reg .a1 + x.2 ≠ t.reg .a0 + y.2) :
    ∀ x ∈ contextRegs, (run swtch t).reg x.1 = s.reg x.1 := by
  have hsave : (contextRegs.map Prod.snd).Nodup := by decide
  have hload : (contextRegs.map Prod.fst).Nodup ∧ Reg.a1 ∉ contextRegs.map Prod.fst := by decide
  intro x hx
  rw [swtch, run_append] at hkept ⊢
  rw [(run_loads hload.1 hload.2).1] at hkept
  rw [(run_loads hload.1 hload.2).2.1 x hx, (run_saves hsave).1,
    (run_saves hsave).2.2.2 _ (hapart x hx), hctx, hkept x hx]
  exact (run_saves hsave).2.2.1 x hx

def resumingHart : Hart :=
  ⟨fun r => if r = .a1 then 4096 else 8192, fun _ => 0, (run swtch sampleHart).mem⟩

theorem swtch_resumes_sample : (run swtch resumingHart).reg .sp = sampleHart.reg .sp :=
  swtch_resumes sampleHart resumingHart rfl (fun _ _ => rfl) (by decide) (.sp, 8) (by decide)

/-! ### Interrupts in the kernel -/

/-- The registers `kernelvec` saves. -/
def callerRegs : List (Reg × BitVec 64) :=
  [(.ra, 0), (.gp, 16), (.tp, 24), (.t0, 32), (.t1, 40), (.t2, 48), (.a0, 72), (.a1, 80),
    (.a2, 88), (.a3, 96), (.a4, 104), (.a5, 112), (.a6, 120), (.a7, 128), (.t3, 216),
    (.t4, 224), (.t5, 232), (.t6, 240)]

/-- `kernelvec` up to the call of `kerneltrap`. -/
def kernelvecEnter : List Ins := [.addi .sp (-256)] ++ saves .sp callerRegs

/-- `kernelvec` after it: `tp` is not restored, the thread may have moved to another CPU. -/
def kernelvecLeave : List Ins :=
  loads .sp (callerRegs.filter fun x => x.1 ≠ .tp) ++ [.addi .sp 256]

/-- **An interrupt in the kernel keeps all registers but `tp`**, if `kerneltrap` returns with the
callee-saved registers and the frame `kernelvec` made as they were. -/
theorem kernelvec_keeps_registers (s t : Hart)
    (hcallee : ∀ r, r ∉ callerRegs.map Prod.fst → t.reg r = (run kernelvecEnter s).reg r)
    (hframe : ∀ x ∈ callerRegs, t.mem (s.reg .sp + -256 + x.2) =
      (run kernelvecEnter s).mem (s.reg .sp + -256 + x.2)) :
    ∀ r, r ≠ .tp → (run kernelvecLeave t).reg r = s.reg r := by
  intro r htp
  obtain ⟨hr, -, hsaved, -⟩ := @run_saves (run [.addi .sp (-256)] s) .sp callerRegs (by decide)
  obtain ⟨-, hload, hrest⟩ := @run_loads t .sp (callerRegs.filter fun x => x.1 ≠ .tp)
    (by decide) (by decide)
  rw [kernelvecEnter, run_append] at hcallee hframe
  have hsp : t.reg .sp = s.reg .sp + -256 := by
    rw [hcallee .sp (by decide), hr]
    rfl
  rw [kernelvecLeave, run_append]
  by_cases hrsp : r = .sp
  · subst hrsp
    have hlast : ∀ u, (run [.addi .sp 256] u).reg .sp = u.reg .sp + 256 := fun _ => rfl
    rw [hlast, hrest .sp (by decide), hsp]
    bv_omega
  refine (Function.update_of_ne hrsp _ _).trans ?_
  by_cases hin : r ∈ callerRegs.map Prod.fst
  · obtain ⟨x, hx, rfl⟩ := List.mem_map.mp hin
    rw [hload x (List.mem_filter.mpr ⟨hx, by simpa using htp⟩), hsp, hframe x hx]
    exact (hsaved x hx).trans (Function.update_of_ne hrsp _ _)
  · rw [hrest r fun hf => hin ?_, hcallee r hin, hr]
    · exact Function.update_of_ne hrsp _ _
    · obtain ⟨x, hx, rfl⟩ := List.mem_map.mp hf
      exact List.mem_map_of_mem (List.mem_filter.mp hx).1

theorem kernelvec_keeps_registers_sample :
    (run kernelvecLeave (run kernelvecEnter sampleHart)).reg .sp = sampleHart.reg .sp :=
  kernelvec_keeps_registers sampleHart _ (fun _ _ => rfl) (fun _ _ => rfl) .sp (by decide)

end Xv6.Registers
