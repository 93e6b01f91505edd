import Xv6.Machine.Proc

/-!
# Page faults from user mode

The exception branches of `usertrap` in `kernel/trap.c`, and the access check the hardware
makes before it raises a page fault. System calls and device interrupts are not modelled
here.
-/

namespace Xv6

/-- The kinds of access a page fault reports. -/
inductive Access
  | exec | load | store
deriving DecidableEq, Repr

/-- The permission bit an access needs. -/
def Access.flag : Access → Pte
  | exec => pteX
  | load => pteR
  | store => pteW

/-- The hardware lets user code make the access: the entry is valid, is a user page and has
the permission. -/
def Pte.allows (e : Pte) (a : Access) : Bool := e.has pteV && e.has pteU && e.has a.flag

/-- The user access succeeds without a trap. Addresses at or above `MAXVA` have no
translation. -/
def accessible (k : Kernel) (root va : ℕ) (a : Access) : Bool :=
  decide (va < maxva) && (k.leaf root (va / pgsize)).allows a

/-- How `usertrap` ends: the process goes on in user mode or it has exited. -/
inductive Outcome
  | resumed | exited
deriving DecidableEq, Repr

/-- `setkilled`. -/
def setkilled (p : ℕ) : K Unit := modProc p fun q => { q with killed := true }

/-- `usertrap` for an exception that is not a system call. -/
def usertrap (scause stval : ℕ) : K Outcome := do
  let p ← myproc
  if scause = 15 ∨ scause = 13 ∨ scause = 12 then
    if (← vmfault ((← getK).proc p).pagetable stval) = 0 then throw .memAllocFailed
  else setkilled p
  if ((← getK).proc p).killed then
    kexit (-1)
    return .exited
  else return .resumed

end Xv6
