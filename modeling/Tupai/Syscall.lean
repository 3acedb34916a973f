import Tupai.Stdio

namespace Tupai
set_option autoImplicit true

/-- A request of `sys::call` with its arguments. A pointer to a path or to a count is given by what
it leads to. -/
inductive CALL where
  | YIELD
  | LMUTEX (mutex : Nat)
  | UMUTEX (mutex : Nat)
  | OPEN (path : Chars)
  | PIPE
  | SOCKET
  | CLOSE (lfd : Int)
  | READ (lfd : Int) (rbuff n : Nat)
  | WRITE (lfd : Int) (rbuff n : Nat)
  | SEEK

/-- What the handler leaves: the stack to go on with, what it stored in `*rdesc` or `*rn`, and the
kernel. -/
structure Handled (δ : Type u) where
  dispatch : Dispatch
  stored : Option Int
  kernel : Kernel δ

namespace Kernel

variable (V : Vtables δ)

/-- `syscall_isr_main`. The cases of LMUTEX and UMUTEX are commented out. -/
def syscallIsrMain (fuel stackPtr : Nat) (k : Kernel δ) : CALL → Option (Handled δ)
  | .YIELD =>
    (k.procs.schedulerPreempt fuel stackPtr).map fun (d, procs) =>
      ⟨d, none, { k with procs := procs }⟩
  | .OPEN path =>
    let (rdesc, k) := k.syscallOpen V path
    some ⟨.resume stackPtr, some rdesc, k⟩
  | .CLOSE lfd => some ⟨.resume stackPtr, none, (k.fdClose V lfd).2⟩
  | .READ lfd rbuff n =>
    let (rn, k) := k.fdRead V lfd rbuff n
    some ⟨.resume stackPtr, some rn, k⟩
  | .WRITE lfd rbuff n =>
    let (rn, k) := k.fdWrite V lfd rbuff n
    some ⟨.resume stackPtr, some rn, k⟩
  | .LMUTEX _ | .UMUTEX _ | .PIPE | .SOCKET | .SEEK => some ⟨.resume stackPtr, none, k⟩

/-- The kernel when `sys::call` returns to the thread that called it on this stack. The thread waits
while the handler goes on with another stack. -/
def sysCall (fuel stackPtr : Nat) (k : Kernel δ) (c : CALL) : Option (Kernel δ) :=
  (k.syscallIsrMain V fuel stackPtr c).bind fun r =>
    if r.dispatch = .resume stackPtr then some r.kernel else none

/-- `mutex_t::lock` -/
def lock (fuel stackPtr : Nat) (k : Kernel δ) (mutex : Nat) : Option (Kernel δ) :=
  k.sysCall V fuel stackPtr (.LMUTEX mutex)

/-- `mutex_t::unlock` -/
def unlock (fuel stackPtr : Nat) (k : Kernel δ) (mutex : Nat) : Option (Kernel δ) :=
  k.sysCall V fuel stackPtr (.UMUTEX mutex)

variable {V}

@[simp] theorem lock_eq (fuel stackPtr : Nat) (k : Kernel δ) (mutex : Nat) :
    k.lock V fuel stackPtr mutex = some k := if_pos rfl

@[simp] theorem unlock_eq (fuel stackPtr : Nat) (k : Kernel δ) (mutex : Nat) :
    k.unlock V fuel stackPtr mutex = some k := if_pos rfl

end Kernel

end Tupai
