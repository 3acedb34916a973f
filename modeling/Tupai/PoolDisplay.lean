import Tupai.Fmt
import Tupai.Kmem
import Tupai.Lib.LittleEndian

namespace Tupai
open Lib
set_option autoImplicit true

/-- The fields of a `vector_t` in memory. -/
structure VectorFields where
  arr : Nat
  ccapacity : Nat
  csize : Nat

def VectorFields.null : VectorFields := ⟨0, 0, 0⟩

/-- What the log and the heap share: the memory, the word of the pool's spinlock, and the variables
of the log, with the characters that were passed to `tty_write`. -/
structure LogState where
  mem : Mem
  spinlock : Nat
  logs : VectorFields
  clog : VectorFields
  printed : Chars

/-- Why a call does not return, with what was printed up to then: the kernel panics, or it waits for
a spinlock that it holds itself. -/
inductive LogFault where
  | panic (printed : Chars)
  | relock (printed : Chars)

namespace LogState

variable (w : Nat) (pool : Pool)

/-- `spinlock_lock_impl`. With no one else to unlock it, a lock that is taken stays so. -/
def lockPool (s : LogState) : Except LogFault LogState :=
  if s.spinlock = 0 then .ok { s with spinlock := 1 } else .error (.relock s.printed)

def unlockPool (s : LogState) : LogState := { s with spinlock := 0 }

/-- `operator new` -/
def new (s : LogState) (n : Nat) : Except LogFault (Nat × LogState) := do
  let s ← s.lockPool
  match kmemAlloc w pool s.mem n with
  | none => .error (.panic s.printed)
  | some (ptr, mem) => .ok (ptr, { s with mem := mem }.unlockPool)

/-- `operator delete`, which is not called for a null pointer. -/
def delete (s : LogState) (ptr : Nat) : Except LogFault LogState :=
  if ptr = 0 then .ok s
  else do
    let s ← s.lockPool
    match kmemDealloc w pool s.mem ptr with
    | none => .error (.panic s.printed)
    | some mem => .ok { s with mem := mem }.unlockPool

def copyChars (n src dst : Nat) (mem : Mem) : Mem :=
  (List.range n).foldl (fun mem i => mem.store (wrap w (dst + i)) (mem (wrap w (src + i)))) mem

/-- `resize` of a vector of characters. -/
def resizeClog (s : LogState) (size : Nat) : Except LogFault LogState := do
  let old := s.clog.arr
  let (arr, s) ← s.new w pool size
  let s := { s with
    mem := copyChars w s.clog.csize old arr s.mem
    clog := ⟨arr, size, s.clog.csize⟩ }
  s.delete w pool old

def doubled (v : VectorFields) : Nat := max (wrap w (v.ccapacity * 2)) 1

def growClog (s : LogState) : Except LogFault LogState :=
  if s.clog.csize ≥ s.clog.ccapacity then s.resizeClog w pool (doubled w s.clog) else .ok s

/-- `clog.push` -/
def pushClog (s : LogState) (c : Byte) : Except LogFault LogState := do
  let s ← s.growClog w pool
  return { s with
    mem := s.mem.store (wrap w (s.clog.arr + s.clog.csize)) c
    clog := { s.clog with csize := wrap w (s.clog.csize + 1) } }

/-- `sizeof(log_t)` -/
def logBytes : Nat := 3 * (w / 8)

def slot (arr i : Nat) : Nat := wrap w (arr + i * logBytes w)

def fieldsAt (mem : Mem) (p : Nat) : VectorFields :=
  ⟨leNat mem p (w / 8), leNat mem (p + w / 8) (w / 8), leNat mem (p + 2 * (w / 8)) (w / 8)⟩

def storeWords (s : LogState) (words : List (Nat × Nat)) : LogState :=
  { s with mem := leStores (w / 8) s.mem words }

/-- `__copy`, for a vector of characters at `p` -/
def copyLog (s : LogState) (p : Nat) (other : VectorFields) : Except LogFault LogState :=
  if other.csize > 0 then do
    let s := s.storeWords w [(p + 2 * (w / 8), other.csize), (p + w / 8, other.ccapacity)]
    let (arr, s) ← s.new w pool other.ccapacity
    let s := s.storeWords w [(p, arr)]
    return { s with mem := copyChars w other.csize other.arr arr s.mem }
  else return s.storeWords w [(p, 0), (p + w / 8, 0), (p + 2 * (w / 8), 0)]

def copyLogs (s : LogState) (n old arr : Nat) : Except LogFault LogState :=
  (List.range n).foldlM (fun s i =>
    s.copyLog w pool (slot w arr i) (fieldsAt w s.mem (slot w old i))) s

/-- `resize` of a vector of logs. The `delete` of the old array destroys the first log of it. -/
def resizeLogs (s : LogState) (size : Nat) : Except LogFault LogState := do
  let old := s.logs.arr
  let (arr, s) ← s.new w pool (wrap w (size * logBytes w))
  let s := { s with logs := ⟨arr, size, s.logs.csize⟩ }
  let s ← s.copyLogs w pool s.logs.csize old arr
  if old = 0 then return s
  else
    let s ← s.delete w pool (fieldsAt w s.mem old).arr
    s.delete w pool old

def growLogs (s : LogState) : Except LogFault LogState :=
  if s.logs.csize ≥ s.logs.ccapacity then s.resizeLogs w pool (doubled w s.logs) else .ok s

/-- `logs.push(clog)` -/
def pushLogs (s : LogState) : Except LogFault LogState := do
  let s ← s.growLogs w pool
  let s ← s.copyLog w pool (slot w s.logs.arr s.logs.csize) s.clog
  return { s with logs := { s.logs with csize := wrap w (s.logs.csize + 1) } }

/-- `__log_ostream::write` -/
def write (s : LogState) (c : Byte) : Except LogFault LogState := do
  let s ← s.pushClog w pool c
  return { s with printed := s.printed ++ [c] }

/-- `__log_ostream::end` -/
def logEnd (s : LogState) : Except LogFault LogState :=
  if s.clog.csize > 0 then do
    let s ← s.pushLogs w pool
    let s ← s.delete w pool s.clog.arr
    return { s with clog := .null }
  else return s

/-- `util::log`, whose arguments make this text. -/
def log (s : LogState) (text : Chars) : Except LogFault LogState := do
  let s ← text.foldlM (write w pool) s
  s.logEnd w pool

/-- The call returns as `P` says, or the kernel panics when what `F` says is printed. -/
def Ends (P : α → Prop) (F : Chars → Prop) : Except LogFault α → Prop
  | .ok a => P a
  | .error (.panic printed) => F printed
  | .error (.relock _) => False

/-- No one is in the pool. -/
structure Open (csize : Nat) (printed : Chars) (s : LogState) : Prop where
  spinlock : s.spinlock = 0
  csize : s.clog.csize = csize
  printed : s.printed = printed

variable {w : Nat} {pool : Pool} {s : LogState} {csize : Nat} {printed : Chars}

theorem Ends.bind {r : Except LogFault α} {f : α → Except LogFault β} (h : Ends P F r)
    (hf : ∀ a, P a → Ends Q F (f a)) : Ends Q F (r >>= f) := by
  match r with
  | .ok a => exact hf a h
  | .error (.panic _) => exact h

theorem Ends.mono {r : Except LogFault α} (h : Ends P F r) (hF : ∀ text, F text → G text) :
    Ends P G r := by
  match r with
  | .ok a => exact h
  | .error (.panic text) => exact hF text h

namespace Open

theorem foldlM {f : LogState → α → Except LogFault LogState}
    (hf : ∀ s a, s.Open csize printed → Ends (Open csize printed) (· = printed) (f s a))
    (h : s.Open csize printed) (l : List α) :
    Ends (Open csize printed) (· = printed) (l.foldlM f s) := by
  induction l generalizing s with
  | nil => exact h
  | cons a l ih =>
    rw [List.foldlM_cons]
    exact (hf s a h).bind fun t ht => ih ht

theorem new (h : s.Open csize printed) (n : Nat) :
    Ends (fun x => x.2.Open csize printed) (· = printed) (s.new w pool n) := by
  obtain ⟨hlock, hsize, rfl⟩ := h
  rw [LogState.new, lockPool, if_pos hlock]
  dsimp only [bind, Except.bind]
  cases kmemAlloc w pool s.mem n with
  | none => exact rfl
  | some x => exact ⟨rfl, hsize, rfl⟩

theorem delete (h : s.Open csize printed) (ptr : Nat) :
    Ends (Open csize printed) (· = printed) (s.delete w pool ptr) := by
  obtain ⟨hlock, hsize, rfl⟩ := h
  rw [LogState.delete, lockPool, if_pos hlock]
  split_ifs
  · exact ⟨hlock, hsize, rfl⟩
  · dsimp only [bind, Except.bind]
    cases kmemDealloc w pool s.mem ptr with
    | none => exact rfl
    | some mem => exact ⟨rfl, hsize, rfl⟩

theorem resizeClog (h : s.Open csize printed) (size : Nat) :
    Ends (Open csize printed) (· = printed) (s.resizeClog w pool size) := by
  refine (h.new size).bind fun ⟨arr, t⟩ ht => ?_
  dsimp only at ht ⊢
  refine delete ?_ s.clog.arr
  exact ⟨ht.spinlock, ht.csize, ht.printed⟩

theorem growClog (h : s.Open csize printed) :
    Ends (Open csize printed) (· = printed) (s.growClog w pool) := by
  rw [LogState.growClog]
  split_ifs
  · exact h.resizeClog _
  · exact h

theorem pushClog (h : s.Open csize printed) (c : Byte) :
    Ends (Open (wrap w (csize + 1)) printed) (· = printed) (s.pushClog w pool c) := by
  refine h.growClog.bind fun t ht => ?_
  exact ⟨ht.spinlock, by rw [← ht.csize], ht.printed⟩

theorem write (h : s.Open csize printed) (c : Byte) :
    Ends (Open (wrap w (csize + 1)) (printed ++ [c])) (· = printed) (s.write w pool c) := by
  refine (h.pushClog c).bind fun t ht => ?_
  exact ⟨ht.spinlock, ht.csize, by rw [← ht.printed]⟩

theorem storeWords (h : s.Open csize printed) (words : List (Nat × Nat)) :
    (s.storeWords w words).Open csize printed :=
  ⟨h.spinlock, h.csize, h.printed⟩

theorem copyLog (h : s.Open csize printed) (p : Nat) (other : VectorFields) :
    Ends (Open csize printed) (· = printed) (s.copyLog w pool p other) := by
  rw [LogState.copyLog]
  split_ifs
  · refine ((h.storeWords _).new _).bind fun ⟨arr, t⟩ ht => ?_
    exact ⟨ht.spinlock, ht.csize, ht.printed⟩
  · exact h.storeWords _

theorem copyLogs (h : s.Open csize printed) (n old arr : Nat) :
    Ends (Open csize printed) (· = printed) (s.copyLogs w pool n old arr) :=
  foldlM (fun t _ (ht : t.Open csize printed) => ht.copyLog ..) h (List.range n)

theorem resizeLogs (h : s.Open csize printed) (size : Nat) :
    Ends (Open csize printed) (· = printed) (s.resizeLogs w pool size) := by
  refine (h.new _).bind fun ⟨arr, t⟩ ht => ?_
  dsimp only at ht ⊢
  have hgrown : Open csize printed { t with logs := ⟨arr, size, t.logs.csize⟩ } :=
    ⟨ht.spinlock, ht.csize, ht.printed⟩
  refine (hgrown.copyLogs t.logs.csize s.logs.arr arr).bind fun u hu => ?_
  split_ifs
  · exact hu
  · exact (hu.delete _).bind fun v hv => hv.delete _

theorem growLogs (h : s.Open csize printed) :
    Ends (Open csize printed) (· = printed) (s.growLogs w pool) := by
  rw [LogState.growLogs]
  split_ifs
  · exact h.resizeLogs _
  · exact h

theorem pushLogs (h : s.Open csize printed) :
    Ends (Open csize printed) (· = printed) (s.pushLogs w pool) := by
  refine h.growLogs.bind fun t ht => (ht.copyLog _ _).bind fun u hu => ?_
  exact ⟨hu.spinlock, hu.csize, hu.printed⟩

/-- The line of the log is empty after `end`. -/
theorem logEnd (h : s.Open csize printed) (hpos : 0 < csize) :
    Ends (fun t => t.Open 0 printed ∧ t.clog = .null) (· = printed) (s.logEnd w pool) := by
  rw [LogState.logEnd, if_pos (by rwa [h.csize])]
  refine h.pushLogs.bind fun t ht => (ht.delete _).bind fun u hu => ?_
  exact ⟨⟨hu.spinlock, rfl, hu.printed⟩, rfl⟩

theorem writes (h : s.Open csize printed) (text : Chars) (hsize : csize + text.length < 2 ^ w) :
    Ends (Open (csize + text.length) (printed ++ text))
      (fun p => ∃ t, t <+: text ∧ p = printed ++ t) (text.foldlM (LogState.write w pool) s) := by
  induction text generalizing s csize printed with
  | nil =>
    rw [List.append_nil]
    exact h
  | cons c text ih =>
    rw [List.length_cons] at hsize ⊢
    rw [List.foldlM_cons]
    have hnothing : ∀ p, p = printed → ∃ t, t <+: c :: text ∧ p = printed ++ t :=
      fun p hp => ⟨[], List.nil_prefix, by rw [hp, List.append_nil]⟩
    refine ((h.write c).mono hnothing).bind fun t ht => ?_
    rw [wrap_of_lt (by omega)] at ht
    have hrest := ih ht (by omega)
    rw [← List.append_cons, Nat.add_assoc, Nat.add_comm 1] at hrest
    refine hrest.mono fun p hp => ?_
    obtain ⟨q, hq, rfl⟩ := hp
    exact ⟨c :: q, List.cons_prefix_cons.2 ⟨rfl, hq⟩, (List.append_cons ..).symm⟩

theorem log (h : s.Open csize printed) (htext : text ≠ []) (hsize : csize + text.length < 2 ^ w) :
    Ends (fun t => t.Open 0 (printed ++ text) ∧ t.clog = .null)
      (fun p => ∃ t, t <+: text ∧ p = printed ++ t) (s.log w pool text) := by
  refine (h.writes text hsize).bind fun t ht => ?_
  have hpos := List.length_pos_of_ne_nil htext
  exact (ht.logEnd (by omega)).mono fun p hp => ⟨text, List.prefix_refl text, hp⟩

end Open

end LogState

end Tupai
