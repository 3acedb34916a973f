import Tupai.Pipe
import Tupai.Stdio

namespace Tupai
open Lib
set_option autoImplicit true

def bytesAt (w : Nat) (mem : Mem) (buff n : Nat) : List Byte :=
  (List.range n).map fun i => mem (wrap w (buff + i))

/-- Memory after `m` bytes were copied one by one. -/
def copyBytes (w : Nat) : (m src dst : Nat) → (mem : Mem) → Mem
  | 0, _, _, mem => mem
  | m + 1, src, dst, mem =>
    copyBytes w m (src + 1) (dst + 1) (mem.store (wrap w dst) (mem (wrap w src)))

namespace Kernel

/-- The descriptor that the current process knows under a local id. -/
def fdOf (k : Kernel δ) (lfd : Int) : Int := k.procs.getFd k.procs.cproc lfd

def inodeOf (k : Kernel δ) (lfd : Int) : Int := k.vfs.fdGetInode (k.fdOf lfd)

/-- The read function that `fd_read` reaches. -/
def readCallOf (V : Vtables δ) (k : Kernel δ) (lfd : Int) :
    Option (Int → Nat → Nat → Kernel δ → Int × Kernel δ) :=
  (k.vtableOf lfd).bind fun ref => (V ref).readCall

def writeCallOf (V : Vtables δ) (k : Kernel δ) (lfd : Int) :
    Option (Int → Nat → Nat → Kernel δ → Int × Kernel δ) :=
  (k.vtableOf lfd).bind fun ref => (V ref).writeCall

/-- `fd_read` comes to an empty pipe. It waits for a byte, and goes on like a call that is made
then. -/
def ReadWaits (piped : Bool) (k : Kernel Drivers) (lfd : Int) : Prop :=
  piped = true ∧ k.vtableOf lfd = some .pipeVtable ∧
    (k.pipeOf (k.fdOf lfd)).any (fun pipe => (k.dev.pipe pipe).len = 0) = true

instance (piped : Bool) (k : Kernel Drivers) (lfd : Int) : Decidable (k.ReadWaits piped lfd) :=
  inferInstanceAs (Decidable (_ ∧ _ ∧ _))

/-- What `fd_read` returns with, if it does. -/
def readReturn (w : Nat) (piped : Bool) (k : Kernel Drivers) (lfd : Int) (rbuff n : Nat) :
    Option (Int × Kernel Drivers) :=
  if k.ReadWaits piped lfd then none else some (k.fdRead (driverVtables w piped) lfd rbuff n)

/-- `m` bytes of a file were read: they were copied one by one from the offset on. -/
structure FileRead (w : Nat) (k k' : Kernel Drivers) (lfd : Int) (header rbuff m : Nat) :
    Prop where
  within : k.vfs.getOffset (k.fdOf lfd) + m ≤ tarSize w k.mem header
  copied : k'.mem = (copyBytes w m (tarData w header + k.vfs.getOffset (k.fdOf lfd)) rbuff
    k.mem).store (wrap w (rbuff + m)) 0#8
  bytes : (∀ i < m, ∀ j < m, wrap w (rbuff + i) ≠
      wrap w (tarData w header + k.vfs.getOffset (k.fdOf lfd) + j)) →
    bytesAt w k'.mem rbuff m =
      bytesAt w k.mem (tarData w header + k.vfs.getOffset (k.fdOf lfd)) m
  moved : k'.vfs = (k.vfs.setOffset (k.fdOf lfd) (k.vfs.getOffset (k.fdOf lfd) + m)).2

structure PipeRead (w : Nat) (k k' : Kernel Drivers) (pipe rbuff : Nat) : Prop where
  ready : 0 < (k.dev.pipe pipe).len
  byte : k'.mem (wrap w rbuff) = (readUnsafe (k.dev.pipe pipe)).1
  taken : k'.dev.pipe = Function.update k.dev.pipe pipe (readUnsafe (k.dev.pipe pipe)).2

/-- A positive result of `fd_read` is the number of bytes that the file or the pipe delivered. -/
structure ReadTrue (w : Nat) (piped : Bool) (k : Kernel Drivers) (lfd : Int) (rbuff n : Nat) :
    Prop where
  delivered : ∀ (m : Nat) (k' : Kernel Drivers), 0 < m →
    k.readReturn w piped lfd rbuff n = some ((m : Int), k') →
    (∃ header, k.vtableOf lfd = some .initrdVtable ∧
      k.dev.initrd.inodes.get (k.inodeOf lfd) = some header ∧
      FileRead w k k' lfd header rbuff m) ∨
    (∃ pipe, k.vtableOf lfd = some .pipeVtable ∧ k.dev.pipes.get (k.inodeOf lfd) = some pipe ∧
      m = 1 ∧ PipeRead w k k' pipe rbuff)
  unreached : k.readCallOf (driverVtables w piped) lfd = none →
    ∃ x ∈ k.readReturn w piped lfd rbuff n, x.1 ≤ 0

/-- A positive result of `fd_write` is the number of bytes that the pipe was given. -/
structure WriteTrue (w : Nat) (piped : Bool) (k : Kernel Drivers) (lfd : Int) (buff n : Nat) :
    Prop where
  accepted : ∀ m : Nat, 0 < m → (k.fdWrite (driverVtables w piped) lfd buff n).1 = m →
    ∃ pipe, k.vtableOf lfd = some .pipeVtable ∧ k.dev.pipes.get (k.inodeOf lfd) = some pipe ∧
      m ≤ n ∧ (k.fdWrite (driverVtables w piped) lfd buff n).2.dev.pipe =
        Function.update k.dev.pipe pipe
          ((bytesAt w k.mem buff m).foldl fifoWrite (k.dev.pipe pipe))
  unreached : k.writeCallOf (driverVtables w piped) lfd = none →
    (k.fdWrite (driverVtables w piped) lfd buff n).1 ≤ 0

end Kernel

theorem copyData_eq (mem : Mem) (offset i left : Nat) :
    copyData w data filesize rbuff left mem offset i =
      (copyBytes w (min left (filesize - offset)) (data + offset) (rbuff + i) mem,
        offset + min left (filesize - offset), i + min left (filesize - offset)) := by
  induction left generalizing mem offset i with
  | zero =>
    rw [Nat.zero_min]
    rfl
  | succ left ih =>
    rw [copyData]
    split_ifs with hlt
    · have hmin : min (left + 1) (filesize - offset) = min left (filesize - (offset + 1)) + 1 := by
        omega
      rw [ih, hmin, copyBytes, Nat.add_assoc data, Nat.add_assoc rbuff,
        Nat.add_assoc offset, Nat.add_assoc i, Nat.add_comm 1]
    · rw [show min (left + 1) (filesize - offset) = 0 by omega]
      rfl

theorem copyBytes_frame (h : ∀ j < m, a ≠ wrap w (dst + j)) :
    copyBytes w m src dst mem a = mem a := by
  induction m generalizing src dst mem with
  | zero => rfl
  | succ m ih =>
    have hfirst : a ≠ wrap w dst := h 0 (Nat.succ_pos m)
    rw [copyBytes, ih, Mem.store_other _ _ hfirst]
    intro j hj
    have hne := h (j + 1) (by omega)
    rwa [Nat.add_comm j, ← Nat.add_assoc] at hne

theorem wrap_ne (hij : i < j) (hj : j < 2 ^ w) : wrap w (a + i) ≠ wrap w (a + j) := by
  intro he
  exact absurd (ring_inj (Nat.lt_trans hij hj) hj he) (Nat.ne_of_lt hij)

theorem copyBytes_apply (hapart : ∀ i < m, ∀ j < m, wrap w (dst + i) ≠ wrap w (src + j))
    (hm : m ≤ 2 ^ w) (hj : j < m) :
    copyBytes w m src dst mem (wrap w (dst + j)) = mem (wrap w (src + j)) := by
  induction m generalizing src dst mem j with
  | zero => exact absurd hj (Nat.not_lt_zero j)
  | succ m ih =>
    rw [copyBytes]
    cases j with
    | zero =>
      rw [copyBytes_frame, Nat.add_zero, Mem.store_same]
      · rfl
      · intro j hj he
        rw [Nat.add_assoc, Nat.add_comm 1] at he
        exact wrap_ne (Nat.succ_pos j) (by omega) he
    | succ j =>
      rw [Nat.add_comm j, ← Nat.add_assoc dst, ← Nat.add_assoc src, ih _ (by omega) (by omega)]
      · apply Mem.store_other
        have hne := hapart 0 (by omega) (1 + j) (by omega)
        rw [← Nat.add_assoc] at hne
        exact fun he => hne he.symm
      · intro i hi j hj
        have hne := hapart (1 + i) (by omega) (1 + j) (by omega)
        rwa [← Nat.add_assoc, ← Nat.add_assoc] at hne

theorem bytesAt_succ (w : Nat) (mem : Mem) (buff n : Nat) :
    bytesAt w mem buff (n + 1) = mem (wrap w buff) :: bytesAt w mem (buff + 1) n := by
  rw [bytesAt, List.range_succ_eq_map, List.map_cons, List.map_map, bytesAt]
  refine congrArg₂ _ rfl (List.map_congr_left fun i _ => ?_)
  rw [Function.comp_apply, Nat.add_assoc, Nat.add_comm 1]

theorem writeBytes_eq (w : Nat) (mem : Mem) (buff n i : Nat) (q : Queue Byte) :
    writeBytes w mem buff n i q = (bytesAt w mem (buff + i) n).foldl fifoWrite q := by
  induction n generalizing i q with
  | zero => rfl
  | succ n ih =>
    rw [writeBytes, ih, bytesAt_succ, List.foldl_cons]
    rfl

/-- Only counts below half of the range stay positive, and these are exact. -/
theorem toSsize_eq (hn : n < 2 ^ w) (hpos : 0 < m) (h : toSsize w n = (m : Nat)) : n = m := by
  rw [toSsize, Int.bmod_def] at h
  generalize 2 ^ w = size at hn h
  rw [Int.emod_eq_of_lt (Int.natCast_nonneg n) (by exact_mod_cast hn)] at h
  split_ifs at h <;> omega

namespace Kernel

section calls

variable {V : Vtables δ} {k : Kernel δ} {lfd : Int}

theorem fdRead_some (h : k.readCallOf V lfd = some call) (rbuff n : Nat) :
    k.fdRead V lfd rbuff n = call (k.fdOf lfd) rbuff n k := by
  obtain ⟨ref, hv, hcall⟩ := Option.bind_eq_some_iff.1 h
  obtain ⟨hc, hv⟩ := vtableOf_some hv
  simp only [fdRead, Procs.getCurrent, hc, hv, hcall, ↓reduceIte]
  rfl

theorem fdWrite_some (h : k.writeCallOf V lfd = some call) (buff n : Nat) :
    k.fdWrite V lfd buff n = call (k.fdOf lfd) buff n k := by
  obtain ⟨ref, hv, hcall⟩ := Option.bind_eq_some_iff.1 h
  obtain ⟨hc, hv⟩ := vtableOf_some hv
  simp only [fdWrite, Procs.getCurrent, hc, hv, hcall, ↓reduceIte]
  rfl

theorem fdRead_none (h : k.readCallOf V lfd = none) (rbuff n : Nat) :
    k.fdRead V lfd rbuff n = (if k.procs.cproc = ID_INVALID then 1 else 0, k) := by
  by_cases hc : k.procs.cproc = ID_INVALID
  · simp only [fdRead, Procs.getCurrent, hc, ↓reduceIte]
  · rw [readCallOf, vtableOf, if_neg hc] at h
    rw [fdRead, Procs.getCurrent, if_neg hc, if_neg hc]
    dsimp only
    cases hv : (k.vfs.getVtable (k.vfs.fdGetInode (k.procs.getFd k.procs.cproc lfd))).2 with
    | none => rfl
    | some ref =>
      rw [hv, Option.bind_some] at h
      simp only [h]

/-- Without a write function the result is 1 in any case. -/
theorem fdWrite_none (h : k.writeCallOf V lfd = none) (buff n : Nat) :
    k.fdWrite V lfd buff n = (1, k) := by
  by_cases hc : k.procs.cproc = ID_INVALID
  · simp only [fdWrite, Procs.getCurrent, hc, ↓reduceIte]
  · rw [writeCallOf, vtableOf, if_neg hc] at h
    rw [fdWrite, Procs.getCurrent, if_neg hc]
    dsimp only
    cases hv : (k.vfs.getVtable (k.vfs.fdGetInode (k.procs.getFd k.procs.cproc lfd))).2 with
    | none => rfl
    | some ref =>
      rw [hv, Option.bind_some] at h
      simp only [h]

end calls

variable {k : Kernel Drivers} {lfd : Int}

def fileCount (w : Nat) (k : Kernel Drivers) (lfd : Int) (header n : Nat) : Nat :=
  min (n - 1) (tarSize w k.mem header - k.vfs.getOffset (k.fdOf lfd))

/-- The state after a read of `m` bytes of a file. -/
def afterFile (w : Nat) (k : Kernel Drivers) (lfd : Int) (header rbuff m : Nat) :
    Kernel Drivers where
  vfs := (k.vfs.setOffset (k.fdOf lfd) (k.vfs.getOffset (k.fdOf lfd) + m)).2
  procs := k.procs
  mem := (copyBytes w m (tarData w header + k.vfs.getOffset (k.fdOf lfd)) rbuff k.mem).store
    (wrap w (rbuff + m)) 0#8
  dev := k.dev

theorem readCallOf_file (hv : k.vtableOf lfd = some .initrdVtable) (w : Nat) (piped : Bool) :
    k.readCallOf (driverVtables w piped) lfd =
      some fun fd rbuff n => withInitrd (initrdReadCall w fd rbuff n) := by
  rw [readCallOf, hv]
  rfl

theorem fdRead_file (hv : k.vtableOf lfd = some .initrdVtable)
    (hfile : k.dev.initrd.inodes.get (k.inodeOf lfd) = some header) (piped : Bool)
    (rbuff n : Nat) :
    k.fdRead (driverVtables w piped) lfd rbuff n =
      ((k.fileCount w lfd header n : Int),
        k.afterFile w lfd header rbuff (k.fileCount w lfd header n)) := by
  rw [inodeOf] at hfile
  rw [fdRead_some (readCallOf_file hv w piped), withInitrd, initrdReadCall]
  dsimp only
  rw [hfile]
  dsimp only
  rw [copyData_eq, Nat.zero_add]
  rfl

theorem fdRead_noFile (hv : k.vtableOf lfd = some .initrdVtable)
    (hfile : k.dev.initrd.inodes.get (k.inodeOf lfd) = none) (piped : Bool) (rbuff n : Nat) :
    k.fdRead (driverVtables w piped) lfd rbuff n = (-1, k) := by
  rw [inodeOf] at hfile
  rw [fdRead_some (readCallOf_file hv w piped), withInitrd, initrdReadCall]
  dsimp only
  rw [hfile]

theorem readReturn_other (h : ¬ (piped = true ∧ k.vtableOf lfd = some .pipeVtable))
    (w rbuff n : Nat) : k.readReturn w piped lfd rbuff n =
      some (k.fdRead (driverVtables w piped) lfd rbuff n) :=
  if_neg fun ⟨hp, hv, _⟩ => h ⟨hp, hv⟩

/-- The calls that do not return are those that the driver does not return from. -/
theorem readReturn_pipe (hv : k.vtableOf lfd = some .pipeVtable) (w rbuff n : Nat) :
    k.readReturn w true lfd rbuff n = pipeReadCall w (k.fdOf lfd) rbuff n k := by
  have hcall : k.readCallOf (driverVtables w true) lfd =
      some fun fd rbuff n k => (pipeReadCall w fd rbuff n k).getD (0, k) := by
    rw [readCallOf, hv]
    rfl
  have hread := fdRead_some hcall rbuff n
  cases hpipe : k.pipeOf (k.fdOf lfd) with
  | none =>
    have hreturns : ¬ k.ReadWaits true lfd := fun h => by simpa [hpipe] using h.2.2
    rw [readReturn, if_neg hreturns, hread, pipeReadCall, hpipe]
    rfl
  | some pipe =>
    by_cases hzero : (k.dev.pipe pipe).len = 0
    · have hwaits : k.ReadWaits true lfd := ⟨rfl, hv, by simp [hpipe, hzero]⟩
      rw [readReturn, if_pos hwaits, pipeReadCall, hpipe]
      exact (if_pos hzero).symm
    · have hreturns : ¬ k.ReadWaits true lfd := fun h => by simpa [hpipe, hzero] using h.2.2
      rw [readReturn, if_neg hreturns, hread, pipeReadCall, hpipe]
      dsimp only
      rw [if_neg hzero]
      rfl

theorem readCallOf_none (hfile : k.vtableOf lfd ≠ some .initrdVtable)
    (hpipe : k.vtableOf lfd = some .pipeVtable → piped = false) :
    k.readCallOf (driverVtables w piped) lfd = none := by
  rw [readCallOf]
  cases hv : k.vtableOf lfd with
  | none => rfl
  | some ref =>
    cases ref with
    | initrdVtable => exact absurd hv hfile
    | pipeVtable =>
      rw [hpipe hv]
      rfl
    | other addr => rfl

variable {piped : Bool} {rbuff n : Nat}

theorem not_pipe (hv : k.vtableOf lfd = some .initrdVtable) :
    ¬ (piped = true ∧ k.vtableOf lfd = some .pipeVtable) := by
  rw [hv]
  exact fun h => by cases h.2

theorem readReturn_file (hv : k.vtableOf lfd = some .initrdVtable)
    (hfile : k.dev.initrd.inodes.get (k.inodeOf lfd) = some header) :
    k.readReturn w piped lfd rbuff n = some ((k.fileCount w lfd header n : Int),
      k.afterFile w lfd header rbuff (k.fileCount w lfd header n)) := by
  rw [readReturn_other (not_pipe hv), fdRead_file hv hfile]

theorem readReturn_noFile (hv : k.vtableOf lfd = some .initrdVtable)
    (hfile : k.dev.initrd.inodes.get (k.inodeOf lfd) = none) :
    k.readReturn w piped lfd rbuff n = some (-1, k) := by
  rw [readReturn_other (not_pipe hv), fdRead_noFile hv hfile]

theorem store_terminator (hw : 0 < w) (mem : Mem) (rbuff : Nat) (b : Byte) :
    ((mem.store (wrap w rbuff) b).store (wrap w (rbuff + 1)) 0#8) (wrap w rbuff) = b := by
  have hne := wrap_ne (w := w) (a := rbuff) Nat.one_pos (Nat.one_lt_two_pow (Nat.ne_of_gt hw))
  exact (Mem.store_other _ _ hne).trans (Mem.store_same ..)

theorem pipeReadCall_some (h : k.pipeOf fd = some pipe) (hne : 0 < (k.dev.pipe pipe).len)
    (w rbuff n : Nat) : pipeReadCall w fd rbuff n k =
      some (1, { k.setPipe pipe (readUnsafe (k.dev.pipe pipe)).2 with
        mem := (k.mem.store (wrap w rbuff) (readUnsafe (k.dev.pipe pipe)).1).store
          (wrap w (rbuff + 1)) 0#8 }) := by
  rw [pipeReadCall, h]
  exact if_neg (Nat.ne_of_gt hne)

theorem pipeReadCall_waits (h : k.pipeOf fd = some pipe) (hne : ¬ 0 < (k.dev.pipe pipe).len)
    (w rbuff n : Nat) : pipeReadCall w fd rbuff n k = none := by
  rw [pipeReadCall, h]
  exact if_pos (Nat.eq_zero_of_not_pos hne)

theorem pipeReadCall_none (h : k.pipeOf fd = none) (w rbuff n : Nat) :
    pipeReadCall w fd rbuff n k = some (0, k) := by
  rw [pipeReadCall, h]

theorem readReturn_none (hcur : k.procs.cproc ≠ ID_INVALID)
    (h : k.readCallOf (driverVtables w piped) lfd = none) :
    k.readReturn w piped lfd rbuff n = some (0, k) := by
  have hpipe : ¬ (piped = true ∧ k.vtableOf lfd = some .pipeVtable) := by
    rintro ⟨rfl, hv⟩
    rw [readCallOf, hv] at h
    cases h
  rw [readReturn_other hpipe, fdRead_none h, if_neg hcur]

theorem afterFile_read (hn : n < 2 ^ w) (hpos : 0 < k.fileCount w lfd header n) :
    FileRead w k (k.afterFile w lfd header rbuff (k.fileCount w lfd header n)) lfd header rbuff
      (k.fileCount w lfd header n) := by
  have hle : k.fileCount w lfd header n ≤ n - 1 := Nat.min_le_left ..
  refine ⟨?_, rfl, fun hapart => ?_, rfl⟩
  · rw [fileCount] at hpos ⊢
    omega
  · apply List.map_congr_left
    intro i hi
    rw [List.mem_range] at hi
    refine (Mem.store_other _ _ (wrap_ne hi (by omega))).trans ?_
    exact copyBytes_apply hapart (by omega) hi

theorem readTrue_file (hn : n < 2 ^ w) (hv : k.vtableOf lfd = some .initrdVtable) (hpos : 0 < m)
    (hm : k.readReturn w piped lfd rbuff n = some (((m : Nat) : Int), k')) :
    ∃ header, k.dev.initrd.inodes.get (k.inodeOf lfd) = some header ∧
      FileRead w k k' lfd header rbuff m := by
  cases hfile : k.dev.initrd.inodes.get (k.inodeOf lfd) with
  | none =>
    rw [readReturn_noFile hv hfile] at hm
    cases hm
  | some header =>
    rw [readReturn_file hv hfile, Option.some.injEq, Prod.mk.injEq] at hm
    obtain ⟨hcount, rfl⟩ := hm
    obtain rfl : k.fileCount w lfd header n = m := Int.ofNat.inj hcount
    exact ⟨header, rfl, afterFile_read hn hpos⟩

theorem readTrue_pipe (hw : 0 < w) (hv : k.vtableOf lfd = some .pipeVtable) (hpos : 0 < m)
    (hm : k.readReturn w true lfd rbuff n = some (((m : Nat) : Int), k')) :
    ∃ pipe, k.dev.pipes.get (k.inodeOf lfd) = some pipe ∧ m = 1 ∧
      PipeRead w k k' pipe rbuff := by
  rw [readReturn_pipe hv] at hm
  cases hpipe : k.dev.pipes.get (k.inodeOf lfd) with
  | none =>
    have hnone : k.pipeOf (k.fdOf lfd) = none := hpipe
    rw [pipeReadCall_none hnone, Option.some.injEq, Prod.mk.injEq] at hm
    exact absurd (Int.ofNat.inj hm.1) (Nat.ne_of_lt hpos)
  | some pipe =>
    have hsome : k.pipeOf (k.fdOf lfd) = some pipe := hpipe
    by_cases hne : 0 < (k.dev.pipe pipe).len
    · rw [pipeReadCall_some hsome hne, Option.some.injEq, Prod.mk.injEq] at hm
      obtain ⟨hone, rfl⟩ := hm
      exact ⟨pipe, rfl, (Int.ofNat.inj hone).symm, hne, store_terminator hw _ rbuff _, rfl⟩
    · rw [pipeReadCall_waits hsome hne] at hm
      cases hm

theorem readTrue_iff (hw : 0 < w) (hn : n < 2 ^ w) :
    k.ReadTrue w piped lfd rbuff n ↔ k.procs.cproc ≠ ID_INVALID := by
  constructor
  · intro h hcur
    have hv : k.vtableOf lfd = none := if_pos hcur
    have hnone : k.readCallOf (driverVtables w piped) lfd = none := by
      rw [readCallOf, hv]
      rfl
    obtain ⟨x, hx, hzero⟩ := h.unreached hnone
    rw [readReturn_other (by rw [hv]; exact fun hp => by cases hp.2), fdRead_none hnone,
      if_pos hcur] at hx
    cases hx
    exact absurd hzero (show ¬ (1 : Int) ≤ 0 by decide)
  · intro hcur
    refine ⟨fun m k' hpos hm => ?_, fun hnone => ⟨_, readReturn_none hcur hnone, le_refl _⟩⟩
    by_cases hfile : k.vtableOf lfd = some .initrdVtable
    · obtain ⟨header, hget, hread⟩ := readTrue_file hn hfile hpos hm
      exact .inl ⟨header, hfile, hget, hread⟩
    · by_cases hpipe : k.vtableOf lfd = some .pipeVtable ∧ piped = true
      · obtain ⟨hpipe, rfl⟩ := hpipe
        obtain ⟨pipe, hget, hone, hread⟩ := readTrue_pipe hw hpipe hpos hm
        exact .inr ⟨pipe, hpipe, hget, hone, hread⟩
      · have hnone := readCallOf_none (w := w) hfile fun hv =>
          Bool.eq_false_iff.2 fun hp => hpipe ⟨hv, hp⟩
        rw [readReturn_none hcur hnone, Option.some.injEq, Prod.mk.injEq] at hm
        exact absurd (Int.ofNat.inj hm.1) (Nat.ne_of_lt hpos)

theorem fdWrite_pipe (hv : k.vtableOf lfd = some .pipeVtable) (buff n : Nat) :
    k.fdWrite (driverVtables w true) lfd buff n = pipeWriteCall w (k.fdOf lfd) buff n k :=
  fdWrite_some (by rw [writeCallOf, hv]; rfl) buff n

theorem writeCallOf_some (h : k.writeCallOf (driverVtables w piped) lfd ≠ none) :
    k.vtableOf lfd = some .pipeVtable ∧ piped = true := by
  rw [writeCallOf] at h
  cases hv : k.vtableOf lfd with
  | none =>
    rw [hv] at h
    exact absurd rfl h
  | some ref =>
    rw [hv] at h
    cases ref with
    | initrdVtable => exact absurd rfl h
    | pipeVtable =>
      cases piped with
      | false => exact absurd rfl h
      | true => exact ⟨rfl, rfl⟩
    | other addr => exact absurd rfl h

theorem writeTrue_iff (hn : n < 2 ^ w) :
    k.WriteTrue w piped lfd buff n ↔ k.writeCallOf (driverVtables w piped) lfd ≠ none := by
  constructor
  · intro h hnone
    have hzero := h.unreached hnone
    rw [fdWrite_none hnone] at hzero
    exact absurd hzero (by simp)
  · intro hcall
    obtain ⟨hv, rfl⟩ := writeCallOf_some hcall
    refine ⟨fun m hpos hm => ?_, fun hnone => absurd hnone hcall⟩
    rw [fdWrite_pipe hv] at hm ⊢
    cases hpipe : k.dev.pipes.get (k.inodeOf lfd) with
    | none =>
      have hnone : k.pipeOf (k.fdOf lfd) = none := hpipe
      rw [pipeWriteCall, hnone] at hm
      exact absurd (Int.ofNat.inj hm) (Nat.ne_of_lt hpos)
    | some pipe =>
      have hsome : k.pipeOf (k.fdOf lfd) = some pipe := hpipe
      rw [pipeWriteCall, hsome] at hm ⊢
      dsimp only at hm ⊢
      obtain rfl := toSsize_eq hn hpos hm
      exact ⟨pipe, hv, rfl, le_refl _, by rw [writeBytes_eq]; rfl⟩

/-- The kernel before any call, with a file of the initrd. -/
def booted : Kernel Drivers where
  vfs := .boot
  procs := .boot
  mem := fun _ => 0x41#8
  dev := ⟨⟨(Hashtable.zeroed.add 0 1024).2⟩, .zeroed, fun _ => .empty 0#8⟩

theorem booted_boot : BootKernel booted := ⟨rfl, rfl⟩

def readable : Kernel Drivers := { booted with
  vfs := ((Vfs.boot.createInode .NORMAL_FILE).2.setVtable 0 (some .initrdVtable)).2
  procs := (Procs.boot.create default [] 0).2.setCurrent 1 }

def reading : Kernel Drivers := (readable.fdOpen (driverVtables 64 false) 0).2

theorem reading_reachable :
    Reachable BootKernel (KernelStep (driverVtables 64 false)) reading := by
  have hvfs := (Reachable.init booted_boot).step
    (KernelStep.vfs (V := driverVtables 64 false) _ readable.vfs rfl rfl)
  have hproc := (hvfs.step (.procs _ (.create default [] 0) rfl)).step (.setCurrent _ 1)
  exact hproc.step (.fdCall _ (.fdOpen 0))

theorem reading_vtable : reading.vtableOf 0 = some .initrdVtable := by decide +kernel

/-- The positive counts of `fd_read` are true exactly in a process, and those of `fd_write`
exactly where it reaches a write function. -/
theorem counts_true_iff (hw : 0 < w) (hn : n < 2 ^ w) :
    (k.ReadTrue w piped lfd buff n ↔ k.procs.cproc ≠ ID_INVALID) ∧
      (k.WriteTrue w piped lfd buff n ↔ k.writeCallOf (driverVtables w piped) lfd ≠ none) :=
  ⟨readTrue_iff hw hn, writeTrue_iff hn⟩

theorem counts_true_reading : reading.ReadTrue 64 false 0 5000 3 :=
  (counts_true_iff (by decide) (by decide)).1.2 (by decide)

/-- Without a process a read says that it read a byte, and a write to a file says that it wrote
one; both do nothing. -/
theorem counts_not_true :
    (Reachable BootKernel (KernelStep (driverVtables 64 false)) booted ∧
      booted.fdRead (driverVtables 64 false) 0 5000 3 = (1, booted) ∧
      booted.readCallOf (driverVtables 64 false) 0 = none ∧
      ¬ booted.ReadTrue 64 false 0 5000 3) ∧
    (Reachable BootKernel (KernelStep (driverVtables 64 false)) reading ∧
      reading.fdWrite (driverVtables 64 false) 0 5000 3 = (1, reading) ∧
      reading.writeCallOf (driverVtables 64 false) 0 = none ∧
      ¬ reading.WriteTrue 64 false 0 5000 3) := by
  have hread : booted.readCallOf (driverVtables 64 false) 0 = none := rfl
  have hwrite : reading.writeCallOf (driverVtables 64 false) 0 = none := by
    rw [writeCallOf, reading_vtable]
    rfl
  refine ⟨⟨.init booted_boot, fdRead_none hread 5000 3, hread, fun h => ?_⟩,
    reading_reachable, fdWrite_none hwrite 5000 3, hwrite, fun h => ?_⟩
  · exact (readTrue_iff (by decide) (by decide)).1 h rfl
  · exact (writeTrue_iff (by decide)).1 h hwrite

end Kernel
end Tupai
