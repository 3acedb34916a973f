import Tupai.Stdio

namespace Tupai
set_option autoImplicit true

/-- The bytes at `dst` are those that were at `src`, and nothing else changed. -/
structure Copied (mem mem' : Mem) (src dst n : Nat) : Prop where
  copied : ∀ j < n, mem' (dst + j) = mem (src + j)
  frame : ∀ a, a < dst ∨ dst + n ≤ a → mem' a = mem a

variable {mem mem' : Mem} {e : TarEntry} {k : Kernel Devices}

theorem Copied.refl (mem : Mem) (src dst : Nat) : Copied mem mem src dst 0 :=
  ⟨fun _ hj => absurd hj (Nat.not_lt_zero _), fun _ _ => rfl⟩

theorem Copied.cons (h : Copied (mem.store dst (mem src)) mem' (src + 1) (dst + 1) n)
    (hapart : dst < src ∨ src + n < dst) : Copied mem mem' src dst (n + 1) where
  copied := by
    intro j hj
    cases j with
    | zero =>
      rw [Nat.add_zero, Nat.add_zero, h.frame dst (.inl (Nat.lt_succ_self dst)), Mem.store_same]
    | succ j =>
      have hc := h.copied j (by omega)
      rw [Mem.store_other _ _ (by omega)] at hc
      rw [show dst + (j + 1) = dst + 1 + j by omega, hc]
      congr 1
      omega
  frame := by
    intro a ha
    rw [h.frame a (by omega), Mem.store_other _ _ (by omega)]

/-- The NUL behind the copied bytes leaves them alone. -/
theorem Copied.store_copied (h : Copied mem mem' src dst n) (hj : j < n) (b : Byte) :
    mem'.store (dst + n) b (dst + j) = mem (src + j) :=
  (Mem.store_other _ _ (by omega)).trans (h.copied j hj)

theorem Copied.store_frame (h : Copied mem mem' src dst m) (hm : m ≤ n - 1) (b : Byte)
    (ha : a < dst ∨ dst + max n 1 ≤ a) : mem'.store (dst + m) b a = mem a :=
  (Mem.store_other _ _ (by omega)).trans (h.frame a (by omega))

/-- The loop copies up to the end of the buffer or of the file. -/
theorem copyData_spec (mem : Mem) (offset i left : Nat) (hoff : offset ≤ filesize)
    (hsrc : data + filesize ≤ 2 ^ w)
    (hdst : rbuff + i + left ≤ 2 ^ w)
    (hapart : rbuff + i + left ≤ data ∨ data + filesize ≤ rbuff + i) :
    ∃ mem', copyData w data filesize rbuff left mem offset i =
        (mem', offset + min left (filesize - offset), i + min left (filesize - offset)) ∧
      Copied mem mem' (data + offset) (rbuff + i) (min left (filesize - offset)) := by
  induction left generalizing mem offset i with
  | zero =>
    rw [Nat.zero_min]
    exact ⟨mem, rfl, .refl ..⟩
  | succ left ih =>
    rw [copyData]
    by_cases hlt : offset < filesize
    · obtain ⟨mem', he, hc⟩ := ih (mem.store (rbuff + i) (mem (data + offset))) (offset + 1)
        (i + 1) hlt (by omega) (by omega)
      have hmin : min (left + 1) (filesize - offset) = min left (filesize - (offset + 1)) + 1 := by
        omega
      refine ⟨mem', ?_, ?_⟩
      · rw [if_pos hlt, wrap_of_lt (by omega), wrap_of_lt (by omega), he, hmin]
        congr 2 <;> omega
      · rw [hmin]
        exact hc.cons (by omega)
    · rw [if_neg hlt, show min (left + 1) (filesize - offset) = 0 by omega]
      exact ⟨mem, rfl, .refl ..⟩

theorem TarAt.congr (h : TarAt mem header e)
    (hmem : ∀ a, header ≤ a → a < header + e.extent → mem' a = mem a) : TarAt mem' header e := by
  have hext : e.extent = 512 + 512 * ((e.data.length + 511) / 512) := rfl
  obtain ⟨hlen₁, hlen₂⟩ := h.nameLen
  obtain ⟨digits, hlen, hd, hs, hend, hval⟩ := h.size
  have hfield : TAR_SIZE = 124 := rfl
  refine ⟨fun i hi => ?_, ?_, h.nameChars, h.nameLen,
    ⟨digits, hlen, hd, fun i hi => ?_, fun hlt => ?_, hval⟩, ?_, fun i hi => ?_⟩
  · rw [hmem _ (by omega) (by omega)]
    exact h.name i hi
  · rw [hmem _ (by omega) (by omega)]
    exact h.nameEnd
  · rw [hmem _ (by omega) (by omega)]
    exact hs i hi
  · rw [hmem _ (by omega) (by omega)]
    exact hend hlt
  · rw [TAR_TYPEFLAG, hmem _ (by omega) (by omega)]
    exact h.typeflag
  · rw [hmem _ (by omega) (by omega)]
    exact h.data i hi

/-- A buffer for a read lies in memory, and apart from the bytes from `start` up to `stop`. A read
of no bytes still stores a NUL. -/
def BufferOk (w start stop : Nat) (read : Nat × Nat) : Prop :=
  read.1 + max read.2 1 ≤ 2 ^ w ∧ (read.1 + max read.2 1 ≤ start ∨ stop ≤ read.1)

/-- The local descriptor of the current process is open at an offset of an initrd file. -/
structure FileOpen (k : Kernel Devices) (lfd : Int) (header offset : Nat) : Prop where
  current : k.procs.cproc ≠ ID_INVALID
  desc : ∃ d, k.vfs.fdTable.get (k.procs.getFd k.procs.cproc lfd) = some d ∧ d.offset = offset ∧
    (k.vfs.getVtable d.inode).2 = some .initrdVtable ∧ k.dev.inodes.get d.inode = some header

/-- What one read does: it delivers bytes from the offset on and moves the offset behind them. -/
structure ReadStep (k k' : Kernel Devices) (lfd : Int) (header rbuff n offset m : Nat) : Prop where
  opened : FileOpen k' lfd header (offset + m)
  copied : ∀ j < m, k'.mem (rbuff + j) = k.mem (header + 512 + offset + j)
  frame : ∀ a, a < rbuff ∨ rbuff + max n 1 ≤ a → k'.mem a = k.mem a

theorem setOffset_some {v : Vfs} (h : v.fdTable.get fd = some d) (offset : Nat) :
    (v.setOffset fd offset).2 =
      { v with fdTable := v.fdTable.modify fd fun d => { d with offset := offset } } := by
  rw [Vfs.setOffset, h]

theorem FileOpen.fdRead_eq (h : FileOpen k lfd header offset) (he : TarAt k.mem header e)
    (hw : header + e.extent < 2 ^ w) (hoff : offset ≤ e.data.length)
    (hbuff : BufferOk w header (header + e.extent) (rbuff, n))
    (hm : m = min (n - 1) (e.data.length - offset)) :
    ∃ mem', k.fdRead (vtables w) lfd rbuff n = ((m : Int), { k with
        mem := mem'.store (rbuff + m) 0#8
        vfs := (k.vfs.setOffset (k.procs.getFd k.procs.cproc lfd) (offset + m)).2 }) ∧
      Copied k.mem mem' (header + 512 + offset) rbuff m := by
  obtain ⟨d, hd, hdoff, hvtable, hfile⟩ := h.desc
  obtain ⟨hfit, hapart⟩ := hbuff
  dsimp only at hfit hapart
  have hext : e.extent = 512 + 512 * ((e.data.length + 511) / 512) := rfl
  have hinode : k.vfs.fdGetInode (k.procs.getFd k.procs.cproc lfd) = d.inode := by
    rw [Vfs.fdGetInode, hd]
  have hoffset : k.vfs.getOffset (k.procs.getFd k.procs.cproc lfd) = offset := by
    rw [Vfs.getOffset, hd]
    exact hdoff
  have hsrc : header + 512 + e.data.length ≤ 2 ^ w := by omega
  have hdst : rbuff + 0 + (n - 1) ≤ 2 ^ w := by omega
  obtain ⟨mem', hcopy, hc⟩ := copyData_spec k.mem offset 0 (n - 1) hoff hsrc hdst (by omega)
  have hread : k.fdRead (vtables w) lfd rbuff n =
      initrdReadCall w (k.procs.getFd k.procs.cproc lfd) rbuff n k := by
    rw [Kernel.fdRead, Procs.getCurrent, if_neg h.current]
    dsimp only
    rw [hinode, hvtable]
    rfl
  rw [← hm, Nat.zero_add] at hcopy
  rw [← hm] at hc
  refine ⟨mem', ?_, hc⟩
  rw [hread, initrdReadCall, hinode, hfile]
  dsimp only
  rw [he.tarSize hw, hoffset, tarData, wrap_of_lt (by omega), hcopy]
  dsimp only
  rw [wrap_of_lt (by omega)]

theorem FileOpen.fdRead (h : FileOpen k lfd header offset) (he : TarAt k.mem header e)
    (hw : header + e.extent < 2 ^ w) (hoff : offset ≤ e.data.length)
    (hbuff : BufferOk w header (header + e.extent) (rbuff, n)) :
    (k.fdRead (vtables w) lfd rbuff n).1 = (min (n - 1) (e.data.length - offset) : Nat) ∧
      ReadStep k (k.fdRead (vtables w) lfd rbuff n).2 lfd header rbuff n offset
        (min (n - 1) (e.data.length - offset)) := by
  obtain ⟨d, hd, _, hvtable, hfile⟩ := h.desc
  obtain ⟨mem', hread, hc⟩ := h.fdRead_eq he hw hoff hbuff rfl
  rw [hread]
  generalize hm : min (n - 1) (e.data.length - offset) = m at hc ⊢
  rw [setOffset_some hd]
  refine ⟨rfl, ⟨h.current, { d with offset := offset + m }, ?_, rfl, hvtable, hfile⟩, ?_, ?_⟩
  · dsimp only
    rw [Hashtable.get_modify, if_pos rfl, hd]
    rfl
  · exact fun j hj => hc.store_copied hj 0#8
  · exact fun a ha => hc.store_frame (by omega) 0#8 ha

namespace Kernel

/-- The bytes that reads of one descriptor deliver, each into its buffer. -/
def fdReads (w : Nat) (lfd : Int) : (reads : List (Nat × Nat)) → Kernel Devices → List Byte
  | [], _ => []
  | (rbuff, n) :: reads, k =>
    let (m, k) := k.fdRead (vtables w) lfd rbuff n
    (List.range m.toNat).map (fun j => k.mem (rbuff + j)) ++ fdReads w lfd reads k

end Kernel

/-- How many bytes the buffers have room for, each with its NUL. -/
def capacity (reads : List (Nat × Nat)) : Nat := (reads.map fun read => read.2 - 1).sum

theorem ReadStep.delivered (h : ReadStep k k' lfd header rbuff n offset m)
    (he : TarAt k.mem header e) (hm : m = min c (e.data.length - offset)) :
    (List.range m).map (fun j => k'.mem (rbuff + j)) = (e.data.drop offset).take c := by
  apply List.ext_getElem
  · simp [hm]
  · intro j hj _
    rw [List.length_map, List.length_range] at hj
    rw [List.getElem_map, List.getElem_range, List.getElem_take, List.getElem_drop,
      h.copied j hj, ← he.data (offset + j) (by omega), Nat.add_assoc]

/-- Reads deliver the bytes of the file in order, as far as the buffers go. -/
theorem FileOpen.fdReads (h : FileOpen k lfd header offset) (he : TarAt k.mem header e)
    (hw : header + e.extent < 2 ^ w) (hoff : offset ≤ e.data.length) (reads : List (Nat × Nat))
    (hbuff : ∀ read ∈ reads, BufferOk w header (header + e.extent) read) :
    Kernel.fdReads w lfd reads k = (e.data.drop offset).take (capacity reads) := by
  induction reads generalizing k offset with
  | nil => rfl
  | cons read reads ih =>
    obtain ⟨rbuff, n⟩ := read
    obtain ⟨hfirst, hrest⟩ := List.forall_mem_cons.1 hbuff
    obtain ⟨hret, hstep⟩ := h.fdRead he hw hoff hfirst
    have he' : TarAt (k.fdRead (vtables w) lfd rbuff n).2.mem header e := by
      apply he.congr
      intro a ha ha'
      have := hfirst.2
      dsimp only at this
      exact hstep.frame a (by omega)
    rw [Kernel.fdReads]
    dsimp only
    have hcap : capacity ((rbuff, n) :: reads) = n - 1 + capacity reads := by
      simp only [capacity, List.map_cons, List.sum_cons]
    rw [hret, Int.toNat_natCast, hstep.delivered he rfl, ih hstep.opened he' (by omega) hrest,
      hcap, List.take_add, List.drop_drop]
    congr 1
    by_cases hend : n - 1 ≤ e.data.length - offset
    · rw [Nat.min_eq_left hend]
    · rw [List.drop_eq_nil_of_le (by omega), List.drop_eq_nil_of_le (by omega)]

/-- The current process has room for a descriptor, and so has the kernel. -/
structure CanOpen (k : Kernel Devices) : Prop where
  ok : KernelOk k
  current : k.procs.cproc ≠ ID_INVALID
  room : k.vfs.fdTable.size < HASHTABLE_CAPACITY
  proc : ∃ proc, k.procs.procTable.get k.procs.cproc = some proc ∧
    proc.fds.get proc.lfdCounter = none ∧ proc.fds.freeSlot proc.lfdCounter ≠ none

theorem CanOpen.fdOpen (h : CanOpen k) (w : Nat) (hinode : inode ≠ ID_INVALID)
    (hvtable : (k.vfs.getVtable inode).2 = some .initrdVtable)
    (hfile : k.dev.inodes.get inode = some header) :
    (k.fdOpen (vtables w) inode).1 ≠ ID_INVALID ∧
      FileOpen (k.fdOpen (vtables w) inode).2 (k.fdOpen (vtables w) inode).1 header 0 ∧
      (k.fdOpen (vtables w) inode).2.mem = k.mem := by
  obtain ⟨proc, hproc, hnew, hslot⟩ := h.proc
  have hopen : k.fdOpen (vtables w) inode = k.createFd k.procs.cproc inode := by
    have hcall : initrdOpenCall inode k = (0, k) := by rw [initrdOpenCall, if_neg hinode]
    rw [Kernel.fdOpen, hvtable]
    dsimp only [vtables, initrdVtable]
    rw [hcall]
    rfl
  obtain ⟨hret, hc, _⟩ := createFd_spec hproc h.ok.fdOk h.ok.fresh h.room hnew hslot inode
  have hpos := h.ok.procs.lfds.get hproc
  have hlfd : proc.lfdCounter ≠ ID_INVALID := by
    rw [ID_INVALID]
    omega
  rw [hopen, hret]
  refine
    ⟨hlfd, ⟨by rw [hc.cproc]; exact h.current, ⟨k.vfs.fdCounter, inode, 0⟩, ?_, rfl, ?_, ?_⟩, ?_⟩
  · have hfd : (k.createFd k.procs.cproc inode).2.procs.getFd k.procs.cproc proc.lfdCounter =
        k.vfs.fdCounter := by
      rw [getFd_eq _ _ hlfd]
      have hdesc := hc.descriptor (k.procs.cproc, proc.lfdCounter)
      rw [if_pos rfl] at hdesc
      exact congrArg (Option.getD · ID_INVALID) hdesc
    rw [hc.cproc, hfd, hc.fdTable, if_pos rfl]
  · dsimp only
    rw [Vfs.getVtable, hc.inodeTable]
    exact hvtable
  · rw [createFd_some hproc]
    exact hfile
  · rw [createFd_some hproc]

end Tupai
