import Tupai.Archive

namespace Tupai
open Lib
set_option autoImplicit true

/-- A call of `fd_read` by a process. -/
structure FileRead where
  proc : Int
  lfd : Int
  rbuff : Nat
  n : Nat

namespace Kernel

def source (k : Kernel Devices) (r : FileRead) : Int := k.procs.getFd r.proc r.lfd

def read (w : Nat) (k : Kernel Devices) (r : FileRead) : Int × Kernel Devices :=
  { k with procs := k.procs.setCurrent r.proc }.fdRead (vtables w) r.lfd r.rbuff r.n

def readAll (w : Nat) (k : Kernel Devices) (reads : List FileRead) : Kernel Devices :=
  reads.foldl (fun k r => (k.read w r).2) k

def sizes (k : Kernel Devices) (fd : Int) (reads : List FileRead) : List Nat :=
  (reads.filter fun r => k.source r = fd).map FileRead.n

/-- The bytes that a read stores in front of its NUL. -/
def stored (w : Nat) (k : Kernel Devices) (r : FileRead) : List Byte :=
  (List.range (k.read w r).1.toNat).map fun j => (k.read w r).2.mem (r.rbuff + j)

def collected (w : Nat) (fd : Int) : (reads : List FileRead) → Kernel Devices → List Byte
  | [], _ => []
  | r :: reads, k =>
    (if k.source r = fd then k.stored w r else []) ++ collected w fd reads (k.read w r).2

end Kernel

/-- The offset in a file of this size after reads of `ns` bytes. -/
def offsetAfter (size offset : Nat) (ns : List Nat) : Nat :=
  ns.foldl (fun offset n => offset + min (n - 1) (size - offset)) offset

/-- The descriptor is open at an offset of an initrd file between `start` and `stop`. -/
structure Opened (start stop : Nat) (k : Kernel Devices) (fd : Int) (header : Nat) (e : TarEntry)
    (offset : Nat) : Prop where
  desc : ∃ d, k.vfs.fdTable.get fd = some d ∧ d.offset = offset ∧
    (k.vfs.getVtable d.inode).2 = some .initrdVtable ∧ k.dev.inodes.get d.inode = some header
  file : TarAt k.mem header e
  offset_le : offset ≤ e.data.length
  inside : start ≤ header ∧ header + e.extent ≤ stop

/-- A process reads from an initrd file into a buffer apart from all of them. -/
structure Readable (w start stop : Nat) (k : Kernel Devices) (r : FileRead) : Prop where
  proc : r.proc ≠ ID_INVALID
  buffer : BufferOk w start stop (r.rbuff, r.n)
  opened : ∃ header e offset, Opened start stop k (k.source r) header e offset

structure ReadsAt (w : Nat) (k : Kernel Devices) (r : FileRead) (data : List Byte) (offset : Nat) :
    Prop where
  count : (k.read w r).1 = (min (r.n - 1) (data.length - offset) : Nat)
  bytes : k.stored w r = (data.drop offset).take (r.n - 1)
  nul : (k.read w r).2.mem (r.rbuff + min (r.n - 1) (data.length - offset)) = 0#8

/-- Each read from the descriptor starts where the one before it ended, and together they give the
file as far as the sizes go. -/
structure ReadsInOrder (w : Nat) (k : Kernel Devices) (fd : Int) (data : List Byte)
    (reads : List FileRead) : Prop where
  each : ∀ before r after, reads = before ++ r :: after → k.source r = fd →
    ReadsAt w (k.readAll w before) r data (offsetAfter data.length 0 (k.sizes fd before))
  all : Kernel.collected w fd reads k = data.take ((k.sizes fd reads).map (· - 1)).sum

variable {k : Kernel Devices} {e : TarEntry} {r : FileRead}

/-- The offset goes up with the sizes, as far as the end of the file. -/
theorem offsetAfter_eq (hle : offset ≤ size) (ns : List Nat) :
    offsetAfter size offset ns = min size (offset + (ns.map (· - 1)).sum) := by
  induction ns generalizing offset with
  | nil => exact (Nat.min_eq_right hle).symm
  | cons n ns ih =>
    rw [offsetAfter, List.foldl_cons]
    have hstep : offset + min (n - 1) (size - offset) ≤ size := by omega
    have hrest := ih hstep
    rw [offsetAfter] at hrest
    rw [hrest, List.map_cons, List.sum_cons]
    omega

theorem Opened.read (h : Opened start stop k (k.source r) header e offset)
    (hproc : r.proc ≠ ID_INVALID) (hbuff : BufferOk w start stop (r.rbuff, r.n)) (hw : stop < 2 ^ w)
    (hm : m = min (r.n - 1) (e.data.length - offset)) :
    ∃ mem', k.read w r = ((m : Int), { k with
        procs := k.procs.setCurrent r.proc
        mem := mem'.store (r.rbuff + m) 0#8
        vfs := (k.vfs.setOffset (k.source r) (offset + m)).2 }) ∧
      Copied k.mem mem' (header + 512 + offset) r.rbuff m := by
  obtain ⟨hfit, hapart⟩ := hbuff
  obtain ⟨hstart, hstop⟩ := h.inside
  dsimp only at hfit hapart
  have hopen : FileOpen { k with procs := k.procs.setCurrent r.proc } r.lfd header offset :=
    ⟨hproc, h.desc⟩
  exact hopen.fdRead_eq h.file (by omega) h.offset_le ⟨hfit, by omega⟩ hm

theorem Opened.congr (h : Opened start stop k fd header e offset)
    (hdesc : ∃ d, k'.vfs.fdTable.get fd = some d ∧ d.offset = offset' ∧
      (k'.vfs.getVtable d.inode).2 = some .initrdVtable ∧ k'.dev.inodes.get d.inode = some header)
    (hmem : ∀ a, start ≤ a → a < stop → k'.mem a = k.mem a) (hle : offset' ≤ e.data.length) :
    Opened start stop k' fd header e offset' := by
  have hinside := h.inside
  exact ⟨hdesc, h.file.congr fun a _ _ => hmem a (by omega) (by omega), hle, hinside⟩

theorem Opened.moved (h : Opened start stop k (k.source r) header e offset)
    (hr : Readable w start stop k r) (hw : stop < 2 ^ w) :
    Opened start stop (k.read w r).2 (k.source r) header e
      (offset + min (r.n - 1) (e.data.length - offset)) := by
  obtain ⟨d, hd, _, hvtable, hfile⟩ := h.desc
  obtain ⟨mem', hread, hc⟩ := h.read hr.proc hr.buffer hw rfl
  have hbuff := hr.buffer.2
  have hle := h.offset_le
  dsimp only at hbuff
  rw [hread, setOffset_some hd]
  refine h.congr ⟨{ d with offset := _ }, ?_, rfl, hvtable, hfile⟩ ?_ (by omega)
  · dsimp only
    rw [Hashtable.get_modify, if_pos rfl, hd]
    rfl
  · exact fun a ha hlt => hc.store_frame (n := r.n) (by omega) 0#8 (by omega)

theorem Opened.kept (h : Opened start stop k fd header e offset) (hr : Readable w start stop k r)
    (hw : stop < 2 ^ w) (hne : fd ≠ k.source r) :
    Opened start stop (k.read w r).2 fd header e offset := by
  obtain ⟨header', e', offset', h'⟩ := hr.opened
  obtain ⟨d', hd', _⟩ := h'.desc
  obtain ⟨d, hd, hdoff, hvtable, hfile⟩ := h.desc
  obtain ⟨mem', hread, hc⟩ := h'.read hr.proc hr.buffer hw rfl
  have hbuff := hr.buffer.2
  dsimp only at hbuff
  rw [hread, setOffset_some hd']
  refine h.congr ⟨d, ?_, hdoff, hvtable, hfile⟩ ?_ h.offset_le
  · dsimp only
    rw [Hashtable.get_modify, if_neg hne, hd]
  · exact fun a ha hlt => hc.store_frame (n := r.n) (by omega) 0#8 (by omega)

theorem source_read (w : Nat) (k : Kernel Devices) (r r' : FileRead) :
    (k.read w r).2.source r' = k.source r' := by
  have hquiet := fdRead_quiet (vtables_tame w) { k with procs := k.procs.setCurrent r.proc }
    r.lfd r.rbuff r.n
  rw [Kernel.source, Kernel.read, hquiet.procs]
  rfl

theorem sizes_read (w : Nat) (k : Kernel Devices) (r : FileRead) (fd : Int)
    (reads : List FileRead) : (k.read w r).2.sizes fd reads = k.sizes fd reads := by
  rw [Kernel.sizes, Kernel.sizes]
  simp only [source_read]

theorem sizes_cons_same (h : k.source r = fd) (reads : List FileRead) :
    k.sizes fd (r :: reads) = r.n :: k.sizes fd reads := by
  rw [Kernel.sizes, List.filter_cons_of_pos (by simpa using h), List.map_cons, Kernel.sizes]

theorem sizes_cons_other (h : k.source r ≠ fd) (reads : List FileRead) :
    k.sizes fd (r :: reads) = k.sizes fd reads := by
  rw [Kernel.sizes, List.filter_cons_of_neg (by simpa using h), Kernel.sizes]

theorem Readable.kept (hr' : Readable w start stop k r') (hr : Readable w start stop k r)
    (hw : stop < 2 ^ w) : Readable w start stop (k.read w r).2 r' := by
  obtain ⟨header, e, offset, h⟩ := hr'.opened
  refine ⟨hr'.proc, hr'.buffer, ?_⟩
  rw [source_read]
  by_cases hfd : k.source r' = k.source r
  · rw [hfd] at h ⊢
    exact ⟨header, e, _, h.moved hr hw⟩
  · exact ⟨header, e, offset, h.kept hr hw hfd⟩

theorem Readable.rest (hreads : ∀ r' ∈ r :: reads, Readable w start stop k r')
    (hw : stop < 2 ^ w) : ∀ r' ∈ reads, Readable w start stop (k.read w r).2 r' := by
  obtain ⟨hr, hrest⟩ := List.forall_mem_cons.1 hreads
  exact fun r' hr' => (hrest r' hr').kept hr hw

theorem Opened.readAll (h : Opened start stop k fd header e offset)
    (hreads : ∀ r ∈ reads, Readable w start stop k r) (hw : stop < 2 ^ w) :
    Opened start stop (k.readAll w reads) fd header e
        (offsetAfter e.data.length offset (k.sizes fd reads)) ∧
      (∀ r, (k.readAll w reads).source r = k.source r) ∧
      ∀ r, Readable w start stop k r → Readable w start stop (k.readAll w reads) r := by
  induction reads generalizing k offset with
  | nil => exact ⟨h, fun _ => rfl, fun _ hr => hr⟩
  | cons r reads ih =>
    have hr := hreads r List.mem_cons_self
    have hreads' := Readable.rest hreads hw
    by_cases hfd : k.source r = fd
    · subst hfd
      obtain ⟨hopen, hsource, hread⟩ := ih (h.moved hr hw) hreads'
      rw [sizes_read] at hopen
      rw [sizes_cons_same rfl]
      exact ⟨hopen, fun r' => (hsource r').trans (source_read ..),
        fun r' hr' => hread r' (hr'.kept hr hw)⟩
    · obtain ⟨hopen, hsource, hread⟩ := ih (h.kept hr hw (Ne.symm hfd)) hreads'
      rw [sizes_read] at hopen
      rw [sizes_cons_other hfd]
      exact ⟨hopen, fun r' => (hsource r').trans (source_read ..),
        fun r' hr' => hread r' (hr'.kept hr hw)⟩

theorem Opened.readsAt (h : Opened start stop k (k.source r) header e offset)
    (hr : Readable w start stop k r) (hw : stop < 2 ^ w) : ReadsAt w k r e.data offset := by
  obtain ⟨mem', hread, hc⟩ := h.read hr.proc hr.buffer hw rfl
  refine ⟨by rw [hread], ?_, ?_⟩
  · rw [Kernel.stored, hread]
    dsimp only
    rw [Int.toNat_natCast]
    apply List.ext_getElem
    · simp
    · intro j hj _
      rw [List.length_map, List.length_range] at hj
      rw [List.getElem_map, List.getElem_range, List.getElem_take, List.getElem_drop,
        hc.store_copied hj, ← h.file.data (offset + j) (by omega), Nat.add_assoc]
  · rw [hread]
    exact Mem.store_same ..

theorem Opened.collected (h : Opened start stop k fd header e offset)
    (hreads : ∀ r ∈ reads, Readable w start stop k r) (hw : stop < 2 ^ w) :
    Kernel.collected w fd reads k =
      (e.data.drop offset).take ((k.sizes fd reads).map (· - 1)).sum := by
  induction reads generalizing k offset with
  | nil => rfl
  | cons r reads ih =>
    have hr := hreads r List.mem_cons_self
    have hreads' := Readable.rest hreads hw
    rw [Kernel.collected]
    by_cases hfd : k.source r = fd
    · subst hfd
      have hrest := ih (h.moved hr hw) hreads'
      rw [sizes_read] at hrest
      rw [if_pos rfl, (h.readsAt hr hw).bytes, hrest, sizes_cons_same rfl, List.map_cons,
        List.sum_cons, List.take_add, List.drop_drop]
      congr 1
      by_cases hend : r.n - 1 ≤ e.data.length - offset
      · rw [Nat.min_eq_left hend]
      · rw [List.drop_eq_nil_of_le (by omega), List.drop_eq_nil_of_le (by omega)]
    · have hrest := ih (h.kept hr hw (Ne.symm hfd)) hreads'
      rw [sizes_read] at hrest
      rw [if_neg hfd, List.nil_append, hrest, sizes_cons_other hfd]

/-- However the reads are split and interleaved, they give the file in order. -/
theorem Opened.readsInOrder (h : Opened start stop k fd header e 0)
    (hreads : ∀ r ∈ reads, Readable w start stop k r) (hw : stop < 2 ^ w) :
    ReadsInOrder w k fd e.data reads where
  each := by
    rintro before r after rfl rfl
    obtain ⟨hbefore, hafter⟩ := List.forall_mem_append.1 hreads
    obtain ⟨hopen, hsource, hread⟩ := h.readAll hbefore hw
    rw [← hsource r] at hopen
    have hat := hopen.readsAt (hread r (hafter r List.mem_cons_self)) hw
    rwa [hsource r] at hat
  all := h.collected hreads hw

/-- A process that opened the file of `fileThenDir` twice. -/
def twoReaders : Kernel Devices :=
  let k : Kernel Devices := { Kernel.initial with
    vfs := ((Vfs.boot.createInode .NORMAL_FILE).2.setVtable 0 (some .initrdVtable)).2
    procs := (Procs.boot.create default [] 0).2
    mem := fileThenDirMem
    dev := { Kernel.initial.dev with inodes := (Kernel.initial.dev.inodes.add 0 512).2 } }
  ((k.createFd 1 0).2.createFd 1 0).2

theorem createFd_mem (k : Kernel Devices) (this inode : Int) :
    (k.createFd this inode).2.mem = k.mem := by
  rw [Kernel.createFd]
  cases k.procs.procTable.get this <;> rfl

theorem twoReaders_opened (fd : Int) (hfd : (twoReaders.vfs.fdTable.get fd).map
    (fun d => (d.inode, d.offset)) = some (0, 0)) :
    Opened 512 2560 twoReaders fd 512 ⟨[0x64#8, SLASH, 0x66#8], 0x30#8, [0x68#8, 0x69#8]⟩ 0 := by
  obtain ⟨d, hd, he⟩ := Option.map_eq_some_iff.1 hfd
  obtain ⟨hinode, hoff⟩ := Prod.mk.inj he
  have hmem : twoReaders.mem = fileThenDirMem := by
    rw [twoReaders]
    dsimp only
    rw [createFd_mem, createFd_mem]
  obtain ⟨_, hat, _⟩ := fileThenDir_archive.placed List.mem_cons_self
  refine ⟨⟨d, hd, hoff, ?_, ?_⟩, by rwa [hmem], Nat.zero_le _, by decide⟩
  · rw [hinode]
    decide +kernel
  · rw [hinode]
    decide +kernel

theorem twoReaders_readable (hget : twoReaders.procs.getFd 1 lfd = fd)
    (hopen : Opened 512 2560 twoReaders fd header e offset)
    (hbuff : BufferOk 64 512 2560 (rbuff, n)) :
    Readable 64 512 2560 twoReaders ⟨1, lfd, rbuff, n⟩ := by
  have hproc : (1 : Int) ≠ ID_INVALID := by decide
  exact ⟨hproc, hbuff, header, e, offset, by rwa [Kernel.source, hget]⟩

theorem readsInOrder_twoReaders : ReadsInOrder 64 twoReaders 0 [0x68#8, 0x69#8]
    [⟨1, 0, 4096, 2⟩, ⟨1, 1, 8192, 8⟩, ⟨1, 0, 4096, 8⟩] := by
  have hzero := twoReaders_opened 0 (by decide +kernel)
  have hone := twoReaders_opened 1 (by decide +kernel)
  have hget₀ : twoReaders.procs.getFd 1 0 = 0 := by decide +kernel
  have hget₁ : twoReaders.procs.getFd 1 1 = 1 := by decide +kernel
  refine hzero.readsInOrder ?_ (by decide)
  simp only [List.forall_mem_cons]
  exact ⟨twoReaders_readable hget₀ hzero ⟨by decide, by decide⟩,
    twoReaders_readable hget₁ hone ⟨by decide, by decide⟩,
    twoReaders_readable hget₀ hzero ⟨by decide, by decide⟩, List.forall_mem_nil _⟩

end Tupai
