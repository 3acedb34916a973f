import Tupai.Mounts

namespace Tupai
open Lib
set_option autoImplicit true

namespace Kernel

variable (V : Vtables δ) (w : Nat)

/-- The result is `n`, with what the READ system call stored in it. -/
def fread (k : Kernel δ) (ptr size count stream : Nat) : Nat × Kernel δ :=
  let (rn, k) := k.fdRead V (streamFd w stream) ptr (wrap w (size * count))
  (toSize w rn, k)

/-- The loop of the `cat` command, and what it prints. -/
def catLoop (buff f : Nat) : (fuel : Nat) → Kernel δ → Option (Chars × Kernel δ)
  | 0, _ => none
  | fuel + 1, k =>
    let (n, k) := k.fread V w buff 1 2 f
    if n > 0 then (catLoop buff f fuel k).map fun r => (k.mem buff :: r.1, r.2) else some ([], k)

end Kernel

/-- The path leads to an initrd file with these data, within the archive. -/
structure HasFile (w start stop : Nat) (k : Kernel Devices) (path : Chars) (data : List Byte) :
    Prop where
  valid : k.vfs.getInode path ≠ ID_INVALID
  vtable : (k.vfs.getVtable (k.vfs.getInode path)).2 = some .initrdVtable
  file : ∃ header e, k.dev.inodes.get (k.vfs.getInode path) = some header ∧ e.data = data ∧
    TarAt k.mem header e ∧ start ≤ header ∧ header + e.extent + 512 ≤ stop
  stop_le : stop ≤ 2 ^ w

/-- The current process can open `left` more files, if it closes each one before the next. -/
structure CatReady (w left : Nat) (k : Kernel Devices) : Prop where
  ok : KernelOk k
  current : k.procs.cproc ≠ ID_INVALID
  counter : 0 ≤ k.vfs.fdCounter
  room : k.vfs.fdTable.size < HASHTABLE_CAPACITY
  proc : ∃ proc, k.procs.procTable.get k.procs.cproc = some proc ∧
    proc.fds.Numbered proc.lfdCounter ∧ proc.fds.size < HASHTABLE_CAPACITY ∧
    proc.lfdCounter + left < 2 ^ (w - 1)

/-- What reads of one descriptor into a buffer leave alone. -/
structure OnlyRead (fd : Int) (buff : Nat) (k k' : Kernel Devices) : Prop where
  ok : KernelOk k → KernelOk k'
  procs : k'.procs = k.procs
  dev : k'.dev = k.dev
  inodeTable : k'.vfs.inodeTable = k.vfs.inodeTable
  vfsRoot : k'.vfs.vfsRoot = k.vfs.vfsRoot
  fdCounter : k'.vfs.fdCounter = k.vfs.fdCounter
  others : ∀ g ≠ fd, k'.vfs.fdTable.get g = k.vfs.fdTable.get g
  size : k'.vfs.fdTable.size = k.vfs.fdTable.size
  mem : ∀ a, a < buff ∨ buff + 2 ≤ a → k'.mem a = k.mem a

variable {k k' : Kernel Devices} {e : TarEntry} {w : Nat}

theorem OnlyRead.trans (h : OnlyRead fd buff k k') (h' : OnlyRead fd buff k' k'') :
    OnlyRead fd buff k k'' where
  ok := fun hk => h'.ok (h.ok hk)
  procs := h'.procs.trans h.procs
  dev := h'.dev.trans h.dev
  inodeTable := h'.inodeTable.trans h.inodeTable
  vfsRoot := h'.vfsRoot.trans h.vfsRoot
  fdCounter := h'.fdCounter.trans h.fdCounter
  others := fun g hg => (h'.others g hg).trans (h.others g hg)
  size := h'.size.trans h.size
  mem := fun a ha => (h'.mem a ha).trans (h.mem a ha)

theorem FileOpen.onlyRead (h : FileOpen k lfd header offset) (he : TarAt k.mem header e)
    (hw : header + e.extent < 2 ^ w) (hoff : offset ≤ e.data.length)
    (hbuff : BufferOk w header (header + e.extent) (buff, 2)) :
    OnlyRead (k.procs.getFd k.procs.cproc lfd) buff k (k.fdRead (vtables w) lfd buff 2).2 := by
  obtain ⟨d, hd, _⟩ := h.desc
  obtain ⟨mem', hread, hc⟩ := h.fdRead_eq he hw hoff hbuff rfl
  have hquiet := fdRead_quiet (vtables_tame w) k lfd buff 2
  rw [hread, setOffset_some hd] at hquiet ⊢
  refine ⟨fun hk => hk.quiet hquiet, rfl, rfl, rfl, rfl, rfl, fun g hg => ?_,
    Hashtable.size_modify .., fun a ha => ?_⟩
  · dsimp only
    rw [Hashtable.get_modify, if_neg hg]
  · exact hc.store_frame (Nat.min_le_left ..) 0#8 ha

theorem toId_of_lt {n : Nat} (h : n < 2 ^ 63) : toId n = n :=
  Int.bmod_eq_of_le (by omega) (by omega)

/-- The stream of a descriptor leads back to it. -/
theorem streamFd_toSize (hw : 0 < w) (hle : w ≤ 64) (h0 : 0 ≤ lfd) (hlfd : lfd + 1 < 2 ^ (w - 1)) :
    streamFd w (toSize w (lfd + 1)) = lfd := by
  obtain ⟨m, rfl⟩ := Int.eq_ofNat_of_zero_le h0
  have hm : m + 1 < 2 ^ (w - 1) := by exact_mod_cast hlfd
  have hwide : 2 ^ (w - 1) < 2 ^ w := Nat.pow_lt_pow_right Nat.one_lt_two (by omega)
  have hword : 2 ^ (w - 1) ≤ 2 ^ 63 := Nat.pow_le_pow_right Nat.two_pos (by omega)
  have hstream : toSize w ((m : Int) + 1) = m + 1 := toSize_of_lt (n := m + 1) (by omega)
  have hfd : toId (m + 1) - 1 = m := by
    rw [toId_of_lt (by omega)]
    omega
  rw [streamFd, hstream, hfd, toSize_of_lt (by omega), toId_of_lt (by omega)]

theorem FileOpen.fread (h : FileOpen k lfd header offset) (he : TarAt k.mem header e)
    (hw : header + e.extent < 2 ^ w) (hw' : 2 ≤ w) (hoff : offset ≤ e.data.length)
    (hbuff : BufferOk w header (header + e.extent) (buff, 2)) (hf : streamFd w f = lfd) :
    k.fread (vtables w) w buff 1 2 f =
      (min 1 (e.data.length - offset), (k.fdRead (vtables w) lfd buff 2).2) := by
  have hpow : 2 ^ 2 ≤ 2 ^ w := Nat.pow_le_pow_right Nat.two_pos hw'
  have hn : wrap w (1 * 2) = 2 := wrap_of_lt (by omega)
  have hcount : toSize w ((min 1 (e.data.length - offset) : Nat) : Int) =
      min 1 (e.data.length - offset) := toSize_of_lt (by omega)
  rw [Kernel.fread, hf, hn]
  dsimp only
  rw [(h.fdRead he hw hoff hbuff).1, hcount]

/-- The loop prints the rest of the file. -/
theorem FileOpen.catLoop (h : FileOpen k lfd header offset) (he : TarAt k.mem header e)
    (hw : header + e.extent < 2 ^ w) (hw' : 2 ≤ w) (hoff : offset ≤ e.data.length)
    (hbuff : BufferOk w header (header + e.extent) (buff, 2)) (hf : streamFd w f = lfd)
    (hfuel : e.data.length - offset < fuel) :
    ∃ k', k.catLoop (vtables w) w buff f fuel = some (e.data.drop offset, k') ∧
      FileOpen k' lfd header e.data.length ∧
      OnlyRead (k.procs.getFd k.procs.cproc lfd) buff k k' := by
  induction fuel generalizing k offset with
  | zero => exact absurd hfuel (Nat.not_lt_zero _)
  | succ fuel ih =>
    have hread := h.fread he hw hw' hoff hbuff hf
    obtain ⟨-, hstep⟩ := h.fdRead he hw hoff hbuff
    have honly := h.onlyRead he hw hoff hbuff
    generalize (k.fdRead (vtables w) lfd buff 2).2 = k₁ at hread hstep honly
    rw [Kernel.catLoop, hread]
    dsimp only
    have hmem : TarAt k₁.mem header e := by
      apply he.congr
      intro a ha ha'
      have := hbuff.2
      dsimp only at this
      exact honly.mem a (by omega)
    by_cases hend : offset < e.data.length
    · rw [if_pos (by omega)]
      have hopened := hstep.opened
      rw [show min (2 - 1) (e.data.length - offset) = 1 by omega] at hopened
      obtain ⟨k', hloop, hopen', honly'⟩ := ih hopened hmem (by omega) (by omega)
      have hbyte : k₁.mem buff = e.data[offset] := by
        have hcopied := hstep.copied 0 (by omega)
        rw [Nat.add_zero, Nat.add_zero] at hcopied
        rw [hcopied]
        exact he.data offset hend
      refine ⟨k', ?_, hopen', ?_⟩
      · rw [hloop, Option.map_some, hbyte, ← List.drop_eq_getElem_cons hend]
      · rw [honly.procs] at honly'
        exact honly.trans honly'
    · rw [if_neg (by omega)]
      refine ⟨k₁, ?_, ?_, honly⟩
      · rw [List.drop_eq_nil_of_le (by omega)]
      · have hopened := hstep.opened
        rwa [show offset + min (2 - 1) (e.data.length - offset) = e.data.length by omega] at hopened

/-- What a `cat` leaves: the process can go on, the descriptors and the archive are as before. -/
structure CatDone (w left start stop buff : Nat) (k k' : Kernel Devices) : Prop where
  ready : CatReady w left k'
  still : StillMounted start stop k k'
  descriptor : k'.descriptor = k.descriptor
  fdTable : ∀ g, k'.vfs.fdTable.get g = k.vfs.fdTable.get g
  mem : ∀ a, a < buff ∨ buff + 2 ≤ a → k'.mem a = k.mem a

theorem initrd_fdOpen (hinode : inode ≠ ID_INVALID)
    (hvtable : (k.vfs.getVtable inode).2 = some .initrdVtable) :
    k.fdOpen (vtables w) inode = k.createFd k.procs.cproc inode := by
  have hcall : initrdOpenCall inode k = (0, k) := by rw [initrdOpenCall, if_neg hinode]
  rw [Kernel.fdOpen, hvtable]
  dsimp only [vtables, initrdVtable]
  rw [hcall]
  rfl

theorem FileOpen.fdClose (h : FileOpen k lfd header offset)
    (hfd : k.procs.getFd k.procs.cproc lfd ≠ ID_INVALID) :
    k.fdClose (vtables w) lfd =
      (0, k.dropFd k.procs.cproc lfd (k.procs.getFd k.procs.cproc lfd)) := by
  obtain ⟨d, hd, -, hvtable, -⟩ := h.desc
  have hinode : k.vfs.fdGetInode (k.procs.getFd k.procs.cproc lfd) = d.inode := by
    rw [Vfs.fdGetInode, hd]
  rw [Kernel.fdClose, Procs.getCurrent, if_neg h.current]
  dsimp only
  rw [hinode, hvtable]
  dsimp only [vtables, initrdVtable]
  rw [initrdCloseCall, if_neg hfd]
  rfl

/-- A descriptor of a file that is just opened. -/
structure JustOpened (w left : Nat) (k k' : Kernel Devices) (lfd : Int) (header : Nat) : Prop where
  ok : KernelOk k'
  opened : FileOpen k' lfd header 0
  created : ∃ inode, CreatedFd k k' k.procs.cproc lfd inode
  fresh : lfd ≠ ID_INVALID ∧ k.descriptor (k.procs.cproc, lfd) = none
  stream : streamFd w (toSize w (lfd + 1)) = lfd
  same : k'.mem = k.mem ∧ k'.dev = k.dev ∧ k'.vfs.vfsRoot = k.vfs.vfsRoot
  size : k'.vfs.fdTable.size = k.vfs.fdTable.size + 1
  proc : ∃ proc, k'.procs.procTable.get k.procs.cproc = some proc ∧
    proc.fds.Numbered proc.lfdCounter ∧ proc.fds.size ≤ HASHTABLE_CAPACITY ∧
    proc.fds.get lfd ≠ none ∧ proc.lfdCounter + left < 2 ^ (w - 1)

theorem CatReady.fopen (h : CatReady w (left + 1) k) (hw : 0 < w) (hle : w ≤ 64)
    (hvalid : k.vfs.getInode path ≠ ID_INVALID)
    (hvtable : (k.vfs.getVtable (k.vfs.getInode path)).2 = some .initrdVtable)
    (hfile : k.dev.inodes.get (k.vfs.getInode path) = some header) :
    ∃ lfd k', k.fopen (vtables w) w path = (toSize w (lfd + 1), k') ∧
      JustOpened w left k k' lfd header := by
  obtain ⟨proc, hproc, hnum, hsize, hlfd⟩ := h.proc
  have hslot : proc.fds.freeSlot proc.lfdCounter ≠ none := fun he =>
    Nat.ne_of_lt hsize (hnum.ok.freeSlot_none_iff.1 he)
  have hcan : CanOpen k := ⟨h.ok, h.current, h.room, proc, hproc, hnum.fresh, hslot⟩
  obtain ⟨-, hopened, hmem⟩ := hcan.fdOpen w hvalid hvtable hfile
  obtain ⟨hret, hcreated, htable⟩ := createFd_spec hproc h.ok.fdOk h.ok.fresh h.room hnum.fresh
    hslot (k.vfs.getInode path)
  have hadd := h.ok.fdOk.add_spec h.ok.fresh h.room ⟨k.vfs.fdCounter, k.vfs.getInode path, 0⟩
  have hopen : k.syscallOpen (vtables w) path =
      (proc.lfdCounter, (k.createFd k.procs.cproc (k.vfs.getInode path)).2) := by
    rw [syscallOpen_resolved _ hvalid, initrd_fdOpen hvalid hvtable, ← hret]
  have hpos := hnum.pos
  refine ⟨proc.lfdCounter, (k.createFd k.procs.cproc (k.vfs.getInode path)).2, ?_, ?_⟩
  · rw [Kernel.fopen, hopen]
    exact if_neg (by omega)
  · rw [initrd_fdOpen hvalid hvtable, hret] at hopened
    rw [initrd_fdOpen hvalid hvtable] at hmem
    refine ⟨h.ok.createFd _ _, hopened, ⟨_, hcreated⟩, ⟨?_, ?_⟩, ?_, ⟨hmem, ?_, ?_⟩, ?_, ?_⟩
    · rw [ID_INVALID]
      omega
    · rw [Kernel.descriptor, hproc]
      exact hnum.fresh
    · exact streamFd_toSize hw hle hpos (by omega)
    · rw [createFd_some hproc]
    · rw [createFd_some hproc]
      rfl
    · rw [createFd_some hproc]
      exact hadd.2.1
    · have hfds := hnum.ok.add_spec hnum.fresh hsize k.vfs.fdCounter
      refine ⟨_, (htable _).trans (if_pos rfl), hnum.add _, ?_, ?_, ?_⟩
      · exact Nat.le_trans (Nat.le_of_eq hfds.2.1) hsize
      · dsimp only
        rw [hfds.2.2, if_pos rfl]
        exact Option.some_ne_none _
      · dsimp only
        omega

/-- Closing the descriptor undoes what opening it did. -/
theorem JustOpened.closed (h : JustOpened w left k k₁ lfd header) (hcounter : 0 ≤ k.vfs.fdCounter)
    (honly : OnlyRead (k₁.procs.getFd k₁.procs.cproc lfd) buff k₁ k₂)
    (hopen : FileOpen k₂ lfd header offset) (hroom : k.vfs.fdTable.size < HASHTABLE_CAPACITY)
    (hmem : ∀ a, start ≤ a → a < stop → a < buff ∨ buff + 2 ≤ a) :
    CatDone w left start stop buff k (k₂.fclose (vtables w) w (toSize w (lfd + 1))).2 := by
  obtain ⟨inode, hcreated⟩ := h.created
  obtain ⟨hlfd, hunused⟩ := h.fresh
  obtain ⟨hmem₁, hdev₁, hroot₁⟩ := h.same
  obtain ⟨proc, hproc, hnum, hsize, hused, hleft⟩ := h.proc
  have hfd : k₁.procs.getFd k.procs.cproc lfd = k.vfs.fdCounter := by
    have hname := hcreated.descriptor (k.procs.cproc, lfd)
    rw [if_pos rfl] at hname
    rw [getFd_eq _ _ hlfd]
    exact congrArg (Option.getD · ID_INVALID) hname
  rw [hcreated.cproc, hfd] at honly
  have hcproc : k₂.procs.cproc = k.procs.cproc := by rw [honly.procs, hcreated.cproc]
  have hfd₂ : k₂.procs.getFd k.procs.cproc lfd = k.vfs.fdCounter := by rw [honly.procs, hfd]
  have hproc₂ : k₂.procs.procTable.get k.procs.cproc = some proc := by rw [honly.procs, hproc]
  have hclose : k₂.fdClose (vtables w) lfd =
      (0, k₂.dropFd k.procs.cproc lfd k.vfs.fdCounter) := by
    have hvalid : k₂.procs.getFd k₂.procs.cproc lfd ≠ ID_INVALID := by
      rw [hcproc, hfd₂, ID_INVALID]
      omega
    rw [hopen.fdClose hvalid, hcproc, hfd₂]
  have hok : KernelOk (k₂.dropFd k.procs.cproc lfd k.vfs.fdCounter) := by
    have hcall := (honly.ok h.ok).fdCall (vtables_tame w) (.fdClose lfd)
    rwa [Kernel.fdCall, hclose] at hcall
  have hlive : k₂.vfs.fdTable.get k.vfs.fdCounter ≠ none := by
    obtain ⟨d, hd, -⟩ := hopen.desc
    rw [hcproc, hfd₂] at hd
    rw [hd]
    exact Option.some_ne_none d
  have hfdOk := (honly.ok h.ok).fdOk
  have hdropped : (k₂.dropFd k.procs.cproc lfd k.vfs.fdCounter).procs.cproc = k.procs.cproc := by
    rw [Kernel.dropFd, Procs.deleteFd, hproc₂]
    exact hcproc
  rw [Kernel.fclose, h.stream, hclose]
  dsimp only
  refine ⟨⟨hok, ?_, ?_, ?_, ?_⟩, ⟨?_, ?_, ?_, fun a ha ha' => ?_⟩, ?_, fun g => ?_, fun a ha => ?_⟩
  · rw [hdropped, ← hcproc]
    exact hopen.current
  · change 0 ≤ k₂.vfs.fdCounter
    rw [honly.fdCounter, hcreated.fdCounter]
    omega
  · have hsize₂ := (hfdOk.remove_spec hlive).2.1
    rw [honly.size, h.size] at hsize₂
    change (k₂.vfs.fdTable.remove k.vfs.fdCounter).2.size < HASHTABLE_CAPACITY
    omega
  · have hfds := hnum.ok.remove_spec hused
    refine ⟨{ proc with fds := (proc.fds.remove lfd).2 }, ?_, hnum.remove lfd, ?_, hleft⟩
    · rw [hdropped, dropFd_procTable hproc₂, if_pos rfl]
    · have := hfds.2.1
      dsimp only
      omega
  · exact honly.inodeTable.trans hcreated.inodeTable
  · exact honly.vfsRoot.trans hroot₁
  · exact honly.dev.trans hdev₁
  · exact (honly.mem a (hmem a ha ha')).trans (congrFun hmem₁ a)
  · funext name
    rw [dropFd_descriptor hproc₂ hnum.ok]
    split_ifs with hname
    · rw [hname, hunused]
    · have hkept := hcreated.descriptor name
      rw [if_neg hname] at hkept
      rw [← hkept, Kernel.descriptor, honly.procs, Kernel.descriptor]
  · rw [dropFd_fdTable hfdOk]
    split_ifs with hg
    · rw [hg, hcreated.fresh]
    · rw [honly.others g hg, hcreated.fdTable, if_neg hg]
  · exact (honly.mem a ha).trans (congrFun hmem₁ a)

theorem HasFile.still (h : HasFile w start stop k path data) (hs : StillMounted start stop k k') :
    HasFile w start stop k' path data := by
  obtain ⟨header, e, hheader, hdata, he, hstart, hstop⟩ := h.file
  have hvtable : k'.vfs.getVtable (k.vfs.getInode path) =
      k.vfs.getVtable (k.vfs.getInode path) := by
    rw [Vfs.getVtable, hs.inodeTable, Vfs.getVtable]
  refine ⟨?_, ?_, ⟨header, e, ?_, hdata, ?_, hstart, hstop⟩, h.stop_le⟩
  · rw [hs.getInode]
    exact h.valid
  · rw [hs.getInode, hvtable]
    exact h.vtable
  · rw [hs.getInode, hs.files]
    exact hheader
  · exact he.congr fun a ha ha' => hs.mem a (by omega) (by omega)

theorem StillMounted.trans (h : StillMounted start stop k k')
    (h' : StillMounted start stop k' k'') : StillMounted start stop k k'' where
  inodeTable := h'.inodeTable.trans h.inodeTable
  vfsRoot := h'.vfsRoot.trans h.vfsRoot
  files := h'.files.trans h.files
  mem := fun a ha ha' => (h'.mem a ha ha').trans (h.mem a ha ha')

theorem CatDone.refl (h : CatReady w left k) (start stop buff : Nat) :
    CatDone w left start stop buff k k :=
  ⟨h, ⟨rfl, rfl, rfl, fun _ _ _ => rfl⟩, rfl, fun _ => rfl, fun _ _ => rfl⟩

theorem CatDone.trans (h : CatDone w left start stop buff k k')
    (h' : CatDone w left' start stop buff k' k'') : CatDone w left' start stop buff k k'' where
  ready := h'.ready
  still := h.still.trans h'.still
  descriptor := h'.descriptor.trans h.descriptor
  fdTable := fun g => (h'.fdTable g).trans (h.fdTable g)
  mem := fun a ha => (h'.mem a ha).trans (h.mem a ha)

theorem Mounted.hasFile {t : PathTree Chars Node} (h : Mounted k t)
    (hn : t (elements path) = some n) (hfile : n.header = some header) (he : TarAt k.mem header e)
    (hstart : start ≤ header) (hstop : header + e.extent + 512 ≤ stop) (hw : stop ≤ 2 ^ w) :
    HasFile w start stop k path e.data := by
  obtain ⟨inode, hget, _, hvtable, hheader, _⟩ := h.node _ n hn
  have hid := (h.getType hn).1
  refine ⟨?_, ?_, ⟨header, e, ?_, rfl, he, hstart, hstop⟩, hw⟩
  · rw [hid]
    exact h.id_valid hn
  · rw [hid, Vfs.getVtable, hget]
    exact hvtable.trans (by rw [hfile]; rfl)
  · rw [hid, hheader, hfile]

/-- The regular files of an archive are there with their contents. -/
theorem Mounted.hasFiles {t : PathTree Chars Node} {done : List (Nat × TarEntry)}
    (h : Mounted k t) (ha : Archive k.mem start es stop) (hw : stop ≤ 2 ^ w)
    (hpop : PathTree.Populated IsInner (done.map entryLeaf) t)
    (hdone : ∀ d, d ∈ done ↔ d ∈ placed start es) (he : e ∈ es) (hflag : e.typeflag = 0x30#8)
    (hpath : elements path = elements e.name) : HasFile w start stop k path e.data := by
  obtain ⟨header, hd⟩ := placed_onto start he
  obtain ⟨_, hat, hstart, hstop⟩ := ha.placed hd
  obtain ⟨n, hn, hentry⟩ := hpop.leaf _ (List.mem_map_of_mem ((hdone _).2 hd))
  have hn' : t (elements path) = some n := by
    rw [hpath]
    exact hn
  have hfile : n.header = some header := by
    have hheader := hentry.2
    dsimp only at hheader
    rw [hheader, hflag]
    rfl
  exact h.hasFile hn' hfile hat hstart hstop hw

/-- The file is a regular one of the archive, and the path is its name. -/
def NamesFile (es : List TarEntry) (file : Chars × TarEntry) : Prop :=
  file.2 ∈ es ∧ file.2.typeflag = 0x30#8 ∧ elements file.1 = elements file.2.name

end Tupai
