import Tupai.Transfers

namespace Tupai
open Lib
set_option autoImplicit true

/-- A run of one pipe, with the bytes that the writes said they accepted and those that the reads
returned. -/
structure PipeRun where
  kernel : Kernel Drivers
  accepted : List Byte
  returned : List Byte

/-- The calls on a pipe. Between them the rest of the kernel does whatever it likes. -/
inductive PipeCall where
  | write (fd : Int) (buff n : Nat)
  | read (fd : Int) (rbuff n : Nat)
  | other (k : Kernel Drivers)

namespace PipeRun

/-- The descriptor is one of the pipe, and a read finds a byte in it. -/
def Allows (w pipe : Nat) (r : PipeRun) : PipeCall → Prop
  | .write fd _ n => r.kernel.pipeOf fd = some pipe ∧ n < 2 ^ w
  | .read fd _ _ => r.kernel.pipeOf fd = some pipe ∧ 0 < (r.kernel.dev.pipe pipe).len
  | .other k => k.dev.pipe pipe = r.kernel.dev.pipe pipe

def call (w : Nat) (r : PipeRun) : PipeCall → PipeRun
  | .write fd buff n =>
    let (m, k) := pipeWriteCall w fd buff n r.kernel
    { r with kernel := k, accepted := r.accepted ++ bytesAt w r.kernel.mem buff m.toNat }
  | .read fd rbuff n =>
    match pipeReadCall w fd rbuff n r.kernel with
    | some (m, k) => { r with kernel := k, returned := r.returned ++ bytesAt w k.mem rbuff m.toNat }
    | none => r
  | .other k => { r with kernel := k }

/-- The pipe has room for all bytes of a write. -/
def Fits (pipe : Nat) (r : PipeRun) : PipeCall → Prop
  | .write _ _ n => (r.kernel.dev.pipe pipe).len + n ≤ PIPE_SIZE
  | _ => True

/-- An empty pipe. Its items are not initialised. -/
def Start (pipe : Nat) (r : PipeRun) : Prop :=
  FreshQueue (r.kernel.dev.pipe pipe, r.accepted) ∧ r.returned = []

def Step (w pipe : Nat) (r r' : PipeRun) : Prop := ∃ c, r.Allows w pipe c ∧ r.call w c = r'

def FittingStep (w pipe : Nat) (r r' : PipeRun) : Prop :=
  ∃ c, r.Allows w pipe c ∧ r.Fits pipe c ∧ r.call w c = r'

/-- No accepted byte is lost, duplicated or reordered. -/
def Delivers (r : PipeRun) : Prop := r.returned <+: r.accepted

/-- The invariant: what was accepted and not yet returned is in the pipe. -/
def Sync (pipe : Nat) (r : PipeRun) : Prop :=
  ∃ l, (r.kernel.dev.pipe pipe).Refines PIPE_SIZE l ∧ r.accepted = r.returned ++ l

variable {r r' : PipeRun} {w pipe : Nat}

theorem Sync.start (h : r.Start pipe) : r.Sync pipe :=
  ⟨r.accepted, .fresh (by decide) h.1, by rw [h.2, List.nil_append]⟩

theorem pos_of_pipe (hw : PIPE_SIZE < 2 ^ (w - 1)) : 0 < w := by
  apply Nat.pos_of_ne_zero
  rintro rfl
  exact absurd hw (by decide)

theorem toSsize_of_le (hw : PIPE_SIZE < 2 ^ (w - 1)) (hn : n ≤ PIPE_SIZE) :
    toSsize w n = (n : Nat) := by
  have hpos : 0 < w := pos_of_pipe hw
  have hdouble : 2 ^ w = 2 * 2 ^ (w - 1) := by
    rw [← Nat.pow_succ', Nat.succ_eq_add_one, Nat.sub_add_cancel hpos]
  rw [toSsize, Int.bmod_def, hdouble, Int.emod_eq_of_lt (Int.natCast_nonneg n)]
  · split_ifs <;> omega
  · omega

theorem accepted_read (r : PipeRun) (w : Nat) (fd : Int) (rbuff n : Nat) :
    (r.call w (.read fd rbuff n)).accepted = r.accepted := by
  rw [call]
  cases pipeReadCall w fd rbuff n r.kernel <;> rfl

theorem pipeOf_write (r : PipeRun) (w : Nat) (fd : Int) (buff n : Nat) (fd' : Int) :
    (r.call w (.write fd buff n)).kernel.pipeOf fd' = r.kernel.pipeOf fd' := by
  rw [call, pipeWriteCall]
  cases r.kernel.pipeOf fd <;> rfl

theorem refines_write (hq : (r.kernel.dev.pipe pipe).Refines PIPE_SIZE l)
    (hfd : r.kernel.pipeOf fd = some pipe) (w buff n : Nat) :
    ((r.call w (.write fd buff n)).kernel.dev.pipe pipe).Refines PIPE_SIZE
      ((l ++ bytesAt w r.kernel.mem buff n).drop (l.length + n - PIPE_SIZE)) := by
  have hle : l.length ≤ PIPE_SIZE := hq.length ▸ hq.ok.length_le
  have hq' := hq.pushes (bytesAt w r.kernel.mem buff n)
  rw [foldl_pushBounded (by decide) hle, bytesAt, List.length_map, List.length_range] at hq'
  rw [call, pipeWriteCall, hfd]
  dsimp only
  rw [writeBytes_eq]
  change Queue.Refines _ (Function.update r.kernel.dev.pipe pipe _ pipe) _
  rw [Function.update_self]
  exact hq'

theorem refines_read (hq : (r.kernel.dev.pipe pipe).Refines PIPE_SIZE (b :: l)) (hw : 0 < w)
    (hfd : r.kernel.pipeOf fd = some pipe) (rbuff n : Nat) :
    ((r.call w (.read fd rbuff n)).kernel.dev.pipe pipe).Refines PIPE_SIZE l ∧
      (r.call w (.read fd rbuff n)).returned = r.returned ++ [b] := by
  have hne : 0 < (r.kernel.dev.pipe pipe).length := by
    rw [← hq.length]
    exact Nat.succ_pos _
  obtain ⟨hq', hhead⟩ := hq.pop (by decide) hne
  have hbyte := Kernel.store_terminator hw r.kernel.mem rbuff
    (readUnsafe (r.kernel.dev.pipe pipe)).1
  rw [call, Kernel.pipeReadCall_some hfd (show 0 < (r.kernel.dev.pipe pipe).len from hne)]
  dsimp only
  refine ⟨?_, ?_⟩
  · change Queue.Refines _ (Function.update r.kernel.dev.pipe pipe _ pipe) _
    rw [Function.update_self]
    exact hq'
  · rw [Int.toNat_one, bytesAt_succ, hbyte]
    exact congrArg (fun b => r.returned ++ [b]) (Option.some.inj hhead).symm

theorem Sync.write (h : r.Sync pipe) (hw : PIPE_SIZE < 2 ^ (w - 1))
    (hfd : r.kernel.pipeOf fd = some pipe)
    (hfits : (r.kernel.dev.pipe pipe).len + n ≤ PIPE_SIZE) (buff : Nat) :
    (r.call w (.write fd buff n)).Sync pipe := by
  obtain ⟨l, hq, hacc⟩ := h
  have hlen : l.length + n ≤ PIPE_SIZE := by
    rw [hq.length]
    exact hfits
  have hq' := refines_write hq hfd w buff n
  rw [Nat.sub_eq_zero_of_le hlen, List.drop_zero] at hq'
  refine ⟨l ++ bytesAt w r.kernel.mem buff n, hq', ?_⟩
  rw [call, pipeWriteCall, hfd]
  dsimp only
  rw [toSsize_of_le hw (by omega), Int.toNat_natCast, hacc, List.append_assoc]

theorem Sync.read (h : r.Sync pipe) (hw : 0 < w) (hfd : r.kernel.pipeOf fd = some pipe)
    (hne : 0 < (r.kernel.dev.pipe pipe).len) (rbuff n : Nat) :
    (r.call w (.read fd rbuff n)).Sync pipe := by
  obtain ⟨l, hq, hacc⟩ := h
  cases l with
  | nil => exact absurd hq.length.symm (Nat.ne_of_gt hne)
  | cons b l =>
    obtain ⟨hq', hret⟩ := refines_read hq hw hfd rbuff n
    refine ⟨l, hq', ?_⟩
    rw [accepted_read, hret, List.append_assoc]
    exact hacc

theorem Sync.step (h : r.Sync pipe) (hw : PIPE_SIZE < 2 ^ (w - 1))
    (ht : r.FittingStep w pipe r') : r'.Sync pipe := by
  obtain ⟨c, hallow, hfits, rfl⟩ := ht
  cases c with
  | write fd buff n => exact h.write hw hallow.1 hfits buff
  | read fd rbuff n => exact h.read (pos_of_pipe hw) hallow.1 hallow.2 rbuff n
  | other k =>
    obtain ⟨l, hq, hacc⟩ := h
    refine ⟨l, ?_, hacc⟩
    rw [call, hallow]
    exact hq

/-- As long as no write overfills it, a pipe delivers what it accepts. -/
theorem pipe_delivers (hw : PIPE_SIZE < 2 ^ (w - 1))
    (hr : Reachable (Start pipe) (FittingStep w pipe) r) : r.Delivers := by
  have hsync : r.Sync pipe := hr.invariant (fun _ => Sync.start) fun _ _ h ht => h.step hw ht
  obtain ⟨l, _, hacc⟩ := hsync
  exact ⟨l, hacc.symm⟩

/-- A write of one byte too many loses its own first byte. -/
theorem overfull (h : r.Start pipe) (hw : 0 < w) (hfd : r.kernel.pipeOf fd = some pipe)
    (hm : m = PIPE_SIZE + 1) (hcount : toSsize w m = (m : Nat))
    (hne : r.kernel.mem (wrap w buff) ≠ r.kernel.mem (wrap w (buff + 1))) (rbuff n : Nat) :
    0 < ((r.call w (.write fd buff m)).kernel.dev.pipe pipe).len ∧
      ¬ ((r.call w (.write fd buff m)).call w (.read fd rbuff n)).Delivers := by
  obtain ⟨hfresh, hret⟩ := h
  have hnil : r.accepted = [] := hfresh.2.2.2
  have hbytes : bytesAt w r.kernel.mem buff m =
      r.kernel.mem (wrap w buff) :: r.kernel.mem (wrap w (buff + 1)) ::
        bytesAt w r.kernel.mem (buff + 1 + 1) (PIPE_SIZE - 1) := by
    rw [hm, bytesAt_succ]
    exact congrArg _ (bytesAt_succ ..)
  have hq := refines_write (Queue.Refines.fresh (by decide) hfresh) hfd w buff m
  rw [hnil, List.nil_append, List.length_nil, Nat.zero_add, hm, Nat.add_sub_cancel_left,
    ← hm, hbytes, List.drop_one, List.tail_cons] at hq
  have hlen : 0 < ((r.call w (.write fd buff m)).kernel.dev.pipe pipe).length := by
    rw [← hq.length]
    exact Nat.succ_pos _
  refine ⟨hlen, fun hd => ?_⟩
  have hacc : ((r.call w (.write fd buff m)).call w (.read fd rbuff n)).accepted =
      bytesAt w r.kernel.mem buff m := by
    rw [accepted_read]
    change r.accepted ++ bytesAt w r.kernel.mem buff
      (pipeWriteCall w fd buff m r.kernel).1.toNat = _
    rw [hnil, List.nil_append, pipeWriteCall, hfd]
    dsimp only
    rw [hcount, Int.toNat_natCast]
  have hread := (refines_read hq hw ((pipeOf_write ..).trans hfd) rbuff n).2
  rw [Delivers, hread, hacc, hbytes] at hd
  change (r.returned ++ _) <+: _ at hd
  rw [hret, List.nil_append] at hd
  exact hne (List.cons_prefix_cons.1 hd).1.symm

/-- A descriptor of an empty pipe. Of the bytes from 5000 on only the first is not zero. -/
def piping : PipeRun where
  kernel := {
    vfs := (((Vfs.boot.createInode .PIPE).2.setVtable 0 (some .pipeVtable)).2.createFd 0).2
    procs := .boot
    mem := fun a => if a = 5000 then 1#8 else 0#8
    dev := ⟨⟨.zeroed⟩, (Hashtable.zeroed.add 0 64).2, fun _ => .empty 0#8⟩ }
  accepted := []
  returned := []

theorem piping_start : piping.Start 64 := ⟨⟨rfl, rfl, rfl, rfl⟩, rfl⟩

theorem piping_pipe : piping.kernel.pipeOf 0 = some 64 := by decide +kernel

/-- Three bytes are written, and one of them is read. -/
theorem pipe_delivers_piping :
    ((piping.call 64 (.write 0 5000 3)).call 64 (.read 0 9000 2)).Delivers := by
  have hpipe := (pipeOf_write piping 64 0 5000 3 0).trans piping_pipe
  have hbyte : 0 < ((piping.call 64 (.write 0 5000 3)).kernel.dev.pipe 64).len := by decide +kernel
  exact pipe_delivers (by decide) (((Reachable.init piping_start).step
    ⟨.write 0 5000 3, ⟨piping_pipe, by decide⟩, show 0 + 3 ≤ PIPE_SIZE by decide, rfl⟩).step
      ⟨.read 0 9000 2, ⟨hpipe, hbyte⟩, trivial, rfl⟩)

/-- A write of 4097 bytes is accepted, but the first byte that is read is the second of them. -/
theorem pipe_not_delivers : ∃ r, Reachable (Start 64) (Step 64 64) r ∧
    (pipeWriteCall 64 0 5000 4097 piping.kernel).1 = 4097 ∧
    r = (piping.call 64 (.write 0 5000 4097)).call 64 (.read 0 9000 1) ∧ ¬ r.Delivers := by
  have hcount : (pipeWriteCall 64 0 5000 4097 piping.kernel).1 = 4097 := by
    rw [pipeWriteCall, piping_pipe]
    rfl
  have hdiffer : piping.kernel.mem (wrap 64 5000) ≠ piping.kernel.mem (wrap 64 (5000 + 1)) := by
    decide
  obtain ⟨hlen, hlost⟩ := overfull piping_start (by decide : 0 < 64) piping_pipe rfl rfl hdiffer
    9000 1
  have hpipe := (pipeOf_write piping 64 0 5000 4097 0).trans piping_pipe
  exact ⟨_, ((Reachable.init piping_start).step
    ⟨.write 0 5000 4097, ⟨piping_pipe, by decide⟩, rfl⟩).step
      ⟨.read 0 9000 1, ⟨hpipe, hlen⟩, rfl⟩, hcount, rfl, hlost⟩

end PipeRun
end Tupai
