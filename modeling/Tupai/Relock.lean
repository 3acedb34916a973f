import Tupai.Serial

namespace Tupai
set_option autoImplicit true

inductive SerialCall where
  | init
  | countPorts
  | listPorts
  | openPort (port : Chars) (baudrate : BitVec 32) (databits stopbits : Byte)
      (parity : SerialParity)
  | write (portId : Int) (val : Byte)
  | read (portId : Int)

def SerialCall.IsOpenPort : SerialCall → Prop
  | openPort .. => True
  | _ => False

/-- The state that a call leaves, if it returns. -/
def SerialCall.run (env : SerialEnv) (call : SerialCall) (s : Serial) : Except SerialFault Serial :=
  match call with
  | init => devSerialInit s
  | countPorts => (devSerialCountPorts s).map Prod.snd
  | listPorts => (devSerialListPorts s).map Prod.snd
  | openPort port baudrate databits stopbits parity =>
    (devSerialOpenPort env port baudrate databits stopbits parity s).map Prod.snd
  | write portId val => devSerialWrite env portId val s
  | read portId => (devSerialRead env portId s).map Prod.snd

structure Serial.Free (s : Serial) : Prop where
  dev : s.devLock = 0
  x86 : s.x86Lock = 0

/-- Every call returns, and leaves both spinlocks free. -/
def ReturnsFree (env : SerialEnv) : (s : Serial) → (calls : List SerialCall) → Prop
  | _, [] => True
  | s, call :: calls => ∃ s', call.run env s = .ok s' ∧ s'.Free ∧ ReturnsFree env s' calls

variable {s : Serial} {env : SerialEnv}

namespace Serial

theorem lockDev_free (h : s.devLock = 0) : s.lockDev = .ok { s with devLock := 1 } := by
  rw [lockDev, spinlockLock, if_pos h]
  rfl

theorem lockDev_taken (h : s.devLock ≠ 0) : s.lockDev = .error .relock := by
  rw [lockDev, spinlockLock, if_neg h]
  rfl

theorem lockX86_free (h : s.x86Lock = 0) : s.lockX86 = .ok { s with x86Lock := 1 } := by
  rw [lockX86, spinlockLock, if_pos h]
  rfl

end Serial

theorem ok_bind (x : α) (f : α → Except SerialFault β) : (Except.ok x >>= f) = f x := rfl

/-- The lower layer takes and releases its own lock only. -/
structure KeepsLocks (s s' : Serial) : Prop where
  dev : s'.devLock = s.devLock
  x86 : s'.x86Lock = 0

theorem x86SerialInit_keeps (h : s.x86Lock = 0) :
    ∃ s', x86SerialInit s = .ok s' ∧ KeepsLocks s s' := by
  rw [x86SerialInit, Serial.lockX86_free h]
  exact ⟨_, rfl, rfl, rfl⟩

theorem x86SerialWrite_keeps (env : SerialEnv) (h : Serial.x86Lock s = 0) (portId : Int)
    (c : Byte) :
    ∃ s', x86SerialWrite env portId c s = .ok s' ∧ KeepsLocks s s' := by
  rw [x86SerialWrite]
  split_ifs with hid
  · exact ⟨s, rfl, rfl, h⟩
  · rw [Serial.lockX86_free h]
    exact ⟨_, rfl, rfl, rfl⟩

theorem x86SerialRead_keeps (env : SerialEnv) (h : Serial.x86Lock s = 0) (portId : Int) :
    ∃ val s', x86SerialRead env portId s = .ok (val, s') ∧ KeepsLocks s s' := by
  rw [x86SerialRead]
  split_ifs with hid
  · exact ⟨0, s, rfl, rfl, h⟩
  · rw [Serial.lockX86_free h, ok_bind]
    dsimp only
    split_ifs with hready
    · exact ⟨_, _, rfl, rfl, rfl⟩
    · exact ⟨_, _, rfl, rfl, rfl⟩

/-- The lower layer is called with the upper lock taken, which is released after it. -/
theorem KeepsLocks.free (h : KeepsLocks s s') : s'.unlockDev.Free := ⟨rfl, h.x86⟩

theorem SerialCall.run_free (env : SerialEnv) (h : s.Free) (call : SerialCall)
    (hcall : ¬ call.IsOpenPort) :
    ∃ s', call.run env s = .ok s' ∧ s'.Free := by
  have hlocked : Serial.x86Lock { s with devLock := 1 } = 0 := h.x86
  cases call with
  | init =>
    rw [run, devSerialInit, Serial.lockDev_free h.dev, ok_bind]
    dsimp only
    split_ifs with hinit
    · obtain ⟨s', he, hs'⟩ := x86SerialInit_keeps hlocked
      rw [he, ok_bind]
      exact ⟨_, rfl, rfl, hs'.x86⟩
    · exact ⟨_, rfl, rfl, h.x86⟩
  | countPorts =>
    rw [run, devSerialCountPorts, Serial.lockDev_free h.dev]
    exact ⟨_, rfl, rfl, h.x86⟩
  | listPorts =>
    rw [run, devSerialListPorts, Serial.lockDev_free h.dev]
    exact ⟨_, rfl, rfl, h.x86⟩
  | openPort => exact absurd trivial hcall
  | write portId val =>
    rw [run, devSerialWrite, Serial.lockDev_free h.dev, ok_bind]
    split_ifs with hid
    · obtain ⟨s', he, hs'⟩ := x86SerialWrite_keeps env hlocked portId val
      rw [he]
      exact ⟨_, rfl, hs'.free⟩
    · exact ⟨_, rfl, rfl, h.x86⟩
  | read portId =>
    rw [run, devSerialRead, Serial.lockDev_free h.dev, ok_bind]
    split_ifs with hid
    · obtain ⟨val, s', he, hs'⟩ := x86SerialRead_keeps env hlocked portId
      rw [he]
      exact ⟨_, rfl, hs'.free⟩
    · exact ⟨_, rfl, rfl, h.x86⟩

/-- `serial_open_port` takes the lock, and then calls a function that takes it again. -/
theorem devSerialOpenPort_relocks (h : s.devLock = 0) (port : Chars) (baudrate : BitVec 32)
    (databits stopbits : Byte) (parity : SerialParity) :
    devSerialOpenPort env port baudrate databits stopbits parity s = .error .relock := by
  have htaken : ({ s with devLock := 1 } : Serial).lockDev = .error .relock :=
    Serial.lockDev_taken Nat.one_ne_zero
  rw [devSerialOpenPort, Serial.lockDev_free h, ok_bind, devSerialListPorts, htaken]
  rfl

/-- No lock is taken twice, as long as no port is opened. -/
theorem returnsFree_iff (env : SerialEnv) (hfree : s.Free) (calls : List SerialCall) :
    ReturnsFree env s calls ↔ ∀ call ∈ calls, ¬ call.IsOpenPort := by
  induction calls generalizing s with
  | nil => exact iff_of_true trivial (List.forall_mem_nil _)
  | cons call calls ih =>
    rw [List.forall_mem_cons]
    constructor
    · rintro ⟨s', hrun, hfree', hrest⟩
      refine ⟨fun hopen => ?_, (ih hfree').1 hrest⟩
      cases call with
      | openPort port baudrate databits stopbits parity =>
        rw [SerialCall.run, devSerialOpenPort_relocks hfree.dev] at hrun
        cases hrun
      | init => exact hopen
      | countPorts => exact hopen
      | listPorts => exact hopen
      | write => exact hopen
      | read => exact hopen
    · rintro ⟨hcall, hrest⟩
      obtain ⟨s', hrun, hfree'⟩ := call.run_free env hfree hcall
      exact ⟨s', hrun, hfree', (ih hfree').2 hrest⟩

def bootSerial : Serial := ⟨0, false, 0, false, fun _ => false, [], 0⟩

def quietEnv : SerialEnv := ⟨fun _ _ => 0#8, fun _ => 0#16⟩

theorem returnsFree_write : ReturnsFree quietEnv bootSerial [.init, .write 0 0x61#8] :=
  (returnsFree_iff quietEnv ⟨rfl, rfl⟩ _).2 (by
    rintro call hmem hopen
    rcases List.mem_cons.1 hmem with rfl | hmem
    · exact hopen
    · rw [List.mem_singleton] at hmem
      subst hmem
      exact hopen)

theorem not_returnsFree_open : ¬ ∀ (env : SerialEnv) (s : Serial) (calls : List SerialCall),
    s.Free → ReturnsFree env s calls := by
  intro h
  obtain ⟨s', hrun, -⟩ := h quietEnv bootSerial
    [.openPort [0x43#8, 0x4F#8, 0x4D#8, 0x31#8] 57600 8 1 .NONE] ⟨rfl, rfl⟩
  rw [SerialCall.run, devSerialOpenPort_relocks rfl] at hrun
  cases hrun

end Tupai
