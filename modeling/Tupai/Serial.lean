import Mathlib.Logic.Function.Basic
import Tupai.Str

namespace Tupai
set_option autoImplicit true

/-- Why a call does not return: it spins on a lock that it holds, or the CPU raises an exception. -/
inductive SerialFault where
  | relock
  | divideByZero
deriving DecidableEq

inductive SerialParity where
  | NONE
  | ODD
  | EVEN
  | MARK
  | SPACE
deriving DecidableEq

def SerialParity.toNat : SerialParity → Nat
  | NONE => 0
  | ODD => 1
  | EVEN => 2
  | MARK => 3
  | SPACE => 4

/-- The static variables of both layers, and the port accesses so far, the latest one first. -/
structure Serial where
  devLock : Nat
  devInitiated : Bool
  x86Lock : Nat
  x86Initiated : Bool
  portOpen : Int → Bool
  outs : List (BitVec 16 × Byte)
  ins : Nat

/-- What the code has no control over. -/
structure SerialEnv where
  /-- What the `n`-th `inb` gives at a port. -/
  inb : Nat → BitVec 16 → Byte
  /-- What `port_offsets` is read as beyond its end. -/
  beyond : Int → BitVec 16

/-- `spinlock_lock_impl`. With no one else to unlock it, a lock that is taken stays so. -/
def spinlockLock (val : Nat) : Except SerialFault Nat :=
  if val = 0 then .ok 1 else .error .relock

namespace Serial

def lockDev (s : Serial) : Except SerialFault Serial := do
  let val ← spinlockLock s.devLock
  return { s with devLock := val }

def unlockDev (s : Serial) : Serial := { s with devLock := 0 }

def lockX86 (s : Serial) : Except SerialFault Serial := do
  let val ← spinlockLock s.x86Lock
  return { s with x86Lock := val }

def unlockX86 (s : Serial) : Serial := { s with x86Lock := 0 }

def outb (port : BitVec 16) (value : Byte) (s : Serial) : Serial :=
  { s with outs := (port, value) :: s.outs }

def inb (env : SerialEnv) (port : BitVec 16) (s : Serial) : Byte × Serial :=
  (env.inb s.ins port, { s with ins := s.ins + 1 })

end Serial

def x86PortNames : List Chars :=
  [[0x43#8, 0x4F#8, 0x4D#8, 0x31#8], [0x43#8, 0x4F#8, 0x4D#8, 0x32#8],
    [0x43#8, 0x4F#8, 0x4D#8, 0x33#8], [0x43#8, 0x4F#8, 0x4D#8, 0x34#8]]

def portOffsets (env : SerialEnv) (portId : Int) : BitVec 16 :=
  if portId = 0 then 0x03F8#16
  else if portId = 1 then 0x02F8#16
  else if portId = 2 then 0x03E8#16
  else if portId = 3 then 0x02E8#16
  else env.beyond portId

def x86ParityValues : SerialParity → Byte
  | .NONE => 0b000000#8
  | .ODD => 0b001000#8
  | .EVEN => 0b011000#8
  | .MARK => 0b101000#8
  | .SPACE => 0b111000#8

def uartClockRate : BitVec 32 := 115200#32

def x86SerialInit (s : Serial) : Except SerialFault Serial := do
  let s ← s.lockX86
  return { s with x86Initiated := true }.unlockX86

def x86SerialCountPorts : Nat := 4

def x86SerialListPorts : List Chars := x86PortNames

/-- The part of `serial_open_port` that programs the port. -/
def x86Program (portId : Int) (portOffset : BitVec 16) (baudrate : BitVec 32)
    (databits stopbits : Byte) (parity : SerialParity) (s : Serial) :
    Except SerialFault Serial := do
  let s := s.outb (portOffset + 1) 0x00#8
  if baudrate = 0 then throw .divideByZero
  let divisor : BitVec 16 := (uartClockRate / baudrate).setWidth 16
  let s := s.outb (portOffset + 3) 0x80#8
  let s := s.outb (portOffset + 0) (((divisor >>> 0) &&& 0xFF#16).setWidth 8)
  let s := s.outb (portOffset + 1) (((divisor >>> 8) &&& 0xFF#16).setWidth 8)
  let databitsVal := databits - 5
  let stopbitsVal := (stopbits - 1) <<< 2
  let serialCfg := databitsVal ||| stopbitsVal ||| x86ParityValues parity
  let s := s.outb (portOffset + 3) serialCfg
  let s := s.outb (portOffset + 2) 0xC7#8
  let s := s.outb (portOffset + 4) 0x0B#8
  return { s with portOpen := Function.update s.portOpen portId true }

def x86SerialOpenPort (env : SerialEnv) (portId : Int) (baudrate : BitVec 32)
    (databits stopbits : Byte) (parity : SerialParity) (s : Serial) :
    Except SerialFault (Bool × Serial) := do
  let s ← s.lockX86
  if portId ≠ -1 ∧ s.portOpen portId = false then
    let portOffset := portOffsets env portId
    if databits < 5 ∨ databits > 8 then return (false, s.unlockX86)
    if stopbits < 1 ∨ stopbits > 2 then return (false, s.unlockX86)
    let s ← x86Program portId portOffset baudrate databits stopbits parity s
    return (true, s.unlockX86)
  return (true, s.unlockX86)

def x86SerialWrite (env : SerialEnv) (portId : Int) (c : Byte) (s : Serial) :
    Except SerialFault Serial := do
  if portId = -1 then return s
  let s ← s.lockX86
  let portOffset := portOffsets env portId
  -- The status only decides on a delay.
  let (_, s) := s.inb env (portOffset + 5)
  return (s.outb portOffset c).unlockX86

def x86SerialRead (env : SerialEnv) (portId : Int) (s : Serial) :
    Except SerialFault (Byte × Serial) := do
  if portId = -1 then return (0, s)
  let s ← s.lockX86
  let portOffset := portOffsets env portId
  let (status, s) := s.inb env (portOffset + 5)
  if status &&& 0x1#8 = 0 then
    let (val, s) := s.inb env portOffset
    return (val, s.unlockX86)
  return (0, s.unlockX86)

/-- The writes to the registers of the Raspberry Pi, the latest one first. -/
abbrev Mmio := List (BitVec 32 × BitVec 32)

def mmioWrite (reg data : BitVec 32) (m : Mmio) : Mmio := (reg, data) :: m

def GPIO_BASE : BitVec 32 := 0x3F000000#32 + 0x200000#32

def UART0_BASE : BitVec 32 := GPIO_BASE + 0x1000#32

def rpi2ParityValues : SerialParity → BitVec 32
  | .NONE => 0b000#32
  | .ODD => 0b010#32
  | .EVEN => 0b110#32
  | .MARK => 0#32
  | .SPACE => 0#32

def rpi2ClockRate : BitVec 32 := 3000000#32

/-- The delays between the writes are left out. -/
def rpi2SerialOpenPort (portId : Int) (baudrate : BitVec 32) (databits stopbits : Byte)
    (parity : SerialParity) (m : Mmio) : Except SerialFault (Bool × Mmio) := do
  if portId ≠ 0 then return (false, m)
  if databits < 5 ∨ databits > 8 then return (false, m)
  if stopbits < 1 ∨ stopbits > 2 then return (false, m)
  if parity.toNat > 2 then return (false, m)
  let m := mmioWrite (UART0_BASE + 0x30) 0 m
  let m := mmioWrite (GPIO_BASE + 0x94) 0 m
  let m := mmioWrite (GPIO_BASE + 0x98) ((1 <<< 14) ||| (1 <<< 15)) m
  let m := mmioWrite (GPIO_BASE + 0x98) 0 m
  let m := mmioWrite (UART0_BASE + 0x44) 0x7FF m
  if 16 * baudrate = 0 then throw .divideByZero
  let dividerx100 := (100 * rpi2ClockRate) / (16 * baudrate)
  let divider := dividerx100 / 100
  let m := mmioWrite (UART0_BASE + 0x24) divider m
  let fractional := (((dividerx100 % 100) * 64) + 50) / 100
  let m := mmioWrite (UART0_BASE + 0x28) fractional m
  let databitsVal := (databits.zeroExtend 32 - 5) <<< 5
  let stopbitsVal := (stopbits.zeroExtend 32 - 1) <<< 3
  let fifoVal := 1 <<< 4
  let m := mmioWrite (UART0_BASE + 0x2C)
    (databitsVal ||| stopbitsVal ||| rpi2ParityValues parity ||| fifoVal) m
  let m := mmioWrite (UART0_BASE + 0x38) ((1 <<< 1) ||| (1 <<< 4) ||| (1 <<< 5) ||| (1 <<< 6) |||
    (1 <<< 7) ||| (1 <<< 8) ||| (1 <<< 9) ||| (1 <<< 10)) m
  let m := mmioWrite (UART0_BASE + 0x30) ((1 <<< 0) ||| (1 <<< 8) ||| (1 <<< 9)) m
  return (true, m)

def devSerialInit (s : Serial) : Except SerialFault Serial := do
  let s ← s.lockDev
  if s.devInitiated = false then
    let s ← x86SerialInit s
    return { s with devInitiated := true }.unlockDev
  return s.unlockDev

def devSerialCountPorts (s : Serial) : Except SerialFault (Nat × Serial) := do
  let s ← s.lockDev
  return (x86SerialCountPorts, s.unlockDev)

def devSerialListPorts (s : Serial) : Except SerialFault (List Chars × Serial) := do
  let s ← s.lockDev
  return (x86SerialListPorts, s.unlockDev)

def searchPort (portNames : List Chars) (portCount : Nat) (port : Chars) : Int :=
  match (List.range portCount).find? fun i => strEqual (portNames.getD i []) port with
  | some i => i
  | none => -1

def devSerialOpenPort (env : SerialEnv) (port : Chars) (baudrate : BitVec 32)
    (databits stopbits : Byte) (parity : SerialParity) (s : Serial) :
    Except SerialFault (Int × Serial) := do
  let s ← s.lockDev
  let (portNames, s) ← devSerialListPorts s
  let (portCount, s) ← devSerialCountPorts s
  let portId := searchPort portNames portCount port
  if portId ≠ -1 then
    let (success, s) ← x86SerialOpenPort env portId baudrate databits stopbits parity s
    return (if success then portId else -1, s.unlockDev)
  return (-1, s.unlockDev)

def devSerialWrite (env : SerialEnv) (portId : Int) (val : Byte) (s : Serial) :
    Except SerialFault Serial := do
  let s ← s.lockDev
  if portId ≠ -1 then
    let s ← x86SerialWrite env portId val s
    return s.unlockDev
  return s.unlockDev

def devSerialRead (env : SerialEnv) (portId : Int) (s : Serial) :
    Except SerialFault (Byte × Serial) := do
  let s ← s.lockDev
  if portId ≠ -1 then
    let (val, s) ← x86SerialRead env portId s
    return (val, s.unlockDev)
  return (0, s.unlockDev)

end Tupai
