import Tupai.Basic

namespace Tupai
set_option autoImplicit true

/-- The clock chip: what the `n`-th read of the data port gives while a register is selected. -/
abbrev Rtc := Nat → Byte → Byte

def cmosCmd : Nat := 0x70

def currentYear : BitVec 16 := 2017#16

def centReg : Byte := 0x00#8

structure Datetime where
  year : BitVec 16 := 1970#16
  month : Byte := 1#8
  day : Byte := 1#8
  hour : Byte := 0#8
  min : Byte := 0#8
  sec : Byte := 0#8
deriving DecidableEq

/-- The ports of the chip: the register that is selected, and how often the data port was read. -/
structure Cmos where
  select : Byte
  reads : Nat

def Cmos.outb (s : Cmos) (port : Nat) (val : Byte) : Cmos :=
  if port = cmosCmd then { s with select := val } else s

/-- `inb(CMOS_DATA)` -/
def Cmos.inb (rtc : Rtc) (s : Cmos) : Byte × Cmos :=
  (rtc s.reads s.select, { s with reads := s.reads + 1 })

def cmosGetReg (rtc : Rtc) (reg : Byte) (s : Cmos) : Byte × Cmos := (s.outb cmosCmd reg).inb rtc

def cmosUpdating (rtc : Rtc) (s : Cmos) : Bool × Cmos :=
  let (val, s) := (s.outb cmosCmd 0x0A#8).inb rtc
  (decide ((val &&& 0x80#8) > 0#8), s)

/-- `while (cmos_updating());` -/
def cmosWait (rtc : Rtc) : (fuel : Nat) → Cmos → Option Cmos
  | 0, _ => none
  | fuel + 1, s =>
    let (updating, s) := cmosUpdating rtc s
    if updating then cmosWait rtc fuel s else some s

/-- The registers that each round of `cmos_read` reads. -/
def cmosReadRegs (rtc : Rtc) (cent : Byte) (s : Cmos) : Datetime × Byte × Cmos :=
  let (sec, s) := cmosGetReg rtc 0x00#8 s
  let (min, s) := cmosGetReg rtc 0x02#8 s
  let (hour, s) := cmosGetReg rtc 0x04#8 s
  let (day, s) := cmosGetReg rtc 0x07#8 s
  let (month, s) := cmosGetReg rtc 0x08#8 s
  let (year, s) := cmosGetReg rtc 0x09#8 s
  let (cent, s) := if centReg ≠ 0x00#8 then cmosGetReg rtc centReg s else (cent, s)
  (⟨year.zeroExtend 16, month, day, hour, min, sec⟩, cent, s)

/-- The loop of `cmos_read`. It has no meaning once `i` overflows. -/
def cmosLoop (rtc : Rtc) (lCent : Byte) : (fuel : Nat) → (i : Nat) → (time : Datetime) →
    (cent : Byte) → Cmos → Option (Datetime × Byte × Cmos)
  | 0, _, _, _, _ => none
  | fuel + 1, i, lTime, cent, s =>
    match cmosWait rtc fuel s with
    | none => none
    | some s =>
      let (time, cent, s) := cmosReadRegs rtc cent s
      if i ≥ intMax then none
      else if i + 1 ≤ 1 ∨ time ≠ lTime ∨ cent ≠ lCent then
        cmosLoop rtc lCent fuel (i + 1) time cent s
      else some (time, cent, s)

def bcdByte (val : Byte) : Byte := (val &&& 0x0F#8) + (val / 16#8) * 10#8

def bcdHour (hour : Byte) : Byte :=
  (hour &&& 0x0F#8) + ((((hour &&& 0x70#8) / 16#8) * 10#8) ||| (hour &&& 0x80#8))

def bcdYear (year : BitVec 16) : BitVec 16 :=
  (year &&& 0x0F#16) + (year.sdiv 16#16) * 10#16

/-- BCD to binary conversion if needed. -/
def cmosBinary (regb : Byte) (time : Datetime) : Datetime :=
  if regb &&& 0x04#8 = 0#8 then
    { sec := bcdByte time.sec, min := bcdByte time.min, hour := bcdHour time.hour,
      day := bcdByte time.day, month := bcdByte time.month, year := bcdYear time.year }
  else time

/-- 12-hour to 24-hour clock. -/
def cmosHour (regb hour : Byte) : Byte :=
  if regb &&& 0x02#8 = 0#8 ∧ hour &&& 0x80#8 ≠ 0#8 then ((hour &&& 0x7F#8) + 12#8) % 24#8 else hour

/-- Calculate year from known data. -/
def cmosYear (cent : Byte) (year : BitVec 16) : BitVec 16 :=
  if centReg ≠ 0x00#8 then year + cent.zeroExtend 16 * 100#16
  else
    let year := year + currentYear / 100#16 * 100#16
    if year.slt currentYear then year + 100#16 else year

def cmosConvert (regb cent : Byte) (time : Datetime) : Datetime :=
  let time := cmosBinary regb time
  { time with hour := cmosHour regb time.hour, year := cmosYear cent time.year }

def cmosRead (rtc : Rtc) (fuel : Nat) (s : Cmos) : Option Datetime :=
  match cmosLoop rtc 0#8 fuel 0 {} 0#8 s with
  | none => none
  | some (time, cent, s) => some (cmosConvert (cmosGetReg rtc 0x0B#8 s).1 cent time)

/-- With enough fuel, `cmos_read` returns this. -/
def Rtc.Returns (rtc : Rtc) (s : Cmos) (time : Datetime) : Prop :=
  ∃ bound, ∀ fuel ≥ bound, cmosRead rtc fuel s = some time

end Tupai
