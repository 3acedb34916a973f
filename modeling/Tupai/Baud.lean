import Tupai.Relock

namespace Tupai
set_option autoImplicit true

/-- The divisor latch of a port, behind the bit of its line control register that opens it. -/
structure Latch where
  dlab : Bool
  lo : Byte
  hi : Byte

/-- What a write does to the divisor latch of the port at `base`. -/
def Latch.outb (base : BitVec 16) (l : Latch) (out : BitVec 16 × Byte) : Latch :=
  if out.1 = base + 3 then { l with dlab := out.2.msb }
  else if out.1 = base + 0 ∧ l.dlab = true then { l with lo := out.2 }
  else if out.1 = base + 1 ∧ l.dlab = true then { l with hi := out.2 }
  else l

def Latch.after (base : BitVec 16) (l : Latch) (outs : List (BitVec 16 × Byte)) : Latch :=
  outs.foldr (fun out l => l.outb base out) l

def Latch.divisor (l : Latch) : BitVec 16 := l.hi ++ l.lo

/-- The parameters that both drivers check. -/
def Framed (databits stopbits : Byte) : Prop :=
  (5 ≤ databits.toNat ∧ databits.toNat ≤ 8) ∧ (1 ≤ stopbits.toNat ∧ stopbits.toNat ≤ 2)

/-- A 16-bit divisor gives this rate. -/
def HasDivisor (baudrate : BitVec 32) : Prop :=
  baudrate ≠ 0 ∧ 0 < 115200 / baudrate.toNat ∧ 115200 / baudrate.toNat < 2 ^ 16

/-- The driver for x86 programs the divisor for the rate, or leaves the port alone. -/
def X86Safe (env : SerialEnv) (portId : Int) (baudrate : BitVec 32) (databits stopbits : Byte)
    (parity : SerialParity) (s : Serial) : Prop :=
  ∃ success s', x86SerialOpenPort env portId baudrate databits stopbits parity s =
    .ok (success, s') ∧
    (success = true → ∀ l : Latch,
      let divisor := (l.after (portOffsets env portId) s'.outs).divisor.toNat
      divisor = 115200 / baudrate.toNat ∧ divisor ≠ 0) ∧
    (¬ (Framed databits stopbits ∧ HasDivisor baudrate) → success = false ∧ s'.outs = s.outs)

/-- The driver for the Raspberry Pi does not divide by zero. -/
def Rpi2Safe (baudrate : BitVec 32) (databits stopbits : Byte) (parity : SerialParity)
    (m : Mmio) : Prop :=
  ∃ success m', rpi2SerialOpenPort 0 baudrate databits stopbits parity m = .ok (success, m')

variable {env : SerialEnv} {s : Serial} {baudrate : BitVec 32} {databits stopbits : Byte}
  {parity : SerialParity}

theorem framed_iff : Framed databits stopbits ↔
    ¬ (databits < 5 ∨ databits > 8) ∧ ¬ (stopbits < 1 ∨ stopbits > 2) := by
  rw [Framed, not_or, not_or, gt_iff_lt, gt_iff_lt, BitVec.not_lt, BitVec.not_lt, BitVec.not_lt,
    BitVec.not_lt]
  rfl

theorem hasDivisor_iff : HasDivisor baudrate ↔ 2 ≤ baudrate.toNat ∧ baudrate.toNat ≤ 115200 := by
  have hzero : baudrate = 0 ↔ baudrate.toNat = 0 := BitVec.toNat_inj.symm
  rw [HasDivisor, Ne, hzero]
  constructor
  · rintro ⟨hpos, hlo, hhi⟩
    have hpos := Nat.pos_of_ne_zero hpos
    rw [Nat.div_lt_iff_lt_mul hpos] at hhi
    exact ⟨by omega, (Nat.div_pos_iff.1 hlo).2⟩
  · rintro ⟨hlo, hhi⟩
    have hpos : 0 < baudrate.toNat := by omega
    refine ⟨Nat.ne_of_gt hpos, Nat.div_pos hhi hpos, ?_⟩
    rw [Nat.div_lt_iff_lt_mul hpos]
    omega

theorem toNat_divisor (baudrate : BitVec 32) :
    ((uartClockRate / baudrate).setWidth 16).toNat = 115200 / baudrate.toNat % 2 ^ 16 := by
  rw [BitVec.toNat_setWidth, BitVec.toNat_udiv]
  rfl

/-- What is written to the port when it is programmed. The latest write is first. -/
def programWrites (base : BitVec 16) (divisor : BitVec 16) (cfg : Byte) :
    List (BitVec 16 × Byte) :=
  [(base + 4, 0x0B#8), (base + 2, 0xC7#8), (base + 3, cfg),
    (base + 1, ((divisor >>> 8) &&& 0xFF#16).setWidth 8),
    (base + 0, ((divisor >>> 0) &&& 0xFF#16).setWidth 8), (base + 3, 0x80#8), (base + 1, 0x00#8)]

theorem x86Program_ok (hbaud : baudrate ≠ 0) (portId : Int) (base : BitVec 16)
    (databits stopbits : Byte) (parity : SerialParity) (s : Serial) :
    ∃ s', x86Program portId base baudrate databits stopbits parity s = .ok s' ∧
      s'.outs = programWrites base ((uartClockRate / baudrate).setWidth 16)
        ((databits - 5) ||| ((stopbits - 1) <<< 2) ||| x86ParityValues parity) ++ s.outs := by
  rw [x86Program, if_neg hbaud]
  exact ⟨_, rfl, rfl⟩

theorem x86Program_zero (portId : Int) (base : BitVec 16) :
    x86Program portId base 0 databits stopbits parity s = .error .divideByZero := by
  rw [x86Program, if_pos rfl]
  rfl

theorem port_ne {i j : BitVec 16} (h : i ≠ j) (base : BitVec 16) : base + i ≠ base + j :=
  fun he => h ((BitVec.add_right_inj base).1 he)

theorem Latch.outb_control (base : BitVec 16) (l : Latch) (v : Byte) :
    l.outb base (base + 3, v) = { l with dlab := v.msb } := if_pos rfl

theorem Latch.outb_lo {l : Latch} (h : l.dlab = true) (base : BitVec 16) (v : Byte) :
    l.outb base (base + 0, v) = { l with lo := v } := by
  rw [outb, if_neg (port_ne (by decide) base), if_pos ⟨rfl, h⟩]

theorem Latch.outb_hi {l : Latch} (h : l.dlab = true) (base : BitVec 16) (v : Byte) :
    l.outb base (base + 1, v) = { l with hi := v } := by
  rw [outb, if_neg (port_ne (by decide) base), if_neg fun he => port_ne (by decide) base he.1,
    if_pos ⟨rfl, h⟩]

theorem Latch.outb_other {i : BitVec 16} (h₀ : i ≠ 0) (h₁ : i ≠ 1) (h₃ : i ≠ 3)
    (base : BitVec 16) (l : Latch) (v : Byte) : l.outb base (base + i, v) = l := by
  rw [outb, if_neg (port_ne h₃ base), if_neg fun he => port_ne h₀ base he.1,
    if_neg fun he => port_ne h₁ base he.1]

theorem programWrites_divisor (base divisor : BitVec 16) (cfg : Byte)
    (outs : List (BitVec 16 × Byte)) (l : Latch) :
    (l.after base (programWrites base divisor cfg ++ outs)).divisor = divisor := by
  rw [Latch.after, List.foldr_append]
  generalize outs.foldr (fun out l => l.outb base out) l = l
  rw [programWrites]
  simp only [List.foldr_cons, List.foldr_nil]
  -- The interrupts are disabled before the latch is opened, or in its high byte.
  generalize l.outb base (base + 1, 0x00#8) = l
  have hopen : (l.outb base (base + 3, 0x80#8)).dlab = true := by
    rw [Latch.outb_control]
    exact (by decide : (0x80#8 : Byte).msb = true)
  generalize l.outb base (base + 3, 0x80#8) = l at hopen
  have hstill (lo : Byte) : ({ l with lo := lo } : Latch).dlab = true := hopen
  rw [Latch.outb_lo hopen, Latch.outb_hi (hstill _), Latch.outb_control,
    Latch.outb_other (by decide) (by decide) (by decide),
    Latch.outb_other (by decide) (by decide) (by decide), Latch.divisor]
  dsimp only
  rw [setWidth_mask, setWidth_mask]
  exact append_setWidth divisor

/-- The driver checks the parameters before it touches the port. -/
theorem x86SerialOpenPort_invalid (hlock : s.x86Lock = 0) (hid : portId ≠ -1)
    (hclosed : s.portOpen portId = false) (hframe : ¬ Framed databits stopbits) (env : SerialEnv)
    (baudrate : BitVec 32) (parity : SerialParity) :
    ∃ s', x86SerialOpenPort env portId baudrate databits stopbits parity s = .ok (false, s') ∧
      s'.outs = s.outs := by
  rw [framed_iff, not_and_or, not_not, not_not] at hframe
  rw [x86SerialOpenPort, Serial.lockX86_free hlock, ok_bind, if_pos ⟨hid, hclosed⟩]
  dsimp only
  by_cases hdata : databits < 5 ∨ databits > 8
  · rw [if_pos hdata]
    exact ⟨_, rfl, rfl⟩
  · rw [if_neg hdata, if_pos (hframe.resolve_left hdata)]
    exact ⟨_, rfl, rfl⟩

theorem x86SerialOpenPort_framed (hlock : s.x86Lock = 0) (hid : portId ≠ -1)
    (hclosed : s.portOpen portId = false) (hframe : Framed databits stopbits) :
    x86SerialOpenPort env portId baudrate databits stopbits parity s =
      (x86Program portId (portOffsets env portId) baudrate databits stopbits parity
        { s with x86Lock := 1 }).map fun s' => (true, s'.unlockX86) := by
  obtain ⟨hdata, hstop⟩ := framed_iff.1 hframe
  rw [x86SerialOpenPort, Serial.lockX86_free hlock, ok_bind, if_pos ⟨hid, hclosed⟩]
  dsimp only
  rw [if_neg hdata, if_neg hstop]
  cases x86Program portId (portOffsets env portId) baudrate databits stopbits parity
    { s with x86Lock := 1 } <;> rfl

/-- The driver for x86 is right about the rates from 2 to 115200 bauds only. -/
theorem x86Safe_iff (hlock : s.x86Lock = 0) (hid : portId ≠ -1)
    (hclosed : s.portOpen portId = false) :
    X86Safe env portId baudrate databits stopbits parity s ↔
      ¬ Framed databits stopbits ∨ 2 ≤ baudrate.toNat ∧ baudrate.toNat ≤ 115200 := by
  by_cases hframe : Framed databits stopbits
  · rw [or_iff_right (not_not.2 hframe), ← hasDivisor_iff, X86Safe,
      x86SerialOpenPort_framed hlock hid hclosed hframe]
    by_cases hbaud : baudrate = 0
    · subst hbaud
      rw [x86Program_zero]
      refine iff_of_false ?_ fun h => h.1 rfl
      rintro ⟨success, s', he, -⟩
      cases he
    · obtain ⟨s', he, houts⟩ := x86Program_ok hbaud portId (portOffsets env portId) databits
        stopbits parity { s with x86Lock := 1 }
      have hdiv (l : Latch) : (l.after (portOffsets env portId) s'.outs).divisor.toNat =
          115200 / baudrate.toNat % 2 ^ 16 := by
        rw [houts, programWrites_divisor, toNat_divisor]
      rw [he]
      constructor
      · rintro ⟨success, s'', hresult, -, hrefuse⟩
        obtain ⟨rfl, rfl⟩ := Prod.mk.inj (Except.ok.inj hresult)
        by_contra hnone
        exact Bool.noConfusion (hrefuse fun h => hnone h.2).1
      · intro hhas
        refine ⟨true, _, rfl, fun _ l => ?_, fun hnot => absurd ⟨hframe, hhas⟩ hnot⟩
        dsimp only
        have hexact := (hdiv l).trans (Nat.mod_eq_of_lt hhas.2.2)
        exact ⟨hexact, hexact.trans_ne (Nat.ne_of_gt hhas.2.1)⟩
  · obtain ⟨s', he, houts⟩ := x86SerialOpenPort_invalid hlock hid hclosed hframe env baudrate parity
    refine iff_of_true ⟨false, s', he, ?_, fun _ => ⟨rfl, houts⟩⟩ (.inl hframe)
    exact fun htrue => Bool.noConfusion htrue

theorem rate_zero_iff (baudrate : BitVec 32) : 16 * baudrate = 0 ↔ baudrate.toNat % 2 ^ 28 = 0 := by
  rw [← BitVec.toNat_inj, BitVec.toNat_mul]
  change 16 * baudrate.toNat % 2 ^ 32 = 0 ↔ baudrate.toNat % 2 ^ 28 = 0
  omega

/-- The driver for the Raspberry Pi divides by zero if 16 times the rate is lost in 32 bits. -/
theorem rpi2Safe_iff (m : Mmio) : Rpi2Safe baudrate databits stopbits parity m ↔
    ¬ Framed databits stopbits ∨ parity.toNat > 2 ∨ baudrate.toNat % 2 ^ 28 ≠ 0 := by
  rw [Rpi2Safe, rpi2SerialOpenPort, if_neg (not_not.2 rfl), Ne, ← rate_zero_iff, framed_iff,
    not_and_or, not_not, not_not, or_assoc]
  by_cases hdata : databits < 5 ∨ databits > 8
  · rw [if_pos hdata]
    exact iff_of_true ⟨_, _, rfl⟩ (.inl hdata)
  rw [if_neg hdata, or_iff_right hdata]
  by_cases hstop : stopbits < 1 ∨ stopbits > 2
  · rw [if_pos hstop]
    exact iff_of_true ⟨_, _, rfl⟩ (.inl hstop)
  rw [if_neg hstop, or_iff_right hstop]
  by_cases hparity : parity.toNat > 2
  · rw [if_pos hparity]
    exact iff_of_true ⟨_, _, rfl⟩ (.inl hparity)
  rw [if_neg hparity, or_iff_right hparity]
  by_cases hbaud : 16 * baudrate = 0
  · refine iff_of_false ?_ (not_not.2 hbaud)
    rintro ⟨success, m', he⟩
    rw [if_pos hbaud] at he
    cases he
  · rw [if_neg hbaud]
    exact iff_of_true ⟨_, _, rfl⟩ hbaud

/-- Both drivers are safe where the rate divides their clock as it should. -/
theorem serialOpenPort_safe_iff (hlock : s.x86Lock = 0) (hid : 0 ≤ portId ∧ portId < 4)
    (hclosed : s.portOpen portId = false) (m : Mmio) :
    X86Safe env portId baudrate databits stopbits parity s ∧
        Rpi2Safe baudrate databits stopbits parity m ↔
      (¬ Framed databits stopbits ∨ 2 ≤ baudrate.toNat ∧ baudrate.toNat ≤ 115200) ∧
        (¬ Framed databits stopbits ∨ parity.toNat > 2 ∨ baudrate.toNat % 2 ^ 28 ≠ 0) :=
  and_congr (x86Safe_iff hlock (by omega) hclosed) (rpi2Safe_iff m)

theorem serialOpenPort_safe_57600 : X86Safe quietEnv 0 57600#32 8#8 1#8 .NONE bootSerial ∧
    Rpi2Safe 57600#32 8#8 1#8 .NONE [] :=
  (serialOpenPort_safe_iff rfl (by decide) rfl []).2 ⟨.inr (by decide), .inr (.inr (by decide))⟩

theorem not_serialOpenPort_safe : ¬ ∀ (env : SerialEnv) (portId : Int) (baudrate : BitVec 32)
    (databits stopbits : Byte) (parity : SerialParity) (s : Serial) (m : Mmio), s.x86Lock = 0 →
      0 ≤ portId ∧ portId < 4 → s.portOpen portId = false →
        X86Safe env portId baudrate databits stopbits parity s ∧
          Rpi2Safe baudrate databits stopbits parity m := by
  intro h
  have hsafe := (h quietEnv 0 0#32 8#8 1#8 .NONE bootSerial [] rfl (by decide) rfl).1
  rw [x86Safe_iff rfl (by decide) rfl] at hsafe
  rcases hsafe with hframe | hrate
  · exact hframe ⟨by decide, by decide⟩
  · exact absurd hrate (by decide)

end Tupai
