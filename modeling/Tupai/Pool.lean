import Mathlib.Data.BitVec
import Tupai.Basic
import Tupai.Lib.Segments

namespace Tupai
set_option autoImplicit true

inductive BlockStatus where
  | ERROR | UNUSED | TAIL | HEAD
deriving DecidableEq, Repr

def BlockStatus.code : BlockStatus → Byte
  | .ERROR => 0b00
  | .UNUSED => 0b01
  | .TAIL => 0b10
  | .HEAD => 0b11

def BlockStatus.ofByte (b : Byte) : BlockStatus :=
  if b = 0b00 then .ERROR else if b = 0b01 then .UNUSED else if b = 0b10 then .TAIL else .HEAD

structure Pool where
  map : Nat
  body : Nat
  blockSize : Nat
  blockCount : Nat

/-- The two bits of a map byte that `bit_offset` selects. -/
def getBits (byte : Byte) (slot : Nat) : BlockStatus :=
  .ofByte ((byte >>> (slot * 2)) &&& 0b11)

def setBits (byte : Byte) (slot : Nat) (status : BlockStatus) : Byte :=
  (byte &&& ~~~(0b11#8 <<< (slot * 2))) ||| (status.code <<< (slot * 2))

theorem BlockStatus.ofByte_code (s : BlockStatus) : ofByte s.code = s := by
  cases s <;> rfl

/-- The mask keeps every two-bit slot but the one at `i`. -/
theorem mask_slot (hi : i < 4) (hj : j < 4) :
    (~~~(0b11#8 <<< (i * 2)) >>> (j * 2)) &&& 0b11 = if j = i then 0b00 else 0b11 := by
  have key : ∀ i j : Fin 4, (~~~(0b11#8 <<< (i.val * 2)) >>> (j.val * 2)) &&& 0b11 =
      if j.val = i.val then 0b00 else 0b11 := by decide
  exact key ⟨i, hi⟩ ⟨j, hj⟩

theorem code_slot (s : BlockStatus) (hi : i < 4) (hj : j < 4) :
    ((s.code <<< (i * 2)) >>> (j * 2)) &&& 0b11 = if j = i then s.code else 0b00 := by
  have key : ∀ i j : Fin 4, ((s.code <<< (i.val * 2)) >>> (j.val * 2)) &&& 0b11 =
      if j.val = i.val then s.code else 0b00 := by cases s <;> decide
  exact key ⟨i, hi⟩ ⟨j, hj⟩

theorem getBits_setBits (b : Byte) (s : BlockStatus) (hi : i < 4) (hj : j < 4) :
    getBits (setBits b i s) j = if j = i then s else getBits b j := by
  have hbits : (setBits b i s >>> (j * 2)) &&& 0b11 =
      if j = i then s.code else (b >>> (j * 2)) &&& 0b11 := by
    rw [setBits, BitVec.ushiftRight_or_distrib, BitVec.ushiftRight_and_distrib,
      BitVec.and_or_distrib_right, BitVec.and_assoc, mask_slot hi hj, code_slot s hi hj]
    split <;> simp
  rw [getBits, hbits, getBits]
  split
  · exact s.ofByte_code
  · rfl

def poolGet (w : Nat) (pool : Pool) (mem : Mem) (index : Nat) : BlockStatus :=
  getBits (mem (wrap w (pool.map + index / 4))) (index % 4)

def poolSet (w : Nat) (pool : Pool) (mem : Mem) (index : Nat) (status : BlockStatus) : Mem :=
  let addr := wrap w (pool.map + index / 4)
  mem.store addr (setBits (mem addr) (index % 4) status)

theorem wrap_add_inj (hi : i < 2 ^ w) (hj : j < 2 ^ w)
    (h : wrap w (a + i) = wrap w (a + j)) : i = j := by
  have hm : i ≡ j [MOD 2 ^ w] := Nat.ModEq.add_left_cancel' a h
  exact hm.eq_of_lt_of_lt hi hj

/-- The packed map is an array of statuses. -/
theorem poolGet_poolSet (pool : Pool) (mem : Mem) (s : BlockStatus) (hi : i < 2 ^ w)
    (hj : j < 2 ^ w) :
    poolGet w pool (poolSet w pool mem i s) j = if j = i then s else poolGet w pool mem j := by
  by_cases hb : j / 4 = i / 4
  · have hslot : (j % 4 = i % 4) ↔ j = i := by omega
    simp only [poolGet, poolSet, hb, Mem.store_same,
      getBits_setBits _ _ (Nat.mod_lt i (by decide)) (Nat.mod_lt j (by decide)), hslot]
  · have hne : wrap w (pool.map + j / 4) ≠ wrap w (pool.map + i / 4) := by
      intro he
      exact hb (wrap_add_inj (by omega) (by omega) he)
    have hji : j ≠ i := fun he => hb (by rw [he])
    simp only [poolGet, poolSet, Mem.store_other _ _ hne, if_neg hji]

/-- What `pool_get` makes of a byte in `int` arithmetic, to which the byte is promoted. -/
def getBitsInt (byte : Byte) (slot : Nat) : BlockStatus :=
  .ofByte (((byte.setWidth 32 >>> (slot * 2)) &&& 0b11#32).setWidth 8)

/-- What `pool_set` makes of a byte. Each assignment converts back from `int`. -/
def setBitsInt (byte : Byte) (slot : Nat) (status : BlockStatus) : Byte :=
  let byte : Byte := (byte.setWidth 32 &&& ~~~(0b11#32 <<< (slot * 2))).setWidth 8
  (byte.setWidth 32 ||| (status.code.setWidth 32 <<< (slot * 2))).setWidth 8

/-- Only bits of the byte are shifted down, as the offset is below 8. -/
theorem getBitsInt_eq (byte : Byte) (hslot : slot < 4) :
    getBitsInt byte slot = getBits byte slot := by
  rw [getBitsInt, getBits]
  congr 1
  ext i hi
  have hbit : slot * 2 + i < 32 := by omega
  simp [hbit]

theorem poolGet_int (w : Nat) (pool : Pool) (mem : Mem) (index : Nat) :
    poolGet w pool mem index =
      getBitsInt (mem (wrap w (pool.map + index / 4))) (index % 4) :=
  (getBitsInt_eq _ (Nat.mod_lt index (by decide))).symm

/-- The bits that are shifted out of the byte are lost in the conversion. -/
theorem setBitsInt_eq (byte : Byte) (slot : Nat) (status : BlockStatus) :
    setBitsInt byte slot status = setBits byte slot status := by
  rw [setBitsInt, setBits]
  ext i hi
  simp

/-- The map after `pool_set` is the array with one entry changed. -/
structure EntrySet (w : Nat) (pool : Pool) (mem mem' : Mem) (i : Nat) (s : BlockStatus) :
    Prop where
  same : poolGet w pool mem' i = s
  others : ∀ j < 2 ^ w, j ≠ i → poolGet w pool mem' j = poolGet w pool mem j
  byte : mem' (wrap w (pool.map + i / 4)) =
    setBitsInt (mem (wrap w (pool.map + i / 4))) (i % 4) s
  bytes : ∀ addr ≠ wrap w (pool.map + i / 4), mem' addr = mem addr

theorem poolSet_entry (pool : Pool) (mem : Mem) (s : BlockStatus) (hi : i < 2 ^ w) :
    EntrySet w pool mem (poolSet w pool mem i s) i s where
  same := by rw [poolGet_poolSet pool mem s hi hi, if_pos rfl]
  others j hj hji := by rw [poolGet_poolSet pool mem s hi hj, if_neg hji]
  byte := by rw [setBitsInt_eq, poolSet, Mem.store_same]
  bytes _ haddr := Mem.store_other _ _ haddr

theorem poolSet_entry_third :
    EntrySet 32 ⟨0x1000, 0x1010, 64, 64⟩ (fun _ => 0x55#8)
      (poolSet 32 ⟨0x1000, 0x1010, 64, 64⟩ (fun _ => 0x55#8) 6 .HEAD) 6 .HEAD :=
  poolSet_entry _ _ .HEAD (by decide)

/-- How the search through a candidate run ends. -/
inductive Scan where
  | fit
  | tosmall (i : Nat)
  | panic

def poolScan (w : Nat) (pool : Pool) (mem : Mem) : (left i : Nat) → Scan
  | 0, _ => .fit
  | left + 1, i =>
    if i = pool.blockCount then .panic
    else if poolGet w pool mem i ≠ .UNUSED then .tosmall i
    else poolScan w pool mem left (i + 1)

/-- How the search for a large enough run ends. -/
inductive Search where
  | found (start : Nat)
  | failed
  | panic

def poolSearch (w : Nat) (pool : Pool) (mem : Mem) (needed : Nat) : (fuel i : Nat) → Search
  | 0, _ => .failed
  | fuel + 1, i =>
    if i < pool.blockCount then
      if poolGet w pool mem i = .UNUSED then
        match poolScan w pool mem (wrap w (i + needed) - i) i with
        | .fit => .found i
        | .tosmall j => poolSearch w pool mem needed fuel (j + 1)
        | .panic => .panic
      else poolSearch w pool mem needed fuel (i + 1)
    else .failed

def markTail (w : Nat) (pool : Pool) (start : Nat) : (left i : Nat) → Mem → Mem
  | 0, _, mem => mem
  | left + 1, i, mem =>
    markTail w pool start left (i + 1) (poolSet w pool mem (wrap w (start + i)) .TAIL)

/-- `none` is a panic; a returned pointer `0` is `nullptr`. -/
def poolAlloc (w : Nat) (pool : Pool) (mem : Mem) (n : Nat) : Option (Nat × Mem) :=
  let needed := alignCeiling w n pool.blockSize / pool.blockSize
  match poolSearch w pool mem needed pool.blockCount 0 with
  | .panic => none
  | .failed => some (0, mem)
  | .found start =>
    let mem := poolSet w pool mem start .HEAD
    some (wrap w (pool.body + wrap w (start * pool.blockSize)),
      markTail w pool start (needed - 1) 1 mem)

def clearTail (w : Nat) (pool : Pool) : (left i : Nat) → Mem → Mem
  | 0, _, mem => mem
  | left + 1, i, mem =>
    if poolGet w pool mem i = .TAIL then
      clearTail w pool left (i + 1) (poolSet w pool mem i .UNUSED)
    else mem

def poolDealloc (w : Nat) (pool : Pool) (mem : Mem) (ptr : Nat) : Option Mem :=
  let offset := wrapSub w ptr pool.body
  if offset % pool.blockSize ≠ 0 then none
  else
    let index := offset / pool.blockSize
    if poolGet w pool mem index ≠ .HEAD then none
    else
      let mem := poolSet w pool mem index .UNUSED
      let next := wrap w (index + 1)
      some (clearTail w pool (pool.blockCount - next) next mem)

theorem poolAlloc_cases (h : poolAlloc w pool mem n = some (p, mem')) :
    p = 0 ∧ mem' = mem ∨ ∃ start,
      poolSearch w pool mem (alignCeiling w n pool.blockSize / pool.blockSize)
        pool.blockCount 0 = .found start ∧
      p = wrap w (pool.body + wrap w (start * pool.blockSize)) ∧
      mem' = markTail w pool start (alignCeiling w n pool.blockSize / pool.blockSize - 1) 1
        (poolSet w pool mem start .HEAD) := by
  rw [poolAlloc] at h
  dsimp only at h
  split at h
  · cases h
  · cases h
    exact .inl ⟨rfl, rfl⟩
  · next start hs =>
    cases h
    exact .inr ⟨start, hs, rfl, rfl⟩

theorem poolScan_fit (h : poolScan w pool mem left i = .fit) (hi : i ≤ pool.blockCount) :
    i + left ≤ pool.blockCount ∧ ∀ j, i ≤ j → j < i + left → poolGet w pool mem j = .UNUSED := by
  induction left generalizing i with
  | zero => exact ⟨hi, fun j hlo hhi => absurd hhi (Nat.not_lt_of_le hlo)⟩
  | succ left ih =>
    rw [poolScan] at h
    split_ifs at h with hend hget
    obtain ⟨hle, hrest⟩ := ih h (by omega)
    refine ⟨by omega, fun j hlo hhi => ?_⟩
    rcases Nat.eq_or_lt_of_le hlo with he | hlt
    · rw [← he]
      exact not_not.1 hget
    · exact hrest j hlt (by omega)

theorem poolSearch_found (h : poolSearch w pool mem needed fuel i = .found start) :
    start < pool.blockCount ∧
      poolScan w pool mem (wrap w (start + needed) - start) start = .fit := by
  induction fuel generalizing i with
  | zero => cases h
  | succ fuel ih =>
    rw [poolSearch] at h
    split_ifs at h with hi hget
    · split at h
      · next hscan =>
        cases h
        exact ⟨hi, hscan⟩
      · exact ih h
      · cases h
    · exact ih h

theorem poolSearch_unused (h : poolSearch w pool mem needed fuel i = .found start) :
    poolGet w pool mem start = .UNUSED := by
  induction fuel generalizing i with
  | zero => cases h
  | succ fuel ih =>
    rw [poolSearch] at h
    split_ifs at h with hi hget
    · split at h
      · cases h
        exact hget
      · exact ih h
      · cases h
    · exact ih h

theorem poolGet_markTail (pool : Pool) (mem : Mem) (hb : start + i + left ≤ 2 ^ w)
    (hj : j < 2 ^ w) :
    poolGet w pool (markTail w pool start left i mem) j =
      if start + i ≤ j ∧ j < start + i + left then .TAIL else poolGet w pool mem j := by
  induction left generalizing i mem with
  | zero => rw [markTail, if_neg (by omega)]
  | succ left ih =>
    have hi : start + i < 2 ^ w := by omega
    rw [markTail, ih _ (by omega), wrap_of_lt hi, poolGet_poolSet _ _ _ hi hj]
    split_ifs <;> first | rfl | omega

theorem poolGet_clearTail (ht : ∀ j, i ≤ j → j < e → poolGet w pool mem j = .TAIL)
    (hie : i ≤ e) (he : e ≤ i + left) (hstop : e < i + left → poolGet w pool mem e ≠ .TAIL)
    (hb : i + left < 2 ^ w) (hj : j < 2 ^ w) :
    poolGet w pool (clearTail w pool left i mem) j =
      if i ≤ j ∧ j < e then .UNUSED else poolGet w pool mem j := by
  induction left generalizing i mem with
  | zero => rw [clearTail, if_neg (by omega)]
  | succ left ih =>
    have hi : i < 2 ^ w := by omega
    have hget (k : Nat) (hk : k < 2 ^ w) := poolGet_poolSet pool mem .UNUSED hi hk
    by_cases hend : i = e
    · rw [clearTail, if_neg (hend ▸ hstop (by omega)), if_neg (by omega)]
    · rw [clearTail, if_pos (ht i (by omega) (by omega)), ih ?_ (by omega) (by omega) ?_ (by omega),
        hget j hj]
      · split_ifs <;> first | rfl | omega
      · intro k hlo hhi
        rw [hget k (by omega), if_neg (by omega)]
        exact ht k (by omega) hhi
      · intro hlt
        rw [hget e (by omega), if_neg (by omega)]
        exact hstop (by omega)

/-- The blocks that an allocation marks, and all it changes in the map. -/
structure Marked (w : Nat) (pool : Pool) (mem mem' : Mem) (start len : Nat) : Prop where
  inside : start + len ≤ pool.blockCount
  unused : ∀ i, start ≤ i → i < start + len → poolGet w pool mem i = .UNUSED
  head : poolGet w pool mem' start = .HEAD
  tail : ∀ i, start < i → i < start + len → poolGet w pool mem' i = .TAIL
  rest : ∀ i < 2 ^ w, i < start ∨ start + len ≤ i → poolGet w pool mem' i = poolGet w pool mem i

/-- An allocation marks as many blocks as it needs, and one at least. -/
theorem poolSearch_marked {needed : Nat} (hroom : pool.blockCount + needed ≤ 2 ^ w)
    (h : poolSearch w pool mem needed fuel i = .found start) :
    Marked w pool mem (markTail w pool start (needed - 1) 1 (poolSet w pool mem start .HEAD))
      start (max needed 1) := by
  obtain ⟨hlt, hscan⟩ := poolSearch_found h
  have hget := poolSearch_unused h
  rw [wrap_of_lt (by omega), Nat.add_sub_cancel_left] at hscan
  obtain ⟨hin, hunused⟩ := poolScan_fit hscan (Nat.le_of_lt hlt)
  have hstart : start < 2 ^ w := by omega
  have htail (j : Nat) (hj : j < 2 ^ w) :
      poolGet w pool (markTail w pool start (needed - 1) 1 (poolSet w pool mem start .HEAD)) j =
        if start + 1 ≤ j ∧ j < start + 1 + (needed - 1) then .TAIL
        else poolGet w pool (poolSet w pool mem start .HEAD) j :=
    poolGet_markTail _ _ (by omega) hj
  have hset (j : Nat) (hj : j < 2 ^ w) := poolGet_poolSet pool mem .HEAD hstart hj
  refine ⟨by omega, fun i hlo hhi => ?_, ?_, fun i hlo hhi => ?_, fun i hi hout => ?_⟩
  · rcases Nat.eq_or_lt_of_le hlo with he | hlt
    · rw [← he, hget]
    · exact hunused i hlo (by omega)
  · rw [htail start hstart, if_neg (by omega), hset start hstart, if_pos rfl]
  · rw [htail i (by omega), if_pos (by omega)]
  · rw [htail i hi, if_neg (by omega), hset i hi, if_neg (by omega)]

end Tupai
