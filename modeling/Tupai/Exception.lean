import Mathlib.Tactic.FinCases
import Tupai.Isr

namespace Tupai
open Lib
set_option autoImplicit true

/-- The start of `isr_common`: the two words on top of the stack go to the variables. -/
def unstack (sp acc : R) (err code : Word k) : List (Instr R k) :=
  [.push acc, .load acc sp (BitVec.ofNat _ (2 * k)), .storeAbs err acc, .load acc sp (wordSize k),
    .storeAbs code acc, .pop acc, .add sp (BitVec.ofNat _ (2 * k))]

/-- The memory after it, where the first word is at `sp` and `acc` is pushed. -/
def unstackMem (err code sp acc : Word k) (mem : Bytes k) : Bytes k :=
  let mem := mem.store (sp - wordSize k) acc
  let mem := mem.store err (mem.load (sp + wordSize k))
  mem.store code (mem.load sp)

theorem words_three {mem : Bytes k} {sp a v e : Word k}
    (h : mem.words (sp - wordSize k) (n + 3) = a :: v :: e :: frame) :
    mem.load (sp - wordSize k) = a ∧ mem.load sp = v ∧ mem.load (sp + wordSize k) = e ∧
      mem.words (sp + BitVec.ofNat _ (2 * k)) n = frame := by
  have htwo : sp + wordSize k + wordSize k = sp + BitVec.ofNat _ (2 * k) := by
    rw [BitVec.add_assoc, wordSize, ← BitVec.ofNat_add, ← Nat.two_mul]
  rw [Bytes.words, Bytes.words, Bytes.words, BitVec.sub_add_cancel, htwo] at h
  simpa only [List.cons.injEq] using h

/-- The variables have the two words, unless they are the same variable. The rest of the stack is as
it was. -/
theorem unstackMem_spec {mem : Bytes k} {sp a v e err code : Word k}
    (h : mem.words sp (n + 2) = v :: e :: frame)
    (herr : Bytes.Apart (sp - wordSize k) (k * (n + 3)) err)
    (hcode : Bytes.Apart (sp - wordSize k) (k * (n + 3)) code) :
    ∃ mem' : Bytes k, unstackMem err code sp a mem = mem'.store code v ∧ mem'.load err = e ∧
      (mem'.store code v).load (sp - wordSize k) = a ∧
      (mem'.store code v).words (sp + BitVec.ofNat _ (2 * k)) n = frame := by
  have h₀ := Bytes.words_push herr.size_le mem sp a
  rw [h] at h₀
  have h₁ := (herr.words_store (mem.store (sp - wordSize k) a) e).trans h₀
  have h₂ := (hcode.words_store _ v).trans h₁
  obtain ⟨hacc, _, _, hframe⟩ := words_three h₂
  refine ⟨_, ?_, Bytes.load_store .., hacc, hframe⟩
  rw [unstackMem, (words_three h₀).2.2.1, (words_three h₁).2.1]

namespace IsrCode

variable {R : Type} {k : Nat} {c : IsrCode R k}

theorem isr_eq (v : Fin 19) : (isr v : List (Instr R k)) =
    if v ∈ ERROR_VECTORS ∧ v ≠ 17 then isrError v else isrDummy v := by
  fin_cases v <;> rfl

theorem Interrupted.apart {m : Interrupted c}
    (h : Bytes.Apart (m.regs c.sp - BitVec.ofNat _ (k * c.depth)) (k * (c.depth + FRAME_WORDS)) x)
    (hd : d ≤ c.depth) (hn : n ≤ d + FRAME_WORDS) :
    Bytes.Apart (m.regs c.sp - BitVec.ofNat _ (k * d)) (k * n) x := by
  obtain ⟨o, ho⟩ := Nat.exists_eq_add_of_le hd
  refine h.sub (o := k * o) ?_ ?_
  · rw [ho, Nat.mul_add, BitVec.ofNat_add]
    ring
  · rw [← Nat.mul_add]
    exact Nat.mul_le_mul_left k (by omega)

theorem Interrupted.size_le (m : Interrupted c) (hn : n ≤ c.depth + FRAME_WORDS) :
    k * n ≤ 2 ^ (8 * k) := Nat.le_trans (Nat.mul_le_mul_left k hn) m.apartErr.size_le

theorem Saves.congr {m m' m'' : Machine R k} (h : c.Saves m m' stack)
    (hwords : m''.mem.words stack (c.general.length + FRAME_WORDS) =
      m'.mem.words stack (c.general.length + FRAME_WORDS)) : c.Saves m m'' stack :=
  ⟨h.below, hwords.trans h.words⟩

variable [DecidableEq R]

theorem exec_unstack {sp : R} (h : acc ≠ sp) (m : Machine R k) (err code : Word k) :
    m.exec sp (unstack sp acc err code) =
      let mem := unstackMem err code (m.regs sp) (m.regs acc) m.mem
      ⟨Function.update (Function.update m.regs acc (mem.load (m.regs sp - wordSize k))) sp
        (m.regs sp + BitVec.ofNat _ (2 * k)), mem⟩ := by
  have hsecond (x : Word k) : x - wordSize k + BitVec.ofNat _ (2 * k) = x + wordSize k := by
    rw [Nat.two_mul, BitVec.ofNat_add, wordSize]
    ring
  simp only [unstack, Machine.exec, List.foldl_cons, List.foldl_nil, Machine.step, Machine.pop,
    Machine.push, Machine.set, Function.update_self, Function.update_of_ne h.symm,
    BitVec.sub_add_cancel, hsecond, unstackMem, Function.update_idem, Function.update_comm h]

/-- The arguments are those of `exception_handle`, and the stack is as it was. -/
structure Passes (c : IsrCode R k) (m m' : Machine R k) (n : Nat) : Prop where
  stack : c.argument m' 0 = m.regs c.sp
  code : c.argument m' 1 = m.mem.load c.tmpExceptionCode
  error : c.argument m' 2 = m.mem.load c.tmpExceptionErr
  words : m'.mem.words (m.regs c.sp) n = m.mem.words (m.regs c.sp) n

/-- What the ISRs consist of: what saves the registers, and what passes the arguments. -/
structure Parts (c : IsrCode R k) where
  acc : R
  save : List (Instr R k)
  pass : List (Instr R k)
  passPit : List (Instr R k)
  acc_ne : acc ≠ c.sp
  common : c.isrCommon = unstack c.sp acc c.tmpExceptionErr c.tmpExceptionCode ++ (save ++ pass)
  pit : c.isrPit = save ++ passPit
  saves : ∀ m : Machine R k, m.exec c.sp save = m.pushAll c.sp (c.general.map m.regs)
  passes : ∀ (m : Machine R k) n, k * (3 + n) ≤ 2 ^ (8 * k) →
    Bytes.Apart (m.regs c.sp - BitVec.ofNat _ (k * 3)) (k * 3) c.tmpExceptionCode →
    c.Passes m (m.exec c.sp pass) n
  passesPit : ∀ (m : Machine R k) n, k * (1 + n) ≤ 2 ^ (8 * k) →
    c.argument (m.exec c.sp passPit) 0 = m.regs c.sp ∧
      (m.exec c.sp passPit).mem.words (m.regs c.sp) n = m.mem.words (m.regs c.sp) n
  restores : ∀ m : Machine R k,
    m.exec c.sp c.restore = (m.set c.sp (m.regs c.result)).popAll c.sp c.general.reverse
  all : ∀ r, r ≠ c.sp → r ∈ c.general

theorem enter_eq (m : Machine R k) (hv : v ≠ 17) (e : Word k) :
    c.enter m v e = m.pushAll c.sp [errorCode v e, BitVec.ofNat _ v] := by
  rw [enter, isr_eq, errorCode]
  by_cases herr : v ∈ ERROR_VECTORS
  · rw [if_pos herr, if_pos ⟨herr, hv⟩, if_pos herr]
    rfl
  · rw [if_neg herr, if_neg (fun h => herr h.1), if_neg herr]
    rfl

/-- Its ISR takes the alignment check for an exception without an error code. -/
theorem enter_alignment (m : Machine R k) (e : Word k) :
    c.enter m 17 e = m.pushAll c.sp [e, 0, 17] := rfl

def unstacked (c : IsrCode R k) (acc : R) (m : Machine R k) : Machine R k :=
  m.exec c.sp (unstack c.sp acc c.tmpExceptionErr c.tmpExceptionCode)

def saved (c : IsrCode R k) (m : Machine R k) : Machine R k :=
  m.pushAll c.sp (c.general.map m.regs)

theorem saved_sp (m : Machine R k) :
    (c.saved m).regs c.sp = m.regs c.sp - BitVec.ofNat _ (k * c.general.length) := by
  rw [saved, Machine.pushAll_sp, List.length_map]

theorem unstacked_sp (h : acc ≠ c.sp) (m : Machine R k) :
    (c.unstacked acc m).regs c.sp = m.regs c.sp + BitVec.ofNat _ (2 * k) := by
  rw [unstacked, exec_unstack h]
  exact Function.update_self ..

theorem enter_sp (m : Machine R k) (hv : v ≠ 17) (e : Word k) :
    (c.enter m v e).regs c.sp = m.regs c.sp - BitVec.ofNat _ (2 * k) := by
  rw [enter_eq m hv, Machine.pushAll_sp, Nat.mul_comm 2]
  rfl

theorem unstacked_spec (h : acc ≠ c.sp) (m : Interrupted c) (hv : v ≠ 17) (e : Word k) :
    ∃ mem : Bytes k, mem.load c.tmpExceptionErr = errorCode v e ∧
      c.unstacked acc (c.enter m.toMachine v e) =
        ⟨m.regs, mem.store c.tmpExceptionCode (BitVec.ofNat _ v)⟩ ∧
      (mem.store c.tmpExceptionCode (BitVec.ofNat _ v)).words (m.regs c.sp) FRAME_WORDS =
        m.mem.words (m.regs c.sp) FRAME_WORDS := by
  have hdepth : 3 ≤ c.depth := Nat.le_add_left 3 (c.general.length + 1)
  have hle : k * (2 + FRAME_WORDS) ≤ 2 ^ (8 * k) :=
    Nat.le_trans (Nat.mul_le_mul_left k (by omega)) m.apartErr.size_le
  have hwords : (c.enter m.toMachine v e).mem.words ((c.enter m.toMachine v e).regs c.sp)
      (FRAME_WORDS + 2) = BitVec.ofNat _ v :: errorCode v e ::
        m.mem.words (m.regs c.sp) FRAME_WORDS := by
    rw [enter_eq m.toMachine hv, Nat.add_comm]
    exact Machine.pushAll_words c.sp hle m.toMachine
  have hsp := enter_sp (c := c) m.toMachine hv e
  have hlow : (c.enter m.toMachine v e).regs c.sp - wordSize k =
      m.regs c.sp - BitVec.ofNat _ (k * 3) := by
    rw [hsp, wordSize, Nat.mul_succ, Nat.mul_comm k, BitVec.ofNat_add]
    ring
  have hrest : (c.enter m.toMachine v e).regs c.sp + BitVec.ofNat _ (2 * k) = m.regs c.sp := by
    rw [hsp, BitVec.sub_add_cancel]
  obtain ⟨mem, hmem, herr, hacc, hframe⟩ := unstackMem_spec hwords
    (hlow ▸ Interrupted.apart m.apartErr hdepth (Nat.le_refl _))
    (hlow ▸ Interrupted.apart m.apartCode hdepth (Nat.le_refl _))
    (a := (c.enter m.toMachine v e).regs acc)
  rw [hrest] at hframe
  refine ⟨mem, herr, ?_, hframe⟩
  rw [unstacked, exec_unstack h, hmem, hrest]
  dsimp only
  rw [hacc, Function.update_eq_self, enter_eq m.toMachine hv]
  refine congrArg₂ _ (funext fun r => ?_) rfl
  by_cases hr : r = c.sp
  · rw [hr, Function.update_self]
  · rw [Function.update_of_ne hr, Machine.pushAll_other _ hr]

theorem saved_spec (m : Machine R k) (hle : k * (c.general.length + n) ≤ 2 ^ (8 * k)) :
    (c.saved m).mem.words ((c.saved m).regs c.sp) (c.general.length + n) =
      (c.general.map m.regs).reverse ++ m.mem.words (m.regs c.sp) n := by
  have hlen : (c.general.map m.regs).length = c.general.length := List.length_map _
  rw [← hlen] at hle ⊢
  exact Machine.pushAll_words c.sp hle m

theorem Saves.saved {m m' : Machine R k} (hregs : m'.regs = m.regs)
    (hwords : m'.mem.words (m.regs c.sp) FRAME_WORDS = m.mem.words (m.regs c.sp) FRAME_WORDS)
    (hle : k * (c.general.length + FRAME_WORDS) ≤ 2 ^ (8 * k)) :
    c.Saves m (c.saved m') ((c.saved m').regs c.sp) where
  below := by rw [saved_sp, hregs, BitVec.sub_add_cancel]
  words := by rw [saved_spec m' hle, hregs, hwords]

namespace Parts

variable {p : c.Parts}

theorem exceptionCall_eq (p : c.Parts) (m : Machine R k) (v : Fin 19) (e : Word k) :
    c.exceptionCall m v e =
      (c.saved (c.unstacked p.acc (c.enter m v e))).exec c.sp p.pass := by
  rw [exceptionCall, p.common, Machine.exec_append, Machine.exec_append, p.saves]
  rfl

theorem restores_saved (p : c.Parts) {m m' : Machine R k} (h : c.Saves m m' (m'.regs c.result)) :
    (m'.exec c.sp c.restore).regs = m.regs := by
  rw [p.restores]
  funext r
  by_cases hr : r = c.sp
  · rw [hr, Machine.popAll_sp, Machine.set_same, List.length_reverse, h.below]
  · have hwords : (m'.set c.sp (m'.regs c.result)).mem.words
        ((m'.set c.sp (m'.regs c.result)).regs c.sp) c.general.reverse.length =
        c.general.reverse.map m.regs := by
      have hsplit := h.words
      rw [Bytes.words_append] at hsplit
      rw [Machine.set_same, List.length_reverse, List.map_reverse]
      refine List.append_inj_left hsplit ?_
      rw [Bytes.length_words, List.length_reverse, List.length_map]
    rw [Machine.popAll_other hwords hr, if_pos (List.mem_reverse.2 (p.all r hr))]

theorem pit_saves (p : c.Parts) (m : Interrupted c) :
    c.Saves m.toMachine (c.pitCall m.toMachine) (c.argument (c.pitCall m.toMachine) 0) := by
  have hdepth : c.depth = c.general.length + 4 := rfl
  have hpass := p.passesPit (c.saved m.toMachine) (c.general.length + FRAME_WORDS)
    (m.size_le (by omega))
  have hcall : c.pitCall m.toMachine = (c.saved m.toMachine).exec c.sp p.passPit := by
    rw [pitCall, p.pit, Machine.exec_append, p.saves]
    rfl
  rw [hcall, hpass.1]
  exact (Saves.saved rfl rfl (m.size_le (by omega))).congr hpass.2

/-- How many words too low `exception_handle` finds the registers. -/
theorem saved_low (p : c.Parts) (m : Machine R k) (v : Fin 19) (e : Word k) :
    (c.saved (c.unstacked p.acc (c.enter m v e))).regs c.sp =
      m.regs c.sp - BitVec.ofNat _ (k * (c.general.length + if v = 17 then 1 else 0)) := by
  rw [saved_sp, unstacked_sp p.acc_ne]
  split_ifs with hv
  · subst hv
    have hlen : BitVec.ofNat (8 * k) (k * [e, 0, 17].length) =
        BitVec.ofNat _ (2 * k) + BitVec.ofNat _ k := by
      rw [← BitVec.ofNat_add]
      refine congrArg _ ?_
      change k * 3 = 2 * k + k
      omega
    rw [enter_alignment, Machine.pushAll_sp, hlen, Nat.mul_succ, BitVec.ofNat_add]
    ring
  · rw [enter_sp m hv, BitVec.sub_add_cancel, Nat.add_zero]

theorem call_passes (p : c.Parts) (m : Interrupted c) (v : Fin 19) (e : Word k) :
    c.Passes (c.saved (c.unstacked p.acc (c.enter m.toMachine v e)))
      (c.exceptionCall m.toMachine v e) (c.general.length + FRAME_WORDS) := by
  have hdepth : c.depth = c.general.length + 4 := rfl
  rw [exceptionCall_eq p]
  refine p.passes _ _ (m.size_le (by omega)) ?_
  rw [saved_low, BitVec.sub_sub, ← BitVec.ofNat_add, ← Nat.mul_add]
  refine Interrupted.apart m.apartCode ?_ (by omega)
  split_ifs <;> omega

theorem not_reports_alignment (p : c.Parts) (hk : 0 < k) (m : Interrupted c) (e : Word k) :
    ¬ c.Reports m.toMachine 17 e := by
  intro h
  have hbelow := h.saves.below
  rw [(call_passes p m 17 e).stack, saved_low, if_pos rfl, Nat.mul_succ, BitVec.ofNat_add] at hbelow
  rw [sub_add_eq_sub_sub_swap, BitVec.sub_add_cancel] at hbelow
  have hzero : BitVec.ofNat (8 * k) k = 0 := sub_eq_self.1 hbelow
  have hnat := congrArg BitVec.toNat hzero
  rw [BitVec.toNat_ofNat, Nat.mod_eq_of_lt (Bytes.lt_size k)] at hnat
  exact Nat.ne_of_gt hk hnat

theorem saved_load (p : c.Parts) (m : Interrupted c) (hv : v ≠ 17) (e : Word k) :
    ∃ mem : Bytes k, mem.load c.tmpExceptionErr = errorCode v e ∧
      c.argument (c.exceptionCall m.toMachine v e) 1 = BitVec.ofNat _ v ∧
      c.argument (c.exceptionCall m.toMachine v e) 2 =
        (mem.store c.tmpExceptionCode (BitVec.ofNat _ v)).load c.tmpExceptionErr ∧
      c.Saves m.toMachine (c.exceptionCall m.toMachine v e)
        (c.argument (c.exceptionCall m.toMachine v e) 0) := by
  have hdepth : c.depth = c.general.length + 4 := rfl
  have hpass := call_passes p m v e
  obtain ⟨mem, herr, hu, hframe⟩ := unstacked_spec p.acc_ne m hv e
  rw [hu] at hpass
  have hload {x : Word k} (hx : Bytes.Apart (m.regs c.sp - BitVec.ofNat _ (k * c.depth))
      (k * (c.depth + FRAME_WORDS)) x) :
      (c.saved ⟨m.regs, mem.store c.tmpExceptionCode (BitVec.ofNat _ v)⟩).mem.load x =
        (mem.store c.tmpExceptionCode (BitVec.ofNat _ v)).load x := by
    refine Machine.pushAll_load hx (o := k * c.depth) (BitVec.sub_add_cancel ..).symm ?_ ?_
    · rw [List.length_map]
      exact Nat.mul_le_mul_left k (by omega)
    · exact Nat.mul_le_mul_left k (by omega)
  refine ⟨mem, herr, ?_, ?_, ?_⟩
  · rw [hpass.code, hload m.apartCode, Bytes.load_store]
  · rw [hpass.error, hload m.apartErr]
  · have hsaved : c.Saves m.toMachine
        (c.saved ⟨m.regs, mem.store c.tmpExceptionCode (BitVec.ofNat _ v)⟩) _ :=
      .saved rfl hframe (m.size_le (by omega))
    rw [hpass.stack]
    exact hsaved.congr hpass.words

/-- All but the error code is right. -/
theorem reports_iff_error (p : c.Parts) (m : Interrupted c) (hv : v ≠ 17) (e : Word k) :
    c.Reports m.toMachine v e ↔
      c.argument (c.exceptionCall m.toMachine v e) 2 = errorCode v e := by
  obtain ⟨_, _, hcode, _, hsaves⟩ := saved_load p m hv e
  exact ⟨fun h => h.error, fun h => ⟨h, hcode, hsaves, pit_saves p m, fun _ => restores_saved p⟩⟩

/-- With one variable for both words, the vector is reported as the error code. -/
theorem error_of_same (p : c.Parts) (h : c.tmpExceptionErr = c.tmpExceptionCode)
    (m : Interrupted c) (hv : v ≠ 17) (e : Word k) :
    c.argument (c.exceptionCall m.toMachine v e) 2 = BitVec.ofNat _ v := by
  obtain ⟨_, _, _, herror, _⟩ := saved_load p m hv e
  rw [herror, h, Bytes.load_store]

theorem error_of_apart (p : c.Parts) (h : Bytes.Apart c.tmpExceptionCode k c.tmpExceptionErr)
    (m : Interrupted c) (hv : v ≠ 17) (e : Word k) :
    c.argument (c.exceptionCall m.toMachine v e) 2 = errorCode v e := by
  obtain ⟨mem, herr, _, herror, _⟩ := saved_load p m hv e
  rw [herror, h.load_store, herr]

end Parts

end IsrCode

namespace Amd64

theorem rsp_not_mem : Reg.rsp ∉ general := by decide

theorem mem_general (r : Reg) (h : r ≠ .rsp) : r ∈ general := by
  revert h
  cases r <;> decide

def parts (start : Word 8) : (code start).Parts where
  acc := .rax
  save := pushRegs
  pass := [.loadAbs .rdx (tmp start .tmpExceptionErr),
    .loadAbs .rsi (tmp start .tmpExceptionCode), .mov .rdi .rsp, .cld]
  passPit := [.cld, .mov .rdi .rsp]
  acc_ne := nofun
  common := rfl
  pit := rfl
  saves := Machine.exec_push rsp_not_mem
  passes _ _ _ _ := ⟨rfl, rfl, rfl, rfl⟩
  passesPit _ _ _ := ⟨rfl, rfl⟩
  restores m := (Machine.exec_append ..).trans
    (Machine.exec_pop (mt List.mem_reverse.1 rsp_not_mem) (m.set .rsp (m.regs .rax)))
  all := mem_general

theorem tmp_same (start : Word 8) : tmp start .tmpExceptionErr = tmp start .tmpExceptionCode := by
  have hbytes : (Directive.data 8 [] : Directive Tmp).bytes = 0 := rfl
  rw [tmp, tmp, bss, labelAddress, labelAddress, labelAddress, labelAddress, hbytes]
  exact (BitVec.add_zero start).symm

end Amd64

namespace I386

theorem mem_general (r : Reg) : r ∈ general := by
  cases r <;> decide

theorem argument_pushAll (m : Machine Reg 4) (hlen : vals.length ≤ 3)
    (h : vals.reverse[i.val]? = some v) : argument (m.pushAll .esp vals) i = v := by
  have hle : 4 * (vals.length + 0) ≤ 2 ^ (8 * 4) := by omega
  have hwords := Machine.pushAll_words .esp hle m
  refine Bytes.load_of_words (n := vals.length + 0) ?_
  rw [hwords, Bytes.words, List.append_nil, h]

/-- What is passed is pushed, and what is pushed first does not change the second variable. -/
theorem passes (start : Word 4) (m : Machine Reg 4) (n : Nat) (hle : 4 * (3 + n) ≤ 2 ^ (8 * 4))
    (hapart : Bytes.Apart (m.regs .esp - BitVec.ofNat _ (4 * 3)) (4 * 3)
      (tmp start .tmpExceptionCode)) :
    (code start).Passes m (m.exec .esp [.mov .eax .esp, .pushAbs (tmp start .tmpExceptionErr),
      .pushAbs (tmp start .tmpExceptionCode), .push .eax, .cld]) n := by
  have hcode (v : Word 4) : ((m.set .eax (m.regs .esp)).push .esp v).mem.load
      (tmp start .tmpExceptionCode) = m.mem.load (tmp start .tmpExceptionCode) := by
    have hlow := hapart.sub (b := m.regs .esp - wordSize 4) (o := 4 * 2) (l := 4) (by
      rw [show (4 * 3 : Nat) = 4 * 2 + 4 from rfl, BitVec.ofNat_add, wordSize]
      ring) (Nat.le_refl _)
    exact hlow.load_store m.mem v
  have hexec : m.exec .esp [.mov .eax .esp, .pushAbs (tmp start .tmpExceptionErr),
      .pushAbs (tmp start .tmpExceptionCode), .push .eax, .cld] =
      (m.set .eax (m.regs .esp)).pushAll .esp [m.mem.load (tmp start .tmpExceptionErr),
        m.mem.load (tmp start .tmpExceptionCode), m.regs .esp] := by
    rw [← hcode (m.mem.load (tmp start .tmpExceptionErr))]
    rfl
  rw [hexec]
  exact ⟨argument_pushAll _ (Nat.le_refl 3) rfl, argument_pushAll _ (Nat.le_refl 3) rfl,
    argument_pushAll _ (Nat.le_refl 3) rfl, Machine.pushAll_rest hle (m.set .eax (m.regs .esp))⟩

theorem passesPit (start : Word 4) (m : Machine Reg 4) (n : Nat)
    (hle : 4 * (1 + n) ≤ 2 ^ (8 * 4)) :
    (code start).argument (m.exec .esp [.cld, .push .esp]) 0 = m.regs .esp ∧
      (m.exec .esp [.cld, .push .esp]).mem.words (m.regs .esp) n = m.mem.words (m.regs .esp) n := by
  have hexec : m.exec .esp [.cld, .push .esp] = m.pushAll .esp [m.regs .esp] := rfl
  rw [hexec]
  exact ⟨argument_pushAll m (by decide : 1 ≤ 3) rfl, Machine.pushAll_rest hle m⟩

def parts (start : Word 4) : (code start).Parts where
  acc := .eax
  save := [.pushAll general]
  pass := [.mov .eax .esp, .pushAbs (tmp start .tmpExceptionErr),
    .pushAbs (tmp start .tmpExceptionCode), .push .eax, .cld]
  passPit := [.cld, .push .esp]
  acc_ne := nofun
  common := rfl
  pit := rfl
  saves m := Machine.exec_pushAll m general
  passes := passes start
  passesPit := passesPit start
  restores m := Machine.exec_popAll m .esp .eax general.reverse
  all r _ := mem_general r

theorem tmp_apart (start : Word 4) :
    Bytes.Apart (tmp start .tmpExceptionCode) 4 (tmp start .tmpExceptionErr) := by
  have hbytes : (Directive.data 4 [0] : Directive Tmp).bytes = 4 := rfl
  have hcode : tmp start .tmpExceptionCode = start + 4 := by
    rw [tmp, bss, labelAddress, labelAddress, labelAddress, hbytes]
    rfl
  have herr : tmp start .tmpExceptionErr = start := rfl
  have hfar : ∀ i < 4, 4 ≤ (BitVec.ofNat (8 * 4) i - 4).toNat := by decide
  intro i hi
  have hdiff : start + BitVec.ofNat _ i - (start + 4) = BitVec.ofNat _ i - 4 := by ring
  rw [hcode, herr, hdiff]
  exact hfar i hi

end I386

/-- On i386 all exceptions but the alignment check are reported and saved as they are to be; on
amd64, where the error code is overwritten, only those of them whose error code is their vector. -/
theorem reports_iff (v : Fin 19) :
    (∀ start (m : (I386.code start).Interrupted) e,
      (I386.code start).Reports m.toMachine v e ↔ v ≠ 17) ∧
    ∀ start (m : (Amd64.code start).Interrupted) e,
      (Amd64.code start).Reports m.toMachine v e ↔
        v ≠ 17 ∧ IsrCode.errorCode v e = BitVec.ofNat _ v := by
  refine ⟨fun start m e => ?i386, fun start m e => ?amd64⟩
  case i386 =>
    refine ⟨?_, fun hv => ?_⟩
    · rintro h rfl
      exact (I386.parts start).not_reports_alignment (by decide) m e h
    · exact ((I386.parts start).reports_iff_error m hv e).2
        ((I386.parts start).error_of_apart (I386.tmp_apart start) m hv e)
  case amd64 =>
    by_cases hv : v = 17
    · subst hv
      exact iff_of_false ((Amd64.parts start).not_reports_alignment (by decide) m e)
        fun h => h.1 rfl
    · rw [(Amd64.parts start).reports_iff_error m hv e,
        (Amd64.parts start).error_of_same (Amd64.tmp_same start) m hv e]
      exact ⟨fun h => ⟨hv, h.symm⟩, fun h => h.2.symm⟩

namespace Amd64

/-- A stack at 32768, and the variables at 4096. -/
def interrupted : (code 4096).Interrupted where
  regs r := if r = .rsp then 32768 else 0
  mem _ := 0
  apartErr := by decide
  apartCode := by decide

end Amd64

theorem not_reports_pageFault : ¬ ∀ start (m : (Amd64.code start).Interrupted) v e,
    (Amd64.code start).Reports m.toMachine v e := by
  intro hall
  have herror := (hall 4096 Amd64.interrupted 14 2).error
  have hv : (14 : Fin 19) ≠ 17 := by decide
  rw [(Amd64.parts 4096).error_of_same (Amd64.tmp_same 4096) Amd64.interrupted hv 2] at herror
  exact absurd herror (by decide)

end Tupai
