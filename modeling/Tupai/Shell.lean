import Mathlib.Data.List.Forall2
import Tupai.Str

namespace Tupai
set_option autoImplicit true

/-- What `split_args` makes of a command line: the line, the entries of `buff` that it wrote, each
with an index into the line, and `j`. -/
structure Split where
  cmd : Chars
  buff : Nat → Option Nat
  j : Nat

/-- The split of a line that has one more character in front. -/
def Split.cons (c : Byte) (r : Split) : Split := { r with cmd := c :: r.cmd }

def isBlank (c : Byte) : Bool := c = 0x20#8 || c = 0x09#8

/-- The loop of `split_args` from index `i` on. It has no meaning once `j` overflows. -/
def splitLoop (size : Nat) : (cmd : Chars) → (i : Nat) → (inArg : Bool) → (j : Nat) →
    (buff : Nat → Option Nat) → Option Split
  | [], _, _, j, buff => some ⟨[], buff, j⟩
  | c :: cmd, i, inArg, j, buff =>
    if c = 0#8 then some ⟨c :: cmd, buff, j⟩
    else if isBlank c then (splitLoop size cmd (i + 1) false j buff).map (Split.cons 0#8)
    else if inArg then (splitLoop size cmd (i + 1) true j buff).map (Split.cons c)
    else if j ≥ size then some ⟨c :: cmd, buff, j⟩
    else if j ≥ intMax then none
    else
      (splitLoop size cmd (i + 1) true (j + 1) (Function.update buff j (some i))).map (Split.cons c)

def splitArgs (cmd : Chars) (size : Nat) : Option Split :=
  splitLoop size cmd 0 false 0 fun _ => none

/-- The pieces between the spaces and tabs of a string. -/
def pieces (cmd : Chars) : List Chars := (cstr cmd).splitOnP isBlank

/-- The maximal runs of other characters. -/
def argRuns (cmd : Chars) : List Chars := (pieces cmd).filter (· ≠ [])

structure SplitsRight (cmd : Chars) (size : Nat) (r : Split) : Prop where
  count : r.j = min size (argRuns cmd).length
  args : ∀ k < r.j, ∃ p, r.buff k = some p ∧ (argRuns cmd)[k]? = some (cstr (r.cmd.drop p))
  kept : List.Forall₂ (fun c c' => c' = c ∨ isBlank c) cmd r.cmd
  bounded : ∀ k ≥ size, r.buff k = none

/-- The runs that begin later, in a string that may begin within one. -/
def laterRuns (inArg : Bool) (cmd : Chars) : List Chars :=
  if inArg then (pieces cmd).tail.filter (· ≠ []) else argRuns cmd

theorem pieces_stop (hc : cstr cmd = []) : pieces cmd = [[]] := by
  rw [pieces, hc]
  rfl

theorem pieces_blank (hzero : c ≠ 0#8) (hc : isBlank c = true) (cmd : Chars) :
    pieces (c :: cmd) = [] :: pieces cmd := by
  rw [pieces, cstr_cons, if_neg hzero, List.splitOnP_cons_eq_if_modifyHead, if_pos hc, pieces]

theorem pieces_char (hzero : c ≠ 0#8) (hc : ¬ isBlank c = true) (cmd : Chars) :
    ∃ first rest, pieces cmd = first :: rest ∧ pieces (c :: cmd) = (c :: first) :: rest := by
  obtain ⟨first, rest, he⟩ := List.exists_cons_of_ne_nil (List.splitOnP_ne_nil isBlank (cstr cmd))
  refine ⟨first, rest, he, ?_⟩
  rw [pieces, cstr_cons, if_neg hzero, List.splitOnP_cons_eq_if_modifyHead, if_neg hc, he]
  rfl

theorem laterRuns_stop (hc : cstr cmd = []) (inArg : Bool) : laterRuns inArg cmd = [] := by
  rw [laterRuns, argRuns, pieces_stop hc]
  cases inArg <;> rfl

theorem laterRuns_blank (hzero : c ≠ 0#8) (hc : isBlank c = true) (inArg : Bool) (cmd : Chars) :
    laterRuns inArg (c :: cmd) = laterRuns false cmd := by
  rw [laterRuns, argRuns, pieces_blank hzero hc]
  cases inArg <;> rfl

theorem laterRuns_in (hzero : c ≠ 0#8) (hc : ¬ isBlank c = true) (cmd : Chars) :
    laterRuns true (c :: cmd) = laterRuns true cmd := by
  obtain ⟨first, rest, he, hcons⟩ := pieces_char hzero hc cmd
  rw [laterRuns, laterRuns, he, hcons]
  rfl

theorem laterRuns_begin (hzero : c ≠ 0#8) (hc : ¬ isBlank c = true) (cmd : Chars) :
    laterRuns false (c :: cmd) = (c :: (pieces cmd).headD []) :: laterRuns true cmd := by
  obtain ⟨first, rest, he, hcons⟩ := pieces_char hzero hc cmd
  rw [laterRuns, laterRuns, argRuns, he, hcons]
  rfl

/-- What the loop does from index `i` on, with `j` entries of `buff` written before. -/
structure LoopSplits (size i : Nat) (inArg : Bool) (j : Nat) (buff : Nat → Option Nat) (cmd : Chars)
    (r : Split) : Prop where
  count : r.j = j + min (size - j) (laterRuns inArg cmd).length
  /-- The run that `i` is in is terminated. -/
  first : inArg = true → cstr r.cmd = (pieces cmd).headD []
  args : ∀ k < size - j, ∀ arg, (laterRuns inArg cmd)[k]? = some arg →
    ∃ p, r.buff (j + k) = some (i + p) ∧ cstr (r.cmd.drop p) = arg
  kept : List.Forall₂ (fun c c' => c' = c ∨ isBlank c) cmd r.cmd
  others : ∀ k, k < j ∨ r.j ≤ k → r.buff k = buff k

variable {size i j : Nat} {inArg : Bool} {buff : Nat → Option Nat} {r : Split}

theorem forall₂_kept (cmd : Chars) :
    List.Forall₂ (fun c c' => c' = c ∨ isBlank c) cmd cmd :=
  List.forall₂_same.2 fun _ _ => .inl rfl

theorem LoopSplits.stop (hc : cstr cmd = []) :
    LoopSplits size i inArg j buff cmd ⟨cmd, buff, j⟩ where
  count := by
    rw [laterRuns_stop hc, List.length_nil, Nat.min_zero]
    rfl
  first _ := by
    rw [pieces_stop hc]
    exact hc
  args k _ arg hk := by
    rw [laterRuns_stop hc] at hk
    cases hk
  kept := forall₂_kept cmd
  others _ _ := rfl

theorem LoopSplits.cons {next : Bool} (h : LoopSplits size (i + 1) next j buff cmd r)
    (hlater : laterRuns inArg (c :: cmd) = laterRuns next cmd)
    (hfirst : inArg = true → cstr (c' :: r.cmd) = (pieces (c :: cmd)).headD [])
    (hkept : c' = c ∨ isBlank c) : LoopSplits size i inArg j buff (c :: cmd) (r.cons c') where
  count := by
    rw [hlater]
    exact h.count
  first := hfirst
  args k hk arg harg := by
    rw [hlater] at harg
    obtain ⟨p, hp, hstr⟩ := h.args k hk arg harg
    refine ⟨p + 1, ?_, hstr⟩
    rw [Nat.add_right_comm] at hp
    exact hp
  kept := .cons hkept h.kept
  others := h.others

/-- The first character of a run, to which an entry of `buff` gets to point. -/
theorem LoopSplits.begin (h : LoopSplits size (i + 1) true (j + 1)
    (Function.update buff j (some i)) cmd r) (hzero : c ≠ 0#8) (hc : ¬ isBlank c = true)
    (hlt : j < size) : LoopSplits size i false j buff (c :: cmd) (r.cons c) where
  count := by
    refine h.count.trans ?_
    rw [laterRuns_begin hzero hc, List.length_cons]
    omega
  first hin := by cases hin
  args k hk arg harg := by
    rw [laterRuns_begin hzero hc] at harg
    cases k with
    | zero =>
      refine ⟨0, ?_, ?_⟩
      · refine (h.others j (.inl (Nat.lt_succ_self j))).trans ?_
        rw [Function.update_self]
        rfl
      · rw [← Option.some.inj harg, ← h.first rfl]
        exact (cstr_cons c r.cmd).trans (if_neg hzero)
    | succ k =>
      obtain ⟨p, hp, hstr⟩ := h.args k (by omega) arg harg
      refine ⟨p + 1, ?_, hstr⟩
      rw [Nat.add_right_comm, Nat.add_right_comm i] at hp
      exact hp
  kept := .cons (.inl rfl) h.kept
  others k hk := by
    have hcount := h.count
    refine (h.others k (hk.imp_left Nat.lt_succ_of_lt)).trans (Function.update_of_ne ?_ _ _)
    rintro rfl
    rcases hk with hk | hk
    · exact Nat.lt_irrefl k hk
    · change r.j ≤ k at hk
      omega

/-- At the limit, the loop stops where a run begins. -/
theorem LoopSplits.full (cmd : Chars) (hfull : size ≤ j) :
    LoopSplits size i false j buff cmd ⟨cmd, buff, j⟩ where
  count := by
    rw [Nat.sub_eq_zero_of_le hfull, Nat.zero_min]
    rfl
  first hin := by cases hin
  args k hk := by
    rw [Nat.sub_eq_zero_of_le hfull] at hk
    exact absurd hk (Nat.not_lt_zero k)
  kept := forall₂_kept cmd
  others _ _ := rfl

/-- How many entries of `buff` the loop writes in all. -/
def argsWritten (size j : Nat) (later : List Chars) : Nat := j + min (size - j) later.length

theorem argsWritten_nil (size j : Nat) : argsWritten size j [] = j := by
  rw [argsWritten, List.length_nil, Nat.min_zero]
  rfl

/-- The loop splits the rest of the line, or has no meaning because an `int` cannot count `j` up to
the number of runs. -/
def LoopResult (size i : Nat) (inArg : Bool) (j : Nat) (buff : Nat → Option Nat) (cmd : Chars)
    (res : Option Split) : Prop :=
  (argsWritten size j (laterRuns inArg cmd) ≤ intMax ∧
    ∃ r, res = some r ∧ LoopSplits size i inArg j buff cmd r) ∨
  (intMax < argsWritten size j (laterRuns inArg cmd) ∧ res = none)

theorem LoopResult.stop (hj : j ≤ intMax) (hc : cstr cmd = []) :
    LoopResult size i inArg j buff cmd (some ⟨cmd, buff, j⟩) := by
  refine .inl ⟨?_, _, rfl, .stop hc⟩
  rwa [laterRuns_stop hc, argsWritten_nil]

/-- What becomes of the rest of the line decides on the line. -/
theorem LoopResult.cons {next : Bool} {j' : Nat} {buff' : Nat → Option Nat} {res : Option Split}
    (h : LoopResult size (i + 1) next j' buff' cmd res)
    (hwritten : argsWritten size j (laterRuns inArg (c :: cmd)) =
      argsWritten size j' (laterRuns next cmd))
    (hcons : ∀ r, LoopSplits size (i + 1) next j' buff' cmd r →
      LoopSplits size i inArg j buff (c :: cmd) (r.cons c')) :
    LoopResult size i inArg j buff (c :: cmd) (res.map (Split.cons c')) := by
  rw [LoopResult, hwritten]
  rcases h with ⟨hle, r, rfl, hr⟩ | ⟨hlt, rfl⟩
  · exact .inl ⟨hle, r.cons c', rfl, hcons r hr⟩
  · exact .inr ⟨hlt, rfl⟩

theorem splitLoop_result (size : Nat) (cmd : Chars) (i : Nat) (inArg : Bool) (hj : j ≤ intMax)
    (buff : Nat → Option Nat) :
    LoopResult size i inArg j buff cmd (splitLoop size cmd i inArg j buff) := by
  induction cmd generalizing i inArg j buff with
  | nil => exact .stop hj rfl
  | cons c cmd ih =>
    rw [splitLoop]
    split_ifs with hzero hblank hin hfull hmax
    · exact .stop hj ((cstr_cons c cmd).trans (if_pos hzero))
    · have hlater := laterRuns_blank hzero hblank inArg cmd
      refine (ih (i + 1) false hj buff).cons (congrArg _ hlater) fun r hr => ?_
      refine hr.cons hlater (fun _ => ?_) (.inr hblank)
      rw [pieces_blank hzero hblank, cstr_cons, if_pos rfl]
      rfl
    · subst hin
      have hlater := laterRuns_in hzero hblank cmd
      refine (ih (i + 1) true hj buff).cons (congrArg _ hlater) fun r hr => ?_
      refine hr.cons hlater (fun _ => ?_) (.inl rfl)
      obtain ⟨first, rest, hpieces, hcons⟩ := pieces_char hzero hblank cmd
      rw [hcons, cstr_cons, if_neg hzero, hr.first rfl, hpieces]
      rfl
    · rw [Bool.not_eq_true] at hin
      subst hin
      refine .inl ⟨?_, _, rfl, .full _ hfull⟩
      rw [argsWritten, Nat.sub_eq_zero_of_le hfull, Nat.zero_min]
      exact hj
    · rw [Bool.not_eq_true] at hin
      subst hin
      refine .inr ⟨?_, rfl⟩
      rw [laterRuns_begin hzero hblank, argsWritten, List.length_cons]
      omega
    · rw [Bool.not_eq_true] at hin
      subst hin
      have hwritten : argsWritten size j (laterRuns false (c :: cmd)) =
          argsWritten size (j + 1) (laterRuns true cmd) := by
        rw [laterRuns_begin hzero hblank, argsWritten, argsWritten, List.length_cons]
        omega
      refine (ih (i + 1) true (Nat.lt_of_not_le hmax) _).cons hwritten fun r hr => ?_
      exact hr.begin hzero hblank (Nat.lt_of_not_le hfull)

theorem LoopSplits.splitsRight (h : LoopSplits size 0 false 0 (fun _ => none) cmd r) :
    SplitsRight cmd size r where
  count := by
    have hcount := h.count
    rwa [Nat.zero_add, Nat.sub_zero] at hcount
  args k hk := by
    have hcount := h.count
    rw [Nat.zero_add, Nat.sub_zero] at hcount
    have hlt : k < (argRuns cmd).length := Nat.lt_of_lt_of_le hk (hcount ▸ Nat.min_le_right ..)
    obtain ⟨p, hp, hstr⟩ := h.args k (Nat.lt_of_lt_of_le hk (hcount ▸ Nat.min_le_left ..)) _
      (List.getElem?_eq_getElem hlt)
    rw [Nat.zero_add, Nat.zero_add] at hp
    refine ⟨p, hp, ?_⟩
    rw [hstr]
    exact List.getElem?_eq_getElem hlt
  kept := h.kept
  bounded k hk := by
    have hcount := h.count
    rw [Nat.zero_add, Nat.sub_zero] at hcount
    exact h.others k (.inr (Nat.le_trans (hcount ▸ Nat.min_le_left ..) hk))

/-- Lines are split right, as long as an `int` can count what is written. -/
theorem splitArgs_iff (cmd : Chars) (size : Nat) :
    (∃ r, splitArgs cmd size = some r ∧ SplitsRight cmd size r) ↔
      min size (argRuns cmd).length < 2 ^ 31 := by
  have hwritten : argsWritten size 0 (laterRuns false cmd) = min size (argRuns cmd).length :=
    Nat.zero_add _
  have hres := splitLoop_result size cmd 0 false (Nat.zero_le intMax) fun _ => none
  rw [LoopResult, hwritten, ← splitArgs, intMax] at hres
  rcases hres with ⟨hle, r, he, hr⟩ | ⟨hlt, he⟩
  · exact iff_of_true ⟨r, he, hr.splitsRight⟩ (by omega)
  · refine iff_of_false ?_ (by omega)
    rintro ⟨r, hr, -⟩
    rw [he] at hr
    cases hr

/-- A line of one-letter arguments. -/
def manyArgs : (n : Nat) → Chars
  | 0 => []
  | n + 1 => 0x61#8 :: 0x20#8 :: manyArgs n

theorem argRuns_manyArgs (n : Nat) : (argRuns (manyArgs n)).length = n := by
  induction n with
  | zero => rfl
  | succ n ih =>
    have hbegin := laterRuns_begin (c := 0x61#8) (by decide) (by decide) (0x20#8 :: manyArgs n)
    have hnext : laterRuns true (0x20#8 :: manyArgs n) = argRuns (manyArgs n) :=
      laterRuns_blank (by decide) (by decide) true (manyArgs n)
    have hlen := congrArg List.length hbegin
    rw [hnext, List.length_cons, ih] at hlen
    exact hlen

theorem splitArgs_manyArgs (hn : intMax < n) : splitArgs (manyArgs n) n = none := by
  have hwritten : argsWritten n 0 (laterRuns false (manyArgs n)) = n := by
    rw [argsWritten, laterRuns, if_neg Bool.false_ne_true, argRuns_manyArgs, Nat.zero_add,
      Nat.sub_zero, Nat.min_self]
  rcases splitLoop_result n (manyArgs n) 0 false (Nat.zero_le intMax) fun _ => none with
    ⟨hle, -⟩ | ⟨-, he⟩
  · rw [hwritten] at hle
    exact absurd hle (Nat.not_le.2 hn)
  · exact he

/-- A line with more arguments than an `int` can count. -/
theorem not_splitArgs_right : ¬ ∀ cmd size,
    ∃ r, splitArgs cmd size = some r ∧ SplitsRight cmd size r := by
  intro h
  obtain ⟨r, hr, -⟩ := h (manyArgs (intMax + 1)) (intMax + 1)
  rw [splitArgs_manyArgs (Nat.lt_succ_self intMax)] at hr
  cases hr

end Tupai
