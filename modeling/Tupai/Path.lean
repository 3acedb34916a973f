import Tupai.Str

namespace Tupai
set_option autoImplicit true

def FILENAME_MAX : Nat := 256

def SLASH : Byte := 0x2f#8

def countElements : (path : Chars) → (separator : Bool) → (count : Nat) → Nat
  | [], _, count => count
  | c :: path, separator, count =>
    if c = 0#8 then count
    else if c = SLASH then countElements path true count
    else countElements path false (if separator then count + 1 else count)

def pathElementCount (path : Chars) : Nat := countElements path true 0

def copyElement : (path buff : Chars) → (room : Nat) → Chars
  | c :: path, buff, room + 1 =>
    if c = SLASH ∨ c = 0#8 then 0#8 :: buff.tail else c :: copyElement path buff.tail room
  | _, buff, _ => 0#8 :: buff.tail

def getElement (index : Nat) : (path buff : Chars) → (separator : Bool) → (count : Nat) →
    Bool × Chars
  | [], buff, _, _ => (false, buff)
  | c :: path, buff, separator, count =>
    if c = 0#8 then (false, buff)
    else if c = SLASH then getElement index path buff true count
    else if separator then
      if count = index then (true, copyElement (c :: path) buff (FILENAME_MAX - 1))
      else getElement index path buff false (count + 1)
    else getElement index path buff false count

def pathElementGet (path buff : Chars) (index : Nat) : Bool × Chars :=
  getElement index path buff true 0

/-- The non-empty components of a path. -/
def elements (path : Chars) : List Chars := ((cstr path).splitOn SLASH).filter (· ≠ [])

/-- The components that start in the rest of a path, which may be in the middle of one. -/
def elementsFrom (path : Chars) (separator : Bool) : List Chars :=
  let parts := (cstr path).splitOn SLASH
  (if separator then parts else parts.tail).filter (· ≠ [])

theorem splitOn_cons_slash (s : Chars) :
    (SLASH :: s).splitOn SLASH = [] :: s.splitOn SLASH := by
  rw [List.splitOn_cons_eq_if_modifyHead, if_pos (by simp)]

theorem splitOn_cons_other (s : Chars) (h : c ≠ SLASH) :
    (c :: s).splitOn SLASH = (c :: (s.splitOn SLASH).headD []) :: (s.splitOn SLASH).tail := by
  rw [List.splitOn_cons_eq_if_modifyHead, if_neg (by simpa using h)]
  cases hs : s.splitOn SLASH with
  | nil => exact absurd hs (List.splitOn_ne_nil _ _)
  | cons x xs => rfl

theorem elementsFrom_end (h : cstr path = []) (separator : Bool) :
    elementsFrom path separator = [] := by
  cases separator <;> simp [elementsFrom, h]

theorem elementsFrom_slash (path : Chars) (separator : Bool) :
    elementsFrom (SLASH :: path) separator = elementsFrom path true := by
  have hc : cstr (SLASH :: path) = SLASH :: cstr path := by
    rw [cstr_cons, if_neg (by decide)]
  cases separator <;> simp [elementsFrom, hc, splitOn_cons_slash]

theorem elementsFrom_start (path : Chars) (h0 : c ≠ 0#8) (h : c ≠ SLASH) :
    elementsFrom (c :: path) true =
      (c :: ((cstr path).splitOn SLASH).headD []) :: elementsFrom path false := by
  rw [elementsFrom, cstr_cons, if_neg h0, splitOn_cons_other _ h]
  simp [elementsFrom]

theorem elementsFrom_inside (path : Chars) (h0 : c ≠ 0#8) (h : c ≠ SLASH) :
    elementsFrom (c :: path) false = elementsFrom path false := by
  rw [elementsFrom, cstr_cons, if_neg h0, splitOn_cons_other _ h]
  simp [elementsFrom]

theorem countElements_eq (path : Chars) (separator : Bool) (count : Nat) :
    countElements path separator count = count + (elementsFrom path separator).length := by
  induction path generalizing separator count with
  | nil => rw [elementsFrom_end rfl]; rfl
  | cons c path ih =>
    rw [countElements]
    split_ifs with h0 h hs
    · rw [elementsFrom_end (by rw [cstr_cons, if_pos h0])]
      rfl
    · subst h
      rw [ih, elementsFrom_slash]
    · subst hs
      rw [ih, elementsFrom_start path h0 h, List.length_cons]
      omega
    · rw [ih, (Bool.not_eq_true _).mp hs, elementsFrom_inside path h0 h]

theorem pathElementCount_eq (path : Chars) : pathElementCount path = (elements path).length := by
  rw [pathElementCount, countElements_eq, Nat.zero_add]
  rfl

theorem copyElement_eq (path buff : Chars) (room : Nat) :
    copyElement path buff room =
      putStr ((((cstr path).splitOn SLASH).headD []).take room) buff := by
  induction room generalizing path buff with
  | zero => cases path <;> simp [copyElement, putStr]
  | succ room ih =>
    cases path with
    | nil => simp [copyElement, putStr, cstr]
    | cons c path =>
      rw [copyElement, cstr_cons]
      by_cases h0 : c = 0#8
      · simp [h0, putStr]
      · rw [if_neg h0]
        by_cases h : c = SLASH
        · rw [if_pos (.inl h), h, splitOn_cons_slash]
          simp [putStr]
        · rw [if_neg (by simp [h, h0]), ih, splitOn_cons_other _ h, List.headD_cons,
            List.take_succ_cons, putStr_cons]

theorem getElement_eq (index : Nat) (path buff : Chars) (separator : Bool) (count : Nat)
    (hle : count ≤ index) :
    getElement index path buff separator count =
      match (elementsFrom path separator)[index - count]? with
      | some e => (true, putStr (e.take (FILENAME_MAX - 1)) buff)
      | none => (false, buff) := by
  induction path generalizing separator count with
  | nil => rw [elementsFrom_end rfl]; rfl
  | cons c path ih =>
    rw [getElement]
    split_ifs with h0 h hs he
    · rw [elementsFrom_end (by rw [cstr_cons, if_pos h0])]
      rfl
    · subst h
      rw [ih _ _ hle, elementsFrom_slash]
    · subst hs he
      rw [elementsFrom_start path h0 h, Nat.sub_self, List.getElem?_cons_zero, copyElement_eq,
        cstr_cons, if_neg h0, splitOn_cons_other _ h]
      rfl
    · subst hs
      have hsub : index - count = index - (count + 1) + 1 := by omega
      rw [ih _ _ (by omega), elementsFrom_start path h0 h, hsub, List.getElem?_cons_succ]
    · rw [ih _ _ hle, (Bool.not_eq_true _).mp hs, elementsFrom_inside path h0 h]

/-- `path_element_get` stores the component cut to the size of the buffer. -/
theorem pathElementGet_eq (path buff : Chars) (index : Nat) :
    pathElementGet path buff index =
      match (elements path)[index]? with
      | some e => (true, putStr (e.take (FILENAME_MAX - 1)) buff)
      | none => (false, buff) :=
  getElement_eq index path buff true 0 (Nat.zero_le index)

theorem splitOn_chars (s : Chars) : ∀ e ∈ s.splitOn SLASH, ∀ c ∈ e, c ∈ s ∧ c ≠ SLASH := by
  induction s with
  | nil => simp
  | cons d s ih =>
    have hkeep : ∀ e ∈ s.splitOn SLASH, ∀ c ∈ e, c ∈ d :: s ∧ c ≠ SLASH :=
      fun e he c hc => ⟨.tail d (ih e he c hc).1, (ih e he c hc).2⟩
    by_cases h : d = SLASH
    · have hd : (d :: s).splitOn SLASH = [] :: s.splitOn SLASH := by
        rw [h]
        exact splitOn_cons_slash s
      rw [hd]
      exact List.forall_mem_cons.2 ⟨List.forall_mem_nil _, hkeep⟩
    · rw [splitOn_cons_other _ h]
      cases hs : s.splitOn SLASH with
      | nil => exact absurd hs (List.splitOn_ne_nil _ _)
      | cons x xs =>
        rw [hs, List.forall_mem_cons] at hkeep
        refine List.forall_mem_cons.2 ⟨?_, hkeep.2⟩
        exact List.forall_mem_cons.2 ⟨⟨List.mem_cons_self, h⟩, hkeep.1⟩

theorem elements_ne_nil (he : e ∈ elements path) : e ≠ [] := by
  simpa using (List.mem_filter.1 he).2

theorem elements_chars (he : e ∈ elements path) : ∀ c ∈ e, c ≠ 0#8 ∧ c ≠ SLASH := by
  intro c hc
  obtain ⟨hm, hs⟩ := splitOn_chars _ e (List.mem_filter.1 he).1 c hc
  exact ⟨cstr_ne_zero _ c hm, hs⟩

theorem splitOn_length (s : Chars) : ∀ e ∈ s.splitOn SLASH, e.length ≤ s.length := by
  induction s with
  | nil => simp
  | cons d s ih =>
    have hkeep : ∀ e ∈ s.splitOn SLASH, e.length ≤ (d :: s).length :=
      fun e he => Nat.le_succ_of_le (ih e he)
    by_cases h : d = SLASH
    · subst h
      rw [splitOn_cons_slash]
      exact List.forall_mem_cons.2 ⟨Nat.zero_le _, hkeep⟩
    · rw [splitOn_cons_other _ h]
      cases hs : s.splitOn SLASH with
      | nil => exact absurd hs (List.splitOn_ne_nil _ _)
      | cons x xs =>
        rw [hs] at ih hkeep
        exact List.forall_mem_cons.2
          ⟨Nat.succ_le_succ (ih x List.mem_cons_self), (List.forall_mem_cons.1 hkeep).2⟩

theorem elements_length (he : e ∈ elements path) : e.length ≤ path.length :=
  (splitOn_length _ e (List.mem_filter.1 he).1).trans (List.takeWhile_sublist _).length_le

theorem cstr_pathElementGet (buff : Chars) (h : (elements path)[i]? = some e) :
    cstr (pathElementGet path buff i).2 = e.take (FILENAME_MAX - 1) := by
  rw [pathElementGet_eq, h]
  apply cstr_putStr
  intro c hc
  exact (elements_chars (List.mem_of_getElem? h) c (List.mem_of_mem_take hc)).1

/-- Nothing behind the NUL of a string is written. -/
theorem getElem?_putStr (dest : Chars) (h : s.length < j) : (putStr s dest)[j]? = dest[j]? := by
  obtain ⟨k, rfl⟩ := Nat.exists_eq_add_of_lt h
  rw [putStr, List.getElem?_append_right (by omega), Nat.add_assoc, Nat.add_sub_cancel_left,
    List.getElem?_cons_succ, List.getElem?_drop, Nat.add_right_comm, Nat.add_assoc]

/-- The two scanners agree with each other and with the components of the path. -/
structure SplitsExactly (path : Chars) : Prop where
  count : pathElementCount path = (elements path).length
  found : ∀ buff i, (pathElementGet path buff i).1 = true ↔ i < pathElementCount path
  stored : ∀ buff i e, (elements path)[i]? = some e →
    (pathElementGet path buff i).2 = putStr (e.take (FILENAME_MAX - 1)) buff ∧
      cstr (pathElementGet path buff i).2 = e.take (FILENAME_MAX - 1)
  missing : ∀ buff i, pathElementCount path ≤ i → (pathElementGet path buff i).2 = buff
  inside : ∀ buff i j, FILENAME_MAX ≤ j → (pathElementGet path buff i).2[j]? = buff[j]?

theorem pathElementGet_found (path buff : Chars) (i : Nat) :
    (pathElementGet path buff i).1 = true ↔ i < pathElementCount path := by
  rw [pathElementGet_eq, pathElementCount_eq]
  rcases Nat.lt_or_ge i (elements path).length with hlt | hge
  · rw [List.getElem?_eq_getElem hlt]
    exact iff_of_true rfl hlt
  · rw [List.getElem?_eq_none hge]
    exact iff_of_false Bool.false_ne_true (Nat.not_lt.2 hge)

theorem pathElementGet_missing (buff : Chars) (h : pathElementCount path ≤ i) :
    (pathElementGet path buff i).2 = buff := by
  rw [pathElementCount_eq] at h
  rw [pathElementGet_eq, List.getElem?_eq_none h]

theorem pathElementGet_inside (path buff : Chars) (i : Nat) (h : FILENAME_MAX ≤ j) :
    (pathElementGet path buff i).2[j]? = buff[j]? := by
  rw [pathElementGet_eq]
  cases (elements path)[i]? with
  | none => rfl
  | some e =>
    apply getElem?_putStr
    have hlen : (e.take (FILENAME_MAX - 1)).length ≤ FILENAME_MAX - 1 := List.length_take_le _ e
    exact Nat.lt_of_lt_of_le (Nat.lt_of_le_of_lt hlen (by decide)) h

/-- Paths are split exactly. -/
theorem splitsExactly (path : Chars) : SplitsExactly path where
  count := pathElementCount_eq path
  found := pathElementGet_found path
  stored buff i e he := ⟨by rw [pathElementGet_eq, he], cstr_pathElementGet buff he⟩
  missing buff _ h := pathElementGet_missing buff h
  inside buff i _ h := pathElementGet_inside path buff i h

end Tupai
