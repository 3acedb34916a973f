import Tupai.Attributes
import Tupai.Fmt
import Tupai.Pipe
import Tupai.Readline
import Tupai.Rows
import Tupai.Shell

namespace Tupai
open Lib
set_option autoImplicit true

/-- `scancode_table`, with its NUL. -/
def scancodeTable : Chars :=
  chars "!!1234567890-=\x08\tqwertyuiop[]\n!asdfghjkl;'#!\\zxcvbnm,./!!! !FFFFFFFFFF!" ++ [0#8]

/-- The loop of `kbd_isr_main` over the codes that the controller holds. A code that is not in the
table ends it. -/
def kbdLoop : (codes : List Byte) → (inpipe : Queue Byte) → List Byte × Queue Byte
  | [], inpipe => ([], inpipe)
  | keycode :: codes, inpipe =>
    match scancodeTable[keycode.toNat]? with
    | some c => kbdLoop codes (inpipe.push PIPE_SIZE c)
    | none => (codes, inpipe)

/-- The character of a code. -/
def keyChar (keycode : Byte) : Option Byte := scancodeTable[keycode.toNat]?

/-- The size of the buffer that the shell reads a line into. -/
def lineSize : Nat := 64

def shellPrompt : Chars := chars "$ "

def helpText : Chars := chars <|
  "Available commands:\n" ++
  "  help    -> Show this help text\n" ++
  "  fs      -> Show filesystem tree\n" ++
  "  proc    -> Show running processes\n" ++
  "  cat     -> Display the contents of a file\n" ++
  "  echo    -> Echo the typed text to stdout\n" ++
  "  pool    -> Show kernel memory pool\n" ++
  "  motd    -> Show the MOTD\n" ++
  "  div     -> Trigger a divided-by-zero exception\n" ++
  "  panic   -> Trigger a kernel panic\n" ++
  "  info    -> Show system info\n" ++
  "  time    -> Show the system time\n"

/-- The commands whose output depends on the kernel, or that do not come back. -/
def kernelCommands : List Chars :=
  ["fs", "proc", "cat", "echo", "pool", "motd", "div", "panic", "info", "time"].map chars

def strLen : Chars → Nat
  | [] => 0
  | c :: s => if c ≠ 0#8 then strLen s + 1 else 0

/-- What a command prints, where `run` is what the kernel makes of it. There is no output if it
does not come back to the shell. -/
def commandOutput (run : List Chars → Option Chars) : (argv : List Chars) → Option Chars
  | [] => some []
  | name :: args =>
    if strEqual name (chars "help") then some helpText
    else if strEqual name (chars "cat") ∧ args = [] then some (chars "Usage: cat <file>\n")
    else if kernelCommands.any (strEqual name) then run (name :: args)
    else if strLen name > 0 then some (chars "Command '" ++ name ++ chars "' not found!\n")
    else some []

/-- The strings that `argv` points to. -/
def Split.argv (r : Split) : List Chars :=
  (List.range r.j).map fun k => (r.buff k).elim [] fun p => cstr (r.cmd.drop p)

/-- The line as `split_args` finds it in the buffer. -/
def Buffer.line (buff : Buffer) : Chars := (List.range lineSize).map fun k => (buff k).getD 0#8

def shellDispatch (run : List Chars → Option Chars) (buff : Buffer) : Option Chars :=
  (splitArgs buff.line lineSize).bind fun r => commandOutput run r.argv

/-- Where the shell goes on. -/
inductive ShellPc where
  | prompt
  /-- The test of the loop in `__readline`. -/
  | readline (i : Nat) (buff : Buffer)
  /-- Behind `tty_write(c)`. -/
  | echoed (c : Byte) (i : Nat) (buff : Buffer)
  | command (buff : Buffer)

/-- The shell, with the characters that it writes to the terminal next. -/
structure Shell where
  writes : Chars
  pc : ShellPc

/-- A round of the loop in `__readline`, up to what it writes. -/
def readlineRound (c : Byte) (i : Nat) (buff : Buffer) : Shell :=
  if c = 0x08#8 then
    if i > 0 then ⟨eraseChars, .readline (i - 1) buff⟩ else ⟨[], .readline i buff⟩
  else ⟨[c], .echoed c i buff⟩

/-- What the shell does next without the terminal. The buffer of a line holds what was left in its
memory. -/
def ShellPc.advance (run : List Chars → Option Chars) (leftover : Buffer) : ShellPc → Option Shell
  | .prompt => some ⟨shellPrompt, .readline 0 leftover⟩
  | .readline i buff =>
    if i + 1 < lineSize then none else some ⟨[], .command (buff.set i 0#8)⟩
  | .echoed c i buff =>
    if IsLineEnd c then some ⟨[], .command (buff.set i 0#8)⟩
    else if c ≠ 0#8 then some ⟨[], .readline (i + 1) (buff.set i c)⟩
    else some ⟨[], .readline i buff⟩
  | .command buff => (shellDispatch run buff).map fun out => ⟨out, .prompt⟩

structure Terminal where
  /-- The codes in the keyboard controller, the oldest first. -/
  codes : List Byte
  inpipe : Queue Byte
  outpipe : Queue Byte
  shell : Shell
  out : TtyOut

namespace Terminal

def kbdIsrMain (s : Terminal) : Terminal :=
  let (codes, inpipe) := kbdLoop s.codes s.inpipe
  { s with codes := codes, inpipe := inpipe }

/-- `tty_write` of the shell. -/
def ttyWrite (s : Terminal) (c : Byte) (writes : Chars) : Terminal :=
  { s with outpipe := s.outpipe.push PIPE_SIZE c, shell := ⟨writes, s.shell.pc⟩ }

/-- `tty_read` in `__readline`. -/
def ttyRead (s : Terminal) (i : Nat) (buff : Buffer) : Terminal :=
  { s with
    inpipe := (readUnsafe s.inpipe).2
    shell := readlineRound (readUnsafe s.inpipe).1 i buff }

/-- A round of `tty_out_thread`. -/
def ttyOut (s : Terminal) : Terminal :=
  { s with
    outpipe := (readUnsafe s.outpipe).2
    out := ttyOutRound (readUnsafe s.outpipe).1 s.out }

end Terminal

/-- The steps of the keyboard, the shell and the thread that writes to the screen, with all the
codes that there were so far. The controller has room for `size` codes, and unless the run is
`lossy` no pipe overflows. Interrupts and thread switches come between these steps: one inside of
`push` or `pop` could lose a character that the two of them move at the same time. -/
inductive TerminalStep (run : List Chars → Option Chars) (size : Nat) (lossy : Prop) :
    List Byte × Terminal → List Byte × Terminal → Prop where
  | key (keys : List Byte) (s : Terminal) (code : Byte) : s.codes.length < size →
      TerminalStep run size lossy (keys, s) (keys ++ [code], { s with codes := s.codes ++ [code] })
  | interrupt (keys : List Byte) (s : Terminal) : s.codes ≠ [] →
      (lossy ∨ s.inpipe.length + s.codes.length ≤ PIPE_SIZE) →
      TerminalStep run size lossy (keys, s) (keys, s.kbdIsrMain)
  | write (keys : List Byte) (s : Terminal) : s.shell.writes = c :: writes →
      (lossy ∨ s.outpipe.length < PIPE_SIZE) →
      TerminalStep run size lossy (keys, s) (keys, s.ttyWrite c writes)
  | advance (keys : List Byte) (s : Terminal) (leftover : Buffer) : s.shell.writes = [] →
      s.shell.pc.advance run leftover = some shell →
      TerminalStep run size lossy (keys, s) (keys, { s with shell := shell })
  | read (keys : List Byte) (s : Terminal) : s.shell = ⟨[], .readline i buff⟩ →
      i + 1 < lineSize → 0 < s.inpipe.len →
      TerminalStep run size lossy (keys, s) (keys, s.ttyRead i buff)
  | out (keys : List Byte) (s : Terminal) : 0 < s.outpipe.len →
      TerminalStep run size lossy (keys, s) (keys, s.ttyOut)

/-- The shell begins, and is about to print its greeting. -/
def TerminalStart (banner : Chars) : List Byte × Terminal → Prop := fun (keys, s) =>
  keys = [] ∧ s.codes = [] ∧ FreshQueue (s.inpipe, []) ∧ FreshQueue (s.outpipe, []) ∧
    s.shell = ⟨banner, .prompt⟩ ∧ ∃ buffer crtc, s.out.screen = textmodeInit buffer crtc

/-- A session at an ideal terminal: what is printed before the line, the text of the line, and the
cells that the line takes. -/
structure Session where
  printed : Chars
  text : Chars
  cells : Chars

namespace Session

variable (answer : Chars → Chars)

/-- The line is complete. Its answer and the next prompt follow. -/
def submit (s : Session) (lineEnd : Chars) : Session :=
  ⟨s.printed ++ s.cells ++ lineEnd ++ answer s.text ++ shellPrompt, [], []⟩

/-- A NUL takes a cell, but it is not part of the text. -/
def type (s : Session) (c : Byte) : Session :=
  if c = 0x08#8 then
    if s.text = [] then s else ⟨s.printed, s.text.dropLast, s.cells.dropLast⟩
  else if IsLineEnd c then s.submit answer [c]
  else if c = 0#8 then ⟨s.printed, s.text, s.cells ++ [c]⟩
  else
    let s : Session := ⟨s.printed, s.text ++ [c], s.cells ++ [c]⟩
    if s.text.length + 1 = lineSize then s.submit answer [] else s

def start (banner : Chars) : Session := ⟨banner ++ shellPrompt, [], []⟩

end Session

/-- What the shell answers to a line. -/
def reply (run : List Chars → Option Chars) (text : Chars) : Chars :=
  (commandOutput run (argRuns text)).getD []

theorem chars_lt {l : List Char} (h : l.all fun c => c.toNat < 0x80) :
    ∀ b ∈ chars (String.ofList l), b.toNat < 0x80 := by
  have hl : ∀ c ∈ l, c.toNat < 0x80 := by simpa using h
  intro b hb
  obtain ⟨c, hc, he⟩ := mem_chars hl hb
  exact he.trans_lt (hl c hc)

theorem scancodeTable_lt : ∀ c ∈ scancodeTable, c.toNat < 0x80 :=
  List.forall_mem_append.2 ⟨chars_lt (by decide), by decide⟩

theorem keyChar_lt (h : keyChar code = some c) : c.toNat < 0x80 :=
  scancodeTable_lt c (List.mem_of_getElem? h)

theorem Queue.Refines.push_of_lt {q : Queue T} {l : List T} (h : q.Refines N l)
    (hroom : q.length < N) (item : T) : (q.push N item).Refines N (l ++ [item]) := by
  have hpush := h.push item
  rwa [pushBounded, h.length, if_pos hroom] at hpush

/-- The handler moves codes from the controller to the pipe. -/
theorem kbdLoop_spec (h : q.Refines PIPE_SIZE l) (codes : List Byte)
    (hroom : q.length + codes.length ≤ PIPE_SIZE) :
    ∃ taken, (kbdLoop codes q).2.Refines PIPE_SIZE (l ++ taken) ∧
      codes.filterMap keyChar = taken ++ (kbdLoop codes q).1.filterMap keyChar := by
  induction codes generalizing q l with
  | nil =>
    refine ⟨[], ?_, rfl⟩
    rwa [List.append_nil]
  | cons code codes ih =>
    rw [kbdLoop, List.filterMap_cons, keyChar]
    rw [List.length_cons] at hroom
    cases hc : scancodeTable[code.toNat]? with
    | none =>
      refine ⟨[], ?_, rfl⟩
      rwa [List.append_nil]
    | some c =>
      have hpush := h.push_of_lt (by omega) c
      have hlen := hpush.length
      rw [List.length_append, List.length_singleton, h.length] at hlen
      obtain ⟨taken, hq, hcodes⟩ := ih hpush (by omega)
      refine ⟨c :: taken, ?_, congrArg (c :: ·) hcodes⟩
      rwa [← List.append_cons] at hq

theorem Buffer.line_of_holds {buff : Buffer} {text : Chars} (h : Holds buff text)
    (hnul : buff text.length = some 0#8) (hlen : text.length < lineSize)
    (htext : ∀ c ∈ text, c ≠ 0#8) : cstr buff.line = text := by
  have htake : buff.line.take (text.length + 1) = text ++ [0#8] := by
    apply List.ext_getElem?
    intro k
    rw [List.getElem?_take, Buffer.line, List.getElem?_map]
    rcases Nat.lt_trichotomy k text.length with hk | rfl | hk
    · rw [if_pos (by omega), List.getElem?_range (by omega), List.getElem?_append_left hk,
        List.getElem?_eq_getElem hk, Option.map_some, h k hk, List.getElem?_eq_getElem hk]
      rfl
    · rw [if_pos (by omega), List.getElem?_range hlen, List.getElem?_concat_length,
        Option.map_some, hnul]
      rfl
    · rw [if_neg (by omega), List.getElem?_eq_none]
      rw [List.length_append, List.length_singleton]
      omega
  rw [← List.take_append_drop (text.length + 1) buff.line, htake, List.append_assoc]
  exact cstr_append_zero htext _

theorem laterRuns_length_le (inArg : Bool) (cmd : Chars) :
    (laterRuns inArg cmd).length ≤ cmd.length := by
  induction cmd generalizing inArg with
  | nil =>
    rw [laterRuns_stop rfl]
    exact Nat.le_refl 0
  | cons c cmd ih =>
    rw [List.length_cons]
    by_cases hzero : c = 0#8
    · rw [laterRuns_stop (by rw [cstr_cons, if_pos hzero])]
      exact Nat.zero_le _
    · by_cases hblank : isBlank c = true
      · rw [laterRuns_blank hzero hblank]
        exact Nat.le_succ_of_le (ih false)
      · cases inArg with
        | true =>
          rw [laterRuns_in hzero hblank]
          exact Nat.le_succ_of_le (ih true)
        | false =>
          rw [laterRuns_begin hzero hblank, List.length_cons]
          exact Nat.succ_le_succ (ih true)

/-- The pieces have only characters of the line. -/
theorem mem_of_mem_pieces (cmd : Chars) : ∀ piece ∈ pieces cmd, ∀ c ∈ piece, c ∈ cmd := by
  induction cmd with
  | nil =>
    rw [pieces_stop rfl]
    decide
  | cons b cmd ih =>
    by_cases hzero : b = 0#8
    · rw [pieces_stop (by rw [cstr_cons, if_pos hzero])]
      intro piece hpiece c hc
      rw [List.mem_singleton.1 hpiece] at hc
      exact absurd hc List.not_mem_nil
    · by_cases hblank : isBlank b = true
      · rw [pieces_blank hzero hblank]
        refine List.forall_mem_cons.2 ⟨fun c hc => absurd hc List.not_mem_nil, ?_⟩
        exact fun piece hpiece c hc => List.mem_cons_of_mem b (ih piece hpiece c hc)
      · obtain ⟨first, rest, he, hcons⟩ := pieces_char hzero hblank cmd
        rw [he] at ih
        obtain ⟨hfirst, hrest⟩ := List.forall_mem_cons.1 ih
        rw [hcons]
        refine List.forall_mem_cons.2 ⟨fun c hc => ?_, fun piece hpiece c hc => ?_⟩
        · rcases List.mem_cons.1 hc with rfl | hc
          · exact List.mem_cons_self
          · exact List.mem_cons_of_mem b (hfirst c hc)
        · exact List.mem_cons_of_mem b (hrest piece hpiece c hc)

/-- The strings that `argv` points to are the runs of the line. -/
theorem splitArgs_argv (hsize : size ≤ intMax) (h : (argRuns cmd).length ≤ size) :
    ∃ r, splitArgs cmd size = some r ∧ r.argv = argRuns cmd := by
  have hwritten : argsWritten size 0 (laterRuns false cmd) ≤ intMax := by
    rw [argsWritten, laterRuns, if_neg Bool.false_ne_true]
    omega
  rcases splitLoop_result size cmd 0 false (Nat.zero_le intMax) fun _ => none with
    ⟨-, r, he, hr⟩ | ⟨hlt, -⟩
  · refine ⟨r, he, ?_⟩
    have hright := hr.splitsRight
    have hcount := hright.count
    rw [Nat.min_eq_right h] at hcount
    apply List.ext_getElem?
    intro k
    rw [Split.argv, List.getElem?_map, hcount]
    by_cases hk : k < (argRuns cmd).length
    · obtain ⟨p, hp, harg⟩ := hright.args k (hcount ▸ hk)
      rw [List.getElem?_range hk, Option.map_some, hp, harg]
      rfl
    · rw [List.getElem?_eq_none (by rw [List.length_range]; omega),
        List.getElem?_eq_none (Nat.le_of_not_lt hk)]
      rfl
  · omega

/-- What the shell makes of a line depends on its text only. -/
theorem shellDispatch_eq {buff : Buffer} {text : Chars} (h : Holds buff text)
    (hnul : buff text.length = some 0#8) (hlen : text.length < lineSize)
    (htext : ∀ c ∈ text, c ≠ 0#8) (run : List Chars → Option Chars) :
    shellDispatch run buff = commandOutput run (argRuns text) := by
  have hline : argRuns buff.line = argRuns text := by
    rw [argRuns, argRuns, pieces, pieces, Buffer.line_of_holds h hnul hlen htext,
      cstr_eq_self htext]
  have hle : (argRuns buff.line).length ≤ lineSize := by
    rw [hline]
    exact Nat.le_trans (laterRuns_length_le false text) (Nat.le_of_lt hlen)
  obtain ⟨r, he, hargv⟩ := splitArgs_argv (by decide) hle
  rw [shellDispatch, he, Option.bind_some, hargv, hline]

/-- The kernel prints no backspaces, and only characters that a `char` holds. -/
def PlainOutput (run : List Chars → Option Chars) : Prop :=
  ∀ argv out, run argv = some out → ∀ c ∈ out, Plain c

theorem chars_plain {l : List Char} (h : l.all fun c => c.toNat < 0x80 ∧ c.toNat ≠ 0x08) :
    ∀ b ∈ chars (String.ofList l), Plain b := by
  have hl : ∀ c ∈ l, c.toNat < 0x80 ∧ c.toNat ≠ 0x08 := by simpa using h
  intro b hb
  obtain ⟨c, hc, he⟩ := mem_chars (fun c hc => (hl c hc).1) hb
  obtain ⟨hlt, hne⟩ := hl c hc
  refine ⟨he.trans_lt hlt, ?_⟩
  rintro rfl
  exact hne he.symm

theorem shellPrompt_plain : ∀ c ∈ shellPrompt, Plain c := chars_plain (by decide)

theorem helpText_plain : ∀ c ∈ helpText, Plain c := by
  -- The kernel takes long to make a list of characters out of all the lines at once.
  simp only [helpText, chars_append, List.forall_mem_append, -String.reduceAppend]
  and_intros <;> exact chars_plain (by decide +kernel)

theorem commandOutput_plain (hrun : PlainOutput run) (hargv : ∀ arg ∈ argv, ∀ c ∈ arg, Plain c)
    (h : commandOutput run argv = some out) : ∀ c ∈ out, Plain c := by
  cases argv with
  | nil =>
    cases h
    exact List.forall_mem_nil _
  | cons name args =>
    rw [commandOutput] at h
    split_ifs at h with hhelp hcat hkernel hname
    · obtain rfl := Option.some.inj h
      exact helpText_plain
    · cases h
      exact (by decide : ∀ c ∈ chars "Usage: cat <file>\n", Plain c)
    · exact hrun _ _ h
    · cases h
      intro c hc
      rw [List.mem_append, List.mem_append] at hc
      rcases hc with (hc | hc) | hc
      · exact (by decide : ∀ c ∈ chars "Command '", Plain c) c hc
      · exact hargv name List.mem_cons_self c hc
      · exact (by decide : ∀ c ∈ chars "' not found!\n", Plain c) c hc
    · cases h
      exact List.forall_mem_nil _

theorem reply_plain (hrun : PlainOutput run) {text : Chars} (htext : ∀ c ∈ text, Plain c) :
    ∀ c ∈ reply run text, Plain c := by
  rw [reply]
  cases h : commandOutput run (argRuns text) with
  | none => exact List.forall_mem_nil _
  | some out =>
    refine commandOutput_plain hrun (fun arg harg c hc => ?_) h
    exact htext c (mem_of_mem_pieces text arg (List.mem_of_mem_filter harg) c hc)

/-- What the line of a session keeps. -/
structure Session.LineOk (s : Session) : Prop where
  text : ∀ c ∈ s.text, Plain c ∧ c ≠ 0#8
  cells : ∀ c ∈ s.cells, c ≠ 0x0A#8 ∧ c ≠ 0x0D#8
  length : s.text.length ≤ s.cells.length

/-- The session that the shell is in, and what is shown once its writes are out. A line that is
complete is answered in the session before the shell comes to it. -/
inductive ShellAt (answer : Chars → Chars) : ShellPc → Session → Chars → Prop where
  | prompt (printed : Chars) : ShellAt answer .prompt (.start printed) printed
  | readline (s : Session) : Holds buff s.text → s.LineOk → s.text.length + 1 < lineSize →
      ShellAt answer (.readline s.text.length buff) s (s.printed ++ s.cells)
  | full (s : Session) : Holds buff s.text → s.LineOk → s.text.length + 1 = lineSize →
      ShellAt answer (.readline s.text.length buff) (s.submit answer []) (s.printed ++ s.cells)
  | echoed (s : Session) : Holds buff s.text → s.LineOk → s.text.length + 1 < lineSize →
      c.toNat < 0x80 → c ≠ 0x08#8 →
      ShellAt answer (.echoed c s.text.length buff) (s.type answer c) (s.printed ++ s.cells ++ [c])
  | command (printed : Chars) : Holds buff text → buff text.length = some 0#8 →
      text.length < lineSize → (∀ c ∈ text, Plain c ∧ c ≠ 0#8) →
      ShellAt answer (.command buff) (.start (printed ++ answer text)) printed

/-- How much further the screen may have scrolled than what it shows needs. -/
def ShellPc.slack : ShellPc → Nat
  | .readline i _ => lineSize - 1 - i
  | .echoed c i _ => if IsLineEnd c then lineSize - 1 else lineSize - 2 - i
  | _ => lineSize - 1

/-- What is in the pipes is between what was typed and what is on the screen. -/
structure Terminal.Tracks (answer : Chars → Chars) (start : Session) (keys : List Byte)
    (s : Terminal) (typed waiting pending shown : Chars) : Prop where
  inpipe : s.inpipe.Refines PIPE_SIZE waiting
  outpipe : s.outpipe.Refines PIPE_SIZE pending
  keys : keys.filterMap keyChar = typed ++ (waiting ++ s.codes.filterMap keyChar)
  follows : ShellAt answer s.shell.pc (typed.foldl (Session.type answer) start) shown
  displays : Displays (textmodePrint (pending ++ s.shell.writes) s.out.screen) shown
    s.shell.pc.slack

def Terminal.Ok (answer : Chars → Chars) (start : Session) (keys : List Byte) (s : Terminal) :
    Prop := ∃ typed waiting pending shown, s.Tracks answer start keys typed waiting pending shown

theorem Session.LineOk.nil (printed : Chars) : (⟨printed, [], []⟩ : Session).LineOk :=
  ⟨List.forall_mem_nil _, List.forall_mem_nil _, Nat.le_refl 0⟩

theorem textmodePrint_append (cs ds : Chars) (t : Textmode) :
    textmodePrint (cs ++ ds) t = textmodePrint ds (textmodePrint cs t) := List.foldl_append

variable {run : List Chars → Option Chars} {start : Session} {keys : List Byte} {s : Terminal}
  {typed waiting pending shown : Chars}

/-- One round of reading a character. -/
theorem ShellAt.read {answer : Chars → Chars} {session : Session} {t : Textmode}
    (h : ShellAt answer (.readline i buff) session shown)
    (hi : i + 1 < lineSize) (hc : c.toNat < 0x80)
    (hdisp : Displays t shown (ShellPc.readline i buff).slack) :
    ∃ shown', ShellAt answer (readlineRound c i buff).pc (session.type answer c) shown' ∧
      Displays (textmodePrint (readlineRound c i buff).writes t) shown'
        (readlineRound c i buff).pc.slack := by
  cases h with
  | full _ hholds hok hfull => omega
  | readline _ hholds hok hroom =>
    rw [readlineRound]
    split_ifs with hback hpos
    · subst hback
      have hcells : session.cells ≠ [] :=
        List.ne_nil_of_length_pos (Nat.lt_of_lt_of_le hpos hok.length)
      have htype : session.type answer 0x08#8 =
          ⟨session.printed, session.text.dropLast, session.cells.dropLast⟩ := by
        rw [Session.type, if_pos rfl, if_neg (List.ne_nil_of_length_pos hpos)]
      have hline := hok.cells _ (List.getLast_mem hcells)
      have hok' : (⟨session.printed, session.text.dropLast, session.cells.dropLast⟩ :
          Session).LineOk := by
        refine ⟨fun c hc => hok.text c (List.dropLast_subset _ hc),
          fun c hc => hok.cells c (List.dropLast_subset _ hc), ?_⟩
        rw [List.length_dropLast, List.length_dropLast]
        exact Nat.sub_le_sub_right hok.length 1
      have hfollows := @ShellAt.readline answer buff _ hholds.dropLast hok'
        (by dsimp only; rw [List.length_dropLast]; omega)
      refine ⟨session.printed ++ session.cells.dropLast, ?_, ?_⟩
      · rw [htype]
        rwa [List.length_dropLast] at hfollows
      · rw [← List.dropLast_concat_getLast hcells, ← List.append_assoc] at hdisp
        have herase := hdisp.erase hline.1 hline.2 (by rw [ShellPc.slack, lineSize]; omega)
        refine herase.mono ?_
        rw [ShellPc.slack, ShellPc.slack]
        omega
    · subst hback
      have hempty : session.text = [] := List.length_eq_zero_iff.1 (by omega)
      have htype : session.type answer 0x08#8 = session := by
        rw [Session.type, if_pos rfl, if_pos hempty]
      rw [htype]
      exact ⟨_, .readline session hholds hok hroom, hdisp⟩
    · refine ⟨_, .echoed session hholds hok hroom hc hback, ?_⟩
      refine hdisp.print (List.forall_mem_singleton.2 ⟨hc, hback⟩) ?_
      dsimp only
      rw [ShellPc.slack, ShellPc.slack]
      split_ifs with hend
      · have hle := cursorPos_le_append (session.printed ++ session.cells) [c]
        omega
      · have hsnoc := cursorPos_snoc (fun he => hend (.inr he)) (fun he => hend (.inl he))
          (session.printed ++ session.cells)
        omega

/-- The text and its NUL in the buffer of a line that is complete. -/
theorem Holds.terminate {buff : Buffer} {text : Chars} (h : Holds buff text) :
    Holds (buff.set text.length 0#8) text ∧ buff.set text.length 0#8 text.length = some 0#8 :=
  ⟨fun k hk => (Function.update_of_ne (Nat.ne_of_lt hk) _ _).trans (h k hk),
    Function.update_self ..⟩

theorem ShellAt.submit {answer : Chars → Chars} {session : Session} (hok : session.LineOk)
    (h : Holds buff session.text) (hlen : session.text.length + 1 ≤ lineSize) (lineEnd : Chars) :
    ShellAt answer (.command (buff.set session.text.length 0#8)) (session.submit answer lineEnd)
      (session.printed ++ session.cells ++ lineEnd) :=
  .command _ h.terminate.1 h.terminate.2 hlen hok.text

/-- A character that is stored may complete the line. -/
theorem ShellAt.store {answer : Chars → Chars} {session : Session} (hok : session.LineOk)
    (h : Holds buff session.text) (hlen : session.text.length + 1 < lineSize) (hc : c.toNat < 0x80)
    (hback : c ≠ 0x08#8) (hend : ¬ IsLineEnd c) (hzero : c ≠ 0#8) :
    ShellAt answer (.readline (session.text.length + 1) (buff.set session.text.length c))
      (session.type answer c) (session.printed ++ session.cells ++ [c]) := by
  have hlength : (session.text ++ [c]).length = session.text.length + 1 := List.length_append
  have hok' : (⟨session.printed, session.text ++ [c], session.cells ++ [c]⟩ : Session).LineOk := by
    refine ⟨fun d hd => ?_, fun d hd => ?_, ?_⟩
    · rcases List.mem_append.1 hd with hd | hd
      · exact hok.text d hd
      · rw [List.mem_singleton.1 hd]
        exact ⟨⟨hc, hback⟩, hzero⟩
    · rcases List.mem_append.1 hd with hd | hd
      · exact hok.cells d hd
      · rw [List.mem_singleton.1 hd]
        exact ⟨fun he => hend (.inr he), fun he => hend (.inl he)⟩
    · have hle := hok.length
      rw [List.length_append, List.length_append]
      exact Nat.add_le_add_right hle 1
  rw [Session.type, if_neg hback, if_neg hend, if_neg hzero, List.append_assoc, ← hlength]
  dsimp only
  split_ifs with hfull
  · exact .full _ (h.snoc c) hok' hfull
  · refine .readline _ (h.snoc c) hok' ?_
    dsimp only
    omega

/-- What the shell does without the terminal. -/
theorem ShellAt.advance {session : Session} {t : Textmode} (hrun : PlainOutput run)
    (h : ShellAt (reply run) pc session shown) (hadv : pc.advance run leftover = some shell)
    (hdisp : Displays t shown pc.slack) :
    ∃ shown', ShellAt (reply run) shell.pc session shown' ∧
      Displays (textmodePrint shell.writes t) shown' shell.pc.slack := by
  cases h with
  | prompt =>
    cases hadv
    have hfollows := @ShellAt.readline (reply run) leftover (.start shown)
      (fun k hk => absurd hk (Nat.not_lt_zero k)) (.nil _) (show 0 + 1 < lineSize by decide)
    refine ⟨_, hfollows, ?_⟩
    rw [Session.start, List.append_nil]
    refine hdisp.print shellPrompt_plain ?_
    exact Nat.add_le_add_right (cursorPos_le_append shown shellPrompt) _
  | readline _ hholds hok hroom =>
    rw [ShellPc.advance, if_pos hroom] at hadv
    cases hadv
  | full s hholds hok hfull =>
    rw [ShellPc.advance, if_neg (by omega)] at hadv
    cases hadv
    have hfollows : ShellAt (reply run) _ _ (s.printed ++ s.cells ++ []) :=
      .submit hok hholds (Nat.le_of_eq hfull) []
    rw [List.append_nil] at hfollows
    exact ⟨_, hfollows, hdisp.mono (Nat.sub_le ..)⟩
  | @echoed buff c s hholds hok hroom hc hback =>
    rw [ShellPc.advance] at hadv
    rw [ShellPc.slack] at hdisp
    split_ifs at hadv hdisp with hend hzero
    · cases hadv
      rw [Session.type, if_neg hback, if_pos hend]
      exact ⟨_, .submit hok hholds (Nat.le_of_lt hroom) [c], hdisp⟩
    · cases hadv
      refine ⟨_, .store hok hholds hroom hc hback hend hzero, hdisp.mono ?_⟩
      rw [ShellPc.slack]
      omega
    · cases hadv
      rw [Session.type, if_neg hback, if_neg hend, if_pos (not_not.1 hzero)]
      have hok' : (⟨s.printed, s.text, s.cells ++ [c]⟩ : Session).LineOk := by
        refine ⟨hok.text, fun d hd => ?_, ?_⟩
        · rcases List.mem_append.1 hd with hd | hd
          · exact hok.cells d hd
          · rw [List.mem_singleton.1 hd]
            exact ⟨fun he => hend (.inr he), fun he => hend (.inl he)⟩
        · rw [List.length_append]
          exact Nat.le_trans hok.length (Nat.le_add_right ..)
      have hfollows := @ShellAt.readline (reply run) _
        ⟨s.printed, s.text, s.cells ++ [c]⟩ hholds hok' hroom
      rw [← List.append_assoc] at hfollows
      refine ⟨_, hfollows, hdisp.mono ?_⟩
      rw [ShellPc.slack]
      omega
  | @command buff text _ hholds hnul hlen htext =>
    rw [ShellPc.advance, shellDispatch_eq hholds hnul hlen fun c hc => (htext c hc).2,
      Option.map_eq_some_iff] at hadv
    obtain ⟨out, hout, rfl⟩ := hadv
    have hreply : reply run text = out := by
      rw [reply, hout]
      rfl
    have hplain := reply_plain hrun fun c hc => (htext c hc).1
    rw [hreply] at hplain ⊢
    refine ⟨_, .prompt _, hdisp.print hplain ?_⟩
    exact Nat.add_le_add_right (cursorPos_le_append shown out) _

theorem Terminal.Ok.init (hbanner : ∀ c ∈ banner, Plain c) (h : TerminalStart banner (keys, s)) :
    s.Ok (reply run) (.start banner) keys := by
  obtain ⟨rfl, hcodes, hin, hout, hshell, buffer, crtc, hscreen⟩ := h
  refine ⟨[], [], [], banner, .fresh (by decide) hin, .fresh (by decide) hout, ?_, ?_, ?_⟩
  · rw [hcodes]
    rfl
  · rw [hshell]
    exact .prompt banner
  · rw [hshell, hscreen]
    exact (Displays.init buffer crtc _).print hbanner (Nat.add_le_add_right (Nat.zero_le _) _)

theorem Terminal.Ok.interrupt (h : s.Ok answer start keys)
    (hroom : s.inpipe.length + s.codes.length ≤ PIPE_SIZE) :
    s.kbdIsrMain.Ok answer start keys := by
  obtain ⟨typed, waiting, pending, shown, h⟩ := h
  obtain ⟨taken, hin, hcodes⟩ := kbdLoop_spec h.inpipe s.codes hroom
  refine ⟨typed, waiting ++ taken, pending, shown, hin, h.outpipe, ?_, h.follows, h.displays⟩
  rw [h.keys, hcodes, List.append_assoc]
  rfl

theorem Terminal.Ok.write (h : s.Ok answer start keys) (hw : s.shell.writes = c :: writes)
    (hroom : s.outpipe.length < PIPE_SIZE) : (s.ttyWrite c writes).Ok answer start keys := by
  obtain ⟨typed, waiting, pending, shown, h⟩ := h
  refine ⟨typed, waiting, pending ++ [c], shown, h.inpipe, h.outpipe.push_of_lt hroom c, h.keys,
    h.follows, ?_⟩
  have hdisp := h.displays
  rw [hw, List.append_cons] at hdisp
  exact hdisp

theorem Terminal.Ok.advance (h : s.Ok (reply run) start keys) (hrun : PlainOutput run)
    (hw : s.shell.writes = []) (hadv : s.shell.pc.advance run leftover = some next) :
    ({ s with shell := next } : Terminal).Ok (reply run) start keys := by
  obtain ⟨typed, waiting, pending, shown, h⟩ := h
  have hdisp := h.displays
  rw [hw, List.append_nil] at hdisp
  obtain ⟨shown', hfollows, hdisp'⟩ := h.follows.advance hrun hadv hdisp
  rw [← textmodePrint_append] at hdisp'
  exact ⟨typed, waiting, pending, shown', h.inpipe, h.outpipe, h.keys, hfollows, hdisp'⟩

theorem Terminal.Ok.read (h : s.Ok answer start keys) (hshell : s.shell = ⟨[], .readline i buff⟩)
    (hi : i + 1 < lineSize) (hne : 0 < s.inpipe.length) :
    (s.ttyRead i buff).Ok answer start keys := by
  obtain ⟨typed, waiting, pending, shown, h⟩ := h
  obtain ⟨hin, hhead⟩ := h.inpipe.pop (by decide) hne
  obtain ⟨rest, rfl⟩ := List.head?_eq_some_iff.1 hhead
  rw [List.tail_cons] at hin
  have hkeys := h.keys
  rw [List.cons_append, List.append_cons] at hkeys
  have hmem : (s.inpipe.pop PIPE_SIZE).1 ∈ keys.filterMap keyChar := by
    rw [hkeys]
    exact List.mem_append_left _ (List.mem_append_right _ List.mem_cons_self)
  obtain ⟨code, -, hcode⟩ := List.mem_filterMap.1 hmem
  have hfollows := h.follows
  have hdisp := h.displays
  rw [hshell] at hfollows hdisp
  rw [List.append_nil] at hdisp
  obtain ⟨shown', hfollows', hdisp'⟩ := hfollows.read hi (keyChar_lt hcode) hdisp
  rw [← textmodePrint_append] at hdisp'
  rw [Terminal.ttyRead]
  refine ⟨typed ++ [(s.inpipe.pop PIPE_SIZE).1], rest, pending, shown', hin, h.outpipe, hkeys, ?_,
    hdisp'⟩
  rw [List.foldl_append]
  exact hfollows'

theorem Terminal.Ok.out (h : s.Ok answer start keys) (hne : 0 < s.outpipe.length) :
    s.ttyOut.Ok answer start keys := by
  obtain ⟨typed, waiting, pending, shown, h⟩ := h
  obtain ⟨hout, hhead⟩ := h.outpipe.pop (by decide) hne
  obtain ⟨rest, rfl⟩ := List.head?_eq_some_iff.1 hhead
  rw [List.tail_cons] at hout
  rw [Terminal.ttyOut]
  exact ⟨typed, waiting, rest, shown, h.inpipe, hout, h.keys, h.follows, h.displays⟩

/-- Every step of the terminal keeps up with the ideal one. -/
theorem Terminal.Ok.step (hrun : PlainOutput run) (h : s.Ok (reply run) start keys)
    (ht : TerminalStep run size False (keys, s) (keys', s')) : s'.Ok (reply run) start keys' := by
  cases ht with
  | key _ _ code hroom =>
    obtain ⟨typed, waiting, pending, shown, h⟩ := h
    refine ⟨typed, waiting, pending, shown, h.inpipe, h.outpipe, ?_, h.follows, h.displays⟩
    dsimp only
    rw [List.filterMap_append, List.filterMap_append, h.keys, List.append_assoc, List.append_assoc]
  | interrupt _ _ hne hroom => exact h.interrupt (hroom.resolve_left not_false)
  | write _ _ hw hroom => exact h.write hw (hroom.resolve_left not_false)
  | advance _ _ leftover hw hadv => exact h.advance hrun hw hadv
  | read _ _ hshell hi hne => exact h.read hshell hi hne
  | out _ _ hne => exact h.out hne

theorem Terminal.ok_of_reachable (hrun : PlainOutput run) (hbanner : ∀ c ∈ banner, Plain c)
    (hr : Reachable (TerminalStart banner) (TerminalStep run size False) (keys, s)) :
    s.Ok (reply run) (.start banner) keys :=
  hr.invariant (I := fun p => p.2.Ok (reply run) (.start banner) p.1) (fun _ h => .init hbanner h)
    fun _ _ h ht => h.step hrun ht

/-- The ideal session after some keys. -/
def Session.after (run : List Chars → Option Chars) (banner : Chars) (keys : List Byte) : Session :=
  (keys.filterMap keyChar).foldl (Session.type (reply run)) (.start banner)

/-- The shell waits for a character at index `i` of its buffer, and nothing is on its way. -/
structure Terminal.Resting (s : Terminal) (i : Nat) (buff : Buffer) : Prop where
  codes : s.codes = []
  inpipe : s.inpipe.len = 0
  outpipe : s.outpipe.len = 0
  shell : s.shell = ⟨[], .readline i buff⟩
  room : i + 1 < lineSize

/-- The buffer has the text of a session, and the screen shows the rows of it from row `top` on. -/
structure Terminal.Matches (s : Terminal) (i : Nat) (buff : Buffer) (session : Session)
    (top : Nat) : Prop where
  index : i = session.text.length
  held : Holds buff session.text
  shows : Shows s.out.screen ((logicalRows [] (session.printed ++ session.cells)).drop top)
  top_lt : top < (logicalRows [] (session.printed ++ session.cells)).length
  top_le : top = 0 ∨ top + 24 ≤ (logicalRows [] (session.printed ++ session.cells)).length

theorem Queue.Refines.eq_nil {q : Queue T} {l : List T} (h : q.Refines N l) (hlen : q.len = 0) :
    l = [] := List.length_eq_zero_iff.1 (h.length.trans hlen)

/-- Where no NUL is typed, the cells of the line are its text. -/
theorem Session.type_cells {answer : Chars → Chars} {session : Session}
    (h : session.cells = session.text) (hc : c ≠ 0#8) :
    (session.type answer c).cells = (session.type answer c).text := by
  rw [Session.type]
  split_ifs with hback hempty hend
  · exact h
  · dsimp only
    rw [h]
  · rfl
  · dsimp only
    split_ifs with hfull
    · rfl
    · dsimp only
      rw [h]

theorem Session.after_cells (h : ∀ code ∈ keys, code ≠ 0x46#8) :
    (Session.after run banner keys).cells = (Session.after run banner keys).text := by
  have hchars : ∀ c ∈ keys.filterMap keyChar, c ≠ 0#8 := by
    intro c hc
    obtain ⟨code, hmem, hcode⟩ := List.mem_filterMap.1 hc
    have htable : ∀ code : Byte, code ≠ 0x46#8 → keyChar code ≠ some 0#8 := by decide +kernel
    rintro rfl
    exact htable code (h code hmem) hcode
  rw [Session.after]
  generalize keys.filterMap keyChar = cs at hchars
  have hstart : (Session.start banner).cells = (Session.start banner).text := rfl
  generalize Session.start banner = session at hstart
  induction cs generalizing session with
  | nil => exact hstart
  | cons c cs ih =>
    obtain ⟨hc, hrest⟩ := List.forall_mem_cons.1 hchars
    exact ih hrest _ (Session.type_cells hstart hc)

/-- Whatever the order of the steps, where no pipe overflows a terminal at rest is where the keys
take the ideal one. The line looks like its text unless Scroll Lock, whose code is that of the NUL,
was pressed. -/
theorem terminal_matches (hrun : PlainOutput run) (hbanner : ∀ c ∈ banner, Plain c)
    (hr : Reachable (TerminalStart banner) (TerminalStep run size False) (keys, s))
    (hrest : s.Resting i buff) :
    (∃ top, s.Matches i buff (.after run banner keys) top) ∧
      (0x46#8 ∉ keys →
        (Session.after run banner keys).cells = (Session.after run banner keys).text) := by
  refine ⟨?_, fun hmem => Session.after_cells fun code hcode he => hmem (he ▸ hcode)⟩
  obtain ⟨typed, waiting, pending, shown, h⟩ := Terminal.ok_of_reachable hrun hbanner hr
  obtain rfl := h.inpipe.eq_nil hrest.inpipe
  obtain rfl := h.outpipe.eq_nil hrest.outpipe
  have hkeys := h.keys
  rw [hrest.codes, List.nil_append, List.filterMap_nil, List.append_nil] at hkeys
  have hfollows := h.follows
  have hdisp := h.displays
  rw [hrest.shell, ← hkeys, ← Session.after] at hfollows
  rw [hrest.shell] at hdisp
  generalize Session.after run banner keys = session at hfollows
  have hroom := hrest.room
  cases hfollows with
  | full _ hholds hok hfull => omega
  | readline _ hholds hok hi =>
    have hslack : (ShellPc.readline session.text.length buff).slack < 80 :=
      Nat.lt_of_le_of_lt (Nat.sub_le ..) (by decide)
    obtain ⟨top, hshows, htop, hle⟩ := hdisp.rows hslack
    exact ⟨top, rfl, hholds, hshows, htop, hle⟩

/-- The terminal before the first prompt, on a cleared screen. -/
def Terminal.fresh : Terminal :=
  ⟨[], .empty 0#8, .empty 0#8, ⟨[], .prompt⟩,
    ⟨textmodeInit (fun _ => 0#16) ⟨0#8, fun _ => 0#8⟩, []⟩⟩

/-- The prompt is on the screen. -/
def Terminal.prompted : Terminal :=
  let s := { Terminal.fresh with shell := ⟨shellPrompt, .readline 0 fun _ => none⟩ }
  ((s.ttyWrite 0x24#8 [0x20#8]).ttyWrite 0x20#8 []).ttyOut.ttyOut

theorem Terminal.prompted_reachable (run : List Chars → Option Chars) (size : Nat) (lossy : Prop) :
    Reachable (TerminalStart []) (TerminalStep run size lossy) ([], prompted) := by
  have hstart : TerminalStart [] ([], fresh) :=
    ⟨rfl, rfl, ⟨rfl, rfl, rfl, rfl⟩, ⟨rfl, rfl, rfl, rfl⟩, rfl, _, _, rfl⟩
  have hadvance : Reachable (TerminalStart []) (TerminalStep run size lossy) _ :=
    (Reachable.init hstart).step (.advance [] fresh (fun _ => none) rfl rfl)
  have hwrites := (hadvance.step (.write [] _ rfl (.inr (by decide)))).step
    (.write [] _ rfl (.inr (by decide)))
  exact (hwrites.step (.out [] _ (by decide))).step (.out [] _ (by decide))

/-- The key of the letter `h` was pressed. -/
def Terminal.typedKey : Terminal :=
  let s := { prompted with codes := [0x23#8] }.kbdIsrMain.ttyRead 0 fun _ => none
  let s := s.ttyWrite 0x68#8 []
  { s with shell := ⟨[], .readline 1 (Buffer.set (fun _ => none) 0 0x68#8)⟩ }.ttyOut

theorem Terminal.typedKey_reachable (run : List Chars → Option Chars) (lossy : Prop) :
    Reachable (TerminalStart []) (TerminalStep run 1 lossy) ([0x23#8], typedKey) := by
  have hkey := (prompted_reachable run 1 lossy).step (.key [] prompted 0x23#8 (by decide))
  have hread := (hkey.step (.interrupt [0x23#8] _ (by decide) (.inr (by decide)))).step
    (.read [0x23#8] _ rfl (by decide) (by decide))
  have hwrite := hread.step (.write [0x23#8] _ rfl (.inr (by decide)))
  exact (hwrite.step (.advance [0x23#8] _ (fun _ => none) rfl rfl)).step
    (.out [0x23#8] _ (by decide))

theorem terminal_matches_key :
    (∃ top, Terminal.typedKey.Matches 1 (Buffer.set (fun _ => none) 0 0x68#8)
      (.after (fun _ => none) [] [0x23#8]) top) ∧
    (0x46#8 ∉ [0x23#8] → (Session.after (fun _ => none) [] [0x23#8]).cells =
      (Session.after (fun _ => none) [] [0x23#8]).text) :=
  terminal_matches (by rintro _ _ ⟨⟩) (List.forall_mem_nil _) (Terminal.typedKey_reachable _ _)
    ⟨rfl, by decide, by decide, rfl, by decide⟩

end Tupai
