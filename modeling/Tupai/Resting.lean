import Tupai.Lib.Settling
import Tupai.Terminal

namespace Tupai
open Lib
set_option autoImplicit true

/-- How far the shell is from reading, without the terminal. -/
def ShellPc.rank : ShellPc → Nat
  | .prompt => 1
  | .readline i _ => if i + 1 < lineSize then 0 else 3
  | .echoed _ _ _ => 4
  | .command _ => 2

/-- What is left to do: the codes and characters to read, then what the shell does, then what is on
its way to the screen. -/
def Terminal.work (s : Terminal) : Nat × Nat × Nat × Nat :=
  (2 * s.codes.length + s.inpipe.length, s.shell.pc.rank, s.shell.writes.length, s.outpipe.length)

variable {run : List Chars → Option Chars} {s : Terminal} {keys : List Byte}

end Tupai
