import Slang.Command.Run

/-!
# The command

Reads the file that the arguments name and writes the output line by line.
-/

set_option autoImplicit false

namespace Slang.Command

/-- Write a stream of lines as it comes, and give its end. -/
def stream {α : Type} : Trace Line α → IO α
  | .done a => return a
  | .emit (.out text) next => do
    IO.println text
    stream (next ())
  | .emit (.err text) next => do
    IO.eprintln text
    stream (next ())

/-- The bytes of a file, if there is one. -/
def bytesOf (file : String) : IO (Option ByteArray) := do
  try
    return some (← IO.FS.readBinFile file)
  catch _ => return none

/-- The host of the command: a stack of a thousand frames, of which it keeps twenty and gives seven
to each activation. -/
def host : Host := .even 1000 0 20 7 0x4000000000000000

/-- Follow an argument list. -/
def run (args : List String) : IO UInt32 := do
  match parse args with
  | .error .help =>
    IO.println helpText
    return 0
  | .error (.mistake message) =>
    IO.eprintln (usage ++ "\nslang: error: " ++ message)
    return 2
  | .ok o =>
    match textOf (← bytesOf o.file) with
    | .error .missing =>
      IO.eprintln ("slang: cannot read " ++ o.file)
      return 1
    | .error .undecodable =>
      IO.eprintln ("slang: not UTF-8: " ++ o.file)
      return 1
    | .ok source =>
      match ← stream (performOn host o source) with
      | .exit code => return code.toUInt32
      | .stuck failure =>
        IO.eprintln ("slang: " ++ failure.complaint)
        return 1
      | .unfinished => return 1

end Slang.Command

/-- The command. -/
def main (args : List String) : IO UInt32 := Slang.Command.run args
