import Slang.Host
import Slang.Number.Numeral

/-!
# Command line arguments

```text
slang [-h] [--trace] [--symbols] [--recursion-limit N] [file]
```

A long option may be abbreviated as long as only one option begins like that, its argument may
follow behind `=`, and behind `--` nothing is an option any more. Letters behind a single dash are
options of their own. An argument that looks like a negative number, or that starts with a dash and
has a space in it, is no option.

* `Options` — what a command line asks for.
* `Refused` — a command line that is not followed: a request for help, or a mistake.
* `parse` — the options of an argument list.
-/

set_option autoImplicit false

namespace Slang.Command

/-- The file that is run if none is named. -/
def defaultFile : String := "./examples/correct_examples/01_print__hello.slang"

/-- What a command line asks for. -/
structure Options where
  file : String
  trace : Bool
  symbols : Bool
  stack : Stack
  deriving DecidableEq, Repr

/-- Why a command line is not followed. -/
inductive Refused where
  | help
  | mistake (message : String)
  deriving DecidableEq, Repr

/-- The exit code of a command line that is not followed. -/
def Refused.code : Refused → Nat
  | help => 0
  | mistake _ => 2

/-- The options. -/
inductive Flag where
  | help | trace | symbols | stack
  deriving DecidableEq, Repr

/-- The spellings of the options. -/
def spellings : List (String × Flag) :=
  [("-h", .help), ("--help", .help), ("--trace", .trace), ("--symbols", .symbols),
    ("--recursion-limit", .stack)]

/-- What an argument is. A long option may carry a value behind `=`, and a letter may carry more
letters, also behind `=`. -/
inductive Word where
  | plain (text : String)
  | separator
  | option (flag : Flag) (value : Option String)
  | cluster (flag : Flag) (tail : List Char)
  | unknown (text : String)
  deriving DecidableEq, Repr

/-! ## Telling arguments apart -/

/-- Split at the first `=`. -/
def splitValue (cs : List Char) : List Char × Option (List Char) :=
  let name := cs.takeWhile (· ≠ '=')
  (name, if name.length < cs.length then some (cs.drop (name.length + 1)) else none)

/-- The options that begin like a list of characters. -/
def matching (start : List Char) : List Flag :=
  spellings.filterMap fun (s, f) => if start.isPrefixOf s.toList then some f else none

/-- Drop one line feed at the end. -/
def dropLineFeed (cs : List Char) : List Char := if cs.getLast? = some '\n' then cs.dropLast else cs

/-- Whether a text is a dash and digits, perhaps with a point before the last of them, and perhaps
with a line feed behind them. -/
def looksNegative (cs : List Char) : Bool :=
  match dropLineFeed cs with
  | '-' :: rest =>
    match rest.dropWhile Text.isDigit with
    | [] => !rest.isEmpty
    | '.' :: part => !part.isEmpty && part.all Text.isDigit
    | _ => false
  | _ => false

/-- The option of a single letter. -/
def letter? (c : Char) : Option Flag := spellings.lookup (String.ofList ['-', c])

/-- An argument that starts with a dash and matches no option. -/
def unmatched (arg : String) : Word :=
  if looksNegative arg.toList || arg.toList.contains ' ' then .plain arg else .unknown arg

/-- Tell what an argument is. -/
def classify (arg : String) : Except Refused Word :=
  match arg.toList with
  | '-' :: '-' :: [] => .ok .separator
  | '-' :: '-' :: rest =>
    let (name, value) := splitValue ('-' :: '-' :: rest)
    let value := value.map String.ofList
    match spellings.lookup arg, spellings.lookup (String.ofList name) with
    | some f, _ => .ok (.option f none)
    | none, some f => .ok (.option f value)
    | none, none =>
      match matching name with
      | [f] => .ok (.option f value)
      | [] => .ok (unmatched arg)
      | _ => .error (.mistake ("ambiguous option: " ++ arg))
  | '-' :: c :: rest =>
    match letter? c, rest with
    | some f, [] => .ok (.option f none)
    | some f, '=' :: tail => .ok (.cluster f tail)
    | some f, tail => .ok (.cluster f tail)
    | none, _ => .ok (unmatched arg)
  | _ => .ok (.plain arg)

/-- Tell what all arguments are. -/
def classifyAll : List String → Except Refused (List Word)
  | [] => .ok []
  | arg :: rest => do
    match ← classify arg with
    | .separator => return .separator :: rest.map .plain
    | w => return w :: (← classifyAll rest)

/-! ## Following arguments -/

/-- Set the depth of the stack. -/
def setStack (value : String) (o : Options) : Except Refused Options :=
  match Number.readInt? value with
  | some n => .ok { o with stack := .frames n }
  | none => .error (.mistake ("argument --recursion-limit: invalid int value: " ++ value))

/-- Set the depth of the stack from what stands behind `=`. A separator there leaves it blank. -/
def setStackTo (value : String) (o : Options) : Except Refused Options :=
  if value = "--" then .ok { o with stack := .blank } else setStack value o

/-- Follow an option that takes no value. -/
def setFlag (o : Options) : Flag → Except Refused Options
  | .help => .error .help
  | .trace => .ok { o with trace := true }
  | .symbols => .ok { o with symbols := true }
  | .stack => .error (.mistake "argument --recursion-limit: expected one argument")

/-- The options of the letters behind a letter. There has to be one, and each has to be an option.
-/
def letters (tail : List Char) : Except Refused (List Flag) :=
  match tail, tail.mapM letter? with
  | _ :: _, some flags => .ok flags
  | _, _ => .error (.mistake ("ignored explicit argument: " ++ String.ofList tail))

/-- Follow the classified arguments. A file is named at most once, and a separator next to its name
belongs to it; what cannot be followed is left over, and whatever is left over at the end is a
mistake. -/
def follow (named : Bool) (left : List String) (o : Options) : List Word → Except Refused Options
  | [] =>
    if left.isEmpty then .ok o
    else .error (.mistake ("unrecognized arguments: " ++ " ".intercalate left))
  | .plain text :: rest =>
    if named then follow true (left ++ [text]) o rest
    else
      match rest with
      | .separator :: rest => follow true left { o with file := text } rest
      | rest => follow true left { o with file := text } rest
  | .separator :: rest =>
    if named then follow true (left ++ ["--"]) o rest
    else
      match rest with
      | .plain text :: rest => follow true left { o with file := text } rest
      | rest => follow true left o rest
  | .unknown text :: rest => follow named (left ++ [text]) o rest
  | .option .stack none :: .plain text :: rest => do follow named left (← setStack text o) rest
  | .option .stack (some value) :: rest => do follow named left (← setStackTo value o) rest
  | .option _ (some value) :: _ => .error (.mistake ("ignored explicit argument: " ++ value))
  | .option flag none :: rest => do follow named left (← setFlag o flag) rest
  | .cluster flag tail :: rest => do
    let flags ← letters tail
    follow named left (← (flag :: flags).foldlM setFlag o) rest

/-- The options of an argument list. -/
def parse (args : List String) : Except Refused Options := do
  follow false [] ⟨defaultFile, false, false, .usual⟩ (← classifyAll args)

/-- The first line of help. -/
def usage : String := "usage: slang [-h] [--trace] [--symbols] [--recursion-limit N] [file]"

/-- What `--help` shows. -/
def helpText : String :=
  usage ++ "\n\nCompile and run a Slang program, printing each PRINT value on its own line.\n\n" ++
  "  file                 Slang source file.\n" ++
  "  -h, --help           Show this help message and exit.\n" ++
  "  --trace              Print every phase progress report to stderr.\n" ++
  "  --symbols            Print the function prototypes and the AST of each procedure first.\n" ++
  "  --recursion-limit N  Host recursion limit; deeper recursion fails with a stack exhaustion error."

end Slang.Command
