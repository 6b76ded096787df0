import StackScript.Interpreter

/-!
# The command line

What the arguments ask for, and what the program answers: its two outputs and its
exit code.
-/

namespace StackScript

/-- What the command line asks for. -/
inductive Command where
  | help
  /-- Run a text. -/
  | evaluate (source : String) (listing : Bool)
  /-- Run a file. -/
  | open (path : String) (listing : Bool)
  | unknown (argument : String)
  deriving DecidableEq, Repr

namespace Command

def ofArguments : List String -> Command
  | [] | ["-h"] | ["--help"] => help
  | ["-b", "-c", source] => evaluate source true
  | ["-c", source] => evaluate source false
  | ["-b", file] => .open file true
  | [argument] => if Text.startsWith "-" argument then unknown argument else .open argument false
  | _ :: argument :: _ => unknown argument

def usage : String :=
  "HYMN - Scripting Language\n" ++
    "\n" ++
    "Usage:\n" ++
    "  hymn <file.hm>            Run a script\n" ++
    "  hymn -c <source>          Run source text\n" ++
    "  hymn -b <file.hm>         Print bytecode, then run a script\n" ++
    "  hymn -b -c <source>       Print bytecode, then run source text\n" ++
    "  hymn --help, -h           Show this help\n"

def complaint (argument : String) : String :=
  "Unknown argument: " ++ argument ++ "\n"

/-- What the program writes and the code it exits with. -/
structure Result where
  out : String
  err : String
  code : Nat
  deriving DecidableEq, Repr

def conclude (failure : Option Failure) (i : Interpreter) : Result :=
  match failure with
  | none => ⟨i.machine.output, "", 0⟩
  | some f => ⟨i.machine.output, f.render ++ "\n", 1⟩

/-- Does what was asked for, running at most `fuel` instructions. -/
def run (fuel : Nat) (files : Files) (c : Command) : Result :=
  let i := Interpreter.new {} files
  match c with
  | help => ⟨usage, "", 0⟩
  | unknown argument => ⟨usage, complaint argument, 1⟩
  | evaluate source listing =>
    let (failure, i) := i.interpret fuel none source listing
    conclude failure i
  | .open path listing =>
    let (failure, i) := i.interpretFile fuel path listing
    conclude failure i

end Command
end StackScript
