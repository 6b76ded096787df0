import StackScript.CommandLine
import StackScript.Files.Observed

/-!
# The program

Reads the arguments, runs what they ask for and writes what comes of it.  Files
are looked at when a script is about to need them, so the machine itself only
sees what was observed.
-/

namespace StackScript
namespace Host

/-! ## Files -/

def locate? (path : String) : IO (Option String) := do
  try
    let place ← IO.FS.realPath path
    let info ← place.metadata
    return match info.type with
      | .file => some place.toString
      | _ => none
  catch _ => return none

def causeOf : IO.Error -> FileError
  | .noFileOrDirectory _ _ _ => .notFound
  | .inappropriateType _ 21 _ => .isDirectory
  | .invalidArgument _ _ "name too long" => .nameTooLong
  | .invalidArgument _ _ "string contains NUL bytes" => .nullInName
  | .inappropriateType _ _ "not a directory" => .notDirectory
  | e => .other (toString e)

def readText (path : String) : IO (Except FileError String) := do
  try
    match String.fromUTF8? (← IO.FS.readBinFile path) with
    | some s => return .ok s
    | none => return .error .notText
  catch e => return .error (causeOf e)

def observe (o : Observed) (paths : List String) : IO Observed :=
  paths.foldlM (fun o path => return o.add path (← locate? path) (← readText path)) o

/-! ## Runs -/

/-- Runs a machine to its end and writes its output as it comes. -/
partial def drive (o : Observed) (m : Machine) : IO (Option Failure) := do
  let o ←
    match m.pendingImport? with
    | some target => observe o (m.candidates target)
    | none => pure o
  let (status, m) := { m with files := o.files }.tick
  IO.print m.output
  match status with
  | .running => drive o { m with output := "" }
  | _ => return Interpreter.failureOf? status

/-- Writes a failure and gives the exit code of a run. -/
def conclude : Option Failure -> IO UInt32
  | none => return 0
  | some f => do
    IO.eprintln f.render
    return 1

def runScript (script : Option String) (source : String) (listing : Bool) : IO UInt32 := do
  let i := Interpreter.new {} Files.empty
  match Interpreter.load i.machine script source listing with
  | .error e => conclude (some (.compile e))
  | .ok m => conclude (← drive {} m)

def perform (c : Command) : IO UInt32 := do
  match c with
  | .evaluate source listing => runScript none source listing
  | .open path listing =>
    match ← readText path with
    | .ok source => runScript (some path) source listing
    | .error e => conclude (some (.file path e))
  | c =>
    let r := c.run 0 Files.empty
    IO.eprint r.err
    IO.print r.out
    return r.code.toUInt32

end Host
end StackScript

def main (args : List String) : IO UInt32 :=
  StackScript.Host.perform (.ofArguments args)
