import StackScript.Files.Path
import StackScript.Interpreter
import StackScript.Text.Blank
import StackScript.Text.Lines

/-!
# A corpus of scripts

A script can announce its output in a head of comment lines.  Running it as a
case compares what it writes with what it announces.  The announcement may also
say that the script fails, or only how its output begins.
-/

namespace StackScript
namespace Corpus

/-! ## Announcements -/

def announced? (line : String) : Option String :=
  if line == "#" then some "" else Text.after? "# " line

/-- The lines that the head of a script announces. -/
def head : List String -> List String
  | [] => []
  | line :: rest =>
    match announced? line with
    | some s => s :: head rest
    | none => []

/-- The output that a script announces, without blanks at its ends. -/
def expectedOutput (source : String) : String :=
  Text.trim (String.join ((head (Text.lines source)).map fun s => s ++ "\n"))

def failureMark : String :=
  "@exception"

def startMark : String :=
  "@starts "

/-! ## Cases -/

inductive Outcome where
  | pass
  /-- The script announces nothing. -/
  | skipped
  | fail (reason : String)
  deriving DecidableEq, Repr

structure Case where
  name : String
  outcome : Outcome
  deriving DecidableEq, Repr

namespace Case

def failed (c : Case) : Bool :=
  match c.outcome with
  | .fail _ => true
  | _ => false

def passed (c : Case) : Bool :=
  c.outcome != .skipped && !c.failed

end Case

/-- Compares the output of a run with what was announced. -/
def check (expected out : String) (failure : Option Failure) : Outcome :=
  if Text.startsWith failureMark expected then
    if failure.isSome then .pass else .fail "Expected an error."
  else
    match failure, Text.after? startMark expected with
    | some f, _ => .fail (Text.trim f.render)
    | none, some start =>
      if Text.startsWith start out then .pass
      else .fail ("Expected start:\n" ++ start ++ "\n\nBut was:\n" ++ out)
    | none, none =>
      if out == expected then .pass
      else .fail ("Expected:\n" ++ expected ++ "\n\nBut was:\n" ++ out)

def runSource (fuel : Nat) (files : Files) (name source : String) : Case :=
  let expected := expectedOutput source
  if expected.isEmpty then
    ⟨name, .skipped⟩
  else
    let (failure, i) := (Interpreter.new {} files).interpret fuel (some name) source false
    ⟨name, check expected (Text.trim i.machine.output) failure⟩

def runFile (fuel : Nat) (files : Files) (path : String) : Except Failure Case :=
  match files.read path with
  | .error e => .error (.file path e)
  | .ok source => .ok (runSource fuel files path source)

/-! ## Directories -/

def scriptsIn (directory : String) (names : List String) : List String :=
  ((names.filter fun name => Path.extension? name == some "hm").mergeSort fun a b => a <= b).map
    (Path.join directory)

/-- Runs every script of a directory as a case, in the order of their names. -/
def runAll (fuel : Nat) (files : Files) (directory : String) : Except Failure (List Case) :=
  match files.list directory with
  | .error e => .error (.file directory e)
  | .ok names => (scriptsIn directory names).mapM (runFile fuel files)

def successes (cases : List Case) : Nat :=
  (cases.filter (·.passed)).length

def failures (cases : List Case) : List Case :=
  cases.filter (·.failed)

def describe (c : Case) : String :=
  match c.outcome with
  | .pass => "✓ " ++ c.name ++ "\n"
  | .skipped => "- " ++ c.name ++ "\n"
  | .fail reason => "⨯ " ++ c.name ++ "\n" ++ reason ++ "\n\n"

/-- The summary of a corpus that took so many milliseconds. -/
def summary (cases : List Case) (milliseconds : Nat) : String :=
  String.join (cases.map describe) ++ "Success: " ++ toString (successes cases) ++
    ", Failed: " ++ toString (failures cases).length ++ ", Count: " ++ toString cases.length ++
    ", Time: " ++ toString milliseconds ++ " ms"

end Corpus
end StackScript
