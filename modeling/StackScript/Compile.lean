import StackScript.Script.Layout
import StackScript.Script.Parser

/-!
# From text to code

Compiling a script reads it and lays out the code of each of its functions.
-/

namespace StackScript

/-- The functions of a script and its body.  The constants of a function name the functions it
makes by number, counted from the base that the script was compiled with. -/
structure Program where
  functions : Array Function
  main : Function
  deriving DecidableEq

/-- The functions of a script, its body last. -/
def Program.all (p : Program) : Array Function :=
  p.functions.push p.main

def Script.program (name : Option String) (s : Script) : Program :=
  { functions := s.definitions.map (Definition.assemble name)
    main := assemble none name 0 s.body s.line }

/-- The error of a script with the given name and source. -/
def ParseError.report (name : Option String) (source : String) : ParseError -> CompileError
  | .lex e => .lex e
  | .fault f p => .rejected (.make f.message p.row p.column name source)
  | .exhausted => .exhausted

/-- Compiles a script whose functions are numbered from `base`. -/
def compile (base : Nat) (name : Option String) (source : String) :
    Except CompileError Program :=
  match parse base source with
  | .ok s => .ok (s.program name)
  | .error e => .error (e.report name source)

end StackScript
