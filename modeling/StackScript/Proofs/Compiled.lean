import StackScript.Proofs.Compile
import StackScript.Proofs.Heights.Function
import StackScript.Proofs.Reading.Heights

/-!
# Compiled code passes the static stack check

Every function of a script that compiles passes the check, and the functions that its
code makes are functions of the same script.
-/

namespace StackScript

/-! ## Constants -/

/-- A constant that compiled code can have: a text, or a function that is known. -/
def Value.Made (known : Nat -> Prop) : Value -> Prop
  | .text _ => True
  | .function id => known id
  | _ => False

theorem Value.Made.imp {known known' : Nat -> Prop} {v : Value} (h : v.Made known)
    (hk : forall id, known id -> known' id) : v.Made known' := by
  cases v with
  | function id => exact hk id h
  | _ => exact h

section Made

variable {known : Nat -> Prop} {n : Nat}

theorem Variable.constants_made (v : Variable) :
    forall c, c ∈ v.constants -> Value.Made known c := by
  cases v with
  | slot => simp [Variable.constants]
  | global name => simp [Variable.constants, Value.Made]

mutual

theorem Expr.constants_made (e : Expr) (h : e.Within known n) :
    forall c, c ∈ e.constants -> Value.Made known c := by
  cases e with
  | literal => simp [Expr.constants]
  | text s => simp [Expr.constants, Value.Made]
  | function id =>
      intro c hc
      rw [List.mem_singleton.mp hc]
      exact h
  | read v => exact v.constants_made
  | assign v a => exact List.forall_mem_append.mpr ⟨v.constants_made, a.constants_made h.2⟩
  | update v op opLine a =>
      exact List.forall_mem_append.mpr ⟨v.constants_made, a.constants_made h.2⟩
  | unary op a => exact a.constants_made h
  | binary op a b =>
      exact List.forall_mem_append.mpr ⟨a.constants_made h.1, b.constants_made h.2⟩
  | ternary op a b c =>
      refine List.forall_mem_append.mpr ⟨?_, c.constants_made h.2.2⟩
      exact List.forall_mem_append.mpr ⟨a.constants_made h.1, b.constants_made h.2.1⟩
  | connect op a opLine b =>
      exact List.forall_mem_append.mpr ⟨a.constants_made h.1, b.constants_made h.2⟩
  | call f args =>
      exact List.forall_mem_append.mpr ⟨f.constants_made h.1, Expr.allConstants_made args h.2⟩
  | property o key =>
      refine List.forall_mem_append.mpr ⟨o.constants_made h, ?_⟩
      exact List.forall_mem_singleton.mpr trivial
  | setProperty o key a =>
      refine List.forall_mem_append.mpr ⟨o.constants_made h.1, ?_⟩
      exact List.forall_mem_cons.mpr ⟨trivial, a.constants_made h.2⟩
  | updateProperty o key op opLine a =>
      refine List.forall_mem_append.mpr ⟨o.constants_made h.1, ?_⟩
      exact List.forall_mem_cons.mpr ⟨trivial, a.constants_made h.2⟩
  | updateItem o i op opLine a =>
      refine List.forall_mem_append.mpr ⟨?_, a.constants_made h.2.2⟩
      exact List.forall_mem_append.mpr ⟨o.constants_made h.1, i.constants_made h.2.1⟩
  | array items => exact Expr.allConstants_made items h
  | table items => exact Expr.allConstants_made items h.2

theorem Expr.allConstants_made (es : List Expr) (h : Expr.AllWithin known n es) :
    forall c, c ∈ Expr.allConstants es -> Value.Made known c := by
  cases es with
  | nil => simp [Expr.allConstants]
  | cons e es =>
      exact List.forall_mem_append.mpr ⟨e.constants_made h.1, Expr.allConstants_made es h.2⟩

end

theorem Stmt.constants_made {loop : Option Nat} {floor : Nat} (s : Stmt)
    (h : s.Fits known loop floor n) : forall c, c ∈ s.constants -> Value.Made known c := by
  induction s generalizing n loop floor with
  | skip | drop | leave | again => simp [Stmt.constants]
  | seq a b iha ihb => exact List.forall_mem_append.mpr ⟨iha h.1, ihb h.2⟩
  | expr e | output sink e | throw e | use e | bind e | ret e => exact e.constants_made h
  | define name e => exact List.forall_mem_cons.mpr ⟨trivial, e.constants_made h⟩
  | cond c line body bodyLine other ihb iho =>
      refine List.forall_mem_append.mpr ⟨?_, iho h.2.2.1⟩
      exact List.forall_mem_append.mpr ⟨c.constants_made h.1, ihb h.2.1.1⟩
  | «while» c line body bodyLine ih =>
      exact List.forall_mem_append.mpr ⟨c.constants_made h.1, ih h.2.1⟩
  | stepping c line jumpLine step stepLine body bodyLine ih =>
      refine List.forall_mem_append.mpr ⟨?_, ih h.2.2.1⟩
      exact List.forall_mem_append.mpr ⟨c.constants_made h.1, step.constants_made h.2.1⟩
  | iterate slot vars line body bodyLine ih => exact ih h.2.2.1
  | «try» depth body bodyLine handler ihb ihh =>
      exact List.forall_mem_append.mpr ⟨ihb h.2.1.1, ihh h.2.2.1⟩

theorem assemble_constants_made {arity line : Nat} {name script : Option String} {body : Stmt}
    (h : body.Fits known none (arity + 1) (arity + 1)) :
    forall c, c ∈ (assemble name script arity body line).code.constants ->
      Value.Made known c := by
  intro c hc
  exact body.constants_made h c (mem_poolOf.mp hc)

end Made

/-! ## Scripts -/

structure Script.Fits (base : Nat) (s : Script) : Prop where
  definitions : forall i (d : Definition), s.definitions[i]? = some d -> d.Fits base i
  body : s.body.Fits (fun id => base <= id ∧ id < base + s.definitions.size) none 1 1

theorem parse_fits {base : Nat} {source : String} {s : Script}
    (h : parse base source = .ok s) : s.Fits base := by
  obtain ⟨t, rest, failure, r', -, hspells, hdefinitions, -⟩ := spells_of_parse h
  have hadds := hspells.fits ⟨Scope.settled_script, nofun⟩
  have hbase : r'.base = base := hadds.leads.base
  have hsound : r'.surroundings.Sound := by
    refine hadds.leads.sound fun i d hd => ?_
    simp [Parser.begun, Parser.start, Reading.surroundings] at hd
  constructor
  · intro i d hd
    rw [hdefinitions] at hd
    exact hbase ▸ hsound i d hd
  · rw [hdefinitions, ← hbase]
    exact hadds.fits r'.surroundings.Knows (fun _ hid => hid) 1 (Nat.le_refl 1)

theorem compile_fits {base : Nat} {name : Option String} {source : String} {p : Program}
    (h : compile base name source = .ok p) :
    exists s : Script, s.Fits base ∧ p = s.program name := by
  rcases compile_eq_ok h with ⟨s, hs, rfl⟩
  exact ⟨s, parse_fits hs, rfl⟩

theorem exists_of_isOk {ε α : Type} {x : Except ε α} (h : x.isOk = true) :
    exists a, x = .ok a := by
  cases x with
  | error e => cases h
  | ok a => exact ⟨a, rfl⟩

theorem exists_of_toOption_map {ε α β : Type} {x : Except ε α} {g : α -> β} {b : β}
    (h : x.toOption.map g = some b) : exists a, x = .ok a ∧ g a = b := by
  cases x with
  | error e => cases h
  | ok a => exact ⟨a, rfl, Option.some.inj h⟩

/-! ## Programs -/

section Program

variable {base : Nat} {name : Option String} {s : Script}

def Program.Sound (base : Nat) (p : Program) : Prop :=
  forall f, f ∈ p.all -> f.Checked ∧ forall c, c ∈ f.code.constants ->
    Value.Made (fun id => base <= id ∧ id < base + p.functions.size) c

theorem Script.Fits.program_sound (h : s.Fits base) : (s.program name).Sound base := by
  intro f hf
  rw [Script.functions_size]
  rcases Script.of_mem_program hf with ⟨i, d, hi, rfl⟩ | rfl
  · have hfits := h.definitions i d hi
    refine ⟨assemble_checked _ _ _ hfits, ?_⟩
    intro c hc
    have hi' := (Array.getElem?_eq_some_iff.mp hi).1
    refine (assemble_constants_made hfits c hc).imp ?_
    rintro id ⟨hlo, hhi⟩
    exact ⟨hlo, by lia⟩
  · exact ⟨assemble_checked _ _ _ h.body, assemble_constants_made h.body⟩

theorem compile_sound {source : String} {p : Program} (h : compile base name source = .ok p) :
    p.Sound base := by
  rcases compile_fits h with ⟨s, hs, rfl⟩
  exact hs.program_sound

/-- Every function of a script that compiles passes the static stack check, and the functions
that its constants name are functions of the same script. -/
theorem compile_passes_stack_check {source : String} {p : Program}
    (h : compile base name source = .ok p) (f : Function) (hf : f ∈ p.all) :
    f.Checked ∧ forall id, Value.function id ∈ f.code.constants ->
      exists i g, id = base + i ∧ p.functions[i]? = some g := by
  rcases compile_sound h f hf with ⟨hcheck, hmade⟩
  refine ⟨hcheck, ?_⟩
  intro id hid
  rcases hmade _ hid with ⟨hlo, hhi⟩
  have hi : id - base < p.functions.size := by lia
  exact ⟨id - base, p.functions[id - base], by lia, Array.getElem?_eq_getElem hi⟩

end Program

def handlerInFunction : String :=
  "function f(x) \x7b try \x7b throw x \x7d except e \x7b echo e \x7d \x7d"

theorem handler_in_function_passes_stack_check :
    exists (p : Program) (f : Function), compile 0 none handlerInFunction = .ok p ∧
      p.functions = #[f] ∧ f.name = some "f" ∧ f.ranges.size = 1 ∧
      (f.Checked ∧ forall id, Value.function id ∈ f.code.constants ->
        exists i g, id = 0 + i ∧ p.functions[i]? = some g) ∧
      (p.main.Checked ∧ forall id, Value.function id ∈ p.main.code.constants ->
        exists i g, id = 0 + i ∧ p.functions[i]? = some g) := by
  have hshape : (compile 0 none handlerInFunction).toOption.map
      (fun p => p.functions.map fun f => (f.name, f.ranges.size)) = some #[(some "f", 1)] := by
    decide +kernel
  rcases exists_of_toOption_map hshape with ⟨p, h, hfunctions⟩
  rcases Array.map_eq_singleton_iff.mp hfunctions with ⟨f, hp, hf⟩
  rcases Prod.mk.inj hf with ⟨hname, hranges⟩
  have hmem : f ∈ p.all := by
    unfold Program.all
    rw [hp]
    simp
  refine ⟨p, f, h, hp, hname, hranges, compile_passes_stack_check h f hmem, ?_⟩
  exact compile_passes_stack_check h p.main Array.mem_push_self

end StackScript
