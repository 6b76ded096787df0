import StackScript.Value.Heap

/-!
# What compiling gives

The program of a script has a function for each definition and one for the body, and a heap
that compiles a script has these functions behind its own.  Later arguments use these
equations and do not open the definitions again.
-/

namespace StackScript

/-! ## Programs -/

section Program

variable {name : Option String} {s : Script} {p : Program}

theorem Program.size_all : p.all.size = p.functions.size + 1 := by
  simp [Program.all]

theorem Script.functions_size : (s.program name).functions.size = s.definitions.size := by
  simp [Script.program]

theorem Script.functions_getElem? {i : Nat} :
    (s.program name).functions[i]? = s.definitions[i]?.map (Definition.assemble name) := by
  simp [Script.program]

/-- The function of a definition has the number of the definition. -/
theorem Script.of_functions_getElem? {i : Nat} {f : Function} {d : Definition}
    (hf : (s.program name).functions[i]? = some f) (hd : s.definitions[i]? = some d) :
    d.assemble name = f := by
  rw [functions_getElem?, hd] at hf
  exact Option.some.inj hf

/-- A function of a script is that of a definition, or it is the body. -/
theorem Script.of_mem_program {f : Function} (hf : f ∈ (s.program name).all) :
    (exists (i : Nat) (d : Definition), s.definitions[i]? = some d ∧ d.assemble name = f) ∨
      (s.program name).main = f := by
  rcases Array.mem_push.mp hf with hf | rfl
  · rcases Array.mem_map.mp hf with ⟨d, hd, rfl⟩
    rcases Array.getElem?_of_mem hd with ⟨i, hi⟩
    exact Or.inl ⟨i, d, hi, rfl⟩
  · exact Or.inr rfl

theorem compile_eq_ok {base : Nat} {source : String} (h : compile base name source = .ok p) :
    exists s, parse base source = .ok s ∧ s.program name = p := by
  unfold compile at h
  split at h
  case h_1 s hs => exact ⟨s, hs, Except.ok.inj h⟩
  case h_2 => cases h

theorem compile_eq_error {base : Nat} {source : String} {e : CompileError}
    (h : compile base name source = .error e) :
    exists reason, parse base source = .error reason ∧ reason.report name source = e := by
  unfold compile at h
  split at h
  case h_1 => cases h
  case h_2 reason hreason => exact ⟨reason, hreason, Except.error.inj h⟩

/-- The body of a script takes no arguments and has the name of the script. -/
theorem compile_main {base : Nat} {source : String} (h : compile base name source = .ok p) :
    p.main.arity = 0 ∧ p.main.script = name := by
  rcases compile_eq_ok h with ⟨s, -, rfl⟩
  exact ⟨rfl, rfl⟩

end Program

/-! ## Heaps -/

namespace Heap

section Compile

variable {h h' : Heap} {name : Option String} {source : String} {id : Nat}

theorem function_append {i : Nat} {functions : Array Function} (hi : i < functions.size) :
    function { h with functions := h.functions ++ functions } (h.functions.size + i) =
      functions[i] := by
  simp [function, Array.getD_eq_getD_getElem?, hi]

theorem compile_apply {p : Program}
    (hp : StackScript.compile h.functions.size name source = .ok p) :
    h.compile name source =
      .ok (h.functions.size + p.functions.size, { h with functions := h.functions ++ p.all }) := by
  have hlast : (h.functions ++ p.all).size - 1 = h.functions.size + p.functions.size := by
    rw [Array.size_append, Program.size_all, ← Nat.add_assoc, Nat.add_sub_cancel]
  rw [← hlast]
  unfold compile
  rw [hp]
  rfl

theorem compile_rejected {e : CompileError}
    (hp : StackScript.compile h.functions.size name source = .error e) :
    h.compile name source = .error e := by
  unfold compile
  rw [hp]
  rfl

/-- A heap that compiles a script has the functions of its program behind its own. -/
theorem compile_eq_ok (hc : h.compile name source = .ok (id, h')) :
    exists p, StackScript.compile h.functions.size name source = .ok p ∧
      id = h.functions.size + p.functions.size ∧
      h' = { h with functions := h.functions ++ p.all } := by
  cases hp : StackScript.compile h.functions.size name source with
  | error e =>
      rw [compile_rejected hp] at hc
      cases hc
  | ok p =>
      rw [compile_apply hp] at hc
      cases hc
      exact ⟨p, rfl, rfl, rfl⟩

/-- The number that compiling gives is that of the body of the script. -/
theorem function_compile (hc : h.compile name source = .ok (id, h')) :
    exists p, StackScript.compile h.functions.size name source = .ok p ∧
      h'.function id = p.main := by
  rcases compile_eq_ok hc with ⟨p, hp, rfl, rfl⟩
  refine ⟨p, hp, ?_⟩
  rw [function_append (Program.size_all ▸ Nat.lt_succ_self _)]
  exact Array.getElem_push_eq

theorem arity_of_compile (hc : h.compile name source = .ok (id, h')) :
    (h'.function id).arity = 0 := by
  rcases function_compile hc with ⟨p, hp, hmain⟩
  exact hmain ▸ (compile_main hp).1

theorem script_of_compile (hc : h.compile name source = .ok (id, h')) :
    (h'.function id).script = name := by
  rcases function_compile hc with ⟨p, hp, hmain⟩
  exact hmain ▸ (compile_main hp).2

end Compile
end Heap
end StackScript
