import StackScript.Proofs.Compiled
import StackScript.Proofs.Machine.Increment
import StackScript.Proofs.Writing.Script

/-!
# Increments in place of additions

Each increment in a function stands where code was taken back, and running it cannot be told from
running the four instructions that it replaces.
-/

namespace StackScript

/-- An assignment with an operator takes code back just if an integer is added to a local, and then
all that it has written itself. -/
theorem Expr.cuts_update {k : Variable.Index} {v : Variable} {op : Operator} {a : Expr}
    {opLine line : Nat} {s : Sheet} {text : Lines} {cs : List Value} {rs : List TryRange}
    (h : s.Shows text cs rs)
    (hk : Places k (cs ++ (Expr.update v op opLine a line).constants)) :
    ((Expr.update v op opLine a line).emit k s).cuts =
      let t := a.emit k ((s.mention v.constants).write [(v.get k, opLine)])
      match increment? v op a with
      | some (n, i) => ⟨s.size, n, i, t.code, t.ranges⟩ :: t.cuts
      | none => t.cuts := by
  rw [Expr.constants, ← List.append_assoc] at hk
  have hget := (Sheet.Adds.refl h).mention_get hk.left opLine
  have hshows := (a.emit_adds hget hk).shows
  rw [← List.append_assoc] at hshows
  have hmark : (text ++ ([] ++ [(v.get k, opLine)])).length - 1 = s.size := by
    rw [h.size]
    simp
  rw [Expr.emit, hget.shows.size, Sheet.update_eq hshows, hmark]
  cases increment? v op a with
  | none => rfl
  | some found => rfl

/-! ## Scripts -/

/-- Every function of a script that compiles can be written with code taken back. -/
theorem compile_writes {base : Nat} {name : Option String} {source : String} {p : Program}
    (h : compile base name source = .ok p) :
    exists s, parse base source = .ok s ∧ p = s.program name ∧
      (forall d, d ∈ s.definitions -> (d.body.emitBody d.line).Writes (d.assemble name)) ∧
      (s.body.emitBody s.line).Writes p.main := by
  rcases compile_eq_ok h with ⟨s, hs, rfl⟩
  have hfits := parse_fits hs
  refine ⟨s, hs, rfl, ?_, hfits.body.emitBody_writes _ _ _ _⟩
  intro d hd
  rcases Array.getElem?_of_mem hd with ⟨i, hi⟩
  exact Stmt.Fits.emitBody_writes (hfits.definitions i d hi) _ _ _ _

/-- In any machine an increment does what the read of the local, the integer, the addition and the
write do one after another, and so it is in calls.  In compiled code an increment stands just where
the read and the integer of one assignment were taken back, which left lines and constants where
they were and no jump and no range that leads behind the place. -/
theorem increments_replace_additions :
    (forall slot n (m : Machine), Exec.addToLocal slot n m = Exec.step (.increment slot n) m) ∧
    (forall (m : Machine) (f g : Frame) (slot : Nat) (n : Int64) (lines : Lines) (line : Nat),
      g.base = f.base -> f.base + slot < m.stack.size ->
      lines.map Prod.fst =
        [.getLocal slot, .literal (.int n), .binary (.arith .add), .setLocal slot] ->
      CodeAt (m.heap.function f.function) f.ip lines ->
      CodeAt (m.heap.function g.function) g.ip [(.increment slot n, line)] -> m.AddsAlike f g) ∧
    (forall base name source p, compile base name source = .ok p ->
      exists s, parse base source = .ok s ∧ p = s.program name ∧
        (forall d, d ∈ s.definitions -> (d.body.emitBody d.line).Writes (d.assemble name)) ∧
        (s.body.emitBody s.line).Writes p.main) ∧
    (forall (k : Variable.Index) (s : Sheet) text cs rs v op a opLine line, s.Shows text cs rs ->
      Places k (cs ++ (Expr.update v op opLine a line).constants) ->
      ((Expr.update v op opLine a line).emit k s).cuts =
        let t := a.emit k ((s.mention v.constants).write [(v.get k, opLine)])
        match increment? v op a with
        | some (n, i) => ⟨s.size, n, i, t.code, t.ranges⟩ :: t.cuts
        | none => t.cuts) := by
  refine ⟨fun slot n m => Exec.addToLocal_eq m slot n, ?_, fun _ _ _ _ => compile_writes, ?_⟩
  · exact fun m f g slot n lines line => Machine.addsAlike m
  · exact fun k s text cs rs v op a opLine line => Expr.cuts_update

/-- An increment of a parameter, in two calls and in the code of a script. -/
theorem parameter_increment_replaces_addition :
    let f : Frame := ⟨0, 0, 0⟩
    let g : Frame := ⟨1, 0, 0⟩
    let lines : Lines := [(.getLocal 1, 1), (.literal (.int 2), 1), (.binary (.arith .add), 1),
      (.setLocal 1, 1)]
    let m : Machine :=
      { heap := { functions := #[{ code := { instrs := (lines.map Prod.fst).toArray } },
          { code := { instrs := #[.increment 1 2] } }] }
        stack := #[.none, .integer 40] }
    Exec.addToLocal 1 2 m = Exec.step (.increment 1 2) m ∧ m.AddsAlike f g ∧
    (exists (p : Program) (s : Script),
      compile 0 none "function f(x) \x7b x += 2 return x \x7d" = .ok p ∧ p = s.program none ∧
      (forall d, d ∈ s.definitions -> (d.body.emitBody d.line).Writes (d.assemble none)) ∧
      (s.body.emitBody s.line).Writes p.main) ∧
    let e : Expr := .update (.slot 1) .add 1 (.literal (.int 2) 1) 1
    (e.emit (fun _ => 0) {}).cuts.map (fun c => (c.mark, c.slot, c.amount)) = [(0, 1, 2)] := by
  intro f g lines m
  have hall := increments_replace_additions
  refine ⟨hall.1 1 2 m, ?_, ?_, ?_⟩
  · have hf : CodeAt (m.heap.function f.function) f.ip lines := ⟨rfl, rfl, rfl, rfl, trivial⟩
    have hg : CodeAt (m.heap.function g.function) g.ip [(.increment 1 2, 1)] := ⟨rfl, trivial⟩
    exact hall.2.1 m f g 1 2 lines 1 rfl (by decide) rfl hf hg
  · have hok : exists p, compile 0 none "function f(x) \x7b x += 2 return x \x7d" = .ok p :=
      exists_of_isOk (by decide +kernel)
    rcases hok with ⟨p, hp⟩
    rcases hall.2.2.1 0 none _ p hp with ⟨s, -, hs, hdefinitions, hmain⟩
    exact ⟨p, s, hp, hs, hdefinitions, hmain⟩
  · have hcuts := hall.2.2.2 (fun _ => 0) {} [] [] [] (.slot 1) .add (.literal (.int 2) 1) 1 1
      Sheet.shows_empty (by rintro xs ys hxs v hv; simp_all [Expr.constants, Variable.constants])
    intro e
    rw [hcuts]
    rfl

end StackScript
