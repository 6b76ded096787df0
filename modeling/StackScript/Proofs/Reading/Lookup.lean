import StackScript.Proofs.Reading.Hidden

/-!
# What names stand for

The answers that the reader takes from its list of locals are those that the open blocks give.
This holds after any operations on the scope of a function, and what the reader reads goes through
such operations.
-/

namespace StackScript

/-! ## Answers -/

/-- The reader answers as the blocks say. -/
structure Parser.Answers (b : Blocks) (r : Reading) : Prop where
  /-- A name can be declared unless the current block has it. -/
  declare : forall name, declare name r =
    if name ∈ b.names then .error (.fault (.duplicateVariable name) r.previous.start)
    else .ok ((), { r with scope := (b.add name false).flat })
  /-- A name stands for its declaration in the innermost block that has one. -/
  slot : forall name n, resolve name r = .ok (.slot n, r) ↔
    exists d, b.Innermost name d ∧ d.settled = true ∧ d.slot = n
  /-- A name that waits for its value cannot be used, and nothing else fails. -/
  unsettled : forall name e, resolve name r = .error e ↔
    (exists d, b.Innermost name d ∧ d.settled = false) ∧
      e = .fault (.unsettledVariable name) r.previous.start
  /-- A name that no open block declares is global. -/
  global : forall name, resolve name r = .ok (.global name, r) ↔
    forall block, block ∈ b.all -> forall d, d ∈ block -> d.name ≠ name

namespace Parser

open Blocks

section Answers

variable {b : Blocks} {r : Reading}

theorem resolve_slot_iff (hb : b.Sound) (hr : r.scope = b.flat) (name : String) (n : Nat) :
    resolve name r = .ok (.slot n, r) ↔
      exists d, b.Innermost name d ∧ d.settled = true ∧ d.slot = n := by
  rcases resolve_cases hb hr name with ⟨d, hd, hs, h⟩ | ⟨d, hd, hs, h⟩ | ⟨hnone, h⟩
  · rw [h]
    constructor
    · intro hslot
      cases hslot
      exact ⟨d, hd, hs, rfl⟩
    · rintro ⟨e, he, -, rfl⟩
      rw [hd.unique hb he]
  · rw [h]
    constructor
    · exact nofun
    · rintro ⟨e, he, hsettled, -⟩
      rw [hd.unique hb he, hsettled] at hs
      cases hs
  · rw [h]
    constructor
    · exact nofun
    · rintro ⟨e, he, -⟩
      exact absurd he.mem.2 (hnone e he.mem.1)

theorem resolve_error_iff (hb : b.Sound) (hr : r.scope = b.flat) (name : String)
    (e : ParseError) :
    resolve name r = .error e ↔ (exists d, b.Innermost name d ∧ d.settled = false) ∧
      e = .fault (.unsettledVariable name) r.previous.start := by
  rcases resolve_cases hb hr name with ⟨d, hd, hs, h⟩ | ⟨d, hd, hs, h⟩ | ⟨hnone, h⟩
  · rw [h]
    constructor
    · exact nofun
    · rintro ⟨⟨c, hc, hwaits⟩, -⟩
      rw [hd.unique hb hc, hwaits] at hs
      cases hs
  · rw [h]
    constructor
    · intro he
      cases he
      exact ⟨⟨d, hd, hs⟩, rfl⟩
    · rintro ⟨-, rfl⟩
      rfl
  · rw [h]
    constructor
    · exact nofun
    · rintro ⟨⟨c, hc, -⟩, -⟩
      exact absurd hc.mem.2 (hnone c hc.mem.1)

theorem resolve_global_iff (hb : b.Sound) (hr : r.scope = b.flat) (name : String) :
    resolve name r = .ok (.global name, r) ↔
      forall block, block ∈ b.all -> forall d, d ∈ block -> d.name ≠ name := by
  have hdeclared {d : Declaration} (hd : b.Innermost name d) :
      ¬ forall block, block ∈ b.all -> forall d, d ∈ block -> d.name ≠ name := by
    intro hnone
    rcases List.mem_flatten.mp hd.mem.1 with ⟨block, hblock, hmem⟩
    exact hnone block hblock d hmem hd.mem.2
  rcases resolve_cases hb hr name with ⟨d, hd, -, h⟩ | ⟨d, hd, -, h⟩ | ⟨hnone, h⟩
  · rw [h]
    exact ⟨nofun, fun hall => absurd hall (hdeclared hd)⟩
  · rw [h]
    exact ⟨nofun, fun hall => absurd hall (hdeclared hd)⟩
  · rw [h]
    refine ⟨fun _ block hblock d hd => hnone d (List.mem_flatten_of_mem hblock hd), fun _ => rfl⟩

theorem answers (hb : b.Sound) (hr : r.scope = b.flat) : Answers b r where
  declare := declare_flat hb hr
  slot := resolve_slot_iff hb hr
  unsettled := resolve_error_iff hb hr
  global := resolve_global_iff hb hr

end Answers

/-! ## Leaving a block -/

/-- Leaving a block brings the blocks from before it back. -/
theorem performAll?_before {start b b' : Blocks} {before inner : List Scope.Operation}
    (hinner : Scope.Balanced inner)
    (h : start.performAll? (before ++ .enter :: inner) = some b)
    (hexit : b.perform? .exit = some b') :
    start.performAll? before = some b' ∧ b.outer = b'.all := by
  rw [performAll?_append] at h
  rcases Option.bind_eq_some_iff.mp h with ⟨c, hbefore, hblock⟩
  rcases Option.bind_eq_some_iff.mp hblock with ⟨e, henter, hops⟩
  simp only [perform?, Option.ite_none_right_eq_some, Option.some.injEq] at henter hexit
  have houter : b.outer = c.all := by
    rw [outer_of_balanced hinner hops, ← henter.2]
    rfl
  have hback : b' = c := by
    rcases b with ⟨current, outer⟩
    subst houter
    exact (Option.some.inj hexit.2).symm
  rw [hback]
  exact ⟨hbefore, houter⟩

theorem exitScope_flat {b b' : Blocks} {r : Reading} (hb : b.Sound) (hr : r.scope = b.flat)
    (houter : b.outer = b'.all) :
    exitScope r =
      .ok (.drop b.current.length r.previous.start.line, { r with scope := b'.flat }) := by
  show Except.ok (Stmt.drop (r.scope.above (r.scope.depth - 1)) _,
    { r with scope := r.scope.exit }) = _
  rw [hr, above_flat hb houter, exit_flat hb houter]

/-! ## All operations -/

/-- A function is read from its own first blocks, whatever the scope around it has. -/
theorem inFunction_resolve {b : Blocks} {ops : List Scope.Operation}
    (h : Blocks.function.performAll? ops = some b) (name : String)
    (hnone : forall block, block ∈ b.all -> forall d, d ∈ block -> d.name ≠ name) (r : Reading) :
    inFunction (do ops.forM perform; resolve name) r = .ok (.global name, r) := by
  have hperform := performAll_flat (r := { r with
    scope := Scope.function, inFunction := true, loop := none }) sound_function h rfl
  have hresolve := (resolve_global_iff (r := { r with
    scope := b.flat, inFunction := true, loop := none }) (sound_function.performAll h) rfl
    name).mpr hnone
  simp only [inFunction, bind_eq_ok, get_eq_ok, set_eq_ok, modify_eq_ok, pure_eq_ok]
  exact ⟨r, r, ⟨rfl, rfl⟩, (), _, rfl, _, _, ⟨_, _, hperform, hresolve⟩, (), _, rfl, rfl, rfl⟩

/-- After any operations on the scope of a script or of a function, the list of locals stands for
the open blocks: the reader declares and resolves names as these say, in a function whatever is
declared around it.  Leaving a block forgets just the locals that were declared in it, with one pop
for each, and the blocks are those from before it.  What is read of a body goes from blocks to
blocks by operations that leave what they enter. -/
theorem locals_stand_for_blocks {start b : Blocks} {ops : List Scope.Operation}
    (hstart : start = Blocks.script ∨ start = Blocks.function)
    (h : start.performAll? ops = some b) (r : Reading) (hr : r.scope = start.flat) :
    ops.forM perform r = .ok ((), { r with scope := b.flat }) ∧
    Answers b { r with scope := b.flat } ∧
    (start = Blocks.function -> forall name,
      (forall block, block ∈ b.all -> forall d, d ∈ block -> d.name ≠ name) ->
      forall around : Reading,
        inFunction (do ops.forM perform; resolve name) around = .ok (.global name, around)) ∧
    (forall before inner b', ops = before ++ .enter :: inner -> Scope.Balanced inner ->
      b.perform? .exit = some b' ->
      start.performAll? before = some b' ∧
      before.forM perform r = .ok ((), { r with scope := b'.flat }) ∧
      b.declarations = b.current ++ b'.declarations ∧
      exists s, exitScope { r with scope := b.flat } = .ok (s, { r with scope := b'.flat }) ∧
        forall k exits ip, s.code k exits ip =
          List.replicate b.current.length (.pop, r.previous.start.line)) ∧
    (b.Idle -> forall fuel, From b (fun _ b' => b.Reaches b') (parameters fuel) ∧
      forall inBlock, From b (fun _ b' => b.Reaches b') (declarations fuel inBlock)) := by
  have hsound : start.Sound := by
    rcases hstart with rfl | rfl
    · exact sound_script
    · exact sound_function
  have hb := hsound.performAll h
  refine ⟨performAll_flat hsound h hr, answers hb rfl, ?_, ?_, ?_⟩
  · rintro rfl name hnone around
    exact inFunction_resolve h name hnone around
  · rintro before inner b' rfl hinner hexit
    rcases performAll?_before hinner h hexit with ⟨hbefore, houter⟩
    refine ⟨hbefore, performAll_flat hsound hbefore hr, ?_, _, exitScope_flat hb rfl houter,
      fun _ _ _ => rfl⟩
    rw [Blocks.declarations, Blocks.all, List.flatten_cons, houter]
    rfl
  · intro hidle fuel
    exact ⟨from_parameters hb hidle fuel, from_declarations hb hidle fuel⟩

/-- A local of an inner block hides the parameter of the same name until the block is left. -/
theorem inner_local_hides_parameter :
    let r : Reading := { Parser.start 0 [] none with scope := Scope.function }
    let inner : Blocks := ⟨[⟨"a", 2, true⟩], [[⟨"a", 1, true⟩], [⟨"", 0, true⟩]]⟩
    let outer : Blocks := ⟨[⟨"a", 1, true⟩], [[⟨"", 0, true⟩]]⟩
    resolve "a" { r with scope := inner.flat } = .ok (.slot 2, { r with scope := inner.flat }) ∧
    (exists s, exitScope { r with scope := inner.flat } = .ok (s, { r with scope := outer.flat })) ∧
    resolve "a" { r with scope := outer.flat } = .ok (.slot 1, { r with scope := outer.flat }) := by
  intro r inner outer
  have hinner : Blocks.function.performAll? ([.declare "a", .settle] ++
      .enter :: [.declare "a", .settle]) = some inner := by decide
  have houter : Blocks.function.performAll? [.declare "a", .settle] = some outer := by decide
  rcases locals_stand_for_blocks (Or.inr rfl) hinner r rfl with ⟨-, hanswers, -, hexit, -⟩
  rcases locals_stand_for_blocks (Or.inr rfl) houter r rfl with ⟨-, hanswers', -, -, -⟩
  rcases hexit _ _ outer rfl (.declare "a" (.settle .nil)) (by decide) with ⟨-, -, -, s, hs, -⟩
  refine ⟨(hanswers.slot "a" 2).mpr ?_, ⟨s, hs⟩, (hanswers'.slot "a" 1).mpr ?_⟩
  · exact ⟨⟨"a", 2, true⟩, ⟨[], _, _, rfl, List.mem_singleton_self _, rfl, nofun⟩, rfl, rfl⟩
  · exact ⟨⟨"a", 1, true⟩, ⟨[], _, _, rfl, List.mem_singleton_self _, rfl, nofun⟩, rfl, rfl⟩

end Parser
end StackScript
