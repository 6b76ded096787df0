import StackScript.Proofs.Reading.Grammar
import StackScript.Proofs.Rising

/-!
# The lines of what is read

The tokens of a script stand on lines that do not go down.  A node of a tree has the line of the
token that was consumed last, so the code of a tree rises from the line of the token consumed before
it to the line of the one consumed last.  The proof goes by induction on the rules for what stands
between two readings.
-/

namespace StackScript

/-! ## Readings on lines -/

/-- The code of a definition rises from the first line to the line of its last token, which is one
of so many. -/
def Definition.Lined (lines : Nat) (d : Definition) : Prop :=
  d.body.Rises 1 d.line ∧ d.line <= lines

/-- The token consumed last and those in front stand on lines that do not go down and are none but
the first so many. -/
structure Spot.Lined (lines : Nat) (p : Spot) : Prop where
  sorted : (p.previous :: p.tokens).Pairwise fun a b => a.start.line <= b.start.line
  bound : forall t, t ∈ p.previous :: p.tokens -> t.start.line <= lines

/-- The tokens stand on so many lines, and so do the definitions so far. -/
structure Reading.Lined (lines : Nat) (r : Reading) : Prop where
  spot : r.spot.Lined lines
  definitions : forall d, d ∈ r.definitions -> d.Lined lines

theorem Spot.Lined.next {lines : Nat} {p p' : Spot} (h : p.Lined lines)
    (hnext : p.next = .ok p') :
    p'.Lined lines ∧ p.previous.start.line <= p'.previous.start.line := by
  obtain ⟨hprevious, htokens⟩ := List.pairwise_cons.mp h.sorted
  have hbound : forall t, t ∈ p'.previous :: p'.tokens -> t.start.line <= lines := fun t ht =>
    h.bound t (List.mem_cons_of_mem _ (mem_of_next hnext ht))
  have hle := hprevious _ (mem_of_next hnext List.mem_cons_self)
  refine ⟨⟨?_, hbound⟩, hle⟩
  rcases next_eq_ok hnext with ⟨t, rest, hrest, rfl⟩ | ⟨hrest, -, rfl⟩
  · rw [tokens, hrest] at htokens
    exact htokens
  · show List.Pairwise _ (p.current :: p.current :: p.rest)
    rw [hrest]
    simp

namespace Reading

variable {lines : Nat} {r r1 r' : Reading}

theorem one_le_line (r : Reading) : 1 <= r.line :=
  Nat.le_add_left 1 _

theorem Lined.line_le (h : r.Lined lines) : r.line <= lines :=
  h.spot.bound _ List.mem_cons_self

theorem Steps.lined (h : r.Steps r') (hr : r.Lined lines) :
    r'.Lined lines ∧ r.line <= r'.line := by
  obtain ⟨hsame, uses, hgoes⟩ := h
  have hdefinitions : r'.definitions = r.definitions := congrArg Surroundings.definitions hsame
  have hkeeps : r'.spot.Lined lines ∧ r.line <= r'.spot.previous.start.line := by
    refine hgoes.keeps (P := fun p => p.Lined lines ∧ r.line <= p.previous.start.line) ?_ ?_
    · exact ⟨hr.spot, Nat.le_refl _⟩
    · intro p p' hnext hp
      obtain ⟨hp', hle⟩ := hp.1.next hnext
      exact ⟨hp', Nat.le_trans hp.2 hle⟩
  obtain ⟨hspot, hle⟩ := hkeeps
  exact ⟨⟨hspot, hdefinitions ▸ hr.definitions⟩, hle⟩

/-- Nothing but the scope, the function and the loop is changed. -/
theorem Lined.within (h : r.Lined lines) (s : Scope) (inFunction : Bool) (loop : Option Nat) :
    Lined lines { r with scope := s, inFunction := inFunction, loop := loop } :=
  ⟨h.spot, h.definitions⟩

theorem Lined.define {d : Definition} (h : r.Lined lines) (hd : d.Lined lines) :
    Lined lines { r with definitions := r.definitions.push d } := by
  refine ⟨h.spot, fun e he => ?_⟩
  rcases Array.mem_push.mp he with he | rfl
  · exact h.definitions e he
  · exact hd

end Reading

/-! ## Pieces -/

/-- The code of a piece rises from one line to another. -/
def Piece.Rises (lo hi : Nat) : Piece -> Prop
  | .expr e => e.Rises lo hi
  | .exprs es => Expr.AllRise lo hi es
  | .locals _ | .function _ => lo <= hi
  | .body d => d.body.Rises lo d.line ∧ d.line <= hi
  | .statement s | .declaration s | .loop s => s.Rises lo hi

section Pieces

variable {lo hi : Nat} {p : Piece} {e : Expr} {es : List Expr} {s : Stmt}

theorem Expr.AllRise.earlier {lo' : Nat} (h : Expr.AllRise lo hi es) (hlo : lo' <= lo) :
    Expr.AllRise lo' hi es :=
  fun k => (h k).earlier hlo

theorem Expr.AllRise.later {hi' : Nat} (h : Expr.AllRise lo hi es) (hhi : hi <= hi') :
    Expr.AllRise lo hi' es :=
  fun k => (h k).later hhi

theorem Piece.Rises.earlier {lo' : Nat} (h : p.Rises lo hi) (hlo : lo' <= lo) :
    p.Rises lo' hi := by
  cases p with
  | expr e => exact Expr.Rises.earlier h hlo
  | exprs es => exact Expr.AllRise.earlier h hlo
  | locals | function => exact Nat.le_trans hlo h
  | body d => exact ⟨h.1.earlier hlo, h.2⟩
  | statement s | declaration s | loop s => exact Stmt.Rises.earlier h hlo

theorem Piece.Rises.later {hi' : Nat} (h : p.Rises lo hi) (hhi : hi <= hi') : p.Rises lo hi' := by
  cases p with
  | expr e => exact Expr.Rises.later h hhi
  | exprs es => exact Expr.AllRise.later h hhi
  | locals | function => exact Nat.le_trans h hhi
  | body d => exact ⟨h.1, Nat.le_trans h.2 hhi⟩
  | statement s | declaration s | loop s => exact Stmt.Rises.later h hhi

theorem Stmt.Performs.rises (h : s.Performs e hi) (he : e.Rises lo hi) : s.Rises lo hi := by
  have hle := Nat.le_refl hi
  cases h with
  | expr => exact .expr he hle
  | output => exact .output he hle
  | throw => exact .throw he hle
  | use => exact .use he hle
  | define => exact .define he hle
  | ret => exact .ret he hle

/-- The locals of a block are forgotten on the last line of the block. -/
theorem Stmt.Rises.dropped {n : Nat} (h : s.Rises lo hi) :
    (Stmt.seq s (.drop n hi)).Rises lo hi :=
  .seq h (.drop (Nat.le_refl hi))

end Pieces

/-- What stands between two readings rises from the line of the one to the line of the other. -/
theorem Reading.Spells.rises {r r' : Reading} {p : Piece} {lines : Nat} (h : r.Spells p r')
    (hr : r.Lined lines) : r'.Lined lines ∧ p.Rises r.line r'.line := by
  induction h with
  | ahead hsteps _ ih =>
      obtain ⟨hr1, hle⟩ := hsteps.lined hr
      obtain ⟨hr', hp⟩ := ih hr1
      exact ⟨hr', hp.earlier hle⟩
  | behind _ hsteps ih =>
      obtain ⟨hr1, hp⟩ := ih hr
      obtain ⟨hr', hle⟩ := hsteps.lined hr1
      exact ⟨hr', hp.later hle⟩
  | literal => exact ⟨hr, .literal (Nat.le_refl _)⟩
  | text => exact ⟨hr, .text (Nat.le_refl _)⟩
  | closure _ ih =>
      obtain ⟨hr', hle⟩ := ih hr
      exact ⟨hr', .function hle⟩
  | read => exact ⟨hr, .read (Nat.le_refl _)⟩
  | assign _ _ _ ih =>
      obtain ⟨hr', ha⟩ := ih hr
      exact ⟨hr', .assign ha (Nat.le_refl _)⟩
  | update op _ _ hsteps _ ih =>
      obtain ⟨hr1, hle⟩ := hsteps.lined hr
      obtain ⟨hr', ha⟩ := ih hr1
      exact ⟨hr', .update hle ha (Nat.le_refl _)⟩
  | unary op _ ih =>
      obtain ⟨hr', ha⟩ := ih hr
      exact ⟨hr', .unary ha (Nat.le_refl _)⟩
  | binary op _ _ ih ih' =>
      obtain ⟨hr1, ha⟩ := ih hr
      obtain ⟨hr', hb⟩ := ih' hr1
      exact ⟨hr', .binary ha hb (Nat.le_refl _)⟩
  | ternary op _ _ _ ih ih' ih'' =>
      obtain ⟨hr1, ha⟩ := ih hr
      obtain ⟨hr2, hb⟩ := ih' hr1
      obtain ⟨hr', hc⟩ := ih'' hr2
      exact ⟨hr', .ternary ha hb hc (Nat.le_refl _)⟩
  | connect op _ _ ih ih' =>
      obtain ⟨hr1, ha⟩ := ih hr
      obtain ⟨hr', hb⟩ := ih' hr1
      exact ⟨hr', .connect ha (Nat.le_refl _) hb⟩
  | call _ _ ih ih' =>
      obtain ⟨hr1, hf⟩ := ih hr
      obtain ⟨hr', hargs⟩ := ih' hr1
      exact ⟨hr', .call hf hargs (Nat.le_refl _)⟩
  | property key _ ih =>
      obtain ⟨hr', ho⟩ := ih hr
      exact ⟨hr', .property ho (Nat.le_refl _)⟩
  | setProperty key _ _ ih ih' =>
      obtain ⟨hr1, ho⟩ := ih hr
      obtain ⟨hr', ha⟩ := ih' hr1
      exact ⟨hr', .setProperty ho ha (Nat.le_refl _)⟩
  | updateProperty key op _ _ ih ih' =>
      obtain ⟨hr1, ho⟩ := ih hr
      obtain ⟨hr', ha⟩ := ih' hr1
      exact ⟨hr', .updateProperty ho (Nat.le_refl _) ha (Nat.le_refl _)⟩
  | updateItem op _ _ _ ih ih' ih'' =>
      obtain ⟨hr1, ho⟩ := ih hr
      obtain ⟨hr2, hi⟩ := ih' hr1
      obtain ⟨hr', ha⟩ := ih'' hr2
      exact ⟨hr', .updateItem ho hi (Nat.le_refl _) ha (Nat.le_refl _)⟩
  | array _ ih =>
      obtain ⟨hr', hes⟩ := ih hr
      exact ⟨hr', .array hes (Nat.le_refl _)⟩
  | table _ _ ih =>
      obtain ⟨hr', hes⟩ := ih hr
      exact ⟨hr', .table hes (Nat.le_refl _)⟩
  | nil => exact ⟨hr, Expr.allRise_nil (Nat.le_refl _)⟩
  | cons _ _ ih ih' =>
      obtain ⟨hr1, he⟩ := ih hr
      obtain ⟨hr', hes⟩ := ih' hr1
      exact ⟨hr', .cons he hes⟩
  | none => exact ⟨hr, Nat.le_refl _⟩
  | «local» _ _ ih =>
      obtain ⟨hr', hle⟩ := ih (hr.within _ _ _)
      exact ⟨hr', hle⟩
  | body name _ _ ih ih' =>
      obtain ⟨hr1, hle⟩ := ih hr
      obtain ⟨hr', hs⟩ := ih' hr1
      exact ⟨hr', hs.earlier hle, Nat.le_refl _⟩
  | @function r r' d _ ih =>
      obtain ⟨hr', hbody, hline⟩ := ih (hr.within _ _ _)
      have hd : d.Lined lines :=
        ⟨hbody.earlier (one_le_line _), Nat.le_trans hline hr'.line_le⟩
      exact ⟨(hr'.define hd).within _ _ _, Nat.le_trans hbody.le hline⟩
  | skip => exact ⟨hr, .skip (Nat.le_refl _)⟩
  | perform _ hperforms ih =>
      obtain ⟨hr', he⟩ := ih hr
      exact ⟨hr', hperforms.rises he⟩
  | leave => exact ⟨hr, .leave (Nat.le_refl _)⟩
  | again => exact ⟨hr, .again (Nat.le_refl _)⟩
  | block _ ih | «for» _ ih =>
      obtain ⟨hr', hs⟩ := ih (hr.within _ _ _)
      exact ⟨hr'.within _ _ _, Stmt.Rises.dropped hs⟩
  | cond _ _ _ ih ih' ih'' =>
      obtain ⟨hr1, hc⟩ := ih hr
      obtain ⟨hr2, hbody⟩ := ih' hr1
      obtain ⟨hr', hother⟩ := ih'' hr2
      exact ⟨hr', .cond hc hbody hother⟩
  | «while» _ _ ih ih' =>
      obtain ⟨hr1, hc⟩ := ih hr
      obtain ⟨hr', hbody⟩ := ih' (hr1.within _ _ _)
      exact ⟨hr'.within _ _ _, .while hc hbody⟩
  | «try» _ hsteps hsteps' _ _ ih ih' =>
      obtain ⟨hr1, hbody⟩ := ih hr
      obtain ⟨hr2, hle⟩ := hsteps.lined hr1
      obtain ⟨hr3, hle'⟩ := hsteps'.lined (hr2.within _ _ _)
      obtain ⟨hr', hhandler⟩ := ih' (hr3.within _ _ _)
      refine ⟨hr'.within _ _ _, .try hbody ?_⟩
      exact (Stmt.Rises.dropped hhandler).earlier (Nat.le_trans hle hle')
  | tryAny _ hsteps hsteps' _ ih ih' =>
      obtain ⟨hr1, hbody⟩ := ih hr
      obtain ⟨hr2, hle⟩ := hsteps.lined hr1
      obtain ⟨hr3, hle'⟩ := hsteps'.lined (hr2.within _ _ _)
      obtain ⟨hr', hhandler⟩ := ih' hr3
      refine ⟨hr'.within _ _ _, .try hbody ?_⟩
      exact .seq (.drop (Nat.le_trans hle hle')) (Stmt.Rises.dropped hhandler)
  | plain _ ih => exact ih hr
  | seq _ _ ih ih' =>
      obtain ⟨hr1, ha⟩ := ih hr
      obtain ⟨hr', hb⟩ := ih' hr1
      exact ⟨hr', .seq ha hb⟩
  | bind _ _ ih =>
      obtain ⟨hr', he⟩ := ih (hr.within _ _ _)
      exact ⟨hr'.within _ _ _, .bind he⟩
  | bindFunction _ _ ih =>
      obtain ⟨hr', hle⟩ := ih (hr.within _ _ _)
      exact ⟨hr', .bind (.function hle)⟩
  | stepping _ _ hsteps _ _ ih ih' ih'' ih3 =>
      obtain ⟨hr1, hstart⟩ := ih hr
      obtain ⟨hr2, hc⟩ := ih' hr1
      obtain ⟨hr3, hle⟩ := hsteps.lined hr2
      obtain ⟨hr4, hstep⟩ := ih'' hr3
      obtain ⟨hr', hbody⟩ := ih3 (hr4.within _ _ _)
      exact ⟨hr'.within _ _ _, .seq hstart (.stepping hc hle hstep hbody)⟩
  | collection _ _ _ _ ih ih' ih'' =>
      obtain ⟨hr1, he⟩ := ih hr
      obtain ⟨hr2, hle⟩ := ih' (hr1.within _ _ _)
      obtain ⟨hr', hbody⟩ := ih'' (hr2.within _ _ _)
      exact ⟨hr'.within _ _ _, .seq (.bind he) (.iterate hle hbody)⟩

end StackScript
