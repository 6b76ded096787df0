import StackScript.Proofs.Structured.Layout

/-!
# The code of structured programs does what they mean

Each phrase is followed by its code: when the phrase ends, the machine comes to the state
that belongs to the signal, and when the phrase has not ended after so many rounds, the
machine is still running after as many instructions.
-/

namespace StackScript

open Phrase (Names)

/-! ## Locals that are dropped -/

namespace World

def trim (w : World) (depth : Nat) : World :=
  { w with scopes := w.scopes.drop (w.scopes.length - depth) }

theorem length_names (w : World) : w.names.length = w.scopes.length := by
  simp [names]

theorem trim_length (w : World) : w.trim w.names.length = w := by
  simp [trim, length_names]

theorem trim_leave {w : World} {depth : Nat} (h : depth < w.names.length) :
    w.leave.trim depth = w.trim depth := by
  rcases w with ⟨scopes, globals, output⟩
  cases scopes with
  | nil => cases h
  | cons s scopes =>
      simp only [length_names, List.length_cons] at h
      have hlength : scopes.length + 1 - depth = scopes.length - depth + 1 := by lia
      simp [trim, leave, hlength]

/-- The locals of the deeper blocks lie on top. -/
theorem values_trim (w : World) (depth : Nat) :
    exists us, us.length = Scope.countAbove w.names depth ∧
      w.values = (w.trim depth).values ++ us := by
  let n := w.scopes.length - depth
  refine ⟨((w.scopes.take n).flatten.map Prod.snd).reverse, ?_, ?_⟩
  · simp [Scope.countAbove, names, n, List.map_take, List.length_flatten, Function.comp_def]
  · have hsplit : w.locals = (w.scopes.take n).flatten ++ (w.scopes.drop n).flatten := by
      rw [← List.flatten_append, List.take_append_drop]
      rfl
    rw [values, hsplit, List.map_append, List.reverse_append]
    rfl

theorem values_leave (w : World) :
    exists us, us.length = innermost w.names ∧ w.values = w.leave.values ++ us := by
  rcases w with ⟨scopes, globals, output⟩
  cases scopes with
  | nil => exact ⟨[], rfl, rfl⟩
  | cons s scopes =>
      refine ⟨(s.map Prod.snd).reverse, ?_, ?_⟩
      · simp [innermost, names]
      · simp [values, locals, leave]

end World

/-! ## Following a phrase -/

/-- The machine comes to where a result belongs, or goes on for so many instructions if there is
no result. -/
def Follows (n : Nat) (m : Machine) (r : Result) (post : Signal -> World -> Machine -> Prop) :
    Prop :=
  match r with
  | some (signal, w) => exists m', m.Goes 0 m' ∧ post signal w m'
  | none => exists m', m.Goes n m'

/-- Where the machine is behind a phrase.  Outside of a loop there is no way out of it. -/
def Site.Lands (S : Site) (outer : Option (Nat × Nat)) (exits : Exits) (loop : Option Nat)
    (stop : Nat) : Signal -> World -> Machine -> Prop
  | .normal, w, m => m = S.state stop w.values w
  | .leave, w, m => exists d, loop = some d ∧ m = S.state exits.leave (w.trim d).values w
  | .again, w, m => exists d, loop = some d ∧ m = S.state exits.again (w.trim d).values w
  | .throw v, w, m => S.Raises outer v w m

section Rules

variable {S : Site} {outer : Option (Nat × Nat)} {exits : Exits} {loop : Option Nat}
variable {n n' ip stop : Nat} {m m' : Machine} {r : Result} {w : World}
variable {post : Signal -> World -> Machine -> Prop}

namespace Follows

theorem goes (h : m.Goes n' m') (h' : Follows n m' r post) : Follows (n' + n) m r post := by
  cases r with
  | none =>
      rcases h' with ⟨m'', hgoes⟩
      exact ⟨m'', h.trans hgoes⟩
  | some result =>
      rcases h' with ⟨m'', hgoes, hpost⟩
      exact ⟨m'', (h.trans hgoes).lower (Nat.zero_le _), hpost⟩

theorem lower (h : Follows n m r post) (hn : n' <= n) : Follows n' m r post := by
  cases r with
  | none =>
      rcases h with ⟨m', hgoes⟩
      exact ⟨m', hgoes.lower hn⟩
  | some result => exact h

theorem goes_on (h : m.Goes n' m') (h' : Follows n m' r post) : Follows n m r post :=
  (goes h h').lower (Nat.le_add_left n n')

theorem normal (h : m.Goes n' (S.state stop w.values w)) :
    Follows n m (some (.normal, w)) (S.Lands outer exits loop stop) :=
  ⟨_, h.lower (Nat.zero_le n'), rfl⟩

/-- Goes on behind a value; what is thrown lands by itself. -/
theorem orThrow {α : Type} {x : Except Value α} {f : α -> Result} {state : α -> Machine}
    (h : S.Gives outer w n' m x state)
    (h' : forall a, x = .ok a -> Follows n (state a) (f a) (S.Lands outer exits loop stop)) :
    Follows (n' + n) m (orThrow x w f) (S.Lands outer exits loop stop) := by
  cases x with
  | ok a => exact goes h (h' a rfl)
  | error v => exact h

end Follows

/-! ## Dropping locals -/

theorem goes_pops {k line : Nat} {vs us : List Value}
    (hcode : CodeAt S.function ip (pops k line)) (hus : us.length = k) :
    (S.state ip (vs ++ us) w).Goes 0 (S.state (ip + k) vs w) := by
  induction k generalizing ip us with
  | zero =>
      rw [List.length_eq_zero_iff.mp hus, List.append_nil]
      exact .refl _
  | succ k ih =>
      rcases List.eq_nil_or_concat us with rfl | ⟨us', u, rfl⟩
      · cases hus
      · have hlines : CodeAt S.function ip ((.pop, line) :: pops k line) := hcode
        rcases hlines with ⟨hpop, hpops⟩
        have hrest : (S.state (ip + 1) (vs ++ us') w).Goes 0 _ := ih hpops (by simpa using hus)
        rw [List.concat_eq_append, ← List.append_assoc]
        rw [Nat.add_right_comm] at hrest
        exact ((Site.goes_of_ok hpop Site.step_pop).trans hrest).lower (Nat.zero_le _)

theorem Site.Raises.leave {v : Value} (h : S.Raises outer v w m) : S.Raises outer v w.leave m := by
  rcases h with ⟨j, us, raised, hus, hhandler, htick, hraised, hv⟩
  rcases w.values_leave with ⟨ts, -, hts⟩
  refine ⟨j, us, raised, ?_, hhandler, htick, hraised, hv⟩
  rw [hts] at hus
  exact (List.prefix_append _ _).trans hus

/-- The end of a block drops its locals, whatever its end was. -/
theorem Follows.inScope {run : World -> Result} {locals line : Nat}
    (h : Follows n m (run w) (S.Lands outer exits loop ip))
    (hcode : CodeAt S.function ip (pops locals line))
    (hlocals : forall w', run w = some (.normal, w') -> innermost w'.names = locals)
    (hloop : forall signal w', run w = some (signal, w') ->
      forall d, loop = some d -> d < w'.names.length) :
    Follows n m (inScope run w) (S.Lands outer exits loop (ip + locals)) := by
  rw [StackScript.inScope]
  cases hr : run w with
  | none =>
      rw [hr] at h
      exact h
  | some result =>
      rcases result with ⟨signal, w'⟩
      rw [hr] at h
      rcases h with ⟨m', hgoes, hlands⟩
      cases signal with
      | normal =>
          rcases w'.values_leave with ⟨us, hus, hvalues⟩
          rw [Site.Lands, hvalues] at hlands
          subst hlands
          have hpops : (S.state ip (w'.leave.values ++ us) w').Goes 0 _ :=
            goes_pops hcode (hus.trans (hlocals w' hr))
          exact Follows.normal (hgoes.trans hpops)
      | leave =>
          rcases hlands with ⟨d, hd, rfl⟩
          exact ⟨_, hgoes, d, hd, by rw [World.trim_leave (hloop _ w' hr d hd)]; rfl⟩
      | again =>
          rcases hlands with ⟨d, hd, rfl⟩
          exact ⟨_, hgoes, d, hd, by rw [World.trim_leave (hloop _ w' hr d hd)]; rfl⟩
      | throw v => exact ⟨_, hgoes, hlands.leave⟩

end Rules

/-! ## Loops -/

/-- The code of a loop: a test at its head, a body behind the test, and a step from where the next
round starts back to the head. -/
structure Site.Turns (S : Site) (outer : Option (Nat × Nat)) (n : Nat) (names : Names)
    (test : World -> Except Value Bool) (body : World -> Result)
    (step : World -> Except Value World) (exits : Exits) (head start last : Nat) : Prop where
  gives_test : forall w, w.names = names -> S.Gives outer w 1 (S.state head w.values w) (test w)
    fun holds => S.state (if holds then start else exits.leave) w.values w
  follows_body : forall w, w.names = names -> Follows n (S.state start w.values w) (body w)
    (S.Lands outer exits (some names.length) last)
  back : forall vs w, (S.state last vs w).Goes 0 (S.state exits.again vs w)
  gives_step : forall w, w.names = names -> S.Gives outer w 0 (S.state exits.again w.values w)
    (step w) fun w' => S.state head w'.values w'
  names_body : forall w signal w', body w = some (signal, w') -> w'.names = w.names
  names_step : forall w w', step w = .ok w' -> w'.names = w.names

/-- A loop is followed round by round.  Each round takes an instruction, so a loop that has not
ended after some rounds has taken as many. -/
theorem Site.Turns.follows {S : Site} {outer : Option (Nat × Nat)} {n : Nat} {names : Names}
    {test : World -> Except Value Bool} {body : World -> Result}
    {step : World -> Except Value World} {inner exits : Exits} {loop : Option Nat}
    {head start last : Nat} (h : S.Turns outer n names test body step inner head start last)
    {rest : Nat} (hrest : rest <= n) {w : World} (hw : w.names = names) :
    Follows rest (S.state head w.values w) (rounds test body step rest w)
      (S.Lands outer exits loop inner.leave) := by
  induction rest generalizing w with
  | zero => exact ⟨_, .refl _⟩
  | succ rest ih =>
      have htest := h.gives_test w hw
      refine (Follows.orThrow (n := rest) htest fun holds hholds => ?_).lower
        (Nat.le_of_eq (Nat.add_comm rest 1))
      cases holds with
      | false => exact Follows.normal (.refl _)
      | true =>
          have hbody := h.follows_body w hw
          simp only [if_true]
          cases hr : body w with
          | none =>
              rw [hr] at hbody
              exact hbody.lower (Nat.le_of_succ_le hrest)
          | some result =>
              rcases result with ⟨signal, w'⟩
              have hw' : w'.names = names := (h.names_body w signal w' hr).trans hw
              have htrim : w'.trim names.length = w' := by rw [← hw', World.trim_length]
              -- What happens once the next round is due.
              have hnext (hgoes : (S.state start w.values w).Goes 0
                  (S.state inner.again w'.values w')) :
                  Follows rest (S.state start w.values w)
                    (StackScript.orThrow (step w') w' (rounds test body step rest))
                    (S.Lands outer exits loop inner.leave) := by
                apply Follows.goes_on hgoes
                refine (Follows.orThrow (h.gives_step w' hw') fun w2 hw2 => ?_).lower
                  (Nat.le_add_left rest 0)
                exact ih (Nat.le_of_succ_le hrest) ((h.names_step w' w2 hw2).trans hw')
              rw [hr] at hbody
              rcases hbody with ⟨m', hgoes, hlands⟩
              cases signal with
              | normal =>
                  cases hlands
                  exact hnext (hgoes.trans (h.back w'.values w'))
              | again =>
                  rcases hlands with ⟨d, hd, rfl⟩
                  cases hd
                  rw [htrim] at hgoes
                  exact hnext hgoes
              | leave =>
                  rcases hlands with ⟨d, hd, rfl⟩
                  cases hd
                  rw [htrim] at hgoes
                  exact Follows.normal hgoes
              | throw v => exact ⟨m', hgoes, hlands⟩

/-! ## Phrases -/

/-- The ways out of the loop of a given depth lead out of a piece of code inside of blocks. -/
def Exits.Around (x : Exits) (loop : Option Nat) (names : Names) (ip stop : Nat) : Prop :=
  forall d, loop = some d ->
    d < names.length ∧ x.ahead = false ∧ x.again <= ip ∧ stop <= x.leave

theorem Exits.Around.narrow {x : Exits} {loop : Option Nat} {names names' : Names}
    {ip stop ip' stop' : Nat} (h : x.Around loop names ip stop)
    (hnames : names.length <= names'.length) (hip : ip <= ip') (hstop : stop' <= stop) :
    x.Around loop names' ip' stop' := by
  intro d hd
  rcases h d hd with ⟨hdepth, hahead, hagain, hleave⟩
  exact ⟨by lia, hahead, by lia, by lia⟩

/-- The code of the phrase does what the phrase means, wherever it stands. -/
def Phrase.Followed (S : Site) (k : Variable.Index) (n : Nat) {p : Part} (c : Phrase p) : Prop :=
  forall {loop : Option Nat} {tree : Stmt} {outer : Option (Nat × Nat)} {exits : Exits} {ip : Nat}
    {w : World}, c.Matches w.names loop tree -> S.Laid k outer exits ip tree ->
      exits.Around loop w.names ip (ip + tree.size) ->
      Follows n (S.state ip w.values w) (c.exec S.heap n w)
        (S.Lands outer exits loop (ip + tree.size))

section Phrases

variable {S : Site} {k : Variable.Index} {n : Nat} {outer : Option (Nat × Nat)} {exits : Exits}
variable {loop : Option Nat} {ip stop : Nat} {w : World}

/-- An expression with one instruction behind it. -/
theorem Site.Laid.simple {s : Stmt} {e : Expr} {i : Instr} {line : Nat}
    (h : S.Laid k outer exits ip s) (hcode : s.code k exits ip = e.code k ++ [(i, line)])
    (hconstants : Indexed S.function k e.constants) (hranges : s.ranges ip = [])
    (hsize : s.size = e.size + 1) :
    S.Lies k outer ip e ∧ S.function.code.instrs[ip + e.size]? = some i ∧
      S.handler? (ip + e.size) = outer := by
  have hunder := h.under hranges
  have hlines := h.code
  rw [hsize] at hunder
  simp only [hcode, along_append, along_cons, Expr.length_code] at hlines
  exact ⟨⟨hlines.1, hconstants, hunder.narrow (by lia) (by lia)⟩, hlines.2.1,
    hunder _ (by lia) (by lia)⟩

/-- Goes on from where the machine has landed. -/
theorem Follows.move {m : Machine} {r : Result} {stop' : Nat}
    (h : Follows n m r (S.Lands outer exits loop stop))
    (hgoes : forall vs w, (S.state stop vs w).Goes 0 (S.state stop' vs w)) :
    Follows n m r (S.Lands outer exits loop stop') := by
  cases r with
  | none => exact h
  | some result =>
      rcases result with ⟨signal, w'⟩
      rcases h with ⟨m', hm', hlands⟩
      cases signal with
      | normal =>
          cases hlands
          exact ⟨_, hm'.trans (hgoes w'.values w'), rfl⟩
      | leave => exact ⟨m', hm', hlands⟩
      | again => exact ⟨m', hm', hlands⟩
      | throw v => exact ⟨m', hm', hlands⟩

/-- A block in braces. -/
theorem Phrase.Followed.block {c : Phrase .block} {b : Stmt} (h : c.Followed S k n)
    (hb : Closed (c.Matches ([] :: w.names) loop) (innermost (c.after ([] :: w.names))) b)
    (hlaid : S.Laid k outer exits ip b)
    (haround : exits.Around loop ([] :: w.names) ip (ip + b.size)) :
    Follows n (S.state ip w.values w) (inBlock (c.exec S.heap n) w)
      (S.Lands outer exits loop (ip + b.size)) := by
  rcases hb with ⟨b', line, rfl, hmatch⟩
  have hbody := h (w := w.enter) hmatch hlaid.seq.1
    (haround.narrow (Nat.le_refl _) (Nat.le_refl _) (by simp only [Stmt.size]; lia))
  rw [Stmt.size, ← Nat.add_assoc]
  apply Follows.inScope hbody hlaid.seq.2.code
  · intro w' hw'
    rw [(exec_names hw').2 rfl]
    rfl
  · intro signal w' hw' d hd
    rw [(exec_names hw').1.2]
    exact (haround d hd).1

/-- A local keeps its value on the stack. -/
theorem Phrase.follows_declare {x : Name} {t : Plain} {tree : Stmt}
    (hmatch : (Phrase.declare x t).Matches w.names loop tree)
    (hlaid : S.Laid k outer exits ip tree) :
    Follows n (S.state ip w.values w) ((Phrase.declare x t).exec S.heap n w)
      (S.Lands outer exits loop (ip + tree.size)) := by
  rcases w with ⟨scopes, globals, output⟩
  cases scopes with
  | nil =>
      rcases hmatch with ⟨e, line, rfl, ht⟩
      have hconstants := hlaid.constants
      rw [Stmt.constants, indexed_cons] at hconstants
      rcases hlaid.simple rfl hconstants.2 rfl rfl with ⟨hlies, hdefine, -⟩
      have hgives := Term.gives (w := ⟨[], globals, output⟩) t.callFree ht hlies
        (List.prefix_refl _) rfl
      refine (Follows.orThrow (n := n) hgives fun v _ => ?_).lower (Nat.le_add_left n 1)
      exact Follows.normal (Site.goes_of_ok hdefine (Site.step_defineGlobal hconstants.1))
  | cons s scopes =>
      rcases hmatch with ⟨e, rfl, ht⟩
      have hlies : S.Lies k outer ip e := ⟨hlaid.code, hlaid.constants, hlaid.under rfl⟩
      have hgives := Term.gives t.callFree ht hlies (List.prefix_refl _) rfl
      refine (Follows.orThrow (n := n) hgives fun v _ => ?_).lower (Nat.le_add_left n 1)
      have hvalues : ((⟨s :: scopes, globals, output⟩ : World).bind x v).values =
          (⟨s :: scopes, globals, output⟩ : World).values ++ [v] := by
        simp [World.values, World.locals, World.bind]
      rw [← hvalues]
      exact Follows.normal (.refl _)

theorem Phrase.follows_cond {c : Plain} {body : Phrase .block} {other : Phrase .branch}
    {tree : Stmt} (hbody : body.Followed S k n) (hother : other.Followed S k n)
    (hmatch : (Phrase.cond c body other).Matches w.names loop tree)
    (hlaid : S.Laid k outer exits ip tree)
    (haround : exits.Around loop w.names ip (ip + tree.size)) :
    Follows n (S.state ip w.values w) ((Phrase.cond c body other).exec S.heap n w)
      (S.Lands outer exits loop (ip + tree.size)) := by
  rcases hmatch with ⟨e, line, b, bodyLine, o, rfl, hc, hb, ho⟩
  have hparts := hlaid.cond
  have hsize : (Stmt.cond e line b bodyLine o).size = e.size + b.size + o.size + 4 := rfl
  rw [hsize] at haround ⊢
  have htest := Plain.gives_test hc hparts.test hparts.jump hparts.pop hparts.otherPop (by lia)
  refine (Follows.orThrow (n := n) htest fun holds _ => ?_).lower (Nat.le_add_left n 1)
  cases holds with
  | true =>
      have hblock := hbody.block (w := w) hb hparts.body
        (haround.narrow (Nat.le_succ _) (by lia) (by lia))
      apply hblock.move
      intro vs w'
      rw [Nat.add_right_comm _ 2]
      exact Site.goes_jump hparts.skip (by lia)
  | false =>
      have hbranch := hother ho hparts.other (haround.narrow (Nat.le_refl _) (by lia) (by lia))
      rw [show ip + e.size + b.size + 4 + o.size = ip + (e.size + b.size + o.size + 4) by lia]
        at hbranch
      exact hbranch

/-! ### Loops -/

theorem Phrase.turns_while {c : Plain} {body : Phrase .block} {names : Names} {e : Expr} {b : Stmt}
    (hbody : body.Followed S k n) (hparts : Site.Laid.While S k outer ip e b)
    (hc : c.term.Matches (Scope.lookIn names) e)
    (hb : Closed (body.Matches ([] :: names) (some names.length))
      (innermost (body.after ([] :: names))) b) :
    S.Turns outer n names (c.test S.heap) (inBlock (body.exec S.heap n)) .ok
      ⟨ip + e.size + b.size + 4, ip, false⟩ ip (ip + e.size + 2) (ip + e.size + 2 + b.size) where
  gives_test := by
    intro w hw
    subst hw
    exact Plain.gives_test hc hparts.test hparts.jump hparts.pop hparts.stopPop (by lia)
  follows_body := by
    intro w hw
    subst hw
    apply hbody.block hb hparts.body
    intro d hd
    cases hd
    exact ⟨Nat.lt_succ_self _, rfl, by simp only; lia, by simp only; lia⟩
  back := by
    intro vs w
    rw [Nat.add_right_comm _ 2]
    exact Site.goes_loop hparts.back (by lia)
  gives_step := fun w _ => Machine.Goes.refl _
  names_body := fun w signal w' hw' => names_inBlock (fun h => (exec_names h).1) hw'
  names_step := by
    intro w w' hw'
    cases hw'
    rfl

theorem Phrase.turns_stepping {c : Plain} {body : Phrase .block} {a : Action} {names : Names}
    {e d : Expr} {b : Stmt} (hbody : body.Followed S k n)
    (hparts : Site.Laid.Stepping S k outer ip e d b)
    (hc : c.term.Matches (Scope.lookIn names) e) (ha : a.Matches (Scope.lookIn names) d)
    (hb : Closed (body.Matches ([] :: names) (some names.length))
      (innermost (body.after ([] :: names))) b) :
    S.Turns outer n names (c.test S.heap) (inBlock (body.exec S.heap n)) (a.run S.heap)
      ⟨ip + e.size + d.size + b.size + 7, ip + e.size + 3, false⟩ ip (ip + e.size + d.size + 5)
      (ip + e.size + d.size + 5 + b.size) where
  gives_test := by
    intro w hw
    subst hw
    have htest := Plain.gives_test hc hparts.test hparts.jump hparts.pop hparts.stopPop (by lia)
    apply htest.move
    intro holds _
    cases holds with
    | true => exact Site.goes_jump hparts.jumpOver (by lia)
    | false => exact .refl _
  follows_body := by
    intro w hw
    subst hw
    apply hbody.block hb hparts.body
    intro d hd
    cases hd
    exact ⟨Nat.lt_succ_self _, rfl, by simp only; lia, by simp only; lia⟩
  back := by
    intro vs w
    rw [Nat.add_right_comm _ 5]
    exact Site.goes_loop hparts.back (by lia)
  gives_step := by
    intro w hw
    subst hw
    have hstep := (Action.gives ha hparts.step hparts.stepPop).lower (Nat.zero_le 1)
    exact hstep.move fun w' _ => Site.goes_loop hparts.again (by lia)
  names_body := fun w signal w' hw' => names_inBlock (fun h => (exec_names h).1) hw'
  names_step := fun w w' hw' => Action.names_run hw'

theorem Phrase.follows_forLoop {x : Name} {start c : Plain} {step : Action} {body : Phrase .block}
    {tree : Stmt} (hbody : body.Followed S k n)
    (hmatch : (Phrase.forLoop x start c step body).Matches w.names loop tree)
    (hlaid : S.Laid k outer exits ip tree)
    (haround : exits.Around loop w.names ip (ip + tree.size)) :
    Follows n (S.state ip w.values w) ((Phrase.forLoop x start c step body).exec S.heap n w)
      (S.Lands outer exits loop (ip + tree.size)) := by
  rcases hmatch with ⟨a, e, line, jumpLine, d, stepLine, b, bodyLine, dropLine, rfl, ha, he, hd, hb⟩
  have hbind := hlaid.seq.1.seq.1
  have hlies : S.Lies k outer ip a := ⟨hbind.code, hbind.constants, hbind.under rfl⟩
  have hturns := turns_stepping hbody hlaid.seq.1.seq.2.stepping he hd hb
  have hgives := Term.gives start.callFree ha hlies (List.prefix_refl _) rfl
  refine (Follows.orThrow (n := n) hgives fun v _ => ?_).lower (Nat.le_add_left n 1)
  have hnames {signal : Signal} {w' : World} (hw' : rounds (c.test S.heap)
      (inBlock (body.exec S.heap n)) (step.run S.heap) n (w.enter.bind x v) = some (signal, w')) :
      w'.names = [x] :: w.names :=
    names_rounds (names_inBlock fun h => (exec_names h).1) Action.names_run hw'
  have hrounds : Follows n _ _ (S.Lands outer exits loop _) :=
    hturns.follows (Nat.le_refl n) (w := w.enter.bind x v) rfl
  rw [World.values_enter_bind] at hrounds
  have hcode := hlaid.seq.2.code
  have hlast : ip + (Stmt.seq (.bind a) (.stepping e line jumpLine d stepLine b bodyLine)).size =
      ip + (Stmt.bind a).size + e.size + d.size + b.size + 7 := by
    simp only [Stmt.size]
    lia
  rw [hlast] at hcode
  rw [Stmt.size, ← Nat.add_assoc, hlast]
  apply Follows.inScope hrounds hcode
  · intro w' hw'
    rw [hnames hw']
    rfl
  · intro signal w' hw' depth hdepth
    rw [hnames hw']
    exact Nat.lt_succ_of_lt (haround depth hdepth).1

/-! ### Handlers -/

theorem Site.Raises.caught {v : Value} {m : Machine} {stop : Nat}
    (h : S.Raises (some (stop, w.values.length + 1)) v w m) :
    m.Goes 0 (S.state stop (w.values ++ [v]) w) := by
  rcases h with ⟨j, us, raised, hus, hhandler, htick, -, -⟩
  rw [unwind_caught hhandler hus] at htick
  exact (Machine.Goes.tick htick).lower (Nat.zero_le 1)

/-- A block in braces inside of a block that ends with it. -/
theorem Phrase.Followed.bound {c : Phrase .block} {b : Stmt} {line : Nat} (h : c.Followed S k n)
    (hb : Closed (c.Matches ([] :: w.names) loop) (innermost (c.after ([] :: w.names))) b)
    (hlaid : S.Laid k outer exits ip (.seq b (.drop (innermost w.names) line)))
    (haround : exits.Around loop w.names ip
      (ip + (Stmt.seq b (.drop (innermost w.names) line)).size)) :
    Follows n (S.state ip w.values w) (inScope (inBlock (c.exec S.heap n)) w)
      (S.Lands outer exits loop (ip + (Stmt.seq b (.drop (innermost w.names) line)).size)) := by
  have hnames {signal : Signal} {w' : World}
      (hw' : inBlock (c.exec S.heap n) w = some (signal, w')) : w'.names = w.names :=
    names_inBlock (fun h => (exec_names h).1) hw'
  have hblock := h.block hb hlaid.seq.1
    (haround.narrow (Nat.le_succ _) (Nat.le_refl _) (by simp only [Stmt.size]; lia))
  rw [Stmt.size, ← Nat.add_assoc]
  apply Follows.inScope hblock hlaid.seq.2.code
  · intro w' hw'
    rw [hnames hw']
  · intro signal w' hw' d hd
    rw [hnames hw']
    exact (haround d hd).1

/-- The handler of a `try` starts with the thrown value above the locals.  Without a name for it
the value is dropped. -/
theorem Phrase.follows_handler {body handler : Phrase .block} {binder : Option Name} {v : Value}
    {depth bodyLine : Nat} {b c : Stmt} (hhandler : handler.Followed S k n)
    (hmatch : (Phrase.guarded body binder handler).Matches w.names loop (.try depth b bodyLine c))
    (hlaid : S.Laid k outer exits ip c) (haround : exits.Around loop w.names ip (ip + c.size)) :
    Follows n (S.state ip (w.values ++ [v]) w)
      (inScope (inBlock (handler.exec S.heap n)) (w.caught binder v))
      (S.Lands outer exits loop (ip + c.size)) := by
  cases binder with
  | some x =>
      rcases hmatch with ⟨b', bodyLine', c', line, htree, -, hc⟩
      cases htree
      have hbound := hhandler.bound (w := w.enter.bind x v) hc hlaid
        (haround.narrow (Nat.le_succ _) (Nat.le_refl _) (Nat.le_refl _))
      rw [World.values_enter_bind] at hbound
      exact hbound
  | none =>
      rcases hmatch with ⟨b', bodyLine', dropLine, c', line, htree, -, hc⟩
      cases htree
      have hpop := hlaid.seq.1.code.1
      have hbound := hhandler.bound (w := w.enter) hc hlaid.seq.2
        (haround.narrow (Nat.le_succ _) (Nat.le_add_right _ _)
          (by simp only [Stmt.size, World.names_enter, innermost, List.length_nil]; lia))
      rw [Stmt.size, ← Nat.add_assoc]
      exact Follows.goes_on (Site.goes_of_ok hpop Site.step_pop) hbound

theorem Phrase.follows_guarded {body handler : Phrase .block} {binder : Option Name} {tree : Stmt}
    (hbody : body.Followed S k n) (hhandler : handler.Followed S k n)
    (hmatch : (Phrase.guarded body binder handler).Matches w.names loop tree)
    (hlaid : S.Laid k outer exits ip tree)
    (haround : exits.Around loop w.names ip (ip + tree.size)) :
    Follows n (S.state ip w.values w) ((Phrase.guarded body binder handler).exec S.heap n w)
      (S.Lands outer exits loop (ip + tree.size)) := by
  have htree : exists b bodyLine c, tree = .try (w.names.flatten.length + 1) b bodyLine c ∧
      Closed (body.Matches ([] :: w.names) loop) (innermost (body.after ([] :: w.names))) b := by
    cases binder with
    | some x =>
        rcases hmatch with ⟨b, bodyLine, c, line, htree, hb, -⟩
        exact ⟨b, bodyLine, _, htree, hb⟩
    | none =>
        rcases hmatch with ⟨b, bodyLine, dropLine, c, line, htree, hb, -⟩
        exact ⟨b, bodyLine, _, htree, hb⟩
  rcases htree with ⟨b, bodyLine, c, rfl, hb⟩
  have hparts := hlaid.guarded
  have hsize : (Stmt.try (w.names.flatten.length + 1) b bodyLine c).size =
      b.size + c.size + 1 := rfl
  rw [hsize] at haround ⊢
  have hblock := hbody.block hb hparts.body (haround.narrow (Nat.le_succ _) (by lia) (by lia))
  rw [exec]
  cases hr : inBlock (body.exec S.heap n) w with
  | none =>
      rw [hr] at hblock
      exact hblock
  | some result =>
      rcases result with ⟨signal, w'⟩
      have hnames : w'.names = w.names := names_inBlock (fun h => (exec_names h).1) hr
      rw [hr] at hblock
      rcases hblock with ⟨m', hgoes, hlands⟩
      cases signal with
      | normal =>
          cases hlands
          exact Follows.normal (hgoes.trans (Site.goes_jump hparts.skip (by lia)))
      | leave => exact ⟨m', hgoes, hlands⟩
      | again => exact ⟨m', hgoes, hlands⟩
      | throw v =>
          rw [← hnames, ← World.length_values] at hlands
          rw [← hnames] at hmatch
          have hcaught := Phrase.follows_handler (v := v) hhandler hmatch hparts.handler
            (haround.narrow (by rw [hnames]) (by lia) (by lia))
          rw [show ip + b.size + 1 + c.size = ip + (b.size + c.size + 1) by lia] at hcaught
          exact Follows.goes_on (hgoes.trans hlands.caught) hcaught

theorem Phrase.follows_next {first : Phrase .statement} {rest : Phrase .block} {tree : Stmt}
    (h : first.Followed S k n) (ht : rest.Followed S k n)
    (hmatch : (Phrase.next first rest).Matches w.names loop tree)
    (hlaid : S.Laid k outer exits ip tree)
    (haround : exits.Around loop w.names ip (ip + tree.size)) :
    Follows n (S.state ip w.values w) ((Phrase.next first rest).exec S.heap n w)
      (S.Lands outer exits loop (ip + tree.size)) := by
  rcases hmatch with ⟨a, b, rfl, ha, hb⟩
  have hsize : (Stmt.seq a b).size = a.size + b.size := rfl
  rw [hsize] at haround ⊢
  have hstart := h ha hlaid.seq.1 (haround.narrow (Nat.le_refl _) (by lia) (by lia))
  rw [exec]
  cases hr : first.exec S.heap n w with
  | none =>
      rw [hr] at hstart
      exact hstart
  | some result =>
      rcases result with ⟨signal, w'⟩
      rw [hr] at hstart
      rcases hstart with ⟨m', hgoes, hlands⟩
      cases signal with
      | normal =>
          cases hlands
          rcases exec_names hr with ⟨hsame, hnames⟩
          rw [← hnames rfl] at hb
          have hrest := ht hb hlaid.seq.2
            (haround.narrow (Nat.le_of_eq hsame.2.symm) (by lia) (by lia))
          rw [Nat.add_assoc] at hrest
          exact Follows.goes_on hgoes hrest
      | leave => exact ⟨m', hgoes, hlands⟩
      | again => exact ⟨m', hgoes, hlands⟩
      | throw v => exact ⟨m', hgoes, hlands⟩

/-! ### All phrases -/

/-- Wherever the code of a phrase stands, it does what the phrase means. -/
theorem Phrase.followed {p : Part} (c : Phrase p) : c.Followed S k n := by
  induction c with
  | declare x t =>
      intro loop tree outer exits ip w hmatch hlaid haround
      exact follows_declare hmatch hlaid
  | perform a =>
      intro loop tree outer exits ip w hmatch hlaid haround
      rcases hmatch with ⟨e, line, rfl, ha⟩
      rcases hlaid.simple rfl hlaid.constants rfl rfl with ⟨hlies, hpop, -⟩
      have hgives := Action.gives ha hlies hpop
      refine (Follows.orThrow (n := n) hgives fun w' _ => ?_).lower (Nat.le_add_left n 1)
      exact Follows.normal (.refl _)
  | echo t =>
      intro loop tree outer exits ip w hmatch hlaid haround
      rcases hmatch with ⟨e, line, rfl, ht⟩
      rcases hlaid.simple rfl hlaid.constants rfl rfl with ⟨hlies, hecho, -⟩
      have hgives := Term.gives t.callFree ht hlies (List.prefix_refl _) rfl
      refine (Follows.orThrow (n := n) hgives fun v _ => ?_).lower (Nat.le_add_left n 1)
      exact Follows.normal (Site.goes_of_ok hecho Site.step_echo)
  | throw t =>
      intro loop tree outer exits ip w hmatch hlaid haround
      rcases hmatch with ⟨e, line, rfl, ht⟩
      rcases hlaid.simple rfl hlaid.constants rfl rfl with ⟨hlies, hthrow, hhandler⟩
      have hgives := Term.gives t.callFree ht hlies (List.prefix_refl _) rfl
      refine (Follows.orThrow (n := n) hgives fun v _ => ?_).lower (Nat.le_add_left n 1)
      exact ⟨_, .refl _, Site.raises_of_step hthrow hhandler (List.prefix_refl _) Site.step_throw⟩
  | cond c body other ihbody ihother =>
      intro loop tree outer exits ip w hmatch hlaid haround
      exact follows_cond ihbody ihother hmatch hlaid haround
  | whileLoop c body ih =>
      intro loop tree outer exits ip w hmatch hlaid haround
      rcases hmatch with ⟨e, line, b, bodyLine, rfl, hc, hb⟩
      have hturns := turns_while ih hlaid.whileLoop hc hb
      have hsize : ip + (Stmt.while e line b bodyLine).size = ip + e.size + b.size + 4 := by
        rw [Stmt.size]
        lia
      rw [hsize]
      exact hturns.follows (Nat.le_refl n) rfl
  | forLoop x start c step body ih =>
      intro loop tree outer exits ip w hmatch hlaid haround
      exact follows_forLoop ih hmatch hlaid haround
  | leave =>
      intro loop tree outer exits ip w hmatch hlaid haround
      rcases hmatch with ⟨d, line, rfl, rfl⟩
      rcases haround d rfl with ⟨-, -, -, hleave⟩
      rcases w.values_trim d with ⟨us, hus, hvalues⟩
      have hcode := hlaid.code
      simp only [Stmt.code, Stmt.size, along_append, along_cons, length_pops] at hcode hleave
      rw [hvalues]
      exact ⟨_, (goes_pops hcode.1 hus).trans (Site.goes_jump hcode.2.1 (by lia)), d, rfl, rfl⟩
  | again =>
      intro loop tree outer exits ip w hmatch hlaid haround
      rcases hmatch with ⟨d, line, rfl, rfl⟩
      rcases haround d rfl with ⟨-, hahead, hagain, -⟩
      rcases w.values_trim d with ⟨us, hus, hvalues⟩
      have hcode := hlaid.code
      simp only [Stmt.code, along_append, along_cons, length_pops, Exits.againFrom, hahead,
        if_neg Bool.false_ne_true] at hcode
      rw [hvalues]
      exact ⟨_, (goes_pops hcode.1 hus).trans (Site.goes_loop hcode.2.1 (by lia)), d, rfl, rfl⟩
  | guarded body binder handler ihbody ihhandler =>
      intro loop tree outer exits ip w hmatch hlaid haround
      exact follows_guarded ihbody ihhandler hmatch hlaid haround
  | done | nothing =>
      intro loop tree outer exits ip w hmatch hlaid haround
      cases hmatch
      exact Follows.normal (.refl _)
  | next first rest ihfirst ihrest =>
      intro loop tree outer exits ip w hmatch hlaid haround
      exact follows_next ihfirst ihrest hmatch hlaid haround
  | otherwise body ih =>
      intro loop tree outer exits ip w hmatch hlaid haround
      exact ih.block hmatch hlaid (haround.narrow (Nat.le_succ _) (Nat.le_refl _) (Nat.le_refl _))
  | elif c body other ihbody ihother =>
      intro loop tree outer exits ip w hmatch hlaid haround
      have hcond : (Phrase.cond c body other).Matches w.names loop tree := hmatch
      exact follows_cond ihbody ihother hcond hlaid haround

end Phrases

end StackScript
