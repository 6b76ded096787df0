import StackScript.Proofs.Reading.Budget
import StackScript.Proofs.Text.Lines

/-!
# What a diagnosis points at

The message about a script that is rejected names a row and a column and shows that row of the
source with a caret under the column.  Rows and columns come from the scan, which counts newlines
and characters; the row that is shown is cut out of the source by its lines, which may end in other
ways.  They agree: the caret is under the first character of a token that the reader has seen, or
just past the text at its end.
-/

namespace StackScript

/-! ## Where reading stops -/

/-- Reading stops with a fault once it has drawn these tokens.  It does so whatever comes behind
them, and it needs them all: a script whose scan fails before the last of them is refused for that
failure. -/
structure StopsAt (base : Nat) (drawn : List Spanned) (f : SyntaxFault) (p : Position) : Prop where
  decided : forall source more, (tokenize source).1 = drawn ++ more ->
    parse base source = .error (.fault f p)
  asked : forall source fewer e, tokenize source = (fewer, some e) -> fewer <+: drawn ->
    fewer ≠ drawn -> parse base source = .error (.lex e)

namespace Spot

/-- The tokens that are drawn on the way to a place.  They have been seen there.  From another place
the same uses lead through them whatever comes behind, but not where one of them is missing. -/
structure Draws (p : Spot) (uses : List Use) (p' : Spot) (drawn : List Spanned) : Prop where
  rest : p.rest = drawn ++ p'.rest
  current : p'.current ∈ p.current :: drawn
  previous : uses ≠ [] -> p'.previous ∈ p.current :: drawn
  decided : forall (q : Spot) more, p.Same q -> q.rest = drawn ++ more ->
    exists q', p.Meets Same uses q (.ok q')
  asked : forall (q : Spot) e, p.Same q -> q.rest <+: drawn -> q.rest ≠ drawn ->
    q.failure = some e -> p.Meets Same uses q (.error (.lex e))

/-- A token in front of which more is to come. -/
theorem next_of_scanned {p p1 : Spot} (h : Scanned p.tokens p.failure)
    (hend : p.current.token ≠ .endOfFile) (hnext : p.next = .ok p1) :
    exists t rest, p.rest = t :: rest ∧ p1 = ⟨p.current, t, rest, p.failure⟩ := by
  rcases p with ⟨previous, current, rest, failure⟩
  rw [tokens, Scanned, if_neg hend] at h
  cases rest with
  | cons t rest =>
      cases hnext
      exact ⟨t, rest, rfl, rfl⟩
  | nil =>
      cases failure with
      | some e => cases hnext
      | none => exact absurd rfl h

theorem Same.next {p q : Spot} {t : Spanned} {rest : List Spanned} (h : p.Same q)
    (hend : p.current.token ≠ .endOfFile) (hrest : q.rest = t :: rest) (ts : List Spanned)
    (failure : Option LexError) :
    q.next = .ok ⟨q.current, t, rest, q.failure⟩ ∧
      Same ⟨p.current, t, ts, failure⟩ ⟨q.current, t, rest, q.failure⟩ := by
  have hscanned := h.scanned
  rw [tokens, Scanned, h.current, if_neg hend, hrest] at hscanned
  refine ⟨?_, h.current, rfl, hscanned⟩
  rcases q with ⟨previous, current, _, failure'⟩
  subst hrest
  rfl

theorem Goes.draws {p p' : Spot} {uses : List Use} (h : p.Goes uses p')
    (hp : Scanned p.tokens p.failure) : exists drawn, p.Draws uses p' drawn := by
  induction h with
  | here =>
      refine ⟨[], rfl, List.mem_cons_self, fun hne => absurd rfl hne, ?_, ?_⟩
      · exact fun q _ hq _ => ⟨q, .here hq⟩
      · exact fun q e _ hprefix hne => absurd (List.prefix_nil.mp hprefix) hne
  | @past p p1 p' looped uses hend hnext hgoes ih =>
      obtain ⟨t, rest, hrest, rfl⟩ := next_of_scanned hp hend hnext
      have hp1 : Scanned (t :: rest) p.failure := by
        rwa [tokens, Scanned, if_neg hend, hrest] at hp
      obtain ⟨drawn, hdraws⟩ := ih hp1
      refine ⟨t :: drawn, ?_, List.mem_cons_of_mem _ hdraws.current, fun _ => ?_, ?_, ?_⟩
      · exact hrest.trans (congrArg (t :: ·) hdraws.rest)
      · cases hgoes with
        | here => exact List.mem_cons_self
        | past => exact List.mem_cons_of_mem _ (hdraws.previous (List.cons_ne_nil _ _))
      · intro q more hq hmore
        obtain ⟨hnext', hsame⟩ := hq.next hend hmore rest p.failure
        obtain ⟨q', hmeets⟩ := hdraws.decided _ more hsame rfl
        exact ⟨q', .past hq (fun _ => hq.current) hnext hnext' hmeets⟩
      · intro q e hq hprefix hne hfailure
        cases hrest' : q.rest with
        | nil =>
            refine .stopped hq (fun _ => hq.current) ?_
            rcases q with ⟨previous, current, _, failure⟩
            cases hrest'
            cases hfailure
            rfl
        | cons u fewer =>
            rw [hrest'] at hprefix hne
            obtain ⟨rfl, hin⟩ := List.cons_prefix_cons.mp hprefix
            obtain ⟨hnext', hsame⟩ := hq.next hend hrest' rest p.failure
            have hproper : fewer ≠ drawn := fun heq => hne (congrArg (u :: ·) heq)
            have hmeets := hdraws.asked _ e hsame hin hproper hfailure
            exact .past hq (fun _ => hq.current) hnext hnext' hmeets

end Spot

namespace Parser

/-- Any budget that is large enough reads a script. -/
theorem parse_eq_script {base fuel : Nat} {source : String} {ts : List Spanned}
    {failure : Option LexError} (h : tokenize source = (ts, failure))
    (hfuel : budget ts.length <= fuel) :
    parse base source = (script fuel (start base ts failure)).map Prod.fst := by
  have hclosed := tokenize_closed source
  rw [h] at hclosed
  rw [parse_eq, h, (script_decided hclosed base hfuel).1]

theorem map_fst_eq_fault {α β : Type} {y : Except ParseError (α × β)} {f : SyntaxFault}
    {p : Position} (h : y.map Prod.fst = .error (.fault f p)) : y = .error (.fault f p) := by
  cases y with
  | ok a => cases h
  | error e =>
      cases h
      rfl

theorem budget_mono {ts ts' : List Spanned} (h : ts <+: ts') :
    budget ts.length <= budget ts'.length := by
  have hle := h.length_le
  exact Nat.mul_le_mul_left 8 (Nat.add_le_add_right hle 2)

/-- Where the body of a script stops with a fault, that is what becomes of every script whose tokens
begin in the same way. -/
theorem Stops.stopsAt {base : Nat} {t : Spanned} {rest drawn : List Spanned}
    {failure : Option LexError} {f : SyntaxFault} {at_ : Position} {uses : List Use} {p : Spot}
    (hstops : Stops false (body (budget (t :: rest).length)) (begun base t rest failure) uses f at_)
    (hdraws : (begun base t rest failure).spot.Draws uses p drawn) :
    StopsAt base (t :: drawn) f at_ where
  decided := by
    intro source more hmore
    obtain ⟨failure', htokens⟩ : exists failure',
        tokenize source = (t :: (drawn ++ more), failure') := ⟨_, Prod.ext hmore rfl⟩
    have hscanned := tokenize_scanned source
    rw [htokens] at hscanned
    -- The fault does not depend on the budget, so one that is large enough for both will do.
    let fuel := max (budget (t :: rest).length) (budget (t :: (drawn ++ more)).length)
    obtain ⟨q', hmeets⟩ := hdraws.decided (begun base t (drawn ++ more) failure').spot more
      ⟨rfl, rfl, hscanned⟩ rfl
    have hrun : body (budget (t :: rest).length) (begun base t (drawn ++ more) failure') =
        .error (.fault f at_) := hstops.elsewhere _ _ hmeets
    have hle : budget (t :: rest).length <= fuel := Nat.le_max_left _ _
    have hle' : budget (t :: (drawn ++ more)).length <= fuel := Nat.le_max_right _ _
    have hsame := (body_proceeds hle false (begun base t (drawn ++ more) failure')).same
    rw [hrun] at hsame
    rw [parse_eq_script htokens hle', script_cons, hsame nofun]
    rfl
  asked := by
    intro source fewer e htokens hfewer hne
    have hscanned := tokenize_scanned source
    rw [htokens] at hscanned
    cases fewer with
    | nil =>
        rw [parse_eq_script htokens (Nat.le_refl _), script_nil]
        rfl
    | cons t' fewer =>
        obtain ⟨rfl, hin⟩ := List.cons_prefix_cons.mp hfewer
        have hrest : rest = drawn ++ p.rest := hdraws.rest
        have hfuel : budget (t' :: fewer).length <= budget (t' :: rest).length :=
          budget_mono (List.cons_prefix_cons.mpr ⟨rfl, hin.trans ⟨p.rest, hrest.symm⟩⟩)
        have hproper : fewer ≠ drawn := fun heq => hne (congrArg (t' :: ·) heq)
        have hmeets := hdraws.asked (begun base t' fewer (some e)).spot e ⟨rfl, rfl, hscanned⟩ hin
          hproper rfl
        have hrun : body (budget (t' :: rest).length) (begun base t' fewer (some e)) =
            .error (.lex e) := hstops.elsewhere _ _ hmeets
        rw [parse_eq_script htokens hfuel, script_cons, hrun]
        rfl

/-- A script that is refused for a fault has been read up to some token, and the fault is at a token
up to there. -/
theorem parse_stops {base : Nat} {source : String} {f : SyntaxFault} {p : Position}
    (h : parse base source = .error (.fault f p)) : exists drawn more s,
      (tokenize source).1 = drawn ++ more ∧ s ∈ drawn ∧ s.start = p ∧ StopsAt base drawn f p := by
  obtain ⟨ts, failure, htokens⟩ : exists ts failure, tokenize source = (ts, failure) :=
    ⟨_, _, rfl⟩
  have hscanned := tokenize_scanned source
  rw [htokens] at hscanned
  rw [parse_eq, htokens] at h
  have hrun := map_fst_eq_fault h
  cases ts with
  | nil =>
      cases failure with
      | none => exact absurd rfl hscanned
      | some e => cases hrun
  | cons t rest =>
      have hbody := body_proceeds (Nat.le_refl (budget (t :: rest).length)) false
        (begun base t rest failure)
      obtain ⟨uses, hstops⟩ := hbody.stops f p hrun
      obtain ⟨p1, hgoes, hp⟩ := hstops.pointed
      obtain ⟨drawn, hdraws⟩ := hgoes.draws hscanned
      obtain ⟨s, hs, hstart⟩ : exists s, s ∈ t :: drawn ∧ s.start = p := by
        rcases hp with hp | ⟨hp, hback | hsome⟩
        · exact ⟨_, hdraws.current, hp.symm⟩
        · cases hback
        · exact ⟨_, hdraws.previous hsome, hp.symm⟩
      refine ⟨t :: drawn, p1.rest, s, ?_, hs, hstart, hstops.stopsAt hdraws⟩
      rw [htokens]
      exact congrArg (t :: ·) hdraws.rest

end Parser

/-! ## What is shown -/

/-- A token begins between two parts of a text: it is what is read there. -/
structure Spanned.BeginsAt (s : Spanned) (before after : List Char) : Prop where
  start : s.start = .behind before
  read : exists nesting next, Cursor.read ⟨after, .behind before, nesting⟩ = .ok (s, next)

/-- The row and the column of a diagnosis are those of a place of the source.  It shows the line of
that place with the caret under the character behind the place, or just past the line if there is no
such character.  A row with no text is not shown. -/
structure Diagnosis.Shows (d : Diagnosis) (before after front left right behind : List Char) :
    Prop where
  before_eq : before = front ++ left
  after_eq : after = right ++ behind
  isLine : Text.IsLine front (left ++ right) behind
  row : d.row = front.count '\n'
  column : d.column = left.length
  marked : (left ++ right)[d.column]? = after.head?
  context : d.context = if left ++ right = [] then "" else
    String.ofList (left ++ right) ++ "\n" ++ String.ofList (List.replicate d.column ' ') ++ "^\n"

namespace Spanned.BeginsAt

variable {s : Spanned} {before after : List Char}

/-- No token begins with a character of a line end. -/
theorem head?_ne (h : s.BeginsAt before after) (c : Char) (hc : after.head? = some c) :
    c ≠ '\n' ∧ c ≠ '\r' := by
  obtain ⟨nesting, next, hread⟩ := h.read
  obtain ⟨cs, rfl⟩ := List.head?_eq_some_iff.mp hc
  constructor
  · rintro rfl
    cases hread
  · rintro rfl
    cases hread

/-- The end of the script is read where the text ends, and nowhere else. -/
theorem atEnd_iff (h : s.BeginsAt before after) : s.token = .endOfFile ↔ after = [] := by
  obtain ⟨nesting, next, hread⟩ := h.read
  unfold Cursor.read at hread
  cases after with
  | nil =>
      simp only at hread
      split at hread
      · cases hread
        exact ⟨fun _ => rfl, fun _ => rfl⟩
      · cases hread
  | cons c cs =>
      simp only at hread
      split at hread
      case h_1 l hl =>
        cases hread
        have hne := (Lexer.lexeme_nests hl).ne_endOfFile
        exact ⟨fun hend => absurd hend hne, nofun⟩
      case h_2 => cases hread

end Spanned.BeginsAt

/-- The tokens of a script begin in its text. -/
theorem exists_beginsAt {source : String} {s : Spanned} (hs : s ∈ (tokenize source).1) :
    exists before after, source.toList = before ++ after ∧ s.BeginsAt before after := by
  have hscans := scans_tokenize source
  obtain ⟨before, after, nesting, next, hsplit, hstart, hread⟩ :=
    hscans.place_of_token hs (show (Cursor.ofSource source).position = .behind [] from rfl)
  exact ⟨before, after, hsplit, hstart, nesting, next, hread⟩

namespace Diagnosis

theorem contextOf_line {source : String} {front line behind : List Char} (column : Nat)
    (hsource : source.toList = front ++ line ++ behind) (hline : Text.IsLine front line behind) :
    contextOf source (front.count '\n') column = if line ++ behind = [] then "" else
      String.ofList line ++ "\n" ++ String.ofList (List.replicate column ' ') ++ "^\n" := by
  rw [contextOf, Text.line?, Text.lines, List.getElem?_map, hsource, hline.getElem?_linesOf]
  by_cases hnil : line ++ behind = []
  · rw [if_pos hnil, if_pos hnil]
    rfl
  · rw [if_neg hnil, if_neg hnil]
    rfl

/-- A diagnosis at the beginning of a token shows its line. -/
theorem make_shows {source : String} {s : Spanned} {before after : List Char} (message : String)
    (name : Option String) (hsource : source.toList = before ++ after)
    (hs : s.BeginsAt before after) : exists front left right behind,
      (make message s.start.row s.start.column name source).Shows before after front left right
        behind := by
  obtain ⟨front, left, right, behind, rfl, rfl, hline, hhead⟩ :=
    Text.exists_line before after hs.head?_ne
  obtain ⟨hrow, hcolumn⟩ := hline.position
  rw [← hs.start] at hrow hcolumn
  refine ⟨front, left, right, behind, rfl, rfl, hline, hrow, hcolumn, ?_, ?_⟩
  · show (left ++ right)[s.start.column]? = _
    rw [hcolumn, List.getElem?_append_right (Nat.le_refl _), Nat.sub_self,
      ← List.head?_eq_getElem?, hhead]
  · have hempty : left ++ right ++ behind = [] ↔ left ++ right = [] := by
      constructor
      · intro hnil
        exact (List.append_eq_nil_iff.mp hnil).1
      · intro hnil
        rw [(List.append_eq_nil_iff.mp hnil).2, List.nil_append, List.head?_nil] at hhead
        rw [hnil, List.nil_append, List.head?_eq_none_iff.mp hhead.symm]
    show contextOf source s.start.row s.start.column = _
    rw [hrow, contextOf_line _ (by rw [hsource]; simp) hline]
    simp only [hempty]
    rfl

namespace Shows

variable {d : Diagnosis} {before after front left right behind : List Char}

theorem context_eq_empty_iff (h : d.Shows before after front left right behind) :
    d.context = "" ↔ left ++ right = [] := by
  rw [h.context]
  split
  case isTrue hnil => exact ⟨fun _ => hnil, fun _ => rfl⟩
  case isFalse hline =>
    constructor
    · intro hempty
      have hlength := congrArg String.length hempty
      simp at hlength
    · intro hnil
      exact absurd hnil hline

/-- The row of a place has no text exactly if the place is the end of a text that is empty or ends
with a newline. -/
theorem row_empty_iff (h : d.Shows before after front left right behind) :
    left ++ right = [] ↔
      after = [] ∧ (before ++ after = [] ∨ (before ++ after).getLast? = some '\n') := by
  constructor
  · intro hnil
    obtain ⟨hleft, hright⟩ := List.append_eq_nil_iff.mp hnil
    have hmarked := h.marked
    rw [hnil] at hmarked
    have hafter : after = [] := List.head?_eq_none_iff.mp hmarked.symm
    rw [h.before_eq, hleft, hafter, List.append_nil, List.append_nil]
    exact ⟨rfl, h.isLine.starts⟩
  · rintro ⟨hafter, hend⟩
    have hsplit := h.after_eq
    rw [hafter] at hsplit
    have hright := (List.append_eq_nil_iff.mp hsplit.symm).1
    rw [hafter, List.append_nil, h.before_eq] at hend
    have hinside : '\n' ∉ left := fun hmem => h.isLine.inside (List.mem_append_left _ hmem)
    rw [hright, List.append_nil]
    rcases hend with hnil | hlast
    · exact (List.append_eq_nil_iff.mp hnil).2
    · by_contra hleft
      rw [List.getLast?_append_of_ne_nil _ hleft] at hlast
      exact hinside (List.mem_of_getLast? hlast)

end Shows
end Diagnosis

/-- What a diagnosis of a source says about the place between two parts of it. -/
structure Diagnosis.Located (d : Diagnosis) (base : Nat) (source : String) (drawn : List Spanned)
    (s : Spanned) (before after : List Char) : Prop where
  /-- Reading stops once it has drawn these tokens from the scan. -/
  stops : exists fault more, (tokenize source).1 = drawn ++ more ∧
    StopsAt base drawn fault s.start ∧ d.message = fault.message
  /-- The diagnosis is about one of them. -/
  seen : s ∈ drawn
  place : source.toList = before ++ after
  begins : s.BeginsAt before after
  position : d.row = s.start.row ∧ d.column = s.start.column
  shown : exists front left right behind, d.Shows before after front left right behind
  atEnd : s.token = .endOfFile ↔ after = []
  /-- Nothing is shown exactly at the end of a source that is empty or ends with a newline. -/
  nothing : d.context = "" ↔ s.token = .endOfFile ∧
    (source = "" ∨ source.toList.getLast? = some '\n')

/-- Where and how a script is rejected: a diagnosis names and shows the first character of a token
that the reader has drawn from the scan when it stops, or the end of the script. -/
theorem rejected_at_token {base : Nat} {name : Option String} {source : String} {d : Diagnosis}
    (h : compile base name source = .error (.rejected d)) :
    exists drawn s before after, d.Located base source drawn s before after := by
  obtain ⟨fault, p, hparse, rfl⟩ : exists fault p, parse base source = .error (.fault fault p) ∧
      d = .make fault.message p.row p.column name source := by
    obtain ⟨reason, hparse, hreport⟩ := compile_eq_error h
    cases reason with
    | fault fault p =>
        cases hreport
        exact ⟨fault, p, hparse, rfl⟩
    | lex e => cases hreport
    | exhausted => cases hreport
  obtain ⟨drawn, more, s, hdrawn, hs, rfl, hstops⟩ := Parser.parse_stops hparse
  have hmem : s ∈ (tokenize source).1 := hdrawn ▸ List.mem_append_left more hs
  obtain ⟨before, after, hsource, hbegins⟩ := exists_beginsAt hmem
  obtain ⟨front, left, right, behind, hshows⟩ :=
    Diagnosis.make_shows fault.message name hsource hbegins
  exact ⟨drawn, s, before, after, {
    stops := ⟨fault, more, hdrawn, hstops, rfl⟩
    seen := hs
    place := hsource
    begins := hbegins
    position := ⟨rfl, rfl⟩
    shown := ⟨front, left, right, behind, hshows⟩
    atEnd := hbegins.atEnd_iff
    nothing := by
      rw [hshows.context_eq_empty_iff, hshows.row_empty_iff, ← hsource, hbegins.atEnd_iff,
        String.toList_eq_nil_iff] }⟩

/-- A script with both kinds of line ends, with letters of more than one byte, with a string over
two lines and a stray carriage return in front of a parenthesis that has no match. -/
def strayText : String :=
  "echo 'é'; # ü\r\n\r\r\n'ß\n\r' ) 'ö'\r\n"

def strayDiagnosis : Diagnosis where
  message := "Expected expression but found `)`."
  row := 3
  column := 3
  script := "<script>"
  context := "\r' ) 'ö'\n   ^\n"

def openText : String :=
  "let x =\n"

def openDiagnosis : Diagnosis where
  message := "Expected expression but found `end of file`."
  row := 1
  column := 0
  script := "<script>"
  context := ""

theorem strayText_rejected_at_token :
    compile 0 none strayText = .error (.rejected strayDiagnosis) ∧
    (exists drawn s before after, strayDiagnosis.Located 0 strayText drawn s before after) ∧
    compile 0 none openText = .error (.rejected openDiagnosis) ∧
    exists drawn s before after, openDiagnosis.Located 0 openText drawn s before after := by
  have hstray : compile 0 none strayText = .error (.rejected strayDiagnosis) := by decide +kernel
  have hopen : compile 0 none openText = .error (.rejected openDiagnosis) := by decide +kernel
  exact ⟨hstray, rejected_at_token hstray, hopen, rejected_at_token hopen⟩

end StackScript
