import StackScript.Proofs.Token.Scan

/-!
# Where the tokens of a script lie

The tokens of a script and the gaps between them cut it into pieces that lie end to end.
Rows, columns and offsets are counted along the way; here they are said of the text in
front of a place, and the two agree at every token and at every error.
-/

namespace StackScript

/-! ## Places in a text -/

def byteSize (text : List Char) : Nat :=
  (String.ofList text).utf8ByteSize

theorem byteSize_append (a b : List Char) : byteSize (a ++ b) = byteSize a + byteSize b := by
  simp [byteSize]

theorem byteSize_lt_append (before : List Char) {text : List Char} (h : text ≠ []) :
    byteSize before < byteSize (before ++ text) := by
  cases text with
  | nil => exact absurd rfl h
  | cons c cs =>
      have hc : byteSize [c] = c.utf8Size := by simp [byteSize]
      have hpos := c.utf8Size_pos
      rw [← List.singleton_append, byteSize_append, byteSize_append, hc]
      lia

namespace Position

/-- The place behind a text: its newlines, the characters behind the last of them, its bytes. -/
def behind (text : List Char) : Position where
  row := text.count '\n'
  column := (text.reverse.takeWhile (· != '\n')).length
  offset := byteSize text

theorem after_behind (text : List Char) (c : Char) :
    (behind text).after c = behind (text ++ [c]) := by
  have hsize : byteSize (text ++ [c]) = byteSize text + c.utf8Size := by simp [byteSize]
  unfold after
  by_cases hc : c = '\n'
  · subst hc
    simp [behind, hsize]
  · simp [behind, hc, hsize]

theorem afterAll_behind (before text : List Char) :
    (behind before).afterAll text = behind (before ++ text) := by
  induction text generalizing before with
  | nil => simp [afterAll]
  | cons c text ih =>
      show ((behind before).after c).afterAll text = _
      rw [after_behind, ih, List.append_assoc, List.singleton_append]

end Position

/-! ## Gaps -/

/-- What may stand between two tokens: blanks, and comments up to the end of their line or of the
script. -/
inductive Gap (behind : List Char) : List Char -> Prop where
  | nil : Gap behind []
  | blank {c : Char} {cs : List Char} : c ∈ [' ', '\t', '\r', '\n'] -> Gap behind cs ->
      Gap behind (c :: cs)
  | comment {text cs : List Char} : '\n' ∉ text ->
      (forall c, (cs ++ behind).head? = some c -> c = '\n') -> Gap behind cs ->
      Gap behind ('#' :: text ++ cs)

/-- What may stand behind the sign of a comment. -/
def InComment (behind cs : List Char) : Prop :=
  exists text more, cs = text ++ more ∧ '\n' ∉ text ∧
    (forall c, (more ++ behind).head? = some c -> c = '\n') ∧ Gap behind more

theorem Gap.ofComment {behind cs : List Char} (h : InComment behind cs) :
    Gap behind ('#' :: cs) := by
  rcases h with ⟨text, more, rfl, htext, hline, hmore⟩
  exact .comment htext hline hmore

theorem Lexer.gap_cuts (cs : List Char) :
    Gap (cs.drop (gap false cs)) (cs.take (gap false cs)) ∧
      InComment (cs.drop (gap true cs)) (cs.take (gap true cs)) := by
  induction cs with
  | nil => exact ⟨.nil, [], [], rfl, by simp, by simp [gap], .nil⟩
  | cons c cs ih =>
      constructor
      · by_cases hspace : isSpace c = true
        · have hblank : c ∈ [' ', '\t', '\r', '\n'] := by
            simpa [isSpace, or_assoc] using hspace
          simp only [gap, hspace, Bool.false_eq_true, if_false, if_true, List.take_succ_cons,
            List.drop_succ_cons]
          exact .blank hblank ih.1
        · by_cases hsign : c = '#'
          · subst hsign
            exact .ofComment ih.2
          · have hzero : gap false (c :: cs) = 0 := by simp [gap, hspace, hsign]
            rw [hzero]
            exact .nil
      · by_cases hline : c = '\n'
        · -- The newline ends the comment and belongs to the gap.
          subst hline
          exact ⟨[], _, rfl, by simp, by simp [gap], .blank (by simp) ih.1⟩
        · rcases ih.2 with ⟨text, more, htake, htext, hends, hmore⟩
          have hn : gap true (c :: cs) = gap true cs + 1 := by
            rw [gap, if_pos rfl, bne_iff_ne.mpr hline]
          rw [hn, List.take_succ_cons, List.drop_succ_cons, htake]
          exact ⟨c :: text, more, rfl, by simp [Ne.symm hline, htext], hends, hmore⟩

/-! ## Tokens and gaps end to end -/

/-- The tokens of a text that stands behind another one: gaps and tokens take turns, and the text
ends with a gap. -/
inductive Tiles : List Char -> List Char -> List Spanned -> Prop where
  | last {before gap : List Char} : Gap [] gap ->
      Tiles before gap
        [⟨.endOfFile, .behind (before ++ gap), byteSize (before ++ gap)⟩]
  | token {before gap word text : List Char} {token : Token} {ts : List Spanned} :
      Gap (word ++ text) gap -> word ≠ [] -> token ≠ .endOfFile ->
      Tiles (before ++ gap ++ word) text ts ->
      Tiles before (gap ++ word ++ text)
        (⟨token, .behind (before ++ gap), byteSize (before ++ gap ++ word)⟩ :: ts)

namespace Cursor

section Scan

variable {c : Cursor} {before : List Char} {ts : List Spanned} {e : Option LexError}

theorem advance_cuts (hc : c.position = .behind before) (n : Nat) :
    c.rest = c.rest.take n ++ (c.advance n).rest ∧
      (c.advance n).position = .behind (before ++ c.rest.take n) := by
  constructor
  · exact (List.take_append_drop n c.rest).symm
  · rw [advance, hc, Position.afterAll_behind]

theorem skipGap_cuts (hc : c.position = .behind before) :
    exists gap, c.rest = gap ++ c.skipGap.rest ∧ Gap c.skipGap.rest gap ∧
      c.skipGap.position = .behind (before ++ gap) := by
  have hcut := advance_cuts hc (Lexer.gap false c.rest)
  exact ⟨_, hcut.1, (Lexer.gap_cuts c.rest).1, hcut.2⟩

theorem Scans.tiles (h : Scans c ts e) (he : e = none) (hc : c.position = .behind before) :
    Tiles before c.rest ts := by
  induction h generalizing before with
  | ended hrest hnesting =>
      rcases skipGap_cuts hc with ⟨gap, hcut, hgap, hskip⟩
      rw [hrest] at hcut hgap
      rw [hcut, List.append_nil, hskip]
      exact .last hgap
  | failed => cases he
  | @token c first rest l ts e hrest hl hscans ih =>
      rcases skipGap_cuts hc with ⟨gap, hcut, hgap, hskip⟩
      rcases advance_cuts hskip l.size with ⟨hword, hpast⟩
      have hne : c.skipGap.rest.take l.size ≠ [] := by
        have hsize := Lexer.lexeme_size_pos hl
        simp [hrest, Nat.pos_iff_ne_zero.mp hsize]
      have hpast' : (c.skipGap.past l).position = .behind (before ++ gap ++ _) := hpast
      have htail := ih he hpast'
      rw [hword] at hcut hgap
      rw [hcut, ← List.append_assoc, hskip, hpast']
      exact .token hgap hne (Lexer.lexeme_nests hl).ne_endOfFile htail

/-- An error is reported at a place of the script. -/
theorem Scans.place_of_error {error : LexError} (h : Scans c ts e) (he : e = some error)
    (hc : c.position = .behind before) :
    exists front rest, before ++ c.rest = front ++ rest ∧
      error.row = (Position.behind front).row ∧ error.column = (Position.behind front).column := by
  induction h generalizing before with
  | ended => cases he
  | @failed c fault distance =>
      cases he
      rcases skipGap_cuts hc with ⟨gap, hcut, -, hskip⟩
      rcases advance_cuts hskip distance with ⟨hword, hplace⟩
      rw [hword, ← List.append_assoc] at hcut
      rw [hcut, hplace, ← List.append_assoc, ← List.append_assoc]
      exact ⟨_, _, rfl, rfl, rfl⟩
  | @token c first rest l ts e hrest hl hscans ih =>
      rcases skipGap_cuts hc with ⟨gap, hcut, -, hskip⟩
      rcases advance_cuts hskip l.size with ⟨hword, hpast⟩
      have hrest : c.skipGap.rest = _ ++ (c.skipGap.past l).rest := hword
      rw [hcut, hrest, ← List.append_assoc, ← List.append_assoc]
      exact ih he hpast

/-- A token is what is read at a place of the script, and it starts there. -/
theorem Scans.place_of_token {t : Spanned} (h : Scans c ts e) (ht : t ∈ ts)
    (hc : c.position = .behind before) :
    exists front rest nesting next, before ++ c.rest = front ++ rest ∧ t.start = .behind front ∧
      Cursor.read ⟨rest, .behind front, nesting⟩ = .ok (t, next) := by
  induction h generalizing before with
  | @ended c hrest hnesting =>
      cases List.mem_singleton.mp ht
      rcases skipGap_cuts hc with ⟨gap, hcut, -, hskip⟩
      have hcursor : ⟨[], .behind (before ++ gap), []⟩ = c.skipGap := by
        rw [← hrest, ← hskip, ← hnesting]
        rfl
      refine ⟨before ++ gap, [], [], c.skipGap, ?_, hskip, ?_⟩
      · rw [hcut, hrest, List.append_assoc]
      · rw [hcursor, read, hrest]
        simp only [skipGap, advance, hnesting, List.isEmpty_nil, if_true]
  | failed => cases ht
  | @token c first rest l ts e hrest hl hscans ih =>
      rcases skipGap_cuts hc with ⟨gap, hcut, -, hskip⟩
      rcases List.mem_cons.mp ht with rfl | ht
      · have hcursor : ⟨first :: rest, .behind (before ++ gap), c.nesting⟩ = c.skipGap := by
          rw [← hrest, ← hskip]
          rfl
        have hlexeme : Lexer.lexeme c.skipGap.nesting first rest = .ok l := hl
        refine ⟨before ++ gap, first :: rest, c.nesting, c.skipGap.past l, ?_, hskip, ?_⟩
        · rw [hcut, hrest, List.append_assoc]
        · rw [hcursor, read, hrest]
          simp only [hlexeme]
          rfl
      · rcases advance_cuts hskip l.size with ⟨hword, hpast⟩
        have hrest : c.skipGap.rest = _ ++ (c.skipGap.past l).rest := hword
        rw [hcut, hrest, ← List.append_assoc, ← List.append_assoc]
        exact ih ht hpast

end Scan
end Cursor

/-! ## What follows for the spans -/

/-- Where the tokens of a script lie. -/
structure Spans (source : String) (ts : List Spanned) : Prop where
  /-- Gaps and tokens lie end to end. -/
  tiles : Tiles [] source.toList ts
  /-- Every token but the last takes up bytes; the last one is the end of the script. -/
  ends : exists words last, ts = words ++ [last] ∧
    (forall t, t ∈ words -> t.token ≠ .endOfFile ∧ t.start.offset < t.stop) ∧
    last.token = .endOfFile ∧ last.start.offset = source.utf8ByteSize ∧
    last.stop = source.utf8ByteSize
  /-- Each token ends before the later ones begin. -/
  ordered : ts.Pairwise fun a b => a.start.offset < b.start.offset ∧ a.stop <= b.start.offset
  /-- From the beginning or the end of a token to the next token there is only a gap. -/
  gaps : forall i j, (i, j) ∈ (0 :: ts.map Spanned.stop).zip (ts.map fun t => t.start.offset) ->
    exists before gap behind, source.toList = before ++ gap ++ behind ∧ byteSize before = i ∧
      byteSize (before ++ gap) = j ∧ Gap behind gap
  /-- The row counts the newlines in front of a token, the column the characters behind the last
  of them. -/
  places : forall t, t ∈ ts -> exists before behind, source.toList = before ++ behind ∧
    t.start.offset = byteSize before ∧ t.start.row = before.count '\n' ∧
    t.start.column = (before.reverse.takeWhile (· != '\n')).length
  /-- There are no more tokens than characters, and the end. -/
  few : ts.length <= source.length + 1

namespace Tiles

variable {before text : List Char} {ts : List Spanned}

theorem start_ge (h : Tiles before text ts) :
    forall t, t ∈ ts -> byteSize before <= t.start.offset := by
  induction h with
  | last hgap =>
      intro t ht
      rw [List.mem_singleton.mp ht]
      show _ <= byteSize _
      rw [byteSize_append]
      lia
  | token hgap hword htoken htiles ih =>
      intro t ht
      rcases List.mem_cons.mp ht with rfl | ht
      · show _ <= byteSize _
        rw [byteSize_append]
        lia
      · have hle := ih t ht
        rw [byteSize_append, byteSize_append] at hle
        lia

theorem ends (h : Tiles before text ts) :
    exists (words : List Spanned) (last : Spanned), ts = words ++ [last] ∧
      (forall t, t ∈ words -> t.token ≠ .endOfFile ∧ t.start.offset < t.stop) ∧
      last.token = .endOfFile ∧ last.start.offset = byteSize (before ++ text) ∧
      last.stop = byteSize (before ++ text) := by
  induction h with
  | last hgap => exact ⟨[], _, rfl, by simp, rfl, rfl, rfl⟩
  | @token before gap word text token ts hgap hword htoken htiles ih =>
      rcases ih with ⟨words, last, rfl, hwords, hlast, hstart, hstop⟩
      rw [← List.append_assoc, ← List.append_assoc]
      refine ⟨_ :: words, last, rfl, ?_, hlast, hstart, hstop⟩
      intro t ht
      rcases List.mem_cons.mp ht with rfl | ht
      · exact ⟨htoken, byteSize_lt_append (before ++ gap) hword⟩
      · exact hwords t ht

theorem ordered (h : Tiles before text ts) :
    ts.Pairwise fun a b => a.start.offset < b.start.offset ∧ a.stop <= b.start.offset := by
  induction h with
  | last => exact List.pairwise_singleton _ _
  | @token before gap word text token ts hgap hword htoken htiles ih =>
      refine List.Pairwise.cons ?_ ih
      intro t ht
      have hle := htiles.start_ge t ht
      exact ⟨Nat.lt_of_lt_of_le (byteSize_lt_append (before ++ gap) hword) hle, hle⟩

theorem gaps (h : Tiles before text ts) (i j : Nat)
    (hij : (i, j) ∈ (byteSize before :: ts.map Spanned.stop).zip
      (ts.map fun t => t.start.offset)) :
    exists front gap behind, before ++ text = front ++ gap ++ behind ∧ byteSize front = i ∧
      byteSize (front ++ gap) = j ∧ Gap behind gap := by
  induction h with
  | @last before gap hgap =>
      have hpair : (i, j) = (byteSize before, byteSize (before ++ gap)) := by
        simpa [Position.behind] using hij
      cases hpair
      exact ⟨before, gap, [], by simp, rfl, rfl, hgap⟩
  | @token before gap word text token ts hgap hword htoken htiles ih =>
      rcases List.mem_cons.mp hij with hpair | hij
      · cases hpair
        exact ⟨before, gap, word ++ text, by simp, rfl, rfl, hgap⟩
      · rw [← List.append_assoc, ← List.append_assoc]
        exact ih hij

theorem places (h : Tiles before text ts) :
    forall t, t ∈ ts -> exists front rest, before ++ text = front ++ rest ∧
      t.start = .behind front := by
  induction h with
  | @last before gap hgap =>
      intro t ht
      rw [List.mem_singleton.mp ht]
      exact ⟨before ++ gap, [], by simp, rfl⟩
  | @token before gap word text token ts hgap hword htoken htiles ih =>
      intro t ht
      rcases List.mem_cons.mp ht with rfl | ht
      · exact ⟨before ++ gap, word ++ text, by simp, rfl⟩
      · rw [← List.append_assoc, ← List.append_assoc]
        exact ih t ht

theorem length_le (h : Tiles before text ts) : ts.length <= text.length + 1 := by
  induction h with
  | last hgap => simp
  | token hgap hword htoken htiles ih =>
      have hpos := List.length_pos_iff.mpr hword
      simp only [List.length_cons, List.length_append]
      lia

theorem spans {source : String} (h : Tiles [] source.toList ts) : Spans source ts where
  tiles := h
  ends := by
    have hsize : byteSize ([] ++ source.toList) = source.utf8ByteSize := by simp [byteSize]
    rw [← hsize]
    exact h.ends
  ordered := h.ordered
  gaps := h.gaps
  places := by
    intro t ht
    rcases h.places t ht with ⟨before, behind, hsplit, hstart⟩
    rw [hstart]
    exact ⟨before, behind, hsplit, rfl, rfl, rfl⟩
  few := by
    have hle := h.length_le
    rwa [String.length_toList] at hle

end Tiles

/-- The tokens of a script that can be scanned and the gaps between them tile it; an error of one
that cannot is reported at a place inside it or at its end. -/
theorem tokenize_spans (source : String) :
    (forall ts, tokenize source = (ts, none) -> Spans source ts) ∧
    forall ts e, tokenize source = (ts, some e) ->
      exists before behind, source.toList = before ++ behind ∧ e.row = before.count '\n' ∧
        e.column = (before.reverse.takeWhile (· != '\n')).length := by
  have hscans := scans_tokenize source
  have hstart : (Cursor.ofSource source).position = .behind [] := rfl
  constructor
  · intro ts hts
    rw [hts] at hscans
    exact (hscans.tiles rfl hstart).spans
  · intro ts e hts
    rw [hts] at hscans
    exact hscans.place_of_error rfl hstart

/-- A script with a comment, a string over two lines, braces in an interpolation and letters of
more than one byte. -/
def spreadText : String :=
  "x # é\n 'ü\x7b \x7b \x7d \x7d\n' ~ # end"

/-- A script whose second line has an unknown escape. -/
def escapedText : String :=
  "x\n'é\\q'"

theorem spreadText_spans :
    (tokenize spreadText).2 = none ∧ Spans spreadText (tokenize spreadText).1 ∧
      exists e, (tokenize escapedText).2 = some e ∧
        exists before behind, escapedText.toList = before ++ behind ∧
          e.row = before.count '\n' ∧
          e.column = (before.reverse.takeWhile (· != '\n')).length := by
  have hspread : (tokenize spreadText).2 = none := by decide +kernel
  have hescaped : (tokenize escapedText).2 = some ⟨.unknownEscape 'q', 1, 3⟩ := by
    decide +kernel
  exact ⟨hspread, (tokenize_spans spreadText).1 _ (Prod.ext rfl hspread), _, hescaped,
    (tokenize_spans escapedText).2 _ _ (Prod.ext rfl hescaped)⟩

end StackScript
