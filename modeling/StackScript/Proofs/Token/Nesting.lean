import StackScript.Proofs.Token.Scan

/-!
# Interpolated strings nest

An interpolated string comes as a first part, then what is interpolated, then middle parts
with more of it, then a last part.  What is interpolated is balanced: braces match inside
it, and strings in it are whole again.  Outside of strings braces need not match.
-/

namespace StackScript

/-! ## The grammar -/

mutual

/-- The tokens of one interpolation. -/
inductive Balanced : List Token -> Prop where
  | nil : Balanced []
  | plain {t : Token} {ts : List Token} : t.Plain -> Balanced ts -> Balanced (t :: ts)
  | string {s : String} {rest ts : List Token} : Resumed rest -> Balanced ts ->
      Balanced (.text s .first :: rest ++ ts)
  | braces {inner ts : List Token} : Balanced inner -> Balanced ts ->
      Balanced (.mark .leftCurly :: inner ++ .mark .rightCurly :: ts)

/-- An interpolated string behind its first part. -/
inductive Resumed : List Token -> Prop where
  | last {segment : List Token} {s : String} : Balanced segment ->
      Resumed (segment ++ [.text s .last])
  | middle {segment rest : List Token} {s : String} : Balanced segment -> Resumed rest ->
      Resumed (segment ++ .text s .middle :: rest)

end

/-- The tokens of a script in front of its end. -/
inductive WellNested : List Token -> Prop where
  | nil : WellNested []
  | plain {t : Token} {ts : List Token} : t.Plain -> WellNested ts -> WellNested (t :: ts)
  | string {s : String} {rest ts : List Token} : Resumed rest -> WellNested ts ->
      WellNested (.text s .first :: rest ++ ts)
  | opening {ts : List Token} : WellNested ts -> WellNested (.mark .leftCurly :: ts)
  | closing {ts : List Token} : WellNested ts -> WellNested (.mark .rightCurly :: ts)

theorem Balanced.append :
    forall {a b : List Token}, Balanced a -> Balanced b -> Balanced (a ++ b)
  | _, _, .nil, hb => hb
  | _, _, .plain ht ha, hb => .plain ht (ha.append hb)
  | _, _, .string hrest ha, hb => by
      rw [List.append_assoc]
      exact .string hrest (ha.append hb)
  | _, _, .braces hinner ha, hb => by
      rw [List.append_assoc]
      exact .braces hinner (ha.append hb)

theorem Balanced.resumed {a ts : List Token} (ha : Balanced a) (hts : Resumed ts) :
    Resumed (a ++ ts) := by
  cases hts with
  | last hsegment =>
      rw [← List.append_assoc]
      exact .last (ha.append hsegment)
  | middle hsegment hrest =>
      rw [← List.append_assoc]
      exact .middle (ha.append hsegment) hrest

theorem Balanced.wellNested :
    forall {a ts : List Token}, Balanced a -> WellNested ts -> WellNested (a ++ ts)
  | _, _, .nil, hts => hts
  | _, _, .plain ht ha, hts => .plain ht (ha.wellNested hts)
  | _, _, .string hrest ha, hts => by
      rw [List.append_assoc]
      exact .string hrest (ha.wellNested hts)
  | _, _, .braces hinner ha, hts => by
      rw [List.append_assoc]
      exact .opening (hinner.wellNested (.closing (ha.wellNested hts)))

/-! ## Open interpolations -/

/-- The number of interpolations open behind a token, if it goes on with or ends only what is
open. -/
def Token.interpolations? (n : Nat) : Token -> Option Nat
  | .text _ .first => some (n + 1)
  | .text _ .middle => if n = 0 then none else some n
  | .text _ .last => if n = 0 then none else some (n - 1)
  | _ => some n

theorem Token.Plain.interpolations? {t : Token} (ht : t.Plain) (n : Nat) :
    t.interpolations? n = some n := by
  cases t with
  | text s part =>
      cases ht
      rfl
  | _ => rfl

mutual

theorem Balanced.interpolations? :
    forall {ts : List Token}, Balanced ts -> forall n, ts.foldlM Token.interpolations? n = some n
  | _, .nil, _ => rfl
  | _, .plain ht hts, n => by
      rw [List.foldlM_cons, ht.interpolations? n]
      exact hts.interpolations? n
  | _, @Balanced.string _ rest ts hrest hts, n => by
      show List.foldlM _ (n + 1) (rest ++ ts) = _
      rw [List.foldlM_append, hrest.interpolations? n]
      exact hts.interpolations? n
  | _, @Balanced.braces inner ts hinner hts, n => by
      show List.foldlM _ n (inner ++ .mark .rightCurly :: ts) = _
      rw [List.foldlM_append, hinner.interpolations? n]
      exact hts.interpolations? n

theorem Resumed.interpolations? :
    forall {ts : List Token}, Resumed ts ->
      forall n, ts.foldlM Token.interpolations? (n + 1) = some n
  | _, .last hsegment, n => by
      rw [List.foldlM_append, hsegment.interpolations? (n + 1)]
      rfl
  | _, .middle hsegment hrest, n => by
      rw [List.foldlM_append, hsegment.interpolations? (n + 1)]
      exact hrest.interpolations? n

end

theorem WellNested.interpolations? {ts : List Token} (h : WellNested ts) (n : Nat) :
    ts.foldlM Token.interpolations? n = some n := by
  induction h with
  | nil => rfl
  | plain ht _ ih =>
      rw [List.foldlM_cons, ht.interpolations? n]
      exact ih
  | @string s rest ts hrest _ ih =>
      show List.foldlM _ (n + 1) (rest ++ ts) = _
      rw [List.foldlM_append, hrest.interpolations? n]
      exact ih
  | opening _ ih => exact ih
  | closing _ ih => exact ih

/-! ## Scanning -/

/-- What may follow inside an interpolation with so many braces open, up to the end of its
string. -/
def Closes : Nat -> List Token -> Prop
  | 0, ts => Resumed ts
  | n + 1, ts => exists inner rest, ts = inner ++ .mark .rightCurly :: rest ∧ Balanced inner ∧
      Closes n rest

/-- What may follow where some interpolations are open, the innermost first. -/
def Completes : List Lexer.Interpolation -> List Token -> Prop
  | [], ts => WellNested ts
  | i :: outer, ts => exists inside rest, ts = inside ++ rest ∧ Closes i.depth inside ∧
      Completes outer rest

theorem Closes.prepend {n : Nat} {a ts : List Token} (ha : Balanced a) (h : Closes n ts) :
    Closes n (a ++ ts) := by
  cases n with
  | zero => exact ha.resumed h
  | succ n =>
      rcases h with ⟨inner, rest, rfl, hinner, hrest⟩
      exact ⟨a ++ inner, rest, by simp, ha.append hinner, hrest⟩

theorem Completes.prepend {open_ : List Lexer.Interpolation} {a ts : List Token}
    (ha : Balanced a) (h : Completes open_ ts) : Completes open_ (a ++ ts) := by
  cases open_ with
  | nil => exact ha.wellNested h
  | cons i outer =>
      rcases h with ⟨inside, rest, rfl, hinside, hrest⟩
      exact ⟨a ++ inside, rest, by simp, hinside.prepend ha, hrest⟩

/-- A token in front of what completes the interpolations that are open behind it. -/
theorem Completes.cons {open_ open' : List Lexer.Interpolation} {t : Token} {ts : List Token}
    (ht : Lexer.Nests open_ t open') (h : Completes open' ts) : Completes open_ (t :: ts) := by
  cases ht with
  | plain ht => exact h.prepend (.plain ht .nil)
  | outerOpening => exact .opening h
  | outerClosing => exact .closing h
  | opening =>
      rcases h with ⟨inside, rest, rfl, ⟨inner, behind, rfl, hinner, hbehind⟩, hrest⟩
      have hclosed := hbehind.prepend (.braces hinner .nil)
      exact ⟨_, rest, by simp, hclosed, hrest⟩
  | closing =>
      rcases h with ⟨inside, rest, rfl, hinside, hrest⟩
      exact ⟨_, rest, rfl, ⟨[], inside, rfl, .nil, hinside⟩, hrest⟩
  | @first quote s _ =>
      rcases h with ⟨inside, rest, rfl, hinside, hrest⟩
      have hstring : Balanced (.text s .first :: inside ++ []) := .string hinside .nil
      rw [List.append_nil] at hstring
      exact hrest.prepend hstring
  | middle =>
      rcases h with ⟨inside, rest, rfl, hinside, hrest⟩
      exact ⟨_, rest, rfl, .middle .nil hinside, hrest⟩
  | last => exact ⟨[_], ts, rfl, .last .nil, h⟩

theorem Cursor.Scans.completes {c : Cursor} {ts : List Spanned} {e : Option LexError}
    (h : c.Scans ts e) (he : e = none) :
    exists body, ts.map Spanned.token = body ++ [Token.endOfFile] ∧ Completes c.nesting body := by
  induction h with
  | ended hrest hnesting =>
      rw [hnesting]
      exact ⟨[], rfl, .nil⟩
  | failed => cases he
  | token hrest hl hscans ih =>
      rcases ih he with ⟨body, hbody, hcompletes⟩
      exact ⟨_ :: body, congrArg (_ :: ·) hbody, hcompletes.cons (Lexer.lexeme_nests hl)⟩

/-- The tokens of a script that can be scanned are well nested in front of the end.  So no part of
a string goes on with or ends an interpolation that is not open, and none is open at the end. -/
theorem tokenize_wellNested {source : String} {ts : List Spanned}
    (h : tokenize source = (ts, none)) :
    exists body, ts.map Spanned.token = body ++ [.endOfFile] ∧ WellNested body ∧
      body.foldlM Token.interpolations? 0 = some 0 := by
  have hscans := scans_tokenize source
  rw [h] at hscans
  rcases hscans.completes rfl with ⟨body, hbody, hnested⟩
  exact ⟨body, hbody, hnested, WellNested.interpolations? hnested 0⟩

/-- A string with an interpolated table, which has an interpolated string in it, and a lone brace
behind it. -/
def nestedText : String :=
  "echo 'a\x7b\x7b k: \"\x7b 1 \x7d!\" \x7d.k\x7db\x7b2\x7dc' \x7d"

def nestedTokens : List Token :=
  [.keyword .echo, .text "a" .first, .mark .leftCurly, .name "k", .mark .colon, .text "" .first,
    .integer 1, .text "!" .last, .mark .rightCurly, .mark .dot, .name "k", .text "b" .middle,
    .integer 2, .text "c" .last, .mark .rightCurly]

theorem nestedText_wellNested :
    (tokenize nestedText).2 = none ∧
      (tokenize nestedText).1.map Spanned.token = nestedTokens ++ [.endOfFile] ∧
      WellNested nestedTokens ∧ nestedTokens.foldlM Token.interpolations? 0 = some 0 := by
  have hscanned : (tokenize nestedText).2 = none := by decide +kernel
  have htokens : (tokenize nestedText).1.map Spanned.token = nestedTokens ++ [.endOfFile] := by
    decide +kernel
  rcases tokenize_wellNested (Prod.ext rfl hscanned) with ⟨body, hbody, hnested⟩
  have hsame : body = nestedTokens := List.append_cancel_right (hbody.symm.trans htokens)
  exact ⟨hscanned, htokens, hsame ▸ hnested⟩

end StackScript
