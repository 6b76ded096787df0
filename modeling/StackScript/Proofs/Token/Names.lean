import StackScript.Proofs.Source.Word
import StackScript.Proofs.Token.Scan

/-!
# Names in a text

A word of a text is a keyword, a builtin form or else a name, so a name has no meaning of its
own.  It starts with a letter or an underscore; the locals that no name can reach are called
otherwise.
-/

namespace StackScript

/-- What a token of a script can be, its end apart: an integer is not negative, and a name is
nothing but a name. -/
def Token.Proper : Token -> Prop
  | .integer n => 0 <= n.toInt
  | .name s => isName s
  | .endOfFile => False
  | _ => True

instance : DecidablePred Token.Proper
  | .integer n => inferInstanceAs (Decidable (0 <= n.toInt))
  | .name s => inferInstanceAs (Decidable (isName s))
  | .endOfFile => isFalse id
  | .float _ | .text _ _ | .keyword _ | .builtin _ | .operator _ | .update _ | .comparison _
  | .mark _ => isTrue trivial

/-- A word that starts like a name. -/
def Written (s : String) : Prop :=
  exists c rest, s = String.ofList (c :: rest) ∧ Lexer.isNameStart c = true

def Token.Named : Token -> Prop
  | .name s => Written s
  | _ => True

theorem written_of_isName {s : String} (h : isName s) : Written s := by
  unfold isName at h
  split at h
  · cases h
  · rename_i c cs hcs
    simp only [Bool.and_eq_true] at h
    exact ⟨c, cs, by rw [← hcs, String.ofList_toList], h.1.1⟩

namespace Token

variable {t : Token}

theorem Proper.named (h : t.Proper) : t.Named := by
  cases t with
  | name s => exact written_of_isName h
  | _ => trivial

theorem IsNumber.proper (h : t.IsNumber) : t.Proper := by
  cases t <;> trivial

theorem IsSign.proper (h : t.IsSign) : t.Proper := by
  cases t <;> trivial

end Token

namespace Lexer

theorem ofWord_proper {c : Char} {cs : List Char} (hc : isNameStart c)
    (hcs : forall d, d ∈ cs -> isNameChar d) :
    (Token.ofWord (String.ofList (c :: cs))).Proper := by
  have hword : Token.ofWord (String.ofList (c :: cs)) = .name (String.ofList (c :: cs)) ->
      isName (String.ofList (c :: cs)) := by
    intro h
    have hall := List.all_eq_true.mpr hcs
    simp only [isName, String.toList_ofList, hc, hall, h, beq_self_eq_true, Bool.and_self]
  unfold Token.ofWord at hword ⊢
  split
  · trivial
  · trivial
  · rename_i hkeyword hbuiltin
    exact hword (by rw [hkeyword, hbuiltin])

theorem closingBrace_proper {cs : List Char} {open_ : List Interpolation} {l : Lexeme}
    (h : closingBrace cs open_ = .ok l) : l.token.Proper := by
  unfold closingBrace at h
  split at h
  · cases h
    trivial
  · split at h
    · split at h <;> cases h
      trivial
    · cases h
      trivial

theorem lexeme_proper {open_ : List Interpolation} {c : Char} {cs : List Char} {l : Lexeme}
    (h : lexeme open_ c cs = .ok l) : l.token.Proper := by
  unfold lexeme at h
  split at h
  · unfold stringLexeme at h
    split at h <;> cases h
    trivial
  · split at h
    · cases h
      unfold openingBrace
      split <;> trivial
    · split at h
      · exact closingBrace_proper h
      · split at h
        · cases hn : number (c :: cs) with
          | error f => simp [hn, bind, Except.bind] at h
          | ok r =>
              simp only [hn, bind, Except.bind, pure, Except.pure, Except.ok.injEq] at h
              subst h
              exact (number_isNumber hn).proper
        · split at h
          · rename_i hstart
            cases h
            have hall (d : Char) (hd : d ∈ cs.takeWhile isNameChar) : isNameChar d :=
              List.all_eq_true.mp List.all_takeWhile d hd
            exact ofWord_proper hstart hall
          · split at h
            · rename_i hs
              cases h
              exact (sign?_isSign hs).proper
            · cases h

end Lexer

theorem Cursor.Scans.proper {c : Cursor} {ts : List Spanned} {e : Option LexError}
    (h : c.Scans ts e) : forall t, t ∈ ts -> t.token = .endOfFile ∨ t.token.Proper := by
  induction h with
  | ended =>
      intro t ht
      rw [List.mem_singleton.mp ht]
      exact Or.inl rfl
  | failed => exact nofun
  | token _ hl _ ih =>
      intro t ht
      rcases List.mem_cons.mp ht with rfl | ht
      · exact Or.inr (Lexer.lexeme_proper hl)
      · exact ih t ht

theorem tokenize_named (source : String) :
    forall t, t ∈ (tokenize source).1 -> t.token.Named := by
  intro t ht
  rcases (scans_tokenize source).proper t ht with hend | hproper
  · rw [hend]
    trivial
  · exact hproper.named

end StackScript
