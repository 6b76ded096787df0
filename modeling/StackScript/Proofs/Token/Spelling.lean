import StackScript.Proofs.Token.Names

/-!
# Tokens and their spellings

Messages show tokens by their spelling.  It does not tell where a text stood in its string, and a
float may look like an integer, but every other token is known by it: written with a space
between them, such tokens are read back, braces and words with a meaning of their own included.
-/

namespace StackScript
namespace Token

/-- A token that is known by its spelling: no text, no float and not the end. -/
def Spelled : Token -> Prop
  | .text _ _ => False
  | .float _ => False
  | .endOfFile => False
  | _ => True

def Occurs (t : Token) : Prop :=
  exists source s, s ∈ (tokenize source).1 ∧ s.token = t

end Token

namespace Lexer

theorem spells_builtin (b : Builtin) : Spells b.word.toList (.builtin b) := by
  have hword : exists c cs, b.word.toList = c :: cs ∧ isNameStart c ∧ cs.all isNameChar := by
    cases b <;> exact ⟨_, _, rfl, rfl, rfl⟩
  rcases hword with ⟨c, cs, hcs, hc, hall⟩
  have hspells := spells_word hc (List.all_eq_true.mp hall)
  have htoken : Token.ofWord b.word = .builtin b := by
    cases b <;> rfl
  rw [← hcs, String.ofList_toList, htoken] at hspells
  exact hspells

theorem spells_int64 {n : Int64} (hn : 0 <= n.toInt) :
    Spells (toString n.toInt).toList (.integer n) := by
  have hlt : n.toInt.toNat < 2 ^ 63 := by
    have hmax := n.toInt_lt
    lia
  have hvalue : (n.toInt.toNat : Int) = n.toInt := Int.toNat_of_nonneg hn
  have hspells := spells_integer ⟨n.toInt.toNat, hlt⟩
  have htext : toString n.toInt = toString n.toInt.toNat := by
    rw [← hvalue]
    rfl
  have htoken : Int64.ofNat n.toInt.toNat = n := by
    rw [← Int64.ofInt_eq_ofNat, hvalue, Int64.ofInt_toInt]
  rw [htext]
  rwa [htoken] at hspells

/-- A token of a script that is known by its spelling is read from it. -/
theorem spells_token {t : Token} (ht : t.Proper) (hspelled : t.Spelled) :
    Spells t.spelling.toList t := by
  cases t with
  | integer n => exact spells_int64 ht
  | name s => exact spells_name ⟨s, ht⟩
  | keyword k => exact spells_keyword k
  | builtin b => exact spells_builtin b
  | operator op => exact spells_operator op
  | update op => exact spells_update op
  | comparison c => exact spells_comparison c
  | mark m => exact spells_mark m
  | text s part => cases hspelled
  | float x => cases hspelled
  | endOfFile => cases hspelled

end Lexer

theorem isSpelled_token {t : Token} (ht : t.Proper) (hspelled : t.Spelled) :
    Cursor.IsSpelled Token.spelling id t := by
  constructor
  · exact Lexer.spells_token ht hspelled
  · intro hend
    cases hend
    exact ht

/-- The tokens of scripts that are known by their spelling are the integers that are not negative,
the names that are no words with another meaning, and all keywords, builtin forms, operators and
marks. -/
theorem occurs_iff {t : Token} (hspelled : t.Spelled) : t.Occurs ↔ t.Proper := by
  constructor
  · intro h
    rcases h with ⟨source, s, hs, rfl⟩
    rcases (scans_tokenize source).proper s hs with hend | hproper
    · rw [hend] at hspelled
      cases hspelled
    · exact hproper
  · intro ht
    have hall (w : Token) (hw : w ∈ [t]) : Cursor.IsSpelled Token.spelling id w := by
      rw [List.mem_singleton.mp hw]
      exact isSpelled_token ht hspelled
    rcases tokenize_spelled hall with ⟨ts, htokens, hmap⟩
    have hmem : t ∈ ts.map Spanned.token := by simp [hmap]
    rcases List.mem_map.mp hmem with ⟨s, hs, hst⟩
    exact ⟨_, s, by rw [htokens]; exact hs, hst⟩

/-- Tokens of scripts that are known by their spelling are read back from their spellings with a
space between them.  Which tokens these are does not depend on any script. -/
theorem spelled_tokens_read_back :
    (forall t : Token, t.Spelled -> (t.Occurs ↔ t.Proper)) ∧
      forall ts : List Token, (forall t, t ∈ ts -> t.Occurs ∧ t.Spelled) ->
        exists spans, tokenize (" ".intercalate (ts.map Token.spelling)) = (spans, none) ∧
          spans.map Spanned.token = ts ++ [Token.endOfFile] := by
  constructor
  · intro t hspelled
    exact occurs_iff hspelled
  · intro ts hts
    have hall (t : Token) (ht : t ∈ ts) : Cursor.IsSpelled Token.spelling id t := by
      rcases hts t ht with ⟨hoccurs, hspelled⟩
      exact isSpelled_token ((occurs_iff hspelled).mp hoccurs) hspelled
    rcases tokenize_spelled hall with ⟨spans, htokens, hmap⟩
    rw [List.map_id] at hmap
    exact ⟨spans, htokens, hmap⟩

/-- Tokens that other tokens begin with, and braces that do not match. -/
def mixedTokens : List Token :=
  [.mark .rightCurly, .keyword .let_, .name "letter", .mark .assign, .comparison .less,
    .operator .shiftLeft, .update .shiftLeft, .integer Int64.maxValue, .mark .dot, .integer 0,
    .name "x1F", .builtin .toInteger, .keyword .not, .mark .leftCurly]

theorem mixedTokens_read_back :
    (forall t, t ∈ mixedTokens -> t.Occurs ∧ t.Spelled) ∧
      exists spans, tokenize (" ".intercalate (mixedTokens.map Token.spelling)) = (spans, none) ∧
        spans.map Spanned.token = mixedTokens ++ [Token.endOfFile] := by
  have hspelled : forall t, t ∈ mixedTokens -> t.Spelled := by
    simp [mixedTokens, Token.Spelled]
  have hproper : forall t, t ∈ mixedTokens -> t.Proper := by
    decide
  have hall (t : Token) (ht : t ∈ mixedTokens) : t.Occurs ∧ t.Spelled :=
    ⟨(spelled_tokens_read_back.1 t (hspelled t ht)).mpr (hproper t ht), hspelled t ht⟩
  exact ⟨hall, spelled_tokens_read_back.2 mixedTokens hall⟩

end StackScript
