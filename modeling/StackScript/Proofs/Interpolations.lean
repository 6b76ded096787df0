import StackScript.Proofs.Compiled
import StackScript.Proofs.Reading.Strings

/-!
# Interpolated strings in scripts that compile

In a script that compiles, each part behind the last interpolation of a string is taken by the
loop of that string.  A part between two interpolations is taken by the loop of its string too, or
else the reader takes it for a string of its own.  The latter is how empty interpolations may
pass: of two parts with nothing between them one is taken for a string of its own.
-/

namespace StackScript

/-! ## Scripts with parts alone -/

namespace Spot

/-- From a place where the same tokens stand, but for later parts of strings that are put alone,
the uses lead on up to the first one that a loop misses. -/
theorem Goes.meets_like {p p' q : Spot} {uses : List Use} (h : p.Goes uses p')
    (hp : p.Ended) (hfailure : q.failure = p.failure)
    (hprevious : p.previous.Like q.previous)
    (htokens : List.Forall₂ Spanned.Like p.tokens q.tokens) :
    exists q', p.Meets Like uses q (match spoiled? uses q.tokens with
      | some missed => .error (.fault .openInterpolation missed)
      | none => .ok q') := by
  induction h generalizing q with
  | here =>
      obtain ⟨hcurrent, -⟩ := List.forall₂_cons.mp htokens
      exact ⟨q, .here ⟨hprevious, hcurrent⟩⟩
  | @past p p1 p' looped uses hend hnext hgoes ih =>
      obtain ⟨hcurrent, hrests⟩ := List.forall₂_cons.mp htokens
      obtain ⟨hrest, hfailure1, hp1⟩ := next_of_ended hp hend hnext
      have hlike : p.Like q := ⟨hprevious, hcurrent⟩
      rw [hrest] at hrests
      obtain ⟨⟨previous, current, rest, failure⟩, hq⟩ : exists q1, q1 = q := ⟨q, rfl⟩
      subst hq
      cases rest with
      | nil => cases hrests
      | cons t rest =>
          by_cases hmissed : looped = true ∧ current ≠ p.current
          · refine ⟨p', ?_⟩
            rw [tokens, spoiled?, if_pos hmissed, hmissed.1]
            exact .spoiled hlike hmissed.2
          · obtain ⟨q', hmeets⟩ := ih (q := ⟨current, t, rest, failure⟩) hp1
              (hfailure.trans hfailure1.symm) ((previous_of_next hnext).symm ▸ hcurrent) hrests
            refine ⟨q', ?_⟩
            rw [tokens, spoiled?, if_neg hmissed]
            refine .past hlike (fun hlooped => ?_) hnext rfl hmeets
            by_contra hne
            exact hmissed ⟨hlooped, hne⟩

end Spot

namespace Parser

def readTokens (base : Nat) (ts : List Spanned) : Except ParseError Script :=
  ((script (budget ts.length)).run (start base ts none)).map Prod.fst

theorem readTokens_cons (base : Nat) (t : Spanned) (rest : List Spanned) :
    readTokens base (t :: rest) =
      (body (budget (rest.length + 1)) (begun base t rest none)).map Prod.fst :=
  rfl

theorem parse_eq_readTokens {base : Nat} {source : String} {ts : List Spanned}
    (h : tokenize source = (ts, none)) : parse base source = readTokens base ts := by
  rw [parse_eq, h]
  rfl

/-- In front of the end of a script there is no token that looks like it. -/
theorem eq_of_suffix {words before rest : List Spanned} {t last : Spanned}
    (hwords : forall t, t ∈ words -> t.token ≠ .endOfFile) (ht : t.token = .endOfFile)
    (h : words ++ [last] = before ++ t :: rest) : words = before ∧ rest = [] ∧ t = last := by
  rcases List.eq_nil_or_concat rest with rfl | ⟨rest, x, rfl⟩
  · obtain ⟨hbefore, hlast⟩ := List.append_inj' h rfl
    exact ⟨hbefore, rfl, (List.cons.inj hlast).1.symm⟩
  · rw [List.concat_eq_append, ← List.cons_append, ← List.append_assoc] at h
    obtain ⟨hbefore, -⟩ := List.append_inj' h rfl
    exact absurd ht (hwords t (by simp [hbefore]))

/-- A script that can be read has tokens up to its end, and reading it with some parts alone stops
at the first one that a loop misses, if there is one. -/
theorem parse_uses {base : Nat} {source : String} {s : Script} (h : parse base source = .ok s) :
    exists uses last, tokenize source = (usedTokens uses ++ [last], none) ∧
      last.token = .endOfFile ∧ Taken uses [last] ∧ forall ts,
        List.Forall₂ Spanned.Like (usedTokens uses ++ [last]) ts ->
          readTokens base ts =
            match spoiled? uses ts with
            | some p => .error (.fault .openInterpolation p)
            | none => .ok s := by
  obtain ⟨t, rest, failure, r', htokens, hrun⟩ := body_of_parse h
  have hclosed := tokenize_closed source
  obtain ⟨words, hwords, hends, hfails⟩ := (tokenize_scanned source).ends
  rw [htokens] at hclosed hends hfails
  have hended : (begun base t rest failure).Ended := hclosed.begun
  obtain ⟨uses, hgoes, -, htaken, -⟩ :=
    (body_proceeds (Nat.le_refl _) false (begun base t rest failure)).gives s r' hrun
  have hsplit : t :: rest = usedTokens uses ++ r'.current :: r'.rest :=
    (hgoes.goes.tokens_eq hended).1
  have hend := current_of_body hrun
  cases failure with
  | some e =>
      have hmem : r'.current ∈ words := by
        rw [← hfails (by simp), hsplit]
        simp
      exact absurd hend (hwords _ hmem)
  | none =>
      obtain ⟨last, hlast, -⟩ := hends rfl
      obtain ⟨hused, hrest, hcurrent⟩ := eq_of_suffix hwords hend (hlast.symm.trans hsplit)
      have htaken' : Taken uses [last] := by
        have hbehind : r'.tokens = [last] := by rw [Reading.tokens, hrest, hcurrent]
        exact hbehind ▸ htaken hended
      rw [hused] at hlast
      refine ⟨uses, last, hlast ▸ htokens, hcurrent ▸ hend, htaken', fun ts hts => ?_⟩
      rw [← hlast] at hts
      cases hts with
      | @cons _ t' _ rest' ht hrests =>
          obtain ⟨q', hmeets⟩ := hgoes.goes.meets_like
            (q := (begun base t' rest' none).spot) hended rfl (.inl rfl) (.cons ht hrests)
          have hread : body (budget (t :: rest).length) (begun base t' rest' none) = _ :=
            hgoes.elsewhere _ _ hmeets
          rw [readTokens_cons, ← hrests.length_eq, ← List.length_cons, hread]
          have htokens' : (begun base t' rest' none).spot.tokens = t' :: rest' := rfl
          rw [htokens']
          cases spoiled? uses (t' :: rest') with
          | some missed => rfl
          | none => rfl

end Parser

/-! ## Parts that are put alone -/

/-- The tokens with a later part of a string put as a string of its own. -/
def aloneAt (i : Nat) (ts : List Spanned) : List Spanned :=
  ts.modify i Spanned.alone

theorem like_refl (ts : List Spanned) : List.Forall₂ Spanned.Like ts ts := by
  induction ts with
  | nil => exact .nil
  | cons t ts ih => exact .cons (.inl rfl) ih

theorem like_aloneAt (i : Nat) (ts : List Spanned) :
    List.Forall₂ Spanned.Like ts (aloneAt i ts) := by
  induction ts generalizing i with
  | nil => cases i <;> exact .nil
  | cons t ts ih =>
      cases i with
      | zero => exact .cons (.inr rfl) (like_refl ts)
      | succ i => exact .cons (.inl rfl) (ih i)

theorem Spanned.alone_ne {t : Spanned} (ht : t.token.IsLater) : t.alone ≠ t := by
  intro h
  obtain ⟨s, hs⟩ := ht.exists_alone
  have htoken : t.token = .text s .whole := by
    rw [← hs]
    exact (congrArg Spanned.token h).symm
  rw [htoken] at ht
  rcases ht with h | h <;> cases h

theorem spoiled?_self (uses : List Use) (behind : List Spanned) :
    spoiled? uses (usedTokens uses ++ behind) = none := by
  induction uses with
  | nil => rfl
  | cons u uses ih =>
      rw [usedTokens, List.map_cons, List.cons_append, spoiled?, if_neg (by simp)]
      exact ih

/-- A part that is put alone is missed exactly where a loop has taken it. -/
theorem spoiled?_aloneAt {uses : List Use} {behind : List Spanned} {i : Nat} {u : Use}
    (hu : uses[i]? = some u) (hlater : u.token.token.IsLater) :
    spoiled? uses (aloneAt i (usedTokens uses ++ behind)) =
      if u.looped then some u.token.start else none := by
  induction uses generalizing i with
  | nil => cases hu
  | cons v uses ih =>
      cases i with
      | zero =>
          cases hu
          have hself := spoiled?_self uses behind
          rw [usedTokens] at hself
          simp only [aloneAt, usedTokens, List.map_cons, List.cons_append, List.modify_zero_cons,
            spoiled?, hself, ne_eq, Spanned.alone_ne hlater, not_false_eq_true, and_true]
      | succ i => simpa [aloneAt, usedTokens, spoiled?] using ih hu

/-! ## Who takes a part -/

/-- The loop of the innermost string that is open in front of a token takes it: from behind the
first part of that string the loop comes in front of the token, and if the token is put alone, the
script is rejected there, with the interpolation still open. -/
structure TakenByLoop (base : Nat) (ts : List Spanned) (i : Nat) : Prop where
  owned : exists b, (openStrings [] ts i).head? = some b ∧ Loops b (ts.drop i)
  needed : forall t, ts[i]? = some t -> Parser.readTokens base (aloneAt i ts) =
    .error (.fault .openInterpolation t.start)

/-- A part is taken for a string of its own: if it is one, the script is read as before. -/
def TakenAlone (base : Nat) (ts : List Spanned) (i : Nat) : Prop :=
  Parser.readTokens base (aloneAt i ts) = Parser.readTokens base ts

/-- The uses of the tokens of a script: strings are complete, and last parts do not stand alone. -/
theorem lastLooped_of_tokenize {source : String} {uses : List Use} {last : Spanned}
    (h : tokenize source = (usedTokens uses ++ [last], none)) (huses : Taken uses [last]) :
    LastLooped uses := by
  have hscans := scans_tokenize source
  rw [h] at hscans
  obtain ⟨words, hwords, hcompletes⟩ := hscans.completes rfl
  rw [List.map_append] at hwords
  obtain ⟨hused, -⟩ := List.append_inj' hwords rfl
  have hnested : WellNested words := hcompletes
  have hcount := count_first_of_interpolations? (hnested.interpolations? 0)
  rw [← hused, List.map_map, usedTokens, List.map_map, Nat.zero_add, Nat.zero_add] at hcount
  exact huses.lastLooped hcount

section Script

variable {base i : Nat} {s : Script} {uses : List Use} {last : Spanned}

/-- What becomes of a later part follows from its use. -/
theorem taken_of_use {u : Use} (htaken : Taken uses [last]) (hlast : LastLooped uses)
    (hread : forall ts, List.Forall₂ Spanned.Like (usedTokens uses ++ [last]) ts ->
      Parser.readTokens base ts =
        match spoiled? uses ts with
        | some p => .error (.fault .openInterpolation p)
        | none => .ok s)
    (hu : uses[i]? = some u) (hlater : u.token.token.IsLater) :
    (u.looped = true -> TakenByLoop base (usedTokens uses ++ [last]) i) ∧
      (u.looped = false -> u.token.token.part = .middle ∧
        TakenAlone base (usedTokens uses ++ [last]) i) := by
  have halone := hread _ (like_aloneAt i _)
  rw [spoiled?_aloneAt hu hlater] at halone
  have htoken : (usedTokens uses ++ [last])[i]? = some u.token := by
    rw [List.getElem?_append_left (by simpa [usedTokens] using (List.getElem?_eq_some_iff.mp hu).1)]
    simp [usedTokens, hu]
  constructor
  · intro hlooped
    refine ⟨(htaken.owned hlast).loops i u hu hlooped, fun t ht => ?_⟩
    cases htoken.symm.trans ht
    rwa [hlooped] at halone
  · intro hlooped
    rw [hlooped] at halone
    refine ⟨hlater.resolve_right fun h => ?_, halone.trans ?_⟩
    · have hboth := hlast u (List.mem_of_getElem? hu) h
      rw [hlooped] at hboth
      cases hboth
    · rw [hread _ (like_refl _), spoiled?_self]
      rfl

/-- A later part of a string is not the end of the script. -/
theorem exists_use {t : Spanned} (hend : last.token = .endOfFile)
    (ht : (usedTokens uses ++ [last])[i]? = some t) (hpart : t.token.part ≠ .whole) :
    exists u, uses[i]? = some u ∧ u.token = t := by
  rcases Nat.lt_or_ge i uses.length with hi | hi
  · rw [List.getElem?_append_left (by simpa [usedTokens] using hi), usedTokens,
      List.getElem?_map] at ht
    exact Option.map_eq_some_iff.mp ht
  · rw [List.getElem?_append_right (by simpa [usedTokens] using hi)] at ht
    have hmem := List.mem_of_getElem? ht
    rw [List.mem_singleton.mp hmem, hend] at hpart
    exact absurd rfl hpart

theorem before_of_spaced {u v : Use} (h : Spaced uses) (hu : uses[i]? = some u)
    (hv : uses[i + 1]? = some v) : u.Before v := by
  obtain ⟨hi, rfl⟩ := List.getElem?_eq_some_iff.mp hu
  obtain ⟨hi', rfl⟩ := List.getElem?_eq_some_iff.mp hv
  exact List.isChain_iff_getElem.mp h.chain i hi'

end Script

/-- A script that compiles is what reading its tokens gives.  Each later part of a string in it is
taken by the loop of its string, or it is a middle part that is taken for a string of its own.  Of
two parts of strings with nothing between them, of which the second one is a later part, one is a
middle part that is taken for a string of its own. -/
theorem later_parts_of_compiled {base : Nat} {name : Option String} {source : String}
    {p : Program} (h : compile base name source = .ok p) :
    exists ts s, tokenize source = (ts, none) ∧ Parser.readTokens base ts = .ok s ∧
      s.program name = p ∧
      (forall i t, ts[i]? = some t -> t.token.IsLater ->
        TakenByLoop base ts i ∨ t.token.part = .middle ∧ TakenAlone base ts i) ∧
      (forall i t u, ts[i]? = some t -> t.token.part = .first ∨ t.token.part = .middle ->
        ts[i + 1]? = some u -> u.token.IsLater ->
          t.token.part = .middle ∧ TakenAlone base ts i ∨
          u.token.part = .middle ∧ TakenAlone base ts (i + 1)) := by
  obtain ⟨s, hparse, hprogram⟩ := compile_eq_ok h
  obtain ⟨uses, last, htokens, hend, htaken, hread⟩ := Parser.parse_uses hparse
  have hlast := lastLooped_of_tokenize htokens htaken
  have hwhole : forall {t : Spanned}, t.token.IsLater -> t.token.part ≠ .whole := by
    rintro t (ht | ht) <;> simp [ht]
  refine ⟨_, s, htokens, (Parser.parse_eq_readTokens htokens).symm.trans hparse, hprogram, ?_, ?_⟩
  · intro i t ht hlater
    obtain ⟨u, hu, rfl⟩ := exists_use hend ht (hwhole hlater)
    obtain ⟨hloop, halone⟩ := taken_of_use htaken hlast hread hu hlater
    cases hlooped : u.looped with
    | true => exact .inl (hloop hlooped)
    | false => exact .inr (halone hlooped)
  · intro i t t' ht hopens ht' hlater
    obtain ⟨v, hv, rfl⟩ := exists_use hend ht' (hwhole hlater)
    cases hlooped : v.looped with
    | false => exact .inr ((taken_of_use htaken hlast hread hv hlater).2 hlooped)
    | true =>
        -- No expression begins in front of what a loop takes, so the part in front is no part of
        -- a loop either.
        obtain ⟨u, hu, rfl⟩ := exists_use hend ht (by rcases hopens with h | h <;> simp [h])
        have hbegins : ¬ u.Begins := fun hu' => by
          have hfree := before_of_spaced htaken.spaced hu hv hu'
          rw [hlooped] at hfree
          cases hfree
        have hmiddle := hopens.resolve_left fun hfirst => hbegins (.inl hfirst)
        have hfree : u.looped = false :=
          Bool.eq_false_iff.mpr fun hloop => hbegins (.inr ⟨hloop, hmiddle⟩)
        exact .inl ((taken_of_use htaken hlast hread hu (.inl hmiddle)).2 hfree)

/-- A string with two interpolations and nothing in them. -/
def emptyInterpolations : String :=
  "echo \"a\x7b\x7db\x7b\x7dc\""

theorem emptyInterpolations_compiles : (compile 0 none emptyInterpolations).isOk = true := by
  decide +kernel

/-- The tokens of the script, where its strings are. -/
theorem emptyInterpolations_parts :
    (tokenize emptyInterpolations).1.map (fun t => t.token.part) =
      [.whole, .first, .middle, .last, .whole] := by
  decide +kernel

theorem emptyInterpolations_part {i : Nat} {part : TextPart}
    (h : [TextPart.whole, .first, .middle, .last, .whole][i]? = some part) :
    exists t, (tokenize emptyInterpolations).1[i]? = some t ∧ t.token.part = part := by
  rw [← emptyInterpolations_parts, List.getElem?_map] at h
  exact Option.map_eq_some_iff.mp h

/-- Of the parts of the string the middle one stands for what is interpolated in front of the last
one, so the loop of the string takes the last part only. -/
theorem emptyInterpolations_taken :
    exists p ts, compile 0 none emptyInterpolations = .ok p ∧
      tokenize emptyInterpolations = (ts, none) ∧ TakenAlone 0 ts 2 ∧ TakenByLoop 0 ts 3 := by
  obtain ⟨p, hp⟩ := exists_of_isOk emptyInterpolations_compiles
  obtain ⟨ts, s, htokens, -, -, htaken, hneighbours⟩ := later_parts_of_compiled hp
  obtain ⟨t, ht, hmiddle⟩ := emptyInterpolations_part (i := 2) rfl
  obtain ⟨u, hu, hlast⟩ := emptyInterpolations_part (i := 3) rfl
  rw [htokens] at ht hu
  refine ⟨p, ts, hp, htokens, ?_, ?_⟩
  · rcases hneighbours 2 t u ht (.inr hmiddle) hu (.inr hlast) with h | ⟨h, -⟩
    · exact h.2
    · cases hlast.symm.trans h
  · rcases htaken 3 u hu (.inr hlast) with h | ⟨h, -⟩
    · exact h
    · cases hlast.symm.trans h

/-- A script with empty interpolations may compile, with a middle part of a string right behind
the first one. -/
theorem emptyInterpolations_pass :
    (compile 0 none emptyInterpolations).isOk = true ∧
      exists t u, (tokenize emptyInterpolations).1[1]? = some t ∧
        (tokenize emptyInterpolations).1[2]? = some u ∧ t.token.part = .first ∧
        u.token.part = .middle := by
  obtain ⟨t, ht, hfirst⟩ := emptyInterpolations_part (i := 1) rfl
  obtain ⟨u, hu, hmiddle⟩ := emptyInterpolations_part (i := 2) rfl
  exact ⟨emptyInterpolations_compiles, t, u, ht, hu, hfirst, hmiddle⟩

end StackScript
