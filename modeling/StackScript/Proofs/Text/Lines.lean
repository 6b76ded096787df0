import Mathlib.Data.List.Induction
import StackScript.Proofs.Token.Spans
import StackScript.Text.Lines

/-!
# A line of a text and what stands around it

The lines of a text come from cutting it at its newlines.  Here a line is said of its place: it
begins at the beginning of the text or behind a newline, and it goes on to its end, which is a
newline, a carriage return with a newline behind it, or the end of the text.  The two agree: the
number of a line is the number of newlines in front of it.
-/

namespace StackScript
namespace Text

/-! ## Where a line ends -/

/-- What stands behind a line.  A carriage return belongs to the end of the line if a newline comes
next, and to the line otherwise. -/
inductive LineEnd : List Char -> List Char -> Prop where
  | text {line : List Char} : LineEnd line []
  | newline {line more : List Char} : line.getLast? ≠ some '\r' -> LineEnd line ('\n' :: more)
  | return_ {line more : List Char} : LineEnd line ('\r' :: '\n' :: more)

/-- A text stands between two others as a line of the three together. -/
structure IsLine (front line behind : List Char) : Prop where
  starts : front = [] ∨ front.getLast? = some '\n'
  inside : '\n' ∉ line
  ends : LineEnd line behind

section Ends

variable {c : Char} {left line right behind : List Char}

theorem LineEnd.tail (h : LineEnd (c :: line) behind) : LineEnd line behind := by
  cases h with
  | text => exact .text
  | newline hlast =>
      apply LineEnd.newline
      intro hline
      apply hlast
      rw [List.getLast?_cons, hline]
      rfl
  | return_ => exact .return_

/-- No line end begins in a line. -/
theorem LineEnd.not_return (h : LineEnd (c :: line) behind) (hline : '\n' ∉ line) :
    ¬ (c = '\r' ∧ (line ++ behind).head? = some '\n') := by
  rintro ⟨rfl, hhead⟩
  cases line with
  | cons d line =>
      cases hhead
      exact hline List.mem_cons_self
  | nil =>
      cases h with
      | text => cases hhead
      | newline hlast => exact hlast rfl
      | return_ => cases hhead

theorem LineEnd.cons (h : LineEnd line behind)
    (hc : ¬ (c = '\r' ∧ (line ++ behind).head? = some '\n')) : LineEnd (c :: line) behind := by
  cases h with
  | text => exact .text
  | return_ => exact .return_
  | @newline more hlast =>
      apply LineEnd.newline
      cases line with
      | nil =>
          intro hreturn
          exact hc ⟨Option.some.inj hreturn, rfl⟩
      | cons d line => rwa [List.getLast?_cons_cons]

theorem LineEnd.append_left (h : LineEnd right behind) (hright : right = [] -> behind = []) :
    LineEnd (left ++ right) behind := by
  cases h with
  | text => exact .text
  | return_ => exact .return_
  | @newline more hlast =>
      apply LineEnd.newline
      cases right with
      | nil => cases hright rfl
      | cons d right => simpa [List.getLast?_append, List.getLast?_cons] using hlast

/-- Any text goes on to the end of its first line. -/
theorem exists_lineEnd (text : List Char) :
    exists line behind, text = line ++ behind ∧ '\n' ∉ line ∧ LineEnd line behind := by
  fun_induction linesOf text with
  | case1 => exact ⟨[], [], rfl, List.not_mem_nil, .text⟩
  | case2 cs => exact ⟨[], _, rfl, List.not_mem_nil, .newline (by simp)⟩
  | case3 cs => exact ⟨[], _, rfl, List.not_mem_nil, .return_⟩
  | case4 c cs hnewline hreturn _ ih | case5 c cs hnewline hreturn _ _ _ ih =>
      obtain ⟨line, behind, rfl, hline, hend⟩ := ih
      refine ⟨c :: line, behind, rfl, ?_, hend.cons ?_⟩
      · simp [hline, Ne.symm hnewline]
      · rintro ⟨rfl, hhead⟩
        obtain ⟨more, hmore⟩ := List.head?_eq_some_iff.mp hhead
        exact hreturn more rfl hmore

/-- Any text is in its last line at its end. -/
theorem exists_lineStart (text : List Char) : exists front line, text = front ++ line ∧
    (front = [] ∨ front.getLast? = some '\n') ∧ '\n' ∉ line := by
  induction text using List.reverseRecOn with
  | nil => exact ⟨[], [], rfl, .inl rfl, List.not_mem_nil⟩
  | append_singleton text c ih =>
      obtain ⟨front, line, rfl, hfront, hline⟩ := ih
      by_cases hc : c = '\n'
      · exact ⟨front ++ line ++ [c], [], by simp, .inr (by simp [hc]), List.not_mem_nil⟩
      · exact ⟨front, line ++ [c], by simp, hfront, by simp [hline, Ne.symm hc]⟩

/-- Any place of a text that is not right in front of the end of a line is in a line.  What stands
behind the place begins with the rest of that line. -/
theorem exists_line (before after : List Char)
    (hafter : forall c, after.head? = some c -> c ≠ '\n' ∧ c ≠ '\r') :
    exists front left right behind, before = front ++ left ∧ after = right ++ behind ∧
      IsLine front (left ++ right) behind ∧ right.head? = after.head? := by
  obtain ⟨front, left, hbefore, hfront, hleft⟩ := exists_lineStart before
  obtain ⟨right, behind, hsplit, hright, hend⟩ := exists_lineEnd after
  have hempty : right = [] -> behind = [] := by
    rintro rfl
    rw [List.nil_append] at hsplit
    subst hsplit
    cases hend with
    | text => rfl
    | newline => exact absurd rfl (hafter _ rfl).1
    | return_ => exact absurd rfl (hafter _ rfl).2
  refine ⟨front, left, right, behind, hbefore, hsplit, ?_, ?_⟩
  · exact ⟨hfront, by simp [hleft, hright], hend.append_left hempty⟩
  · cases right with
    | nil => rw [hsplit, hempty rfl, List.append_nil]
    | cons c right => rw [hsplit, List.cons_append, List.head?_cons, List.head?_cons]

end Ends

/-! ## The lines in front -/

section Lines

variable {c : Char} {front left line right behind cs : List Char}

/-- A character that ends no line belongs to the first one. -/
theorem linesOf_cons (hc : c ≠ '\n') (hreturn : ¬ (c = '\r' ∧ cs.head? = some '\n')) :
    linesOf (c :: cs) = (c :: (linesOf cs).headD []) :: (linesOf cs).tail := by
  rw [linesOf]
  · cases linesOf cs <;> rfl
  · exact hc
  · rintro more rfl rfl
    exact hreturn ⟨rfl, rfl⟩

theorem head?_linesOf (hline : '\n' ∉ line) (hend : LineEnd line behind) :
    (linesOf (line ++ behind)).head? = if line ++ behind = [] then none else some line := by
  induction line with
  | nil =>
      cases hend with
      | text => rfl
      | newline => rfl
      | return_ => rfl
  | cons c line ih =>
      rw [List.mem_cons, not_or] at hline
      rw [List.cons_append, linesOf_cons (Ne.symm hline.1) (hend.not_return hline.2),
        if_neg (List.cons_ne_nil _ _), List.head?_cons, List.headD_eq_head?_getD,
        ih hline.2 hend.tail]
      split
      case isTrue hnil => rw [(List.append_eq_nil_iff.mp hnil).1, Option.getD_none]
      case isFalse => rw [Option.getD_some]

/-- Lines that are complete are there whatever comes next, and each of them has one newline. -/
theorem linesOf_append (rest : List Char) (hfront : front = [] ∨ front.getLast? = some '\n') :
    linesOf (front ++ rest) = linesOf front ++ linesOf rest ∧
      (linesOf front).length = front.count '\n' := by
  have hlater : forall {d : Char} {cs : List Char},
      (d :: cs) = [] ∨ (d :: cs).getLast? = some '\n' -> cs = [] ∨ cs.getLast? = some '\n' := by
    intro d cs h
    cases cs with
    | nil => exact .inl rfl
    | cons e cs => exact .inr (by simpa using h)
  fun_induction linesOf front with
  | case1 => exact ⟨rfl, rfl⟩
  | case2 cs ih =>
      obtain ⟨happend, hlength⟩ := ih (hlater hfront)
      rw [List.cons_append, linesOf, happend]
      simp [hlength]
  | case3 cs ih =>
      obtain ⟨happend, hlength⟩ := ih (hlater (hlater hfront))
      rw [List.cons_append, List.cons_append, linesOf, happend]
      simp [hlength]
  | case4 c cs hnewline hreturn hnone ih =>
      obtain ⟨-, hlength⟩ := ih (hlater hfront)
      -- The newline at the end of the text is the end of a line.
      have hlast : cs.getLast? = some '\n' := by
        cases cs with
        | nil => exact absurd (by simpa using hfront) hnewline
        | cons d cs => simpa using hfront
      have hmem := List.mem_of_getLast? hlast
      rw [hnone, List.length_nil] at hlength
      exact absurd (List.count_pos_iff.mpr hmem) (by lia)
  | case5 c cs hnewline hreturn first more hsome ih =>
      obtain ⟨happend, hlength⟩ := ih (hlater hfront)
      have hhead : ¬ (c = '\r' ∧ (cs ++ rest).head? = some '\n') := by
        rintro ⟨rfl, hhead⟩
        cases cs with
        | nil => cases hsome
        | cons d cs =>
            cases hhead
            exact hreturn cs rfl rfl
      rw [List.cons_append, linesOf_cons hnewline hhead, happend, hsome]
      rw [hsome, List.length_cons] at hlength
      simp [← hlength, List.count_cons_of_ne hnewline]

/-- A line is the one with as many lines in front of it as there are newlines. -/
theorem IsLine.getElem?_linesOf (h : IsLine front line behind) :
    (linesOf (front ++ line ++ behind))[front.count '\n']? =
      if line ++ behind = [] then none else some line := by
  obtain ⟨happend, hlength⟩ := linesOf_append (line ++ behind) h.starts
  rw [List.append_assoc, happend, ← hlength, List.getElem?_append_right (Nat.le_refl _),
    Nat.sub_self, ← List.head?_eq_getElem?, head?_linesOf h.inside h.ends]

/-- The row of a place in a line is the number of that line, and the column is the number of
characters of the line in front of it. -/
theorem IsLine.position (h : IsLine front (left ++ right) behind) :
    (Position.behind (front ++ left)).row = front.count '\n' ∧
      (Position.behind (front ++ left)).column = left.length := by
  have hleft : '\n' ∉ left := fun hmem => h.inside (List.mem_append_left _ hmem)
  constructor
  · rw [Position.behind, List.count_append, List.count_eq_zero.mpr hleft, Nat.add_zero]
  · have hstart : front.reverse.takeWhile (· != '\n') = [] := by
      rcases h.starts with rfl | hlast
      · rfl
      · obtain ⟨more, rfl⟩ := List.getLast?_eq_some_iff.mp hlast
        simp
    rw [Position.behind, List.reverse_append, List.takeWhile_append_of_pos, hstart]
    · simp
    · intro c hc
      rw [bne_iff_ne]
      rintro rfl
      exact hleft (List.mem_reverse.mp hc)

end Lines
end Text
end StackScript
