import Mathlib.Data.List.Chain
import StackScript.Proofs.Reading.Uses
import StackScript.Proofs.Token.Nesting

/-!
# How the parts of strings are used

What follows from the uses alone.  If there are as many last parts as first ones, no last part
stands alone; then the strings are open from their first parts to their last ones, and each part
that a loop takes is taken by the loop of the innermost string that is open.  Behind a first part
and behind a middle part that a loop has taken an expression begins, so no loop takes the token
that follows.
-/

namespace StackScript

/-! ## Open strings -/

/-- The strings that are open behind a token.  A string is given by the tokens behind its first
part, and the innermost string comes first. -/
def openBehind (t : Spanned) (rest : List Spanned) (open_ : List (List Spanned)) :
    List (List Spanned) :=
  match t.token.part with
  | .first => rest :: open_
  | .last => open_.tail
  | _ => open_

/-- The strings that are open in front of a token, given by its number. -/
def openStrings (open_ : List (List Spanned)) : List Spanned -> Nat -> List (List Spanned)
  | _, 0 => open_
  | [], _ => open_
  | t :: ts, i + 1 => openStrings (openBehind t ts open_) ts i

/-- Behind the first part of a string the loop reads an expression, takes a middle part, reads the
next expression, and so on, and then stands in front of the second tokens. -/
inductive Loops (ts : List Spanned) : List Spanned -> Prop where
  | first {ts' : List Spanned} : Reads ts ts' -> Loops ts ts'
  | next {t : Spanned} {rest ts' : List Spanned} : Loops ts (t :: rest) ->
      t.token.part = .middle -> Reads rest ts' -> Loops ts ts'

/-- The loops of open strings take the parts that they should take.  The strings that are open in
front of the uses and behind them are given. -/
structure Owned (open_ open' : List (List Spanned)) (uses : List Use) (behind : List Spanned) :
    Prop where
  stack : forall n, openStrings open_ (usedTokens uses ++ behind) (uses.length + n) =
    openStrings open' behind n
  loops : forall i u, uses[i]? = some u -> u.looped = true ->
    exists b, (openStrings open_ (usedTokens uses ++ behind) i).head? = some b ∧
      Loops b ((usedTokens uses ++ behind).drop i)

namespace Owned

variable {open_ open' open'' : List (List Spanned)} {uses uses' : List Use}
  {behind : List Spanned} {u : Use}

theorem nil : Owned open_ open_ [] behind :=
  ⟨fun n => by simp [usedTokens], by simp⟩

theorem cons (h : Owned (openBehind u.token (usedTokens uses ++ behind) open_) open' uses behind)
    (hu : u.looped = true -> exists b, open_.head? = some b ∧
      Loops b (u.token :: (usedTokens uses ++ behind))) : Owned open_ open' (u :: uses) behind where
  stack := by
    intro n
    rw [← h.stack n, List.length_cons, Nat.add_right_comm]
    rfl
  loops := by
    intro i v hv hlooped
    cases i with
    | zero =>
        cases hv
        exact hu hlooped
    | succ i => exact h.loops i v hv hlooped

theorem append (h : Owned open_ open' uses (usedTokens uses' ++ behind))
    (h' : Owned open' open'' uses' behind) : Owned open_ open'' (uses ++ uses') behind where
  stack := by
    intro n
    rw [usedTokens_append, List.append_assoc, List.length_append, Nat.add_assoc, h.stack,
      h'.stack]
  loops := by
    intro i v hv hlooped
    rw [usedTokens_append, List.append_assoc]
    rcases Nat.lt_or_ge i uses.length with hi | hi
    · rw [List.getElem?_append_left hi] at hv
      exact h.loops i v hv hlooped
    · obtain ⟨k, rfl⟩ := Nat.exists_eq_add_of_le hi
      rw [List.getElem?_append_right hi, Nat.add_sub_cancel_left] at hv
      have hlength : (usedTokens uses).length = uses.length := List.length_map _
      rw [h.stack, List.drop_append, hlength, Nat.add_sub_cancel_left,
        List.drop_eq_nil_of_le (by omega), List.nil_append]
      exact h'.loops k v hv hlooped

end Owned

/-- No last part of a string stands alone. -/
def LastLooped (uses : List Use) : Prop :=
  forall u, u ∈ uses -> u.token.token.part = .last -> u.looped = true

theorem LastLooped.append {uses uses' : List Use} (h : LastLooped (uses ++ uses')) :
    LastLooped uses ∧ LastLooped uses' :=
  ⟨fun u hu => h u (List.mem_append_left _ hu), fun u hu => h u (List.mem_append_right _ hu)⟩

theorem LastLooped.tail {u : Use} {uses : List Use} (h : LastLooped (u :: uses)) :
    LastLooped uses :=
  fun v hv => h v (List.mem_cons_of_mem u hv)

mutual

theorem Taken.owned : forall {uses : List Use} {behind : List Spanned}
    {open_ : List (List Spanned)}, Taken uses behind -> LastLooped uses ->
    Owned open_ open_ uses behind
  | _, _, _, .nil, _ => .nil
  | _, _, _, .plain (t := t) ht h, hlast => by
      refine .cons ?_ nofun
      rw [openBehind, ht]
      exact h.owned hlast.tail
  | _, _, _, .stray (t := t) ht h, hlast => by
      refine .cons ?_ nofun
      rcases ht with hmiddle | hstray
      · rw [openBehind, hmiddle]
        exact h.owned hlast.tail
      · cases hlast ⟨t, false⟩ List.mem_cons_self hstray
  | _, _, _, .string (t := t) ht hinner h, hlast => by
      refine .cons ?_ nofun
      rw [openBehind, ht, usedTokens_append, List.append_assoc]
      exact (hinner.owned (fun _ => .first) hlast.tail.append.1).append
        (h.owned hlast.tail.append.2)

theorem Continued.owned : forall {uses : List Use} {behind b : List Spanned}
    {open_ : List (List Spanned)}, Continued uses behind ->
    (forall ts', Reads (usedTokens uses ++ behind) ts' -> Loops b ts') -> LastLooped uses ->
    Owned (b :: open_) open_ uses behind
  | _, _, b, open_, .last (t := t) hsegment _ hreads ht, hloops, hlast => by
      refine (hsegment.owned hlast.append.1).append (.cons ?_ fun _ => ⟨b, rfl, ?_⟩)
      · rw [openBehind, ht]
        exact .nil
      · refine hloops _ ?_
        rw [usedTokens_append, List.append_assoc]
        exact hreads
  | _, _, b, open_, .middle (t := t) hsegment _ hreads ht hrest, hloops, hlast => by
      have hpart := hloops _ (by rw [usedTokens_append, List.append_assoc]; exact hreads)
      refine (hsegment.owned hlast.append.1).append (.cons ?_ fun _ => ⟨b, rfl, hpart⟩)
      rw [openBehind, ht]
      exact hrest.owned (fun _ => .next hpart ht) hlast.append.2.tail

end

/-! ## Counting parts -/

def usedParts (uses : List Use) : List TextPart :=
  uses.map fun u => u.token.token.part

def strayLasts (uses : List Use) : Nat :=
  uses.countP fun u => u.token.token.part = .last && !u.looped

/-- Following the open interpolations counts the parts that open and close them. -/
theorem count_first_of_interpolations? {ts : List Token} {m n : Nat}
    (h : ts.foldlM Token.interpolations? m = some n) :
    m + (ts.map Token.part).count .first = n + (ts.map Token.part).count .last := by
  induction ts generalizing m with
  | nil =>
      cases h
      rfl
  | cons t ts ih =>
      rw [List.foldlM_cons] at h
      rcases Option.bind_eq_some_iff.mp h with ⟨k, hk, hrest⟩
      have hcount := ih hrest
      rw [List.map_cons, List.count_cons, List.count_cons]
      cases t with
      | text s part =>
          cases part with
          | whole =>
              cases hk
              exact hcount
          | first =>
              cases hk
              simp only [Token.part]
              simp
              omega
          | middle =>
              simp only [Token.interpolations?, Option.ite_none_left_eq_some] at hk
              cases hk.2
              exact hcount
          | last =>
              simp only [Token.interpolations?, Option.ite_none_left_eq_some,
                Option.some.injEq] at hk
              simp only [Token.part]
              simp
              omega
      | _ =>
          cases hk
          exact hcount

mutual

theorem Taken.count_last : forall {uses : List Use} {behind : List Spanned}, Taken uses behind ->
    (usedParts uses).count .last = (usedParts uses).count .first + strayLasts uses
  | _, _, .nil => rfl
  | _, _, .plain ht h => by
      have hcount := h.count_last
      simp only [usedParts, strayLasts, List.map_cons, ht] at hcount ⊢
      simp [ht, hcount]
  | _, _, .stray (.inl ht) h => by
      have hcount := h.count_last
      simp only [usedParts, strayLasts, List.map_cons, ht] at hcount ⊢
      simp [ht, hcount]
  | _, _, .stray (.inr ht) h => by
      have hcount := h.count_last
      simp only [usedParts, strayLasts, List.map_cons, ht] at hcount ⊢
      simp [ht, hcount]
      omega
  | _, _, .string ht hinner h => by
      have hcount := h.count_last
      have hloop := hinner.count_last
      simp only [usedParts, strayLasts, List.map_cons, ht, List.map_append] at hcount hloop ⊢
      simp [ht]
      omega

theorem Continued.count_last : forall {uses : List Use} {behind : List Spanned},
    Continued uses behind ->
    (usedParts uses).count .last = (usedParts uses).count .first + strayLasts uses + 1
  | _, _, .last hsegment _ _ ht => by
      have hcount := hsegment.count_last
      simp only [usedParts, strayLasts, List.map_append, List.map_cons, ht] at hcount ⊢
      simp [hcount]
  | _, _, .middle hsegment _ _ ht h => by
      have hcount := hsegment.count_last
      have hloop := h.count_last
      simp only [usedParts, strayLasts, List.map_append, List.map_cons, ht] at hcount hloop ⊢
      simp
      omega

end

/-- Where there are as many last parts as first ones, each last part is taken by a loop. -/
theorem Taken.lastLooped {uses : List Use} {behind : List Spanned} (h : Taken uses behind)
    (hcount : (usedParts uses).count .first = (usedParts uses).count .last) :
    LastLooped uses := by
  have hstray : strayLasts uses = 0 := by
    have := h.count_last
    omega
  intro u hu hlast
  simpa [hlast] using List.countP_eq_zero.mp hstray u hu

/-! ## Neighbours -/

/-- An expression begins behind a first part and behind a middle part that a loop has taken. -/
def Use.Begins (u : Use) : Prop :=
  u.token.token.part = .first ∨ (u.looped = true ∧ u.token.token.part = .middle)

/-- No loop takes a token where an expression begins. -/
def Use.Before (u v : Use) : Prop :=
  u.Begins -> v.looped = false

/-- Uses with an expression wherever one begins. -/
structure Spaced (uses : List Use) : Prop where
  chain : uses.IsChain Use.Before
  head : forall u, u ∈ uses.head? -> u.looped = false
  last : forall u, u ∈ uses.getLast? -> ¬ u.Begins

namespace Spaced

variable {u : Use} {uses uses' : List Use}

theorem nil : Spaced [] :=
  ⟨.nil, nofun, nofun⟩

theorem cons (h : Spaced uses) (hu : u.looped = false) (hbegins : uses = [] -> ¬ u.Begins) :
    Spaced (u :: uses) where
  chain := List.isChain_cons.mpr ⟨fun v hv _ => h.head v hv, h.chain⟩
  head := by
    rintro v hv
    cases hv
    exact hu
  last := by
    cases uses with
    | nil =>
        rintro v hv
        cases hv
        exact hbegins rfl
    | cons v uses =>
        rw [List.getLast?_cons_cons]
        exact h.last

theorem append (h : Spaced uses) (h' : Spaced uses') : Spaced (uses ++ uses') where
  chain := List.isChain_append.mpr ⟨h.chain, h'.chain, fun u hu _ _ hbegins =>
    absurd hbegins (h.last u hu)⟩
  head := by
    cases uses with
    | nil => exact h'.head
    | cons v uses => exact h.head
  last := by
    intro v hv
    rw [List.getLast?_append] at hv
    cases hlast : uses'.getLast? with
    | none =>
        rw [hlast] at hv
        exact h.last v hv
    | some w =>
        rw [hlast] at hv
        cases hv
        exact h'.last _ hlast

/-- An interpolation, the part behind it and what the loop takes then. -/
theorem loop (h : Spaced uses) (hne : uses ≠ []) (h' : Spaced uses')
    (hbegins : uses' = [] -> ¬ u.Begins) : Spaced (uses ++ u :: uses') where
  chain := List.isChain_append.mpr ⟨h.chain,
    List.isChain_cons.mpr ⟨fun v hv _ => h'.head v hv, h'.chain⟩,
    fun v hv _ _ hopen => absurd hopen (h.last v hv)⟩
  head := by
    cases uses with
    | nil => exact absurd rfl hne
    | cons v uses => exact h.head
  last := by
    intro v hv
    rw [List.getLast?_append] at hv
    cases uses' with
    | nil =>
        cases hv
        exact hbegins rfl
    | cons w uses' =>
        refine h'.last v ?_
        rw [List.getLast?_cons_cons] at hv
        cases hlast : (w :: uses').getLast? with
        | none => simp at hlast
        | some x =>
            rw [hlast] at hv
            exact hv

end Spaced

theorem Continued.ne_nil {uses : List Use} {behind : List Spanned} (h : Continued uses behind) :
    uses ≠ [] := by
  cases h <;> simp

theorem not_begins {t : Spanned} {looped : Bool} (hfirst : t.token.part ≠ .first)
    (hmiddle : looped = true -> t.token.part ≠ .middle) : ¬ Use.Begins ⟨t, looped⟩ := by
  rintro (h | ⟨hlooped, h⟩)
  · exact hfirst h
  · exact hmiddle hlooped h

mutual

theorem Taken.spaced : forall {uses : List Use} {behind : List Spanned}, Taken uses behind ->
    Spaced uses
  | _, _, .nil => .nil
  | _, _, .plain ht h =>
      h.spaced.cons rfl fun _ => not_begins (by simp [ht]) nofun
  | _, _, .stray ht h => by
      refine h.spaced.cons rfl fun _ => not_begins ?_ nofun
      rcases ht with ht | ht <;> simp [ht]
  | _, _, .string _ hinner h => by
      refine (hinner.spaced.append h.spaced).cons rfl fun hnil => ?_
      exact absurd (List.append_eq_nil_iff.mp hnil).1 hinner.ne_nil

theorem Continued.spaced : forall {uses : List Use} {behind : List Spanned},
    Continued uses behind -> Spaced uses
  | _, _, .last hsegment hne _ ht =>
      hsegment.spaced.loop hne .nil fun _ => not_begins (by simp [ht]) (by simp [ht])
  | _, _, .middle hsegment hne _ _ h =>
      hsegment.spaced.loop hne h.spaced fun hnil => absurd hnil h.ne_nil

end

end StackScript
