import StackScript.Listing
import StackScript.Proofs.Collections.Items
import StackScript.Proofs.Loops
import StackScript.Proofs.Machine.Increment

/-!
# Where jumps lead

A listing shows for each jump the index that it leads to.  Whether a jump is taken can be read off
the stack and the heap before the instruction is carried out.  A jump that is taken leads to the
index in the listing, and fails if the listing has none; a jump that is not taken goes on behind
itself.  This holds of any code, compiled or not.  In compiled code all these indices are indices of
instructions, and the listing marks their lines.
-/

namespace StackScript

/-! ## Which way an instruction goes -/

def Instr.jumps : Instr -> Bool
  | jump _ | jumpIfFalse _ | jumpIfTrue _ | loop _ | forBegin _ _ _ | forNext _ _ _ => true
  | _ => false

/-- The number of values that the variables of a loop receive. -/
def received (vars : Nat) : Nat :=
  if vars = 1 then 1 else 2

/-- Whether a jump of the innermost call is taken.  It is undecided where the instruction fails
before it comes to that, because a value or a slot is missing or is none to iterate over. -/
def Machine.branch? (m : Machine) (f : Frame) : Instr -> Option Bool
  | .jump _ | .loop _ => some true
  | .jumpIfFalse _ => m.stack.back?.map m.heap.falsy
  | .jumpIfTrue _ => m.stack.back?.map fun v => !m.heap.falsy v
  | .forBegin slot _ _ =>
    match m.stack[f.base + slot]? with
    | some object =>
      if object.iterable then some (m.heap.itemAt m.heap object 0).isNone else none
    | none => none
  | .forNext slot vars _ =>
    match m.stack[f.base + slot]?, m.stack[f.base + (slot + 1)]?, m.stack[f.base + (slot + 2)]? with
    | some object, some keys, some (.integer n) =>
      if (m.heap.iteration object keys (n.toUInt64 + 1).toNat).isNone then
        some false
      else if f.base + (slot + 3) + received vars <= m.stack.size then
        some true
      else
        none
    | _, _, _ => none
  | _ => none

theorem length_received (object key value : Value) (vars : Nat) :
    (loopVariables object vars key value).length = received vars := by
  unfold received
  by_cases hvars : vars = 1
  · subst hvars
    cases object <;> rfl
  · rw [if_neg hvars]
    unfold loopVariables
    split
    · exact absurd rfl hvars
    · exact absurd rfl hvars
    · rfl

/-- A new iteration has the first item of its collection. -/
theorem Heap.iteration_begun {h : Heap} {object : Value} (hobject : object.iterable = true) :
    (h.keep object).2.iteration object (h.keep object).1 0 = h.itemAt h object 0 := by
  cases object with
  | array id => rfl
  | table id =>
      simp only [Heap.keep, Heap.newArray, Heap.iteration, Heap.itemAt, Heap.items, Heap.sortedKeys]
      simp
      rfl
  | text s =>
      simp only [Heap.keep, Heap.newArray, Heap.iteration, Heap.itemAt, Heap.items, characters]
      simp
      rfl
  | _ => cases hobject

/-! ## Carrying a jump out -/

namespace Exec

section Steps

variable {m m' : Machine} {f : Frame} {rest : List Frame} {i : Instr} {slot vars offset : Nat}

/-- The innermost call goes on at an index, or fails for want of one. -/
def arrive (f : Frame) (rest : List Frame) (m : Machine) :
    Option Nat -> EStateM.Result Raised Machine Unit
  | some t => .ok () { m with frames := { f with ip := t } :: rest }
  | none => .error (.fault .jumpBeforeStart) m

theorem jumpForward_arrives (hf : m.frames = { f with ip := f.ip + 1 } :: rest) :
    jumpForward offset m = arrive f rest m (some (f.ip + 1 + offset)) :=
  jumpForward_apply hf

theorem jumpBack_arrives (hf : m.frames = { f with ip := f.ip + 1 } :: rest) :
    jumpBack offset m =
      arrive f rest m (if offset <= f.ip + 1 then some (f.ip + 1 - offset) else none) := by
  by_cases hle : offset <= f.ip + 1
  · rw [if_pos hle]
    exact jumpBack_apply hf hle
  · unfold jumpBack
    rw [bind_ok (frame_apply hf), if_neg hle, if_neg hle]
    rfl

theorem topIsFalsy_apply {v : Value} (hv : m.stack.back? = some v) :
    topIsFalsy m = .ok (m.heap.falsy v) m := by
  rcases Array.back?_eq_some_iff.mp hv with ⟨s, hs⟩
  unfold topIsFalsy
  rw [bind_ok (peek_zero_apply hs)]
  rfl

theorem topIsFalsy_error (hv : m.stack.back? = none) :
    topIsFalsy m = .error (.fault .stackUnderflow) m := by
  have hempty : m.stack = #[] := Array.back?_eq_none_iff.mp hv
  unfold topIsFalsy peek
  rw [bind_error]
  rw [bind_ok get_apply, if_neg (by simp [hempty])]
  rfl

/-- Writing into slots that are there does not fail. -/
theorem setLocals_ok {vs : List Value} (hf : m.frames = f :: rest)
    (hslots : f.base + slot + vs.length <= m.stack.size) :
    exists m', setLocals slot vs m = .ok () m' ∧ m'.frames = m.frames := by
  induction vs generalizing m slot with
  | nil => exact ⟨m, rfl, rfl⟩
  | cons v vs ih =>
      rw [List.length_cons] at hslots
      rw [setLocals, bind_ok (setLocal_apply hf (by lia))]
      exact ih hf (by simp; lia)

/-- Writing fails if one of the slots is not there. -/
theorem setLocals_error {vs : List Value} (hf : m.frames = f :: rest) (hvs : vs ≠ [])
    (hslots : m.stack.size < f.base + slot + vs.length) :
    exists m', setLocals slot vs m = .error (.fault .stackUnderflow) m' := by
  induction vs generalizing m slot with
  | nil => exact absurd rfl hvs
  | cons v vs ih =>
      rw [List.length_cons] at hslots
      by_cases hslot : f.base + slot < m.stack.size
      · have hmore : vs ≠ [] := by
          rintro rfl
          rw [List.length_nil] at hslots
          lia
        rw [setLocals, bind_ok (setLocal_apply hf hslot)]
        exact ih hf hmore (by simp; lia)
      · refine ⟨m, ?_⟩
        rw [setLocals, bind_error]
        unfold setLocal
        rw [bind_ok (frame_apply hf), bind_ok get_apply, if_neg hslot]
        rfl

/-- An iteration that has another item writes it into its variables, if their slots are there. -/
theorem continueIteration_writes (vars offset : Nat) {object keys : Value} {n : Int64}
    {item : Value × Value}
    (hf : m.frames = { f with ip := f.ip + 1 } :: rest) (h : Iterating f slot object keys n m)
    (hitem : m.heap.iteration object keys (n.toUInt64 + 1).toNat = some item) :
    exists m', m'.frames = m.frames ∧ m'.stack.size = m.stack.size ∧
      continueIteration slot vars offset m =
        (setLocals (slot + 3) (loopVariables object vars item.1 item.2) >>= fun _ =>
          jumpBack offset) m' := by
  have hlt : f.base + (slot + 2) < m.stack.size := (Array.getElem?_eq_some_iff.mp h.index).1
  generalize hi : (n.toUInt64 + 1).toNat = index at hitem
  refine ⟨{ m with
    stack := m.stack.setIfInBounds (f.base + (slot + 2)) (.integer (Int64.ofNat index)) },
    rfl, Array.size_setIfInBounds, ?_⟩
  unfold continueIteration
  rw [bind_ok (getLocal_apply hf h.object), bind_ok (getLocal_apply hf h.keys),
    bind_ok (getLocal_apply hf h.index),
    bind_ok (show nextIndex (.integer n) m = .ok index m by rw [← hi]; rfl),
    bind_ok (setLocal_apply hf hlt), bind_ok get_apply]
  simp only [hitem]

/-- A jump that is taken arrives where its target is. -/
theorem step_taken (hf : m.frames = { f with ip := f.ip + 1 } :: rest)
    (hb : m.branch? f i = some true) :
    exists m', step i m = arrive f rest m' (i.jumpTarget? f.ip) := by
  cases i with
  | jump offset => exact ⟨m, jumpForward_arrives hf⟩
  | loop offset => exact ⟨m, jumpBack_arrives hf⟩
  | jumpIfFalse offset =>
      rcases Option.map_eq_some_iff.mp hb with ⟨v, hv, hfalsy⟩
      refine ⟨m, ?_⟩
      rw [step, bind_ok (topIsFalsy_apply hv), hfalsy]
      exact jumpForward_arrives hf
  | jumpIfTrue offset =>
      rcases Option.map_eq_some_iff.mp hb with ⟨v, hv, hfalsy⟩
      refine ⟨m, ?_⟩
      rw [step, bind_ok (topIsFalsy_apply hv), hfalsy]
      exact jumpForward_arrives hf
  | forBegin slot vars offset =>
      simp only [Machine.branch?] at hb
      split at hb
      case h_1 object hobject =>
        split at hb
        case isTrue hiterable =>
          have hnone : m.heap.itemAt m.heap object 0 = none := by simpa using hb
          rw [← Heap.iteration_begun hiterable] at hnone
          exact ⟨{ m with
            heap := (m.heap.keep object).2
            stack := begun m object ++ (List.replicate vars Value.none).toArray },
            beginIteration_none hf hobject hiterable hnone⟩
        case isFalse => cases hb
      case h_2 => cases hb
  | forNext slot vars offset =>
      simp only [Machine.branch?] at hb
      split at hb
      case h_1 object keys n hobject hkeys hindex =>
        split at hb
        case isTrue => cases hb
        case isFalse hmore =>
          split at hb
          case isFalse => cases hb
          case isTrue hslots =>
            have hsome := Option.isSome_iff_ne_none.mpr
              (fun hover => hmore (Option.isNone_iff_eq_none.mpr hover))
            rcases Option.isSome_iff_exists.mp hsome with ⟨item, hitem⟩
            rcases continueIteration_writes vars offset hf
              ⟨hobject, hkeys, hindex⟩ hitem with ⟨m1, hframes, hsize, hstep⟩
            have hroom : f.base + (slot + 3) +
                (loopVariables object vars item.1 item.2).length <= m1.stack.size := by
              rw [length_received, hsize]
              exact hslots
            rcases setLocals_ok (hframes.trans hf) hroom with ⟨m2, hset, hframes'⟩
            refine ⟨m2, ?_⟩
            rw [step, hstep, bind_ok hset]
            exact jumpBack_arrives (hframes'.trans (hframes.trans hf))
      case h_2 => cases hb
  | _ => cases hb

/-- A jump that is not taken leaves its call behind itself. -/
theorem step_passed (hf : m.frames = { f with ip := f.ip + 1 } :: rest)
    (hb : m.branch? f i = some false) :
    exists m', step i m = .ok () m' ∧ m'.frames = m.frames := by
  cases i with
  | jumpIfFalse offset =>
      rcases Option.map_eq_some_iff.mp hb with ⟨v, hv, hfalsy⟩
      refine ⟨m, ?_, rfl⟩
      rw [step, bind_ok (topIsFalsy_apply hv), hfalsy]
      rfl
  | jumpIfTrue offset =>
      rcases Option.map_eq_some_iff.mp hb with ⟨v, hv, hfalsy⟩
      refine ⟨m, ?_, rfl⟩
      rw [step, bind_ok (topIsFalsy_apply hv), hfalsy]
      rfl
  | forBegin slot vars offset =>
      simp only [Machine.branch?] at hb
      split at hb
      case h_1 object hobject =>
        split at hb
        case isTrue hiterable =>
          rcases Option.isSome_iff_exists.mp (by simpa using hb) with ⟨item, hitem⟩
          rw [← Heap.iteration_begun hiterable] at hitem
          exact ⟨_, beginIteration_some hf hobject hiterable hitem, rfl⟩
        case isFalse => cases hb
      case h_2 => cases hb
  | forNext slot vars offset =>
      simp only [Machine.branch?] at hb
      split at hb
      case h_1 object keys n hobject hkeys hindex =>
        split at hb
        case isTrue hover =>
          rcases continueIteration_none vars offset hf ⟨hobject, hkeys, hindex⟩
            (by simpa using hover) with ⟨s, hstep, -⟩
          exact ⟨_, hstep, rfl⟩
        case isFalse => split at hb <;> cases hb
      case h_2 => cases hb
  | _ => cases hb

/-- A jump that is undecided fails, and not because its target is missing. -/
theorem step_undecided (hf : m.frames = { f with ip := f.ip + 1 } :: rest) (hi : i.jumps = true)
    (hb : m.branch? f i = none) :
    exists fault m', step i m = .error (.fault fault) m' ∧ fault ≠ .jumpBeforeStart := by
  cases i with
  | jump | loop => cases hb
  | jumpIfFalse offset | jumpIfTrue offset =>
      refine ⟨.stackUnderflow, m, ?_, by simp⟩
      exact bind_error (topIsFalsy_error (Option.map_eq_none_iff.mp hb))
  | forBegin slot vars offset =>
      simp only [Machine.branch?] at hb
      split at hb
      case h_1 object hobject =>
        split at hb
        case isTrue => cases hb
        case isFalse hiterable =>
          refine ⟨.expected "Iterator" "`Array`, `Table` or `String`" object.kind, m, ?_, by simp⟩
          rw [step, beginIteration, bind_ok (getLocal_apply hf hobject)]
          refine bind_error ?_
          cases object with
          | array | table | text => exact absurd rfl hiterable
          | _ => rfl
      case h_2 hobject =>
        exact ⟨.stackUnderflow, m, bind_error (getLocal_outside hf hobject), by simp⟩
  | forNext slot vars offset =>
      simp only [Machine.branch?] at hb
      split at hb
      case h_1 object keys n hobject hkeys hindex =>
        split at hb
        case isTrue => cases hb
        case isFalse hmore =>
          split at hb
          case isTrue => cases hb
          case isFalse hslots =>
            have hsome := Option.isSome_iff_ne_none.mpr
              (fun hover => hmore (Option.isNone_iff_eq_none.mpr hover))
            rcases Option.isSome_iff_exists.mp hsome with ⟨item, hitem⟩
            rcases continueIteration_writes vars offset hf
              ⟨hobject, hkeys, hindex⟩ hitem with ⟨m1, hframes, hsize, hstep⟩
            have hlength := length_received object item.1 item.2 vars
            have hnonempty : loopVariables object vars item.1 item.2 ≠ [] := by
              rw [← List.length_pos_iff, hlength, received]
              split <;> decide
            have hroom : m1.stack.size < f.base + (slot + 3) +
                (loopVariables object vars item.1 item.2).length := by
              rw [hlength, hsize]
              exact Nat.lt_of_not_le hslots
            rcases setLocals_error (hframes.trans hf) hnonempty hroom with ⟨m2, hset⟩
            exact ⟨.stackUnderflow, m2, by rw [step, hstep, bind_error hset], by simp⟩
      case h_2 hmissing =>
        cases hobject : m.stack[f.base + slot]? with
        | none => exact ⟨.stackUnderflow, m, bind_error (getLocal_outside hf hobject), by simp⟩
        | some object =>
          cases hkeys : m.stack[f.base + (slot + 1)]? with
          | none =>
              refine ⟨.stackUnderflow, m, ?_, by simp⟩
              rw [step, continueIteration, bind_ok (getLocal_apply hf hobject)]
              exact bind_error (getLocal_outside hf hkeys)
          | some keys =>
            cases hindex : m.stack[f.base + (slot + 2)]? with
            | none =>
                refine ⟨.stackUnderflow, m, ?_, by simp⟩
                rw [step, continueIteration, bind_ok (getLocal_apply hf hobject),
                  bind_ok (getLocal_apply hf hkeys)]
                exact bind_error (getLocal_outside hf hindex)
            | some index =>
                refine ⟨.expected "Iterator" "`Integer` index" index.kind, m, ?_, by simp⟩
                rw [step, continueIteration, bind_ok (getLocal_apply hf hobject),
                  bind_ok (getLocal_apply hf hkeys), bind_ok (getLocal_apply hf hindex)]
                refine bind_error ?_
                cases index with
                | integer n => exact absurd hindex (hmissing object keys n hobject hkeys)
                | _ => rfl
  | _ => cases hi

end Steps
end Exec

/-! ## A turn in front of a jump -/

namespace Machine

/-- The next turn leaves the innermost call at an index. -/
def GoesTo (m : Machine) (f : Frame) (rest : List Frame) (t : Nat) : Prop :=
  exists m', m.tick = (.running, m') ∧ m'.frames = { f with ip := t } :: rest

/-- The innermost call stands at a jump, which leads to its target or on behind itself. -/
structure FollowsTarget (m : Machine) (f : Frame) (rest : List Frame) (i : Instr) : Prop where
  taken : m.branch? f i = some true -> forall t, i.jumpTarget? f.ip = some t -> m.GoesTo f rest t
  passed : m.branch? f i = some false -> m.GoesTo f rest (f.ip + 1)
  stops : m.raised? = some (.fault .jumpBeforeStart) ↔
    m.branch? f i = some true ∧ i.jumpTarget? f.ip = none
  undecided : m.branch? f i = none -> m.raised? ≠ none

section Turn

variable {m m' : Machine} {f : Frame} {rest : List Frame} {i : Instr}

theorem branch?_advance (m : Machine) (f : Frame) (i : Instr) :
    m.advance.branch? f i = m.branch? f i := by
  unfold branch?
  rw [advance_stack, advance_heap]

theorem follows_target (hf : m.frames = f :: rest) (hi : m.fetch? f = some i)
    (hjump : i.jumps = true) : m.FollowsTarget f rest i := by
  have hf' : m.advance.frames = { f with ip := f.ip + 1 } :: rest := by rw [advance_apply hf]
  have hsame := m.branch?_advance f i
  cases hb : m.branch? f i with
  | none =>
      rcases Exec.step_undecided hf' hjump (hsame.trans hb) with ⟨fault, m1, hstep, hne⟩
      have hraised := raised?_of_error hf hi hstep
      refine ⟨by simp [hb], by simp [hb], ?_, fun _ => by simp [hraised]⟩
      rw [hraised]
      simp [hb, hne]
  | some decided =>
      cases decided with
      | false =>
          rcases Exec.step_passed hf' (hsame.trans hb) with ⟨m1, hstep, hframes⟩
          have hgoes : m.GoesTo f rest (f.ip + 1) :=
            ⟨m1, tick_of_ok hf hi hstep, hframes.trans hf'⟩
          refine ⟨by simp [hb], fun _ => hgoes, ?_, by simp [hb]⟩
          rw [raised?_of_ok hf hi hstep]
          simp [hb]
      | true =>
          rcases Exec.step_taken hf' (hsame.trans hb) with ⟨m1, hstep⟩
          cases ht : i.jumpTarget? f.ip with
          | some t =>
              rw [ht] at hstep
              have hgoes : m.GoesTo f rest t := ⟨_, tick_of_ok hf hi hstep, rfl⟩
              refine ⟨fun _ t' ht' => ?_, by simp [hb], ?_, by simp [hb]⟩
              · rw [ht] at ht'
                cases ht'
                exact hgoes
              · rw [raised?_of_ok hf hi hstep]
                simp [ht]
          | none =>
              rw [ht] at hstep
              refine ⟨by simp [ht], by simp [hb], ?_, by simp [hb]⟩
              rw [raised?_of_error hf hi hstep]
              simp [hb, ht]

end Turn
end Machine

/-! ## Targets in a listing -/

namespace Listing

/-- An index that a jump leads to as a listing shows it. -/
def shown : Option Nat -> String
  | some t => Text.zeroPadded 4 t
  | none => "?"

/-- The line of an instruction, with what stands in the column of the source lines. -/
def lineOf (h : Heap) (f : Function) (marked : List Nat) (ip : Nat) (column : String) (i : Instr) :
    String :=
  Text.zeroPadded 4 ip ++ " " ++ column ++ " " ++
    (if marked.contains ip then "►" else " ") ++ " " ++ instruction h f ip i ++ "\n"

/-- An index is the index of an instruction, and the listing of the function has a line for it,
which is marked. -/
def Marks (h : Heap) (f : Function) (t : Nat) : Prop :=
  exists i column before after, f.code.instrs[t]? = some i ∧
    (targets f.code).contains t = true ∧
    single h f = before ++ lineOf h f (targets f.code) t column i ++ after

section Listing

variable {h : Heap} {f : Function} {marked : List Nat} {i : Instr}

theorem instruction_ends (hi : i.jumps = true) (h : Heap) (f : Function) (ip : Nat) :
    exists before, instruction h f ip i = before ++ "(→ " ++ shown (i.jumpTarget? ip) ++ ")" := by
  have hforwards (offset : Nat) (before : String) :
      exists before', before ++ forwards ip offset =
        before' ++ "(→ " ++ shown (some (ip + 1 + offset)) ++ ")" := by
    refine ⟨before ++ toString offset ++ " ↓ ", ?_⟩
    rw [forwards, shown, show " ↓ (→ " = " ↓ " ++ "(→ " from rfl]
    simp only [String.append_assoc]
  have hbackwards (target : Option Nat) (offset : Nat) (before : String) :
      exists before', before ++ backwards target offset =
        before' ++ "(→ " ++ shown target ++ ")" := by
    refine ⟨before ++ toString offset ++ " ↑ ", ?_⟩
    rw [backwards.eq_def, show " ↑ (→ " = " ↑ " ++ "(→ " from rfl]
    simp only [String.append_assoc]
    rfl
  cases i with
  | jump offset | jumpIfFalse offset | jumpIfTrue offset => exact hforwards offset _
  | loop offset => exact hbackwards _ offset _
  | forBegin slot vars offset =>
      rw [instruction, entry, ← String.append_assoc]
      exact hforwards offset _
  | forNext slot vars offset =>
      rw [instruction, entry, ← String.append_assoc]
      exact hbackwards _ offset _
  | _ => cases hi

/-- The listing has a line for each instruction. -/
theorem body_lists (marked : List Nat) (xs ys : List Instr) (before ip : Nat) :
    exists first column last, body h f marked before ip (xs ++ i :: ys) =
      first ++ lineOf h f marked (ip + xs.length) column i ++ last := by
  induction xs generalizing before ip with
  | nil =>
      refine ⟨"", lineColumn before (f.code.line ip),
        body h f marked (f.code.line ip) (ip + 1) ys, ?_⟩
      rw [List.nil_append, body, String.empty_append]
      rfl
  | cons x xs ih =>
      rcases ih (f.code.line ip) (ip + 1) with ⟨first, column, last, heq⟩
      rw [List.cons_append, body, heq, List.length_cons,
        show ip + 1 + xs.length = ip + (xs.length + 1) by lia]
      refine ⟨lineOf h f marked ip (lineColumn before (f.code.line ip)) x ++ first, column, last,
        ?_⟩
      simp only [lineOf, String.append_assoc]

theorem mem_targets {c : Code} {t : Nat} (ht : t ∈ targets c) :
    exists (ip : Nat) (i : Instr), c.instrs[ip]? = some i ∧ i.jumpTarget? ip = some t := by
  rcases List.mem_filterMap.mp ht with ⟨⟨i, ip⟩, hmem, htarget⟩
  refine ⟨ip, i, ?_, htarget⟩
  rw [← Array.getElem?_toList]
  exact List.mem_zipIdx_iff_getElem?.mp hmem

theorem marks_of_lt {t : Nat} (ht : t ∈ targets f.code) (hlt : t < f.code.size) :
    Marks h f t := by
  have hsize : t < f.code.instrs.size := hlt
  have hlength : t < f.code.instrs.toList.length := hlt
  have hsplit : f.code.instrs.toList =
      f.code.instrs.toList.take t ++ f.code.instrs[t] :: f.code.instrs.toList.drop (t + 1) := by
    rw [← Array.getElem_toList hsize, ← List.drop_eq_getElem_cons hlength, List.take_append_drop]
  rcases body_lists (h := h) (f := f) (i := f.code.instrs[t]) (targets f.code)
    (f.code.instrs.toList.take t) (f.code.instrs.toList.drop (t + 1)) 0 0 with
    ⟨first, column, last, hbody⟩
  rw [← hsplit, List.length_take, Nat.min_eq_left (Nat.le_of_lt hlength), Nat.zero_add] at hbody
  refine ⟨f.code.instrs[t], column, head f ++ first,
    last ++ String.join (f.ranges.toList.map range) ++ "\n", Array.getElem?_eq_getElem hsize,
    List.contains_iff_mem.mpr ht, ?_⟩
  rw [single, hbody]
  simp only [String.append_assoc]

end Listing
end Listing

/-! ## Compiled code -/

/-- In code that passes the stack check each jump leads to an instruction. -/
theorem Function.Checked.jumpTarget {f : Function} {i : Instr} {ip : Nat} (hf : f.Checked)
    (hi : f.code.instrs[ip]? = some i) (hjump : i.jumps = true) :
    exists t, i.jumpTarget? ip = some t ∧ t < f.code.size := by
  rcases hf with ⟨height, hkeeps⟩
  have hfits := hkeeps.instrs ip i hi
  have hinside {t : Nat} (ht : i.jumpTarget? ip = some t) : t < f.code.size := by
    refine hfits.inside t (List.mem_append_right _ ?_)
    rw [ht]
    exact List.mem_singleton_self t
  cases i with
  | jump | jumpIfFalse | jumpIfTrue | forBegin => exact ⟨_, rfl, hinside rfl⟩
  | loop offset | forNext _ _ offset =>
      have ht : (if offset <= ip + 1 then some (ip + 1 - offset) else none) =
          some (ip + 1 - offset) := if_pos (hfits.back offset rfl)
      exact ⟨_, ht, hinside ht⟩
  | _ => cases hjump

theorem Instr.jumps_of_target {i : Instr} {ip t : Nat} (h : i.jumpTarget? ip = some t) :
    i.jumps = true := by
  cases i with
  | jump | jumpIfFalse | jumpIfTrue | loop | forBegin | forNext => rfl
  | _ => cases h

/-- A jump of any code leads where the listing says: if it is taken the next turn leaves its call
at the target, or fails because there is none, and if it is not taken its call goes on behind it.
In a compiled function every jump has a target, which is the index of an instruction, and the
listing marks the line of that instruction. -/
theorem jumps_lead_where_listed :
    (forall (m : Machine) (f : Frame) (rest : List Frame) (i : Instr), m.frames = f :: rest ->
      m.fetch? f = some i -> i.jumps = true ->
        m.FollowsTarget f rest i ∧
        exists before, Listing.instruction m.heap (m.heap.function f.function) f.ip i =
          before ++ "(→ " ++ Listing.shown (i.jumpTarget? f.ip) ++ ")") ∧
    forall base name source p, compile base name source = .ok p -> forall g, g ∈ p.all ->
      (forall (ip : Nat) i, g.code.instrs[ip]? = some i -> i.jumps = true ->
        exists t, i.jumpTarget? ip = some t ∧ t < g.code.size) ∧
      forall h t, t ∈ Listing.targets g.code -> Listing.Marks h g t := by
  refine ⟨fun m f rest i hf hi hjump => ?_, fun base name source p hp g hg => ?_⟩
  · exact ⟨Machine.follows_target hf hi hjump, Listing.instruction_ends hjump _ _ _⟩
  · have hchecked := (compile_sound hp g hg).1
    refine ⟨fun ip i hi hjump => hchecked.jumpTarget hi hjump, fun h t ht => ?_⟩
    rcases Listing.mem_targets ht with ⟨ip, i, hi, htarget⟩
    rcases hchecked.jumpTarget hi (Instr.jumps_of_target htarget) with ⟨t', ht', hlt⟩
    cases htarget.symm.trans ht'
    exact Listing.marks_of_lt ht hlt

def strayJumps : Function where
  code := { instrs := #[.literal (.bool true), .jumpIfTrue 3, .loop 4, .loop 3] }

def strayMachine (ip : Nat) : Machine :=
  { heap := { functions := #[strayJumps] }
    stack := #[.function 0, .bool true]
    frames := [⟨0, ip, 0⟩] }

/-- Jumps behind the end are carried out all the same, those in front of the beginning fail; the
loop of a compiled script leads to the instructions that its listing marks. -/
theorem strayJumps_lead_where_listed :
    (strayMachine 1).GoesTo ⟨0, 1, 0⟩ [] 5 ∧
      (strayMachine 2).raised? = some (.fault .jumpBeforeStart) ∧
      (strayMachine 3).GoesTo ⟨0, 3, 0⟩ [] 1 ∧
      exists p, compile 0 none "while 1 \x7b echo 2 \x7d" = .ok p ∧
        Listing.targets p.main.code = [6, 0] ∧ forall h, Listing.Marks h p.main 6 := by
  have hjumps := jumps_lead_where_listed.1
  refine ⟨?_, ?_, ?_, ?_⟩
  · exact (hjumps (strayMachine 1) ⟨0, 1, 0⟩ [] (.jumpIfTrue 3) rfl rfl rfl).1.taken rfl 5 rfl
  · exact (hjumps (strayMachine 2) ⟨0, 2, 0⟩ [] (.loop 4) rfl rfl rfl).1.stops.mpr ⟨rfl, rfl⟩
  · exact (hjumps (strayMachine 3) ⟨0, 3, 0⟩ [] (.loop 3) rfl rfl rfl).1.taken rfl 1 rfl
  · have htargets : (compile 0 none "while 1 \x7b echo 2 \x7d").toOption.map
        (fun p => Listing.targets p.main.code) = some [6, 0] := by decide +kernel
    rcases exists_of_toOption_map htargets with ⟨p, hp, htargets⟩
    refine ⟨p, hp, htargets, fun h => ?_⟩
    refine (jumps_lead_where_listed.2 0 none _ p hp p.main (Array.mem_push_self)).2 h 6 ?_
    rw [htargets]
    exact List.mem_cons_self

end StackScript
