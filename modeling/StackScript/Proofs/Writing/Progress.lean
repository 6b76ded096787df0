import StackScript.Proofs.Writing.Shows

/-!
# What writing adds to a sheet

A sheet continues another one with a few lines.  Of the forward jumps in these lines some wait for
the end of a loop, some for the next round and some for something else; the rest is filled in.
-/

namespace StackScript

/-- The sheet `t` continues `s`, which shows a text, with more lines, and shows these constants and
ranges.  Of the forward jumps in the lines those in `left` wait for the end of a loop, the `rounds`
for the next round and the `others` for something else; the rest is filled in. -/
structure Sheet.Adds (s : Sheet) (text lines : Lines) (cs : List Value) (rs : List TryRange)
    (left : List (Nat × Nat)) (rounds others : List Nat) (t : Sheet) : Prop where
  shows : t.Shows (text ++ lines) cs rs
  leaving : t.leaving = left ++ s.leaving
  again : t.again = rounds ++ s.again
  holes : t.holes = forwardJumps text.length lines ++ s.holes
  filled : exists filled, t.filled = filled ++ s.filled ∧
    (forwardJumps text.length lines).Perm (filled ++ (left.map Prod.fst ++ rounds ++ others))

/-- Filling in changes the code and the list of jumps that are filled in. -/
theorem Sheet.fillAll_eq (s : Sheet) (ips : List Nat) :
    s.fillAll ips =
      { s with code := (s.fillAll ips).code, filled := ips.reverse ++ s.filled } := by
  induction ips generalizing s with
  | nil => rfl
  | cons ip ips ih =>
      rw [fillAll, List.foldl_cons, ← fillAll, ih]
      simp [fill]

namespace Sheet.Adds

variable {s t u : Sheet} {text lines more : Lines} {cs cs' : List Value} {rs rs' : List TryRange}
  {left left' : List (Nat × Nat)} {rounds rounds' others others' : List Nat}

theorem refl (h : s.Shows text cs rs) : s.Adds text [] cs rs [] [] [] s where
  shows := by rwa [List.append_nil]
  leaving := rfl
  again := rfl
  holes := rfl
  filled := ⟨[], rfl, .nil⟩

theorem size (h : s.Adds text lines cs rs left rounds others t) :
    t.size = text.length + lines.length := by
  rw [h.shows.size, List.length_append]

theorem trans (h : s.Adds text lines cs rs left rounds others t)
    (h' : t.Adds (text ++ lines) more cs' rs' left' rounds' others' u) :
    s.Adds text (lines ++ more) cs' rs' (left' ++ left) (rounds' ++ rounds) (others' ++ others)
      u where
  shows := by
    rw [← List.append_assoc]
    exact h'.shows
  leaving := by rw [h'.leaving, h.leaving, List.append_assoc]
  again := by rw [h'.again, h.again, List.append_assoc]
  holes := by
    rw [h'.holes, h.holes, forwardJumps_append, List.length_append, List.append_assoc]
  filled := by
    rcases h.filled with ⟨fs, hfs, hperm⟩
    rcases h'.filled with ⟨fs', hfs', hperm'⟩
    refine ⟨fs' ++ fs, by rw [hfs', hfs, List.append_assoc], ?_⟩
    rw [List.perm_iff_count] at hperm hperm' ⊢
    intro i
    have hi := hperm i
    have hi' := hperm' i
    simp only [forwardJumps_append, List.count_append, List.map_append, List.length_append]
      at hi hi' ⊢
    lia

/-! ### Ranges -/

theorem of_openRange {depth : Nat}
    (h : (s.openRange depth).Adds text lines cs rs left rounds others t) :
    s.Adds text lines cs rs left rounds others t :=
  { h with }

theorem of_closeRange {index : Nat}
    (h : (s.closeRange index).Adds text lines cs rs left rounds others t) :
    s.Adds text lines cs rs left rounds others t :=
  { h with }

/-! ### Lines and constants -/

theorem mention (h : s.Adds text lines cs rs left rounds others t) (vs : List Value) :
    s.Adds text lines (cs ++ vs) rs left rounds others (t.mention vs) :=
  { h with shows := h.shows.mention vs }

theorem write (h : s.Adds text lines cs rs left rounds others t)
    (hmore : forall x, x ∈ more -> x.1.Settles (poolOf cs).size) :
    s.Adds text (lines ++ more) cs rs left rounds others (t.write more) := by
  have hnone (ip : Nat) : forwardJumps ip more = [] :=
    forwardJumps_eq_nil fun x hx => (hmore x hx).forward
  have hshows := h.shows.write (fun x hx => (hmore x hx).target)
    (fun x hx => (hmore x hx).constant) fun x hx => (hmore x hx).increment
  have hwrite : t.Adds (text ++ lines) more cs rs [] [] [] (t.write more) := by
    refine ⟨hshows, rfl, rfl, ?_, [], rfl, ?_⟩
    · rw [hnone]
      rfl
    · rw [hnone]
      exact .nil
  exact h.trans hwrite

theorem plain (h : s.Adds text lines cs rs left rounds others t)
    (hmore : forall x, x ∈ more -> x.1.isPlain = true) :
    s.Adds text (lines ++ more) cs rs left rounds others (t.write more) :=
  h.write fun x hx => Instr.settles_of_isPlain (hmore x hx) _

theorem pop (h : s.Adds text lines cs rs left rounds others t) (line : Nat) :
    s.Adds text (lines ++ [(.pop, line)]) cs rs left rounds others (t.write [(.pop, line)]) :=
  h.plain (List.forall_mem_singleton.mpr rfl)

/-- A variable's name is mentioned before it is read. -/
theorem mention_get {k : Variable.Index} {v : Variable}
    (h : s.Adds text lines cs rs left rounds others t) (hk : Places k (cs ++ v.constants))
    (line : Nat) :
    s.Adds text (lines ++ [(v.get k, line)]) (cs ++ v.constants) rs left rounds others
      ((t.mention v.constants).write [(v.get k, line)]) := by
  refine (h.mention _).write (List.forall_mem_singleton.mpr ?_)
  exact Variable.settles_get fun c hc => hk.lt (List.mem_append_right _ hc)

/-- An increment takes the place of the read of a local and an integer. -/
theorem cut {n readLine intLine : Nat} {i : Int64}
    (h : s.Adds text lines cs rs left rounds others t)
    (hu : s.Adds text (lines ++ [(.getLocal n, readLine), (.literal (.int i), intLine)]) cs rs
      left rounds others u) (hcuts : u.cuts = t.cuts) (line : Nat) :
    s.Adds text (lines ++ [(.increment n i, line)]) cs rs left rounds others
      ((u.cut t.size n i).write [(.increment n i, line)]) := by
  have hjumps : forwardJumps text.length (lines ++ [(.increment n i, line)]) =
      forwardJumps text.length
        (lines ++ [(.getLocal n, readLine), (.literal (.int i), intLine)]) := by
    rw [forwardJumps_append, forwardJumps_append]
    rfl
  have hshows := hu.shows
  rw [← List.append_assoc] at hshows
  rw [h.shows.size]
  refine ⟨?_, hu.leaving, hu.again, ?_, ?_⟩
  · rw [← List.append_assoc]
    exact h.shows.cut hshows hcuts line
  · rw [hjumps]
    exact hu.holes
  · rw [hjumps]
    exact hu.filled

/-! ### Jumps forwards -/

theorem hole {i : Instr} (h : s.Adds text lines cs rs left rounds others t)
    (hi : i.isForward = true) (haim : i.aim 0 = i) (line : Nat) :
    s.Adds text (lines ++ [(i, line)]) cs rs left rounds
      ((text.length + lines.length) :: others) (t.hole i line) := by
  have hhole : t.Adds (text ++ lines) [(i, line)] cs rs [] [] [text.length + lines.length]
      (t.hole i line) := by
    refine ⟨h.shows.hole hi haim line, rfl, rfl, ?_, [], rfl, ?_⟩
    · simp [forwardJumps, hi, Sheet.hole, h.size]
    · simp [forwardJumps, hi]
  exact h.trans hhole

theorem fillAll (ips : List Nat) (h : s.Adds text lines cs rs left rounds (ips ++ others) t)
    (htext : ips.foldl (aimAt (text ++ lines).length) (text ++ lines) = text ++ more) :
    s.Adds text more cs rs left rounds others (t.fillAll ips) := by
  have hjumps : forwardJumps text.length more = forwardJumps text.length lines := by
    have hmap := map_isForward_foldl_aimAt (text ++ lines).length ips (text ++ lines)
    rw [htext, List.map_append, List.map_append, List.append_cancel_left_eq] at hmap
    exact forwardJumps_map hmap
  have hshows := h.shows.fillAll ips
  rw [htext] at hshows
  refine ⟨hshows, ?_, ?_, ?_, ?_⟩
  · rw [fillAll_eq]
    exact h.leaving
  · rw [fillAll_eq]
    exact h.again
  · rw [fillAll_eq, hjumps]
    exact h.holes
  · rcases h.filled with ⟨fs, hfs, hperm⟩
    refine ⟨ips.reverse ++ fs, by rw [fillAll_eq, hfs, List.append_assoc], ?_⟩
    rw [hjumps]
    rw [List.perm_iff_count] at hperm ⊢
    intro i
    have hi := hperm i
    simp only [List.count_append, List.count_reverse] at hi ⊢
    lia

/-- Filling in a jump in the middle of the new lines. -/
theorem fill {i : Instr} {ip line : Nat} (h : s.Adds text (lines ++ (i, line) :: more) cs rs left
    rounds (ip :: others) t) (hip : ip = text.length + lines.length) :
    s.Adds text (lines ++ (i.aim more.length, line) :: more) cs rs left rounds others
      (t.fill ip) := by
  refine fillAll [ip] h ?_
  rw [List.foldl_cons, List.foldl_nil, hip, ← List.append_assoc, ← List.length_append,
    aimAt_middle, List.append_assoc]
  have hoffset : (text ++ lines ++ (i, line) :: more).length - ((text ++ lines).length + 1) =
      more.length := by
    simp
    lia
  rw [hoffset]

/-- A jump over what comes next is filled in behind it. -/
theorem jumpOver {i : Nat -> Instr} (h : s.Adds text lines cs rs left rounds others t)
    (hforward : (i 0).isForward = true) (haim : forall n, (i 0).aim n = i n) (line : Nat)
    {rest : Sheet -> Sheet} (hrest : forall u : Sheet,
      u.Shows (text ++ (lines ++ [(i 0, line)])) cs rs -> u.leaving = t.leaving ->
        u.Adds (text ++ (lines ++ [(i 0, line)])) more cs' rs' left' rounds' [] (rest u)) :
    s.Adds text (lines ++ (i more.length, line) :: more) cs' rs' (left' ++ left)
      (rounds' ++ rounds) others (t.jumpOver i line rest) := by
  have hhole := h.hole hforward (haim 0) line
  have hadds := hhole.trans (hrest _ hhole.shows rfl)
  rw [List.append_assoc] at hadds
  rw [← haim, Sheet.jumpOver, h.size]
  exact hadds.fill rfl

theorem swap {i j : Nat} (h : s.Adds text lines cs rs left rounds (i :: j :: others) t) :
    s.Adds text lines cs rs left rounds (j :: i :: others) t := by
  rcases h.filled with ⟨fs, hfs, hperm⟩
  have hswap : (left.map Prod.fst ++ rounds ++ i :: j :: others).Perm
      (left.map Prod.fst ++ rounds ++ j :: i :: others) :=
    List.Perm.append_left _ (.swap j i others)
  exact { h with filled := ⟨fs, hfs, hperm.trans (List.Perm.append_left fs hswap)⟩ }

/-- Of two branches the first one is left by a jump over the second, and the jump over the first
leads to the second. -/
theorem branch {yes no : Sheet -> Sheet} {more₁ more₂ : Lines} {cs₁ cs₂ : List Value}
    {rs₁ rs₂ : List TryRange} {left₁ left₂ : List (Nat × Nat)} {rounds₁ rounds₂ : List Nat}
    (h : s.Adds text lines cs rs left rounds others t) (line bodyLine : Nat)
    (hyes : forall u : Sheet, u.Shows (text ++ (lines ++ [(.jumpIfFalse 0, line)])) cs rs ->
      u.leaving = t.leaving ->
        u.Adds (text ++ (lines ++ [(.jumpIfFalse 0, line)])) more₁ cs₁ rs₁ left₁ rounds₁ []
          (yes u))
    (hno : forall (u : Sheet) (front : Lines),
      front.length = text.length + lines.length + more₁.length + 2 -> u.Shows front cs₁ rs₁ ->
        u.leaving = left₁ ++ t.leaving -> u.Adds front more₂ cs₂ rs₂ left₂ rounds₂ [] (no u)) :
    s.Adds text (lines ++ (.jumpIfFalse (more₁.length + 1), line) :: more₁ ++
        (.jump more₂.length, bodyLine) :: more₂) cs₂ rs₂
      (left₂ ++ (left₁ ++ left)) (rounds₂ ++ (rounds₁ ++ rounds)) others
      (t.branch line bodyLine yes no) := by
  have hhole := h.hole (i := .jumpIfFalse 0) rfl rfl line
  have hadds := hyes _ hhole.shows rfl
  have hfirst := hhole.trans hadds
  have hboth := (hfirst.hole (i := .jump 0) rfl rfl bodyLine).swap
  simp only [List.append_assoc, List.cons_append, List.nil_append] at hboth
  -- The jump over the first branch is filled in between the branches.
  have hfill := hboth.fill rfl
  have hsecond := hfill.trans (hno _ _ (by simp; lia) hfill.shows hadds.leaving)
  rw [List.append_assoc, List.cons_append, List.append_assoc, ← List.cons_append,
    ← List.append_assoc] at hsecond
  have hdone := hsecond.fill (by simp)
  rw [Sheet.branch, h.size, hfirst.size]
  simpa [Instr.aim] using hdone

/-! ### Jumps backwards and out of loops -/

theorem backTo {i : Nat -> Instr} (h : s.Adds text lines cs rs left rounds others t)
    (hback : forall n, (i n).isPlain = true) (start line offset : Nat)
    (hoffset : text.length + lines.length + 1 - start = offset) :
    s.Adds text (lines ++ [(i offset, line)]) cs rs left rounds others
      (t.backTo i start line) := by
  rw [← hoffset, ← h.size]
  exact h.plain (List.forall_mem_singleton.mpr (hback _))

theorem leave (h : s.Adds text lines cs rs left rounds others t) (depth line : Nat) :
    s.Adds text (lines ++ [(Instr.jump 0, line)]) cs rs
      ((text.length + lines.length, depth) :: left) rounds others (t.leave depth line) := by
  have hhole := h.hole (i := .jump 0) rfl rfl line
  refine ⟨{ hhole.shows with }, ?_, hhole.again, hhole.holes, ?_⟩
  · rw [Sheet.leave, h.leaving, h.size]
    rfl
  · rcases hhole.filled with ⟨fs, hfs, hperm⟩
    exact ⟨fs, hfs, hperm.trans (List.Perm.append_left fs List.perm_middle)⟩

theorem next (h : s.Adds text lines cs rs left rounds others t) (line : Nat) :
    s.Adds text (lines ++ [(Instr.jump 0, line)]) cs rs left
      ((text.length + lines.length) :: rounds) others (t.next line) := by
  have hhole := h.hole (i := .jump 0) rfl rfl line
  refine ⟨{ hhole.shows with }, hhole.leaving, ?_, hhole.holes, ?_⟩
  · rw [Sheet.next, h.again, h.size]
    rfl
  · rcases hhole.filled with ⟨fs, hfs, hperm⟩
    refine ⟨fs, hfs, hperm.trans (List.Perm.append_left fs ?_)⟩
    rw [List.append_assoc, List.append_assoc]
    exact List.Perm.append_left _ List.perm_middle

/-- The end of a loop of some depth fills in the jumps out of it, which come first. -/
theorem close (ips : List Nat) (depth : Nat)
    (h : s.Adds text lines cs rs (ips.map (fun ip => (ip, depth)) ++ left) rounds others t)
    (hdepth : forall x, x ∈ left ++ s.leaving -> x.2 < depth)
    (htext : ips.foldl (aimAt (text ++ lines).length) (text ++ lines) = text ++ more) :
    s.Adds text more cs rs left rounds others (t.close depth) := by
  have hcut : left ++ s.leaving = t.leaving.dropWhile (fun x => depth <= x.2) ∧
      ips = (t.leaving.takeWhile fun x => depth <= x.2).map Prod.fst := by
    rw [h.leaving, List.append_assoc, List.dropWhile_append_of_pos (by simp),
      List.takeWhile_append_of_pos (by simp)]
    cases hrest : left ++ s.leaving with
    | nil => simp [Function.comp_def]
    | cons x rest =>
        rw [hrest] at hdepth
        have hx := Nat.not_le.mpr (hdepth x List.mem_cons_self)
        simp [hx, Function.comp_def]
  rw [Sheet.close, ← hcut.1, ← hcut.2]
  refine fillAll ips ⟨{ h.shows with }, rfl, h.again, h.holes, ?_⟩ htext
  rcases h.filled with ⟨fs, hfs, hperm⟩
  refine ⟨fs, hfs, ?_⟩
  rw [List.perm_iff_count] at hperm ⊢
  intro i
  have hi := hperm i
  simp only [List.map_append, List.map_map, List.count_append, Function.comp_def,
    List.map_id'] at hi ⊢
  lia

/-- At the end of a loop the jumps out of its body are filled in. -/
theorem close_body {k : Variable.Index} {depth : Nat}
    (h : s.Adds text lines cs rs left [] [] t) (body : Stmt) (x : Exits) (ip target : Nat)
    (front back : Lines) (hlines : lines = front ++ body.code k x ip ++ back)
    (hip : text.length + front.length = ip) (htarget : ip + body.size + back.length = target)
    (hleft : left = (body.exitsBy .leave ip).map fun j => (j, depth))
    (hdepth : forall y, y ∈ s.leaving -> y.2 < depth) :
    s.Adds text (front ++ body.code k { x with leave := target } ip ++ back) cs rs [] [] []
      (t.close depth) := by
  have haim := body.aim_exitsBy (k := k) (x := x) .leave target ip (text ++ front) back
    (by simpa using hip) nofun
  have hlength : (text ++ lines).length = target := by
    rw [hlines, ← htarget]
    simp
    lia
  subst hlines hleft
  refine close _ depth (by rwa [List.append_nil]) hdepth ?_
  rw [hlength]
  simpa [Exits.toward] using haim

/-- The jumps to the next round are filled in behind the body. -/
theorem round {body : Sheet -> Sheet}
    (h : Adds { s with again := [] } text lines cs rs left rounds [] (body { s with again := [] }))
    (htext : rounds.foldl (aimAt (text ++ lines).length) (text ++ lines) = text ++ more) :
    s.Adds text more cs rs left [] [] (s.round body) := by
  have hagain : (body { s with again := [] }).again = rounds := by
    rw [h.again]
    exact List.append_nil _
  have hadds : s.Adds text lines cs rs left [] (rounds ++ [])
      { body { s with again := [] } with again := s.again } := by
    refine ⟨{ h.shows with }, h.leaving, rfl, h.holes, ?_⟩
    rcases h.filled with ⟨fs, hfs, hperm⟩
    rw [List.append_nil] at hperm
    exact ⟨fs, hfs, by rwa [List.append_nil, List.append_nil]⟩
  rw [Sheet.round, hagain]
  exact hadds.fillAll rounds htext

end Sheet.Adds

end StackScript
