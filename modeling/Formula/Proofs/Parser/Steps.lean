import Formula.Parser

/-!
# The steps of reading

What a step of the reader does to the groups and variables it carries along, as equations that need
no monad.

* `interpret_run` and `interpretOperand_run`: the equations of one step.
* `interpret_eq_ok`: all that a step may do when it succeeds, one case of `Interprets` for each
  rule of the language.
* `fragment_eq_ok` and `fragment_eq_error`: reading a fragment is one step, the reading of its parts
  and the assembly of their trees.
-/

namespace Formula.Parser

variable {α : Type}

section Runs

variable {σ ε β γ : Type} {x : StateT σ (Except ε) β} {f : β → StateT σ (Except ε) γ} {st : σ}

theorem bind_run (x : StateT σ (Except ε) β) (f : β → StateT σ (Except ε) γ) (st : σ) :
    (x >>= f).run st = (x.run st).bind fun r => (f r.1).run r.2 := rfl

/-- A run of two steps succeeds when both do, the second in the state that the first has left. -/
theorem bind_eq_ok {r : γ × σ} :
    (x >>= f).run st = .ok r ↔ ∃ b st', x.run st = .ok (b, st') ∧ (f b).run st' = .ok r := by
  rw [bind_run]
  rcases x.run st with e | ⟨b, st'⟩ <;> simp [Except.bind, and_assoc]

/-- A run of two steps fails at the first that does. -/
theorem bind_eq_error {e : ε} :
    (x >>= f).run st = .error e ↔
      x.run st = .error e ∨ ∃ b st', x.run st = .ok (b, st') ∧ (f b).run st' = .error e := by
  rw [bind_run]
  rcases x.run st with e' | ⟨b, st'⟩ <;> simp [Except.bind, and_assoc]

theorem mapM_cons_run {α : Type} (f : α → StateT σ (Except ε) β) (a : α) (as : List α) (st : σ) :
    ((a :: as).mapM f).run st =
      ((f a).run st).bind fun r => ((as.mapM f).run r.2).bind fun q => .ok (r.1 :: q.1, q.2) := by
  rw [List.mapM_cons]
  rfl

/-- Several steps succeed when the first does, and the others in the state that it has left. -/
theorem mapM_cons_eq_ok {α : Type} {f : α → StateT σ (Except ε) β} {a : α} {as : List α}
    {bs : List β} {st' : σ} :
    ((a :: as).mapM f).run st = .ok (bs, st') ↔
      ∃ b st₁ bs', (f a).run st = .ok (b, st₁) ∧ (as.mapM f).run st₁ = .ok (bs', st') ∧
        bs = b :: bs' := by
  rw [List.mapM_cons, bind_eq_ok]
  constructor
  · rintro ⟨b, st₁, ha, h⟩
    obtain ⟨bs', st₂, has, h⟩ := bind_eq_ok.mp h
    obtain ⟨rfl, rfl⟩ := Prod.mk.inj (Except.ok.inj h)
    exact ⟨b, st₁, bs', ha, has, rfl⟩
  · rintro ⟨b, st₁, bs', ha, has, rfl⟩
    exact ⟨b, st₁, ha, bind_eq_ok.mpr ⟨bs', st', has, rfl⟩⟩

end Runs

/-! ### One step -/

/-- Setting groups aside leaves the variables as they are. -/
theorem setAside_run (s : Fragment) (st : State α) :
    (setAside s).run st = (st.groups.setAside s).1.map fun hidden =>
      (hidden, ⟨(st.groups.setAside s).2, st.vars⟩) := by
  simp only [setAside, StateT.run_bind]
  rcases h : st.groups.setAside s with ⟨result | result, groups⟩
  · simp [h]
    rfl
  · simp [h]
    rfl

theorem resolve_run (interior : Fragment) (st : State α) :
    (resolve interior).run st = (st.groups.resolve interior).map fun text => (text, st) := by
  simp only [resolve, StateT.run_bind, StateT.run_get, pure_bind]
  cases st.groups.resolve interior <;> rfl

variable [Zero α] [Numeral α] {vocabulary : Vocabulary α}

/-- The rules for operands in the order in which they are tried. -/
theorem interpretOperand_run (vocabulary : Vocabulary α) (s : Fragment) (st : State α) :
    (interpretOperand vocabulary s).run st =
      match vocabulary.functionAt? s with
      | some (name, apply) =>
        if isBlankGroup st.groups (s.drop name.length) then
          .ok (.leaf (.call name apply []), st)
        else
          .ok (.call name apply (s.drop name.length), st)
      | none =>
      match vocabulary.constantAt? s with
      | some (name, value) => .ok (.leaf (.constant name value), st)
      | none =>
      match placeholderInterior? s with
      | some interior => (st.groups.resolve interior).map fun text => (.group text, st)
      | none =>
      match number? s with
      | some value => .ok (.leaf (.scalar value), st)
      | none =>
      if isVariableName vocabulary s then
        .ok (.leaf (.var (st.vars.intern (String.ofList s)).1),
          ⟨st.groups, (st.vars.intern (String.ofList s)).2⟩)
      else
        .error (.unexpectedEnd (String.ofList s)) := by
  unfold interpretOperand
  rcases vocabulary.functionAt? s with _ | ⟨name, apply⟩
  · rcases vocabulary.constantAt? s with _ | ⟨name, value⟩
    · rcases placeholderInterior? s with _ | interior
      · rcases number? s with _ | value
        · dsimp only
          split <;> rfl
        · rfl
      · dsimp only
        rw [bind_run, resolve_run]
        cases st.groups.resolve interior <;> rfl
    · rfl
  · dsimp only
    simp only [StateT.run_bind, StateT.run_get, pure_bind]
    split <;> rfl

/-- What a fragment is when its groups have been set aside. -/
def recognise (vocabulary : Vocabulary α) (s : Fragment) : Reader α (Reading α) :=
  match Operator.loosestIn? s with
  | some operator => return .operation operator s
  | none => interpretOperand vocabulary s

/-- A fragment is trimmed twice: blanks may be left around what is hidden. -/
theorem interpret_run (vocabulary : Vocabulary α) (s : Fragment) (st : State α) :
    (interpret vocabulary s).run st =
      (st.groups.setAside s.trim).1.bind fun hidden =>
        (recognise vocabulary (Fragment.trim hidden)).run
          ⟨(st.groups.setAside s.trim).2, st.vars⟩ := by
  unfold interpret
  simp only [bind_run, setAside_run]
  cases (st.groups.setAside s.trim).1 <;> rfl

/-- What a step makes of a fragment without groups, and what it leaves behind: one case for each
rule, with the conditions under which the rule applies. -/
inductive Interprets (vocabulary : Vocabulary α) (st : State α) (s : Fragment) :
    Reading α → State α → Prop where
  | operation {operator : Operator} (hop : Operator.loosestIn? s = some operator) :
    Interprets vocabulary st s (.operation operator s) st
  | emptyCall {name : String} {apply : List α → α} (hop : Operator.loosestIn? s = none)
    (hname : vocabulary.functionAt? s = some (name, apply))
    (hblank : isBlankGroup st.groups (s.drop name.length) = true) :
    Interprets vocabulary st s (.leaf (.call name apply [])) st
  | call {name : String} {apply : List α → α} (hop : Operator.loosestIn? s = none)
    (hname : vocabulary.functionAt? s = some (name, apply))
    (hblank : isBlankGroup st.groups (s.drop name.length) = false) :
    Interprets vocabulary st s (.call name apply (s.drop name.length)) st
  | constant {name : String} {value : α} (hop : Operator.loosestIn? s = none)
    (hfun : vocabulary.functionAt? s = none)
    (hname : vocabulary.constantAt? s = some (name, value)) :
    Interprets vocabulary st s (.leaf (.constant name value)) st
  | group {interior text : Fragment} (hop : Operator.loosestIn? s = none)
    (hfun : vocabulary.functionAt? s = none) (hconst : vocabulary.constantAt? s = none)
    (hinterior : placeholderInterior? s = some interior)
    (htext : st.groups.resolve interior = .ok text) :
    Interprets vocabulary st s (.group text) st
  | number {value : α} (hop : Operator.loosestIn? s = none)
    (hfun : vocabulary.functionAt? s = none) (hconst : vocabulary.constantAt? s = none)
    (hgroup : placeholderInterior? s = none) (hvalue : number? s = some value) :
    Interprets vocabulary st s (.leaf (.scalar value)) st
  | var (hop : Operator.loosestIn? s = none)
    (hfun : vocabulary.functionAt? s = none) (hconst : vocabulary.constantAt? s = none)
    (hgroup : placeholderInterior? s = none) (hvalue : (number? s : Option α) = none)
    (hname : isVariableName vocabulary s = true) :
    Interprets vocabulary st s (.leaf (.var (st.vars.intern (String.ofList s)).1))
      ⟨st.groups, (st.vars.intern (String.ofList s)).2⟩

theorem interpretOperand_eq_ok {s : Fragment} {st st' : State α} {reading : Reading α}
    (hop : Operator.loosestIn? s = none)
    (h : (interpretOperand vocabulary s).run st = .ok (reading, st')) :
    Interprets vocabulary st s reading st' := by
  -- one case for each rule that gives a reading, in the order in which they are tried
  rw [interpretOperand_run] at h
  split at h
  · rename_i name apply hname
    split at h
    · rename_i hblank
      obtain ⟨rfl, rfl⟩ := Prod.mk.inj (Except.ok.inj h)
      exact .emptyCall hop hname hblank
    · rename_i hblank
      obtain ⟨rfl, rfl⟩ := Prod.mk.inj (Except.ok.inj h)
      exact .call hop hname (by simpa using hblank)
  rename_i hfun
  split at h
  · rename_i name value hname
    obtain ⟨rfl, rfl⟩ := Prod.mk.inj (Except.ok.inj h)
    exact .constant hop hfun hname
  rename_i hconst
  split at h
  · rename_i interior hinterior
    cases htext : st.groups.resolve interior with
    | error e => simp [htext, Except.map] at h
    | ok text =>
      rw [htext] at h
      obtain ⟨rfl, rfl⟩ := Prod.mk.inj (Except.ok.inj h)
      exact .group hop hfun hconst hinterior htext
  rename_i hgroup
  split at h
  · rename_i value hvalue
    obtain ⟨rfl, rfl⟩ := Prod.mk.inj (Except.ok.inj h)
    exact .number hop hfun hconst hgroup hvalue
  rename_i hvalue
  split at h
  · rename_i hname
    obtain ⟨rfl, rfl⟩ := Prod.mk.inj (Except.ok.inj h)
    exact .var hop hfun hconst hgroup hvalue hname
  · simp at h

/-- Whatever is recognised is recognised by one of the rules. -/
theorem recognise_eq_ok {s : Fragment} {st st' : State α} {reading : Reading α}
    (h : (recognise vocabulary s).run st = .ok (reading, st')) :
    Interprets vocabulary st s reading st' := by
  unfold recognise at h
  split at h
  · rename_i operator hop
    obtain ⟨rfl, rfl⟩ := Prod.mk.inj (Except.ok.inj h)
    exact .operation hop
  · rename_i hop
    exact interpretOperand_eq_ok hop h

/-- There is only one way for a placeholder to fail, and it is shown as it stands. -/
theorem resolve_eq_error {groups : Groups} {interior : Fragment} {error : SyntaxError}
    (h : groups.resolve interior = .error error) :
    error = .invalidPlaceholder (String.ofList ('&' :: (interior ++ [';']))) := by
  unfold Groups.resolve at h
  split at h
  · exact nomatch h
  · exact (Except.error.inj h).symm

theorem interpretOperand_eq_error {s : Fragment} {st : State α} {error : SyntaxError}
    (h : (interpretOperand vocabulary s).run st = .error error) :
    (∃ token, error = .invalidPlaceholder token) ∨ error = .unexpectedEnd (String.ofList s) := by
  rw [interpretOperand_run] at h
  split at h
  · split at h <;> exact nomatch h
  split at h
  · exact nomatch h
  split at h
  · rename_i interior _
    cases htext : st.groups.resolve interior with
    | error e =>
      rw [htext] at h
      obtain rfl : e = error := Except.error.inj h
      exact Or.inl ⟨_, resolve_eq_error htext⟩
    | ok text =>
      rw [htext] at h
      exact nomatch h
  split at h
  · exact nomatch h
  split at h
  · exact nomatch h
  · exact Or.inr (Except.error.inj h).symm

/-- A fragment without groups that is not recognised has a placeholder without a group, or none of
the forms of an operand. -/
theorem recognise_eq_error {s : Fragment} {st : State α} {error : SyntaxError}
    (h : (recognise vocabulary s).run st = .error error) :
    (∃ token, error = .invalidPlaceholder token) ∨ error = .unexpectedEnd (String.ofList s) := by
  unfold recognise at h
  split at h
  · exact nomatch h
  · exact interpretOperand_eq_error h

theorem interpret_eq_error {s : Fragment} {st : State α} {error : SyntaxError}
    (h : (interpret vocabulary s).run st = .error error) :
    (st.groups.setAside s.trim).1 = .error error ∨
      (∃ token, error = .invalidPlaceholder token) ∨
      ∃ hidden, (st.groups.setAside s.trim).1 = .ok hidden ∧
        error = .unexpectedEnd (String.ofList (Fragment.trim hidden)) := by
  rw [interpret_run] at h
  cases hidden : (st.groups.setAside s.trim).1 with
  | error e =>
    rw [hidden] at h
    exact Or.inl (congrArg Except.error (Except.error.inj h))
  | ok m =>
    rw [hidden] at h
    exact Or.inr ((recognise_eq_error h).imp_right fun herror => ⟨m, rfl, herror⟩)

omit [Zero α] [Numeral α] in
/-- Trees fail to be put together only if there are too few or too many, for an operator or for a
group. -/
theorem assemble_eq_error {reading : Reading α} {trees : List (Tree α)} {error : SyntaxError}
    (h : reading.assemble trees = .error error) :
    ∃ text, error = .unexpectedEnd (String.ofList text) ∧
      ((∃ operator, reading = .operation operator text) ∨ reading = .group text) := by
  unfold Reading.assemble at h
  split at h
  · exact nomatch h
  · dsimp only at h
    split at h
    · exact nomatch h
    · exact ⟨_, (Except.error.inj h).symm, Or.inl ⟨_, rfl⟩⟩
  · exact nomatch h
  · split at h
    · exact nomatch h
    · exact ⟨_, (Except.error.inj h).symm, Or.inr rfl⟩

/-- A step that succeeds has set groups aside and applied one of the rules. -/
theorem interpret_eq_ok {s : Fragment} {st st' : State α} {reading : Reading α}
    (h : (interpret vocabulary s).run st = .ok (reading, st')) :
    ∃ hidden, (st.groups.setAside s.trim).1 = .ok hidden ∧
      Interprets vocabulary ⟨(st.groups.setAside s.trim).2, st.vars⟩ (Fragment.trim hidden)
        reading st' := by
  rw [interpret_run] at h
  cases hidden : (st.groups.setAside s.trim).1 with
  | error e => simp [hidden, Except.bind] at h
  | ok m =>
    rw [hidden] at h
    exact ⟨m, rfl, recognise_eq_ok h⟩

/-! ### A fragment and its parts -/

theorem fragment_zero (s : Fragment) (st : State α) :
    (fragment vocabulary 0 s).run st = .error .endlessExpansion := rfl

/-- One step interprets the fragment, reads its parts with one depth less, and puts their trees
together. -/
theorem fragment_run (vocabulary : Vocabulary α) (depth : Nat) (s : Fragment) (st : State α) :
    (fragment vocabulary (depth + 1) s).run st =
      ((interpret vocabulary s).run st).bind fun r =>
        ((r.1.parts.mapM (fragment vocabulary depth)).run r.2).bind fun q =>
          (r.1.assemble q.1).map fun tree => (tree, q.2) := by
  rw [fragment]
  simp only [bind_run]
  congr 1

/-- Reads a fragment whose groups have been set aside, and all its parts. -/
def readHidden (vocabulary : Vocabulary α) (depth : Nat) (s : Fragment) : Reader α (Tree α) := do
  let reading ← recognise vocabulary s
  let trees ← reading.parts.mapM (fragment vocabulary depth)
  reading.assemble trees

theorem readHidden_run (vocabulary : Vocabulary α) (depth : Nat) (s : Fragment) (st : State α) :
    (readHidden vocabulary depth s).run st =
      ((recognise vocabulary s).run st).bind fun r =>
        ((r.1.parts.mapM (fragment vocabulary depth)).run r.2).bind fun q =>
          (r.1.assemble q.1).map fun tree => (tree, q.2) := by
  unfold readHidden
  simp only [bind_run]
  rfl

/-- The argument is the only part of a call. -/
theorem call_run (name : String) (apply : List α → α) (argument : Fragment) (depth : Nat)
    (st : State α) :
    (((Reading.call name apply argument).parts.mapM (fragment vocabulary depth)).run st).bind
        (fun q => ((Reading.call name apply argument).assemble q.1).map fun tree => (tree, q.2)) =
      ((fragment vocabulary depth argument).run st).bind fun q =>
        .ok (.call name apply q.1.elements, q.2) := by
  simp only [Reading.parts, List.mapM_cons, List.mapM_nil, bind_run]
  cases (fragment vocabulary depth argument).run st with
  | error e => rfl
  | ok q =>
    show Except.ok (Tree.call name apply ([q.1].flatMap Tree.elements), q.2) = _
    rw [List.flatMap_singleton]
    rfl

/-- The text is the only part of a group, and its tree the whole tree. -/
theorem group_run (text : Fragment) (depth : Nat) (st : State α) :
    (((.group text : Reading α).parts.mapM (fragment vocabulary depth)).run st).bind
        (fun q => ((Reading.group text).assemble q.1).map fun tree => (tree, q.2)) =
      (fragment vocabulary depth text).run st := by
  simp only [Reading.parts, List.mapM_cons, List.mapM_nil, bind_run]
  cases (fragment vocabulary depth text).run st <;> rfl

/-- A fragment is read as what is left of it when its groups have been set aside. -/
theorem fragment_run_hidden (vocabulary : Vocabulary α) (depth : Nat) (s : Fragment)
    (st : State α) :
    (fragment vocabulary (depth + 1) s).run st =
      (st.groups.setAside s.trim).1.bind fun hidden =>
        (readHidden vocabulary depth (Fragment.trim hidden)).run
          ⟨(st.groups.setAside s.trim).2, st.vars⟩ := by
  rw [fragment_run, interpret_run]
  cases (st.groups.setAside s.trim).1 with
  | error e => rfl
  | ok hidden =>
    rw [Except.bind, Except.bind, readHidden_run]

/-- A fragment is read just when it is interpreted, its parts are read and their trees can be put
together. -/
theorem fragment_eq_ok {depth : Nat} {s : Fragment} {st st' : State α} {tree : Tree α} :
    (fragment vocabulary (depth + 1) s).run st = .ok (tree, st') ↔
      ∃ reading st₁ trees, (interpret vocabulary s).run st = .ok (reading, st₁) ∧
        (reading.parts.mapM (fragment vocabulary depth)).run st₁ = .ok (trees, st') ∧
        reading.assemble trees = .ok tree := by
  rw [fragment_run]
  rcases (interpret vocabulary s).run st with e | ⟨reading, st₁⟩
  · simp [Except.bind]
  rcases hparts : (reading.parts.mapM (fragment vocabulary depth)).run st₁ with e | ⟨trees, st₂⟩
  · simp [Except.bind, hparts, and_assoc]
  cases htree : reading.assemble trees with
  | error e => simp [Except.bind, Except.map, hparts, htree, and_assoc]
  | ok t => simp [Except.bind, Except.map, hparts, htree, and_assoc, and_comm]

/-- A fragment is not read just when one of these three fails, and then it fails in the same way. -/
theorem fragment_eq_error {depth : Nat} {s : Fragment} {st : State α} {error : SyntaxError} :
    (fragment vocabulary (depth + 1) s).run st = .error error ↔
      (interpret vocabulary s).run st = .error error ∨
      ∃ reading st₁, (interpret vocabulary s).run st = .ok (reading, st₁) ∧
        ((reading.parts.mapM (fragment vocabulary depth)).run st₁ = .error error ∨
          ∃ trees st₂, (reading.parts.mapM (fragment vocabulary depth)).run st₁ = .ok (trees, st₂) ∧
            reading.assemble trees = .error error) := by
  rw [fragment_run]
  rcases (interpret vocabulary s).run st with e | ⟨reading, st₁⟩
  · simp [Except.bind]
  rcases hparts : (reading.parts.mapM (fragment vocabulary depth)).run st₁ with e | ⟨trees, st₂⟩
  · simp [Except.bind, hparts, and_assoc]
  cases htree : reading.assemble trees with
  | error e => simp [Except.bind, Except.map, hparts, htree, and_assoc]
  | ok t => simp [Except.bind, Except.map, hparts, htree, and_assoc]

/-! ### The whole text -/

/-- A character takes one byte at least. -/
theorem length_le_byteLength (s : Fragment) : s.length ≤ s.byteLength := by
  induction s with
  | nil => exact Nat.le_refl 0
  | cons c s ih =>
    have hpos : 0 < c.utf8Size := c.utf8Size_pos
    have hcons : Fragment.byteLength (c :: s) = c.utf8Size + Fragment.byteLength s := rfl
    rw [hcons, List.length_cons]
    omega

omit [Zero α] [Numeral α] in
/-- The bound has room for as many fragments as the text has bytes, once more than there are marks
in it. -/
theorem mul_le_depthBound (vocabulary : Vocabulary α) (s : Fragment) :
    (s.count '&' + 1) * (s.byteLength + 1) ≤ depthBound vocabulary s := by
  unfold depthBound
  dsimp only
  split
  · exact Nat.le_mul_of_pos_right _ (Nat.pow_pos (by decide))
  · exact Nat.le_refl _

omit [Zero α] [Numeral α] in
theorem byteLength_lt_depthBound (vocabulary : Vocabulary α) (s : Fragment) :
    s.byteLength < depthBound vocabulary s :=
  Nat.le_trans (Nat.le_mul_of_pos_left _ (Nat.succ_pos _)) (mul_le_depthBound vocabulary s)

/-- What is parsed is the text as a whole, in the initial state and with the depth that is its
bound. -/
theorem parse_eq_map (vocabulary : Vocabulary α) (text : String) :
    parse vocabulary text =
      ((fragment vocabulary (depthBound vocabulary text.toList) text.toList).run .initial).map
        fun r => (r.1, r.2.vars) := by
  unfold parse
  show Except.bind _ _ = _
  generalize (fragment vocabulary (depthBound vocabulary text.toList) text.toList).run
    .initial = x
  cases x <;> rfl

theorem parse_eq_ok {text : String} {tree : Tree α} {vars : Variables α} :
    parse vocabulary text = .ok (tree, vars) ↔
      ∃ st, (fragment vocabulary (depthBound vocabulary text.toList) text.toList).run .initial =
        .ok (tree, st) ∧ st.vars = vars := by
  rw [parse_eq_map]
  generalize (fragment vocabulary (depthBound vocabulary text.toList) text.toList).run
    .initial = x
  rcases x with e | ⟨tree', st⟩ <;> simp [Except.map, and_assoc]

theorem parse_eq_error {text : String} {error : SyntaxError} :
    parse vocabulary text = .error error ↔
      (fragment vocabulary (depthBound vocabulary text.toList) text.toList).run .initial =
        .error error := by
  rw [parse_eq_map]
  generalize (fragment vocabulary (depthBound vocabulary text.toList) text.toList).run
    .initial = x
  rcases x with e | ⟨tree', st⟩ <;> simp [Except.map]

end Formula.Parser
