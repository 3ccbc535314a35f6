import Formula.Proofs.Outline.Chains
import Formula.Proofs.Outline.Tidy

/-!
# The meaning of atoms

What an outline without operators outside its groups is read as: a number, a constant, a variable,
a group or a call. Blanks around it do not count (`Means.congr`), so that only its core is looked
at here.
-/

namespace Formula.Outline

variable {α : Type} [Arithmetic α] [Numeral α] {vocabulary : Vocabulary α}

/-! ### Characters -/

theorem trim_map_plain {s : Fragment} (h : ∀ c ∈ s, Text.isBlank c = false) :
    trim (s.map .plain) = s.map .plain := by
  have hpieces : ∀ piece ∈ s.map Piece.plain, Piece.isBlank piece = false :=
    List.forall_mem_map.mpr h
  exact Text.trimBy_eq_self hpieces

theorem plain_notMem_map {s : Fragment} {operator : Operator} (h : operator.symbol ∉ s) :
    .plain operator.symbol ∉ s.map Piece.plain := by
  simpa using h

section Characters

variable {s : Fragment} (hblank : ∀ c ∈ s, Text.isBlank c = false)
  (hop : ∀ operator : Operator, operator.symbol ∉ s)
  (hfun : vocabulary.functionAt? s = none)
include hblank hop hfun

/-- A fragment without operators is a constant, a number or a variable. -/
theorem read_map_plain :
    read vocabulary (s.map .plain) =
      match vocabulary.constantAt? s with
      | some (name, value) => return .constant name value
      | none =>
      match Parser.number? s with
      | some value => return .scalar value
      | none =>
      if Parser.isVariableName vocabulary s then do
        let id ← modifyGet fun vars => vars.intern (String.ofList s)
        return .var id
      else
        throw (.unexpectedEnd (String.ofList s)) := by
  have hnone := loosestIn?_eq_none fun operator => plain_notMem_map (hop operator)
  rw [read_eq, trim_map_plain hblank, hnone, front_map_plain, firstGroup?_map_plain,
    text_map_plain]
  generalize vocabulary.functionAt? s = entry at hfun ⊢
  subst hfun
  rfl

/-- A text that is recognised as a constant has its value. -/
theorem means_constant {name : String} {value : α}
    (hconst : vocabulary.constantAt? s = some (name, value)) :
    Means vocabulary (s.map .plain) fun _ => value := by
  intro vars
  refine ⟨.constant name value, vars, ?_, rfl, .refl vars, fun later _ => by rw [Tree.value]⟩
  rw [read_map_plain hblank hop hfun, hconst]
  rfl

variable (hconst : vocabulary.constantAt? s = none)
include hconst

/-- A text that is a number has its value. -/
theorem means_scalar {value : α} (hvalue : Parser.number? s = some value) :
    Means vocabulary (s.map .plain) fun _ => value := by
  intro vars
  refine ⟨.scalar value, vars, ?_, rfl, .refl vars, fun later _ => by rw [Tree.value]⟩
  rw [read_map_plain hblank hop hfun, hconst]
  dsimp only
  rw [hvalue]
  rfl

/-- A name that is no number and not recognised has the value of the variable. -/
theorem means_var (hvalue : (Parser.number? s : Option α) = none)
    (hname : Parser.isVariableName vocabulary s = true) :
    Means vocabulary (s.map .plain) fun ρ => ρ (String.ofList s) := by
  intro vars
  refine ⟨.var (vars.intern (String.ofList s)).1, (vars.intern (String.ofList s)).2, ?_, rfl,
    vars.grows_intern _, ?_⟩
  · rw [read_map_plain hblank hop hfun, hconst]
    dsimp only
    rw [hvalue]
    dsimp only
    rw [if_pos hname]
    rfl
  · intro later hlater
    -- the number that was given out is still that of the name
    have hid := hlater _ _ (vars.find?_intern (String.ofList s))
    rw [Tree.value]
    exact (Variables.valueNamed_of_find? hid).symm

end Characters

/-! ### Groups -/

/-- A group is read as the text in it. -/
theorem read_group {o : Outline} (h : Tidy o) :
    read vocabulary [.group o.text] = read vocabulary o := by
  rw [read_group_of_ofText h.ofText_trim, read_trim]

theorem means_group {o : Outline} {f : Meaning α} (htidy : Tidy o) (h : Means vocabulary o f) :
    Means vocabulary [.group o.text] f := by
  unfold Means at h ⊢
  rwa [read_group htidy]

/-! ### Calls -/

/-- Whether an outline is read to a tree whose elements have the given values. -/
def MeansAll (vocabulary : Vocabulary α) (o : Outline) (fs : List (Meaning α)) : Prop :=
  ∀ vars, ∃ tree vars', (read vocabulary o).run vars = .ok (tree, vars') ∧ vars.Grows vars' ∧
    ∀ later, vars'.Grows later →
      tree.elements.map (Tree.value later) = fs.map fun f => f later.valueNamed

/-- What means a single value is a list of one argument. -/
theorem Means.all {o : Outline} {f : Meaning α} (h : Means vocabulary o f) :
    MeansAll vocabulary o [f] := by
  intro vars
  obtain ⟨tree, vars', hread, htuple, hgrows, hvalue⟩ := h vars
  refine ⟨tree, vars', hread, hgrows, ?_⟩
  intro later hlater
  have helements : tree.elements = [tree] := by
    cases tree with
    | tuple items => exact nomatch htuple
    | _ => rfl
  rw [helements, List.map_singleton, List.map_singleton, hvalue later hlater]

/-- Several outlines with an operator between them are its operands, if nothing else is. -/
theorem operands_intercalate {operator : Operator}
    (hjoins : operator ∈ [Operator.list, .add, .multiply]) {os : List Outline} (hne : os ≠ [])
    (hos : ∀ o ∈ os, o.allBlank = false ∧ .plain operator.symbol ∉ o) :
    operands operator ([.plain operator.symbol].intercalate os) = os.map fun o => ⟨o, false⟩ := by
  have hsplit := List.splitOn_intercalate (Piece.plain operator.symbol)
    (fun o ho => (hos o ho).2) hne
  have hsolid : dropBlank (os.map fun o => ⟨o, false⟩) = os.map fun o => ⟨o, false⟩ := by
    rw [dropBlank, List.filter_eq_self]
    intro operand hoperand
    obtain ⟨o, ho, rfl⟩ := List.mem_map.mp hoperand
    simp [(hos o ho).1]
  simp only [List.mem_cons, List.not_mem_nil, or_false] at hjoins
  rcases hjoins with rfl | rfl | rfl
  · rw [operands, hsplit, hsolid]
  · rw [operands, hsplit, hsolid]
  · rw [operands, hsplit]

omit [Numeral α] in
theorem zipWith_list {os : List Outline} {fs : List (Meaning α)} (hlen : os.length = fs.length)
    (ρ : String → α) :
    (os.map fun o => (⟨o, false⟩ : Operand)).zipWith
      (fun operand f => Operator.list.orientValue operand.inverted (f ρ)) fs =
      fs.map fun f => f ρ := by
  induction os generalizing fs with
  | nil =>
    obtain rfl := List.length_eq_zero_iff.mp hlen.symm
    rfl
  | cons o os ih =>
    cases fs with
    | nil => rfl
    | cons f fs =>
      rw [List.map_cons, List.zipWith_cons_cons, ih (by simpa using hlen)]
      rfl

/-- Expressions with commas between them are read to a tuple, a single one to its own tree. -/
theorem meansAll_intercalate {os : List Outline} {fs : List (Meaning α)} (hne : os ≠ [])
    (hos : ∀ o ∈ os, o.allBlank = false ∧ .plain ',' ∉ o)
    (hmeans : List.Forall₂ (Means vocabulary) os fs) :
    MeansAll vocabulary ([.plain ','].intercalate os) fs := by
  have hoperands : operands .list ([.plain ','].intercalate os) = os.map fun o => ⟨o, false⟩ :=
    operands_intercalate (by simp) hne hos
  have hforall : List.Forall₂ (fun operand f => Means vocabulary operand.outline f)
      (operands .list ([.plain ','].intercalate os)) fs := by
    rw [hoperands, List.forall₂_map_left_iff]
    exact hmeans
  cases hmeans with
  | nil => exact absurd rfl hne
  | @cons o f os fs hhead htail =>
    cases htail with
    | nil => simpa using hhead.all
    | @cons o' f' os fs hhead' htail =>
      have hcomma : .plain ',' ∈ [.plain ','].intercalate (o :: o' :: os) := by
        simp [List.intercalate_cons_cons]
      -- no operator is looser than the comma
      have hop : loosestIn? ([.plain ','].intercalate (o :: o' :: os)) = some .list :=
        loosestIn?_of_lacks (List.nil_append _).symm (by simp) hcomma
      intro vars
      obtain ⟨trees, vars', hreads, hlen, -, hgrows, hvalues⟩ := mapM_means .list hforall vars
      match trees, hlen with
      | tree :: tree' :: trees, _ =>
        refine ⟨.tuple (tree :: tree' :: trees), vars', ?_, hgrows, ?_⟩
        · rw [read_of_loosestIn? hop]
          exact Parser.bind_eq_ok.mpr ⟨_, vars', hreads, rfl⟩
        · intro later hlater
          have hos : (o :: o' :: os).length = (f :: f' :: fs).length := by
            simpa using htail.length_eq
          have hvalue := hvalues later hlater
          rw [hoperands, zipWith_list hos] at hvalue
          exact hvalue

section Calls

variable {name : String} {apply : List α → α} {b : Fragment} {inner : Outline}
  (hblank : ∀ c ∈ name.toList, Text.isBlank c = false)
  (hop : ∀ operator : Operator, operator.symbol ∉ name.toList) (hb : b.allBlank = true)
  (hfun : vocabulary.functionAt? (name.toList ++ b) = some (name, apply)) (htidy : Tidy inner)
  (hsolid : inner.allBlank = false)
include hblank hop hb hfun htidy hsolid

/-- A function name in front of a group calls the function with the elements of the group. -/
theorem read_call :
    read vocabulary ((name.toList ++ b).map .plain ++ [.group inner.text]) = do
      let tree ← read vocabulary inner
      return .call name apply tree.elements := by
  have hplain : allBlank (b.map .plain) = true := allBlank_map_plain.trans hb
  have htrim : trim ((name.toList ++ b).map .plain ++ [.group inner.text]) =
      (name.toList ++ b).map .plain ++ [.group inner.text] := by
    have hpos := (Vocabulary.functionAt?_length hfun).1
    obtain ⟨c, rest, hname⟩ := List.exists_cons_of_ne_nil
      (List.ne_nil_of_length_pos (String.length_toList ▸ hpos))
    have hc : Text.isBlank c = false := hblank c (by simp [hname])
    rw [trim, Text.trimBy_append (by rfl), hname, List.cons_append, List.map_cons,
      List.dropWhile_cons_of_neg (by simp [Piece.isBlank, hc])]
    rfl
  have hdrop : ((name.toList ++ b).map Piece.plain ++ [Piece.group inner.text]).drop name.length =
      b.map Piece.plain ++ [Piece.group inner.text] := by
    rw [List.map_append, List.append_assoc]
    exact List.drop_left' (by rw [List.length_map, String.length_toList])
  have hargument : isBlankGroup (b.map .plain ++ [.group inner.text]) = false := by
    rw [isBlankGroup, trim_append_left hplain, trim_group]
    dsimp only
    rw [allBlank_text, hsolid]
  have hnone : loosestIn? ((name.toList ++ b).map .plain ++ [.group inner.text]) = none := by
    apply loosestIn?_eq_none
    intro operator
    have hmem := notMem_of_allBlank hplain operator
    simp only [List.map_append, List.mem_append, not_or]
    exact ⟨⟨plain_notMem_map (hop operator), hmem⟩, by simp⟩
  -- the blanks between the name and the group do not count
  have hread : read vocabulary (b.map .plain ++ [.group inner.text]) = read vocabulary inner := by
    rw [← read_group htidy]
    exact read_congr (trim_append_left hplain _)
  rw [read_eq, htrim, hnone, front_map_plain_append]
  dsimp only
  rw [hfun]
  dsimp only
  rw [hdrop, hargument, hread]
  rfl

/-- A call means its function, applied to what the arguments mean. -/
theorem means_call {fs : List (Meaning α)} (hargs : MeansAll vocabulary inner fs) :
    Means vocabulary ((name.toList ++ b).map .plain ++ [.group inner.text]) fun ρ =>
      apply (fs.map fun f => f ρ) := by
  intro vars
  obtain ⟨tree, vars', hinner, hgrows, hvalues⟩ := hargs vars
  refine ⟨.call name apply tree.elements, vars', ?_, rfl, hgrows, ?_⟩
  · rw [read_call hblank hop hb hfun htidy hsolid]
    exact Parser.bind_eq_ok.mpr ⟨tree, vars', hinner, rfl⟩
  · intro later hlater
    rw [Tree.value, Tree.valueAll_eq_map, hvalues later hlater]

end Calls

end Formula.Outline
