import Formula.Parser
import Formula.Proofs.Outline
import Formula.Proofs.Recognition

/-!
# Reading outlines

A reader that sees the groups of a text where they stand. It takes an outline apart by the rules of
the language and reads the text of a group when it comes to the group; nothing is set aside and no
placeholder is made, so that all it carries along is the table of variables.

Every part that is read has a shorter text than the whole, so the reader needs no bound.
`read_eq` is its equation.
-/

namespace Formula.Outline

variable {α : Type} [Zero α] [Numeral α]

/-- Reads an outline. Blank characters at its ends do not count; then the first rule that fits
applies:

1. at the loosest operator outside every group it is split, and the operands are read in order;
2. after the only function name that begins it comes the argument, where a blank group is an empty
   list of arguments and the elements of a tuple are the arguments;
3. a constant name may begin it, whatever follows;
4. of an outline with a group in it, the text of the first group is read;
5. it may write a number;
6. it may be the name of a variable. -/
def read (vocabulary : Vocabulary α) (outline : Outline) :
    StateT (Variables α) (Except SyntaxError) (Tree α) :=
  match _hmark : outline.trim.loosestIn? with
  | some operator => do
    let trees ← (operands operator outline.trim).attach.mapM fun ⟨operand, _⟩ => do
      let tree ← read vocabulary operand.outline
      return operator.orient operand.inverted tree
    match operator.assemble? trees with
    | some tree => return tree
    | none => throw (.unexpectedEnd (String.ofList outline.trim.text))
  | none =>
  match _hname : vocabulary.functionAt? outline.trim.front with
  | some (name, apply) =>
    let argument : Outline := outline.trim.drop name.length
    if argument.isBlankGroup then
      return .call name apply []
    else do
      let tree ← read vocabulary argument
      return .call name apply tree.elements
  | none =>
  match vocabulary.constantAt? outline.trim.front with
  | some (name, value) => return .constant name value
  | none =>
  match _hgroup : outline.trim.firstGroup? with
  | some inner =>
    match _htext : ofText inner.trim with
    | .ok group => read vocabulary group
    | .error error => throw error
  | none =>
  match Parser.number? outline.trim.text with
  | some value => return .scalar value
  | none =>
  if Parser.isVariableName vocabulary outline.trim.text then do
    let id ← modifyGet fun vars => vars.intern (String.ofList outline.trim.text)
    return .var id
  else
    throw (.unexpectedEnd (String.ofList outline.trim.text))
termination_by outline.text.length
decreasing_by
  all_goals have hle := length_text_le_of_sublist outline.trim_sublist
  · exact lt_of_lt_of_le (operand_text_lt (mem_of_loosestIn? _hmark) ‹_›) hle
  · obtain ⟨hpos, hfront⟩ := Vocabulary.functionAt?_length _hname
    exact lt_of_lt_of_le (drop_text_lt hpos hfront) hle
  · have hinner := firstGroup?_text_lt _hgroup
    have htrim := (Text.trimBy_sublist (p := Text.isBlank) inner).length_le
    rw [text_of_ofText _htext, Text.trim_eq_trimBy]
    omega

/-- The equation of `read`, without the proofs that its recursion needs. -/
theorem read_eq (vocabulary : Vocabulary α) (o : Outline) :
    read vocabulary o =
      match o.trim.loosestIn? with
      | some operator => do
        let trees ← (operands operator o.trim).mapM fun operand => do
          let tree ← read vocabulary operand.outline
          return operator.orient operand.inverted tree
        match operator.assemble? trees with
        | some tree => return tree
        | none => throw (.unexpectedEnd (String.ofList o.trim.text))
      | none =>
      match vocabulary.functionAt? o.trim.front with
      | some (name, apply) =>
        if isBlankGroup (o.trim.drop name.length) then
          return .call name apply []
        else do
          let tree ← read vocabulary (o.trim.drop name.length)
          return .call name apply tree.elements
      | none =>
      match vocabulary.constantAt? o.trim.front with
      | some (name, value) => return .constant name value
      | none =>
      match o.trim.firstGroup? with
      | some inner =>
        match ofText inner.trim with
        | .ok group => read vocabulary group
        | .error error => throw error
      | none =>
      match Parser.number? o.trim.text with
      | some value => return .scalar value
      | none =>
      if Parser.isVariableName vocabulary o.trim.text then do
        let id ← modifyGet fun vars => vars.intern (String.ofList o.trim.text)
        return .var id
      else
        throw (.unexpectedEnd (String.ofList o.trim.text)) := by
  rw [read]
  split
  · rename_i operator hop
    rw [hop]
    dsimp only
    congr 1
    -- only the proofs of membership are forgotten, which termination has asked for
    rw [List.mapM_subtype (g := fun operand => do
      let tree ← read vocabulary operand.outline
      return operator.orient operand.inverted tree) (fun _ _ => rfl), List.unattach_attach]
  rename_i hop
  rw [hop]
  dsimp only
  split
  · rename_i name apply hname
    rw [hname]
  rename_i hname
  rw [hname]
  dsimp only
  cases vocabulary.constantAt? o.trim.front with
  | some entry => rfl
  | none =>
    dsimp only
    split
    · rename_i inner hgroup
      rw [hgroup]
      dsimp only
      split <;> rename_i htext <;> rw [htext]
    · rename_i hgroup
      rw [hgroup]

/-- Blank characters at the ends of an outline do not count. -/
theorem read_congr {vocabulary : Vocabulary α} {o p : Outline} (h : o.trim = p.trim) :
    read vocabulary o = read vocabulary p := by
  rw [read_eq, read_eq vocabulary p, h]

/-- Reads a text through its outline. -/
def parse (vocabulary : Vocabulary α) (text : String) :
    Except SyntaxError (Tree α × Variables α) := do
  let outline ← ofText (Fragment.trim text.toList)
  (read vocabulary outline).run .empty

end Formula.Outline
