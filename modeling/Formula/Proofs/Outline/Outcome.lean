import Formula.Proofs.Outline.Agreement
import Formula.Proofs.Outline.Closed

/-!
# The same outcome

Two readings have the same outcome when they find the same tree and the same variables, or fail with
the same kind of fault; the fragments that the faults show may differ (`SameOutcome`).

What two outlines are read to is compared part by part. An operator cuts an outline into `pieces`,
and its operands depend on the pieces only by their text and by whether they are blank
(`operandsOf_forall₂`). So two outlines that are cut into pieces that read alike read alike
(`readsAlike_of_pieces`). `parse_sameOutcome` leads from outlines to texts.
-/

namespace Formula

/-- Whether two readings have the same result, or have both failed with the same kind of fault. -/
inductive SameOutcome {β : Type} : Except SyntaxError β → Except SyntaxError β → Prop where
  | ok (result : β) : SameOutcome (.ok result) (.ok result)
  | error {e e' : SyntaxError} (h : e.code? = e'.code?) : SameOutcome (.error e) (.error e')

namespace SameOutcome

variable {β γ : Type} {x y z : Except SyntaxError β}

theorem refl : ∀ x : Except SyntaxError β, SameOutcome x x
  | .ok result => .ok result
  | .error _ => .error rfl

theorem symm (h : SameOutcome x y) : SameOutcome y x := by
  cases h with
  | ok result => exact .ok result
  | error h => exact .error h.symm

theorem trans (h : SameOutcome x y) (h' : SameOutcome y z) : SameOutcome x z := by
  cases h with
  | ok result => exact h'
  | error h =>
    cases h' with
    | error h' => exact .error (h.trans h')

/-- Runs with the same outcome go on to the same outcome, if the second steps have the same for
every result. -/
theorem bind {f g : β → Except SyntaxError γ} (h : SameOutcome x y)
    (hnext : ∀ b, SameOutcome (f b) (g b)) : SameOutcome (x.bind f) (y.bind g) := by
  cases h with
  | ok result => exact hnext result
  | error h => exact .error h

end SameOutcome

namespace Outline

/-! ### Pieces and operands -/

/-- The parts of an outline between the places where an operator cuts it: all between two of its
marks, or the two sides of the first `%` or of the last `^`. -/
def pieces (operator : Operator) (o : Outline) : List Outline :=
  let mark := Piece.plain operator.symbol
  match operator with
  | .modulo => both (Text.firstCut? mark o)
  | .raise => both (Text.lastCut? mark o)
  | _ => o.splitOn mark
where
  /-- The two sides of a cut. -/
  both : Option (Outline × Outline) → List Outline
    | some (left, right) => [left, right]
    | none => []

/-- Pieces as operands, all but the first inverted. -/
def invertRest : List Outline → List Operand
  | [] => []
  | first :: rest => ⟨first, false⟩ :: rest.map fun piece => ⟨piece, true⟩

/-- The operands that an operator makes of pieces. -/
def operandsOf (operator : Operator) (ps : List Outline) : List Operand :=
  match operator with
  | .list | .add => dropBlank (ps.map fun piece => ⟨piece, false⟩)
  | .subtract | .divide => dropBlank (invertRest ps)
  | .multiply | .modulo | .raise => ps.map fun piece => ⟨piece, false⟩

/-- Operands are the pieces of an outline, and which of them are inverted depends on their number
alone. -/
theorem operands_eq (operator : Operator) (o : Outline) :
    operands operator o = operandsOf operator (pieces operator o) := by
  have hsides : ∀ cut : Option (Outline × Outline),
      sides cut = (pieces.both cut).map fun piece => ⟨piece, false⟩ := by
    intro cut
    cases cut <;> rfl
  cases operator with
  | modulo | raise => exact hsides _
  | _ => rfl

/-- Every piece is a shorter part, for the operator is not in it. -/
theorem pieces_sublist {operator : Operator} {o p : Outline} (hmark : .plain operator.symbol ∈ o)
    (h : p ∈ pieces operator o) : List.Sublist p o ∧ p.length < o.length := by
  have hsplit : p ∈ o.splitOn (.plain operator.symbol) → List.Sublist p o ∧ p.length < o.length :=
    fun h => ⟨Text.sublist_of_mem_splitOn h, Text.length_lt_of_mem_splitOn hmark h⟩
  have hboth : ∀ {left right : Outline}, o = left ++ .plain operator.symbol :: right →
      p ∈ [left, right] → List.Sublist p o ∧ p.length < o.length := by
    rintro left right rfl hp
    rcases List.mem_pair.mp hp with rfl | rfl
    · exact ⟨List.sublist_append_left _ _, by simp⟩
    · exact ⟨(List.sublist_cons_self _ _).trans (List.sublist_append_right _ _),
        by simp only [List.length_append, List.length_cons]; omega⟩
  -- `%` and `^` cut once; the other operators split
  cases operator with
  | modulo =>
    obtain ⟨left, right, ho, -, hcut⟩ := Text.exists_firstCut? hmark
    rw [pieces, hcut] at h
    exact hboth ho h
  | raise =>
    obtain ⟨left, right, ho, -, hcut⟩ := Text.exists_lastCut? hmark
    rw [pieces, hcut] at h
    exact hboth ho h
  | _ => exact hsplit h

section Related

variable {R : Outline → Outline → Prop}

theorem map_operand_forall₂ {ps qs : List Outline} (inverted : Bool) (h : List.Forall₂ R ps qs) :
    List.Forall₂ (fun a b : Operand => a.inverted = b.inverted ∧ R a.outline b.outline)
      (ps.map fun piece => ⟨piece, inverted⟩) (qs.map fun piece => ⟨piece, inverted⟩) := by
  rw [List.forall₂_map_left_iff, List.forall₂_map_right_iff]
  exact h.imp fun _ _ hpart => ⟨rfl, hpart⟩

/-- Pieces that are related in pairs, blank ones to blank ones, become operands that are. -/
theorem operandsOf_forall₂ (hblank : ∀ p q, R p q → p.allBlank = q.allBlank) (operator : Operator)
    {ps qs : List Outline} (h : List.Forall₂ R ps qs) :
    List.Forall₂ (fun a b : Operand => a.inverted = b.inverted ∧ R a.outline b.outline)
      (operandsOf operator ps) (operandsOf operator qs) := by
  have hdrop : ∀ {as bs : List Operand},
      List.Forall₂ (fun a b : Operand => a.inverted = b.inverted ∧ R a.outline b.outline) as bs →
      List.Forall₂ (fun a b : Operand => a.inverted = b.inverted ∧ R a.outline b.outline)
        (dropBlank as) (dropBlank bs) := by
    intro as bs h
    induction h with
    | nil => exact .nil
    | @cons a b as bs hhead _ ih =>
      have hsame := hblank _ _ hhead.2
      unfold dropBlank at ih ⊢
      rw [List.filter_cons, List.filter_cons, hsame]
      split
      · exact .cons hhead ih
      · exact ih
  -- related operands are blank alike, so that the same ones are dropped
  cases operator with
  | list | add => exact hdrop (map_operand_forall₂ false h)
  | subtract | divide =>
    refine hdrop ?_
    cases h with
    | nil => exact .nil
    | cons hhead htail => exact .cons ⟨rfl, hhead⟩ (map_operand_forall₂ true htail)
  | multiply | modulo | raise => exact map_operand_forall₂ false h

end Related

/-! ### Reading alike -/

variable {α : Type} [Zero α] [Numeral α] {vocabulary : Vocabulary α}

/-- Whether two outlines are read with the same outcome, whatever variables there are. -/
def ReadsAlike (vocabulary : Vocabulary α) (o p : Outline) : Prop :=
  ∀ vars, SameOutcome ((read vocabulary o).run vars) ((read vocabulary p).run vars)

theorem ReadsAlike.of_eq {o p : Outline} (h : read vocabulary o = read vocabulary p) :
    ReadsAlike vocabulary o p := by
  intro vars
  rw [h]
  exact .refl _

/-- Operands that are read alike one by one are read alike together. -/
theorem operands_sameOutcome (operator : Operator) {as bs : List Operand}
    (h : List.Forall₂ (fun a b : Operand => a.inverted = b.inverted ∧
      ReadsAlike vocabulary a.outline b.outline) as bs) (vars : Variables α) :
    SameOutcome
      ((as.mapM fun operand : Operand => do
        let tree ← read vocabulary operand.outline
        return operator.orient operand.inverted tree).run vars)
      ((bs.mapM fun operand : Operand => do
        let tree ← read vocabulary operand.outline
        return operator.orient operand.inverted tree).run vars) := by
  induction h generalizing vars with
  | nil => exact .refl _
  | @cons a b as bs hhead _ ih =>
    rw [List.mapM_cons, List.mapM_cons]
    simp only [Parser.bind_run, bind_assoc, pure_bind]
    refine (hhead.2 vars).bind fun r => ?_
    rw [hhead.1]
    exact (ih r.2).bind fun _ => .refl _

/-- Outlines that are cut by the same operator into pieces that read alike read alike. -/
theorem readsAlike_of_pieces {o p : Outline} {operator : Operator}
    (hop : o.loosestIn? = some operator) (hop' : p.loosestIn? = some operator)
    (h : List.Forall₂ (fun q r => q.allBlank = r.allBlank ∧ ReadsAlike vocabulary q r)
      (pieces operator o) (pieces operator p)) : ReadsAlike vocabulary o p := by
  intro vars
  have hoperands := operandsOf_forall₂ (fun _ _ hpart => hpart.1) operator h
  rw [← operands_eq, ← operands_eq] at hoperands
  rw [read_of_loosestIn? hop, read_of_loosestIn? hop', Parser.bind_run, Parser.bind_run]
  refine (operands_sameOutcome operator (hoperands.imp fun _ _ hpart => ⟨hpart.1, hpart.2.2⟩)
    vars).bind fun r => ?_
  cases operator.assemble? r.1 with
  | some tree => exact .refl _
  | none => exact .error rfl

/-! ### Texts -/

theorem parse_of_ofText {text : String} {o : Outline} (h : ofText text.toList = .ok o) :
    parse vocabulary text = (read vocabulary o).run .empty := by
  obtain ⟨hclosed, htext⟩ := ofText_eq_ok_iff_closed.mp h
  rw [parse, ← htext, hclosed.ofText_trim, ← read_trim]
  rfl

/-- A text with a bracket that is never closed is not read. -/
theorem parse_of_depth (vocabulary : Vocabulary α) {text : String}
    (h : Fragment.depth text.toList ≠ 0) :
    ∃ e, parse vocabulary text = .error e ∧ e.code? = some "E1001" := by
  rw [← Fragment.depth_trim, ne_eq, ← exists_ofText_iff] at h
  unfold ofText at h
  rw [parse, ofText]
  split
  · rename_i o hscan
    exact absurd ⟨o, by rw [hscan]⟩ h
  · exact ⟨_, rfl, rfl⟩

/-- The parser and the reader of outlines have the same outcome. -/
theorem sameOutcome_parse (hnames : ∀ name ∈ vocabulary.names, '&' ∉ name.toList) {text : String}
    (htext : '&' ∉ text.toList) :
    SameOutcome (parse vocabulary text) (Parser.parse vocabulary text) := by
  have hagree := parse_agrees hnames htext
  rw [Parser.parse_eq_map]
  generalize parse vocabulary text = x at hagree ⊢
  generalize (Parser.fragment vocabulary _ text.toList).run .initial = y at hagree ⊢
  cases hagree with
  | ok hsame _ =>
    subst hsame
    exact .refl _
  | error h => exact .error h.code_eq

/-- Texts have the same outcome when a bracket is left open in both or in neither, and then their
outlines read alike. -/
theorem parse_sameOutcome (hnames : ∀ name ∈ vocabulary.names, '&' ∉ name.toList)
    {text text' : String} (htext : '&' ∉ text.toList) (htext' : '&' ∉ text'.toList)
    (hdepth : Fragment.depth text.toList = Fragment.depth text'.toList)
    (hread : ∀ o p, ofText text.toList = .ok o → ofText text'.toList = .ok p →
      ReadsAlike vocabulary o p) :
    SameOutcome (Parser.parse vocabulary text) (Parser.parse vocabulary text') := by
  refine (sameOutcome_parse hnames htext).symm.trans (.trans ?_ (sameOutcome_parse hnames htext'))
  -- the brackets of both texts are closed, or neither text has an outline
  by_cases hzero : Fragment.depth text.toList = 0
  · obtain ⟨o, ho⟩ := exists_ofText_iff.mpr hzero
    obtain ⟨p, hp⟩ := exists_ofText_iff.mpr (hdepth ▸ hzero)
    rw [parse_of_ofText ho, parse_of_ofText hp]
    exact hread o p ho hp .empty
  · obtain ⟨e, he, hcode⟩ := parse_of_depth vocabulary hzero
    obtain ⟨e', he', hcode'⟩ := parse_of_depth vocabulary (hdepth ▸ hzero)
    rw [he, he']
    exact .error (hcode.trans hcode'.symm)

end Outline

end Formula
