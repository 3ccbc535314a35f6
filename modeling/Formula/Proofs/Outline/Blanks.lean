import Formula.Proofs.Outline.Reader
import Formula.Proofs.Text.Characters

/-!
# Blanks around operands

A reader trims an outline before it splits it. `operands_map_trim` says that it might as well split
the outline first, since its parts are trimmed in their turn; `read_of_loosestIn?` is the equation
of `read` for an operator in this form.
-/

namespace Formula.Outline

/-! ### What trimming keeps -/

/-- Blanks in front do not count once an outline is trimmed. -/
theorem trim_append_left {b : Outline} (h : b.allBlank = true) (o : Outline) :
    trim (b ++ o) = o.trim :=
  Text.trimBy_append_left (by simpa [allBlank] using h) o

theorem trim_append_right {b : Outline} (h : b.allBlank = true) (o : Outline) :
    trim (o ++ b) = o.trim :=
  Text.trimBy_append_right (by simpa [allBlank] using h) o

theorem exists_trim (o : Outline) :
    ∃ b b' : Outline, o = b ++ o.trim ++ b' ∧ b.allBlank = true ∧ b'.allBlank = true := by
  obtain ⟨b, b', ho, hb, hb'⟩ := Text.exists_trimBy (p := Piece.isBlank) o
  exact ⟨b, b', ho, by simpa [allBlank] using hb, by simpa [allBlank] using hb'⟩

/-- Which operator is the loosest depends only on which symbols there are. -/
theorem loosestIn?_congr {o p : Outline}
    (h : ∀ operator : Operator, .plain operator.symbol ∈ o ↔ .plain operator.symbol ∈ p) :
    o.loosestIn? = p.loosestIn? := by
  unfold loosestIn?
  congr 1
  funext operator
  exact decide_eq_decide.mpr (h operator)

theorem loosestIn?_trim (o : Outline) : o.trim.loosestIn? = o.loosestIn? :=
  loosestIn?_congr fun operator =>
    Text.mem_trimBy_iff (x := Piece.plain operator.symbol) (isBlank_symbol operator)

theorem loosestIn?_eq_none {o : Outline} (h : ∀ operator : Operator, .plain operator.symbol ∉ o) :
    o.loosestIn? = none := by
  rw [loosestIn?, List.find?_eq_none]
  intro operator _
  simpa using h operator

theorem notMem_of_loosestIn?_eq_none {o : Outline} (h : o.loosestIn? = none)
    (operator : Operator) : .plain operator.symbol ∉ o := by
  rw [loosestIn?, List.find?_eq_none] at h
  have hall : operator ∈ Operator.loosestFirst := by cases operator <;> decide
  simpa using h operator hall

theorem allBlank_iff_trim {o : Outline} : o.allBlank = true ↔ o.trim = [] := by
  rw [trim, Text.trimBy_eq_nil_iff, allBlank, List.all_eq_true]

theorem allBlank_trim (o : Outline) : o.trim.allBlank = o.allBlank := by
  rw [Bool.eq_iff_iff, allBlank_iff_trim, allBlank_iff_trim, trim_trim]

theorem notMem_of_allBlank {b : Outline} (h : b.allBlank = true) (operator : Operator) :
    .plain operator.symbol ∉ b := by
  intro hmem
  have hblank : Piece.isBlank (.plain operator.symbol) = true := by
    rw [allBlank, List.all_eq_true] at h
    exact h _ hmem
  rw [Piece.isBlank, isBlank_symbol] at hblank
  exact nomatch hblank

theorem allBlank_map_plain {s : Fragment} : allBlank (s.map .plain) = s.allBlank := by
  simp [allBlank, Fragment.allBlank, Piece.isBlank, Function.comp_def]

/-- An outline is blank when its text is; a group never is. -/
theorem allBlank_text (o : Outline) : Fragment.allBlank o.text = o.allBlank := by
  have hopen : Text.isBlank '(' = false := by decide
  induction o with
  | nil => rfl
  | cons piece o ih =>
    unfold Fragment.allBlank allBlank at ih ⊢
    cases piece with
    | plain c => simp [Piece.text, Piece.isBlank, ih]
    | group inner => simp [Piece.text, Piece.isBlank, hopen]

theorem allBlank_append (o p : Outline) :
    allBlank (o ++ p) = (o.allBlank && p.allBlank) := List.all_append

theorem allBlank_append_cons {operator : Operator} (o p : Outline) :
    allBlank (o ++ .plain operator.symbol :: p) = false := by
  rw [Bool.eq_false_iff]
  intro h
  exact notMem_of_allBlank h operator (by simp)

/-! ### Operands of a trimmed outline -/

/-- The operand without the blanks around it. -/
def Operand.trim (operand : Operand) : Operand := ⟨operand.outline.trim, operand.inverted⟩

/-- Blanks around an outline get into its first and last part, where they are trimmed away. -/
theorem splitOn_map_trim (operator : Operator) {b b' : Outline} (hb : b.allBlank = true)
    (hb' : b'.allBlank = true) (o : Outline) :
    ((b ++ o ++ b').splitOn (.plain operator.symbol)).map trim =
      (o.splitOn (.plain operator.symbol)).map trim := by
  -- `b'` goes to the last piece and `b` to the first
  obtain ⟨front, last, hfront, hback⟩ :=
    Text.exists_splitOn_append (notMem_of_allBlank hb' operator) (b ++ o)
  obtain ⟨q, qs, hq⟩ :=
    List.exists_cons_of_ne_nil (List.splitOn_ne_nil (.plain operator.symbol) o)
  have hleft := Text.splitOn_append_of_notMem (notMem_of_allBlank hb operator) o
  have hright : (front ++ [last ++ b']).map trim = (front ++ [last]).map trim := by
    simp [trim_append_right hb']
  rw [hback, hright, ← hfront, hleft, hq, List.modifyHead_cons, List.map_cons, List.map_cons,
    trim_append_left hb]

theorem map_operand_trim (os : List Outline) (inverted : Bool) :
    (os.map fun o => (⟨o, inverted⟩ : Operand)).map Operand.trim =
      (os.map trim).map fun o => ⟨o, inverted⟩ := by
  simp [Operand.trim]

theorem dropBlank_map_trim (ops : List Operand) :
    (dropBlank ops).map Operand.trim = dropBlank (ops.map Operand.trim) := by
  unfold dropBlank
  rw [List.filter_map]
  congr 1
  apply List.filter_congr
  intro operand _
  simp [Operand.trim, allBlank_trim]

/-- Which operands are inverted is seen from the trimmed parts alone. -/
theorem invertedPieces_map_trim (mark : Piece) (o : Outline) :
    (invertedPieces mark o).map Operand.trim =
      match (o.splitOn mark).map trim with
      | [] => []
      | first :: rest => ⟨first, false⟩ :: rest.map fun piece => ⟨piece, true⟩ := by
  unfold invertedPieces
  cases o.splitOn mark with
  | nil => rfl
  | cons first rest => rw [List.map_cons, List.map_cons, map_operand_trim]; rfl

theorem sides_map_trim {b b' : Outline} (hb : b.allBlank = true) (hb' : b'.allBlank = true)
    (cut : Option (Outline × Outline)) :
    (sides (cut.map fun c => (b ++ c.1, c.2 ++ b'))).map Operand.trim =
      (sides cut).map Operand.trim := by
  cases cut with
  | none => rfl
  | some c => simp [sides, Operand.trim, trim_append_left hb, trim_append_right hb']

/-- Splitting a trimmed outline gives the same operands up to the blanks around them. -/
theorem operands_map_trim (operator : Operator) (o : Outline) :
    (operands operator o.trim).map Operand.trim = (operands operator o).map Operand.trim := by
  obtain ⟨b, b', ho, hb, hb'⟩ := exists_trim o
  have hmark := notMem_of_allBlank hb operator
  have hmark' := notMem_of_allBlank hb' operator
  have hsplit := splitOn_map_trim operator hb hb' o.trim
  have hfirst := Text.firstCut?_append_append hmark hmark' o.trim
  have hlast := Text.lastCut?_append_append hmark hmark' o.trim
  rw [← ho] at hsplit hfirst hlast
  -- the blanks that are trimmed hold no operator, so that the cuts stay where they are
  cases operator with
  | list | add =>
    simp only [operands]
    rw [dropBlank_map_trim, dropBlank_map_trim, map_operand_trim, map_operand_trim, hsplit]
  | subtract | divide =>
    simp only [operands]
    rw [dropBlank_map_trim, dropBlank_map_trim, invertedPieces_map_trim, invertedPieces_map_trim,
      hsplit]
  | multiply =>
    simp only [operands]
    rw [map_operand_trim, map_operand_trim, hsplit]
  | modulo =>
    simp only [operands]
    rw [hfirst, sides_map_trim hb hb']
  | raise =>
    simp only [operands]
    rw [hlast, sides_map_trim hb hb']

/-! ### Reading groups and operations -/

variable {α : Type} [Zero α] [Numeral α] {vocabulary : Vocabulary α}

theorem read_trim (o : Outline) : read vocabulary o.trim = read vocabulary o :=
  read_congr (trim_trim o)

/-- A group is not blank, even if nothing or only blanks are inside. -/
theorem trim_group (inner : Fragment) : trim [.group inner] = [.group inner] :=
  Text.trimBy_eq_self (List.forall_mem_singleton.mpr rfl)

/-- A group is read as the text in it. -/
theorem read_group_of_ofText {inner : Fragment} {o : Outline} (h : ofText inner.trim = .ok o) :
    read vocabulary [.group inner] = read vocabulary o := by
  have hop : loosestIn? [.group inner] = none := loosestIn?_eq_none (by simp)
  rw [read_eq, trim_group, hop]
  dsimp only [front, firstGroup?]
  rw [Vocabulary.functionAt?_nil]
  dsimp only
  rw [Vocabulary.constantAt?_nil]
  dsimp only
  rw [h]

/-- The equation of `read` where an operator is found, for the operands as they stand. -/
theorem read_of_loosestIn? {o : Outline} {operator : Operator}
    (h : o.loosestIn? = some operator) :
    read vocabulary o = (do
      let trees ← (operands operator o).mapM fun operand => do
        let tree ← read vocabulary operand.outline
        return operator.orient operand.inverted tree
      match operator.assemble? trees with
      | some tree => return tree
      | none => throw (.unexpectedEnd (String.ofList o.trim.text))) := by
  let step : Operand → StateT (Variables α) (Except SyntaxError) (Tree α) := fun operand => do
    let tree ← read vocabulary operand.outline
    return operator.orient operand.inverted tree
  have hstep : step = step ∘ Operand.trim := by
    funext operand
    simp only [step, Function.comp_apply, Operand.trim, read_trim]
  have hoperands : (operands operator o.trim).mapM step = (operands operator o).mapM step := by
    rw [hstep, ← List.mapM_map, operands_map_trim, List.mapM_map]
  rw [read_eq, loosestIn?_trim, h]
  dsimp only
  congr 1

end Formula.Outline
