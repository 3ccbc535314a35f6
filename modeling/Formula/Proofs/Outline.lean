import Formula.Groups
import Formula.Proofs.Text.Cuts
import Mathlib.Data.List.Flatten

/-!
# Outlines

The *outline* of a text shows where its groups are: it is the sequence of the characters outside
every group and of the groups, each with the text between its brackets. An outline is cut at the
characters in it, so that whatever stands in a group is out of reach without being replaced.

* `scan_text`: no character of a text is lost between its outline and what is left behind an
  unclosed bracket.
* `operands_isInfix` and `operands_length_lt`: the operands of an operator are parts of the outline,
  and shorter than it.
* `length_text_lt_of_sublist`: a shorter part of an outline has a shorter text, which is what
  recursion on outlines comes down to.
-/

namespace Formula

/-- A part of a text at the level of its outermost groups. -/
inductive Piece where
  /-- A character outside every group. -/
  | plain (c : Char)
  /-- A group, by the text between its brackets. -/
  | group (inner : Fragment)
  deriving DecidableEq, Repr

namespace Piece

/-- The text of a piece. -/
def text : Piece → Fragment
  | .plain c => [c]
  | .group inner => '(' :: (inner ++ [')'])

/-- Whether the piece is a blank character; a group never is. -/
def isBlank : Piece → Bool
  | .plain c => Text.isBlank c
  | .group _ => false

theorem length_text_pos (piece : Piece) : 0 < piece.text.length := by
  cases piece <;> simp [text]

end Piece

/-- The pieces of a text in order. -/
abbrev Outline := List Piece

namespace Outline

/-- The text with this outline. -/
def text (o : Outline) : Fragment := o.flatMap Piece.text

@[simp]
theorem text_nil : text [] = [] := rfl

@[simp]
theorem text_cons (piece : Piece) (o : Outline) : text (piece :: o) = piece.text ++ text o := rfl

@[simp]
theorem text_append (o p : Outline) : text (o ++ p) = text o ++ text p := List.flatMap_append

/-- The text of outlines with a separator between them has the text of the separator between theirs.
-/
theorem text_intercalate (sep : Outline) (os : List Outline) :
    text (sep.intercalate os) = sep.text.intercalate (os.map text) := by
  induction os with
  | nil => rfl
  | cons o os ih =>
    cases os with
    | nil => simp
    | cons o' os =>
      rw [List.intercalate_cons_cons, text_append, text_append, ih]
      simp only [List.map_cons, List.intercalate_cons_cons]

/-! ### The outline of a text -/

/-- The outline of a text as far as its brackets are closed, and the rest of the text, which is
empty or begins with a bracket that is never closed. -/
def scan : Fragment → Outline × Fragment
  | [] => ([], [])
  | c :: rest =>
    if c = '(' then
      match _h : closeGroup? 0 rest with
      | some (inner, behind) => (.group inner :: (scan behind).1, (scan behind).2)
      | none => ([], c :: rest)
    else
      (.plain c :: (scan rest).1, (scan rest).2)
termination_by s => s.length
decreasing_by
  · have := congrArg List.length (closeGroup?_eq_some _h)
    simp at this ⊢
    omega
  · simp

/-- The outline of a text in which every bracket is closed. -/
def ofText (s : Fragment) : Except SyntaxError Outline :=
  match scan s with
  | (o, []) => .ok o
  | (o, _) => .error (.unmatchedBracket (String.ofList s) (Fragment.byteLength o.text))

theorem scan_nil : scan [] = ([], []) := by
  rw [scan]

theorem scan_plain {c : Char} (h : c ≠ '(') (s : Fragment) :
    scan (c :: s) = (.plain c :: (scan s).1, (scan s).2) := by
  rw [scan, if_neg h]

/-- A group that is closed is one piece of the outline, whatever is inside it. -/
theorem scan_group {s inner behind : Fragment} (h : closeGroup? 0 s = some (inner, behind)) :
    scan ('(' :: s) = (.group inner :: (scan behind).1, (scan behind).2) := by
  rw [scan, if_pos rfl]
  split
  · simp_all
  · simp_all

/-- At a bracket that is not closed the outline ends, and the rest is left as it is. -/
theorem scan_unclosed {s : Fragment} (h : closeGroup? 0 s = none) :
    scan ('(' :: s) = ([], '(' :: s) := by
  rw [scan, if_pos rfl]
  split
  · simp_all
  · rfl

/-- Nothing is lost: the outline and what is left over make up the text. -/
theorem scan_text (s : Fragment) : (scan s).1.text ++ (scan s).2 = s := by
  fun_induction scan s with
  | case1 => rfl
  | case2 rest inner behind h ih =>
    rw [closeGroup?_eq_some h]
    simp [Piece.text, ih]
  | case3 => rfl
  | case4 c rest hc ih => simp [Piece.text, ih]

/-- What is left over begins with the bracket that is not closed. -/
theorem scan_rest (s : Fragment) : (scan s).2 = [] ∨ ∃ rest, (scan s).2 = '(' :: rest := by
  fun_induction scan s with
  | case1 => exact Or.inl rfl
  | case2 _ _ _ _ ih => exact ih
  | case3 rest h => exact Or.inr ⟨rest, rfl⟩
  | case4 _ _ _ ih => exact ih

/-- A text has an outline just when nothing of it is left over. -/
theorem ofText_eq_ok_iff {s : Fragment} {o : Outline} : ofText s = .ok o ↔ scan s = (o, []) := by
  unfold ofText
  constructor
  · intro h
    split at h
    · simp_all
    · simp at h
  · intro h
    rw [h]

theorem text_of_ofText {s : Fragment} {o : Outline} (h : ofText s = .ok o) : o.text = s := by
  have := scan_text s
  rwa [ofText_eq_ok_iff.mp h, List.append_nil] at this

/-! ### Cuts -/

/-- The outline without the blank characters at its ends. -/
def trim (o : Outline) : Outline := Text.trimBy Piece.isBlank o

/-- Whether nothing but blank characters stands in the outline. -/
def allBlank (o : Outline) : Bool := o.all Piece.isBlank

/-- The loosest operator that occurs outside every group. -/
def loosestIn? (o : Outline) : Option Operator :=
  Operator.loosestFirst.find? fun operator => .plain operator.symbol ∈ o

/-- A part of an outline that an operator joins with others. -/
structure Operand where
  outline : Outline
  /-- Whether the operand is taken away or divides. -/
  inverted : Bool
  deriving DecidableEq, Repr

/-- The operands in which something stands. -/
def dropBlank (operands : List Operand) : List Operand :=
  operands.filter fun operand => !operand.outline.allBlank

/-- The pieces between the occurrences of a mark, all but the first inverted. -/
def invertedPieces (mark : Piece) (o : Outline) : List Operand :=
  match o.splitOn mark with
  | [] => []
  | first :: rest => ⟨first, false⟩ :: rest.map fun piece => ⟨piece, true⟩

/-- The two sides of a cut. -/
def sides : Option (Outline × Outline) → List Operand
  | some (left, right) => [⟨left, false⟩, ⟨right, false⟩]
  | none => []

/-- The operands of an operator, from left to right. `,` and `+` split at every occurrence and drop
blank operands, and so do `-` and `/`, which invert all operands but the first; `*` keeps blank
operands; `%` splits at its first occurrence only and `^` at its last. -/
def operands (operator : Operator) (o : Outline) : List Operand :=
  let mark := Piece.plain operator.symbol
  match operator with
  | .list | .add => dropBlank ((o.splitOn mark).map fun piece => ⟨piece, false⟩)
  | .subtract | .divide => dropBlank (invertedPieces mark o)
  | .multiply => (o.splitOn mark).map fun piece => ⟨piece, false⟩
  | .modulo => sides (Text.firstCut? mark o)
  | .raise => sides (Text.lastCut? mark o)

/-- The characters in front of the first group. -/
def front : Outline → Fragment
  | .plain c :: o => c :: front o
  | _ => []

/-- The text of the first group. -/
def firstGroup? : Outline → Option Fragment
  | [] => none
  | .plain _ :: o => firstGroup? o
  | .group inner :: _ => some inner

/-- Whether the outline is one group and nothing stands in it. -/
def isBlankGroup (o : Outline) : Bool :=
  match o.trim with
  | [.group inner] => inner.allBlank
  | _ => false

/-! ### Parts of an outline -/

theorem length_text_le_of_sublist {o p : Outline} (h : List.Sublist o p) :
    o.text.length ≤ p.text.length :=
  (h.flatMap Piece.text).length_le

/-- A part of an outline that lacks a piece has a shorter text. -/
theorem length_text_lt_of_sublist {o p : Outline} (h : List.Sublist o p)
    (hlen : o.length < p.length) : o.text.length < p.text.length := by
  induction h with
  | slnil => simp at hlen
  | @cons o p piece hsub _ =>
    have hle := length_text_le_of_sublist hsub
    have hpos := piece.length_text_pos
    simp only [text_cons, List.length_append]
    omega
  | cons_cons piece _ ih =>
    have := ih (by simpa using hlen)
    simp only [text_cons, List.length_append]
    omega

theorem trim_isInfix (o : Outline) : o.trim <:+: o := Text.trimBy_isInfix o

theorem trim_sublist (o : Outline) : List.Sublist o.trim o := o.trim_isInfix.sublist

@[simp]
theorem trim_trim (o : Outline) : o.trim.trim = o.trim := Text.trimBy_trimBy o

theorem mem_of_loosestIn? {o : Outline} {operator : Operator}
    (h : o.loosestIn? = some operator) : .plain operator.symbol ∈ o := by
  simpa using List.find?_some h

/-- The operands around a cut are what is in front of it and what is behind it. -/
theorem mem_sides {operand : Operand} {cut : Option (Outline × Outline)}
    (h : operand ∈ sides cut) :
    ∃ left right, cut = some (left, right) ∧
      (operand.outline = left ∨ operand.outline = right) := by
  cases cut with
  | none => simp [sides] at h
  | some pair =>
    obtain ⟨left, right⟩ := pair
    refine ⟨left, right, rfl, ?_⟩
    rcases (by simpa [sides] using h : operand = _ ∨ operand = _) with rfl | rfl
    · exact Or.inl rfl
    · exact Or.inr rfl

/-- Every operand of an operator that inverts is a piece between two of its marks. -/
theorem mem_invertedPieces {operand : Operand} {mark : Piece} {o : Outline}
    (h : operand ∈ invertedPieces mark o) : operand.outline ∈ o.splitOn mark := by
  unfold invertedPieces at h
  split at h
  · simp at h
  · rename_i first rest hsplit
    rw [hsplit]
    rcases List.mem_cons.mp h with rfl | hmem
    · exact List.mem_cons_self
    · obtain ⟨piece, hpiece, rfl⟩ := List.mem_map.mp hmem
      exact List.mem_cons_of_mem _ hpiece

/-- An operand stands between two marks, or on one side of a mark. -/
theorem mem_operands {operand : Operand} {operator : Operator} {o : Outline}
    (hmark : .plain operator.symbol ∈ o) (h : operand ∈ operands operator o) :
    operand.outline ∈ o.splitOn (.plain operator.symbol) ∨
      ∃ left right, o = left ++ .plain operator.symbol :: right ∧
        (operand.outline = left ∨ operand.outline = right) := by
  have hplain : ∀ {mark : Piece}, operand ∈ (o.splitOn mark).map (fun piece => ⟨piece, false⟩) →
      operand.outline ∈ o.splitOn mark := by
    intro mark hmem
    obtain ⟨piece, hpiece, rfl⟩ := List.mem_map.mp hmem
    exact hpiece
  cases operator with
  | list | add => exact Or.inl (hplain (List.mem_of_mem_filter h))
  | subtract | divide => exact Or.inl (mem_invertedPieces (List.mem_of_mem_filter h))
  | multiply => exact Or.inl (hplain h)
  | modulo =>
    -- there is one cut, and the operands are its sides
    obtain ⟨left, right, hcut, hside⟩ := mem_sides h
    obtain ⟨left', right', ho, -, hcut'⟩ := Text.exists_firstCut? hmark
    obtain ⟨rfl, rfl⟩ : left' = left ∧ right' = right := by simpa [hcut] using hcut'.symm
    exact Or.inr ⟨left', right', ho, hside⟩
  | raise =>
    obtain ⟨left, right, hcut, hside⟩ := mem_sides h
    obtain ⟨left', right', ho, -, hcut'⟩ := Text.exists_lastCut? hmark
    obtain ⟨rfl, rfl⟩ : left' = left ∧ right' = right := by simpa [hcut] using hcut'.symm
    exact Or.inr ⟨left', right', ho, hside⟩

/-- Each operand is a part of the outline that it is taken from. -/
theorem operands_isInfix {operand : Operand} {operator : Operator} {o : Outline}
    (hmark : .plain operator.symbol ∈ o) (h : operand ∈ operands operator o) :
    operand.outline <:+: o := by
  rcases mem_operands hmark h with hsplit | ⟨left, right, rfl, hside⟩
  · exact Text.isInfix_of_mem_splitOn hsplit
  · rcases hside with hside | hside <;> rw [hside]
    · exact (List.prefix_append _ _).isInfix
    · exact ((List.suffix_cons _ _).trans (List.suffix_append _ _)).isInfix

theorem operands_sublist {operand : Operand} {operator : Operator} {o : Outline}
    (hmark : .plain operator.symbol ∈ o) (h : operand ∈ operands operator o) :
    List.Sublist operand.outline o :=
  (operands_isInfix hmark h).sublist

theorem operands_length_lt {operand : Operand} {operator : Operator} {o : Outline}
    (hmark : .plain operator.symbol ∈ o) (h : operand ∈ operands operator o) :
    operand.outline.length < o.length := by
  rcases mem_operands hmark h with hsplit | ⟨left, right, rfl, hside⟩
  · exact Text.length_lt_of_mem_splitOn hmark hsplit
  · rcases hside with hside | hside <;> rw [hside, List.length_append, List.length_cons] <;> omega

/-- Each operand has a shorter text, since the operator itself is in none. This is the measure by
which splitting ends. -/
theorem operand_text_lt {operand : Operand} {operator : Operator} {o : Outline}
    (hmark : .plain operator.symbol ∈ o) (h : operand ∈ operands operator o) :
    operand.outline.text.length < o.text.length :=
  length_text_lt_of_sublist (operands_sublist hmark h) (operands_length_lt hmark h)

/-- What is inside a group is shorter than the text, by the two brackets at least. -/
theorem firstGroup?_text_lt {o : Outline} {inner : Fragment} (h : o.firstGroup? = some inner) :
    inner.length < o.text.length := by
  induction o with
  | nil => simp [firstGroup?] at h
  | cons piece o ih =>
    cases piece with
    | plain c =>
      have := ih h
      simp only [text_cons, List.length_append]
      omega
    | group inner' =>
      obtain rfl : inner' = inner := by simpa [firstGroup?] using h
      simp only [text_cons, Piece.text, List.length_append, List.length_cons]
      omega

theorem length_front_le (o : Outline) : o.front.length ≤ o.length := by
  induction o with
  | nil => simp [front]
  | cons piece o ih => cases piece <;> simp [front, ih]

/-- What stands in front of the first group is in front of the text as well. -/
theorem front_isPrefix_text (o : Outline) : o.front <+: o.text := by
  induction o with
  | nil => exact List.prefix_rfl
  | cons piece o ih =>
    cases piece with
    | plain c => exact List.cons_prefix_cons.mpr ⟨rfl, ih⟩
    | group inner => exact List.nil_prefix

/-- What is inside the first group is a piece of the text. -/
theorem group_isInfix_text {o : Outline} {inner : Fragment} (h : o.firstGroup? = some inner) :
    inner <:+: o.text := by
  induction o with
  | nil => simp [firstGroup?] at h
  | cons piece o ih =>
    rw [text_cons]
    cases piece with
    | plain c => exact (ih h).trans (List.suffix_append _ _).isInfix
    | group inner' =>
      obtain rfl : inner' = inner := by simpa [firstGroup?] using h
      have hpiece : inner' <:+: (Piece.group inner').text :=
        (List.prefix_append _ _).isInfix.trans (List.suffix_cons _ _).isInfix
      exact hpiece.trans (List.prefix_append _ _).isInfix

theorem firstGroup?_map_plain (s : Fragment) : firstGroup? (s.map .plain) = none := by
  induction s with
  | nil => rfl
  | cons c s ih => exact ih

theorem front_map_plain (s : Fragment) : front (s.map .plain) = s := by
  induction s with
  | nil => rfl
  | cons c s ih => exact congrArg (c :: ·) ih

theorem front_map_plain_append (s inner : Fragment) (o : Outline) :
    front (s.map .plain ++ .group inner :: o) = s := by
  induction s with
  | nil => rfl
  | cons c s ih => exact congrArg (c :: ·) ih

theorem text_map_plain (s : Fragment) : text (s.map .plain) = s := by
  induction s with
  | nil => rfl
  | cons c s ih => rw [List.map_cons, text_cons, ih]; rfl

/-- Taking a name off the front leaves a shorter text. -/
theorem drop_text_lt {o : Outline} {n : Nat} (hn : 0 < n) (hfront : n ≤ o.front.length) :
    (text (o.drop n)).length < o.text.length := by
  have hle := o.length_front_le
  refine length_text_lt_of_sublist (List.drop_sublist n o) ?_
  rw [List.length_drop]
  omega

end Outline

end Formula
