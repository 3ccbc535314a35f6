import Formula.Proofs.Grammar.Reading

/-!
# Outlines of given trees

`Yields` says that an outline without variables is read to one given tree. An outline that is split
at an operator yields what the operator makes of the trees of its operands (`yields_of_operands`).

An *atomic* outline is one that may be an operand anywhere: no operator stands outside its groups.
Rows of atomic outlines with operators between them yield sums, products and tuples
(`tidy_row`, `yields_row`), and in a group every row is atomic again (`Atomic.group`).
-/

namespace Formula.Outline

variable {α : Type} [Arithmetic α] [Numeral α] {vocabulary : Vocabulary α}

/-- Whether an outline is read to the tree, whatever variables there are, without a new one. -/
def Yields (vocabulary : Vocabulary α) (o : Outline) (tree : Tree α) : Prop :=
  ∀ vars, (read vocabulary o).run vars = .ok (tree, vars)

theorem Yields.congr {o p : Outline} {tree : Tree α} (htrim : o.trim = p.trim)
    (h : Yields vocabulary o tree) : Yields vocabulary p tree := by
  unfold Yields at h ⊢
  rwa [← read_congr htrim]

/-- Operands that yield trees are read to these, inverted where they are inverted, and the table
stays. -/
theorem mapM_yields (operator : Operator) {ops : List Operand} {trees : List (Tree α)}
    (h : List.Forall₂ (fun operand tree => Yields vocabulary operand.outline tree) ops trees)
    (vars : Variables α) :
    (ops.mapM fun operand : Operand => do
        let tree ← read vocabulary operand.outline
        return operator.orient operand.inverted tree).run vars =
      .ok (ops.zipWith (fun operand tree => operator.orient operand.inverted tree) trees,
        vars) := by
  induction h with
  | nil => rfl
  | @cons operand tree ops trees hhead _ ih =>
    rw [List.mapM_cons, List.zipWith_cons_cons]
    refine Parser.bind_eq_ok.mpr ⟨operator.orient operand.inverted tree, vars, ?_, ?_⟩
    · exact Parser.bind_eq_ok.mpr ⟨tree, vars, hhead vars, rfl⟩
    · exact Parser.bind_eq_ok.mpr ⟨_, vars, ih, rfl⟩

/-- An outline yields what its loosest operator makes of the trees of its operands. -/
theorem yields_of_operands {o : Outline} {operator : Operator} {trees : List (Tree α)}
    {tree : Tree α} (hop : o.loosestIn? = some operator)
    (hops : List.Forall₂ (fun operand tree => Yields vocabulary operand.outline tree)
      (operands operator o) trees)
    (htree : operator.assemble? ((operands operator o).zipWith
      (fun operand tree => operator.orient operand.inverted tree) trees) = some tree) :
    Yields vocabulary o tree := by
  intro vars
  rw [read_of_loosestIn? hop]
  refine Parser.bind_eq_ok.mpr ⟨_, vars, mapM_yields operator hops vars, ?_⟩
  rw [htree]
  rfl

/-! ### The operator of an outline -/

/-- An outline with one kind of operators outside its groups is split at these. -/
theorem loosestIn?_eq_some {o : Outline} {operator : Operator}
    (hmem : .plain operator.symbol ∈ o)
    (honly : ∀ other : Operator, .plain other.symbol ∈ o → other = operator) :
    o.loosestIn? = some operator := by
  cases h : o.loosestIn? with
  | none => exact absurd hmem (notMem_of_loosestIn?_eq_none h operator)
  | some other => rw [honly other (mem_of_loosestIn? h)]

/-- Whether no operator stands outside the groups of the outline. -/
def LacksOperators (o : Outline) : Prop := ∀ operator : Operator, .plain operator.symbol ∉ o

/-- Between two outlines without operators the operator is the loosest. -/
theorem loosestIn?_pair (operator : Operator) {l r : Outline} (hl : LacksOperators l)
    (hr : LacksOperators r) :
    loosestIn? (l ++ .plain operator.symbol :: r) = some operator := by
  refine loosestIn?_eq_some (by simp) fun other hother => ?_
  rcases List.mem_append.mp hother with hmem | hmem
  · exact absurd hmem (hl other)
  rcases List.mem_cons.mp hmem with hsymbol | hmem
  · exact Operator.symbol_injective (Piece.plain.inj hsymbol)
  · exact absurd hmem (hr other)

/-! ### Atomic outlines -/

/-- Whether a tidy outline may be an operand anywhere, and yields a tree that is no tuple. -/
structure Atomic (vocabulary : Vocabulary α) (o : Outline) (tree : Tree α) : Prop where
  tidy : Tidy o
  solid : o.allBlank = false
  lacks : LacksOperators o
  yields : Yields vocabulary o tree
  single : tree.isTuple = false

/-- In a group an outline is atomic. -/
theorem Atomic.group {o : Outline} {tree : Tree α} (htidy : Tidy o)
    (hyields : Yields vocabulary o tree) (hsingle : tree.isTuple = false) :
    Atomic vocabulary [.group o.text] tree where
  tidy := htidy.group
  solid := rfl
  lacks := by simp [LacksOperators]
  yields := by
    unfold Yields at hyields ⊢
    rwa [read_group htidy]
  single := hsingle

/-- A row of letters, digits and points is atomic, if it is not the name of a function. -/
theorem Atomic.token {s : Fragment} {tree : Tree α} (hs : IsToken s)
    (hyields : Yields vocabulary (s.map .plain) tree) (hsingle : tree.isTuple = false) :
    Atomic vocabulary (s.map .plain) tree where
  tidy := hs.tidy
  solid := by
    obtain ⟨c, rest, rfl⟩ := List.exists_cons_of_ne_nil hs.1
    simp [allBlank, Piece.isBlank, hs.isBlank_eq_false c List.mem_cons_self]
  lacks := fun operator => plain_notMem_map (hs.symbol_notMem operator)
  yields := hyields
  single := hsingle

/-- A row of digits is atomic. -/
theorem Atomic.whole (hdistinct : vocabulary.Distinct) (digits : Fragment)
    (hdigits : ∀ c ∈ digits, c.isDigit = true) (hne : digits ≠ []) :
    Atomic vocabulary (digits.map .plain)
      (.scalar (Numeral.ofDecimal ⟨Nat.ofDigitChars 10 digits 0, 0⟩)) := by
  obtain ⟨c, rest, rfl⟩ := List.exists_cons_of_ne_nil hne
  have htoken : IsToken (c :: rest) :=
    ⟨hne, fun d hd => Or.inl (isAlphanum_of_isDigit (hdigits d hd))⟩
  obtain ⟨hfun, hconst⟩ := hdistinct.recognises_nothing_of_isAlpha_eq_false (s := rest)
    (isAlpha_eq_false_of_isDigit (hdigits c List.mem_cons_self))
  refine .token htoken (fun vars => ?_) rfl
  rw [read_map_plain htoken.isBlank_eq_false htoken.symbol_notMem hfun, hconst, Parser.number?,
    Decimal.ofFragment?_whole hdigits hne]
  rfl

/-- Whether `p` is `o` with blanks around it. -/
def Padded (o p : Outline) : Prop :=
  ∃ b b' : Fragment, b.allBlank = true ∧ b'.allBlank = true ∧
    p = b.map .plain ++ o ++ b'.map .plain

/-- Blanks around an atomic outline do no harm. -/
theorem Atomic.padded {o p : Outline} {tree : Tree α} (h : Atomic vocabulary o tree)
    (hp : Padded o p) : Atomic vocabulary p tree := by
  obtain ⟨b, b', hb, hb', rfl⟩ := hp
  have hblank := allBlank_map_plain.trans hb
  have hblank' := allBlank_map_plain.trans hb'
  refine ⟨?_, ?_, ?_, h.yields.congr ?_, h.single⟩
  · exact tidy_append.mpr ⟨tidy_append.mpr ⟨tidy_blank hb, h.tidy⟩, tidy_blank hb'⟩
  · simp [allBlank_append, h.solid]
  · intro operator
    have hfront := notMem_of_allBlank hblank operator
    have hback := notMem_of_allBlank hblank' operator
    rw [List.mem_append, List.mem_append, not_or, not_or]
    exact ⟨⟨hfront, h.lacks operator⟩, hback⟩
  · rw [trim_append_right hblank', trim_append_left hblank]

theorem Atomic.padded_right {o : Outline} {tree : Tree α} (h : Atomic vocabulary o tree) :
    Atomic vocabulary (o ++ [.plain ' ']) tree :=
  h.padded ⟨[], [' '], rfl, rfl, rfl⟩

theorem Atomic.padded_left {o : Outline} {tree : Tree α} (h : Atomic vocabulary o tree) :
    Atomic vocabulary (.plain ' ' :: o) tree :=
  h.padded ⟨[' '], [], rfl, rfl, by simp⟩

/-! ### Rows -/

/-- The blanks at the two ends of a row and on the two sides of each of its marks. -/
structure Spacing where
  front : Fragment
  before : Fragment
  behind : Fragment
  back : Fragment
  front_blank : front.allBlank = true := by decide
  before_blank : before.allBlank = true := by decide
  behind_blank : behind.allBlank = true := by decide
  back_blank : back.allBlank = true := by decide

/-- A mark with blanks around it, as it stands between two outlines of a row. -/
def Spacing.separator (spacing : Spacing) (mark : Char) : Outline :=
  spacing.before.map .plain ++ [.plain mark] ++ spacing.behind.map .plain

/-- Several outlines with a mark between them. -/
def row (spacing : Spacing) (mark : Char) (os : List Outline) : Outline :=
  spacing.front.map .plain ++ (spacing.separator mark).intercalate os ++ spacing.back.map .plain

variable {spacing : Spacing} {mark : Char} {os : List Outline}

theorem text_row : text (row spacing mark os) =
    spacing.front ++ (spacing.before ++ [mark] ++ spacing.behind).intercalate (os.map text) ++
      spacing.back := by
  simp [row, Spacing.separator, text_intercalate, text_map_plain, Piece.text]

/-- The blanks in a row go to the outlines beside them. -/
theorem exists_row (spacing : Spacing) (mark : Char) (hne : os ≠ []) :
    ∃ ps, row spacing mark os = [.plain mark].intercalate ps ∧ List.Forall₂ Padded os ps := by
  induction os generalizing spacing with
  | nil => exact absurd rfl hne
  | cons o os ih =>
    cases os with
    | nil =>
      refine ⟨[spacing.front.map .plain ++ o ++ spacing.back.map .plain], by simp [row],
        .cons ?_ .nil⟩
      exact ⟨spacing.front, spacing.back, spacing.front_blank, spacing.back_blank, rfl⟩
    | cons o' os =>
      -- the rest of the row begins with the blanks behind the first mark
      obtain ⟨ps, hrow, hps⟩ :=
        ih { spacing with front := spacing.behind, front_blank := spacing.behind_blank }
          (List.cons_ne_nil _ _)
      refine ⟨(spacing.front.map .plain ++ o ++ spacing.before.map .plain) :: ps, ?_,
        .cons ⟨spacing.front, spacing.before, spacing.front_blank, spacing.before_blank, rfl⟩ hps⟩
      cases hps with
      | @cons _ p _ ps =>
        rw [List.intercalate_cons_cons, ← hrow]
        simp [row, Spacing.separator, List.intercalate_cons_cons]

/-- A row of tidy outlines is tidy, whatever the spacing. -/
theorem tidy_row (hmark : (Piece.plain mark).Tidy) (hos : ∀ o ∈ os, Tidy o) :
    Tidy (row spacing mark os) := by
  have hsep : Tidy (spacing.separator mark) := by
    refine tidy_append.mpr ⟨tidy_append.mpr ⟨tidy_blank spacing.before_blank, ?_⟩,
      tidy_blank spacing.behind_blank⟩
    exact tidy_cons.mpr ⟨hmark, fun piece hpiece => absurd hpiece List.not_mem_nil⟩
  exact tidy_append.mpr ⟨tidy_append.mpr ⟨tidy_blank spacing.front_blank,
    tidy_intercalate hsep hos⟩, tidy_blank spacing.back_blank⟩

theorem allBlank_row (hne : os ≠ []) (hos : ∀ o ∈ os, o.allBlank = false) :
    allBlank (row spacing mark os) = false := by
  have hsolid := allBlank_intercalate (spacing.separator mark) hne hos
  simp [row, allBlank_append, hsolid]

omit [Arithmetic α] [Numeral α] in
theorem zipWith_orient (operator : Operator) {trees : List (Tree α)}
    (hlen : os.length = trees.length) :
    (os.map fun o => (⟨o, false⟩ : Operand)).zipWith
      (fun operand tree => operator.orient operand.inverted tree) trees = trees := by
  induction os generalizing trees with
  | nil =>
    obtain rfl := List.length_eq_zero_iff.mp hlen.symm
    rfl
  | cons o os ih =>
    cases trees with
    | nil => rfl
    | cons tree trees =>
      rw [List.map_cons, List.zipWith_cons_cons, ih (by simpa using hlen)]
      cases operator <;> rfl

/-- Each outline of the row is atomic. -/
theorem Atomic.of_mem {trees : List (Tree α)} (h : List.Forall₂ (Atomic vocabulary) os trees)
    {o : Outline} (ho : o ∈ os) : ∃ tree, Atomic vocabulary o tree := by
  induction h with
  | nil => exact absurd ho List.not_mem_nil
  | cons hhead _ ih =>
    rcases List.mem_cons.mp ho with rfl | ho
    · exact ⟨_, hhead⟩
    · exact ih ho

/-- Blanks around outlines that are atomic leave them atomic. -/
theorem Atomic.padded_all {ps : List Outline} {trees : List (Tree α)}
    (h : List.Forall₂ (Atomic vocabulary) os trees) (hps : List.Forall₂ Padded os ps) :
    List.Forall₂ (Atomic vocabulary) ps trees := by
  induction h generalizing ps with
  | nil =>
    cases hps
    exact .nil
  | cons hhead _ ih =>
    cases hps with
    | cons hpad hps => exact .cons (hhead.padded hpad) (ih hps)

/-- Several atomic outlines in a row yield what the operator makes of their trees. -/
theorem yields_row (operator : Operator) (hjoins : operator ∈ [Operator.list, .add, .multiply])
    {trees : List (Tree α)} {tree : Tree α} (h : List.Forall₂ (Atomic vocabulary) os trees)
    (hlen : 2 ≤ trees.length) (htree : operator.assemble? trees = some tree) :
    Yields vocabulary (row spacing operator.symbol os) tree := by
  have hlen' := h.length_eq
  have hne : os ≠ [] := List.ne_nil_of_length_pos (by omega)
  obtain ⟨ps, hrow, hps⟩ := exists_row spacing operator.symbol hne
  have hatoms := Atomic.padded_all h hps
  have hall : ∀ p ∈ ps, Outline.allBlank p = false ∧ LacksOperators p := by
    intro p hp
    obtain ⟨tree', hatom⟩ := Atomic.of_mem hatoms hp
    exact ⟨hatom.solid, hatom.lacks⟩
  rw [hrow]
  match ps, hatoms.length_eq with
  | p :: p' :: ps, hlen'' =>
    have hmark : .plain operator.symbol ∈
        [Piece.plain operator.symbol].intercalate (p :: p' :: ps) := by
      simp [List.intercalate_cons_cons]
    have hops := operands_intercalate hjoins (List.cons_ne_nil p (p' :: ps)) fun p hp =>
      ⟨(hall p hp).1, (hall p hp).2 operator⟩
    -- the atoms have no operators, so that there is only the one between them
    have hop : loosestIn? ([Piece.plain operator.symbol].intercalate (p :: p' :: ps)) =
        some operator := by
      refine loosestIn?_eq_some hmark fun other hother => ?_
      rcases Text.mem_intercalate hother with hsymbol | ⟨p, hp, hmem⟩
      · exact Operator.symbol_injective (Piece.plain.inj hsymbol)
      · exact absurd hmem ((hall p hp).2 other)
    have hyields : List.Forall₂ (fun operand tree => Yields vocabulary operand.outline tree)
        (operands operator ([Piece.plain operator.symbol].intercalate (p :: p' :: ps))) trees := by
      rw [hops, List.forall₂_map_left_iff]
      exact hatoms.imp fun _ _ hatom => hatom.yields
    refine yields_of_operands hop hyields ?_
    rw [hops, zipWith_orient operator hlen'', htree]
  | [], hlen'' | [p], hlen'' => simp at hlen''; omega

/-- Atomic outlines with commas between them yield the elements that they are read to. -/
theorem exists_yields_elements (spacing : Spacing) {trees : List (Tree α)}
    (h : List.Forall₂ (Atomic vocabulary) os trees) (hne : os ≠ []) :
    ∃ tree, Yields vocabulary (row spacing ',' os) tree ∧ tree.elements = trees := by
  cases h with
  | nil => exact absurd rfl hne
  | @cons o tree os trees hhead htail =>
    cases htail with
    | nil =>
      have hpad : Padded o (row spacing ',' [o]) :=
        ⟨spacing.front, spacing.back, spacing.front_blank, spacing.back_blank, by simp [row]⟩
      -- the only element is no tuple, so that it is its own list of elements
      have hsingle := hhead.single
      refine ⟨tree, (hhead.padded hpad).yields, ?_⟩
      cases tree with
      | tuple items => exact nomatch hsingle
      | _ => rfl
    | cons hhead' htail =>
      exact ⟨.tuple _, yields_row .list (by simp)
        (.cons hhead (.cons hhead' htail)) (by simp) rfl, rfl⟩

end Formula.Outline
