import Formula.Number.Binary64
import Formula.Proofs.Outline.Yields
import Formula.Tree.Render

/-!
# Reading back the text of a tree

The text of a tree without variables is read to the tree again, except that `( 1/x )`, which is
written for a reciprocal, is read to a product with one (`parse_render`).

Every operation is written in brackets of its own, so that the text of a tree that is no tuple is an
atomic outline (`exists_atomic`): a word, a numeral, one group, or a word and a group. In the group
stands a row of the texts of the operands, and no operator of an operand is seen outside of it.
-/

namespace Formula

namespace Tree

variable {α : Type} [Numeral α]

/-- Whether a number is written with digits and points, a digit in front, and the text is read to
the number again. -/
def ReadsBack (value : α) : Prop :=
  ∃ first rest, (Numeral.toText value).toList = first :: rest ∧ first.isDigit = true ∧
    (∀ c ∈ rest, c.isDigit = true ∨ c = '.') ∧ Parser.number? (first :: rest) = some value

/-- The trees that can be written: of numbers that are read back and of the constants and functions
of a vocabulary, without variables and tuples. A function has arguments, and a sum or product at
least two operands. -/
inductive Printable (vocabulary : Vocabulary α) : Tree α → Prop where
  | scalar {value : α} (hvalue : ReadsBack value) : Printable vocabulary (.scalar value)
  | constant {name : String} {value : α} (hname : (name, value) ∈ vocabulary.constants.toList) :
    Printable vocabulary (.constant name value)
  | call {name : String} {apply : List α → α} {args : List (Tree α)}
    (hname : (name, apply) ∈ vocabulary.functions.toList) (hne : args ≠ [])
    (hargs : ∀ arg ∈ args, Printable vocabulary arg) : Printable vocabulary (.call name apply args)
  | sum {terms : List (Tree α)} (hlen : 2 ≤ terms.length)
    (hterms : ∀ term ∈ terms, Printable vocabulary term) : Printable vocabulary (.sum terms)
  | product {factors : List (Tree α)} (hlen : 2 ≤ factors.length)
    (hfactors : ∀ factor ∈ factors, Printable vocabulary factor) :
    Printable vocabulary (.product factors)
  | negate {operand : Tree α} (h : Printable vocabulary operand) :
    Printable vocabulary (.negate operand)
  | reciprocal {operand : Tree α} (h : Printable vocabulary operand) :
    Printable vocabulary (.reciprocal operand)
  | power {base exponent : Tree α} (hbase : Printable vocabulary base)
    (hexponent : Printable vocabulary exponent) : Printable vocabulary (.power base exponent)
  | modulus {left right : Tree α} (hleft : Printable vocabulary left)
    (hright : Printable vocabulary right) : Printable vocabulary (.modulus left right)

/-- A printable tree, or a tuple of at least two of them. -/
inductive PrintableRoot (vocabulary : Vocabulary α) : Tree α → Prop where
  | single {tree : Tree α} (h : Printable vocabulary tree) : PrintableRoot vocabulary tree
  | tuple {items : List (Tree α)} (hlen : 2 ≤ items.length)
    (hitems : ∀ item ∈ items, Printable vocabulary item) : PrintableRoot vocabulary (.tuple items)

/-- The number that the text `1` is read to. -/
def one : α := Numeral.ofDecimal ⟨1, 0⟩

mutual

/-- The tree with every reciprocal replaced by its product with one. -/
def expand : Tree α → Tree α
  | .scalar value => .scalar value
  | .var id => .var id
  | .sum terms => .sum (expandAll terms)
  | .product factors => .product (expandAll factors)
  | .negate operand => .negate (expand operand)
  | .reciprocal operand => .product [.scalar one, .reciprocal (expand operand)]
  | .power base exponent => .power (expand base) (expand exponent)
  | .modulus left right => .modulus (expand left) (expand right)
  | .call name apply args => .call name apply (expandAll args)
  | .constant name value => .constant name value
  | .tuple items => .tuple (expandAll items)

/-- The trees of a list with every reciprocal replaced by its product with one. -/
def expandAll : List (Tree α) → List (Tree α)
  | [] => []
  | tree :: rest => expand tree :: expandAll rest

end

theorem length_expandAll (trees : List (Tree α)) : (expandAll trees).length = trees.length := by
  induction trees with
  | nil => rfl
  | cons tree trees ih => rw [expandAll, List.length_cons, List.length_cons, ih]

end Tree

open Outline (Tidy Atomic Yields Spacing row)
open Formula.Tree (Printable PrintableRoot render renderAll expand expandAll)

variable {α : Type} [Arithmetic α] [Numeral α] {vocabulary : Vocabulary α}

/-! ### Texts without parts -/

/-- A number that reads back what it is printed as is atomic. -/
theorem exists_atomic_scalar (hdistinct : vocabulary.Distinct) {value : α}
    (hvalue : Tree.ReadsBack value) :
    ∃ o, Outline.text o = (Numeral.toText value).toList ∧ Atomic vocabulary o (.scalar value) := by
  obtain ⟨first, rest, htext, hfirst, hrest, hread⟩ := hvalue
  have htoken : IsToken (first :: rest) := by
    refine ⟨List.cons_ne_nil _ _, fun c hc => ?_⟩
    rcases List.mem_cons.mp hc with rfl | hc
    · exact Or.inl (isAlphanum_of_isDigit hfirst)
    · exact (hrest c hc).imp_left isAlphanum_of_isDigit
  -- no name begins with a digit
  obtain ⟨hfun, hconst⟩ := hdistinct.recognises_nothing_of_isAlpha_eq_false (s := rest)
    (isAlpha_eq_false_of_isDigit hfirst)
  refine ⟨(first :: rest).map .plain, by rw [Outline.text_map_plain, htext],
    .token htoken (fun vars => ?_) rfl⟩
  rw [Outline.read_map_plain htoken.isBlank_eq_false htoken.symbol_notMem hfun, hconst]
  dsimp only
  rw [hread]
  rfl

theorem exists_atomic_constant (hdistinct : vocabulary.Distinct) {name : String} {value : α}
    (hname : (name, value) ∈ vocabulary.constants.toList) :
    ∃ o, Outline.text o = name.toList ∧ Atomic vocabulary o (.constant name value) := by
  have hmem : name ∈ vocabulary.constants.names := List.mem_map_of_mem (f := Prod.fst) hname
  have htoken := IsToken.of_isWord (hdistinct.word_of_constant hmem)
  obtain ⟨hfun, hconst⟩ := hdistinct.constantAt?_name hname
  refine ⟨name.toList.map .plain, Outline.text_map_plain _, .token htoken (fun vars => ?_) rfl⟩
  rw [Outline.read_map_plain htoken.isBlank_eq_false htoken.symbol_notMem hfun, hconst]
  rfl

/-! ### Texts with parts -/

/-- Outlines of the texts of a list of trees. -/
theorem exists_atomics {vars : Variables α} {trees : List (Tree α)}
    (h : ∀ tree ∈ trees, ∃ o, Outline.text o = (render vars tree).toList ∧
      Atomic vocabulary o (expand tree)) :
    ∃ os, os.map Outline.text = (renderAll vars trees).map String.toList ∧
      List.Forall₂ (Atomic vocabulary) os (expandAll trees) := by
  induction trees with
  | nil => exact ⟨[], rfl, .nil⟩
  | cons tree trees ih =>
    obtain ⟨o, htext, hatom⟩ := h tree List.mem_cons_self
    obtain ⟨os, htexts, hatoms⟩ := ih fun tree' htree' => h tree' (List.mem_cons_of_mem _ htree')
    refine ⟨o :: os, ?_, .cons hatom hatoms⟩
    rw [List.map_cons, renderAll, List.map_cons, htext, htexts]

omit [Arithmetic α] [Numeral α] in
theorem wrapSeveral_of_two_le (wrap : List (Tree α) → Tree α) {trees : List (Tree α)}
    (hlen : 2 ≤ trees.length) : Operator.wrapSeveral wrap trees = some (wrap trees) := by
  match trees, hlen with
  | _ :: _ :: _, _ => rfl

/-- The spacing of ` + ` and ` * ` between operands in brackets. -/
def wide : Spacing where
  front := [' ']
  before := [' ']
  behind := [' ']
  back := [' ']

/-- The spacing of `, ` between arguments in brackets. -/
def inBrackets : Spacing where
  front := [' ']
  before := []
  behind := [' ']
  back := [' ']

/-- The spacing of `, ` between the elements of a tuple. -/
def unbracketed : Spacing where
  front := []
  before := []
  behind := [' ']
  back := []

/-- Operands in brackets with `+` or `*` between them. -/
theorem atomic_row (operator : Operator) (hjoins : operator ∈ [Operator.list, .add, .multiply])
    {os : List Outline} {trees : List (Tree α)} {tree : Tree α}
    (h : List.Forall₂ (Atomic vocabulary) os trees) (hlen : 2 ≤ trees.length)
    (htree : operator.assemble? trees = some tree) (hsingle : tree.isTuple = false) :
    Atomic vocabulary [.group (row wide operator.symbol os).text] tree := by
  refine .group (Outline.tidy_row (Outline.tidy_plain_symbol operator) fun o ho => ?_)
    (Outline.yields_row operator hjoins h hlen htree) hsingle
  obtain ⟨tree', hatom⟩ := Atomic.of_mem h ho
  exact hatom.tidy

/-- What stands on the two sides of an operator in brackets. -/
theorem atomic_pair (operator : Operator) {l r : Outline} {ops : List Outline.Operand}
    {trees : List (Tree α)} {tree : Tree α} (hl : Tidy l) (hr : Tidy r)
    (hlacks : Outline.LacksOperators l) (hlacks' : Outline.LacksOperators r)
    (hops : Outline.operands operator (l ++ .plain operator.symbol :: r) = ops)
    (hyields : List.Forall₂ (fun operand tree => Yields vocabulary operand.outline tree) ops trees)
    (htree : operator.assemble? (ops.zipWith
      (fun operand tree => operator.orient operand.inverted tree) trees) = some tree)
    (hsingle : tree.isTuple = false) :
    Atomic vocabulary [.group (Outline.text (l ++ .plain operator.symbol :: r))] tree := by
  have htidy : Tidy (l ++ .plain operator.symbol :: r) :=
    Outline.tidy_append.mpr ⟨hl, Outline.tidy_cons.mpr ⟨Outline.tidy_plain_symbol operator, hr⟩⟩
  rw [← hops] at hyields htree
  exact .group htidy (Outline.yields_of_operands
    (Outline.loosestIn?_pair operator hlacks hlacks') hyields htree) hsingle

section Operations

variable {o p : Outline} {operand left right : Tree α}

/-- `( -x )` -/
theorem atomic_negate (h : Atomic vocabulary o operand) :
    Atomic vocabulary [.group (Outline.text ([.plain ' '] ++ .plain '-' :: (o ++ [.plain ' '])))]
      (.negate operand) := by
  have hblank : Outline.allBlank [.plain ' '] = true := by decide
  have hops := Outline.Level.sums.operands_inverse_append (h.padded_right.lacks .subtract)
    h.padded_right.solid [.plain ' ']
  rw [Outline.Level.sums.operands_inverse_of_allBlank hblank] at hops
  exact atomic_pair .subtract (tidy_blank (b := [' ']) rfl) h.padded_right.tidy
    (Outline.notMem_of_allBlank hblank) h.padded_right.lacks hops
    (.cons h.padded_right.yields .nil) rfl rfl

/-- `( 1/x )` -/
theorem atomic_reciprocal (hdistinct : vocabulary.Distinct) (h : Atomic vocabulary o operand) :
    Atomic vocabulary
      [.group (Outline.text ([.plain ' ', .plain '1'] ++ .plain '/' :: (o ++ [.plain ' '])))]
      (.product [.scalar Tree.one, .reciprocal operand]) := by
  have hone : Atomic vocabulary [.plain ' ', .plain '1'] (.scalar Tree.one) :=
    (Atomic.whole hdistinct ['1'] (List.forall_mem_singleton.mpr rfl) (by decide)).padded_left
  have hops := Outline.Level.products.operands_inverse_append (h.padded_right.lacks .divide)
    h.padded_right.solid [.plain ' ', .plain '1']
  rw [Outline.Level.products.operands_inverse_of_notMem (hone.lacks .divide) hone.solid] at hops
  exact atomic_pair .divide hone.tidy h.padded_right.tidy hone.lacks
    h.padded_right.lacks hops (.cons hone.yields (.cons h.padded_right.yields .nil)) rfl rfl

/-- `( x^y )` -/
theorem atomic_power (h : Atomic vocabulary o left) (h' : Atomic vocabulary p right) :
    Atomic vocabulary
      [.group (Outline.text ((.plain ' ' :: o) ++ .plain '^' :: (p ++ [.plain ' '])))]
      (.power left right) := by
  have hcut := Text.lastCut?_append (h'.padded_right.lacks .raise) (.plain ' ' :: o)
  refine atomic_pair .raise h.padded_left.tidy h'.padded_right.tidy
    h.padded_left.lacks h'.padded_right.lacks (by rw [Outline.operands, hcut]; rfl)
    (.cons h.padded_left.yields (.cons h'.padded_right.yields .nil)) rfl rfl

/-- `( x%y )` -/
theorem atomic_modulus (h : Atomic vocabulary o left) (h' : Atomic vocabulary p right) :
    Atomic vocabulary
      [.group (Outline.text ((.plain ' ' :: o) ++ .plain '%' :: (p ++ [.plain ' '])))]
      (.modulus left right) := by
  have hcut := Text.firstCut?_append (h.padded_left.lacks .modulo) (p ++ [.plain ' '])
  exact atomic_pair .modulo h.padded_left.tidy h'.padded_right.tidy
    h.padded_left.lacks h'.padded_right.lacks (by rw [Outline.operands, hcut]; rfl)
    (.cons h.padded_left.yields (.cons h'.padded_right.yields .nil)) rfl rfl

/-- `f( x, y )` -/
theorem atomic_call (hdistinct : vocabulary.Distinct) {name : String} {apply : List α → α}
    (hname : (name, apply) ∈ vocabulary.functions.toList) {os : List Outline}
    {trees : List (Tree α)} (hne : os ≠ []) (h : List.Forall₂ (Atomic vocabulary) os trees) :
    Atomic vocabulary (name.toList.map .plain ++ [.group (row inBrackets ',' os).text])
      (.call name apply trees) := by
  have hmem : name ∈ vocabulary.functions.names := List.mem_map_of_mem (f := Prod.fst) hname
  have htoken := IsToken.of_isWord (hdistinct.word_of_function hmem)
  have hall : ∀ o ∈ os, Tidy o ∧ Outline.allBlank o = false := by
    intro o ho
    obtain ⟨tree, hatom⟩ := Atomic.of_mem h ho
    exact ⟨hatom.tidy, hatom.solid⟩
  have htidy : Tidy (row inBrackets ',' os) :=
    Outline.tidy_row (Outline.tidy_plain_symbol .list) fun o ho => (hall o ho).1
  have hsolid : Outline.allBlank (row inBrackets ',' os) = false :=
    Outline.allBlank_row hne fun o ho => (hall o ho).2
  obtain ⟨tree, hyields, helements⟩ :=
    Outline.exists_yields_elements inBrackets h hne
  refine ⟨Outline.tidy_append.mpr ⟨htoken.tidy, htidy.group⟩, ?_, ?_, ?_, rfl⟩
  · simp [Outline.allBlank, Piece.isBlank]
  · intro operator
    rw [List.mem_append, not_or]
    exact ⟨Outline.plain_notMem_map (htoken.symbol_notMem operator), by simp⟩
  · intro vars
    have hread := Outline.read_call htoken.isBlank_eq_false htoken.symbol_notMem (b := []) rfl
      (hdistinct.functionAt?_name hname rfl) htidy hsolid
    rw [List.append_nil] at hread
    rw [hread, ← helements]
    exact Parser.bind_eq_ok.mpr ⟨tree, vars, hyields vars, rfl⟩

end Operations

/-! ### Trees -/

/-- The text of a tree has an atomic outline. -/
theorem exists_atomic (hdistinct : vocabulary.Distinct) {tree : Tree α}
    (h : Printable vocabulary tree) (vars : Variables α) :
    ∃ o, Outline.text o = (render vars tree).toList ∧ Atomic vocabulary o (expand tree) := by
  -- one case for each node that can be printed, with the outline that is read back as its tree
  induction h with
  | scalar hvalue =>
    rw [render, expand]
    exact exists_atomic_scalar hdistinct hvalue
  | constant hname =>
    rw [render, expand]
    exact exists_atomic_constant hdistinct hname
  | @call name apply args hname hne _ ih =>
    obtain ⟨os, htexts, hatoms⟩ := exists_atomics ih
    obtain ⟨arg, args, rfl⟩ := List.exists_cons_of_ne_nil hne
    have hne' : os ≠ [] := by
      rintro rfl
      simp [renderAll] at htexts
    rw [expand]
    refine ⟨_, ?_, atomic_call hdistinct hname hne' hatoms⟩
    rw [renderAll] at htexts
    simp [render, Piece.text, Outline.text_map_plain, Outline.text_row, htexts, inBrackets]
  | @sum terms hlen _ ih =>
    obtain ⟨os, htexts, hatoms⟩ := exists_atomics ih
    rw [← Tree.length_expandAll] at hlen
    rw [expand]
    refine ⟨_, ?_, atomic_row .add (by simp) hatoms hlen ?_ rfl⟩
    · simp [render, Piece.text, Outline.text_row, htexts, wide, Operator.symbol]
    · exact wrapSeveral_of_two_le _ hlen
  | @product factors hlen _ ih =>
    obtain ⟨os, htexts, hatoms⟩ := exists_atomics ih
    rw [← Tree.length_expandAll] at hlen
    rw [expand]
    refine ⟨_, ?_, atomic_row .multiply (by simp) hatoms hlen rfl rfl⟩
    simp [render, Piece.text, Outline.text_row, htexts, wide, Operator.symbol]
  | negate _ ih =>
    obtain ⟨o, htext, hatom⟩ := ih
    rw [expand]
    refine ⟨_, ?_, atomic_negate hatom⟩
    simp [render, htext, Piece.text]
  | reciprocal _ ih =>
    obtain ⟨o, htext, hatom⟩ := ih
    rw [expand]
    refine ⟨_, ?_, atomic_reciprocal hdistinct hatom⟩
    simp [render, htext, Piece.text]
  | power _ _ ihbase ihexponent =>
    obtain ⟨o, htext, hatom⟩ := ihbase
    obtain ⟨p, htext', hatom'⟩ := ihexponent
    rw [expand]
    refine ⟨_, ?_, atomic_power hatom hatom'⟩
    simp [render, htext, htext', Piece.text]
  | modulus _ _ ihleft ihright =>
    obtain ⟨o, htext, hatom⟩ := ihleft
    obtain ⟨p, htext', hatom'⟩ := ihright
    rw [expand]
    refine ⟨_, ?_, atomic_modulus hatom hatom'⟩
    simp [render, htext, htext', Piece.text]

/-- The text of a tree is read to the tree with every reciprocal replaced by its product with one,
and to no variables. The standard names are distinct, and one is what it is called for them. -/
theorem parse_render (hdistinct : vocabulary.Distinct) {tree : Tree α}
    (h : PrintableRoot vocabulary tree) (vars : Variables α) :
    Parser.parse vocabulary (tree.render vars) = .ok (tree.expand, .empty) ∧
      (∀ sample, (Vocabulary.standard sample).Distinct) ∧ (Tree.one : Float) = 1 := by
  refine ⟨?_, Vocabulary.distinct_standard, rfl⟩
  -- only at the root can there be a tuple, without brackets around it
  cases h with
  | single h =>
    obtain ⟨o, htext, hatom⟩ := exists_atomic hdistinct h vars
    exact parse_eq_ok_of_read hdistinct hatom.tidy htext (hatom.yields .empty)
  | @tuple items hlen hitems =>
    obtain ⟨os, htexts, hatoms⟩ := exists_atomics fun item hitem =>
      exists_atomic hdistinct (hitems item hitem) vars
    rw [← Tree.length_expandAll] at hlen
    have htidy : Tidy (row unbracketed ',' os) := by
      refine Outline.tidy_row (Outline.tidy_plain_symbol .list) fun o ho => ?_
      obtain ⟨tree, hatom⟩ := Atomic.of_mem hatoms ho
      exact hatom.tidy
    have htext : Outline.text (row unbracketed ',' os) = (render vars (.tuple items)).toList := by
      simp [render, Outline.text_row, htexts, unbracketed]
    have hyields : Yields vocabulary (row unbracketed ',' os) (.tuple (expandAll items)) :=
      Outline.yields_row .list (by simp) hatoms hlen (wrapSeveral_of_two_le _ hlen)
    rw [expand]
    exact parse_eq_ok_of_read hdistinct htidy htext (hyields .empty)

/-- A tuple of a sum and a power, whose operands are calls, constants and numbers. -/
theorem parse_render_standard :
    let sine := Vocabulary.Standard.unary Float.sin
    let e : Tree Float := .constant "e" Vocabulary.Standard.e
    let rest : Tree Float :=
      .power (.scalar 2) (.modulus (.constant "PI" Vocabulary.Standard.pi) (.scalar 0.5))
    let tree : Tree Float :=
      .tuple [.sum [.scalar 0.5, .negate (.call "sin" sine [.reciprocal e])], rest]
    (Vocabulary.standard 0.5).Distinct ∧ PrintableRoot (Vocabulary.standard 0.5) tree ∧
      tree.render .empty = "( 0.5 + ( -sin( ( 1/e ) ) ) ), ( 2^( PI%0.5 ) )" ∧
      Parser.parse (Vocabulary.standard 0.5) "( 0.5 + ( -sin( ( 1/e ) ) ) ), ( 2^( PI%0.5 ) )" =
        .ok (.tuple [.sum [.scalar 0.5,
          .negate (.call "sin" sine [.product [.scalar 1, .reciprocal e]])], rest], .empty) := by
  intro sine e rest tree
  have hconstants : (Vocabulary.standard 0.5).constants.toList = Vocabulary.Standard.constants :=
    (NameTable.toList_ofList (by decide)).2
  have hfunctions :
      (Vocabulary.standard 0.5).functions.toList = Vocabulary.Standard.functions 0.5 :=
    (NameTable.toList_ofList (by decide)).2
  have he : Printable (Vocabulary.standard 0.5) e :=
    .constant (hconstants ▸ List.mem_of_getElem? (i := 1) rfl)
  have hpi : Printable (Vocabulary.standard 0.5) (.constant "PI" Vocabulary.Standard.pi) :=
    .constant (hconstants ▸ List.mem_of_getElem? (i := 0) rfl)
  have hsine : ("sin", sine) ∈ (Vocabulary.standard 0.5).functions.toList :=
    hfunctions ▸ List.mem_of_getElem? (i := 9) rfl
  have hhalf : Printable (Vocabulary.standard 0.5) (.scalar 0.5) :=
    .scalar ⟨'0', ['.', '5'], by decide, rfl, by simp, rfl⟩
  have htwo : Printable (Vocabulary.standard 0.5) (.scalar 2) :=
    .scalar ⟨'2', [], by decide, rfl, List.forall_mem_nil _, rfl⟩
  have hcall : Printable (Vocabulary.standard 0.5) (.call "sin" sine [.reciprocal e]) :=
    .call hsine (List.cons_ne_nil _ _) (List.forall_mem_singleton.mpr he.reciprocal)
  have hsum : Printable (Vocabulary.standard 0.5)
      (.sum [.scalar 0.5, .negate (.call "sin" sine [.reciprocal e])]) :=
    .sum (by decide) (by simpa using ⟨hhalf, hcall.negate⟩)
  have htree : PrintableRoot (Vocabulary.standard 0.5) tree :=
    .tuple (by decide) (by simpa using ⟨hsum, htwo.power (hpi.modulus hhalf)⟩)
  have htext : tree.render .empty = "( 0.5 + ( -sin( ( 1/e ) ) ) ), ( 2^( PI%0.5 ) )" := by decide
  obtain ⟨hparse, -, hone⟩ := parse_render (Vocabulary.distinct_standard 0.5) htree .empty
  refine ⟨Vocabulary.distinct_standard 0.5, htree, htext, ?_⟩
  rw [← htext, hparse, ← hone]
  rfl

end Formula
