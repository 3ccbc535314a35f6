import Formula.Proofs.Grammar.Reading
import Formula.Proofs.Number.Binary64
import Formula.Proofs.Parser.Brackets
import Formula.Proofs.Vocabulary.Order

/-!
# The shape of trees that have been read

What every rule of reading leaves in the tree and in the table of variables. `Tree.Shaped` is the
condition on one node of a tree, and `Vocabulary.Leaves` the one on the name of a variable.

A rule makes one node at most above the trees of the parts, and this node is shaped when the trees
below it are (`Reading.Shaped.assemble`), so that by induction all nodes of a tree are
(`fragment_shaped`). A name is entered by the last rule only, when all rules before it have not
applied to the fragment (`leaves_of_rules`). `parse_shaped` says both of every text.
-/

namespace Formula

/-! ### The nodes of a tree -/

namespace Tree

variable {α : Type}

mutual

/-- The trees inside a tree, itself first. -/
def nodes : Tree α → List (Tree α)
  | .scalar value => [.scalar value]
  | .var id => [.var id]
  | .sum terms => .sum terms :: nodesAll terms
  | .product factors => .product factors :: nodesAll factors
  | .negate operand => .negate operand :: nodes operand
  | .reciprocal operand => .reciprocal operand :: nodes operand
  | .power base exponent => .power base exponent :: (nodes base ++ nodes exponent)
  | .modulus left right => .modulus left right :: (nodes left ++ nodes right)
  | .call name apply args => .call name apply args :: nodesAll args
  | .constant name value => [.constant name value]
  | .tuple items => .tuple items :: nodesAll items

/-- The trees inside several trees. -/
def nodesAll : List (Tree α) → List (Tree α)
  | [] => []
  | tree :: rest => nodes tree ++ nodesAll rest

end

theorem nodesAll_eq_flatMap (trees : List (Tree α)) : nodesAll trees = trees.flatMap nodes := by
  induction trees with
  | nil => rfl
  | cons tree trees ih => rw [nodesAll, ih, List.flatMap_cons]

/-- The trees just below the root. -/
def children : Tree α → List (Tree α)
  | .scalar _ | .var _ | .constant _ _ => []
  | .sum trees | .product trees | .tuple trees | .call _ _ trees => trees
  | .negate operand | .reciprocal operand => [operand]
  | .power left right | .modulus left right => [left, right]

theorem nodes_eq (tree : Tree α) : tree.nodes = tree :: tree.children.flatMap nodes := by
  cases tree <;> simp [nodes, children, nodesAll_eq_flatMap]

end Tree

/-! ### The conditions -/

section Conditions

variable {α : Type} [Zero α] [LE α] [Numeral α]

/-- What reading with a vocabulary guarantees of a node: sums and tuples have two children or more,
products one or more; constants and functions are those of the vocabulary; a tuple is not the only
argument of a function; and a number is that of a literal, which has no sign. -/
def Tree.Shaped (vocabulary : Vocabulary α) : Tree α → Prop
  | .sum terms => 2 ≤ terms.length
  | .tuple items => 2 ≤ items.length
  | .product factors => 1 ≤ factors.length
  | .constant name value => vocabulary.constants.get? name = some value
  | .call name apply args =>
    vocabulary.functions.get? name = some apply ∧ ∀ items, args ≠ [.tuple items]
  | .scalar value =>
    (∃ c s, (c.isDigit = true ∨ c = '.') ∧ Parser.number? (c :: s) = some value) ∧ 0 ≤ value
  | _ => True

end Conditions

namespace Vocabulary

variable {α : Type}

/-- What reading with a vocabulary guarantees of the name of a variable. -/
structure Leaves (vocabulary : Vocabulary α) (name : String) : Prop where
  begins : ∃ c s, name.toList = c :: s ∧ (c.isAlpha = true ∨ c = '$' ∨ c = '§')
  blank : ∀ c ∈ name.toList, Text.isBlank c = false
  bracket : '(' ∉ name.toList
  operator : ∀ c ∈ [',', '+', '-', '*', '/', '%', '^'], c ∉ name.toList
  /-- No `&` has a `;` behind it. -/
  placeholder : ∀ a b c, name.toList ≠ a ++ '&' :: (b ++ ';' :: c)
  notConstant : name ∉ vocabulary.constants.names
  notFunction : name ∉ vocabulary.functions.names
  /-- It begins with no name of a constant. -/
  constants : ∀ other ∈ vocabulary.constants.names, other ≠ "" → ¬other.toList <+: name.toList
  /-- It begins with no name of a function, or with several. -/
  functions :
    let begun := vocabulary.functions.names.filter fun other =>
      other ≠ "" && decide (other.toList <+: name.toList)
    begun = [] ∨ 2 ≤ begun.length

end Vocabulary

/-! ### Facts about the parts of the conditions -/

/-- A numeral begins with a digit or with the point. -/
theorem Decimal.exists_of_ofFragment? {s : Fragment} {d : Decimal} (h : ofFragment? s = some d) :
    ∃ c rest, s = c :: rest ∧ (c.isDigit = true ∨ c = '.') := by
  cases s with
  | nil => exact nomatch h
  | cons c rest =>
    refine ⟨c, rest, rfl, ?_⟩
    by_contra hc
    obtain ⟨hdigit, hpoint⟩ := not_or.mp hc
    have hspan : spanDigits (c :: rest) = ([], c :: rest) := by simp [spanDigits, hdigit]
    simp [ofFragment?, hspan, hpoint] at h

theorem NameTable.Sound.get?_of_mem {β : Type} {table : NameTable β} (h : table.Sound)
    {entry : String × β} (hentry : entry ∈ table.toList) : table.get? entry.1 = some entry.2 := by
  obtain ⟨l, r, htable⟩ := List.append_of_mem hentry
  have hl : entry.1 ∉ Entries.names l := by
    have hnodup := h.nodup
    rw [NameTable.names, htable, List.map_append, List.nodup_append] at hnodup
    intro hmem
    exact hnodup.2.2 _ hmem _ (by simp) rfl
  rw [h.get?_eq, htable, Entries.lookup_append_cons hl]

namespace Vocabulary

variable {α : Type} {vocabulary : Vocabulary α}

theorem mem_constants_of_constantAt? {s : Fragment} {entry : String × α}
    (h : vocabulary.constantAt? s = some entry) : entry ∈ vocabulary.constants.toList :=
  List.mem_of_find?_eq_some h

theorem beginsWith_toList (name other : String) :
    beginsWith name.toList other = (other ≠ "" && decide (other.toList <+: name.toList)) := by
  rw [Bool.eq_iff_iff, beginsWith_iff]
  simp

/-- A fragment in which no function is recognised begins with no name of a function, or with
several. -/
theorem functions_of_functionAt?_eq_none {name : String}
    (h : vocabulary.functionAt? name.toList = none) :
    let begun := vocabulary.functions.names.filter fun other =>
      other ≠ "" && decide (other.toList <+: name.toList)
    begun = [] ∨ 2 ≤ begun.length := by
  intro begun
  have hbegun : begun = (vocabulary.functions.toList.filter fun entry =>
      beginsWith name.toList entry.1).map Prod.fst := by
    simp only [begun, ← beginsWith_toList, NameTable.names, List.filter_map, Function.comp_def]
  rw [hbegun]
  unfold functionAt? at h
  generalize (vocabulary.functions.toList.filter fun entry => beginsWith name.toList entry.1) =
    entries at h
  rcases entries with _ | ⟨entry, _ | ⟨other, entries⟩⟩
  · exact Or.inl rfl
  · cases h
  · exact Or.inr (by simp)

theorem constants_of_constantAt?_eq_none {s : Fragment} (h : vocabulary.constantAt? s = none) :
    ∀ other ∈ vocabulary.constants.names, other ≠ "" → ¬other.toList <+: s := by
  intro other hother hne hpre
  obtain ⟨entry, hentry, rfl⟩ := List.mem_map.mp hother
  exact List.find?_eq_none.mp h entry hentry (beginsWith_iff.mpr ⟨hne, hpre⟩)

end Vocabulary

namespace Parser

variable {α : Type}

/-- What holds of the result of every step holds of the results of several. -/
theorem forall_of_mapM {σ ε β γ : Type} {f : β → StateT σ (Except ε) γ} {P : γ → Prop}
    (hf : ∀ b st c st', (f b).run st = .ok (c, st') → P c) {bs : List β} {cs : List γ}
    {st st' : σ} (h : (bs.mapM f).run st = .ok (cs, st')) :
    cs.length = bs.length ∧ ∀ c ∈ cs, P c := by
  induction bs generalizing st st' cs with
  | nil =>
    obtain ⟨rfl, -⟩ := Prod.mk.inj (Except.ok.inj h)
    exact ⟨rfl, nofun⟩
  | cons b bs ih =>
    obtain ⟨c, st₁, cs', hb, hbs, rfl⟩ := mapM_cons_eq_ok.mp h
    obtain ⟨hlen, hall⟩ := ih hbs
    exact ⟨by simp [hlen], List.forall_mem_cons.mpr ⟨hf b st c st₁ hb, hall⟩⟩

/-! ### Nodes -/

section Nodes

variable [Zero α] [LE α] [Numeral α]

/-- Whether all nodes of a tree are shaped. -/
def AllShaped (vocabulary : Vocabulary α) (tree : Tree α) : Prop :=
  ∀ node ∈ tree.nodes, node.Shaped vocabulary

variable {vocabulary : Vocabulary α}

/-- A tree is in shape if its root is and its subtrees are. -/
theorem allShaped_iff {tree : Tree α} : AllShaped vocabulary tree ↔
    tree.Shaped vocabulary ∧ ∀ child ∈ tree.children, AllShaped vocabulary child := by
  simp only [AllShaped, tree.nodes_eq, List.forall_mem_cons, List.mem_flatMap]
  exact and_congr_right fun _ =>
    ⟨fun h child hchild node hnode => h node ⟨child, hchild, hnode⟩,
      fun h node ⟨child, hchild, hnode⟩ => h child hchild node hnode⟩

theorem allShaped_orient {operator : Operator} {inverted : Bool} {tree : Tree α}
    (h : AllShaped vocabulary tree) : AllShaped vocabulary (operator.orient inverted tree) := by
  unfold Operator.orient
  split
  · exact allShaped_iff.mpr ⟨trivial, List.forall_mem_singleton.mpr h⟩
  · exact allShaped_iff.mpr ⟨trivial, List.forall_mem_singleton.mpr h⟩
  · exact h

theorem allShaped_wrapSeveral {wrap : List (Tree α) → Tree α} {trees : List (Tree α)}
    {tree : Tree α} (hshaped : 2 ≤ trees.length → (wrap trees).Shaped vocabulary)
    (hchildren : (wrap trees).children = trees)
    (htrees : ∀ tree ∈ trees, AllShaped vocabulary tree)
    (h : Operator.wrapSeveral wrap trees = some tree) : AllShaped vocabulary tree := by
  match trees, h with
  | [tree], rfl => exact htrees tree (List.mem_singleton_self _)
  | _ :: _ :: _, rfl => exact allShaped_iff.mpr ⟨hshaped (by simp), hchildren.symm ▸ htrees⟩

/-- What an operator makes of shaped trees is shaped. Products do not ask for operands. -/
theorem allShaped_assemble? {operator : Operator} {trees : List (Tree α)} {tree : Tree α}
    (hne : operator = .multiply → trees ≠ [])
    (htrees : ∀ tree ∈ trees, AllShaped vocabulary tree)
    (h : operator.assemble? trees = some tree) : AllShaped vocabulary tree := by
  unfold Operator.assemble? at h
  split at h
  · exact allShaped_wrapSeveral id rfl htrees h
  · exact allShaped_wrapSeveral id rfl htrees h
  · exact allShaped_wrapSeveral id rfl htrees h
  · obtain rfl := Option.some.inj h
    exact allShaped_iff.mpr ⟨List.length_pos_of_ne_nil (hne rfl), htrees⟩
  · exact nomatch h
  · rename_i hne'
    obtain rfl := Option.some.inj h
    exact allShaped_iff.mpr ⟨List.length_pos_of_ne_nil hne', htrees⟩
  · obtain rfl := Option.some.inj h
    exact allShaped_iff.mpr ⟨trivial, htrees⟩
  · obtain rfl := Option.some.inj h
    exact allShaped_iff.mpr ⟨trivial, htrees⟩
  · exact nomatch h

/-- The elements of a shaped tree are not a tuple alone. -/
theorem elements_ne_tuple {tree : Tree α} (h : tree.Shaped vocabulary) (items : List (Tree α)) :
    tree.elements ≠ [.tuple items] := by
  intro heq
  unfold Tree.elements at heq
  split at heq
  · -- a tuple has two elements or more
    have hlength : 2 ≤ _ := h
    rw [heq] at hlength
    exact absurd hlength (by simp)
  · rename_i hne
    exact hne items (List.singleton_inj.mp heq)

theorem allShaped_elements {tree : Tree α} (h : AllShaped vocabulary tree) :
    ∀ element ∈ tree.elements, AllShaped vocabulary element := by
  unfold Tree.elements
  split
  · exact (allShaped_iff.mp h).2
  · exact List.forall_mem_singleton.mpr h

/-- What a rule guarantees of a reading. -/
def Reading.Shaped (vocabulary : Vocabulary α) : Reading α → Prop
  | .leaf tree => AllShaped vocabulary tree
  | .call name apply _ => vocabulary.functions.get? name = some apply
  | _ => True

/-- Trees in shape are put together to a tree in shape. -/
theorem Reading.Shaped.assemble {reading : Reading α} {trees : List (Tree α)} {tree : Tree α}
    (h : reading.Shaped vocabulary) (hlen : trees.length = reading.parts.length)
    (htrees : ∀ tree ∈ trees, AllShaped vocabulary tree)
    (hassemble : reading.assemble trees = .ok tree) : AllShaped vocabulary tree := by
  cases reading with
  | leaf leaf =>
    obtain rfl := Except.ok.inj hassemble
    exact h
  | operation operator text =>
    unfold Reading.assemble at hassemble
    dsimp only at hassemble
    split at hassemble
    · rename_i tree' htree
      obtain rfl := Except.ok.inj hassemble
      refine allShaped_assemble? ?_ ?_ htree
      · rintro rfl hnil
        rw [List.zipWith_eq_nil_iff] at hnil
        -- a cut leaves one piece at least
        have hpieces : Operator.operands .multiply text ≠ [] := by
          simp [Operator.operands, Operator.plainPieces, List.splitOn_ne_nil]
        rcases hnil with hnil | rfl
        · exact hpieces hnil
        · exact hpieces (List.map_eq_nil_iff.mp (List.length_eq_zero_iff.mp hlen.symm))
      · rw [← List.map_uncurry_zip_eq_zipWith, List.forall_mem_map]
        exact fun pair hpair => allShaped_orient (htrees _ (List.of_mem_zip hpair).2)
    · cases hassemble
  | call name apply argument =>
    obtain ⟨argument', rfl⟩ := List.length_eq_one_iff.mp hlen
    obtain rfl := Except.ok.inj hassemble
    have hargument := htrees argument' (List.mem_singleton_self _)
    rw [List.flatMap_singleton]
    exact allShaped_iff.mpr ⟨⟨h, elements_ne_tuple (allShaped_iff.mp hargument).1⟩,
      allShaped_elements hargument⟩
  | group text =>
    unfold Reading.assemble at hassemble
    dsimp only at hassemble
    split at hassemble
    · obtain rfl := Except.ok.inj hassemble
      exact htrees _ (List.mem_singleton_self _)
    · cases hassemble

variable (hliteral : ∀ (c : Char) (s : Fragment) (value : α), (c.isDigit = true ∨ c = '.') →
  number? (c :: s) = some value → 0 ≤ value)
include hliteral

/-- Each rule leads to a reading in shape. -/
theorem Interprets.shaped (hsound : vocabulary.Sound) {st st' : State α} {s : Fragment}
    {reading : Reading α} (h : Interprets vocabulary st s reading st') :
    reading.Shaped vocabulary := by
  have hfunction : ∀ {name apply}, vocabulary.functionAt? s = some (name, apply) →
      vocabulary.functions.get? name = some apply := fun hname =>
    hsound.functions.get?_of_mem (Vocabulary.mem_functions_of_functionAt? hname).1
  cases h with
  | operation | group => trivial
  | call _ hname => exact hfunction hname
  | emptyCall _ hname => exact allShaped_iff.mpr ⟨⟨hfunction hname, fun _ => nofun⟩, nofun⟩
  | constant _ _ hname =>
    exact allShaped_iff.mpr
      ⟨hsound.constants.get?_of_mem (Vocabulary.mem_constants_of_constantAt? hname), nofun⟩
  | number _ _ _ _ hvalue =>
    obtain ⟨d, hd, -⟩ := Option.map_eq_some_iff.mp hvalue
    obtain ⟨c, rest, rfl, hc⟩ := Decimal.exists_of_ofFragment? hd
    exact allShaped_iff.mpr ⟨⟨⟨c, rest, hc, hvalue⟩, hliteral c rest _ hc hvalue⟩, nofun⟩
  | var => exact allShaped_iff.mpr ⟨trivial, nofun⟩

/-- Every node of a tree that has been read is shaped. -/
theorem fragment_shaped (hsound : vocabulary.Sound) {depth : Nat} {s : Fragment} {st st' : State α}
    {tree : Tree α} (h : (fragment vocabulary depth s).run st = .ok (tree, st')) :
    AllShaped vocabulary tree := by
  induction depth generalizing s st st' tree with
  | zero => exact nomatch (fragment_zero s st).symm.trans h
  | succ depth ih =>
    obtain ⟨reading, st₁, trees, hstep, hparts, hassemble⟩ := fragment_eq_ok.mp h
    obtain ⟨_, -, hrule⟩ := interpret_eq_ok hstep
    obtain ⟨hlen, htrees⟩ := forall_of_mapM (fun s st tree st' => ih) hparts
    exact (hrule.shaped hliteral hsound).assemble hlen htrees hassemble

end Nodes

/-! ### Names of variables -/

section Names

variable [Zero α] [Numeral α] {vocabulary : Vocabulary α}

omit [Zero α] [Numeral α] in
/-- The rule for variables applies to such names only: all other rules come before it. -/
theorem leaves_of_rules (hsound : vocabulary.Sound) {name : String} (hbracket : '(' ∉ name.toList)
    (hop : Operator.loosestIn? name.toList = none)
    (hfun : vocabulary.functionAt? name.toList = none)
    (hconst : vocabulary.constantAt? name.toList = none)
    (hgroup : placeholderInterior? name.toList = none)
    (hname : isVariableName vocabulary name.toList = true) : vocabulary.Leaves name := by
  obtain ⟨first, rest, hlist⟩ : ∃ first rest, name.toList = first :: rest := by
    cases hlist : name.toList with
    | nil => exact nomatch hlist ▸ hname
    | cons first rest => exact ⟨first, rest, rfl⟩
  have hrule := hname
  rw [hlist] at hrule
  simp only [isVariableName, beginsName, ← hlist, String.ofList_toList, Bool.and_eq_true,
    Bool.or_eq_true, beq_iff_eq, Bool.not_eq_true', List.all_eq_true] at hrule
  obtain ⟨⟨hfirst, hrest⟩, htaken⟩ := hrule
  have hfree : name ∉ vocabulary.constants.names ∧ name ∉ vocabulary.functions.names := by
    rw [← not_or, ← List.mem_append, ← Vocabulary.names, ← Vocabulary.isTaken_iff hsound, htaken]
    exact Bool.false_ne_true
  exact {
    begins := ⟨first, rest, hlist, by tauto⟩
    blank := by
      rw [hlist, List.forall_mem_cons]
      refine ⟨?_, hrest⟩
      rcases hfirst with (halpha | rfl) | rfl
      · exact isBlank_of_isAlphanum (Bool.or_eq_true_iff.mpr (Or.inl halpha))
      · decide
      · decide
    bracket := hbracket
    operator := by
      intro c hc hmem
      obtain ⟨operator, hoperator, rfl⟩ : ∃ operator ∈ Operator.loosestFirst, operator.symbol = c :=
        List.mem_map.mp hc
      exact List.find?_eq_none.mp hop operator hoperator (decide_eq_true hmem)
    placeholder := placeholderInterior?_eq_none_iff.mp hgroup
    notConstant := hfree.1
    notFunction := hfree.2
    constants := Vocabulary.constants_of_constantAt?_eq_none hconst
    functions := Vocabulary.functions_of_functionAt?_eq_none hfun }

omit [Numeral α] in
theorem mem_names_intern {vars : Variables α} {name other : String}
    (h : other ∈ (vars.intern name).2.names) : other ∈ vars.names ∨ other = name := by
  cases hid : vars.numbers[name]? with
  | some id =>
    rw [Variables.intern_of_some hid] at h
    exact Or.inl h
  | none =>
    rw [Variables.names_intern_of_none hid, List.mem_append, List.mem_singleton] at h
    exact h

/-- The only new variable of a step is the name that the step has found no other meaning for. -/
theorem interpret_leaves (hsound : vocabulary.Sound) {s : Fragment} {st st' : State α}
    {reading : Reading α} (h : (interpret vocabulary s).run st = .ok (reading, st'))
    (hst : ∀ name ∈ st.vars.names, vocabulary.Leaves name) :
    ∀ name ∈ st'.vars.names, vocabulary.Leaves name := by
  obtain ⟨hidden, hhidden, hrule⟩ := interpret_eq_ok h
  cases hrule with
  | operation | emptyCall | call | constant | group | number => exact hst
  | var hop hfun hconst hgroup _ hname =>
    intro name hmem
    rcases mem_names_intern hmem with hmem | rfl
    · exact hst name hmem
    · have hbracket : '(' ∉ Fragment.trim hidden := fun hmem =>
        Outline.open_notMem_of_setAside hhidden ((Text.trimBy_sublist _).mem hmem)
      have hlist : (String.ofList (Fragment.trim hidden)).toList = Fragment.trim hidden :=
        String.toList_ofList
      apply leaves_of_rules hsound <;> rw [hlist] <;> assumption

theorem fragment_leaves (hsound : vocabulary.Sound) {depth : Nat} {s : Fragment}
    {st st' : State α} {tree : Tree α}
    (h : (fragment vocabulary depth s).run st = .ok (tree, st'))
    (hst : ∀ name ∈ st.vars.names, vocabulary.Leaves name) :
    ∀ name ∈ st'.vars.names, vocabulary.Leaves name := by
  induction depth generalizing s st st' tree with
  | zero => exact nomatch (fragment_zero s st).symm.trans h
  | succ depth ih =>
    obtain ⟨reading, st₁, trees, hstep, hparts, -⟩ := fragment_eq_ok.mp h
    exact reaches_of_mapM
      (R := fun st st' => (∀ name ∈ st.vars.names, vocabulary.Leaves name) →
        ∀ name ∈ st'.vars.names, vocabulary.Leaves name)
      (fun st => id) (fun h₁ h₂ => h₂ ∘ h₁) (fun s st tree st' hs => ih hs) hparts
      (interpret_leaves hsound hstep hst)

end Names

/-! ### Trees and tables that have been read -/

/-- Whatever has been registered, all nodes of a tree that has been read are shaped, and its table
has only names that are left for variables. -/
theorem parse_shaped [Zero α] [LE α] [Numeral α]
    (hliteral : ∀ (c : Char) (s : Fragment) (value : α), (c.isDigit = true ∨ c = '.') →
      number? (c :: s) = some value → 0 ≤ value)
    {history : List (Registration α)} {text : String} {tree : Tree α} {vars : Variables α}
    (h : parse (.ofHistory history) text = .ok (tree, vars)) :
    (∀ node ∈ tree.nodes, node.Shaped (.ofHistory history)) ∧
      ∀ name ∈ vars.names, (Vocabulary.ofHistory history).Leaves name := by
  obtain ⟨st, hrun, rfl⟩ := parse_eq_ok.mp h
  have hsound := Vocabulary.sound_ofHistory history
  exact ⟨fragment_shaped hliteral hsound hrun, fragment_leaves hsound hrun nofun⟩

/-- A call with a variable and a number. -/
theorem parse_shaped_call :
    ∃ (history : List (Registration Float)) (tree : Tree Float) (vars : Variables Float),
      Vocabulary.ofHistory history = Vocabulary.standard 0.5 ∧
      (∀ (c : Char) (s : Fragment) (value : Float), (c.isDigit = true ∨ c = '.') →
        number? (c :: s) = some value → 0 ≤ value) ∧
      parse (.ofHistory history) "max(x,2)" = .ok (tree, vars) ∧
      (∀ node ∈ tree.nodes, node.Shaped (.ofHistory history)) ∧
      ∀ name ∈ vars.names, (Vocabulary.ofHistory history).Leaves name := by
  have hliteral : ∀ (c : Char) (s : Fragment) (value : Float), (c.isDigit = true ∨ c = '.') →
      number? (c :: s) = some value → 0 ≤ value := by
    intro c s value _ hvalue
    obtain ⟨d, -, rfl⟩ := Option.map_eq_some_iff.mp hvalue
    exact Binary64.zero_le_ofDecimal d
  have hdistinct := Vocabulary.distinct_standard 0.5
  have hmax : ("max", fun args => Vocabulary.Standard.greatest (Vocabulary.argument args 0)
      (Vocabulary.argument args 1)) ∈ (Vocabulary.standard 0.5).functions.toList := by
    rw [show (Vocabulary.standard 0.5).functions.toList = Vocabulary.Standard.functions 0.5 from
      (NameTable.toList_ofList (by decide)).2]
    exact List.mem_of_getElem? (i := 16) rfl
  have hx : ∃ o : Outline, o.text = ['x'] ∧ o.Tidy ∧
      Layer.expression.Reads (Vocabulary.standard 0.5) o fun ρ => ρ "x" := by
    obtain ⟨o, ho, htidy, hpart⟩ := @exists_identifier Float _ _ _ hdistinct [] [] rfl rfl ['x']
      (by decide) (by rw [Vocabulary.names_standard]; decide)
    exact ⟨o, ho, htidy, .signed (.part (hpart.mono (by decide)))⟩
  have htwo : ∃ o : Outline, o.text = ['2'] ∧ o.Tidy ∧
      Layer.expression.Reads (Vocabulary.standard 0.5) o fun _ => Numeral.ofDecimal ⟨2, 0⟩ := by
    obtain ⟨o, ho, htidy, hpart⟩ := @exists_whole Float _ _ _ hdistinct [] [] rfl rfl ['2']
      (List.forall_mem_singleton.mpr rfl) (by decide)
    exact ⟨o, ho, htidy, .signed (.part (hpart.mono (by decide)))⟩
  obtain ⟨o, ho, htidy, hcall⟩ := @exists_call Float _ _ _ hdistinct [] [] rfl rfl [] rfl "max" _
    hmax [(['x'], fun ρ => ρ "x"), (['2'], fun _ => Numeral.ofDecimal ⟨2, 0⟩)]
    (List.cons_ne_nil _ _) (List.forall_mem_cons.mpr ⟨hx, List.forall_mem_singleton.mpr htwo⟩)
  obtain ⟨tree, vars, hread, -⟩ := hcall.means .empty
  have htext : o.text = "max(x,2)".toList := ho.trans (by decide)
  have hparse := parse_eq_ok_of_read hdistinct htidy htext hread
  have hhistory := Vocabulary.ofHistory_standard 0.5
  rw [← hhistory] at hparse
  exact ⟨_, tree, vars, hhistory, hliteral, hparse, parse_shaped hliteral hparse⟩

end Parser

end Formula
