import Formula.Proofs.Grammar.Rational
import Formula.Proofs.VariableTable

/-!
# Variables in the order of their first appearance

`Tree.ids` lists the numbers of the variables of a tree from left to right. Reading a fragment
asks the table for just these numbers in just this order (`fragment_numbers`): parts are read from
left to right and none of their trees is dropped or moved. So the numbers of a tree are those of its
table, each for the first time in its turn (`parse_numbers`).
-/

namespace Formula

namespace Tree

variable {α : Type}

mutual

/-- The numbers of the variables of a tree, from left to right. -/
def ids : Tree α → List Nat
  | .scalar _ => []
  | .var id => [id]
  | .sum terms => idsAll terms
  | .product factors => idsAll factors
  | .negate operand => ids operand
  | .reciprocal operand => ids operand
  | .power base exponent => ids base ++ ids exponent
  | .modulus left right => ids left ++ ids right
  | .call _ _ args => idsAll args
  | .constant _ _ => []
  | .tuple items => idsAll items

/-- The numbers of the variables of a list of trees. -/
def idsAll : List (Tree α) → List Nat
  | [] => []
  | tree :: rest => ids tree ++ idsAll rest

end

theorem idsAll_append (trees trees' : List (Tree α)) :
    idsAll (trees ++ trees') = idsAll trees ++ idsAll trees' := by
  induction trees with
  | nil => rfl
  | cons tree trees ih => simp [idsAll, ih]

theorem idsAll_elements (tree : Tree α) : idsAll tree.elements = tree.ids := by
  unfold elements
  split
  · rw [ids]
  · simp [idsAll]

theorem idsAll_flatMap_elements (trees : List (Tree α)) :
    idsAll (trees.flatMap elements) = idsAll trees := by
  induction trees with
  | nil => rfl
  | cons tree trees ih => rw [List.flatMap_cons, idsAll_append, idsAll_elements, ih, idsAll]

end Tree

namespace Operator

variable {α : Type}

theorem ids_orient (operator : Operator) (inverted : Bool) (tree : Tree α) :
    (operator.orient inverted tree).ids = tree.ids := by
  unfold orient
  split <;> simp [Tree.ids]

/-- Inverting trees leaves their variables where they are. -/
theorem idsAll_orient (operator : Operator) {operands : List Operand} {trees : List (Tree α)}
    (hlen : trees.length = operands.length) :
    Tree.idsAll (operands.zipWith (fun operand tree => operator.orient operand.inverted tree)
      trees) = Tree.idsAll trees := by
  induction operands generalizing trees with
  | nil =>
    obtain rfl := List.length_eq_zero_iff.mp hlen
    rfl
  | cons operand operands ih =>
    cases trees with
    | nil => rfl
    | cons tree trees =>
      have hrest := ih (by simpa using hlen)
      simp only [List.zipWith_cons_cons, Tree.idsAll, ids_orient, hrest]

theorem ids_wrapSeveral {wrap : List (Tree α) → Tree α} {trees : List (Tree α)} {tree : Tree α}
    (hwrap : ∀ trees, (wrap trees).ids = Tree.idsAll trees)
    (h : wrapSeveral wrap trees = some tree) : tree.ids = Tree.idsAll trees := by
  unfold wrapSeveral at h
  split at h
  · exact nomatch h
  · obtain rfl := Option.some.inj h
    simp [Tree.idsAll]
  · obtain rfl := Option.some.inj h
    exact hwrap _

/-- An operator keeps the trees of its operands in their order. -/
theorem ids_assemble? {operator : Operator} {trees : List (Tree α)} {tree : Tree α}
    (h : operator.assemble? trees = some tree) : tree.ids = Tree.idsAll trees := by
  -- one case for each line of the definition, the two without a tree among them
  unfold assemble? at h
  split at h
  · exact ids_wrapSeveral (fun _ => by rw [Tree.ids]) h
  · exact ids_wrapSeveral (fun _ => by rw [Tree.ids]) h
  · exact ids_wrapSeveral (fun _ => by rw [Tree.ids]) h
  · obtain rfl := Option.some.inj h
    rw [Tree.ids]
  · exact nomatch h
  · obtain rfl := Option.some.inj h
    rw [Tree.ids]
  · obtain rfl := Option.some.inj h
    simp [Tree.ids, Tree.idsAll]
  · obtain rfl := Option.some.inj h
    simp [Tree.ids, Tree.idsAll]
  · exact nomatch h

end Operator

namespace Parser

open Variables (Numbers)

variable {α : Type}

/-- The numbers that a step of reading has asked for by itself. -/
def Reading.ids : Reading α → List Nat
  | .leaf tree => tree.ids
  | _ => []

/-- The tree of a reading has the variables of its parts in their order. -/
theorem Reading.ids_assemble {reading : Reading α} {trees : List (Tree α)} {tree : Tree α}
    (hlen : trees.length = reading.parts.length) (h : reading.assemble trees = .ok tree) :
    tree.ids = reading.ids ++ Tree.idsAll trees := by
  cases reading with
  | leaf leaf =>
    obtain rfl := List.length_eq_zero_iff.mp hlen
    obtain rfl := Except.ok.inj h
    exact (List.append_nil _).symm
  | operation operator text =>
    unfold Reading.assemble at h
    dsimp only at h
    split at h
    · rename_i tree' htree
      obtain rfl := Except.ok.inj h
      rw [Operator.ids_assemble? htree, Operator.idsAll_orient]
      · rfl
      · simpa [Reading.parts] using hlen
    · simp at h
  | call name apply argument =>
    obtain rfl := Except.ok.inj h
    rw [Tree.ids, Tree.idsAll_flatMap_elements]
    rfl
  | group text =>
    unfold Reading.assemble at h
    dsimp only at h
    split at h
    · obtain rfl := Except.ok.inj h
      simp [Reading.ids, Tree.idsAll]
    · simp at h

/-- Fragments that are read one after another go on numbering where the one in front has stopped. -/
theorem mapM_numbers {f : Fragment → Reader α (Tree α)}
    (hf : ∀ s st tree st', st.vars.Sound → (f s).run st = .ok (tree, st') →
      Numbers st.vars tree.ids st'.vars)
    {parts : List Fragment} {st st' : State α} {trees : List (Tree α)} (hsound : st.vars.Sound)
    (h : (parts.mapM f).run st = .ok (trees, st')) :
    trees.length = parts.length ∧ Numbers st.vars (Tree.idsAll trees) st'.vars := by
  induction parts generalizing st trees with
  | nil =>
    obtain ⟨rfl, rfl⟩ := Prod.mk.inj (Except.ok.inj h)
    exact ⟨rfl, .refl hsound⟩
  | cons part parts ih =>
    rw [List.mapM_cons, bind_eq_ok] at h
    obtain ⟨tree, st₁, hpart, h⟩ := h
    rw [bind_eq_ok] at h
    obtain ⟨trees', st₂, hparts, h⟩ := h
    obtain ⟨rfl, rfl⟩ := Prod.mk.inj (Except.ok.inj h)
    -- the first part numbers its variables before the others, in the table that they go on with
    have hfirst := hf part st tree st₁ hsound hpart
    obtain ⟨hlen, hrest⟩ := ih hfirst.sound hparts
    refine ⟨by simp [hlen], ?_⟩
    rw [Tree.idsAll]
    exact hfirst.append hrest

variable [Zero α] [Numeral α] {vocabulary : Vocabulary α}

theorem interpret_numbers {s : Fragment} {st st' : State α} {reading : Reading α}
    (hsound : st.vars.Sound) (h : (interpret vocabulary s).run st = .ok (reading, st')) :
    Numbers st.vars reading.ids st'.vars := by
  obtain ⟨hidden, -, hrule⟩ := interpret_eq_ok h
  cases hrule with
  | operation | call | group => exact .refl hsound
  | emptyCall | constant | number =>
    simp only [Reading.ids, Tree.ids, Tree.idsAll]
    exact .refl hsound
  | var =>
    simp only [Reading.ids, Tree.ids]
    exact Variables.numbers_intern hsound _

/-- Reading a fragment asks for the numbers of the variables of its tree, from left to right. -/
theorem fragment_numbers {depth : Nat} {s : Fragment} {st st' : State α} {tree : Tree α}
    (hsound : st.vars.Sound) (h : (fragment vocabulary depth s).run st = .ok (tree, st')) :
    Numbers st.vars tree.ids st'.vars := by
  induction depth generalizing s st st' tree with
  | zero => exact nomatch (fragment_zero s st).symm.trans h
  | succ depth ih =>
    obtain ⟨reading, st₁, trees, hstep, hparts, hassemble⟩ := fragment_eq_ok.mp h
    have hread := interpret_numbers hsound hstep
    obtain ⟨hlen, hrest⟩ := mapM_numbers (fun s st tree st' => ih) hread.sound hparts
    rw [Reading.ids_assemble hlen hassemble]
    exact hread.append hrest

/-- The numbers in a tree, each at its first occurrence, are those of its table in order. So every
number is that of a variable and every variable occurs; numbers differ just when names do; and the
table has the names in the order in which they first appear in the tree. -/
theorem parse_numbers {text : String} {tree : Tree α} {vars : Variables α}
    (h : parse vocabulary text = .ok (tree, vars)) :
    tree.ids.eraseDups = List.range vars.size ∧
      (∀ id, id ∈ tree.ids ↔ ∃ cell, vars.get? id = some cell) ∧
      (∀ id ∈ tree.ids, ∀ other ∈ tree.ids,
        id = other ↔ (vars.get? id).map Variable.name = (vars.get? other).map Variable.name) ∧
      (tree.ids.map fun id => (vars.get? id).map Variable.name).eraseDups =
        vars.names.map some := by
  obtain ⟨st, hrun, rfl⟩ := parse_eq_ok.mp h
  have hempty : (State.initial : State α).vars.Sound := Variables.sound_empty
  have hnumbers := fragment_numbers hempty hrun
  have hids : tree.ids.eraseDups = List.range st.vars.size := hnumbers.order
  have hmem : ∀ id, id ∈ tree.ids ↔ id < st.vars.size := by
    intro id
    rw [← List.mem_eraseDups, hids, List.mem_range]
  have hinj : ∀ id ∈ tree.ids, ∀ other ∈ tree.ids,
      (st.vars.get? id).map Variable.name = (st.vars.get? other).map Variable.name →
        id = other :=
    fun id hid other _ heq => hnumbers.sound.get?_inj ((hmem id).mp hid) heq
  refine ⟨hids, ?_, ?_, ?_⟩
  · intro id
    rw [hmem, Variables.exists_get?_iff]
  · intro id hid other hother
    exact ⟨fun heq => by rw [heq], hinj id hid other hother⟩
  · rw [eraseDups_map hinj, hids, Variables.map_get?_range]

/-- The number of `b` comes twice, and it is the first. -/
theorem parse_numbers_difference :
    ∃ (tree : Tree ℚ) (vars : Variables ℚ), parse .empty "b-a*b" = .ok (tree, vars) ∧
      tree.ids.eraseDups = List.range vars.size ∧
      (∀ id, id ∈ tree.ids ↔ ∃ cell, vars.get? id = some cell) ∧
      (∀ id ∈ tree.ids, ∀ other ∈ tree.ids,
        id = other ↔ (vars.get? id).map Variable.name = (vars.get? other).map Variable.name) ∧
      (tree.ids.map fun id => (vars.get? id).map Variable.name).eraseDups =
        vars.names.map some := by
  have hnames : (.empty : Vocabulary ℚ).names = [] := rfl
  have hdistinct : (.empty : Vocabulary ℚ).Distinct :=
    ⟨Vocabulary.sound_empty, by simp [hnames], nofun, nofun, nofun⟩
  have ha : Denotes (.empty : Vocabulary ℚ) .atom ['a'] fun ρ => ρ "a" :=
    @Denotes.identifier _ _ _ _ [] [] ['a'] rfl rfl (by decide) (by simp [hnames])
  have hb : Denotes (.empty : Vocabulary ℚ) .atom ['b'] fun ρ => ρ "b" :=
    @Denotes.identifier _ _ _ _ [] [] ['b'] rfl rfl (by decide) (by simp [hnames])
  have hexpr : Denotes (.empty : Vocabulary ℚ) .expression "b-a*b".toList _ :=
    .subtract hb.ofAtom.ofPower.ofRemainder.ofTerm
      (.multiply ha.ofAtom.ofPower.ofRemainder hb.ofAtom.ofPower)
  obtain ⟨tree, vars, hparse, -⟩ := parse_value hdistinct add_assoc mul_assoc hexpr
  exact ⟨tree, vars, hparse, parse_numbers hparse⟩

end Parser

end Formula
