import Formula.Proofs.Outline.Closed
import Formula.Proofs.Outline.Yields
import Formula.Proofs.Parser.Marks
import Formula.Proofs.Parser.Twins

/-!
# Elements of tuples

Texts with commas between them are read one by one: the tuple has the trees that the texts have by
themselves, with the numbers that their variables have in the common table (`parse_elements`). All
elements put their groups and variables into the same tables, so that an element is read in a state
that the ones in front of it have left behind, while by itself it would be read in the initial one.
The two runs are twins (`element_twins`).

A placeholder that is typed in an element leads to whatever group has its number when it is read,
and this may be a group of another element (`parse_typed`, `parse_typed_behind`). So there must be
none.
-/

namespace Formula

open Formula.Tree (renumber)

/-! ### Texts between commas -/

/-- Whether a text may be an element of a tuple: something stands in it, every bracket is closed and
every comma stands in brackets. -/
structure IsElement (s : Fragment) : Prop where
  solid : s.allBlank = false
  closed : s.depth = 0
  comma : s.OnlyInside ','

instance (s : Fragment) : Decidable (IsElement s) :=
  decidable_of_iff (s.allBlank = false ∧ s.depth = 0 ∧ s.OnlyInside ',')
    ⟨fun h => ⟨h.1, h.2.1, h.2.2⟩, fun h => ⟨h.solid, h.closed, h.comma⟩⟩

/-- The outline of an element has no comma in it. -/
theorem IsElement.scan {s : Fragment} (h : IsElement s) :
    (Outline.scan s).1.text = s ∧ (Outline.scan s).1.allBlank = false ∧
      .plain ',' ∉ (Outline.scan s).1 := by
  have hclosed := Outline.closed_scan s
  have htext : (Outline.scan s).1.text = s := by
    have hsplit := Outline.scan_text s
    rwa [Outline.depth_eq_zero_iff.mp h.closed, List.append_nil] at hsplit
  refine ⟨htext, ?_, fun hmem => ?_⟩
  · rw [← Outline.allBlank_text, htext]
    exact h.solid
  · obtain ⟨a, b, hab, hdepth⟩ := hclosed.exists_of_plain_mem hmem
    have hpos := h.comma a b (htext.symm.trans hab)
    omega

namespace Parser

open Outline (Masked)

variable {α : Type}

section Readings

variable [Zero α] [Numeral α] {vocabulary : Vocabulary α}

/-! ### One element -/

/-- An element is read by itself to the tree to which it is read among others. -/
theorem element_twins (hnames : ∀ name ∈ vocabulary.names, '&' ∉ name.toList) (depth : Nat)
    {o p : Outline} (ho : o.Closed) (htext : TypesNoPlaceholder o.text) (htrim : p.trim = o.trim)
    {q : Fragment} {st : State α} (hq : Masked st.groups p q) :
    Twins .initial st Renumbered ((fragment vocabulary depth o.text).run .initial)
      ((fragment vocabulary depth q).run st) := by
  cases depth with
  | zero => exact .error _ _
  | succ depth =>
    have htext' := htext.of_isInfix (o.trim_isInfix.flatMap Piece.text)
    obtain ⟨groups, m, hext, hm, hrun⟩ :=
      Outline.exists_fragment_run ho.ofText_trim (State.initial : State α) depth
    have hm' := hm.trim
    have hq' := hq.trim
    rw [Outline.trim_trim] at hm'
    rw [htrim] at hq'
    rw [hrun, hq.fragment_run]
    exact .of_extends hext (.refl _) <|
      readHidden_twins (fragment_twins hnames depth) hnames ⟨groups, .empty⟩ st
        Variables.sound_empty htext' hm' hq'

/-- The bound on the nesting of fragments does not matter once it is larger than the text. -/
theorem parse_eq_of_length_lt (hnames : ∀ name ∈ vocabulary.names, '&' ∉ name.toList)
    {text : String} (htext : TypesNoPlaceholder text.toList) {depth : Nat}
    (hdepth : text.toList.length < depth) :
    parse vocabulary text =
      ((fragment vocabulary depth text.toList).run .initial).map fun r => (r.1, r.2.vars) := by
  have hstands : Stands (State.initial : State α).groups text.toList text.toList := Or.inl rfl
  have hbound := lt_of_le_of_lt (length_le_byteLength text.toList)
    (byteLength_lt_depthBound vocabulary text.toList)
  have hrun := hstands.fragment_ne_endless hnames htext hdepth
  have hrun' := hstands.fragment_ne_endless hnames htext hbound
  rw [parse_eq_map, ← fragment_mono (le_max_left _ depth) hrun',
    fragment_mono (le_max_right _ depth) hrun]

/-- Without typed placeholders reading comes to an end. -/
theorem parse_ne_endless (hnames : ∀ name ∈ vocabulary.names, '&' ∉ name.toList) {text : String}
    (htext : TypesNoPlaceholder text.toList) :
    parse vocabulary text ≠ .error .endlessExpansion := by
  have hstands : Stands (State.initial : State α).groups text.toList text.toList := Or.inl rfl
  have hbound := lt_of_le_of_lt (length_le_byteLength text.toList)
    (byteLength_lt_depthBound vocabulary text.toList)
  rw [Ne, parse_eq_error]
  exact hstands.fragment_ne_endless hnames htext hbound

/-! ### All elements -/

/-- `Gathers st results trees st'` says that `trees` are the trees of `results`, which come from
runs of their own, with the numbers of a table that is grown from `st'`, and that from `st` to `st'`
all those names have been asked for that the runs have asked for. -/
structure Gathers (st : State α) (results : List (Tree α × State α)) (trees : List (Tree α))
    (st' : State α) : Prop where
  asks : ∃ names, List.Forall₂ (fun r ns => Asks ns .initial r.2) results names ∧
    Asks names.flatten st st'
  trees : ∀ later, st'.vars.Grows later →
    trees = results.map fun r => r.1.renumber (r.2.vars.numberIn later)

/-- Elements are read one after another if each of them is read by itself, and if not all of them
are, not one after another either. -/
theorem mapM_elements {depth : Nat} {texts : List Fragment} {qs : List Fragment} (st : State α)
    (h : List.Forall₂ (fun text q => ∀ st' : State α, st.groups.Extends st'.groups →
      Twins .initial st' Renumbered ((fragment vocabulary depth text).run .initial)
        ((fragment vocabulary depth q).run st')) texts qs) :
    ((∃ text ∈ texts, ∃ e, (fragment vocabulary depth text).run .initial = .error e) ∧
      ∃ e, (qs.mapM (fragment vocabulary depth)).run st = .error e) ∨
    ∃ results trees st',
      texts.map (fun text => (fragment vocabulary depth text).run .initial) = results.map .ok ∧
      (qs.mapM (fragment vocabulary depth)).run st = .ok (trees, st') ∧
      Gathers st results trees st' := by
  induction texts generalizing qs st with
  | nil =>
    cases h
    exact Or.inr ⟨[], [], st, rfl, rfl, ⟨[], .nil, .refl _, rfl⟩, fun _ _ => rfl⟩
  | cons text texts ih =>
    obtain ⟨q, qs, hhead, htail, rfl⟩ := List.forall₂_cons_left_iff.mp h
    have hfirst := hhead st (.refl _)
    rw [List.map_cons, mapM_cons_run]
    generalize hx : (fragment vocabulary depth text).run .initial = x at hfirst ⊢
    generalize (fragment vocabulary depth q).run st = y at hfirst ⊢
    cases hfirst with
    | error e e' => exact Or.inl ⟨⟨text, List.mem_cons_self, e, hx⟩, e', rfl⟩
    | @ok tree tree' st₀ st₁ names hasks hasks' hsame =>
      have htail₁ := htail.imp fun _ _ hq st' (hext : st₁.groups.Extends st'.groups) =>
        hq st' (hasks'.groups.trans hext)
      -- the first element is read in both: a later one fails in both, or all of them are read
      rcases ih st₁ htail₁ with ⟨⟨other, hother, e, he⟩, e', he'⟩ |
        ⟨results, trees, st₂, hresults, htrees, ⟨⟨namess, hnamess, hasks₂⟩, hall⟩⟩
      · refine Or.inl ⟨⟨other, List.mem_cons_of_mem _ hother, e, he⟩, e', ?_⟩
        rw [Except.bind, he']
        rfl
      · refine Or.inr ⟨(tree, st₀) :: results, tree' :: trees, st₂, ?_, ?_, ?_⟩
        · rw [hresults, List.map_cons]
        · rw [Except.bind, htrees]
          rfl
        · refine ⟨⟨names :: namess, .cons hasks hnamess, hasks'.trans hasks₂⟩, ?_⟩
          intro later hlater
          have hsound := hasks.sound Variables.sound_empty
          have htranslates := Variables.translates_numberIn hsound later
          have hhead := hsame _ (htranslates.of_grows (.refl _) (hasks₂.grows.trans hlater))
          rw [hhead, hall later hlater, List.map_cons]

/-! ### The whole text -/

omit [Zero α] [Numeral α] in
/-- Several trees between commas are a tuple. -/
theorem assemble_list {s : Fragment} {trees : List (Tree α)}
    (hlen : trees.length = (Operator.list.operands s).length) (hseveral : 2 ≤ trees.length) :
    (Reading.operation .list s).assemble trees = .ok (.tuple trees) := by
  -- a comma turns no element around
  have horient : ∀ (qs : List Operand) (trees : List (Tree α)), trees.length = qs.length →
      qs.zipWith (fun q tree => Operator.list.orient q.inverted tree) trees = trees := by
    intro qs trees hlen
    induction qs generalizing trees with
    | nil => exact (List.length_eq_zero_iff.mp hlen).symm
    | cons q qs ih =>
      cases trees with
      | nil => rfl
      | cons tree trees =>
        rw [List.zipWith_cons_cons, ih trees (by simpa using hlen)]
        rfl
  unfold Reading.assemble
  dsimp only
  rw [horient _ _ hlen]
  match trees, hseveral with
  | tree :: tree' :: trees, _ => rfl

omit [Zero α] [Numeral α] in
theorem comma_mem_intercalate {os : List Outline} (hseveral : 2 ≤ os.length) :
    .plain ',' ∈ [Piece.plain ','].intercalate os := by
  match os, hseveral with
  | o :: o' :: os, _ => simp [List.intercalate_cons_cons]

/-- An element is shorter than all elements together, so that the bound of the whole is enough for
it. -/
theorem length_lt_of_mem {os : List Outline} (hseveral : 2 ≤ os.length)
    (hos : ∀ o ∈ os, o.allBlank = false ∧ .plain ',' ∉ o) {o : Outline} (ho : o ∈ os) :
    o.text.length < (Outline.text ([.plain ','].intercalate os)).length := by
  have hoperands : Outline.operands .list ([.plain ','].intercalate os) =
      os.map fun o => ⟨o, false⟩ :=
    Outline.operands_intercalate (by simp) (List.ne_nil_of_mem ho) hos
  have hmem : (⟨o, false⟩ : Outline.Operand) ∈
      Outline.operands .list ([.plain ','].intercalate os) := by
    rw [hoperands]
    exact List.mem_map_of_mem ho
  exact Outline.operand_text_lt (comma_mem_intercalate hseveral) hmem

/-- Outlines with commas between them are split at these commas. -/
theorem exists_elements_run (vocabulary : Vocabulary α) {os : List Outline}
    (hseveral : 2 ≤ os.length) (hos : ∀ o ∈ os, o.Closed ∧ o.allBlank = false ∧ .plain ',' ∉ o)
    (depth : Nat) :
    ∃ groups s, List.Forall₂
        (fun o q => ∃ p : Outline, p.trim = o.trim ∧ Masked groups p (Operand.text q))
        os (Operator.list.operands s) ∧
      (fragment vocabulary (depth + 1) (Outline.text ([.plain ','].intercalate os))).run .initial =
        ((((Operator.list.operands s).map Operand.text).mapM (fragment vocabulary depth)).run
          ⟨groups, .empty⟩).bind fun r =>
            ((Reading.operation .list s).assemble r.1).map fun tree => (tree, r.2) := by
  set whole : Outline := [.plain ','].intercalate os with hwhole
  -- the commas between the elements are the loosest operators of the whole
  have hclosed : whole.Closed := by
    intro piece hpiece
    rcases Text.mem_intercalate hpiece with rfl | ⟨o, ho, hmem⟩
    · decide
    · exact (hos o ho).1 piece hmem
  have hcomma : .plain ',' ∈ whole := comma_mem_intercalate hseveral
  have hop : whole.trim.trim.loosestIn? = some .list := by
    rw [Outline.trim_trim, Outline.loosestIn?_trim]
    exact Outline.loosestIn?_of_lacks (List.nil_append _).symm (by simp) hcomma
  obtain ⟨groups, m, -, hm, hrun⟩ :=
    Outline.exists_fragment_run hclosed.ofText_trim (State.initial : State α) depth
  have hm' := hm.trim
  refine ⟨groups, Fragment.trim m, ?_, ?_⟩
  · have hne : os ≠ [] := List.ne_nil_of_length_pos (by omega)
    have hoperands : Outline.operands .list whole = os.map fun o => ⟨o, false⟩ :=
      Outline.operands_intercalate (by simp) hne fun o ho => (hos o ho).2
    have htrims := Outline.operands_map_trim .list whole
    rw [hoperands, ← List.forall₂_eq_eq_eq, List.forall₂_map_left_iff,
      List.forall₂_map_right_iff, List.forall₂_map_right_iff] at htrims
    rw [Outline.trim_trim] at hm'
    refine (Outline.forall₂_of_common htrims (hm'.operands .list)).imp ?_
    rintro o q ⟨p, -, hp, hpq⟩
    exact ⟨p.outline, congrArg Outline.Operand.outline hp, hpq.2⟩
  · rw [hrun, readHidden_run, recognise, hm'.loosestIn?_eq, hop]
    rfl

section Texts

variable {texts : List String} (hseveral : 2 ≤ texts.length)
  (htexts : ∀ text ∈ texts, IsElement text.toList)
include htexts

omit [Zero α] [Numeral α] in
theorem outlines_of_elements : ∀ o ∈ texts.map fun text => (Outline.scan text.toList).1,
    o.Closed ∧ o.allBlank = false ∧ .plain ',' ∉ o := by
  intro o ho
  obtain ⟨text, htext, rfl⟩ := List.mem_map.mp ho
  exact ⟨Outline.closed_scan _, (htexts text htext).scan.2⟩

omit [Zero α] [Numeral α] in
/-- With commas between them, the outlines of the elements have the text of the whole. -/
theorem text_of_elements : Outline.text ([.plain ','].intercalate
    (texts.map fun text => (Outline.scan text.toList).1)) = (",".intercalate texts).toList := by
  have hscan : texts.map (Outline.text ∘ fun text => (Outline.scan text.toList).1) =
      texts.map String.toList :=
    List.map_congr_left fun text htext => (htexts text htext).scan.1
  rw [Outline.text_intercalate, List.map_map, hscan, String.toList_intercalate]
  rfl

include hseveral

theorem length_lt_of_element {text : String} (htext : text ∈ texts) :
    text.toList.length < (",".intercalate texts).toList.length := by
  have hlt := length_lt_of_mem (by simpa using hseveral)
    (fun o ho => (outlines_of_elements htexts o ho).2) (List.mem_map_of_mem htext)
  rwa [(htexts text htext).scan.1, text_of_elements htexts] at hlt

/-- Texts with commas between them are read one after another, each of them in a run that is a twin
of its own run. -/
theorem exists_twins (hnames : ∀ name ∈ vocabulary.names, '&' ∉ name.toList)
    (huntyped : ∀ text ∈ texts, TypesNoPlaceholder text.toList) (depth : Nat) :
    ∃ groups s, (Operator.list.operands s).length = texts.length ∧
      List.Forall₂ (fun text q => ∀ st' : State α, groups.Extends st'.groups →
          Twins .initial st' Renumbered ((fragment vocabulary depth text).run .initial)
            ((fragment vocabulary depth q).run st'))
        (texts.map String.toList) ((Operator.list.operands s).map Operand.text) ∧
      (fragment vocabulary (depth + 1) (",".intercalate texts).toList).run .initial =
        ((((Operator.list.operands s).map Operand.text).mapM (fragment vocabulary depth)).run
          ⟨groups, .empty⟩).bind fun r =>
            ((Reading.operation .list s).assemble r.1).map fun tree => (tree, r.2) := by
  obtain ⟨groups, s, hops, hrun⟩ := exists_elements_run vocabulary (by simpa using hseveral)
    (outlines_of_elements htexts) depth
  rw [text_of_elements htexts] at hrun
  rw [List.forall₂_map_left_iff] at hops
  refine ⟨groups, s, hops.length_eq.symm, ?_, hrun⟩
  rw [List.forall₂_map_left_iff, List.forall₂_map_right_iff]
  refine (List.forall₂_and_left _ _ |>.mpr ⟨fun _ htext => htext, hops⟩).imp ?_
  rintro text q ⟨htext, p, hp, hq⟩ st' hext
  have hscan := (htexts text htext).scan.1
  have htwins := element_twins hnames depth (Outline.closed_scan text.toList)
    (hscan.symm ▸ huntyped text htext) hp (hq.mono hext)
  rwa [hscan] at htwins

/-- Either some of the texts are not read by themselves, and then they are not read with commas
between them, or they are read to the elements of a tuple. -/
theorem parse_intercalate (hnames : ∀ name ∈ vocabulary.names, '&' ∉ name.toList)
    (huntyped : ∀ text ∈ texts, TypesNoPlaceholder text.toList) :
    ((∃ text ∈ texts, ∃ e, parse vocabulary text = .error e) ∧
      ∃ e, parse vocabulary (",".intercalate texts) = .error e) ∨
    ∃ results namess, texts.map (parse vocabulary) = results.map .ok ∧
      List.Forall₂ (fun r names => r.2 = Variables.empty.internAll names) results namess ∧
      parse vocabulary (",".intercalate texts) =
        .ok (.tuple (results.map fun r =>
            r.1.renumber (r.2.numberIn (Variables.empty.internAll namess.flatten))),
          Variables.empty.internAll namess.flatten) := by
  -- the elements are read with one level less than the whole text, by themselves as among others
  obtain ⟨depth, hdepth, hle⟩ : ∃ depth,
      depthBound vocabulary (",".intercalate texts).toList = depth + 1 ∧
        (",".intercalate texts).toList.length ≤ depth := by
    have hbytes := length_le_byteLength (",".intercalate texts).toList
    have hbound := byteLength_lt_depthBound vocabulary (",".intercalate texts).toList
    exact ⟨depthBound vocabulary (",".intercalate texts).toList - 1, by omega, by omega⟩
  have halone : ∀ text ∈ texts, parse vocabulary text =
      ((fragment vocabulary depth text.toList).run .initial).map fun r => (r.1, r.2.vars) :=
    fun text htext => parse_eq_of_length_lt hnames (huntyped text htext)
      (lt_of_lt_of_le (length_lt_of_element hseveral htexts htext) hle)
  obtain ⟨groups, s, hcount, htwins, hrun⟩ :=
    exists_twins hseveral htexts hnames huntyped depth
  rw [parse_eq_map, hdepth, hrun]
  rcases mapM_elements ⟨groups, .empty⟩ htwins with
    ⟨⟨t, ht, e, he⟩, e', he'⟩ | ⟨results, trees, st', hresults, htrees, ⟨namess, hnamess, hasks⟩,
      hnumbers⟩
  · obtain ⟨text, htext, rfl⟩ := List.mem_map.mp ht
    refine Or.inl ⟨⟨text, htext, e, ?_⟩, e', ?_⟩
    · rw [halone text htext, he]
      rfl
    · rw [he']
      rfl
  · have hvars : st'.vars = Variables.empty.internAll namess.flatten := hasks.vars
    have hnumbers' := hnumbers st'.vars (.refl _)
    have hlength : trees.length = texts.length := by
      have hlength := congrArg List.length hresults
      rw [hnumbers', List.length_map]
      simpa using hlength.symm
    refine Or.inr ⟨results.map fun r => (r.1, r.2.vars), namess, ?_, ?_, ?_⟩
    · have hmap := congrArg (List.map (Except.map fun r => (r.1, r.2.vars))) hresults
      rw [List.map_map, List.map_map, List.map_map] at hmap
      rw [List.map_congr_left halone, List.map_map]
      exact hmap
    · rw [List.forall₂_map_left_iff]
      exact hnamess.imp fun _ _ hr => hr.vars
    · rw [htrees, Except.bind, assemble_list (hlength.trans hcount.symm) (by omega), hnumbers']
      show Except.ok (Tree.tuple _, st'.vars) = _
      rw [hvars, List.map_map]
      rfl

end Texts

end Readings

section Tables

variable [Arithmetic α] {results : List (Tree α × Variables α)} {namess : List (List String)}
  (h : List.Forall₂ (fun r names => r.2 = Variables.empty.internAll names) results namess)
include h

/-- The common table has the names of all elements, each where it comes first. -/
theorem names_internAll_flatten :
    ((Variables.empty : Variables α).internAll namess.flatten).names =
      (results.flatMap fun r => r.2.names).eraseDups := by
  have heach : (results.flatMap fun r => r.2.names) = namess.flatMap List.eraseDups := by
    induction h with
    | nil => rfl
    | cons hr _ ih =>
      rw [List.flatMap_cons, List.flatMap_cons, ih, hr, Variables.names_internAll_empty]
  rw [heach, eraseDups_flatMap, Variables.names_internAll_empty]

/-- Each table comes from asking an empty one for names. -/
theorem exists_internAll {r : Tree α × Variables α} (hr : r ∈ results) :
    ∃ names, r.2 = Variables.empty.internAll names := by
  induction h with
  | nil => exact absurd hr List.not_mem_nil
  | cons hhead _ ih =>
    rcases List.mem_cons.mp hr with rfl | hr
    · exact ⟨_, hhead⟩
    · exact ih hr

/-- A name of an element has its number in the common table. -/
theorem find?_elements {r : Tree α × Variables α} (hr : r ∈ results) {name : String} {id : Nat}
    (hid : r.2.find? name = some id) :
    ((Variables.empty : Variables α).internAll namess.flatten).find? name =
      some (r.2.numberIn (Variables.empty.internAll namess.flatten) id) := by
  obtain ⟨names, hnames⟩ := exists_internAll h hr
  have hempty : (Variables.empty : Variables α).Sound := Variables.sound_empty
  have hsound : r.2.Sound := hnames ▸ hempty.internAll names
  refine Variables.find?_numberIn hsound (hempty.internAll _) hid ?_
  rw [names_internAll_flatten h, List.mem_eraseDups]
  exact List.mem_flatMap.mpr ⟨r, hr, List.mem_of_getElem? ((hsound name id).mp hid)⟩

/-- No variable of the tables has been set, so that all are zero. -/
theorem value_elements {r : Tree α × Variables α} (hr : r ∈ results) :
    (r.1.renumber (r.2.numberIn (Variables.empty.internAll namess.flatten))).value
        (Variables.empty.internAll namess.flatten) =
      r.1.value r.2 := by
  obtain ⟨names, hnames⟩ := exists_internAll h hr
  apply Tree.value_renumber
  intro id
  rw [Variables.valueOf_internAll_empty, hnames, Variables.valueOf_internAll_empty]

end Tables

/-- Texts that may be elements are read with commas between them if and only if each of them is read
by itself. The whole is then read to the tuple of their trees with other numbers for the variables:
each gets the number of its name in the common table, which has the names of all the texts in the
order of their first occurrence. While no variable is set, the elements have the values that the
texts have by themselves.

No placeholder may be typed in the texts. Then each of them is read within the bound, and a `)` that
closes nothing does no harm. -/
theorem parse_elements [Arithmetic α] [Numeral α] {vocabulary : Vocabulary α}
    (hnames : ∀ name ∈ vocabulary.names, '&' ∉ name.toList) {texts : List String}
    (hseveral : 2 ≤ texts.length) (htexts : ∀ text ∈ texts, IsElement text.toList)
    (huntyped : ∀ text ∈ texts, TypesNoPlaceholder text.toList) :
    (∀ text ∈ texts, parse vocabulary text ≠ .error .endlessExpansion) ∧
    ((∃ result, parse vocabulary (",".intercalate texts) = .ok result) ↔
      ∀ text ∈ texts, ∃ result, parse vocabulary text = .ok result) ∧
    ∀ results : List (Tree α × Variables α), texts.map (parse vocabulary) = results.map .ok →
      ∃ vars, parse vocabulary (",".intercalate texts) =
          .ok (.tuple (results.map fun r => r.1.renumber (r.2.numberIn vars)), vars) ∧
        (∀ r ∈ results, ∀ name id, r.2.find? name = some id →
          vars.find? name = some (r.2.numberIn vars id)) ∧
        vars.names = (results.flatMap fun r => r.2.names).eraseDups ∧
        (Tree.tuple (results.map fun r => r.1.renumber (r.2.numberIn vars))).values? vars =
          some (results.map fun r => r.1.value r.2) := by
  -- a text that is not read contradicts a list of results
  have hread : ∀ {results : List (Tree α × Variables α)} {text : String}, text ∈ texts →
      texts.map (parse vocabulary) = results.map .ok →
      ∃ result, parse vocabulary text = .ok result := by
    intro results text htext hresults
    have hmem : parse vocabulary text ∈ results.map Except.ok := by
      rw [← hresults]
      exact List.mem_map_of_mem htext
    obtain ⟨result, -, hresult⟩ := List.mem_map.mp hmem
    exact ⟨result, hresult.symm⟩
  refine ⟨fun text htext => parse_ne_endless hnames (huntyped text htext), ?_⟩
  rcases parse_intercalate hseveral htexts hnames huntyped with
    ⟨⟨text, htext, e, he⟩, e', he'⟩ | ⟨results, namess, hresults, hnamess, hparse⟩
  · refine ⟨⟨?_, ?_⟩, ?_⟩
    · rintro ⟨result, hresult⟩
      exact nomatch he'.symm.trans hresult
    · intro h
      obtain ⟨result, hresult⟩ := h text htext
      exact nomatch he.symm.trans hresult
    · intro results hresults
      obtain ⟨result, hresult⟩ := hread htext hresults
      exact nomatch he.symm.trans hresult
  · refine ⟨⟨fun _ text htext => hread htext hresults, fun _ => ⟨_, hparse⟩⟩, ?_⟩
    intro results' hresults'
    obtain rfl : results' = results :=
      List.map_injective_iff.mpr (fun _ _ => Except.ok.inj) (hresults'.symm.trans hresults)
    refine ⟨_, hparse, fun r hr name id => find?_elements hnamess hr,
      names_internAll_flatten hnamess, ?_⟩
    rw [Tree.values?, Tree.valueAll_eq_map, List.map_map]
    exact congrArg some (List.map_congr_left fun r hr => value_elements hnamess hr)

/-- Two texts with variables in common, a group and names with an `&` in them. -/
theorem parse_elements_standard :
    (∀ name ∈ (Vocabulary.standard 0.5).names, '&' ∉ name.toList) ∧
      2 ≤ ["y/x&y", "(2,3)*x&y"].length ∧
      (∀ text ∈ ["y/x&y", "(2,3)*x&y"], IsElement text.toList) ∧
      (∀ text ∈ ["y/x&y", "(2,3)*x&y"], TypesNoPlaceholder text.toList) ∧
      (∀ text ∈ ["y/x&y", "(2,3)*x&y"],
        parse (Vocabulary.standard 0.5) text ≠ .error .endlessExpansion) ∧
      ((∃ result, parse (Vocabulary.standard 0.5) "y/x&y,(2,3)*x&y" = .ok result) ↔
        ∀ text ∈ ["y/x&y", "(2,3)*x&y"],
          ∃ result, parse (Vocabulary.standard 0.5) text = .ok result) ∧
      ∀ results : List (Tree Float × Variables Float),
        ["y/x&y", "(2,3)*x&y"].map (parse (Vocabulary.standard 0.5)) = results.map .ok →
        ∃ vars, parse (Vocabulary.standard 0.5) "y/x&y,(2,3)*x&y" =
            .ok (.tuple (results.map fun r => r.1.renumber (r.2.numberIn vars)), vars) ∧
          (∀ r ∈ results, ∀ name id, r.2.find? name = some id →
            vars.find? name = some (r.2.numberIn vars id)) ∧
          vars.names = (results.flatMap fun r => r.2.names).eraseDups ∧
          (Tree.tuple (results.map fun r => r.1.renumber (r.2.numberIn vars))).values? vars =
            some (results.map fun r => r.1.value r.2) := by
  have hnames := Vocabulary.amp_notMem_standard 0.5
  have htexts : ∀ text ∈ ["y/x&y", "(2,3)*x&y"], IsElement text.toList := by decide
  have huntyped : ∀ text ∈ ["y/x&y", "(2,3)*x&y"], TypesNoPlaceholder text.toList :=
    List.forall_mem_cons.mpr ⟨.of_notMem (Or.inr (by decide)),
      List.forall_mem_singleton.mpr (.of_notMem (Or.inr (by decide)))⟩
  exact ⟨hnames, by decide, htexts, huntyped,
    parse_elements hnames (by decide) htexts huntyped⟩

/-! ### A typed placeholder -/

theorem exists_depthBound {α : Type} (vocabulary : Vocabulary α) (text : String)
    (h : 3 ≤ Fragment.byteLength text.toList) :
    ∃ depth, depthBound vocabulary text.toList = depth + 4 := by
  have hlt := byteLength_lt_depthBound vocabulary text.toList
  exact Nat.exists_eq_add_of_le' (by omega)

section Typed

variable {α : Type} [Zero α] [Numeral α] {vocabulary : Vocabulary α}
  (hdistinct : vocabulary.Distinct)
include hdistinct

/-- A group alone. -/
theorem parse_one :
    parse vocabulary "(1)" = .ok (.scalar (Numeral.ofDecimal ⟨1, 0⟩), .empty) := by
  obtain ⟨depth, hbound⟩ := exists_depthBound vocabulary "(1)" (by decide)
  have hfirst : firstGroup? (Fragment.trim "(1)".toList) = some ([], ['1'], []) := by decide
  have hset : Groups.empty.setAside (Fragment.trim "(1)".toList) =
      (.ok ['&', '0', ';'], ⟨#[['1']]⟩) :=
    setAside_of_hide (hide_of_firstGroup? hfirst (hide_of_notMem List.not_mem_nil)) (by decide)
  have htext : Groups.resolve ⟨#[['1']]⟩ ['0'] = .ok ['1'] := rfl
  rw [parse_eq_map, hbound, fragment_run_of_setAside hset (by decide),
    fragment_run_placeholder hdistinct rfl rfl htext, fragment_run_scalar hdistinct rfl rfl rfl]
  rfl

/-- By itself the text has one group, and its placeholder leads to it. -/
theorem parse_typed :
    parse vocabulary "&0;(5)" = .ok (.scalar (Numeral.ofDecimal ⟨5, 0⟩), .empty) := by
  obtain ⟨depth, hbound⟩ := exists_depthBound vocabulary "&0;(5)" (by decide)
  have hfirst : firstGroup? (Fragment.trim "&0;(5)".toList) =
      some (['&', '0', ';'], ['5'], []) := by decide
  have hset : Groups.empty.setAside (Fragment.trim "&0;(5)".toList) =
      (.ok ['&', '0', ';', '&', '0', ';'], ⟨#[['5']]⟩) :=
    setAside_of_hide (hide_of_firstGroup? hfirst (hide_of_notMem List.not_mem_nil)) (by decide)
  have htext : Groups.resolve ⟨#[['5']]⟩ ['0'] = .ok ['5'] := rfl
  rw [parse_eq_map, hbound, fragment_run_of_setAside hset (by decide),
    fragment_run_placeholder hdistinct rfl rfl htext, fragment_run_scalar hdistinct rfl rfl rfl]
  rfl

/-- Behind a text with a group the same placeholder leads to that group. -/
theorem parse_typed_behind : parse vocabulary "(1),&0;(5)" =
    .ok (.tuple [.scalar (Numeral.ofDecimal ⟨1, 0⟩), .scalar (Numeral.ofDecimal ⟨1, 0⟩)],
      .empty) := by
  obtain ⟨depth, hbound⟩ := exists_depthBound vocabulary "(1),&0;(5)" (by decide)
  -- both groups are set aside before the elements are cut apart
  have hfirst : firstGroup? (Fragment.trim "(1),&0;(5)".toList) =
      some ([], ['1'], ",&0;(5)".toList) := by decide
  have hsecond : firstGroup? ",&0;(5)".toList = some (",&0;".toList, ['5'], []) := by decide
  have hset : Groups.empty.setAside (Fragment.trim "(1),&0;(5)".toList) =
      (.ok "&0;,&0;&1;".toList, ⟨#[['1'], ['5']]⟩) :=
    setAside_of_hide (hide_of_firstGroup? hfirst <|
      hide_of_firstGroup? hsecond (hide_of_notMem List.not_mem_nil)) (by decide)
  have htext : Groups.resolve ⟨#[['1'], ['5']]⟩ ['0'] = .ok ['1'] := rfl
  have hmasked : Masked ⟨#[['1'], ['5']]⟩ ("&0;,&0;&1;".toList.map .plain) "&0;,&0;&1;".toList :=
    Masked.map_plain (by decide)
  have htrim : Fragment.trim "&0;,&0;&1;".toList = "&0;,&0;&1;".toList := by decide
  have hop : Operator.loosestIn? "&0;,&0;&1;".toList = some .list := by decide
  have hparts : (Reading.operation .list "&0;,&0;&1;".toList : Reading α).parts =
      [['&', '0', ';'], ['&', '0', ';', '&', '1', ';']] := by
    show (Operator.list.operands "&0;,&0;&1;".toList).map Operand.text = _
    decide
  rw [parse_eq_map, hbound, fragment_run_of_setAside hset (by decide), hmasked.fragment_run, htrim,
    readHidden_run, recognise, hop]
  show Except.map _ (((((Reading.operation .list "&0;,&0;&1;".toList).parts).mapM
    (fragment vocabulary (depth + 3))).run _).bind _) = _
  rw [hparts, mapM_cons_run, fragment_run_placeholder hdistinct rfl rfl htext,
    fragment_run_scalar hdistinct rfl rfl rfl, Except.bind, mapM_cons_run,
    fragment_run_placeholder hdistinct rfl rfl htext, fragment_run_scalar hdistinct rfl rfl rfl]
  rfl

end Typed

/-- The placeholder that is typed in the second text leads to its only group, and with the first
text in front to the group of that one. So the second element is not the tree of the second text. -/
theorem parse_elements_typed :
    ¬∀ texts : List String, 2 ≤ texts.length →
      (∀ text ∈ texts, parse (Vocabulary.standard 0.5) text ≠ .error .endlessExpansion ∧
        IsElement text.toList ∧ Fragment.OnlyInside ')' text.toList) →
      ∀ results : List (Tree Float × Variables Float),
        texts.map (parse (Vocabulary.standard 0.5)) = results.map .ok →
        ∃ vars, parse (Vocabulary.standard 0.5) (",".intercalate texts) =
          .ok (.tuple (results.map fun r => r.1.renumber (r.2.numberIn vars)), vars) := by
  intro h
  have hdistinct := Vocabulary.distinct_standard 0.5
  have htexts : ∀ text ∈ ["(1)", "&0;(5)"],
      parse (Vocabulary.standard 0.5) text ≠ .error .endlessExpansion ∧
        IsElement text.toList ∧ Fragment.OnlyInside ')' text.toList := by
    have hshape : ∀ text ∈ ["(1)", "&0;(5)"], IsElement text.toList ∧
        Fragment.OnlyInside ')' text.toList := by decide
    refine fun text htext => ⟨fun herror => ?_, hshape text htext⟩
    rcases List.mem_pair.mp htext with rfl | rfl
    · simp only [parse_one hdistinct, reduceCtorEq] at herror
    · simp only [parse_typed hdistinct, reduceCtorEq] at herror
  have hresults : ["(1)", "&0;(5)"].map (parse (Vocabulary.standard 0.5)) =
      [(Tree.scalar (Numeral.ofDecimal ⟨1, 0⟩), Variables.empty),
        (Tree.scalar (Numeral.ofDecimal ⟨5, 0⟩), Variables.empty)].map .ok := by
    rw [List.map_cons, List.map_singleton, parse_one hdistinct, parse_typed hdistinct]
    rfl
  obtain ⟨vars, hvars⟩ := h _ (by decide) htexts _ hresults
  have hsame := (parse_typed_behind hdistinct).symm.trans hvars
  simp only [List.map_cons, List.map_nil, renumber, Except.ok.injEq, Prod.mk.injEq,
    Tree.tuple.injEq, List.cons.injEq, Tree.scalar.injEq] at hsame
  -- alone the second element is `5`, and here it is `1`
  have hbits := congrArg Float.toBits hsame.1.2.1
  exact absurd hbits (by decide)

end Parser

end Formula
