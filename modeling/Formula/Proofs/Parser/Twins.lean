import Formula.Proofs.Outline.Agreement
import Formula.Proofs.Tree.Renumber

/-!
# Runs that differ in their tables only

What a fragment is read to depends on the groups set aside and the variables met before it was
reached. `fragment_twins` says how much: in the same text, or in fragments that mask the same
outline (`Alike`), two runs ask for the same names and find the same tree, up to the numbers of the
variables, or both fail, whatever groups and variables they started with. `Twins` is what such runs
have in common.

The text must not have typed placeholders in it. Then the two runs keep in step: a placeholder that
is found belongs to the first group of the outline in both of them, or is no index in either
(`Outline.Masked.exists_placeholderInterior?_of_typed`).
-/

namespace Formula.Parser

open Outline (Masked)
open Formula.Tree (renumber)
open Variables (Translates)

variable {α : Type} [Zero α]

/-! ### Twins -/

/-- `Asks names st st'` says that from `st` to `st'` groups have only been added, and that the table
of variables has been asked for the names, one after another. -/
structure Asks (names : List String) (st st' : State α) : Prop where
  groups : st.groups.Extends st'.groups
  vars : st'.vars = st.vars.internAll names

namespace Asks

variable {names names' : List String} {st st₁ st₂ : State α}

theorem trans (h : Asks names st st₁) (h' : Asks names' st₁ st₂) :
    Asks (names ++ names') st st₂ :=
  ⟨h.groups.trans h'.groups, by rw [h'.vars, h.vars, Variables.internAll_append]⟩

theorem grows (h : Asks names st st₁) : st.vars.Grows st₁.vars := by
  rw [h.vars]
  exact st.vars.grows_internAll names

theorem sound (h : Asks names st st₁) (hsound : st.vars.Sound) : st₁.vars.Sound := by
  rw [h.vars]
  exact hsound.internAll names

end Asks

/-- `Twins st st' Same x y` says that the runs `x` from the state `st` and `y` from the state `st'`
both fail, or that both have asked for the same names and their results are in the relation `Same f`
for every `f` that translates the numbers of the one into those of the other. -/
inductive Twins {β γ : Type} (st st' : State α) (Same : (Nat → Nat) → β → γ → Prop) :
    Except SyntaxError (β × State α) → Except SyntaxError (γ × State α) → Prop where
  | ok {b : β} {c : γ} {st₁ st₁' : State α} (names : List String) (hasks : Asks names st st₁)
    (hasks' : Asks names st' st₁')
    (hsame : ∀ f, Translates f st₁.vars st₁'.vars → Same f b c) :
    Twins st st' Same (.ok (b, st₁)) (.ok (c, st₁'))
  | error (e e' : SyntaxError) : Twins st st' Same (.error e) (.error e')

/-- The tree with other numbers. -/
def Renumbered (f : Nat → Nat) (tree tree' : Tree α) : Prop := tree' = tree.renumber f

namespace Twins

variable {β β' γ γ' : Type} {st st' : State α} {Same : (Nat → Nat) → β → γ → Prop}
  {Same' : (Nat → Nat) → β' → γ' → Prop} {x : Except SyntaxError (β × State α)}
  {y : Except SyntaxError (γ × State α)}

/-- Results that ask for nothing. -/
theorem pure {b : β} {c : γ} (hsame : ∀ f, Translates f st.vars st'.vars → Same f b c) :
    Twins st st' Same (.ok (b, st)) (.ok (c, st')) :=
  .ok [] ⟨.refl _, rfl⟩ ⟨.refl _, rfl⟩ hsame

/-- Groups that are set aside on the way do not matter later. -/
theorem of_extends {groups groups' : Groups} (hext : st.groups.Extends groups)
    (hext' : st'.groups.Extends groups')
    (h : Twins ⟨groups, st.vars⟩ ⟨groups', st'.vars⟩ Same x y) :
    Twins st st' Same x y := by
  cases h with
  | ok names hasks hasks' hsame =>
    exact .ok names ⟨hext.trans hasks.groups, hasks.vars⟩ ⟨hext'.trans hasks'.groups, hasks'.vars⟩
      hsame
  | error e e' => exact .error e e'

/-- Twins go on to twins. What the second steps are given has been translated by whatever numbers
the tables end up with. -/
theorem bind {g : β × State α → Except SyntaxError (β' × State α)}
    {g' : γ × State α → Except SyntaxError (γ' × State α)} (h : Twins st st' Same x y)
    (hnext : ∀ b c st₁ st₁' names, Asks names st st₁ → Asks names st' st₁' →
      (∀ f, Translates f st₁.vars st₁'.vars → Same f b c) →
      Twins st₁ st₁' Same' (g (b, st₁)) (g' (c, st₁'))) :
    Twins st st' Same' (x.bind g) (y.bind g') := by
  cases h with
  | error e e' => exact .error e e'
  | @ok b c st₁ st₁' names hasks hasks' hsame =>
    have hlast := hnext b c st₁ st₁' names hasks hasks' hsame
    show Twins st st' Same' (g (b, st₁)) (g' (c, st₁'))
    generalize g (b, st₁) = x' at hlast
    generalize g' (c, st₁') = y' at hlast
    cases hlast with
    | error e e' => exact .error e e'
    | ok names' hasks₁ hasks₁' hsame' =>
      exact .ok (names ++ names') (hasks.trans hasks₁) (hasks'.trans hasks₁') hsame'

/-- Results without a run: both are errors or trees that differ in their numbers. -/
theorem of_toOption (hsound : st.vars.Sound) {x y : Except SyntaxError (Tree α)}
    (h : ∀ f, Translates f st.vars st'.vars → y.toOption = x.toOption.map (renumber f)) :
    Twins st st' Renumbered (x.map fun tree => (tree, st)) (y.map fun tree => (tree, st')) := by
  -- there is a function that translates, so that the two agree on whether there is a tree
  have hone := h _ (Variables.translates_numberIn hsound st'.vars)
  cases x with
  | error e =>
    cases y with
    | error e' => exact .error e e'
    | ok tree' => exact nomatch hone
  | ok tree =>
    cases y with
    | error e' => exact nomatch hone
    | ok tree' => exact .pure fun f hf => Option.some.inj (h f hf)

end Twins

/-! ### Fragments that are read alike -/

/-- `Alike groups groups' s s'` says that two fragments mask the same outline with the groups of two
states, or are the same text with its brackets in it, and that no placeholder is typed in them. -/
inductive Alike (groups groups' : Groups) : Fragment → Fragment → Prop where
  | masked {o : Outline} {s s' : Fragment} (htext : TypesNoPlaceholder o.text)
    (hs : Masked groups o s) (hs' : Masked groups' o s') : Alike groups groups' s s'
  | text {s : Fragment} (htext : TypesNoPlaceholder s) : Alike groups groups' s s

theorem Alike.mono {groups groups' groups₁ groups₁' : Groups} {s s' : Fragment}
    (hext : groups.Extends groups₁) (hext' : groups'.Extends groups₁')
    (h : Alike groups groups' s s') : Alike groups₁ groups₁' s s' := by
  cases h with
  | masked htext hs hs' => exact .masked htext (hs.mono hext) (hs'.mono hext')
  | text htext => exact .text htext

/-- Operands of the same kind with texts that are alike. -/
def AlikeOperands (groups groups' : Groups) (q q' : Operand) : Prop :=
  q.inverted = q'.inverted ∧ Alike groups groups' q.text q'.text

/-- The operands of an outline, masked in two ways. -/
theorem operands_alike {groups groups' : Groups} {o : Outline} {s s' : Fragment}
    {operator : Operator} (hop : o.loosestIn? = some operator) (htext : TypesNoPlaceholder o.text)
    (h : Masked groups o s) (h' : Masked groups' o s') :
    List.Forall₂ (AlikeOperands groups groups') (operator.operands s) (operator.operands s') := by
  have hmark := Outline.mem_of_loosestIn? hop
  refine (Outline.forall₂_of_common (h.operands operator) (h'.operands operator)).imp ?_
  rintro q q' ⟨p, hp, hq, hq'⟩
  have hpart := (Outline.operands_isInfix hmark hp).flatMap Piece.text
  exact ⟨hq.1.symm.trans hq'.1, .masked (htext.of_isInfix hpart) hq.2 hq'.2⟩

/-- What two fragments are that are alike: the same, up to the numbers of a variable and the texts
of the parts. -/
inductive Reading.Twin (groups groups' : Groups) (f : Nat → Nat) :
    Reading α → Reading α → Prop where
  | leaf {tree tree' : Tree α} (h : Renumbered f tree tree') :
    Twin groups groups' f (.leaf tree) (.leaf tree')
  | operation {operator : Operator} {s s' : Fragment}
    (h : List.Forall₂ (AlikeOperands groups groups') (operator.operands s) (operator.operands s')) :
    Twin groups groups' f (.operation operator s) (.operation operator s')
  | call (name : String) (apply : List α → α) {s s' : Fragment} (h : Alike groups groups' s s') :
    Twin groups groups' f (.call name apply s) (.call name apply s')
  | group {text : Fragment} (h : TypesNoPlaceholder text) :
    Twin groups groups' f (.group text) (.group text)

namespace Reading.Twin

variable {groups groups' : Groups} {f : Nat → Nat} {reading reading' : Reading α}

omit [Zero α] in
/-- Twin readings have the same parts, in outlines or as texts. -/
theorem parts (h : Twin groups groups' f reading reading') :
    List.Forall₂ (Alike groups groups') reading.parts reading'.parts := by
  cases h with
  | leaf => exact .nil
  | operation h =>
    unfold Reading.parts
    rw [List.forall₂_map_left_iff, List.forall₂_map_right_iff]
    exact h.imp fun _ _ hq => hq.2
  | call name apply h => exact .cons h .nil
  | group h => exact .cons (.text h) .nil

omit [Zero α] in
/-- The trees of parts with other numbers are put together to the tree with other numbers, or are
not put together either. -/
theorem assemble (h : Twin groups groups' f reading reading') (trees : List (Tree α)) :
    (reading'.assemble (trees.map (renumber f))).toOption =
      (reading.assemble trees).toOption.map (renumber f) := by
  cases h with
  | leaf h => exact congrArg some h
  | @operation operator s s' h =>
    -- the same operands are turned around on both sides
    have hinverted : (operator.operands s).map Operand.inverted =
        (operator.operands s').map Operand.inverted := by
      rw [← List.forall₂_eq_eq_eq, List.forall₂_map_left_iff, List.forall₂_map_right_iff]
      exact h.imp fun _ _ hq => hq.1
    have horient : ∀ (s : Fragment) (trees : List (Tree α)),
        (operator.operands s).zipWith (fun q tree => operator.orient q.inverted tree) trees =
          ((operator.operands s).map Operand.inverted).zipWith operator.orient trees :=
      fun s trees => by rw [List.zipWith_map_left]
    have hrenumber : ((operator.operands s').map Operand.inverted).zipWith operator.orient
          (trees.map (renumber f)) =
        (((operator.operands s).map Operand.inverted).zipWith operator.orient trees).map
          (renumber f) := by
      rw [hinverted, List.zipWith_map_right, List.map_zipWith]
      simp only [Operator.orient_renumber]
    unfold Reading.assemble
    dsimp only
    rw [horient, horient, hrenumber, Operator.assemble?_renumber]
    cases operator.assemble?
      (((operator.operands s).map Operand.inverted).zipWith operator.orient trees) <;> rfl
  | call name apply h =>
    have helements : (trees.map (renumber f)).flatMap Tree.elements =
        (trees.flatMap Tree.elements).map (renumber f) := by
      rw [List.flatMap_map, List.map_flatMap]
      simp only [Tree.elements_renumber]
    unfold Reading.assemble
    dsimp only
    rw [helements, Except.toOption, Except.toOption, Option.map_some, renumber,
      Tree.renumberAll_eq_map]
  | group h =>
    match trees with
    | [] | _ :: _ :: _ => rfl
    | [tree] => rfl

end Reading.Twin

/-! ### One step -/

variable [Numeral α] {vocabulary : Vocabulary α}

/-- Without an operator, the same outline is taken for the same thing in both states. -/
theorem interpretOperand_twins (hnames : ∀ name ∈ vocabulary.names, '&' ∉ name.toList)
    {st st' : State α} {o : Outline} {s s' : Fragment} (hop : o.loosestIn? = none)
    (htext : TypesNoPlaceholder o.text) (hs : Masked st.groups o s) (hs' : Masked st'.groups o s') :
    Twins st st' (Reading.Twin st.groups st'.groups) ((interpretOperand vocabulary s).run st)
      ((interpretOperand vocabulary s').run st') := by
  have hplus := hs.plus_notMem hop
  have hplus' := hs'.plus_notMem hop
  rw [interpretOperand_run, interpretOperand_run, hs.functionAt?_eq hnames,
    hs'.functionAt?_eq hnames]
  cases hfun : vocabulary.functionAt? o.front with
  | some entry =>
    obtain ⟨name, apply⟩ := entry
    have hle := (Vocabulary.functionAt?_length hfun).2
    have hdrop := hs.drop hle
    have hdrop' := hs'.drop hle
    have htext' := htext.of_isInfix ((List.drop_suffix name.length o).isInfix.flatMap Piece.text)
    dsimp only
    rw [hdrop.isBlankGroup_eq htext' fun hmem => hplus ((List.drop_sublist _ s).mem hmem),
      hdrop'.isBlankGroup_eq htext' fun hmem => hplus' ((List.drop_sublist _ s').mem hmem)]
    split
    · exact .pure fun f _ => .leaf (by simp only [Renumbered, renumber, Tree.renumberAll])
    · exact .pure fun f _ => .call name apply (.masked htext' hdrop hdrop')
  | none =>
  dsimp only
  rw [hs.constantAt?_eq hnames, hs'.constantAt?_eq hnames]
  cases vocabulary.constantAt? o.front with
  | some entry => exact .pure fun f _ => .leaf (by simp only [Renumbered, renumber])
  | none =>
  dsimp only
  cases hfirst : o.firstGroup? with
  | some inner =>
    by_cases hfront : '&' ∈ o.front
    · -- the `&` that is found is typed, and leads nowhere in either run
      obtain ⟨i, hi, hindex⟩ := hs.exists_placeholderInterior?_of_typed htext hplus hfront hfirst
      obtain ⟨i', hi', hindex'⟩ :=
        hs'.exists_placeholderInterior?_of_typed htext hplus' hfront hfirst
      rw [hi, hi']
      dsimp only
      rw [Groups.resolve_of_index_eq_none _ hindex, Groups.resolve_of_index_eq_none _ hindex']
      exact .error _ _
    · -- both come to the text of the first group, with brackets in it
      obtain ⟨i, hi, hinner⟩ := hs.exists_placeholderInterior? hfront hfirst
      obtain ⟨i', hi', hinner'⟩ := hs'.exists_placeholderInterior? hfront hfirst
      rw [hi, hi']
      dsimp only
      rw [hinner, hinner']
      exact .pure fun f _ => .group (htext.of_isInfix (Outline.group_isInfix_text hfirst))
  | none =>
  -- nothing is masked: both look at the same characters
  obtain rfl := hs.eq_text hfirst
  obtain rfl := hs'.eq_text hfirst
  cases hinterior : placeholderInterior? o.text with
  | some interior =>
    have hindex := htext.index_eq_none hplus hinterior
    dsimp only
    rw [Groups.resolve_of_index_eq_none _ hindex, Groups.resolve_of_index_eq_none _ hindex]
    exact .error _ _
  | none =>
  dsimp only
  cases (number? o.text : Option α) with
  | some value => exact .pure fun f _ => .leaf (by simp only [Renumbered, renumber])
  | none =>
  dsimp only
  split
  · have hasks : ∀ st : State α, Asks [String.ofList o.text] st
        ⟨st.groups, (st.vars.intern (String.ofList o.text)).2⟩ := fun st => ⟨.refl _, rfl⟩
    refine .ok _ (hasks st) (hasks st') fun f hf => .leaf ?_
    -- both numbers are those of the name
    have hid := hf _ _ _ (st.vars.find?_intern _) (st'.vars.find?_intern _)
    rw [Renumbered, renumber, hid]
  · exact .error _ _

theorem recognise_twins (hnames : ∀ name ∈ vocabulary.names, '&' ∉ name.toList)
    {st st' : State α} {o : Outline} {s s' : Fragment} (htext : TypesNoPlaceholder o.text)
    (hs : Masked st.groups o s) (hs' : Masked st'.groups o s') :
    Twins st st' (Reading.Twin st.groups st'.groups) ((recognise vocabulary s).run st)
      ((recognise vocabulary s').run st') := by
  rw [recognise, recognise, hs.loosestIn?_eq, hs'.loosestIn?_eq]
  cases hop : o.loosestIn? with
  | some operator => exact .pure fun f _ => .operation (operands_alike hop htext hs hs')
  | none => exact interpretOperand_twins hnames hop htext hs hs'

/-! ### A fragment and its parts -/

section Parts

variable {depth : Nat}
  (hparts : ∀ (q q' : Fragment) (st st' : State α), st.vars.Sound →
    Alike st.groups st'.groups q q' →
    Twins st st' Renumbered ((fragment vocabulary depth q).run st)
      ((fragment vocabulary depth q').run st'))
include hparts

/-- Fragments that are alike one by one are read to trees that differ in their numbers. -/
theorem mapM_twins {st st' : State α} (hsound : st.vars.Sound) {qs qs' : List Fragment}
    (h : List.Forall₂ (Alike st.groups st'.groups) qs qs') :
    Twins st st' (fun f trees trees' => trees' = trees.map (renumber f))
      ((qs.mapM (fragment vocabulary depth)).run st)
      ((qs'.mapM (fragment vocabulary depth)).run st') := by
  induction qs generalizing qs' st st' with
  | nil =>
    cases h
    exact .pure fun _ _ => rfl
  | cons q qs ih =>
    cases h with
    | @cons _ q' _ qs' hhead htail =>
      rw [mapM_cons_run, mapM_cons_run]
      refine (hparts q q' st st' hsound hhead).bind ?_
      intro tree tree' st₁ st₁' names hasks hasks' htree
      have htail₁ := htail.imp fun _ _ hq => hq.mono hasks.groups hasks'.groups
      refine (ih (hasks.sound hsound) htail₁).bind ?_
      intro trees trees' st₂ st₂' names₁ hasks₁ hasks₁' htrees
      refine .pure fun f hf => ?_
      rw [htrees f hf, htree f (hf.of_grows hasks₁.grows hasks₁'.grows), List.map_cons]

/-- A masked outline is read to trees that differ in their numbers, if its parts are. -/
theorem readHidden_twins (hnames : ∀ name ∈ vocabulary.names, '&' ∉ name.toList)
    (st st' : State α) (hsound : st.vars.Sound) {o : Outline} {s s' : Fragment}
    (htext : TypesNoPlaceholder o.text) (hs : Masked st.groups o s) (hs' : Masked st'.groups o s') :
    Twins st st' Renumbered ((readHidden vocabulary depth s).run st)
      ((readHidden vocabulary depth s').run st') := by
  rw [readHidden_run, readHidden_run]
  refine (recognise_twins hnames htext hs hs').bind ?_
  intro reading reading' st₁ st₁' names hasks hasks' hreading
  have hsound₁ := hasks.sound hsound
  have hone := hreading _ (Variables.translates_numberIn hsound₁ st₁'.vars)
  have hparts₁ := hone.parts.imp fun _ _ hq => hq.mono hasks.groups hasks'.groups
  refine (mapM_twins hparts hsound₁ hparts₁).bind ?_
  intro trees trees' st₂ st₂' names₁ hasks₁ hasks₁' htrees
  refine .of_toOption (hasks₁.sound hsound₁) fun f hf => ?_
  rw [htrees f hf]
  exact (hreading f (hf.of_grows hasks₁.grows hasks₁'.grows)).assemble trees

end Parts

/-- Fragments that are alike are read to trees that differ in their numbers. -/
theorem fragment_twins (hnames : ∀ name ∈ vocabulary.names, '&' ∉ name.toList) (depth : Nat)
    (s s' : Fragment) (st st' : State α) (hsound : st.vars.Sound)
    (h : Alike st.groups st'.groups s s') :
    Twins st st' Renumbered ((fragment vocabulary depth s).run st)
      ((fragment vocabulary depth s').run st') := by
  induction depth generalizing s s' st st' with
  | zero => exact .error _ _
  | succ depth ih =>
    -- the induction is on the bound; a fragment is masked on both sides, or a text that is read for
    -- the first time
    cases h with
    | @masked o _ _ htext hs hs' =>
      have htrim := htext.of_isInfix (o.trim_isInfix.flatMap Piece.text)
      rw [hs.fragment_run, hs'.fragment_run]
      exact readHidden_twins ih hnames st st' hsound htrim hs.trim hs'.trim
    | text htext =>
      cases ho : Outline.ofText s.trim with
      | error e =>
        obtain ⟨_, e', -, hrun⟩ := Outline.fragment_run_error ho st depth
        obtain ⟨_, e'', -, hrun'⟩ := Outline.fragment_run_error ho st' depth
        rw [hrun, hrun']
        exact .error e' e''
      | ok o =>
        have ho' : o.text <:+: s := by
          rw [Outline.text_of_ofText ho]
          exact Text.trimBy_isInfix s
        have htrim := htext.of_isInfix ((o.trim_isInfix.flatMap Piece.text).trans ho')
        obtain ⟨groups, m, hext, hm, hrun⟩ := Outline.exists_fragment_run ho st depth
        obtain ⟨groups', m', hext', hm', hrun'⟩ := Outline.exists_fragment_run ho st' depth
        rw [hrun, hrun']
        exact .of_extends hext hext' <|
          readHidden_twins ih hnames ⟨groups, st.vars⟩ ⟨groups', st'.vars⟩ hsound htrim hm.trim
            hm'.trim

end Formula.Parser
