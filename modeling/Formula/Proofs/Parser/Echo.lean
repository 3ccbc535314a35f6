import Formula.Proofs.Parser.Depth

/-!
# Reading the same again

Groups are never taken away, and placeholders lead to them for good. So what has been read once is
read again later on, when there are more groups: `interpret_echo` is the step, and `fragment_echo`
the whole reading. A fragment comes again as a text, or with its groups set aside once more under
other numbers (`Echo`).

There may be typed placeholders. One that has led to a group leads to it again, but one that has led
to nothing may lead to a group by then. Only for a call is this seen when it is interpreted: its
argument counts as no argument if it is a blank group (`Interprets.echo`).
-/

namespace Formula

namespace Operator

/-- Whether trees can be put together depends on their number alone. -/
theorem isSome_assemble? {α : Type} (operator : Operator) (trees trees' : List (Tree α))
    (h : trees.length = trees'.length) :
    (operator.assemble? trees).isSome = (operator.assemble? trees').isSome := by
  cases operator <;>
    rcases trees with _ | ⟨_, _ | ⟨_, _ | _⟩⟩ <;> rcases trees' with _ | ⟨_, _ | ⟨_, _ | _⟩⟩ <;>
    first
      | rfl
      | simp at h

/-- A part has no operator that the whole has not. -/
theorem loosestIn?_eq_none_of_sublist {s t : Fragment} (hsub : List.Sublist s t)
    (h : loosestIn? t = none) : loosestIn? s = none := by
  unfold loosestIn? at h ⊢
  rw [List.find?_eq_none] at h ⊢
  intro operator hmem hs
  exact h operator hmem (by simpa using hsub.mem (by simpa using hs))

end Operator

namespace Outline.Masked

variable {groups groups' : Groups} {o : Outline} {s s' : Fragment}

/-- Where a fragment has a placeholder that leads to a text, the same outline has one that leads to
the same text once there are more groups. -/
theorem exists_resolve (h : Masked groups o s) (h' : Masked groups' o s')
    (hext : groups.Extends groups') {interior text : Fragment}
    (hinterior : placeholderInterior? s = some interior)
    (hresolve : groups.resolve interior = .ok text) :
    ∃ interior', placeholderInterior? s' = some interior' ∧
      groups'.resolve interior' = .ok text := by
  rcases h.group_or_typed hinterior hresolve with ⟨hfront, hgroup⟩ | ⟨a, b, hab, ha, hsemi⟩
  · exact h'.exists_placeholderInterior? hfront hgroup
  · obtain ⟨rest, rfl⟩ := h'.exists_eq_front_append
    have hassoc : o.front ++ rest = a ++ '&' :: (interior ++ ';' :: (b ++ rest)) := by simp [hab]
    exact ⟨interior, by rw [hassoc, placeholderInterior?_cons ha hsemi], hext.resolve hresolve⟩

/-- A fragment without placeholders has no groups, and is the same with all groups. -/
theorem eq_of_placeholderInterior?_eq_none (h : Masked groups o s) (h' : Masked groups' o s')
    (hnone : placeholderInterior? s = none) : s = s' := by
  cases hgroup : o.firstGroup? with
  | none => rw [h.eq_text hgroup, h'.eq_text hgroup]
  | some inner =>
    obtain ⟨index, rest, rfl, -⟩ := h.eq_front_append hgroup
    refine absurd ?_
      (placeholderInterior?_eq_none_iff.mp hnone o.front (Nat.toDigits 10 index) rest)
    simp [placeholder]

/-- Whether a fragment is a blank group depends on its outline, unless it is a typed placeholder. -/
theorem trim_eq_or_isBlankGroup_eq (h : Masked groups o s) (h' : Masked groups' o s')
    (hblank : Parser.isBlankGroup groups s = true) :
    s'.trim = s.trim ∨ Parser.isBlankGroup groups' s' = true := by
  obtain ⟨interior, text, hs, hsemi, hresolve, -⟩ := Parser.isBlankGroup_iff.mp hblank
  rcases h.trim.eq_singleton_of_placeholder hs (Groups.amp_notMem_of_resolve hresolve) hsemi with
    hgroup | ⟨inner, ho, -⟩
  · exact Or.inl ((h'.trim.eq_text hgroup).trans (h.trim.eq_text hgroup).symm)
  · right
    rw [h.isBlankGroup_of_singleton ho] at hblank
    rw [h'.isBlankGroup_of_singleton ho, hblank]

/-- A blank group of an outline is a blank group once there are more groups. -/
theorem isBlankGroup_of_extends (h : Masked groups o s) (h' : Masked groups' o s')
    (hext : groups.Extends groups') (hblank : Parser.isBlankGroup groups s = true) :
    Parser.isBlankGroup groups' s' = true := by
  rcases h.trim_eq_or_isBlankGroup_eq h' hblank with hsame | hblank'
  · obtain ⟨interior, text, hs, hsemi, hresolve, htext⟩ := Parser.isBlankGroup_iff.mp hblank
    rw [Parser.isBlankGroup_iff]
    exact ⟨interior, text, hsame.trans hs, hsemi, hext.resolve hresolve, htext⟩
  · exact hblank'

end Outline.Masked

namespace Parser

open Outline (Masked)

variable {α : Type}

section Blank

variable [Zero α] [Numeral α] {vocabulary : Vocabulary α}
  (hnames : ∀ name ∈ vocabulary.names, '&' ∉ name.toList)
include hnames

/-- A placeholder without a group is not interpreted. -/
theorem interpret_placeholder_error {st : State α} {s interior : Fragment} {error : SyntaxError}
    (hs : s.trim = '&' :: (interior ++ [';'])) (hsemi : ';' ∉ interior) (hopen : '(' ∉ s)
    (hop : Operator.loosestIn? s.trim = none)
    (herror : st.groups.resolve interior = .error error) :
    (interpret vocabulary s).run st = .error error := by
  have hopen' : '(' ∉ s.trim := fun hmem => hopen ((Text.trimBy_sublist s).mem hmem)
  have hmasked : Masked st.groups (s.trim.map .plain) s.trim := .map_plain hopen'
  have htrim : Fragment.trim s.trim = s.trim := Text.trimBy_trimBy s
  -- no name stands in front of the `&`
  have hfun := Vocabulary.functionAt?_append_cons hnames [] (interior ++ [';'])
  have hconst := Vocabulary.constantAt?_append_cons hnames [] (interior ++ [';'])
  rw [List.nil_append, ← hs] at hfun hconst
  have hinterior : placeholderInterior? s.trim = some interior := by
    rw [hs]
    exact placeholderInterior?_cons (a := []) List.not_mem_nil hsemi []
  rw [interpret_run, hmasked.setAside]
  show (recognise vocabulary (Fragment.trim s.trim)).run st = _
  rw [htrim, recognise, hop]
  dsimp only
  rw [interpretOperand_run, hfun, Vocabulary.functionAt?_nil, hconst, Vocabulary.constantAt?_nil,
    hinterior]
  dsimp only
  rw [herror]
  rfl

/-- What is no blank group but becomes one once there are more groups is a placeholder that is typed
before there is a group for it. -/
theorem interpret_error_of_isBlankGroup {st : State α} {groups' : Groups} {o : Outline}
    {s s' : Fragment} (h : Masked st.groups o s) (h' : Masked groups' o s')
    (hext : st.groups.Extends groups') (hop : Operator.loosestIn? s.trim = none)
    (hblank : isBlankGroup st.groups s = false) (hblank' : isBlankGroup groups' s' = true) :
    ∃ error, (interpret vocabulary s).run st = .error error := by
  rcases h'.trim_eq_or_isBlankGroup_eq h hblank' with hsame | htrue
  · obtain ⟨interior, text, hs, hsemi, hresolve, htext⟩ := isBlankGroup_iff.mp hblank'
    rw [← hsame] at hs
    -- blank only now, so that its number was given in between: at first it led nowhere
    cases herror : st.groups.resolve interior with
    | error error =>
      exact ⟨error, interpret_placeholder_error hnames hs hsemi h.open_notMem hop herror⟩
    | ok text' =>
      obtain rfl : text' = text :=
        Except.ok.inj ((hext.resolve herror).symm.trans hresolve)
      have htrue := isBlankGroup_iff.mpr ⟨interior, text', hs, hsemi, herror, htext⟩
      rw [hblank] at htrue
      exact nomatch htrue
  · rw [hblank] at htrue
    exact nomatch htrue

end Blank

/-! ### The same again with more groups -/

/-- `Echo groups groups' s s'` says that `s'` is `s` over again, with other groups: the two mask the
same outline, or are the same text. -/
inductive Echo (groups groups' : Groups) : Fragment → Fragment → Prop where
  | masked {o : Outline} {s s' : Fragment} (h : Masked groups o s) (h' : Masked groups' o s') :
    Echo groups groups' s s'
  | text (s : Fragment) : Echo groups groups' s s

theorem Echo.mono {groups groups' later later' : Groups} {s s' : Fragment}
    (hext : groups.Extends later) (hext' : groups'.Extends later') (h : Echo groups groups' s s') :
    Echo later later' s s' := by
  cases h with
  | masked h h' => exact .masked (h.mono hext) (h'.mono hext')
  | text => exact .text s

/-- Readings of the same kind, with parts that are the same over again. -/
inductive Reading.Echo (groups groups' : Groups) : Reading α → Reading α → Prop where
  | leaf (tree tree' : Tree α) : Echo groups groups' (.leaf tree) (.leaf tree')
  | operation {operator : Operator} {s s' : Fragment}
    (h : List.Forall₂ (Parser.Echo groups groups') ((operator.operands s).map Operand.text)
      ((operator.operands s').map Operand.text)) :
    Echo groups groups' (.operation operator s) (.operation operator s')
  | call (name : String) (apply : List α → α) {s s' : Fragment}
    (h : Parser.Echo groups groups' s s') :
    Echo groups groups' (.call name apply s) (.call name apply s')
  | group (text : Fragment) : Echo groups groups' (.group text) (.group text)

namespace Reading.Echo

variable {groups groups' : Groups} {reading reading' : Reading α}

/-- The parts come again in their order. -/
theorem parts (h : Echo groups groups' reading reading') :
    List.Forall₂ (Parser.Echo groups groups') reading.parts reading'.parts := by
  cases h with
  | leaf => exact .nil
  | operation h => exact h
  | call name apply h => exact .cons h .nil
  | group text => exact .cons (.text text) .nil

/-- If the trees of the parts are put together, so are those of the parts that come again, since
there are as many. -/
theorem assemble (h : Echo groups groups' reading reading') {trees trees' : List (Tree α)}
    (hlen : trees.length = trees'.length) {tree : Tree α}
    (htree : reading.assemble trees = .ok tree) :
    ∃ tree', reading'.assemble trees' = .ok tree' := by
  cases h with
  | leaf tree tree' => exact ⟨tree', rfl⟩
  | @operation operator s s' h =>
    have hoperands : (operator.operands s).length = (operator.operands s').length := by
      simpa using h.length_eq
    unfold Reading.assemble at htree ⊢
    dsimp only at htree ⊢
    have hsome := operator.isSome_assemble?
      ((operator.operands s).zipWith
        (fun operand tree => operator.orient operand.inverted tree) trees)
      ((operator.operands s').zipWith
        (fun operand tree => operator.orient operand.inverted tree) trees')
      (by rw [List.length_zipWith, List.length_zipWith, hoperands, hlen])
    split at htree
    · rename_i t ht
      rw [ht, Option.isSome_some] at hsome
      obtain ⟨t', ht'⟩ := Option.isSome_iff_exists.mp hsome.symm
      exact ⟨t', by rw [ht']⟩
    · cases htree
  | call name apply h => exact ⟨_, rfl⟩
  | group text =>
    -- there is the tree of the group and no other
    cases trees with
    | nil => cases htree
    | cons t rest =>
      cases rest with
      | cons _ _ => cases htree
      | nil =>
        obtain ⟨t', rfl⟩ := List.length_eq_one_iff.mp hlen.symm
        exact ⟨t', rfl⟩

end Reading.Echo

section Again

variable [Zero α] [Numeral α] {vocabulary : Vocabulary α}
  (hnames : ∀ name ∈ vocabulary.names, '&' ∉ name.toList)
include hnames

/-- What is recognised in a masked outline is recognised in it again when there are more groups, or
else it is a call whose argument is a placeholder typed before there is a group for it. -/
theorem Interprets.echo {st st₁ : State α} (st' : State α) {o : Outline} {s s' : Fragment}
    {reading : Reading α} (h : Interprets vocabulary st s reading st₁) (hs : Masked st.groups o s)
    (hs' : Masked st'.groups o s') (hext : st.groups.Extends st'.groups) :
    ∃ reading' st₁', (recognise vocabulary s').run st' = .ok (reading', st₁') ∧
      st₁'.groups = st'.groups ∧
      (reading.Echo st.groups st'.groups reading' ∨
        ∃ part error, reading.parts = [part] ∧
          (interpret vocabulary part).run st₁ = .error error) := by
  have hsame : Operator.loosestIn? s' = Operator.loosestIn? s :=
    hs'.loosestIn?_eq.trans hs.loosestIn?_eq.symm
  have hfun' : vocabulary.functionAt? s' = vocabulary.functionAt? s :=
    (hs'.functionAt?_eq hnames).trans (hs.functionAt?_eq hnames).symm
  have hconst' : vocabulary.constantAt? s' = vocabulary.constantAt? s :=
    (hs'.constantAt?_eq hnames).trans (hs.constantAt?_eq hnames).symm
  have hdrop : ∀ {name : String} {apply : List α → α},
      vocabulary.functionAt? s = some (name, apply) →
        Masked st.groups (o.drop name.length) (s.drop name.length) ∧
          Masked st'.groups (o.drop name.length) (s'.drop name.length) := by
    intro name apply hname
    rw [hs.functionAt?_eq hnames] at hname
    have hle := (Vocabulary.functionAt?_length hname).2
    exact ⟨hs.drop hle, hs'.drop hle⟩
  rw [recognise, hsame]
  cases h with
  | @operation operator hop =>
    rw [hop]
    refine ⟨_, _, rfl, rfl, Or.inl (.operation ?_)⟩
    refine List.forall₂_map_left_iff.mpr <| List.forall₂_map_right_iff.mpr ?_
    refine (Outline.forall₂_of_common (hs.operands operator) (hs'.operands operator)).imp ?_
    rintro q q' ⟨p, -, hq, hq'⟩
    exact .masked hq.2 hq'.2
  | @emptyCall name apply hop hname hblank =>
    obtain ⟨hleft, hright⟩ := hdrop hname
    rw [hop]
    dsimp only
    rw [interpretOperand_run, hfun', hname]
    dsimp only
    rw [hleft.isBlankGroup_of_extends hright hext hblank, if_pos rfl]
    exact ⟨_, _, rfl, rfl, Or.inl (.leaf _ _)⟩
  | @call name apply hop hname hblank =>
    obtain ⟨hleft, hright⟩ := hdrop hname
    rw [hop]
    dsimp only
    rw [interpretOperand_run, hfun', hname]
    dsimp only
    cases hblank' : isBlankGroup st'.groups (s'.drop name.length) with
    | false =>
      rw [if_neg Bool.false_ne_true]
      exact ⟨_, _, rfl, rfl, Or.inl (.call name apply (.masked hleft hright))⟩
    | true =>
      -- the argument has become a blank group, and then it was a placeholder typed too early
      have hsub : List.Sublist (Fragment.trim (s.drop name.length)) s :=
        (Text.trimBy_sublist _).trans (List.drop_sublist _ _)
      obtain ⟨error, herror⟩ := interpret_error_of_isBlankGroup hnames hleft hright hext
        (Operator.loosestIn?_eq_none_of_sublist hsub hop) hblank hblank'
      rw [if_pos rfl]
      exact ⟨_, _, rfl, rfl, Or.inr ⟨_, error, rfl, herror⟩⟩
  | @constant name value hop hfun hname =>
    rw [hop]
    dsimp only
    rw [interpretOperand_run, hfun', hfun, hconst', hname]
    exact ⟨_, _, rfl, rfl, Or.inl (.leaf _ _)⟩
  | @group interior text hop hfun hconst hinterior hresolve =>
    -- both placeholders lead to groups, not always to the same
    obtain ⟨interior', hinterior', hresolve'⟩ := hs.exists_resolve hs' hext hinterior hresolve
    rw [hop]
    dsimp only
    rw [interpretOperand_run, hfun', hfun, hconst', hconst, hinterior']
    dsimp only
    rw [hresolve']
    exact ⟨_, _, rfl, rfl, Or.inl (.group text)⟩
  | @number value hop hfun hconst hgroup hvalue =>
    obtain rfl := hs.eq_of_placeholderInterior?_eq_none hs' hgroup
    rw [hop]
    dsimp only
    rw [interpretOperand_run, hfun, hconst, hgroup, hvalue]
    exact ⟨_, _, rfl, rfl, Or.inl (.leaf _ _)⟩
  | var hop hfun hconst hgroup hvalue hname =>
    obtain rfl := hs.eq_of_placeholderInterior?_eq_none hs' hgroup
    rw [hop]
    dsimp only
    rw [interpretOperand_run, hfun, hconst, hgroup, hvalue]
    dsimp only
    rw [if_pos hname]
    exact ⟨_, _, rfl, rfl, Or.inl (.leaf _ _)⟩

/-- What is interpreted is interpreted again when there are more groups, those that it sets aside
among them. -/
theorem interpret_echo {st st₁ st' : State α} {s s' : Fragment} {reading : Reading α}
    (hecho : Echo st.groups st'.groups s s')
    (hstep : (interpret vocabulary s).run st = .ok (reading, st₁))
    (hext : st₁.groups.Extends st'.groups) :
    ∃ reading' st₁', (interpret vocabulary s').run st' = .ok (reading', st₁') ∧
      (reading.Echo st₁.groups st₁'.groups reading' ∨
        ∃ part error, reading.parts = [part] ∧
          (interpret vocabulary part).run st₁ = .error error) := by
  have hgroups := interpret_groups_eq hstep
  have hext' := hext.trans (Outline.setAside_extends st'.groups s'.trim)
  obtain ⟨hidden, hhidden, hrule⟩ := interpret_eq_ok hstep
  -- with their groups set aside, the two mask the same outline
  obtain ⟨o, hidden', hhidden', hmasked, hmasked'⟩ : ∃ (o : Outline) (hidden' : Fragment),
      (st'.groups.setAside s'.trim).1 = .ok hidden' ∧
      Masked (st.groups.setAside s.trim).2 o (Fragment.trim hidden) ∧
      Masked (st'.groups.setAside s'.trim).2 o (Fragment.trim hidden') := by
    cases hecho with
    | @masked o _ _ hs hs' =>
      rw [hs.trim.setAside] at hhidden ⊢
      rw [hs'.trim.setAside]
      obtain rfl := Except.ok.inj hhidden
      exact ⟨_, _, rfl, hs.trim.trim, hs'.trim.trim⟩
    | text =>
      cases ho : Outline.ofText s.trim with
      | error e =>
        obtain ⟨e', he', -⟩ := Outline.setAside_of_ofText_error ho st.groups
        rw [hhidden] at he'
        exact nomatch he'
      | ok o =>
        obtain ⟨m, hm, hmasked⟩ := Outline.setAside_of_ofText ho st.groups
        obtain ⟨m', hm', hmasked'⟩ := Outline.setAside_of_ofText ho st'.groups
        rw [hhidden] at hm
        obtain rfl := Except.ok.inj hm
        exact ⟨o.trim, m', hm', hmasked.trim, hmasked'.trim⟩
  rw [hgroups] at hext'
  obtain ⟨reading', st₁', hrun, hst₁', hreading⟩ :=
    hrule.echo hnames ⟨(st'.groups.setAside s'.trim).2, st'.vars⟩ hmasked hmasked' hext'
  refine ⟨reading', st₁', ?_, ?_⟩
  · rw [interpret_run, hhidden']
    exact hrun
  · rw [hst₁', hgroups]
    exact hreading

omit hnames in
/-- Fragments that are read one after another are read again. -/
theorem mapM_echo {depth : Nat}
    (hread : ∀ (s s' : Fragment) (st st₁ st' : State α) (tree : Tree α),
      Echo st.groups st'.groups s s' → (fragment vocabulary depth s).run st = .ok (tree, st₁) →
        st₁.groups.Extends st'.groups →
        ∃ tree' st₁', (fragment vocabulary depth s').run st' = .ok (tree', st₁'))
    {parts parts' : List Fragment} {st st₁ st' : State α} {trees : List (Tree α)}
    (hparts : List.Forall₂ (Echo st.groups st'.groups) parts parts')
    (hrun : (parts.mapM (fragment vocabulary depth)).run st = .ok (trees, st₁))
    (hext : st₁.groups.Extends st'.groups) :
    ∃ trees' st₁', (parts'.mapM (fragment vocabulary depth)).run st' = .ok (trees', st₁') ∧
      trees.length = trees'.length := by
  induction parts generalizing parts' st st' trees with
  | nil =>
    cases hparts
    obtain ⟨rfl, -⟩ := Prod.mk.inj (Except.ok.inj hrun)
    exact ⟨[], st', rfl, rfl⟩
  | cons part parts ih =>
    cases hparts with
    | cons hpart hparts =>
      obtain ⟨tree, st₂, trees, htree, htrees, rfl⟩ := mapM_cons_eq_ok.mp hrun
      have hlater := mapM_fragment_extends htrees
      obtain ⟨tree', st₂', htree'⟩ := hread _ _ st st₂ st' tree hpart htree (hlater.trans hext)
      have hgrow := fragment_extends htree'
      have hmono := hparts.imp fun _ _ h => h.mono (fragment_extends htree) hgrow
      obtain ⟨trees', st₁', htrees', hlen⟩ := ih hmono htrees (hext.trans hgrow)
      exact ⟨tree' :: trees', st₁', mapM_cons_eq_ok.mpr ⟨tree', st₂', trees', htree', htrees', rfl⟩,
        congrArg (· + 1) hlen⟩

/-- What is read is read again when there are more groups, those that it sets aside among them. -/
theorem fragment_echo {depth : Nat} {s s' : Fragment} {st st₁ st' : State α} {tree : Tree α}
    (hecho : Echo st.groups st'.groups s s')
    (hrun : (fragment vocabulary depth s).run st = .ok (tree, st₁))
    (hext : st₁.groups.Extends st'.groups) :
    ∃ tree' st₁', (fragment vocabulary depth s').run st' = .ok (tree', st₁') := by
  induction depth generalizing s s' st st₁ st' tree with
  | zero => exact nomatch (fragment_zero s st).symm.trans hrun
  | succ depth ih =>
    obtain ⟨reading, st₂, trees, hstep, hparts, hassemble⟩ := fragment_eq_ok.mp hrun
    have hlater := mapM_fragment_extends hparts
    obtain ⟨reading', st₂', hstep', hreading | ⟨part, error, hpart, herror⟩⟩ :=
      interpret_echo hnames hecho hstep (hlater.trans hext)
    · obtain ⟨trees', st₁', hparts', hlen⟩ := mapM_echo
        (fun s s' st st₁ st' tree hecho hrun hext => ih hecho hrun hext) hreading.parts hparts
        (hext.trans (interpret_extends hstep'))
      obtain ⟨tree', hassemble'⟩ := hreading.assemble hlen hassemble
      exact ⟨tree', st₁', fragment_eq_ok.mpr ⟨reading', st₂', trees', hstep', hparts', hassemble'⟩⟩
    · -- a part that is not interpreted is not read
      rw [hpart] at hparts
      obtain ⟨tree, st₃, trees, htree, -, -⟩ := mapM_cons_eq_ok.mp hparts
      cases depth with
      | zero => exact nomatch (fragment_zero part st₂).symm.trans htree
      | succ depth =>
        rw [fragment_run, herror] at htree
        exact nomatch htree

end Again

end Parser

end Formula
