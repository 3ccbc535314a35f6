import Formula.Proofs.NameIndex
import Formula.Proofs.Outline.Masked
import Formula.Proofs.Outline.Reader
import Formula.Proofs.Parser.Steps
import Mathlib.Data.List.Infix

/-!
# The parser reads outlines

The parser sets groups aside, carries them along and puts placeholders into the text; the reader of
outlines leaves groups where they are. `parse_eq_ok_iff_outline` says that they find the same trees
and variables, and the same faults, when no `&` is typed and no name holds one. A fault is shown by
the parser at a fragment whose groups are masked, which is all that `MaskedError` allows for.

The two runs are compared step by step. What they have in common after a step is `Agree`: the same
variables, and groups that lead to the texts they led to before. The invariant of the recursion is
that the parser's fragment is the masked outline; a group is met either as a placeholder in such a
fragment or, when it is read, as a text that still has its brackets. So both kinds of fragments are
followed at once (`fragment_agrees_and_text_agrees`).
-/

namespace Formula.Parser

/-- A blank group is a placeholder that leads to a blank text, and nothing else. -/
theorem isBlankGroup_iff {groups : Groups} {s : Fragment} :
    isBlankGroup groups s = true ↔
      ∃ interior text, s.trim = '&' :: (interior ++ [';']) ∧ ';' ∉ interior ∧
        groups.resolve interior = .ok text ∧ text.allBlank = true := by
  unfold isBlankGroup
  constructor
  · intro h
    split at h
    · rename_i interior hinterior
      rw [Bool.and_eq_true, beq_iff_eq] at h
      obtain ⟨hlen, h⟩ := h
      split at h
      · rename_i text htext
        obtain ⟨a, b, hs, -, hsemi⟩ := placeholderInterior?_eq_some hinterior
        rw [hs] at hlen
        simp only [List.length_append, List.length_cons] at hlen
        -- the placeholder is as long as the fragment, so that nothing is around it
        obtain rfl : a = [] := List.length_eq_zero_iff.mp (by omega)
        obtain rfl : b = [] := List.length_eq_zero_iff.mp (by omega)
        exact ⟨interior, text, hs, hsemi, htext, h⟩
      · exact nomatch h
    · exact nomatch h
  · rintro ⟨interior, text, hs, hsemi, htext, hblank⟩
    have hinterior : placeholderInterior? s.trim = some interior := by
      rw [hs]
      exact placeholderInterior?_cons (a := []) List.not_mem_nil hsemi []
    rw [hinterior, hs]
    simp [htext, hblank]

end Formula.Parser

namespace Formula.Outline

open Formula.Parser (State Reading fragment readHidden recognise)

variable {α : Type}

/-! ### Agreeing runs -/

/-- `Agree groups Same x y` says that the run `x` over variables and the run `y` over groups and
variables have results in the relation `Same`, the same variables and only added groups behind
`groups`; or else that both have failed with the same fault. -/
inductive Agree {β γ : Type} (groups : Groups) (Same : β → γ → Prop) :
    Except SyntaxError (β × Variables α) → Except SyntaxError (γ × State α) → Prop where
  | ok {b : β} {c : γ} {st : State α} (hsame : Same b c) (hext : groups.Extends st.groups) :
    Agree groups Same (.ok (b, st.vars)) (.ok (c, st))
  | error {groups' : Groups} {e e' : SyntaxError} (h : MaskedError groups' e e') :
    Agree groups Same (.error e) (.error e')

namespace Agree

variable {β β' γ γ' : Type} {groups groups' : Groups} {Same : β → γ → Prop}
  {Same' : β' → γ' → Prop} {x : Except SyntaxError (β × Variables α)}
  {y : Except SyntaxError (γ × State α)}

theorem mono (hext : groups.Extends groups') (h : Agree groups' Same x y) :
    Agree groups Same x y := by
  cases h with
  | ok hsame hext' => exact .ok hsame (hext.trans hext')
  | error h => exact .error h

/-- Runs that agree go on to runs that agree, if the second steps agree wherever the first may lead.
-/
theorem bind {f : β × Variables α → Except SyntaxError (β' × Variables α)}
    {g : γ × State α → Except SyntaxError (γ' × State α)} (h : Agree groups Same x y)
    (hnext : ∀ b c st, Same b c → groups.Extends st.groups →
      Agree st.groups Same' (f (b, st.vars)) (g (c, st))) :
    Agree groups Same' (x.bind f) (y.bind g) := by
  cases h with
  | ok hsame hext => exact (hnext _ _ _ hsame hext).mono hext
  | error h => exact .error h

end Agree

/-! ### Names, placeholders and groups -/

theorem amp_notMem_of_sublist {o p : Outline} (hsub : List.Sublist o p) (h : '&' ∉ p.text) :
    '&' ∉ o.text :=
  fun hmem => h ((hsub.flatMap Piece.text).mem hmem)

theorem amp_notMem_front {o : Outline} (h : '&' ∉ o.text) : '&' ∉ o.front :=
  fun hmem => h (o.front_isPrefix_text.sublist.mem hmem)

theorem amp_notMem_group {o : Outline} {inner : Fragment} (h : '&' ∉ o.text)
    (hgroup : o.firstGroup? = some inner) : '&' ∉ inner :=
  fun hmem => h ((group_isInfix_text hgroup).sublist.mem hmem)

namespace Masked

variable {groups : Groups} {o : Outline} {s : Fragment}

theorem placeholderInterior?_eq_none (h : Masked groups o s) (htext : '&' ∉ o.text)
    (hgroup : o.firstGroup? = none) : placeholderInterior? s = none := by
  rw [h.eq_text hgroup]
  exact placeholderInterior?_of_notMem htext

/-- The first placeholder is that of the first group. -/
theorem exists_placeholderInterior? {inner : Fragment} (h : Masked groups o s)
    (hfront : '&' ∉ o.front) (hgroup : o.firstGroup? = some inner) :
    ∃ interior, placeholderInterior? s = some interior ∧
      groups.resolve interior = .ok inner := by
  obtain ⟨index, rest, rfl, hindex⟩ := h.eq_front_append hgroup
  exact ⟨_, placeholderInterior?_append hfront index rest, Groups.resolve_toDigits hindex⟩

theorem eq_nil_iff (h : Masked groups o s) : s = [] ↔ o = [] := by
  cases h <;> simp [placeholder]

/-- Behind a typed `&` in front of a group a placeholder is found that leads nowhere: it ends at a
typed `;` or holds the `&` of the group. -/
theorem exists_placeholderInterior?_of_typed {inner : Fragment} (h : Masked groups o s)
    (htext : TypesNoPlaceholder o.text) (hplus : '+' ∉ s) (hfront : '&' ∈ o.front)
    (hgroup : o.firstGroup? = some inner) :
    ∃ interior, placeholderInterior? s = some interior ∧ placeholderIndex? interior = none := by
  obtain ⟨index, rest, rfl, -⟩ := h.eq_front_append hgroup
  obtain ⟨a, b, hab, ha, -⟩ := Text.exists_firstCut? hfront
  by_cases hsemi : ';' ∈ b
  · obtain ⟨c, d, rfl, hc, -⟩ := Text.exists_firstCut? hsemi
    have hassoc : o.front ++ placeholder index ++ rest =
        a ++ '&' :: (c ++ ';' :: (d ++ (placeholder index ++ rest))) := by simp [hab]
    have hsub : '&' :: (c ++ [';']) <:+: o.front := ⟨a, d, by simp [hab]⟩
    refine ⟨c, by rw [hassoc, placeholderInterior?_cons ha hc], ?_⟩
    exact htext c (fun hmem => hplus (by simp [hab, hmem]))
      (hsub.trans o.front_isPrefix_text.isInfix)
  -- the `;` that is found is that of the group, behind the `&` that has been typed
  · have hassoc : o.front ++ placeholder index ++ rest =
        a ++ '&' :: ((b ++ '&' :: Nat.toDigits 10 index) ++ ';' :: rest) := by
      simp [hab, placeholder]
    have hinterior : ';' ∉ b ++ '&' :: Nat.toDigits 10 index := by
      simp [hsemi, semicolon_notMem_toDigits index]
    exact ⟨_, by rw [hassoc, placeholderInterior?_cons ha hinterior],
      placeholderIndex?_of_mem_open (by simp)⟩

/-- A masked fragment begins with what stands in front of the first group. -/
theorem exists_eq_front_append (h : Masked groups o s) : ∃ rest, s = o.front ++ rest := by
  cases hgroup : o.firstGroup? with
  | none => exact ⟨[], by rw [h.eq_front hgroup, List.append_nil]⟩
  | some inner =>
    obtain ⟨index, rest, rfl, -⟩ := h.eq_front_append hgroup
    exact ⟨_, List.append_assoc _ _ _⟩

/-- A placeholder that leads to a text is that of the first group, or it is typed. -/
theorem group_or_typed (h : Masked groups o s) {interior text : Fragment}
    (hinterior : placeholderInterior? s = some interior)
    (hresolve : groups.resolve interior = .ok text) :
    ('&' ∉ o.front ∧ o.firstGroup? = some text) ∨
      ∃ a b, o.front = a ++ '&' :: (interior ++ ';' :: b) ∧ '&' ∉ a ∧ ';' ∉ interior := by
  obtain ⟨l, r, hs, hl, hsemi⟩ := placeholderInterior?_eq_some hinterior
  have hamp := Groups.amp_notMem_of_resolve hresolve
  cases hgroup : o.firstGroup? with
  | none =>
    rw [h.eq_front hgroup] at hs
    exact Or.inr ⟨l, r, hs, hl, hsemi⟩
  | some inner =>
    by_cases hfront : '&' ∈ o.front
    · obtain ⟨index, rest, hs', -⟩ := h.eq_front_append hgroup
      obtain ⟨a, b, hab, ha, -⟩ := Text.exists_firstCut? hfront
      rw [hs', hab] at hinterior
      by_cases hb : ';' ∈ b
      · obtain ⟨c, d, rfl, hc, -⟩ := Text.exists_firstCut? hb
        have hassoc : a ++ '&' :: (c ++ ';' :: d) ++ placeholder index ++ rest =
            a ++ '&' :: (c ++ ';' :: (d ++ (placeholder index ++ rest))) := by simp
        rw [hassoc, placeholderInterior?_cons ha hc] at hinterior
        obtain rfl := Option.some.inj hinterior
        exact Or.inr ⟨a, d, hab, ha, hc⟩
      · -- the `;` that is found would be that of the group, behind its `&`
        have hassoc : a ++ '&' :: b ++ placeholder index ++ rest =
            a ++ '&' :: ((b ++ '&' :: Nat.toDigits 10 index) ++ ';' :: rest) := by
          simp [placeholder]
        have hc : ';' ∉ b ++ '&' :: Nat.toDigits 10 index := by
          simp [hb, semicolon_notMem_toDigits index]
        rw [hassoc, placeholderInterior?_cons ha hc] at hinterior
        obtain rfl := Option.some.inj hinterior
        exact absurd (by simp) hamp
    · obtain ⟨interior', hinterior', hresolve'⟩ := h.exists_placeholderInterior? hfront hgroup
      rw [hinterior] at hinterior'
      obtain rfl := Option.some.inj hinterior'
      rw [hresolve] at hresolve'
      exact Or.inl ⟨hfront, congrArg some (Except.ok.inj hresolve').symm⟩

/-- While no placeholder is typed, one that leads to a text is that of the first group. -/
theorem firstGroup?_of_resolve (h : Masked groups o s) (htext : TypesNoPlaceholder o.text)
    (hplus : '+' ∉ s) {interior text : Fragment}
    (hinterior : placeholderInterior? s = some interior)
    (hresolve : groups.resolve interior = .ok text) : o.firstGroup? = some text := by
  rcases h.group_or_typed hinterior hresolve with ⟨-, hgroup⟩ | ⟨a, b, hab, -, -⟩
  · exact hgroup
  · have hsub : '&' :: (interior ++ [';']) <:+: o.front := ⟨a, b, by simp [hab]⟩
    obtain ⟨l, r, rfl, -, -⟩ := placeholderInterior?_eq_some hinterior
    have hindex := htext interior (fun hmem => hplus (by simp [hmem]))
      (hsub.trans o.front_isPrefix_text.isInfix)
    rw [groups.resolve_of_index_eq_none hindex] at hresolve
    exact nomatch hresolve

/-- A fragment that is nothing but a placeholder has no group, or it is one group. -/
theorem eq_singleton_of_placeholder {interior : Fragment} (h : Masked groups o s)
    (hs : s = '&' :: (interior ++ [';'])) (hamp : '&' ∉ interior) (hsemi : ';' ∉ interior) :
    o.firstGroup? = none ∨ ∃ inner, o = [.group inner] ∧ groups.resolve interior = .ok inner := by
  cases h with
  | nil => exact nomatch hs
  | @plain c o s _ h =>
    left
    obtain ⟨-, rfl⟩ := List.cons.inj hs
    cases hgroup : firstGroup? o with
    | none => exact hgroup
    | some inner =>
      -- the `&` of the group would be in the interior
      obtain ⟨index, rest, hs, -⟩ := h.eq_front_append hgroup
      have hmem : '&' ∈ interior ++ [';'] := by simp [hs, placeholder]
      exact absurd (by simpa using hmem) hamp
  | @group index inner o s hindex h =>
    right
    have hinterior := placeholderInterior?_append List.not_mem_nil index s
    rw [List.nil_append, hs] at hinterior
    have hinterior' := placeholderInterior?_cons (a := []) List.not_mem_nil hsemi []
    obtain rfl : interior = Nat.toDigits 10 index :=
      Option.some.inj (hinterior'.symm.trans hinterior)
    obtain rfl : s = [] := by
      have hlen := congrArg List.length hs
      simp only [List.length_append, length_placeholder, List.length_cons, List.length_nil] at hlen
      exact List.length_eq_zero_iff.mp (by omega)
    obtain rfl := h.eq_nil_iff.mp rfl
    exact ⟨inner, rfl, Groups.resolve_toDigits hindex⟩

/-- One group alone is a blank group if it is blank inside. -/
theorem isBlankGroup_of_singleton (h : Masked groups o s) {inner : Fragment}
    (ho : o.trim = [.group inner]) : Parser.isBlankGroup groups s = inner.allBlank := by
  have htrim := h.trim
  rw [ho] at htrim
  unfold Parser.isBlankGroup
  generalize s.trim = t at htrim
  cases htrim with
  | @group index _ _ t hindex hnil =>
    obtain rfl := hnil.eq_nil_iff.mpr rfl
    have hinterior := placeholderInterior?_append List.not_mem_nil index []
    rw [List.nil_append] at hinterior
    rw [hinterior]
    simp [length_placeholder, Groups.resolve_toDigits hindex]

/-- A fragment is nothing but a placeholder just when the group is the whole outline. -/
theorem isBlankGroup_eq (h : Masked groups o s) (htext : TypesNoPlaceholder o.text)
    (hplus : '+' ∉ s) : Parser.isBlankGroup groups s = o.isBlankGroup := by
  have hplus' : '+' ∉ s.trim := fun hmem => hplus ((Text.trimBy_sublist s).mem hmem)
  rw [Bool.eq_iff_iff]
  constructor
  · intro hblank
    obtain ⟨interior, text, hs, hsemi, hresolve, hempty⟩ := Parser.isBlankGroup_iff.mp hblank
    have hinterior : placeholderInterior? s.trim = some interior := by
      rw [hs]
      exact placeholderInterior?_cons (a := []) List.not_mem_nil hsemi []
    have hgroup := h.trim.firstGroup?_of_resolve
      (htext.of_isInfix (o.trim_isInfix.flatMap Piece.text)) hplus' hinterior hresolve
    -- the placeholder is that of a group, since none is typed
    rcases h.trim.eq_singleton_of_placeholder hs (Groups.amp_notMem_of_resolve hresolve) hsemi with
      hnone | ⟨inner, ho, -⟩
    · rw [hgroup] at hnone
      exact nomatch hnone
    · rw [h.isBlankGroup_of_singleton ho] at hblank
      rwa [isBlankGroup, ho]
  · intro hblank
    unfold isBlankGroup at hblank
    split at hblank
    · rename_i inner ho
      rwa [h.isBlankGroup_of_singleton ho]
    · exact nomatch hblank

/-- Without an operator in the outline, no `+` is in the fragment. -/
theorem plus_notMem (h : Masked groups o s) (hop : o.loosestIn? = none) : '+' ∉ s := by
  rw [← h.loosestIn?_eq, Operator.loosestIn?, List.find?_eq_none] at hop
  have hadd := hop .add (by decide)
  rwa [decide_eq_true_iff] at hadd

variable {vocabulary : Vocabulary α}
  (hnames : ∀ name ∈ vocabulary.names, '&' ∉ name.toList)
include hnames

/-- A function name in front of a placeholder is a name in front of the group. -/
theorem functionAt?_eq (h : Masked groups o s) :
    vocabulary.functionAt? s = vocabulary.functionAt? o.front := by
  cases hgroup : o.firstGroup? with
  | none => rw [h.eq_front hgroup]
  | some inner =>
    obtain ⟨index, rest, rfl, -⟩ := h.eq_front_append hgroup
    rw [List.append_assoc]
    exact Vocabulary.functionAt?_append_cons hnames _ _

/-- As for functions, only what stands in front of the first group counts. -/
theorem constantAt?_eq (h : Masked groups o s) :
    vocabulary.constantAt? s = vocabulary.constantAt? o.front := by
  cases hgroup : o.firstGroup? with
  | none => rw [h.eq_front hgroup]
  | some inner =>
    obtain ⟨index, rest, rfl, -⟩ := h.eq_front_append hgroup
    rw [List.append_assoc]
    exact Vocabulary.constantAt?_append_cons hnames _ _

end Masked

/-! ### One step -/

variable [Zero α] [Numeral α] {vocabulary : Vocabulary α}

/-- The operands are read to the same trees, which the parser orients afterwards. -/
theorem operands_agree (operator : Operator) {depth : Nat} {st : State α}
    {ps : List Outline.Operand} {qs : List Formula.Operand}
    (h : List.Forall₂ (Masked.MaskedOperand st.groups) ps qs)
    (hparts : ∀ p ∈ ps, ∀ (s : Fragment) (st' : State α), Masked st'.groups p.outline s →
      Agree st'.groups Eq ((read vocabulary p.outline).run st'.vars)
        ((fragment vocabulary depth s).run st')) :
    Agree st.groups
      (fun xs ys => xs = qs.zipWith (fun q tree => operator.orient q.inverted tree) ys)
      ((ps.mapM fun operand : Outline.Operand => do
        let tree ← read vocabulary operand.outline
        return operator.orient operand.inverted tree).run st.vars)
      (((qs.map Operand.text).mapM (fragment vocabulary depth)).run st) := by
  induction ps generalizing qs st with
  | nil =>
    cases h
    exact .ok rfl (.refl _)
  | cons p ps ih =>
    cases h with
    | @cons _ q _ qs hhead htail =>
      rw [List.map_cons, List.mapM_cons, List.mapM_cons]
      simp only [Parser.bind_run, bind_assoc, pure_bind]
      refine (hparts p List.mem_cons_self q.text st hhead.2).bind ?_
      rintro tree _ st₁ rfl hext
      -- the other operands are masked as before, although there are more groups by now
      have htail' : List.Forall₂ (Masked.MaskedOperand st₁.groups) ps qs :=
        htail.imp fun _ _ hpart => ⟨hpart.1, hpart.2.mono hext⟩
      refine (ih htail' fun p hp => hparts p (List.mem_cons_of_mem _ hp)).bind ?_
      rintro trees trees' st₂ rfl hext'
      exact .ok (by simp [hhead.1]) (.refl _)

/-- A masked outline is read like the outline, if its parts are. -/
theorem readHidden_agrees (hnames : ∀ name ∈ vocabulary.names, '&' ∉ name.toList) {depth : Nat}
    (st : State α) {o : Outline} {s : Fragment} (h : Masked st.groups o.trim s)
    (htext : '&' ∉ o.trim.text) (hlen : o.trim.text.length ≤ depth)
    (hfragment : ∀ (p : Outline) (t : Fragment) (st' : State α), Masked st'.groups p t →
      '&' ∉ p.text → p.text.length < depth →
      Agree st'.groups Eq ((read vocabulary p).run st'.vars)
        ((fragment vocabulary depth t).run st'))
    (hgroup : ∀ t : Fragment, '&' ∉ t → t.length < depth →
      Agree st.groups Eq ((ofText t.trim).bind fun p => (read vocabulary p).run st.vars)
        ((fragment vocabulary depth t).run st)) :
    Agree st.groups Eq ((read vocabulary o).run st.vars)
      ((readHidden vocabulary depth s).run st) := by
  rw [read_eq, Parser.readHidden_run, recognise, h.loosestIn?_eq]
  generalize o.trim = o at h htext hlen
  cases hop : o.loosestIn? with
  | some operator =>
    -- the operands are masked again, and shorter
    have hmark := mem_of_loosestIn? hop
    have hparts : ∀ p ∈ operands operator o, ∀ (t : Fragment) (st' : State α),
        Masked st'.groups p.outline t →
        Agree st'.groups Eq ((read vocabulary p.outline).run st'.vars)
          ((fragment vocabulary depth t).run st') := by
      intro p hp t st' hmasked
      have hlt := operand_text_lt hmark hp
      exact hfragment _ _ _ hmasked (amp_notMem_of_sublist (operands_sublist hmark hp) htext)
        (by omega)
    refine (operands_agree operator (h.operands operator) hparts).bind ?_
    rintro _ trees st₁ rfl hext
    dsimp only [Reading.assemble]
    cases operator.assemble? ((operator.operands s).zipWith
      (fun q tree => operator.orient q.inverted tree) trees) with
    | some tree => exact .ok rfl (.refl _)
    | none => exact .error (.unexpectedEnd h)
  | none =>
  dsimp only
  rw [Parser.interpretOperand_run, h.functionAt?_eq hnames]
  cases hfun : vocabulary.functionAt? o.front with
  | some entry =>
    obtain ⟨name, apply⟩ := entry
    -- the name stands in front of the first group, so that its argument is masked
    obtain ⟨hpos, hle⟩ := Vocabulary.functionAt?_length hfun
    have hdrop := h.drop hle
    have htext' := amp_notMem_of_sublist (List.drop_sublist name.length o) htext
    dsimp only
    have hplus := fun hmem => h.plus_notMem hop ((List.drop_sublist name.length s).mem hmem)
    rw [hdrop.isBlankGroup_eq (.of_notMem (Or.inl htext')) hplus]
    split
    · exact .ok rfl (.refl _)
    · have hlt := drop_text_lt hpos hle
      rw [Except.bind, Parser.call_run, Parser.bind_run]
      refine (hfragment _ _ st hdrop htext' (by omega)).bind ?_
      rintro tree _ st₁ rfl -
      exact .ok rfl (.refl _)
  | none =>
  dsimp only
  rw [h.constantAt?_eq hnames]
  cases vocabulary.constantAt? o.front with
  | some entry => exact .ok rfl (.refl _)
  | none =>
  dsimp only
  cases hfirst : o.firstGroup? with
  | some inner =>
    -- the group comes back as it was written, with brackets in it
    obtain ⟨interior, hinterior, hresolve⟩ :=
      h.exists_placeholderInterior? (amp_notMem_front htext) hfirst
    have hlt := firstGroup?_text_lt hfirst
    have hagree := hgroup inner (amp_notMem_group htext hfirst) (by omega)
    rw [hinterior]
    dsimp only
    rw [hresolve, Except.map, Except.bind, Parser.group_run]
    cases hinner : ofText inner.trim with
    | ok p =>
      rw [hinner] at hagree
      exact hagree
    | error e =>
      rw [hinner] at hagree
      exact hagree
  | none =>
  dsimp only
  -- nothing is masked: both look at the same characters
  rw [h.placeholderInterior?_eq_none htext hfirst, h.eq_text hfirst]
  cases (Parser.number? o.text : Option α) with
  | some value => exact .ok rfl (.refl _)
  | none =>
  dsimp only
  split
  · set r := st.vars.intern (String.ofList o.text) with hr
    show Agree st.groups Eq (.ok (Tree.var r.1, r.2)) (.ok (Tree.var r.1, ⟨st.groups, r.2⟩))
    exact @Agree.ok _ _ _ _ Eq _ _ ⟨st.groups, r.2⟩ rfl (.refl _)
  · rw [h.eq_text hfirst] at h
    exact .error (.unexpectedEnd h)

/-! ### The whole text -/

/-- A masked outline has no group left to set aside. -/
theorem Masked.fragment_run {st : State α} {o : Outline} {s : Fragment}
    (h : Masked st.groups o s) (depth : Nat) :
    (fragment vocabulary (depth + 1) s).run st = (readHidden vocabulary depth s.trim).run st := by
  have htrim : (Fragment.trim (Fragment.trim s)) = Fragment.trim s := Text.trimBy_trimBy s
  rw [Parser.fragment_run_hidden, h.trim.setAside, Except.bind, htrim]

/-- A text is read like its outline when the groups have been set aside. -/
theorem exists_fragment_run {s : Fragment} {o : Outline} (h : ofText s.trim = .ok o)
    (st : State α) (depth : Nat) :
    ∃ groups m, st.groups.Extends groups ∧ Masked groups o m ∧
      (fragment vocabulary (depth + 1) s).run st =
        (readHidden vocabulary depth (Fragment.trim m)).run ⟨groups, st.vars⟩ := by
  obtain ⟨m, hm, hmasked⟩ := setAside_of_ofText h st.groups
  refine ⟨_, m, setAside_extends st.groups s.trim, hmasked, ?_⟩
  rw [Parser.fragment_run_hidden, hm]
  rfl

/-- A text without an outline is not read, with the error that the outline has. -/
theorem fragment_run_error {s : Fragment} {error : SyntaxError} (h : ofText s.trim = .error error)
    (st : State α) (depth : Nat) :
    ∃ groups error', MaskedError groups error error' ∧
      (fragment vocabulary (depth + 1) s).run st = .error error' := by
  obtain ⟨error', herror', hmasked⟩ := setAside_of_ofText_error h st.groups
  refine ⟨_, error', hmasked, ?_⟩
  rw [Parser.fragment_run_hidden, herror']
  rfl

/-- The parser and the reader of outlines agree on every masked outline, and on every text with its
brackets still in it, if their depth bound is larger than the text. -/
theorem fragment_agrees_and_text_agrees
    (hnames : ∀ name ∈ vocabulary.names, '&' ∉ name.toList) (depth : Nat) :
    (∀ (o : Outline) (s : Fragment) (st : State α), Masked st.groups o s → '&' ∉ o.text →
      o.text.length < depth →
      Agree st.groups Eq ((read vocabulary o).run st.vars)
        ((fragment vocabulary depth s).run st)) ∧
    ∀ (s : Fragment) (st : State α), '&' ∉ s → s.length < depth →
      Agree st.groups Eq ((ofText s.trim).bind fun o => (read vocabulary o).run st.vars)
        ((fragment vocabulary depth s).run st) := by
  induction depth with
  | zero =>
    constructor
    · intro o s st _ _ hlen
      omega
    · intro s st _ hlen
      omega
  | succ depth ih =>
    obtain ⟨ihmasked, ihtext⟩ := ih
    constructor
    · intro o s st h htext hlen
      have hle := length_text_le_of_sublist o.trim_sublist
      have htext' := amp_notMem_of_sublist o.trim_sublist htext
      rw [h.fragment_run]
      exact readHidden_agrees hnames st h.trim htext' (by omega) ihmasked
        fun t ht hlt => ihtext t st ht hlt
    · intro s st htext hlen
      have hsub : List.Sublist s.trim s := Text.trimBy_sublist s
      cases ho : ofText s.trim with
      | error e =>
        obtain ⟨groups, e', herror, hrun⟩ := fragment_run_error ho st depth
        rw [hrun]
        exact .error herror
      | ok o =>
        obtain ⟨groups, m, hext, hmasked, hrun⟩ := exists_fragment_run ho st depth
        rw [hrun]
        have hle := length_text_le_of_sublist o.trim_sublist
        rw [text_of_ofText ho] at hle
        have hle' := hsub.length_le
        have htext' : '&' ∉ o.text := by
          rw [text_of_ofText ho]
          exact fun hmem => htext (hsub.mem hmem)
        -- what is left has a shorter text, and the groups of the state are among its own
        refine Agree.mono hext ?_
        exact readHidden_agrees hnames ⟨groups, st.vars⟩ hmasked.trim
          (amp_notMem_of_sublist o.trim_sublist htext') (by omega) ihmasked
          fun t ht hlt => ihtext t _ ht hlt

section Parse

variable (hnames : ∀ name ∈ vocabulary.names, '&' ∉ name.toList) {text : String}
  (htext : '&' ∉ text.toList)
include hnames htext

theorem parse_agrees :
    Agree (State.initial : State α).groups Eq (parse vocabulary text)
      ((fragment vocabulary (Parser.depthBound vocabulary text.toList) text.toList).run
        .initial) := by
  have hlen : text.toList.length < Parser.depthBound vocabulary text.toList :=
    lt_of_le_of_lt (Parser.length_le_byteLength _) (Parser.byteLength_lt_depthBound _ _)
  exact (fragment_agrees_and_text_agrees hnames _).2 text.toList .initial htext hlen

/-- The parser and the reader of outlines find the same tree and variables, or the same fault: the
parser shows it at a fragment in which placeholders stand for the groups. -/
theorem parse_eq_ok_iff_outline :
    (∀ result, Parser.parse vocabulary text = .ok result ↔
      parse vocabulary text = .ok result) ∧
    ∀ error', Parser.parse vocabulary text = .error error' →
      ∃ error groups, parse vocabulary text = .error error ∧
        MaskedError groups error error' ∧ error.code? = error'.code? := by
  have hagree := parse_agrees hnames htext
  rw [Parser.parse_eq_map]
  generalize parse vocabulary text = x at hagree ⊢
  generalize (fragment vocabulary _ text.toList).run .initial = y at hagree ⊢
  cases hagree with
  | @ok tree tree' st hsame hext =>
    subst hsame
    exact ⟨fun result => Iff.rfl, fun _ herror => (nomatch herror)⟩
  | @error _ e e' h =>
    refine ⟨fun result => ⟨fun hok => (nomatch hok), fun hok => (nomatch hok)⟩, ?_⟩
    intro error' herror
    obtain rfl : e' = error' := Except.error.inj herror
    exact ⟨e, _, rfl, h, h.code_eq⟩

end Parse

/-- A text with two groups, one inside the other. -/
theorem parse_eq_ok_iff_outline_standard :
    (∀ name ∈ (Vocabulary.standard 0.5).names, '&' ∉ name.toList) ∧
      '&' ∉ "2*sqrt(x+(1))".toList ∧
      (∀ result, Parser.parse (Vocabulary.standard 0.5) "2*sqrt(x+(1))" = .ok result ↔
        parse (Vocabulary.standard 0.5) "2*sqrt(x+(1))" = .ok result) ∧
      ∀ error', Parser.parse (Vocabulary.standard 0.5) "2*sqrt(x+(1))" = .error error' →
        ∃ error groups, parse (Vocabulary.standard 0.5) "2*sqrt(x+(1))" = .error error ∧
          MaskedError groups error error' ∧ error.code? = error'.code? := by
  have hnames := Vocabulary.amp_notMem_standard 0.5
  have htext : '&' ∉ "2*sqrt(x+(1))".toList := by decide
  exact ⟨hnames, htext, parse_eq_ok_iff_outline hnames htext⟩

end Formula.Outline
