import Formula.Proofs.Outline.Numbers

/-!
# How deep fragments are nested

The bound on the nesting of fragments is no part of the language: `fragment_mono` says that a larger
bound changes nothing once reading has not stopped at the smaller one.

A text in which no `&` or no `;` is typed needs no more depth than it has characters
(`fragment_ne_endless`), nor does a text in which no placeholder is typed. The measure of a fragment
is the length of the text it stands for (`Stands`), with groups in place of placeholders, and every
part of a fragment stands for a shorter text (`parts_stand`), unless a placeholder that is typed in
the text leads to it (`parts_stand_or_typed`): this is how a reading without end could come about.
-/

namespace Formula.Parser

open Outline (Masked)

/-! ### Runs over several fragments -/

section Runs

variable {σ ε α β : Type} {f g : α → StateT σ (Except ε) β} {as : List α} {st : σ} {e : ε}

/-- Several steps agree where each does, as long as there is no error of the one kind. -/
theorem mapM_eq_of_ne_error
    (hfg : ∀ a st, (f a).run st ≠ .error e → (g a).run st = (f a).run st)
    (h : (as.mapM f).run st ≠ .error e) : (as.mapM g).run st = (as.mapM f).run st := by
  induction as generalizing st with
  | nil => rfl
  | cons a as ih =>
    rw [mapM_cons_run] at h
    have ha : (f a).run st ≠ .error e := by
      intro hf
      rw [hf] at h
      exact h rfl
    rw [mapM_cons_run, mapM_cons_run, hfg a st ha]
    -- the first part has no such error; where it has another one, the others are not read
    rcases hb : (f a).run st with e' | ⟨b, st'⟩
    · rfl
    · have has : (as.mapM f).run st' ≠ .error e := by
        intro hf
        rw [hb] at h
        simp [Except.bind, hf] at h
      simp only [Except.bind, ih has]

/-- An error is the error of one of the steps when those before it have succeeded. -/
theorem exists_append_of_mapM_error (h : (as.mapM f).run st = .error e) :
    ∃ before a after bs st', as = before ++ a :: after ∧
      (before.mapM f).run st = .ok (bs, st') ∧ (f a).run st' = .error e := by
  induction as generalizing st with
  | nil => exact nomatch h
  | cons a as ih =>
    rw [List.mapM_cons, bind_eq_error] at h
    rcases h with ha | ⟨b, st₁, ha, h⟩
    · exact ⟨[], a, as, [], st, rfl, rfl, ha⟩
    · rcases bind_eq_error.mp h with has | ⟨bs, st₂, -, h⟩
      · obtain ⟨before, a', after, bs, st', rfl, hbefore, herror⟩ := ih has
        exact ⟨a :: before, a', after, b :: bs, st', rfl,
          mapM_cons_eq_ok.mpr ⟨b, st₁, bs, ha, hbefore, rfl⟩, herror⟩
      · exact nomatch h

variable {R : σ → σ → Prop} (hrefl : ∀ st, R st st)
  (htrans : ∀ {st₁ st₂ st₃}, R st₁ st₂ → R st₂ st₃ → R st₁ st₃)
  (hstep : ∀ a st b st', (f a).run st = .ok (b, st') → R st st')
include hrefl htrans hstep

/-- What every step can reach, all of them together can reach. -/
theorem reaches_of_mapM {bs : List β} {st' : σ} (h : (as.mapM f).run st = .ok (bs, st')) :
    R st st' := by
  induction as generalizing st bs with
  | nil =>
    obtain ⟨-, rfl⟩ := Prod.mk.inj (Except.ok.inj h)
    exact hrefl st
  | cons a as ih =>
    obtain ⟨b, st₁, bs', ha, has, rfl⟩ := mapM_cons_eq_ok.mp h
    exact htrans (hstep a st b st₁ ha) (ih has)

/-- An error is the error of one of the steps, at a state that those before it can reach. -/
theorem exists_of_mapM_error (h : (as.mapM f).run st = .error e) :
    ∃ a ∈ as, ∃ st', R st st' ∧ (f a).run st' = .error e := by
  obtain ⟨before, a, after, bs, st', rfl, hbefore, herror⟩ := exists_append_of_mapM_error h
  exact ⟨a, by simp, st', reaches_of_mapM hrefl htrans hstep hbefore, herror⟩

end Runs

variable {α : Type} [Zero α] [Numeral α] {vocabulary : Vocabulary α}

/-- A larger bound changes nothing once reading has not stopped at the smaller one. -/
theorem fragment_mono {depth depth' : Nat} (hle : depth ≤ depth') {s : Fragment} {st : State α}
    (h : (fragment vocabulary depth s).run st ≠ .error .endlessExpansion) :
    (fragment vocabulary depth' s).run st = (fragment vocabulary depth s).run st := by
  induction depth generalizing depth' s st with
  | zero => exact absurd (fragment_zero s st) h
  | succ depth ih =>
    obtain ⟨depth', rfl⟩ := Nat.exists_eq_add_of_le' hle
    have hle' : depth ≤ depth' + depth := by omega
    rw [← Nat.add_assoc, fragment_run, fragment_run]
    rw [fragment_run] at h
    rcases hstep : (interpret vocabulary s).run st with e | ⟨reading, st₁⟩
    · rfl
    · have hparts : (reading.parts.mapM (fragment vocabulary depth)).run st₁ ≠
          .error .endlessExpansion := by
        intro hparts
        rw [hstep] at h
        simp [Except.bind, hparts] at h
      -- the parts did not stop at the smaller bound either
      have hsame := mapM_eq_of_ne_error (g := fragment vocabulary (depth' + depth))
        (fun s st hs => ih hle' hs) hparts
      simp only [Except.bind, hsame]

/-- What is read one after another within a bound is read within a larger one. -/
theorem mapM_fragment_mono {depth depth' : Nat} (hle : depth ≤ depth') {parts : List Fragment}
    {st : State α} {r : List (Tree α) × State α}
    (h : (parts.mapM (fragment vocabulary depth)).run st = .ok r) :
    (parts.mapM (fragment vocabulary depth')).run st = .ok r := by
  rw [← h]
  refine mapM_eq_of_ne_error (e := .endlessExpansion) (fun s st hs => fragment_mono hle hs) ?_
  rw [h]
  exact nofun

/-! ### Groups are kept -/

theorem Interprets.groups_eq {st st' : State α} {s : Fragment} {reading : Reading α}
    (h : Interprets vocabulary st s reading st') : st'.groups = st.groups := by
  cases h <;> rfl

/-- A step sets the groups of the fragment aside, and no others. -/
theorem interpret_groups_eq {s : Fragment} {st st' : State α} {reading : Reading α}
    (h : (interpret vocabulary s).run st = .ok (reading, st')) :
    st'.groups = (st.groups.setAside s.trim).2 := by
  obtain ⟨hidden, -, hrule⟩ := interpret_eq_ok h
  exact hrule.groups_eq

theorem interpret_extends {s : Fragment} {st st' : State α} {reading : Reading α}
    (h : (interpret vocabulary s).run st = .ok (reading, st')) : st.groups.Extends st'.groups := by
  rw [interpret_groups_eq h]
  exact Outline.setAside_extends st.groups s.trim

/-- Reading takes no group away. -/
theorem fragment_extends {depth : Nat} {s : Fragment} {st st' : State α} {tree : Tree α}
    (h : (fragment vocabulary depth s).run st = .ok (tree, st')) :
    st.groups.Extends st'.groups := by
  induction depth generalizing s st st' tree with
  | zero => exact nomatch (fragment_zero s st).symm.trans h
  | succ depth ih =>
    obtain ⟨reading, st₁, trees, hstep, hparts, -⟩ := fragment_eq_ok.mp h
    refine (interpret_extends hstep).trans ?_
    exact reaches_of_mapM (R := fun st st' => st.groups.Extends st'.groups)
      (fun st => .refl st.groups) .trans (fun s st tree st' hs => ih hs) hparts

theorem mapM_fragment_extends {depth : Nat} {parts : List Fragment} {st st' : State α}
    {trees : List (Tree α)}
    (h : (parts.mapM (fragment vocabulary depth)).run st = .ok (trees, st')) :
    st.groups.Extends st'.groups :=
  reaches_of_mapM (R := fun st st' => st.groups.Extends st'.groups) (fun st => .refl st.groups)
    .trans (fun _ _ _ _ hs => fragment_extends hs) h

/-! ### Texts without a mark -/

/-- Whether one of the two marks of a placeholder is missing in the text. -/
def LacksMark (text : Fragment) : Prop := '&' ∉ text ∨ ';' ∉ text

theorem LacksMark.sublist {s t : Fragment} (hsub : List.Sublist s t) (h : LacksMark t) :
    LacksMark s :=
  h.imp (fun ht hs => ht (hsub.mem hs)) fun ht hs => ht (hsub.mem hs)

theorem LacksMark.typesNoPlaceholder {s : Fragment} (h : LacksMark s) : TypesNoPlaceholder s :=
  .of_notMem h

/-! ### What fragments stand for -/

/-- `Stands groups text s` says that the fragment `s` is a text, or a text with its groups set
aside. -/
def Stands (groups : Groups) (text s : Fragment) : Prop :=
  s = text ∨ ∃ o : Outline, o.text = text ∧ Masked groups o s

theorem Stands.mono {groups groups' : Groups} {text s : Fragment}
    (hext : groups.Extends groups') (h : Stands groups text s) : Stands groups' text s :=
  h.imp_right fun ⟨o, ho, hs⟩ => ⟨o, ho, hs.mono hext⟩

/-- With its groups set aside, a fragment is the outline of a part of its text. -/
theorem Stands.masked {groups : Groups} {text s hidden : Fragment} (h : Stands groups text s)
    (hhidden : (groups.setAside s.trim).1 = .ok hidden) :
    ∃ o : Outline, o.text <:+: text ∧
      Masked (groups.setAside s.trim).2 o (Fragment.trim hidden) := by
  -- the fragment is read for the first time, or it is masked already
  rcases h with rfl | ⟨o, rfl, hs⟩
  · have hsub : s.trim <:+: s := Text.trimBy_isInfix s
    cases ho : Outline.ofText s.trim with
    | error e =>
      obtain ⟨e', he', -⟩ := Outline.setAside_of_ofText_error ho groups
      rw [hhidden] at he'
      exact nomatch he'
    | ok o =>
      obtain ⟨m, hm, hmasked⟩ := Outline.setAside_of_ofText ho groups
      rw [hhidden] at hm
      obtain rfl := Except.ok.inj hm
      refine ⟨o.trim, ?_, hmasked.trim⟩
      have htrim := o.trim_isInfix.flatMap Piece.text
      rw [← Outline.text_of_ofText ho] at hsub
      exact htrim.trans hsub
  · rw [hs.trim.setAside] at hhidden ⊢
    obtain rfl := Except.ok.inj hhidden
    exact ⟨o.trim.trim, (o.trim.trim_isInfix.trans o.trim_isInfix).flatMap Piece.text, hs.trim.trim⟩

variable {α : Type} [Zero α] [Numeral α] {vocabulary : Vocabulary α}

/-- A masked fragment is read as a group, or else its parts are parts of its outline, masked too and
shorter, and no group is in two of them. -/
theorem Interprets.group_or_masked (hnames : ∀ name ∈ vocabulary.names, '&' ∉ name.toList)
    {groups : Groups} {st st' : State α} {o : Outline} {s : Fragment} {reading : Reading α}
    (h : Interprets vocabulary st s reading st') (hmasked : Masked groups o s) :
    (∃ interior inner, reading = .group inner ∧ Operator.loosestIn? s = none ∧
      placeholderInterior? s = some interior ∧ st'.groups.resolve interior = .ok inner) ∨
    (∀ inner, reading ≠ .group inner) ∧
      ∃ ps : List Outline, List.Forall₂ (Masked groups) ps reading.parts ∧
        List.Sublist (ps.flatMap Outline.inners) o.inners ∧
        ∀ p ∈ ps, p <:+: o ∧ p.text.length < o.text.length := by
  cases h with
  | group hop _ _ hinterior hresolve => exact Or.inl ⟨_, _, rfl, hop, hinterior, hresolve⟩
  | @operation operator hop =>
    have hmark := Outline.mem_of_loosestIn? (hmasked.loosestIn?_eq.symm.trans hop)
    refine Or.inr ⟨nofun, (Outline.operands operator o).map Outline.Operand.outline, ?_,
      Outline.operands_inners_sublist operator o, ?_⟩
    · have hoperands := hmasked.operands operator
      exact List.forall₂_map_left_iff.mpr <| List.forall₂_map_right_iff.mpr <|
        hoperands.imp fun _ _ hpart => hpart.2
    · intro p hp
      obtain ⟨operand, hoperand, rfl⟩ := List.mem_map.mp hp
      exact ⟨Outline.operands_isInfix hmark hoperand, Outline.operand_text_lt hmark hoperand⟩
  | @call name apply _ hname _ =>
    rw [hmasked.functionAt?_eq hnames] at hname
    obtain ⟨hpos, hfront⟩ := Vocabulary.functionAt?_length hname
    refine Or.inr ⟨nofun, [o.drop name.length], .cons (hmasked.drop hfront) .nil, ?_, ?_⟩
    · simpa using Outline.inners_sublist (List.drop_sublist name.length o)
    · intro p hp
      obtain rfl := List.mem_singleton.mp hp
      exact ⟨(List.drop_suffix _ o).isInfix, Outline.drop_text_lt hpos hfront⟩
  | emptyCall | constant | number | var =>
    exact Or.inr ⟨nofun, [], .nil, List.nil_sublist _, fun p hp => absurd hp List.not_mem_nil⟩

/-- Every part of a fragment stands for a shorter part of its text, unless a placeholder that is
typed in the text leads to it. -/
theorem parts_stand_or_typed (hnames : ∀ name ∈ vocabulary.names, '&' ∉ name.toList)
    {st st' : State α} {text s : Fragment} {reading : Reading α} (h : Stands st.groups text s)
    (hstep : (interpret vocabulary s).run st = .ok (reading, st')) :
    ∀ part ∈ reading.parts,
      (∃ text', Stands st'.groups text' part ∧ text' <:+: text ∧ text'.length < text.length) ∨
      ∃ interior, '&' :: (interior ++ [';']) <:+: text ∧ '+' ∉ interior ∧ ';' ∉ interior ∧
        st'.groups.resolve interior = .ok part := by
  obtain ⟨hidden, hhidden, hrule⟩ := interpret_eq_ok hstep
  obtain ⟨o, hsub, hmasked⟩ := h.masked hhidden
  have hle := hsub.length_le
  rw [← interpret_groups_eq hstep] at hmasked
  intro part hpart
  rcases hrule.group_or_masked hnames hmasked with
    ⟨interior, inner, rfl, hop, hinterior, hresolve⟩ | ⟨-, ps, hparts, -, hps⟩
  · obtain rfl := List.mem_singleton.mp hpart
    rcases hmasked.group_or_typed hinterior hresolve with ⟨-, hgroup⟩ | ⟨a, b, hab, -, hsemi⟩
    · have hlt := Outline.firstGroup?_text_lt hgroup
      exact Or.inl ⟨part, Or.inl rfl, (Outline.group_isInfix_text hgroup).trans hsub, by omega⟩
    · have hfront : '&' :: (interior ++ [';']) <:+: o.front := ⟨a, b, by simp [hab]⟩
      -- what is split at no `+` holds none
      have hplus := hmasked.plus_notMem (hmasked.loosestIn?_eq.symm.trans hop)
      obtain ⟨l, r, hs, -, -⟩ := placeholderInterior?_eq_some hinterior
      exact Or.inr ⟨interior, hfront.trans (o.front_isPrefix_text.isInfix.trans hsub),
        fun hmem => hplus (by simp [hs, hmem]), hsemi, hresolve⟩
  · obtain ⟨p, hp, hpart⟩ := Outline.exists_of_forall₂ hparts hpart
    obtain ⟨hwithin, hlt⟩ := hps p hp
    exact Or.inl
      ⟨p.text, Or.inr ⟨p, rfl, hpart⟩, (hwithin.flatMap Piece.text).trans hsub, by omega⟩

/-- Every part of a fragment stands for a shorter part of its text. -/
theorem parts_stand (hnames : ∀ name ∈ vocabulary.names, '&' ∉ name.toList)
    {st st' : State α} {text s : Fragment} {reading : Reading α} (h : Stands st.groups text s)
    (htext : TypesNoPlaceholder text)
    (hstep : (interpret vocabulary s).run st = .ok (reading, st')) :
    ∀ part ∈ reading.parts, ∃ text', Stands st'.groups text' part ∧ text' <:+: text ∧
      text'.length < text.length := by
  intro part hpart
  rcases parts_stand_or_typed hnames h hstep part hpart with
    hstands | ⟨interior, htyped, hplus, -, hresolve⟩
  · exact hstands
  · rw [Groups.resolve_of_index_eq_none _ (htext interior hplus htyped)] at hresolve
    exact nomatch hresolve

/-! ### Enough depth -/

theorem setAside_ne_endless (groups : Groups) (s : Fragment) :
    (groups.setAside s).1 ≠ .error .endlessExpansion := by
  rw [Outline.setAside_eq]
  dsimp only
  split <;> exact nofun

/-- A step comes to an end: the mark of a reading without end is no error of its own. -/
theorem interpret_ne_endless (s : Fragment) (st : State α) :
    (interpret vocabulary s).run st ≠ .error .endlessExpansion := by
  intro h
  rcases interpret_eq_error h with herror | ⟨_, herror⟩ | ⟨_, -, herror⟩
  · exact setAside_ne_endless _ _ herror
  · exact nomatch herror
  · exact nomatch herror

omit [Zero α] [Numeral α] in
theorem assemble_ne_endless (reading : Reading α) (trees : List (Tree α)) :
    reading.assemble trees ≠ .error .endlessExpansion := by
  intro h
  obtain ⟨_, herror, -⟩ := assemble_eq_error h
  exact nomatch herror

/-- A fragment needs no more depth than the text it stands for has characters. -/
theorem Stands.fragment_ne_endless (hnames : ∀ name ∈ vocabulary.names, '&' ∉ name.toList)
    {depth : Nat} {text s : Fragment} {st : State α} (h : Stands st.groups text s)
    (htext : TypesNoPlaceholder text) (hdepth : text.length < depth) :
    (fragment vocabulary depth s).run st ≠ .error .endlessExpansion := by
  induction depth generalizing text s st with
  | zero => omega
  | succ depth ih =>
    intro herror
    -- only reading a part can have stopped at the bound
    rcases fragment_eq_error.mp herror with hstep | ⟨reading, st₁, hstep, hparts | hassemble⟩
    · exact interpret_ne_endless s st hstep
    · obtain ⟨part, hpart, st₂, hext, hpart_error⟩ := exists_of_mapM_error
        (R := fun st st' => st.groups.Extends st'.groups) (fun st => .refl st.groups) .trans
        (fun s st tree st' hs => fragment_extends hs) hparts
      obtain ⟨text', hstands, hsub, hlt⟩ := parts_stand hnames h htext hstep part hpart
      exact ih (hstands.mono hext) (htext.of_isInfix hsub) (by omega) hpart_error
    · obtain ⟨trees, st₂, -, hassemble⟩ := hassemble
      exact assemble_ne_endless reading trees hassemble

/-- The bound for texts in which a mark is missing. -/
theorem fragment_ne_endless (hnames : ∀ name ∈ vocabulary.names, '&' ∉ name.toList) {depth : Nat}
    {text s : Fragment} {st : State α} (h : Stands st.groups text s) (htext : LacksMark text)
    (hdepth : text.length < depth) :
    (fragment vocabulary depth s).run st ≠ .error .endlessExpansion :=
  h.fragment_ne_endless hnames htext.typesNoPlaceholder hdepth

/-! ### Chains of calls -/

/-- `Calls vocabulary s st t st'` says that the fragment `t`, read in the state `st'`, is a part of
the fragment `s`, read in the state `st`: the parts in front of it have been read. -/
def Calls (vocabulary : Vocabulary α) (s : Fragment) (st : State α) (t : Fragment)
    (st' : State α) : Prop :=
  ∃ reading st₁ before after depth trees,
    (interpret vocabulary s).run st = .ok (reading, st₁) ∧ reading.parts = before ++ t :: after ∧
      (before.mapM (fragment vocabulary depth)).run st₁ = .ok (trees, st')

/-- `CallChain vocabulary n s st t st'` says that `t` is reached from `s` by `n` calls, each inside
the one before. -/
inductive CallChain (vocabulary : Vocabulary α) :
    Nat → Fragment → State α → Fragment → State α → Prop where
  | refl (s : Fragment) (st : State α) : CallChain vocabulary 0 s st s st
  | step {n : Nat} {s t u : Fragment} {st st' st'' : State α} (hcall : Calls vocabulary s st t st')
    (hchain : CallChain vocabulary n t st' u st'') : CallChain vocabulary (n + 1) s st u st''

/-- The part that is called stands for a shorter text, in the state in which it is read. -/
theorem Calls.stand (hnames : ∀ name ∈ vocabulary.names, '&' ∉ name.toList) {text s t : Fragment}
    {st st' : State α} (h : Stands st.groups text s) (htext : LacksMark text)
    (hcall : Calls vocabulary s st t st') :
    ∃ text', Stands st'.groups text' t ∧ LacksMark text' ∧ text'.length < text.length := by
  obtain ⟨reading, st₁, before, after, depth, trees, hstep, hparts, hbefore⟩ := hcall
  obtain ⟨text', hstands, hsub, hlt⟩ :=
    parts_stand hnames h htext.typesNoPlaceholder hstep t (by simp [hparts])
  exact ⟨text', hstands.mono (mapM_fragment_extends hbefore), htext.sublist hsub.sublist, hlt⟩

/-- Each call leads to a shorter text, so that there are no more calls than characters. -/
theorem CallChain.length_le (hnames : ∀ name ∈ vocabulary.names, '&' ∉ name.toList) {n : Nat}
    {text s t : Fragment} {st st' : State α} (h : Stands st.groups text s) (htext : LacksMark text)
    (hchain : CallChain vocabulary n s st t st') : n ≤ text.length := by
  induction hchain generalizing text with
  | refl => exact Nat.zero_le _
  | step hcall _ ih =>
    obtain ⟨text', hstands, htext', hlt⟩ := hcall.stand hnames h htext
    have hle := ih hstands htext'
    omega

/-! ### The depth of a text -/

/-- A text in which no `&` or no `;` is typed is read with one more fragment inside each other than
it has bytes: no chain of calls is longer, reading does not stop at this bound, and it has the same
result with any larger one, which is the result of `parse`. If no `&` is typed, every placeholder
that is found leads to a group. -/
theorem parse_eq_of_depth (hnames : ∀ name ∈ vocabulary.names, '&' ∉ name.toList) {text : String}
    (htext : '&' ∉ text.toList ∨ ';' ∉ text.toList) :
    let bound := Fragment.byteLength text.toList + 1
    let run := fun depth => (fragment vocabulary depth text.toList).run .initial
    (∀ n t st, CallChain vocabulary n text.toList .initial t st → n + 1 ≤ bound) ∧
      run bound ≠ .error .endlessExpansion ∧
      (∀ depth, bound ≤ depth → run depth = run bound) ∧
      parse vocabulary text = (run bound).map (fun r => (r.1, r.2.vars)) ∧
      ('&' ∉ text.toList →
        ∀ token, parse vocabulary text ≠ .error (.invalidPlaceholder token)) := by
  intro bound run
  have hstands : Stands (State.initial : State α).groups text.toList text.toList := Or.inl rfl
  have hlen := length_le_byteLength text.toList
  have hrun : run bound ≠ .error .endlessExpansion :=
    fragment_ne_endless hnames hstands htext (by omega)
  have hmore : ∀ depth, bound ≤ depth → run depth = run bound :=
    fun depth hdepth => fragment_mono hdepth hrun
  refine ⟨?_, hrun, hmore, ?_, ?_⟩
  · intro n t st hchain
    have hle := hchain.length_le hnames hstands htext
    omega
  · rw [← hmore _ (byteLength_lt_depthBound vocabulary text.toList)]
    exact parse_eq_map vocabulary text
  · intro hamp token htoken
    rw [parse_eq_error] at htoken
    -- the reader of outlines has no such error
    have hagree := Outline.parse_agrees hnames hamp
    rw [htoken] at hagree
    generalize Outline.parse vocabulary text = x at hagree
    cases hagree with
    | error h => cases h

/-- An `&` without a `;` does no harm. -/
theorem parse_eq_of_depth_standard :
    (∀ name ∈ (Vocabulary.standard 0.5).names, '&' ∉ name.toList) ∧
      ('&' ∉ "sqrt((x+1)&2)".toList ∨ ';' ∉ "sqrt((x+1)&2)".toList) ∧
      (∀ n t st, CallChain (Vocabulary.standard 0.5) n "sqrt((x+1)&2)".toList .initial t st →
        n + 1 ≤ 14) ∧
      (fragment (Vocabulary.standard 0.5) 14 "sqrt((x+1)&2)".toList).run .initial ≠
        .error .endlessExpansion ∧
      parse (Vocabulary.standard 0.5) "sqrt((x+1)&2)" =
        ((fragment (Vocabulary.standard 0.5) 14 "sqrt((x+1)&2)".toList).run .initial).map
          (fun r => (r.1, r.2.vars)) := by
  have hnames := Vocabulary.amp_notMem_standard 0.5
  have htext : '&' ∉ "sqrt((x+1)&2)".toList ∨ ';' ∉ "sqrt((x+1)&2)".toList :=
    Or.inr (by decide)
  obtain ⟨hchain, hrun, -, hparse, -⟩ := parse_eq_of_depth hnames htext
  exact ⟨hnames, htext, hchain, hrun, hparse⟩

end Formula.Parser
