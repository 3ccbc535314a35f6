import Formula.Proofs.Outline.Closed
import Formula.Proofs.Parser.Depth

/-!
# Unmatched brackets

Whether a bracket is never closed is decided before anything is read, and by counting alone:
`parse_unmatchedBracket_iff`.

A group is set aside only when its end has been found, so that every bracket in its text is closed
in it (`Sealed`). No bracket stands in a fragment whose groups have been set aside, nor in a part of
it. A part of a fragment is therefore a fragment without brackets or the text of a group, and
setting groups aside fails in neither (`interpret_sealed`, `fragment_ne_unmatchedBracket`).
-/

namespace Formula

/-- Bytes are counted as they are in a string. -/
theorem Fragment.byteLength_eq_utf8ByteSize (s : Fragment) :
    s.byteLength = (String.ofList s).utf8ByteSize := by
  induction s with
  | nil => rfl
  | cons c s ih =>
    have hcons : String.ofList (c :: s) = String.singleton c ++ String.ofList s := by simp
    rw [hcons, String.utf8ByteSize_append, String.utf8ByteSize_singleton, ← ih]
    rfl

namespace Outline

/-- The front of a text up to the first bracket that is never closed is the only closed outline in
front of such a bracket. -/
theorem Closed.append_open_inj {o p : Outline} {r t : Fragment} (ho : Closed o) (hp : Closed p)
    (hr : Fragment.StaysOpen 1 r) (ht : Fragment.StaysOpen 1 t)
    (h : o.text ++ '(' :: r = p.text ++ '(' :: t) : o = p ∧ r = t := by
  have hscan : ∀ {q : Outline} {s : Fragment}, Closed q → Fragment.StaysOpen 1 s →
      scan (q.text ++ '(' :: s) = (q, '(' :: s) := by
    intro q s hq hs
    rw [hq.scan_append, scan_unclosed (Fragment.closeGroup?_eq_none_iff.mpr hs), List.append_nil]
  have heq : (o, '(' :: r) = (p, '(' :: t) := by rw [← hscan ho hr, ← hscan hp ht, h]
  simpa using heq

/-- Setting groups aside fails just when a bracket is open at the end of the text. -/
theorem setAside_eq_error_iff (groups : Groups) {s : Fragment} :
    (∃ error, (groups.setAside s).1 = .error error) ↔ 0 < Fragment.depth s := by
  constructor
  -- a closed text has an outline, and what has one is masked
  · rintro ⟨error, herror⟩
    by_contra hdepth
    obtain ⟨o, ho⟩ := exists_ofText_iff.mpr (Nat.eq_zero_of_not_pos hdepth)
    obtain ⟨m, hm, -⟩ := setAside_of_ofText ho groups
    rw [herror] at hm
    exact nomatch hm
  · intro hdepth
    cases ho : ofText s with
    | error e =>
      obtain ⟨e', he', -⟩ := setAside_of_ofText_error ho groups
      exact ⟨e', he'⟩
    | ok o =>
      have hzero : Fragment.depth s = 0 := exists_ofText_iff.mp ⟨o, ho⟩
      omega

/-- Where a bracket is never closed, the groups in front of it have been masked: the error shows the
masked text and the place of the bracket in it. -/
theorem exists_of_setAside_eq_error {groups : Groups} {s : Fragment} {error : SyntaxError}
    (h : (groups.setAside s).1 = .error error) :
    ∃ o rest, Closed o ∧ s = o.text ++ '(' :: rest ∧ Fragment.StaysOpen 1 rest ∧
      error = .unmatchedBracket (String.ofList (o.mask groups.size ++ '(' :: rest))
        (Fragment.byteLength (o.mask groups.size)) := by
  have hclosed := closed_scan s
  have hmask := hclosed.open_notMem_mask groups.size
  obtain ⟨hhidden, -⟩ := hide_eq groups s
  rw [setAside_eq] at h
  rcases scan_rest s with hrest | ⟨rest, hrest⟩
  · rw [hhidden, hrest, List.append_nil, if_neg hmask] at h
    exact nomatch h
  · rw [hhidden, hrest, if_pos (by simp)] at h
    dsimp only at h
    -- the bracket that is reported is the first one that is left
    rw [Text.takeWhile_append hmask] at h
    have htext := scan_text s
    rw [hrest] at htext
    exact ⟨(scan s).1, rest, hclosed, htext.symm, staysOpen_of_scan hrest,
      (Except.error.inj h).symm⟩

/-- Setting aside succeeds only if no bracket is left. -/
theorem open_notMem_of_setAside {groups : Groups} {s hidden : Fragment}
    (h : (groups.setAside s).1 = .ok hidden) : '(' ∉ hidden := by
  rw [setAside_eq] at h
  dsimp only at h
  split at h
  · exact nomatch h
  · rename_i hopen
    rwa [← Except.ok.inj h]

end Outline

namespace Parser

open Outline (Masked)

/-! ### Sealed groups -/

/-- Whether no bracket of a group is open at the end of its text. -/
def Sealed (groups : Groups) : Prop := ∀ text ∈ groups.toList, Fragment.depth text = 0

theorem sealed_empty : Sealed .empty := fun _ htext => absurd htext List.not_mem_nil

/-- The groups that are set aside are closed, as all groups are that an outline has. -/
theorem Sealed.setAside {groups : Groups} (h : Sealed groups) (s : Fragment) :
    Sealed (groups.setAside s).2 := by
  rw [Outline.setAside_eq]
  intro text htext
  rw [(Outline.hide_eq groups s).2] at htext
  rcases List.mem_append.mp htext with hold | hnew
  · exact h text hold
  · obtain ⟨piece, hpiece, htext⟩ := List.mem_filterMap.mp hnew
    cases piece with
    | plain c => exact nomatch htext
    | group inner =>
      obtain rfl := Option.some.inj htext
      exact Fragment.Closed.depth (Outline.closed_scan s _ hpiece)

theorem Sealed.resolve {groups : Groups} (h : Sealed groups) {interior text : Fragment}
    (htext : groups.resolve interior = .ok text) : Fragment.depth text = 0 :=
  h text (Groups.mem_of_resolve htext)

variable {α : Type} [Zero α] [Numeral α] {vocabulary : Vocabulary α}

/-- A step keeps groups sealed, and no bracket is left open in a part of a fragment. -/
theorem interpret_sealed {s : Fragment} {st st' : State α} {reading : Reading α}
    (hst : Sealed st.groups) (h : (interpret vocabulary s).run st = .ok (reading, st')) :
    Sealed st'.groups ∧ ∀ part ∈ reading.parts, Fragment.depth part = 0 := by
  obtain ⟨hidden, hhidden, hrule⟩ := interpret_eq_ok h
  have hgroups := hst.setAside s.trim
  have hopen : '(' ∉ Fragment.trim hidden := fun hmem =>
    Outline.open_notMem_of_setAside hhidden ((Text.trimBy_sublist hidden).mem hmem)
  rw [hrule.groups_eq]
  refine ⟨hgroups, fun part hpart => ?_⟩
  -- as no bracket opens in the fragment, none opens in its parts; only the text of a group
  -- comes from elsewhere
  cases hrule with
  | @operation operator hop =>
    obtain ⟨q, hq, rfl⟩ := List.mem_map.mp hpart
    have hmasked : Masked st.groups _ (Fragment.trim hidden) := Masked.map_plain hopen
    obtain ⟨p, -, hpq⟩ := hmasked.exists_operand hq
    exact Fragment.depth_eq_zero_of_notMem hpq.2.open_notMem
  | emptyCall | constant | number | var => exact nomatch hpart
  | @call name apply _ _ _ =>
    obtain rfl := List.mem_singleton.mp hpart
    exact Fragment.depth_eq_zero_of_notMem fun hmem => hopen ((List.drop_sublist _ _).mem hmem)
  | @group interior text _ _ _ _ htext =>
    obtain rfl := List.mem_singleton.mp hpart
    exact hgroups.resolve htext

/-- Whether groups that are sealed in the first state are sealed in the second. -/
def KeepsSealed (st st' : State α) : Prop := Sealed st.groups → Sealed st'.groups

omit [Zero α] [Numeral α] in
theorem KeepsSealed.refl (st : State α) : KeepsSealed st st := id

omit [Zero α] [Numeral α] in
theorem KeepsSealed.trans {st₁ st₂ st₃ : State α} (h₁ : KeepsSealed st₁ st₂)
    (h₂ : KeepsSealed st₂ st₃) : KeepsSealed st₁ st₃ := h₂ ∘ h₁

/-- Reading leaves all groups closed. -/
theorem fragment_sealed {depth : Nat} {s : Fragment} {st st' : State α} {tree : Tree α}
    (h : (fragment vocabulary depth s).run st = .ok (tree, st')) : KeepsSealed st st' := by
  induction depth generalizing s st st' tree with
  | zero => exact nomatch (fragment_zero s st).symm.trans h
  | succ depth ih =>
    obtain ⟨reading, st₁, trees, hstep, hparts, -⟩ := fragment_eq_ok.mp h
    have hread := reaches_of_mapM (R := KeepsSealed) .refl .trans
      (fun s st tree st' hs => ih hs) hparts
    exact fun hst => hread (interpret_sealed hst hstep).1

/-! ### Where the error can come from -/

/-- With sealed groups only setting aside the groups of a fragment can find an unmatched bracket, if
none is found in its parts. -/
theorem setAside_of_fragment_eq_error {depth : Nat} {s : Fragment} {st : State α} {text : String}
    {position : Nat} (hst : Sealed st.groups)
    (hparts : ∀ (part : Fragment) (st : State α), Sealed st.groups → Fragment.depth part = 0 →
      (fragment vocabulary depth part).run st ≠ .error (.unmatchedBracket text position))
    (h : (fragment vocabulary (depth + 1) s).run st = .error (.unmatchedBracket text position)) :
    (st.groups.setAside s.trim).1 = .error (.unmatchedBracket text position) := by
  rcases fragment_eq_error.mp h with hstep | ⟨reading, st₁, hstep, hread | hassemble⟩
  · rcases interpret_eq_error hstep with herror | ⟨_, herror⟩ | ⟨_, -, herror⟩
    · exact herror
    · exact nomatch herror
    · exact nomatch herror
  · obtain ⟨hst₁, hdepth⟩ := interpret_sealed hst hstep
    obtain ⟨part, hpart, st₂, hst₂, herror⟩ := exists_of_mapM_error (R := KeepsSealed) .refl .trans
      (fun s st tree st' hs => fragment_sealed hs) hread
    exact absurd herror (hparts part st₂ (hst₂ hst₁) (hdepth part hpart))
  · obtain ⟨trees, st₂, -, hassemble⟩ := hassemble
    obtain ⟨_, herror, -⟩ := assemble_eq_error hassemble
    exact nomatch herror

/-- Where no bracket is left open, in a fragment and in the groups set aside, none is found to be
unmatched. -/
theorem fragment_ne_unmatchedBracket {depth : Nat} {s : Fragment} {st : State α}
    (hst : Sealed st.groups) (hs : Fragment.depth s = 0) (text : String) (position : Nat) :
    (fragment vocabulary depth s).run st ≠ .error (.unmatchedBracket text position) := by
  induction depth generalizing s st with
  | zero => exact fun h => nomatch (fragment_zero s st).symm.trans h
  | succ depth ih =>
    intro h
    have herror := setAside_of_fragment_eq_error hst (fun _ _ => ih) h
    have hpos := (Outline.setAside_eq_error_iff _).mp ⟨_, herror⟩
    rw [Fragment.depth_trim] at hpos
    omega

/-- While all groups are closed, only the text itself can have an unmatched bracket: its parts have
none. -/
theorem fragment_eq_unmatchedBracket_iff {depth : Nat} {s : Fragment} {st : State α}
    (hst : Sealed st.groups) {text : String} {position : Nat} :
    (fragment vocabulary (depth + 1) s).run st = .error (.unmatchedBracket text position) ↔
      (st.groups.setAside s.trim).1 = .error (.unmatchedBracket text position) := by
  constructor
  · intro h
    exact setAside_of_fragment_eq_error hst
      (fun _ _ hst hs => fragment_ne_unmatchedBracket hst hs text position) h
  · intro h
    rw [fragment_run_hidden, h]
    rfl

/-- What is called is closed, and so are the groups that it is read with. -/
theorem Calls.sealed {s t : Fragment} {st st' : State α} (hst : Sealed st.groups)
    (hcall : Calls vocabulary s st t st') : Sealed st'.groups ∧ Fragment.depth t = 0 := by
  obtain ⟨reading, st₁, before, after, depth, trees, hstep, hparts, hbefore⟩ := hcall
  obtain ⟨hst₁, hdepth⟩ := interpret_sealed hst hstep
  have hreach := reaches_of_mapM (R := KeepsSealed) .refl .trans
    (fun s st tree st' hs => fragment_sealed hs) hbefore
  exact ⟨hreach hst₁, hdepth t (by simp [hparts])⟩

/-- Every fragment inside another one is read with sealed groups, and no bracket is left open in
it. -/
theorem CallChain.sealed {n : Nat} {s t : Fragment} {st st' : State α} (hst : Sealed st.groups)
    (hs : Fragment.depth s = 0 ∨ 0 < n) (hchain : CallChain vocabulary n s st t st') :
    Sealed st'.groups ∧ Fragment.depth t = 0 := by
  induction hchain with
  | refl s st => exact ⟨hst, hs.resolve_right (Nat.lt_irrefl 0)⟩
  | step hcall _ ih =>
    obtain ⟨hst', ht⟩ := hcall.sealed hst
    exact ih hst' (Or.inl ht)

/-! ### The whole text -/

/-- Reading a text finds an unmatched bracket if and only if a bracket is open at its end, whatever
else is wrong with it. The error shows the trimmed text with its groups up to the bracket replaced
by placeholders that are numbered from zero, and the place of the bracket in it; no bracket stands
in front of this one, and the count that starts with it does not come back to zero. In no fragment
of the text, and in no group, is such a bracket found. -/
theorem parse_unmatchedBracket_iff (vocabulary : Vocabulary α) (text : String) :
    ((∃ fragment position,
        parse vocabulary text = .error (.unmatchedBracket fragment position)) ↔
      0 < Fragment.depth text.toList) ∧
    (∀ fragment position, parse vocabulary text = .error (.unmatchedBracket fragment position) →
      ∃ (o : Outline) (rest : Fragment), o.Closed ∧
        Fragment.trim text.toList = o.text ++ '(' :: rest ∧
        fragment = String.ofList (o.mask 0 ++ '(' :: rest) ∧
        position = (String.ofList (o.mask 0)).utf8ByteSize ∧ '(' ∉ o.mask 0 ∧
        ∀ p, p <+: rest → 0 < Fragment.depth ('(' :: p)) ∧
    ∀ n t st depth, CallChain vocabulary (n + 1) text.toList .initial t st →
      ∀ fragment position,
        (Parser.fragment vocabulary depth t).run st ≠
          .error (.unmatchedBracket fragment position) := by
  have hst : Sealed (State.initial : State α).groups := sealed_empty
  -- below the text every fragment is closed already, so that only its own brackets can be at fault
  have hparse : ∀ {fragment : String} {position : Nat},
      parse vocabulary text = .error (.unmatchedBracket fragment position) ↔
        (Groups.empty.setAside (Fragment.trim text.toList)).1 =
          .error (.unmatchedBracket fragment position) := by
    intro fragment position
    have hbound := byteLength_lt_depthBound vocabulary text.toList
    obtain ⟨bound, hbound⟩ := Nat.exists_eq_add_of_lt hbound
    rw [parse_eq_error, hbound]
    exact fragment_eq_unmatchedBracket_iff hst
  refine ⟨?_, ?_, ?_⟩
  · rw [← Fragment.depth_trim, ← Outline.setAside_eq_error_iff .empty]
    constructor
    · rintro ⟨fragment, position, h⟩
      exact ⟨_, hparse.mp h⟩
    · rintro ⟨error, h⟩
      obtain ⟨o, rest, -, -, -, rfl⟩ := Outline.exists_of_setAside_eq_error h
      exact ⟨_, _, hparse.mpr h⟩
  · intro fragment position h
    obtain ⟨o, rest, ho, htext, hrest, herror⟩ :=
      Outline.exists_of_setAside_eq_error (hparse.mp h)
    obtain ⟨rfl, rfl⟩ := SyntaxError.unmatchedBracket.inj herror
    exact ⟨o, rest, ho, htext, rfl, Fragment.byteLength_eq_utf8ByteSize _,
      ho.open_notMem_mask 0, hrest⟩
  · intro n t st depth hchain
    obtain ⟨hst', ht⟩ := hchain.sealed hst (Or.inr (Nat.succ_pos n))
    exact fragment_ne_unmatchedBracket hst' ht

/-- The first group is closed and masked; the bracket that is never closed stands behind nine bytes,
since `é` has two. -/
theorem parse_unmatchedBracket_standard :
    Fragment.depth "x(1) + é((2)".toList = 1 ∧
      parse (Vocabulary.standard 0.5) "x(1) + é((2)" =
        .error (.unmatchedBracket "x&0; + é((2)" 9) := by
  obtain ⟨hiff, hshape, -⟩ :=
    parse_unmatchedBracket_iff (Vocabulary.standard 0.5) "x(1) + é((2)"
  have hdepth : Fragment.depth "x(1) + é((2)".toList = 1 := by decide
  obtain ⟨fragment, position, h⟩ := hiff.mpr (by rw [hdepth]; exact Nat.one_pos)
  obtain ⟨o, rest, ho, htext, rfl, rfl, -, hrest⟩ := hshape fragment position h
  refine ⟨hdepth, ?_⟩
  have hfront : Outline.Closed
      [.plain 'x', .group ['1'], .plain ' ', .plain '+', .plain ' ', .plain 'é'] := by decide
  have hopen : Fragment.StaysOpen (0 + 1) "(2)".toList := by decide
  obtain ⟨rfl, rfl⟩ := Outline.Closed.append_open_inj ho hfront hrest hopen
    (htext.symm.trans (by decide))
  exact h

end Parser

end Formula
