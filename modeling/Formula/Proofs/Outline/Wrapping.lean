import Formula.Proofs.Outline.Outcome

/-!
# Brackets around an operand

Brackets around a whole text or around one piece between its loosest operators change nothing
(`parse_wrapped`): what stands in a group is read by itself, as an operand is. All that is needed is
that the brackets are closed where they should be, so that every `)` of the text has to close a
bracket of its own.

A piece in brackets is one group, in which no operator is seen. So the text is cut at the same
places as before (`pieces_intercalate`, `loosestIn?_of_subset`), and the group is read like the
piece (`read_group_text`).
-/

namespace Formula.Outline

/-! ### Another piece in the place of one -/

theorem intercalate_pair (mark : Piece) (left right : Outline) :
    [mark].intercalate [left, right] = left ++ mark :: right := by
  simp [List.intercalate]

/-- The pieces, with the operator between them again, are the outline. -/
theorem intercalate_pieces {operator : Operator} {o : Outline}
    (hmark : .plain operator.symbol ∈ o) :
    [.plain operator.symbol].intercalate (pieces operator o) = o := by
  cases operator with
  | modulo =>
    obtain ⟨left, right, rfl, -, hcut⟩ := Text.exists_firstCut? hmark
    rw [pieces, hcut]
    exact intercalate_pair _ _ _
  | raise =>
    obtain ⟨left, right, rfl, -, hcut⟩ := Text.exists_lastCut? hmark
    rw [pieces, hcut]
    exact intercalate_pair _ _ _
  | _ => exact List.intercalate_splitOn _

/-- A piece without the operator in the place of another one is found again. -/
theorem pieces_intercalate {operator : Operator} {o : Outline}
    (hmark : .plain operator.symbol ∈ o) {before after : List Outline} {p q : Outline}
    (hpieces : pieces operator o = before ++ p :: after) (hq : .plain operator.symbol ∉ q) :
    pieces operator ([.plain operator.symbol].intercalate (before ++ q :: after)) =
      before ++ q :: after := by
  have hsplit : o.splitOn (.plain operator.symbol) = before ++ p :: after →
      ([Piece.plain operator.symbol].intercalate (before ++ q :: after)).splitOn
        (.plain operator.symbol) = before ++ q :: after := by
    intro hsplit
    refine List.splitOn_intercalate _ (fun r hr => ?_) (by simp)
    rcases List.mem_append.mp hr with hr | hr
    · exact Text.notMem_of_mem_splitOn (hsplit ▸ List.mem_append_left _ hr)
    · rcases List.mem_cons.mp hr with rfl | hr
      · exact hq
      · exact Text.notMem_of_mem_splitOn
          (hsplit ▸ List.mem_append_right _ (List.mem_cons_of_mem _ hr))
  -- of two sides either the left or the right one is replaced
  have hsides : ∀ {left right : Outline}, [left, right] = before ++ p :: after →
      (before = [] ∧ p = left ∧ after = [right]) ∨ (before = [left] ∧ p = right ∧ after = []) := by
    intro left right h
    rcases List.cons_eq_append_iff.mp h with ⟨rfl, hcons⟩ | ⟨before', rfl, hcons⟩
    · obtain ⟨rfl, rfl⟩ := List.cons.inj hcons
      exact Or.inl ⟨rfl, rfl, rfl⟩
    · obtain ⟨rfl, hcons⟩ | ⟨before'', rfl, hnil⟩ := List.cons_eq_append_iff.mp hcons
      · obtain ⟨rfl, rfl⟩ := List.cons.inj hcons
        exact Or.inr ⟨rfl, rfl, rfl⟩
      · exact absurd hnil.symm (by simp)
  cases operator with
  | modulo =>
    obtain ⟨left, right, rfl, hleft, hcut⟩ := Text.exists_firstCut? hmark
    rw [pieces, hcut] at hpieces
    rcases hsides hpieces with ⟨rfl, rfl, rfl⟩ | ⟨rfl, rfl, rfl⟩
    · rw [List.nil_append, intercalate_pair, pieces, Text.firstCut?_append hq]
      rfl
    · rw [List.singleton_append, intercalate_pair, pieces, Text.firstCut?_append hleft]
      rfl
  | raise =>
    obtain ⟨left, right, rfl, hright, hcut⟩ := Text.exists_lastCut? hmark
    rw [pieces, hcut] at hpieces
    rcases hsides hpieces with ⟨rfl, rfl, rfl⟩ | ⟨rfl, rfl, rfl⟩
    · rw [List.nil_append, intercalate_pair, pieces, Text.lastCut?_append hright]
      rfl
    · rw [List.singleton_append, intercalate_pair, pieces, Text.lastCut?_append hq]
      rfl
  | _ => exact hsplit hpieces

theorem mark_mem_intercalate {mark : Piece} {ps : List Outline} (h : 2 ≤ ps.length) :
    mark ∈ [mark].intercalate ps := by
  match ps, h with
  | p :: q :: ps, _ => simp [List.intercalate_cons_cons]

/-- Where an operator is found there are at least two pieces. -/
theorem two_le_length_pieces {operator : Operator} {o : Outline}
    (hmark : .plain operator.symbol ∈ o) : 2 ≤ (pieces operator o).length := by
  have hjoin := intercalate_pieces hmark
  match hpieces : pieces operator o with
  | [] =>
    rw [hpieces] at hjoin
    rw [← hjoin] at hmark
    exact absurd hmark List.not_mem_nil
  | [p] =>
    -- a single piece would be the whole outline, but it is shorter
    rw [hpieces, List.intercalate_singleton] at hjoin
    have hlt := (pieces_sublist hmark (hpieces ▸ List.mem_singleton_self p)).2
    exact absurd hlt (hjoin ▸ lt_irrefl _)
  | _ :: _ :: rest => exact Nat.le_add_left 2 rest.length

/-- An outline in which the operator occurs, and otherwise only operators that another one has,
is cut by the operator that the other one is cut by. -/
theorem loosestIn?_of_subset {o p : Outline} {operator : Operator}
    (h : o.loosestIn? = some operator) (hmark : .plain operator.symbol ∈ p)
    (hsub : ∀ other : Operator, .plain other.symbol ∈ p → .plain other.symbol ∈ o) :
    p.loosestIn? = some operator := by
  obtain ⟨-, looser, tighter, horder, hlooser⟩ := List.find?_eq_some_iff_append.mp h
  refine List.find?_eq_some_iff_append.mpr ⟨by simpa using hmark, looser, tighter, horder, ?_⟩
  intro other hother
  have hlacks : .plain other.symbol ∉ o := by simpa using hlooser other hother
  simpa using fun hmem => hlacks (hsub other hmem)

/-! ### Brackets around a piece -/

section Wrapped

variable {o : Outline} {operator : Operator} (hop : o.loosestIn? = some operator)
  {before after : List Outline} {piece : Outline}
  (hpieces : pieces operator o = before ++ piece :: after)
include hop hpieces

/-- The wrapped outline has the pieces that it had, and a group in place of one of them. -/
theorem mem_wrapped {part : Piece}
    (h : part ∈ [.plain operator.symbol].intercalate (before ++ [.group piece.text] :: after)) :
    part = .group piece.text ∨ part ∈ o := by
  have hmark := mem_of_loosestIn? hop
  have hsub : ∀ p ∈ before ++ piece :: after, List.Sublist p o :=
    fun p hp => (pieces_sublist hmark (hpieces ▸ hp)).1
  rcases Text.mem_intercalate h with rfl | ⟨p, hp, hmem⟩
  · exact Or.inr hmark
  · rcases List.mem_append.mp hp with hp | hp
    · exact Or.inr ((hsub p (List.mem_append_left _ hp)).mem hmem)
    · rcases List.mem_cons.mp hp with rfl | hp
      · exact Or.inl (List.mem_singleton.mp hmem)
      · exact Or.inr ((hsub p (List.mem_append_right _ (List.mem_cons_of_mem _ hp))).mem hmem)

/-- Brackets around a piece hide operators that are tighter than the one between the pieces, which
stays the loosest. -/
theorem loosestIn?_wrapped :
    loosestIn? ([.plain operator.symbol].intercalate (before ++ [.group piece.text] :: after)) =
      some operator := by
  have hmany := two_le_length_pieces (mem_of_loosestIn? hop)
  rw [hpieces] at hmany
  refine loosestIn?_of_subset hop (mark_mem_intercalate (by simpa using hmany)) ?_
  intro other hother
  exact (mem_wrapped hop hpieces hother).resolve_left (by simp)

theorem sublist_wrapped : List.Sublist piece o :=
  (pieces_sublist (mem_of_loosestIn? hop)
    (hpieces ▸ List.mem_append_right _ List.mem_cons_self)).1

/-- An outline stays closed, if no `)` in it stands outside its groups. -/
theorem closed_wrapped (hclosed : Closed o) (hnot : .plain ')' ∉ o) :
    Closed ([.plain operator.symbol].intercalate (before ++ [.group piece.text] :: after)) := by
  have hsub := sublist_wrapped hop hpieces
  have hpiece : Fragment.Closed piece.text :=
    (hclosed.sublist hsub).closed_text_iff.mpr fun hmem => hnot (hsub.mem hmem)
  intro part hpart
  rcases mem_wrapped hop hpieces hpart with rfl | hmem
  · exact hpiece
  · exact hclosed part hmem

theorem amp_notMem_wrapped (h : '&' ∉ o.text) :
    '&' ∉ text ([.plain operator.symbol].intercalate (before ++ [.group piece.text] :: after)) := by
  intro hmem
  obtain ⟨part, hpart, hmem⟩ := List.mem_flatMap.mp hmem
  rcases mem_wrapped hop hpieces hpart with rfl | hpart
  · have hpiece : '&' ∈ piece.text := by simpa [Piece.text] using hmem
    exact h (((sublist_wrapped hop hpieces).flatMap Piece.text).mem hpiece)
  · exact h (List.mem_flatMap.mpr ⟨part, hpart, hmem⟩)

end Wrapped

/-! ### Reading what stands in brackets -/

variable {α : Type} [Zero α] [Numeral α] {vocabulary : Vocabulary α}

/-- Brackets around an outline do not change what is read. -/
theorem read_group_text {o : Outline} (h : Closed o) :
    read vocabulary [.group o.text] = read vocabulary o := by
  rw [read_group_of_ofText h.ofText_trim, read_trim]

/-- A piece that is not blank is read alike with brackets around it, and so is the outline. -/
theorem readsAlike_wrapped {o : Outline} (hclosed : Closed o) {operator : Operator}
    (hop : o.loosestIn? = some operator) {before after : List Outline} {piece : Outline}
    (hpieces : pieces operator o = before ++ piece :: after) (hsolid : piece.allBlank = false) :
    ReadsAlike vocabulary
      ([.plain operator.symbol].intercalate (before ++ [.group piece.text] :: after)) o := by
  have hcut := pieces_intercalate (mem_of_loosestIn? hop) hpieces (q := [.group piece.text])
    (by simp)
  have hself : ∀ parts : List Outline, List.Forall₂
      (fun q r => q.allBlank = r.allBlank ∧ ReadsAlike vocabulary q r) parts parts :=
    fun parts => List.forall₂_same.mpr fun part _ => ⟨rfl, .of_eq rfl⟩
  have hpiece : read vocabulary [.group piece.text] = read vocabulary piece :=
    read_group_text (hclosed.sublist (sublist_wrapped hop hpieces))
  refine readsAlike_of_pieces (loosestIn?_wrapped hop hpieces) hop ?_
  rw [hcut, hpieces]
  exact List.rel_append (hself before) (.cons ⟨hsolid.symm, .of_eq hpiece⟩ (hself after))

/-! ### Texts -/

/-- The text of pieces with an operator between them. -/
def joined (operator : Operator) (ps : List Outline) : Fragment :=
  [operator.symbol].intercalate (ps.map text)

theorem text_intercalate_mark (operator : Operator) (ps : List Outline) :
    text ([.plain operator.symbol].intercalate ps) = joined operator ps :=
  text_intercalate _ ps

theorem ofText_padded {lead trail : Fragment} (hlead : lead.allBlank = true)
    (htrail : trail.allBlank = true) {o : Outline} (h : Closed o) :
    ofText (lead ++ o.text ++ trail) = .ok (lead.map .plain ++ o ++ trail.map .plain) := by
  refine ofText_eq_ok_iff_closed.mpr ⟨?_, by simp [text_map_plain]⟩
  exact closed_append.mpr ⟨closed_append.mpr ⟨closed_blank hlead, h⟩, closed_blank htrail⟩

theorem read_padded {lead trail : Fragment} (hlead : lead.allBlank = true)
    (htrail : trail.allBlank = true) (o : Outline) :
    read vocabulary (lead.map .plain ++ o ++ trail.map .plain) = read vocabulary o := by
  apply read_congr
  rw [trim_append_right (allBlank_map_plain.trans htrail),
    trim_append_left (allBlank_map_plain.trans hlead)]

section Texts

variable (hnames : ∀ name ∈ vocabulary.names, '&' ∉ name.toList) {text : String}
  (htext : '&' ∉ text.toList) (hstray : Fragment.OnlyInside ')' text.toList)
include hnames htext hstray

/-- Brackets around a text. -/
theorem parse_group :
    SameOutcome (Parser.parse vocabulary ("(" ++ text ++ ")")) (Parser.parse vocabulary text) := by
  have hlist : ("(" ++ text ++ ")").toList = Piece.text (.group text.toList) := by
    simp [Piece.text]
  have hopen := Fragment.staysOpen_one_iff.mpr hstray
  refine parse_sameOutcome hnames ?_ htext ?_ ?_
  · simpa [hlist, Piece.text] using htext
  · rw [hlist, Piece.text, Fragment.depth, Fragment.depthFrom_cons, Fragment.depthFrom_append,
      Fragment.changeDepth_open, Fragment.depthFrom_succ hopen]
    rfl
  · intro p o hp ho
    obtain ⟨hclosed, htext⟩ := ofText_eq_ok_iff_closed.mp ho
    -- brackets around what is closed are closed as one group
    have hgroup : ofText (Piece.text (.group text.toList)) = .ok [.group text.toList] := by
      refine ofText_eq_ok_iff_closed.mpr ⟨?_, by simp⟩
      refine List.forall_mem_singleton.mpr (Fragment.closed_iff.mpr ⟨?_, hstray⟩)
      rw [← htext]
      exact hclosed.depth_text
    obtain rfl : [.group text.toList] = p := by
      rw [hlist, hgroup] at hp
      exact Except.ok.inj hp
    rw [← htext]
    exact .of_eq (read_group_text hclosed)

/-- Brackets around a piece that is not blank, in a text with blanks around it. -/
theorem parse_piece {lead trail : Fragment} (hlead : lead.allBlank = true)
    (htrail : trail.allBlank = true) {o : Outline} (hclosed : Closed o)
    (hlist : text.toList = lead ++ o.text ++ trail) {operator : Operator}
    (hop : o.loosestIn? = some operator) {before after : List Outline} {piece : Outline}
    (hpieces : pieces operator o = before ++ piece :: after) (hsolid : piece.allBlank = false) :
    SameOutcome
      (Parser.parse vocabulary (String.ofList
        (lead ++ joined operator (before ++ [.group piece.text] :: after) ++ trail)))
      (Parser.parse vocabulary text) := by
  -- a `)` outside the groups would close no bracket
  have hnot : .plain ')' ∉ o := by
    intro hmem
    obtain ⟨a, b, hab, hdepth⟩ := hclosed.exists_of_plain_mem hmem
    have hpos := hstray (lead ++ a) (b ++ trail) (by simp [hlist, hab])
    rw [Fragment.depth, Fragment.depthFrom_append, Fragment.depthFrom_allBlank hlead] at hpos
    exact absurd hdepth (Nat.pos_iff_ne_zero.mp hpos)
  have hamp : '&' ∉ lead ++ o.text ++ trail := hlist ▸ htext
  have hamp' := amp_notMem_wrapped hop hpieces fun hmem =>
    hamp (List.mem_append_left _ (List.mem_append_right _ hmem))
  have hpadded := ofText_padded hlead htrail hclosed
  have hpadded' := ofText_padded hlead htrail (closed_wrapped hop hpieces hclosed hnot)
  rw [text_intercalate_mark] at hamp' hpadded'
  refine parse_sameOutcome hnames ?_ htext ?_ ?_
  · simp only [List.mem_append, not_or] at hamp
    simp [hamp, hamp']
  · rw [String.toList_ofList, hlist, exists_ofText_iff.mp ⟨_, hpadded⟩,
      exists_ofText_iff.mp ⟨_, hpadded'⟩]
  · intro p q hp hq
    rw [String.toList_ofList, hpadded'] at hp
    rw [hlist, hpadded] at hq
    obtain rfl := Except.ok.inj hp
    obtain rfl := Except.ok.inj hq
    intro vars
    rw [read_padded hlead htrail, read_padded hlead htrail]
    exact readsAlike_wrapped hclosed hop hpieces hsolid vars

/-- Explicit brackets around an operand change nothing, in a text in which every `)` closes a
bracket. They may stand around the whole text, or around any one part of it, unless blank, that is
cut out by the loosest operator outside brackets. Blanks at the ends of the text may be left out of
the brackets. -/
theorem parse_wrapped :
    SameOutcome (Parser.parse vocabulary ("(" ++ text ++ ")")) (Parser.parse vocabulary text) ∧
    ∀ (lead core trail : Fragment) (o : Outline) (operator : Operator)
      (before after : List Outline) (piece : Outline),
      text.toList = lead ++ core ++ trail → lead.allBlank = true → trail.allBlank = true →
      ofText core = .ok o → o.loosestIn? = some operator →
      pieces operator o = before ++ piece :: after → piece.allBlank = false →
      core = joined operator (before ++ piece :: after) ∧
      SameOutcome
        (Parser.parse vocabulary (String.ofList
          (lead ++ joined operator (before ++ [.group piece.text] :: after) ++ trail)))
        (Parser.parse vocabulary text) := by
  refine ⟨parse_group hnames htext hstray, ?_⟩
  intro lead core trail o operator before after piece hlist hlead htrail ho hop hpieces hsolid
  obtain ⟨hclosed, rfl⟩ := ofText_eq_ok_iff_closed.mp ho
  refine ⟨?_, parse_piece hnames htext hstray hlead htrail hclosed hlist hop hpieces hsolid⟩
  rw [← hpieces, ← text_intercalate_mark, intercalate_pieces (mem_of_loosestIn? hop)]

end Texts

/-- The whole text is wrapped, and then its first term with a blank at its end. -/
theorem parse_wrapped_standard :
    (∀ name ∈ (Vocabulary.standard 0.5).names, '&' ∉ name.toList) ∧ '&' ∉ "2*(x-1) - 3".toList ∧
      Fragment.OnlyInside ')' "2*(x-1) - 3".toList ∧
      SameOutcome (Parser.parse (Vocabulary.standard 0.5) "(2*(x-1) - 3)")
        (Parser.parse (Vocabulary.standard 0.5) "2*(x-1) - 3") ∧
      SameOutcome (Parser.parse (Vocabulary.standard 0.5) "(2*(x-1) )- 3")
        (Parser.parse (Vocabulary.standard 0.5) "2*(x-1) - 3") := by
  have hnames := Vocabulary.amp_notMem_standard 0.5
  have hamp : '&' ∉ "2*(x-1) - 3".toList := by decide
  have hstray : Fragment.OnlyInside ')' "2*(x-1) - 3".toList := by decide
  obtain ⟨hwhole, hpiece⟩ := parse_wrapped hnames hamp hstray
  let left : Outline := "2*".toList.map .plain ++ .group "x-1".toList :: " ".toList.map .plain
  let right : Outline := " 3".toList.map .plain
  have htext : ofText "2*(x-1) - 3".toList = .ok (left ++ .plain '-' :: right) :=
    ofText_eq_ok_iff_closed.mpr (by decide)
  have hleft := hpiece [] _ [] _ .subtract [] [right] left (by decide) rfl rfl htext (by decide)
    (by decide) (by decide)
  exact ⟨hnames, hamp, hstray, hwhole, hleft.2⟩

end Formula.Outline
