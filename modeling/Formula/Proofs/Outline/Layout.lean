import Formula.Proofs.Outline.Squeeze
import Formula.Proofs.Outline.Wrapping

/-!
# Layout does not matter

Blanks beside an operator or a bracket and at the ends of a text do not change what it is read to,
while no name has a blank in it (`parse_insert_blank`). Only a `)` that closes no bracket is an
ordinary character: it may end the name of a variable, and blanks in front of it would not.

An outline is read like its squeezed form (`readsAlike_squeeze`), and blanks leave no trace in the
squeezed form wherever they may stand in the text, also in a group (`exists_insert_blank`).
-/

namespace Formula

/-! ### Names in front of blanks -/

/-- Blanks behind a text are in no name that begins it. -/
theorem Vocabulary.recognises_append_blank {α : Type} {vocabulary : Vocabulary α}
    (hsolid : ∀ name ∈ vocabulary.names, ∀ c ∈ name.toList, Text.isBlank c = false)
    {b : Fragment} (hb : b.allBlank = true) (s : Fragment) :
    vocabulary.functionAt? (s ++ b) = vocabulary.functionAt? s ∧
      vocabulary.constantAt? (s ++ b) = vocabulary.constantAt? s := by
  cases b with
  | nil => simp
  | cons c b =>
    have hnames : ∀ name ∈ vocabulary.names, c ∉ name.toList := by
      intro name hname hc
      have hblank := List.all_eq_true.mp hb c List.mem_cons_self
      exact Bool.false_ne_true ((hsolid name hname c hc).symm.trans hblank)
    exact ⟨functionAt?_append_cons hnames s b, constantAt?_append_cons hnames s b⟩

namespace Outline

/-! ### Characters in front of a group -/

theorem dropWhile_map_plain (s : Fragment) :
    (s.map Piece.plain).dropWhile Piece.isBlank = (s.dropWhile Text.isBlank).map .plain :=
  List.dropWhile_map ..

theorem trim_map (s : Fragment) : trim (s.map .plain) = s.trim.map .plain := by
  rw [trim, Text.trimBy, dropWhile_map_plain, List.rdropWhile, ← List.map_reverse,
    dropWhile_map_plain, ← List.map_reverse]
  rfl

theorem trim_before_group (s inner : Fragment) (o : Outline) :
    trim (s.map .plain ++ .group inner :: o) =
      (s.dropWhile Text.isBlank).map .plain ++ .group inner :: o.rdropWhile Piece.isBlank := by
  rw [trim, Text.trimBy_append (by rfl), dropWhile_map_plain]

theorem firstGroup?_before_group (s inner : Fragment) (o : Outline) :
    firstGroup? (s.map .plain ++ .group inner :: o) = some inner := by
  induction s with
  | nil => rfl
  | cons c s ih => exact ih

/-- A group with blanks around it is a blank group if it is blank inside. -/
theorem isBlankGroup_before_group (s inner : Fragment) (o : Outline) :
    isBlankGroup (s.map .plain ++ .group inner :: o) =
      (s.allBlank && inner.allBlank && o.allBlank) := by
  have hs : s.allBlank = true ↔ s.dropWhile Text.isBlank = [] := by
    rw [Fragment.allBlank, List.all_eq_true, List.dropWhile_eq_nil_iff]
  have ho : o.allBlank = true ↔ o.rdropWhile Piece.isBlank = [] := by
    rw [allBlank, List.all_eq_true, List.rdropWhile_eq_nil_iff]
  rw [isBlankGroup, trim_before_group]
  cases hleft : s.dropWhile Text.isBlank with
  | cons c s' =>
    -- something stands in front of the group
    have hsolid : s.allBlank = false := by
      rw [Bool.eq_false_iff, ne_eq, hs, hleft]
      exact List.cons_ne_nil _ _
    rw [hsolid]
    rfl
  | nil =>
    rw [hs.mpr hleft]
    cases hright : o.rdropWhile Piece.isBlank with
    | cons piece o' =>
      -- something stands behind the group
      have hsolid : o.allBlank = false := by
        rw [Bool.eq_false_iff, ne_eq, ho, hright]
        exact List.cons_ne_nil _ _
      rw [hsolid, Bool.and_false]
      rfl
    | nil =>
      rw [ho.mpr hright, Bool.and_true]
      rfl

/-- What stands behind the first `n` characters in front of a group. Blanks in front of these are
not counted. -/
def behind (n : Nat) (s inner : Fragment) (o : Outline) : Outline :=
  ((s.dropWhile Text.isBlank).drop n).map .plain ++ .group inner :: o

theorem drop_dropWhile_sublist (n : Nat) (s : Fragment) :
    List.Sublist (((s.dropWhile Text.isBlank).drop n).map Piece.plain) (s.map .plain) :=
  ((List.drop_sublist n _).trans (List.dropWhile_sublist Text.isBlank)).map Piece.plain

theorem behind_sublist (n : Nat) (s inner : Fragment) (o : Outline) :
    List.Sublist (behind n s inner o) (s.map .plain ++ .group inner :: o) :=
  (drop_dropWhile_sublist n s).append_right _

/-- To take a name away from the trimmed outline is to take it away behind the blanks in front. -/
theorem drop_trim_before_group {n : Nat} {s : Fragment} (hn : n ≤ (s.dropWhile Text.isBlank).length)
    (inner : Fragment) (o : Outline) :
    (trim (s.map .plain ++ .group inner :: o)).drop n =
      behind n s inner (o.rdropWhile Piece.isBlank) := by
  rw [trim_before_group, List.drop_append_of_le_length (by simpa using hn), ← List.map_drop]
  rfl

theorem isBlankGroup_behind (n : Nat) (s inner : Fragment) (o : Outline) :
    isBlankGroup (behind n s inner o) =
      (Fragment.allBlank ((s.dropWhile Text.isBlank).drop n) && inner.allBlank && o.allBlank) :=
  isBlankGroup_before_group _ inner o

variable {α : Type} [Zero α] [Numeral α] {vocabulary : Vocabulary α}

/-- The equation of `read` where characters stand in front of a group and there is no operator. -/
theorem read_before_group
    (hsolid : ∀ name ∈ vocabulary.names, ∀ c ∈ name.toList, Text.isBlank c = false)
    {s inner : Fragment} {o g : Outline}
    (hop : loosestIn? (s.map .plain ++ .group inner :: o) = none)
    (hg : ofText inner.trim = .ok g) :
    read vocabulary (s.map .plain ++ .group inner :: o) =
      match vocabulary.functionAt? s.trim with
      | some (name, apply) =>
        if isBlankGroup (behind name.length s inner o) then
          return .call name apply []
        else do
          let tree ← read vocabulary (behind name.length s inner o)
          return .call name apply tree.elements
      | none =>
      match vocabulary.constantAt? s.trim with
      | some (name, value) => return .constant name value
      | none => read vocabulary g := by
  obtain ⟨b, hs, hb⟩ := Text.exists_dropWhile_eq (p := Text.isBlank) s
  rw [← Text.trim_eq_trimBy] at hs
  obtain ⟨hfun, hconst⟩ := Vocabulary.recognises_append_blank hsolid
    (List.all_eq_true.mpr hb) s.trim
  rw [← hs] at hfun hconst
  rw [read_eq, loosestIn?_trim, hop]
  dsimp only
  have hfront : front (trim (s.map .plain ++ .group inner :: o)) = s.dropWhile Text.isBlank := by
    rw [trim_before_group, front_map_plain_append]
  rw [hfront, hfun, hconst]
  cases hname : vocabulary.functionAt? s.trim with
  | some entry =>
    obtain ⟨name, apply⟩ := entry
    have hlen := (Vocabulary.functionAt?_length (hfun.trans hname)).2
    -- the blanks that are taken away at the right end are taken away from the argument
    have hread : read vocabulary (behind name.length s inner (o.rdropWhile Piece.isBlank)) =
        read vocabulary (behind name.length s inner o) := by
      apply read_congr
      rw [behind, behind, trim_before_group, trim_before_group, List.rdropWhile_idempotent]
    have hblank : allBlank (o.rdropWhile Piece.isBlank) = o.allBlank := by
      rw [Bool.eq_iff_iff, allBlank, List.all_eq_true, allBlank, List.all_eq_true,
        ← List.rdropWhile_eq_nil_iff, ← List.rdropWhile_eq_nil_iff, List.rdropWhile_idempotent]
    dsimp only
    rw [drop_trim_before_group hlen, hread, isBlankGroup_behind, isBlankGroup_behind, hblank]
  | none =>
    dsimp only
    cases vocabulary.constantAt? s.trim with
    | some entry => rfl
    | none =>
      dsimp only
      rw [trim_before_group, firstGroup?_before_group]
      dsimp only
      rw [hg]

/-! ### Squeezed outlines -/

theorem IsRun.exists_map_plain {r : Outline} (hr : IsRun r) : ∃ s : Fragment, r = s.map .plain := by
  induction r with
  | nil => exact ⟨[], rfl⟩
  | cons piece r ih =>
    obtain ⟨hpiece, hr⟩ := List.forall_mem_cons.mp hr
    obtain ⟨s, rfl⟩ := ih hr
    cases piece with
    | plain c => exact ⟨c :: s, rfl⟩
    | group inner => exact nomatch hpiece

/-- Blanks are taken away from the ends of a run in front of a group, and from inside the group. -/
theorem squeeze_before_group {s : Fragment} (hs : IsRun (s.map .plain)) {g : Outline}
    (hg : Closed g) (o : Outline) :
    squeeze (s.map .plain ++ .group g.text :: o) =
      s.trim.map .plain ++ .group (squeeze g).text :: squeeze o := by
  rw [squeeze_run_append hs rfl, trim_map, Piece.squeeze, hg.scan_text]

/-- Behind characters at the left end of a text there are blanks at the right end that the trimmed
text does not have. -/
theorem exists_drop_eq {s : Fragment} {n : Nat} (hn : n ≤ s.trim.length) :
    ∃ b, Fragment.allBlank b = true ∧
      (s.dropWhile Text.isBlank).drop n = s.trim.drop n ++ b := by
  obtain ⟨b, hdrop, hb⟩ := Text.exists_dropWhile_eq (p := Text.isBlank) s
  rw [← Text.trim_eq_trimBy] at hdrop
  exact ⟨b, List.all_eq_true.mpr hb, by rw [hdrop, List.drop_append_of_le_length hn]⟩

theorem dropWhile_trim (s : Fragment) : s.trim.dropWhile Text.isBlank = s.trim :=
  Text.dropWhile_trimBy s

section Behind

variable {n : Nat} {s : Fragment} (hn : n ≤ s.trim.length) {g : Outline} (o : Outline)
include hn

/-- Whether a call has no arguments is seen without the blanks as well. -/
theorem isBlankGroup_behind_squeeze :
    isBlankGroup (behind n s.trim (squeeze g).text (squeeze o)) =
      isBlankGroup (behind n s g.text o) := by
  obtain ⟨b, hb, hdrop⟩ := exists_drop_eq hn
  have hblank : Fragment.allBlank (s.trim.drop n ++ b) = Fragment.allBlank (s.trim.drop n) := by
    rw [Fragment.allBlank, List.all_append, ← Fragment.allBlank, ← Fragment.allBlank, hb,
      Bool.and_true]
  rw [isBlankGroup_behind, isBlankGroup_behind, dropWhile_trim, hdrop, hblank, allBlank_text,
    allBlank_text, allBlank_squeeze, allBlank_squeeze]

/-- It is the same to squeeze what is behind a name and to take the name off what is squeezed. -/
theorem read_behind_squeeze (hs : IsRun (s.map .plain)) (hg : Closed g) :
    read vocabulary (behind n s.trim (squeeze g).text (squeeze o)) =
      read vocabulary (squeeze (behind n s g.text o)) := by
  have hrun : IsRun (((s.dropWhile Text.isBlank).drop n).map .plain) :=
    fun piece hpiece => hs piece ((drop_dropWhile_sublist n s).mem hpiece)
  have htrim : Fragment.trim ((s.dropWhile Text.isBlank).drop n) =
      (s.trim.drop n).dropWhile Text.isBlank := by
    obtain ⟨b, hb, hdrop⟩ := exists_drop_eq hn
    rw [hdrop, Text.trim_eq_trimBy, Text.trimBy_append_right (List.all_eq_true.mp hb),
      Text.trim_eq_trimBy, Text.trimBy_drop_trimBy]
  apply read_congr
  rw [behind, behind, squeeze_before_group hrun hg, dropWhile_trim, trim_before_group,
    trim_before_group, htrim, List.dropWhile_idempotent]

end Behind

section Squeezed

variable (hsolid : ∀ name ∈ vocabulary.names, ∀ c ∈ name.toList, Text.isBlank c = false)
include hsolid

/-- Squeezing changes nothing in front of a group, if it does not in the group and in what follows
a name. -/
theorem readsAlike_squeeze_before_group {s : Fragment} (hs : IsRun (s.map .plain)) {g o : Outline}
    (hop : loosestIn? (s.map .plain ++ .group g.text :: o) = none) (hg : Closed g)
    (hgroup : ReadsAlike vocabulary g (squeeze g))
    (hargument : ∀ n, 0 < n → n ≤ s.trim.length →
      ReadsAlike vocabulary (behind n s g.text o) (squeeze (behind n s g.text o))) :
    ReadsAlike vocabulary (s.map .plain ++ .group g.text :: o)
      (squeeze (s.map .plain ++ .group g.text :: o)) := by
  have hop' := (loosestIn?_squeeze _).trans hop
  have htrim : Fragment.trim s.trim = s.trim := Text.trimBy_trimBy s
  rw [squeeze_before_group hs hg] at hop' ⊢
  intro vars
  rw [read_before_group hsolid hop hg.ofText_trim,
    read_before_group hsolid hop' (closed_squeeze hg).ofText_trim, htrim]
  cases hname : vocabulary.functionAt? s.trim with
  | some entry =>
    obtain ⟨name, apply⟩ := entry
    obtain ⟨hpos, hlen⟩ := Vocabulary.functionAt?_length hname
    dsimp only
    rw [isBlankGroup_behind_squeeze hlen, read_behind_squeeze hlen o hs hg]
    split
    · exact .refl _
    · exact (hargument name.length hpos hlen vars).bind fun _ => .refl _
  | none =>
    dsimp only
    cases vocabulary.constantAt? s.trim with
    | some entry => exact .refl _
    | none =>
      dsimp only
      rw [read_trim, read_trim]
      exact hgroup vars

/-- An outline is read like its squeezed form. -/
theorem readsAlike_squeeze {o : Outline} (h : Closed o) : ReadsAlike vocabulary o (squeeze o) := by
  -- a piece, an argument and the text of a group are all shorter than the whole text
  induction hn : o.text.length using Nat.strong_induction_on generalizing o with
  | _ n ih =>
    cases hop : o.loosestIn? with
    | some operator =>
      have hmark := mem_of_loosestIn? hop
      refine readsAlike_of_pieces hop ((loosestIn?_squeeze o).trans hop) ?_
      rw [pieces_squeeze hmark, List.forall₂_map_right_iff, List.forall₂_same]
      intro p hp
      obtain ⟨hsub, hlen⟩ := pieces_sublist hmark hp
      exact ⟨(allBlank_squeeze p).symm,
        ih _ (hn ▸ length_text_lt_of_sublist hsub hlen) (h.sublist hsub) rfl⟩
    | none =>
      rcases exists_run o with hr | ⟨r, edge, o, rfl, hr, he⟩
      · exact .of_eq (by rw [squeeze_run hr, read_trim])
      cases edge with
      | plain c =>
        -- without an operator the first edge is a group
        obtain ⟨operator, -, rfl⟩ := List.mem_map.mp (of_decide_eq_true he)
        exact absurd (by simp) (notMem_of_loosestIn?_eq_none hop operator)
      | group inner =>
        obtain ⟨s, rfl⟩ := hr.exists_map_plain
        have hinner : Fragment.Closed inner := (closed_cons.mp (closed_append.mp h).2).1
        obtain ⟨g, hg⟩ := exists_ofText_iff.mpr hinner.depth
        obtain ⟨hclosed, rfl⟩ := ofText_eq_ok_iff_closed.mp hg
        refine readsAlike_squeeze_before_group hsolid hr hop hclosed
          (ih _ ?_ hclosed rfl) fun m hpos hm => ?_
        · rw [← hn, text_append, text_map_plain, text_cons, Piece.text]
          simp only [List.length_append, List.length_cons]
          omega
        · have hsub := behind_sublist m s g.text o
          refine ih _ (hn ▸ length_text_lt_of_sublist hsub ?_) (h.sublist hsub) rfl
          have hle := (List.dropWhile_sublist (l := s) Text.isBlank).length_le
          have htrim : s.trim.length ≤ s.length := (Text.trimBy_sublist s).length_le
          simp only [behind, List.length_append, List.length_map, List.length_drop]
          omega

end Squeezed

/-! ### Blanks in a text -/

/-- The characters beside which blanks may stand: the brackets and the symbols of the operators. -/
def delimiters : List Char := ['(', ')'] ++ Operator.loosestFirst.map Operator.symbol

/-- Where blanks may stand in a text, between two parts of it: at its ends and beside a delimiter,
but not beside a `)` that closes no bracket. -/
structure Gap (a b : Fragment) : Prop where
  place : a = [] ∨ b = [] ∨ (∃ c ∈ a.getLast?, c ∈ delimiters) ∨ ∃ c ∈ b.head?, c ∈ delimiters
  closes_left : ∀ s, a = s ++ [')'] → 0 < Fragment.depth s
  closes_right : ∀ s, b = ')' :: s → 0 < Fragment.depth a

/-- Delimiters that are no brackets are operators, so that blanks beside them are at an edge. -/
theorem isEdge_of_mem_delimiters {c : Char} (hopen : c ≠ '(') (hclose : c ≠ ')')
    (h : c ∈ delimiters) : (Piece.plain c).isEdge = true := by
  refine decide_eq_true ((List.mem_append.mp h).resolve_left ?_)
  simp [hopen, hclose]

theorem eq_nil_of_text {o : Outline} (h : o.text = []) : o = [] := by
  cases o with
  | nil => rfl
  | cons piece o =>
    have hpos := piece.length_text_pos
    rw [(List.append_eq_nil_iff.mp h).1] at hpos
    exact absurd hpos (lt_irrefl _)

/-- A gap between the pieces of an outline is at its ends or beside an edge. -/
theorem Gap.isGap {o p : Outline} (ho : Closed o) (hp : Closed p) (h : Gap o.text p.text) :
    IsGap o p := by
  rcases h.place with h' | h' | ⟨c, hc, hmem⟩ | ⟨c, hc, hmem⟩
  · exact Or.inl (eq_nil_of_text h')
  · exact Or.inr (Or.inl (eq_nil_of_text h'))
  · refine Or.inr (Or.inr (Or.inl ?_))
    rcases List.eq_nil_or_concat' o with rfl | ⟨q, edge, rfl⟩
    · exact absurd hc (by simp)
    · obtain ⟨hq, hedge⟩ := closed_append.mp ho
      refine ⟨q, edge, rfl, ?_⟩
      cases edge with
      | group inner => rfl
      | plain d =>
        obtain rfl : d = c := by simpa [Piece.text] using hc
        -- a `)` outside the groups closes nothing, and no gap is beside such a one
        refine isEdge_of_mem_delimiters (closed_cons.mp hedge).1 ?_ hmem
        rintro rfl
        have hpos := h.closes_left (text q) (by simp [Piece.text])
        rw [hq.depth_text] at hpos
        exact lt_irrefl _ hpos
  · refine Or.inr (Or.inr (Or.inr ?_))
    cases p with
    | nil => exact absurd hc (by simp)
    | cons edge q =>
      refine ⟨edge, q, rfl, ?_⟩
      cases edge with
      | group inner => rfl
      | plain d =>
        obtain rfl : d = c := by simpa [Piece.text] using hc
        refine isEdge_of_mem_delimiters (closed_cons.mp hp).1 ?_ hmem
        rintro rfl
        have hpos := h.closes_right (text q) rfl
        rw [ho.depth_text] at hpos
        exact lt_irrefl _ hpos

/-- A gap in the text of a group is a gap in the group. -/
theorem Gap.of_group {a b c d : Fragment} (h : Gap (a ++ '(' :: c) (d ++ ')' :: b))
    (hclosed : Fragment.Closed (c ++ d)) : Gap c d where
  place := by
    rcases h.place with h' | h' | ⟨x, hx, hmem⟩ | ⟨x, hx, hmem⟩
    · exact absurd h' (by simp)
    · exact absurd h' (by simp)
    · cases c with
      | nil => exact Or.inl rfl
      | cons y c => exact Or.inr (Or.inr (Or.inl ⟨x, by simpa using hx, hmem⟩))
    · cases d with
      | nil => exact Or.inr (Or.inl rfl)
      | cons y d => exact Or.inr (Or.inr (Or.inr ⟨x, by simpa using hx, hmem⟩))
  closes_left := by
    rintro s rfl
    exact (Fragment.closed_iff.mp hclosed).2 s d (by simp)
  closes_right := by
    rintro s rfl
    exact (Fragment.closed_iff.mp hclosed).2 c s rfl

/-- Blanks in a gap of a text leave no trace in its squeezed outline. -/
theorem exists_insert_blank {w : Fragment} (hw : w.allBlank = true) {a b : Fragment} {o : Outline}
    (ho : Closed o) (htext : o.text = a ++ b) (hgap : Gap a b) :
    ∃ p, Closed p ∧ p.text = a ++ w ++ b ∧ squeeze p = squeeze o := by
  induction hn : o.text.length using Nat.strong_induction_on generalizing o a b with
  | _ n ih =>
    rcases exists_of_text_eq_append htext with
      ⟨p, q, rfl, rfl, rfl⟩ | ⟨p, q, c, d, rfl, rfl, rfl⟩
    -- the gap is between two pieces
    · obtain ⟨hp, hq⟩ := closed_append.mp ho
      refine ⟨p ++ w.map .plain ++ q, ?_, by simp [text_map_plain], ?_⟩
      · exact closed_append.mpr ⟨closed_append.mpr ⟨hp, closed_blank hw⟩, hq⟩
      · exact squeeze_append_blank_append (allBlank_map_plain.trans hw) (hgap.isGap hp hq)
    -- the gap is in a group, whose text is shorter
    · obtain ⟨hp, hgroup⟩ := closed_append.mp ho
      obtain ⟨hinner, hq⟩ := closed_cons.mp hgroup
      obtain ⟨g, hg⟩ := exists_ofText_iff.mpr (Fragment.Closed.depth hinner)
      obtain ⟨hclosed, hgtext⟩ := ofText_eq_ok_iff_closed.mp hg
      have hlen : g.text.length < n := by
        rw [← hn, hgtext]
        simp [Piece.text]
        omega
      obtain ⟨g', hclosed', hgtext', hsqueeze⟩ :=
        ih _ hlen hclosed hgtext (hgap.of_group hinner) rfl
      have hinner' : Fragment.Closed (c ++ w ++ d) := hinner.insert hw
      have hpiece : Piece.squeeze (.group (c ++ w ++ d)) = Piece.squeeze (.group (c ++ d)) := by
        rw [Piece.squeeze, Piece.squeeze, ← hgtext, ← hgtext', hclosed.scan_text,
          hclosed'.scan_text, hsqueeze]
      refine ⟨p ++ .group (c ++ w ++ d) :: q, ?_, by simp [Piece.text], ?_⟩
      · exact closed_append.mpr ⟨hp, closed_cons.mpr ⟨hinner', hq⟩⟩
      · rw [squeeze_append_edge rfl, squeeze_append_edge rfl, hpiece]

/-- Layout does not matter. White space anywhere at the ends of a text or beside an operator or a
bracket that is not a stray `)` changes neither the tree and the variables that are found nor the
kind of the fault. -/
theorem parse_insert_blank (hnames : ∀ name ∈ vocabulary.names, '&' ∉ name.toList)
    (hsolid : ∀ name ∈ vocabulary.names, ∀ c ∈ name.toList, Text.isBlank c = false)
    {a w b : String} (htext : '&' ∉ (a ++ b).toList) (hw : w.toList.all Text.isBlank = true)
    (hgap : Gap a.toList b.toList) :
    SameOutcome (Parser.parse vocabulary (a ++ w ++ b)) (Parser.parse vocabulary (a ++ b)) := by
  have hlist : (a ++ b).toList = a.toList ++ b.toList := String.toList_append
  have hlist' : (a ++ w ++ b).toList = a.toList ++ w.toList ++ b.toList := by simp
  refine parse_sameOutcome hnames ?_ htext ?_ ?_
  · rw [hlist] at htext
    have hamp : '&' ∉ w.toList := fun hmem =>
      absurd (List.all_eq_true.mp hw _ hmem) (by decide)
    rw [hlist']
    simpa [hamp] using htext
  · rw [hlist, hlist', Fragment.depth, Fragment.depth, Fragment.depthFrom_append,
      Fragment.depthFrom_append, Fragment.depthFrom_append, Fragment.depthFrom_allBlank hw]
  · intro p o hp ho
    obtain ⟨hclosed, htext⟩ := ofText_eq_ok_iff_closed.mp ho
    obtain ⟨p', hclosed', htext', hsqueeze⟩ :=
      exists_insert_blank hw hclosed (htext.trans hlist) hgap
    obtain rfl : p' = p := by
      rw [hlist', ofText_eq_ok_iff_closed.mpr ⟨hclosed', htext'⟩] at hp
      exact Except.ok.inj hp
    intro vars
    refine (readsAlike_squeeze hsolid hclosed' vars).trans ?_
    rw [hsqueeze]
    exact (readsAlike_squeeze hsolid hclosed vars).symm

/-- Blanks in front of a bracket, inside a call. -/
theorem parse_insert_blank_standard :
    (∀ name ∈ (Vocabulary.standard 0.5).names, '&' ∉ name.toList) ∧
      (∀ name ∈ (Vocabulary.standard 0.5).names, ∀ c ∈ name.toList, Text.isBlank c = false) ∧
      '&' ∉ ("-max(2,x" ++ ")^2").toList ∧ "\t ".toList.all Text.isBlank = true ∧
      Gap "-max(2,x".toList ")^2".toList ∧
      SameOutcome (Parser.parse (Vocabulary.standard 0.5) ("-max(2,x" ++ "\t " ++ ")^2"))
        (Parser.parse (Vocabulary.standard 0.5) ("-max(2,x" ++ ")^2")) := by
  have hnames := Vocabulary.amp_notMem_standard 0.5
  have hsolid := Vocabulary.isBlank_standard 0.5
  have hgap : Gap "-max(2,x".toList ")^2".toList :=
    { place := Or.inr (Or.inr (Or.inr ⟨')', rfl, by decide⟩))
      closes_left := fun s hs => absurd (congrArg List.getLast? hs) (by simp)
      closes_right := fun _ _ => by decide }
  exact ⟨hnames, hsolid, by decide, by decide, hgap,
    parse_insert_blank hnames hsolid (by decide) (by decide) hgap⟩

end Outline

end Formula
