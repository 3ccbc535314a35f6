import Formula.Proofs.Outline.Outcome

/-!
# Outlines without layout

The *edges* of an outline are its operators and its groups; between them stand runs of other
characters. `squeeze` takes away the blanks around every run, also in the texts of groups. It is a
normal form for layout: blanks beside an edge and at the ends leave no trace
(`squeeze_append_blank_append`).

Squeezing goes on apart on the two sides of an edge (`squeeze_append_edge`), so that a squeezed
outline is cut by the same operator into the squeezed pieces (`loosestIn?_squeeze`,
`pieces_squeeze`).
-/

namespace Formula

/-- Whether a piece is an operator or a group. -/
def Piece.isEdge : Piece → Bool
  | .plain c => decide (c ∈ Operator.loosestFirst.map Operator.symbol)
  | .group _ => true

namespace Outline

theorem isEdge_symbol (operator : Operator) : (Piece.plain operator.symbol).isEdge = true := by
  cases operator <;> rfl

/-- No edge is blank. -/
theorem isBlank_of_isEdge {edge : Piece} (h : edge.isEdge = true) : edge.isBlank = false := by
  cases edge with
  | plain c =>
    obtain ⟨operator, -, rfl⟩ := List.mem_map.mp (of_decide_eq_true h)
    exact isBlank_symbol operator
  | group inner => rfl

/-! ### Runs -/

/-- Whether there is no edge in the outline. -/
def IsRun (r : Outline) : Prop := ∀ piece ∈ r, piece.isEdge = false

theorem isRun_append {r s : Outline} : IsRun (r ++ s) ↔ IsRun r ∧ IsRun s := List.forall_mem_append

/-- Blanks are a run, for there is no edge in them. -/
theorem isRun_of_allBlank {b : Outline} (h : b.allBlank = true) : IsRun b := by
  intro piece hpiece
  rw [Bool.eq_false_iff]
  intro hedge
  have hblank := List.all_eq_true.mp h piece hpiece
  rw [isBlank_of_isEdge hedge] at hblank
  exact nomatch hblank

/-- An outline is a run, or it is cut at its first edge. -/
theorem exists_run (o : Outline) :
    IsRun o ∨ ∃ r edge p, o = r ++ edge :: p ∧ IsRun r ∧ edge.isEdge = true := by
  induction o with
  | nil => exact Or.inl fun piece hpiece => absurd hpiece List.not_mem_nil
  | cons piece o ih =>
    cases he : piece.isEdge with
    | true => exact Or.inr ⟨[], piece, o, rfl, fun _ hmem => absurd hmem List.not_mem_nil, he⟩
    | false =>
      rcases ih with hr | ⟨r, edge, p, rfl, hr, hedge⟩
      · exact Or.inl (List.forall_mem_cons.mpr ⟨he, hr⟩)
      · exact Or.inr ⟨piece :: r, edge, p, rfl, List.forall_mem_cons.mpr ⟨he, hr⟩, hedge⟩

/-- An outline is a run, or a run and an edge stand in front of another outline. -/
@[elab_as_elim]
theorem induction_on_runs {motive : Outline → Prop} (o : Outline) (run : ∀ r, IsRun r → motive r)
    (edge : ∀ r e p, IsRun r → e.isEdge = true → motive p → motive (r ++ e :: p)) : motive o := by
  induction hn : o.length using Nat.strong_induction_on generalizing o with
  | _ n ih =>
    rcases exists_run o with hr | ⟨r, e, p, rfl, hr, he⟩
    · exact run o hr
    · refine edge r e p hr he (ih p.length ?_ p rfl)
      rw [← hn, List.length_append, List.length_cons]
      omega

theorem span_run {r : Outline} (hr : IsRun r) {edge : Piece} (he : edge.isEdge = true)
    (o : Outline) :
    (r ++ edge :: o).takeWhile (fun piece => !piece.isEdge) = r ∧
      (r ++ edge :: o).dropWhile (fun piece => !piece.isEdge) = edge :: o := by
  have hall : ∀ piece ∈ r, (!piece.isEdge) = true := fun piece hpiece => by simp [hr piece hpiece]
  rw [List.takeWhile_append_of_pos hall, List.dropWhile_append_of_pos hall,
    List.takeWhile_cons_of_neg (by simp [he]), List.dropWhile_cons_of_neg (by simp [he]),
    List.append_nil]
  exact ⟨rfl, rfl⟩

/-! ### Squeezing -/

/-- The outline without the blanks around its runs, also in the texts of its groups as far as
brackets are closed in them. -/
def squeeze (o : Outline) : Outline :=
  match _h : o.dropWhile fun piece => !piece.isEdge with
  | [] => o.trim
  | .plain c :: rest =>
    trim (o.takeWhile fun piece => !piece.isEdge) ++ .plain c :: squeeze rest
  | .group inner :: rest =>
    trim (o.takeWhile fun piece => !piece.isEdge) ++
      .group (text (squeeze (scan inner).1)) :: squeeze rest
termination_by o.text.length
decreasing_by
  all_goals
    have hle := length_text_le_of_sublist
      (_h ▸ List.dropWhile_sublist fun piece : Piece => !piece.isEdge)
    simp only [text_cons, Piece.text, List.length_append, List.length_cons] at hle
  · omega
  -- the inside of a group is shorter, and scanning makes nothing longer
  · have hscan := congrArg List.length (scan_text inner)
    rw [List.length_append] at hscan
    omega
  · omega

end Outline

/-- The piece with the text of a group squeezed. -/
def Piece.squeeze : Piece → Piece
  | .plain c => .plain c
  | .group inner => .group (Outline.squeeze (Outline.scan inner).1).text

namespace Outline

theorem isEdge_squeeze (piece : Piece) : piece.squeeze.isEdge = piece.isEdge := by
  cases piece <;> rfl

/-- In a run, only the blanks at its ends are taken away. -/
theorem squeeze_run {r : Outline} (hr : IsRun r) : squeeze r = r.trim := by
  have hdrop : r.dropWhile (fun piece => !piece.isEdge) = [] :=
    List.dropWhile_eq_nil_iff.mpr fun piece hpiece => by simp [hr piece hpiece]
  rw [squeeze]
  split
  · rfl
  · simp_all
  · simp_all

/-- The first run is trimmed, and what is behind the edge is squeezed by itself. -/
theorem squeeze_run_append {r : Outline} (hr : IsRun r) {edge : Piece} (he : edge.isEdge = true)
    (o : Outline) : squeeze (r ++ edge :: o) = r.trim ++ edge.squeeze :: squeeze o := by
  obtain ⟨htake, hdrop⟩ := span_run hr he o
  rw [squeeze, htake]
  split
  · simp_all
  · rename_i c rest hc
    obtain ⟨rfl, rfl⟩ := List.cons.inj (hdrop.symm.trans hc)
    rfl
  · rename_i inner rest hinner
    obtain ⟨rfl, rfl⟩ := List.cons.inj (hdrop.symm.trans hinner)
    rfl

/-- The two sides of an edge are squeezed apart. -/
theorem squeeze_append_edge {edge : Piece} (he : edge.isEdge = true) (o p : Outline) :
    squeeze (o ++ edge :: p) = squeeze o ++ edge.squeeze :: squeeze p := by
  -- the runs of `o` are squeezed one after another until its last one meets the edge
  induction o using induction_on_runs with
  | run r hr => rw [squeeze_run_append hr he, squeeze_run hr]
  | edge r e o hr he' ih =>
    rw [List.append_assoc, List.cons_append, squeeze_run_append hr he', ih,
      squeeze_run_append hr he', List.append_assoc, List.cons_append]

/-- Blanks in front belong to the first run, which is trimmed. -/
theorem squeeze_append_left {b : Outline} (hb : b.allBlank = true) (o : Outline) :
    squeeze (b ++ o) = squeeze o := by
  have hrun := isRun_of_allBlank hb
  rcases exists_run o with hr | ⟨r, edge, p, rfl, hr, he⟩
  · rw [squeeze_run (isRun_append.mpr ⟨hrun, hr⟩), squeeze_run hr, trim_append_left hb]
  · rw [← List.append_assoc, squeeze_run_append (isRun_append.mpr ⟨hrun, hr⟩) he,
      squeeze_run_append hr he, trim_append_left hb]

theorem squeeze_append_right {b : Outline} (hb : b.allBlank = true) (o : Outline) :
    squeeze (o ++ b) = squeeze o := by
  have hrun := isRun_of_allBlank hb
  induction o using induction_on_runs with
  | run r hr =>
    rw [squeeze_run (isRun_append.mpr ⟨hr, hrun⟩), squeeze_run hr, trim_append_right hb]
  | edge r e o hr he ih =>
    rw [List.append_assoc, List.cons_append, squeeze_run_append hr he, ih,
      squeeze_run_append hr he]

/-- Where layout may stand in an outline: at its ends and on both sides of an edge. -/
def IsGap (o p : Outline) : Prop :=
  o = [] ∨ p = [] ∨ (∃ q edge, o = q ++ [edge] ∧ edge.isEdge = true) ∨
    ∃ edge q, p = edge :: q ∧ edge.isEdge = true

/-- Blanks at the ends of an outline or beside an edge leave no trace. -/
theorem squeeze_append_blank_append {b : Outline} (hb : b.allBlank = true) {o p : Outline}
    (h : IsGap o p) : squeeze (o ++ b ++ p) = squeeze (o ++ p) := by
  rcases h with rfl | rfl | ⟨q, edge, rfl, he⟩ | ⟨edge, q, rfl, he⟩
  · exact squeeze_append_left hb p
  · rw [List.append_nil, List.append_nil, squeeze_append_right hb]
  · rw [List.append_assoc, List.append_assoc, List.append_assoc, List.singleton_append,
      List.singleton_append, squeeze_append_edge he, squeeze_append_edge he,
      squeeze_append_left hb]
  · rw [squeeze_append_edge he, squeeze_append_edge he, squeeze_append_right hb]

/-! ### What squeezing keeps -/

/-- Squeezing makes no new characters. -/
theorem plain_mem_squeeze {o : Outline} {c : Char} (h : .plain c ∈ squeeze o) : .plain c ∈ o := by
  induction o using induction_on_runs with
  | run r hr =>
    rw [squeeze_run hr] at h
    exact r.trim_sublist.mem h
  | edge r e o hr he ih =>
    rw [squeeze_run_append hr he] at h
    rcases List.mem_append.mp h with h | h
    · exact List.mem_append_left _ (r.trim_sublist.mem h)
    · refine List.mem_append_right _ (List.mem_cons.mpr ?_)
      rcases List.mem_cons.mp h with h | h
      · cases e with
        | plain d => exact Or.inl h
        | group inner => exact nomatch h
      · exact Or.inr (ih h)

/-- Squeezing takes no operator away and makes none. -/
theorem mark_mem_squeeze_iff {o : Outline} {operator : Operator} :
    .plain operator.symbol ∈ squeeze o ↔ .plain operator.symbol ∈ o := by
  refine ⟨plain_mem_squeeze, fun h => ?_⟩
  obtain ⟨l, r, rfl⟩ := List.append_of_mem h
  rw [squeeze_append_edge (isEdge_symbol operator)]
  exact List.mem_append_right _ List.mem_cons_self

theorem loosestIn?_squeeze (o : Outline) : (squeeze o).loosestIn? = o.loosestIn? :=
  loosestIn?_congr fun _ => mark_mem_squeeze_iff

theorem allBlank_squeeze (o : Outline) : (squeeze o).allBlank = o.allBlank := by
  rcases exists_run o with hr | ⟨r, e, p, rfl, hr, he⟩
  · rw [squeeze_run hr, allBlank_trim]
  · have he' : e.squeeze.isBlank = false := isBlank_of_isEdge ((isEdge_squeeze e).trans he)
    rw [squeeze_run_append hr he]
    simp [allBlank, isBlank_of_isEdge he, he']

/-- A closed outline stays closed. -/
theorem closed_squeeze {o : Outline} (h : Closed o) : Closed (squeeze o) := by
  -- both the text of a group and what is behind an edge are shorter than the whole text
  induction hn : o.text.length using Nat.strong_induction_on generalizing o with
  | _ n ih =>
    rcases exists_run o with hr | ⟨r, e, p, rfl, hr, he⟩
    · rw [squeeze_run hr]
      exact h.sublist o.trim_sublist
    · obtain ⟨hrun, hedge⟩ := closed_append.mp h
      obtain ⟨he', hp⟩ := closed_cons.mp hedge
      have hlen : r.text.length + (e.text.length + (text p).length) = n := by
        simpa using hn
      have hpos := e.length_text_pos
      rw [squeeze_run_append hr he]
      refine closed_append.mpr ⟨hrun.sublist r.trim_sublist, closed_cons.mpr ⟨?_, ?_⟩⟩
      · cases e with
        | plain c => exact he'
        | group inner =>
          obtain ⟨g, hg⟩ := exists_ofText_iff.mpr he'.depth
          have hscan := ofText_eq_ok_iff.mp hg
          obtain ⟨hclosed, rfl⟩ := ofText_eq_ok_iff_closed.mp hg
          simp only [Piece.text, List.length_cons, List.length_append] at hlen
          have hclosed' := ih g.text.length (by omega) hclosed rfl
          -- a stray bracket would have been there before
          have hnot := hclosed.closed_text_iff.mp he'
          show Fragment.Closed (squeeze (scan g.text).1).text
          rw [hscan]
          exact hclosed'.closed_text_iff.mpr fun hmem => hnot (plain_mem_squeeze hmem)
      · exact ih (text p).length (by omega) hp rfl

/-! ### Cuts -/

/-- Operands are squeezed one by one, since operators are edges. -/
theorem squeeze_intercalate (operator : Operator) (ps : List Outline) :
    squeeze ([.plain operator.symbol].intercalate ps) =
      [.plain operator.symbol].intercalate (ps.map squeeze) := by
  induction ps with
  | nil => exact squeeze_run fun piece hpiece => absurd hpiece List.not_mem_nil
  | cons p ps ih =>
    cases ps with
    | nil => simp
    | cons q ps =>
      rw [List.intercalate_cons_cons, List.append_assoc, List.singleton_append,
        squeeze_append_edge (isEdge_symbol operator), ih]
      simp only [List.map_cons, List.intercalate_cons_cons, List.append_assoc,
        List.singleton_append]
      rfl

/-- A squeezed outline is cut into the squeezed pieces. -/
theorem pieces_squeeze {operator : Operator} {o : Outline} (hmark : .plain operator.symbol ∈ o) :
    pieces operator (squeeze o) = (pieces operator o).map squeeze := by
  have hedge := isEdge_symbol operator
  have hsplit : (squeeze o).splitOn (.plain operator.symbol) =
      (o.splitOn (.plain operator.symbol)).map squeeze := by
    have hjoin : [.plain operator.symbol].intercalate (o.splitOn (.plain operator.symbol)) = o :=
      List.intercalate_splitOn _
    -- the squeezed pieces still have no mark in them, so that a cut finds them again
    conv_lhs => rw [← hjoin, squeeze_intercalate]
    refine List.splitOn_intercalate _ (fun p hp => ?_) (by simp)
    obtain ⟨q, hq, rfl⟩ := List.mem_map.mp hp
    exact fun hmem => Text.notMem_of_mem_splitOn hq (plain_mem_squeeze hmem)
  cases operator with
  | modulo =>
    obtain ⟨left, right, rfl, hleft, hcut⟩ := Text.exists_firstCut? hmark
    rw [pieces, pieces, hcut, squeeze_append_edge hedge]
    exact congrArg pieces.both (Text.firstCut?_append (fun h => hleft (plain_mem_squeeze h)) _)
  | raise =>
    obtain ⟨left, right, rfl, hright, hcut⟩ := Text.exists_lastCut? hmark
    rw [pieces, pieces, hcut, squeeze_append_edge hedge]
    exact congrArg pieces.both (Text.lastCut?_append (fun h => hright (plain_mem_squeeze h)) _)
  | _ => exact hsplit

end Outline

end Formula
