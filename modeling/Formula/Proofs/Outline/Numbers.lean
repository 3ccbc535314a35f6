import Formula.Proofs.Outline.Agreement
import Formula.Proofs.Outline.Closed

/-!
# The numbers of placeholders

Which placeholders a masked fragment holds is told by an outline of it in which each group has the
number of its placeholder for a text: this is an outline that the groups `Groups.numbered` mask. So
whatever is known of the cuts of masked fragments is known of the numbers in them.

* `Closed.masked_numberFrom`: a text whose groups have just been set aside holds the numbers that
  they have got.
* `Masked.mem_numbers`: a placeholder that is found has one of the numbers of the fragment.
* `operands_inners_sublist`: no two operands have the same group.
-/

namespace Formula

namespace Groups

/-- Groups that have their own numbers for texts. A fragment is masked with them when the number of
each of its placeholders is below `n`, and its outline tells the numbers. -/
def numbered (n : Nat) : Groups := ⟨((List.range n).map (Nat.toDigits 10)).toArray⟩

/-- The group with a number below `n` is the numeral of the number. -/
theorem get?_numbered {n index : Nat} {text : Fragment} :
    (numbered n).get? index = some text ↔ index < n ∧ text = Nat.toDigits 10 index := by
  rw [get?_eq_toList, numbered, toList, List.getElem?_map, Option.map_eq_some_iff]
  simp only [List.getElem?_eq_some_iff, List.getElem_range, List.length_range]
  constructor
  · rintro ⟨_, ⟨hlt, rfl⟩, rfl⟩
    exact ⟨hlt, rfl⟩
  · rintro ⟨hlt, rfl⟩
    exact ⟨index, ⟨hlt, rfl⟩, rfl⟩

/-- With a larger bound there are more groups. -/
theorem extends_numbered {n m : Nat} (h : n ≤ m) : (numbered n).Extends (numbered m) := by
  obtain ⟨k, rfl⟩ := Nat.exists_eq_add_of_le h
  refine List.IsPrefix.map _ ?_
  rw [List.range_add]
  exact List.prefix_append _ _

end Groups

namespace Outline

/-- The numbers that the texts of the groups write, in order. -/
def numbers (o : Outline) : List Nat := o.inners.filterMap placeholderIndex?

/-- The outline with the groups numbered in order. -/
def numberFrom (first : Nat) : Outline → Outline
  | [] => []
  | .plain c :: o => .plain c :: numberFrom first o
  | .group _ :: o => .group (Nat.toDigits 10 first) :: numberFrom (first + 1) o

/-- The first group is one of the groups. -/
theorem mem_inners_of_firstGroup? {o : Outline} {inner : Fragment}
    (h : o.firstGroup? = some inner) : inner ∈ o.inners := by
  induction o with
  | nil => exact nomatch h
  | cons piece o ih =>
    cases piece with
    | plain c => exact ih h
    | group inner' =>
      obtain rfl : inner' = inner := Option.some.inj h
      exact List.mem_cons_self

/-- The groups are numbered in order, from the first number on. -/
theorem numbers_numberFrom (first : Nat) (o : Outline) :
    numbers (numberFrom first o) = List.range' first o.inners.length := by
  induction o generalizing first with
  | nil => rfl
  | cons piece o ih =>
    cases piece with
    | plain c => exact ih first
    | group inner =>
      unfold numbers at ih ⊢
      rw [numberFrom, inners_group, List.filterMap_cons_some (placeholderIndex?_toDigits first), ih,
        inners_group, List.length_cons, List.range'_succ]

theorem amp_notMem_numberFrom {o : Outline} (h : '&' ∉ o.text) (first : Nat) :
    '&' ∉ (numberFrom first o).text := by
  induction o generalizing first with
  | nil => exact h
  | cons piece o ih =>
    obtain ⟨hpiece, ho⟩ : '&' ∉ piece.text ∧ '&' ∉ text o := by simpa using h
    cases piece with
    | plain c => simpa [numberFrom] using ⟨hpiece, ih ho first⟩
    | group inner =>
      have hdigits : '&' ∉ Nat.toDigits 10 first := fun hmem =>
        absurd (isDigit_of_mem_toDigits hmem) (by decide)
      simpa [numberFrom, Piece.text] using ⟨hdigits, ih ho (first + 1)⟩

/-- A text whose groups have just been set aside holds the numbers that they have got. -/
theorem Closed.masked_numberFrom {o : Outline} (h : Closed o) {first n : Nat}
    (hn : first + o.inners.length ≤ n) :
    Masked (.numbered n) (numberFrom first o) (mask first o) := by
  induction o generalizing first with
  | nil => exact .nil
  | cons piece o ih =>
    obtain ⟨hpiece, ho⟩ := closed_cons.mp h
    cases piece with
    | plain c => exact .plain hpiece (ih ho hn)
    | group inner =>
      rw [inners_group, List.length_cons] at hn
      exact .group (Groups.get?_numbered.mpr ⟨by omega, rfl⟩) (ih ho (by omega))

/-- Each group of an outline has a bracket of its own in the text. -/
theorem length_inners_add_count_le (o : Outline) :
    o.inners.length + o.inners.flatten.count '(' ≤ o.text.count '(' := by
  induction o with
  | nil => exact Nat.le_refl 0
  | cons piece o ih =>
    rw [text_cons, List.count_append]
    cases piece with
    | plain c => exact ih.trans (Nat.le_add_left _ _)
    | group inner =>
      have hpiece : (Piece.group inner).text.count '(' = inner.count '(' + 1 := by
        simp [Piece.text, List.count_append]
      rw [hpiece, inners_group, List.length_cons, List.flatten_cons, List.count_append]
      omega

/-! ### The groups of the operands -/

/-- No group is lost when an outline is split, and none comes twice. -/
theorem flatMap_inners_splitOn (c : Char) (o : Outline) :
    (o.splitOn (.plain c)).flatMap inners = o.inners := by
  induction o with
  | nil => rfl
  | cons piece o ih =>
    obtain ⟨q, qs, hq⟩ := List.exists_cons_of_ne_nil (List.splitOn_ne_nil (Piece.plain c) o)
    rw [List.splitOn_cons_eq_if_modifyHead]
    rw [hq] at ih ⊢
    split
    · rename_i hmark
      obtain rfl : piece = .plain c := by simpa using hmark
      simpa using ih
    · cases piece with
      | plain d => simpa using ih
      | group inner => simpa using ih

theorem map_outline_invertedPieces (mark : Piece) (o : Outline) :
    (invertedPieces mark o).map Operand.outline = o.splitOn mark := by
  unfold invertedPieces
  cases o.splitOn mark with
  | nil => rfl
  | cons p ps => simp [Function.comp_def]

/-- Each group of an outline is in one operand at most. -/
theorem operands_inners_sublist (operator : Operator) (o : Outline) :
    List.Sublist (((operands operator o).map Operand.outline).flatMap inners) o.inners := by
  have hblank : ∀ ps : List Operand,
      List.Sublist (((dropBlank ps).map Operand.outline).flatMap inners)
        ((ps.map Operand.outline).flatMap inners) :=
    fun ps => (List.filter_sublist.map Operand.outline).flatMap inners
  have hplain : ∀ ps : List Outline,
      (ps.map fun p => Operand.mk p false).map Operand.outline = ps :=
    fun ps => by simp [Function.comp_def]
  have hsides : ∀ {left right : Outline}, o = left ++ .plain operator.symbol :: right →
      List.Sublist (((sides (some (left, right))).map Operand.outline).flatMap inners)
        o.inners := by
    rintro left right rfl
    simp [sides]
  have hsplit := flatMap_inners_splitOn operator.symbol o
  -- blank operands may be dropped, and their groups with them
  cases operator with
  | list | add =>
    refine (hblank _).trans ?_
    rw [hplain, hsplit]
  | subtract | divide =>
    refine (hblank _).trans ?_
    rw [map_outline_invertedPieces, hsplit]
  | multiply =>
    dsimp only [operands]
    rw [hplain, hsplit]
  | modulo =>
    dsimp only [operands]
    by_cases hmark : .plain (Operator.symbol .modulo) ∈ o
    · obtain ⟨left, right, ho, -, hcut⟩ := Text.exists_firstCut? hmark
      rw [hcut]
      exact hsides ho
    · rw [Text.firstCut?_eq_none_iff.mpr hmark]
      exact List.nil_sublist _
  | raise =>
    dsimp only [operands]
    by_cases hmark : .plain (Operator.symbol .raise) ∈ o
    · obtain ⟨left, right, ho, -, hcut⟩ := Text.exists_lastCut? hmark
      rw [hcut]
      exact hsides ho
    · rw [Text.lastCut?_eq_none_iff.mpr hmark]
      exact List.nil_sublist _

namespace Masked

variable {n : Nat} {p : Outline} {s : Fragment}

theorem open_notMem_flatten {groups : Groups} {ps : List Outline} {parts : List Fragment}
    (h : List.Forall₂ (Masked groups) ps parts) : '(' ∉ parts.flatten := by
  intro hmem
  obtain ⟨part, hpart, hmem⟩ := List.mem_flatten.mp hmem
  obtain ⟨p, -, hp⟩ := exists_of_forall₂ h hpart
  exact hp.open_notMem hmem

/-- The numbers of the groups in a masked outline are those of groups that there are. -/
theorem lt_of_mem_numbers (h : Masked (.numbered n) p s) : ∀ i ∈ p.numbers, i < n := by
  induction h with
  | nil => exact fun i hi => absurd hi List.not_mem_nil
  | plain _ _ ih => exact ih
  | @group index _ o _ hindex _ ih =>
    obtain ⟨hlt, rfl⟩ := Groups.get?_numbered.mp hindex
    intro i hi
    unfold numbers at hi ih
    rw [inners_group, List.filterMap_cons_some (placeholderIndex?_toDigits index)] at hi
    rcases List.mem_cons.mp hi with rfl | hi
    · exact hlt
    · exact ih i hi

/-- A placeholder that is found has one of the numbers of the fragment. -/
theorem mem_numbers (h : Masked (.numbered n) p s) (hp : '&' ∉ p.text) {interior : Fragment}
    (hinterior : placeholderInterior? s = some interior) {index : Nat}
    (hindex : placeholderIndex? interior = some index) : index ∈ p.numbers := by
  cases hgroup : p.firstGroup? with
  | none =>
    rw [h.placeholderInterior?_eq_none hp hgroup] at hinterior
    exact nomatch hinterior
  | some inner =>
    obtain ⟨first, rest, rfl, hfirst⟩ := h.eq_front_append hgroup
    obtain ⟨-, rfl⟩ := Groups.get?_numbered.mp hfirst
    rw [placeholderInterior?_append (amp_notMem_front hp) first rest] at hinterior
    obtain rfl := Option.some.inj hinterior
    exact List.mem_filterMap.mpr ⟨_, mem_inners_of_firstGroup? hgroup, hindex⟩

end Masked

end Outline

end Formula
