import Formula.Operator
import Mathlib.Data.List.DropRight

/-!
# Cutting lists

The cuts of `Fragment` and `Operator` for lists of any kind, so that they can be made in a list of
characters and in a list of larger pieces alike.

* `firstCut?_append` and `lastCut?_append` compute a cut, `firstCut?_eq_none_iff` and
  `lastCut?_eq_none_iff` say when there is none, `firstCut?_append_append` and
  `lastCut?_append_append` what becomes of it in a longer list.
* `isInfix_of_mem_splitOn` and `length_lt_of_mem_splitOn`: what is between two marks is a part of
  the list, and a shorter one.
* `trimBy_append` trims a list that has something to keep in the middle; `exists_trimBy` says what
  is taken away.
* `splitOn_append_of_notMem` and `exists_splitOn_append`: what is added at an end of a list is added
  to the piece at that end.
-/

namespace Formula.Text

variable {β : Type} [BEq β] [LawfulBEq β]

/-! ### Cuts at one mark -/

/-- The two sides of the first occurrence of `mark`. -/
def firstCut? (mark : β) (l : List β) : Option (List β × List β) :=
  match l.dropWhile (· != mark) with
  | [] => none
  | _ :: rest => some (l.takeWhile (· != mark), rest)

/-- The two sides of the last occurrence of `mark`. -/
def lastCut? (mark : β) (l : List β) : Option (List β × List β) :=
  (firstCut? mark l.reverse).map fun sides => (sides.2.reverse, sides.1.reverse)

theorem cutFirst?_eq_firstCut? (mark : Char) (s : Fragment) :
    s.cutFirst? mark = firstCut? mark s := by
  unfold Fragment.cutFirst? firstCut?
  cases s.dropWhile (· != mark) <;> rfl

theorem cutLast?_eq_lastCut? (mark : Char) (s : Fragment) :
    s.cutLast? mark = lastCut? mark s := by
  rw [Fragment.cutLast?, lastCut?, cutFirst?_eq_firstCut?]

theorem bne_of_notMem {mark : β} {l : List β} (h : mark ∉ l) : ∀ x ∈ l, (x != mark) = true := by
  intro x hx
  rw [bne_iff_ne]
  rintro rfl
  exact h hx

theorem takeWhile_append {mark : β} {left : List β} (h : mark ∉ left) (right : List β) :
    (left ++ mark :: right).takeWhile (· != mark) = left := by
  rw [List.takeWhile_append_of_pos (bne_of_notMem h)]
  simp

theorem firstCut?_append {mark : β} {left : List β} (h : mark ∉ left) (right : List β) :
    firstCut? mark (left ++ mark :: right) = some (left, right) := by
  unfold firstCut?
  rw [List.dropWhile_append_of_pos (bne_of_notMem h), takeWhile_append h]
  simp

theorem firstCut?_eq_none_iff {mark : β} {l : List β} : firstCut? mark l = none ↔ mark ∉ l := by
  constructor
  · intro h hmem
    obtain ⟨left, right, rfl, hleft⟩ := List.eq_append_cons_of_mem hmem
    rw [firstCut?_append hleft] at h
    simp at h
  · intro h
    rw [firstCut?, List.dropWhile_eq_nil_iff.mpr (bne_of_notMem h)]

/-- A list is cut at a mark if the mark does not come again. -/
theorem lastCut?_append {mark : β} {right : List β} (h : mark ∉ right) (left : List β) :
    lastCut? mark (left ++ mark :: right) = some (left, right) := by
  have hrev : (left ++ mark :: right).reverse = right.reverse ++ mark :: left.reverse := by simp
  rw [lastCut?, hrev, firstCut?_append (by simpa using h)]
  simp

theorem lastCut?_eq_none_iff {mark : β} {l : List β} : lastCut? mark l = none ↔ mark ∉ l := by
  rw [lastCut?, Option.map_eq_none_iff, firstCut?_eq_none_iff, List.mem_reverse]

/-- A list with an occurrence of `mark` is cut at the first one. -/
theorem exists_firstCut? {mark : β} {l : List β} (h : mark ∈ l) :
    ∃ left right, l = left ++ mark :: right ∧ mark ∉ left ∧
      firstCut? mark l = some (left, right) := by
  obtain ⟨left, right, rfl, hleft⟩ := List.eq_append_cons_of_mem h
  exact ⟨left, right, rfl, hleft, firstCut?_append hleft right⟩

/-- A list with an occurrence of `mark` is cut at the last one. -/
theorem exists_lastCut? {mark : β} {l : List β} (h : mark ∈ l) :
    ∃ left right, l = left ++ mark :: right ∧ mark ∉ right ∧
      lastCut? mark l = some (left, right) := by
  obtain ⟨right, left, hl, hright⟩ := List.eq_append_cons_of_mem (List.mem_reverse.mpr h)
  have hlist : l = left.reverse ++ mark :: right.reverse := by
    rw [← List.reverse_reverse l, hl]
    simp
  refine ⟨left.reverse, right.reverse, hlist, by simpa using hright, ?_⟩
  rw [hlist, lastCut?_append (by simpa using hright)]

/-- What is put around a list without the mark is put around the two sides of its cut. -/
theorem firstCut?_append_append {mark : β} {a b : List β} (ha : mark ∉ a) (hb : mark ∉ b)
    (l : List β) :
    firstCut? mark (a ++ l ++ b) =
      (firstCut? mark l).map fun sides => (a ++ sides.1, sides.2 ++ b) := by
  by_cases hmem : mark ∈ l
  · obtain ⟨left, right, rfl, hleft, hcut⟩ := exists_firstCut? hmem
    have hassoc : a ++ (left ++ mark :: right) ++ b = (a ++ left) ++ mark :: (right ++ b) := by
      simp
    rw [hcut, hassoc, firstCut?_append (by simp [ha, hleft])]
    rfl
  · rw [firstCut?_eq_none_iff.mpr hmem, firstCut?_eq_none_iff.mpr (by simp [ha, hb, hmem])]
    rfl

theorem lastCut?_append_append {mark : β} {a b : List β} (ha : mark ∉ a) (hb : mark ∉ b)
    (l : List β) :
    lastCut? mark (a ++ l ++ b) =
      (lastCut? mark l).map fun sides => (a ++ sides.1, sides.2 ++ b) := by
  have hreverse : (a ++ l ++ b).reverse = b.reverse ++ l.reverse ++ a.reverse := by simp
  rw [lastCut?, lastCut?, hreverse,
    firstCut?_append_append (by simpa using hb) (by simpa using ha), Option.map_map, Option.map_map]
  simp [Function.comp_def]

/-! ### Cuts at every mark -/

omit [BEq β] [LawfulBEq β] in
theorem isInfix_of_mem_intercalate {x : β} {p : List β} {ls : List (List β)} (h : p ∈ ls) :
    p <:+: [x].intercalate ls := by
  induction ls with
  | nil => simp at h
  | cons l ls ih =>
    cases ls with
    | nil => simp_all
    | cons l' ls =>
      rw [List.intercalate_cons_cons]
      rcases List.mem_cons.mp h with rfl | hmem
      · rw [List.append_assoc]
        exact (List.prefix_append _ _).isInfix
      · exact (ih hmem).trans (List.suffix_append _ _).isInfix

omit [BEq β] [LawfulBEq β] in
/-- What is in the whole is the mark or in one of the lists. -/
theorem mem_intercalate {x mark : β} {ls : List (List β)} (h : x ∈ [mark].intercalate ls) :
    x = mark ∨ ∃ l ∈ ls, x ∈ l := by
  induction ls with
  | nil => exact absurd h List.not_mem_nil
  | cons l ls ih =>
    cases ls with
    | nil => exact Or.inr ⟨l, List.mem_cons_self, by simpa using h⟩
    | cons l' ls =>
      rw [List.intercalate_cons_cons, List.append_assoc, List.mem_append, List.mem_append] at h
      rcases h with h | h | h
      · exact Or.inr ⟨l, List.mem_cons_self, h⟩
      · exact Or.inl (List.mem_singleton.mp h)
      · rcases ih h with hmark | ⟨p, hp, hx⟩
        · exact Or.inl hmark
        · exact Or.inr ⟨p, List.mem_cons_of_mem _ hp, hx⟩

/-- What is between two marks stands in the list as it is. -/
theorem isInfix_of_mem_splitOn {x : β} {p l : List β} (h : p ∈ l.splitOn x) : p <:+: l := by
  have := isInfix_of_mem_intercalate (x := x) h
  rwa [List.intercalate_splitOn] at this

theorem sublist_of_mem_splitOn {x : β} {p l : List β} (h : p ∈ l.splitOn x) :
    List.Sublist p l :=
  (isInfix_of_mem_splitOn h).sublist

/-- The mark is in none of the pieces. -/
theorem notMem_of_mem_splitOn {x : β} {p l : List β} (h : p ∈ l.splitOn x) : x ∉ p := by
  induction l generalizing p with
  | nil => simp_all
  | cons y l ih =>
    rw [List.splitOn_cons_eq_if_modifyHead] at h
    split at h
    · rcases List.mem_cons.mp h with rfl | hmem
      · simp
      · exact ih hmem
    · rename_i hy
      obtain ⟨q, qs, hq⟩ := List.exists_cons_of_ne_nil (List.splitOn_ne_nil x l)
      rw [hq, List.modifyHead_cons] at h
      rcases List.mem_cons.mp h with rfl | hmem
      · have hxq : x ∉ q := ih (by rw [hq]; exact List.mem_cons_self)
        intro hx
        rcases List.mem_cons.mp hx with rfl | hx
        · simp at hy
        · exact hxq hx
      · exact ih (by rw [hq]; exact List.mem_cons_of_mem _ hmem)

/-- What is between two marks lacks at least one of them. -/
theorem length_lt_of_mem_splitOn {x : β} {p l : List β} (hx : x ∈ l) (h : p ∈ l.splitOn x) :
    p.length < l.length := by
  have hsub := sublist_of_mem_splitOn h
  refine lt_of_le_of_ne hsub.length_le fun hlen => ?_
  exact notMem_of_mem_splitOn h (hsub.eq_of_length hlen ▸ hx)

theorem splitOn_append_of_notMem {x : β} {a : List β} (h : x ∉ a) (l : List β) :
    (a ++ l).splitOn x = (l.splitOn x).modifyHead (a ++ ·) := by
  induction a with
  | nil =>
    obtain ⟨q, qs, hq⟩ := List.exists_cons_of_ne_nil (List.splitOn_ne_nil x l)
    simp [hq]
  | cons y a ih =>
    obtain ⟨hy, ha⟩ : x ≠ y ∧ x ∉ a := by simpa using h
    obtain ⟨q, qs, hq⟩ := List.exists_cons_of_ne_nil (List.splitOn_ne_nil x l)
    rw [List.cons_append, List.splitOn_cons_eq_if_modifyHead, if_neg (by simpa using hy.symm),
      ih ha, hq]
    simp

/-- What is put behind a list gets into its last piece, unless the mark is in it. -/
theorem exists_splitOn_append {x : β} {a : List β} (h : x ∉ a) (l : List β) :
    ∃ front last, l.splitOn x = front ++ [last] ∧ (l ++ a).splitOn x = front ++ [last ++ a] := by
  induction l with
  | nil => exact ⟨[], [], by simp, by simpa using List.splitOn_eq_singleton h⟩
  | cons y l ih =>
    obtain ⟨front, last, hl, hla⟩ := ih
    rw [List.cons_append, List.splitOn_cons_eq_if_modifyHead, List.splitOn_cons_eq_if_modifyHead,
      hl, hla]
    split
    · exact ⟨[] :: front, last, rfl, rfl⟩
    · cases front with
      | nil => exact ⟨[], y :: last, rfl, rfl⟩
      | cons q front => exact ⟨(y :: q) :: front, last, rfl, rfl⟩

/-- What has no mark in it stands in one of the pieces, with what is beside it up to the marks. -/
theorem exists_mem_splitOn {x : β} {m : List β} (hm : x ∉ m) (l r : List β) :
    ∃ l' r', l' ++ m ++ r' ∈ (l ++ m ++ r).splitOn x ∧ l' <:+ l ∧ r' <+: r := by
  -- the piece begins behind the last cut in front of it
  have hfront : ∃ l', l' <:+ l ∧ x ∉ l' ∧
      ∀ t, (l' ++ t).splitOn x ⊆ (l ++ t).splitOn x := by
    by_cases hmem : x ∈ l
    · obtain ⟨left, right, rfl, hright, -⟩ := exists_lastCut? hmem
      refine ⟨right, (List.suffix_cons _ _).trans (List.suffix_append _ _), hright, fun t => ?_⟩
      rw [List.append_assoc, List.cons_append, List.splitOn_append_cons_self]
      exact List.subset_append_right _ _
    · exact ⟨l, List.suffix_rfl, hmem, fun _ => List.Subset.refl _⟩
  -- and it ends at the first one behind it
  have hback : ∃ r', r' <+: r ∧ ∀ a, x ∉ a → a ++ r' ∈ (a ++ r).splitOn x := by
    by_cases hmem : x ∈ r
    · obtain ⟨left, right, rfl, hleft, -⟩ := exists_firstCut? hmem
      refine ⟨left, List.prefix_append _ _, fun a ha => ?_⟩
      rw [← List.append_assoc, List.splitOn_append_cons_self,
        List.splitOn_eq_singleton (by simp [ha, hleft])]
      exact List.mem_cons_self
    · refine ⟨r, List.prefix_rfl, fun a ha => ?_⟩
      rw [List.splitOn_eq_singleton (by simp [ha, hmem])]
      exact List.mem_cons_self
  obtain ⟨l', hl', hnot, hsub⟩ := hfront
  obtain ⟨r', hr', hpiece⟩ := hback
  refine ⟨l', r', ?_, hl', hr'⟩
  rw [List.append_assoc]
  apply hsub
  rw [← List.append_assoc]
  exact hpiece _ (by simp [hnot, hm])

/-! ### Trimming -/

omit [BEq β] [LawfulBEq β]

/-- The list without the elements at its ends for which `p` holds. -/
def trimBy (p : β → Bool) (l : List β) : List β := (l.dropWhile p).rdropWhile p

theorem trim_eq_trimBy (s : Fragment) : s.trim = trimBy isBlank s := rfl

variable {p : β → Bool}

theorem trimBy_isInfix (l : List β) : trimBy p l <:+: l :=
  (List.rdropWhile_prefix p (l.dropWhile p)).isInfix.trans (List.dropWhile_suffix p).isInfix

theorem trimBy_sublist (l : List β) : List.Sublist (trimBy p l) l := (trimBy_isInfix l).sublist

theorem trimBy_eq_nil_iff {l : List β} : trimBy p l = [] ↔ ∀ x ∈ l, p x := by
  rw [trimBy, List.rdropWhile_eq_nil_iff]
  constructor
  · intro h x hx
    rw [← List.takeWhile_append_dropWhile (p := p) (l := l)] at hx
    rcases List.mem_append.mp hx with hx | hx
    · exact List.mem_takeWhile_imp hx
    · exact h x hx
  · intro h x hx
    exact h x ((List.dropWhile_sublist p).subset hx)

theorem trimBy_eq_self {l : List β} (h : ∀ x ∈ l, p x = false) : trimBy p l = l := by
  have hdrop : l.dropWhile p = l := by
    cases l with
    | nil => rfl
    | cons x l => exact List.dropWhile_cons_of_neg (by simp [h x List.mem_cons_self])
  rw [trimBy, hdrop, List.rdropWhile_eq_self_iff]
  intro hne
  simp [h _ (List.getLast_mem hne)]

theorem rdropWhile_append_of_neg {x : β} (hx : p x = false) (l r : List β) :
    (l ++ x :: r).rdropWhile p = l ++ x :: r.rdropWhile p := by
  induction r using List.reverseRecOn with
  | nil =>
    rw [List.rdropWhile_concat_neg _ _ x (by simp [hx]), List.rdropWhile_nil]
  | append_singleton r y ih =>
    have hassoc : l ++ x :: (r ++ [y]) = (l ++ x :: r) ++ [y] := by simp
    by_cases hy : p y
    · rw [hassoc, List.rdropWhile_concat_pos _ _ _ hy, ih, List.rdropWhile_concat_pos _ _ _ hy]
    · rw [hassoc, List.rdropWhile_concat_neg _ _ _ hy, List.rdropWhile_concat_neg _ _ _ hy, hassoc]

/-- Around an element that stays, the two ends are trimmed apart. -/
theorem trimBy_append {x : β} (hx : p x = false) (l r : List β) :
    trimBy p (l ++ x :: r) = l.dropWhile p ++ x :: r.rdropWhile p := by
  have hdrop : (l ++ x :: r).dropWhile p = l.dropWhile p ++ x :: r := by
    rw [List.dropWhile_append]
    split
    · rename_i h
      simp_all
    · rfl
  rw [trimBy, hdrop, rdropWhile_append_of_neg hx]

theorem trimBy_trimBy (l : List β) : trimBy p (trimBy p l) = trimBy p l := by
  by_cases h : ∃ x ∈ l, p x = false
  · obtain ⟨x, hmem, hx⟩ := h
    obtain ⟨a, b, rfl⟩ := List.append_of_mem hmem
    rw [trimBy_append hx, trimBy_append hx, List.dropWhile_idempotent, List.rdropWhile_idempotent]
  · have hnil : trimBy p l = [] := by
      rw [trimBy_eq_nil_iff]
      intro x hx
      by_contra hpx
      exact h ⟨x, hx, by simpa using hpx⟩
    rw [hnil]
    rfl

/-- At the right end elements are taken away from what is left behind those at the left end. -/
theorem exists_dropWhile_eq (l : List β) :
    ∃ b, l.dropWhile p = trimBy p l ++ b ∧ ∀ x ∈ b, p x := by
  refine ⟨(l.dropWhile p).rtakeWhile p, ?_, fun x hx => List.mem_rtakeWhile_imp hx⟩
  have hsplit := List.takeWhile_append_dropWhile (p := p) (l := (l.dropWhile p).reverse)
  have hreverse := congrArg List.reverse hsplit
  rw [List.reverse_append, List.reverse_reverse] at hreverse
  exact hreverse.symm

theorem exists_trimBy (l : List β) :
    ∃ a b, l = a ++ trimBy p l ++ b ∧ (∀ x ∈ a, p x) ∧ ∀ x ∈ b, p x := by
  obtain ⟨b, hright, hb⟩ := exists_dropWhile_eq (p := p) l
  refine ⟨l.takeWhile p, b, ?_, fun x hx => List.mem_takeWhile_imp hx, hb⟩
  rw [List.append_assoc, ← hright, List.takeWhile_append_dropWhile]

theorem dropWhile_trimBy (l : List β) : (trimBy p l).dropWhile p = trimBy p l := by
  refine (List.dropWhile_suffix p).eq_of_length_le ?_
  conv_lhs => rw [← trimBy_trimBy]
  exact (List.rdropWhile_prefix p _).length_le

/-- Of a part at the right end of a trimmed list only the left end is trimmed. -/
theorem trimBy_drop_trimBy (l : List β) (n : Nat) :
    trimBy p ((trimBy p l).drop n) = ((trimBy p l).drop n).dropWhile p := by
  have hsuffix := (List.dropWhile_suffix p).trans (List.drop_suffix n (trimBy p l))
  rw [trimBy, List.rdropWhile_eq_self_iff]
  intro hne
  rw [hsuffix.getLast hne]
  exact List.rdropWhile_last_not p _ (hsuffix.ne_nil hne)

theorem trimBy_append_left {a : List β} (h : ∀ x ∈ a, p x) (l : List β) :
    trimBy p (a ++ l) = trimBy p l := by
  rw [trimBy, trimBy, List.dropWhile_append_of_pos h]

theorem trimBy_append_right {a : List β} (h : ∀ x ∈ a, p x) (l : List β) :
    trimBy p (l ++ a) = trimBy p l := by
  have hdrop : (l.dropWhile p ++ a).rdropWhile p = (l.dropWhile p).rdropWhile p := by
    rw [List.rdropWhile, List.reverse_append, List.dropWhile_append_of_pos (by simpa using h)]
    rfl
  rw [trimBy, trimBy, List.dropWhile_append]
  split
  -- if nothing is left of `l`, then `a` is taken away from the left
  · rename_i hnil
    rw [List.isEmpty_iff.mp hnil, List.dropWhile_eq_nil_iff.mpr h]
  · exact hdrop

/-- Only what may be dropped is dropped. -/
theorem mem_trimBy_iff {x : β} (hx : p x = false) {l : List β} : x ∈ trimBy p l ↔ x ∈ l := by
  constructor
  · exact fun h => (trimBy_sublist l).mem h
  · intro h
    obtain ⟨a, b, rfl⟩ := List.append_of_mem h
    rw [trimBy_append hx]
    simp

end Formula.Text
