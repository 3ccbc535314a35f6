import Formula.Text.Blank

/-!
# Fragments

A *fragment* is a piece of the text of a formula. Fragments are lists of characters: they are taken
apart from the front, and every statement about reading is a statement about lists.

The cuts below lose nothing: `cutFirst?_eq_some` and `cutLast?_eq_some` put the two sides together
again.
-/

namespace Formula

/-- A piece of the text of a formula. -/
abbrev Fragment := List Char

namespace Fragment

open Text (isBlank)

/-- Whether nothing but blank characters stands in the fragment. -/
def allBlank (s : Fragment) : Bool := s.all isBlank

/-- The fragment without the blank characters at its two ends. -/
def trim (s : Fragment) : Fragment :=
  ((s.dropWhile isBlank).reverse.dropWhile isBlank).reverse

/-- The length of the fragment in UTF-8. -/
def byteLength (s : Fragment) : Nat := s.foldr (fun c length => c.utf8Size + length) 0

/-- The two sides of the first occurrence of `mark`, if there is one. -/
def cutFirst? (mark : Char) (s : Fragment) : Option (Fragment × Fragment) :=
  match s.dropWhile (· != mark) with
  | [] => none
  | _ :: rest => some (s.takeWhile (· != mark), rest)

/-- The two sides of the last occurrence of `mark`, if there is one. -/
def cutLast? (mark : Char) (s : Fragment) : Option (Fragment × Fragment) :=
  (cutFirst? mark s.reverse).map fun sides => (sides.2.reverse, sides.1.reverse)

theorem dropWhile_ne_eq_cons {mark c : Char} {s rest : Fragment}
    (h : s.dropWhile (· != mark) = c :: rest) : c = mark := by
  induction s with
  | nil => simp at h
  | cons d s ih =>
    by_cases hd : d = mark
    · simp [hd] at h
      exact h.1.symm
    · simp [hd] at h
      exact ih h

theorem notMem_takeWhile_ne (mark : Char) (s : Fragment) : mark ∉ s.takeWhile (· != mark) := by
  induction s with
  | nil => simp
  | cons d s ih => by_cases hd : d = mark <;> simp [hd, ih, Ne.symm]

theorem cutFirst?_eq_some {mark : Char} {s left right : Fragment}
    (h : cutFirst? mark s = some (left, right)) : s = left ++ mark :: right ∧ mark ∉ left := by
  unfold cutFirst? at h
  split at h
  · simp at h
  · rename_i c rest hs
    obtain ⟨rfl, rfl⟩ := by simpa using h
    obtain rfl := dropWhile_ne_eq_cons hs
    exact ⟨by rw [← hs, List.takeWhile_append_dropWhile], notMem_takeWhile_ne _ s⟩

theorem cutLast?_eq_some {mark : Char} {s left right : Fragment}
    (h : cutLast? mark s = some (left, right)) : s = left ++ mark :: right ∧ mark ∉ right := by
  unfold cutLast? at h
  obtain ⟨⟨l, r⟩, hcut, hsides⟩ := Option.map_eq_some_iff.1 h
  obtain ⟨rfl, rfl⟩ := by simpa using hsides
  obtain ⟨hs, hl⟩ := cutFirst?_eq_some hcut
  refine ⟨?_, by simpa using hl⟩
  have := congrArg List.reverse hs
  simpa using this

end Fragment

end Formula
