/-!
# Blank characters

The characters with the Unicode property `White_Space`, as a table of ranges. They are what is
trimmed at the ends of a text and what a name may not contain.

`isBlank_of_isWhitespace` says that every ASCII white space character of the core library is in the
table, and `blankRanges_count` that the table has the 25 characters of the property.
-/

namespace Formula.Text

/-- The code points with the property `White_Space`, as inclusive ranges. -/
def blankRanges : List (Nat × Nat) :=
  [(0x09, 0x0D), (0x20, 0x20), (0x85, 0x85), (0xA0, 0xA0), (0x1680, 0x1680), (0x2000, 0x200A),
    (0x2028, 0x2029), (0x202F, 0x202F), (0x205F, 0x205F), (0x3000, 0x3000)]

/-- Whether `c` has the property `White_Space`. -/
def isBlank (c : Char) : Bool :=
  blankRanges.any fun range => range.1 ≤ c.toNat && c.toNat ≤ range.2

theorem isBlank_of_isWhitespace {c : Char} (h : c.isWhitespace = true) : isBlank c = true := by
  simp only [Char.isWhitespace, Bool.or_eq_true, decide_eq_true_eq] at h
  rcases h with ((rfl | rfl) | rfl) | rfl <;> decide

theorem blankRanges_count :
    blankRanges.foldr (fun range count => range.2 - range.1 + 1 + count) 0 = 25 := rfl

end Formula.Text
