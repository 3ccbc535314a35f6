import Formula.Proofs.Placeholder
import Mathlib.Data.Nat.Digits.Defs

/-!
# The index in a placeholder

An interior writes an index when, without the blanks around it, it is digits, with one plus sign in
front allowed (`Writes`). The number is that of the positional system (`decimalValue`), however many
zeros stand in front.

* `placeholderIndex?_eq_some_iff`: the index that is read is the one that is written.
* `placeholderWord?` computes the index in words of 64 bits and stops as soon as a product or a sum
  is no word. `placeholderWord?_eq_some_iff` says that nothing else is lost on the way, and
  `Groups.resolve_eq_resolveWord` that the same groups are found by it: where the groups can be
  counted in words, an index that is no word belongs to none of them.
* `Groups.resolve_written`: placeholders are read back, and whatever writes an index resolves to the
  group with that index.
-/

namespace Formula

/-! ### Numbers in decimal -/

/-- The number that digits write, most significant first. -/
def decimalValue (digits : Fragment) : Nat :=
  Nat.ofDigits 10 (digits.reverse.map fun c => c.toNat - '0'.toNat)

theorem decimalValue_append_singleton (digits : Fragment) (c : Char) :
    decimalValue (digits ++ [c]) = 10 * decimalValue digits + (c.toNat - '0'.toNat) := by
  unfold decimalValue
  rw [List.reverse_append, List.reverse_singleton, List.singleton_append, List.map_cons,
    Nat.ofDigits_cons, Nat.add_comm]

theorem ofDigitChars_eq_decimalValue (digits : Fragment) :
    Nat.ofDigitChars 10 digits 0 = decimalValue digits := by
  induction digits using List.reverseRecOn with
  | nil => rfl
  | append_singleton digits c ih =>
    rw [Nat.ofDigitChars_append, ih, decimalValue_append_singleton]
    rfl

theorem decimalValue_replicate_zero_append (n : Nat) (digits : Fragment) :
    decimalValue (List.replicate n '0' ++ digits) = decimalValue digits := by
  rw [← ofDigitChars_eq_decimalValue, ← ofDigitChars_eq_decimalValue, Nat.ofDigitChars_append,
    Nat.ofDigitChars_replicate_zero, Nat.mul_zero]

/-! ### What writes an index -/

/-- Whether an interior writes an index: without the blanks around it, it is digits or a plus sign
and digits. -/
def Writes (interior : Fragment) (index : Nat) : Prop :=
  ∃ digits, (interior.trim = digits ∨ interior.trim = '+' :: digits) ∧ digits ≠ [] ∧
    (∀ c ∈ digits, c.isDigit = true) ∧ decimalValue digits = index

/-- The text without a plus sign in front. -/
def dropPlus : Fragment → Fragment
  | '+' :: rest => rest
  | s => s

/-- There may be one plus in front of the digits. -/
theorem dropPlus_eq_iff {s digits : Fragment} (hdigits : ∀ c ∈ digits, c.isDigit = true) :
    dropPlus s = digits ↔ s = digits ∨ s = '+' :: digits := by
  unfold dropPlus
  split
  · rename_i rest
    constructor
    · rintro rfl
      exact Or.inr rfl
    · rintro (rfl | h)
      · exact absurd (hdigits '+' List.mem_cons_self) (by decide)
      · exact (List.cons.inj h).2
  · rename_i hplus
    exact ⟨Or.inl, fun h => h.resolve_right fun h => hplus digits h⟩

theorem writes_iff {interior : Fragment} {index : Nat} :
    Writes interior index ↔ dropPlus interior.trim ≠ [] ∧
      (∀ c ∈ dropPlus interior.trim, c.isDigit = true) ∧
      decimalValue (dropPlus interior.trim) = index := by
  constructor
  · rintro ⟨digits, htrim, hne, hdigits, hvalue⟩
    rw [(dropPlus_eq_iff hdigits).mpr htrim]
    exact ⟨hne, hdigits, hvalue⟩
  · rintro ⟨hne, hdigits, hvalue⟩
    exact ⟨_, (dropPlus_eq_iff hdigits).mp rfl, hne, hdigits, hvalue⟩

/-- An interior is accepted just when it writes an index. -/
theorem placeholderIndex?_eq_some_iff {interior : Fragment} {index : Nat} :
    placeholderIndex? interior = some index ↔ Writes interior index := by
  have hread : placeholderIndex? interior =
      if dropPlus interior.trim ≠ [] && (dropPlus interior.trim).all Char.isDigit then
        some (Nat.ofDigitChars 10 (dropPlus interior.trim) 0)
      else none := rfl
  rw [hread, writes_iff, ofDigitChars_eq_decimalValue]
  simp [and_assoc]

theorem Writes.unique {interior : Fragment} {i j : Nat} (hi : Writes interior i)
    (hj : Writes interior j) : i = j :=
  Option.some.inj ((placeholderIndex?_eq_some_iff.mpr hi).symm.trans
    (placeholderIndex?_eq_some_iff.mpr hj))

/-- Blanks around an interior and zeros in front of its digits do not count. -/
theorem writes_padded {l sign digits r : Fragment} (hl : l.allBlank = true)
    (hr : r.allBlank = true) (hsign : sign = [] ∨ sign = ['+']) (hne : digits ≠ [])
    (hdigits : ∀ c ∈ digits, c.isDigit = true) (zeros : Nat) :
    Writes (l ++ (sign ++ (List.replicate zeros '0' ++ digits)) ++ r) (decimalValue digits) := by
  have hzeros : ∀ c ∈ List.replicate zeros '0' ++ digits, c.isDigit = true := by
    intro c hc
    rcases List.mem_append.mp hc with hc | hc
    · rw [List.eq_of_mem_replicate hc]
      decide
    · exact hdigits c hc
  have hsolid : ∀ c ∈ sign ++ (List.replicate zeros '0' ++ digits), Text.isBlank c = false := by
    intro c hc
    rcases List.mem_append.mp hc with hc | hc
    · rcases hsign with rfl | rfl
      · exact absurd hc List.not_mem_nil
      · rw [List.mem_singleton.mp hc]
        decide
    · exact isBlank_of_isAlphanum (isAlphanum_of_isDigit (hzeros c hc))
  -- only the blanks around are trimmed, the sign and the digits are solid
  have htrim : Fragment.trim (l ++ (sign ++ (List.replicate zeros '0' ++ digits)) ++ r) =
      sign ++ (List.replicate zeros '0' ++ digits) := by
    rw [Text.trim_eq_trimBy, Text.trimBy_append_right (List.all_eq_true.mp hr),
      Text.trimBy_append_left (List.all_eq_true.mp hl), Text.trimBy_eq_self hsolid]
  refine ⟨List.replicate zeros '0' ++ digits, ?_, by simp [hne], hzeros,
    decimalValue_replicate_zero_append zeros digits⟩
  rw [htrim]
  rcases hsign with rfl | rfl
  · exact Or.inl rfl
  · exact Or.inr rfl

/-! ### Words -/

/-- A word of 64 bits with one more digit behind it, unless the product or the sum is no word. -/
def pushDigit? (word : UInt64) (c : Char) : Option UInt64 :=
  let shifted := 10 * word
  let digit := c.toNat - '0'.toNat
  if c.isDigit ∧ 10 * word.toNat < UInt64.size ∧ shifted.toNat + digit < UInt64.size then
    some (shifted + UInt64.ofNat digit)
  else
    none

/-- The index that an interior writes, computed in words of 64 bits. -/
def placeholderWord? (interior : Fragment) : Option UInt64 :=
  match dropPlus interior.trim with
  | [] => none
  | digits => digits.foldlM pushDigit? 0

theorem toNat_add_ofNat {word : UInt64} {n : Nat} (h : word.toNat + n < UInt64.size) :
    (word + UInt64.ofNat n).toNat = word.toNat + n := by
  rw [UInt64.toNat_add, UInt64.toNat_ofNat_of_lt' (by omega)]
  exact Nat.mod_eq_of_lt h

/-- A digit is pushed if the result fits into a word, and then the word is the result. -/
theorem pushDigit?_eq_some_iff {word word' : UInt64} {c : Char} :
    pushDigit? word c = some word' ↔
      c.isDigit = true ∧ 10 * word.toNat + (c.toNat - '0'.toNat) = word'.toNat := by
  have hshifted : (10 * word).toNat = 10 * word.toNat % UInt64.size := UInt64.toNat_mul 10 word
  unfold pushDigit?
  dsimp only
  constructor
  · intro h
    split at h
    · rename_i hfits
      obtain ⟨hc, hproduct, hsum⟩ := hfits
      obtain rfl := Option.some.inj h
      rw [toNat_add_ofNat hsum, hshifted, Nat.mod_eq_of_lt hproduct]
      exact ⟨hc, rfl⟩
    · exact nomatch h
  · rintro ⟨hc, hvalue⟩
    have hword' : word'.toNat < UInt64.size := word'.toNat_lt_size
    have hproduct : 10 * word.toNat < UInt64.size := by omega
    -- the sum fits, so that the product has not wrapped
    rw [Nat.mod_eq_of_lt hproduct] at hshifted
    have hsum : (10 * word).toNat + (c.toNat - '0'.toNat) < UInt64.size := by omega
    rw [if_pos ⟨hc, hproduct, hsum⟩, Option.some_inj, ← UInt64.toNat_inj, toNat_add_ofNat hsum,
      hshifted, hvalue]

/-- Digits never make a number smaller, so that what does not fit once will not fit later. -/
theorem le_ofDigitChars (digits : Fragment) (n : Nat) : n ≤ Nat.ofDigitChars 10 digits n := by
  induction digits generalizing n with
  | nil => exact Nat.le_refl n
  | cons c digits ih =>
    rw [Nat.ofDigitChars_cons]
    exact Nat.le_trans (by omega) (ih _)

/-- Digit by digit, nothing but the last value counts: one that is no word stays none. -/
theorem foldlM_pushDigit?_eq_some_iff {digits : Fragment} {word word' : UInt64} :
    digits.foldlM pushDigit? word = some word' ↔
      (∀ c ∈ digits, c.isDigit = true) ∧ Nat.ofDigitChars 10 digits word.toNat = word'.toNat := by
  induction digits generalizing word with
  | nil => simp [UInt64.toNat_inj]
  | cons c digits ih =>
    rw [List.foldlM_cons, List.forall_mem_cons, Nat.ofDigitChars_cons]
    refine Option.bind_eq_some_iff.trans ?_
    constructor
    · rintro ⟨next, hnext, hrest⟩
      obtain ⟨hc, hnext⟩ := pushDigit?_eq_some_iff.mp hnext
      obtain ⟨hdigits, hvalue⟩ := ih.mp hrest
      rw [hnext]
      exact ⟨⟨hc, hdigits⟩, hvalue⟩
    · rintro ⟨⟨hc, hdigits⟩, hvalue⟩
      -- the value so far is not above the last one, and so it is a word
      have hle := le_ofDigitChars digits (10 * word.toNat + (c.toNat - '0'.toNat))
      have hlt : 10 * word.toNat + (c.toNat - '0'.toNat) < UInt64.size :=
        (hle.trans_eq hvalue).trans_lt word'.toNat_lt_size
      have hnext := UInt64.toNat_ofNatLT (h := hlt)
      refine ⟨UInt64.ofNatLT _ hlt, pushDigit?_eq_some_iff.mpr ⟨hc, hnext.symm⟩, ih.mpr ?_⟩
      rw [hnext]
      exact ⟨hdigits, hvalue⟩

/-- Computing in words finds the index that is written if it is a word, and nothing otherwise. -/
theorem placeholderWord?_eq_some_iff {interior : Fragment} {word : UInt64} :
    placeholderWord? interior = some word ↔ Writes interior word.toNat := by
  rw [writes_iff, ← ofDigitChars_eq_decimalValue]
  unfold placeholderWord?
  split
  · rename_i hnil
    simp [hnil]
  · rename_i hne
    rw [foldlM_pushDigit?_eq_some_iff]
    exact ⟨fun h => ⟨hne, h⟩, And.right⟩

namespace Groups

/-- The group that a placeholder with this interior stands for, found by a word. -/
def resolveWord (groups : Groups) (interior : Fragment) : Except SyntaxError Fragment :=
  match (placeholderWord? interior).bind fun word => groups.get? word.toNat with
  | some text => .ok text
  | none => .error (.invalidPlaceholder (String.ofList ('&' :: (interior ++ [';']))))

variable {groups : Groups}

theorem lt_size_of_get? {index : Nat} {text : Fragment} (h : groups.get? index = some text) :
    index < groups.size := (Array.getElem?_eq_some_iff.mp h).1

/-- With no more groups than words can count, an index that does not fit into a word leads to no
group anyway. -/
theorem resolve_eq_resolveWord (hsize : groups.size ≤ UInt64.size) (interior : Fragment) :
    groups.resolve interior = groups.resolveWord interior := by
  have hbind : (placeholderIndex? interior).bind groups.get? =
      (placeholderWord? interior).bind fun word => groups.get? word.toNat := by
    apply Option.ext
    intro text
    rw [Option.bind_eq_some_iff, Option.bind_eq_some_iff]
    constructor
    · rintro ⟨index, hindex, htext⟩
      -- an index that leads to a group is below their number, and so it is a word
      have hlt := (lt_size_of_get? htext).trans_le hsize
      have hword : (UInt64.ofNatLT index hlt).toNat = index := UInt64.toNat_ofNatLT
      refine ⟨UInt64.ofNatLT index hlt, placeholderWord?_eq_some_iff.mpr ?_, ?_⟩
      · rw [hword]
        exact placeholderIndex?_eq_some_iff.mp hindex
      · rw [hword]
        exact htext
    · rintro ⟨word, hword, htext⟩
      exact ⟨word.toNat,
        placeholderIndex?_eq_some_iff.mpr (placeholderWord?_eq_some_iff.mp hword), htext⟩
  unfold resolve
  rw [hbind]
  rfl

/-! ### Groups by their index -/

theorem resolve_eq_ok_iff_writes {interior text : Fragment} :
    groups.resolve interior = .ok text ↔
      ∃ index, Writes interior index ∧ index < groups.size ∧
        groups.toList[index]? = some text := by
  rw [resolve_eq_ok_iff]
  constructor
  · rintro ⟨index, hindex, htext⟩
    refine ⟨index, placeholderIndex?_eq_some_iff.mp hindex, lt_size_of_get? htext, ?_⟩
    rw [← get?_eq_toList]
    exact htext
  · rintro ⟨index, hwrites, -, htext⟩
    rw [← get?_eq_toList] at htext
    exact ⟨index, placeholderIndex?_eq_some_iff.mpr hwrites, htext⟩

/-- No group is found when no group has the index, if there is one. The error shows the interior as
it stands. -/
theorem resolve_eq_error_of_writes {interior : Fragment}
    (h : ∀ index, Writes interior index → groups.size ≤ index) :
    groups.resolve interior =
      .error (.invalidPlaceholder (String.ofList ('&' :: (interior ++ [';'])))) := by
  have hnone : (placeholderIndex? interior).bind groups.get? = none := by
    rw [Option.bind_eq_none_iff]
    intro index hindex
    exact Array.getElem?_eq_none (h index (placeholderIndex?_eq_some_iff.mp hindex))
  unfold resolve
  rw [hnone]

theorem toOption_resolve_of_writes {interior : Fragment} {index : Nat}
    (h : Writes interior index) :
    (groups.resolve interior).toOption = groups.toList[index]? := by
  rw [resolve, placeholderIndex?_eq_some_iff.mpr h, Option.bind_some, get?_eq_toList]
  cases groups.toList[index]? <;> rfl

theorem resolve_toString (index : Nat) :
    groups.resolve (toString index).toList =
      match groups.toList[index]? with
      | some text => .ok text
      | none => .error (.invalidPlaceholder (String.ofList (placeholder index))) := by
  have hdigits : (toString index).toList = Nat.toDigits 10 index := by
    rw [Nat.toString_eq_repr, Nat.toList_repr]
  rw [hdigits, resolve, placeholderIndex?_toDigits, Option.bind_some, get?_eq_toList]
  cases groups.toList[index]? <;> rfl

/-- A placeholder behind a text without `&` is read back as the decimal digits of its index, and
they resolve to the group with the index, if there is one. In general an interior resolves to a
group just when it writes the index of the group; otherwise the error shows the interior. Blanks
around an index, a plus sign and zeros in front do not count. In words of 64 bits, in which the
groups can be counted, the same groups are found: an index that is no word is none of a group. -/
theorem resolve_written (groups : Groups) :
    (∀ front index behind, '&' ∉ front →
      placeholderInterior? (front ++ placeholder index ++ behind) =
        some (toString index).toList) ∧
    (∀ index, groups.resolve (toString index).toList =
      match groups.toList[index]? with
      | some text => .ok text
      | none => .error (.invalidPlaceholder (String.ofList (placeholder index)))) ∧
    (∀ interior text, groups.resolve interior = .ok text ↔
      ∃ index, Writes interior index ∧ index < groups.size ∧
        groups.toList[index]? = some text) ∧
    (∀ interior, (∀ index, Writes interior index → groups.size ≤ index) →
      groups.resolve interior =
        .error (.invalidPlaceholder (String.ofList ('&' :: (interior ++ [';']))))) ∧
    (∀ l sign digits r : Fragment, l.allBlank = true → r.allBlank = true →
      (sign = [] ∨ sign = ['+']) → digits ≠ [] → (∀ c ∈ digits, c.isDigit = true) → ∀ zeros,
        (groups.resolve (l ++ (sign ++ (List.replicate zeros '0' ++ digits)) ++ r)).toOption =
          groups.toList[decimalValue digits]?) ∧
    (groups.size ≤ UInt64.size → ∀ interior,
      groups.resolve interior = groups.resolveWord interior ∧
      ∀ index, Writes interior index → UInt64.size ≤ index →
        placeholderWord? interior = none ∧
        groups.resolve interior =
          .error (.invalidPlaceholder (String.ofList ('&' :: (interior ++ [';']))))) := by
  refine ⟨fun front index behind hfront => ?_, resolve_toString,
    fun interior text => resolve_eq_ok_iff_writes, fun interior => resolve_eq_error_of_writes,
    fun l sign digits r hl hr hsign hne hdigits zeros => ?_, fun hsize interior => ?_⟩
  · rw [placeholderInterior?_append hfront, Nat.toString_eq_repr, Nat.toList_repr]
  · exact toOption_resolve_of_writes (writes_padded hl hr hsign hne hdigits zeros)
  · refine ⟨resolve_eq_resolveWord hsize interior, fun index hwrites hindex => ⟨?_, ?_⟩⟩
    -- the reader of words stops there, the other one goes on to an index that leads nowhere
    · rw [Option.eq_none_iff_forall_ne_some]
      intro word hword
      have hsame := hwrites.unique (placeholderWord?_eq_some_iff.mp hword)
      have hlt := word.toNat_lt_size
      omega
    · refine resolve_eq_error_of_writes fun index' hwrites' => ?_
      rw [← hwrites.unique hwrites']
      exact hsize.trans hindex

/-- In front of the placeholder stands a `;`, and behind it another placeholder. The index 1 may be
written with a sign and zeros, but 2 ^ 64 + 1 is not 1. -/
theorem resolve_written_pair :
    let groups : Groups := ⟨#[['x'], ['y']]⟩
    '&' ∉ ";(".toList ∧
      placeholderInterior? (";(".toList ++ placeholder 1 ++ "&0;".toList) = some ['1'] ∧
      groups.resolve ['1'] = .ok ['y'] ∧
      (groups.resolve " +001 ".toList).toOption = some ['y'] ∧
      groups.size ≤ UInt64.size ∧
      Writes "18446744073709551617".toList (UInt64.size + 1) ∧
      placeholderWord? "18446744073709551617".toList = none ∧
      groups.resolve "18446744073709551617".toList =
        .error (.invalidPlaceholder "&18446744073709551617;") := by
  intro groups
  obtain ⟨hread, hdecimal, -, -, hpadded, hwords⟩ := resolve_written groups
  have hsize : groups.size ≤ UInt64.size := by decide
  have hwrites : Writes "18446744073709551617".toList (UInt64.size + 1) :=
    ⟨"18446744073709551617".toList, Or.inl rfl, by decide, List.all_eq_true.mp rfl, by decide⟩
  obtain ⟨hword, herror⟩ := (hwords hsize _).2 _ hwrites (Nat.le_succ _)
  exact ⟨by decide, hread _ 1 _ (by decide), hdecimal 1,
    hpadded [' '] ['+'] ['1'] [' '] rfl rfl (Or.inr rfl) (by decide) (List.all_eq_true.mp rfl) 2,
    hsize, hwrites, hword, herror⟩

end Groups

end Formula
