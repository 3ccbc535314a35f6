import Formula.Groups
import Formula.Proofs.Text.Characters
import Formula.Proofs.Text.Cuts

/-!
# Placeholders

A placeholder is written as `&`, the decimal digits of an index and `;`. Here it is read back:

* `placeholderInterior?_append`: behind a text without `&`, the interior that is found is that of
  the placeholder, its digits (`placeholderIndex?_toDigits`);
* `resolve_toDigits`: the group found is the one with the index;
* `placeholderIndex?_of_mem_open`: an interior with an `&` in it is no index.

`TypesNoPlaceholder` says of a text that nothing in it could be taken for a placeholder once it
stands in a fragment (`TypesNoPlaceholder.index_eq_none`).

The only characters of a placeholder are `&`, `;` and digits (`mem_placeholder`), so that operators,
brackets and blank characters are outside of it.
-/

namespace Formula

/-! ### Characters of a placeholder -/

theorem isDigit_of_mem_toDigits {c : Char} {index : Nat} (h : c ∈ Nat.toDigits 10 index) :
    c.isDigit = true :=
  Nat.isDigit_of_mem_toDigits (by decide) (by decide) h

theorem mem_placeholder {c : Char} {index : Nat} (h : c ∈ placeholder index) :
    c = '&' ∨ c = ';' ∨ c.isDigit = true := by
  rcases List.mem_cons.mp h with rfl | h
  · exact Or.inl rfl
  rcases List.mem_append.mp h with h | h
  · exact Or.inr (Or.inr (isDigit_of_mem_toDigits h))
  · exact Or.inr (Or.inl (List.mem_singleton.mp h))

theorem open_notMem_placeholder (index : Nat) : '(' ∉ placeholder index := by
  intro h
  rcases mem_placeholder h with h | h | h <;> revert h <;> decide

/-- No operator is in a placeholder, so that splitting never cuts one. -/
theorem symbol_notMem_placeholder (operator : Operator) (index : Nat) :
    operator.symbol ∉ placeholder index := by
  intro h
  rcases mem_placeholder h with h | h | h <;> revert h <;> cases operator <;> decide

theorem length_placeholder (index : Nat) :
    (placeholder index).length = (Nat.toDigits 10 index).length + 2 := by
  simp [placeholder]

/-! ### Reading an index -/

theorem trim_toDigits (index : Nat) :
    Fragment.trim (Nat.toDigits 10 index) = Nat.toDigits 10 index := by
  have hblank : ∀ d ∈ Nat.toDigits 10 index, Text.isBlank d = false :=
    fun d hd => isBlank_of_isAlphanum (isAlphanum_of_isDigit (isDigit_of_mem_toDigits hd))
  exact Text.trimBy_eq_self hblank

/-- An index is read as it is written. -/
theorem placeholderIndex?_toDigits (index : Nat) :
    placeholderIndex? (Nat.toDigits 10 index) = some index := by
  have hall : (Nat.toDigits 10 index).all Char.isDigit = true := by
    rw [List.all_eq_true]
    intro c hc
    exact isDigit_of_mem_toDigits hc
  have hplus : '+' ∉ Nat.toDigits 10 index := fun hmem =>
    absurd (isDigit_of_mem_toDigits hmem) (by decide)
  unfold placeholderIndex?
  rw [trim_toDigits]
  split
  · rename_i rest h
    exact absurd (by rw [h]; exact List.mem_cons_self) hplus
  · simp [hall, Nat.toDigits_ne_nil]

/-- The index that an interior writes has digits only, behind blanks and a sign. -/
theorem placeholderIndex?_of_mem_open {interior : Fragment} (h : '&' ∈ interior) :
    placeholderIndex? interior = none := by
  have hmem : '&' ∈ interior.trim := by
    obtain ⟨l, r, rfl⟩ := List.append_of_mem h
    rw [Text.trim_eq_trimBy, Text.trimBy_append isBlank_amp]
    simp
  unfold placeholderIndex?
  dsimp only
  rw [if_neg]
  have hdigit : ∀ {digits : Fragment}, '&' ∈ digits → digits.all Char.isDigit = false := by
    intro digits hd
    rw [List.all_eq_false]
    exact ⟨'&', hd, by decide⟩
  split
  · rename_i rest hrest
    rw [hrest] at hmem
    rw [hdigit (by simpa using hmem)]
    simp
  · rw [hdigit hmem]
    simp

/-! ### Reading a placeholder -/

theorem placeholderInterior?_cons {a interior : Fragment} (ha : '&' ∉ a) (hi : ';' ∉ interior)
    (b : Fragment) : placeholderInterior? (a ++ '&' :: (interior ++ ';' :: b)) = some interior := by
  unfold placeholderInterior?
  rw [Text.cutFirst?_eq_firstCut?, Text.firstCut?_append ha]
  dsimp only
  rw [Text.cutFirst?_eq_firstCut?, Text.firstCut?_append hi]
  rfl

theorem semicolon_notMem_toDigits (index : Nat) : ';' ∉ Nat.toDigits 10 index :=
  fun hmem => absurd (isDigit_of_mem_toDigits hmem) (by decide)

/-- The placeholder that has been put in is found, if no `&` is in front of it. -/
theorem placeholderInterior?_append {s : Fragment} (h : '&' ∉ s) (index : Nat) (rest : Fragment) :
    placeholderInterior? (s ++ placeholder index ++ rest) = some (Nat.toDigits 10 index) := by
  have hassoc : s ++ placeholder index ++ rest =
      s ++ '&' :: (Nat.toDigits 10 index ++ ';' :: rest) := by simp [placeholder]
  rw [hassoc, placeholderInterior?_cons h (semicolon_notMem_toDigits index)]

theorem placeholderInterior?_of_notMem {s : Fragment} (h : '&' ∉ s) :
    placeholderInterior? s = none := by
  unfold placeholderInterior?
  rw [Text.cutFirst?_eq_firstCut?, Text.firstCut?_eq_none_iff.mpr h]

theorem Groups.get?_eq_toList (groups : Groups) (index : Nat) :
    groups.get? index = groups.toList[index]? := by
  simp [get?, toList]

theorem Groups.resolve_toDigits {groups : Groups} {index : Nat} {text : Fragment}
    (h : groups.get? index = some text) :
    groups.resolve (Nat.toDigits 10 index) = .ok text := by
  rw [Groups.resolve, placeholderIndex?_toDigits, Option.bind_some, h]

/-- A group is found just when the interior writes its index. -/
theorem Groups.resolve_eq_ok_iff {groups : Groups} {interior text : Fragment} :
    groups.resolve interior = .ok text ↔
      ∃ index, placeholderIndex? interior = some index ∧ groups.get? index = some text := by
  unfold Groups.resolve
  rw [← Option.bind_eq_some_iff]
  cases (placeholderIndex? interior).bind groups.get? <;> simp

theorem Groups.resolve_of_index_eq_none (groups : Groups) {interior : Fragment}
    (h : placeholderIndex? interior = none) :
    groups.resolve interior =
      .error (.invalidPlaceholder (String.ofList ('&' :: (interior ++ [';'])))) := by
  rw [Groups.resolve, h, Option.bind_none]

/-- A placeholder that leads to a text has no other `&` in it. -/
theorem Groups.amp_notMem_of_resolve {groups : Groups} {interior text : Fragment}
    (h : groups.resolve interior = .ok text) : '&' ∉ interior := by
  intro hmem
  rw [groups.resolve_of_index_eq_none (placeholderIndex?_of_mem_open hmem)] at h
  exact nomatch h

/-- The interior that is found stands between the first `&` and the next `;`. -/
theorem placeholderInterior?_eq_some {s interior : Fragment}
    (h : placeholderInterior? s = some interior) :
    ∃ a b, s = a ++ '&' :: (interior ++ ';' :: b) ∧ '&' ∉ a ∧ ';' ∉ interior := by
  unfold placeholderInterior? at h
  split at h
  · rename_i a rest hcut
    obtain ⟨⟨_, b⟩, hcut', rfl⟩ := Option.map_eq_some_iff.mp h
    obtain ⟨rfl, ha⟩ := Fragment.cutFirst?_eq_some hcut
    obtain ⟨rfl, hinterior⟩ := Fragment.cutFirst?_eq_some hcut'
    exact ⟨a, b, rfl, ha, hinterior⟩
  · exact nomatch h

/-- No placeholder is found just when no `&` has a `;` behind it. -/
theorem placeholderInterior?_eq_none_iff {s : Fragment} :
    placeholderInterior? s = none ↔ ∀ a b c, s ≠ a ++ '&' :: (b ++ ';' :: c) := by
  constructor
  · rintro h a b c rfl
    -- the first `&` has the `;` behind it too
    obtain ⟨l, r, hs, hl, hmem⟩ : ∃ l r, a ++ '&' :: (b ++ ';' :: c) = l ++ '&' :: r ∧ '&' ∉ l ∧
        ';' ∈ r := by
      by_cases ha : '&' ∈ a
      · obtain ⟨l, r, rfl, hl⟩ := List.eq_append_cons_of_mem ha
        exact ⟨l, r ++ '&' :: (b ++ ';' :: c), by simp, hl, by simp⟩
      · exact ⟨a, b ++ ';' :: c, rfl, ha, by simp⟩
    obtain ⟨interior, rest, rfl, hinterior⟩ := List.eq_append_cons_of_mem hmem
    rw [hs, placeholderInterior?_cons hl hinterior] at h
    exact nomatch h
  · intro h
    cases hinterior : placeholderInterior? s with
    | none => rfl
    | some interior =>
      obtain ⟨a, b, hs, -, -⟩ := placeholderInterior?_eq_some hinterior
      exact absurd hs (h a interior b)

/-! ### Typed placeholders -/

/-- Whether no placeholder is typed in a text: what stands between an `&` and a `;` is never an
index. An index with a sign in front does not count, since a text is split at the sign. -/
def TypesNoPlaceholder (s : Fragment) : Prop :=
  ∀ interior, '+' ∉ interior → '&' :: (interior ++ [';']) <:+: s → placeholderIndex? interior = none

namespace TypesNoPlaceholder

variable {s t : Fragment}

theorem of_isInfix (hsub : s <:+: t) (h : TypesNoPlaceholder t) : TypesNoPlaceholder s :=
  fun interior hplus hinterior => h interior hplus (hinterior.trans hsub)

theorem of_notMem (h : '&' ∉ s ∨ ';' ∉ s) : TypesNoPlaceholder s := by
  intro interior _ hinterior
  exfalso
  rcases h with h | h
  · exact h (hinterior.sublist.mem List.mem_cons_self)
  · exact h (hinterior.sublist.mem (by simp))

/-- A placeholder that is found in such a text, once it has been split at every `+`, is no index. -/
theorem index_eq_none (h : TypesNoPlaceholder s) (hplus : '+' ∉ s) {interior : Fragment}
    (hinterior : placeholderInterior? s = some interior) : placeholderIndex? interior = none := by
  obtain ⟨a, b, rfl, -, -⟩ := placeholderInterior?_eq_some hinterior
  have hsub : '&' :: (interior ++ [';']) <:+: a ++ '&' :: (interior ++ ';' :: b) :=
    ⟨a, b, by simp⟩
  exact h interior (fun hmem => hplus (by simp [hmem])) hsub

end TypesNoPlaceholder

end Formula
