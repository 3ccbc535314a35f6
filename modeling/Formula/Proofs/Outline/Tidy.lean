import Formula.Proofs.Outline.Blanks

/-!
# Tidy outlines

A fragment is *balanced* when brackets are closed in it, each by its own: whatever is open in front
of it is still open behind it. An outline of balanced groups with no other brackets is *tidy*. A
tidy outline is the outline of its text (`Tidy.ofText`), also when blanks are taken away at the ends
of both (`Tidy.ofText_trim`), and its text is balanced again (`Tidy.balanced`).
-/

namespace Formula

/-! ### Balanced fragments -/

theorem closeGroup?_plain {c : Char} (hopen : c ≠ '(') (hclose : c ≠ ')') (depth : Nat)
    (s : Fragment) : closeGroup? depth (c :: s) =
      (closeGroup? depth s).map fun parts => (c :: parts.1, parts.2) := by
  cases depth <;> simp [closeGroup?, hopen, hclose]

theorem closeGroup?_open (depth : Nat) (s : Fragment) : closeGroup? depth ('(' :: s) =
    (closeGroup? (depth + 1) s).map fun parts => ('(' :: parts.1, parts.2) := by
  cases depth <;> simp [closeGroup?]

theorem closeGroup?_close (depth : Nat) (s : Fragment) : closeGroup? (depth + 1) (')' :: s) =
    (closeGroup? depth s).map fun parts => (')' :: parts.1, parts.2) := by
  simp [closeGroup?]

/-- Whether a group that is open in front of the fragment goes on behind it. -/
def Balanced (s : Fragment) : Prop :=
  ∀ depth t, closeGroup? depth (s ++ t) =
    (closeGroup? depth t).map fun parts => (s ++ parts.1, parts.2)

namespace Balanced

theorem nil : Balanced [] := fun _ _ => by simp

theorem append {s t : Fragment} (hs : Balanced s) (ht : Balanced t) : Balanced (s ++ t) := by
  intro depth u
  rw [List.append_assoc, hs, ht, Option.map_map]
  simp [Function.comp_def]

theorem singleton {c : Char} (hopen : c ≠ '(') (hclose : c ≠ ')') : Balanced [c] := by
  intro depth t
  rw [List.singleton_append, closeGroup?_plain hopen hclose]
  rfl

/-- Brackets around a balanced text are balanced. -/
theorem group {s : Fragment} (hs : Balanced s) : Balanced ('(' :: (s ++ [')'])) := by
  intro depth t
  rw [List.cons_append, List.append_assoc, closeGroup?_open, hs, List.singleton_append,
    closeGroup?_close]
  simp [Option.map_map, Function.comp_def]

/-- A bracket behind a balanced fragment closes the group that was opened in front of it. -/
theorem closeGroup?_append {s : Fragment} (hs : Balanced s) (t : Fragment) :
    closeGroup? 0 (s ++ ')' :: t) = some (s, t) := by
  rw [hs]
  simp [closeGroup?]

end Balanced

/-- Whether a piece is an ordinary character or a balanced group, without an `&`. -/
def Piece.Tidy : Piece → Prop
  | .plain c => c ≠ '(' ∧ c ≠ ')' ∧ c ≠ '&'
  | .group inner => Balanced inner ∧ '&' ∉ inner

namespace Outline

/-- Whether all pieces are tidy. -/
def Tidy (o : Outline) : Prop := ∀ piece ∈ o, piece.Tidy

theorem tidy_append {o p : Outline} : Tidy (o ++ p) ↔ Tidy o ∧ Tidy p := List.forall_mem_append

theorem tidy_cons {piece : Piece} {o : Outline} : Tidy (piece :: o) ↔ piece.Tidy ∧ Tidy o :=
  List.forall_mem_cons

/-- Plain characters are tidy if there is neither a bracket nor the mark of a placeholder among
them. -/
theorem tidy_map_plain {s : Fragment} :
    Tidy (s.map .plain) ↔ ∀ c ∈ s, c ≠ '(' ∧ c ≠ ')' ∧ c ≠ '&' :=
  List.forall_mem_map

theorem tidy_plain_symbol (operator : Operator) : (Piece.plain operator.symbol).Tidy := by
  cases operator <;> simp [Piece.Tidy, Operator.symbol]

theorem text_append_cons (o p : Outline) (c : Char) :
    text (o ++ .plain c :: p) = text o ++ c :: text p := by
  rw [text_append, text_cons]
  rfl

/-! ### Trimming the text -/

/-- Blanks in front are dropped from the outline or from its text, which comes to the same since a
group is not blank. -/
theorem text_dropWhile (o : Outline) :
    text (o.dropWhile Piece.isBlank) = o.text.dropWhile Text.isBlank := by
  induction o with
  | nil => rfl
  | cons piece o ih =>
    cases piece with
    | plain c =>
      by_cases hblank : Text.isBlank c
      · simpa [Piece.isBlank, Piece.text, hblank] using ih
      · simp [Piece.isBlank, Piece.text, hblank]
    | group inner =>
      have hopen : Text.isBlank '(' = false := by decide
      simp [Piece.isBlank, Piece.text, hopen]

theorem text_rdropWhile (o : Outline) :
    text (o.rdropWhile Piece.isBlank) = o.text.rdropWhile Text.isBlank := by
  induction o using List.reverseRecOn with
  | nil => rfl
  | append_singleton o piece ih =>
    cases piece with
    | plain c =>
      have htext : text (o ++ [.plain c]) = text o ++ [c] := by simp [Piece.text]
      by_cases hblank : Text.isBlank c
      · rw [htext, List.rdropWhile_concat_pos Piece.isBlank _ (.plain c) hblank,
          List.rdropWhile_concat_pos Text.isBlank _ _ hblank, ih]
      · rw [htext, List.rdropWhile_concat_neg Piece.isBlank _ (.plain c) hblank,
          List.rdropWhile_concat_neg Text.isBlank _ _ hblank, htext]
    | group inner =>
      -- the text of a group ends with a bracket
      have htext : text (o ++ [.group inner]) = (text o ++ '(' :: inner) ++ [')'] := by
        simp [Piece.text]
      rw [htext, List.rdropWhile_concat_neg Piece.isBlank _ _ (by simp [Piece.isBlank]),
        List.rdropWhile_concat_neg Text.isBlank _ _ (by decide), htext]

theorem text_trim (o : Outline) : Fragment.trim o.text = text o.trim := by
  rw [Text.trim_eq_trimBy, Text.trimBy, ← text_dropWhile, ← text_rdropWhile]
  rfl

namespace Tidy

variable {o : Outline}

theorem sublist {p : Outline} (h : Tidy p) (hsub : List.Sublist o p) : Tidy o :=
  fun piece hpiece => h piece (hsub.mem hpiece)

/-- The text of a tidy outline is balanced, for so is the inside of each of its groups. -/
theorem balanced (h : Tidy o) : Balanced o.text := by
  induction o with
  | nil => exact .nil
  | cons piece o ih =>
    obtain ⟨hpiece, ho⟩ := tidy_cons.mp h
    rw [text_cons]
    cases piece with
    | plain c => exact (Balanced.singleton hpiece.1 hpiece.2.1).append (ih ho)
    | group inner => exact hpiece.1.group.append (ih ho)

theorem amp_notMem (h : Tidy o) : '&' ∉ o.text := by
  induction o with
  | nil => simp
  | cons piece o ih =>
    obtain ⟨hpiece, ho⟩ := tidy_cons.mp h
    cases piece with
    | plain c => simp [Piece.text, ih ho, hpiece.2.2.symm]
    | group inner => simp [Piece.text, ih ho, hpiece.2]

/-- A tidy outline is found again in its text, which other outlines may have too: those with a
bracket as a plain character. -/
theorem scan_text (h : Tidy o) : scan o.text = (o, []) := by
  induction o with
  | nil => exact scan_nil
  | cons piece o ih =>
    obtain ⟨hpiece, ho⟩ := tidy_cons.mp h
    rw [text_cons]
    cases piece with
    | plain c =>
      rw [Piece.text, List.singleton_append, scan_plain hpiece.1, ih ho]
    | group inner =>
      have hclose := hpiece.1.closeGroup?_append (text o)
      rw [Piece.text, List.cons_append, List.append_assoc, List.singleton_append,
        scan_group hclose, ih ho]

theorem group (h : Tidy o) : Outline.Tidy [.group o.text] :=
  tidy_cons.mpr ⟨⟨h.balanced, h.amp_notMem⟩, fun _ hpiece => absurd hpiece List.not_mem_nil⟩

/-- A tidy outline is the outline of its text. -/
theorem ofText (h : Tidy o) : ofText o.text = .ok o := ofText_eq_ok_iff.mpr h.scan_text

/-- A trimmed text has the trimmed outline. -/
theorem ofText_trim (h : Tidy o) : Outline.ofText (Fragment.trim o.text) = .ok o.trim := by
  rw [text_trim]
  exact (h.sublist o.trim_sublist).ofText

end Tidy

end Outline

end Formula
