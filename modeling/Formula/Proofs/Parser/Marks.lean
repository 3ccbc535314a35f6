import Formula.Proofs.Grammar.Names
import Formula.Proofs.Parser.Depth

/-!
# Typed placeholders

A placeholder that is typed in a text leads to the group with its number, whoever has set the group
aside. Readings of such texts are followed here on what is left of them when their groups have been
set aside, which is digits and the marks of placeholders: neither an operator nor a name is in it,
so that it is the number that it spells (`fragment_run_scalar`) or what its first placeholder stands
for (`fragment_run_placeholder`).
-/

namespace Formula.Parser

open Outline (Masked)

/-! ### Setting groups aside -/

section Hidden

variable {groups groups' : Groups} {s hidden : Fragment}

theorem hide_of_notMem (h : '(' ∉ s) : groups.hide s = (s, groups) := by
  have hnone : firstGroup? s = none := by
    unfold firstGroup?
    rw [Text.cutFirst?_eq_firstCut?, Text.firstCut?_eq_none_iff.mpr h]
  rw [Groups.hide]
  split
  · next hsome => cases hnone.symm.trans hsome
  · rfl

/-- The first group is hidden behind its placeholder, and then the groups behind it. -/
theorem hide_of_firstGroup? {plain inner rest : Fragment}
    (h : firstGroup? s = some (plain, inner, rest))
    (hrest : (groups.push inner).hide rest = (hidden, groups')) :
    groups.hide s = (plain ++ placeholder groups.size ++ hidden, groups') := by
  rw [Groups.hide]
  split
  · next hsome =>
    cases h.symm.trans hsome
    rw [hrest]
  · next hnone => cases h.symm.trans hnone

theorem setAside_of_hide (h : groups.hide s = (hidden, groups')) (hopen : '(' ∉ hidden) :
    groups.setAside s = (.ok hidden, groups') := by
  rw [Outline.setAside_eq, h, if_neg hopen]

end Hidden

/-- Whether a character may stand in a placeholder or in a whole number. -/
def isMark (c : Char) : Bool := c.isDigit || c == '&' || c == ';'

theorem isMark_spec {c : Char} (h : isMark c = true) : c ≠ '(' ∧ Text.isBlank c = false ∧
    c.isAlpha = false ∧ ∀ operator : Operator, c ≠ operator.symbol := by
  have hcases : c.isDigit = true ∨ c = '&' ∨ c = ';' := by
    simpa [isMark, or_assoc] using h
  have hsymbol : ∀ operator : Operator, c ≠ operator.symbol := by
    rintro operator rfl
    cases operator <;> exact absurd h (by decide)
  have hopen : c ≠ '(' := by
    rintro rfl
    exact absurd h (by decide)
  rcases hcases with hdigit | rfl | rfl
  · exact ⟨hopen, isBlank_of_isAlphanum (isAlphanum_of_isDigit hdigit),
      isAlpha_eq_false_of_isDigit hdigit, hsymbol⟩
  · exact ⟨hopen, by decide, by decide, hsymbol⟩
  · exact ⟨hopen, by decide, by decide, hsymbol⟩

section Typed

variable {α : Type} [Zero α] [Numeral α] {vocabulary : Vocabulary α}

/-- The groups of a text may be set aside beforehand. -/
theorem fragment_run_of_setAside {s m : Fragment} {groups : Groups}
    (h : Groups.empty.setAside s.trim = (.ok m, groups)) (hm : '(' ∉ m) (depth : Nat) :
    (fragment vocabulary (depth + 1) s).run .initial =
      (fragment vocabulary (depth + 1) m).run ⟨groups, .empty⟩ := by
  have hmasked : Masked groups (m.map .plain) m := Masked.map_plain hm
  have h' : (State.initial : State α).groups.setAside s.trim = (.ok m, groups) := h
  rw [fragment_run_hidden, h', Masked.fragment_run hmasked]
  rfl

variable (hdistinct : vocabulary.Distinct)
include hdistinct

/-- A fragment of marks is an operand as it stands, and no name is recognised in it. -/
theorem fragment_run_marks {c : Char} {s : Fragment} (hs : (c :: s).all isMark = true)
    (st : State α) (depth : Nat) :
    (vocabulary.functionAt? (c :: s) = none ∧ vocabulary.constantAt? (c :: s) = none) ∧
    (fragment vocabulary (depth + 1) (c :: s)).run st =
      ((interpretOperand vocabulary (c :: s)).run st).bind fun r =>
        ((r.1.parts.mapM (fragment vocabulary depth)).run r.2).bind fun q =>
          (r.1.assemble q.1).map fun tree => (tree, q.2) := by
  have hspec := fun x hx => isMark_spec (List.all_eq_true.mp hs x hx)
  have hmasked : Masked st.groups ((c :: s).map .plain) (c :: s) :=
    Masked.map_plain fun hmem => (hspec _ hmem).1 rfl
  have htrim : Fragment.trim (c :: s) = c :: s :=
    Text.trimBy_eq_self fun x hx => (hspec x hx).2.1
  have hop : Operator.loosestIn? (c :: s) = none := by
    rw [Operator.loosestIn?, List.find?_eq_none]
    intro operator _ hmem
    exact (hspec _ (of_decide_eq_true hmem)).2.2.2 operator rfl
  refine ⟨hdistinct.recognises_nothing_of_isAlpha_eq_false (hspec c List.mem_cons_self).2.2.1, ?_⟩
  rw [hmasked.fragment_run, htrim, readHidden_run, recognise, hop]

/-- A fragment of marks that is a number is read as the number. -/
theorem fragment_run_scalar {c : Char} {s : Fragment} {value : α}
    (hs : (c :: s).all isMark = true) (hinterior : placeholderInterior? (c :: s) = none)
    (hvalue : number? (c :: s) = some value) (st : State α) (depth : Nat) :
    (fragment vocabulary (depth + 1) (c :: s)).run st = .ok (.scalar value, st) := by
  obtain ⟨⟨hfun, hconst⟩, hrun⟩ := fragment_run_marks hdistinct hs st depth
  rw [hrun, interpretOperand_run, hfun, hconst, hinterior]
  dsimp only
  rw [hvalue]
  rfl

/-- A placeholder stands for a group, whoever has written it. -/
theorem fragment_run_placeholder {groups : Groups} {c : Char} {s interior text : Fragment}
    (hs : (c :: s).all isMark = true) (hinterior : placeholderInterior? (c :: s) = some interior)
    (htext : groups.resolve interior = .ok text) (vars : Variables α) (depth : Nat) :
    (fragment vocabulary (depth + 1) (c :: s)).run ⟨groups, vars⟩ =
      (fragment vocabulary depth text).run ⟨groups, vars⟩ := by
  obtain ⟨⟨hfun, hconst⟩, hrun⟩ := fragment_run_marks hdistinct hs ⟨groups, vars⟩ depth
  rw [hrun, interpretOperand_run, hfun, hconst, hinterior]
  dsimp only
  rw [htext, Except.map, Except.bind, group_run]

end Typed

end Formula.Parser
