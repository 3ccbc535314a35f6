import Formula.Proofs.Outline.Restored
import Formula.Proofs.Parser.Origin

/-!
# The fragments that are read

`visits` lists all fragments that are read with a text, in the order in which they are read, each
with the state in which its reading begins. They are the ends of the chains of calls
(`exists_mem_visits_iff`), and the list ends where the first fault is seen
(`exists_visit_of_error`).

In a text without an `&` every fragment that is read is a piece of the text with its groups replaced
by placeholders, and so is what an error shows. `Groups.restore` puts the groups back once:
`Sited.restore` and `Sited.restore_shown`.
-/

namespace Formula

namespace Groups

/-- What is hidden of a text without an `&` can be put back, whether all its brackets are closed or
not. -/
theorem restore_hide (groups : Groups) {s : Fragment} (hs : '&' ∉ s) :
    (groups.hide s).2.restore 0 (groups.hide s).1 = s := by
  obtain ⟨-, m, hhide, hm⟩ := Outline.hide_scan groups s
  have htext := Outline.scan_text s
  obtain ⟨ho, hrest⟩ : '&' ∉ Outline.text (Outline.scan s).1 ∧ '&' ∉ (Outline.scan s).2 := by
    rwa [← htext, List.mem_append, not_or] at hs
  rw [hhide, restore_masked hm ho hrest, htext]

end Groups

/-- The fragment that an error shows. -/
def SyntaxError.fragment? : SyntaxError → Option Fragment
  | .unmatchedBracket fragment _ => some fragment.toList
  | .unexpectedEnd fragment => some fragment.toList
  | .invalidPlaceholder _ => none
  | .endlessExpansion => none

namespace Parser

open Outline (Masked)

/-! ### Visits -/

/-- A fragment that is read, and the state in which its reading begins. -/
structure Visit (α : Type) where
  fragment : Fragment
  state : State α

variable {α : Type}

/-- The groups when those of the fragment have been set aside as well. -/
def Visit.groups (visit : Visit α) : Groups :=
  (visit.state.groups.setAside visit.fragment.trim).2

/-- The visits of several fragments that are read one after another, up to the first fault. -/
def visitsAll (read : Fragment → Reader α (Tree α))
    (visits : Fragment → State α → List (Visit α)) : List Fragment → State α → List (Visit α)
  | [], _ => []
  | s :: rest, st =>
    visits s st ++
      match (read s).run st with
      | .ok (_, st') => visitsAll read visits rest st'
      | .error _ => []

/-- What is visited below several parts is visited below one of them, in the state that those in
front of it have left. -/
theorem mem_visitsAll {read : Fragment → Reader α (Tree α)}
    {visits : Fragment → State α → List (Visit α)} {parts : List Fragment} {st : State α}
    {visit : Visit α} :
    visit ∈ visitsAll read visits parts st ↔
      ∃ before s after trees st', parts = before ++ s :: after ∧
        (before.mapM read).run st = .ok (trees, st') ∧ visit ∈ visits s st' := by
  induction parts generalizing st with
  | nil => simp [visitsAll]
  | cons s rest ih =>
    rw [visitsAll, List.mem_append]
    constructor
    · rintro (hfirst | hrest)
      · exact ⟨[], s, rest, [], st, rfl, rfl, hfirst⟩
      · rcases hs : (read s).run st with e | ⟨tree, st₁⟩
        · simp [hs] at hrest
        · rw [hs] at hrest
          obtain ⟨before, s', after, trees, st', rfl, hbefore, hvisit⟩ := ih.mp hrest
          exact ⟨s :: before, s', after, tree :: trees, st', rfl,
            mapM_cons_eq_ok.mpr ⟨tree, st₁, trees, hs, hbefore, rfl⟩, hvisit⟩
    · rintro ⟨before, s', after, trees, st', hparts, hbefore, hvisit⟩
      -- the part is the first one, or the first one has been read
      cases before with
      | nil =>
        obtain ⟨rfl, rfl⟩ := List.cons.inj hparts
        obtain ⟨-, rfl⟩ := Prod.mk.inj (Except.ok.inj hbefore)
        exact Or.inl hvisit
      | cons b before =>
        obtain ⟨rfl, rfl⟩ := List.cons.inj hparts
        obtain ⟨tree, st₁, trees', hs, hrest, rfl⟩ := mapM_cons_eq_ok.mp hbefore
        rw [hs]
        exact Or.inr (ih.mpr ⟨before, s', after, trees', st', rfl, hrest, hvisit⟩)

variable [Zero α] [Numeral α] {vocabulary : Vocabulary α}

/-- All that is read with a fragment, in order, with at most `depth` fragments inside each other:
the fragment itself and then what is read with its parts. -/
def visits (vocabulary : Vocabulary α) : Nat → Fragment → State α → List (Visit α)
  | 0, _, _ => []
  | depth + 1, s, st =>
    ⟨s, st⟩ ::
      match (interpret vocabulary s).run st with
      | .ok (reading, st') =>
        visitsAll (fragment vocabulary depth) (visits vocabulary depth) reading.parts st'
      | .error _ => []

/-- What is visited is the fragment itself, or is visited below one of its parts. -/
theorem mem_visits_succ {depth : Nat} {s : Fragment} {st : State α} {visit : Visit α} :
    visit ∈ visits vocabulary (depth + 1) s st ↔
      visit = ⟨s, st⟩ ∨ ∃ reading st₁ before part after trees st',
        (interpret vocabulary s).run st = .ok (reading, st₁) ∧
        reading.parts = before ++ part :: after ∧
        (before.mapM (fragment vocabulary depth)).run st₁ = .ok (trees, st') ∧
        visit ∈ visits vocabulary depth part st' := by
  rw [visits, List.mem_cons]
  refine or_congr_right ?_
  rcases (interpret vocabulary s).run st with e | ⟨reading, st₁⟩
  · simp
  · dsimp only
    rw [mem_visitsAll]
    constructor
    · rintro ⟨before, part, after, trees, st', h⟩
      exact ⟨reading, st₁, before, part, after, trees, st', rfl, h⟩
    · rintro ⟨reading', st₁', before, part, after, trees, st', heq, h⟩
      obtain ⟨rfl, rfl⟩ := Prod.mk.inj (Except.ok.inj heq)
      exact ⟨before, part, after, trees, st', h⟩

/-! ### Chains of calls -/

theorem exists_callChain_of_mem_visits {depth : Nat} {s : Fragment} {st : State α}
    {visit : Visit α} (h : visit ∈ visits vocabulary depth s st) :
    ∃ n, CallChain vocabulary n s st visit.fragment visit.state := by
  induction depth generalizing s st with
  | zero => exact absurd h List.not_mem_nil
  | succ depth ih =>
    obtain rfl | ⟨reading, st₁, before, part, after, trees, st', hstep, hparts, hbefore, hvisit⟩ :=
      mem_visits_succ.mp h
    · exact ⟨0, .refl s st⟩
    · obtain ⟨n, hchain⟩ := ih hvisit
      have hcall : Calls vocabulary s st part st' :=
        ⟨reading, st₁, before, after, depth, trees, hstep, hparts, hbefore⟩
      exact ⟨n + 1, .step hcall hchain⟩

theorem visits_subset {depth depth' : Nat} (hle : depth ≤ depth') (s : Fragment) (st : State α) :
    visits vocabulary depth s st ⊆ visits vocabulary depth' s st := by
  induction depth generalizing depth' s st with
  | zero => exact List.nil_subset _
  | succ depth ih =>
    obtain ⟨depth', rfl⟩ := Nat.exists_eq_add_of_le' hle
    have hle' : depth ≤ depth' + depth := by omega
    intro visit hvisit
    rw [← Nat.add_assoc, mem_visits_succ]
    obtain hroot | ⟨reading, st₁, before, part, after, trees, st', hstep, hparts, hbefore, hpart⟩ :=
      mem_visits_succ.mp hvisit
    · exact Or.inl hroot
    · exact Or.inr ⟨reading, st₁, before, part, after, trees, st', hstep, hparts,
        mapM_fragment_mono hle' hbefore, ih hle' part st' hpart⟩

/-- What is visited is what a chain of calls leads to. -/
theorem exists_mem_visits_iff {s : Fragment} {st : State α} {visit : Visit α} :
    (∃ depth, visit ∈ visits vocabulary depth s st) ↔
      ∃ n, CallChain vocabulary n s st visit.fragment visit.state := by
  constructor
  · rintro ⟨depth, h⟩
    exact exists_callChain_of_mem_visits h
  · rintro ⟨n, hchain⟩
    obtain ⟨t, st'⟩ := visit
    dsimp only at hchain
    induction hchain with
    | refl s st => exact ⟨1, List.mem_cons_self⟩
    | @step n s t u st st' st'' hcall _ ih =>
      obtain ⟨reading, st₁, before, after, depth, trees, hstep, hparts, hbefore⟩ := hcall
      obtain ⟨depth', hvisit⟩ := ih
      -- both the parts in front and the part itself are read with the larger bound
      have hbefore' := mapM_fragment_mono (Nat.le_max_left depth depth') hbefore
      have hvisit' := visits_subset (Nat.le_max_right depth depth') t st' hvisit
      exact ⟨max depth depth' + 1, mem_visits_succ.mpr <|
        Or.inr ⟨reading, st₁, before, t, after, trees, st', hstep, hparts, hbefore', hvisit'⟩⟩

/-! ### Faults -/

/-- Whether an error is seen at a fragment itself: when it is interpreted, or when its parts have
been read. -/
def FaultAt (vocabulary : Vocabulary α) (visit : Visit α) (error : SyntaxError) : Prop :=
  (interpret vocabulary visit.fragment).run visit.state = .error error ∨
    ∃ reading st trees,
      (interpret vocabulary visit.fragment).run visit.state = .ok (reading, st) ∧
        reading.assemble trees = .error error

/-- Unless the bound is met, an error is seen at one of the visits. -/
theorem exists_visit_of_error {depth : Nat} {s : Fragment} {st : State α} {error : SyntaxError}
    (hbound : error ≠ .endlessExpansion)
    (h : (fragment vocabulary depth s).run st = .error error) :
    ∃ visit ∈ visits vocabulary depth s st, FaultAt vocabulary visit error := by
  induction depth generalizing s st with
  | zero => exact absurd (Except.error.inj ((fragment_zero s st).symm.trans h)).symm hbound
  | succ depth ih =>
    rcases fragment_eq_error.mp h with hstep | ⟨reading, st₁, hstep, hparts | hassemble⟩
    · exact ⟨⟨s, st⟩, List.mem_cons_self, Or.inl hstep⟩
    · obtain ⟨before, part, after, trees, st', hsplit, hbefore, herror⟩ :=
        exists_append_of_mapM_error hparts
      obtain ⟨visit, hvisit, hfault⟩ := ih herror
      exact ⟨visit, mem_visits_succ.mpr <|
        Or.inr ⟨reading, st₁, before, part, after, trees, st', hstep, hsplit, hbefore, hvisit⟩,
        hfault⟩
    · obtain ⟨trees, st₂, -, hassemble⟩ := hassemble
      exact ⟨⟨s, st⟩, List.mem_cons_self, Or.inr ⟨reading, st₁, trees, hstep, hassemble⟩⟩

/-! ### Pieces of the text -/

section Pieces

variable {text s t : Fragment} {st st' : State α}

omit [Zero α] [Numeral α] in
/-- With its groups put back, a sited fragment is a piece of the text. -/
theorem Sited.restore (h : Sited text st s) (htext : '&' ∉ text) :
    st.groups.restore 0 s <:+: text := by
  obtain ⟨piece, hpiece, hs⟩ := h.stands
  have hamp : '&' ∉ piece := fun hmem => htext (hpiece.sublist.mem hmem)
  rcases hs with rfl | ⟨o, rfl, hs⟩
  · rwa [Groups.restore_of_notMem hamp]
  · have hrestore := Groups.restore_masked hs hamp List.not_mem_nil
    rw [List.append_nil, List.append_nil] at hrestore
    rwa [hrestore]

omit [Zero α] [Numeral α] in
/-- A sited fragment is sited when its groups have been set aside. -/
theorem Sited.hidden (h : Sited text st s) {hidden : Fragment}
    (hhidden : (st.groups.setAside s.trim).1 = .ok hidden) (vars : Variables α) :
    Sited text ⟨(st.groups.setAside s.trim).2, vars⟩ (Fragment.trim hidden) := by
  obtain ⟨piece, hpiece, hs⟩ := h.stands
  obtain ⟨o, hsub, hmasked⟩ := hs.masked hhidden
  exact ⟨h.setAside, o.text, hsub.trans hpiece, Or.inr ⟨o, rfl, hmasked⟩⟩

omit [Zero α] [Numeral α] in
/-- Only a text that is read for the first time has an unmatched bracket, and it is shown whole. -/
theorem Sited.restore_unmatched (h : Sited text st s) (htext : '&' ∉ text) {error : SyntaxError}
    (herror : (st.groups.setAside s.trim).1 = .error error) {shown : Fragment}
    (hshown : error.fragment? = some shown) :
    (st.groups.setAside s.trim).2.restore 0 shown <:+: text := by
  obtain ⟨piece, hpiece, rfl | ⟨o, -, hs⟩⟩ := h.stands
  · have hsub : s.trim <:+: text := (Text.trimBy_isInfix s).trans hpiece
    have hrestore := st.groups.restore_hide fun hmem => htext (hsub.sublist.mem hmem)
    rw [Outline.setAside_eq] at herror ⊢
    dsimp only at herror ⊢
    split at herror
    · obtain rfl := Except.error.inj herror
      obtain rfl := Option.some.inj hshown
      rwa [String.toList_ofList, hrestore]
    · exact nomatch herror
  · rw [hs.trim.setAside] at herror
    exact nomatch herror

theorem Sited.visit (hnames : ∀ name ∈ vocabulary.names, '&' ∉ name.toList)
    (h : Sited text st s) {depth : Nat} {visit : Visit α}
    (hvisit : visit ∈ visits vocabulary depth s st) : Sited text visit.state visit.fragment := by
  obtain ⟨n, hchain⟩ := exists_callChain_of_mem_visits hvisit
  exact hchain.sited hnames h

/-- What an error at a sited fragment shows is a piece of the text, with its groups put back. -/
theorem Sited.restore_shown (hnames : ∀ name ∈ vocabulary.names, '&' ∉ name.toList)
    {visit : Visit α} (h : Sited text visit.state visit.fragment) (htext : '&' ∉ text)
    {error : SyntaxError} (hfault : FaultAt vocabulary visit error) {shown : Fragment}
    (hshown : error.fragment? = some shown) : visit.groups.restore 0 shown <:+: text := by
  unfold Visit.groups
  -- it fails as it is interpreted, or as the trees of its parts are put together
  rcases hfault with hstep | ⟨reading, st', trees, hstep, hassemble⟩
  · rcases interpret_eq_error hstep with herror | ⟨token, rfl⟩ | ⟨hidden, hhidden, rfl⟩
    · exact h.restore_unmatched htext herror hshown
    · exact nomatch hshown
    · obtain rfl := Option.some.inj hshown
      rw [String.toList_ofList]
      exact (h.hidden hhidden visit.state.vars).restore htext
  · obtain ⟨fragment, rfl, hreading⟩ := assemble_eq_error hassemble
    obtain rfl := Option.some.inj hshown
    rw [String.toList_ofList]
    obtain ⟨hidden, hhidden, hrule⟩ := interpret_eq_ok hstep
    rcases hreading with ⟨operator, rfl⟩ | rfl
    · cases hrule with
      | operation => exact (h.hidden hhidden visit.state.vars).restore htext
    · obtain ⟨hsited, -⟩ := interpret_sited hnames h hstep
      rw [← interpret_groups_eq hstep]
      exact (hsited fragment List.mem_cons_self).restore htext

end Pieces

end Parser

end Formula
