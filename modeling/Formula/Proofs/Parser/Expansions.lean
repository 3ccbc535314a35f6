import Formula.Proofs.Parser.Visits

/-!
# Every group is read once

Reading a text in which no `&` is typed expands the placeholder of each group at most once, and
there are never more groups than the text has opening brackets: `visits_pieces`.

Every placeholder belongs to one of the fragments that are still to be read: `Owns` says which
numbers a fragment holds. They are new when groups are set aside (`Owns.setAside`), and a step hands
them on to the parts, except for the one that it expands (`interpret_owns`).

For the number of groups every bracket is counted that is still to be found, in the fragment itself
or in a group that it holds (`openings`). `Once` says both of a run, `parts_once` carries it over
several fragments and `fragment_once` through the recursion.
-/

namespace Formula.Parser

open Outline (Masked)

/-! ### Brackets that are still to be found -/

/-- How many brackets open in the groups with these numbers. -/
def openings (groups : Groups) (is : List Nat) : Nat :=
  (is.flatMap fun i => (groups.get? i).getD []).count '('

theorem openings_append (groups : Groups) (is js : List Nat) :
    openings groups (is ++ js) = openings groups is + openings groups js := by
  simp [openings]

theorem openings_le_of_sublist {is js : List Nat} (h : List.Sublist is js) (groups : Groups) :
    openings groups is ≤ openings groups js := (h.flatMap _).count_le '('

/-- Groups that come later have no part in the brackets of those that there are. -/
theorem openings_of_extends {groups groups' : Groups} (hext : groups.Extends groups')
    {is : List Nat} (his : ∀ i ∈ is, i < groups.size) :
    openings groups' is = openings groups is := by
  unfold openings
  rw [List.flatMap_def, List.flatMap_def]
  congr 2
  refine List.map_congr_left fun i hi => ?_
  have hlt : i < groups.texts.size := his i hi
  have hget : groups.get? i = some groups.texts[i] := by simp [Groups.get?, hlt]
  rw [hget, hext.get? hget]

/-- New groups have the numbers behind those of the others. -/
theorem openings_range' {groups groups' : Groups} {inners : List Fragment}
    (h : groups'.toList = groups.toList ++ inners) :
    openings groups' (List.range' groups.size inners.length) = inners.flatten.count '(' := by
  unfold openings
  rw [List.flatMap_def]
  congr 2
  refine List.ext_getElem (by simp) fun i _ hi => ?_
  have hsize : groups.size = groups.toList.length := Array.length_toList.symm
  simp [Groups.get?_eq_toList, h, hsize, hi]

/-! ### The numbers of a fragment -/

/-- `Owns n is s` says that the fragment `s` is a text without an `&`, or else holds placeholders
with the numbers `is` in this order, all of them below `n`, and no other `&`. -/
inductive Owns (n : Nat) : List Nat → Fragment → Prop where
  | text {s : Fragment} (hs : '&' ∉ s) : Owns n [] s
  | masked {p : Outline} {s : Fragment} (h : Masked (.numbered n) p s) (hp : '&' ∉ p.text) :
    Owns n p.numbers s

namespace Owns

variable {n m : Nat} {is : List Nat} {s : Fragment} {groups : Groups}

theorem mono (hle : n ≤ m) (h : Owns n is s) : Owns m is s := by
  cases h with
  | text hs => exact .text hs
  | masked h hp => exact .masked (h.mono (Groups.extends_numbered hle)) hp

theorem lt (h : Owns n is s) : ∀ i ∈ is, i < n := by
  cases h with
  | text => exact fun i hi => absurd hi List.not_mem_nil
  | masked h => exact h.lt_of_mem_numbers

/-- A fragment whose groups have been set aside holds its own numbers, or else new ones. Each new
group takes a bracket out of the fragment, and those in it along. -/
theorem setAside (h : Owns groups.size is s) (hnodup : is.Nodup) :
    ∃ js : List Nat, js.Nodup ∧ (∀ j ∈ js, j ∈ is ∨ groups.size ≤ j) ∧
      (groups.setAside s.trim).2.size + openings (groups.setAside s.trim).2 js ≤
        groups.size + (s.count '(' + openings groups is) ∧
      ∀ hidden, (groups.setAside s.trim).1 = .ok hidden →
        ∃ p, Masked (.numbered (groups.setAside s.trim).2.size) p (Fragment.trim hidden) ∧
          '&' ∉ p.text ∧ List.Sublist p.numbers js := by
  cases h with
  | @masked p _ h hp =>
    have htrim : Masked groups (s.trim.map .plain) s.trim := .map_plain h.trim.open_notMem
    rw [htrim.setAside]
    refine ⟨p.numbers, hnodup, fun j hj => Or.inl hj, by dsimp only; omega, ?_⟩
    intro hidden hhidden
    obtain rfl := Except.ok.inj hhidden
    have hsub := p.trim.trim_sublist.trans p.trim_sublist
    exact ⟨p.trim.trim, h.trim.trim, Outline.amp_notMem_of_sublist hsub hp,
      (Outline.inners_sublist hsub).filterMap _⟩
  | text hs =>
    -- what is set aside is numbered in a row, and a fragment has an opening bracket for each
    obtain ⟨o, rest, hscan⟩ : ∃ o rest, Outline.scan s.trim = (o, rest) := ⟨_, _, rfl⟩
    have hdivided := Outline.divided_iff_scan.mpr hscan
    have hclosed := Outline.closed_iff_divided.mpr ⟨hdivided.plain, hdivided.matched⟩
    have htext : List.Sublist o.text s := by
      have hfront := List.sublist_append_left o.text rest
      rw [← hdivided.text] at hfront
      exact hfront.trans (Text.trimBy_sublist s)
    rw [hdivided.setAside groups]
    generalize hlater : (⟨(groups.toList ++ o.inners).toArray⟩ : Groups) = later
    have hgroups : later.toList = groups.toList ++ o.inners := by
      rw [← hlater]
      rfl
    have hsize : later.size = groups.size + o.inners.length := by
      simpa [Groups.toList, Groups.size] using congrArg List.length hgroups
    refine ⟨List.range' groups.size o.inners.length, List.nodup_range',
      fun j hj => Or.inr (List.left_le_of_mem_range' hj), ?_, ?_⟩
    · have hinners := o.length_inners_add_count_le
      have hcount := htext.count_le '('
      dsimp only
      rw [openings_range' hgroups, hsize]
      omega
    · intro hidden hhidden
      obtain rfl : o.mask groups.size = hidden := by
        dsimp only [Outline.outcome] at hhidden
        split at hhidden
        · exact Except.ok.inj hhidden
        · cases hhidden
      have hamp : '&' ∉ o.text := fun hmem => hs (htext.mem hmem)
      refine ⟨_, (hclosed.masked_numberFrom hsize.ge).trim, Outline.amp_notMem_of_sublist
        (Outline.trim_sublist _) (Outline.amp_notMem_numberFrom hamp groups.size), ?_⟩
      rw [← Outline.numbers_numberFrom]
      exact (Outline.inners_sublist (Outline.trim_sublist _)).filterMap _

theorem lt_of_mem_flatten {iss : List (List Nat)} {parts : List Fragment}
    (h : List.Forall₂ (Owns n) iss parts) : ∀ i ∈ iss.flatten, i < n := by
  induction h with
  | nil => exact fun i hi => absurd hi List.not_mem_nil
  | cons hhead _ ih =>
    intro i hi
    rw [List.flatten_cons, List.mem_append] at hi
    exact hi.elim (hhead.lt i) (ih i)

/-- Parts without a typed `&` own the groups that their outlines have. -/
theorem forall₂_of_masked {ps : List Outline} {parts : List Fragment}
    (h : List.Forall₂ (Masked (.numbered n)) ps parts) (hps : ∀ p ∈ ps, '&' ∉ p.text) :
    List.Forall₂ (Owns n) (ps.map Outline.numbers) parts :=
  List.forall₂_map_left_iff.mpr <|
    ((List.forall₂_and_left ps parts).mpr ⟨hps, h⟩).imp fun _ _ hpart => .masked hpart.2 hpart.1

end Owns

/-! ### One step -/

variable {α : Type}

/-- The number of the group that is read for a fragment, if it is read as a group. -/
def Reading.index? (reading : Reading α) (s : Fragment) : Option Nat :=
  match reading with
  | .group _ => (placeholderInterior? s).bind placeholderIndex?
  | _ => none

variable [Zero α] [Numeral α] {vocabulary : Vocabulary α}

/-- The number of the group whose placeholder is expanded at a visit. -/
def expansion? (vocabulary : Vocabulary α) (visit : Visit α) : Option Nat :=
  match (visit.state.groups.setAside visit.fragment.trim).1,
    (interpret vocabulary visit.fragment).run visit.state with
  | .ok hidden, .ok (reading, _) => reading.index? (Fragment.trim hidden)
  | _, _ => none

theorem expansion?_of_error {visit : Visit α} {error : SyntaxError}
    (h : (interpret vocabulary visit.fragment).run visit.state = .error error) :
    expansion? vocabulary visit = none := by
  unfold expansion?
  rw [h]
  cases (visit.state.groups.setAside visit.fragment.trim).1 <;> rfl

theorem expansion?_of_ok {visit : Visit α} {hidden : Fragment} {reading : Reading α} {st : State α}
    (hhidden : (visit.state.groups.setAside visit.fragment.trim).1 = .ok hidden)
    (h : (interpret vocabulary visit.fragment).run visit.state = .ok (reading, st)) :
    expansion? vocabulary visit = reading.index? (Fragment.trim hidden) := by
  unfold expansion?
  rw [hhidden, h]

/-- What is read as a group is the group whose placeholder is expanded. -/
theorem exists_expansion? {visit : Visit α} {inner : Fragment} {st : State α}
    (h : (interpret vocabulary visit.fragment).run visit.state = .ok (.group inner, st)) :
    ∃ index, expansion? vocabulary visit = some index ∧ visit.groups.get? index = some inner := by
  obtain ⟨hidden, hhidden, hrule⟩ := interpret_eq_ok h
  rw [expansion?_of_ok hhidden h]
  cases hrule with
  | group _ _ _ hinterior hresolve =>
    obtain ⟨index, hindex, hget⟩ := Groups.resolve_eq_ok_iff.mp hresolve
    exact ⟨index, by simp [Reading.index?, hinterior, hindex], hget⟩

/-- The parts of a fragment without groups hold the placeholders of the fragment, all but the one
that is expanded. No bracket stands in them, unless they are the text of a group. -/
theorem Interprets.exists_owns (hnames : ∀ name ∈ vocabulary.names, '&' ∉ name.toList)
    {st st' : State α} {p : Outline} {s : Fragment} {reading : Reading α}
    (h : Interprets vocabulary st s reading st') (hp : '&' ∉ p.text)
    (hmasked : Masked (.numbered st.groups.size) p s)
    (hgroups : ∀ inner ∈ st.groups.toList, '&' ∉ inner) :
    ∃ iss, List.Forall₂ (Owns st.groups.size) iss reading.parts ∧
      List.Sublist ((reading.index? s).toList ++ iss.flatten) p.numbers ∧
      reading.parts.flatten.count '(' ≤ openings st.groups (reading.index? s).toList := by
  -- a group is given up for its text, which owns nothing as no `&` is in it; other parts share what
  -- the fragment owns
  rcases h.group_or_masked hnames hmasked with
    ⟨interior, inner, rfl, -, hinterior, hresolve⟩ | ⟨hreading, ps, hparts, hinners, hps⟩
  · rw [h.groups_eq] at hresolve
    obtain ⟨index, hindex, hget⟩ := Groups.resolve_eq_ok_iff.mp hresolve
    have hread : (Reading.group inner : Reading α).index? s = some index := by
      simp [Reading.index?, hinterior, hindex]
    rw [hread]
    refine ⟨[[]], .cons (.text (hgroups inner (Groups.mem_of_resolve hresolve))) .nil, ?_, ?_⟩
    · simpa using hmasked.mem_numbers hp hinterior hindex
    · simp [Reading.parts, openings, hget]
  · have hread : reading.index? s = none := by
      cases reading with
      | group inner => exact absurd rfl (hreading inner)
      | leaf | operation | call => rfl
    have hnumbers : (ps.map Outline.numbers).flatten =
        (ps.flatMap Outline.inners).filterMap placeholderIndex? := by
      rw [List.filterMap_flatMap, List.flatMap_def]
      rfl
    rw [hread]
    refine ⟨ps.map Outline.numbers, Owns.forall₂_of_masked hparts
      fun q hq => Outline.amp_notMem_of_sublist (hps q hq).1.sublist hp, ?_, ?_⟩
    · rw [hnumbers]
      exact hinners.filterMap _
    · rw [List.count_eq_zero.mpr (Outline.Masked.open_notMem_flatten hparts)]
      exact Nat.zero_le _

/-- A step expands one placeholder at most and hands the others on to the parts, so that no two of
them hold the same. Every bracket that the parts and their groups have was one of the fragment and
its groups. -/
theorem interpret_owns (hnames : ∀ name ∈ vocabulary.names, '&' ∉ name.toList)
    {text s : Fragment} {st st' : State α} {is : List Nat} {reading : Reading α}
    (htext : '&' ∉ text) (hsited : Sited text st s) (howns : Owns st.groups.size is s)
    (hnodup : is.Nodup) (hstep : (interpret vocabulary s).run st = .ok (reading, st')) :
    ∃ iss, List.Forall₂ (Owns st'.groups.size) iss reading.parts ∧
      ((expansion? vocabulary ⟨s, st⟩).toList ++ iss.flatten).Nodup ∧
      (∀ i ∈ (expansion? vocabulary ⟨s, st⟩).toList ++ iss.flatten,
        (i ∈ is ∨ st.groups.size ≤ i) ∧ i < st'.groups.size) ∧
      st'.groups.size + (reading.parts.flatten.count '(' + openings st'.groups iss.flatten) ≤
        st.groups.size + (s.count '(' + openings st.groups is) := by
  obtain ⟨js, hjs, hnew, hsize, hhidden⟩ := howns.setAside hnodup
  obtain ⟨hidden, hok, hrule⟩ := interpret_eq_ok hstep
  obtain ⟨p, hmasked, hp, hsub⟩ := hhidden hidden hok
  have hamp : ∀ inner ∈ (st.groups.setAside s.trim).2.toList, '&' ∉ inner :=
    fun inner hinner hmem => htext ((hsited.setAside inner hinner).sublist.mem hmem)
  obtain ⟨iss, hparts, hnumbers, hopen⟩ := hrule.exists_owns hnames hp hmasked hamp
  have hexpansion : expansion? vocabulary ⟨s, st⟩ = reading.index? (Fragment.trim hidden) :=
    expansion?_of_ok hok hstep
  rw [interpret_groups_eq hstep, hexpansion]
  have hall := hnumbers.trans hsub
  have hopenings := openings_le_of_sublist hall (st.groups.setAside s.trim).2
  rw [openings_append] at hopenings
  refine ⟨iss, hparts, hjs.sublist hall, fun i hi => ⟨hnew i (hall.mem hi), ?_⟩, ?_⟩
  · exact hmasked.lt_of_mem_numbers i (hnumbers.mem hi)
  · dsimp only at hopen ⊢
    omega

/-! ### Whole runs -/

/-- `Once vocabulary st is brackets visits run` says of a run from the state `st` and of the visits
on its way that no placeholder is expanded twice, that those that are expanded have the numbers `is`
or new ones, and that for each new group there is one of `brackets` many brackets. -/
structure Once {β : Type} (vocabulary : Vocabulary α) (st : State α) (is : List Nat)
    (brackets : Nat) (visits : List (Visit α)) (run : Except SyntaxError (β × State α)) : Prop where
  nodup : (visits.filterMap (expansion? vocabulary)).Nodup
  owned : ∀ i ∈ visits.filterMap (expansion? vocabulary), i ∈ is ∨ st.groups.size ≤ i
  size : ∀ visit ∈ visits, visit.groups.size ≤ st.groups.size + brackets
  final : ∀ b st', run = .ok (b, st') → st.groups.size ≤ st'.groups.size ∧
    st'.groups.size ≤ st.groups.size + brackets ∧
    ∀ i ∈ visits.filterMap (expansion? vocabulary), i < st'.groups.size

section Once

variable {β γ : Type} {st st₁ : State α} {is js : List Nat} {brackets later : Nat}
  {first rest : List (Visit α)} {run : Except SyntaxError (β × State α)}

/-- A run that makes no visit and no new group. -/
theorem Once.nil (h : ∀ b st', run = .ok (b, st') → st' = st) :
    Once vocabulary st is brackets [] run where
  nodup := List.nodup_nil
  owned i hi := absurd hi List.not_mem_nil
  size visit hvisit := absurd hvisit List.not_mem_nil
  final b st' hrun := by
    obtain rfl := h b st' hrun
    exact ⟨Nat.le_refl _, Nat.le_add_right _ _, fun i hi => absurd hi List.not_mem_nil⟩

/-- Visits up to a state go together with a run from this state that does not expand what they
expand: what is new for the run is new for them as well. -/
theorem Once.append {run' : Except SyntaxError (γ × State α)}
    (hnodup : (first.filterMap (expansion? vocabulary)).Nodup)
    (howned : ∀ i ∈ first.filterMap (expansion? vocabulary),
      (i ∈ is ∨ st.groups.size ≤ i) ∧ i < st₁.groups.size ∧ i ∉ js)
    (hsize : ∀ visit ∈ first, visit.groups.size ≤ st.groups.size + brackets)
    (hjs : ∀ j ∈ js, j ∈ is ∨ st.groups.size ≤ j) (hgrow : st.groups.size ≤ st₁.groups.size)
    (hbrackets : st₁.groups.size + later ≤ st.groups.size + brackets)
    (hrest : Once vocabulary st₁ js later rest run)
    (hrun : ∀ c st', run' = .ok (c, st') → ∃ b, run = .ok (b, st')) :
    Once vocabulary st is brackets (first ++ rest) run' where
  nodup := by
    rw [List.filterMap_append, List.nodup_append]
    refine ⟨hnodup, hrest.nodup, fun i hi j hj => ?_⟩
    rintro rfl
    obtain ⟨-, hlt, hnot⟩ := howned i hi
    rcases hrest.owned i hj with hown | hnew
    · exact hnot hown
    · omega
  owned i hi := by
    rw [List.filterMap_append, List.mem_append] at hi
    rcases hi with hi | hi
    · exact (howned i hi).1
    · rcases hrest.owned i hi with hown | hnew
      · exact hjs i hown
      · exact Or.inr (hgrow.trans hnew)
  size visit hvisit := by
    rcases List.mem_append.mp hvisit with hvisit | hvisit
    · exact hsize visit hvisit
    · exact (hrest.size visit hvisit).trans hbrackets
  final c st' hc := by
    obtain ⟨b, hb⟩ := hrun c st' hc
    obtain ⟨hgrow', hle, hlt⟩ := hrest.final b st' hb
    refine ⟨hgrow.trans hgrow', hle.trans hbrackets, fun i hi => ?_⟩
    rw [List.filterMap_append, List.mem_append] at hi
    rcases hi with hi | hi
    · exact (howned i hi).2.1.trans_le hgrow'
    · exact hlt i hi

end Once

variable {text : Fragment} {depth : Nat}

/-- Fragments that hold different placeholders expand different ones: each expands its own or new
ones, and what is new for it is new for all that are read before it. -/
theorem parts_once (hnames : ∀ name ∈ vocabulary.names, '&' ∉ name.toList)
    (hread : ∀ {s : Fragment} {st : State α} {is : List Nat}, Sited text st s →
      Owns st.groups.size is s → is.Nodup →
      Once vocabulary st is (s.count '(' + openings st.groups is) (visits vocabulary depth s st)
        ((fragment vocabulary depth s).run st))
    {parts : List Fragment} {st : State α} {iss : List (List Nat)}
    (hsited : ∀ part ∈ parts, Sited text st part)
    (howns : List.Forall₂ (Owns st.groups.size) iss parts) (hnodup : iss.flatten.Nodup) :
    Once vocabulary st iss.flatten (parts.flatten.count '(' + openings st.groups iss.flatten)
      (visitsAll (fragment vocabulary depth) (visits vocabulary depth) parts st)
      ((parts.mapM (fragment vocabulary depth)).run st) := by
  induction parts generalizing st iss with
  | nil => exact .nil fun trees st' hrun => (Prod.mk.inj (Except.ok.inj hrun)).2.symm
  | cons s parts ih =>
  cases howns with
  | @cons is _ iss _ hs hparts =>
  have hlt := Owns.lt_of_mem_flatten hparts
  rw [List.flatten_cons, List.nodup_append] at hnodup
  obtain ⟨his, hiss, hdisjoint⟩ := hnodup
  have hfirst := hread (hsited s List.mem_cons_self) hs his
  rw [List.flatten_cons, List.flatten_cons, List.count_append, openings_append, visitsAll]
  rcases hrun : (fragment vocabulary depth s).run st with e | ⟨tree, st₁⟩
  · -- nothing is read behind a fault
    rw [List.append_nil]
    refine ⟨hfirst.nodup, fun i hi => ?_, fun visit hvisit => ?_, fun trees st' htrees => ?_⟩
    · exact (hfirst.owned i hi).imp_left (List.mem_append_left _)
    · have hsize := hfirst.size visit hvisit
      omega
    · obtain ⟨tree, st₁, trees', hok, -, -⟩ := mapM_cons_eq_ok.mp htrees
      cases hrun.symm.trans hok
  · have hext := fragment_extends hrun
    have hkept : ∀ part ∈ parts, Sited text st₁ part := fun part hpart =>
      fragment_sited hnames (hsited s List.mem_cons_self) hrun part
        (hsited part (List.mem_cons_of_mem _ hpart))
    have hrest := ih hkept (hparts.imp fun _ _ => Owns.mono (Groups.size_le_of_extends hext)) hiss
    rw [openings_of_extends hext hlt] at hrest
    obtain ⟨hgrow, hle, hbelow⟩ := hfirst.final tree st₁ hrun
    refine .append hfirst.nodup (fun i hi => ?_) (fun visit hvisit => ?_)
      (fun j hj => Or.inl (List.mem_append_right _ hj)) hgrow ?_ hrest fun trees st' htrees => ?_
    · -- a number of a later fragment is neither one of the first one nor a new one
      have hown := hfirst.owned i hi
      refine ⟨hown.imp_left (List.mem_append_left _), hbelow i hi, fun hi' => ?_⟩
      rcases hown with hown | hnew
      · exact hdisjoint i hown i hi' rfl
      · exact absurd (hlt i hi') hnew.not_gt
    · have hsize := hfirst.size visit hvisit
      omega
    · omega
    · obtain ⟨tree', st₁', trees', hok, htrees', -⟩ := mapM_cons_eq_ok.mp htrees
      obtain ⟨-, rfl⟩ := Prod.mk.inj (Except.ok.inj (hrun.symm.trans hok))
      exact ⟨trees', htrees'⟩

/-- Reading a fragment expands none of the placeholders it holds more than once. -/
theorem fragment_once (hnames : ∀ name ∈ vocabulary.names, '&' ∉ name.toList) (htext : '&' ∉ text)
    {s : Fragment} {st : State α} {is : List Nat} (hsited : Sited text st s)
    (howns : Owns st.groups.size is s) (hnodup : is.Nodup) :
    Once vocabulary st is (s.count '(' + openings st.groups is) (visits vocabulary depth s st)
      ((fragment vocabulary depth s).run st) := by
  induction depth generalizing s st is with
  | zero =>
    refine .nil fun tree st' hrun => ?_
    cases (fragment_zero s st).symm.trans hrun
  | succ depth ih =>
    -- the induction is on the bound; the fragment itself is visited first, then its parts one after
    -- the other
    have hroot : (⟨s, st⟩ : Visit α).groups.size ≤
        st.groups.size + (s.count '(' + openings st.groups is) := by
      obtain ⟨js, -, -, hsize, -⟩ := howns.setAside hnodup
      exact (Nat.le_add_right _ _).trans hsize
    have hfirst : ∀ visit ∈ [(⟨s, st⟩ : Visit α)], visit.groups.size ≤
        st.groups.size + (s.count '(' + openings st.groups is) :=
      fun visit hvisit => List.mem_singleton.mp hvisit ▸ hroot
    rw [visits]
    rcases hstep : (interpret vocabulary s).run st with e | ⟨reading, st₁⟩
    · have hnone : expansion? vocabulary ⟨s, st⟩ = none := expansion?_of_error hstep
      refine ⟨by simp [hnone], by simp [hnone], hfirst, fun tree st' hrun => ?_⟩
      obtain ⟨reading, st₁, trees, hok, -, -⟩ := fragment_eq_ok.mp hrun
      cases hstep.symm.trans hok
    · obtain ⟨iss, hparts, hone, hmem, hle⟩ :=
        interpret_owns hnames htext hsited howns hnodup hstep
      obtain ⟨hsited₁, -⟩ := interpret_sited hnames hsited hstep
      obtain ⟨hexpanded, hiss, hdisjoint⟩ := List.nodup_append.mp hone
      -- the group that the fragment expands is owned by none of its parts
      have hexpansions : [(⟨s, st⟩ : Visit α)].filterMap (expansion? vocabulary) =
          (expansion? vocabulary ⟨s, st⟩).toList := by
        cases hindex : expansion? vocabulary ⟨s, st⟩ <;> simp [hindex]
      rw [← hexpansions] at hexpanded hdisjoint hmem
      dsimp only
      rw [← List.singleton_append]
      refine .append hexpanded (fun i hi => ?_) hfirst
        (fun j hj => (hmem j (List.mem_append_right _ hj)).1)
        (Groups.size_le_of_extends (interpret_extends hstep)) hle
        (parts_once hnames (fun hsited => ih hsited) hsited₁ hparts hiss) fun tree st' hrun => ?_
      · obtain ⟨hown, hlt⟩ := hmem i (List.mem_append_left _ hi)
        exact ⟨hown, hlt, fun hi' => hdisjoint i hi i hi' rfl⟩
      · obtain ⟨reading', st₁', trees, hok, htrees, -⟩ := fragment_eq_ok.mp hrun
        obtain ⟨rfl, rfl⟩ := Prod.mk.inj (Except.ok.inj (hstep.symm.trans hok))
        exact ⟨trees, htrees⟩

/-! ### The whole text -/

/-- Of a text without an `&` nothing but pieces is read: every fragment becomes one when its groups
are put back once, every group is one, and so is what an error shows. No placeholder is expanded
twice; the group that is read for it is the one with its number. There are never more groups than
the text has opening brackets, at no visit and not at the end. -/
theorem visits_pieces (hnames : ∀ name ∈ vocabulary.names, '&' ∉ name.toList) {text : String}
    (htext : '&' ∉ text.toList) :
    let calls := fun depth => visits vocabulary depth text.toList .initial
    (∀ n s st, CallChain vocabulary n text.toList .initial s st → ∃ depth, ⟨s, st⟩ ∈ calls depth) ∧
    (∀ depth, ∀ visit ∈ calls depth,
      visit.state.groups.restore 0 visit.fragment <:+: text.toList ∧
      (∀ inner ∈ visit.groups.toList, inner <:+: text.toList) ∧
      visit.groups.size ≤ text.toList.count '(') ∧
    (∀ depth, ((calls depth).filterMap (expansion? vocabulary)).Nodup) ∧
    (∀ depth, ∀ visit ∈ calls depth, ∀ inner st,
      (interpret vocabulary visit.fragment).run visit.state = .ok (.group inner, st) →
        ∃ index, expansion? vocabulary visit = some index ∧
          visit.groups.get? index = some inner) ∧
    (∀ depth tree st, (fragment vocabulary depth text.toList).run .initial = .ok (tree, st) →
      (∀ inner ∈ st.groups.toList, inner <:+: text.toList) ∧
      st.groups.size ≤ text.toList.count '(') ∧
    ∀ error shown, parse vocabulary text = .error error → error.fragment? = some shown →
      ∃ visit ∈ calls (depthBound vocabulary text.toList), FaultAt vocabulary visit error ∧
        visit.groups.restore 0 shown <:+: text.toList := by
  intro calls
  have hsited : Sited text.toList (State.initial : State α) text.toList := sited_initial _
  have honce : ∀ depth, Once vocabulary .initial [] (text.toList.count '(' + 0) (calls depth)
      ((fragment vocabulary depth text.toList).run .initial) :=
    fun depth => fragment_once hnames htext hsited (.text htext) List.nodup_nil
  have hempty : (State.initial : State α).groups.size = 0 := rfl
  refine ⟨fun n s st hchain => exists_mem_visits_iff.mpr ⟨n, hchain⟩,
    fun depth visit hvisit => ?_, fun depth => (honce depth).nodup,
    fun _ _ _ _ _ => exists_expansion?, fun depth tree st hrun => ?_,
    fun error shown hparse hshown => ?_⟩
  · have hvisited := hsited.visit hnames hvisit
    have hsize := (honce depth).size visit hvisit
    exact ⟨hvisited.restore htext, hvisited.setAside, by omega⟩
  -- the state in the end has the groups of a visit, and no more
  · obtain ⟨-, hsize, -⟩ := (honce depth).final tree st hrun
    exact ⟨(fragment_sited hnames hsited hrun _ hsited).groups, by omega⟩
  · have hbound : error ≠ .endlessExpansion := by
      rintro rfl
      exact nomatch hshown
    obtain ⟨visit, hvisit, hfault⟩ := exists_visit_of_error hbound (parse_eq_error.mp hparse)
    exact ⟨visit, hvisit, hfault,
      (hsited.visit hnames hvisit).restore_shown hnames htext hfault hshown⟩

/-- Three brackets open, and so no more than three groups are set aside; the inner one is new when
the placeholder of the outer one is expanded. -/
theorem visits_pieces_standard :
    (∀ name ∈ (Vocabulary.standard 0.5).names, '&' ∉ name.toList) ∧
      '&' ∉ "((x)+1)*(y)".toList ∧
      (∀ depth, ∀ visit ∈ visits (Vocabulary.standard 0.5) depth "((x)+1)*(y)".toList .initial,
        visit.state.groups.restore 0 visit.fragment <:+: "((x)+1)*(y)".toList ∧
        visit.groups.size ≤ 3) ∧
      ∀ depth, ((visits (Vocabulary.standard 0.5) depth "((x)+1)*(y)".toList .initial).filterMap
        (expansion? (Vocabulary.standard 0.5))).Nodup := by
  have hnames := Vocabulary.amp_notMem_standard 0.5
  have htext : '&' ∉ "((x)+1)*(y)".toList := by decide
  have hcount : "((x)+1)*(y)".toList.count '(' = 3 := by decide
  obtain ⟨-, hvisits, honce, -, -, -⟩ := visits_pieces hnames htext
  refine ⟨hnames, htext, fun depth visit hvisit => ?_, honce⟩
  obtain ⟨hpiece, -, hsize⟩ := hvisits depth visit hvisit
  exact ⟨hpiece, hcount ▸ hsize⟩

end Formula.Parser
