import Formula.Proofs.Outline.Closed

/-!
# Groups set aside and put back

What setting the groups of a text aside does, whatever has been set aside before
(`setAside_divided`).

A text divides in one way only into characters outside groups, groups with matched brackets and,
where a bracket is never closed, the text from this bracket on (`Divided`, `divided_iff_scan`).
Setting groups aside writes the groups as placeholders with the next numbers and leaves the rest as
it is (`Divided.setAside`); `Groups.restore` writes them out again (`restore_mask`).

Brackets are matched when every beginning of a text opens as many as it closes, or more
(`Fragment.Matched`). The count that goes along while the end of a group is looked for is that of
the brackets opened less those closed, and not cut off at zero (`Fragment.Counted`).
-/

namespace Formula

namespace Fragment

/-! ### Matched brackets -/

/-- Whether no beginning of a text closes more brackets than it opens. -/
def NeverCloses (s : Fragment) : Prop := ∀ p, p <+: s → p.count ')' ≤ p.count '('

/-- Whether as many brackets are opened as closed, and none is closed before it is opened. -/
def Matched (s : Fragment) : Prop := NeverCloses s ∧ s.count ')' = s.count '('

/-- As long as the depth is not zero, a character changes it by the bracket that it opens or closes.
-/
theorem changeDepth_add_count {d : Nat} (hd : 0 < d) (c : Char) :
    changeDepth d c + [c].count ')' = d + [c].count '(' := by
  by_cases hopen : c = '('
  · subst hopen
    rw [changeDepth_open]
    rfl
  by_cases hclose : c = ')'
  · subst hclose
    rw [changeDepth_close]
    exact Nat.sub_add_cancel hd
  · rw [changeDepth_other hopen hclose, List.count_singleton, List.count_singleton]
    simp [hopen, hclose]

/-- As long as the count is positive, it is that of the brackets opened less those closed. -/
theorem depthFrom_add_count {d : Nat} {s : Fragment} (h : StaysOpen d s) :
    depthFrom d s + s.count ')' = d + s.count '(' := by
  induction s generalizing d with
  | nil => rfl
  | cons c s ih =>
    obtain ⟨hd, hs⟩ := staysOpen_cons.mp h
    have hstep := changeDepth_add_count hd c
    have hrest := ih hs
    show depthFrom (changeDepth d c) s + ([c] ++ s).count ')' = d + ([c] ++ s).count '('
    rw [List.count_append, List.count_append]
    omega

theorem StaysOpen.of_isPrefix {d : Nat} {p s : Fragment} (h : StaysOpen d s) (hp : p <+: s) :
    StaysOpen d p := fun q hq => h q (hq.trans hp)

/-- To stay open is to have fewer closing brackets than opening ones and the depth at the start, in
front of every place. -/
theorem staysOpen_iff_count {d : Nat} {s : Fragment} :
    StaysOpen d s ↔ ∀ p, p <+: s → p.count ')' < d + p.count '(' := by
  constructor
  · intro h p hp
    have hcount := depthFrom_add_count (h.of_isPrefix hp)
    have hpos := h p hp
    omega
  · intro h
    induction s generalizing d with
    | nil => exact staysOpen_nil.mpr (by simpa using h [] List.prefix_rfl)
    | cons c s ih =>
      have hd : 0 < d := by simpa using h [] List.nil_prefix
      -- the first character is counted into the depth from which the others go on
      refine staysOpen_cons.mpr ⟨hd, ih fun p hp => ?_⟩
      have hstep := changeDepth_add_count hd c
      have hcons : ([c] ++ p).count ')' < d + ([c] ++ p).count '(' :=
        h (c :: p) (List.cons_prefix_cons.mpr ⟨rfl, hp⟩)
      rw [List.count_append, List.count_append] at hcons
      omega

theorem staysOpen_one_iff_neverCloses {s : Fragment} : StaysOpen 1 s ↔ NeverCloses s := by
  rw [staysOpen_iff_count]
  refine forall₂_congr fun p _ => ?_
  omega

/-- The depth that is counted and the brackets that are matched say the same. -/
theorem closed_iff_matched {s : Fragment} : Closed s ↔ Matched s := by
  rw [Closed, Matched, ← staysOpen_one_iff_neverCloses, and_comm, and_congr_right_iff]
  intro h
  have hcount := depthFrom_add_count h
  omega

/-- Whether, while the end of a group is looked for, just those brackets count behind its beginning
`p` that `p` has opened and not closed. -/
def Counted (p : Fragment) : Prop :=
  ∃ depth, depth + p.count ')' = p.count '(' ∧
    ∀ t, closeGroup? 0 (p ++ t) =
      (closeGroup? depth t).map fun parts => (p ++ parts.1, parts.2)

/-- What stays open is in the group, and its end is looked for behind it. -/
theorem closeGroup?_append_of_staysOpen {d : Nat} {p : Fragment} (h : StaysOpen (d + 1) p)
    (t : Fragment) : closeGroup? d (p ++ t) =
      (closeGroup? (depthFrom d p) t).map fun parts => (p ++ parts.1, parts.2) := by
  induction p generalizing d with
  | nil => simp
  | cons c p ih =>
    obtain ⟨-, hp⟩ := staysOpen_cons.mp h
    rw [List.cons_append, depthFrom_cons]
    by_cases hopen : c = '('
    · subst hopen
      rw [closeGroup?_open, ih hp, Option.map_map]
      rfl
    by_cases hclose : c = ')'
    · subst hclose
      -- the bracket is not that of the group itself
      have hpos : 0 < d := hp [] List.nil_prefix
      obtain ⟨d, rfl⟩ := Nat.exists_eq_add_of_le' hpos
      rw [closeGroup?_close, ih hp, Option.map_map]
      rfl
    · rw [changeDepth_other hopen hclose] at hp ⊢
      rw [closeGroup?_plain hopen hclose, ih hp, Option.map_map]
      rfl

/-- Every beginning of a text is counted right if none closes more brackets than it opens. -/
theorem NeverCloses.counted {s p : Fragment} (h : NeverCloses s) (hp : p <+: s) : Counted p := by
  have hopen : StaysOpen (0 + 1) p := (staysOpen_one_iff_neverCloses.mpr h).of_isPrefix hp
  have hcount := depthFrom_add_count hopen
  rw [depthFrom_succ hopen] at hcount
  exact ⟨depthFrom 0 p, by omega, closeGroup?_append_of_staysOpen hopen⟩

end Fragment

/-! ### Groups written out again -/

namespace Groups

/-- The text of the group whose placeholder stands behind an `&`, if its number is not below
`first`, and the text behind the placeholder. -/
def marked? (groups : Groups) (first : Nat) (s : Fragment) : Option (Fragment × Fragment) := do
  let (interior, rest) ← s.cutFirst? ';'
  let index ← placeholderIndex? interior
  if first ≤ index ∧ Nat.toDigits 10 index = interior then
    (groups.get? index).map fun text => (text, rest)
  else
    none

/-- A placeholder takes something away from what is still to be restored. -/
theorem length_lt_of_marked? {groups : Groups} {first : Nat} {s text rest : Fragment}
    (h : groups.marked? first s = some (text, rest)) : rest.length < s.length := by
  obtain ⟨⟨interior, behind⟩, hcut, h⟩ := Option.bind_eq_some_iff.mp h
  obtain ⟨index, -, h⟩ := Option.bind_eq_some_iff.mp h
  split at h
  · obtain ⟨_, -, heq⟩ := Option.map_eq_some_iff.mp h
    obtain ⟨-, rfl⟩ := Prod.mk.inj heq
    rw [(Fragment.cutFirst?_eq_some hcut).1, List.length_append, List.length_cons]
    omega
  · exact nomatch h

/-- The text with each placeholder of a number from `first` on replaced by its group in brackets. -/
def restore (groups : Groups) (first : Nat) : Fragment → Fragment
  | [] => []
  | c :: s =>
    if c = '&' then
      match _h : groups.marked? first s with
      | some (text, rest) => '(' :: (text ++ ')' :: groups.restore first rest)
      | none => c :: groups.restore first s
    else
      c :: groups.restore first s
termination_by s => s.length
decreasing_by
  · have := length_lt_of_marked? _h
    rw [List.length_cons]
    omega
  · exact Nat.lt_succ_self _
  · exact Nat.lt_succ_self _

variable {groups : Groups} {first : Nat}

theorem restore_cons {c : Char} (hc : c ≠ '&') (s : Fragment) :
    groups.restore first (c :: s) = c :: groups.restore first s := by
  rw [restore, if_neg hc]

/-- Without a mark there is nothing to restore. -/
theorem restore_of_notMem {s : Fragment} (h : '&' ∉ s) : groups.restore first s = s := by
  induction s with
  | nil => rw [restore]
  | cons c s ih =>
    obtain ⟨hc, hs⟩ : '&' ≠ c ∧ '&' ∉ s := by simpa using h
    rw [restore_cons hc.symm, ih hs]

/-- A placeholder is given its group back, and what is behind it is restored after it. -/
theorem restore_placeholder {index : Nat} {inner : Fragment} (hfirst : first ≤ index)
    (h : groups.get? index = some inner) (s : Fragment) :
    groups.restore first (placeholder index ++ s) =
      '(' :: (inner ++ ')' :: groups.restore first s) := by
  have hmarked : groups.marked? first (Nat.toDigits 10 index ++ ';' :: s) = some (inner, s) := by
    unfold marked?
    rw [Text.cutFirst?_eq_firstCut?, Text.firstCut?_append (semicolon_notMem_toDigits index)]
    simp [placeholderIndex?_toDigits, hfirst, h]
  have hassoc : placeholder index ++ s = '&' :: (Nat.toDigits 10 index ++ ';' :: s) := by
    simp [placeholder]
  rw [hassoc, restore, if_pos rfl]
  split
  · rename_i text rest hsome
    obtain ⟨rfl, rfl⟩ := Prod.mk.inj (Option.some.inj (hmarked.symm.trans hsome))
    rfl
  · rename_i hnone
    cases hmarked.symm.trans hnone

/-- A masked outline is written out again, when its groups have the numbers of its placeholders. -/
theorem restore_mask {o : Outline} {rest : Fragment} (ho : '&' ∉ Outline.text o)
    (hrest : '&' ∉ rest) {next : Nat} (hnext : first ≤ next)
    (hgroups : ∀ (i : Nat) (inner : Fragment), o.inners[i]? = some inner →
      groups.get? (next + i) = some inner) :
    groups.restore first (o.mask next ++ rest) = o.text ++ rest := by
  induction o generalizing next with
  | nil => exact restore_of_notMem hrest
  | cons piece o ih =>
    obtain ⟨hpiece, htail⟩ : '&' ∉ piece.text ∧ '&' ∉ Outline.text o := by simpa using ho
    cases piece with
    | plain c =>
      have hc : c ≠ '&' := fun heq => hpiece (by simp [Piece.text, heq])
      rw [Outline.mask, List.cons_append, restore_cons hc, ih htail hnext hgroups]
      rfl
    | group inner =>
      have hinner : groups.get? next = some inner := hgroups 0 inner rfl
      -- the placeholder has the next number, and the groups behind it the numbers from there
      rw [Outline.mask, List.append_assoc, restore_placeholder hnext hinner,
        ih htail (Nat.le_succ_of_le hnext) fun i inner' hi => ?_]
      · simp [Piece.text]
      · rw [Nat.succ_add]
        exact hgroups (i + 1) inner' hi

/-- A masked outline is written out again from the groups that it is masked with. -/
theorem restore_masked {o : Outline} {s rest : Fragment} (h : Outline.Masked groups o s)
    (ho : '&' ∉ Outline.text o) (hrest : '&' ∉ rest) :
    groups.restore 0 (s ++ rest) = o.text ++ rest := by
  induction h with
  | nil => exact restore_of_notMem hrest
  | @plain c o s _ _ ih =>
    obtain ⟨hc, htail⟩ : '&' ≠ c ∧ '&' ∉ Outline.text o := by simpa [Piece.text] using ho
    rw [List.cons_append, restore_cons hc.symm, ih htail]
    rfl
  | @group index inner o s hindex _ ih =>
    obtain ⟨-, htail⟩ : '&' ∉ Piece.text (.group inner) ∧ '&' ∉ Outline.text o := by simpa using ho
    rw [List.append_assoc, restore_placeholder (Nat.zero_le _) hindex, ih htail]
    simp [Piece.text]

end Groups

namespace Outline

open Fragment (Matched NeverCloses Counted)

/-! ### How a text divides -/

/-- `Divided s o rest` says that a text consists of an outline without brackets outside its groups
and with matched ones inside, and of a rest that is empty or begins with a bracket that is never
closed. -/
structure Divided (s : Fragment) (o : Outline) (rest : Fragment) : Prop where
  text : s = o.text ++ rest
  plain : ∀ c, .plain c ∈ o → c ≠ '('
  matched : ∀ inner, .group inner ∈ o → Matched inner
  unclosed : rest = [] ∨ ∃ behind, rest = '(' :: behind ∧ NeverCloses behind

theorem closed_iff_divided {o : Outline} :
    Closed o ↔ (∀ c, .plain c ∈ o → c ≠ '(') ∧ ∀ inner, .group inner ∈ o → Matched inner := by
  constructor
  · intro h
    exact ⟨fun c hc => h _ hc, fun inner hinner => Fragment.closed_iff_matched.mp (h _ hinner)⟩
  · rintro ⟨hplain, hgroup⟩ piece hpiece
    cases piece with
    | plain c => exact hplain c hpiece
    | group inner => exact Fragment.closed_iff_matched.mpr (hgroup inner hpiece)

/-- There is one way to divide a text, which a scan finds. -/
theorem divided_iff_scan {s : Fragment} {o : Outline} {rest : Fragment} :
    Divided s o rest ↔ scan s = (o, rest) := by
  constructor
  · rintro ⟨rfl, hplain, hgroup, hrest⟩
    -- no group is closed in the rest
    have hscan : scan rest = ([], rest) := by
      rcases hrest with rfl | ⟨behind, rfl, hbehind⟩
      · exact scan_nil
      · exact scan_unclosed <| Fragment.closeGroup?_eq_none_iff.mpr <|
          Fragment.staysOpen_one_iff_neverCloses.mpr hbehind
    rw [(closed_iff_divided.mpr ⟨hplain, hgroup⟩).scan_append, hscan, List.append_nil]
  · intro h
    have hclosed := closed_scan s
    have htext := scan_text s
    have hrest := scan_rest s
    have hopen := fun behind => @staysOpen_of_scan s behind
    rw [h] at hclosed htext hrest hopen
    obtain ⟨hplain, hgroup⟩ := closed_iff_divided.mp hclosed
    refine ⟨htext.symm, hplain, hgroup, hrest.imp_right ?_⟩
    rintro ⟨behind, rfl⟩
    exact ⟨behind, rfl, Fragment.staysOpen_one_iff_neverCloses.mp (hopen behind rfl)⟩

/-- What is inside the groups is listed in their order. -/
theorem mem_inners {o : Outline} {inner : Fragment} : inner ∈ o.inners ↔ .group inner ∈ o := by
  unfold inners
  rw [List.mem_filterMap]
  constructor
  · rintro ⟨piece, hpiece, heq⟩
    cases piece with
    | plain c => exact nomatch heq
    | group inner' => exact Option.some.inj heq ▸ hpiece
  · intro h
    exact ⟨_, h, rfl⟩

/-! ### What is set aside -/

/-- The text `front ++ rest` when nothing is left to set aside in `front` and `rest` is empty or
begins with a bracket that is never closed. -/
def outcome (front rest : Fragment) : Except SyntaxError Fragment :=
  if rest = [] then .ok front
  else .error (.unmatchedBracket (String.ofList (front ++ rest)) (Fragment.byteLength front))

namespace Divided

variable {s rest : Fragment} {o : Outline}

/-- Setting aside puts the groups of a divided text behind those that there are, and shows its mask.
-/
theorem setAside (h : Divided s o rest) (groups : Groups) :
    groups.setAside s =
      (outcome (o.mask groups.size) rest, ⟨(groups.toList ++ o.inners).toArray⟩) := by
  have hclosed := closed_iff_divided.mpr ⟨h.plain, h.matched⟩
  have hmask := hclosed.open_notMem_mask groups.size
  obtain ⟨hhidden, hgroups⟩ := hide_eq groups s
  rw [divided_iff_scan.mp h] at hhidden hgroups
  have hnew : (groups.hide s).2 = ⟨(groups.toList ++ o.inners).toArray⟩ := by
    rw [← hgroups]
    rfl
  rw [setAside_eq, hhidden, hnew]
  rcases h.unclosed with rfl | ⟨behind, rfl, -⟩
  · rw [List.append_nil, if_neg hmask, outcome, if_pos rfl]
  · rw [if_pos (by simp), Text.takeWhile_append hmask, outcome, if_neg (List.cons_ne_nil _ _)]

/-- The masked text is divided, and has no groups. -/
theorem masked (h : Divided s o rest) (first : Nat) :
    Divided (o.mask first ++ rest) ((o.mask first).map .plain) rest where
  text := by rw [text_map_plain]
  plain c hc := by
    obtain ⟨d, hd, heq⟩ := List.mem_map.mp hc
    have hmask := (closed_iff_divided.mpr ⟨h.plain, h.matched⟩).open_notMem_mask first
    rintro rfl
    exact hmask (Piece.plain.inj heq ▸ hd)
  matched inner hinner := by
    obtain ⟨d, -, heq⟩ := List.mem_map.mp hinner
    exact nomatch heq
  unclosed := h.unclosed

/-- Setting groups aside again changes nothing. -/
theorem setAside_again (h : Divided s o rest) (first : Nat) (groups : Groups) :
    groups.setAside (o.mask first ++ rest) = (outcome (o.mask first) rest, groups) := by
  have hmask := mask_map_plain_append groups.size (o.mask first) []
  have hinners := inners_map_plain_append (o.mask first) []
  rw [List.append_nil] at hmask hinners
  rw [(h.masked first).setAside, hmask, hinners]
  simp [mask, inners, Groups.toList]

/-- From the mask and the groups the text can be put together again. -/
theorem restore (h : Divided s o rest) (hs : '&' ∉ s) (groups : Groups) :
    (groups.setAside s).2.restore groups.size (o.mask groups.size ++ rest) = s := by
  obtain ⟨ho, hrest⟩ : '&' ∉ o.text ∧ '&' ∉ rest := by simpa [h.text] using hs
  rw [h.setAside groups, Groups.restore_mask ho hrest (Nat.le_refl _), ← h.text]
  intro i inner hi
  have hsize : groups.size = groups.toList.length := Array.length_toList.symm
  rw [Groups.get?_eq_toList, hsize]
  show (groups.toList ++ o.inners)[groups.toList.length + i]? = some inner
  rw [List.getElem?_append_right (Nat.le_add_right _ _), Nat.add_sub_cancel_left]
  exact hi

/-- Every beginning of a group is counted right, and so is every beginning of what is behind an
unmatched bracket. -/
theorem counted (h : Divided s o rest) {p : Fragment}
    (hp : (∃ inner ∈ o.inners, p <+: inner) ∨ ∃ behind, rest = '(' :: behind ∧ p <+: behind) :
    Counted p := by
  rcases hp with ⟨inner, hinner, hp⟩ | ⟨behind, rfl, hp⟩
  · exact (h.matched inner (mem_inners.mp hinner)).1.counted hp
  · rcases h.unclosed with hnil | ⟨behind', hrest, hopen⟩
    · exact absurd hnil (List.cons_ne_nil _ _)
    · obtain rfl := (List.cons.inj hrest).2
      exact hopen.counted hp

/-- A text is its own mask just when there is nothing to set aside. -/
theorem mask_eq_iff (h : Divided s o []) (first : Nat) : o.mask first = s ↔ '(' ∉ s := by
  have htext : s = o.text := by simpa using h.text
  constructor
  · rintro rfl
    exact (closed_iff_divided.mpr ⟨h.plain, h.matched⟩).open_notMem_mask first
  · intro hs
    have hscan := scan_append_plain hs []
    rw [List.append_nil, divided_iff_scan.mp h, scan_nil] at hscan
    rw [(Prod.mk.inj hscan).1, mask_map_plain_append, mask, List.append_nil]

end Divided

/-- A text divides in one way into characters outside groups, groups and a rest with a bracket that
is never closed; there is no rest just when no bracket is open at the end of the text. Setting its
groups aside masks the groups with the next numbers and puts their texts behind the others. It
succeeds if there is no rest, and then nothing is changed just when there is no bracket; otherwise
the error shows the masked text and the place of the bracket. The count of brackets is never cut off
at zero, setting aside again changes nothing, and in a text without an `&` the groups can be put
back. -/
theorem setAside_divided (groups : Groups) (s : Fragment) :
    ∃ (o : Outline) (rest : Fragment), Divided s o rest ∧
      (∀ o' rest', Divided s o' rest' → o' = o ∧ rest' = rest) ∧
      (Fragment.depth s = 0 → rest = [] ∧ (groups.setAside s).1 = .ok (o.mask groups.size) ∧
        (o.mask groups.size = s ↔ '(' ∉ s)) ∧
      (0 < Fragment.depth s → rest ≠ [] ∧
        (groups.setAside s).1 = .error (.unmatchedBracket
          (String.ofList (o.mask groups.size ++ rest))
          (Fragment.byteLength (o.mask groups.size)))) ∧
      (groups.setAside s).2.toList = groups.toList ++ o.inners ∧
      (∀ p, (∃ inner ∈ o.inners, p <+: inner) ∨
        (∃ behind, rest = '(' :: behind ∧ p <+: behind) → Counted p) ∧
      (∀ later : Groups, later.setAside (o.mask groups.size ++ rest) =
        ((groups.setAside s).1, later)) ∧
      ('&' ∉ s →
        (groups.setAside s).2.restore groups.size (o.mask groups.size ++ rest) = s) := by
  have h : Divided s (scan s).1 (scan s).2 := divided_iff_scan.mpr rfl
  refine ⟨(scan s).1, (scan s).2, h, ?_, ?_, ?_, ?_, fun p => h.counted, ?_, fun hs => ?_⟩
  · intro o' rest' h'
    have heq := divided_iff_scan.mp h'
    exact ⟨(congrArg Prod.fst heq).symm, (congrArg Prod.snd heq).symm⟩
  · intro hdepth
    have hrest := depth_eq_zero_iff.mp hdepth
    rw [h.setAside groups, outcome, if_pos hrest]
    rw [hrest] at h
    exact ⟨hrest, rfl, h.mask_eq_iff _⟩
  · intro hdepth
    have hrest : (scan s).2 ≠ [] := by
      rw [ne_eq, ← depth_eq_zero_iff]
      omega
    rw [h.setAside groups, outcome, if_neg hrest]
    exact ⟨hrest, rfl⟩
  · rw [h.setAside groups]
    rfl
  · intro later
    rw [h.setAside_again, h.setAside groups]
  · exact h.restore hs groups

/-- Behind an older group one group is closed, and the bracket behind it is not: it stands behind
six bytes, since `é` has two. -/
theorem setAside_divided_unclosed :
    Groups.setAside ⟨#[['z']]⟩ "é)((a)b)((2)".toList =
        (.error (.unmatchedBracket "é)&1;((2)" 6), ⟨#[['z'], "(a)b".toList]⟩) ∧
      Groups.restore ⟨#[['z'], "(a)b".toList]⟩ 1 "é)&1;((2)".toList = "é)((a)b)((2)".toList := by
  obtain ⟨o, rest, -, honly, -, herror, hgroups, -, -, hrestore⟩ :=
    setAside_divided ⟨#[['z']]⟩ "é)((a)b)((2)".toList
  have hclosed : Closed [.plain 'é', .plain ')', .group "(a)b".toList] := by decide
  have hopen : Fragment.StaysOpen (0 + 1) "(2)".toList := by decide
  obtain ⟨hplain, hmatched⟩ := closed_iff_divided.mp hclosed
  obtain ⟨rfl, rfl⟩ := honly _ "((2)".toList ⟨by decide, hplain, hmatched,
    Or.inr ⟨_, rfl, Fragment.staysOpen_one_iff_neverCloses.mp hopen⟩⟩
  obtain ⟨-, herror⟩ := herror (by decide)
  have hnew : (Groups.setAside ⟨#[['z']]⟩ "é)((a)b)((2)".toList).2 = ⟨#[['z'], "(a)b".toList]⟩ :=
    congrArg Groups.mk (Array.toList_inj.mp hgroups)
  have hback := hrestore (by decide)
  rw [hnew] at hback
  exact ⟨Prod.ext herror hnew, hback⟩

end Outline

end Formula
