import Formula.Proofs.Outline.Masked
import Formula.Proofs.Outline.Tidy
import Formula.Proofs.Text.Depth

/-!
# Closed outlines

An outline is *closed* when no bracket opens outside its groups and the texts of its groups are
closed. Closed outlines are what a scan finds (`closed_scan`) and what it finds again
(`Closed.scan_append`), so that an outline is that of a text just when it is closed and has this
text (`ofText_eq_ok_iff_closed`). A text has an outline just when no bracket is open at its end
(`exists_ofText_iff`).

`mask` writes an outline with its groups replaced by placeholders that are numbered in order. It is
what hiding the groups of a text makes of its outline (`hide_eq`).
-/

namespace Formula

/-- Whether a piece is a character that opens no bracket, or a group with a closed text. -/
def Piece.Closed : Piece → Prop
  | .plain c => c ≠ '('
  | .group inner => Fragment.Closed inner

instance : DecidablePred Piece.Closed
  | .plain c => inferInstanceAs (Decidable (c ≠ '('))
  | .group inner => inferInstanceAs (Decidable (Fragment.Closed inner))

namespace Outline

open Fragment (depthFrom depth StaysOpen)

/-- Whether all pieces are closed. -/
def Closed (o : Outline) : Prop := ∀ piece ∈ o, piece.Closed

instance (o : Outline) : Decidable (Closed o) :=
  inferInstanceAs (Decidable (∀ piece ∈ o, Piece.Closed piece))

theorem closed_cons {piece : Piece} {o : Outline} : Closed (piece :: o) ↔ piece.Closed ∧ Closed o :=
  List.forall_mem_cons

theorem closed_append {o p : Outline} : Closed (o ++ p) ↔ Closed o ∧ Closed p :=
  List.forall_mem_append

theorem Closed.sublist {o p : Outline} (h : Closed p) (hsub : List.Sublist o p) : Closed o :=
  fun piece hpiece => h piece (hsub.mem hpiece)

theorem closed_blank {b : Fragment} (hb : b.allBlank = true) : Closed (b.map .plain) := by
  refine List.forall_mem_map.mpr fun c hc => ?_
  rintro rfl
  rw [Fragment.allBlank, List.all_eq_true] at hb
  exact absurd (hb _ hc) (by decide)

/-! ### Scanning -/

/-- The groups that are found are closed. -/
theorem closed_scan (s : Fragment) : Closed (scan s).1 := by
  fun_induction scan s with
  | case1 | case3 => exact fun piece hpiece => absurd hpiece List.not_mem_nil
  | case2 rest inner behind h ih =>
    exact closed_cons.mpr ⟨(Fragment.closeGroup?_zero_iff.mp h).2, ih⟩
  | case4 c rest hc ih => exact closed_cons.mpr ⟨hc, ih⟩

/-- A closed outline is found again in front of any text. -/
theorem Closed.scan_append {o : Outline} (h : Closed o) (t : Fragment) :
    scan (o.text ++ t) = (o ++ (scan t).1, (scan t).2) := by
  induction o with
  | nil => rfl
  | cons piece o ih =>
    obtain ⟨hpiece, ho⟩ := closed_cons.mp h
    cases piece with
    | plain c =>
      rw [text_cons, Piece.text, List.append_assoc, List.singleton_append, scan_plain hpiece, ih ho]
      rfl
    | group inner =>
      have hclose : closeGroup? 0 (inner ++ ')' :: (text o ++ t)) = some (inner, text o ++ t) :=
        Fragment.closeGroup?_zero_iff.mpr ⟨rfl, hpiece⟩
      have htext : text (.group inner :: o) ++ t = '(' :: (inner ++ ')' :: (text o ++ t)) := by
        simp [Piece.text]
      rw [htext, scan_group hclose, ih ho]
      rfl

theorem Closed.scan_text {o : Outline} (h : Closed o) : scan o.text = (o, []) := by
  have hscan := h.scan_append []
  rwa [List.append_nil, scan_nil, List.append_nil] at hscan

/-- A text has one closed outline at most, and this is the one that is found. -/
theorem ofText_eq_ok_iff_closed {s : Fragment} {o : Outline} :
    ofText s = .ok o ↔ Closed o ∧ o.text = s := by
  constructor
  · intro h
    have hclosed := closed_scan s
    rw [ofText_eq_ok_iff.mp h] at hclosed
    exact ⟨hclosed, text_of_ofText h⟩
  · rintro ⟨h, rfl⟩
    exact ofText_eq_ok_iff.mpr h.scan_text

theorem Closed.ofText_trim {o : Outline} (h : Closed o) :
    Outline.ofText (Fragment.trim o.text) = .ok o.trim :=
  ofText_eq_ok_iff_closed.mpr ⟨h.sublist o.trim_sublist, (text_trim o).symm⟩

/-- A bracket that a scan leaves behind is never closed. -/
theorem staysOpen_of_scan {s rest : Fragment} (h : (scan s).2 = '(' :: rest) :
    StaysOpen 1 rest := by
  fun_induction scan s with
  | case1 => exact absurd h.symm (List.cons_ne_nil _ _)
  | case2 _ _ _ _ ih => exact ih h
  | case3 rest' hclose =>
    obtain rfl : rest' = rest := by simpa using h
    exact Fragment.closeGroup?_eq_none_iff.mp hclose
  | case4 _ _ _ ih => exact ih h

/-! ### The depth of a text -/

/-- Groups leave the depth as it was, and so do all characters of a closed outline. -/
theorem Closed.depth_text {o : Outline} (h : Closed o) : depth o.text = 0 := by
  unfold Fragment.depth
  induction o with
  | nil => rfl
  | cons piece o ih =>
    obtain ⟨hpiece, ho⟩ := closed_cons.mp h
    have hzero : depthFrom 0 piece.text = 0 := by
      cases piece with
      | plain c => exact Fragment.depth_eq_zero_of_notMem (by simpa [Piece.text] using hpiece.symm)
      | group inner =>
        rw [Piece.text, Fragment.depthFrom_cons, Fragment.depthFrom_append]
        simp [hpiece.1]
    rw [text_cons, Fragment.depthFrom_append, hzero, ih ho]

/-- Groups leave no bracket open: what is open at the end of a text is open in what a scan leaves
behind. -/
theorem depth_eq_depth_scan (s : Fragment) : depth s = depth (scan s).2 := by
  have hzero := (closed_scan s).depth_text
  conv_lhs => rw [← scan_text s]
  unfold Fragment.depth at hzero ⊢
  rw [Fragment.depthFrom_append, hzero]

/-- The depth of a text is zero just when no bracket is left over. -/
theorem depth_eq_zero_iff {s : Fragment} : depth s = 0 ↔ (scan s).2 = [] := by
  rw [depth_eq_depth_scan]
  rcases scan_rest s with hrest | ⟨rest, hrest⟩
  · rw [hrest]
    exact iff_of_true rfl rfl
  · have hpos : 0 < depth (scan s).2 := by
      rw [hrest]
      exact staysOpen_of_scan hrest rest List.prefix_rfl
    rw [hrest] at hpos ⊢
    exact iff_of_false (by omega) (by simp)

/-- A text has an outline if no bracket is open at its end. -/
theorem exists_ofText_iff {s : Fragment} : (∃ o, ofText s = .ok o) ↔ depth s = 0 := by
  rw [depth_eq_zero_iff]
  constructor
  · rintro ⟨o, ho⟩
    rw [ofText_eq_ok_iff.mp ho]
  · intro h
    exact ⟨(scan s).1, ofText_eq_ok_iff.mpr (Prod.ext rfl h)⟩

/-- A character outside every group stands where no bracket is open. -/
theorem Closed.exists_of_plain_mem {o : Outline} (h : Closed o) {c : Char} (hc : .plain c ∈ o) :
    ∃ a b, o.text = a ++ c :: b ∧ depth a = 0 := by
  obtain ⟨l, r, rfl⟩ := List.append_of_mem hc
  exact ⟨text l, text r, text_append_cons l r c, (closed_append.mp h).1.depth_text⟩

/-- The text of an outline is cut between two pieces or in a group. -/
theorem exists_of_text_eq_append {o : Outline} {a b : Fragment} (h : o.text = a ++ b) :
    (∃ p q : Outline, o = p ++ q ∧ p.text = a ∧ q.text = b) ∨
      ∃ (p q : Outline) (c d : Fragment), o = p ++ .group (c ++ d) :: q ∧
        a = p.text ++ '(' :: c ∧ b = d ++ ')' :: q.text := by
  induction o generalizing a with
  | nil =>
    obtain ⟨rfl, rfl⟩ := List.append_eq_nil_iff.mp h.symm
    exact Or.inl ⟨[], [], rfl, rfl, rfl⟩
  | cons piece o ih =>
    cases a with
    | nil => exact Or.inl ⟨[], piece :: o, rfl, rfl, h⟩
    | cons x a =>
      have hstep : ∀ {a' : Fragment}, x :: a = piece.text ++ a' → text o = a' ++ b →
          (∃ p q : Outline, piece :: o = p ++ q ∧ p.text = x :: a ∧ q.text = b) ∨
            ∃ (p q : Outline) (c d : Fragment), piece :: o = p ++ .group (c ++ d) :: q ∧
              x :: a = p.text ++ '(' :: c ∧ b = d ++ ')' :: q.text := by
        intro a' ha ho
        rw [ha]
        rcases ih ho with ⟨p, q, rfl, rfl, rfl⟩ | ⟨p, q, c, d, rfl, rfl, rfl⟩
        · exact Or.inl ⟨piece :: p, q, rfl, rfl, rfl⟩
        · exact Or.inr ⟨piece :: p, q, c, d, rfl, by simp, rfl⟩
      cases piece with
      | plain y =>
        obtain ⟨rfl, ho⟩ := List.cons.inj h
        exact hstep rfl ho
      | group inner =>
        obtain ⟨rfl, hinner⟩ : '(' = x ∧ inner ++ ')' :: text o = a ++ b := by
          simpa [Piece.text] using h
        -- the end of `a` is behind the group or within it
        rcases List.append_eq_append_iff.mp hinner with ⟨a', rfl, hrest⟩ | ⟨d, rfl, rfl⟩
        · rcases List.cons_eq_append_iff.mp hrest with ⟨rfl, rfl⟩ | ⟨a'', rfl, ho⟩
          · exact Or.inr ⟨[], o, inner, [], by simp, by simp, rfl⟩
          · exact hstep (by simp [Piece.text]) ho
        · exact Or.inr ⟨[], o, a, d, rfl, rfl, by simp⟩

/-- A closed outline is that of a closed text, unless a `)` stands outside its groups. -/
theorem Closed.closed_text_iff {o : Outline} (h : Closed o) :
    Fragment.Closed o.text ↔ .plain ')' ∉ o := by
  rw [Fragment.closed_iff]
  constructor
  · rintro ⟨-, hinside⟩ hmem
    obtain ⟨a, b, hab, hdepth⟩ := h.exists_of_plain_mem hmem
    have hpos := hinside a b hab
    omega
  · intro hnot
    refine ⟨h.depth_text, fun a b hab => ?_⟩
    rcases exists_of_text_eq_append hab with ⟨p, q, rfl, -, hq⟩ | ⟨p, q, c, d, rfl, rfl, -⟩
    · cases q with
      | nil => exact nomatch hq
      | cons piece q =>
        cases piece with
        | plain y =>
          obtain ⟨rfl, -⟩ := List.cons.inj hq
          exact absurd (by simp) hnot
        | group inner => exact absurd (List.cons.inj hq).1 (by decide)
    · -- the bracket of the group is open in front of the `)`
      obtain ⟨hp, hq⟩ := closed_append.mp h
      have hinner : Fragment.Closed (c ++ d) := (closed_cons.mp hq).1
      have hpos := hinner.2 c (List.prefix_append _ _)
      have hzero := hp.depth_text
      unfold Fragment.depth at hzero ⊢
      rwa [Fragment.depthFrom_append, hzero]

/-! ### Hiding groups -/

/-- The outline with its groups replaced by placeholders with the numbers `first`, `first + 1`,
and so on. -/
def mask (first : Nat) : Outline → Fragment
  | [] => []
  | .plain c :: o => c :: mask first o
  | .group _ :: o => placeholder first ++ mask (first + 1) o

/-- The texts of the groups in order. -/
def inners (o : Outline) : List Fragment :=
  o.filterMap fun piece =>
    match piece with
    | .plain _ => none
    | .group inner => some inner

@[simp]
theorem inners_nil : inners [] = [] := rfl

@[simp]
theorem inners_plain (c : Char) (o : Outline) : inners (.plain c :: o) = inners o := rfl

@[simp]
theorem inners_group (inner : Fragment) (o : Outline) :
    inners (.group inner :: o) = inner :: inners o := rfl

@[simp]
theorem inners_append (o p : Outline) : inners (o ++ p) = inners o ++ inners p :=
  List.filterMap_append

theorem inners_sublist {o p : Outline} (h : List.Sublist o p) : List.Sublist o.inners p.inners :=
  h.filterMap _

theorem mask_map_plain_append (first : Nat) (s : Fragment) (o : Outline) :
    mask first (s.map .plain ++ o) = s ++ mask first o := by
  induction s with
  | nil => rfl
  | cons c s ih => exact congrArg (c :: ·) ih

theorem inners_map_plain_append (s : Fragment) (o : Outline) :
    inners (s.map .plain ++ o) = inners o := by
  induction s with
  | nil => rfl
  | cons c s ih => exact ih

/-- There is no bracket left when the groups of a closed outline are masked. -/
theorem Closed.open_notMem_mask {o : Outline} (h : Closed o) (first : Nat) :
    '(' ∉ mask first o := by
  induction o generalizing first with
  | nil => exact List.not_mem_nil
  | cons piece o ih =>
    obtain ⟨hpiece, ho⟩ := closed_cons.mp h
    cases piece with
    | plain c => simpa [mask] using ⟨hpiece.symm, ih ho first⟩
    | group inner => simpa [mask] using ⟨open_notMem_placeholder first, ih ho (first + 1)⟩

/-- Hiding the groups of a text masks its outline and puts the texts of the groups behind the
others. -/
theorem hide_eq (groups : Groups) (s : Fragment) :
    (groups.hide s).1 = mask groups.size (scan s).1 ++ (scan s).2 ∧
      (groups.hide s).2.toList = groups.toList ++ inners (scan s).1 := by
  fun_induction Groups.hide groups s with
  | case1 groups s plain inner rest h mark hidden groups' hrest ih =>
    rw [hrest] at ih
    obtain ⟨hhidden, hgroups⟩ := ih
    obtain ⟨-, hscan⟩ := scan_of_firstGroup?_eq_some h
    have hsize : (groups.push inner).size = groups.size + 1 := by simp [Groups.push, Groups.size]
    have hpush : (groups.push inner).toList = groups.toList ++ [inner] := by
      simp [Groups.push, Groups.toList]
    rw [hscan, mask_map_plain_append, inners_map_plain_append, mask]
    constructor
    · dsimp only at hhidden ⊢
      rw [hhidden, hsize]
      simp [mark]
    · dsimp only at hgroups ⊢
      rw [hgroups, hpush]
      simp [inners]
  | case2 groups s h =>
    -- there is no group any more
    obtain ⟨plain, -, hs, hscan⟩ := scan_of_firstGroup?_eq_none h
    have hmask := mask_map_plain_append groups.size plain []
    have hinners := inners_map_plain_append plain []
    rw [List.append_nil] at hmask hinners
    rw [hscan, hmask, hinners]
    exact ⟨by simpa [mask] using hs, by simp [inners]⟩

end Outline

end Formula
