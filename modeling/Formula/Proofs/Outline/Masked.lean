import Formula.Proofs.Outline
import Formula.Proofs.Placeholder
import Mathlib.Data.List.Forall2

/-!
# Masked outlines

A fragment whose groups have been set aside is an outline in disguise: each group is masked by a
placeholder that leads to its text. `Masked groups o s` says that `s` is `o` so disguised.

Setting groups aside masks the outline of a text (`hide_scan`, `setAside_of_ofText`), and every cut
of the masked fragment is the masked cut of the outline: `Masked.trim`, `Masked.operands`,
`Masked.drop`. No cut can go through a placeholder, since operators and blank characters are not in
it.
-/

namespace Formula

namespace Groups

/-- Whether `groups'` are `groups` with others behind them. -/
def Extends (groups groups' : Groups) : Prop := groups.toList <+: groups'.toList

theorem Extends.refl (groups : Groups) : groups.Extends groups := List.prefix_rfl

theorem Extends.trans {a b c : Groups} (hab : a.Extends b) (hbc : b.Extends c) : a.Extends c :=
  List.IsPrefix.trans hab hbc

/-- A group that a placeholder leads to has been set aside. -/
theorem mem_of_resolve {groups : Groups} {interior text : Fragment}
    (h : groups.resolve interior = .ok text) : text ∈ groups.toList := by
  obtain ⟨index, -, hindex⟩ := resolve_eq_ok_iff.mp h
  rw [get?_eq_toList] at hindex
  exact List.mem_of_getElem? hindex

/-- A group keeps its number. -/
theorem Extends.get? {groups groups' : Groups} (h : groups.Extends groups') {index : Nat}
    {text : Fragment} (htext : groups.get? index = some text) : groups'.get? index = some text := by
  rw [get?_eq_toList] at htext ⊢
  obtain ⟨rest, hrest⟩ := h
  obtain ⟨hlt, -⟩ := List.getElem?_eq_some_iff.mp htext
  rw [← hrest, List.getElem?_append_left hlt, htext]

/-- What a placeholder leads to stays the same when groups are added. -/
theorem Extends.resolve {groups groups' : Groups} (h : groups.Extends groups')
    {interior text : Fragment} (htext : groups.resolve interior = .ok text) :
    groups'.resolve interior = .ok text := by
  obtain ⟨index, hindex, hget⟩ := resolve_eq_ok_iff.mp htext
  exact resolve_eq_ok_iff.mpr ⟨index, hindex, h.get? hget⟩

theorem size_le_of_extends {groups groups' : Groups} (h : groups.Extends groups') :
    groups.size ≤ groups'.size := List.IsPrefix.length_le h

theorem extends_push (groups : Groups) (text : Fragment) : groups.Extends (groups.push text) := by
  simp [Extends, push, toList]

theorem get?_push_size (groups : Groups) (text : Fragment) :
    (groups.push text).get? groups.size = some text := by
  simp [Groups.get?, push, size]

end Groups

namespace Outline

/-- Of two related lists each element of the second one is related to one of the first. -/
theorem exists_of_forall₂ {β γ : Type} {R : β → γ → Prop} {bs : List β} {cs : List γ}
    (h : List.Forall₂ R bs cs) {c : γ} (hc : c ∈ cs) : ∃ b ∈ bs, R b c := by
  induction h with
  | nil => exact absurd hc List.not_mem_nil
  | @cons b _ _ _ hhead _ ih =>
    rcases List.mem_cons.mp hc with rfl | hc
    · exact ⟨b, List.mem_cons_self, hhead⟩
    · obtain ⟨b', hb', hrel⟩ := ih hc
      exact ⟨b', List.mem_cons_of_mem _ hb', hrel⟩

/-- Two lists that are both related to a third one. -/
theorem forall₂_of_common {β γ δ : Type} {R : β → γ → Prop} {S : β → δ → Prop} {bs : List β}
    {cs : List γ} {ds : List δ} (h : List.Forall₂ R bs cs) (h' : List.Forall₂ S bs ds) :
    List.Forall₂ (fun c d => ∃ b ∈ bs, R b c ∧ S b d) cs ds := by
  induction h generalizing ds with
  | nil =>
    cases h'
    exact .nil
  | cons hhead _ ih =>
    cases h' with
    | cons hhead' htail' =>
      refine .cons ⟨_, List.mem_cons_self, hhead, hhead'⟩ ((ih htail').imp ?_)
      rintro c d ⟨b, hb, hboth⟩
      exact ⟨b, List.mem_cons_of_mem _ hb, hboth⟩

/-- What is related to a list is related to its parts, in order. -/
theorem forall₂_append_cons {β γ : Type} {R : β → γ → Prop} {before after : List β} {b : β}
    {cs : List γ} (h : List.Forall₂ R (before ++ b :: after) cs) :
    ∃ before' c after', cs = before' ++ c :: after' ∧ List.Forall₂ R before before' ∧ R b c := by
  induction before generalizing cs with
  | nil =>
    cases h with
    | cons hb => exact ⟨[], _, _, rfl, .nil, hb⟩
  | cons b' before ih =>
    cases h with
    | cons hb' h =>
      obtain ⟨before', c, after', rfl, hbefore, hb⟩ := ih h
      exact ⟨_ :: before', c, after', rfl, .cons hb' hbefore, hb⟩

/-- `Masked groups o s` says that `s` is the outline `o` with each group replaced by a placeholder
of a group of `groups` that has the same text. -/
inductive Masked (groups : Groups) : Outline → Fragment → Prop where
  | nil : Masked groups [] []
  | plain {c : Char} {o : Outline} {s : Fragment} (hc : c ≠ '(') (h : Masked groups o s) :
    Masked groups (.plain c :: o) (c :: s)
  | group {index : Nat} {inner : Fragment} {o : Outline} {s : Fragment}
    (hindex : groups.get? index = some inner) (h : Masked groups o s) :
    Masked groups (.group inner :: o) (placeholder index ++ s)

namespace Masked

variable {groups groups' : Groups} {o p : Outline} {s t : Fragment}

/-! ### Parts of a masked outline -/

/-- A placeholder that leads to its group goes on to do so when there are more groups. -/
theorem mono (hext : groups.Extends groups') (h : Masked groups o s) : Masked groups' o s := by
  induction h with
  | nil => exact .nil
  | plain hc _ ih => exact .plain hc ih
  | group hindex _ ih => exact .group (hext.get? hindex) ih

/-- Masking goes piece by piece. -/
theorem append (ho : Masked groups o s) (hp : Masked groups p t) :
    Masked groups (o ++ p) (s ++ t) := by
  induction ho with
  | nil => exact hp
  | plain hc _ ih => exact .plain hc ih
  | group hindex _ ih =>
    rw [List.append_assoc]
    exact .group hindex ih

/-- A part of the outline is masked by a part of the fragment. -/
theorem of_append (h : Masked groups (o ++ p) s) :
    ∃ s₁ s₂, s = s₁ ++ s₂ ∧ Masked groups o s₁ ∧ Masked groups p s₂ := by
  induction o generalizing s with
  | nil => exact ⟨[], s, rfl, .nil, h⟩
  | cons piece o ih =>
    cases h with
    | plain hc h =>
      obtain ⟨s₁, s₂, rfl, h₁, h₂⟩ := ih h
      exact ⟨_, s₂, rfl, .plain hc h₁, h₂⟩
    | group hindex h =>
      obtain ⟨s₁, s₂, rfl, h₁, h₂⟩ := ih h
      exact ⟨_, s₂, (List.append_assoc _ _ _).symm, .group hindex h₁, h₂⟩

/-- A character that is plain in the outline is there in the fragment, and both can be cut at it. -/
theorem of_append_plain {c : Char} (h : Masked groups (o ++ .plain c :: p) s) :
    ∃ s₁ s₂, s = s₁ ++ c :: s₂ ∧ Masked groups o s₁ ∧ Masked groups p s₂ := by
  obtain ⟨s₁, s', rfl, h₁, h'⟩ := h.of_append
  cases h' with
  | plain _ h₂ => exact ⟨s₁, _, rfl, h₁, h₂⟩

/-- Plain characters mask themselves. -/
theorem map_plain (h : '(' ∉ s) : Masked groups (s.map .plain) s := by
  induction s with
  | nil => exact .nil
  | cons c s ih =>
    obtain ⟨hc, hs⟩ : '(' ≠ c ∧ '(' ∉ s := by simpa using h
    exact .plain (Ne.symm hc) (ih hs)

/-- A character that no placeholder holds occurs in both or in neither. -/
theorem mem_iff {c : Char} (hc : ∀ index, c ∉ placeholder index) (h : Masked groups o s) :
    c ∈ s ↔ .plain c ∈ o := by
  induction h with
  | nil => simp
  | plain _ _ ih => simp [ih]
  | @group index _ _ _ _ _ ih => simp [hc index, ih]

/-- There is no bracket in a masked fragment: brackets are in groups, and placeholders have none. -/
theorem open_notMem (h : Masked groups o s) : '(' ∉ s := by
  induction h with
  | nil => simp
  | plain hc _ ih => simp [hc.symm, ih]
  | @group index _ _ _ _ _ ih => simp [open_notMem_placeholder index, ih]

/-- An outline without groups hides nothing. -/
theorem eq_text (h : Masked groups o s) (hgroup : o.firstGroup? = none) : s = o.text := by
  induction h with
  | nil => rfl
  | plain _ _ ih => simp [Piece.text, ih hgroup]
  | group => simp [firstGroup?] at hgroup

/-- Without a group nothing is masked. -/
theorem eq_front (h : Masked groups o s) (hgroup : o.firstGroup? = none) : s = o.front := by
  induction h with
  | nil => rfl
  | plain _ _ ih => simp [front, ih hgroup]
  | group => simp [firstGroup?] at hgroup

/-- Behind the characters in front of the first group stands its placeholder. -/
theorem eq_front_append {inner : Fragment} (h : Masked groups o s)
    (hgroup : o.firstGroup? = some inner) :
    ∃ index rest, s = o.front ++ placeholder index ++ rest ∧ groups.get? index = some inner := by
  induction h with
  | nil => simp [firstGroup?] at hgroup
  | plain _ _ ih =>
    obtain ⟨index, rest, rfl, hindex⟩ := ih hgroup
    exact ⟨index, rest, rfl, hindex⟩
  | @group index _ _ s hindex _ _ =>
    obtain rfl : _ = inner := by simpa [firstGroup?] using hgroup
    exact ⟨index, s, rfl, hindex⟩

/-- In front of the first group both can be cut at any place. -/
theorem drop (h : Masked groups o s) {n : Nat} (hn : n ≤ o.front.length) :
    Masked groups (o.drop n) (s.drop n) := by
  induction h generalizing n with
  | nil => simpa using .nil
  | plain hc h ih =>
    cases n with
    | zero => exact .plain hc h
    | succ n => exact ih (by simpa [front] using hn)
  | group hindex h _ =>
    obtain rfl : n = 0 := by simpa [front] using hn
    exact .group hindex h

/-! ### Trimming -/

/-- A placeholder is not blank, so that blanks in front are dropped alike. -/
theorem dropWhile (h : Masked groups o s) :
    Masked groups (o.dropWhile Piece.isBlank) (s.dropWhile Text.isBlank) := by
  induction h with
  | nil => exact .nil
  | @plain c _ _ hc h ih =>
    by_cases hblank : Text.isBlank c
    · simpa [Piece.isBlank, hblank] using ih
    · simpa [Piece.isBlank, hblank] using .plain hc h
  | @group index inner o s hindex h _ =>
    have hdrop : (placeholder index ++ s).dropWhile Text.isBlank = placeholder index ++ s := by
      simp [placeholder, isBlank_amp]
    rw [List.dropWhile_cons_of_neg (by simp [Piece.isBlank]), hdrop]
    exact .group hindex h

/-- A placeholder does not end with a blank either. -/
theorem rdropWhile (h : Masked groups o s) :
    Masked groups (o.rdropWhile Piece.isBlank) (s.rdropWhile Text.isBlank) := by
  induction o using List.reverseRecOn generalizing s with
  | nil =>
    cases h
    exact .nil
  | append_singleton o piece ih =>
    obtain ⟨s₁, s₂, rfl, h₁, h₂⟩ := h.of_append
    cases h₂ with
    | @plain c _ _ hc hnil =>
      cases hnil
      by_cases hblank : Text.isBlank c
      · rw [List.rdropWhile_concat_pos Piece.isBlank _ (.plain c) hblank,
          List.rdropWhile_concat_pos Text.isBlank _ _ hblank]
        exact ih h₁
      · rw [List.rdropWhile_concat_neg Piece.isBlank _ (.plain c) hblank,
          List.rdropWhile_concat_neg Text.isBlank _ _ hblank]
        exact h₁.append (.plain hc .nil)
    | @group index inner _ _ hindex hnil =>
      cases hnil
      -- the fragment ends with the `;` of the placeholder
      have hassoc : s₁ ++ (placeholder index ++ []) =
          (s₁ ++ '&' :: Nat.toDigits 10 index) ++ [';'] := by simp [placeholder]
      have hlast : (s₁ ++ (placeholder index ++ [])).rdropWhile Text.isBlank =
          s₁ ++ (placeholder index ++ []) := by
        rw [hassoc, List.rdropWhile_concat_neg _ _ _ (by decide)]
      rw [List.rdropWhile_concat_neg _ _ _ (by simp [Piece.isBlank]), hlast]
      exact h₁.append (.group hindex .nil)

theorem trim (h : Masked groups o s) : Masked groups o.trim s.trim := h.dropWhile.rdropWhile

theorem allBlank_eq (h : Masked groups o s) : s.allBlank = o.allBlank := by
  unfold Fragment.allBlank Outline.allBlank
  induction h with
  | nil => rfl
  | plain _ _ ih => simp [Piece.isBlank, ih]
  | group => simp [Piece.isBlank, placeholder, isBlank_amp]

/-! ### Splitting -/

/-- No operator is in a placeholder, so that masking hides the ones in groups and no others. -/
theorem loosestIn?_eq (h : Masked groups o s) : Operator.loosestIn? s = o.loosestIn? := by
  unfold Operator.loosestIn? Outline.loosestIn?
  congr 1
  funext operator
  simp only [decide_eq_decide]
  exact h.mem_iff (symbol_notMem_placeholder operator)

/-- Pieces of a masked fragment mask the pieces of the outline, if the mark is in no placeholder. -/
theorem splitOn {c : Char} (hc : ∀ index, c ∉ placeholder index) (h : Masked groups o s) :
    List.Forall₂ (Masked groups) (o.splitOn (.plain c)) (s.splitOn c) := by
  induction h with
  | nil => exact .cons .nil .nil
  | @plain d o s hd h ih =>
    rw [List.splitOn_cons_eq_if_modifyHead, List.splitOn_cons_eq_if_modifyHead]
    by_cases hdc : d = c
    · simpa [hdc] using ⟨.nil, ih⟩
    · obtain ⟨q, qs, hq⟩ := List.exists_cons_of_ne_nil (List.splitOn_ne_nil (Piece.plain c) o)
      obtain ⟨r, rs, hr⟩ := List.exists_cons_of_ne_nil (List.splitOn_ne_nil c s)
      rw [hq, hr] at ih ⊢
      obtain ⟨hhead, htail⟩ := List.forall₂_cons.mp ih
      simpa [hdc] using ⟨.plain hd hhead, htail⟩
  | @group index inner o s hindex h ih =>
    -- the whole placeholder goes to the first piece
    rw [Text.splitOn_append_of_notMem (hc index), List.splitOn_cons_eq_if_modifyHead,
      if_neg (by simp)]
    obtain ⟨q, qs, hq⟩ := List.exists_cons_of_ne_nil (List.splitOn_ne_nil (Piece.plain c) o)
    obtain ⟨r, rs, hr⟩ := List.exists_cons_of_ne_nil (List.splitOn_ne_nil c s)
    rw [hq, hr] at ih ⊢
    obtain ⟨hhead, htail⟩ := List.forall₂_cons.mp ih
    exact .cons (.group hindex hhead) htail

/-- An operand of the fragment for an operand of the outline. -/
def MaskedOperand (groups : Groups) (p : Outline.Operand) (q : Formula.Operand) : Prop :=
  p.inverted = q.inverted ∧ Masked groups p.outline q.text

theorem map_operand {ps : List Outline} {qs : List Fragment}
    (h : List.Forall₂ (Masked groups) ps qs) (inverted : Bool) :
    List.Forall₂ (MaskedOperand groups) (ps.map fun p => ⟨p, inverted⟩)
      (qs.map fun q => ⟨q, inverted⟩) := by
  induction h with
  | nil => exact .nil
  | cons hhead _ ih => exact .cons ⟨rfl, hhead⟩ ih

/-- Blank operands are dropped alike. -/
theorem dropBlank {ps : List Outline.Operand} {qs : List Formula.Operand}
    (h : List.Forall₂ (MaskedOperand groups) ps qs) :
    List.Forall₂ (MaskedOperand groups) (Outline.dropBlank ps) (Operator.dropBlank qs) := by
  unfold Outline.dropBlank Operator.dropBlank
  induction h with
  | nil => exact .nil
  | @cons p q ps qs hhead _ ih =>
    have hblank : q.text.allBlank = p.outline.allBlank := hhead.2.allBlank_eq
    cases hp : p.outline.allBlank with
    | true => simpa [hblank, hp] using ih
    | false => simpa [hblank, hp] using ⟨hhead, ih⟩

theorem sides {cut : Option (Outline × Outline)} {cut' : Option (Fragment × Fragment)}
    (h : Option.Rel (fun p q => Masked groups p.1 q.1 ∧ Masked groups p.2 q.2) cut cut') :
    List.Forall₂ (MaskedOperand groups) (Outline.sides cut) (Operator.sides cut') := by
  cases h with
  | none => exact .nil
  | some h => exact .cons ⟨rfl, h.1⟩ (.cons ⟨rfl, h.2⟩ .nil)

/-- Both are cut at the first mark, or at none. -/
theorem cutFirst? {c : Char} (hc : ∀ index, c ∉ placeholder index) (h : Masked groups o s) :
    Option.Rel (fun p q => Masked groups p.1 q.1 ∧ Masked groups p.2 q.2)
      (Text.firstCut? (.plain c) o) (s.cutFirst? c) := by
  rw [Text.cutFirst?_eq_firstCut?]
  by_cases hmem : .plain c ∈ o
  · obtain ⟨left, right, rfl, hleft, hcut⟩ := Text.exists_firstCut? hmem
    obtain ⟨s₁, s₂, rfl, h₁, h₂⟩ := h.of_append_plain
    rw [hcut, Text.firstCut?_append (fun hs => hleft ((h₁.mem_iff hc).mp hs))]
    exact .some ⟨h₁, h₂⟩
  · rw [Text.firstCut?_eq_none_iff.mpr hmem,
      Text.firstCut?_eq_none_iff.mpr (fun hs => hmem ((h.mem_iff hc).mp hs))]
    exact .none

/-- Both are cut at the last mark, or at none. -/
theorem cutLast? {c : Char} (hc : ∀ index, c ∉ placeholder index) (h : Masked groups o s) :
    Option.Rel (fun p q => Masked groups p.1 q.1 ∧ Masked groups p.2 q.2)
      (Text.lastCut? (.plain c) o) (s.cutLast? c) := by
  rw [Text.cutLast?_eq_lastCut?]
  by_cases hmem : .plain c ∈ o
  · obtain ⟨left, right, rfl, hright, hcut⟩ := Text.exists_lastCut? hmem
    obtain ⟨s₁, s₂, rfl, h₁, h₂⟩ := h.of_append_plain
    rw [hcut, Text.lastCut?_append (fun hs => hright ((h₂.mem_iff hc).mp hs))]
    exact .some ⟨h₁, h₂⟩
  · rw [Text.lastCut?_eq_none_iff.mpr hmem,
      Text.lastCut?_eq_none_iff.mpr (fun hs => hmem ((h.mem_iff hc).mp hs))]
    exact .none

/-- Operands that may be inverted are masked one by one. -/
theorem invertedPieces {operator : Operator} (h : Masked groups o s) :
    List.Forall₂ (MaskedOperand groups) (Outline.invertedPieces (.plain operator.symbol) o)
      (operator.invertedPieces s) := by
  have hsplit := h.splitOn (symbol_notMem_placeholder operator)
  unfold Outline.invertedPieces Operator.invertedPieces
  generalize o.splitOn (.plain operator.symbol) = ps at hsplit
  generalize s.splitOn operator.symbol = qs at hsplit
  cases hsplit with
  | nil => exact .nil
  | cons hhead htail => exact .cons ⟨rfl, hhead⟩ (map_operand htail true)

/-- The operands of a masked outline are its masked operands. -/
theorem operands (operator : Operator) (h : Masked groups o s) :
    List.Forall₂ (MaskedOperand groups) (Outline.operands operator o) (operator.operands s) := by
  have hsymbol := symbol_notMem_placeholder operator
  have hplain := map_operand (h.splitOn hsymbol) false
  cases operator with
  | list | add => exact dropBlank hplain
  | subtract | divide => exact dropBlank h.invertedPieces
  | multiply => exact hplain
  | modulo => exact sides (h.cutFirst? hsymbol)
  | raise => exact sides (h.cutLast? hsymbol)

/-- An operand of the fragment is an operand of the outline in disguise. -/
theorem exists_operand {operator : Operator} (h : Masked groups o s) {q : Formula.Operand}
    (hq : q ∈ operator.operands s) :
    ∃ p ∈ Outline.operands operator o, MaskedOperand groups p q :=
  exists_of_forall₂ (h.operands operator) hq

end Masked

/-! ### Setting groups aside -/

theorem scan_append_plain {s : Fragment} (h : '(' ∉ s) (t : Fragment) :
    scan (s ++ t) = (s.map .plain ++ (scan t).1, (scan t).2) := by
  induction s with
  | nil => simp
  | cons c s ih =>
    obtain ⟨hc, hs⟩ : '(' ≠ c ∧ '(' ∉ s := by simpa using h
    rw [List.cons_append, scan_plain hc.symm, ih hs]
    rfl

/-- Up to the first group the outline has plain characters. -/
theorem scan_of_firstGroup?_eq_some {s plain inner rest : Fragment}
    (h : Formula.firstGroup? s = some (plain, inner, rest)) :
    '(' ∉ plain ∧
      scan s = (plain.map .plain ++ .group inner :: (scan rest).1, (scan rest).2) := by
  unfold Formula.firstGroup? at h
  split at h
  · rename_i front body hcut
    obtain ⟨parts, hclose, heq⟩ := Option.map_eq_some_iff.mp h
    obtain ⟨rfl, rfl⟩ := by simpa using heq
    obtain ⟨rfl, hfront⟩ := Fragment.cutFirst?_eq_some hcut
    refine ⟨hfront, ?_⟩
    rw [scan_append_plain hfront, scan_group hclose]
  · simp at h

/-- Without a group that is closed, the outline ends at the first bracket. -/
theorem scan_of_firstGroup?_eq_none {s : Fragment} (h : Formula.firstGroup? s = none) :
    ∃ plain, '(' ∉ plain ∧ s = plain ++ (scan s).2 ∧ (scan s).1 = plain.map .plain := by
  unfold Formula.firstGroup? at h
  split at h
  · rename_i front body hcut
    obtain ⟨rfl, hfront⟩ := Fragment.cutFirst?_eq_some hcut
    refine ⟨front, hfront, ?_⟩
    rw [scan_append_plain hfront, scan_unclosed (Option.map_eq_none_iff.mp h)]
    simp
  · rename_i hcut
    rw [Text.cutFirst?_eq_firstCut?, Text.firstCut?_eq_none_iff] at hcut
    refine ⟨s, hcut, ?_⟩
    have hscan := scan_append_plain hcut []
    rw [List.append_nil, scan_nil] at hscan
    rw [hscan]
    simp

/-- What is hidden is the outline as far as it goes; the rest is left as it was. -/
theorem hide_scan (groups : Groups) (s : Fragment) :
    groups.Extends (groups.hide s).2 ∧
      ∃ m, (groups.hide s).1 = m ++ (scan s).2 ∧ Masked (groups.hide s).2 (scan s).1 m := by
  fun_induction Groups.hide groups s with
  | case1 groups s plain inner rest h mark hidden groups' hrest ih =>
    rw [hrest] at ih
    obtain ⟨hext, m, rfl, hm⟩ := ih
    obtain ⟨hplain, hscan⟩ := scan_of_firstGroup?_eq_some h
    -- the group is put down before the rest is hidden, and keeps its index
    have hindex : groups'.get? groups.size = some inner :=
      hext.get? (groups.get?_push_size inner)
    refine ⟨(groups.extends_push inner).trans hext, mark ++ m, ?_, ?_⟩
    · rw [hscan]
      exact (List.append_assoc _ _ _).symm
    · rw [hscan]
      have hfront : Masked groups' (plain.map .plain) plain := Masked.map_plain hplain
      have hmasked := hfront.append (.group hindex hm)
      rwa [← List.append_assoc] at hmasked
  | case2 groups s h =>
    obtain ⟨plain, hplain, hs, hscan⟩ := scan_of_firstGroup?_eq_none h
    exact ⟨.refl groups, plain, hs, hscan ▸ Masked.map_plain hplain⟩

/-- `MaskedError groups e e'` says that `e'` is the error `e` at a fragment whose groups have been
set aside. -/
inductive MaskedError (groups : Groups) : SyntaxError → SyntaxError → Prop where
  | unexpectedEnd {o : Outline} {s : Fragment} (h : Masked groups o s) :
    MaskedError groups (.unexpectedEnd (String.ofList o.text)) (.unexpectedEnd (String.ofList s))
  | unmatchedBracket {o : Outline} {s : Fragment} (h : Masked groups o s) (rest : Fragment) :
    MaskedError groups
      (.unmatchedBracket (String.ofList (o.text ++ '(' :: rest)) (Fragment.byteLength o.text))
      (.unmatchedBracket (String.ofList (s ++ '(' :: rest)) s.byteLength)

theorem MaskedError.code_eq {groups : Groups} {e e' : SyntaxError} (h : MaskedError groups e e') :
    e.code? = e'.code? := by
  cases h <;> rfl

/-- Groups are set aside unless a bracket is left, which is then shown with what has been hidden
before. -/
theorem setAside_eq (groups : Groups) (s : Fragment) :
    groups.setAside s =
      (if '(' ∈ (groups.hide s).1 then
        .error (.unmatchedBracket (String.ofList (groups.hide s).1)
          (Fragment.byteLength ((groups.hide s).1.takeWhile (· != '('))))
      else .ok (groups.hide s).1, (groups.hide s).2) := by
  unfold Groups.setAside
  split
  rename_i hidden groups' h
  rw [h]
  split <;> rfl

theorem setAside_extends (groups : Groups) (s : Fragment) :
    groups.Extends (groups.setAside s).2 := by
  rw [setAside_eq]
  exact (hide_scan groups s).1

/-- A text in which every bracket is closed is masked. -/
theorem setAside_of_ofText {s : Fragment} {o : Outline} (h : ofText s = .ok o) (groups : Groups) :
    ∃ m, (groups.setAside s).1 = .ok m ∧ Masked (groups.setAside s).2 o m := by
  obtain ⟨-, m, hhide, hm⟩ := hide_scan groups s
  rw [ofText_eq_ok_iff.mp h, List.append_nil] at hhide
  rw [ofText_eq_ok_iff.mp h] at hm
  refine ⟨m, ?_, ?_⟩
  · rw [setAside_eq, hhide, if_neg hm.open_notMem]
  · rw [setAside_eq]
    exact hm

/-- A bracket that is never closed is reported where it stands behind the masked groups. -/
theorem setAside_of_ofText_error {s : Fragment} {error : SyntaxError} (h : ofText s = .error error)
    (groups : Groups) :
    ∃ error', (groups.setAside s).1 = .error error' ∧
      MaskedError (groups.setAside s).2 error error' := by
  obtain ⟨-, m, hhide, hm⟩ := hide_scan groups s
  have htext := scan_text s
  unfold ofText at h
  rcases hscan : scan s with ⟨o, rest⟩
  rw [hscan] at h hhide hm htext
  obtain rfl | ⟨rest, rfl⟩ : rest = [] ∨ ∃ r, rest = '(' :: r := by
    simpa [hscan] using scan_rest s
  · simp at h
  · obtain rfl :
        SyntaxError.unmatchedBracket (String.ofList s) (Fragment.byteLength o.text) = error :=
      Except.error.inj h
    -- the bracket that is reported is the first one that is left
    have htake : (m ++ '(' :: rest).takeWhile (· != '(') = m :=
      Text.takeWhile_append hm.open_notMem rest
    refine ⟨.unmatchedBracket (String.ofList (m ++ '(' :: rest)) (Fragment.byteLength m), ?_, ?_⟩
    · rw [setAside_eq, hhide, if_pos (by simp)]
      dsimp only
      rw [htake]
    · have herror := MaskedError.unmatchedBracket hm rest
      rw [htext] at herror
      rw [setAside_eq]
      exact herror

/-- A masked outline has no group left to set aside. -/
theorem Masked.setAside {groups : Groups} {o : Outline} {s : Fragment} (h : Masked groups o s) :
    groups.setAside s = (.ok s, groups) := by
  have hnone : Formula.firstGroup? s = none := by
    unfold Formula.firstGroup?
    rw [Text.cutFirst?_eq_firstCut?, Text.firstCut?_eq_none_iff.mpr h.open_notMem]
  have hhide : groups.hide s = (s, groups) := by
    unfold Groups.hide
    split
    · simp_all
    · rfl
  rw [setAside_eq, hhide, if_neg h.open_notMem]

end Outline

end Formula
