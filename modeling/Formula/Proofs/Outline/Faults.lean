import Formula.Proofs.Outline.Atoms

/-!
# Faults

Reading an outline fails as soon as reading one of its operands does (`fails_of_operand`). So a
fault is found wherever it stands:

* `fails_dangling`: an outline that ends with `*` or `^`, where the operand behind it is blank;
* `fails_sign`: a `-` behind `*` or `^`, since the outline is split at the `-` before it is split at
  the operator in front of it, which is left dangling;
* `fails_group`: a group with a faulty text, between operators.

`exists_operand` is what the three have in common: what the loosest operator does not occur in
stands in one operand, and with it what is beside it.
-/

namespace Formula.Outline

variable {α : Type} [Arithmetic α] [Numeral α] {vocabulary : Vocabulary α}

/-- Whether reading the outline fails, whatever variables there are. -/
def Fails (vocabulary : Vocabulary α) (o : Outline) : Prop :=
  ∀ vars, ∃ error, (read vocabulary o).run vars = .error error

/-- Blanks at the ends do not make a fault, nor do they mend one. -/
theorem Fails.congr {o p : Outline} (htrim : o.trim = p.trim) (h : Fails vocabulary o) :
    Fails vocabulary p := by
  unfold Fails at h ⊢
  rwa [← read_congr htrim]

/-- An outline fails if one of its operands does. Those in front of it may be read, or one of them
fails first. -/
theorem fails_of_operand {o : Outline} {operator : Operator} {operand : Operand}
    (hop : o.loosestIn? = some operator) (hmem : operand ∈ operands operator o)
    (h : Fails vocabulary operand.outline) : Fails vocabulary o := by
  intro vars
  rw [read_of_loosestIn? hop]
  -- an operand in front of the faulty one may fail as well, with another error
  have hreads : ∀ ops : List Operand, operand ∈ ops → ∀ vars, ∃ error,
      (ops.mapM fun operand : Operand => do
        let tree ← read vocabulary operand.outline
        return operator.orient operand.inverted tree).run vars = .error error := by
    intro ops hmem
    induction ops with
    | nil => exact absurd hmem List.not_mem_nil
    | cons first ops ih =>
      intro vars
      rw [List.mapM_cons]
      cases hfirst : (read vocabulary first.outline).run vars with
      | error error =>
        refine ⟨error, Parser.bind_eq_error.mpr (Or.inl ?_)⟩
        exact Parser.bind_eq_error.mpr (Or.inl hfirst)
      | ok r =>
        obtain ⟨tree, vars'⟩ := r
        rcases List.mem_cons.mp hmem with rfl | hmem
        · obtain ⟨error, herror⟩ := h vars
          rw [hfirst] at herror
          exact nomatch herror
        · obtain ⟨error, herror⟩ := ih hmem vars'
          refine ⟨error, Parser.bind_eq_error.mpr (Or.inr ⟨operator.orient first.inverted tree,
            vars', ?_, Parser.bind_eq_error.mpr (Or.inl herror)⟩)⟩
          exact Parser.bind_eq_ok.mpr ⟨tree, vars', hfirst, rfl⟩
  obtain ⟨error, herror⟩ := hreads _ hmem vars
  exact ⟨error, Parser.bind_eq_error.mpr (Or.inl herror)⟩

/-- Nothing is no expression. -/
theorem fails_blank {b : Outline} (hb : b.allBlank = true) : Fails vocabulary b := by
  intro vars
  refine ⟨.unexpectedEnd "", ?_⟩
  rw [read_eq, allBlank_iff_trim.mp hb]
  have hop : loosestIn? [] = none := loosestIn?_eq_none (by simp)
  rw [hop]
  dsimp only [front, firstGroup?]
  rw [Vocabulary.functionAt?_nil]
  dsimp only
  rw [Vocabulary.constantAt?_nil]
  rfl

/-! ### Operands that hold a part -/

/-- No piece between two marks is left out. -/
theorem mem_invertedPieces_of_mem {mark : Piece} {o p : Outline} (h : p ∈ o.splitOn mark) :
    ∃ inverted, ⟨p, inverted⟩ ∈ invertedPieces mark o := by
  unfold invertedPieces
  cases hsplit : o.splitOn mark with
  | nil => exact absurd hsplit (List.splitOn_ne_nil _ _)
  | cons first rest =>
    rw [hsplit] at h
    rcases List.mem_cons.mp h with rfl | hmem
    · exact ⟨false, List.mem_cons_self⟩
    · exact ⟨true, List.mem_cons_of_mem _ (List.mem_map_of_mem hmem)⟩

theorem mem_dropBlank {operand : Operand} {ops : List Operand} (h : operand ∈ ops)
    (hsolid : operand.outline.allBlank = false) : operand ∈ dropBlank ops :=
  List.mem_filter.mpr ⟨h, by simp [hsolid]⟩

/-- What the mark does not occur in is on one side of it. -/
theorem part_of_sides {l m r left right : Outline} {mark : Piece} (hm : mark ∉ m)
    (h : l ++ m ++ r = left ++ mark :: right) :
    (∃ r', left = l ++ m ++ r' ∧ r' <+: r) ∨ ∃ l', right = l' ++ m ++ r ∧ l' <:+ l := by
  rcases List.append_eq_append_iff.mp h with ⟨a, rfl, rfl⟩ | ⟨a, hfront, hback⟩
  · exact Or.inl ⟨a, rfl, List.prefix_append _ _⟩
  rcases List.cons_eq_append_iff.mp hback with ⟨rfl, rfl⟩ | ⟨b, rfl, rfl⟩
  · exact Or.inl ⟨[], by simpa using hfront.symm, List.nil_prefix⟩
  rcases List.append_eq_append_iff.mp hfront with ⟨c, rfl, rfl⟩ | ⟨c, rfl, hback⟩
  · exact absurd (by simp) hm
  rcases List.cons_eq_append_iff.mp hback with ⟨rfl, rfl⟩ | ⟨d, rfl, rfl⟩
  · exact absurd List.mem_cons_self hm
  · exact Or.inr ⟨d, by simp, (List.suffix_cons _ _).trans (List.suffix_append _ _)⟩

/-- What the operator does not occur in stands in one of its operands, unless it is blank. -/
theorem exists_operand {operator : Operator} {l m r : Outline}
    (hmark : .plain operator.symbol ∈ l ++ m ++ r) (hm : .plain operator.symbol ∉ m)
    (hsolid : m.allBlank = false) :
    ∃ l' r' inverted, ⟨l' ++ m ++ r', inverted⟩ ∈ operands operator (l ++ m ++ r) ∧
      l' <:+ l ∧ r' <+: r := by
  have hpiece := Text.exists_mem_splitOn hm l r
  have hsolid' : ∀ l' r' : Outline, allBlank (l' ++ m ++ r') = false := by
    intro l' r'
    simp [allBlank_append, hsolid]
  have hplain : ∃ l' r', ⟨l' ++ m ++ r', false⟩ ∈
      ((l ++ m ++ r).splitOn (.plain operator.symbol)).map (fun p => (⟨p, false⟩ : Operand)) ∧
      l' <:+ l ∧ r' <+: r := by
    obtain ⟨l', r', hmem, hl', hr'⟩ := hpiece
    exact ⟨l', r', List.mem_map_of_mem hmem, hl', hr'⟩
  have hinverted : ∃ l' r' inverted, ⟨l' ++ m ++ r', inverted⟩ ∈
      dropBlank (invertedPieces (.plain operator.symbol) (l ++ m ++ r)) ∧
      l' <:+ l ∧ r' <+: r := by
    obtain ⟨l', r', hmem, hl', hr'⟩ := hpiece
    obtain ⟨inverted, hmem⟩ := mem_invertedPieces_of_mem hmem
    exact ⟨l', r', inverted, mem_dropBlank hmem (hsolid' l' r'), hl', hr'⟩
  -- which pieces are kept depends on the operator, but a solid one always is
  cases operator with
  | list | add =>
    obtain ⟨l', r', hmem, hl', hr'⟩ := hplain
    exact ⟨l', r', false, mem_dropBlank hmem (hsolid' l' r'), hl', hr'⟩
  | subtract | divide => exact hinverted
  | multiply =>
    obtain ⟨l', r', hmem, hl', hr'⟩ := hplain
    exact ⟨l', r', false, hmem, hl', hr'⟩
  | modulo =>
    obtain ⟨left, right, heq, -, hcut⟩ := Text.exists_firstCut? hmark
    rw [operands, hcut]
    rcases part_of_sides hm heq with ⟨r', rfl, hr'⟩ | ⟨l', rfl, hl'⟩
    · exact ⟨l, r', false, List.mem_cons_self, List.suffix_rfl, hr'⟩
    · exact ⟨l', r, false, by simp [sides], hl', List.prefix_rfl⟩
  | raise =>
    obtain ⟨left, right, heq, -, hcut⟩ := Text.exists_lastCut? hmark
    rw [operands, hcut]
    rcases part_of_sides hm heq with ⟨r', rfl, hr'⟩ | ⟨l', rfl, hl'⟩
    · exact ⟨l, r', false, List.mem_cons_self, List.suffix_rfl, hr'⟩
    · exact ⟨l', r, false, by simp [sides], hl', List.prefix_rfl⟩

/-- Being next to an operand is what induction on faults comes down to: a part that fails wherever
it stands in a shorter outline fails in this one. -/
theorem fails_of_shorter {operator : Operator} {l m r : Outline}
    (hop : loosestIn? (l ++ m ++ r) = some operator) (hm : .plain operator.symbol ∉ m)
    (hsolid : m.allBlank = false)
    (h : ∀ l' r' : Outline, l' <:+ l → r' <+: r → l'.length + r'.length < l.length + r.length →
      Fails vocabulary (l' ++ m ++ r')) : Fails vocabulary (l ++ m ++ r) := by
  have hmark := mem_of_loosestIn? hop
  obtain ⟨l', r', inverted, hmem, hl', hr'⟩ := exists_operand hmark hm hsolid
  have hlt := operands_length_lt hmark hmem
  simp only [List.length_append] at hlt
  exact fails_of_operand hop hmem (h l' r' hl' hr' (by omega))

/-! ### Signs behind operators -/

/-- The operators that fail when the operand behind them is blank. -/
def NeedsOperand (operator : Operator) : Prop := operator = .multiply ∨ operator = .raise

theorem NeedsOperand.solid {operator : Operator} (b : Outline) :
    allBlank (.plain operator.symbol :: b) = false :=
  allBlank_append_cons [] b

/-- An operand is missing behind a `*` or `^` at the end. -/
theorem fails_dangling {operator : Operator} (hneeds : NeedsOperand operator) {b : Outline}
    (hb : b.allBlank = true) (l : Outline) :
    Fails vocabulary (l ++ .plain operator.symbol :: b) := by
  induction hlen : l.length using Nat.strong_induction_on generalizing l with
  | h n ih =>
    obtain ⟨other, hop⟩ : ∃ other, loosestIn? (l ++ .plain operator.symbol :: b) = some other := by
      rw [← Option.ne_none_iff_exists']
      exact fun h => notMem_of_loosestIn?_eq_none h operator (by simp)
    have hblank := notMem_of_allBlank hb operator
    by_cases hsame : other = operator
    · subst hsame
      -- the operand behind it is blank
      have hmem : ⟨b, false⟩ ∈ operands other (l ++ .plain other.symbol :: b) := by
        rcases hneeds with rfl | rfl
        · rw [operands, List.splitOn_append_cons_self, List.splitOn_eq_singleton hblank]
          simp
        · rw [operands, Text.lastCut?_append hblank]
          simp [sides]
      exact fails_of_operand hop hmem (fails_blank hb)
    · have hm : .plain other.symbol ∉ Piece.plain operator.symbol :: b := by
        rw [List.mem_cons, not_or]
        refine ⟨fun h => hsame (Operator.symbol_injective (Piece.plain.inj h)), ?_⟩
        exact notMem_of_allBlank hb other
      rw [← List.append_nil (l ++ .plain operator.symbol :: b)] at hop ⊢
      refine fails_of_shorter hop hm (NeedsOperand.solid b) fun l' r' hl' hr' hlt => ?_
      obtain rfl := List.prefix_nil.mp hr'
      rw [List.append_nil]
      exact ih l'.length (by simpa [hlen] using hlt) l' rfl

/-- A `-` behind `*` or `^` leaves this operator without an operand. -/
theorem fails_sign {operator : Operator} (hneeds : NeedsOperand operator) {b : Outline}
    (hb : b.allBlank = true) (l r : Outline) :
    Fails vocabulary (l ++ (.plain operator.symbol :: (b ++ [.plain '-'])) ++ r) := by
  induction hlen : l.length + r.length using Nat.strong_induction_on generalizing l r with
  | h n ih =>
    have hsolid : allBlank (.plain operator.symbol :: (b ++ [.plain '-'])) = false :=
      NeedsOperand.solid _
    have hlooser : ∀ {other : Operator}, other = .list ∨ other = .add →
        loosestIn? (l ++ (.plain operator.symbol :: (b ++ [.plain '-'])) ++ r) = some other →
        Fails vocabulary (l ++ (.plain operator.symbol :: (b ++ [.plain '-'])) ++ r) := by
      intro other hother hop
      have hm : .plain other.symbol ∉ Piece.plain operator.symbol :: (b ++ [.plain '-']) := by
        have hblank := notMem_of_allBlank hb other
        rcases hneeds with rfl | rfl <;> rcases hother with rfl | rfl <;>
          simpa [Operator.symbol] using hblank
      exact fails_of_shorter hop hm hsolid fun l' r' _ _ hlt => ih _ (hlen ▸ hlt) l' r' rfl
    by_cases hcomma : .plain ',' ∈ l ++ (.plain operator.symbol :: (b ++ [.plain '-'])) ++ r
    · exact hlooser (Or.inl rfl)
        (loosestIn?_of_lacks (List.nil_append _).symm (by simp) hcomma)
    by_cases hplus : .plain '+' ∈ l ++ (.plain operator.symbol :: (b ++ [.plain '-'])) ++ r
    · exact hlooser (Or.inr rfl)
        (loosestIn?_of_lacks (List.singleton_append).symm
          (List.forall_mem_singleton.mpr hcomma) hplus)
    have hop : loosestIn? (l ++ (.plain operator.symbol :: (b ++ [.plain '-'])) ++ r) =
        some .subtract := by
      have hfirst : Operator.loosestFirst =
          [.list, .add] ++ .subtract :: [.multiply, .divide, .modulo, .raise] := rfl
      refine loosestIn?_of_lacks hfirst ?_ (by simp [Operator.symbol])
      exact List.forall_mem_cons.mpr ⟨hcomma, List.forall_mem_singleton.mpr hplus⟩
    -- the operator in front of the sign is the end of its piece
    have hm : .plain '-' ∉ Piece.plain operator.symbol :: b := by
      have hblank := notMem_of_allBlank hb .subtract
      rcases hneeds with rfl | rfl <;> simpa [Operator.symbol] using hblank
    obtain ⟨l', r', hmem, -, hr'⟩ := Text.exists_mem_splitOn hm l []
    obtain rfl := List.prefix_nil.mp hr'
    rw [List.append_nil, List.append_nil] at hmem
    have hassoc : l ++ (Piece.plain operator.symbol :: (b ++ [.plain '-'])) ++ r =
        (l ++ .plain operator.symbol :: b) ++ .plain '-' :: r := by simp
    have hpiece : l' ++ .plain operator.symbol :: b ∈
        (l ++ (Piece.plain operator.symbol :: (b ++ [.plain '-'])) ++ r).splitOn (.plain '-') := by
      rw [hassoc, List.splitOn_append_cons_self]
      exact List.mem_append_left _ hmem
    obtain ⟨inverted, hoperand⟩ := mem_invertedPieces_of_mem hpiece
    have hfails : Fails vocabulary (l' ++ .plain operator.symbol :: b) :=
      fails_dangling hneeds hb l'
    exact fails_of_operand hop (mem_dropBlank hoperand (allBlank_append_cons l' b)) hfails

/-! ### Groups between operators -/

/-- Whether an outline is blank or ends with an operator and blanks. -/
def Opens (l : Outline) : Prop :=
  l.allBlank = true ∨ ∃ (l' : Outline) (operator : Operator) (b : Outline),
    l = l' ++ .plain operator.symbol :: b ∧ b.allBlank = true

/-- Whether an outline is blank or begins with blanks and an operator. -/
def Closes (r : Outline) : Prop :=
  r.allBlank = true ∨ ∃ (b : Outline) (operator : Operator) (r' : Outline),
    r = b ++ .plain operator.symbol :: r' ∧ b.allBlank = true

theorem allBlank_of_sublist {o p : Outline} (hsub : List.Sublist o p) (h : p.allBlank = true) :
    o.allBlank = true := by
  rw [allBlank, List.all_eq_true] at h ⊢
  exact fun piece hpiece => h piece (hsub.mem hpiece)

/-- What is left of an opening when its front is taken away is an opening. -/
theorem Opens.back {l l' : Outline} (hsuf : l' <:+ l) (h : Opens l) : Opens l' := by
  rcases h with h | ⟨l₁, operator, b, rfl, hb⟩
  · exact Or.inl (allBlank_of_sublist hsuf.sublist h)
  obtain ⟨front, hfront⟩ := hsuf
  rcases List.append_eq_append_iff.mp hfront with ⟨a, rfl, rfl⟩ | ⟨c, rfl, hback⟩
  · exact Or.inr ⟨a, operator, b, rfl, hb⟩
  rcases List.cons_eq_append_iff.mp hback with ⟨rfl, rfl⟩ | ⟨d, rfl, rfl⟩
  · exact Or.inr ⟨[], operator, b, rfl, hb⟩
  · exact Or.inl (allBlank_of_sublist (List.sublist_append_right _ _) hb)

/-- What is left of a closing when its end is taken away is a closing. -/
theorem Closes.front {r r' : Outline} (hpre : r' <+: r) (h : Closes r) : Closes r' := by
  rcases h with h | ⟨b, operator, r₁, rfl, hb⟩
  · exact Or.inl (allBlank_of_sublist hpre.sublist h)
  obtain ⟨back, hback⟩ := hpre
  rcases List.append_eq_append_iff.mp hback with ⟨a, rfl, -⟩ | ⟨c, rfl, hrest⟩
  · exact Or.inl (allBlank_of_sublist (List.sublist_append_left _ _) hb)
  rcases List.cons_eq_append_iff.mp hrest with ⟨rfl, rfl⟩ | ⟨d, rfl, rfl⟩
  · rw [List.append_nil]
    exact Or.inl hb
  · exact Or.inr ⟨b, operator, d, rfl, hb⟩

/-- A group between operators fails if its text does. -/
theorem fails_group {inner : Outline} (htidy : Tidy inner) (h : Fails vocabulary inner)
    {l r : Outline} (hl : Opens l) (hr : Closes r) :
    Fails vocabulary (l ++ [.group inner.text] ++ r) := by
  induction hlen : l.length + r.length using Nat.strong_induction_on generalizing l r with
  | h n ih =>
    cases hop : loosestIn? (l ++ [.group inner.text] ++ r) with
    | none =>
      have hnone := notMem_of_loosestIn?_eq_none hop
      -- there is nothing but blanks around the group
      have hblank : l.allBlank = true := by
        refine hl.resolve_right ?_
        rintro ⟨l', operator, b, rfl, -⟩
        exact hnone operator (by simp)
      have hblank' : r.allBlank = true := by
        refine hr.resolve_right ?_
        rintro ⟨b, operator, r', rfl, -⟩
        exact hnone operator (by simp)
      have hgroup : Fails vocabulary [.group inner.text] := by
        unfold Fails at h ⊢
        rwa [read_group htidy]
      refine hgroup.congr ?_
      rw [trim_append_right hblank', trim_append_left hblank]
    | some operator =>
      exact fails_of_shorter hop (by simp) rfl fun l' r' hl' hr' hlt =>
        ih _ (hlen ▸ hlt) (hl.back hl') (hr.front hr') rfl

/-! ### Faulty parts -/

/-- Whether every outline fails in which this one stands between operators. -/
def Faulty (vocabulary : Vocabulary α) (o : Outline) : Prop :=
  ∀ l r : Outline, Opens l → Closes r → Fails vocabulary (l ++ o ++ r)

namespace Faulty

variable {o p : Outline}

theorem fails (h : Faulty vocabulary o) : Fails vocabulary o := by
  have hfails := h [] [] (Or.inl rfl) (Or.inl rfl)
  rwa [List.nil_append, List.append_nil] at hfails

/-- A fault in the last operand is a fault of the whole. -/
theorem append_left (h : Faulty vocabulary p) (operator : Operator) (o : Outline) :
    Faulty vocabulary (o ++ .plain operator.symbol :: p) := by
  intro l r _ hr
  have hfails := h (l ++ o ++ [.plain operator.symbol]) r
    (Or.inr ⟨l ++ o, operator, [], rfl, rfl⟩) hr
  simpa using hfails

/-- A fault in front of an operator is a fault of the whole. -/
theorem append_right (h : Faulty vocabulary o) (operator : Operator) (p : Outline) :
    Faulty vocabulary (o ++ .plain operator.symbol :: p) := by
  intro l r hl _
  have hfails := h l (.plain operator.symbol :: (p ++ r)) hl
    (Or.inr ⟨[], operator, p ++ r, rfl, rfl⟩)
  simpa using hfails

/-- A sign behind an operator that needs an operand is a fault: the text is split at the sign first,
and the operator is left dangling. -/
theorem sign {operator : Operator} (hneeds : NeedsOperand operator) {b : Outline}
    (hb : b.allBlank = true) (o p : Outline) :
    Faulty vocabulary (o ++ .plain operator.symbol :: (b ++ .plain '-' :: p)) := by
  intro l r _ _
  have hfails : Fails vocabulary
      (l ++ o ++ (.plain operator.symbol :: (b ++ [.plain '-'])) ++ (p ++ r)) :=
    fails_sign hneeds hb (l ++ o) (p ++ r)
  simpa using hfails

/-- A group with a fault inside is at fault, and blanks around it do not help. -/
theorem group (htidy : Tidy o) (h : Fails vocabulary o) {b b' : Outline} (hb : b.allBlank = true)
    (hb' : b'.allBlank = true) : Faulty vocabulary (b ++ .group o.text :: b') := by
  intro l r hl hr
  have hopens : Opens (l ++ b) := by
    rcases hl with hl | ⟨l', operator, b₁, rfl, hb₁⟩
    · exact Or.inl (by simp [allBlank_append, hl, hb])
    · exact Or.inr ⟨l', operator, b₁ ++ b, by simp, by simp [allBlank_append, hb₁, hb]⟩
  have hcloses : Closes (b' ++ r) := by
    rcases hr with hr | ⟨b₁, operator, r', rfl, hb₁⟩
    · exact Or.inl (by simp [allBlank_append, hr, hb'])
    · exact Or.inr ⟨b' ++ b₁, operator, r', by simp, by simp [allBlank_append, hb₁, hb']⟩
  have hfails := fails_group htidy h hopens hcloses
  simpa using hfails

end Faulty

end Formula.Outline
