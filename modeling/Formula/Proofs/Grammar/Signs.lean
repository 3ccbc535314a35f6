import Formula.Proofs.Grammar.Rational
import Formula.Proofs.Outline.Faults
import Formula.Proofs.Outline.Yields

/-!
# Signs in front of operands

The grammar of arithmetic with a `-` allowed in front of any operand, as in `2*-3`. Such a sign
negates the power that follows it.

The parser knows no sign as such. It splits at a `-` before it splits at `*`, `/` and `^`, and at a
`-` and `/` it passes over blank operands. So a sign behind `*` or `^` is a fault
(`Outline.Faulty.sign`), a sign at the beginning, behind `+` and behind a bracket has the
conventional meaning (`parse_value_signed`), but `1--2` is read as `1-2` and `2/ -3` as `2-3`.
-/

namespace Formula

open Outline (Part Chain Tidy Faulty)

/-! ### Derivations -/

/-- The layers of the grammar, from the loosest to the tightest. -/
inductive SignedLayer where
  /-- Terms joined by `+` and `-`. -/
  | expression
  /-- Factors joined by `*` and `/`. -/
  | term
  /-- A power, with signs in front. -/
  | factor
  /-- Atoms joined by `^` from left to right. -/
  | power
  /-- A number or a group. -/
  | atom
  deriving DecidableEq, Repr

variable {α : Type} [Arithmetic α] [Numeral α]

/-- Derivations of a text at a layer, with its value. A sign may stand in front of every operand:
of a term, of a factor and behind `^`. -/
inductive DenotesSigned : SignedLayer → Fragment → α → Prop where
  | whole {b b' digits : Fragment} (hb : b.allBlank = true) (hb' : b'.allBlank = true)
    (hdigits : ∀ c ∈ digits, c.isDigit = true) (hne : digits ≠ []) :
    DenotesSigned .atom (b ++ digits ++ b') (Numeral.ofDecimal ⟨Nat.ofDigitChars 10 digits 0, 0⟩)
  | decimal {b b' whole fraction : Fragment} (hb : b.allBlank = true) (hb' : b'.allBlank = true)
    (hdigits : ∀ c ∈ whole ++ fraction, c.isDigit = true) (hne : whole ++ fraction ≠ []) :
    DenotesSigned .atom (b ++ (whole ++ '.' :: fraction) ++ b')
      (Numeral.ofDecimal ⟨Nat.ofDigitChars 10 (whole ++ fraction) 0, -fraction.length⟩)
  | group {b b' s : Fragment} {x : α} (hb : b.allBlank = true) (hb' : b'.allBlank = true)
    (h : DenotesSigned .expression s x) : DenotesSigned .atom (b ++ '(' :: (s ++ [')']) ++ b') x
  | ofAtom {s : Fragment} {x : α} (h : DenotesSigned .atom s x) : DenotesSigned .power s x
  | raise {s t : Fragment} {x y : α} (hs : DenotesSigned .power s x)
    (ht : DenotesSigned .atom t y) : DenotesSigned .power (s ++ '^' :: t) (Arithmetic.power x y)
  | ofPower {s : Fragment} {x : α} (h : DenotesSigned .power s x) : DenotesSigned .factor s x
  | negate {b s : Fragment} {x : α} (hb : b.allBlank = true) (h : DenotesSigned .factor s x) :
    DenotesSigned .factor (b ++ '-' :: s) (-x)
  | raiseNegated {b s t : Fragment} {x y : α} (hb : b.allBlank = true)
    (hs : DenotesSigned .power s x) (ht : DenotesSigned .factor t y) :
    DenotesSigned .factor (s ++ '^' :: (b ++ '-' :: t)) (Arithmetic.power x (-y))
  | ofFactor {s : Fragment} {x : α} (h : DenotesSigned .factor s x) : DenotesSigned .term s x
  | multiply {s t : Fragment} {x y : α} (hs : DenotesSigned .term s x)
    (ht : DenotesSigned .factor t y) : DenotesSigned .term (s ++ '*' :: t) (x * y)
  | divide {s t : Fragment} {x y : α} (hs : DenotesSigned .term s x)
    (ht : DenotesSigned .factor t y) :
    DenotesSigned .term (s ++ '/' :: t) (x * Arithmetic.reciprocal y)
  | ofTerm {s : Fragment} {x : α} (h : DenotesSigned .term s x) : DenotesSigned .expression s x
  | add {s t : Fragment} {x y : α} (hs : DenotesSigned .expression s x)
    (ht : DenotesSigned .term t y) : DenotesSigned .expression (s ++ '+' :: t) (x + y)
  | subtract {s t : Fragment} {x y : α} (hs : DenotesSigned .expression s x)
    (ht : DenotesSigned .term t y) : DenotesSigned .expression (s ++ '-' :: t) (x + -y)

/-- Whether no `-` stands behind a `-` or `/`, with blanks between them or without. -/
def SignsApart (s : Fragment) : Prop :=
  (s.filter fun c => !Text.isBlank c).IsChain fun c d => ¬((c = '-' ∨ c = '/') ∧ d = '-')

instance : DecidablePred SignsApart := fun s =>
  inferInstanceAs (Decidable (List.IsChain _ (s.filter fun c => !Text.isBlank c)))

theorem SignsApart.mono {s t : Fragment} (hst : s <:+: t) (h : SignsApart t) : SignsApart s :=
  List.IsChain.infix h (hst.filter _)

theorem SignsApart.left {s t : Fragment} {c : Char} (h : SignsApart (s ++ c :: t)) :
    SignsApart s := h.mono ⟨[], c :: t, by simp⟩

theorem SignsApart.right {s t : Fragment} {c : Char} (h : SignsApart (s ++ c :: t)) :
    SignsApart t := h.mono ⟨s ++ [c], [], by simp⟩

/-! ### Reading -/

variable {vocabulary : Vocabulary α}

/-- Outlines of which some are read with a value, with or without a sign in front. -/
inductive WithSign (reads : Outline → Meaning α → Prop) : Outline → α → Prop where
  | plain {o : Outline} {x : α} (h : reads o fun _ => x) : WithSign reads o x
  | negated {b o : Outline} {x : α} (hb : b.allBlank = true) (h : reads o fun _ => x) :
    WithSign reads (b ++ .plain '-' :: o) (-x)

/-- How the outline of a text at a layer is read. -/
def SignedLayer.Reads (vocabulary : Vocabulary α) : SignedLayer → Outline → α → Prop
  | .expression => fun o x => Chain vocabulary [.list] .add .subtract o fun _ => x
  | .term => WithSign (Chain vocabulary [.list, .add, .subtract] .multiply .divide)
  | .factor => WithSign (Part vocabulary Layer.power.looser)
  | .power => fun o x => Part vocabulary Layer.power.looser o fun _ => x
  | .atom => fun o x => Part vocabulary Layer.atom.looser o fun _ => x

/-- A text with a sign in front does not stand behind a `-` or `/`, where signs are apart. -/
theorem SignsApart.notMem_sign {mark : Char} (hmark : mark = '-' ∨ mark = '/') {s : Fragment}
    {b p : Outline} (hb : b.allBlank = true)
    (h : SignsApart (s ++ mark :: Outline.text (b ++ .plain '-' :: p))) : False := by
  have hblank : b.text.filter (fun c => !Text.isBlank c) = [] := by
    rw [← Outline.allBlank_text, Fragment.allBlank, List.all_eq_true] at hb
    rw [List.filter_eq_nil_iff]
    intro c hc
    simp [hb c hc]
  have hsolid : Text.isBlank mark = false := by rcases hmark with rfl | rfl <;> decide
  have hminus : Text.isBlank '-' = false := by decide
  -- without the blanks, the sign stands directly behind the mark
  have hfilter : (mark :: (b.text ++ '-' :: p.text)).filter (fun c => !Text.isBlank c) =
      mark :: '-' :: p.text.filter fun c => !Text.isBlank c := by
    simp [hblank, hsolid, hminus]
  have hchain : SignsApart (mark :: Outline.text (b ++ .plain '-' :: p)) :=
    h.mono ⟨s, [], by simp⟩
  rw [SignsApart, Outline.text_append_cons, hfilter, List.isChain_cons_cons] at hchain
  exact hchain.1 ⟨hmark, rfl⟩

/-- A text at a layer has a tidy outline that is faulty or read at this layer. -/
def HasOutline (vocabulary : Vocabulary α) (layer : SignedLayer) (s : Fragment) (x : α) : Prop :=
  ∃ o : Outline, o.text = s ∧ Tidy o ∧ (Faulty vocabulary o ∨ layer.Reads vocabulary o x)

theorem HasOutline.of_reads {layer layer' : SignedLayer} {s : Fragment} {x : α}
    (h : HasOutline vocabulary layer s x)
    (hreads : ∀ o, layer.Reads vocabulary o x → layer'.Reads vocabulary o x) :
    HasOutline vocabulary layer' s x := by
  obtain ⟨o, htext, htidy, ho⟩ := h
  exact ⟨o, htext, htidy, ho.imp_right (hreads o)⟩

/-- Two texts with an operator between them, of which both are read. -/
theorem HasOutline.joined {layer layer₁ layer₂ : SignedLayer} (operator : Operator)
    {s t : Fragment} {x y z : α} (hs : HasOutline vocabulary layer₁ s x)
    (ht : HasOutline vocabulary layer₂ t y)
    (h : ∀ o p : Outline, o.text = s → p.text = t → layer₁.Reads vocabulary o x →
      layer₂.Reads vocabulary p y →
      Faulty vocabulary (o ++ .plain operator.symbol :: p) ∨
        layer.Reads vocabulary (o ++ .plain operator.symbol :: p) z) :
    HasOutline vocabulary layer (s ++ operator.symbol :: t) z := by
  obtain ⟨o, rfl, htidy, ho⟩ := hs
  obtain ⟨p, rfl, htidy', hp⟩ := ht
  apply exists_joined operator htidy htidy'
  rcases ho with ho | ho
  · exact Or.inl (ho.append_right operator p)
  rcases hp with hp | hp
  · exact Or.inl (hp.append_left operator o)
  · exact h o p rfl rfl ho hp

/-- An atom of the grammar without signs is an atom of the grammar with signs. -/
theorem hasOutline_atom {b b' : Fragment} {core : Fragment} {x : α}
    (h : ∃ o, Outline.text o = b ++ core ++ b' ∧ Tidy o ∧
      Layer.atom.Reads vocabulary o fun _ => x) :
    HasOutline vocabulary .atom (b ++ core ++ b') x := by
  obtain ⟨o, htext, htidy, hpart⟩ := h
  exact ⟨o, htext, htidy, Or.inr hpart⟩

/-- Brackets make an atom of an expression, whether it is at fault or not. -/
theorem hasOutline_group {b b' s : Fragment} (hb : b.allBlank = true) (hb' : b'.allBlank = true)
    {x : α} (h : HasOutline vocabulary .expression s x) :
    HasOutline vocabulary .atom (b ++ '(' :: (s ++ [')']) ++ b') x := by
  obtain ⟨o, rfl, htidy, ho⟩ := h
  rcases ho with ho | ho
  · refine ⟨b.map .plain ++ .group o.text :: b'.map .plain, ?_, ?_, Or.inl ?_⟩
    · simp [Outline.text_map_plain, Piece.text]
    · exact Outline.tidy_append.mpr ⟨tidy_blank hb, Outline.tidy_cons.mpr
        ⟨⟨htidy.balanced, htidy.amp_notMem⟩, tidy_blank hb'⟩⟩
    · exact .group htidy ho.fails (Outline.allBlank_map_plain.trans hb)
        (Outline.allBlank_map_plain.trans hb')
  · have hpart : Part vocabulary [.list] o fun _ => x := Chain.part .sums ho
    have hgroup := Outline.means_group htidy hpart.means
    have hatom := exists_atom hb hb' htidy.group rfl (by simp) hgroup
    exact hasOutline_atom (by simpa [Piece.text] using hatom)

section Derivations

variable (hadd : ∀ x y z : α, x + y + z = x + (y + z))
  (hmul : ∀ x y z : α, x * y * z = x * (y * z)) (hneg : ∀ x y : α, -x * y = -(x * y))

/-- A sign in front of a factor. -/
theorem reads_negate {b o : Outline} (hb : b.allBlank = true) {s : Fragment} {x : α}
    (hapart : SignsApart (s ++ '-' :: o.text)) (h : SignedLayer.factor.Reads vocabulary o x) :
    SignedLayer.factor.Reads vocabulary (b ++ .plain '-' :: o) (-x) := by
  cases h with
  | plain h => exact .negated hb h
  | negated hb' _ => exact absurd hapart fun hapart => hapart.notMem_sign (by simp) hb'

include hneg in
/-- A product with a factor that has a sign is at fault, and with another one it is read. -/
theorem reads_multiply {o p : Outline} {x y : α} (ho : SignedLayer.term.Reads vocabulary o x)
    (hp : SignedLayer.factor.Reads vocabulary p y) :
    Faulty vocabulary (o ++ .plain '*' :: p) ∨
      SignedLayer.term.Reads vocabulary (o ++ .plain '*' :: p) (x * y) := by
  cases hp with
  | negated hb _ => exact Or.inl (.sign (Or.inl rfl) hb o _)
  | plain hp =>
    right
    have hpart : Part vocabulary [.list, .add, .subtract, .multiply, .divide] p fun _ => y :=
      hp.mono (by decide)
    cases ho with
    | plain ho => exact .plain (Chain.join ho (.part hpart))
    | @negated b o x hb ho =>
      -- the sign stands in front of the product
      rw [hneg, List.append_assoc]
      exact .negated hb (Chain.join ho (.part hpart))

include hmul hneg in
/-- A factor behind a slash has no sign, so that a quotient is read whatever it is. -/
theorem reads_divide {o p : Outline} {s : Fragment} {x y : α}
    (hapart : SignsApart (s ++ '/' :: p.text)) (ho : SignedLayer.term.Reads vocabulary o x)
    (hp : SignedLayer.factor.Reads vocabulary p y) :
    SignedLayer.term.Reads vocabulary (o ++ .plain '/' :: p) (x * Arithmetic.reciprocal y) := by
  cases hp with
  | negated hb _ => exact absurd hapart fun hapart => hapart.notMem_sign (by simp) hb
  | plain hp =>
    have hpart : Part vocabulary [.list, .add, .subtract, .multiply, .divide] p fun _ => y :=
      hp.mono (by decide)
    cases ho with
    | plain ho => exact .plain (Chain.grow .products hmul ho hpart)
    | @negated b o x hb ho =>
      rw [hneg, List.append_assoc]
      exact .negated hb (Chain.grow .products hmul ho hpart)

theorem reads_add {o p : Outline} {x y : α} (ho : SignedLayer.expression.Reads vocabulary o x)
    (hp : SignedLayer.term.Reads vocabulary p y) :
    SignedLayer.expression.Reads vocabulary (o ++ .plain '+' :: p) (x + y) := by
  cases hp with
  | plain hp => exact Chain.join ho (.part (hp.part .products))
  | negated hb hp => exact Chain.join ho (.leading hb (hp.part .products))

include hadd in
/-- A term behind a minus has no sign in front. -/
theorem reads_subtract {o p : Outline} {s : Fragment} {x y : α}
    (hapart : SignsApart (s ++ '-' :: p.text))
    (ho : SignedLayer.expression.Reads vocabulary o x)
    (hp : SignedLayer.term.Reads vocabulary p y) :
    SignedLayer.expression.Reads vocabulary (o ++ .plain '-' :: p) (x + -y) := by
  cases hp with
  | plain hp => exact Chain.grow .sums hadd ho (hp.part .products)
  | negated hb _ => exact absurd hapart fun hapart => hapart.notMem_sign (by simp) hb

theorem reads_ofTerm {o : Outline} {x : α} (h : SignedLayer.term.Reads vocabulary o x) :
    SignedLayer.expression.Reads vocabulary o x := by
  cases h with
  | plain h => exact .signed (.part (h.part .products))
  | negated hb h => exact .signed (.leading hb (h.part .products))

theorem reads_ofFactor {o : Outline} {x : α} (h : SignedLayer.factor.Reads vocabulary o x) :
    SignedLayer.term.Reads vocabulary o x := by
  cases h with
  | plain h => exact .plain (.signed (.part (h.mono (by decide))))
  | negated hb h => exact .negated hb (.signed (.part (h.mono (by decide))))

include hadd hmul hneg in
/-- What the grammar derives has an outline, if its signs are apart. -/
theorem hasOutline (hdistinct : vocabulary.Distinct) {layer : SignedLayer} {s : Fragment} {x : α}
    (h : DenotesSigned layer s x) (hapart : SignsApart s) : HasOutline vocabulary layer s x := by
  induction h with
  | whole hb hb' hdigits hne => exact hasOutline_atom (exists_whole hdistinct hb hb' hdigits hne)
  | decimal hb hb' hdigits hne =>
    exact hasOutline_atom (exists_decimal hdistinct hb hb' hdigits hne)
  | @group b b' s x hb hb' _ ih =>
    exact hasOutline_group hb hb' (ih (hapart.mono ⟨b ++ ['('], ')' :: b', by simp⟩))
  | ofAtom _ ih => exact (ih hapart).of_reads fun o h => h.mono (by decide)
  | @raise s t x y _ _ ihs iht =>
    refine (ihs hapart.left).joined .raise
      (iht hapart.right) fun o p _ _ ho hp => Or.inr ?_
    have hcut := Text.lastCut?_append (hp.lacks .raise (by decide)) o
    have htakes : Operator.raise.Takes 2 := rfl
    exact Part.pair rfl (by decide) htakes (by rw [Outline.operands, hcut]; rfl) ho
      (hp.mono (by decide))
  | ofPower _ ih => exact (ih hapart).of_reads fun o h => .plain h
  | @negate b s x hb _ ih =>
    obtain ⟨o, rfl, htidy, ho⟩ := ih hapart.right
    rw [← Outline.text_map_plain b]
    refine exists_joined .subtract (tidy_blank hb) htidy ?_
    rcases ho with ho | ho
    -- a fault behind the sign stays a fault
    · exact Or.inl (ho.append_left .subtract _)
    · exact Or.inr (reads_negate (Outline.allBlank_map_plain.trans hb) hapart ho)
  | @raiseNegated b s t x y hb _ _ ihs iht =>
    obtain ⟨o, rfl, htidy, -⟩ := ihs hapart.left
    obtain ⟨p, rfl, htidy', -⟩ := iht hapart.right.right
    rw [← Outline.text_map_plain b, ← Outline.text_append_cons]
    have htidy'' : Tidy (b.map .plain ++ .plain '-' :: p) :=
      Outline.tidy_append.mpr ⟨tidy_blank hb, Outline.tidy_cons.mpr
        ⟨Outline.tidy_plain_symbol .subtract, htidy'⟩⟩
    -- a sign behind `^` leaves the `^` without its right operand
    exact exists_joined .raise htidy htidy''
      (Or.inl (.sign (Or.inr rfl) (Outline.allBlank_map_plain.trans hb) o p))
  | ofFactor _ ih => exact (ih hapart).of_reads fun o => reads_ofFactor
  | @multiply s t x y _ _ ihs iht =>
    exact (ihs hapart.left).joined .multiply
      (iht hapart.right) fun o p _ _ ho hp =>
        reads_multiply hneg ho hp
  | @divide s t x y _ _ ihs iht =>
    refine (ihs hapart.left).joined .divide
      (iht hapart.right) fun o p _ hp' ho hp => Or.inr ?_
    rw [← hp'] at hapart
    exact reads_divide hmul hneg hapart ho hp
  | ofTerm _ ih => exact (ih hapart).of_reads fun o => reads_ofTerm
  | @add s t x y _ _ ihs iht =>
    exact (ihs hapart.left).joined .add
      (iht hapart.right) fun o p _ _ ho hp => Or.inr (reads_add ho hp)
  | @subtract s t x y _ _ ihs iht =>
    refine (ihs hapart.left).joined .subtract
      (iht hapart.right) fun o p _ hp' ho hp => Or.inr ?_
    rw [← hp'] at hapart
    exact reads_subtract hadd hapart ho hp

end Derivations

/-! ### Rational numbers -/

/-- Behind a `-` and a `/` a sign is taken for an operator, and the blank operand in front of it is
passed over. -/
theorem parse_signs (hdistinct : vocabulary.Distinct) :
    let number : Nat → Tree α := fun n => .scalar (Numeral.ofDecimal ⟨n, 0⟩)
    Parser.parse vocabulary "1--2" = .ok (.sum [number 1, .negate (number 2)], .empty) ∧
      Parser.parse vocabulary "2/-3" =
        .ok (.sum [.product [number 2], .negate (number 3)], .empty) := by
  intro number
  have hdigit : ∀ c : Char, c.isDigit = true → Outline.Yields vocabulary [.plain c]
      (.scalar (Numeral.ofDecimal ⟨Nat.ofDigitChars 10 [c] 0, 0⟩)) := fun c hc =>
    (Outline.Atomic.whole hdistinct [c] (List.forall_mem_singleton.mpr hc)
      (List.cons_ne_nil c [])).yields
  have hone : Outline.Yields vocabulary [.plain '1'] (number 1) := hdigit '1' rfl
  have htwo : Outline.Yields vocabulary [.plain '2'] (number 2) := hdigit '2' rfl
  have hthree : Outline.Yields vocabulary [.plain '3'] (number 3) := hdigit '3' rfl
  constructor
  -- the blank piece between the signs is dropped
  · have hop : Outline.loosestIn? [.plain '1', .plain '-', .plain '-', .plain '2'] =
        some .subtract := by decide
    have hyields : Outline.Yields vocabulary [.plain '1', .plain '-', .plain '-', .plain '2']
        (.sum [number 1, .negate (number 2)]) :=
      Outline.yields_of_operands hop (.cons hone (.cons htwo .nil)) rfl
    exact parse_eq_ok_of_read hdistinct
      (Outline.tidy_map_plain (s := ['1', '-', '-', '2']).mpr (by simp)) rfl (hyields .empty)
  -- the text is split at the sign, and nothing is left behind the slash
  · have hop : Outline.loosestIn? [.plain '2', .plain '/'] = some .divide := by decide
    have hquotient : Outline.Yields vocabulary [.plain '2', .plain '/'] (.product [number 2]) :=
      Outline.yields_of_operands hop (.cons htwo .nil) rfl
    have hop' : Outline.loosestIn? [.plain '2', .plain '/', .plain '-', .plain '3'] =
        some .subtract := by decide
    have hyields : Outline.Yields vocabulary [.plain '2', .plain '/', .plain '-', .plain '3']
        (.sum [.product [number 2], .negate (number 3)]) :=
      Outline.yields_of_operands hop' (.cons hquotient (.cons hthree .nil)) rfl
    exact parse_eq_ok_of_read hdistinct
      (Outline.tidy_map_plain (s := ['2', '/', '-', '3']).mpr (by simp)) rfl (hyields .empty)

section Rational

variable [RationalOperations] [Numeral ℚ]

/-- An expression over the rational numbers with signs in front of its operands, none of which
stands behind a `-` or `/`, is not misread: either reading it fails, or its tree has the
conventional value. -/
theorem parse_value_signed {vocabulary : Vocabulary ℚ} (hdistinct : vocabulary.Distinct)
    {text : String} {x : ℚ} (h : DenotesSigned .expression text.toList x)
    (hapart : SignsApart text.toList) :
    ((∃ error, Parser.parse vocabulary text = .error error ∧ error ≠ .endlessExpansion) ∨
      ∃ tree vars, Parser.parse vocabulary text = .ok (tree, vars) ∧ tree.value vars = x) ∧
    ∀ sample, (Vocabulary.standard sample).Distinct := by
  refine ⟨?_, Vocabulary.distinct_standard⟩
  obtain ⟨o, htext, htidy, ho⟩ := hasOutline add_assoc mul_assoc neg_mul hdistinct h hapart
  rcases ho with ho | ho
  · obtain ⟨error, herror⟩ := ho.fails .empty
    exact Or.inl (parse_eq_error_of_read hdistinct htidy htext herror)
  · have hpart : Part vocabulary [.list] o fun _ => x := Chain.part .sums ho
    obtain ⟨tree, vars, hread, -, -, hvalue⟩ := hpart.means .empty
    exact Or.inr ⟨tree, vars, parse_eq_ok_of_read hdistinct htidy htext hread,
      hvalue vars (.refl vars)⟩

end Rational

theorem ofDecimal_rational (n : Nat) : (Numeral.ofDecimal ⟨n, 0⟩ : ℚ) = n := by
  show (n : ℚ) * 10 ^ (0 : ℤ) = n
  rw [zpow_zero, mul_one]

theorem denotesSigned_digit {c : Char} (hc : c.isDigit = true) {n : Nat}
    (hn : Nat.ofDigitChars 10 [c] 0 = n) : DenotesSigned .atom [c] (n : ℚ) := by
  rw [← ofDecimal_rational, ← hn]
  exact @DenotesSigned.whole _ _ _ [] [] [c] rfl rfl (List.forall_mem_singleton.mpr hc)
    (List.cons_ne_nil c [])

/-- The signs stand behind `+` and behind a bracket. -/
theorem parse_value_signed_sum :
    Vocabulary.rational.Distinct ∧ SignsApart "2+-3*(-1)^2".toList ∧
      DenotesSigned .expression "2+-3*(-1)^2".toList (-1 : ℚ) ∧
      ((∃ error, Parser.parse Vocabulary.rational "2+-3*(-1)^2" = .error error ∧
          error ≠ .endlessExpansion) ∨
        ∃ tree vars, Parser.parse Vocabulary.rational "2+-3*(-1)^2" = .ok (tree, vars) ∧
          tree.value vars = -1) ∧
      ∀ sample, (Vocabulary.standard sample).Distinct := by
  have hdistinct := Vocabulary.distinct_rational
  have hapart : SignsApart "2+-3*(-1)^2".toList := by decide
  have hone : DenotesSigned .atom ['1'] ((1 : ℕ) : ℚ) := denotesSigned_digit rfl rfl
  have htwo : DenotesSigned .atom ['2'] ((2 : ℕ) : ℚ) := denotesSigned_digit rfl rfl
  have hthree : DenotesSigned .atom ['3'] ((3 : ℕ) : ℚ) := denotesSigned_digit rfl rfl
  have hgroup : DenotesSigned .atom "(-1)".toList (-((1 : ℕ) : ℚ)) :=
    @DenotesSigned.group _ _ _ [] [] ['-', '1'] _ rfl rfl
      (.ofTerm (.ofFactor (@DenotesSigned.negate _ _ _ [] _ _ rfl (.ofPower (.ofAtom hone)))))
  have hpower := DenotesSigned.raise (.ofAtom hgroup) htwo
  have hsign : DenotesSigned .factor ['-', '3'] (-((3 : ℕ) : ℚ)) :=
    @DenotesSigned.negate _ _ _ [] _ _ rfl (.ofPower (.ofAtom hthree))
  have hproduct := DenotesSigned.multiply (.ofFactor hsign) (.ofPower hpower)
  have hsum := DenotesSigned.add (.ofTerm (.ofFactor (.ofPower (.ofAtom htwo)))) hproduct
  have hvalue : ((2 : ℕ) : ℚ) + -((3 : ℕ) : ℚ) *
      Arithmetic.power (-((1 : ℕ) : ℚ)) ((2 : ℕ) : ℚ) = -1 := by
    show ((2 : ℕ) : ℚ) + -((3 : ℕ) : ℚ) * (-((1 : ℕ) : ℚ)) ^ ((2 : ℕ) : ℚ).num = -1
    rw [Rat.num_natCast]
    norm_num
  rw [hvalue] at hsum
  exact ⟨hdistinct, hapart, hsum, parse_value_signed hdistinct hsum hapart⟩

/-- Signs behind a sign and behind a slash are misread, with the standard names and whatever they
stand for: `1--2` is read like `1-2`, and a quotient with a sign behind its slash like a difference.
The trees do not depend on what a number is. -/
theorem parse_value_signed_misread :
    DenotesSigned .expression "1--2".toList (3 : ℚ) ∧
    DenotesSigned .expression "2/-3".toList (-2 / 3 : ℚ) ∧
    (∀ (constant : String → ℚ) (function : String → List ℚ → ℚ),
      let vocabulary := Vocabulary.standardNamed constant function
      (¬∀ (text : String) (x : ℚ), DenotesSigned .expression text.toList x →
        (∃ error, Parser.parse vocabulary text = .error error) ∨
          ∃ tree vars, Parser.parse vocabulary text = .ok (tree, vars) ∧ tree.value vars = x) ∧
      (∃ tree vars, Parser.parse vocabulary "1--2" = .ok (tree, vars) ∧ tree.value vars = -1) ∧
      ∃ tree vars, Parser.parse vocabulary "2/-3" = .ok (tree, vars) ∧ tree.value vars = -1) ∧
    Parser.parse (Vocabulary.standard 0.5) "1--2" =
      .ok (.sum [.scalar 1, .negate (.scalar 2)], .empty) ∧
    Parser.parse (Vocabulary.standard 0.5) "2/-3" =
      .ok (.sum [.product [.scalar 2], .negate (.scalar 3)], .empty) := by
  have hone : DenotesSigned .power ['1'] ((1 : ℕ) : ℚ) := .ofAtom (denotesSigned_digit rfl rfl)
  have htwo : DenotesSigned .power ['2'] ((2 : ℕ) : ℚ) := .ofAtom (denotesSigned_digit rfl rfl)
  have hthree : DenotesSigned .power ['3'] ((3 : ℕ) : ℚ) := .ofAtom (denotesSigned_digit rfl rfl)
  have hsign : ∀ {c : Char} {x : ℚ}, DenotesSigned .power [c] x →
      DenotesSigned .factor ['-', c] (-x) := fun h =>
    @DenotesSigned.negate _ _ _ [] _ _ rfl (.ofPower h)
  have hminus : DenotesSigned .expression "1--2".toList (3 : ℚ) := by
    have h := DenotesSigned.subtract (.ofTerm (.ofFactor (.ofPower hone))) (.ofFactor (hsign htwo))
    have hvalue : ((1 : ℕ) : ℚ) + - -((2 : ℕ) : ℚ) = 3 := by norm_num
    rwa [hvalue] at h
  have hslash : DenotesSigned .expression "2/-3".toList (-2 / 3 : ℚ) := by
    have h := DenotesSigned.ofTerm (.divide (.ofFactor (.ofPower htwo)) (hsign hthree))
    have hvalue : ((2 : ℕ) : ℚ) * Arithmetic.reciprocal (-((3 : ℕ) : ℚ)) = -2 / 3 := by
      show ((2 : ℕ) : ℚ) * (-((3 : ℕ) : ℚ))⁻¹ = -2 / 3
      norm_num
    rwa [hvalue] at h
  obtain ⟨hfloat, hfloat'⟩ := parse_signs (Vocabulary.distinct_standard 0.5)
  refine ⟨hminus, hslash, fun constant function => ?_, hfloat, hfloat'⟩
  intro vocabulary
  obtain ⟨hdifference, hquotient⟩ :=
    parse_signs (Vocabulary.distinct_standardNamed constant function)
  -- the trees that are read have the values of `1-2` and `2-3`
  have hread : ∃ tree vars, Parser.parse vocabulary "1--2" = .ok (tree, vars) ∧
      tree.value vars = -1 := by
    refine ⟨_, _, hdifference, ?_⟩
    show (Numeral.ofDecimal ⟨1, 0⟩ : ℚ) + -Numeral.ofDecimal ⟨2, 0⟩ = -1
    rw [ofDecimal_rational, ofDecimal_rational]
    norm_num
  have hread' : ∃ tree vars, Parser.parse vocabulary "2/-3" = .ok (tree, vars) ∧
      tree.value vars = -1 := by
    refine ⟨_, _, hquotient, ?_⟩
    show (Numeral.ofDecimal ⟨2, 0⟩ : ℚ) + -Numeral.ofDecimal ⟨3, 0⟩ = -1
    rw [ofDecimal_rational, ofDecimal_rational]
    norm_num
  refine ⟨fun hall => ?_, hread, hread'⟩
  obtain ⟨tree, vars, hparse, hvalue⟩ := hread
  rcases hall "1--2" 3 hminus with ⟨error, herror⟩ | ⟨tree', vars', hparse', hvalue'⟩
  · rw [hparse] at herror
    exact nomatch herror
  · rw [hparse] at hparse'
    obtain ⟨rfl, rfl⟩ := Prod.mk.inj (Except.ok.inj hparse')
    rw [hvalue] at hvalue'
    norm_num at hvalue'

end Formula
