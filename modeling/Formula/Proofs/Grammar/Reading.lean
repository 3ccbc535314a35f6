import Formula.Proofs.Grammar.Names
import Formula.Proofs.Outline.Agreement
import Formula.Proofs.Outline.Atoms

/-!
# Expressions have their conventional value

Every text that the grammar derives is read, and its tree has the value of the derivation, if
addition and multiplication are associative (`parse_value`). The proof goes by induction on the
derivation. What is shown of a text at a layer is `Layer.Reads`: it has a tidy outline, which is a
chain of rows at the two layers of chains and a part of a row at the others.
-/

namespace Formula

open Outline (Means MeansAll Part Chain Tidy Level)

variable {α : Type} [Arithmetic α] [Numeral α] {vocabulary : Vocabulary α}

namespace Layer

/-- The operators that do not occur outside the groups of a text at a layer. -/
def looser : Layer → List Operator
  | .expression => [.list]
  | .term => [.list, .add, .subtract]
  | .remainder => [.list, .add, .subtract, .multiply, .divide]
  | .power => [.list, .add, .subtract, .multiply, .divide, .modulo]
  | .atom => Operator.loosestFirst

/-- How the outline of a text at a layer is read. -/
def Reads (vocabulary : Vocabulary α) : Layer → Outline → Meaning α → Prop
  | .expression => Chain vocabulary [.list] .add .subtract
  | .term => Chain vocabulary [.list, .add, .subtract] .multiply .divide
  | .remainder => Part vocabulary remainder.looser
  | .power => Part vocabulary power.looser
  | .atom => Part vocabulary atom.looser

end Layer

/-! ### Characters of words and numerals -/

/-- Whether a fragment has a character, and only letters, digits and points. -/
def IsToken (s : Fragment) : Prop := s ≠ [] ∧ ∀ c ∈ s, c.isAlphanum = true ∨ c = '.'

namespace IsToken

variable {s : Fragment}

theorem isBlank_eq_false (h : IsToken s) : ∀ c ∈ s, Text.isBlank c = false := by
  intro c hc
  rcases h.2 c hc with halnum | rfl
  · exact isBlank_of_isAlphanum halnum
  · decide

/-- A token has no other character than letters, digits and points. -/
theorem notMem (h : IsToken s) {c : Char} (halnum : c.isAlphanum = false) (hpoint : c ≠ '.') :
    c ∉ s := by
  intro hc
  rcases h.2 c hc with hc | hc
  · exact absurd hc (by simp [halnum])
  · exact hpoint hc

theorem symbol_notMem (h : IsToken s) (operator : Operator) : operator.symbol ∉ s :=
  h.notMem (by cases operator <;> rfl) (by cases operator <;> decide)

/-- There are no brackets and no placeholders in a token. -/
theorem tidy (h : IsToken s) : Tidy (s.map .plain) := by
  rw [Outline.tidy_map_plain]
  intro c hc
  have hne : ∀ d : Char, d.isAlphanum = false → d ≠ '.' → c ≠ d :=
    fun d halnum hpoint => ne_of_mem_of_not_mem hc (h.notMem halnum hpoint)
  exact ⟨hne _ rfl (by decide), hne _ rfl (by decide), hne _ rfl (by decide)⟩

theorem of_isWord (h : IsWord s) : IsToken s := ⟨h.ne_nil, fun _ hc => Or.inl (h.isAlphanum hc)⟩

end IsToken

theorem tidy_blank {b : Fragment} (hb : b.allBlank = true) : Tidy (b.map .plain) := by
  rw [Fragment.allBlank, List.all_eq_true] at hb
  rw [Outline.tidy_map_plain]
  intro c hc
  have hblank := hb c hc
  refine ⟨?_, ?_, ?_⟩ <;> rintro rfl <;> exact absurd hblank (by decide)

/-! ### Atoms with blanks around them -/

/-- Blanks around something that is read without operators make an atom of it. -/
theorem exists_atom {b b' : Fragment} (hb : b.allBlank = true) (hb' : b'.allBlank = true)
    {core : Outline} {f : Meaning α} (htidy : Tidy core) (hsolid : core.allBlank = false)
    (hop : ∀ operator : Operator, .plain operator.symbol ∉ core) (h : Means vocabulary core f) :
    ∃ o, o.text = b ++ core.text ++ b' ∧ Tidy o ∧ Layer.atom.Reads vocabulary o f := by
  have hblank := Outline.allBlank_map_plain.trans hb
  have hblank' := Outline.allBlank_map_plain.trans hb'
  refine ⟨b.map .plain ++ core ++ b'.map .plain, ?_, ?_, ?_, ?_, ?_⟩
  · simp [Outline.text_map_plain]
  · exact Outline.tidy_append.mpr
      ⟨Outline.tidy_append.mpr ⟨tidy_blank hb, htidy⟩, tidy_blank hb'⟩
  · simp [Outline.allBlank_append, hsolid]
  · intro operator _
    have hfront := Outline.notMem_of_allBlank hblank operator
    have hback := Outline.notMem_of_allBlank hblank' operator
    rw [List.mem_append, List.mem_append, not_or, not_or]
    exact ⟨⟨hfront, hop operator⟩, hback⟩
  · refine h.congr ?_
    rw [Outline.trim_append_right hblank', Outline.trim_append_left hblank]

/-- A token with blanks around it is an atom. -/
theorem exists_token {b b' s : Fragment} (hb : b.allBlank = true) (hb' : b'.allBlank = true)
    {f : Meaning α} (hs : IsToken s) (h : Means vocabulary (s.map .plain) f) :
    ∃ o, o.text = b ++ s ++ b' ∧ Tidy o ∧ Layer.atom.Reads vocabulary o f := by
  have hsolid : Outline.allBlank (s.map .plain) = false := by
    obtain ⟨c, rest, rfl⟩ := List.exists_cons_of_ne_nil hs.1
    simp [Outline.allBlank, Piece.isBlank, hs.isBlank_eq_false c List.mem_cons_self]
  have hatom := exists_atom hb hb' hs.tidy hsolid
    (fun operator => Outline.plain_notMem_map (hs.symbol_notMem operator)) h
  rwa [Outline.text_map_plain] at hatom

/-! ### Arguments -/

/-- Tidy outlines with a tidy separator between them are tidy together. -/
theorem tidy_intercalate {sep : Outline} (hsep : Tidy sep) {os : List Outline}
    (h : ∀ o ∈ os, Tidy o) : Tidy (sep.intercalate os) := by
  induction os with
  | nil => exact fun piece hpiece => absurd hpiece List.not_mem_nil
  | cons o os ih =>
    have ho := h o List.mem_cons_self
    have hrest := ih fun o' ho' => h o' (List.mem_cons_of_mem _ ho')
    cases os with
    | nil => simpa using ho
    | cons o' os =>
      rw [List.intercalate_cons_cons, Outline.tidy_append, Outline.tidy_append]
      exact ⟨⟨ho, hsep⟩, hrest⟩

theorem allBlank_intercalate (sep : Outline) {os : List Outline} (hne : os ≠ [])
    (h : ∀ o ∈ os, o.allBlank = false) : Outline.allBlank (sep.intercalate os) = false := by
  obtain ⟨o, os, rfl⟩ := List.exists_cons_of_ne_nil hne
  have ho := h o List.mem_cons_self
  cases os with
  | nil => simpa using ho
  | cons o' os => simp [List.intercalate_cons_cons, Outline.allBlank_append, ho]

/-- Outlines of the arguments of a call, in order. -/
theorem exists_outlines {args : List (Fragment × Meaning α)}
    (h : ∀ arg ∈ args, ∃ o, o.text = arg.1 ∧ Tidy o ∧
      Layer.expression.Reads vocabulary o arg.2) :
    ∃ os, os.map Outline.text = args.map Prod.fst ∧
      (∀ o ∈ os, Tidy o ∧ o.allBlank = false ∧ .plain ',' ∉ o) ∧
      List.Forall₂ (Means vocabulary) os (args.map Prod.snd) := by
  induction args with
  | nil => exact ⟨[], rfl, by simp, .nil⟩
  | cons arg args ih =>
    obtain ⟨o, htext, htidy, hchain⟩ := h arg List.mem_cons_self
    obtain ⟨os, htexts, hos, hmeans⟩ := ih fun arg' harg' => h arg' (List.mem_cons_of_mem _ harg')
    have hpart : Part vocabulary [.list] o arg.2 := hchain.part .sums
    refine ⟨o :: os, by simp [htext, htexts], ?_, .cons hpart.means hmeans⟩
    intro o' ho'
    rcases List.mem_cons.mp ho' with rfl | ho'
    · exact ⟨htidy, hpart.solid, hpart.lacks .list (by simp)⟩
    · exact hos o' ho'

/-! ### Atoms -/

section Atoms

variable (hdistinct : vocabulary.Distinct) {b b' : Fragment} (hb : b.allBlank = true)
  (hb' : b'.allBlank = true)
include hdistinct hb hb'

theorem exists_whole {digits : Fragment} (hdigits : ∀ c ∈ digits, c.isDigit = true)
    (hne : digits ≠ []) :
    ∃ o, o.text = b ++ digits ++ b' ∧ Tidy o ∧ Layer.atom.Reads vocabulary o fun _ =>
      Numeral.ofDecimal ⟨Nat.ofDigitChars 10 digits 0, 0⟩ := by
  obtain ⟨c, rest, rfl⟩ := List.exists_cons_of_ne_nil hne
  have htoken : IsToken (c :: rest) :=
    ⟨hne, fun d hd => Or.inl (isAlphanum_of_isDigit (hdigits d hd))⟩
  obtain ⟨hfun, hconst⟩ := hdistinct.recognises_nothing_of_isAlpha_eq_false (s := rest)
    (isAlpha_eq_false_of_isDigit (hdigits c List.mem_cons_self))
  refine exists_token hb hb' htoken (Outline.means_scalar htoken.isBlank_eq_false
    htoken.symbol_notMem hfun hconst ?_)
  rw [Parser.number?, Decimal.ofFragment?_whole hdigits hne]
  rfl

/-- A number with decimals is read as an atom, with blanks around it. -/
theorem exists_decimal {whole fraction : Fragment}
    (hdigits : ∀ c ∈ whole ++ fraction, c.isDigit = true) (hne : whole ++ fraction ≠ []) :
    ∃ o, o.text = b ++ (whole ++ '.' :: fraction) ++ b' ∧ Tidy o ∧
      Layer.atom.Reads vocabulary o fun _ =>
        Numeral.ofDecimal ⟨Nat.ofDigitChars 10 (whole ++ fraction) 0, -fraction.length⟩ := by
  have htoken : IsToken (whole ++ '.' :: fraction) := by
    refine ⟨by simp, ?_⟩
    intro c hc
    by_cases hpoint : c = '.'
    · exact Or.inr hpoint
    · have hdigit : c.isDigit = true := hdigits c (by simpa [hpoint] using hc)
      exact Or.inl (isAlphanum_of_isDigit hdigit)
  -- the numeral begins with a digit or with the point
  obtain ⟨hfun, hconst⟩ : vocabulary.functionAt? (whole ++ '.' :: fraction) = none ∧
      vocabulary.constantAt? (whole ++ '.' :: fraction) = none := by
    cases whole with
    | nil => exact hdistinct.recognises_nothing_of_isAlpha_eq_false (by decide)
    | cons c rest =>
      exact hdistinct.recognises_nothing_of_isAlpha_eq_false
        (isAlpha_eq_false_of_isDigit (hdigits c (by simp)))
  refine exists_token hb hb' htoken (Outline.means_scalar htoken.isBlank_eq_false
    htoken.symbol_notMem hfun hconst ?_)
  rw [Parser.number?, Decimal.ofFragment?_decimal hdigits hne]
  rfl

/-- The name of a constant is read as an atom, with blanks around it. -/
theorem exists_constant {name : String} {value : α}
    (hname : (name, value) ∈ vocabulary.constants.toList) :
    ∃ o, o.text = b ++ name.toList ++ b' ∧ Tidy o ∧
      Layer.atom.Reads vocabulary o fun _ => value := by
  have hmem : name ∈ vocabulary.constants.names := List.mem_map_of_mem (f := Prod.fst) hname
  have htoken := IsToken.of_isWord (hdistinct.word_of_constant hmem)
  obtain ⟨hfun, hconst⟩ := hdistinct.constantAt?_name hname
  exact exists_token hb hb' htoken (Outline.means_constant htoken.isBlank_eq_false
    htoken.symbol_notMem hfun hconst)

/-- A name that begins with no registered one is read as a variable. -/
theorem exists_identifier {name : Fragment} (hword : IsWord name)
    (hfree : ∀ other ∈ vocabulary.names, ¬other.toList <+: name) :
    ∃ o, o.text = b ++ name ++ b' ∧ Tidy o ∧
      Layer.atom.Reads vocabulary o fun ρ => ρ (String.ofList name) := by
  have htoken := IsToken.of_isWord hword
  obtain ⟨hfun, hconst⟩ := Vocabulary.Distinct.recognises_nothing_of_free hfree
  refine exists_token hb hb' htoken (Outline.means_var htoken.isBlank_eq_false
    htoken.symbol_notMem hfun hconst ?_ (hdistinct.isVariableName_of_free hword hfree))
  cases name with
  | nil => exact hword.elim
  | cons first rest =>
    rw [Parser.number?, Decimal.ofFragment?_of_isAlpha hword.1]
    rfl

/-- A call is read if each of its arguments is. -/
theorem exists_call {b'' : Fragment} (hb'' : b''.allBlank = true) {name : String}
    {apply : List α → α} (hname : (name, apply) ∈ vocabulary.functions.toList)
    {args : List (Fragment × Meaning α)} (hne : args ≠ [])
    (hargs : ∀ arg ∈ args, ∃ o, o.text = arg.1 ∧ Tidy o ∧
      Layer.expression.Reads vocabulary o arg.2) :
    ∃ o, o.text = b ++ (name.toList ++ b' ++
        '(' :: ([','].intercalate (args.map Prod.fst) ++ [')'])) ++ b'' ∧ Tidy o ∧
      Layer.atom.Reads vocabulary o fun ρ => apply (args.map fun arg => arg.2 ρ) := by
  have hmem : name ∈ vocabulary.functions.names := List.mem_map_of_mem (f := Prod.fst) hname
  have htoken := IsToken.of_isWord (hdistinct.word_of_function hmem)
  obtain ⟨os, htexts, hos, hmeans⟩ := exists_outlines hargs
  have hne' : os ≠ [] := by
    rintro rfl
    exact hne (by simpa using htexts.symm)
  have hcomma : Tidy [.plain ','] := by
    rw [Outline.tidy_cons]
    exact ⟨by simp [Piece.Tidy], fun piece hpiece => absurd hpiece List.not_mem_nil⟩
  have htidy := tidy_intercalate hcomma fun o ho => (hos o ho).1
  have hsolid := allBlank_intercalate [.plain ','] hne' fun o ho => (hos o ho).2.1
  have hall := Outline.meansAll_intercalate hne' (fun o ho => (hos o ho).2) hmeans
  have hcall := Outline.means_call htoken.isBlank_eq_false htoken.symbol_notMem hb'
    (hdistinct.functionAt?_name hname hb') htidy hsolid hall
  -- the outline of the call: its name with the blanks behind it, and one group
  have hplain : Tidy ((name.toList ++ b').map .plain) := by
    rw [List.map_append, Outline.tidy_append]
    exact ⟨htoken.tidy, tidy_blank hb'⟩
  have hop : ∀ operator : Operator, .plain operator.symbol ∉ (name.toList ++ b').map Piece.plain ++
      [.group (Outline.text ([.plain ','].intercalate os))] := by
    intro operator
    have hblank := Outline.notMem_of_allBlank (Outline.allBlank_map_plain.trans hb') operator
    have hword := Outline.plain_notMem_map (htoken.symbol_notMem operator)
    rw [List.map_append, List.mem_append, List.mem_append, not_or, not_or]
    exact ⟨⟨hword, hblank⟩, by simp⟩
  have hatom := exists_atom hb hb'' (Outline.tidy_append.mpr ⟨hplain, htidy.group⟩)
    (by simp [Outline.allBlank, Piece.isBlank]) hop hcall
  have htext : Outline.text ((name.toList ++ b').map Piece.plain ++
        [.group (Outline.text ([.plain ','].intercalate os))]) =
      name.toList ++ b' ++ '(' :: ([','].intercalate (args.map Prod.fst) ++ [')']) := by
    rw [Outline.text_append, Outline.text_map_plain, Outline.text_intercalate, htexts]
    simp [Piece.text]
  rw [htext] at hatom
  simpa only [List.map_map, Function.comp_def] using hatom

end Atoms

/-! ### Derivations -/

/-- Two texts with an operator between them have the outline that is read. -/
theorem exists_joined (operator : Operator) {o p : Outline} {P : Outline → Prop} (ho : Tidy o)
    (hp : Tidy p) (h : P (o ++ .plain operator.symbol :: p)) :
    ∃ q : Outline, q.text = o.text ++ operator.symbol :: p.text ∧ Tidy q ∧ P q :=
  ⟨_, Outline.text_append_cons o p _,
    Outline.tidy_append.mpr ⟨ho, Outline.tidy_cons.mpr
      ⟨Outline.tidy_plain_symbol operator, hp⟩⟩, h⟩

/-- What the grammar derives at a layer has a tidy outline that is read at this layer. -/
theorem exists_outline (hdistinct : vocabulary.Distinct)
    (hadd : ∀ x y z : α, x + y + z = x + (y + z)) (hmul : ∀ x y z : α, x * y * z = x * (y * z))
    {layer : Layer} {s : Fragment} {f : Meaning α} (h : Denotes vocabulary layer s f) :
    ∃ o, o.text = s ∧ Tidy o ∧ layer.Reads vocabulary o f := by
  induction h with
  | whole hb hb' hdigits hne => exact exists_whole hdistinct hb hb' hdigits hne
  | decimal hb hb' hdigits hne => exact exists_decimal hdistinct hb hb' hdigits hne
  | constant hb hb' hname => exact exists_constant hdistinct hb hb' hname
  | identifier hb hb' hword hfree => exact exists_identifier hdistinct hb hb' hword hfree
  | @group b b' s f hb hb' _ ih =>
    obtain ⟨o, rfl, htidy, hchain⟩ := ih
    have hpart : Part vocabulary [.list] o f := hchain.part .sums
    have hgroup := Outline.means_group htidy hpart.means
    have hatom := exists_atom hb hb' htidy.group rfl (by simp) hgroup
    simpa [Piece.text] using hatom
  | call hb hb' hb'' hname args hne _ ih =>
    exact exists_call hdistinct hb hb' hb'' hname hne ih
  | ofAtom _ ih =>
    obtain ⟨o, rfl, htidy, hpart⟩ := ih
    exact ⟨o, rfl, htidy, hpart.mono (by decide)⟩
  | raise _ _ ihs iht =>
    obtain ⟨o, rfl, htidy, hpart⟩ := ihs
    obtain ⟨p, rfl, htidy', hpart'⟩ := iht
    -- the cut is at the last `^`, for there is none in an atom
    have hcut := Text.lastCut?_append (hpart'.lacks .raise (by decide)) o
    have htakes : Operator.raise.Takes 2 := rfl
    exact exists_joined .raise htidy htidy' (Part.pair rfl (by decide) htakes
      (by rw [Outline.operands, hcut]; rfl) hpart (hpart'.mono (by decide)))
  | ofPower _ ih =>
    obtain ⟨o, rfl, htidy, hpart⟩ := ih
    exact ⟨o, rfl, htidy, hpart.mono (by decide)⟩
  | modulo _ _ ihs iht =>
    obtain ⟨o, rfl, htidy, hpart⟩ := ihs
    obtain ⟨p, rfl, htidy', hpart'⟩ := iht
    -- the cut is at the first `%`, for there is none in a power
    have hcut := Text.firstCut?_append (hpart.lacks .modulo (by decide)) p
    have htakes : Operator.modulo.Takes 2 := rfl
    exact exists_joined .modulo htidy htidy' (Part.pair rfl (by decide) htakes
      (by rw [Outline.operands, hcut]; rfl) (hpart.mono (by decide)) hpart')
  | ofRemainder _ ih =>
    obtain ⟨o, rfl, htidy, hpart⟩ := ih
    exact ⟨o, rfl, htidy, .signed (.part hpart)⟩
  | multiply _ _ ihs iht =>
    obtain ⟨o, rfl, htidy, hchain⟩ := ihs
    obtain ⟨p, rfl, htidy', hpart⟩ := iht
    exact exists_joined .multiply htidy htidy' (Chain.join hchain (.part hpart))
  | divide _ _ ihs iht =>
    obtain ⟨o, rfl, htidy, hchain⟩ := ihs
    obtain ⟨p, rfl, htidy', hpart⟩ := iht
    -- a quotient goes on with the chain of products: it is the last operand that is inverted
    exact exists_joined .divide htidy htidy' (Chain.grow .products hmul hchain hpart)
  | ofTerm _ ih =>
    obtain ⟨o, rfl, htidy, hchain⟩ := ih
    exact ⟨o, rfl, htidy, .signed (.part (hchain.part .products))⟩
  | @negate b s f hb _ ih =>
    obtain ⟨o, rfl, htidy, hchain⟩ := ih
    rw [← Outline.text_map_plain b]
    exact exists_joined .subtract (tidy_blank hb) htidy
      (Chain.signed (.leading (Outline.allBlank_map_plain.trans hb) (hchain.part .products)))
  | add _ _ ihs iht =>
    obtain ⟨o, rfl, htidy, hchain⟩ := ihs
    obtain ⟨p, rfl, htidy', hchain'⟩ := iht
    exact exists_joined .add htidy htidy'
      (Chain.join hchain (.part (hchain'.part .products)))
  | subtract _ _ ihs iht =>
    obtain ⟨o, rfl, htidy, hchain⟩ := ihs
    obtain ⟨p, rfl, htidy', hchain'⟩ := iht
    exact exists_joined .subtract htidy htidy'
      (Chain.grow .sums hadd hchain (hchain'.part .products))

section Parse

variable (hdistinct : vocabulary.Distinct) {o : Outline} (htidy : Tidy o) {text : String}
  (htext : o.text = text.toList)
include hdistinct htidy htext

/-- The parser and the reader agree on a text with a tidy outline. -/
theorem parse_agrees_read :
    Outline.Agree (Parser.State.initial : Parser.State α).groups Eq
      ((Outline.read vocabulary o).run .empty)
      ((Parser.fragment vocabulary (Parser.depthBound vocabulary text.toList) text.toList).run
        .initial) := by
  have hnames : ∀ name ∈ vocabulary.names, '&' ∉ name.toList := by
    intro name hname hmem
    exact absurd ((hdistinct.word name hname).isAlphanum hmem) (by decide)
  have hamp : '&' ∉ text.toList := htext ▸ htidy.amp_notMem
  have hagree := Outline.parse_agrees hnames hamp
  rw [Outline.parse, ← htext, htidy.ofText_trim] at hagree
  rw [← Outline.read_trim, ← htext]
  exact hagree

/-- What is read from a tidy outline is parsed from its text. -/
theorem parse_eq_ok_of_read {tree : Tree α} {vars : Variables α}
    (hread : (Outline.read vocabulary o).run .empty = .ok (tree, vars)) :
    Parser.parse vocabulary text = .ok (tree, vars) := by
  have hagree := parse_agrees_read hdistinct htidy htext
  rw [Parser.parse_eq_map]
  rw [hread] at hagree
  generalize (Parser.fragment vocabulary _ text.toList).run .initial = y at hagree ⊢
  cases hagree with
  | ok hsame _ =>
    subst hsame
    rfl

/-- If a tidy outline is not read, its text is not parsed, and that in a finite number of steps. -/
theorem parse_eq_error_of_read {error : SyntaxError}
    (hread : (Outline.read vocabulary o).run .empty = .error error) :
    ∃ error', Parser.parse vocabulary text = .error error' ∧ error' ≠ .endlessExpansion := by
  have hagree := parse_agrees_read hdistinct htidy htext
  rw [Parser.parse_eq_map]
  rw [hread] at hagree
  generalize (Parser.fragment vocabulary _ text.toList).run .initial = y at hagree ⊢
  cases hagree with
  | @error _ _ error' h => exact ⟨error', rfl, by cases h <;> exact nofun⟩

end Parse

/-- A word that begins with no name of the vocabulary is a variable by itself. -/
theorem parse_word (hdistinct : vocabulary.Distinct) {name : String} (hword : IsWord name.toList)
    (hfree : ∀ other ∈ vocabulary.names, ¬other.toList <+: name.toList) :
    Parser.parse vocabulary name =
      .ok (.var (Variables.empty.intern name : Nat × Variables α).1,
        (Variables.empty.intern name).2) := by
  have htoken := IsToken.of_isWord hword
  obtain ⟨hfun, hconst⟩ := Vocabulary.Distinct.recognises_nothing_of_free hfree
  have hvalue : (Parser.number? name.toList : Option α) = none := by
    obtain ⟨c, s, hname⟩ := List.exists_cons_of_ne_nil hword.ne_nil
    rw [hname] at hword ⊢
    rw [Parser.number?, Decimal.ofFragment?_of_isAlpha hword.1]
    rfl
  refine parse_eq_ok_of_read hdistinct htoken.tidy (Outline.text_map_plain _) ?_
  rw [Outline.read_map_plain htoken.isBlank_eq_false htoken.symbol_notMem hfun, hconst]
  dsimp only
  rw [hvalue, if_pos (hdistinct.isVariableName_of_free hword hfree), String.ofList_toList]
  rfl

/-- Every expression is read, and its tree has the conventional value for the values of variables,
whatever they will be. -/
theorem parse_value (hdistinct : vocabulary.Distinct)
    (hadd : ∀ x y z : α, x + y + z = x + (y + z)) (hmul : ∀ x y z : α, x * y * z = x * (y * z))
    {text : String} {f : Meaning α} (h : Denotes vocabulary .expression text.toList f) :
    ∃ tree vars, Parser.parse vocabulary text = .ok (tree, vars) ∧
      ∀ later, vars.Grows later → tree.value later = f later.valueNamed := by
  obtain ⟨o, htext, htidy, hchain⟩ := exists_outline hdistinct hadd hmul h
  have hpart : Part vocabulary [.list] o f := hchain.part .sums
  obtain ⟨tree, vars, hread, -, -, hvalue⟩ := hpart.means .empty
  exact ⟨tree, vars, parse_eq_ok_of_read hdistinct htidy htext hread, hvalue⟩

end Formula
