import Formula.Proofs.Outline.Meaning

/-!
# Chains of operators

A row of terms joined by `+` and `-` is split at every `+` first, so that it is read as a sum of
rows joined by `-` alone; rows of factors joined by `*` and `/` are treated in the same way. Where
the joining operation is associative, the value is still the one from left to right
(`Chain.means`).

The two kinds of row are one: `Level looser join inverse` says which operators make a row.
`Signed` is a row of the inverting operator alone and `Chain` a row of both. A chain grows at its
right end by either operator, where the inverting one goes into the last signed row; this step is
`Chain.grow`, and the only one that needs the law.
-/

namespace Formula.Outline

variable {α : Type} [Arithmetic α]

/-! ### Operands of a longer row -/

/-- The operators looser than two that make rows, the joining one and the inverting one. -/
inductive Level : List Operator → Operator → Operator → Prop where
  | sums : Level [.list] .add .subtract
  | products : Level [.list, .add, .subtract] .multiply .divide

theorem dropBlank_append (ops ops' : List Operand) :
    dropBlank (ops ++ ops') = dropBlank ops ++ dropBlank ops' := List.filter_append ..

theorem dropBlank_singleton {o : Outline} {inverted : Bool} (h : o.allBlank = false) :
    dropBlank [⟨o, inverted⟩] = [⟨o, inverted⟩] := by
  simp [dropBlank, h]

theorem invertedPieces_of_notMem {mark : Piece} {o : Outline} (h : mark ∉ o) :
    invertedPieces mark o = [⟨o, false⟩] := by
  rw [invertedPieces, List.splitOn_eq_singleton h]
  rfl

/-- The last operand is inverted, and those in front of it are what they were. -/
theorem invertedPieces_append {mark : Piece} {p : Outline} (h : mark ∉ p) (o : Outline) :
    invertedPieces mark (o ++ mark :: p) = invertedPieces mark o ++ [⟨p, true⟩] := by
  obtain ⟨q, qs, hq⟩ := List.exists_cons_of_ne_nil (List.splitOn_ne_nil mark o)
  rw [invertedPieces, invertedPieces, List.splitOn_append_cons_self, List.splitOn_eq_singleton h,
    hq]
  simp

namespace Level

variable {looser : List Operator} {join inverse : Operator} {o p : Outline}

theorem operands_inverse (hlevel : Level looser join inverse) (o : Outline) :
    operands inverse o = dropBlank (invertedPieces (.plain inverse.symbol) o) := by
  cases hlevel <;> rfl

theorem operands_inverse_of_notMem (hlevel : Level looser join inverse)
    (hmark : .plain inverse.symbol ∉ o) (hsolid : o.allBlank = false) :
    operands inverse o = [⟨o, false⟩] := by
  rw [hlevel.operands_inverse, invertedPieces_of_notMem hmark, dropBlank_singleton hsolid]

theorem operands_inverse_append (hlevel : Level looser join inverse)
    (hmark : .plain inverse.symbol ∉ p) (hsolid : p.allBlank = false) (o : Outline) :
    operands inverse (o ++ .plain inverse.symbol :: p) = operands inverse o ++ [⟨p, true⟩] := by
  rw [hlevel.operands_inverse, hlevel.operands_inverse, invertedPieces_append hmark,
    dropBlank_append, dropBlank_singleton hsolid]

/-- Nothing stands in front of a leading `-`. -/
theorem operands_inverse_of_allBlank (hlevel : Level looser join inverse) {b : Outline}
    (hb : b.allBlank = true) : operands inverse b = [] := by
  rw [hlevel.operands_inverse, invertedPieces_of_notMem (notMem_of_allBlank hb inverse)]
  simp [dropBlank, hb]

theorem operands_join_of_notMem (hlevel : Level looser join inverse)
    (hmark : .plain join.symbol ∉ o) (hsolid : o.allBlank = false) :
    operands join o = [⟨o, false⟩] := by
  have hsplit := List.splitOn_eq_singleton hmark
  cases hlevel with
  | sums => simp only [operands, hsplit, List.map_singleton, dropBlank_singleton hsolid]
  | products => simp only [operands, hsplit, List.map_singleton]

/-- An operand behind the joining operator comes last, and is not inverted. -/
theorem operands_join_append (hlevel : Level looser join inverse)
    (hmark : .plain join.symbol ∉ p) (hsolid : p.allBlank = false) (o : Outline) :
    operands join (o ++ .plain join.symbol :: p) = operands join o ++ [⟨p, false⟩] := by
  have hsplit := List.splitOn_append_cons_self (a := .plain join.symbol) o p
  rw [List.splitOn_eq_singleton hmark] at hsplit
  cases hlevel with
  | sums =>
    simp only [operands, hsplit, List.map_append, List.map_singleton, dropBlank_append,
      dropBlank_singleton hsolid]
  | products => simp only [operands, hsplit, List.map_append, List.map_singleton]

theorem inverse_notMem (hlevel : Level looser join inverse) :
    ∀ operator ∈ looser ++ [join], operator.symbol ≠ inverse.symbol := by
  cases hlevel <;> decide

theorem join_notMem (hlevel : Level looser join inverse) :
    ∀ operator ∈ looser, operator.symbol ≠ join.symbol := by
  cases hlevel <;> decide

theorem takes (hlevel : Level looser join inverse) (count : Nat) (h : 0 < count) :
    join.Takes count ∧ inverse.Takes count := by
  cases hlevel <;> exact ⟨h, h⟩

/-- The two operators of a level combine in the same way: the inverse one inverts its operands
first. -/
theorem combine_eq (hlevel : Level looser join inverse) :
    (inverse.combine : α → α → α) = join.combine := by
  cases hlevel <;> rfl

theorem exists_tighter (hlevel : Level looser join inverse) :
    ∃ tighter, Operator.loosestFirst = looser ++ join :: inverse :: tighter := by
  cases hlevel with
  | sums => exact ⟨[.multiply, .divide, .modulo, .raise], rfl⟩
  | products => exact ⟨[.modulo, .raise], rfl⟩

end Level

/-! ### Joined operands -/

theorem joinLeft_concat {combine : α → α → α} {xs : List α} (h : xs ≠ []) (y : α) :
    Tree.joinLeft combine (xs ++ [y]) = combine (Tree.joinLeft combine xs) y := by
  obtain ⟨x, xs, rfl⟩ := List.exists_cons_of_ne_nil h
  simp [Tree.joinLeft]

variable [Numeral α] {vocabulary : Vocabulary α}

/-- Whether the operands have meanings with the given one when they are joined. -/
def Joins (vocabulary : Vocabulary α) (operator : Operator) (ops : List Operand)
    (f : Meaning α) : Prop :=
  ∃ fs, List.Forall₂ (fun operand f => Means vocabulary operand.outline f) ops fs ∧ fs ≠ [] ∧
    ∀ ρ, f ρ = Tree.joinLeft operator.combine
      (ops.zipWith (fun operand f => operator.orientValue operand.inverted (f ρ)) fs)

theorem joins_singleton (operator : Operator) (inverted : Bool) {o : Outline} {f : Meaning α}
    (h : Means vocabulary o f) :
    Joins vocabulary operator [⟨o, inverted⟩] fun ρ => operator.orientValue inverted (f ρ) :=
  ⟨[f], .cons h .nil, by simp, fun _ => rfl⟩

/-- An operand more is joined to what the others come to. -/
theorem Joins.concat {operator : Operator} {ops : List Operand} {o : Outline} {f g : Meaning α}
    (h : Joins vocabulary operator ops f) (inverted : Bool) (ho : Means vocabulary o g) :
    Joins vocabulary operator (ops ++ [⟨o, inverted⟩]) fun ρ =>
      operator.combine (f ρ) (operator.orientValue inverted (g ρ)) := by
  obtain ⟨fs, hfs, hne, hf⟩ := h
  have hlen := hfs.length_eq
  refine ⟨fs ++ [g], List.rel_append hfs (.cons ho .nil), by simp, ?_⟩
  intro ρ
  have hops : ops ≠ [] := List.ne_nil_of_length_pos (hlen ▸ List.length_pos_of_ne_nil hne)
  have hzip : ops.zipWith
      (fun operand f => operator.orientValue operand.inverted (f ρ)) fs ≠ [] := by
    simp [List.zipWith_eq_nil_iff, hops, hne]
  rw [List.zipWith_append hlen]
  dsimp only
  rw [hf ρ]
  exact (joinLeft_concat hzip _).symm

theorem Joins.means {operator : Operator} {o : Outline} {f : Meaning α}
    (hop : o.loosestIn? = some operator) (hcount : ∀ count, 0 < count → operator.Takes count)
    (h : Joins vocabulary operator (operands operator o) f) : Means vocabulary o f := by
  obtain ⟨fs, hfs, hne, hf⟩ := h
  have hmeans := means_of_operands hop hfs (hcount _ (List.length_pos_of_ne_nil hne))
  rwa [← funext hf] at hmeans

/-! ### Rows -/

/-- A part of a row: something stands in it, but none of the given operators, and it has a
meaning. -/
structure Part (vocabulary : Vocabulary α) (looser : List Operator) (o : Outline)
    (f : Meaning α) : Prop where
  solid : o.allBlank = false
  lacks : ∀ operator ∈ looser, .plain operator.symbol ∉ o
  means : Means vocabulary o f

/-- An operator that is there is the loosest one if no looser one is. -/
theorem loosestIn?_of_lacks {o : Outline} {looser tighter : List Operator} {operator : Operator}
    (hfirst : Operator.loosestFirst = looser ++ operator :: tighter)
    (hlacks : ∀ operator ∈ looser, .plain operator.symbol ∉ o)
    (hmem : .plain operator.symbol ∈ o) : o.loosestIn? = some operator := by
  have hlooser : looser.find? (fun operator => decide (.plain operator.symbol ∈ o)) = none := by
    rw [List.find?_eq_none]
    intro operator' h
    simpa using hlacks operator' h
  rw [loosestIn?, hfirst, List.find?_append, hlooser, Option.none_or,
    List.find?_cons_of_pos (by simpa using hmem)]

namespace Part

variable {looser looser' tighter : List Operator} {operator : Operator} {l r : Outline}
  {f g : Meaning α}

theorem mono (hsub : looser' ⊆ looser) (h : Part vocabulary looser l f) :
    Part vocabulary looser' l f :=
  ⟨h.solid, fun operator hmem => h.lacks operator (hsub hmem), h.means⟩

/-- Two parts joined by a tighter operator that is cut only there. -/
theorem pair (hfirst : Operator.loosestFirst = looser ++ operator :: tighter)
    (hsymbol : ∀ other ∈ looser, other.symbol ≠ operator.symbol) (htakes : operator.Takes 2)
    (hops : operands operator (l ++ .plain operator.symbol :: r) = [⟨l, false⟩, ⟨r, false⟩])
    (hl : Part vocabulary looser l f) (hr : Part vocabulary looser r g) :
    Part vocabulary looser (l ++ .plain operator.symbol :: r) fun ρ =>
      operator.combine (f ρ) (g ρ) := by
  have hlacks : ∀ other ∈ looser, .plain other.symbol ∉ l ++ .plain operator.symbol :: r := by
    intro other hmem
    simp [hl.lacks other hmem, hsymbol other hmem, hr.lacks other hmem]
  have hop := loosestIn?_of_lacks hfirst hlacks (by simp)
  have hforall : List.Forall₂ (fun operand f => Means vocabulary operand.outline f)
      (operands operator (l ++ .plain operator.symbol :: r)) [f, g] := by
    rw [hops]
    exact .cons hl.means (.cons hr.means .nil)
  have hmeans := means_of_operands hop hforall htakes
  rw [hops] at hmeans
  exact ⟨allBlank_append_cons l r, hlacks, by simpa [Tree.joinLeft] using hmeans⟩

end Part

/-- A row of the inverting operator alone, which may stand in front of the row too. -/
inductive Signed (vocabulary : Vocabulary α) (looser : List Operator) (join inverse : Operator) :
    Outline → Meaning α → Prop where
  | part {p : Outline} {f : Meaning α} (h : Part vocabulary (looser ++ [join, inverse]) p f) :
    Signed vocabulary looser join inverse p f
  | leading {b p : Outline} {f : Meaning α} (hb : b.allBlank = true)
    (h : Part vocabulary (looser ++ [join, inverse]) p f) :
    Signed vocabulary looser join inverse (b ++ .plain inverse.symbol :: p) fun ρ =>
      inverse.orientValue true (f ρ)
  | inverse {o p : Outline} {f g : Meaning α} (ho : Signed vocabulary looser join inverse o f)
    (h : Part vocabulary (looser ++ [join, inverse]) p g) :
    Signed vocabulary looser join inverse (o ++ .plain inverse.symbol :: p) fun ρ =>
      inverse.combine (f ρ) (inverse.orientValue true (g ρ))

/-- A row of signed rows. -/
inductive Chain (vocabulary : Vocabulary α) (looser : List Operator) (join inverse : Operator) :
    Outline → Meaning α → Prop where
  | signed {o : Outline} {f : Meaning α} (h : Signed vocabulary looser join inverse o f) :
    Chain vocabulary looser join inverse o f
  | join {o p : Outline} {f g : Meaning α} (ho : Chain vocabulary looser join inverse o f)
    (h : Signed vocabulary looser join inverse p g) :
    Chain vocabulary looser join inverse (o ++ .plain join.symbol :: p) fun ρ =>
      join.combine (f ρ) (g ρ)

variable {looser : List Operator} {join inverse : Operator} {o p : Outline} {f g : Meaning α}

namespace Signed

theorem solid (h : Signed vocabulary looser join inverse o f) : o.allBlank = false := by
  cases h with
  | part h => exact h.solid
  | leading | inverse => exact allBlank_append_cons _ _

/-- In a row of signed operands there is neither the joining operator nor a looser one. -/
theorem lacks (hlevel : Level looser join inverse) (h : Signed vocabulary looser join inverse o f) :
    ∀ operator ∈ looser ++ [join], .plain operator.symbol ∉ o := by
  intro operator hmem
  have hne := hlevel.inverse_notMem operator hmem
  have hmem' : operator ∈ looser ++ [join, inverse] := by
    rw [List.append_cons]
    exact List.mem_append_left _ hmem
  induction h with
  | part h => exact h.lacks operator hmem'
  | leading hb h => simp [notMem_of_allBlank hb operator, hne, h.lacks operator hmem']
  | inverse _ h ih => simp [ih, hne, h.lacks operator hmem']

/-- The operands of a row, joined, mean what the row has been derived with. -/
theorem joins (hlevel : Level looser join inverse)
    (h : Signed vocabulary looser join inverse o f) :
    Joins vocabulary inverse (operands inverse o) f := by
  have hmem : inverse ∈ looser ++ [join, inverse] := by simp
  induction h with
  | part h =>
    rw [hlevel.operands_inverse_of_notMem (h.lacks inverse hmem) h.solid]
    simpa using joins_singleton inverse false h.means
  | leading hb h =>
    rw [hlevel.operands_inverse_append (h.lacks inverse hmem) h.solid,
      hlevel.operands_inverse_of_allBlank hb]
    exact joins_singleton inverse true h.means
  | inverse _ h ih =>
    rw [hlevel.operands_inverse_append (h.lacks inverse hmem) h.solid]
    exact ih.concat true h.means

/-- A signed row has the value of its operands from left to right. -/
theorem means (hlevel : Level looser join inverse) (h : Signed vocabulary looser join inverse o f) :
    Means vocabulary o f := by
  obtain ⟨tighter, htighter⟩ := hlevel.exists_tighter
  rw [List.append_cons] at htighter
  -- if the inverting operator stands in the row, it is the one that is split at
  have hrow : .plain inverse.symbol ∈ o → Means vocabulary o f := fun hmem =>
    (h.joins hlevel).means (loosestIn?_of_lacks htighter (h.lacks hlevel) hmem)
      fun count hcount => (hlevel.takes count hcount).2
  cases h with
  | part h => exact h.means
  | leading | inverse => exact hrow (by simp)

end Signed

namespace Chain

/-- The rows of a chain, joined, mean what the chain has been derived with. -/
theorem joins (hlevel : Level looser join inverse) (h : Chain vocabulary looser join inverse o f) :
    Joins vocabulary join (operands join o) f := by
  have hmem : join ∈ looser ++ [join] := by simp
  induction h with
  | signed h =>
    rw [hlevel.operands_join_of_notMem (h.lacks hlevel join hmem) h.solid]
    simpa using joins_singleton join false (h.means hlevel)
  | join _ h ih =>
    rw [hlevel.operands_join_append (h.lacks hlevel join hmem) h.solid]
    simpa using ih.concat false (h.means hlevel)

/-- A chain may be used as a part of a looser row. -/
theorem part (hlevel : Level looser join inverse) (h : Chain vocabulary looser join inverse o f) :
    Part vocabulary looser o f := by
  have hlacks : ∀ operator ∈ looser, .plain operator.symbol ∉ o := by
    intro operator hmem
    have hne := hlevel.join_notMem operator hmem
    induction h with
    | signed h => exact h.lacks hlevel operator (List.mem_append_left _ hmem)
    | join _ h ih => simp [ih, hne, h.lacks hlevel operator (List.mem_append_left _ hmem)]
  obtain ⟨tighter, htighter⟩ := hlevel.exists_tighter
  -- if the joining operator is there, it is the loosest
  have hrow : .plain join.symbol ∈ o → Means vocabulary o f := fun hmem =>
    (h.joins hlevel).means (loosestIn?_of_lacks htighter hlacks hmem)
      fun count hcount => (hlevel.takes count hcount).1
  refine ⟨?_, hlacks, ?_⟩
  · cases h with
    | signed h => exact h.solid
    | join => exact allBlank_append_cons _ _
  · cases h with
    | signed h => exact h.means hlevel
    | join => exact hrow (by simp)

/-- A chain grows by the inverting operator inside its last signed row. -/
theorem grow (hlevel : Level looser join inverse)
    (hassoc : ∀ x y z : α,
      join.combine (join.combine x y) z = join.combine x (join.combine y z))
    (h : Chain vocabulary looser join inverse o f)
    (hp : Part vocabulary (looser ++ [join, inverse]) p g) :
    Chain vocabulary looser join inverse (o ++ .plain inverse.symbol :: p) fun ρ =>
      join.combine (f ρ) (inverse.orientValue true (g ρ)) := by
  have hcombine : (inverse.combine : α → α → α) = join.combine := hlevel.combine_eq
  cases h with
  | signed h =>
    rw [← hcombine]
    exact .signed (.inverse h hp)
  | @join o q f g' ho hq =>
    -- `p` goes to the row `q`, so that the sum is grouped to the right
    have hrow := ho.join (hq.inverse hp)
    rw [hcombine] at hrow
    simpa only [hassoc, List.append_assoc, List.cons_append] using hrow

end Chain

end Formula.Outline
