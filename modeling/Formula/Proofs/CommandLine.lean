import Formula.CommandLine
import Formula.Proofs.Expression.Invocation
import Formula.Proofs.Parser.Endless
import Formula.Proofs.Text.Cuts

/-!
# Runs of the command line

An argument behind the expression gives a value to a name (`Gives`) or is at fault (`Faulty`). A run
takes arguments of the first kind one after another (`runBindings_given`) and ends at one of the
second. So there are three ways for it to end (`Ends`): the expression is not read, an argument is
at fault, or the expression is evaluated for the values that its variables have been given last.
Only then there is output (`run_outcome`).

A run has no end just when reading its expression has none (`run?_eq_none_iff`). This takes typed
placeholders (`exists_run?_of_typesNoPlaceholder`), but one is enough (`run_outcome_endless`).
-/

namespace Formula

/-! ### The values of variables -/

section Values

variable {α : Type}

/-- The expression with values for its variables that are looked up by their names. -/
def Expression.withValues (expression : Expression α) (value : String → α) : Expression α :=
  { expression with
    vars :=
      { expression.vars with
        cells := expression.vars.cells.map fun cell => { cell with value := value cell.name } } }

/-- The last value that a name is given, and zero if there is none. -/
def lastValue [Zero α] (pairs : List (String × α)) (name : String) : α :=
  (pairs.reverse.lookup name).getD 0

/-- Assignments to a new expression give each variable the last value of its name: there are no
bounds yet, and what is not assigned is zero. -/
theorem Expression.IsNew.setAll_eq [Arithmetic α] [NumberOrder α] {expression : Expression α}
    (h : expression.IsNew) (pairs : List (String × α)) :
    expression.setAll pairs = expression.withValues (lastValue pairs) := by
  have hvars : (expression.setAll pairs).vars =
      (expression.withValues (lastValue pairs)).vars := by
    refine Variables.ext_get? (numbers_setAll expression pairs) fun id => ?_
    rw [get?_setAll h.sound, Variables.get?, Variables.get?, withValues, Array.getElem?_map]
    cases hcell : expression.vars.cells[id]? with
    | none => rfl
    | some cell =>
      obtain ⟨name, rfl⟩ := h.exists_named hcell
      rw [Option.map_some, Option.map_some, lastValue]
      cases pairs.reverse.lookup (Variable.named name : Variable α).name <;> rfl
  -- the tree stays, so that the two expressions agree in all they have
  have htree := tree_setAll expression pairs
  generalize expression.setAll pairs = reached at hvars htree
  obtain ⟨tree, vars⟩ := reached
  obtain rfl : tree = expression.tree := htree
  obtain rfl := hvars
  rfl

variable [Zero α] {pair pair' : String × α}

/-- Neighbours with different names may be exchanged. -/
theorem lastValue_swap (h : pair.1 ≠ pair'.1) (before after : List (String × α)) :
    lastValue (before ++ pair' :: pair :: after) =
      lastValue (before ++ pair :: pair' :: after) := by
  funext name
  have hnone : ∀ {other : String × α}, name ≠ other.1 → [other].lookup name = none :=
    fun hne => List.lookup_eq_none_iff.mpr (by simpa using hne)
  unfold lastValue
  simp only [lookup_reverse_append, lookup_reverse_cons, Option.or_assoc]
  -- one of the two does not have the name that is looked up
  by_cases hname : name = pair.1
  · have hname' : name ≠ pair'.1 := fun h' => h (hname.symm.trans h')
    rw [hnone hname', Option.none_or, Option.none_or]
  · rw [hnone hname, Option.none_or, Option.none_or]

/-- What a name is given does not count when the name comes again. -/
theorem lastValue_drop {after : List (String × α)} (h : pair.1 ∈ after.map Prod.fst)
    (before : List (String × α)) :
    lastValue (before ++ after) = lastValue (before ++ pair :: after) := by
  funext name
  unfold lastValue
  rw [lookup_reverse_append, lookup_reverse_append, lookup_reverse_cons]
  cases hlast : after.reverse.lookup name with
  | some value => rfl
  | none =>
    have hne : name ≠ pair.1 := by
      rintro rfl
      exact lookup_reverse_eq_none_iff.mp hlast h
    rw [List.lookup_cons, beq_false_of_ne hne]
    rfl

end Values

namespace CommandLine

/-! ### Arguments -/

/-- Whether an argument is a name and the text of a number with an equals sign between them. Blanks
around the two do not count, and other equals signs are in the text. -/
def Gives (argument : String) (binding : String × Float) : Prop :=
  ∃ name text, argument.toList = name ++ '=' :: text ∧ '=' ∉ name ∧
    binding.1 = String.ofList (Fragment.trim name) ∧
    Binary64.ofText? (Fragment.trim text) = some binding.2

/-- Whether an argument is at fault, and in which way. -/
inductive Faulty (argument : String) : BindingError → Prop
  | noValue (h : '=' ∉ argument.toList) : Faulty argument (.noValue argument)
  | notANumber {name text : Fragment} (h : argument.toList = name ++ '=' :: text)
      (hname : '=' ∉ name) (htext : Binary64.ofText? text.trim = none) :
      Faulty argument (.notANumber (String.ofList text.trim))

variable {argument : String}

/-- An argument that gives a value is read as name and value. -/
theorem Gives.readBinding_eq {binding : String × Float} (h : Gives argument binding) :
    readBinding argument = .ok binding := by
  obtain ⟨name, text, happend, hname, hleft, hright⟩ := h
  rw [readBinding, Text.cutFirst?_eq_firstCut?, happend, Text.firstCut?_append hname]
  dsimp only
  rw [hright, ← hleft]

/-- An argument at fault is read as its fault. -/
theorem Faulty.readBinding_eq {error : BindingError} (h : Faulty argument error) :
    readBinding argument = .error error := by
  rw [readBinding, Text.cutFirst?_eq_firstCut?]
  cases h with
  | noValue h => rw [Text.firstCut?_eq_none_iff.mpr h]
  | notANumber happend hname htext =>
    rw [happend, Text.firstCut?_append hname]
    dsimp only
    rw [htext]

theorem Gives.not_faulty {binding : String × Float} {error : BindingError}
    (h : Gives argument binding) : ¬Faulty argument error := fun hfaulty =>
  nomatch h.readBinding_eq.symm.trans hfaulty.readBinding_eq

/-- An argument gives a value or is at fault. -/
theorem gives_or_faulty (argument : String) :
    (∃ binding, Gives argument binding) ∨ ∃ error, Faulty argument error := by
  by_cases hmem : '=' ∈ argument.toList
  · obtain ⟨name, text, happend, hname, -⟩ := Text.exists_firstCut? hmem
    cases htext : Binary64.ofText? (Fragment.trim text) with
    | none => exact .inr ⟨_, .notANumber happend hname htext⟩
    | some value => exact .inl ⟨(_, value), name, text, happend, hname, rfl, htext⟩
  · exact .inr ⟨_, .noValue hmem⟩

/-- If not all arguments give values, there is a first one at fault. -/
theorem all_give_or_first_faulty (arguments : List String) :
    (∃ bindings, List.Forall₂ Gives arguments bindings) ∨
      ∃ before argument after bindings error, arguments = before ++ argument :: after ∧
        List.Forall₂ Gives before bindings ∧ Faulty argument error := by
  induction arguments with
  | nil => exact .inl ⟨[], .nil⟩
  | cons argument arguments ih =>
    rcases gives_or_faulty argument with ⟨binding, hgives⟩ | ⟨error, hfaulty⟩
    · rcases ih with ⟨bindings, hall⟩ | ⟨before, faulty, after, bindings, error, rfl, hall, herror⟩
      · exact .inl ⟨binding :: bindings, .cons hgives hall⟩
      · exact .inr ⟨argument :: before, faulty, after, binding :: bindings, error, rfl,
          .cons hgives hall, herror⟩
    · exact .inr ⟨[], argument, arguments, [], error, rfl, .nil, hfaulty⟩

/-! ### What is written -/

/-- One warning for every binding of a name that is no variable. -/
def warnings (names : List String) (bindings : List (String × Float)) : String :=
  String.join ((bindings.filter fun binding => binding.1 ∉ names).map fun binding =>
    warning binding.1)

theorem warnings_append (names : List String) (bindings bindings' : List (String × Float)) :
    warnings names (bindings ++ bindings') =
      warnings names bindings ++ warnings names bindings' := by
  rw [warnings, List.filter_append, List.map_append, String.join_append]
  rfl

theorem valueLine_eq (expression : Expression Float) :
    valueLine expression =
      match expression.values? with
      | some values => ", ".intercalate (values.map Binary64.toText) ++ "\n"
      | none => Binary64.toText expression.value ++ "\n" := by
  unfold valueLine Expression.valueList
  cases expression.values? with
  | none => rfl
  | some values => rfl

/-- At least the line break is written. -/
theorem valueLine_ne_empty (expression : Expression Float) : valueLine expression ≠ "" := by
  intro h
  have hlist := congrArg String.toList h
  rw [valueLine, String.toList_append] at hlist
  exact absurd hlist (by simp)

/-! ### Runs -/

section Steps

variable {expression : Expression Float} {errors : String}

/-- An argument that gives a value is taken, and there is a warning if its name is no variable. -/
theorem Gives.runBindings_cons {binding : String × Float} (h : Gives argument binding)
    (hsound : expression.vars.Sound) (rest : List String) :
    runBindings expression errors (argument :: rest) =
      runBindings (expression.setAll [binding])
        (errors ++ warnings expression.variableNames [binding]) rest := by
  rw [runBindings, h.readBinding_eq]
  dsimp only
  have hset : expression.setAll [binding] = (expression.set binding.1 binding.2).2 := rfl
  rw [hset, Expression.set, Expression.updateNamed]
  cases hid : expression.vars.find? binding.1 with
  | none =>
    have hmem : binding.1 ∉ expression.variableNames := hsound.find?_eq_none_iff.mp hid
    simp [warnings, hmem]
  | some id =>
    have hmem : binding.1 ∈ expression.variableNames := by
      by_contra hmem
      exact Option.some_ne_none id (hid.symm.trans (hsound.find?_eq_none_iff.mpr hmem))
    simp [warnings, hmem]

theorem Faulty.runBindings_cons {error : BindingError} (h : Faulty argument error)
    (rest : List String) :
    runBindings expression errors (argument :: rest) =
      ⟨1, "", errors ++ errorLine (": " ++ error.message)⟩ := by
  rw [runBindings, h.readBinding_eq]

/-- Arguments that give values are taken one after another. -/
theorem runBindings_given {arguments : List String} {bindings : List (String × Float)}
    (h : List.Forall₂ Gives arguments bindings) (hsound : expression.vars.Sound) (errors : String)
    (rest : List String) :
    runBindings expression errors (arguments ++ rest) =
      runBindings (expression.setAll bindings)
        (errors ++ warnings expression.variableNames bindings) rest := by
  induction h generalizing expression errors with
  | nil =>
    have hwarnings : warnings expression.variableNames [] = "" := rfl
    rw [hwarnings, String.append_empty]
    rfl
  | @cons argument binding arguments bindings hgives _ ih =>
    have hnames : (expression.setAll [binding]).variableNames = expression.variableNames :=
      expression.names_setAll [binding]
    -- the names stay, so that the warnings do not depend on what has been assigned before
    have hsound' := (expression.isStateOf_setAll [binding]).sound hsound
    rw [List.cons_append, hgives.runBindings_cons hsound, ih hsound', String.append_assoc, hnames,
      ← warnings_append]
    rfl

end Steps

/-! ### Outcomes -/

/-- The outcomes of a run whose first argument is `first`. -/
inductive Ends (vocabulary : Vocabulary Float) (first : String) (arguments : List String) :
    Outcome → Prop
  /-- The expression is not read. -/
  | unread {error : SyntaxError} {code message : String}
      (hparse : Expression.parse vocabulary first = .error error)
      (hcode : error.code? = some code) (hmessage : error.message? = some message) :
      Ends vocabulary first arguments ⟨1, "", "error[" ++ code ++ "]: " ++ message ++ "\n"⟩
  /-- An argument is at fault, and those before it give values. -/
  | stopped {expression : Expression Float} {before after : List String} {argument : String}
      {bindings : List (String × Float)} {error : BindingError}
      (hparse : Expression.parse vocabulary first = .ok expression)
      (hsplit : arguments = before ++ argument :: after)
      (hgives : List.Forall₂ Gives before bindings) (hfaulty : Faulty argument error) :
      Ends vocabulary first arguments
        ⟨1, "", warnings expression.variableNames bindings ++ ("error: " ++ error.message ++ "\n")⟩
  /-- All arguments give values. -/
  | evaluated {expression reached : Expression Float} {bindings : List (String × Float)}
      (hparse : Expression.parse vocabulary first = .ok expression)
      (hgives : List.Forall₂ Gives arguments bindings)
      (hreached : reached = expression.withValues (lastValue bindings)) :
      Ends vocabulary first arguments
        ⟨0, match reached.values? with
          | some values => ", ".intercalate (values.map Binary64.toText) ++ "\n"
          | none => Binary64.toText reached.value ++ "\n",
          warnings expression.variableNames bindings⟩

/-- Every error has a code and words, but for the mark of a reading without end. -/
theorem exists_code_message {error : SyntaxError} (h : error ≠ .endlessExpansion) :
    ∃ code message, error.code? = some code ∧ error.message? = some message := by
  cases error with
  | endlessExpansion => exact absurd rfl h
  | unmatchedBracket | invalidPlaceholder | unexpectedEnd => exact ⟨_, _, rfl, rfl⟩

section Outcomes

variable {vocabulary : Vocabulary Float} {first : String} {arguments : List String}
  {outcome : Outcome}

theorem Ends.run?_eq (hhelp : first ≠ "--help") (hh : first ≠ "-h")
    (h : Ends vocabulary first arguments outcome) :
    run? vocabulary (first :: arguments) = some outcome := by
  rw [run?, if_neg (by simp [hhelp, hh])]
  cases h with
  | unread hparse hcode hmessage =>
    have hmark : "error[" = "error" ++ "[" := rfl
    rw [hparse, hmark]
    simp only [unread?, hcode, hmessage, errorLine, Option.bind_eq_bind, Option.bind_some,
      Option.pure_def, String.append_assoc]
  | stopped hparse hsplit hgives hfaulty =>
    have hsound := (Expression.isNew_of_parse hparse).sound
    have hmark : "error: " = "error" ++ ": " := rfl
    rw [hparse, hsplit]
    dsimp only
    rw [runBindings_given hgives hsound, hfaulty.runBindings_cons, String.empty_append, hmark]
    simp only [errorLine, String.append_assoc]
  | @evaluated expression reached bindings hparse hgives hreached =>
    have hnew := Expression.isNew_of_parse hparse
    have hrun := runBindings_given hgives hnew.sound "" []
    rw [List.append_nil, hnew.setAll_eq, String.empty_append] at hrun
    rw [hparse, ← valueLine_eq, hreached]
    exact congrArg some hrun

/-- Unless reading goes on without end, one of the outcomes is there. -/
theorem exists_ends (hread : Expression.parse vocabulary first ≠ .error .endlessExpansion)
    (arguments : List String) : ∃ outcome, Ends vocabulary first arguments outcome := by
  cases hparse : Expression.parse vocabulary first with
  | error error =>
    obtain ⟨code, message, hcode, hmessage⟩ := exists_code_message fun h => hread (h ▸ hparse)
    exact ⟨_, .unread hparse hcode hmessage⟩
  | ok expression =>
    rcases all_give_or_first_faulty arguments with
      ⟨bindings, hgives⟩ | ⟨before, argument, after, bindings, error, hsplit, hgives, hfaulty⟩
    · exact ⟨_, .evaluated hparse hgives rfl⟩
    · exact ⟨_, .stopped hparse hsplit hgives hfaulty⟩

/-- A run has no outcome just when reading its first argument comes to no end. -/
theorem run?_eq_none_iff (hnames : ∀ name ∈ vocabulary.names, '&' ∉ name.toList)
    (hhelp : first ≠ "--help") (hh : first ≠ "-h") :
    run? vocabulary (first :: arguments) = none ↔ ¬Parser.Halts vocabulary first := by
  rw [Parser.halts_iff hnames, not_not, ← Expression.parse_eq_error_iff]
  constructor
  · intro hnone
    by_contra hread
    obtain ⟨outcome, hends⟩ := exists_ends hread arguments
    exact nomatch hnone.symm.trans (hends.run?_eq hhelp hh)
  · intro hendless
    rw [run?, if_neg (by simp [hhelp, hh]), hendless]
    rfl

/-- A run whose expression has no typed placeholder ends. -/
theorem exists_run?_of_typesNoPlaceholder (hnames : ∀ name ∈ vocabulary.names, '&' ∉ name.toList)
    (hhelp : first ≠ "--help") (hh : first ≠ "-h") (hfirst : TypesNoPlaceholder first.toList) :
    ∃ outcome, run? vocabulary (first :: arguments) = some outcome := by
  have hhalts := Parser.halts_of_typesNoPlaceholder hnames hfirst
  refine Option.ne_none_iff_exists'.mp fun hnone => ?_
  exact (run?_eq_none_iff hnames hhelp hh).mp hnone hhalts

/-- A run that ends has one of the outcomes, and no other outcome is possible. -/
theorem run?_eq_some_iff_ends (hhelp : first ≠ "--help") (hh : first ≠ "-h")
    (hread : Expression.parse vocabulary first ≠ .error .endlessExpansion) :
    run? vocabulary (first :: arguments) = some outcome ↔
      Ends vocabulary first arguments outcome := by
  refine ⟨fun hrun => ?_, fun h => h.run?_eq hhelp hh⟩
  obtain ⟨outcome', hends⟩ := exists_ends hread arguments
  obtain rfl := Option.some.inj (hrun.symm.trans (hends.run?_eq hhelp hh))
  exact hends

theorem exists_forall₂_iff :
    (∃ bindings, List.Forall₂ Gives arguments bindings) ↔
      ∀ argument ∈ arguments, ∃ binding, Gives argument binding := by
  constructor
  · rintro ⟨bindings, h⟩
    induction h with
    | nil => exact nofun
    | cons hgives _ ih => exact List.forall_mem_cons.mpr ⟨⟨_, hgives⟩, ih⟩
  · intro h
    rcases all_give_or_first_faulty arguments with
      hall | ⟨_, argument, _, _, error, rfl, _, hfaulty⟩
    · exact hall
    · obtain ⟨binding, hgives⟩ := h argument (by simp)
      exact absurd hfaulty hgives.not_faulty

/-- Only where all goes well is something written to the output. -/
theorem Ends.output_ne_empty_iff (h : Ends vocabulary first arguments outcome) :
    outcome.output ≠ "" ↔ outcome.exitCode = 0 := by
  cases h with
  | unread hparse hcode hmessage => simp
  | stopped hparse hsplit hgives hfaulty => simp
  | evaluated hparse hgives hreached =>
    rw [← valueLine_eq]
    exact iff_of_true (valueLine_ne_empty _) rfl

/-- All goes well just when the expression is read and every argument gives a value. -/
theorem Ends.exitCode_eq_zero_iff (h : Ends vocabulary first arguments outcome) :
    outcome.exitCode = 0 ↔
      (∃ expression, Expression.parse vocabulary first = .ok expression) ∧
        ∀ argument ∈ arguments, ∃ binding, Gives argument binding := by
  cases h with
  | unread hparse hcode hmessage =>
    refine iff_of_false (by simp) ?_
    rintro ⟨⟨expression, hparse'⟩, -⟩
    exact nomatch hparse.symm.trans hparse'
  | @stopped _ _ _ argument _ _ hparse hsplit hgives hfaulty =>
    refine iff_of_false (by simp) ?_
    rintro ⟨-, hall⟩
    obtain ⟨binding, hgives'⟩ := hall argument (by simp [hsplit])
    exact hgives'.not_faulty hfaulty
  | evaluated hparse hgives hreached =>
    exact iff_of_true rfl ⟨⟨_, hparse⟩, exists_forall₂_iff.mp ⟨_, hgives⟩⟩

end Outcomes

/-- Only the last values of names count for the output. -/
theorem run?_congr {vocabulary : Vocabulary Float} {first : String}
    {expression : Expression Float} {arguments arguments' : List String}
    {bindings bindings' : List (String × Float)} {outcome : Outcome}
    (hhelp : first ≠ "--help") (hh : first ≠ "-h")
    (hparse : Expression.parse vocabulary first = .ok expression)
    (hgives : List.Forall₂ Gives arguments bindings)
    (hgives' : List.Forall₂ Gives arguments' bindings')
    (hlast : lastValue bindings' = lastValue bindings)
    (hrun : run? vocabulary (first :: arguments) = some outcome) :
    ∃ outcome', run? vocabulary (first :: arguments') = some outcome' ∧
      outcome'.output = outcome.output ∧ outcome'.exitCode = 0 := by
  rw [(Ends.evaluated hparse hgives rfl).run?_eq hhelp hh] at hrun
  obtain rfl := Option.some.inj hrun
  refine ⟨_, (Ends.evaluated hparse hgives' rfl).run?_eq hhelp hh, ?_⟩
  rw [hlast]
  exact ⟨rfl, rfl⟩

/-- If reading the expression comes to an end, the run has exactly one of the outcomes that are
given by `Ends`. If the expression is not read, nothing is written but its error. If all other
arguments give values, the value of the expression is written, or the values of its elements, where
each variable has the value that its name has been given last, and zero if there is none; and there
is one warning for each argument that names no variable. Otherwise the run ends with the error of
the first argument at fault, behind the warnings of those before it.

So there is output if and only if the run ends well, that is if and only if the expression is read
and all arguments give values. Such a run ends well with the same output when two neighbours with
different names are exchanged, and without an argument whose name comes again. -/
theorem run_outcome {vocabulary : Vocabulary Float}
    (hnames : ∀ name ∈ vocabulary.names, '&' ∉ name.toList) {first : String}
    (hhelp : first ≠ "--help") (hh : first ≠ "-h") (hread : Parser.Halts vocabulary first)
    (arguments : List String) :
    ∃ outcome, run? vocabulary (first :: arguments) = some outcome ∧
      (∀ other, Ends vocabulary first arguments other ↔ other = outcome) ∧
      (outcome.output ≠ "" ↔ outcome.exitCode = 0) ∧
      (outcome.exitCode = 0 ↔
        (∃ expression, Expression.parse vocabulary first = .ok expression) ∧
          ∀ argument ∈ arguments, ∃ binding, Gives argument binding) ∧
      (outcome.exitCode = 0 → ∀ before argument argument' after binding binding',
        arguments = before ++ argument :: argument' :: after →
          Gives argument binding → Gives argument' binding' → binding.1 ≠ binding'.1 →
          ∃ exchanged,
            run? vocabulary (first :: (before ++ argument' :: argument :: after)) =
                some exchanged ∧
              exchanged.output = outcome.output ∧ exchanged.exitCode = 0) ∧
      (outcome.exitCode = 0 → ∀ before argument between argument' after binding binding',
        arguments = before ++ argument :: (between ++ argument' :: after) →
          Gives argument binding → Gives argument' binding' → binding.1 = binding'.1 →
          ∃ shortened,
            run? vocabulary (first :: (before ++ (between ++ argument' :: after))) =
                some shortened ∧
              shortened.output = outcome.output ∧ shortened.exitCode = 0) := by
  rw [Parser.halts_iff hnames, ne_eq, ← Expression.parse_eq_error_iff] at hread
  obtain ⟨outcome, hends⟩ := exists_ends hread arguments
  have hrun := hends.run?_eq hhelp hh
  -- the parts of the argument list give values of their own, which may be put together anew
  have hgives : ∀ {l : List String}, outcome.exitCode = 0 → l ⊆ arguments →
      ∃ bindings, List.Forall₂ Gives l bindings := fun hzero hsubset =>
    exists_forall₂_iff.mpr fun argument hmem =>
      (hends.exitCode_eq_zero_iff.mp hzero).2 argument (hsubset hmem)
  refine ⟨outcome, hrun, fun other => ?_, hends.output_ne_empty_iff, hends.exitCode_eq_zero_iff,
    ?_, ?_⟩
  · rw [← run?_eq_some_iff_ends hhelp hh hread, hrun, Option.some_inj, eq_comm]
  · rintro hzero before argument argument' after binding binding' rfl hgives₁ hgives₂ hname
    obtain ⟨expression, hparse⟩ := (hends.exitCode_eq_zero_iff.mp hzero).1
    obtain ⟨left, hleft⟩ := hgives hzero (List.subset_append_left before _)
    obtain ⟨right, hright⟩ := hgives hzero (l := after) fun _ h => by simp [h]
    exact run?_congr hhelp hh hparse (List.rel_append hleft (.cons hgives₁ (.cons hgives₂ hright)))
      (List.rel_append hleft (.cons hgives₂ (.cons hgives₁ hright)))
      (lastValue_swap hname left right) hrun
  · rintro hzero before argument between argument' after binding binding' rfl hgives₁ hgives₂ hname
    obtain ⟨expression, hparse⟩ := (hends.exitCode_eq_zero_iff.mp hzero).1
    obtain ⟨left, hleft⟩ := hgives hzero (List.subset_append_left before _)
    obtain ⟨middle, hmiddle⟩ := hgives hzero (l := between) fun _ h => by simp [h]
    obtain ⟨right, hright⟩ := hgives hzero (l := after) fun _ h => by simp [h]
    have hrest := List.rel_append hmiddle (.cons hgives₂ hright)
    refine run?_congr hhelp hh hparse (List.rel_append hleft (.cons hgives₁ hrest))
      (List.rel_append hleft hrest) (lastValue_drop ?_ left) hrun
    rw [hname]
    simp

/-- A variable is given two values, and a name between them is no variable. With a text that is no
number behind the equals sign the run has another end. -/
theorem run_outcome_word :
    let vocabulary := Vocabulary.standard 0.5
    (∀ name ∈ vocabulary.names, '&' ∉ name.toList) ∧ "x" ≠ "--help" ∧ "x" ≠ "-h" ∧
      Parser.Halts vocabulary "x" ∧
      run? vocabulary ["x", "x=2", "z=1", " x = 5"] =
        some ⟨0, "5\n", "warning: expression has no variable `z`\n"⟩ ∧
      (∃ exchanged, run? vocabulary ["x", "z=1", "x=2", " x = 5"] = some exchanged ∧
        exchanged.output = "5\n" ∧ exchanged.exitCode = 0) ∧
      (∃ shortened, run? vocabulary ["x", "z=1", " x = 5"] = some shortened ∧
        shortened.output = "5\n" ∧ shortened.exitCode = 0) ∧
      run? vocabulary ["x", "z=1", "x=y=2", "z"] =
        some
          ⟨1, "", "warning: expression has no variable `z`\nerror: `y=2` is not a number\n"⟩ := by
  intro vocabulary
  have hnames : ∀ name ∈ vocabulary.names, '&' ∉ name.toList :=
    Vocabulary.amp_notMem_standard 0.5
  -- what is read from `x`: the first variable
  let expression : Expression Float :=
    ⟨.var 0, ⟨#[.named "x"], (∅ : Std.HashMap String Nat).insert "x" 0⟩⟩
  have hparse : Expression.parse vocabulary "x" = .ok expression := by
    have hdistinct := Vocabulary.distinct_standard 0.5
    have hfree : ∀ other ∈ (Vocabulary.standard (0.5 : Float)).names,
        ¬other.toList <+: "x".toList := by
      rw [Vocabulary.names_standard]
      decide
    rw [Expression.parse_eq_ok_iff, parse_word hdistinct (by decide) hfree]
    simp [Variables.intern, Variables.empty, expression]
  have hx : Gives "x=2" ("x", 2) := ⟨['x'], ['2'], rfl, by decide, by decide, rfl⟩
  have hz : Gives "z=1" ("z", 1) := ⟨['z'], ['1'], rfl, by decide, by decide, rfl⟩
  have hx' : Gives " x = 5" ("x", 5) :=
    ⟨[' ', 'x', ' '], [' ', '5'], rfl, by decide, by decide, rfl⟩
  have hy : Faulty "x=y=2" (.notANumber "y=2") :=
    @Faulty.notANumber "x=y=2" ['x'] ['y', '=', '2'] rfl (by decide) rfl
  have hhelp : "x" ≠ "--help" := by decide
  have hh : "x" ≠ "-h" := by decide
  have hread : Parser.Halts vocabulary "x" :=
    Parser.halts_of_typesNoPlaceholder hnames (.of_notMem (by decide))
  obtain ⟨outcome, hrun, hends, -, -, hswap, hdrop⟩ :=
    run_outcome hnames hhelp hh hread ["x=2", "z=1", " x = 5"]
  obtain ⟨outcome', hrun', hends', -⟩ :=
    run_outcome hnames hhelp hh hread ["z=1", "x=y=2", "z"]
  have houtcome : outcome = ⟨0, "5\n", "warning: expression has no variable `z`\n"⟩ := by
    -- the last value counts, and `z` is nowhere in the tree
    have hvalue : (expression.withValues (lastValue [("x", 2), ("z", 1), ("x", 5)])).value = 5 := by
      simp [expression, Expression.value, Expression.withValues, Tree.value, Variables.valueOf,
        Variables.get?, Variable.named, lastValue]
    have hgives : List.Forall₂ Gives ["x=2", "z=1", " x = 5"] [("x", 2), ("z", 1), ("x", 5)] :=
      .cons hx (.cons hz (.cons hx' .nil))
    refine ((hends _).mp (.evaluated hparse hgives rfl)).symm.trans ?_
    dsimp only [Expression.values?, Expression.withValues, Tree.values?, expression] at hvalue ⊢
    rw [hvalue]
    rfl
  obtain rfl := houtcome
  have hstopped := @Ends.stopped vocabulary "x" ["z=1", "x=y=2", "z"] expression ["z=1"] ["z"]
    _ _ _ hparse rfl (.cons hz .nil) hy
  obtain rfl := (hends' _).mp hstopped
  exact ⟨hnames, hhelp, hh, hread, hrun,
    hswap rfl [] "x=2" "z=1" [" x = 5"] _ _ rfl hx hz (by decide),
    hdrop rfl [] "x=2" ["z=1"] " x = 5" [] _ _ rfl hx hx' rfl, hrun'⟩

/-- The group of this text is a placeholder that stands for the group itself. Reading goes on
whatever the number of fragments inside each other is, so that the run has no outcome. (A run
without arguments has one, and tells how to call the program, although it does not end well.) -/
theorem run_outcome_endless :
    let vocabulary := Vocabulary.standard 0.5
    (¬∀ first arguments, first ≠ "--help" → first ≠ "-h" →
        ∃ outcome, run? vocabulary (first :: arguments) = some outcome ∧
          (outcome.output ≠ "" ↔ outcome.exitCode = 0)) ∧
      (∀ depth, (Parser.fragment vocabulary depth "(&0;)".toList).run .initial =
        .error .endlessExpansion) ∧
      run? vocabulary ["(&0;)"] = none ∧ run? vocabulary [] = some ⟨1, usage, ""⟩ := by
  intro vocabulary
  have hendless := Parser.not_halts_typed (Vocabulary.distinct_standard 0.5)
  have hnone : run? vocabulary ["(&0;)"] = none :=
    (run?_eq_none_iff (Vocabulary.amp_notMem_standard 0.5) (by decide) (by decide)).mpr hendless
  refine ⟨fun h => ?_, Parser.not_halts_iff.mp hendless, hnone, rfl⟩
  obtain ⟨outcome, hrun, -⟩ := h "(&0;)" [] (by decide) (by decide)
  exact nomatch hnone.symm.trans hrun

end CommandLine

end Formula
