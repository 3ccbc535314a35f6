import Formula.Proofs.Expression.Changes

/-!
# Handles of variables

Whoever asks a table for a name is given a handle, the number of the variable as a word of 32 bits,
and may write the variable through it as long as the table lives. `Arena` is a table together with
the handles it has given out, and `useAll?` a history of asking and writing.

`Kept` is what a history keeps, however many names there are (`Kept.step`, `kept_useAll?`). As long
as there are fewer names than words, a number can be told from its handle; `inStep_of_useAll` then
says that names, handles and variables are in step with the history: a handle leads to the variable
of the name it was given for, whatever has been asked for and written since.
-/

namespace Formula

open NumberOrder (isUndefined)

variable {α : Type}

namespace Variable

variable [NumberOrder α] {cell : Variable α} {value : α}

theorem value_assign_of_none (h : (cell.assign value).bounds = none) :
    (cell.assign value).value = value := by
  have hcell : cell.bounds = none := h
  rw [assign, hcell]

/-- With bounds a variable holds what the bounds make of the value, but the undefined number as it
is. -/
theorem value_assign_of_some {bounds : Bounds α} (h : (cell.assign value).bounds = some bounds) :
    (cell.assign value).value = if isUndefined value then value else bounds.clamp value := by
  have hcell : cell.bounds = some bounds := h
  rw [assign, hcell]

end Variable

namespace Variables

/-- The handle of the variable with a number. Numbers that are no words share the last word. -/
def handle (id : Nat) : UInt32 := UInt32.ofNatClamp id

theorem toNat_handle {id : Nat} (h : id < UInt32.size) : (handle id).toNat = id := by
  unfold handle UInt32.ofNatClamp
  rw [dif_pos h]
  rfl

theorem Sound.lt_size_of_find? {vars : Variables α} (h : vars.Sound) {name : String} {id : Nat}
    (hid : vars.find? name = some id) : id < vars.size := by
  rw [← length_names]
  exact (List.getElem?_eq_some_iff.mp ((h name id).mp hid)).1

/-- A change of the variable with a name is seen under the name. -/
theorem named?_update {vars : Variables α} {name : String} {id : Nat}
    (hid : vars.find? name = some id) (change : Variable α → Variable α) :
    (vars.update id change).named? name = (vars.named? name).map change := by
  have hfound : (vars.update id change).find? name = some id := hid
  rw [named?, named?, hfound, hid, Option.bind_some, Option.bind_some, get?_update, if_pos rfl]

/-- A change of the variable with a name is not seen under other names. -/
theorem Sound.named?_update_of_ne {vars : Variables α} (h : vars.Sound) {name other : String}
    (hne : other ≠ name) {id : Nat} (hid : vars.find? name = some id)
    (change : Variable α → Variable α) :
    (vars.update id change).named? other = vars.named? other := by
  have hsame : (vars.update id change).find? other = vars.find? other := rfl
  rw [named?, named?, hsame]
  cases hother : vars.find? other with
  | none => rfl
  | some id' =>
    have hdistinct : id' ≠ id := by
      rintro rfl
      have hnames := ((h other id').mp hother).symm.trans ((h name id').mp hid)
      exact hne (Option.some.inj hnames)
    rw [Option.bind_some, Option.bind_some, get?_update, if_neg hdistinct]

section New

variable [Zero α] {vars : Variables α} {name : String}

theorem intern_fst_of_none (h : vars.find? name = none) : (vars.intern name).1 = vars.size := by
  have hnumbers : vars.numbers[name]? = none := h
  simp [intern, hnumbers, size]

/-- No variable goes away. -/
theorem size_le_intern (vars : Variables α) (name : String) :
    vars.size ≤ (vars.intern name).2.size := by
  unfold intern
  split
  · exact Nat.le_refl _
  · simp [size]

/-- A new name gets a new variable behind the others. -/
theorem toList_intern_of_none (h : vars.find? name = none) :
    (vars.intern name).2.toList = vars.toList ++ [Variable.named name] := by
  have hnumbers : vars.numbers[name]? = none := h
  simp [intern, hnumbers, toList]

end New

/-! ### Asking and writing -/

/-- What can be done with a table of variables. -/
inductive Use (α : Type) where
  /-- Asks for the handle of a name. -/
  | intern (name : String)
  /-- Asks for the handle of a name as it is asked for when a formula is read. -/
  | read (name : String)
  /-- Writes the variable with a handle. -/
  | write (handle : UInt32) (write : Write α)

namespace Use

/-- The name that is asked for. -/
def name? : Use α → Option String
  | .intern name | .read name => some name
  | .write .. => none

/-- The write to the variable with a number. -/
def writeAt? (id : Nat) : Use α → Option (Write α)
  | .intern _ | .read _ => none
  | .write word change => if word.toNat = id then some change else none

/-- The names that are asked for, in order. -/
def asked (uses : List (Use α)) : List String := uses.filterMap name?

/-- The writes to the variable with a number, in order. -/
def writesAt (id : Nat) (uses : List (Use α)) : List (Write α) := uses.filterMap (writeAt? id)

theorem writesAt_append_cons (before after : List (Use α)) (word : UInt32) (change : Write α) :
    writesAt word.toNat (before ++ .write word change :: after) =
      writesAt word.toNat before ++ change :: writesAt word.toNat after := by
  simp [writesAt, writeAt?]

end Use

/-- A table of variables and the handles it has given out, each with the name that was asked for. -/
structure Arena (α : Type) where
  vars : Variables α
  given : List (String × UInt32)

namespace Arena

open Use (asked writesAt)

/-- No variables, and no handles given out. -/
def empty : Arena α := ⟨.empty, []⟩

variable [Zero α] [NumberOrder α]

/-- The arena after a use; nothing if no variable has the handle that is written through. -/
def use? (arena : Arena α) : Use α → Option (Arena α)
  | .intern name =>
    let answer := arena.vars.intern name
    some ⟨answer.2, arena.given ++ [(name, handle answer.1)]⟩
  | .read name =>
    match (Parser.internVariable name.toList).run ⟨.empty, arena.vars⟩ with
    | .ok (.var id, state) => some ⟨state.vars, arena.given ++ [(name, handle id)]⟩
    | _ => none
  | .write handle write =>
    if handle.toNat < arena.vars.size then
      some { arena with
        vars := arena.vars.update handle.toNat fun cell => cell.write write }
    else
      none

/-- The arena after uses one after another. -/
def useAll? (arena : Arena α) (uses : List (Use α)) : Option (Arena α) := uses.foldlM use? arena

/-- Whether an arena is what a history has made of an empty one, as far as it can be told without
counting names. -/
structure Kept (uses : List (Use α)) (arena : Arena α) : Prop where
  sound : arena.vars.Sound
  names : arena.vars.names = (asked uses).eraseDups
  answers : arena.given.map Prod.fst = asked uses
  given : ∀ name word, (name, word) ∈ arena.given →
    ∃ id, arena.vars.find? name = some id ∧ word = handle id
  /-- No write was for a variable that is still to come. -/
  writes : ∀ id, arena.vars.size ≤ id → writesAt id uses = []
  /-- A variable is what its writes have made of a new one. -/
  cells : ∀ id name, arena.vars.names[id]? = some name →
    arena.vars.get? id = some ((writesAt id uses).foldl Variable.write (Variable.named name))

variable {arena arena' : Arena α} {uses : List (Use α)} {name : String}

/-- It makes no difference whether a name is asked for or read. -/
theorem use?_read (arena : Arena α) (name : String) :
    arena.use? (.read name) = arena.use? (.intern name) := by
  have hrun : (Parser.internVariable name.toList).run ⟨.empty, arena.vars⟩ =
      .ok (.var (arena.vars.intern (String.ofList name.toList)).1,
        ⟨.empty, (arena.vars.intern (String.ofList name.toList)).2⟩) := rfl
  simp only [use?, hrun, String.ofList_toList]

theorem use?_intern_of_some {id : Nat} (h : arena.vars.find? name = some id) :
    arena.use? (.intern name) = some ⟨arena.vars, arena.given ++ [(name, handle id)]⟩ := by
  have hanswer : arena.vars.intern name = (id, arena.vars) := intern_of_some h
  rw [use?, hanswer]

theorem use?_intern_of_none (h : arena.vars.find? name = none) :
    arena.use? (.intern name) =
      some ⟨(arena.vars.intern name).2, arena.given ++ [(name, handle arena.vars.size)]⟩ := by
  rw [use?, intern_fst_of_none h]

/-- A write succeeds only if there is a variable, and then nothing else is changed. -/
theorem use?_write_eq_some {word : UInt32} {change : Write α}
    (h : arena.use? (.write word change) = some arena') :
    word.toNat < arena.vars.size ∧
      arena' = ⟨arena.vars.update word.toNat fun cell => cell.write change, arena.given⟩ := by
  rw [use?] at h
  split at h
  · rename_i hlt
    exact ⟨hlt, (Option.some.inj h).symm⟩
  · exact nomatch h

/-! ### What a history keeps -/

theorem kept_empty : Kept [] (empty : Arena α) where
  sound := sound_empty
  names := rfl
  answers := rfl
  given _ _ h := absurd h List.not_mem_nil
  writes _ _ := rfl
  cells _ _ h := nomatch h

/-- A name that is asked for gets the number behind the others and a variable that has not been
written, unless it has them already. -/
theorem Kept.ask (h : Kept uses arena) {use : Use α} (hname : use.name? = some name)
    (hwrites : ∀ id, use.writeAt? id = none) :
    Kept (uses ++ [use]) ⟨(arena.vars.intern name).2,
      arena.given ++ [(name, handle (arena.vars.intern name).1)]⟩ := by
  have hasked : asked (uses ++ [use]) = asked uses ++ [name] := by simp [asked, hname]
  have hwritten : ∀ id, writesAt id (uses ++ [use]) = writesAt id uses := by
    simp [writesAt, hwrites]
  refine ⟨(numbers_intern h.sound name).sound, ?_, ?_, ?_, ?_, ?_⟩
  · rw [hasked]
    exact h.sound.names_intern h.names name
  · rw [List.map_append, h.answers, hasked]
    rfl
  · intro other word hgiven
    rcases List.mem_append.mp hgiven with hgiven | hgiven
    · obtain ⟨id, hid, hword⟩ := h.given other word hgiven
      exact ⟨id, grows_intern arena.vars name other id hid, hword⟩
    · obtain ⟨rfl, rfl⟩ := Prod.mk.inj (List.mem_singleton.mp hgiven)
      exact ⟨_, find?_intern arena.vars other, rfl⟩
  · intro id hid
    rw [hwritten, h.writes id ((arena.vars.size_le_intern name).trans hid)]
  · intro id other hother
    rw [names_getElem?] at hother
    rw [hwritten]
    -- a cell that was there is as before, and a new one has no value yet
    rcases arena.vars.get?_intern name id with hold | ⟨hlast, hnew⟩
    · rw [hold, ← names_getElem?] at hother
      rw [hold, h.cells id other hother]
    · rw [hnew] at hother ⊢
      obtain rfl : name = other := Option.some.inj hother
      rw [h.writes id hlast.ge]
      rfl

/-- A write reaches its own variable. -/
theorem Kept.write (h : Kept uses arena) {word : UInt32} {change : Write α}
    (hword : word.toNat < arena.vars.size) :
    Kept (uses ++ [.write word change])
      ⟨arena.vars.update word.toNat fun cell => cell.write change, arena.given⟩ := by
  have hasked : asked (uses ++ [.write word change]) = asked uses := by simp [asked, Use.name?]
  have hwritten : ∀ id, writesAt id (uses ++ [.write word change]) =
      writesAt id uses ++ if word.toNat = id then [change] else [] := by
    intro id
    rw [writesAt, List.filterMap_append]
    by_cases hid : word.toNat = id <;> simp [writesAt, Use.writeAt?, hid]
  have hnames : (arena.vars.update word.toNat fun cell => cell.write change).names =
      arena.vars.names := names_update fun cell => cell.name_write change
  have hsize : (arena.vars.update word.toNat fun cell => cell.write change).size =
      arena.vars.size := by
    rw [← length_names, hnames, length_names]
  refine ⟨?_, ?_, ?_, h.given, ?_, ?_⟩
  · unfold Sound
    rw [hnames]
    exact h.sound
  · rw [hnames, hasked, h.names]
  · rw [hasked]
    exact h.answers
  · intro id hid
    rw [hsize] at hid
    rw [hwritten, h.writes id hid, if_neg (by omega)]
    rfl
  -- only the cell that is written has a write more in its history
  · intro id name hname
    rw [hnames] at hname
    rw [get?_update, h.cells id name hname, hwritten, List.foldl_append]
    by_cases hid : id = word.toNat
    · rw [if_pos hid, if_pos hid.symm]
      rfl
    · rw [if_neg hid, if_neg (Ne.symm hid)]
      rfl

/-- Every use of the arena keeps it in step with its history. -/
theorem Kept.step (h : Kept uses arena) {use : Use α} (hstep : arena.use? use = some arena') :
    Kept (uses ++ [use]) arena' := by
  cases use with
  | intern name =>
    obtain rfl := Option.some.inj hstep
    exact h.ask rfl fun _ => rfl
  | read name =>
    rw [use?_read] at hstep
    obtain rfl := Option.some.inj hstep
    exact h.ask rfl fun _ => rfl
  | write word change =>
    obtain ⟨hword, rfl⟩ := use?_write_eq_some hstep
    exact h.write hword

/-- An arena that is reached from the empty one is in step with its history. -/
theorem kept_useAll? (h : (empty : Arena α).useAll? uses = some arena) : Kept uses arena := by
  induction uses using List.reverseRecOn generalizing arena with
  | nil =>
    obtain rfl := Option.some.inj h
    exact kept_empty
  | append_singleton uses use ih =>
    rw [useAll?, List.foldlM_append] at h
    obtain ⟨before, hbefore, hstep⟩ := Option.bind_eq_some_iff.mp h
    refine (ih hbefore).step ?_
    simpa using hstep

/-! ### Handles in step with names -/

/-- Whether names, handles and variables are in step with what has been asked for and written. -/
structure InStep (uses : List (Use α)) (arena : Arena α) : Prop where
  /-- The names stand in the order in which they have first been asked for. -/
  names : arena.vars.names = (asked uses).eraseDups
  distinct : arena.vars.names.Nodup
  /-- The map leads from each name to its place, and from nothing else. -/
  places : ∀ (name : String) (id : Nat),
    arena.vars.numbers[name]? = some id ↔ arena.vars.names[id]? = some name
  /-- Whenever a name has been asked for, a handle has been given. -/
  answers : arena.given.map Prod.fst = asked uses
  /-- The handle leads to the variable of the name. -/
  leads : ∀ name word, (name, word) ∈ arena.given →
    arena.vars.find? name = some word.toNat ∧
      (arena.vars.get? word.toNat).map Variable.name = some name
  /-- Handles are the same just when they have been given for the same name. -/
  same : ∀ name word name' word', (name, word) ∈ arena.given → (name', word') ∈ arena.given →
    (word = word' ↔ name = name')
  /-- A name is answered as it was before, and then nothing changes. -/
  again : ∀ name word, (name, word) ∈ arena.given →
    arena.use? (.intern name) = some ⟨arena.vars, arena.given ++ [(name, word)]⟩ ∧
      arena.use? (.read name) = some ⟨arena.vars, arena.given ++ [(name, word)]⟩
  /-- A new name is answered with a new handle and gets a variable that is zero and unbounded; all
  other variables stay as they are. -/
  new : ∀ name, name ∉ asked uses → ∃ word vars,
    arena.use? (.intern name) = some ⟨vars, arena.given ++ [(name, word)]⟩ ∧
      arena.use? (.read name) = some ⟨vars, arena.given ++ [(name, word)]⟩ ∧
      word.toNat = arena.vars.size ∧ vars.toList = arena.vars.toList ++ [⟨name, 0, none⟩]
  /-- A variable can be written through any handle of its name, and only it is changed by that. -/
  write : ∀ name word, (name, word) ∈ arena.given → ∀ change, ∃ vars,
    arena.use? (.write word change) = some ⟨vars, arena.given⟩ ∧
      vars.named? name = (arena.vars.named? name).map (fun cell => cell.write change) ∧
      ∀ other, other ≠ name → vars.named? other = arena.vars.named? other
  /-- Under a name stands what all writes through handles of the name have made of a new
  variable. -/
  written : ∀ name word, (name, word) ∈ arena.given →
    arena.vars.named? name =
      some ((writesAt word.toNat uses).foldl Variable.write ⟨name, 0, none⟩)
  /-- Under a name stands the value that has been assigned last, clamped if there are bounds. -/
  last : ∀ name word value before after, (name, word) ∈ arena.given →
    uses = before ++ .write word (.assign value) :: after → writesAt word.toNat after = [] →
      ∃ cell, arena.vars.named? name = some cell ∧ (cell.bounds = none → cell.value = value) ∧
        ∀ bounds, cell.bounds = some bounds →
          cell.value = if isUndefined value then value else bounds.clamp value

section Few

variable (h : Kept uses arena) (hfew : (asked uses).eraseDups.length < UInt32.size)

include h hfew

theorem Kept.size_lt : arena.vars.size < UInt32.size := by
  rw [← length_names, h.names]
  exact hfew

variable {word : UInt32} (hgiven : (name, word) ∈ arena.given)

include hgiven

/-- The number of a name can be told from the handle that has been given for it. -/
theorem Kept.find?_of_given : arena.vars.find? name = some word.toNat := by
  obtain ⟨id, hid, rfl⟩ := h.given name word hgiven
  have hlt := h.sound.lt_size_of_find? hid
  rw [toNat_handle (hlt.trans (h.size_lt hfew)), hid]

theorem Kept.names_of_given : arena.vars.names[word.toNat]? = some name :=
  (h.sound name _).mp (h.find?_of_given hfew hgiven)

theorem Kept.named?_of_given : arena.vars.named? name =
    some ((writesAt word.toNat uses).foldl Variable.write ⟨name, 0, none⟩) := by
  rw [named?, h.find?_of_given hfew hgiven, Option.bind_some,
    h.cells _ name (h.names_of_given hfew hgiven)]
  rfl

theorem Kept.writable (change : Write α) :
    arena.use? (.write word change) =
      some ⟨arena.vars.update word.toNat fun cell => cell.write change, arena.given⟩ := by
  rw [use?, if_pos (h.sound.lt_size_of_find? (h.find?_of_given hfew hgiven))]

end Few

/-- Whatever has been asked for and written, with fewer names than there are words: names, handles
and variables are in step with it. -/
theorem inStep_of_useAll (h : (empty : Arena α).useAll? uses = some arena)
    (hfew : (asked uses).eraseDups.length < UInt32.size) : InStep uses arena := by
  have hkept := kept_useAll? h
  refine ⟨hkept.names, hkept.sound.nodup, hkept.sound, hkept.answers, ?_, ?_, ?_, ?_, ?_,
    fun name word => hkept.named?_of_given hfew, ?_⟩
  · intro name word hgiven
    rw [← names_getElem?]
    exact ⟨hkept.find?_of_given hfew hgiven, hkept.names_of_given hfew hgiven⟩
  -- with few names no two numbers have the same handle
  · intro name word name' word' hgiven hgiven'
    constructor
    · rintro rfl
      exact Option.some.inj
        ((hkept.names_of_given hfew hgiven).symm.trans (hkept.names_of_given hfew hgiven'))
    · rintro rfl
      exact UInt32.toNat_inj.mp (Option.some.inj
        ((hkept.find?_of_given hfew hgiven).symm.trans (hkept.find?_of_given hfew hgiven')))
  · intro name word hgiven
    obtain ⟨id, hid, rfl⟩ := hkept.given name word hgiven
    rw [use?_read]
    exact ⟨use?_intern_of_some hid, use?_intern_of_some hid⟩
  · intro name hname
    have hnew : arena.vars.find? name = none := by
      rw [hkept.sound.find?_eq_none_iff, hkept.names, List.mem_eraseDups]
      exact hname
    rw [use?_read]
    exact ⟨_, _, use?_intern_of_none hnew, use?_intern_of_none hnew,
      toNat_handle (hkept.size_lt hfew), toList_intern_of_none hnew⟩
  · intro name word hgiven change
    have hid := hkept.find?_of_given hfew hgiven
    exact ⟨_, hkept.writable hfew hgiven change, named?_update hid _,
      fun other hother => hkept.sound.named?_update_of_ne hother hid _⟩
  · intro name word value before after hgiven huses hafter
    rw [hkept.named?_of_given hfew hgiven, huses, Use.writesAt_append_cons, hafter,
      List.foldl_append]
    exact ⟨_, rfl, Variable.value_assign_of_none, fun _ => Variable.value_assign_of_some⟩

/-- A known name is asked for again, and between two questions its variable is given bounds in the
wrong order and a number above them. -/
theorem inStep_of_useAll_pair :
    let uses : List (Use Float) := [.intern "x", .write 0 (.restrict 3 1), .read "y",
      .write 0 (.assign 7), .intern "x", .write 1 (.assign 2)]
    ∃ arena, (empty : Arena Float).useAll? uses = some arena ∧
      (asked uses).eraseDups.length < UInt32.size ∧ InStep uses arena ∧
      arena.given = [("x", 0), ("y", 1), ("x", 0)] ∧
      arena.vars.named? "x" = some ⟨"x", 3, some ⟨1, 3⟩⟩ := by
  intro uses
  have hrun : ∃ arena, (empty : Arena Float).useAll? uses = some arena ∧
      arena.given = [("x", 0), ("y", 1), ("x", 0)] := by
    simp only [uses, useAll?, List.foldlM_cons, List.foldlM_nil, use?_read]
    simp [use?, intern, empty, Variables.empty, size, update, Std.HashMap.getElem_insert]
    decide
  obtain ⟨arena, hrun, hgiven⟩ := hrun
  have hfew : (asked uses).eraseDups.length < UInt32.size := by decide
  have hinStep := inStep_of_useAll hrun hfew
  have hx : ("x", 0) ∈ arena.given := by
    rw [hgiven]
    decide
  refine ⟨arena, hrun, hfew, hinStep, hgiven, ?_⟩
  rw [hinStep.written "x" 0 hx]
  rfl

end Arena

end Variables

end Formula
