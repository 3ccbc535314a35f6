import Std.Data.HashMap

/-!
# Tables of names in the order they were entered

A `NameTable` maps names to values and remembers the order in which the names came. Entering a name
again keeps its place, erasing one moves the later names up. The entries stand in an array, and a
hash map leads from each name to its place.

`toList` is the view of a table: its entries in order.
-/

namespace Formula

/-- Named values in the order of their first entry. -/
structure NameTable (α : Type) where
  entries : Array (String × α)
  /-- The place of each name among the entries. -/
  places : Std.HashMap String Nat

namespace NameTable

variable {α : Type}

/-- The table without names. -/
def empty : NameTable α := ⟨#[], ∅⟩

instance : EmptyCollection (NameTable α) := ⟨empty⟩

/-- The entries in order. -/
def toList (table : NameTable α) : List (String × α) := table.entries.toList

/-- The names in order. -/
def names (table : NameTable α) : List String := table.toList.map Prod.fst

/-- The number of names. -/
def size (table : NameTable α) : Nat := table.entries.size

/-- Whether there is no name. -/
def isEmpty (table : NameTable α) : Bool := table.entries.isEmpty

/-- Whether `name` is in the table. -/
def contains (table : NameTable α) (name : String) : Bool := table.places.contains name

/-- The value at a place. -/
def valueAt? (table : NameTable α) (place : Nat) : Option α :=
  (table.entries[place]?).map Prod.snd

/-- The value of `name`. -/
def get? (table : NameTable α) (name : String) : Option α :=
  (table.places[name]?).bind table.valueAt?

/-- Gives `name` a value: in its place if it has one, and behind all others if not. Also tells the
value that was replaced. -/
def insert (table : NameTable α) (name : String) (value : α) : Option α × NameTable α :=
  match table.places[name]? with
  | some place =>
    (table.valueAt? place,
      { table with entries := table.entries.modify place fun entry => (entry.1, value) })
  | none =>
    (none,
      { entries := table.entries.push (name, value)
        places := table.places.insert name table.entries.size })

/-- Takes `name` out and moves later names up. Also tells the value it had. -/
def erase (table : NameTable α) (name : String) : Option α × NameTable α :=
  match table.places[name]? with
  | some place =>
    (table.valueAt? place,
      { entries := table.entries.eraseIdxIfInBounds place
        places := (table.places.erase name).map fun _ other =>
          if place < other then other - 1 else other })
  | none => (none, table)

/-- The table of a list of entries. -/
def ofList (entries : List (String × α)) : NameTable α :=
  entries.foldl (fun table entry => (table.insert entry.1 entry.2).2) empty

end NameTable

end Formula
