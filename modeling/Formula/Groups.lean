import Formula.Text.Fragment
import Formula.SyntaxError

/-!
# Bracketed groups

Before a fragment is split at operators, the groups in it, `( … )`, are set aside and replaced by
placeholders `&0;`, `&1;`, …: the operators inside a group are hidden until the group itself is
read. Only outermost groups are replaced; the brackets inside a group stay in its text.

`Groups.hide` replaces groups from left to right and stops at a `(` that is never closed, which
`Groups.setAside` reports. `firstGroup?_eq_some` says that a text is what is in front of its first
group, the group in its brackets, and what is behind it.
-/

namespace Formula

/-- The texts of the groups set aside so far; a placeholder holds an index into them. -/
structure Groups where
  texts : Array Fragment
  deriving DecidableEq, Repr

/-- The text that stands for the group with an index. -/
def placeholder (index : Nat) : Fragment := '&' :: (Nat.toDigits 10 index ++ [';'])

/-- The text between the first `&` and the next `;` behind it. -/
def placeholderInterior? (s : Fragment) : Option Fragment :=
  match s.cutFirst? '&' with
  | some (_, rest) => (rest.cutFirst? ';').map Prod.fst
  | none => none

/-- The index written by the interior of a placeholder: digits, with blanks around and a plus sign
in front allowed. -/
def placeholderIndex? (interior : Fragment) : Option Nat :=
  let digits :=
    match interior.trim with
    | '+' :: rest => rest
    | s => s
  if digits ≠ [] && digits.all Char.isDigit then some (Nat.ofDigitChars 10 digits 0) else none

/-- The text of a group and the text behind it, for the text behind the group's `(` when `depth`
brackets are open inside the group. -/
def closeGroup? (depth : Nat) : Fragment → Option (Fragment × Fragment)
  | [] => none
  | c :: rest =>
    if c = ')' then
      match depth with
      | 0 => some ([], rest)
      | depth + 1 => (closeGroup? depth rest).map fun parts => (c :: parts.1, parts.2)
    else if c = '(' then
      (closeGroup? (depth + 1) rest).map fun parts => (c :: parts.1, parts.2)
    else
      (closeGroup? depth rest).map fun parts => (c :: parts.1, parts.2)

theorem closeGroup?_eq_some {depth : Nat} {s inner rest : Fragment}
    (h : closeGroup? depth s = some (inner, rest)) : s = inner ++ ')' :: rest := by
  fun_induction closeGroup? depth s generalizing inner rest with
  | case1 => simp at h
  | case2 => simp_all
  | case3 | case4 | case5 =>
    obtain ⟨parts, hparts, heq⟩ := Option.map_eq_some_iff.1 h
    grind

/-- The text in front of the first group, the text of the group and the text behind it. -/
def firstGroup? (s : Fragment) : Option (Fragment × Fragment × Fragment) :=
  match s.cutFirst? '(' with
  | some (plain, body) => (closeGroup? 0 body).map fun parts => (plain, parts)
  | none => none

theorem firstGroup?_eq_some {s plain inner rest : Fragment}
    (h : firstGroup? s = some (plain, inner, rest)) :
    s = plain ++ '(' :: (inner ++ ')' :: rest) := by
  unfold firstGroup? at h
  split at h
  · rename_i front body hcut
    obtain ⟨parts, hclose, heq⟩ := Option.map_eq_some_iff.1 h
    obtain ⟨rfl, rfl⟩ := by simpa using heq
    rw [(Fragment.cutFirst?_eq_some hcut).1, closeGroup?_eq_some hclose]
  · simp at h

namespace Groups

/-- No groups. -/
def empty : Groups := ⟨#[]⟩

/-- The number of groups. -/
def size (groups : Groups) : Nat := groups.texts.size

/-- Whether there is no group. -/
def isEmpty (groups : Groups) : Bool := groups.texts.isEmpty

/-- The texts in order. -/
def toList (groups : Groups) : List Fragment := groups.texts.toList

/-- The text of the group with an index. -/
def get? (groups : Groups) (index : Nat) : Option Fragment := groups.texts[index]?

/-- The groups with one more. -/
def push (groups : Groups) (text : Fragment) : Groups := ⟨groups.texts.push text⟩

/-- The group that a placeholder with this interior stands for. -/
def resolve (groups : Groups) (interior : Fragment) : Except SyntaxError Fragment :=
  match (placeholderIndex? interior).bind groups.get? with
  | some text => .ok text
  | none => .error (.invalidPlaceholder (String.ofList ('&' :: (interior ++ [';']))))

/-- The text with its groups replaced by placeholders, from left to right up to a `(` that is never
closed, and the groups with the replaced ones behind them. -/
def hide (groups : Groups) (s : Fragment) : Fragment × Groups :=
  match _h : firstGroup? s with
  | some (plain, inner, rest) =>
    let mark := plain ++ placeholder groups.size
    let (hidden, groups') := (groups.push inner).hide rest
    (mark ++ hidden, groups')
  | none => (s, groups)
termination_by s.length
decreasing_by
  have := congrArg List.length (firstGroup?_eq_some _h)
  simp at this
  omega

/-- The text with every outermost group replaced by a placeholder. Fails at the first `(` that is
never closed; groups closed before it have been set aside then. -/
def setAside (groups : Groups) (s : Fragment) : Except SyntaxError Fragment × Groups :=
  let (hidden, groups') := groups.hide s
  if '(' ∈ hidden then
    let position := Fragment.byteLength (hidden.takeWhile (· != '('))
    (.error (.unmatchedBracket (String.ofList hidden) position), groups')
  else
    (.ok hidden, groups')

end Groups

end Formula
