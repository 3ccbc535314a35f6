import Formula.Groups
import Formula.Proofs.Text.Cuts

/-!
# The depth of brackets

`depth` counts how many brackets are open at the end of a text: a `(` adds one and a `)` takes one
away, unless none is open. Looking for the end of a group is looking for the place where this count
comes back to zero:

* `closeGroup?_zero_iff`: a group ends at the first `)` that brings the count back, and its text is
  `Closed`: every bracket in it is closed in it, and the group itself is not;
* `closeGroup?_eq_none_iff`: a group has no end just when the count never comes back.

`closed_iff` says that a text is closed when no bracket is open at its end and every `)` in it
closes one of its own (`OnlyInside`).
-/

namespace Formula.Fragment

/-- The number of open brackets behind a character when `depth` are open in front of it. -/
def changeDepth (depth : Nat) (c : Char) : Nat :=
  if c = '(' then depth + 1 else if c = ')' then depth - 1 else depth

/-- The number of open brackets behind a text when `depth` are open in front of it. -/
def depthFrom (depth : Nat) (s : Fragment) : Nat := s.foldl changeDepth depth

/-- The number of brackets of a text that are still open at its end. -/
def depth (s : Fragment) : Nat := depthFrom 0 s

@[simp]
theorem depthFrom_nil (d : Nat) : depthFrom d [] = d := rfl

@[simp]
theorem depthFrom_cons (d : Nat) (c : Char) (s : Fragment) :
    depthFrom d (c :: s) = depthFrom (changeDepth d c) s := rfl

theorem depthFrom_append (d : Nat) (s t : Fragment) :
    depthFrom d (s ++ t) = depthFrom (depthFrom d s) t := List.foldl_append

@[simp]
theorem changeDepth_open (d : Nat) : changeDepth d '(' = d + 1 := rfl

@[simp]
theorem changeDepth_close (d : Nat) : changeDepth d ')' = d - 1 := rfl

theorem changeDepth_other {c : Char} (hopen : c ≠ '(') (hclose : c ≠ ')') (d : Nat) :
    changeDepth d c = d := by
  rw [changeDepth, if_neg hopen, if_neg hclose]

/-- Where no bracket opens, none is open at the end. -/
theorem depth_eq_zero_of_notMem {s : Fragment} (h : '(' ∉ s) : s.depth = 0 := by
  unfold depth
  induction s with
  | nil => rfl
  | cons c s ih =>
    obtain ⟨hc, hs⟩ : '(' ≠ c ∧ '(' ∉ s := by simpa using h
    have hzero : changeDepth 0 c = 0 := by simp [changeDepth, hc.symm]
    rw [depthFrom_cons, hzero, ih hs]

theorem depthFrom_allBlank {b : Fragment} (hb : b.allBlank = true) (d : Nat) :
    depthFrom d b = d := by
  induction b with
  | nil => rfl
  | cons c b ih =>
    obtain ⟨hc, hb⟩ : Text.isBlank c = true ∧ allBlank b = true := by simpa [allBlank] using hb
    have hne : ∀ d, Text.isBlank d = false → c ≠ d := by
      rintro d hd rfl
      rw [hc] at hd
      exact nomatch hd
    rw [depthFrom_cons, changeDepth_other (hne _ (by decide)) (hne _ (by decide)), ih hb]

/-- Blanks at the ends of a text do not count. -/
theorem depth_trim (s : Fragment) : s.trim.depth = s.depth := by
  obtain ⟨b, b', hs, hb, hb'⟩ := Text.exists_trimBy (p := Text.isBlank) s
  rw [← Text.trim_eq_trimBy] at hs
  have hblank : allBlank b = true := by simpa [allBlank] using hb
  have hblank' : allBlank b' = true := by simpa [allBlank] using hb'
  conv_rhs => rw [hs]
  rw [depth, depth, depthFrom_append, depthFrom_append, depthFrom_allBlank hblank,
    depthFrom_allBlank hblank']

/-- Whether a character stands only where a bracket is open. -/
def OnlyInside (c : Char) (s : Fragment) : Prop := ∀ a b, s = a ++ c :: b → 0 < depth a

instance (c : Char) (s : Fragment) : Decidable (OnlyInside c s) :=
  decidable_of_iff (∀ n < s.length, s[n]? = some c → 0 < depth (s.take n)) <| by
    constructor
    · rintro h a b rfl
      simpa using h a.length (by simp) (by simp)
    · intro h n hn hc
      obtain ⟨hlt, rfl⟩ := List.getElem?_eq_some_iff.mp hc
      exact h _ (s.drop (n + 1)) (by rw [List.getElem_cons_drop, List.take_append_drop])

/-! ### Counts that do not come back -/

/-- Whether the count, starting with `depth`, is positive all the time. -/
def StaysOpen (depth : Nat) (s : Fragment) : Prop := ∀ p, p <+: s → 0 < depthFrom depth p

theorem staysOpen_nil {d : Nat} : StaysOpen d [] ↔ 0 < d := by
  constructor
  · intro h
    exact h [] List.prefix_rfl
  · intro hd p hp
    rw [List.prefix_nil.mp hp]
    exact hd

theorem staysOpen_cons {d : Nat} {c : Char} {s : Fragment} :
    StaysOpen d (c :: s) ↔ 0 < d ∧ StaysOpen (changeDepth d c) s := by
  constructor
  · intro h
    exact ⟨h [] (List.nil_prefix), fun p hp => h (c :: p) (List.cons_prefix_cons.mpr ⟨rfl, hp⟩)⟩
  · rintro ⟨hd, h⟩ p hp
    rcases List.prefix_cons_iff.mp hp with rfl | ⟨q, rfl, hq⟩
    · exact hd
    · exact h q hq

/-- A text that goes on behind another one has to stay open from the depth that is reached. -/
theorem staysOpen_append {d : Nat} {s t : Fragment} :
    StaysOpen d (s ++ t) ↔ StaysOpen d s ∧ StaysOpen (depthFrom d s) t := by
  induction s generalizing d with
  | nil => exact ⟨fun h => ⟨staysOpen_nil.mpr (h [] List.nil_prefix), h⟩, And.right⟩
  | cons c s ih => rw [List.cons_append, staysOpen_cons, staysOpen_cons, ih, and_assoc]; rfl

theorem StaysOpen.allBlank {d : Nat} (hd : 0 < d) {b : Fragment} (hb : b.allBlank = true) :
    StaysOpen d b := by
  intro p hp
  have hblank : Fragment.allBlank p = true :=
    List.all_eq_true.mpr fun c hc => List.all_eq_true.mp hb c (hp.subset hc)
  rw [depthFrom_allBlank hblank]
  exact hd

/-- One bracket more that is open all the time only adds to the count. -/
theorem depthFrom_succ {d : Nat} {s : Fragment} (h : StaysOpen (d + 1) s) :
    depthFrom (d + 1) s = depthFrom d s + 1 := by
  induction s generalizing d with
  | nil => rfl
  | cons c s ih =>
    obtain ⟨-, hs⟩ := staysOpen_cons.mp h
    rw [depthFrom_cons, depthFrom_cons]
    by_cases hopen : c = '('
    · subst hopen
      exact ih hs
    by_cases hclose : c = ')'
    · subst hclose
      -- the bracket that is closed here is not the additional one
      have hpos : 0 < d := hs [] List.nil_prefix
      obtain ⟨d, rfl⟩ := Nat.exists_eq_add_of_le' hpos
      exact ih hs
    · rw [changeDepth_other hopen hclose] at hs ⊢
      rw [changeDepth_other hopen hclose, ih hs]

/-! ### The end of a group -/

/-- The end of a group is missing just when the depth never comes down. -/
theorem closeGroup?_eq_none_iff {d : Nat} {s : Fragment} :
    closeGroup? d s = none ↔ StaysOpen (d + 1) s := by
  induction s generalizing d with
  | nil => simp [closeGroup?, staysOpen_nil]
  | cons c s ih =>
    rw [staysOpen_cons]
    by_cases hclose : c = ')'
    · subst hclose
      cases d with
      | zero => simpa [closeGroup?] using fun h => absurd (h [] List.nil_prefix) (by simp)
      | succ d => simpa [closeGroup?] using ih
    by_cases hopen : c = '('
    · subst hopen
      simpa [closeGroup?] using ih
    · simpa [closeGroup?, hopen, hclose, changeDepth_other hopen hclose] using ih

instance (d : Nat) (s : Fragment) : Decidable (StaysOpen (d + 1) s) :=
  decidable_of_iff (closeGroup? d s = none) closeGroup?_eq_none_iff

/-- The count comes back to zero at the bracket behind `inner`, and not before. -/
theorem closeGroup?_append {d : Nat} {inner : Fragment} (hdepth : depthFrom (d + 1) inner = 1)
    (hopen : StaysOpen (d + 1) inner) (rest : Fragment) :
    closeGroup? d (inner ++ ')' :: rest) = some (inner, rest) := by
  induction inner generalizing d with
  | nil =>
    obtain rfl : d = 0 := by simpa using hdepth
    simp [closeGroup?]
  | cons c inner ih =>
    obtain ⟨-, hinner⟩ := staysOpen_cons.mp hopen
    rw [depthFrom_cons] at hdepth
    by_cases hc : c = '('
    · subst hc
      simp [closeGroup?, ih hdepth hinner]
    by_cases hc' : c = ')'
    · subst hc'
      -- within the group the depth is positive, so that this bracket closes another one
      have hpos : 0 < d := hinner [] List.nil_prefix
      obtain ⟨d, rfl⟩ := Nat.exists_eq_add_of_le' hpos
      simp [closeGroup?, ih hdepth hinner]
    · rw [changeDepth_other hc hc'] at hdepth hinner
      simp [closeGroup?, hc, hc', ih hdepth hinner]

/-- At the end of a group all brackets inside are closed again, and before it the group has been
open. -/
theorem depthFrom_of_closeGroup? {d : Nat} {s inner rest : Fragment}
    (h : closeGroup? d s = some (inner, rest)) :
    depthFrom (d + 1) inner = 1 ∧ StaysOpen (d + 1) inner := by
  induction s generalizing d inner with
  | nil => simp [closeGroup?] at h
  | cons c s ih =>
    by_cases hclose : c = ')'
    · subst hclose
      cases d with
      | zero =>
        obtain ⟨rfl, -⟩ : [] = inner ∧ s = rest := by simpa [closeGroup?] using h
        exact ⟨rfl, staysOpen_nil.mpr Nat.one_pos⟩
      | succ d =>
        obtain ⟨inner', hs, rfl⟩ : ∃ inner', closeGroup? d s = some (inner', rest) ∧
            ')' :: inner' = inner := by simpa [closeGroup?] using h
        obtain ⟨hdepth, hinner⟩ := ih hs
        exact ⟨hdepth, staysOpen_cons.mpr ⟨Nat.succ_pos _, hinner⟩⟩
    by_cases hopen : c = '('
    · subst hopen
      obtain ⟨inner', hs, rfl⟩ : ∃ inner', closeGroup? (d + 1) s = some (inner', rest) ∧
          '(' :: inner' = inner := by simpa [closeGroup?] using h
      obtain ⟨hdepth, hinner⟩ := ih hs
      exact ⟨hdepth, staysOpen_cons.mpr ⟨Nat.succ_pos _, hinner⟩⟩
    · obtain ⟨inner', hs, rfl⟩ : ∃ inner', closeGroup? d s = some (inner', rest) ∧
          c :: inner' = inner := by simpa [closeGroup?, hopen, hclose] using h
      obtain ⟨hdepth, hinner⟩ := ih hs
      rw [← changeDepth_other hopen hclose (d + 1)] at hdepth hinner
      exact ⟨hdepth, staysOpen_cons.mpr ⟨Nat.succ_pos _, hinner⟩⟩

/-! ### Texts of groups -/

/-- Whether a text may stand in a group: its brackets are closed in it, and the bracket in front of
it is not. -/
def Closed (s : Fragment) : Prop := depthFrom 1 s = 1 ∧ StaysOpen 1 s

instance (s : Fragment) : Decidable (Closed s) :=
  inferInstanceAs (Decidable (depthFrom 1 s = 1 ∧ StaysOpen (0 + 1) s))

/-- A group goes as far as its closed inside and one bracket more. -/
theorem closeGroup?_zero_iff {s inner rest : Fragment} :
    closeGroup? 0 s = some (inner, rest) ↔ s = inner ++ ')' :: rest ∧ Closed inner := by
  constructor
  · intro h
    exact ⟨closeGroup?_eq_some h, depthFrom_of_closeGroup? h⟩
  · rintro ⟨rfl, hdepth, hopen⟩
    exact closeGroup?_append hdepth hopen rest

theorem Closed.depth {s : Fragment} (h : Closed s) : depth s = 0 := by
  have hsucc := depthFrom_succ h.2
  rw [h.1] at hsucc
  exact (Nat.succ.inj hsucc).symm

/-- A closed text may have blanks anywhere. -/
theorem Closed.insert {s t b : Fragment} (h : Closed (s ++ t)) (hb : b.allBlank = true) :
    Closed (s ++ b ++ t) := by
  obtain ⟨hs, ht⟩ := staysOpen_append.mp h.2
  have hdepth := depthFrom_allBlank hb (depthFrom 1 s)
  have hpos : 0 < depthFrom 1 s := hs s List.prefix_rfl
  rw [Closed, depthFrom_append, depthFrom_append, hdepth, staysOpen_append, staysOpen_append,
    depthFrom_append, hdepth, ← depthFrom_append]
  exact ⟨h.1, ⟨hs, .allBlank hpos hb⟩, ht⟩

/-- A bracket in front of a text stays open when every `)` of the text closes one of its own. -/
theorem staysOpen_one_iff {s : Fragment} : StaysOpen 1 s ↔ OnlyInside ')' s := by
  constructor
  · rintro h a b rfl
    -- behind the `)` the bracket in front is open as well
    have ha : StaysOpen 1 a := fun p hp => h p (hp.trans (List.prefix_append _ _))
    have hclose := h (a ++ [')']) ⟨b, by simp⟩
    rw [depthFrom_append, depthFrom_succ ha, depthFrom_cons, changeDepth_close] at hclose
    exact hclose
  · intro h
    have hprefix : ∀ p, p <+: s → StaysOpen 1 p := by
      intro p hp
      induction p using List.reverseRecOn with
      | nil => exact staysOpen_nil.mpr Nat.one_pos
      | append_singleton p c ih =>
        have hopen := ih ((List.prefix_append p [c]).trans hp)
        intro q hq
        rcases List.prefix_concat_iff.mp hq with rfl | hq
        · rw [depthFrom_append, depthFrom_succ hopen, depthFrom_cons, depthFrom_nil]
          by_cases hc : c = ')'
          · subst hc
            obtain ⟨b, rfl⟩ := hp
            exact h p b (by simp)
          · rw [changeDepth, if_neg hc]
            split <;> exact Nat.succ_pos _
        · exact hopen q hq
    exact hprefix s List.prefix_rfl

/-- A text is closed when each of its brackets closes or is closed by another one. -/
theorem closed_iff {s : Fragment} : Closed s ↔ depth s = 0 ∧ OnlyInside ')' s := by
  rw [← staysOpen_one_iff]
  constructor
  · exact fun h => ⟨h.depth, h.2⟩
  · rintro ⟨hdepth, hopen⟩
    refine ⟨?_, hopen⟩
    rw [depthFrom_succ hopen]
    exact congrArg (· + 1) hdepth

end Formula.Fragment
