import Formula.Proofs.Parser.Echo
import Formula.Proofs.Parser.Marks
import Formula.Proofs.Parser.Origin
import Mathlib.Data.List.Perm.Subperm

/-!
# Reading without end

A placeholder that is typed in a text may lead to a group that it stands in itself. Then there are
longer and longer chains of calls, and reading does not come to an end, whatever the bound on their
length (`Halts`). There is no other way for the bound of `parse` to be met: `halts_iff`.

A fragment that is reached from itself is reached again from there, with more groups
(`CallChain.endless_of_echo`). So a reading with an end expands every typed placeholder once at most
on the way to a fragment (`Expanded.notMem`). Between two of them each call leads to a shorter piece
of a group, which is a piece of the text. This bounds the length of all chains
(`CallChain.length_le_of_ends`).
-/

namespace Formula.Parser

variable {α : Type}

section Runs

variable {σ ε β γ : Type} {f : β → StateT σ (Except ε) γ} {st : σ} {e : ε}

/-- Several steps fail at the first one that does. -/
theorem mapM_append_cons_eq_error {before after : List β} {b : β}
    (h : (before.mapM f).run st = .error e ∨
      ∃ cs st', (before.mapM f).run st = .ok (cs, st') ∧ (f b).run st' = .error e) :
    ((before ++ b :: after).mapM f).run st = .error e := by
  rw [List.mapM_append, bind_eq_error]
  refine h.imp_right ?_
  rintro ⟨cs, st', hbefore, hb⟩
  refine ⟨cs, st', hbefore, bind_eq_error.mpr (Or.inl ?_)⟩
  rw [mapM_cons_run, hb]
  rfl

end Runs

variable [Zero α] [Numeral α] {vocabulary : Vocabulary α} {n m : Nat} {s t u : Fragment}
  {st st' st'' : State α}

/-- Whether reading a text comes to an end: with enough fragments inside each other it is read, or
fails in its own right. -/
def Halts (vocabulary : Vocabulary α) (text : String) : Prop :=
  ∃ depth, (fragment vocabulary depth text.toList).run .initial ≠ .error .endlessExpansion

/-- Reading without end stops at every bound. -/
theorem not_halts_iff {text : String} :
    ¬Halts vocabulary text ↔
      ∀ depth, (fragment vocabulary depth text.toList).run .initial = .error .endlessExpansion := by
  rw [Halts, not_exists]
  exact forall_congr' fun depth => not_not

/-! ### Chains of calls -/

/-- A part that is called comes to an end within a depth less, if the whole does. The parts in front
of it may have been read with another bound. -/
theorem Calls.ne_endless {depth : Nat} (h : Calls vocabulary s st t st')
    (hend : (fragment vocabulary (depth + 1) s).run st ≠ .error .endlessExpansion) :
    (fragment vocabulary depth t).run st' ≠ .error .endlessExpansion := by
  obtain ⟨reading, st₁, before, after, depth', trees, hstep, hparts, hbefore⟩ := h
  intro hpart
  refine hend (fragment_eq_error.mpr (Or.inr ⟨reading, st₁, hstep, Or.inl ?_⟩))
  rw [hparts]
  refine mapM_append_cons_eq_error ?_
  by_cases hstop : (before.mapM (fragment vocabulary depth)).run st₁ = .error .endlessExpansion
  · exact Or.inl hstop
  · -- the parts in front have the result that they have with the other bound
    have hlarge := mapM_eq_of_ne_error (g := fragment vocabulary (max depth depth'))
      (fun s st hs => fragment_mono (le_max_left depth depth') hs) hstop
    rw [mapM_fragment_mono (le_max_right depth depth') hbefore] at hlarge
    exact Or.inr ⟨trees, st', hlarge.symm, hpart⟩

/-- What is read within a bound is read with fewer fragments inside each other behind a chain of
calls. -/
theorem CallChain.ne_endless {depth : Nat} (h : CallChain vocabulary n s st t st')
    (hend : (fragment vocabulary (depth + n) s).run st ≠ .error .endlessExpansion) :
    (fragment vocabulary depth t).run st' ≠ .error .endlessExpansion := by
  induction h with
  | refl => exact hend
  | step hcall _ ih => exact ih (hcall.ne_endless hend)

/-- If the bound is met, then by a chain of calls that is as long. -/
theorem exists_callChain_of_endless {depth : Nat}
    (h : (fragment vocabulary depth s).run st = .error .endlessExpansion) :
    ∃ t st', CallChain vocabulary depth s st t st' := by
  induction depth generalizing s st with
  | zero => exact ⟨s, st, .refl s st⟩
  | succ depth ih =>
    rcases fragment_eq_error.mp h with hstep | ⟨reading, st₁, hstep, hparts | hassemble⟩
    · exact absurd hstep (interpret_ne_endless s st)
    · obtain ⟨before, t, after, trees, st', hsplit, hbefore, hpart⟩ :=
        exists_append_of_mapM_error hparts
      obtain ⟨u, st'', hchain⟩ := ih hpart
      exact ⟨u, st'', .step ⟨reading, st₁, before, after, depth, trees, hstep, hsplit, hbefore⟩
        hchain⟩
    · obtain ⟨trees, st₂, -, hassemble⟩ := hassemble
      exact absurd hassemble (assemble_ne_endless reading trees)

/-- Reading stops at a bound just when some chain of calls is as long as the bound. -/
theorem fragment_eq_endless_iff {depth : Nat} :
    (fragment vocabulary depth s).run st = .error .endlessExpansion ↔
      ∃ t st', CallChain vocabulary depth s st t st' := by
  refine ⟨exists_callChain_of_endless, ?_⟩
  rintro ⟨t, st', hchain⟩
  by_contra hend
  rw [← Nat.zero_add depth] at hend
  exact hchain.ne_endless hend (fragment_zero t st')

theorem CallChain.trans (h : CallChain vocabulary n s st t st')
    (h' : CallChain vocabulary m t st' u st'') : CallChain vocabulary (n + m) s st u st'' := by
  induction h with
  | refl => rwa [Nat.zero_add]
  | step hcall _ ih =>
    rw [Nat.add_right_comm]
    exact .step hcall (ih h')

theorem Calls.extends (h : Calls vocabulary s st t st') : st.groups.Extends st'.groups := by
  obtain ⟨reading, st₁, before, after, depth, trees, hstep, hparts, hbefore⟩ := h
  exact (interpret_extends hstep).trans (mapM_fragment_extends hbefore)

theorem CallChain.extends (h : CallChain vocabulary n s st t st') :
    st.groups.Extends st'.groups := by
  induction h with
  | refl => exact .refl _
  | step hcall _ ih => exact hcall.extends.trans ih

/-- Whatever makes a call is interpreted, and the groups that it sets aside stay. -/
theorem Calls.interprets (h : Calls vocabulary s st t st') :
    ∃ reading st₁, (interpret vocabulary s).run st = .ok (reading, st₁) ∧
      st₁.groups.Extends st'.groups := by
  obtain ⟨reading, st₁, before, after, depth, trees, hstep, hparts, hbefore⟩ := h
  exact ⟨reading, st₁, hstep, mapM_fragment_extends hbefore⟩

/-- All of a chain is interpreted if its end is. -/
theorem CallChain.exists_interpret (h : CallChain vocabulary n s st t st')
    (ht : ∃ r, (interpret vocabulary t).run st' = .ok r) :
    ∃ r, (interpret vocabulary s).run st = .ok r := by
  cases h with
  | refl => exact ht
  | step hcall =>
    obtain ⟨reading, st₁, hstep, -⟩ := hcall.interprets
    exact ⟨_, hstep⟩

/-! ### Chains that are repeated -/

section Loops

variable (hnames : ∀ name ∈ vocabulary.names, '&' ∉ name.toList)
include hnames

/-- A call is made again when there are more groups, those that there are at the call among them. -/
theorem Calls.echo {s' : Fragment} {st₁ : State α} (h : Calls vocabulary s st t st₁)
    (hecho : Echo st.groups st'.groups s s') (hext : st₁.groups.Extends st'.groups)
    (ht : ∃ r, (interpret vocabulary t).run st₁ = .ok r) :
    ∃ t' st₁', Calls vocabulary s' st' t' st₁' ∧ Echo st₁.groups st₁'.groups t t' := by
  obtain ⟨reading, st₂, before, after, depth, trees, hstep, hparts, hbefore⟩ := h
  have hlater := mapM_fragment_extends hbefore
  obtain ⟨reading', st₂', hstep', hreading | ⟨part, error, hpart, herror⟩⟩ :=
    interpret_echo hnames hecho hstep (hlater.trans hext)
  · have hall := hreading.parts
    rw [hparts] at hall
    obtain ⟨before', t', after', hparts', hbefore', ht'⟩ := Outline.forall₂_append_cons hall
    obtain ⟨trees', st₁', hrun', -⟩ := mapM_echo
      (fun s s' st st₁ st' tree hecho hrun hext => fragment_echo hnames hecho hrun hext) hbefore'
      hbefore (hext.trans (interpret_extends hstep'))
    exact ⟨t', st₁', ⟨reading', st₂', before', after', depth, trees', hstep', hparts', hrun'⟩,
      ht'.mono hlater (mapM_fragment_extends hrun')⟩
  · -- the only part is not interpreted
    rw [hparts] at hpart
    obtain ⟨rfl, rfl, rfl⟩ : before = [] ∧ t = part ∧ after = [] := by
      cases before with
      | nil => simpa using hpart
      | cons b before => simp at hpart
    obtain ⟨-, rfl⟩ := Prod.mk.inj (Except.ok.inj hbefore)
    obtain ⟨r, hr⟩ := ht
    exact nomatch herror.symm.trans hr

/-- A chain of calls is made again when there are more groups, if its end is interpreted. -/
theorem CallChain.echo {s' : Fragment} {st₁ : State α} (h : CallChain vocabulary n s st t st₁)
    (hecho : Echo st.groups st'.groups s s') (hext : st₁.groups.Extends st'.groups)
    (ht : ∃ r, (interpret vocabulary t).run st₁ = .ok r) :
    ∃ t' st₁', CallChain vocabulary n s' st' t' st₁' ∧ Echo st₁.groups st₁'.groups t t' := by
  induction h generalizing s' st' with
  | refl s st => exact ⟨s', st', .refl s' st', hecho⟩
  | step hcall hchain ih =>
    obtain ⟨u', st₂', hcall', hecho'⟩ :=
      hcall.echo hnames hecho (hchain.extends.trans hext) (hchain.exists_interpret ht)
    obtain ⟨t', st₁', hchain', ht'⟩ := ih hecho' (hext.trans hcall'.extends) ht
    exact ⟨t', st₁', .step hcall' hchain', ht'⟩

/-- A chain that leads to its beginning over again has no end. -/
theorem CallChain.endless_of_echo (h : CallChain vocabulary n s st t st') (hpos : 0 < n)
    (hecho : Echo st.groups st'.groups s t) (depth : Nat) :
    (fragment vocabulary depth s).run st = .error .endlessExpansion := by
  induction depth using Nat.strongRecOn generalizing s st t st' with
  | ind depth ih =>
    -- the end of the chain is interpreted as its beginning is
    obtain ⟨u, st'', hchain, hagain⟩ : ∃ u st'', CallChain vocabulary n t st' u st'' ∧
        Echo st'.groups st''.groups t u := by
      refine h.echo hnames hecho (.refl _) ?_
      cases h with
      | refl => omega
      | step hcall hrest =>
        obtain ⟨reading, st₁, hstep, hlater⟩ := hcall.interprets
        obtain ⟨reading', st₁', hstep', -⟩ :=
          interpret_echo hnames hecho hstep (hlater.trans hrest.extends)
        exact ⟨_, hstep'⟩
    by_contra hend
    by_cases hle : n ≤ depth
    · rw [← Nat.sub_add_cancel hle] at hend
      exact h.ne_endless hend (ih (depth - n) (by omega) hchain hagain)
    · have hle' : depth ≤ 0 + n := by omega
      rw [← fragment_mono hle' hend] at hend
      exact h.ne_endless hend (fragment_zero t st')

/-! ### Typed placeholders -/

/-- What stands between each `&` of a text and the next `;`. -/
def interiors : Fragment → List Fragment
  | [] => []
  | c :: s => if c = '&' then s.takeWhile (· != ';') :: interiors s else interiors s

omit hnames [Zero α] [Numeral α] in
theorem length_interiors (s : Fragment) : (interiors s).length = s.count '&' := by
  induction s with
  | nil => rfl
  | cons c s ih =>
    rw [interiors]
    by_cases hc : c = '&'
    · rw [if_pos hc, List.length_cons, ih, hc, List.count_cons_self]
    · rw [if_neg hc, ih, List.count_cons_of_ne hc]

omit hnames [Zero α] [Numeral α] in
/-- A placeholder that is typed is among those that are counted. -/
theorem mem_interiors {s interior : Fragment} (hsub : '&' :: (interior ++ [';']) <:+: s)
    (hsemi : ';' ∉ interior) : interior ∈ interiors s := by
  obtain ⟨a, b, rfl⟩ := hsub
  induction a with
  | nil =>
    have htake := Text.takeWhile_append hsemi b
    simp [interiors, htake]
  | cons c a ih =>
    rw [List.cons_append, List.cons_append, interiors]
    split
    · exact List.mem_cons_of_mem _ ih
    · exact ih

/-- What is called stands for a shorter piece, or a typed placeholder leads to it. -/
theorem Calls.stands_or_typed {piece : Fragment} (h : Calls vocabulary s st t st')
    (hs : Stands st.groups piece s) :
    (∃ text, Stands st'.groups text t ∧ text <:+: piece ∧ text.length < piece.length) ∨
      ∃ interior, '&' :: (interior ++ [';']) <:+: piece ∧ ';' ∉ interior ∧
        st'.groups.resolve interior = .ok t := by
  obtain ⟨reading, st₁, before, after, depth, trees, hstep, hparts, hbefore⟩ := h
  have hext := mapM_fragment_extends hbefore
  rcases parts_stand_or_typed hnames hs hstep t (by simp [hparts]) with
    ⟨text, ht, hsub, hlt⟩ | ⟨interior, htyped, -, hsemi, hresolve⟩
  · exact Or.inl ⟨text, ht.mono hext, hsub, hlt⟩
  · exact Or.inr ⟨interior, htyped, hsemi, hext.resolve hresolve⟩

/-- Whether the typed placeholders that have been expanded on the way to a fragment are told by
their interiors: each has led to a text, and from there on to the fragment. -/
def Expanded (vocabulary : Vocabulary α) (text : Fragment) (seen : List Fragment) (s : Fragment)
    (st : State α) : Prop :=
  ∀ interior ∈ seen, interior ∈ interiors text ∧ ∃ i j t st',
    CallChain vocabulary i text .initial t st' ∧ CallChain vocabulary j t st' s st ∧
      st'.groups.resolve interior = .ok t

omit hnames in
/-- What has been expanded on the way to a fragment has been on the way to its parts. -/
theorem Expanded.of_calls {text : Fragment} {seen : List Fragment}
    (h : Expanded vocabulary text seen s st) (hcall : Calls vocabulary s st t st') :
    Expanded vocabulary text seen t st' := by
  intro interior hmem
  obtain ⟨htyped, i, j, u, st₁, hbefore, hafter, hresolve⟩ := h interior hmem
  exact ⟨htyped, i, j + 1, u, st₁, hbefore, hafter.trans (.step hcall (.refl t st')), hresolve⟩

/-- While reading comes to an end, a typed placeholder is not expanded again. -/
theorem Expanded.notMem {text interior : Fragment} {seen : List Fragment} {depth : Nat}
    (h : Expanded vocabulary text seen s st)
    (hread : (fragment vocabulary depth text).run .initial ≠ .error .endlessExpansion)
    (hcall : Calls vocabulary s st t st') (ht : st'.groups.resolve interior = .ok t) :
    interior ∉ seen := by
  intro hmem
  obtain ⟨-, i, j, u, st₁, hbefore, hafter, hresolve⟩ := h interior hmem
  have hloop := hafter.trans (.step hcall (.refl t st'))
  -- it leads to the same text as before
  obtain rfl : u = t := Except.ok.inj ((hloop.extends.resolve hresolve).symm.trans ht)
  have hend : (fragment vocabulary (depth + i) text).run .initial ≠ .error .endlessExpansion := by
    rwa [fragment_mono (Nat.le_add_right depth i) hread]
  exact hbefore.ne_endless hend
    (hloop.endless_of_echo hnames (Nat.succ_pos j) (.text u) depth)

/-- While reading comes to an end, each call leads to a shorter piece or expands a placeholder that
has not been expanded yet. So chains are no longer than the pieces that they may go through. -/
theorem CallChain.length_le_of_ends {text piece : Fragment} {seen : List Fragment} {depth k : Nat}
    (hread : (fragment vocabulary depth text).run .initial ≠ .error .endlessExpansion)
    (h : CallChain vocabulary n s st t st') (hroot : CallChain vocabulary k text .initial s st)
    (hpiece : piece <:+: text) (hs : Stands st.groups piece s) (hnodup : seen.Nodup)
    (hseen : Expanded vocabulary text seen s st) :
    n ≤ piece.length + ((interiors text).length - seen.length) * (text.length + 1) := by
  induction h generalizing k piece seen with
  | refl => exact Nat.zero_le _
  | @step n s t u st st' st'' hcall hchain ih =>
    have hroot' := hroot.trans (.step hcall (.refl t st'))
    have hseen' := hseen.of_calls hcall
    rcases hcall.stands_or_typed hnames hs with ⟨piece', ht, hsub, hlt⟩ |
        ⟨interior, htyped, hsemi, ht⟩
    · have hle := ih hroot' (hsub.trans hpiece) ht hnodup hseen'
      omega
    · -- one placeholder is left less, and any piece of the text may follow
      have hnodup' : (interior :: seen).Nodup :=
        List.nodup_cons.mpr ⟨hseen.notMem hnames hread hcall ht, hnodup⟩
      have hmore : Expanded vocabulary text (interior :: seen) t st' :=
        List.forall_mem_cons.mpr ⟨⟨mem_interiors (htyped.trans hpiece) hsemi, k + 1, 0, t, st',
          hroot', .refl t st', ht⟩, hseen'⟩
      have hcount : (interior :: seen).length ≤ (interiors text).length :=
        (hnodup'.subperm fun i hi => (hmore i hi).1).length_le
      have hinner : t <:+: text :=
        (hroot'.sited hnames (sited_initial text)).groups t (Groups.mem_of_resolve ht)
      have hle := ih hroot' hinner (Or.inl rfl) hnodup' hmore
      have hlen := hinner.length_le
      obtain ⟨m, hm⟩ := Nat.exists_eq_add_of_le hcount
      rw [hm, Nat.add_sub_cancel_left] at hle
      rw [hm, List.length_cons, Nat.add_right_comm, Nat.add_assoc, Nat.add_sub_cancel_left,
        Nat.succ_mul]
      omega

/-- The bound that `parse` takes is met only when every bound is. -/
theorem halts_iff {text : String} :
    Halts vocabulary text ↔ parse vocabulary text ≠ .error .endlessExpansion := by
  rw [ne_eq, parse_eq_error]
  refine ⟨?_, fun h => ⟨_, h⟩⟩
  rintro ⟨depth, hread⟩ h
  obtain ⟨t, st, hchain⟩ := exists_callChain_of_endless h
  have hle := hchain.length_le_of_ends hnames hread (.refl _ _) (List.infix_refl _) (Or.inl rfl)
    List.nodup_nil (List.forall_mem_nil _)
  -- the bound is more than the number of `&` times the length of the text
  have hlen := length_le_byteLength text.toList
  have hbound := mul_le_depthBound vocabulary text.toList
  rw [length_interiors, List.length_nil, Nat.sub_zero] at hle
  have hcompare := Nat.mul_le_mul_left (text.toList.count '&') (Nat.add_le_add_right hlen 1)
  rw [Nat.succ_mul] at hbound
  omega

/-- A text in which no placeholder is typed is read to the end. -/
theorem halts_of_typesNoPlaceholder {text : String} (htext : TypesNoPlaceholder text.toList) :
    Halts vocabulary text :=
  have hstands : Stands (State.initial : State α).groups text.toList text.toList := Or.inl rfl
  ⟨_, hstands.fragment_ne_endless hnames htext (Nat.lt_succ_self _)⟩

end Loops

/-- A group that is its own placeholder is expanded without end. -/
theorem not_halts_typed (hdistinct : vocabulary.Distinct) : ¬Halts vocabulary "(&0;)" := by
  have hfirst : firstGroup? (Fragment.trim "(&0;)".toList) = some ([], ['&', '0', ';'], []) := by
    decide
  have hset : Groups.empty.setAside (Fragment.trim "(&0;)".toList) =
      (.ok ['&', '0', ';'], ⟨#[['&', '0', ';']]⟩) :=
    setAside_of_hide (hide_of_firstGroup? hfirst (hide_of_notMem List.not_mem_nil)) (by decide)
  have htext : Groups.resolve ⟨#[['&', '0', ';']]⟩ ['0'] = .ok ['&', '0', ';'] := rfl
  have hloop : ∀ depth, (fragment vocabulary depth ['&', '0', ';']).run
      ⟨⟨#[['&', '0', ';']]⟩, .empty⟩ = .error .endlessExpansion := by
    intro depth
    induction depth with
    | zero => rfl
    | succ depth ih => rw [fragment_run_placeholder hdistinct rfl rfl htext, ih]
  rintro ⟨depth, hread⟩
  cases depth with
  | zero => exact hread rfl
  | succ depth =>
    rw [fragment_run_of_setAside hset (by decide)] at hread
    exact hread (hloop _)

end Formula.Parser
