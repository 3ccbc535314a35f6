import Formula.Proofs.Outline.Closed
import Formula.Proofs.Parser.Depth

/-!
# Where fragments come from

Whatever is read is a piece of the text, with groups replaced by placeholders at most. A step sets
the groups of a fragment aside, which are pieces of it, and its parts are pieces of it or the text
of a group that was set aside before. This holds of typed placeholders too: they may lead to a group
that is read already, but not out of the text.

`Sited text st s` says so of a fragment `s` that is read in the state `st`. `interpret_sited` is the
step, and `fragment_sited` says that reading one fragment leaves the others sited.
-/

namespace Formula

/-- The text of a group is a piece of the text. -/
theorem Outline.isInfix_of_group_mem {o : Outline} {inner : Fragment} (h : .group inner ∈ o) :
    inner <:+: o.text := by
  obtain ⟨l, r, rfl⟩ := List.append_of_mem h
  exact ⟨Outline.text l ++ ['('], ')' :: Outline.text r, by simp [Piece.text]⟩

namespace Parser

open Outline (Masked)

variable {α : Type}

/-- Whether a fragment and all groups are pieces of a text: the fragment stands for one, and the
groups are some. -/
structure Sited (text : Fragment) (st : State α) (s : Fragment) : Prop where
  groups : ∀ inner ∈ st.groups.toList, inner <:+: text
  stands : ∃ piece, piece <:+: text ∧ Stands st.groups piece s

theorem sited_initial (s : Fragment) : Sited s (State.initial : State α) s :=
  ⟨fun _ hinner => absurd hinner List.not_mem_nil, s, List.infix_refl s, Or.inl rfl⟩

/-- A fragment stays sited while more pieces of the text are set aside. -/
theorem Sited.mono {text s : Fragment} {st st' : State α} (h : Sited text st s)
    (hext : st.groups.Extends st'.groups)
    (hgroups : ∀ inner ∈ st'.groups.toList, inner <:+: text) : Sited text st' s :=
  ⟨hgroups, h.stands.imp fun _ ⟨hpiece, hs⟩ => ⟨hpiece, hs.mono hext⟩⟩

/-- The groups of a sited fragment are pieces of the text. -/
theorem Sited.setAside {text s : Fragment} {st : State α} (h : Sited text st s) :
    ∀ inner ∈ (st.groups.setAside s.trim).2.toList, inner <:+: text := by
  obtain ⟨piece, hpiece, rfl | ⟨o, -, hs⟩⟩ := h.stands
  -- a text that is read for the first time adds groups, and all of them are pieces of it
  · intro inner hinner
    rw [Outline.setAside_eq, (Outline.hide_eq _ _).2] at hinner
    rcases List.mem_append.mp hinner with hold | hnew
    · exact h.groups inner hold
    · obtain ⟨piece, hmem, heq⟩ := List.mem_filterMap.mp hnew
      cases piece with
      | plain c => exact nomatch heq
      | group inner' =>
        obtain rfl := Option.some.inj heq
        have hscan : (Outline.scan s.trim).1.text <:+: s.trim :=
          ⟨[], (Outline.scan s.trim).2, Outline.scan_text s.trim⟩
        exact (Outline.isInfix_of_group_mem hmem).trans <| hscan.trans <|
          (Text.trimBy_isInfix s).trans hpiece
  · rw [hs.trim.setAside]
    exact h.groups

variable [Zero α] [Numeral α] {vocabulary : Vocabulary α}

/-- A step leaves every fragment sited, and the parts of a sited one are sited. -/
theorem interpret_sited (hnames : ∀ name ∈ vocabulary.names, '&' ∉ name.toList)
    {text s : Fragment} {st st' : State α} {reading : Reading α} (h : Sited text st s)
    (hstep : (interpret vocabulary s).run st = .ok (reading, st')) :
    (∀ part ∈ reading.parts, Sited text st' part) ∧
      ∀ s', Sited text st s' → Sited text st' s' := by
  have hext := interpret_extends hstep
  obtain ⟨hidden, hhidden, hrule⟩ := interpret_eq_ok hstep
  have hgroups : ∀ inner ∈ st'.groups.toList, inner <:+: text := by
    rw [interpret_groups_eq hstep]
    exact h.setAside
  refine ⟨fun part hpart => ⟨hgroups, ?_⟩, fun s' hs' => hs'.mono hext hgroups⟩
  obtain ⟨piece, hpiece, hs⟩ := h.stands
  obtain ⟨o, hsub, hmasked⟩ := hs.masked hhidden
  rw [← interpret_groups_eq hstep] at hmasked
  -- a part is the text of a group, or within the fragment with its groups in place
  rcases hrule.group_or_masked hnames hmasked with
    ⟨interior, inner, rfl, -, -, hresolve⟩ | ⟨-, ps, hparts, -, hps⟩
  · obtain rfl := List.mem_singleton.mp hpart
    exact ⟨part, hgroups part (Groups.mem_of_resolve hresolve), Or.inl rfl⟩
  · obtain ⟨p, hp, hpart⟩ := Outline.exists_of_forall₂ hparts hpart
    obtain ⟨hwithin, -⟩ := hps p hp
    exact ⟨p.text, (hwithin.flatMap Piece.text).trans (hsub.trans hpiece), Or.inr ⟨p, rfl, hpart⟩⟩

/-! ### Several fragments -/

section Runs

variable {σ ε β γ : Type} {f g : β → StateT σ (Except ε) γ} {I : σ → β → Prop} {bs : List β}
  {st : σ}

/-- An invariant of all inputs that every step keeps is kept by several. -/
theorem keeps_of_mapM (hkeep : ∀ b st c st', I st b → (f b).run st = .ok (c, st') →
    ∀ b', I st b' → I st' b') (hbs : ∀ b ∈ bs, I st b) {cs : List γ} {st' : σ}
    (h : (bs.mapM f).run st = .ok (cs, st')) : ∀ b', I st b' → I st' b' := by
  induction bs generalizing st cs with
  | nil =>
    obtain ⟨-, rfl⟩ := Prod.mk.inj (Except.ok.inj h)
    exact fun _ => id
  | cons b bs ih =>
    obtain ⟨c, st₁, cs', hb, hrest, rfl⟩ := mapM_cons_eq_ok.mp h
    have hfirst := hkeep b st c st₁ (hbs b List.mem_cons_self) hb
    exact fun b' hb' => ih (fun b hmem => hfirst b (hbs b (List.mem_cons_of_mem _ hmem))) hrest b'
      (hfirst b' hb')

/-- Steps that agree where an invariant holds that they keep agree one after another. -/
theorem mapM_congr_of_keeps (hfg : ∀ b st, I st b → (f b).run st = (g b).run st)
    (hkeep : ∀ b st c st', I st b → (f b).run st = .ok (c, st') → ∀ b', I st b' → I st' b')
    (hbs : ∀ b ∈ bs, I st b) : (bs.mapM f).run st = (bs.mapM g).run st := by
  induction bs generalizing st with
  | nil => rfl
  | cons b bs ih =>
    have hb := hbs b List.mem_cons_self
    rw [mapM_cons_run, mapM_cons_run, ← hfg b st hb]
    rcases hrun : (f b).run st with e | ⟨c, st'⟩
    · rfl
    · have hrest := ih fun b' hb' =>
        hkeep b st c st' hb hrun b' (hbs b' (List.mem_cons_of_mem _ hb'))
      simp only [Except.bind, hrest]

end Runs

/-- Reading a sited fragment leaves all others sited. -/
theorem fragment_sited (hnames : ∀ name ∈ vocabulary.names, '&' ∉ name.toList) {depth : Nat}
    {text s : Fragment} {st st' : State α} {tree : Tree α} (h : Sited text st s)
    (hrun : (fragment vocabulary depth s).run st = .ok (tree, st')) :
    ∀ s', Sited text st s' → Sited text st' s' := by
  induction depth generalizing s st st' tree with
  | zero => exact nomatch (fragment_zero s st).symm.trans hrun
  | succ depth ih =>
    obtain ⟨reading, st₁, trees, hstep, hparts, -⟩ := fragment_eq_ok.mp hrun
    obtain ⟨hsited, hothers⟩ := interpret_sited hnames h hstep
    have hkeep := keeps_of_mapM (I := Sited text) (fun s st tree st' hs hrun => ih hs hrun) hsited
      hparts
    exact fun s' hs' => hkeep s' (hothers s' hs')

/-! ### Chains of calls -/

section Chains

variable {text s t : Fragment} {st st' : State α}

/-- What is called is a piece of the text, or the text of a group, which is a piece as well. -/
theorem Calls.sited (hnames : ∀ name ∈ vocabulary.names, '&' ∉ name.toList) (h : Sited text st s)
    (hcall : Calls vocabulary s st t st') : Sited text st' t := by
  obtain ⟨reading, st₁, before, after, depth, trees, hstep, hparts, hbefore⟩ := hcall
  obtain ⟨hsited, -⟩ := interpret_sited hnames h hstep
  exact keeps_of_mapM (I := Sited text)
    (fun s st tree st' hs hrun => fragment_sited hnames hs hrun)
    (fun s hs => hsited s (by simp [hparts, hs])) hbefore t (hsited t (by simp [hparts]))

theorem CallChain.sited (hnames : ∀ name ∈ vocabulary.names, '&' ∉ name.toList) {n : Nat}
    (h : Sited text st s) (hchain : CallChain vocabulary n s st t st') : Sited text st' t := by
  induction hchain with
  | refl => exact h
  | step hcall _ ih => exact ih (hcall.sited hnames h)

end Chains

end Parser

end Formula
