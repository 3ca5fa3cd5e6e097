import Mathlib.Data.List.Induction
import Mathlib.Tactic.Common

/-!
# Labelled transition systems and their finite runs

A run is a list of labels together with the state it leads to. The list grows
at its end, so an invariant may speak about the whole past of a state, and the
induction of a run is the induction of its last step.
-/

namespace Trace

/-- An entry of a longer history is the newest one or was there before. -/
theorem split_snoc {ε : Type*} {tr tr₁ tr₂ : List ε} {e x : ε}
    (h : tr ++ [e] = tr₁ ++ x :: tr₂) :
    (tr₁ = tr ∧ x = e ∧ tr₂ = []) ∨ ∃ tr', tr₂ = tr' ++ [e] ∧ tr = tr₁ ++ x :: tr' := by
  rcases List.eq_nil_or_concat tr₂ with rfl | ⟨tr', y, rfl⟩
  · obtain ⟨htr, he⟩ := List.append_inj' h rfl
    exact .inl ⟨htr.symm, (List.singleton_inj.mp he).symm, rfl⟩
  · rw [List.concat_eq_append, ← List.cons_append, ← List.append_assoc] at h
    obtain ⟨htr, he⟩ := List.append_inj' h rfl
    exact .inr ⟨tr', by rw [List.concat_eq_append, List.singleton_inj.mp he], htr⟩

/-- What follows an entry that is not among the first ones follows the next. -/
theorem subset_of_split {ε : Type*} {tr₁ tr₂ tr₁' tr₂' : List ε} {x y : ε}
    (h : tr₁ ++ x :: tr₂ = tr₁' ++ y :: tr₂') (hy : y ∉ tr₁) : tr₂' ⊆ tr₂ := by
  rcases List.append_eq_append_iff.mp h with ⟨as, -, has⟩ | ⟨bs, hbs, hrest⟩
  · cases as with
    | nil =>
      cases has
      exact List.Subset.refl _
    | cons a as =>
      cases has
      intro z hz
      exact List.mem_append_right _ (List.mem_cons_of_mem _ hz)
  · cases bs with
    | nil =>
      cases hrest
      exact List.Subset.refl _
    | cons b bs =>
      cases hrest
      exact absurd (by simp [hbs]) hy

/-- A labelled transition system: the initial states and the steps. -/
structure Lts (σ ε : Type*) where
  init : σ → Prop
  step : σ → ε → σ → Prop

namespace Lts
variable {σ ε : Type*}

/-- `M.Run tr s`: the labels `tr`, in order, lead from an initial state to `s`. -/
inductive Run (M : Lts σ ε) : List ε → σ → Prop
  | init {s} : M.init s → Run M [] s
  | snoc {tr s e s'} : Run M tr s → M.step s e s' → Run M (tr ++ [e]) s'

def Reachable (M : Lts σ ε) (s : σ) : Prop := ∃ tr, M.Run tr s

/-- The same steps, from a given state on. -/
def startingAt (M : Lts σ ε) (s₀ : σ) : Lts σ ε where
  init s := s = s₀
  step := M.step

variable {M : Lts σ ε}

/-- A run can be continued from where it led. -/
theorem Run.append {tr tr' : List ε} {s₀ s : σ} (h : M.Run tr s₀)
    (h' : (M.startingAt s₀).Run tr' s) : M.Run (tr ++ tr') s := by
  induction h' with
  | init hi =>
    cases hi
    rw [List.append_nil]
    exact h
  | snoc _ he ih =>
    rw [← List.append_assoc]
    exact ih.snoc he

/-- Nothing has happened in a run without labels. -/
theorem Run.state_of_nil {s₀ s : σ} (h : (M.startingAt s₀).Run [] s) : s = s₀ := by
  generalize htr : ([] : List ε) = tr at h
  cases h with
  | init hi => exact hi
  | snoc => simp at htr

/-- The step in the middle of a run, and the run before it. -/
theorem Run.step_of_split {tr tr₁ tr₂ : List ε} {e : ε} {s : σ} (h : M.Run tr s)
    (htr : tr = tr₁ ++ e :: tr₂) : ∃ s₁ s₂, M.Run tr₁ s₁ ∧ M.step s₁ e s₂ := by
  induction h generalizing tr₂ with
  | init => simp at htr
  | @snoc tr s d s' hrun he ih =>
    rcases split_snoc htr with ⟨rfl, rfl, -⟩ | ⟨tr', -, htr'⟩
    · exact ⟨s, s', hrun, he⟩
    · exact ih htr'

/- The invariant rule: what holds of an initial state with an empty past and
is kept by every step of a run holds at the end of every run. -/
theorem Run.invariant {I : List ε → σ → Prop} (h0 : ∀ s, M.init s → I [] s)
    (hs : ∀ tr s e s', M.Run tr s → I tr s → M.step s e s' → I (tr ++ [e]) s')
    {tr : List ε} {s : σ} (h : M.Run tr s) : I tr s := by
  induction h with
  | init hi => exact h0 _ hi
  | snoc hr he ih => exact hs _ _ _ _ hr ih he

end Lts

/-- A forward simulation of `M` by `N`: a step labelled `e` of `M` is answered
by one step of `N` labelled `f e`, or by none when `f e` is `none`. -/
structure Simulation {σ ε τ δ : Type*} (M : Lts σ ε) (N : Lts τ δ) (f : ε → Option δ) where
  rel : σ → τ → Prop
  init : ∀ s, M.init s → ∃ t, N.init t ∧ rel s t
  silent : ∀ s e s' t, M.step s e s' → rel s t → f e = none → rel s' t
  visible : ∀ s e s' t d, M.step s e s' → rel s t → f e = some d → ∃ t', N.step t d t' ∧ rel s' t'

/-- Every run is answered by a run with the visible labels. -/
theorem Simulation.run {σ ε τ δ : Type*} {M : Lts σ ε} {N : Lts τ δ} {f : ε → Option δ}
    (S : Simulation M N f) {tr : List ε} {s : σ} (h : M.Run tr s) :
    ∃ t, N.Run (tr.filterMap f) t ∧ S.rel s t := by
  induction h with
  | init hi =>
    obtain ⟨t, ht, hr⟩ := S.init _ hi
    exact ⟨t, .init ht, hr⟩
  | @snoc tr s e s' _ he ih =>
    obtain ⟨t, ht, hr⟩ := ih
    rw [List.filterMap_append]
    cases hf : f e with
    | none => exact ⟨t, by simpa [hf] using ht, S.silent s e s' t he hr hf⟩
    | some d =>
      obtain ⟨t', hd, hr'⟩ := S.visible s e s' t d he hr hf
      exact ⟨t', by simpa [hf] using ht.snoc hd, hr'⟩

section simulation
variable {σ ε τ δ : Type*} {M : Lts σ ε} {N : Lts τ δ} {f : ε → Option δ}

/-- From related states on, the runs are related as the whole ones are. -/
def Simulation.startingAt (S : Simulation M N f) {s : σ} {t : τ} (h : S.rel s t) :
    Simulation (M.startingAt s) (N.startingAt t) f where
  rel := S.rel
  init := by
    rintro _ rfl
    exact ⟨t, rfl, h⟩
  silent := S.silent
  visible := S.visible

/-- A system all of whose steps are answered by runs has no run of its own. -/
theorem Simulation.answer (S : Simulation M N f) (h0 : ∀ t, N.init t → ∃ s, M.init s ∧ S.rel s t)
    (hs : ∀ s t d t', S.rel s t → N.step t d t' → ∃ tr s', (M.startingAt s).Run tr s' ∧
      tr.filterMap f = [d] ∧ S.rel s' t') {tr : List δ} {t : τ} (h : N.Run tr t) :
    ∃ tr' s, M.Run tr' s ∧ tr'.filterMap f = tr ∧ S.rel s t := by
  induction h with
  | init hi =>
    obtain ⟨s, hs, hr⟩ := h0 _ hi
    exact ⟨[], s, .init hs, rfl, hr⟩
  | snoc _ hd ih =>
    obtain ⟨tr', s, hrun, htr, hr⟩ := ih
    obtain ⟨tr'', s', hrun', htr', hr'⟩ := hs _ _ _ _ hr hd
    refine ⟨tr' ++ tr'', s', hrun.append hrun', ?_, hr'⟩
    rw [List.filterMap_append, htr, htr']

end simulation
end Trace
