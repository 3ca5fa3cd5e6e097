import Mathlib.Logic.Function.Basic
import OSwitch.Lib.Trace

/-!
# Threads over a shared memory, and the rely–guarantee rule

Each thread has a local state of a type of its own and acts on the memory that
all of them share. An invariant of a run is proved thread by thread: a step
keeps the invariant of the memory, establishes the assertion of the thread that
takes it, and does to the memory only what the thread guarantees; what one
thread guarantees leaves the assertion of any other as it is.
-/

namespace Threads
open Trace

variable {ι σ ε : Type*} {pc : ι → Type*} [DecidableEq ι]

/- `step i x l e y m`: thread `i` at `l` does `e`, and the memory `x` becomes `y`
and its place `m`. -/
structure Program (ι σ ε : Type*) (pc : ι → Type*) where
  init : σ → Prop
  entry : ∀ i, pc i
  step : ∀ i, σ → pc i → ε → σ → pc i → Prop

structure State (ι σ : Type*) (pc : ι → Type*) where
  shared : σ
  pc : ∀ i, pc i

def State.move (s : State ι σ pc) (i : ι) (y : σ) (m : pc i) : State ι σ pc :=
  ⟨y, Function.update s.pc i m⟩

@[simp] theorem move_shared (s : State ι σ pc) (i : ι) (y : σ) (m : pc i) :
    (s.move i y m).shared = y := rfl

@[simp] theorem move_pc (s : State ι σ pc) (i : ι) (y : σ) (m : pc i) :
    (s.move i y m).pc i = m := Function.update_self ..

theorem move_pc_of_ne (s : State ι σ pc) {i j : ι} (hj : j ≠ i) (y : σ) (m : pc i) :
    (s.move i y m).pc j = s.pc j := Function.update_of_ne hj ..

inductive Step (P : Program ι σ ε pc) : State ι σ pc → ι × ε → State ι σ pc → Prop
  | mk {s i e y m} : P.step i s.shared (s.pc i) e y m → Step P s (i, e) (s.move i y m)

def system (P : Program ι σ ε pc) : Lts (State ι σ pc) (ι × ε) where
  init s := P.init s.shared ∧ s.pc = P.entry
  step := Step P

/-! ### One thread on its own -/

/- Thread `i` takes these steps while the others rest. -/
inductive Solo (P : Program ι σ ε pc) (i : ι) : σ → pc i → List ε → σ → pc i → Prop
  | nil {x l} : Solo P i x l [] x l
  | cons {x l e y m es z k} : P.step i x l e y m → Solo P i y m es z k →
      Solo P i x l (e :: es) z k

omit [DecidableEq ι] in
theorem Solo.append {P : Program ι σ ε pc} {i : ι} {es es' : List ε} {x y z : σ} {l m k : pc i}
    (h : Solo P i x l es y m) (h' : Solo P i y m es' z k) : Solo P i x l (es ++ es') z k := by
  induction h with
  | nil => exact h'
  | cons he _ ih => exact .cons he (ih h')

theorem Solo.runFrom {P : Program ι σ ε pc} {i : ι} {es : List ε} {z : σ} {l k : pc i}
    {s : State ι σ pc} (hpc : s.pc i = l) (h : Solo P i s.shared l es z k) :
    ((system P).startingAt s).Run (es.map (Prod.mk i)) (s.move i z k) := by
  obtain ⟨x, hx⟩ : ∃ x, x = s.shared := ⟨_, rfl⟩
  rw [← hx] at h
  induction h generalizing s with
  | nil =>
    have hsame : s.move i s.shared (s.pc i) = s := by
      unfold State.move
      rw [Function.update_eq_self]
    rw [hx, ← hpc, hsame]
    exact .init rfl
  | @cons x l e y m es z k he _ ih =>
    subst hx hpc
    have hfirst : ((system P).startingAt s).Run ([] ++ [(i, e)]) (s.move i y m) :=
      .snoc (.init rfl) (show Step P s (i, e) (s.move i y m) from .mk he)
    have hmove : (s.move i y m).move i z k = s.move i z k := by
      unfold State.move
      rw [Function.update_idem]
    have hrest := hfirst.append (ih (move_pc s i y m) rfl)
    rw [hmove] at hrest
    exact hrest

theorem Solo.run_at {P : Program ι σ ε pc} {i : ι} {es : List ε} {z : σ} {l k : pc i}
    {tr : List (ι × ε)} {s : State ι σ pc} (h0 : (system P).Run tr s) (hpc : s.pc i = l)
    (h : Solo P i s.shared l es z k) :
    (system P).Run (tr ++ es.map (Prod.mk i)) (s.move i z k) := h0.append (h.runFrom hpc)

theorem Solo.run {P : Program ι σ ε pc} {i : ι} {es : List ε} {z : σ} {k : pc i}
    {tr : List (ι × ε)} {s : State ι σ pc} (h0 : (system P).Run tr s)
    (h : Solo P i s.shared (s.pc i) es z k) :
    (system P).Run (tr ++ es.map (Prod.mk i)) (s.move i z k) := h.run_at h0 rfl

/- The same, after a run. -/
theorem Solo.after {P : Program ι σ ε pc} {i : ι} {es : List ε} {z : σ} {k : pc i}
    {tr : List (ι × ε)} {s : State ι σ pc} (_ : (system P).Run tr s)
    (h : Solo P i s.shared (s.pc i) es z k) :
    ((system P).startingAt s).Run (es.map (Prod.mk i)) (s.move i z k) := h.runFrom rfl

/-! ### Rely and guarantee -/

structure RelyGuarantee (P : Program ι σ ε pc) where
  inv : σ → Prop
  holds : ∀ i, pc i → σ → Prop
  guar : ι → σ → σ → Prop
  init : ∀ x, P.init x → inv x ∧ ∀ i, holds i (P.entry i) x
  step : ∀ i x l e y m, inv x → holds i l x → P.step i x l e y m →
    inv y ∧ holds i m y ∧ guar i x y
  stable : ∀ i j x y l, i ≠ j → inv x → inv y → guar i x y → holds j l x → holds j l y

structure RelyGuarantee.Ok {P : Program ι σ ε pc} (R : RelyGuarantee P) (s : State ι σ pc) :
    Prop where
  inv : R.inv s.shared
  holds : ∀ i, R.holds i (s.pc i) s.shared

theorem RelyGuarantee.ok_step {P : Program ι σ ε pc} (R : RelyGuarantee P) {s s' : State ι σ pc}
    {e : ι × ε} (h : R.Ok s) (he : Step P s e s') : R.Ok s' := by
  obtain @⟨i, e, y, m, hstep⟩ := he
  obtain ⟨hinv, hholds, hguar⟩ := R.step i _ _ e y m h.inv (h.holds i) hstep
  refine ⟨hinv, ?_⟩
  intro j
  by_cases hj : j = i
  · subst hj
    rw [move_pc]
    exact hholds
  · rw [move_pc_of_ne s hj]
    exact R.stable i j _ _ _ (Ne.symm hj) h.inv hinv hguar (h.holds j)

/-- The invariant of the memory and every thread's assertion hold throughout. -/
theorem RelyGuarantee.run {P : Program ι σ ε pc} (R : RelyGuarantee P) {tr : List (ι × ε)}
    {s : State ι σ pc} (h : (system P).Run tr s) : R.Ok s := by
  refine h.invariant (I := fun _ s => R.Ok s) ?_ ?_
  · rintro s ⟨hinit, hpc⟩
    obtain ⟨hinv, hholds⟩ := R.init _ hinit
    refine ⟨hinv, ?_⟩
    intro i
    rw [hpc]
    exact hholds i
  · intro tr s e s' _ ih he
    exact R.ok_step ih he

/-- The invariant rule for what has happened in a run: at each step the thread's
assertion and its guarantee are at hand. -/
theorem RelyGuarantee.invariant {P : Program ι σ ε pc} (R : RelyGuarantee P)
    {I : List (ι × ε) → State ι σ pc → Prop}
    (h0 : ∀ s, P.init s.shared → s.pc = P.entry → I [] s)
    (hs : ∀ tr s i e y m, R.Ok s → I tr s → P.step i s.shared (s.pc i) e y m →
      R.inv y → R.guar i s.shared y → I (tr ++ [(i, e)]) (s.move i y m))
    {tr : List (ι × ε)} {s : State ι σ pc} (h : (system P).Run tr s) : I tr s := by
  refine h.invariant (I := I) ?_ ?_
  · rintro s ⟨hinit, hpc⟩
    exact h0 s hinit hpc
  · intro tr s e s' hrun ih he
    have hok := R.run hrun
    obtain @⟨i, e, y, m, hstep⟩ := he
    obtain ⟨hinv, -, hguar⟩ := R.step i _ _ e y m hok.inv (hok.holds i) hstep
    exact hs tr s i e y m hok ih hstep hinv hguar

/-! ### What the threads can still do -/

/- From here the threads can come to a state with `G`, by steps that are allowed. -/
inductive Leads (P : Program ι σ ε pc) (may : ι → ε → Prop) (G : State ι σ pc → Prop) :
    State ι σ pc → Prop
  | here {s} : G s → Leads P may G s
  | step {s i e y m} : may i e → P.step i s.shared (s.pc i) e y m →
      Leads P may G (s.move i y m) → Leads P may G s

variable {P : Program ι σ ε pc} {may may' : ι → ε → Prop} {F G H : State ι σ pc → Prop}
  {s : State ι σ pc}

theorem Leads.bind (h : Leads P may G s) (hrest : ∀ s', G s' → Leads P may H s') :
    Leads P may H s := by
  induction h with
  | here hg => exact hrest _ hg
  | step hmay he _ ih => exact .step hmay he ih

/- One thread goes on by itself, and the rest follows. -/
theorem Solo.leads {i : ι} {es : List ε} {x y : σ} {l m : pc i} (hx : s.shared = x)
    (hl : s.pc i = l) (h : Solo P i x l es y m) (hmay : ∀ e ∈ es, may i e)
    (hrest : Leads P may G (s.move i y m)) : Leads P may G s := by
  induction h generalizing s with
  | nil =>
    subst hx hl
    have hsame : s.move i s.shared (s.pc i) = s := by
      unfold State.move
      rw [Function.update_eq_self]
    rw [hsame] at hrest
    exact hrest
  | @cons x l e y m es z k he _ ih =>
    subst hx hl
    have hmove : (s.move i y m).move i z k = s.move i z k := by
      unfold State.move
      rw [Function.update_idem]
    rw [← hmove] at hrest
    exact .step (hmay e (List.mem_cons_self ..)) he
      (ih rfl (move_pc s i y m) (fun d hd => hmay d (List.mem_cons_of_mem _ hd)) hrest)

theorem Leads.mono (hmay : ∀ i e, may i e → may' i e) (h : Leads P may G s) :
    Leads P may' G s := by
  induction h with
  | here hg => exact .here hg
  | step he hstep _ ih => exact .step (hmay _ _ he) hstep ih

/-- The frame rule: what every allowed step keeps is there at the end. -/
theorem Leads.frame (hstep : ∀ s i e y m, F s → may i e → P.step i s.shared (s.pc i) e y m →
    F (s.move i y m)) (hs : F s) (h : Leads P may G s) :
    Leads P may (fun s' => F s' ∧ G s') s := by
  induction h with
  | here hg => exact .here ⟨hs, hg⟩
  | step hmay he _ ih => exact .step hmay he (ih (hstep _ _ _ _ _ hs hmay he))

theorem Leads.exists_run (h : Leads P may G s) : ∃ tr s',
    ((system P).startingAt s).Run tr s' ∧ (∀ e ∈ tr, may e.1 e.2) ∧ G s' := by
  induction h with
  | here hg => exact ⟨[], _, .init rfl, fun e he => (by cases he), hg⟩
  | @step s i e y m hmay he _ ih =>
    obtain ⟨tr, s', hrun, hall, hg⟩ := ih
    have hfirst : ((system P).startingAt s).Run ([] ++ [(i, e)]) (s.move i y m) :=
      .snoc (.init rfl) (show Step P s (i, e) (s.move i y m) from .mk he)
    refine ⟨_, s', hfirst.append hrun, ?_, hg⟩
    intro d hd
    rcases List.mem_append.mp hd with hd | hd
    · rw [List.mem_singleton.mp hd]
      exact hmay
    · exact hall d hd

end Threads
