import Mathlib.Algebra.BigOperators.Ring.Finset
import Mathlib.Data.Fintype.Card
import Mathlib.Logic.Function.Basic
import OSwitch.Lib.Trace

/-!
# Objects guarded by one mutex and one condition variable

A call waits until its guard holds and then acts, all under the mutex, so a
locked section is one step: either the guard fails and the thread goes to
sleep, or the operation is done. A signal is sent inside the locked section or
after it. `notify_one` wakes any one sleeper, `notify_all` all of them, and a
sleeper may also wake on its own. A thread that woke tests its guard again.
-/

namespace Monitor
open Trace

inductive Signal where
  | none
  | one
  | all
  deriving DecidableEq, Repr

/- `late op`: the signal of `op` is sent after the mutex was released. -/
structure Spec (σ ω ρ : Type*) where
  guard : ω → σ → Bool
  act : ω → σ → σ × ρ
  signal : ω → σ → Signal
  late : ω → Bool

inductive Thread (ω : Type*) where
  | idle
  | ready (op : ω)
  | asleep (op : ω)
  | signalling (sig : Signal)
  deriving DecidableEq, Repr

def Thread.wake {ω : Type*} : Thread ω → Thread ω
  | .asleep op => .ready op
  | t => t

structure State (σ ω ι : Type*) where
  shared : σ
  thread : ι → Thread ω

inductive Event (ω ρ ι : Type*) where
  | call (i : ι) (op : ω)
  | sleep (i : ι) (op : ω)
  | done (i : ι) (op : ω) (r : ρ)
  | signalled (i : ι)
  | spurious (i : ι)

variable {σ ω ρ ι : Type*} [DecidableEq ι]

/- Effect of a signal on the threads; `notify_one` without sleepers is lost. -/
inductive Wakes : Signal → (ι → Thread ω) → (ι → Thread ω) → Prop
  | none {t} : Wakes .none t t
  | nobody {t} : (∀ i op, t i ≠ .asleep op) → Wakes .one t t
  | one {t i op} : t i = .asleep op → Wakes .one t (Function.update t i (.ready op))
  | all {t} : Wakes .all t fun i => (t i).wake

/- `may i op`: thread `i` is one of those that call `op`. -/
inductive Step (S : Spec σ ω ρ) (may : ι → ω → Prop) :
    State σ ω ι → Event ω ρ ι → State σ ω ι → Prop
  | call {s i op} : s.thread i = .idle → may i op →
      Step S may s (.call i op) ⟨s.shared, Function.update s.thread i (.ready op)⟩
  | sleep {s i op} : s.thread i = .ready op → S.guard op s.shared = false →
      Step S may s (.sleep i op) ⟨s.shared, Function.update s.thread i (.asleep op)⟩
  | act {s i op t} : s.thread i = .ready op → S.guard op s.shared = true → S.late op = false →
      Wakes (S.signal op s.shared) (Function.update s.thread i .idle) t →
      Step S may s (.done i op (S.act op s.shared).2) ⟨(S.act op s.shared).1, t⟩
  | actLate {s i op} : s.thread i = .ready op → S.guard op s.shared = true → S.late op = true →
      Step S may s (.done i op (S.act op s.shared).2)
        ⟨(S.act op s.shared).1,
          Function.update s.thread i (.signalling (S.signal op s.shared))⟩
  | signal {s i sig t} : s.thread i = .signalling sig →
      Wakes sig (Function.update s.thread i .idle) t →
      Step S may s (.signalled i) ⟨s.shared, t⟩
  | spurious {s i op} : s.thread i = .asleep op →
      Step S may s (.spurious i) ⟨s.shared, Function.update s.thread i (.ready op)⟩

/- All threads idle and the object in state `x`. -/
def system (S : Spec σ ω ρ) (may : ι → ω → Prop) (x : σ) : Lts (State σ ω ι) (Event ω ρ ι) where
  init s := s = ⟨x, fun _ => .idle⟩
  step := Step S may

/-! ### The sequential object -/

/- The operations one after the other, each where its guard holds. -/
def sequential (S : Spec σ ω ρ) (x : σ) : Lts σ (ω × ρ) where
  init y := y = x
  step y e y' := S.guard e.1 y = true ∧ S.act e.1 y = (y', e.2)

def performed : Event ω ρ ι → Option (ω × ρ)
  | .done _ op r => some (op, r)
  | _ => none

omit [DecidableEq ι] in
theorem mem_performed {tr : List (Event ω ρ ι)} {op : ω} {r : ρ} :
    (op, r) ∈ tr.filterMap performed ↔ ∃ i, .done i op r ∈ tr := by
  constructor
  · intro h
    obtain ⟨e, he, hperf⟩ := List.mem_filterMap.mp h
    cases e with
    | done i op' r' =>
      cases hperf
      exact ⟨i, he⟩
    | call | sleep | signalled | spurious => cases hperf
  · rintro ⟨i, hi⟩
    exact List.mem_filterMap.mpr ⟨_, hi, rfl⟩

/-- What a step does to the object: nothing, or one operation where its guard
holds. -/
theorem step_cases {S : Spec σ ω ρ} {may : ι → ω → Prop} {s s' : State σ ω ι} {e : Event ω ρ ι}
    (h : Step S may s e s') :
    (performed e = none ∧ s'.shared = s.shared) ∨
      ∃ i op, e = .done i op (S.act op s.shared).2 ∧ s.thread i = .ready op ∧
        S.guard op s.shared = true ∧ s'.shared = (S.act op s.shared).1 := by
  cases h with
  | call | sleep | signal | spurious => exact .inl ⟨rfl, rfl⟩
  | act hi hg => exact .inr ⟨_, _, rfl, hi, hg, rfl⟩
  | actLate hi hg => exact .inr ⟨_, _, rfl, hi, hg, rfl⟩

/-- The operations of all threads, in the order in which they are done, are a
run of the sequential object: the monitor makes them atomic. -/
def atomic (S : Spec σ ω ρ) (may : ι → ω → Prop) (x : σ) :
    Simulation (system S may x) (sequential S x) performed where
  rel s y := s.shared = y
  init := by
    rintro s rfl
    exact ⟨x, rfl, rfl⟩
  silent := by
    intro s e s' y he hr hf
    rcases step_cases he with ⟨-, hsame⟩ | ⟨i, op, rfl, -⟩
    · exact hsame.trans hr
    · cases hf
  visible := by
    intro s e s' y d he hr hf
    rcases step_cases he with ⟨hnone, -⟩ | ⟨i, op, rfl, -, hg, hs'⟩
    · rw [hnone] at hf
      cases hf
    · cases hf
      subst hr
      exact ⟨_, ⟨hg, Prod.ext hs'.symm rfl⟩, rfl⟩

/-- What was done in a run was done in a state of the object where its guard
held. -/
theorem guard_of_done {S : Spec σ ω ρ} {may : ι → ω → Prop} {x : σ}
    {tr : List (Event ω ρ ι)} {s : State σ ω ι} (h : (system S may x).Run tr s)
    {i : ι} {op : ω} {r : ρ} (hd : Event.done i op r ∈ tr) :
    ∃ y, S.guard op y = true ∧ r = (S.act op y).2 := by
  induction h with
  | init => cases hd
  | @snoc tr s e s' _ he ih =>
    rcases List.mem_append.mp hd with hd | hd
    · exact ih hd
    · have hlast := List.mem_singleton.mp hd
      rcases step_cases he with ⟨hnone, -⟩ | ⟨j, op', hdone, -, hg, -⟩
      · rw [← hlast] at hnone
        cases hnone
      · rw [← hlast] at hdone
        cases hdone
        exact ⟨s.shared, hg, rfl⟩

/-! ### One operation at a time -/

/- Each operation called by its thread and done before the next call. -/
def oneByOne (who : ω → ι) (ops : List (ω × ρ)) : List (Event ω ρ ι) :=
  ops.flatMap fun e => [.call (who e.1) e.1, .done (who e.1) e.1 e.2]

omit [DecidableEq ι] in
theorem performed_oneByOne (who : ω → ι) (ops : List (ω × ρ)) :
    (oneByOne who ops).filterMap performed = ops := by
  induction ops with
  | nil => rfl
  | cons e ops ih =>
    change (e.1, e.2) :: (oneByOne who ops).filterMap performed = e :: ops
    rw [ih]

theorem wakes_idle (sig : Signal) :
    Wakes sig (fun _ : ι => (Thread.idle : Thread ω)) fun _ => .idle := by
  cases sig with
  | none => exact .none
  | one => exact .nobody (by simp)
  | all => exact .all

/-- A run of the sequential object is one of the monitor, too. -/
theorem run_oneByOne {S : Spec σ ω ρ} {may : ι → ω → Prop} {x : σ} {who : ω → ι}
    (hmay : ∀ op, may (who op) op) (hlate : ∀ op, S.late op = false) {ops : List (ω × ρ)} {y : σ}
    (h : (sequential S x).Run ops y) :
    (system S may x).Run (oneByOne who ops) ⟨y, fun _ => .idle⟩ := by
  refine h.invariant (I := fun ops y => (system S may x).Run (oneByOne who ops)
    ⟨y, fun _ => .idle⟩) ?_ ?_
  · rintro y rfl
    exact .init rfl
  · rintro ops y ⟨op, r⟩ y' _ ih ⟨hg, ha⟩
    have hcall := ih.snoc (show Step S may _ (.call (who op) op) _ from .call rfl (hmay op))
    have hback : Function.update (Function.update (fun _ : ι => (Thread.idle : Thread ω)) (who op)
        (.ready op)) (who op) .idle = fun _ => .idle := by
      rw [Function.update_idem]
      exact Function.update_eq_self (who op) _
    have hwakes := wakes_idle (ι := ι) (ω := ω) (S.signal op y)
    rw [← hback] at hwakes
    have hdone := hcall.snoc (show Step S may _ (.done (who op) op _) _ from
      .act (Function.update_self ..) hg (hlate op) hwakes)
    dsimp only at ha hdone
    rw [ha, hback] at hdone
    have hlist : oneByOne who (ops ++ [(op, r)]) =
        oneByOne who ops ++ [.call (who op) op] ++ [.done (who op) op r] := by
      simp [oneByOne]
    rw [hlist]
    exact hdone

/-! ### Pending operations -/

/- The thread has called `op` and has not done it yet. -/
def Thread.Pending (t : Thread ω) (op : ω) : Prop := t = .ready op ∨ t = .asleep op

theorem pending_update {t : ι → Thread ω} {i j : ι} {u : Thread ω} {op : ω} :
    (Function.update t i u j).Pending op ↔ (j = i ∧ u.Pending op) ∨ (j ≠ i ∧ (t j).Pending op) := by
  by_cases h : j = i
  · subst h
    simp
  · simp [h]

/-- A signal leaves a thread as it is or wakes it. -/
theorem wakes_at {sig : Signal} {t t' : ι → Thread ω} (h : Wakes sig t t') (i : ι) :
    t' i = t i ∨ ∃ op, t i = .asleep op ∧ t' i = .ready op := by
  cases h with
  | none => exact .inl rfl
  | nobody => exact .inl rfl
  | @one _ j op hj =>
    by_cases hij : i = j
    · subst hij
      exact .inr ⟨op, hj, Function.update_self ..⟩
    · exact .inl (Function.update_of_ne hij ..)
  | all =>
    dsimp only
    cases t i with
    | asleep op => exact .inr ⟨op, rfl, rfl⟩
    | idle | ready | signalling => exact .inl rfl

theorem pending_wakes {sig : Signal} {t t' : ι → Thread ω} (h : Wakes sig t t') {i : ι} {op : ω} :
    (t' i).Pending op ↔ (t i).Pending op := by
  rcases wakes_at h i with hi | ⟨op', hi, hi'⟩
  · rw [hi]
  · rw [hi, hi']
    simp [Thread.Pending]

theorem exists_wakes (sig : Signal) (t : ι → Thread ω) : ∃ t', Wakes sig t t' := by
  cases sig with
  | none => exact ⟨t, .none⟩
  | all => exact ⟨_, .all⟩
  | one =>
    by_cases h : ∃ i op, t i = .asleep op
    · obtain ⟨i, op, hi⟩ := h
      exact ⟨_, .one hi⟩
    · exact ⟨t, .nobody fun i op hi => h ⟨i, op, hi⟩⟩

variable {S : Spec σ ω ρ} {may : ι → ω → Prop} {x : σ} {s s' : State σ ω ι}

/-- What is pending was pending before or has been called now. -/
theorem pending_step {e : Event ω ρ ι} (h : Step S may s e s') {i : ι} {op : ω}
    (hp : (s'.thread i).Pending op) : (s.thread i).Pending op ∨ (e = .call i op ∧ may i op) := by
  cases h with
  | call _ hmay =>
    rcases pending_update.mp hp with ⟨rfl, hnew⟩ | ⟨-, hold⟩
    · rcases hnew with hnew | hnew <;> cases hnew
      exact .inr ⟨rfl, hmay⟩
    · exact .inl hold
  | sleep hi =>
    rcases pending_update.mp hp with ⟨rfl, hnew⟩ | ⟨-, hold⟩
    · rcases hnew with hnew | hnew <;> cases hnew
      exact .inl (.inl hi)
    · exact .inl hold
  | spurious hi =>
    rcases pending_update.mp hp with ⟨rfl, hnew⟩ | ⟨-, hold⟩
    · rcases hnew with hnew | hnew <;> cases hnew
      exact .inl (.inr hi)
    · exact .inl hold
  | act _ _ _ hw | signal _ hw =>
    rcases pending_update.mp ((pending_wakes hw).mp hp) with ⟨-, hnew⟩ | ⟨-, hold⟩
    · rcases hnew with hnew | hnew <;> cases hnew
    · exact .inl hold
  | actLate =>
    rcases pending_update.mp hp with ⟨-, hnew⟩ | ⟨-, hold⟩
    · rcases hnew with hnew | hnew <;> cases hnew
    · exact .inl hold

/-- What is pending was called by a thread that may call it. -/
theorem may_of_pending {tr : List (Event ω ρ ι)} (h : (system S may x).Run tr s) :
    ∀ i op, (s.thread i).Pending op → may i op := by
  refine h.invariant (I := fun _ s => ∀ i op, (s.thread i).Pending op → may i op) ?_ ?_
  · rintro s rfl i op (hi | hi) <;> cases hi
  · intro tr s e s' _ ih he i op hp
    rcases pending_step he hp with hold | ⟨-, hmay⟩
    · exact ih i op hold
    · exact hmay

/- Threads that may call more can do all the same. -/
theorem run_of_may {may' : ι → ω → Prop} (hmay : ∀ i op, may i op → may' i op)
    {tr : List (Event ω ρ ι)} (h : (system S may x).Run tr s) : (system S may' x).Run tr s := by
  induction h with
  | init hi => exact .init hi
  | snoc _ he ih =>
    refine ih.snoc ?_
    cases he with
    | call hi hm => exact .call hi (hmay _ _ hm)
    | sleep hi hg => exact .sleep hi hg
    | act hi hg hl hw => exact .act hi hg hl hw
    | actLate hi hg hl => exact .actLate hi hg hl
    | signal hi hw => exact .signal hi hw
    | spurious hi => exact .spurious hi

/-- Where no signal is late, a thread is outside the object or has something
pending. -/
theorem idle_or_pending (hlate : ∀ op, S.late op = false) {tr : List (Event ω ρ ι)}
    (h : (system S may x).Run tr s) :
    ∀ i, s.thread i = .idle ∨ ∃ op, (s.thread i).Pending op := by
  have hquiet : ∀ i sig, s.thread i ≠ .signalling sig := by
    refine h.invariant (I := fun _ s => ∀ i sig, s.thread i ≠ .signalling sig) ?_ ?_
    · rintro s rfl i sig hi
      cases hi
    · intro tr s e s' _ ih he i sig hi
      cases he with
      | call | sleep | spurious =>
        simp only [Function.update_apply] at hi
        split at hi
        · cases hi
        · exact ih i sig hi
      | act _ _ _ hw =>
        dsimp only at hi
        rcases wakes_at hw i with hsame | ⟨op, -, hready⟩
        · rw [hsame, Function.update_apply] at hi
          split at hi
          · cases hi
          · exact ih i sig hi
        · rw [hready] at hi
          cases hi
      | @actLate j op _ _ hl =>
        rw [hlate op] at hl
        cases hl
      | signal hj => exact absurd hj (ih _ _)
  intro i
  cases hi : s.thread i with
  | idle => exact .inl rfl
  | ready op => exact .inr ⟨op, .inl rfl⟩
  | asleep op => exact .inr ⟨op, .inr rfl⟩
  | signalling sig => exact absurd hi (hquiet i sig)

/-- What is pending can be done when its guard holds, with nothing else called
or done. -/
theorem exists_done {i : ι} {op : ω} (hp : (s.thread i).Pending op)
    (hg : S.guard op s.shared = true) (hl : S.late op = false) :
    ∃ tr s', ((system S may x).startingAt s).Run tr s' ∧
      tr.filterMap performed = [(op, (S.act op s.shared).2)] ∧ (∀ j op', .call j op' ∉ tr) ∧
      s'.shared = (S.act op s.shared).1 ∧ s'.thread i = .idle ∧
      ∀ j op', j ≠ i → ((s'.thread j).Pending op' ↔ (s.thread j).Pending op') := by
  obtain ⟨tr, u, hrun, htr, hcall, hready, hu, hothers⟩ : ∃ tr u,
      ((system S may x).startingAt s).Run tr u ∧ tr.filterMap performed = [] ∧
      (∀ j op', .call j op' ∉ tr) ∧ u.thread i = .ready op ∧ u.shared = s.shared ∧
      ∀ j, j ≠ i → u.thread j = s.thread j := by
    rcases hp with hi | hi
    · exact ⟨[], s, .init rfl, rfl, by simp, hi, rfl, fun _ _ => rfl⟩
    · refine ⟨[.spurious i], ⟨s.shared, Function.update s.thread i (.ready op)⟩,
        .snoc (.init rfl) (.spurious hi), rfl, by simp, Function.update_self .., rfl, ?_⟩
      intro j hj
      exact Function.update_of_ne hj ..
  obtain ⟨t, hw⟩ := exists_wakes (S.signal op u.shared) (Function.update u.thread i .idle)
  rw [← hu] at hg ⊢
  refine ⟨_, _, hrun.snoc (.act hready hg hl hw), ?_, ?_, rfl, ?_, ?_⟩
  · rw [List.filterMap_append, htr]
    rfl
  · simpa using hcall
  · dsimp only
    rcases wakes_at hw i with hsame | ⟨op', hasleep, -⟩
    · rw [hsame, Function.update_self]
    · rw [Function.update_self] at hasleep
      cases hasleep
  · intro j op' hj
    rw [pending_wakes hw, Function.update_of_ne hj, hothers j hj]

/-! ### How many threads sleep -/

section sleepers
variable {κ : Type*} [Fintype κ]

def Thread.isAsleep : Thread ω → Bool
  | .asleep _ => true
  | _ => false

/- How many of these threads sleep. -/
def sleepers (t : κ → Thread ω) : ℕ := (Finset.univ.filter fun i => (t i).isAsleep = true).card

theorem isAsleep_iff {t : Thread ω} : t.isAsleep = true ↔ ∃ op, t = .asleep op := by
  cases t with
  | asleep op => simp [Thread.isAsleep]
  | idle | ready | signalling => simp [Thread.isAsleep]

theorem sleepers_pos {t : κ → Thread ω} : 0 < sleepers t ↔ ∃ i op, t i = .asleep op := by
  constructor
  · intro h
    obtain ⟨i, hi⟩ := Finset.card_pos.mp h
    exact ⟨i, isAsleep_iff.mp (Finset.mem_filter.mp hi).2⟩
  · rintro ⟨i, hi⟩
    exact Finset.card_pos.mpr ⟨i, Finset.mem_filter.mpr ⟨Finset.mem_univ i, isAsleep_iff.mpr hi⟩⟩

theorem sleepers_lt {t : κ → Thread ω} {i : κ} (h : (t i).isAsleep = false) :
    sleepers t < Fintype.card κ := by
  refine Finset.card_lt_card (Finset.filter_ssubset.mpr ⟨i, Finset.mem_univ i, ?_⟩)
  simp [h]

theorem sleepers_eq_card {t : κ → Thread ω} (h : ∀ i, (t i).isAsleep = true) :
    sleepers t = Fintype.card κ := by
  rw [sleepers, Finset.filter_true_of_mem fun i _ => h i, Finset.card_univ]

theorem all_asleep {t : κ → Thread ω} (h : sleepers t = Fintype.card κ) (i : κ) :
    ∃ op, t i = .asleep op := by
  refine isAsleep_iff.mp ?_
  by_contra hi
  exact absurd h (sleepers_lt (by simpa using hi)).ne

theorem exists_awake {t : κ → Thread ω} (h : sleepers t < Fintype.card κ) :
    ∃ i, (t i).isAsleep = false := by
  by_contra hno
  exact absurd (sleepers_eq_card fun i => by simpa using fun hi => hno ⟨i, hi⟩) h.ne

theorem sleepers_update [DecidableEq κ] (t : κ → Thread ω) (i : κ) (u : Thread ω) :
    sleepers (Function.update t i u) + (t i).isAsleep.toNat = sleepers t + u.isAsleep.toNat := by
  have hsplit : ∀ t : κ → Thread ω, sleepers t =
      (t i).isAsleep.toNat + ∑ j ∈ Finset.univ.erase i, (t j).isAsleep.toNat := by
    intro t
    rw [sleepers, Finset.card_filter,
      Finset.add_sum_erase _ (fun j => (t j).isAsleep.toNat) (Finset.mem_univ i)]
    refine Finset.sum_congr rfl fun j _ => ?_
    cases (t j).isAsleep <;> rfl
  have hothers : ∑ j ∈ Finset.univ.erase i, (Function.update t i u j).isAsleep.toNat =
      ∑ j ∈ Finset.univ.erase i, (t j).isAsleep.toNat := by
    refine Finset.sum_congr rfl fun j hj => ?_
    rw [Function.update_of_ne (Finset.ne_of_mem_erase hj)]
  rw [hsplit, hsplit t, hothers, Function.update_self]
  omega

end sleepers
end Monitor
