import OSwitch.Lib.Monitor

/-!
# The queue between receiver and concatinator (`channel/include/channel/shared_queue.hpp`)

`front` and `pop_front` wait while the deque is empty; `push_back` unlocks the
mutex before it notifies. One consumer, the concatinator, uses each queue, and
any number of producers.
-/

namespace OSwitch.SharedQueue
open Trace Monitor

variable {α P : Type*} [DecidableEq P]

inductive Op (α : Type*) where
  | front
  | popFront
  | pushBack (item : α)
  | size
  deriving DecidableEq, Repr

/- The result of `popFront` is the element that it removes. `none` would be the
front of an empty deque, which C++ leaves undefined. -/
inductive Result (α : Type*) where
  | void
  | element (x : Option α)
  | number (n : ℕ)
  deriving DecidableEq, Repr

def spec : Spec (List α) (Op α) (Result α) where
  guard
    | .front, queue => !queue.isEmpty
    | .popFront, queue => !queue.isEmpty
    | .pushBack _, _ => true
    | .size, _ => true
  act
    | .front, queue => (queue, .element queue.head?)
    | .popFront, queue => (queue.tail, .element queue.head?)
    | .pushBack item, queue => (queue ++ [item], .void)
    | .size, queue => (queue, .number queue.length)
  signal
    | .pushBack _, _ => .one
    | _, _ => .none
  late
    | .pushBack _ => true
    | _ => false

/- Thread `none` is the consumer, the others only push. -/
def role : Option P → Op α → Prop
  | none, .pushBack _ => False
  | none, _ => True
  | some _, .pushBack _ => True
  | some _, _ => False

def system : Lts (State (List α) (Op α) (Option P)) (Event (Op α) (Result α) (Option P)) :=
  Monitor.system spec role []

/-! ### Wake-ups -/

/- What a thread can be doing besides resting: the consumer never owes a
signal, a producer only pushes, is never asleep and owes one `notify_one`. -/
def Fits : Option P → Thread (Op α) → Prop
  | _, .idle => True
  | i, .ready op => role i op
  | i, .asleep op => role i op ∧ i = none
  | i, .signalling sig => i ≠ none ∧ sig = .one

/-- A consumer that sleeps beside a non-empty queue has a signal on its way. -/
structure Awake (s : State (List α) (Op α) (Option P)) : Prop where
  fits : ∀ i, Fits i (s.thread i)
  owed : ∀ op, s.thread none = .asleep op → s.shared ≠ [] →
    ∃ p, s.thread (some p) = .signalling .one

theorem fits_update {t : Option P → Thread (Op α)} {i : Option P} {u : Thread (Op α)}
    (h : ∀ j, Fits j (t j)) (hu : Fits i u) : ∀ j, Fits j (Function.update t i u j) := by
  intro j
  by_cases hj : j = i
  · subst hj
    rw [Function.update_self]
    exact hu
  · rw [Function.update_of_ne hj]
    exact h j

theorem fits_wakes {sig : Signal} {t t' : Option P → Thread (Op α)} (hw : Wakes sig t t')
    (h : ∀ j, Fits j (t j)) : ∀ j, Fits j (t' j) := by
  cases hw with
  | none => exact h
  | nobody => exact h
  | @one _ i op hi =>
    have hr := h i
    rw [hi] at hr
    exact fits_update h hr.1
  | all =>
    intro j
    have hj := h j
    change Fits j (t j).wake
    cases ht : t j with
    | asleep op =>
      rw [ht] at hj
      exact hj.1
    | _ =>
      rw [ht] at hj
      exact hj

/- A `notify_one` always leaves the consumer awake: nobody else sleeps. -/
theorem consumer_awake {t t' : Option P → Thread (Op α)} (hw : Wakes .one t t')
    (h : ∀ j, Fits j (t j)) (op : Op α) : t' none ≠ .asleep op := by
  cases hw with
  | nobody hno => exact hno none op
  | @one _ i op' hi =>
    have hr := h i
    rw [hi] at hr
    have hnone : i = none := hr.2
    subst hnone
    rw [Function.update_self]
    intro hc
    cases hc

omit [DecidableEq P] in
theorem awake_of_consumer {queue : List α} {t : Option P → Thread (Op α)}
    (hf : ∀ j, Fits j (t j)) (hc : ∀ op, t none ≠ .asleep op) : Awake ⟨queue, t⟩ :=
  ⟨hf, fun op hop => absurd hop (hc op)⟩

theorem consumer_not_asleep {t : Option P → Thread (Op α)} {u : Thread (Op α)}
    (hu : ∀ op, u ≠ .asleep op) (op : Op α) : Function.update t none u none ≠ .asleep op := by
  rw [Function.update_self]
  exact hu op

omit [DecidableEq P] in
/- Only the guards of the consumer's operations fail, and only when empty. -/
theorem empty_of_guard {i : Option P} {op : Op α} {queue : List α} (hr : role i op)
    (hg : spec.guard op queue = false) : queue = [] ∧ i = none := by
  cases op with
  | pushBack => cases hg
  | size => cases hg
  | front | popFront =>
    cases i with
    | none => exact ⟨by simpa [spec] using hg, rfl⟩
    | some p => cases hr

omit [DecidableEq P] in
theorem consumer_of_late {i : Option P} {op : Op α} (queue : List α) (hr : role i op)
    (hlate : (spec (α := α)).late op = false) : i = none ∧ spec.signal op queue = .none := by
  cases op with
  | pushBack => cases hlate
  | front | popFront | size =>
    cases i with
    | none => exact ⟨rfl, rfl⟩
    | some p => cases hr

/- A producer that begins a call owed no signal. -/
theorem producer_call_awake {s : State (List α) (Op α) (Option P)} (h : Awake s) {p : P} {op : Op α}
    (hi : s.thread (some p) = .idle) (hmay : role (some p) op) :
    Awake ⟨s.shared, Function.update s.thread (some p) (.ready op)⟩ := by
  refine ⟨fits_update h.fits hmay, ?_⟩
  intro op' hop hne
  dsimp only at hop hne ⊢
  rw [Function.update_of_ne (by simp)] at hop
  obtain ⟨p', hp'⟩ := h.owed op' hop hne
  have hpp : some p' ≠ some p := by
    intro he
    rw [he, hi] at hp'
    cases hp'
  exact ⟨p', by rw [Function.update_of_ne hpp]; exact hp'⟩

theorem step_awake {s s' : State (List α) (Op α) (Option P)}
    {e : Event (Op α) (Result α) (Option P)} (h : Awake s) (he : Step spec role s e s') :
    Awake s' := by
  cases he with
  | @call i op hi hmay =>
    cases i with
    | none => exact awake_of_consumer (fits_update h.fits hmay) (consumer_not_asleep (by simp))
    | some p => exact producer_call_awake h hi hmay
  | @sleep i op hi hg =>
    have hr := h.fits i
    rw [hi] at hr
    obtain ⟨hempty, hcons⟩ := empty_of_guard hr hg
    exact ⟨fits_update h.fits ⟨hr, hcons⟩, fun _ _ hne => absurd hempty hne⟩
  | @act i op t hi hg hlate hw =>
    have hr := h.fits i
    rw [hi] at hr
    obtain ⟨rfl, hsig⟩ := consumer_of_late s.shared hr hlate
    rw [hsig] at hw
    cases hw with
    | none => exact awake_of_consumer (fits_update h.fits trivial) (consumer_not_asleep (by simp))
  | @actLate i op hi hg hlate =>
    have hr := h.fits i
    rw [hi] at hr
    cases op with
    | pushBack item =>
      cases i with
      | none => cases hr
      | some p =>
        refine ⟨fits_update h.fits ⟨by simp, rfl⟩, ?_⟩
        intro _ _ _
        exact ⟨p, Function.update_self ..⟩
    | front | popFront | size => cases hlate
  | @signal i sig t hi hw =>
    have hr := h.fits i
    rw [hi] at hr
    obtain ⟨-, rfl⟩ := hr
    have hrest : ∀ j, Fits j (Function.update s.thread i .idle j) := fits_update h.fits trivial
    exact awake_of_consumer (fits_wakes hw hrest) (consumer_awake hw hrest)
  | @spurious i op hi =>
    have hr := h.fits i
    rw [hi] at hr
    obtain ⟨hrole, rfl⟩ := hr
    exact awake_of_consumer (fits_update h.fits hrole) (consumer_not_asleep (by simp))

theorem run_awake {tr : List (Event (Op α) (Result α) (Option P))}
    {s : State (List α) (Op α) (Option P)} (h : system.Run tr s) : Awake s := by
  refine h.invariant (I := fun _ s => Awake s) ?_ ?_
  · intro s hi
    cases hi
    exact awake_of_consumer (fun _ => trivial) fun op hop => by cases hop
  · intro tr s e s' _ ih he
    exact step_awake ih he

theorem element_of_done {tr : List (Event (Op α) (Result α) (Option P))}
    {s : State (List α) (Op α) (Option P)} (h : system.Run tr s) {i : Option P} {op : Op α}
    {r : Result α} (hop : op = .front ∨ op = .popFront) (hd : Event.done i op r ∈ tr) :
    ∃ x, r = .element (some x) := by
  obtain ⟨queue, hg, hr⟩ := guard_of_done h hd
  cases queue with
  | nil => rcases hop with rfl | rfl <;> cases hg
  | cons x xs => rcases hop with rfl | rfl <;> exact ⟨x, hr⟩

/-- No wake-up is lost, and nothing is taken from an empty queue. -/
theorem no_lost_wakeup {tr : List (Event (Op α) (Result α) (Option P))}
    {s : State (List α) (Op α) (Option P)} (h : system.Run tr s) :
    ((∃ op, s.thread none = .asleep op) → s.shared ≠ [] →
      ∃ p, s.thread (some p) = .signalling .one) ∧
    ∀ i op r, op = .front ∨ op = .popFront → Event.done i op r ∈ tr →
      ∃ x, r = .element (some x) :=
  ⟨fun ⟨op, hop⟩ => (run_awake h).owed op hop, fun _ _ _ hop hd => element_of_done h hop hd⟩

/- The consumer sleeps in `front`; a producer has pushed and not yet notified. -/
theorem no_lost_wakeup_pushed :
    ∃ tr, ∃ s : State (List ℕ) (Op ℕ) (Option Unit), system.Run tr s ∧
      s.thread none = .asleep .front ∧ s.shared = [7] ∧
      ∃ p, s.thread (some p) = .signalling .one := by
  have h0 : system.Run [] (⟨[], fun _ => .idle⟩ : State (List ℕ) (Op ℕ) (Option Unit)) :=
    .init rfl
  have h1 := h0.snoc (show Step spec role _ (.call none .front) _ from .call rfl trivial)
  have h2 := h1.snoc (show Step spec role _ (.sleep none .front) _ from .sleep rfl rfl)
  have h3 := h2.snoc
    (show Step spec role _ (.call (some ()) (.pushBack 7)) _ from .call rfl trivial)
  have h4 := h3.snoc
    (show Step spec role _ (.done (some ()) (.pushBack 7) _) _ from .actLate rfl rfl rfl)
  exact ⟨_, _, h4, rfl, rfl, (no_lost_wakeup h4).1 ⟨.front, rfl⟩ (by simp [spec])⟩

/-! ### First in, first out -/

def pushed (tr : List (Op α × Result α)) : List α :=
  tr.filterMap fun e => match e with
    | (.pushBack item, _) => some item
    | _ => none

def popped (tr : List (Op α × Result α)) : List α :=
  tr.filterMap fun e => match e with
    | (.popFront, .element x) => x
    | _ => none

/-- One operation at a time: what was popped and what is queued is what was
pushed, in order. -/
theorem sequential_fifo {tr : List (Op α × Result α)} {queue : List α}
    (h : (sequential spec []).Run tr queue) : popped tr ++ queue = pushed tr := by
  induction h with
  | init hi =>
    cases hi
    rfl
  | @snoc tr queue e queue' _ he ih =>
    obtain ⟨hg, ha⟩ := he
    obtain ⟨op, r⟩ := e
    simp only [popped, pushed, List.filterMap_append] at ih ⊢
    cases op with
    | front =>
      cases ha
      simpa using ih
    | size =>
      cases ha
      simpa using ih
    | pushBack item =>
      cases ha
      simp [← ih]
    | popFront =>
      cases queue with
      | nil => cases hg
      | cons x xs =>
        cases ha
        simpa using ih

end OSwitch.SharedQueue
