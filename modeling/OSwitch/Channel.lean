import OSwitch.Lib.Monitor

/-!
# The bounded channel (`channel/include/channel/channel.hpp`)

`next` waits until there is a value or the channel is closed, `put` waits until
the buffer has room. Both wait on one condition variable, and all three
operations signal before they release the mutex.
-/

namespace OSwitch.Channel
open Trace Monitor

variable {α P C : Type*} [DecidableEq P] [DecidableEq C]

def defaultMaxLength : ℕ := 10

structure Chan (α : Type*) where
  buffer : List α := []
  closed : Bool := false
  deriving DecidableEq, Repr

inductive Op (α : Type*) where
  | next
  | put (val : α)
  | close
  deriving DecidableEq, Repr

/- What `next` returns; `assertion` is the failure of `assert(closed_)`. -/
inductive Result (α : Type*) where
  | void
  | value (val : α)
  | nullopt
  | assertion
  deriving DecidableEq, Repr

def spec (maxLength : ℕ) : Spec (Chan α) (Op α) (Result α) where
  guard
    | .next, ch => !ch.buffer.isEmpty || ch.closed
    | .put _, ch => ch.buffer.length < maxLength
    | .close, _ => true
  act
    | .next, ch =>
      match ch.buffer with
      | [] => (ch, if ch.closed then .nullopt else .assertion)
      | val :: rest => ({ ch with buffer := rest }, .value val)
    | .put val, ch => ({ ch with buffer := ch.buffer ++ [val] }, .void)
    | .close, ch => ({ ch with closed := true }, .void)
  signal
    | .next, ch => if ch.buffer.isEmpty then .none else .one
    | .put _, _ => .one
    | .close, _ => .all
  late _ := false

/- The threads in `P` put, those in `C` take; everybody may close. -/
def role : P ⊕ C → Op α → Prop
  | .inl _, .put _ => True
  | .inl _, .next => False
  | .inr _, .next => True
  | .inr _, .put _ => False
  | _, .close => True

abbrev ChannelState (α P C : Type*) := State (Chan α) (Op α) (P ⊕ C)
abbrev ChannelEvent (α P C : Type*) := Event (Op α) (Result α) (P ⊕ C)

def system (maxLength : ℕ) : Lts (ChannelState α P C) (ChannelEvent α P C) :=
  Monitor.system (spec maxLength) role {}

/- One thread of each kind is enough to call everything. -/
def caller (p : P) (c : C) : Op α → P ⊕ C
  | .next => .inr c
  | .put _ => .inl p
  | .close => .inl p

omit [DecidableEq P] [DecidableEq C] in
theorem role_caller (p : P) (c : C) (op : Op α) : role (caller p c op) op := by
  cases op <;> exact trivial

/-! ### Order, bound and end of the stream -/

/- The values that `put` appended, in the order of insertion. -/
def inserted (tr : List (Op α × Result α)) : List α :=
  tr.filterMap fun e => match e with
    | (.put val, _) => some val
    | _ => none

/- The values that `next` returned, in the order of removal. -/
def returned (tr : List (Op α × Result α)) : List α :=
  tr.filterMap fun e => match e with
    | (.next, .value val) => some val
    | _ => none

/-- What holds after any sequence of operations on the channel. -/
structure Sound (maxLength : ℕ) (tr : List (Op α × Result α)) (ch : Chan α) : Prop where
  bounded : ch.buffer.length ≤ maxLength
  fifo : returned tr ++ ch.buffer = inserted tr
  closed : ch.closed = true ↔ ∃ r, (Op.close, r) ∈ tr
  drained : ∀ tr₁ tr₂, tr = tr₁ ++ (.next, .nullopt) :: tr₂ →
    (∃ r, (Op.close, r) ∈ tr₁) ∧ returned tr₁ = inserted tr₁
  asserted : ∀ op, (op, Result.assertion) ∉ tr

theorem start_sound (maxLength : ℕ) : Sound maxLength [] ({} : Chan α) := by
  refine ⟨Nat.zero_le _, rfl, ?_, ?_, ?_⟩
  · simp
  · intro tr₁ tr₂ h
    simp at h
  · simp

theorem inserted_snoc (tr : List (Op α × Result α)) (e : Op α × Result α) :
    inserted (tr ++ [e]) = inserted tr ++ inserted [e] := List.filterMap_append ..

theorem returned_snoc (tr : List (Op α × Result α)) (e : Op α × Result α) :
    returned (tr ++ [e]) = returned tr ++ returned [e] := List.filterMap_append ..

/- What `next` does, by what it finds. -/
theorem act_next {maxLength : ℕ} {ch : Chan α} (hg : (spec maxLength).guard .next ch = true) :
    (ch.buffer = [] ∧ ch.closed = true ∧ (spec maxLength).act .next ch = (ch, .nullopt)) ∨
      ∃ val rest, ch.buffer = val :: rest ∧
        (spec maxLength).act .next ch = ({ ch with buffer := rest }, .value val) := by
  obtain ⟨buffer, closed⟩ := ch
  cases buffer with
  | nil =>
    have hc : closed = true := hg
    subst hc
    exact .inl ⟨rfl, rfl, rfl⟩
  | cons val rest => exact .inr ⟨val, rest, rfl, rfl⟩

/- A step that leaves the stream open for more. -/
theorem drained_snoc {tr : List (Op α × Result α)} {e : Op α × Result α}
    (h : ∀ tr₁ tr₂, tr = tr₁ ++ (.next, .nullopt) :: tr₂ →
      (∃ r, (Op.close, r) ∈ tr₁) ∧ returned tr₁ = inserted tr₁)
    (he : e = (.next, .nullopt) → (∃ r, (Op.close, r) ∈ tr) ∧ returned tr = inserted tr) :
    ∀ tr₁ tr₂, tr ++ [e] = tr₁ ++ (.next, .nullopt) :: tr₂ →
      (∃ r, (Op.close, r) ∈ tr₁) ∧ returned tr₁ = inserted tr₁ := by
  intro tr₁ tr₂ heq
  rcases split_snoc heq with ⟨rfl, hx, -⟩ | ⟨tr', -, htr⟩
  · exact he hx.symm
  · exact h tr₁ tr' htr

theorem sound_step {maxLength : ℕ} {tr : List (Op α × Result α)} {ch ch' : Chan α}
    {e : Op α × Result α} (h : Sound maxLength tr ch)
    (hs : (sequential (spec maxLength) {}).step ch e ch') : Sound maxLength (tr ++ [e]) ch' := by
  obtain ⟨op, r⟩ := e
  obtain ⟨hg, ha⟩ := hs
  dsimp only at hg ha
  cases op with
  | next =>
    rcases act_next hg with ⟨hempty, hclosed, hact⟩ | ⟨val, rest, hbuf, hact⟩
    · rw [hact] at ha
      cases ha
      have hall : returned tr = inserted tr := by simpa [hempty] using h.fifo
      refine ⟨h.bounded, ?_, ?_, drained_snoc h.drained fun _ => ⟨h.closed.mp hclosed, hall⟩, ?_⟩
      · simpa [returned, inserted] using h.fifo
      · simpa using h.closed
      · simpa using h.asserted
    · rw [hact] at ha
      cases ha
      have hfifo := h.fifo
      have hlen := h.bounded
      rw [hbuf] at hfifo hlen
      refine ⟨?_, ?_, ?_, drained_snoc h.drained (fun hx => by cases hx), ?_⟩
      · exact Nat.le_trans (Nat.le_succ _) hlen
      · simpa [returned, inserted] using hfifo
      · simpa using h.closed
      · simpa using h.asserted
  | put val =>
    cases ha
    have hroom : ch.buffer.length < maxLength := by simpa [spec] using hg
    refine ⟨?_, ?_, ?_, drained_snoc h.drained (fun hx => by cases hx), ?_⟩
    · rw [List.length_append]
      exact hroom
    · rw [inserted_snoc, returned_snoc, ← h.fifo]
      simp [returned, inserted]
    · simpa using h.closed
    · simpa using h.asserted
  | close =>
    cases ha
    refine ⟨h.bounded, ?_, ?_, drained_snoc h.drained (fun hx => by cases hx), ?_⟩
    · simpa [returned, inserted] using h.fifo
    · simp
    · simpa using h.asserted

theorem sequential_sound {maxLength : ℕ} {tr : List (Op α × Result α)} {ch : Chan α}
    (h : (sequential (spec maxLength) {}).Run tr ch) : Sound maxLength tr ch := by
  refine h.invariant (I := Sound maxLength) ?_ ?_
  · rintro ch rfl
    exact start_sound maxLength
  · intro tr ch e ch' _ ih hs
    exact sound_step ih hs

/- Whatever was done in a run was done in the run of the sequential channel. -/
theorem run_sound {maxLength : ℕ} {tr : List (ChannelEvent α P C)} {s : ChannelState α P C}
    (h : (system maxLength).Run tr s) : Sound maxLength (tr.filterMap performed) s.shared := by
  obtain ⟨ch, hrun, rfl⟩ := (atomic (spec maxLength) role {}).run h
  exact sequential_sound hrun

/-- The buffer keeps its bound, the values come out in the order in which they
went in, the stream ends only after `close` and with nothing left in it, and
the assertion never fails. -/
theorem bounded_fifo {maxLength : ℕ} {tr : List (ChannelEvent α P C)} {s : ChannelState α P C}
    (h : (system maxLength).Run tr s) :
    s.shared.buffer.length ≤ maxLength ∧
    returned (tr.filterMap performed) ++ s.shared.buffer = inserted (tr.filterMap performed) ∧
    (∀ tr₁ i tr₂, tr = tr₁ ++ .done i .next .nullopt :: tr₂ →
      (∃ j r, .done j .close r ∈ tr₁) ∧
        returned (tr₁.filterMap performed) = inserted (tr₁.filterMap performed)) ∧
    ∀ i op, .done i op .assertion ∉ tr := by
  have hsound := run_sound h
  refine ⟨hsound.bounded, hsound.fifo, ?_, ?_⟩
  · intro tr₁ i tr₂ htr
    have hsplit : tr.filterMap performed =
        tr₁.filterMap performed ++ (.next, .nullopt) :: tr₂.filterMap performed := by
      rw [htr, List.filterMap_append]
      rfl
    obtain ⟨⟨r, hr⟩, hall⟩ := hsound.drained _ _ hsplit
    obtain ⟨j, hj⟩ := mem_performed.mp hr
    exact ⟨⟨j, r, hj⟩, hall⟩
  · intro i op hmem
    exact hsound.asserted op (mem_performed.mpr ⟨i, hmem⟩)

/- One value is put, the channel is closed, and the stream ends behind the value. -/
theorem bounded_fifo_drained :
    ∃ tr, ∃ s : ChannelState ℕ Unit Unit, (system defaultMaxLength).Run tr s ∧
      .done (.inr ()) .next .nullopt ∈ tr ∧ s.shared.buffer.length ≤ defaultMaxLength ∧
      returned (tr.filterMap performed) = [7] := by
  have h0 : (sequential (spec defaultMaxLength) ({} : Chan ℕ)).Run [] {} := .init rfl
  have h1 := h0.snoc (e := (.put 7, .void)) ⟨rfl, rfl⟩
  have h2 := h1.snoc (e := (.close, .void)) ⟨rfl, rfl⟩
  have h3 := h2.snoc (e := (.next, .value 7)) ⟨rfl, rfl⟩
  have h4 := h3.snoc (e := (.next, .nullopt)) ⟨rfl, rfl⟩
  have hrun := run_oneByOne (role_caller () ()) (fun _ => rfl) h4
  refine ⟨_, _, hrun, by simp [oneByOne, caller], (bounded_fifo hrun).1, ?_⟩
  rw [performed_oneByOne]
  rfl

end OSwitch.Channel
