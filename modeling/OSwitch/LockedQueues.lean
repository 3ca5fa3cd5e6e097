import OSwitch.Concatinator

/-!
# The concatinator over mutexes and condition variables

Every queue is a monitor of its own, shared by the concatinator and by one
receiver. A call of the loop takes the mutex, may find the queue empty and go
to sleep, and is woken by the `notify_one` that a `push_back` sends after it has
let go of the mutex. The loop as it was modelled before, with calls that are
single steps, is what can be seen of this.
-/

namespace OSwitch.LockedQueues
open Trace Monitor SharedQueue

variable {n : ℕ}

/- The threads at a queue are the concatinator, `none`, and its receiver. -/
structure State (n : ℕ) where
  core : Concatinator.State n
  threads : Fin n → Option Unit → Thread (Op FpgaPacket)

abbrev QueueEvent := Monitor.Event (Op FpgaPacket) (Result FpgaPacket) (Option Unit)
abbrev QueueState := Monitor.State (List FpgaPacket) (Op FpgaPacket) (Option Unit)

inductive Event (n : ℕ) where
  | queue (i : Fin n) (e : QueueEvent)
  | thread (e : Concatinator.Event n)

namespace State

def monitor (s : State n) (i : Fin n) : QueueState := ⟨s.core.queues i, s.threads i⟩

def setMonitor (s : State n) (i : Fin n) (m : QueueState) : State n where
  core := { s.core with queues := Function.update s.core.queues i m.shared }
  threads := Function.update s.threads i m.thread

end State

/- The call that the loop makes at this place, if it makes one. -/
def callOf : Concatinator.Pc n → Option (Fin n × Op FpgaPacket)
  | .reset => none
  | .search i => if h : i < n then some (⟨i, h⟩, .front) else none
  | .compare i => if h : i < n then some (⟨i, h⟩, .front) else none
  | .pop i => some (i, .popFront)
  | .send => none

/- What the loop does when its call on queue `i` returns. -/
def resume (c : Concatinator.State n) (i : Fin n) (p : FpgaPacket) :
    Concatinator.Event n × Concatinator.State n :=
  match c.pc with
  | .search _ => (.searched i p, c.search i p)
  | .compare _ => (.compared i p, c.compare i p)
  | _ => (.popped i p, { c with pc := .compare (i + 1) })

/- The loop calls what its place says and goes on when the call returns; between
calls it computes as before. Everything else happens inside the queues. -/
inductive Step : State n → Event n → State n → Prop
  | queue {s i e m} : Monitor.Step spec role (s.monitor i) e m →
      (∀ op, e = .call none op → callOf s.core.pc = some (i, op)) →
      (∀ op r, e ≠ .done none op r) → Step s (.queue i e) (s.setMonitor i m)
  | ret {s i op p m} : callOf s.core.pc = some (i, op) →
      Monitor.Step spec role (s.monitor i) (.done none op (.element (some p))) m →
      Step s (.thread (resume (s.setMonitor i m).core i p).1)
        { s.setMonitor i m with core := (resume (s.setMonitor i m).core i p).2 }
  | compute {s e c} : callOf s.core.pc = none → s.core.next = some (e, c) →
      Step s (.thread e) { s with core := c }

def system : Lts (State n) (Event n) where
  init s := s.core = Concatinator.start ∧ s.threads = fun _ _ => .idle
  step := Step

/-! ### What the queues see -/

def pushOf : QueueEvent → Option FpgaPacket
  | .done _ (.pushBack p) _ => some p
  | _ => none

@[simp] theorem setMonitor_monitor (s : State n) (i : Fin n) (m : QueueState) :
    (s.setMonitor i m).monitor i = m := by
  simp [State.setMonitor, State.monitor]

theorem setMonitor_other (s : State n) {i j : Fin n} (hj : j ≠ i) (m : QueueState) :
    (s.setMonitor i m).monitor j = s.monitor j := by
  simp [State.setMonitor, State.monitor, hj]

theorem setMonitor_threads (s : State n) (i : Fin n) (m : QueueState) :
    (s.setMonitor i m).threads i = m.thread :=
  Function.update_self ..

theorem setMonitor_threads_other (s : State n) {i j : Fin n} (hj : j ≠ i) (m : QueueState) :
    (s.setMonitor i m).threads j = s.threads j :=
  Function.update_of_ne hj ..

@[simp] theorem setMonitor_pc (s : State n) (i : Fin n) (m : QueueState) :
    (s.setMonitor i m).core.pc = s.core.pc := rfl

@[simp] theorem resume_queues (c : Concatinator.State n) (i : Fin n) (p : FpgaPacket) :
    (resume c i p).2.queues = c.queues := by
  unfold resume
  split
  · rfl
  · exact Concatinator.compare_queues c i p
  · rfl

/- Only a receiver's push changes a queue, if it is not the loop that does. -/
theorem shared_of_queue {m m' : QueueState} {e : QueueEvent} (h : Awake m)
    (he : Monitor.Step spec role m e m') (hno : ∀ op r, e ≠ .done none op r) :
    m'.shared = m.shared ++ (pushOf e).toList := by
  rcases step_cases he with ⟨hnone, hsame⟩ | ⟨j, op, rfl, hready, -, hact⟩
  · have hpush : pushOf e = none := by
      cases e with
      | done => cases hnone
      | _ => rfl
    rw [hsame, hpush, Option.toList_none, List.append_nil]
  · cases j with
    | none => exact absurd rfl (hno _ _)
    | some u =>
      have hrole := h.fits (some u)
      rw [hready] at hrole
      cases op with
      | pushBack p => exact hact
      | front | popFront | size => cases hrole

/- What a call that returns has found at the front of its queue. -/
theorem queue_of_ret {m m' : QueueState} {op : Op FpgaPacket} {p : FpgaPacket}
    (he : Monitor.Step spec role m (.done none op (.element (some p))) m') :
    (op = .front ∧ m.shared.head? = some p ∧ m'.shared = m.shared) ∨
      (op = .popFront ∧ m.shared = p :: m'.shared) := by
  rcases step_cases he with ⟨hnone, -⟩ | ⟨j, op', hdone, -, hg, hact⟩
  · cases hnone
  · injection hdone with hj hop hr
    subst hop
    cases hq : m.shared with
    | nil =>
      rw [hq] at hg hr
      cases op with
      | front | popFront => cases hg
      | pushBack | size => cases hr
    | cons q rest =>
      rw [hq] at hact hr
      cases op with
      | front =>
        cases hr
        exact .inl ⟨rfl, rfl, hact⟩
      | popFront =>
        cases hr
        exact .inr ⟨rfl, congrArg (p :: ·) hact.symm⟩
      | pushBack | size => cases hr

/- The call returns to the loop with what the loop would have read in one step. -/
theorem next_of_ret {s : State n} {i : Fin n} {op : Op FpgaPacket} {p : FpgaPacket}
    {m : QueueState} (hcall : callOf s.core.pc = some (i, op))
    (he : Monitor.Step spec role (s.monitor i) (.done none op (.element (some p))) m) :
    s.core.next = some (resume (s.setMonitor i m).core i p) := by
  have hqueue := queue_of_ret he
  change (op = .front ∧ (s.core.queues i).head? = some p ∧ m.shared = s.core.queues i) ∨
    (op = .popFront ∧ s.core.queues i = p :: m.shared) at hqueue
  have hsame : m.shared = s.core.queues i → (s.setMonitor i m).core = s.core := by
    intro hm
    simp only [State.setMonitor, hm, Function.update_eq_self]
  cases hpc : s.core.pc with
  | reset =>
    rw [hpc] at hcall
    cases hcall
  | send =>
    rw [hpc] at hcall
    cases hcall
  | search k =>
    rw [hpc, callOf] at hcall
    split at hcall
    next hk =>
      cases hcall
      rcases hqueue with ⟨-, hhead, hm⟩ | ⟨hop, -⟩
      · rw [hsame hm]
        simp only [Concatinator.State.next, hpc, dif_pos hk, hhead, Option.map_some, resume]
      · cases hop
    next => cases hcall
  | compare k =>
    rw [hpc, callOf] at hcall
    split at hcall
    next hk =>
      cases hcall
      rcases hqueue with ⟨-, hhead, hm⟩ | ⟨hop, -⟩
      · rw [hsame hm]
        simp only [Concatinator.State.next, hpc, dif_pos hk, hhead, Option.map_some, resume]
      · cases hop
    next => cases hcall
  | pop j =>
    rw [hpc, callOf] at hcall
    cases hcall
    rcases hqueue with ⟨hop, -⟩ | ⟨-, hq⟩
    · cases hop
    · simp only [Concatinator.State.next, hpc, hq, resume, State.setMonitor,
        Concatinator.State.pop]

theorem queues_of_compute {c c' : Concatinator.State n} {e : Concatinator.Event n}
    (hcall : callOf c.pc = none) (hnext : c.next = some (e, c')) : c'.queues = c.queues := by
  cases Concatinator.act_of_next hnext with
  | reset | format | finish => rfl
  | send => exact Concatinator.send_queues c
  | @search i p hpc | @compare i p hpc =>
    rw [hpc, callOf, dif_pos i.isLt] at hcall
    cases hcall
  | pop hpc =>
    rw [hpc] at hcall
    cases hcall

/-! ### The loop with atomic calls -/

/-- In no queue is a wake-up missing. -/
theorem awake_step {s s' : State n} {e : Event n} (h : ∀ i, Awake (s.monitor i))
    (he : Step s e s') : ∀ i, Awake (s'.monitor i) := by
  have hset : ∀ (i : Fin n) (m : QueueState) (e : QueueEvent),
      Monitor.Step spec role (s.monitor i) e m → ∀ j, Awake ((s.setMonitor i m).monitor j) := by
    intro i m e hm j
    by_cases hj : j = i
    · subst hj
      rw [setMonitor_monitor]
      exact step_awake (h j) hm
    · rw [setMonitor_other s hj]
      exact h j
  intro j
  cases he with
  | @queue i e m hm => exact hset i m e hm j
  | @ret i op p m _ hm =>
    have hsame : State.monitor
        { s.setMonitor i m with core := (resume (s.setMonitor i m).core i p).2 } j =
        (s.setMonitor i m).monitor j := by
      unfold State.monitor
      rw [resume_queues]
    rw [hsame]
    exact hset i m _ hm j
  | @compute e c hcall hnext =>
    have hsame : State.monitor { s with core := c } j = s.monitor j := by
      unfold State.monitor
      rw [queues_of_compute hcall hnext]
    rw [hsame]
    exact h j

/- What the loop with atomic calls sees. -/
def visible : Event n → Option (Concatinator.Event n)
  | .queue i e => (pushOf e).map (.push i)
  | .thread e => some e

def refines : Simulation (system (n := n)) Concatinator.system visible where
  rel s c := s.core = c ∧ ∀ i, Awake (s.monitor i)
  init := by
    intro s hs
    refine ⟨_, rfl, hs.1, ?_⟩
    intro i
    have hempty : s.monitor i = ⟨[], fun _ => .idle⟩ := by
      rw [State.monitor, hs.1, hs.2]
      rfl
    rw [hempty]
    exact awake_of_consumer (fun _ => trivial) fun op hop => by cases hop
  silent := by
    intro s e s' c he hr hf
    refine ⟨?_, awake_step hr.2 he⟩
    rw [← hr.1]
    cases he with
    | @queue i e m hm _ hno =>
      have hshared := shared_of_queue (hr.2 i) hm hno
      have hpush : pushOf e = none := Option.map_eq_none_iff.mp hf
      rw [hpush, Option.toList_none, List.append_nil] at hshared
      simp only [State.setMonitor, hshared, State.monitor, Function.update_eq_self]
    | ret => cases hf
    | compute => cases hf
  visible := by
    intro s e s' c d he hr hf
    have hawake := awake_step hr.2 he
    obtain ⟨rfl, hqueues⟩ := hr
    cases he with
    | @queue i e m hm _ hno =>
      have hshared := shared_of_queue (hqueues i) hm hno
      obtain ⟨p, hp, rfl⟩ := Option.map_eq_some_iff.mp hf
      rw [hp] at hshared
      refine ⟨_, .push _ i p, ?_, hawake⟩
      simp only [State.setMonitor, hshared, State.monitor, Concatinator.State.push]
      rfl
    | ret hcall hm =>
      cases hf
      exact ⟨_, .thread (next_of_ret hcall hm), rfl, hawake⟩
    | compute _ hnext =>
      cases hf
      exact ⟨_, .thread hnext, rfl, hawake⟩

/-- Seen without the mutexes, every run is one of the loop with atomic calls. -/
theorem refines_atomic {tr : List (Event n)} {s : State n} (h : system.Run tr s) :
    Concatinator.system.Run (tr.filterMap visible) s.core := by
  obtain ⟨c, hrun, rfl, -⟩ := refines.run h
  exact hrun

/-! ### Where the loop is in its queues -/

/- The loop is outside of every queue but the one that it calls at this place. -/
structure Placed (s : State n) : Prop where
  awake : ∀ i, Awake (s.monitor i)
  inside : ∀ i, s.threads i none = .idle ∨
    ∃ op, callOf s.core.pc = some (i, op) ∧ (s.threads i none).Pending op

theorem not_pending_of_idle {t : Thread (Op FpgaPacket)} (h : t = .idle) (op : Op FpgaPacket) :
    ¬t.Pending op := by
  rw [h]
  rintro (hp | hp) <;> cases hp

theorem pending_unique {t : Thread (Op FpgaPacket)} {op op' : Op FpgaPacket} (h : t.Pending op)
    (h' : t.Pending op') : op = op' := by
  rcases h with h | h
  · rw [h] at h'
    rcases h' with h' | h' <;> cases h'
    rfl
  · rw [h] at h'
    rcases h' with h' | h' <;> cases h'
    rfl

/- The loop owes nobody a signal. -/
theorem idle_or_pending_of_awake {m : QueueState} (h : Awake m) :
    m.thread none = .idle ∨ ∃ op, (m.thread none).Pending op := by
  have hfits := h.fits none
  cases ht : m.thread none with
  | idle => exact .inl rfl
  | ready op => exact .inr ⟨op, .inl rfl⟩
  | asleep op => exact .inr ⟨op, .inr rfl⟩
  | signalling sig =>
    rw [ht] at hfits
    exact absurd rfl hfits.1

theorem idle_of_done {m m' : QueueState} {op : Op FpgaPacket} {r : Result FpgaPacket}
    (h : Awake m) (he : Monitor.Step spec role m (.done none op r) m') :
    m'.thread none = .idle := by
  cases he with
  | act hi hg hlate hw =>
    rcases wakes_at hw none with hsame | ⟨op', hasleep, -⟩
    · exact hsame.trans (Function.update_self ..)
    · rw [Function.update_self] at hasleep
      cases hasleep
  | actLate hi hg hlate =>
    have hfits := h.fits none
    rw [hi] at hfits
    cases op with
    | pushBack p => cases hfits
    | front | popFront | size => cases hlate

theorem placed_step {s s' : State n} {e : Event n} (h : Placed s) (he : Step s e s') :
    Placed s' := by
  refine ⟨awake_step h.awake he, ?_⟩
  cases he with
  | @queue i e m hm hcall _ =>
    intro j
    by_cases hj : j = i
    · subst hj
      have hawake : Awake m := step_awake (h.awake j) hm
      rw [setMonitor_threads, setMonitor_pc]
      rcases idle_or_pending_of_awake hawake with hidle | ⟨op, hpending⟩
      · exact .inl hidle
      · refine .inr ⟨op, ?_, hpending⟩
        rcases pending_step hm hpending with hold | ⟨rfl, -⟩
        · rcases h.inside j with hidle | ⟨op', hop', hpending'⟩
          · exact absurd hold (not_pending_of_idle hidle op)
          · rw [pending_unique hold hpending']
            exact hop'
        · exact hcall op rfl
    · rw [setMonitor_threads_other s hj]
      exact h.inside j
  | @ret i op p m hcall hm =>
    intro j
    left
    by_cases hj : j = i
    · subst hj
      exact (congrFun (setMonitor_threads s j m) none).trans (idle_of_done (h.awake j) hm)
    · rcases h.inside j with hidle | ⟨op', hop', -⟩
      · exact (congrFun (setMonitor_threads_other s hj m) none).trans hidle
      · rw [hcall] at hop'
        cases hop'
        exact absurd rfl hj
  | compute hcall _ =>
    intro j
    rcases h.inside j with hidle | ⟨op', hop', -⟩
    · exact .inl hidle
    · rw [hcall] at hop'
      cases hop'

theorem run_placed {tr : List (Event n)} {s : State n} (h : system.Run tr s) : Placed s := by
  refine h.invariant (I := fun _ s => Placed s) ?_ ?_
  · intro s hs
    obtain ⟨c, -, -, hawake⟩ := refines.init s hs
    refine ⟨hawake, ?_⟩
    intro i
    rw [hs.2]
    exact .inl rfl
  · intro tr s e s' _ ih he
    exact placed_step ih he

/-! ### The loop gets on -/

/- A step of the loop, or a signal that a receiver still owes. -/
def Own : Event n → Prop
  | .queue _ (.call none _) => True
  | .queue _ (.signalled (some _)) => True
  | .queue _ _ => False
  | .thread _ => True

/- A call that could be done in one step finds its queue non-empty. -/
theorem queue_of_call {c c' : Concatinator.State n} {i : Fin n} {op : Op FpgaPacket}
    {e : Concatinator.Event n} (hcall : callOf c.pc = some (i, op))
    (hnext : c.next = some (e, c')) :
    (op = .front ∨ op = .popFront) ∧ ∃ p rest, c.queues i = p :: rest := by
  cases Concatinator.act_of_next hnext with
  | reset hpc =>
    rw [hpc] at hcall
    cases hcall
  | send hpc =>
    rw [hpc] at hcall
    cases hcall
  | @format k hpc hk | @finish k hpc hk =>
    rw [hpc, callOf, dif_neg (by omega)] at hcall
    cases hcall
  | @search j p hpc hp | @compare j p hpc hp =>
    rw [hpc, callOf, dif_pos j.isLt] at hcall
    cases hcall
    obtain ⟨rest, hrest⟩ := List.head?_eq_some_iff.mp hp
    exact ⟨.inl rfl, p, rest, hrest⟩
  | pop hpc hq =>
    rw [hpc, callOf] at hcall
    cases hcall
    exact ⟨.inr rfl, _, _, hq⟩

/- A call that has the mutex and finds a packet returns. -/
theorem exists_ret {s : State n} {i : Fin n} {op : Op FpgaPacket} {e : Concatinator.Event n}
    {c : Concatinator.State n} (hcall : callOf s.core.pc = some (i, op))
    (hnext : s.core.next = some (e, c)) (hready : s.threads i none = .ready op) :
    ∃ s', Step s (.thread e) s' ∧ s'.core = c := by
  obtain ⟨hop, p, rest, hq⟩ := queue_of_call hcall hnext
  have hdone : ∃ m, Monitor.Step spec role (s.monitor i) (.done none op (.element (some p))) m := by
    obtain ⟨t, hw⟩ := exists_wakes (spec.signal op (s.monitor i).shared)
      (Function.update (s.threads i) none .idle)
    have hshared : (s.monitor i).shared = p :: rest := hq
    rcases hop with rfl | rfl
    · have hstep : Monitor.Step spec role (s.monitor i) (.done none .front _) _ :=
        .act hready (by rw [hshared]; rfl) rfl hw
      rw [hshared] at hstep
      exact ⟨_, hstep⟩
    · have hstep : Monitor.Step spec role (s.monitor i) (.done none .popFront _) _ :=
        .act hready (by rw [hshared]; rfl) rfl hw
      rw [hshared] at hstep
      exact ⟨_, hstep⟩
  obtain ⟨m, hm⟩ := hdone
  have hres := next_of_ret hcall hm
  rw [hnext] at hres
  have hstep := Step.ret hcall hm
  rw [← Option.some_inj.mp hres] at hstep
  exact ⟨_, hstep, rfl⟩

theorem setMonitor_core {s : State n} {i : Fin n} {m : QueueState}
    (hm : m.shared = s.core.queues i) : (s.setMonitor i m).core = s.core := by
  simp only [State.setMonitor, hm, Function.update_eq_self]

/- A call that is not in the mutex yet gets there by entering it, or by the
signal that its receiver owes. -/
theorem exists_ready {s : State n} (h : Placed s) {i : Fin n} {op : Op FpgaPacket}
    (hcall : callOf s.core.pc = some (i, op)) (hne : s.core.queues i ≠ [])
    (hop : op = .front ∨ op = .popFront) :
    ∃ tr s', (system.startingAt s).Run tr s' ∧ s'.core = s.core ∧ s'.threads i none = .ready op ∧
      tr.filterMap visible = [] ∧ tr.length ≤ 1 ∧ ∀ e ∈ tr, Own e := by
  have hstart : (system.startingAt s).Run [] s := .init rfl
  rcases h.inside i with hidle | ⟨op', hcall', hready | hasleep⟩
  · have hmay : role (P := Unit) none op := by
      rcases hop with rfl | rfl <;> trivial
    have hstep : Step s (.queue i (.call none op))
        (s.setMonitor i ⟨s.core.queues i, Function.update (s.threads i) none (.ready op)⟩) :=
      .queue (.call hidle hmay) (fun op' hop' => by cases hop'; exact hcall)
        (fun _ _ hdone => by cases hdone)
    refine ⟨[.queue i (.call none op)], _, hstart.snoc hstep, setMonitor_core rfl, ?_, rfl,
      le_refl 1, ?_⟩
    · simp only [State.setMonitor, Function.update_self]
    · intro e he
      rw [List.mem_singleton.mp he]
      trivial
  · rw [hcall] at hcall'
    cases hcall'
    exact ⟨[], s, hstart, rfl, hready, rfl, Nat.zero_le 1, fun e he => by cases he⟩
  · rw [hcall] at hcall'
    cases hcall'
    obtain ⟨p, howed⟩ := (h.awake i).owed op hasleep hne
    have hstill : Function.update (s.threads i) (some p) .idle none = .asleep op :=
      (Function.update_of_ne (by simp) ..).trans hasleep
    have hstep : Step s (.queue i (.signalled (some p))) (s.setMonitor i ⟨s.core.queues i,
        Function.update (Function.update (s.threads i) (some p) .idle) none (.ready op)⟩) :=
      .queue (.signal howed (.one hstill)) (fun _ hop' => by cases hop')
        (fun _ _ hdone => by cases hdone)
    refine ⟨[.queue i (.signalled (some p))], _, hstart.snoc hstep, setMonitor_core rfl, ?_, rfl,
      le_refl 1, ?_⟩
    · simp only [State.setMonitor, Function.update_self]
    · intro e he
      rw [List.mem_singleton.mp he]
      trivial

/- What the loop with atomic calls would do next, the loop does after one step of
its own or the signal that it waits for. -/
theorem exists_next {s : State n} (h : Placed s) {e : Concatinator.Event n}
    {c : Concatinator.State n} (hnext : s.core.next = some (e, c)) :
    ∃ tr u s', (system.startingAt s).Run tr u ∧ Step u (.thread e) s' ∧ s'.core = c ∧
      tr.filterMap visible = [] ∧ tr.length ≤ 1 ∧ ∀ d ∈ tr, Own d := by
  cases hcall : callOf s.core.pc with
  | none =>
    exact ⟨[], s, { s with core := c }, .init rfl, .compute hcall hnext, rfl, rfl,
      Nat.zero_le 1, fun d hd => by cases hd⟩
  | some call =>
    obtain ⟨i, op⟩ := call
    obtain ⟨hop, p, rest, hq⟩ := queue_of_call hcall hnext
    have hne : s.core.queues i ≠ [] := by
      rw [hq]
      exact List.cons_ne_nil p rest
    obtain ⟨tr, u, hrun, hcore, hready, htr, hlen, hown⟩ := exists_ready h hcall hne hop
    rw [← hcore] at hcall hnext
    obtain ⟨s', hret, hs'⟩ := exists_ret hcall hnext hready
    exact ⟨tr, u, s', hrun, hret, hs', htr, hlen, hown⟩

/-- The loop sleeps only over an empty queue or with a signal on its way, and
whatever the loop with atomic calls would do next, it does: in two steps at
most, its own ones and that signal. No spurious wake-up is needed. -/
theorem loop_progress {tr : List (Event n)} {s : State n} (h : system.Run tr s) :
    (∀ i op, s.threads i none = .asleep op → callOf s.core.pc = some (i, op) ∧
      (s.core.queues i = [] ∨ s.threads i (some ()) = .signalling .one)) ∧
    ∀ e c, s.core.next = some (e, c) → ∃ tr' s', (system.startingAt s).Run tr' s' ∧
      s'.core = c ∧ tr'.filterMap visible = [e] ∧ tr'.length ≤ 2 ∧ ∀ d ∈ tr', Own d := by
  have hplaced := run_placed h
  constructor
  · intro i op hasleep
    rcases hplaced.inside i with hidle | ⟨op', hcall, hpending⟩
    · rw [hidle] at hasleep
      cases hasleep
    · have hop : op = op' := pending_unique (.inr hasleep) hpending
      refine ⟨hop ▸ hcall, ?_⟩
      by_cases hne : s.core.queues i = []
      · exact .inl hne
      · obtain ⟨p, howed⟩ := (hplaced.awake i).owed op hasleep hne
        exact .inr howed
  · intro e c hnext
    obtain ⟨tr', u, s', hrun, hret, hs', htr, hlen, hown⟩ := exists_next hplaced hnext
    have hlast : (system.startingAt s).step u (.thread e) s' := hret
    refine ⟨tr' ++ [.thread e], s', hrun.snoc hlast, hs', ?_, ?_, ?_⟩
    · rw [List.filterMap_append, htr]
      rfl
    · rw [List.length_append, List.length_singleton]
      omega
    · intro d hd
      rcases List.mem_append.mp hd with hd | hd
      · exact hown d hd
      · rw [List.mem_singleton.mp hd]
        trivial

/- The loop has gone to sleep in its first `front`, and then the receiver has
pushed and not yet notified. -/
def pushedTrace : List (Event 1) :=
  [.thread .tau, .queue 0 (.call none .front), .queue 0 (.sleep none .front),
    .queue 0 (.call (some ()) (.pushBack ⟨[], 0, []⟩)),
    .queue 0 (.done (some ()) (.pushBack ⟨[], 0, []⟩) .void)]

theorem exists_pushed : ∃ s : State 1, system.Run pushedTrace s ∧
    s.threads 0 none = .asleep .front ∧ s.core.queues 0 = [⟨[], 0, []⟩] ∧
    ∃ c, s.core.next = some (.searched 0 ⟨[], 0, []⟩, c) := by
  have h0 : system.Run [] (⟨Concatinator.start, fun _ _ => .idle⟩ : State 1) := .init ⟨rfl, rfl⟩
  have h1 := h0.snoc (show Step _ (.thread .tau) _ from .compute rfl rfl)
  have h2 := h1.snoc (show Step _ (.queue 0 (.call none .front)) _ from
    .queue (.call rfl trivial) (fun op hop => by cases hop; rfl) (fun _ _ hd => by cases hd))
  have h3 := h2.snoc (show Step _ (.queue 0 (.sleep none .front)) _ from
    .queue (.sleep rfl rfl) (fun op hop => by cases hop) (fun _ _ hd => by cases hd))
  have h4 := h3.snoc (show Step _ (.queue 0 (.call (some ()) (.pushBack ⟨[], 0, []⟩))) _ from
    .queue (.call rfl trivial) (fun op hop => by cases hop) (fun _ _ hd => by cases hd))
  have h5 := h4.snoc (show Step _ (.queue 0 (.done (some ()) (.pushBack ⟨[], 0, []⟩) .void)) _ from
    .queue (.actLate rfl rfl rfl) (fun op hop => by cases hop) (fun _ _ hd => by cases hd))
  exact ⟨_, h5, rfl, rfl, _, rfl⟩

theorem refines_atomic_pushed : ∃ s : State 1, system.Run pushedTrace s ∧
    Concatinator.system.Run [.tau, .push 0 ⟨[], 0, []⟩] s.core := by
  obtain ⟨s, hrun, -⟩ := exists_pushed
  exact ⟨s, hrun, refines_atomic hrun⟩

theorem loop_progress_pushed : ∃ s : State 1, system.Run pushedTrace s ∧
    s.threads 0 none = .asleep .front ∧ s.threads 0 (some ()) = .signalling .one ∧
    ∃ tr' s', (system.startingAt s).Run tr' s' ∧
      tr'.filterMap visible = [.searched 0 ⟨[], 0, []⟩] ∧ tr'.length ≤ 2 ∧ ∀ d ∈ tr', Own d := by
  obtain ⟨s, hrun, hasleep, hqueue, c, hc⟩ := exists_pushed
  have hprogress := loop_progress hrun
  obtain ⟨tr', s', hrun', -, htr⟩ := hprogress.2 _ c hc
  refine ⟨s, hrun, hasleep, ?_, tr', s', hrun', htr⟩
  rcases (hprogress.1 0 .front hasleep).2 with hempty | howed
  · rw [hqueue] at hempty
    cases hempty
  · exact howed

end OSwitch.LockedQueues
