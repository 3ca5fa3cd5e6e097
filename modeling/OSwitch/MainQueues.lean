import OSwitch.LockedQueues
import OSwitch.MainProgress

/-!
# The program of `main.cc` over mutexes and condition variables

The program with the queues as they are: a receiver that has a packet calls
`push_back`, which takes the mutex, pushes and sends its signal afterwards, and
receives again when the call has returned; the concatinator sleeps and is woken.
-/

namespace OSwitch.MainQueues
open Trace Monitor SharedQueue Wire
open LockedQueues (QueueEvent QueueState)
open ReceiverSocket (Recv RecvBuffer sizeOfBuffers)
open Concatinator (linkId linkId_length)

variable {n : ℕ} {ids msgs : Fin n → Bytes} {traffic : Fin n → Recv → Prop}

structure State (n : ℕ) where
  main : Main.State n
  threads : Fin n → Option Unit → Thread (Op FpgaPacket)

/- `outside`: the senders, the cables, and the receivers at their interfaces. -/
inductive Event (n : ℕ) where
  | outside (e : Main.Event n)
  | inside (e : LockedQueues.Event n)

namespace State

def locked (s : State n) : LockedQueues.State n :=
  ⟨s.main.pipeline.concatinator, s.threads⟩

def setLocked (s : State n) (t : LockedQueues.State n) : State n where
  main := { s.main with pipeline := { s.main.pipeline with concatinator := t.core } }
  threads := t.threads

/- The packet of receiver `i` is in the queue. -/
def settle (s : State n) (i : Fin n) : State n :=
  { s with main := { s.main with pipeline :=
    { s.main.pipeline with pending := Function.update s.main.pipeline.pending i none } } }

end State

/- A receiver is at its interface while it is not in a call of its queue. -/
def Outside (s : State n) : Main.Event n → Prop
  | .attempt _ _ => True
  | .lost _ _ => True
  | .pipeline (.received i _) => s.threads i (some ()) = .idle
  | .pipeline (.crashed i _) => s.threads i (some ()) = .idle
  | .pipeline (.merge _) => False

/- A receiver calls `push_back` with the packet that it has received; the packet is
in the queue before the call has returned. -/
inductive Step (ids msgs : Fin n → Bytes) (traffic : Fin n → Recv → Prop) :
    State n → Event n → State n → Prop
  | outside {s e m} : Outside s e → Main.Step ids msgs traffic s.main e m →
      Step ids msgs traffic s (.outside e) ⟨m, s.threads⟩
  | queue {s i e t} : s.main.pipeline.terminated = false →
      LockedQueues.Step s.locked (.queue i e) t → LockedQueues.pushOf e = none →
      (∀ op, e = .call (some ()) op →
        ∃ p, s.main.pipeline.pending i = some p ∧ op = .pushBack p) →
      Step ids msgs traffic s (.inside (.queue i e)) (s.setLocked t)
  | push {s i e t p} : s.main.pipeline.terminated = false →
      LockedQueues.Step s.locked (.queue i e) t → LockedQueues.pushOf e = some p →
      Step ids msgs traffic s (.inside (.queue i e)) ((s.setLocked t).settle i)
  | thread {s e t} : s.main.pipeline.terminated = false →
      LockedQueues.Step s.locked (.thread e) t →
      Step ids msgs traffic s (.inside (.thread e)) (s.setLocked t)

def system (ids msgs : Fin n → Bytes) (traffic : Fin n → Recv → Prop) :
    Lts (State n) (Event n) where
  init s := (Main.system ids msgs traffic).init s.main ∧ s.threads = fun _ _ => .idle
  step := Step ids msgs traffic

/- What the program with atomic calls sees. -/
def visible : Event n → Option (Main.Event n)
  | .outside e => some e
  | .inside e => (LockedQueues.visible e).map fun c => .pipeline (.merge c)

theorem visible_queue (i : Fin n) (e : QueueEvent) : visible (.inside (.queue i e)) =
    (LockedQueues.pushOf e).map fun p => .pipeline (.merge (.push i p)) :=
  Option.map_map ..

/-! ### What holds inside the queues -/

/- A receiver that is in a call pushes the packet that it has received. -/
structure Sound (s : State n) : Prop where
  placed : LockedQueues.Placed s.locked
  pushing : ∀ i op, (s.threads i (some ())).Pending op →
    ∃ p, s.main.pipeline.pending i = some p ∧ op = .pushBack p

theorem outside_keeps {s : State n} {e : Main.Event n} {m : Main.State n} (hout : Outside s e)
    (he : Main.Step ids msgs traffic s.main e m) :
    m.pipeline.concatinator = s.main.pipeline.concatinator ∧
      ∀ i p, s.main.pipeline.pending i = some p → m.pipeline.pending i = some p := by
  cases he with
  | attempt | lost => exact ⟨rfl, fun _ _ => id⟩
  | @receive i r frames p _ hstep =>
    cases hstep with
    | receive _ hnone _ =>
      refine ⟨rfl, ?_⟩
      intro j p hp
      have hj : j ≠ i := by
        intro hj
        rw [hj, hnone] at hp
        cases hp
      exact (Function.update_of_ne hj ..).trans hp
  | crash _ _ hstep =>
    cases hstep with
    | crash => exact ⟨rfl, fun _ _ => id⟩
  | merge => exact hout.elim

/- What is pending at a queue was pending there before or is called now. -/
theorem pending_setMonitor {s : LockedQueues.State n} {i j : Fin n} {e : QueueEvent}
    {m : QueueState} {op : Op FpgaPacket} (hm : Monitor.Step spec role (s.monitor j) e m)
    (hp : ((s.setMonitor j m).threads i (some ())).Pending op) :
    (s.threads i (some ())).Pending op ∨ (i = j ∧ e = .call (some ()) op) := by
  by_cases hi : i = j
  · subst hi
    rw [LockedQueues.setMonitor_threads] at hp
    rcases pending_step hm hp with hold | ⟨hcall, -⟩
    · exact .inl hold
    · exact .inr ⟨rfl, hcall⟩
  · rw [LockedQueues.setMonitor_threads_other s hi] at hp
    exact .inl hp

theorem pending_locked {s t : LockedQueues.State n} {e : LockedQueues.Event n}
    (he : LockedQueues.Step s e t) {i : Fin n} {op : Op FpgaPacket}
    (hp : (t.threads i (some ())).Pending op) :
    (s.threads i (some ())).Pending op ∨ e = .queue i (.call (some ()) op) := by
  cases he with
  | queue hm =>
    rcases pending_setMonitor hm hp with hold | ⟨rfl, rfl⟩
    · exact .inl hold
    · exact .inr rfl
  | ret _ hm =>
    rcases pending_setMonitor hm hp with hold | ⟨-, hcall⟩
    · exact .inl hold
    · cases hcall
  | compute => exact .inl hp

/- A push ends the locked part of its call; the signal is still to be sent. -/
theorem push_cases {s t : LockedQueues.State n} {i : Fin n} {e : QueueEvent} {p : FpgaPacket}
    (he : LockedQueues.Step s (.queue i e) t) (hpush : LockedQueues.pushOf e = some p) :
    s.threads i (some ()) = .ready (.pushBack p) ∧ t.threads i (some ()) = .signalling .one := by
  cases he with
  | @queue _ _ m hm _ hno =>
    rw [LockedQueues.setMonitor_threads]
    cases hm with
    | call | sleep | signal | spurious => cases hpush
    | @act j op _ hj _ hlate _ =>
      cases op with
      | pushBack => cases hlate
      | front | popFront | size => cases hpush
    | @actLate j op hj _ hlate =>
      cases j with
      | none => exact absurd rfl (hno _ _)
      | some u =>
        cases op with
        | pushBack q =>
          cases hpush
          have howed := Function.update_self (some u) (Thread.signalling .one) (s.monitor i).thread
          exact ⟨hj, howed⟩
        | front | popFront | size => cases hpush

theorem sound_step {s s' : State n} {e : Event n} (h : Sound s)
    (he : Step ids msgs traffic s e s') : Sound s' := by
  cases he with
  | @outside e m hout hm =>
    obtain ⟨hsame, hpending⟩ := outside_keeps hout hm
    have hlocked : State.locked ⟨m, s.threads⟩ = s.locked := by
      unfold State.locked
      rw [hsame]
    constructor
    · rw [hlocked]
      exact h.placed
    · intro i op hop
      obtain ⟨p, hp, heq⟩ := h.pushing i op hop
      exact ⟨p, hpending i p hp, heq⟩
  | @queue i e t _ ht _ hcall =>
    refine ⟨LockedQueues.placed_step h.placed ht, ?_⟩
    intro j op hop
    rcases pending_locked ht hop with hold | hnew
    · exact h.pushing j op hold
    · cases hnew
      exact hcall op rfl
  | @push i e t p _ ht hpush =>
    refine ⟨LockedQueues.placed_step h.placed ht, ?_⟩
    intro j op hop
    change (t.threads j (some ())).Pending op at hop
    have hj : j ≠ i := by
      intro hj
      rw [hj, (push_cases ht hpush).2] at hop
      rcases hop with hop | hop <;> cases hop
    rcases pending_locked ht hop with hold | hnew
    · obtain ⟨q, hq, heq⟩ := h.pushing j op hold
      exact ⟨q, (Function.update_of_ne hj ..).trans hq, heq⟩
    · cases hnew
      cases hj rfl
  | @thread e t _ ht =>
    refine ⟨LockedQueues.placed_step h.placed ht, ?_⟩
    intro j op hop
    rcases pending_locked ht hop with hold | hnew
    · exact h.pushing j op hold
    · cases hnew

theorem sound_init {s : State n} (hs : (system ids msgs traffic).init s) : Sound s := by
  obtain ⟨hmain, hthreads⟩ := hs
  have hrun : LockedQueues.system.Run [] s.locked := .init ⟨hmain.2.2.1, hthreads⟩
  refine ⟨LockedQueues.run_placed hrun, ?_⟩
  intro i op hop
  rw [hthreads] at hop
  exact absurd hop (LockedQueues.not_pending_of_idle rfl op)

/-! ### The program with atomic calls -/

theorem next_of_thread {s t : LockedQueues.State n} {e : Concatinator.Event n}
    (he : LockedQueues.Step s (.thread e) t) : s.core.next = some (e, t.core) := by
  cases he with
  | ret hcall hm => exact LockedQueues.next_of_ret hcall hm
  | compute _ hnext => exact hnext

theorem core_of_queue {s t : LockedQueues.State n} {i : Fin n} {e : QueueEvent}
    (h : LockedQueues.Placed s) (he : LockedQueues.Step s (.queue i e) t) :
    t.core = { s.core with
      queues := Function.update s.core.queues i
        (s.core.queues i ++ (LockedQueues.pushOf e).toList) } := by
  cases he with
  | @queue _ _ m hm _ hno =>
    have hshared := LockedQueues.shared_of_queue (h.awake i) hm hno
    simp only [LockedQueues.State.setMonitor, hshared, LockedQueues.State.monitor]

/-- Every step is one of the program with atomic calls, or cannot be seen there. -/
def mainView (ids msgs : Fin n → Bytes) (traffic : Fin n → Recv → Prop) :
    Simulation (system ids msgs traffic) (Main.system ids msgs traffic) visible where
  rel s m := s.main = m ∧ Sound s
  init s hs := ⟨_, hs.1, rfl, sound_init hs⟩
  silent := by
    intro s e s' m he hr hf
    refine ⟨?_, sound_step hr.2 he⟩
    rw [← hr.1]
    cases he with
    | outside => cases hf
    | queue _ ht hpush _ =>
      have hcore := core_of_queue hr.2.placed ht
      rw [hpush, Option.toList_none, List.append_nil, Function.update_eq_self] at hcore
      unfold State.setLocked
      rw [hcore]
      rfl
    | push _ _ hpush =>
      rw [visible_queue, hpush] at hf
      cases hf
    | thread => cases hf
  visible := by
    intro s e s' m d he hr hf
    have hsound := sound_step hr.2 he
    obtain ⟨rfl, hs⟩ := hr
    cases he with
    | outside _ hm =>
      cases hf
      exact ⟨_, hm, rfl, hsound⟩
    | queue _ _ hpush _ =>
      rw [visible_queue, hpush] at hf
      cases hf
    | @push i e t p halive ht hpush =>
      have hcore := core_of_queue hs.placed ht
      rw [hpush] at hcore
      rw [visible_queue, hpush] at hf
      cases hf
      obtain ⟨q, hq, heq⟩ := hs.pushing i _ (.inl (push_cases ht hpush).1)
      cases heq
      refine ⟨_, .merge (.push halive hq), ?_, hsound⟩
      unfold State.settle State.setLocked
      rw [hcore]
      rfl
    | thread halive ht =>
      cases hf
      exact ⟨_, .merge (.thread halive (next_of_thread ht)), rfl, hsound⟩

/-! ### The program gets on -/

/- What a scheduler has to let happen: everything but spurious wake-ups. -/
def Prompt : Event n → Prop
  | .inside (.queue _ (.spurious _)) => False
  | _ => True

/- The queues get from `s` to `s'` on their own, in `k` steps at most. -/
def Silently (ids msgs : Fin n → Bytes) (traffic : Fin n → Recv → Prop) (k : ℕ)
    (s s' : State n) : Prop :=
  ∃ tr, ((system ids msgs traffic).startingAt s).Run tr s' ∧ tr.filterMap visible = [] ∧
    tr.length ≤ k ∧ ∀ d ∈ tr, Prompt d

/- The program does what the program with atomic calls does in the step `e`. -/
def Answers (ids msgs : Fin n → Bytes) (traffic : Fin n → Recv → Prop) (k : ℕ) (s : State n)
    (e : Main.Event n) (m : Main.State n) : Prop :=
  ∃ tr s', ((system ids msgs traffic).startingAt s).Run tr s' ∧ s'.main = m ∧
    tr.filterMap visible = [e] ∧ tr.length ≤ k ∧ ∀ d ∈ tr, Prompt d

theorem Silently.refl (s : State n) : Silently ids msgs traffic 0 s s :=
  ⟨[], .init rfl, rfl, le_refl 0, fun _ hd => by cases hd⟩

section silently
variable {k : ℕ} {s s' s'' : State n}

theorem Silently.snoc (h : Silently ids msgs traffic k s s') {e : Event n}
    (he : Step ids msgs traffic s' e s'') (hv : visible e = none) (hp : Prompt e) :
    Silently ids msgs traffic (k + 1) s s'' := by
  obtain ⟨tr, hrun, htr, hlen, hprompt⟩ := h
  refine ⟨tr ++ [e], hrun.snoc he, ?_, ?_, ?_⟩
  · simp [htr, hv]
  · simp [hlen]
  · simpa [or_imp, forall_and] using ⟨hprompt, hp⟩

theorem Silently.mono (h : Silently ids msgs traffic k s s') {l : ℕ} (hk : k ≤ l) :
    Silently ids msgs traffic l s s' := by
  obtain ⟨tr, hrun, htr, hlen, hprompt⟩ := h
  exact ⟨tr, hrun, htr, hlen.trans hk, hprompt⟩

theorem Silently.answers (h : Silently ids msgs traffic k s s') {d : Event n} {e : Main.Event n}
    (hd : Step ids msgs traffic s' d s'') (hv : visible d = some e) (hp : Prompt d) :
    Answers ids msgs traffic (k + 1) s e s''.main := by
  obtain ⟨tr, hrun, htr, hlen, hprompt⟩ := h
  refine ⟨tr ++ [d], s'', hrun.snoc hd, rfl, ?_, ?_, ?_⟩
  · simp [htr, hv]
  · simp [hlen]
  · simpa [or_imp, forall_and] using ⟨hprompt, hp⟩

theorem Answers.mono {e : Main.Event n} {m : Main.State n} (h : Answers ids msgs traffic k s e m)
    {l : ℕ} (hk : k ≤ l) : Answers ids msgs traffic l s e m := by
  obtain ⟨tr, u, hrun, hu, htr, hlen, hprompt⟩ := h
  exact ⟨tr, u, hrun, hu, htr, hlen.trans hk, hprompt⟩

/- What cannot be seen leaves the program with atomic calls where it is. -/
theorem Silently.keeps (h : Silently ids msgs traffic k s s') (hs : Sound s) :
    s'.main = s.main ∧ Sound s' := by
  obtain ⟨tr, hrun, htr, -, -⟩ := h
  have hrel : (mainView ids msgs traffic).rel s s.main := ⟨rfl, hs⟩
  obtain ⟨m, hm, hmain, hsound⟩ := ((mainView ids msgs traffic).startingAt hrel).run hrun
  rw [htr] at hm
  exact ⟨hmain.trans hm.state_of_nil, hsound⟩

end silently

/- What a receiver does at its queue before and after it pushes cannot be seen. -/
theorem exists_monitor (ids msgs : Fin n → Bytes) (traffic : Fin n → Recv → Prop) {s : State n}
    (halive : s.main.pipeline.terminated = false) {i : Fin n} {e : QueueEvent} {m : QueueState}
    (hm : Monitor.Step spec role (s.locked.monitor i) e m)
    (hloop : ∀ op, e ≠ .call none op) (hdone : ∀ j op r, e ≠ .done j op r)
    (hcall : ∀ op, e = .call (some ()) op →
      ∃ p, s.main.pipeline.pending i = some p ∧ op = .pushBack p) :
    Step ids msgs traffic s (.inside (.queue i e)) (s.setLocked (s.locked.setMonitor i m)) ∧
      visible (.inside (.queue i e) : Event n) = none := by
  have hpush : LockedQueues.pushOf e = none := by
    cases e with
    | done => exact absurd rfl (hdone _ _ _)
    | call | sleep | signalled | spurious => rfl
  refine ⟨.queue halive (.queue hm ?_ ?_) hpush hcall, ?_⟩
  · intro op hop
    exact absurd hop (hloop op)
  · intro op r
    exact hdone none op r
  · rw [visible_queue, hpush]
    rfl

/- A receiver that has pushed sends its signal and is at its interface again. -/
theorem exists_idle {s : State n} (halive : s.main.pipeline.terminated = false) {i : Fin n}
    (hno : ∀ op, ¬(s.threads i (some ())).Pending op) :
    ∃ s', Silently ids msgs traffic 1 s s' ∧ s'.threads i (some ()) = .idle := by
  cases hi : s.threads i (some ()) with
  | idle => exact ⟨s, (Silently.refl s).mono (by omega), hi⟩
  | ready op => exact absurd (.inl hi) (hno op)
  | asleep op => exact absurd (.inr hi) (hno op)
  | signalling sig =>
    obtain ⟨t, ht⟩ := exists_wakes sig (Function.update (s.threads i) (some ()) .idle)
    obtain ⟨hstep, hv⟩ := exists_monitor ids msgs traffic halive
      (show Monitor.Step spec role (s.locked.monitor i) (.signalled (some ())) _ from .signal hi ht)
      nofun nofun nofun
    refine ⟨_, (Silently.refl s).snoc hstep hv trivial, ?_⟩
    change (s.locked.setMonitor i _).threads i (some ()) = .idle
    rw [LockedQueues.setMonitor_threads]
    rcases wakes_at ht (some ()) with hsame | ⟨op, hasleep, -⟩
    · exact hsame.trans (Function.update_self ..)
    · rw [Function.update_self] at hasleep
      cases hasleep

/- A receiver that has a packet gets to where it can push it. -/
theorem exists_pushing (ids msgs : Fin n → Bytes) (traffic : Fin n → Recv → Prop)
    {s : State n} (h : Sound s) (halive : s.main.pipeline.terminated = false) {i : Fin n}
    {p : FpgaPacket} (hp : s.main.pipeline.pending i = some p) :
    ∃ s', Silently ids msgs traffic 2 s s' ∧ s'.threads i (some ()) = .ready (.pushBack p) := by
  by_cases hin : ∃ op, (s.threads i (some ())).Pending op
  · obtain ⟨op, hop⟩ := hin
    obtain ⟨q, hq, rfl⟩ := h.pushing i op hop
    rw [hp] at hq
    cases hq
    rcases hop with hready | hasleep
    · exact ⟨s, (Silently.refl s).mono (by omega), hready⟩
    · have hfits := (h.placed.awake i).fits (some ())
      change Fits (some ()) (s.threads i (some ())) at hfits
      rw [hasleep] at hfits
      cases hfits.2
  · obtain ⟨u, hu, hidle⟩ := exists_idle halive fun op hop => hin ⟨op, hop⟩
    obtain ⟨hmain, -⟩ := hu.keeps h
    rw [← hmain] at halive hp
    obtain ⟨hstep, hv⟩ := exists_monitor ids msgs traffic halive
      (show Monitor.Step spec role (u.locked.monitor i) (.call (some ()) (.pushBack p)) _ from
        .call hidle trivial)
      nofun nofun (fun op hop => by cases hop; exact ⟨p, hp, rfl⟩)
    refine ⟨_, hu.snoc hstep hv trivial, ?_⟩
    simp [State.setLocked, LockedQueues.State.setMonitor]

/- The steps of the concatinator are steps of the program. -/
theorem run_own {s : State n} (halive : s.main.pipeline.terminated = false)
    {tr : List (LockedQueues.Event n)} {t : LockedQueues.State n}
    (h : (LockedQueues.system.startingAt s.locked).Run tr t)
    (hown : ∀ e ∈ tr, LockedQueues.Own e) :
    ((system ids msgs traffic).startingAt s).Run (tr.map .inside) (s.setLocked t) := by
  induction h with
  | init hi =>
    cases hi
    exact .init rfl
  | @snoc tr u e t _ he ih =>
    rw [List.map_append]
    refine (ih fun d hd => hown d (List.mem_append_left _ hd)).snoc ?_
    have hlast : LockedQueues.Own e := hown e (by simp)
    have hstep : LockedQueues.Step (s.setLocked u).locked e t := he
    cases e with
    | thread e => exact .thread halive hstep
    | queue i e =>
      cases e with
      | call j op =>
        cases j with
        | none => exact .queue halive hstep rfl nofun
        | some => exact hlast.elim
      | signalled j => exact .queue halive hstep rfl nofun
      | sleep | done | spurious => exact hlast.elim

theorem prompt_of_own {e : LockedQueues.Event n} (h : LockedQueues.Own e) :
    Prompt (.inside e) := by
  cases e with
  | thread => trivial
  | queue i e =>
    cases e with
    | spurious => exact h.elim
    | call | sleep | done | signalled => trivial

/- A receiver that has nothing pending is at its interface, or can get there. -/
theorem answers_receiver {s : State n} (h : Sound s) (halive : s.main.pipeline.terminated = false)
    {i : Fin n} (hnone : s.main.pipeline.pending i = none) {e : Main.Event n} {m : Main.State n}
    (he : Main.Step ids msgs traffic s.main e m)
    (hout : ∀ u : State n, u.threads i (some ()) = .idle → Outside u e) :
    Answers ids msgs traffic 2 s e m := by
  have hquiet : ∀ op, ¬(s.threads i (some ())).Pending op := by
    intro op hop
    obtain ⟨p, hp, -⟩ := h.pushing i op hop
    rw [hnone] at hp
    cases hp
  obtain ⟨u, hu, hidle⟩ := exists_idle halive hquiet
  obtain ⟨hmain, -⟩ := hu.keeps h
  rw [← hmain] at he
  have hstep : Step ids msgs traffic u (.outside e) ⟨m, u.threads⟩ := .outside (hout u hidle) he
  exact hu.answers hstep rfl trivial

theorem answers_push {s : State n} (h : Sound s) (halive : s.main.pipeline.terminated = false)
    {i : Fin n} {p : FpgaPacket} (hp : s.main.pipeline.pending i = some p) :
    Answers ids msgs traffic 3 s (.pipeline (.merge (.push i p)))
      { s.main with pipeline := { s.main.pipeline with
        pending := Function.update s.main.pipeline.pending i none
        concatinator := s.main.pipeline.concatinator.push i p } } := by
  obtain ⟨u, hu, hready⟩ := exists_pushing ids msgs traffic h halive hp
  obtain ⟨hmain, -⟩ := hu.keeps h
  rw [← hmain] at halive ⊢
  have hdone : Monitor.Step spec role (u.locked.monitor i)
      (.done (some ()) (.pushBack p) .void) _ := .actLate hready rfl rfl
  have hqueue : LockedQueues.Step u.locked (.queue i _) _ := .queue hdone nofun nofun
  exact hu.answers (.push halive hqueue rfl) rfl trivial

theorem answers_thread {s : State n} (h : Sound s) (halive : s.main.pipeline.terminated = false)
    {e : Concatinator.Event n} {c : Concatinator.State n}
    (hnext : s.main.pipeline.concatinator.next = some (e, c)) :
    Answers ids msgs traffic 2 s (.pipeline (.merge e))
      { s.main with pipeline := { s.main.pipeline with concatinator := c } } := by
  obtain ⟨tr, u, t, hrun, hstep, rfl, htr, hlen, hown⟩ :=
    LockedQueues.exists_next h.placed hnext
  have hsilently : Silently ids msgs traffic 1 s (s.setLocked u) := by
    refine ⟨tr.map .inside, run_own halive hrun hown, ?_, ?_, ?_⟩
    · rw [List.filterMap_map]
      apply List.filterMap_eq_nil_iff.mpr
      intro d hd
      exact Option.map_eq_none_iff.mpr (List.filterMap_eq_nil_iff.mp htr d hd)
    · rw [List.length_map]
      exact hlen
    · intro d hd
      obtain ⟨d', hd', rfl⟩ := List.mem_map.mp hd
      exact prompt_of_own (hown d' hd')
  have hlast : Step ids msgs traffic (s.setLocked u) (.inside (.thread e)) _ := .thread halive hstep
  exact hsilently.answers hlast rfl trivial

/- Whatever the program with atomic calls would do next, the program does. -/
theorem answers_step {s : State n} (h : Sound s) {e : Main.Event n} {m : Main.State n}
    (he : Main.Step ids msgs traffic s.main e m) : Answers ids msgs traffic 3 s e m := by
  have hstep := he
  cases he with
  | attempt | lost =>
    refine ((Silently.refl s).answers (.outside ?_ hstep) rfl trivial).mono (by omega)
    trivial
  | receive _ hp =>
    cases hp with
    | receive halive hnone _ =>
      exact (answers_receiver h halive hnone hstep fun _ => id).mono (by omega)
  | crash _ _ hp =>
    cases hp with
    | crash halive hnone _ =>
      exact (answers_receiver h halive hnone hstep fun _ => id).mono (by omega)
  | merge hp =>
    cases hp with
    | push halive hpending => exact answers_push h halive hpending
    | thread halive hnext => exact (answers_thread h halive hnext).mono (by omega)

/-! ### The same runs -/

theorem run_locked {tr : List (Event n)} {s : State n} (h : (system ids msgs traffic).Run tr s) :
    Sound s := by
  obtain ⟨m, -, -, hs⟩ := (mainView ids msgs traffic).run h
  exact hs

theorem exists_run {tr : List (Main.Event n)} {m : Main.State n}
    (h : (Main.system ids msgs traffic).Run tr m) : ∃ tr' s, (system ids msgs traffic).Run tr' s ∧
      tr'.filterMap visible = tr ∧ s.main = m ∧ Sound s := by
  refine (mainView ids msgs traffic).answer ?_ ?_ h
  · intro m hm
    have hinit : (system ids msgs traffic).init ⟨m, fun _ _ => .idle⟩ := ⟨hm, rfl⟩
    exact ⟨_, hinit, rfl, sound_init hinit⟩
  · intro s m e m' hrel he
    obtain ⟨rfl, hs⟩ := hrel
    obtain ⟨tr, s', hrun, hmain, htr, -, -⟩ := answers_step hs he
    obtain ⟨m'', -, -, hs'⟩ := ((mainView ids msgs traffic).startingAt ⟨rfl, hs⟩).run hrun
    exact ⟨tr, s', hrun, htr, hmain, hs'⟩

/-- What can be seen of the program, from the outside and in its queues, is what the
program with atomic calls does: neither has a run that the other has not. -/
theorem same_runs {tr : List (Main.Event n)} {m : Main.State n} :
    (Main.system ids msgs traffic).Run tr m ↔
      ∃ tr' s, (system ids msgs traffic).Run tr' s ∧ tr'.filterMap visible = tr ∧ s.main = m := by
  constructor
  · intro h
    obtain ⟨tr', s, hrun, htr, hmain, -⟩ := exists_run h
    exact ⟨tr', s, hrun, htr, hmain⟩
  · rintro ⟨tr', s, hrun, rfl, rfl⟩
    obtain ⟨m, hm, rfl, -⟩ := (mainView ids msgs traffic).run hrun
    exact hm

/-- No thread sleeps over work: in every state that the program gets into, what it
would do next with atomic calls it does in three steps at most, and none of them is a
spurious wake-up. -/
theorem answers_next {tr : List (Event n)} {s : State n} (h : (system ids msgs traffic).Run tr s)
    {e : Main.Event n} {m : Main.State n} (he : Main.Step ids msgs traffic s.main e m) :
    ∃ tr' s', ((system ids msgs traffic).startingAt s).Run tr' s' ∧ s'.main = m ∧
      tr'.filterMap visible = [e] ∧ tr'.length ≤ 3 ∧ ∀ d ∈ tr', Prompt d :=
  answers_step (run_locked h) he

/- The concatinator has gone to sleep over the first queue, and then the first frame
has been pushed into it and the signal not been sent. -/
theorem answers_next_links : ∃ tr s, (system linkId Main.linkMsg Main.linkTraffic).Run tr s ∧
    s.threads 0 none = .asleep .front ∧ s.threads 0 (some ()) = .signalling .one ∧
    ∃ p tr' s', ((system linkId Main.linkMsg Main.linkTraffic).startingAt s).Run tr' s' ∧
      tr'.filterMap visible = [.pipeline (.merge (.searched 0 p))] ∧ tr'.length ≤ 3 ∧
      ∀ d ∈ tr', Prompt d := by
  let buf : RecvBuffer := ⟨List.replicate sizeOfBuffers 0, List.length_replicate⟩
  let pipeline : Pipeline.State 2 :=
    ⟨fun _ => ⟨buf, 0⟩, fun _ => none, Concatinator.start, false⟩
  have hit := FrameRoundTrip.iteration_sendBuf SenderSocket.start_ready (linkId_length 0)
    (show SenderSocket.msg1.length = 6144 from List.length_replicate) ⟨buf, 0⟩ 0 (by decide)
  have h0 : (system linkId Main.linkMsg Main.linkTraffic).Run []
      ⟨⟨fun _ => SenderSocket.start, fun _ => [], pipeline⟩, fun _ _ => .idle⟩ :=
    .init ⟨⟨fun _ => rfl, fun _ => rfl, rfl, fun _ => rfl, rfl⟩, rfl⟩
  have h1 := h0.snoc (show Step linkId Main.linkMsg Main.linkTraffic _
    (.outside (.attempt 0 (_, 0))) _ from .outside trivial (.attempt rfl ⟨rfl, rfl⟩))
  have h2 := h1.snoc (show Step linkId Main.linkMsg Main.linkTraffic _
    (.inside (.thread .tau)) _ from .thread rfl (.compute rfl rfl))
  have h3 := h2.snoc (show Step linkId Main.linkMsg Main.linkTraffic _
    (.inside (.queue 0 (.call none .front))) _ from
    .queue rfl (.queue (.call rfl trivial) (fun op hop => by cases hop; rfl) nofun) rfl nofun)
  have h4 := h3.snoc (show Step linkId Main.linkMsg Main.linkTraffic _
    (.inside (.queue 0 (.sleep none .front))) _ from
    .queue rfl (.queue (.sleep rfl rfl) nofun nofun) rfl nofun)
  have h5 := h4.snoc (show Step linkId Main.linkMsg Main.linkTraffic _
    (.outside (.pipeline (.received 0 _))) _ from
    .outside rfl (.receive (.cable (by decide)) (.receive rfl rfl hit)))
  have h6 := h5.snoc (show Step linkId Main.linkMsg Main.linkTraffic _
    (.inside (.queue 0 (.call (some ()) (.pushBack _)))) _ from
    .queue rfl (.queue (.call rfl trivial) nofun nofun) rfl
      (fun op hop => by cases hop; exact ⟨_, rfl, rfl⟩))
  have h7 := h6.snoc (show Step linkId Main.linkMsg Main.linkTraffic _
    (.inside (.queue 0 (.done (some ()) (.pushBack _) _))) _ from
    .push rfl (.queue (.actLate rfl rfl rfl) nofun nofun) rfl)
  obtain ⟨tr', s', hrun, -, htr⟩ := answers_next h7 (.merge (.thread rfl rfl))
  exact ⟨_, _, h7, rfl, rfl, _, tr', s', hrun, htr⟩

end OSwitch.MainQueues
