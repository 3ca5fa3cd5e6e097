import Mathlib.Logic.Function.Basic
import OSwitch.Fragmentation
import OSwitch.FpgaPacket
import OSwitch.SharedQueue

/-!
# The concatinator thread (`concatinator/src/concatinator.cc:42-135`)

One step is one call on a queue together with the computation that follows it,
or a computation between two calls. A call on an empty queue has no step: the
thread waits in `front` or `pop_front` until a receiver pushes. `isActive` is
never cleared, so the loop has no end.
-/

namespace OSwitch.Concatinator
open Wire StdText Trace Fragmentation

variable {n : ℕ}

/- Where the thread is in the body of the loop. An index `n` is the end of a
`for` loop. -/
inductive Pc (n : ℕ) where
  | reset
  | search (i : ℕ)
  | compare (i : ℕ)
  | pop (i : Fin n)
  | send
  deriving DecidableEq, Repr

/- The variables that live longer than one step. -/
structure State (n : ℕ) where
  queues : Fin n → List FpgaPacket
  pc : Pc n
  minFrameNumber : ℤ
  packetSrcIds : Bytes
  dataS : Bytes
  frameNumberStringStream : StringStream
  offset : ℕ

inductive Event (n : ℕ) where
  | push (i : Fin n) (p : FpgaPacket)
  | searched (i : Fin n) (p : FpgaPacket)
  | compared (i : Fin n) (p : FpgaPacket)
  | popped (i : Fin n) (p : FpgaPacket)
  | sent (sendBuf : Bytes) (fragments : List Bytes)
  | unsent
  | tau
  deriving DecidableEq, Repr

def start : State n where
  queues := fun _ => []
  pc := .reset
  minFrameNumber := 256
  packetSrcIds := []
  dataS := []
  frameNumberStringStream := {}
  offset := 0

namespace State

/- `reset everything`; `offset` is not among it. -/
def reset (s : State n) : State n :=
  { s with
    pc := .search 0
    minFrameNumber := 256
    packetSrcIds := []
    dataS := []
    frameNumberStringStream := s.frameNumberStringStream.reset }

def search (s : State n) (i : Fin n) (curPacket : FpgaPacket) : State n :=
  { s with
    pc := .search (i + 1)
    minFrameNumber :=
      if curPacket.frameNumber < s.minFrameNumber then curPacket.frameNumber
      else s.minFrameNumber }

def format (s : State n) : State n :=
  { s with
    pc := .compare 0
    frameNumberStringStream := s.frameNumberStringStream.putFrameNumber s.minFrameNumber }

def compare (s : State n) (i : Fin n) (curPacket : FpgaPacket) : State n :=
  if curPacket.frameNumber = s.minFrameNumber then
    { s with
      pc := .pop i
      packetSrcIds := s.packetSrcIds ++ curPacket.sourceId
      dataS := s.dataS ++ curPacket.data }
  else { s with pc := .compare (i + 1) }

def pop (s : State n) (i : Fin n) (rest : List FpgaPacket) : State n :=
  { s with pc := .compare (i + 1), queues := Function.update s.queues i rest }

def finish (s : State n) : State n := { s with pc := .send }

def sendBuf (s : State n) : Bytes :=
  wireText s.packetSrcIds s.frameNumberStringStream.contents s.dataS

def send (s : State n) : Event n × State n :=
  if s.dataS ≠ [] ∧ s.packetSrcIds ≠ [] then
    (.sent s.sendBuf (sendFragments s.sendBuf s.offset).1,
      { s with pc := .reset, offset := (sendFragments s.sendBuf s.offset).2 })
  else (.unsent, { s with pc := .reset })

def push (s : State n) (i : Fin n) (p : FpgaPacket) : State n :=
  { s with queues := Function.update s.queues i (s.queues i ++ [p]) }

/- The next step of the thread; `none` while it waits for a packet. -/
def next (s : State n) : Option (Event n × State n) :=
  match s.pc with
  | .reset => some (.tau, s.reset)
  | .search i =>
    if h : i < n then
      (s.queues ⟨i, h⟩).head?.map fun p => (.searched ⟨i, h⟩ p, s.search ⟨i, h⟩ p)
    else some (.tau, s.format)
  | .compare i =>
    if h : i < n then
      (s.queues ⟨i, h⟩).head?.map fun p => (.compared ⟨i, h⟩ p, s.compare ⟨i, h⟩ p)
    else some (.tau, s.finish)
  | .pop i =>
    match s.queues i with
    | [] => none
    | p :: rest => some (.popped i p, s.pop i rest)
  | .send => some s.send

end State

/- A receiver pushes into its queue, or the thread does its next step. -/
inductive Step : State n → Event n → State n → Prop
  | push (s : State n) (i : Fin n) (p : FpgaPacket) : Step s (.push i p) (s.push i p)
  | thread {s e s'} : s.next = some (e, s') → Step s e s'

def system : Lts (State n) (Event n) where
  init s := s = start
  step := Step

/- What the next step of the thread can be. -/
inductive Act : State n → Event n → State n → Prop
  | reset {s} : s.pc = .reset → Act s .tau s.reset
  | search {s i p} : s.pc = .search i.val → (s.queues i).head? = some p →
      Act s (.searched i p) (s.search i p)
  | format {s i} : s.pc = .search i → n ≤ i → Act s .tau s.format
  | compare {s i p} : s.pc = .compare i.val → (s.queues i).head? = some p →
      Act s (.compared i p) (s.compare i p)
  | finish {s i} : s.pc = .compare i → n ≤ i → Act s .tau s.finish
  | pop {s i p rest} : s.pc = .pop i → s.queues i = p :: rest →
      Act s (.popped i p) (s.pop i rest)
  | send {s} : s.pc = .send → Act s s.send.1 s.send.2

theorem act_of_next {s s' : State n} {e : Event n} (h : s.next = some (e, s')) : Act s e s' := by
  unfold State.next at h
  split at h
  next hpc =>
    cases h
    exact .reset hpc
  next i hpc =>
    split at h
    next hi =>
      obtain ⟨p, hp, hs⟩ := Option.map_eq_some_iff.mp h
      cases hs
      exact .search (i := ⟨i, hi⟩) hpc hp
    next hi =>
      cases h
      exact .format hpc (by omega)
  next i hpc =>
    split at h
    next hi =>
      obtain ⟨p, hp, hs⟩ := Option.map_eq_some_iff.mp h
      cases hs
      exact .compare (i := ⟨i, hi⟩) hpc hp
    next hi =>
      cases h
      exact .finish hpc (by omega)
  next i hpc =>
    split at h
    next => cases h
    next p rest hq =>
      cases h
      exact .pop hpc hq
  next hpc =>
    have hs : s.send = (e, s') := Option.some_inj.mp h
    have hact : Act s s.send.1 s.send.2 := .send hpc
    rw [hs] at hact
    exact hact

/-! ### What a run has done -/

/- The calls on queue `i`, as the queue sees them. -/
def queueOp (i : Fin n) :
    Event n → Option (SharedQueue.Op FpgaPacket × SharedQueue.Result FpgaPacket)
  | .push j p => if j = i then some (.pushBack p, .void) else none
  | .searched j p => if j = i then some (.front, .element (some p)) else none
  | .compared j p => if j = i then some (.front, .element (some p)) else none
  | .popped j p => if j = i then some (.popFront, .element (some p)) else none
  | .sent _ _ => none
  | .unsent => none
  | .tau => none

def pushed (i : Fin n) (tr : List (Event n)) : List FpgaPacket :=
  SharedQueue.pushed (tr.filterMap (queueOp i))

def popped (i : Fin n) (tr : List (Event n)) : List FpgaPacket :=
  SharedQueue.popped (tr.filterMap (queueOp i))

/- What was sent: each message with its fragments. -/
def transmissions (tr : List (Event n)) : List (Bytes × List Bytes) :=
  tr.filterMap fun e => match e with
    | .sent sendBuf fragments => some (sendBuf, fragments)
    | _ => none

def messages (tr : List (Event n)) : List Bytes := (transmissions tr).map Prod.fst

/- One pass through the body of the loop: the fronts that were searched, the
packets that were popped, the message if there was one. -/
structure Round (n : ℕ) where
  searched : List (Fin n × FpgaPacket)
  popped : List (Fin n × FpgaPacket)
  message : Option Bytes
  deriving DecidableEq, Repr

/- The completed rounds and what the current one has done so far. -/
structure Log (n : ℕ) where
  done : List (Round n) := []
  searched : List (Fin n × FpgaPacket) := []
  popped : List (Fin n × FpgaPacket) := []

def Log.close (l : Log n) (message : Option Bytes) : Log n :=
  { done := l.done ++ [⟨l.searched, l.popped, message⟩] }

def Log.add (l : Log n) : Event n → Log n
  | .push _ _ => l
  | .searched i p => { l with searched := l.searched ++ [(i, p)] }
  | .compared _ _ => l
  | .popped i p => { l with popped := l.popped ++ [(i, p)] }
  | .sent sendBuf _ => l.close (some sendBuf)
  | .unsent => l.close none
  | .tau => l

def log (tr : List (Event n)) : Log n := tr.foldl Log.add {}

/-- The completed rounds. -/
def rounds (tr : List (Event n)) : List (Round n) := (log tr).done

@[simp] theorem log_snoc (tr : List (Event n)) (e : Event n) :
    log (tr ++ [e]) = (log tr).add e := by
  unfold log
  rw [List.foldl_append]
  rfl

theorem pushed_append (i : Fin n) (tr tr' : List (Event n)) :
    pushed i (tr ++ tr') = pushed i tr ++ pushed i tr' := by
  simp [pushed, SharedQueue.pushed]

theorem popped_append (i : Fin n) (tr tr' : List (Event n)) :
    popped i (tr ++ tr') = popped i tr ++ popped i tr' := by
  simp [popped, SharedQueue.popped]

theorem pushed_push (i j : Fin n) (p : FpgaPacket) :
    pushed i [.push j p] = if j = i then [p] else [] := by
  by_cases hj : j = i <;> simp [pushed, SharedQueue.pushed, queueOp, hj]

/-- The thread pushes nothing. -/
theorem pushed_act {s s' : State n} {e : Event n} (h : Act s e s') (i : Fin n) :
    pushed i [e] = [] := by
  cases h with
  | reset => rfl
  | @search j p => by_cases hj : j = i <;> simp [pushed, SharedQueue.pushed, queueOp, hj]
  | format => rfl
  | @compare j p => by_cases hj : j = i <;> simp [pushed, SharedQueue.pushed, queueOp, hj]
  | finish => rfl
  | @pop j p rest => by_cases hj : j = i <;> simp [pushed, SharedQueue.pushed, queueOp, hj]
  | send =>
    unfold State.send
    split <;> rfl

theorem pushed_grows (i : Fin n) (tr : List (Event n)) (e : Event n) :
    pushed i tr <+: pushed i (tr ++ [e]) := by
  rw [pushed_append]
  exact List.prefix_append _ _

/-- The messages sent are the messages of the completed rounds. -/
theorem messages_eq (tr : List (Event n)) :
    messages tr = (rounds tr).filterMap Round.message := by
  induction tr using List.reverseRecOn with
  | nil => rfl
  | append_singleton tr e ih =>
    have hsnoc : messages (tr ++ [e]) = messages tr ++ messages [e] := by
      simp [messages, transmissions]
    unfold rounds at ih ⊢
    rw [hsnoc, ih, log_snoc]
    cases e with
    | sent m fs => simp [Log.add, Log.close, messages, transmissions]
    | unsent => simp [Log.add, Log.close, messages, transmissions]
    | push | searched | compared | popped | tau => simp [Log.add, messages, transmissions]

/- The packets of queue `i` among these. -/
def packetsOf (i : Fin n) (ps : List (Fin n × FpgaPacket)) : List FpgaPacket :=
  ps.filterMap fun x => if x.1 = i then some x.2 else none

/-- How many packets of queue `i` were popped in the first `r` rounds. -/
def consumed (tr : List (Event n)) (r : ℕ) (i : Fin n) : ℕ :=
  (packetsOf i (((rounds tr).take r).flatMap Round.popped)).length

theorem packetsOf_append (i : Fin n) (ps qs : List (Fin n × FpgaPacket)) :
    packetsOf i (ps ++ qs) = packetsOf i ps ++ packetsOf i qs := by simp [packetsOf]

/-- What was popped from a queue was popped in the completed rounds, one after
the other, and in the current one. -/
theorem popped_eq (i : Fin n) (tr : List (Event n)) :
    popped i tr = packetsOf i ((rounds tr).flatMap Round.popped ++ (log tr).popped) := by
  induction tr using List.reverseRecOn with
  | nil => rfl
  | append_singleton tr e ih =>
    unfold rounds at ih ⊢
    rw [popped_append, ih, log_snoc]
    cases e with
    | popped j p =>
      simp only [Log.add, ← List.append_assoc, packetsOf_append i _ [(j, p)]]
      by_cases hj : j = i <;> simp [popped, SharedQueue.popped, queueOp, packetsOf, hj]
    | push j p | searched j p | compared j p =>
      by_cases hj : j = i <;> simp [popped, SharedQueue.popped, queueOp, Log.add, hj]
    | sent | unsent => simp [popped, SharedQueue.popped, queueOp, Log.add, Log.close]
    | tau => simp [popped, SharedQueue.popped, queueOp, Log.add]

/-! ### The queues between the threads -/

@[simp] theorem compare_queues (s : State n) (i : Fin n) (p : FpgaPacket) :
    (s.compare i p).queues = s.queues := by
  unfold State.compare
  split <;> rfl

@[simp] theorem send_queues (s : State n) : s.send.2.queues = s.queues := by
  unfold State.send
  split <;> rfl

theorem queueOp_send (s : State n) (i : Fin n) : queueOp i s.send.1 = none := by
  unfold State.send
  split <;> rfl

theorem ite_some_eq {c : Prop} [Decidable c] {α : Type*} {a b : α}
    (h : (if c then some a else none) = some b) : c ∧ a = b := by
  split at h
  next hc => exact ⟨hc, Option.some_inj.mp h⟩
  next => cases h

/- An event that is none of queue `i`'s leaves it as it is. -/
theorem queue_frame {s s' : State n} {e : Event n} (h : Step s e s') {i : Fin n}
    (hf : queueOp i e = none) : s'.queues i = s.queues i := by
  cases h with
  | push j p =>
    have hj : j ≠ i := by
      rintro rfl
      simp [queueOp] at hf
    exact Function.update_of_ne hj.symm _ _
  | thread hn =>
    cases act_of_next hn with
    | reset => rfl
    | search => rfl
    | format => rfl
    | compare => rw [compare_queues]
    | finish => rfl
    | @pop j p rest =>
      have hj : j ≠ i := by
        rintro rfl
        simp [queueOp] at hf
      exact Function.update_of_ne hj.symm _ _
    | send => rw [send_queues]

theorem queue_front {queue : List FpgaPacket} {p : FpgaPacket} (h : queue.head? = some p) :
    (SharedQueue.spec (α := FpgaPacket)).guard .front queue = true ∧
      (SharedQueue.spec (α := FpgaPacket)).act .front queue = (queue, .element (some p)) := by
  cases queue with
  | nil => cases h
  | cons q rest =>
    cases h
    exact ⟨rfl, rfl⟩

/-- Seen from queue `i`, a run is a run of the queue on its own. -/
def queueView (i : Fin n) : Simulation (system (n := n))
    (Monitor.sequential (SharedQueue.spec (α := FpgaPacket)) []) (queueOp i) where
  rel s queue := s.queues i = queue
  init := by
    intro s hs
    have hstart : s = start := hs
    subst hstart
    exact ⟨[], rfl, rfl⟩
  silent := by
    intro s e s' queue he hr hf
    exact (queue_frame he hf).trans hr
  visible := by
    intro s e s' queue d he hr hf
    subst hr
    cases he with
    | push j p =>
      obtain ⟨rfl, rfl⟩ := ite_some_eq hf
      exact ⟨_, ⟨rfl, rfl⟩, Function.update_self ..⟩
    | thread hn =>
      cases act_of_next hn with
      | reset => cases hf
      | @search j p _ hp =>
        obtain ⟨rfl, rfl⟩ := ite_some_eq hf
        exact ⟨_, queue_front hp, rfl⟩
      | format => cases hf
      | @compare j p _ hp =>
        obtain ⟨rfl, rfl⟩ := ite_some_eq hf
        exact ⟨_, queue_front hp, by rw [compare_queues]⟩
      | finish => cases hf
      | @pop j p rest _ hq =>
        obtain ⟨rfl, rfl⟩ := ite_some_eq hf
        refine ⟨rest, ?_, Function.update_self ..⟩
        rw [hq]
        exact ⟨rfl, rfl⟩
      | send =>
        rw [queueOp_send] at hf
        cases hf

/-- What was popped from a queue, followed by what it holds, is what was pushed. -/
theorem queue_fifo {tr : List (Event n)} {s : State n} (h : system.Run tr s) (i : Fin n) :
    popped i tr ++ s.queues i = pushed i tr := by
  obtain ⟨queue, hrun, rfl⟩ := (queueView i).run h
  exact SharedQueue.sequential_fifo hrun

end OSwitch.Concatinator
