import OSwitch.FrameRoundTrip
import OSwitch.MergeProperties

/-!
# Receivers, queues and concatinator together (`main.cc:41-89`)

Every interface has a receiver thread with a sender id of its own and pushes
into a queue of its own; the concatinator takes from all of them. A receiver
is between `recvfrom` and `push_back` while a packet is pending. An exception
that leaves a thread ends the whole process.
-/

namespace OSwitch.Pipeline
open Trace Wire StdText ReceiverSocket Concatinator

variable {n : ℕ}

structure State (n : ℕ) where
  receiver : Fin n → ReceiverSocket.State
  pending : Fin n → Option FpgaPacket
  concatinator : Concatinator.State n
  terminated : Bool

inductive Event (n : ℕ) where
  | received (i : Fin n) (r : Recv)
  | crashed (i : Fin n) (e : StdException)
  | merge (e : Concatinator.Event n)

/- `ids i` is the sender id that receiver `i` was constructed with. -/
inductive Step (ids : Fin n → Bytes) : State n → Event n → State n → Prop
  | receive {s i r st o} : s.terminated = false → s.pending i = none →
      iteration (ids i) (s.receiver i) r = .ok (st, o) →
      Step ids s (.received i r)
        { s with
          receiver := Function.update s.receiver i st
          pending := Function.update s.pending i o }
  | crash {s i r e} : s.terminated = false → s.pending i = none →
      iteration (ids i) (s.receiver i) r = .error e →
      Step ids s (.crashed i e) { s with terminated := true }
  | push {s i p} : s.terminated = false → s.pending i = some p →
      Step ids s (.merge (.push i p))
        { s with
          pending := Function.update s.pending i none
          concatinator := s.concatinator.push i p }
  | thread {s e c} : s.terminated = false → s.concatinator.next = some (e, c) →
      Step ids s (.merge e) { s with concatinator := c }

/- The receive buffers and addresses start with arbitrary contents. -/
def system (ids : Fin n → Bytes) : Lts (State n) (Event n) where
  init s := s.concatinator = start ∧ (∀ i, s.pending i = none) ∧ s.terminated = false
  step := Step ids

def merged : Event n → Option (Concatinator.Event n)
  | .merge e => some e
  | _ => none

/-- What the concatinator does is a run of the concatinator on its own. -/
def concatinatorView (ids : Fin n → Bytes) :
    Simulation (system ids) Concatinator.system merged where
  rel s c := s.concatinator = c
  init s hs := ⟨_, hs.1, rfl⟩
  silent := by
    intro s e s' c he hr hf
    cases he with
    | receive => exact hr
    | crash => exact hr
    | push => cases hf
    | thread => cases hf
  visible := by
    intro s e s' c d he hr hf
    subst hr
    cases he with
    | receive => cases hf
    | crash => cases hf
    | @push i p =>
      cases hf
      exact ⟨_, .push _ i p, rfl⟩
    | @thread e c _ hn =>
      cases hf
      exact ⟨_, .thread hn, rfl⟩

/-! ### Where a packet comes from -/

/-- The packet carries the id of sender `i` and was cut out of one datagram that
receiver `i` has received. -/
structure Genuine (ids : Fin n → Bytes) (tr : List (Event n)) (i : Fin n) (p : FpgaPacket) :
    Prop where
  sourceId : p.sourceId = ids i
  datagram : ∃ t bytes, Event.received i (.datagram t bytes) ∈ tr ∧ bytes.length = 6163 ∧
    p.sourceId = slice bytes 1 11 ∧ stoi (slice bytes 17 19) = .ok p.frameNumber ∧
    p.data = slice bytes 19 6162

theorem Genuine.mono {ids : Fin n → Bytes} {tr : List (Event n)} {i : Fin n} {p : FpgaPacket}
    (h : Genuine ids tr i p) (e : Event n) : Genuine ids (tr ++ [e]) i p := by
  obtain ⟨t, bytes, hmem, hrest⟩ := h.datagram
  exact ⟨h.sourceId, t, bytes, List.mem_append_left _ hmem, hrest⟩

theorem genuine_of_iteration {ids : Fin n → Bytes} {tr : List (Event n)} {i : Fin n}
    {st st' : ReceiverSocket.State} {r : Recv} {p : FpgaPacket}
    (h : iteration (ids i) st r = .ok (st', some p)) :
    Genuine ids (tr ++ [.received i r]) i p := by
  obtain ⟨t, bytes, rfl, hex, hid, hsource, hnumber, hdata⟩ := iteration_pushed h
  exact ⟨hid, t, bytes, List.mem_append_right _ (List.mem_singleton.mpr rfl), hex.2, hsource,
    hnumber, hdata⟩

/- What is pending and whatever was pushed is genuine. -/
structure Tracked (ids : Fin n → Bytes) (tr : List (Event n)) (s : State n) : Prop where
  pending : ∀ i p, s.pending i = some p → Genuine ids tr i p
  pushed : ∀ i, ∀ p ∈ pushed i (tr.filterMap merged), Genuine ids tr i p

theorem pushed_merged (i : Fin n) (tr : List (Event n)) (e : Event n) :
    pushed i ((tr ++ [e]).filterMap merged) =
      pushed i (tr.filterMap merged) ++ pushed i ([e].filterMap merged) := by
  rw [List.filterMap_append, pushed_append]

theorem tracked_silent {ids : Fin n → Bytes} {tr : List (Event n)} {s s' : State n} {e : Event n}
    (h : Tracked ids tr s) (hpend : s'.pending = s.pending)
    (he : ∀ i, pushed i ([e].filterMap merged) = []) : Tracked ids (tr ++ [e]) s' := by
  constructor
  · intro i p hp
    rw [hpend] at hp
    exact (h.pending i p hp).mono e
  · intro i p hp
    rw [pushed_merged, he, List.append_nil] at hp
    exact (h.pushed i p hp).mono e

theorem pending_update {P : Fin n → FpgaPacket → Prop} {pending : Fin n → Option FpgaPacket}
    {i : Fin n} {o : Option FpgaPacket} (h : ∀ j p, pending j = some p → P j p)
    (ho : ∀ p, o = some p → P i p) : ∀ j p, Function.update pending i o j = some p → P j p := by
  intro j p hj
  by_cases hji : j = i
  · subst hji
    rw [Function.update_self] at hj
    exact ho p hj
  · rw [Function.update_of_ne hji] at hj
    exact h j p hj

theorem step_tracked {ids : Fin n → Bytes} {tr : List (Event n)} {s s' : State n} {e : Event n}
    (h : Tracked ids tr s) (he : Step ids s e s') : Tracked ids (tr ++ [e]) s' := by
  cases he with
  | @receive i r st o _ _ hit =>
    constructor
    · apply pending_update fun j p hj => (h.pending j p hj).mono _
      rintro p rfl
      exact genuine_of_iteration hit
    · intro j p hp
      rw [pushed_merged] at hp
      rcases List.mem_append.mp hp with hp | hp
      · exact (h.pushed j p hp).mono _
      · cases hp
  | crash => exact tracked_silent h rfl fun _ => rfl
  | @push i p _ hpend =>
    constructor
    · apply pending_update fun j q hj => (h.pending j q hj).mono _
      intro q hq
      cases hq
    · intro j q hq
      have hone : pushed j ([Event.merge (.push i p)].filterMap merged) =
          if i = j then [p] else [] := pushed_push j i p
      rw [pushed_merged, hone] at hq
      rcases List.mem_append.mp hq with hq | hq
      · exact (h.pushed j q hq).mono _
      · by_cases hij : i = j
        · subst hij
          rw [if_pos rfl] at hq
          rw [List.mem_singleton.mp hq]
          exact (h.pending i p hpend).mono _
        · rw [if_neg hij] at hq
          cases hq
  | thread _ hn => exact tracked_silent h rfl fun i => pushed_act (act_of_next hn) i

theorem run_tracked {ids : Fin n → Bytes} {tr : List (Event n)} {s : State n}
    (h : (system ids).Run tr s) : Tracked ids tr s := by
  refine h.invariant (I := Tracked ids) ?_ ?_
  · intro s hs
    constructor
    · intro i p hp
      rw [hs.2.1 i] at hp
      cases hp
    · intro i p hp
      cases hp
  · intro tr s e s' _ ih he
    exact step_tracked ih he

/- A message is that of a round: it holds the ids and the data of the packets that
the round popped, which had been pushed, from queues in their order. -/
theorem round_of_message {tr : List (Concatinator.Event n)} {s : Concatinator.State n}
    (h : Concatinator.system.Run tr s) {m : Bytes} (hm : m ∈ messages tr) :
    ∃ R ∈ rounds tr, (R.popped.map Prod.fst).Sublist (List.finRange n) ∧
      (∀ x ∈ R.popped, x.2 ∈ pushed x.1 tr) ∧ ∃ number,
        (∀ x ∈ R.popped, x.2.frameNumber = number) ∧
        m = wireText (idsOf R.popped) (frameText number) (dataOf R.popped) := by
  have hx := streamOf_extends (fun _ _ => ⟨[], 0, []⟩) fun i => pushed i tr
  rw [messages_eq] at hm
  obtain ⟨R, hR, hmsg⟩ := List.mem_filterMap.mp hm
  obtain ⟨r, hlt, rfl⟩ := round_mem h hx hR
  have hget := getElem?_pushed h hx hlt
  generalize streamOf (fun _ _ => ⟨[], 0, []⟩) (fun i => pushed i tr) = feed at hR hmsg hget
  refine ⟨_, hR, ?_, ?_, minAt feed (posAt feed r), ?_, ?_⟩
  · rw [mergeRound, map_fst_front]
    exact List.filter_sublist
  · intro x hx
    obtain ⟨i, -, rfl⟩ := List.mem_map.mp hx
    exact List.mem_of_getElem? (hget i)
  · intro x hx
    obtain ⟨i, hi, rfl⟩ := List.mem_map.mp hx
    exact StreamMerge.mem_chosen.mp hi
  · change messageOf _ _ = some m at hmsg
    unfold messageOf at hmsg
    split at hmsg
    next => exact (Option.some_inj.mp hmsg).symm
    next => cases hmsg

/-- Every queue holds packets of its own sender only, each one cut out of a
single datagram. A message holds the ids and the data of the packets that one
round popped, such packets too, with one frame number: the ids of different
senders in the order of their registration. -/
theorem source_isolation {ids : Fin n → Bytes} (hids : Function.Injective ids)
    (hlen : ∀ i, (ids i).length = 10) {tr : List (Event n)} {s : State n}
    (h : (system ids).Run tr s) :
    (∀ i, ∀ p ∈ s.concatinator.queues i, Genuine ids tr i p ∧ p.sourceId.length = 10 ∧
      p.data.length = 6143) ∧
    ∀ m ∈ messages (tr.filterMap merged), ∃ R ∈ rounds (tr.filterMap merged),
      (∀ x ∈ R.popped, Genuine ids tr x.1 x.2) ∧
      ∃ l : List Bytes, l = R.popped.map (fun x => x.2.sourceId) ∧
        l.Sublist ((List.finRange n).map ids) ∧ l.Nodup ∧ ∃ number,
          (∀ x ∈ R.popped, x.2.frameNumber = number) ∧
          m = wireText l.flatten (frameText number) (dataOf R.popped) := by
  obtain ⟨c, hrun, rfl⟩ := (concatinatorView ids).run h
  have htracked := run_tracked h
  constructor
  · intro i p hp
    have hpushed : p ∈ pushed i (tr.filterMap merged) := by
      rw [← queue_fifo hrun i]
      exact List.mem_append_right _ hp
    have hgen := htracked.pushed i p hpushed
    obtain ⟨t, bytes, -, hsize, -, -, hdata⟩ := hgen.datagram
    refine ⟨hgen, ?_, ?_⟩
    · rw [hgen.sourceId]
      exact hlen i
    · rw [hdata, slice_length _ _ _ (by omega)]
  · intro m hm
    obtain ⟨R, hR, hsub, hpushed, number, hnumber, hmsg⟩ := round_of_message hrun hm
    have hgen : ∀ x ∈ R.popped, Genuine ids tr x.1 x.2 :=
      fun x hx => htracked.pushed x.1 x.2 (hpushed x hx)
    have hids' : R.popped.map (fun x => x.2.sourceId) = (R.popped.map Prod.fst).map ids := by
      rw [List.map_map]
      exact List.map_congr_left fun x hx => (hgen x hx).sourceId
    refine ⟨R, hR, hgen, _, rfl, ?_, ?_, number, hnumber, ?_⟩
    · rw [hids']
      exact hsub.map ids
    · rw [hids']
      exact (hsub.nodup (List.nodup_finRange n)).map hids
    · rw [hmsg, idsOf, List.flatMap_def]

/- The first frame of the first sender of `main` arrives in its queue. -/
theorem source_isolation_links :
    ∃ tr s, (system linkId).Run tr s ∧
      s.concatinator.queues 0 = [⟨linkId 0, 0, SenderSocket.msg1.dropLast⟩] ∧
      ∀ p ∈ s.concatinator.queues 0, p.data.length = 6143 := by
  let buf : RecvBuffer := ⟨List.replicate sizeOfBuffers 0, List.length_replicate⟩
  have hit := FrameRoundTrip.iteration_sendBuf SenderSocket.start_ready (linkId_length 0)
    (show SenderSocket.msg1.length = 6144 from List.length_replicate) ⟨buf, 0⟩ 0 (by decide)
  have h0 : (system linkId).Run [] ⟨fun _ => ⟨buf, 0⟩, fun _ => none, start, false⟩ :=
    .init ⟨rfl, fun _ => rfl, rfl⟩
  have h1 := h0.snoc (show Step linkId _ (.received 0 _) _ from .receive rfl rfl hit)
  have h2 := h1.snoc (show Step linkId _ (.merge (.push 0 _)) _ from .push rfl rfl)
  have hinj : Function.Injective linkId := by
    intro i j hij
    match i, j with
    | 0, 0 => rfl
    | 1, 1 => rfl
    | 0, 1 => exact absurd hij (by decide)
    | 1, 0 => exact absurd hij (by decide)
  refine ⟨_, _, h2, rfl, ?_⟩
  intro p hp
  exact ((source_isolation hinj linkId_length h2).1 0 p hp).2.2

end OSwitch.Pipeline
