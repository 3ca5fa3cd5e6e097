import OSwitch.Pipeline
import OSwitch.SenderSequencing

/-!
# The program of `main.cc`: senders, cables, receivers and concatinator

`main` starts a receiver and a sender for every id and the concatinator over
the queues of the receivers. A cable carries the frames that `sendto` accepted
to the receiver with the same id, in order; it may lose any of them. A receiver
also sees foreign traffic. The threads stop only when the process does.
-/

namespace OSwitch.Main
open Trace Wire StdText SenderSocket ReceiverSocket
open Concatinator (pushed pushed_append pushed_push pushed_act act_of_next)
open Pipeline (merged)

variable {n : ℕ}

/- `link i` holds the frames between sender `i` and receiver `i`. -/
structure State (n : ℕ) where
  sender : Fin n → SenderSocket.State
  link : Fin n → List Bytes
  pipeline : Pipeline.State n

inductive Event (n : ℕ) where
  | attempt (i : Fin n) (e : Bytes × ℤ)
  | lost (i : Fin n) (k : ℕ)
  | pipeline (e : Pipeline.Event n)

/- The receiver ignores it: a datagram that it examines has another sender's id, and a
frame number that does not break `std::stoi`. -/
def Harmless (senderId : Bytes) : Recv → Prop
  | .failed => True
  | .datagram t bytes => Examined t bytes →
      slice bytes 1 11 ≠ senderId ∧ ∃ v, stoi (slice bytes 17 19) = .ok v

/- What `recvfrom` returns at the end of a cable, and the frames that are left on it;
`traffic` is what else can come in. -/
inductive Arrives (traffic : Recv → Prop) : List Bytes → Recv → List Bytes → Prop
  | cable {t frame frames} : t ≠ packetOutgoing →
      Arrives traffic (frame :: frames) (.datagram t frame) frames
  | foreign {r frames} : traffic r → Arrives traffic frames r frames

/- Sender `i` transmits `msgs i` under the id `ids i`; receiver `i` also sees the foreign
traffic `traffic i`. -/
inductive Step (ids msgs : Fin n → Bytes) (traffic : Fin n → Recv → Prop) :
    State n → Event n → State n → Prop
  | attempt {s i e st} : s.pipeline.terminated = false →
      (startTransmitting (ids i) (msgs i)).step (s.sender i) e st →
      Step ids msgs traffic s (.attempt i e)
        { s with
          sender := Function.update s.sender i st
          link := Function.update s.link i
            (if 0 ≤ e.2 then s.link i ++ [e.1] else s.link i) }
  | lost {s i k} : k < (s.link i).length →
      Step ids msgs traffic s (.lost i k)
        { s with link := Function.update s.link i ((s.link i).eraseIdx k) }
  | receive {s i r frames p} : Arrives (traffic i) (s.link i) r frames →
      Pipeline.Step ids s.pipeline (.received i r) p →
      Step ids msgs traffic s (.pipeline (.received i r))
        { s with link := Function.update s.link i frames, pipeline := p }
  | crash {s i r frames e p} : Arrives (traffic i) (s.link i) r frames →
      iteration (ids i) (s.pipeline.receiver i) r = .error e →
      Pipeline.Step ids s.pipeline (.crashed i e) p →
      Step ids msgs traffic s (.pipeline (.crashed i e))
        { s with link := Function.update s.link i frames, pipeline := p }
  | merge {s e p} : Pipeline.Step ids s.pipeline (.merge e) p →
      Step ids msgs traffic s (.pipeline (.merge e)) { s with pipeline := p }

def system (ids msgs : Fin n → Bytes) (traffic : Fin n → Recv → Prop) :
    Lts (State n) (Event n) where
  init s := (∀ i, s.sender i = start) ∧ (∀ i, s.link i = []) ∧
    (Pipeline.system ids).init s.pipeline
  step := Step ids msgs traffic

/-! ### The threads in a run -/

def attemptOf (i : Fin n) : Event n → Option (Bytes × ℤ)
  | .attempt j e => if j = i then some e else none
  | _ => none

def lostOf (i : Fin n) : Event n → Option ℕ
  | .lost j k => if j = i then some k else none
  | _ => none

def pipelineOf : Event n → Option (Pipeline.Event n)
  | .pipeline e => some e
  | _ => none

/- How many frames of sender `i` were accepted. -/
def acceptedOn (i : Fin n) (tr : List (Event n)) : ℕ :=
  (accepted (tr.filterMap (attemptOf i))).length

/- How many frames were lost on cable `i`. -/
def lostOn (i : Fin n) (tr : List (Event n)) : ℕ := (tr.filterMap (lostOf i)).length

/- The run of the concatinator inside a run of the program. -/
def merging (tr : List (Event n)) : List (Concatinator.Event n) :=
  (tr.filterMap pipelineOf).filterMap merged

/-- A sender does in the program what it does on its own. -/
def senderView (ids msgs : Fin n → Bytes) (traffic : Fin n → Recv → Prop) (i : Fin n) :
    Simulation (system ids msgs traffic) (startTransmitting (ids i) (msgs i)) (attemptOf i) where
  rel s t := s.sender i = t
  init s hs := ⟨start, rfl, hs.1 i⟩
  silent := by
    intro s e s' t he hr hf
    subst hr
    cases he with
    | @attempt j e st _ hstep =>
      have hj : i ≠ j := by
        rintro rfl
        simp [attemptOf] at hf
      exact Function.update_of_ne hj _ _
    | lost => rfl
    | receive => rfl
    | crash => rfl
    | merge => rfl
  visible := by
    intro s e s' t d he hr hf
    subst hr
    cases he with
    | attempt _ hstep =>
      obtain ⟨rfl, rfl⟩ := Concatinator.ite_some_eq hf
      exact ⟨_, hstep, Function.update_self ..⟩
    | lost => cases hf
    | receive => cases hf
    | crash => cases hf
    | merge => cases hf

/-- The receivers and the concatinator run as they do with arbitrary arrivals. -/
def pipelineView (ids msgs : Fin n → Bytes) (traffic : Fin n → Recv → Prop) :
    Simulation (system ids msgs traffic) (Pipeline.system ids) pipelineOf where
  rel s t := s.pipeline = t
  init s hs := ⟨_, hs.2.2, rfl⟩
  silent := by
    intro s e s' t he hr hf
    cases he with
    | attempt => exact hr
    | lost => exact hr
    | receive => cases hf
    | crash => cases hf
    | merge => cases hf
  visible := by
    intro s e s' t d he hr hf
    subst hr
    cases he with
    | attempt => cases hf
    | lost => cases hf
    | receive _ hstep =>
      cases hf
      exact ⟨_, hstep, rfl⟩
    | crash _ _ hstep =>
      cases hf
      exact ⟨_, hstep, rfl⟩
    | merge hstep =>
      cases hf
      exact ⟨_, hstep, rfl⟩

/-- The concatinator runs as it does with arbitrary pushes. -/
theorem run_merging {ids msgs : Fin n → Bytes} {traffic : Fin n → Recv → Prop}
    {tr : List (Event n)} {s : State n}
    (h : (system ids msgs traffic).Run tr s) :
    Concatinator.system.Run (merging tr) s.pipeline.concatinator := by
  obtain ⟨p, hpipeline, rfl⟩ := (pipelineView ids msgs traffic).run h
  obtain ⟨c, hrun, rfl⟩ := (Pipeline.concatinatorView ids).run hpipeline
  exact hrun

/-! ### What arrives of a frame -/

/-- The packet that the receiver makes of the `k`-th frame: the message has lost
its last byte. -/
def packetOf (senderId msg : Bytes) (k : ℕ) : FpgaPacket :=
  ⟨senderId, ((k % 255 : ℕ) : ℤ), msg.dropLast⟩

theorem iteration_frameOf {senderId msg : Bytes} (hid : senderId.length = 10)
    (hmsg : msg = msg1 ∨ msg = msg2) (st : ReceiverSocket.State) {t : ℕ}
    (ht : t ≠ packetOutgoing) (k : ℕ) :
    ∃ st', ReceiverSocket.iteration senderId st (.datagram t (frameOf senderId msg k)) =
      .ok (st', some (packetOf senderId msg k)) := by
  have hlen : msg.length = 6144 := by
    rcases hmsg with rfl | rfl
    · exact List.length_replicate
    · exact List.length_replicate
  obtain ⟨hsid, -, hdata⟩ := slice_wireText senderId msg (digitChar (k % 255 / 16))
    (digitChar (k % 255 % 16)) hid 6162
  change slice (frameOf senderId msg k) 1 11 = _ at hsid
  change slice (frameOf senderId msg k) 19 6162 = _ at hdata
  have hone : ReceiverSocket.iteration senderId st (.datagram t (frameOf senderId msg k)) = _ :=
    iteration_decoded ⟨ht, frameOf_length hid hmsg k⟩ (stoi_frameOf hid k)
  rw [hsid, if_pos rfl, hdata, show 6162 - 19 = msg.length - 1 by omega,
    ← List.dropLast_eq_take] at hone
  exact ⟨_, hone⟩

theorem iteration_foreign {senderId : Bytes} {r : Recv} (h : Harmless senderId r)
    (st : ReceiverSocket.State) :
    ∃ st', ReceiverSocket.iteration senderId st r = .ok (st', none) := by
  cases r with
  | failed => exact ⟨st, iteration_failed senderId st⟩
  | datagram t bytes =>
    by_cases he : Examined t bytes
    · obtain ⟨hid, v, hv⟩ := h he
      have hone : ReceiverSocket.iteration senderId st (.datagram t bytes) = _ :=
        iteration_decoded he hv
      rw [if_neg hid] at hone
      exact ⟨_, hone⟩
    · exact ⟨_, iteration_ignored senderId st he⟩

/-! ### One cable -/

/- Of the first `sent` frames, those with the numbers `arrived` have come to the
receiver, which has made the packets `got` of them, those with the numbers
`flying` are on the cable, and the other ones, `lost` in number, are gone. -/
structure Carried (senderId msg : Bytes) (sent lost : ℕ) (link : List Bytes)
    (got : List FpgaPacket) (arrived flying : List ℕ) : Prop where
  sub : (arrived ++ flying).Sublist (List.range sent)
  count : arrived.length + flying.length + lost = sent
  link : link = flying.map (frameOf senderId msg)
  got : got = arrived.map (packetOf senderId msg)

section cable
variable {senderId msg : Bytes} {sent lost : ℕ} {link : List Bytes} {got : List FpgaPacket}
  {arrived flying : List ℕ}

theorem Carried.whole (h : Carried senderId msg sent 0 link got arrived flying) :
    arrived ++ flying = List.range sent := by
  have hcount := h.count
  apply h.sub.eq_of_length
  rw [List.length_append, List.length_range]
  omega

theorem Carried.send (h : Carried senderId msg sent lost link got arrived flying) :
    Carried senderId msg (sent + 1) lost (link ++ [frameOf senderId msg sent]) got arrived
      (flying ++ [sent]) where
  sub := by
    rw [List.range_succ, ← List.append_assoc]
    exact h.sub.append_right [sent]
  count := by
    have hcount := h.count
    rw [List.length_append, List.length_singleton]
    omega
  link := by
    rw [h.link, List.map_append]
    rfl
  got := h.got

theorem Carried.lose (h : Carried senderId msg sent lost link got arrived flying) {k : ℕ}
    (hk : k < link.length) :
    Carried senderId msg sent (lost + 1) (link.eraseIdx k) got arrived (flying.eraseIdx k) where
  sub := ((List.eraseIdx_sublist flying k).append_left arrived).trans h.sub
  count := by
    have hcount := h.count
    rw [h.link, List.length_map] at hk
    rw [List.length_eraseIdx_of_lt hk]
    omega
  link := by
    rw [h.link, List.eraseIdx_eq_take_drop_succ, List.eraseIdx_eq_take_drop_succ, List.map_append,
      List.map_take, List.map_drop]
  got := h.got

/- The frame at the end of the cable is the first one of those in flight. -/
theorem Carried.arrive {frame : Bytes} {frames : List Bytes}
    (h : Carried senderId msg sent lost (frame :: frames) got arrived flying) :
    ∃ k flying', frame = frameOf senderId msg k ∧
      Carried senderId msg sent lost frames (got ++ [packetOf senderId msg k])
        (arrived ++ [k]) flying' := by
  cases flying with
  | nil => cases h.link
  | cons k flying' =>
    obtain ⟨hframe, hframes⟩ := List.cons.inj h.link
    have hcount := h.count
    refine ⟨k, flying', hframe, ?_, ?_, hframes, ?_⟩
    · rw [List.append_assoc]
      exact h.sub
    · rw [List.length_append, List.length_singleton]
      rw [List.length_cons] at hcount
      omega
    · rw [h.got, List.map_append]
      rfl

end cable

/-! ### All cables -/

/- What receiver `i` has made of the traffic, pushed or about to be. -/
def got (i : Fin n) (tr : List (Event n)) (s : State n) : List FpgaPacket :=
  pushed i (merging tr) ++ (s.pipeline.pending i).toList

theorem acceptedOn_snoc (i : Fin n) (tr : List (Event n)) {e : Event n}
    (he : attemptOf i e = none) : acceptedOn i (tr ++ [e]) = acceptedOn i tr := by
  unfold acceptedOn
  rw [List.filterMap_append]
  simp [he]

theorem acceptedOn_attempt (i j : Fin n) (tr : List (Event n)) (e : Bytes × ℤ) :
    acceptedOn i (tr ++ [.attempt j e]) =
      if j = i ∧ 0 ≤ e.2 then acceptedOn i tr + 1 else acceptedOn i tr := by
  unfold acceptedOn
  rw [List.filterMap_append]
  by_cases hj : j = i
  · have hone : [Event.attempt j e].filterMap (attemptOf i) = [e] := by simp [attemptOf, hj]
    rw [hone, accepted_snoc]
    by_cases he : 0 ≤ e.2 <;> simp [hj, he]
  · have hnone : [Event.attempt j e].filterMap (attemptOf i) = [] := by simp [attemptOf, hj]
    rw [hnone, List.append_nil, if_neg fun h => hj h.1]

theorem lostOn_snoc (i : Fin n) (tr : List (Event n)) {e : Event n} (he : lostOf i e = none) :
    lostOn i (tr ++ [e]) = lostOn i tr := by
  unfold lostOn
  rw [List.filterMap_append]
  simp [he]

theorem lostOn_lost (i j : Fin n) (k : ℕ) (tr : List (Event n)) :
    lostOn i (tr ++ [.lost j k]) = if j = i then lostOn i tr + 1 else lostOn i tr := by
  unfold lostOn
  rw [List.filterMap_append]
  by_cases hj : j = i <;> simp [lostOf, hj]

theorem merging_snoc (tr : List (Event n)) (e : Event n) :
    merging (tr ++ [e]) = merging tr ++ merging [e] := by
  unfold merging
  rw [List.filterMap_append, List.filterMap_append]

/- Nothing crashes, and every cable is as it should be. -/
structure Sound (ids msgs : Fin n → Bytes) (tr : List (Event n)) (s : State n) : Prop where
  alive : s.pipeline.terminated = false
  carried : ∀ i, ∃ arrived flying, Carried (ids i) (msgs i) (acceptedOn i tr) (lostOn i tr)
    (s.link i) (got i tr s) arrived flying

theorem got_silent {tr : List (Event n)} {s s' : State n} {e : Event n} {i : Fin n}
    (he : pushed i (merging [e]) = []) (hpending : s'.pipeline.pending i = s.pipeline.pending i) :
    got i (tr ++ [e]) s' = got i tr s := by
  unfold got
  rw [merging_snoc, pushed_append, he, List.append_nil, hpending]

section step
variable {ids msgs : Fin n → Bytes} {traffic : Fin n → Recv → Prop} {tr : List (Event n)}
  {s s' : State n} {e : Event n}

/- A step that concerns no other cable than that of `i`. -/
theorem Sound.step (hs : Sound ids msgs tr s) (i : Fin n) (halive : s'.pipeline.terminated = false)
    (hother : ∀ j, j ≠ i → acceptedOn j (tr ++ [e]) = acceptedOn j tr ∧
      lostOn j (tr ++ [e]) = lostOn j tr ∧ s'.link j = s.link j ∧ got j (tr ++ [e]) s' = got j tr s)
    (hi : ∃ arrived flying, Carried (ids i) (msgs i) (acceptedOn i (tr ++ [e]))
      (lostOn i (tr ++ [e])) (s'.link i) (got i (tr ++ [e]) s') arrived flying) :
    Sound ids msgs (tr ++ [e]) s' := by
  refine ⟨halive, ?_⟩
  intro j
  by_cases hj : j = i
  · subst hj
    exact hi
  · obtain ⟨hsent, hlost, hlink, hgot⟩ := hother j hj
    rw [hsent, hlost, hlink, hgot]
    exact hs.carried j

theorem sound_attempt (h : (system ids msgs traffic).Run tr s) (hs : Sound ids msgs tr s)
    {i : Fin n}
    {a : Bytes × ℤ} {st : SenderSocket.State}
    (ha : (startTransmitting (ids i) (msgs i)).step (s.sender i) a st)
    (hlink : s'.link = Function.update s.link i (if 0 ≤ a.2 then s.link i ++ [a.1] else s.link i))
    (hpipeline : s'.pipeline = s.pipeline) : Sound ids msgs (tr ++ [.attempt i a]) s' := by
  have hgot : ∀ j, got j (tr ++ [.attempt i a]) s' = got j tr s := fun j =>
    got_silent rfl (by rw [hpipeline])
  apply hs.step i
  · rw [hpipeline]
    exact hs.alive
  · intro j hj
    refine ⟨?_, lostOn_snoc j tr rfl, ?_, hgot j⟩
    · rw [acceptedOn_attempt, if_neg fun h => hj h.1.symm]
    · rw [hlink, Function.update_of_ne hj]
  · obtain ⟨t, hrun, rfl⟩ := (senderView ids msgs traffic i).run h
    have hframe : a.1 = frameOf (ids i) (msgs i) (acceptedOn i tr) :=
      ha.1.trans (run_numbered hrun).1.sendBuf_eq
    obtain ⟨arrived, flying, hc⟩ := hs.carried i
    rw [hgot, hlink, Function.update_self, acceptedOn_attempt, lostOn_snoc i tr rfl]
    by_cases ha0 : 0 ≤ a.2
    · rw [if_pos ⟨rfl, ha0⟩, if_pos ha0, hframe]
      exact ⟨_, _, hc.send⟩
    · rw [if_neg fun h => ha0 h.2, if_neg ha0]
      exact ⟨_, _, hc⟩

theorem sound_lost (hs : Sound ids msgs tr s) {i : Fin n} {k : ℕ} (hk : k < (s.link i).length)
    (hlink : s'.link = Function.update s.link i ((s.link i).eraseIdx k))
    (hpipeline : s'.pipeline = s.pipeline) : Sound ids msgs (tr ++ [.lost i k]) s' := by
  have hgot : ∀ j, got j (tr ++ [.lost i k]) s' = got j tr s := fun j =>
    got_silent rfl (by rw [hpipeline])
  apply hs.step i
  · rw [hpipeline]
    exact hs.alive
  · intro j hj
    refine ⟨acceptedOn_snoc j tr rfl, ?_, ?_, hgot j⟩
    · rw [lostOn_lost, if_neg (Ne.symm hj)]
    · rw [hlink, Function.update_of_ne hj]
  · obtain ⟨arrived, flying, hc⟩ := hs.carried i
    rw [hgot, hlink, Function.update_self, acceptedOn_snoc i tr rfl, lostOn_lost, if_pos rfl]
    exact ⟨_, _, hc.lose hk⟩

/- What arrives does not throw; it is the next frame of the cable, or foreign. -/
theorem iteration_arrives {i : Fin n} (hid : (ids i).length = 10)
    (hmsg : msgs i = msg1 ∨ msgs i = msg2) (htraffic : ∀ r, traffic i r → Harmless (ids i) r)
    {sent lost : ℕ} {link frames : List Bytes} {ps : List FpgaPacket}
    {arrived flying : List ℕ} (hc : Carried (ids i) (msgs i) sent lost link ps arrived flying)
    {r : Recv} (hr : Arrives (traffic i) link r frames) (st : ReceiverSocket.State) :
    ∃ st' o arrived' flying', ReceiverSocket.iteration (ids i) st r = .ok (st', o) ∧
      Carried (ids i) (msgs i) sent lost frames (ps ++ o.toList) arrived' flying' := by
  cases hr with
  | cable ht =>
    obtain ⟨k, flying', hframe, hc'⟩ := hc.arrive
    obtain ⟨st', hit⟩ := iteration_frameOf hid hmsg st ht k
    rw [← hframe] at hit
    exact ⟨st', _, _, _, hit, hc'⟩
  | foreign hforeign =>
    obtain ⟨st', hit⟩ := iteration_foreign (htraffic r hforeign) st
    refine ⟨st', none, arrived, flying, hit, ?_⟩
    rw [Option.toList_none, List.append_nil]
    exact hc

theorem sound_receive (hs : Sound ids msgs tr s) {i : Fin n} (hid : (ids i).length = 10)
    (hmsg : msgs i = msg1 ∨ msgs i = msg2) (htraffic : ∀ r, traffic i r → Harmless (ids i) r)
    {r : Recv} {frames : List Bytes} {p : Pipeline.State n}
    (hr : Arrives (traffic i) (s.link i) r frames)
    (hp : Pipeline.Step ids s.pipeline (.received i r) p)
    (hlink : s'.link = Function.update s.link i frames) (hpipeline : s'.pipeline = p) :
    Sound ids msgs (tr ++ [.pipeline (.received i r)]) s' := by
  have hsent : ∀ j, acceptedOn j (tr ++ [.pipeline (.received i r)]) = acceptedOn j tr :=
    fun j => acceptedOn_snoc j tr rfl
  cases hp with
  | @receive _ _ st o halive hpending hit =>
    obtain ⟨arrived, flying, hc⟩ := hs.carried i
    obtain ⟨st', o', arrived', flying', hit', hc'⟩ :=
      iteration_arrives hid hmsg htraffic hc hr (s.pipeline.receiver i)
    rw [hit] at hit'
    cases hit'
    apply hs.step i
    · rw [hpipeline]
      exact halive
    · intro j hj
      refine ⟨hsent j, lostOn_snoc j tr rfl, ?_, got_silent rfl ?_⟩
      · rw [hlink, Function.update_of_ne hj]
      · rw [hpipeline]
        exact Function.update_of_ne hj _ _
    · -- The receiver was idle, so the packet it has made is the last one it has got.
      have hgot : got i (tr ++ [.pipeline (.received i r)]) s' = got i tr s ++ o.toList := by
        have hnone : pushed i (merging [Event.pipeline (.received i r)]) = [] := rfl
        unfold got
        rw [merging_snoc, pushed_append, hnone, hpipeline, hpending]
        simp only [List.append_nil, Function.update_self, Option.toList_none]
      rw [hgot, hlink, Function.update_self, hsent, lostOn_snoc i tr rfl]
      exact ⟨_, _, hc'⟩

theorem not_crash (hs : Sound ids msgs tr s) {i : Fin n} (hid : (ids i).length = 10)
    (hmsg : msgs i = msg1 ∨ msgs i = msg2) (htraffic : ∀ r, traffic i r → Harmless (ids i) r)
    {r : Recv} {frames : List Bytes} {x : StdException}
    (hr : Arrives (traffic i) (s.link i) r frames)
    (hx : ReceiverSocket.iteration (ids i) (s.pipeline.receiver i) r = .error x) : False := by
  obtain ⟨arrived, flying, hc⟩ := hs.carried i
  obtain ⟨st, o, _, _, hit, _⟩ := iteration_arrives hid hmsg htraffic hc hr (s.pipeline.receiver i)
  rw [hx] at hit
  cases hit

theorem sound_merge (hs : Sound ids msgs tr s) {m : Concatinator.Event n} {p : Pipeline.State n}
    (hp : Pipeline.Step ids s.pipeline (.merge m) p) (hlink : s'.link = s.link)
    (hpipeline : s'.pipeline = p) : Sound ids msgs (tr ++ [.pipeline (.merge m)]) s' := by
  have hmerging : merging [Event.pipeline (.merge m)] = [m] := rfl
  have hgot : s'.pipeline.terminated = false ∧
      ∀ j, got j (tr ++ [.pipeline (.merge m)]) s' = got j tr s := by
    cases hp with
    | @push i q halive hpending =>
      rw [hpipeline]
      refine ⟨halive, ?_⟩
      intro j
      unfold got
      rw [merging_snoc, pushed_append, hmerging, pushed_push, hpipeline]
      by_cases hj : i = j
      · subst hj
        simp [hpending]
      · simp [hj, Function.update_of_ne (Ne.symm hj)]
    | @thread _ c halive hnext =>
      rw [hpipeline]
      refine ⟨halive, ?_⟩
      intro j
      apply got_silent
      · rw [hmerging]
        exact pushed_act (act_of_next hnext) j
      · rw [hpipeline]
  refine ⟨hgot.1, ?_⟩
  intro j
  rw [acceptedOn_snoc j tr rfl, lostOn_snoc j tr rfl, hlink, hgot.2 j]
  exact hs.carried j

end step

/-- Whatever is lost: where the receivers ignore all foreign traffic, no thread throws,
and they have the frames that have arrived, in order, less their last bytes. -/
theorem run_sound {ids msgs : Fin n → Bytes} {traffic : Fin n → Recv → Prop}
    (hid : ∀ i, (ids i).length = 10) (hmsg : ∀ i, msgs i = msg1 ∨ msgs i = msg2)
    (htraffic : ∀ i r, traffic i r → Harmless (ids i) r) {tr : List (Event n)} {s : State n}
    (h : (system ids msgs traffic).Run tr s) : Sound ids msgs tr s := by
  refine h.invariant (I := Sound ids msgs) ?_ ?_
  · intro s hs
    obtain ⟨-, hlink, hstart, hpending, halive⟩ := hs
    refine ⟨halive, ?_⟩
    intro i
    refine ⟨[], [], List.nil_sublist _, rfl, hlink i, ?_⟩
    rw [got, hpending i]
    rfl
  · intro tr s e s' hrun hs he
    cases he with
    | attempt _ ha => exact sound_attempt hrun hs ha rfl rfl
    | lost hk => exact sound_lost hs hk rfl rfl
    | @receive i _ _ _ hr hp => exact sound_receive hs (hid i) (hmsg i) (htraffic i) hr hp rfl rfl
    | @crash i _ _ _ _ hr hx _ => exact (not_crash hs (hid i) (hmsg i) (htraffic i) hr hx).elim
    | merge hp => exact sound_merge hs hp rfl rfl

end OSwitch.Main
