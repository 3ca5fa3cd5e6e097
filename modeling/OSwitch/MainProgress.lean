import OSwitch.CycleMerge
import OSwitch.Main

/-!
# The frames on their way come through

Once the senders pause and the cables lose nothing more, the receivers and the
concatinator have a bounded number of steps left, in whatever order they take
them, and as long as there is something left to do one of them can take a step.
-/

namespace OSwitch.Main
open Trace Wire StdText SenderSocket ReceiverSocket
open Concatinator (pushed pushed_append pushed_push pushed_act act_of_next rounds remaining
  remaining_act remaining_le rounds_act rounds_le_pushed log_snoc linkId linkId_length)

variable {n : ℕ} {ids msgs : Fin n → Bytes} {traffic : Fin n → Recv → Prop}
  {tr : List (Event n)} {s s' : State n} {e : Event n}

/- The cables are empty and the threads wait, the senders apart. -/
structure Settled (s : State n) : Prop where
  link : ∀ i, s.link i = []
  pending : ∀ i, s.pipeline.pending i = none
  waiting : s.pipeline.concatinator.next = none

/- A step that takes a frame or a packet further, or one of the concatinator. -/
def Onward (ids : Fin n → Bytes) : Event n → Prop
  | .attempt _ _ => False
  | .lost _ _ => False
  | .pipeline (.received i r) => ¬Harmless (ids i) r
  | .pipeline (.crashed _ _) => True
  | .pipeline (.merge _) => True

/-! ### A bound on the steps that are left -/

/- A frame on a cable has two steps to go until it is queued. -/
def undelivered (s : State n) : ℕ :=
  ∑ i, (2 * (s.link i).length + (s.pipeline.pending i).toList.length)

def weight (s : State n) : ℕ := undelivered s + remaining s.pipeline.concatinator

/- In a round the thread takes fewer steps than this. -/
def roundSteps (n : ℕ) : ℕ := 3 * n + 5

theorem undelivered_lt (i : Fin n)
    (hi : 2 * (s'.link i).length + (s'.pipeline.pending i).toList.length <
      2 * (s.link i).length + (s.pipeline.pending i).toList.length)
    (hother : ∀ j, j ≠ i → s'.link j = s.link j ∧
      s'.pipeline.pending j = s.pipeline.pending j) : undelivered s' < undelivered s := by
  apply Finset.sum_lt_sum
  · intro j _
    by_cases hj : j = i
    · subst hj
      exact hi.le
    · obtain ⟨hlink, hpending⟩ := hother j hj
      rw [hlink, hpending]
  · exact ⟨i, Finset.mem_univ i, hi⟩

theorem rounds_push (m : List (Concatinator.Event n)) (i : Fin n) (p : FpgaPacket) :
    rounds (m ++ [.push i p]) = rounds m := by
  unfold rounds
  rw [log_snoc]
  rfl

theorem Arrives.of_not_harmless {senderId : Bytes} {traffic : Recv → Prop}
    (htraffic : ∀ r, traffic r → Harmless senderId r) {link frames : List Bytes} {r : Recv}
    (h : Arrives traffic link r frames) (hr : ¬Harmless senderId r) :
    ∃ t frame, t ≠ packetOutgoing ∧ link = frame :: frames ∧ r = .datagram t frame := by
  cases h with
  | cable ht => exact ⟨_, _, ht, rfl, rfl⟩
  | foreign hforeign => exact absurd (htraffic r hforeign) hr

theorem toList_length_le {α : Type*} (o : Option α) : o.toList.length ≤ 1 := by
  cases o with
  | none => exact Nat.zero_le 1
  | some a => exact le_rfl

theorem weight_receive {i : Fin n} (htraffic : ∀ r, traffic i r → Harmless (ids i) r)
    {r : Recv} {frames : List Bytes} {p : Pipeline.State n}
    (hr : Arrives (traffic i) (s.link i) r frames) (ho : ¬Harmless (ids i) r)
    (hp : Pipeline.Step ids s.pipeline (.received i r) p)
    (hlink : s'.link = Function.update s.link i frames) (hpipeline : s'.pipeline = p) :
    weight s' + 1 ≤ weight s := by
  obtain ⟨t, frame, -, hfirst, -⟩ := hr.of_not_harmless htraffic ho
  cases hp with
  | @receive _ _ st o _ hpending _ =>
    have hless : undelivered s' < undelivered s := by
      apply undelivered_lt i
      · have hone := toList_length_le o
        rw [hlink, hpipeline, hfirst, hpending]
        simp only [Function.update_self, List.length_cons, Option.toList_none, List.length_nil]
        omega
      · intro j hj
        rw [hlink, hpipeline]
        exact ⟨Function.update_of_ne hj _ _, Function.update_of_ne hj _ _⟩
    unfold weight
    rw [hpipeline]
    exact Nat.add_lt_add_right hless _

theorem weight_push {i : Fin n} {q : FpgaPacket} (hpending : s.pipeline.pending i = some q)
    (hlink : s'.link = s.link)
    (hpending' : s'.pipeline.pending = Function.update s.pipeline.pending i none)
    (hpc : s'.pipeline.concatinator = s.pipeline.concatinator.push i q) :
    weight s' + 1 ≤ weight s := by
  have hless : undelivered s' < undelivered s := by
    apply undelivered_lt i
    · rw [hlink, hpending', hpending, Function.update_self]
      exact Nat.add_lt_add_left Nat.one_pos _
    · intro j hj
      rw [hlink, hpending', Function.update_of_ne hj]
      exact ⟨rfl, rfl⟩
  have hsame : remaining s'.pipeline.concatinator = remaining s.pipeline.concatinator := by
    rw [hpc]
    rfl
  unfold weight
  rw [hsame]
  exact Nat.add_lt_add_right hless _

/- A step of the concatinator brings the end of the round closer, or is its end. -/
theorem remaining_next {c c' : Concatinator.State n} {m : Concatinator.Event n}
    (hnext : c.next = some (m, c')) (ms : List (Concatinator.Event n)) :
    remaining c' + 1 + (rounds ms).length * roundSteps n ≤
      remaining c + (rounds (ms ++ [m])).length * roundSteps n := by
  have hact := act_of_next hnext
  have hrounds := rounds_act hact ms
  by_cases hpc : c.pc = .send
  · have hle := remaining_le c'
    rw [if_pos hpc] at hrounds
    rw [hrounds, Nat.add_one_mul, roundSteps]
    omega
  · have hless := remaining_act hact hpc
    rw [if_neg hpc] at hrounds
    rw [hrounds]
    omega

/-- A step onward makes what is left smaller, by as much as a round if it ends one. -/
theorem weight_step (hs : Sound ids msgs tr s) (hid : ∀ i, (ids i).length = 10)
    (hmsg : ∀ i, msgs i = msg1 ∨ msgs i = msg2)
    (htraffic : ∀ i r, traffic i r → Harmless (ids i) r) (ho : Onward ids e)
    (he : Step ids msgs traffic s e s') :
    weight s' + 1 + (rounds (merging tr)).length * roundSteps n ≤
      weight s + (rounds (merging (tr ++ [e]))).length * roundSteps n := by
  rw [merging_snoc]
  cases he with
  | attempt => exact ho.elim
  | lost => exact ho.elim
  | @crash i _ _ _ _ hr hx _ => exact (not_crash hs (hid i) (hmsg i) (htraffic i) hr hx).elim
  | @receive i r frames p hr hp =>
    have hmerging : merging [Event.pipeline (.received i r)] = [] := rfl
    rw [hmerging, List.append_nil]
    exact Nat.add_le_add_right (weight_receive (htraffic i) hr ho hp rfl rfl) _
  | @merge m p hp =>
    have hmerging : merging [Event.pipeline (.merge m)] = [m] := rfl
    rw [hmerging]
    cases hp with
    | @push i q _ hpending =>
      rw [rounds_push]
      apply Nat.add_le_add_right
      exact weight_push hpending rfl rfl rfl
    | thread _ hnext =>
      have hless := remaining_next hnext (merging tr)
      simp only [weight, undelivered]
      omega

/- A queue has received no more than its sender has sent. -/
theorem pushed_le (hs : Sound ids msgs tr s) (i : Fin n) :
    (pushed i (merging tr)).length ≤ acceptedOn i tr := by
  obtain ⟨arrived, flying, hc⟩ := hs.carried i
  have hgot := congrArg List.length hc.got
  have hsub := hc.sub.length_le
  rw [got, List.length_append, List.length_map] at hgot
  rw [List.length_append, List.length_range] at hsub
  omega

theorem pushed_packetOf (hs : Sound ids msgs tr s) {i : Fin n} {p : FpgaPacket}
    (hp : p ∈ pushed i (merging tr)) : ∃ k, p = packetOf (ids i) (msgs i) k := by
  obtain ⟨arrived, flying, hc⟩ := hs.carried i
  have hgot : p ∈ got i tr s := List.mem_append_left _ hp
  rw [hc.got] at hgot
  obtain ⟨k, -, hk⟩ := List.mem_map.mp hgot
  exact ⟨k, hk.symm⟩

theorem rounds_le_accepted (hn : 0 < n) (hs : Sound ids msgs tr s)
    (h : (system ids msgs traffic).Run tr s) :
    (rounds (merging tr)).length ≤ ∑ i, acceptedOn i tr := by
  have hle : (rounds (merging tr)).length ≤ ∑ i, (pushed i (merging tr)).length := by
    apply rounds_le_pushed hn (run_merging h)
    intro i p hp
    obtain ⟨k, rfl⟩ := pushed_packetOf hs hp
    simp only [packetOf]
    omega
  exact hle.trans (Finset.sum_le_sum fun i _ => pushed_le hs i)

/-! ### Something to do -/

theorem frameOf_not_harmless {senderId msg : Bytes} (hid : senderId.length = 10)
    (hmsg : msg = msg1 ∨ msg = msg2) {t : ℕ} (ht : t ≠ packetOutgoing) (k : ℕ) :
    ¬Harmless senderId (.datagram t (frameOf senderId msg k)) := by
  intro hharmless
  obtain ⟨hne, -⟩ := hharmless ⟨ht, frameOf_length hid hmsg k⟩
  exact hne (slice_wireText senderId msg _ _ hid 19).1

/-- As long as a frame or a packet is on its way, or the concatinator does not wait,
there is a step to take. -/
theorem exists_onward (hs : Sound ids msgs tr s) (hid : ∀ i, (ids i).length = 10)
    (hmsg : ∀ i, msgs i = msg1 ∨ msgs i = msg2) (hns : ¬Settled s) :
    ∃ e s', Onward ids e ∧ Step ids msgs traffic s e s' := by
  by_cases hpending : ∀ i, s.pipeline.pending i = none
  · by_cases hlink : ∀ i, s.link i = []
    · cases hnext : s.pipeline.concatinator.next with
      | none => exact absurd ⟨hlink, hpending, hnext⟩ hns
      | some mc =>
        have ho : Onward ids (.pipeline (.merge mc.1)) := trivial
        exact ⟨_, _, ho, .merge (.thread hs.alive hnext)⟩
    · -- The frame at the end of a cable, for a receiver that is idle.
      obtain ⟨i, hi⟩ := not_forall.mp hlink
      obtain ⟨frame, frames, hframes⟩ := List.exists_cons_of_ne_nil hi
      obtain ⟨arrived, flying, hc⟩ := hs.carried i
      rw [hframes] at hc
      obtain ⟨k, -, hframe, -⟩ := hc.arrive
      have ht : 0 ≠ packetOutgoing := by decide
      have hr : Arrives (traffic i) (s.link i) (.datagram 0 frame) frames := by
        rw [hframes]
        exact .cable ht
      obtain ⟨st, hit⟩ := iteration_frameOf (hid i) (hmsg i) (s.pipeline.receiver i) ht k
      have ho : Onward ids (.pipeline (.received i (.datagram 0 frame))) := by
        rw [hframe]
        exact frameOf_not_harmless (hid i) (hmsg i) ht k
      rw [← hframe] at hit
      exact ⟨_, _, ho, .receive hr (.receive hs.alive (hpending i) hit)⟩
  · obtain ⟨i, hi⟩ := not_forall.mp hpending
    obtain ⟨p, hp⟩ := Option.ne_none_iff_exists'.mp hi
    have ho : Onward ids (.pipeline (.merge (.push i p))) := trivial
    exact ⟨_, _, ho, .merge (.push hs.alive hp)⟩

/-! ### Runs onward -/

theorem acceptedOn_onward (i : Fin n) (ho : Onward ids e) (tr : List (Event n)) :
    acceptedOn i (tr ++ [e]) = acceptedOn i tr := by
  cases e with
  | attempt => exact ho.elim
  | lost => exact ho.elim
  | pipeline => exact acceptedOn_snoc i tr rfl

theorem lostOn_onward (i : Fin n) (ho : Onward ids e) (tr : List (Event n)) :
    lostOn i (tr ++ [e]) = lostOn i tr := by
  cases e with
  | attempt => exact ho.elim
  | lost => exact ho.elim
  | pipeline => exact lostOn_snoc i tr rfl

/- What holds when only steps onward have been taken since `s`. -/
structure Further (ids msgs : Fin n → Bytes) (traffic : Fin n → Recv → Prop)
    (tr : List (Event n)) (s : State n) (tr' : List (Event n)) (s' : State n) : Prop where
  run : (system ids msgs traffic).Run (tr ++ tr') s'
  accepted : ∀ i, acceptedOn i (tr ++ tr') = acceptedOn i tr
  lost : ∀ i, lostOn i (tr ++ tr') = lostOn i tr
  weight : weight s' + tr'.length + (rounds (merging tr)).length * roundSteps n ≤
    weight s + (rounds (merging (tr ++ tr'))).length * roundSteps n

theorem Further.refl (h : (system ids msgs traffic).Run tr s) :
    Further ids msgs traffic tr s [] s := by
  constructor <;> rw [List.append_nil]
  · exact h
  · intro i
    rfl
  · intro i
    rfl
  · exact le_rfl

theorem Further.snoc {tr' : List (Event n)} {s'' : State n}
    (h : Further ids msgs traffic tr s tr' s')
    (hid : ∀ i, (ids i).length = 10) (hmsg : ∀ i, msgs i = msg1 ∨ msgs i = msg2)
    (htraffic : ∀ i r, traffic i r → Harmless (ids i) r)
    (ho : Onward ids e) (he : Step ids msgs traffic s' e s'') :
    Further ids msgs traffic tr s (tr' ++ [e]) s'' := by
  have hless := weight_step (run_sound hid hmsg htraffic h.run) hid hmsg htraffic ho he
  have hweight := h.weight
  constructor <;> rw [← List.append_assoc]
  · exact h.run.snoc he
  · intro i
    rw [acceptedOn_onward i ho, h.accepted]
  · intro i
    rw [lostOn_onward i ho, h.lost]
  · rw [List.length_append, List.length_singleton]
    omega

theorem further_of_run (hid : ∀ i, (ids i).length = 10)
    (hmsg : ∀ i, msgs i = msg1 ∨ msgs i = msg2)
    (htraffic : ∀ i r, traffic i r → Harmless (ids i) r) (h : (system ids msgs traffic).Run tr s)
    {tr' : List (Event n)} (h' : ((system ids msgs traffic).startingAt s).Run tr' s')
    (ho : ∀ e ∈ tr', Onward ids e) : Further ids msgs traffic tr s tr' s' := by
  induction h' with
  | init hi =>
    cases hi
    exact .refl h
  | @snoc tr' s₁ e s₂ _ he ih =>
    have hinitial : ∀ e ∈ tr', Onward ids e := fun e he => ho e (List.mem_append_left _ he)
    have hlast : Onward ids e := ho e (List.mem_append_right _ (List.mem_singleton.mpr rfl))
    exact (ih hinitial).snoc hid hmsg htraffic hlast he

theorem Further.length_le {tr' : List (Event n)} (hn : 0 < n) (hid : ∀ i, (ids i).length = 10)
    (hmsg : ∀ i, msgs i = msg1 ∨ msgs i = msg2)
    (htraffic : ∀ i r, traffic i r → Harmless (ids i) r)
    (h : Further ids msgs traffic tr s tr' s') :
    tr'.length ≤ Main.weight s + (∑ i, acceptedOn i tr) * roundSteps n := by
  have hrounds := rounds_le_accepted hn (run_sound hid hmsg htraffic h.run) h.run
  simp only [h.accepted] at hrounds
  have hmul := Nat.mul_le_mul_right (roundSteps n) hrounds
  have hweight := h.weight
  omega

/-! ### Runs of given lengths -/

theorem exists_start (ids msgs : Fin n → Bytes) (traffic : Fin n → Recv → Prop) :
    ∃ s, (system ids msgs traffic).Run [] s ∧ s.pipeline.terminated = false ∧
      s.pipeline.concatinator = Concatinator.start ∧ ∀ i, s.link i = [] := by
  let buf : RecvBuffer := ⟨List.replicate sizeOfBuffers 0, List.length_replicate⟩
  let pipeline : Pipeline.State n := ⟨fun _ => ⟨buf, 0⟩, fun _ => none, Concatinator.start, false⟩
  exact ⟨⟨fun _ => start, fun _ => [], pipeline⟩,
    .init ⟨fun _ => rfl, fun _ => rfl, rfl, fun _ => rfl, rfl⟩, rfl, rfl, fun _ => rfl⟩

/- Sender `i` sends `m` more frames. -/
theorem exists_sent (h : (system ids msgs traffic).Run tr s)
    (halive : s.pipeline.terminated = false) (i : Fin n) (m : ℕ) :
    ∃ tr' s', (system ids msgs traffic).Run tr' s' ∧ s'.pipeline = s.pipeline ∧
      (∀ j, acceptedOn j tr' = acceptedOn j tr + if i = j then m else 0) ∧
      (∀ j, (s'.link j).length = (s.link j).length + if i = j then m else 0) ∧
      ∀ j, lostOn j tr' = lostOn j tr := by
  induction m with
  | zero => exact ⟨tr, s, h, rfl, by simp, by simp, fun _ => rfl⟩
  | succ m ih =>
    obtain ⟨tr', s', hrun, hpipeline, hsent, hlink, hlost⟩ := ih
    have hstep : (startTransmitting (ids i) (msgs i)).step (s'.sender i)
        ((sendBuf (ids i) (msgs i) (s'.sender i)).1, 0)
        (SenderSocket.iteration (ids i) (msgs i) (s'.sender i) 0) := ⟨rfl, rfl⟩
    refine ⟨_, _, hrun.snoc (.attempt (hpipeline ▸ halive) hstep), hpipeline, ?_, ?_, ?_⟩
    · intro j
      rw [acceptedOn_attempt, hsent]
      by_cases hj : i = j
      · simp only [hj, le_refl, and_self, if_true]
        omega
      · simp [hj]
    · intro j
      by_cases hj : j = i
      · subst hj
        have hmore := hlink j
        simp only [Function.update_self, le_refl, if_true, List.length_append,
          List.length_singleton] at hmore ⊢
        omega
      · have hmore := hlink j
        simp only [Function.update_of_ne hj, if_neg (Ne.symm hj)] at hmore ⊢
        exact hmore
    · intro j
      rw [lostOn_snoc j _ rfl, hlost]

/-! ### From every state to rest -/

/-- Where the receivers ignore the foreign traffic: from every state, and in whatever
order they are taken, only a bounded number of steps onward can be taken, and they
end only where nothing is left to do. -/
theorem comes_to_rest (hn : 0 < n) (hid : ∀ i, (ids i).length = 10)
    (hmsg : ∀ i, msgs i = msg1 ∨ msgs i = msg2)
    (htraffic : ∀ i r, traffic i r → Harmless (ids i) r) (h : (system ids msgs traffic).Run tr s)
    {tr' : List (Event n)} (h' : ((system ids msgs traffic).startingAt s).Run tr' s')
    (ho : ∀ e ∈ tr', Onward ids e) :
    tr'.length ≤ weight s + (∑ i, acceptedOn i tr) * roundSteps n ∧
    (Settled s' ∨ ∃ e s'', Onward ids e ∧ Step ids msgs traffic s' e s'') := by
  have hfurther := further_of_run hid hmsg htraffic h h' ho
  refine ⟨hfurther.length_le hn hid hmsg htraffic, ?_⟩
  by_cases hs : Settled s'
  · exact .inl hs
  · exact .inr (exists_onward (run_sound hid hmsg htraffic hfurther.run) hid hmsg hs)

/- The messages that the senders of `main` choose. -/
def linkMsg : Fin 2 → Bytes
  | 0 => msg1
  | 1 => msg2

/- What the receivers of `main` ignore. -/
def linkTraffic (i : Fin 2) : Recv → Prop := Harmless (linkId i)

theorem linkTraffic_harmless : ∀ i r, linkTraffic i r → Harmless (linkId i) r := fun _ _ => id

theorem linkMsg_cases : ∀ i, linkMsg i = msg1 ∨ linkMsg i = msg2
  | 0 => .inl rfl
  | 1 => .inr rfl

/- Frames of both senders of `main` on the cables. -/
theorem exists_sent_links (a b : ℕ) : ∃ tr s, (system linkId linkMsg linkTraffic).Run tr s ∧
    s.pipeline.concatinator = Concatinator.start ∧ acceptedOn 0 tr = a ∧ acceptedOn 1 tr = b ∧
    (s.link 0).length = a ∧ (s.link 1).length = b ∧ ∀ i, lostOn i tr = 0 := by
  obtain ⟨s, h, halive, hstart, hempty⟩ := exists_start linkId linkMsg linkTraffic
  obtain ⟨tr₁, s₁, h₁, hpipeline₁, hsent₁, hlink₁, hlost₁⟩ := exists_sent h halive 0 a
  rw [← hpipeline₁] at halive
  obtain ⟨tr₂, s₂, h₂, hpipeline₂, hsent₂, hlink₂, hlost₂⟩ := exists_sent h₁ halive 1 b
  have hnone : ∀ i : Fin 2, acceptedOn i ([] : List (Event 2)) = 0 := fun i => rfl
  refine ⟨tr₂, s₂, h₂, ?_, ?_, ?_, ?_, ?_, ?_⟩
  · rw [hpipeline₂, hpipeline₁, hstart]
  · simp [hsent₂, hsent₁, hnone]
  · simp [hsent₂, hsent₁, hnone]
  · simp [hlink₂, hlink₁, hempty]
  · simp [hlink₂, hlink₁, hempty]
  · intro i
    rw [hlost₂, hlost₁]
    rfl

/- Frames on both cables, and nothing received yet. -/
theorem comes_to_rest_links : ∃ tr s, (system linkId linkMsg linkTraffic).Run tr s ∧
    acceptedOn 0 tr = 300 ∧ acceptedOn 1 tr = 400 ∧
    ∃ e s', Onward linkId e ∧ Step linkId linkMsg linkTraffic s e s' := by
  obtain ⟨tr, s, h, hstart, ha, hb, -⟩ := exists_sent_links 300 400
  refine ⟨tr, s, h, ha, hb, ?_⟩
  have hsettled : ¬Settled s := by
    intro hs
    have hwaiting := hs.waiting
    rw [hstart] at hwaiting
    cases hwaiting
  have hnone : ∀ e ∈ ([] : List (Event 2)), Onward linkId e := by
    intro e he
    cases he
  rcases (comes_to_rest (by decide) linkId_length linkMsg_cases linkTraffic_harmless h (.init rfl)
      hnone).2 with hs | hmore
  · exact absurd hs hsettled
  · exact hmore

/-- So every run can be continued to where nothing is left to do. -/
theorem exists_settled (hn : 0 < n) (hid : ∀ i, (ids i).length = 10)
    (hmsg : ∀ i, msgs i = msg1 ∨ msgs i = msg2)
    (htraffic : ∀ i r, traffic i r → Harmless (ids i) r) (h : (system ids msgs traffic).Run tr s) :
    ∃ tr' s', Further ids msgs traffic tr s tr' s' ∧ Settled s' := by
  -- The longest way on: it has at most as many steps as the bound leaves.
  have hlonger : ∀ k, ∀ tr' s', Further ids msgs traffic tr s tr' s' →
      weight s + (∑ i, acceptedOn i tr) * roundSteps n - tr'.length = k →
      ∃ tr' s', Further ids msgs traffic tr s tr' s' ∧ Settled s' := by
    intro k
    induction k with
    | zero =>
      intro tr' s' hf hk
      by_cases hs : Settled s'
      · exact ⟨tr', s', hf, hs⟩
      · obtain ⟨e, s'', ho, he⟩ := exists_onward (run_sound hid hmsg htraffic hf.run) hid hmsg hs
        have hle := (hf.snoc hid hmsg htraffic ho he).length_le hn hid hmsg htraffic
        rw [List.length_append, List.length_singleton] at hle
        omega
    | succ k ih =>
      intro tr' s' hf hk
      by_cases hs : Settled s'
      · exact ⟨tr', s', hf, hs⟩
      · obtain ⟨e, s'', ho, he⟩ := exists_onward (run_sound hid hmsg htraffic hf.run) hid hmsg hs
        apply ih _ _ (hf.snoc hid hmsg htraffic ho he)
        rw [List.length_append, List.length_singleton]
        omega
  exact hlonger _ [] s (.refl h) rfl

/- All frames of both senders of `main` have come through. -/
theorem exists_settled_links (a b : ℕ) : ∃ tr s, (system linkId linkMsg linkTraffic).Run tr s ∧
    Settled s ∧ acceptedOn 0 tr = a ∧ acceptedOn 1 tr = b ∧ ∀ i, lostOn i tr = 0 := by
  obtain ⟨tr, s, h, -, ha, hb, -, -, hlost⟩ := exists_sent_links a b
  obtain ⟨tr', s', hf, hs⟩ := exists_settled (by decide) linkId_length linkMsg_cases
    linkTraffic_harmless h
  refine ⟨_, s', hf.run, hs, (hf.accepted 0).trans ha, (hf.accepted 1).trans hb, ?_⟩
  intro i
  exact (hf.lost i).trans (hlost i)

/- The first frame of the second sender was lost. -/
theorem exists_lossy_links : ∃ tr s, (system linkId linkMsg linkTraffic).Run tr s ∧ Settled s ∧
    acceptedOn 0 tr = 3 ∧ acceptedOn 1 tr = 3 ∧ lostOn 0 tr = 0 ∧ lostOn 1 tr = 1 := by
  obtain ⟨tr, s, h, -, ha, hb, -, hlink, hlost⟩ := exists_sent_links 3 3
  have hk : 0 < (s.link 1).length := by omega
  have hlossy := h.snoc (show Step linkId linkMsg linkTraffic s (.lost 1 0) _ from .lost hk)
  obtain ⟨tr', s', hf, hs⟩ := exists_settled (by decide) linkId_length linkMsg_cases
    linkTraffic_harmless hlossy
  refine ⟨_, s', hf.run, hs, ?_, ?_, ?_, ?_⟩
  · rw [hf.accepted, acceptedOn_snoc 0 tr rfl, ha]
  · rw [hf.accepted, acceptedOn_snoc 1 tr rfl, hb]
  · rw [hf.lost, lostOn_lost, hlost]
    rfl
  · rw [hf.lost, lostOn_lost, hlost]
    rfl

end OSwitch.Main
