import OSwitch.MainProgress

/-!
# From the frames of the senders to the messages of the concatinator

What a queue has received are the packets of frames that its sender has sent,
each at most once and in order, whatever the cables lose, as long as the
receivers ignore what else comes in. So every message is put together from
frames, one of a cable at most, and over a whole run every frame is used at most
once.
-/

namespace OSwitch.Main
open Trace Wire StdText StreamMerge SenderSocket ReceiverSocket Concatinator

variable {n : ℕ} {ids msgs : Fin n → Bytes} {traffic : Fin n → Recv → Prop}
  {tr : List (Event n)} {s : State n}

/-! ### What the queues have received -/

/- The frames whose packets were pushed into queue `i`. -/
structure Queued (ids msgs : Fin n → Bytes) (tr : List (Event n)) (i : Fin n) (ks : List ℕ) :
    Prop where
  sub : ks.Sublist (List.range (acceptedOn i tr))
  whole : lostOn i tr = 0 → ks = List.range ks.length
  pushed : pushed i (merging tr) = ks.map (packetOf (ids i) (msgs i))

theorem eq_range_of_prefix {l : List ℕ} {m : ℕ} (h : l <+: List.range m) :
    l = List.range l.length := by
  have hle := h.length_le
  rw [List.length_range] at hle
  have htake := List.prefix_iff_eq_take.mp h
  rw [List.take_range, min_eq_left hle] at htake
  exact htake

theorem exists_queued (hid : ∀ i, (ids i).length = 10) (hmsg : ∀ i, msgs i = msg1 ∨ msgs i = msg2)
    (htraffic : ∀ i r, traffic i r → Harmless (ids i) r)
    (h : (system ids msgs traffic).Run tr s) :
    ∃ ks : Fin n → List ℕ, ∀ i, Queued ids msgs tr i (ks i) := by
  apply Classical.skolem.mp
  intro i
  obtain ⟨arrived, flying, hc⟩ := (run_sound hid hmsg htraffic h).carried i
  -- What is not pushed yet comes after what is.
  have hinitial : arrived.take (pushed i (merging tr)).length <+: arrived ++ flying :=
    (List.take_prefix _ _).trans (List.prefix_append _ _)
  refine ⟨_, hinitial.sublist.trans hc.sub, ?_, ?_⟩
  · intro hl
    rw [hl] at hc
    rw [hc.whole] at hinitial
    exact eq_range_of_prefix hinitial
  · rw [List.map_take, ← hc.got, got, List.take_left]

/- A frame that is not queued is pending, on the cable or lost. -/
theorem Queued.count {i : Fin n} {ks : List ℕ} (hks : Queued ids msgs tr i ks)
    (hs : Sound ids msgs tr s) :
    ks.length + (s.pipeline.pending i).toList.length + (s.link i).length + lostOn i tr =
      acceptedOn i tr := by
  obtain ⟨arrived, flying, hc⟩ := hs.carried i
  have hcount := hc.count
  have hgot := congrArg List.length hc.got
  rw [got, hks.pushed, List.length_append, List.length_map, List.length_map] at hgot
  rw [hc.link, List.length_map]
  omega

/-- Where the receivers ignore the foreign traffic: no exception ends the process. A
queue has received the packets of some of the frames that its sender has sent, each
once and in order, of all the first ones if none was lost; the other frames are
pending, on the cable or lost. -/
theorem arrivals (hid : ∀ i, (ids i).length = 10) (hmsg : ∀ i, msgs i = msg1 ∨ msgs i = msg2)
    (htraffic : ∀ i r, traffic i r → Harmless (ids i) r)
    (h : (system ids msgs traffic).Run tr s) :
    s.pipeline.terminated = false ∧ ∀ i, ∃ ks : List ℕ,
      ks.Sublist (List.range (acceptedOn i tr)) ∧ (lostOn i tr = 0 → ks = List.range ks.length) ∧
      popped i (merging tr) ++ s.pipeline.concatinator.queues i =
        ks.map (packetOf (ids i) (msgs i)) ∧
      ks.length + (s.pipeline.pending i).toList.length + (s.link i).length + lostOn i tr =
        acceptedOn i tr := by
  have hs := run_sound hid hmsg htraffic h
  refine ⟨hs.alive, ?_⟩
  intro i
  obtain ⟨ks, hks⟩ := exists_queued hid hmsg htraffic h
  refine ⟨ks i, (hks i).sub, (hks i).whole, ?_, (hks i).count hs⟩
  rw [queue_fifo (run_merging h)]
  exact (hks i).pushed

/- Two of three frames have come through. -/
theorem arrivals_links : ∃ tr s, (system linkId linkMsg linkTraffic).Run tr s ∧ ∃ ks : List ℕ,
    ks.length = 2 ∧ ks.Sublist (List.range 3) ∧
    popped 1 (merging tr) ++ s.pipeline.concatinator.queues 1 =
      ks.map (packetOf (linkId 1) (linkMsg 1)) := by
  obtain ⟨tr, s, h, hs, -, hsent, -, hlost⟩ := exists_lossy_links
  obtain ⟨ks, hsub, -, hqueue, hcount⟩ :=
    (arrivals linkId_length linkMsg_cases linkTraffic_harmless h).2 1
  rw [hsent] at hsub
  rw [hs.pending, hs.link, hsent, hlost] at hcount
  refine ⟨tr, s, h, ks, ?_, hsub, hqueue⟩
  simpa using hcount

/-! ### The packets of frames -/

theorem packetOf_wellFormed {senderId msg : Bytes} (hid : senderId.length = 10)
    (hmsg : msg = msg1 ∨ msg = msg2) (k : ℕ) : WellFormed (packetOf senderId msg k) where
  nonneg := Int.natCast_nonneg _
  le := by
    simp only [packetOf]
    omega
  id := hid
  data := by
    rcases hmsg with rfl | rfl
    · rw [packetOf, List.length_dropLast, msg1, List.length_replicate]
    · rw [packetOf, List.length_dropLast, msg2, List.length_replicate]

theorem wellFormed_shape {p : FpgaPacket} (h : WellFormed p) :
    p.frameNumber ≤ 255 ∧ p.sourceId ≠ [] ∧ p.data ≠ [] := by
  refine ⟨h.le, ?_, ?_⟩
  · rw [← List.length_pos_iff, h.id]
    decide
  · rw [← List.length_pos_iff, h.data]
    decide

/- Numbers of frames that begin with `ks i`. -/
def numberAt (ks : Fin n → List ℕ) (i : Fin n) (m : ℕ) : ℕ := (ks i)[m]?.getD 0

def frameFeed (ids msgs : Fin n → Bytes) (ks : Fin n → List ℕ) : Fin n → ℕ → FpgaPacket :=
  fun i m => packetOf (ids i) (msgs i) (numberAt ks i m)

theorem frameFeed_extends {ks : Fin n → List ℕ} (hks : ∀ i, Queued ids msgs tr i (ks i)) :
    Extends (frameFeed ids msgs ks) fun i => pushed i (merging tr) := by
  intro i m p hp
  have hget : ((ks i).map (packetOf (ids i) (msgs i)))[m]? = some p := by
    rw [← (hks i).pushed]
    exact hp
  rw [List.getElem?_map] at hget
  obtain ⟨k, hk, rfl⟩ := Option.map_eq_some_iff.mp hget
  rw [frameFeed, numberAt, hk]
  rfl

/-! ### Messages put together from packets -/

/- A round takes some queue's front and sends the packets that it takes. -/
theorem mergeRound_concatenated (hn : 0 < n) {feed : Fin n → ℕ → FpgaPacket} {pos : Fin n → ℕ}
    (hf : ∀ i, WellFormed (feed i (pos i))) :
    takenAt feed pos ≠ [] ∧ (mergeRound feed pos).message =
      some (concatenated (minAt feed pos) ((takenAt feed pos).map fun i => feed i (pos i))) := by
  have hne : takenAt feed pos ≠ [] := by
    apply chosen_ne_nil hn
    intro i
    have hle := (hf i).le
    omega
  refine ⟨hne, ?_⟩
  have hmessage := messageOf_front (minAt feed pos) hne fun i => (wellFormed_shape (hf i)).2
  rw [concatenated, List.flatMap_map, List.flatMap_map]
  rw [idsOf, dataOf, front, List.flatMap_map, List.flatMap_map] at hmessage
  exact hmessage

theorem messages_of_feed (hn : 0 < n) {m : List (Concatinator.Event n)} {c : Concatinator.State n}
    (h : Concatinator.system.Run m c) {feed : Fin n → ℕ → FpgaPacket}
    (hx : Extends feed fun i => pushed i m) (hf : ∀ i k, WellFormed (feed i k)) :
    messages m = (List.range (rounds m).length).map fun r =>
      concatenated (minAt feed (posAt feed r))
        ((takenAt feed (posAt feed r)).map fun i => feed i (posAt feed r i)) := by
  have hmessage := fun r => (mergeRound_concatenated hn fun i => hf i (posAt feed r i)).2
  have hsome : (rounds m).map Round.message = (messages m).map some := by
    apply map_message_eq
    intro R hR
    obtain ⟨r, -, rfl⟩ := round_mem h hx hR
    exact ⟨_, hmessage r⟩
  apply List.map_injective_iff.mpr (Option.some_injective _)
  rw [← hsome, rounds_eq h hx]
  simp only [List.map_map, List.length_map, List.length_range]
  exact List.map_congr_left fun r _ => hmessage r

/- The packets of these frames of several senders. -/
def packetsOfFrames (ids msgs : Fin n → Bytes) (xs : List (Fin n × ℕ)) : List FpgaPacket :=
  xs.map fun x => packetOf (ids x.1) (msgs x.1) x.2

/- The frames that round `r` takes. -/
def framesTaken (ids msgs : Fin n → Bytes) (ks : Fin n → List ℕ) (r : ℕ) : List (Fin n × ℕ) :=
  (takenAt (frameFeed ids msgs ks) (posAt (frameFeed ids msgs ks) r)).map fun i =>
    (i, numberAt ks i (posAt (frameFeed ids msgs ks) r i))

def roundNumber (ids msgs : Fin n → Bytes) (ks : Fin n → List ℕ) (r : ℕ) : ℕ :=
  (minAt (frameFeed ids msgs ks) (posAt (frameFeed ids msgs ks) r)).toNat

theorem taken_number {ks : Fin n → List ℕ} {r : ℕ} {i : Fin n}
    (hi : i ∈ takenAt (frameFeed ids msgs ks) (posAt (frameFeed ids msgs ks) r)) :
    minAt (frameFeed ids msgs ks) (posAt (frameFeed ids msgs ks) r) =
      ((numberAt ks i (posAt (frameFeed ids msgs ks) r i) % 255 : ℕ) : ℤ) :=
  (mem_chosen.mp hi).symm

theorem framesTaken_number {ks : Fin n → List ℕ} {r : ℕ} {x : Fin n × ℕ}
    (hx : x ∈ framesTaken ids msgs ks r) : x.2 % 255 = roundNumber ids msgs ks r := by
  obtain ⟨i, hi, rfl⟩ := List.mem_map.mp hx
  rw [roundNumber, taken_number hi]
  rfl

theorem messages_of_frames (hn : 0 < n) (hid : ∀ i, (ids i).length = 10)
    (hmsg : ∀ i, msgs i = msg1 ∨ msgs i = msg2) (h : (system ids msgs traffic).Run tr s)
    {ks : Fin n → List ℕ} (hks : ∀ i, Queued ids msgs tr i (ks i)) :
    (∀ r, framesTaken ids msgs ks r ≠ []) ∧
    messages (merging tr) = (List.range (rounds (merging tr)).length).map fun r =>
      concatenated (roundNumber ids msgs ks r)
        (packetsOfFrames ids msgs (framesTaken ids msgs ks r)) := by
  have hf : ∀ i m, WellFormed (frameFeed ids msgs ks i m) := fun i m =>
    packetOf_wellFormed (hid i) (hmsg i) _
  have hne : ∀ r, framesTaken ids msgs ks r ≠ [] := by
    intro r
    have htaken := (mergeRound_concatenated hn fun i => hf i
      (posAt (frameFeed ids msgs ks) r i)).1
    simpa [framesTaken] using htaken
  refine ⟨hne, ?_⟩
  rw [messages_of_feed hn (run_merging h) (frameFeed_extends hks) hf]
  apply List.map_congr_left
  intro r _
  have hmin : minAt (frameFeed ids msgs ks) (posAt (frameFeed ids msgs ks) r) =
      (roundNumber ids msgs ks r : ℤ) := by
    obtain ⟨x, hx⟩ := List.exists_mem_of_ne_nil _ (hne r)
    obtain ⟨i, hi, -⟩ := List.mem_map.mp hx
    rw [roundNumber, taken_number hi]
    rfl
  rw [hmin, packetsOfFrames, framesTaken, List.map_map]
  rfl

/-- Where the receivers ignore the foreign traffic: every message is put together
from frames with its number, one of a cable at most, in the order of the queues;
over the whole run the frames of a sender are used in the order in which they were
sent, and none is used twice. -/
theorem messages_from_frames (hn : 0 < n) (hid : ∀ i, (ids i).length = 10)
    (hmsg : ∀ i, msgs i = msg1 ∨ msgs i = msg2)
    (htraffic : ∀ i r, traffic i r → Harmless (ids i) r) (h : (system ids msgs traffic).Run tr s) :
    ∃ gs : List (ℕ × List (Fin n × ℕ)),
      messages (merging tr) = gs.map (fun g =>
        concatenated g.1 (packetsOfFrames ids msgs g.2)) ∧
      (∀ g ∈ gs, g.2 ≠ [] ∧ (g.2.map Prod.fst).Sublist (List.finRange n) ∧
        ∀ x ∈ g.2, x.2 % 255 = g.1) ∧
      ∀ i, (entriesOf i (gs.flatMap Prod.snd)).Sublist (List.range (acceptedOn i tr)) := by
  obtain ⟨ks, hks⟩ := exists_queued hid hmsg htraffic h
  obtain ⟨hne, hmessages⟩ := messages_of_frames hn hid hmsg h hks
  refine ⟨(List.range (rounds (merging tr)).length).map fun r =>
    (roundNumber ids msgs ks r, framesTaken ids msgs ks r), ?_, ?_, ?_⟩
  · rw [hmessages, List.map_map]
    rfl
  · intro g hg
    obtain ⟨r, -, rfl⟩ := List.mem_map.mp hg
    refine ⟨hne r, ?_, fun x hx => framesTaken_number hx⟩
    rw [framesTaken, List.map_map]
    exact (List.map_id _).symm ▸ List.filter_sublist
  · intro i
    have havail := avail_rounds (run_merging h) (frameFeed_extends hks)
    have hle : posAt (frameFeed ids msgs ks) (rounds (merging tr)).length i ≤
        (pushed i (merging tr)).length := havail.position_le i
    rw [(hks i).pushed, List.length_map] at hle
    have hused : entriesOf i (((List.range (rounds (merging tr)).length).map fun r =>
        (roundNumber ids msgs ks r, framesTaken ids msgs ks r)).flatMap Prod.snd) =
        (ks i).take (posAt (frameFeed ids msgs ks) (rounds (merging tr)).length i) := by
      rw [List.flatMap_map]
      refine (entriesOf_rounds (numberAt ks) i _).trans ?_
      apply List.ext_getElem
      · rw [List.length_map, List.length_range, List.length_take]
        exact (min_eq_left hle).symm
      · intro m hm hm'
        rw [List.getElem_map, List.getElem_range, List.getElem_take, numberAt,
          List.getElem?_eq_getElem, Option.getD_some]
    rw [hused]
    exact (List.take_sublist _ _).trans (hks i).sub

/- A frame of the second sender is missing. -/
theorem messages_from_frames_links : ∃ tr s, (system linkId linkMsg linkTraffic).Run tr s ∧
    lostOn 1 tr = 1 ∧ ∃ gs : List (ℕ × List (Fin 2 × ℕ)),
      messages (merging tr) = gs.map (fun g =>
        concatenated g.1 (packetsOfFrames linkId linkMsg g.2)) ∧
      (entriesOf 1 (gs.flatMap Prod.snd)).Sublist (List.range 3) := by
  obtain ⟨tr, s, h, -, -, hsent, -, hlost⟩ := exists_lossy_links
  obtain ⟨gs, hmessages, -, hused⟩ :=
    messages_from_frames (by decide) linkId_length linkMsg_cases linkTraffic_harmless h
  have hone := hused 1
  rw [hsent] at hone
  exact ⟨tr, s, h, hlost, gs, hmessages, hone⟩

/-! ### Nothing is lost -/

/- Everything that was not lost has been pushed. -/
theorem Settled.queued_eq (hs : Settled s) (hid : ∀ i, (ids i).length = 10)
    (hmsg : ∀ i, msgs i = msg1 ∨ msgs i = msg2)
    (htraffic : ∀ i r, traffic i r → Harmless (ids i) r)
    (h : (system ids msgs traffic).Run tr s) (i : Fin n)
    (hl : lostOn i tr = 0) :
    pushed i (merging tr) = (List.range (acceptedOn i tr)).map (packetOf (ids i) (msgs i)) := by
  obtain ⟨arrived, flying, hc⟩ := (run_sound hid hmsg htraffic h).carried i
  have hflying : flying = [] := by
    apply List.map_eq_nil_iff.mp
    rw [← hc.link, hs.link i]
  rw [hl] at hc
  have hwhole := hc.whole
  have hgot := hc.got
  rw [hflying, List.append_nil] at hwhole
  rw [got, hs.pending i, Option.toList_none, List.append_nil, hwhole] at hgot
  exact hgot

/- The packets of all frames of the senders. -/
def sentFeed (ids msgs : Fin n → Bytes) : Fin n → ℕ → FpgaPacket :=
  fun i => packetOf (ids i) (msgs i)

theorem sentFeed_extends {ks : Fin n → List ℕ} (hks : ∀ i, Queued ids msgs tr i (ks i))
    (hl : ∀ i, lostOn i tr = 0) : Extends (sentFeed ids msgs) fun i => pushed i (merging tr) := by
  intro i m p hp
  have hget : ((List.range (ks i).length).map (packetOf (ids i) (msgs i)))[m]? = some p := by
    rw [← (hks i).whole (hl i), ← (hks i).pushed]
    exact hp
  have hlt := (List.getElem?_eq_some_iff.mp hget).1
  rw [List.length_map, List.length_range] at hlt
  rw [List.getElem?_map, List.getElem?_range hlt] at hget
  exact Option.some_inj.mp hget

/- Round `k` takes the `k`-th frame of every sender. -/
theorem sentFeed_round (hn : 0 < n) (ids msgs : Fin n → Bytes) (k : ℕ) :
    (∀ i, posAt (sentFeed ids msgs) k i = k) ∧
    takenAt (sentFeed ids msgs) (posAt (sentFeed ids msgs) k) = List.finRange n ∧
    minAt (sentFeed ids msgs) (posAt (sentFeed ids msgs) k) = ((k % 255 : ℕ) : ℤ) := by
  have hlockstep : posAt (sentFeed ids msgs) k = (fun _ => k) ∧
      takenAt (sentFeed ids msgs) (posAt (sentFeed ids msgs) k) = List.finRange n :=
    posAt_lossless (fun _ _ => rfl) k
  obtain ⟨hpos, htaken⟩ := hlockstep
  refine ⟨congrFun hpos, htaken, ?_⟩
  have hmem : (⟨0, hn⟩ : Fin n) ∈ takenAt (sentFeed ids msgs) (posAt (sentFeed ids msgs) k) := by
    rw [htaken]
    exact List.mem_finRange _
  have hkey := mem_chosen.mp hmem
  rw [hpos] at hkey ⊢
  exact hkey.symm

/- Message `k` joins the `k`-th frames. -/
def joined (ids msgs : Fin n → Bytes) (k : ℕ) : Bytes :=
  concatenated (k % 255 : ℕ) ((List.finRange n).map fun i => packetOf (ids i) (msgs i) k)

theorem messages_of_lossless (hn : 0 < n) (hid : ∀ i, (ids i).length = 10)
    (hmsg : ∀ i, msgs i = msg1 ∨ msgs i = msg2)
    (htraffic : ∀ i r, traffic i r → Harmless (ids i) r) (h : (system ids msgs traffic).Run tr s)
    (hl : ∀ i, lostOn i tr = 0) :
    messages (merging tr) = (List.range (rounds (merging tr)).length).map (joined ids msgs) := by
  obtain ⟨ks, hks⟩ := exists_queued hid hmsg htraffic h
  rw [messages_of_feed hn (run_merging h) (sentFeed_extends hks hl)
    fun i k => packetOf_wellFormed (hid i) (hmsg i) k]
  apply List.map_congr_left
  intro k _
  obtain ⟨hpos, htaken, hmin⟩ := sentFeed_round hn ids msgs k
  rw [hmin, htaken]
  simp only [hpos]
  rfl

theorem rounds_le_of_lossless (hn : 0 < n) (hid : ∀ i, (ids i).length = 10)
    (hmsg : ∀ i, msgs i = msg1 ∨ msgs i = msg2)
    (htraffic : ∀ i r, traffic i r → Harmless (ids i) r) (h : (system ids msgs traffic).Run tr s)
    (hl : ∀ i, lostOn i tr = 0) (i : Fin n) :
    (rounds (merging tr)).length ≤ acceptedOn i tr := by
  obtain ⟨ks, hks⟩ := exists_queued hid hmsg htraffic h
  have hpos : posAt (sentFeed ids msgs) (rounds (merging tr)).length i ≤
      (pushed i (merging tr)).length :=
    (avail_rounds (run_merging h) (sentFeed_extends hks hl)).position_le i
  rw [(sentFeed_round hn ids msgs _).1] at hpos
  exact hpos.trans (pushed_le (run_sound hid hmsg htraffic h) i)

/- The concatinator waits for a sender whose frames it has all used. -/
theorem exists_used_up (hn : 0 < n) (hid : ∀ i, (ids i).length = 10)
    (hmsg : ∀ i, msgs i = msg1 ∨ msgs i = msg2)
    (htraffic : ∀ i r, traffic i r → Harmless (ids i) r) (h : (system ids msgs traffic).Run tr s)
    (hl : ∀ i, lostOn i tr = 0) (hs : Settled s) :
    ∃ i, acceptedOn i tr ≤ (rounds (merging tr)).length := by
  obtain ⟨ks, hks⟩ := exists_queued hid hmsg htraffic h
  have hx := sentFeed_extends hks hl
  obtain ⟨-, i, hi⟩ := within_waiting (Concatinator.run_merging (run_merging h) hx).now hs.waiting
  have hpos := (sentFeed_round hn ids msgs (rounds (merging tr)).length).1 i
  rw [hs.queued_eq hid hmsg htraffic h i (hl i), List.length_map, List.length_range] at hi
  exact ⟨i, hi.trans_eq hpos⟩

/-- Where the receivers ignore the foreign traffic and nothing is lost: the k-th
message joins the k-th frames of all senders, and when nothing is left to do there
is one for every frame that all have sent. -/
theorem lossless_messages (hn : 0 < n) (hid : ∀ i, (ids i).length = 10)
    (hmsg : ∀ i, msgs i = msg1 ∨ msgs i = msg2)
    (htraffic : ∀ i r, traffic i r → Harmless (ids i) r) (h : (system ids msgs traffic).Run tr s)
    (hl : ∀ i, lostOn i tr = 0) :
    messages (merging tr) =
      (List.range (messages (merging tr)).length).map (joined ids msgs) ∧
    (∀ i, (messages (merging tr)).length ≤ acceptedOn i tr) ∧
    (Settled s → IsLeast (Set.range fun i => acceptedOn i tr) (messages (merging tr)).length) := by
  have hmessages := messages_of_lossless hn hid hmsg htraffic h hl
  have hlen : (messages (merging tr)).length = (rounds (merging tr)).length := by
    rw [hmessages, List.length_map, List.length_range]
  have hle := rounds_le_of_lossless hn hid hmsg htraffic h hl
  rw [hlen]
  refine ⟨hmessages, hle, ?_⟩
  intro hs
  constructor
  · obtain ⟨i, hi⟩ := exists_used_up hn hid hmsg htraffic h hl hs
    exact ⟨i, le_antisymm hi (hle i)⟩
  · intro m hm
    obtain ⟨i, rfl⟩ := hm
    exact hle i

/- More frames than a numbering cycle has, and more from one sender than the other. -/
theorem lossless_messages_links : ∃ tr s, (system linkId linkMsg linkTraffic).Run tr s ∧ Settled s ∧
    acceptedOn 0 tr = 300 ∧ acceptedOn 1 tr = 400 ∧ (messages (merging tr)).length = 300 := by
  obtain ⟨tr, s, h, hs, ha, hb, hlost⟩ := exists_settled_links 300 400
  obtain ⟨-, hle, hleast⟩ :=
    lossless_messages (by decide) linkId_length linkMsg_cases linkTraffic_harmless h hlost
  refine ⟨tr, s, h, hs, ha, hb, ?_⟩
  have hle0 := hle 0
  obtain ⟨⟨i, hi⟩, -⟩ := hleast hs
  have hi' : acceptedOn i tr = (messages (merging tr)).length := hi
  match i with
  | 0 => omega
  | 1 => omega

end OSwitch.Main
