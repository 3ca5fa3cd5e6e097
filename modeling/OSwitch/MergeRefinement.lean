import OSwitch.Concatinator
import OSwitch.Lib.StreamMerge

/-!
# The loop merges its queues round by round

What the receivers push into a queue, now and later, is a stream. Relative to
such streams the loop of the concatinator has no inputs left: whatever the
interleaving, its completed rounds are the first rounds of the merge by least
frame number, and it stands somewhere in the next one.
-/

namespace OSwitch.Concatinator
open Wire StdText StreamMerge

variable {n : ℕ}

/-! ### The rounds of the merge -/

/- 256 is the sentinel of the search. -/
abbrev posAt (feed : Fin n → ℕ → FpgaPacket) (r : ℕ) : Fin n → ℕ :=
  position FpgaPacket.frameNumber 256 feed r

abbrev minAt (feed : Fin n → ℕ → FpgaPacket) (pos : Fin n → ℕ) : ℤ :=
  least FpgaPacket.frameNumber 256 feed pos

abbrev takenAt (feed : Fin n → ℕ → FpgaPacket) (pos : Fin n → ℕ) : List (Fin n) :=
  chosen FpgaPacket.frameNumber 256 feed pos

abbrev ServedAt (feed : Fin n → ℕ → FpgaPacket) (r : ℕ) (i : Fin n) : Prop :=
  Served FpgaPacket.frameNumber 256 feed r i

/- The packets at the fronts of these queues. -/
def front (feed : Fin n → ℕ → FpgaPacket) (pos : Fin n → ℕ) (is : List (Fin n)) :
    List (Fin n × FpgaPacket) := is.map fun i => (i, feed i (pos i))

def idsOf (ps : List (Fin n × FpgaPacket)) : Bytes := ps.flatMap fun x => x.2.sourceId
def dataOf (ps : List (Fin n × FpgaPacket)) : Bytes := ps.flatMap fun x => x.2.data

def messageOf (minFrameNumber : ℤ) (ps : List (Fin n × FpgaPacket)) : Option Bytes :=
  if dataOf ps ≠ [] ∧ idsOf ps ≠ [] then
    some (wireText (idsOf ps) (frameText minFrameNumber) (dataOf ps))
  else none

def mergeRound (feed : Fin n → ℕ → FpgaPacket) (pos : Fin n → ℕ) : Round n where
  searched := front feed pos (List.finRange n)
  popped := front feed pos (takenAt feed pos)
  message := messageOf (minAt feed pos) (front feed pos (takenAt feed pos))

theorem front_snoc (feed : Fin n → ℕ → FpgaPacket) (pos : Fin n → ℕ) (is : List (Fin n))
    (i : Fin n) : front feed pos (is ++ [i]) = front feed pos is ++ [(i, feed i (pos i))] := by
  simp [front]

theorem idsOf_snoc (ps : List (Fin n × FpgaPacket)) (x : Fin n × FpgaPacket) :
    idsOf (ps ++ [x]) = idsOf ps ++ x.2.sourceId := by simp [idsOf]

theorem dataOf_snoc (ps : List (Fin n × FpgaPacket)) (x : Fin n × FpgaPacket) :
    dataOf (ps ++ [x]) = dataOf ps ++ x.2.data := by simp [dataOf]

/-! ### Where the loop stands -/

/- `fed i` is what was pushed into queue `i`; it holds what comes after `pos i`. -/
def QueuesAt (fed : Fin n → List FpgaPacket) (s : State n) (pos : Fin n → ℕ) : Prop :=
  ∀ i, pos i ≤ (fed i).length ∧ s.queues i = (fed i).drop (pos i)

/- In the search for the least frame number, the first `k` queues done. -/
structure Searching (feed : Fin n → ℕ → FpgaPacket) (pos : Fin n → ℕ)
    (fed : Fin n → List FpgaPacket) (s : State n) (l : Log n) (k : ℕ) : Prop where
  le : k ≤ n
  queues : QueuesAt fed s pos
  avail : ∀ i : Fin n, i.val < k → pos i < (fed i).length
  searched : l.searched = front feed pos (firstStreams n k)
  popped : l.popped = []
  min : s.minFrameNumber =
    minKey FpgaPacket.frameNumber 256 ((firstStreams n k).map fun i => feed i (pos i))
  ids : s.packetSrcIds = []
  data : s.dataS = []
  stream : s.frameNumberStringStream.contents = []

/- In the second pass: packets popped from the first `k` queues, collected from
the first `j`. -/
structure Comparing (feed : Fin n → ℕ → FpgaPacket) (pos : Fin n → ℕ)
    (fed : Fin n → List FpgaPacket) (s : State n) (l : Log n) (k j : ℕ) : Prop where
  le : k ≤ n
  queues : QueuesAt fed s (advanceUpTo FpgaPacket.frameNumber 256 feed k pos)
  avail : ∀ i, pos i < (fed i).length
  searched : l.searched = front feed pos (List.finRange n)
  popped : l.popped = front feed pos (chosenAmong FpgaPacket.frameNumber 256 feed k pos)
  min : s.minFrameNumber = minAt feed pos
  ids : s.packetSrcIds =
    idsOf (front feed pos (chosenAmong FpgaPacket.frameNumber 256 feed j pos))
  data : s.dataS = dataOf (front feed pos (chosenAmong FpgaPacket.frameNumber 256 feed j pos))
  stream : s.frameNumberStringStream.contents = frameText (minAt feed pos)

def Within (feed : Fin n → ℕ → FpgaPacket) (pos : Fin n → ℕ) (fed : Fin n → List FpgaPacket)
    (s : State n) (l : Log n) : Prop :=
  match s.pc with
  | .reset => QueuesAt fed s pos ∧ l.searched = [] ∧ l.popped = []
  | .search k => Searching feed pos fed s l k
  | .compare k => Comparing feed pos fed s l k k
  | .pop i => Comparing feed pos fed s l i (i + 1) ∧ i ∈ takenAt feed pos
  | .send => Comparing feed pos fed s l n n

/- The stream begins with what was pushed. -/
def Extends (feed : Fin n → ℕ → FpgaPacket) (fed : Fin n → List FpgaPacket) : Prop :=
  ∀ i k p, (fed i)[k]? = some p → feed i k = p

structure Merging (feed : Fin n → ℕ → FpgaPacket) (fed : Fin n → List FpgaPacket) (s : State n)
    (l : Log n) : Prop where
  done : l.done = (List.range l.done.length).map fun r => mergeRound feed (posAt feed r)
  past : ∀ r < l.done.length, ∀ i, posAt feed r i < (fed i).length
  now : Within feed (posAt feed l.done.length) fed s l

/-! ### The receivers' steps -/

section push
variable {feed : Fin n → ℕ → FpgaPacket} {pos : Fin n → ℕ} {fed : Fin n → List FpgaPacket}
  {s : State n} {l : Log n}

def feedOne (fed : Fin n → List FpgaPacket) (i : Fin n) (p : FpgaPacket) :
    Fin n → List FpgaPacket := Function.update fed i (fed i ++ [p])

theorem length_le_feedOne (fed : Fin n → List FpgaPacket) (i : Fin n) (p : FpgaPacket) (j : Fin n) :
    (fed j).length ≤ (feedOne fed i p j).length := by
  unfold feedOne
  by_cases hj : j = i
  · subst hj
    rw [Function.update_self, List.length_append]
    omega
  · rw [Function.update_of_ne hj]

theorem queuesAt_push (h : QueuesAt fed s pos) (i : Fin n) (p : FpgaPacket) :
    QueuesAt (feedOne fed i p) (s.push i p) pos := by
  intro j
  obtain ⟨hle, hq⟩ := h j
  refine ⟨hle.trans (length_le_feedOne fed i p j), ?_⟩
  change Function.update s.queues i (s.queues i ++ [p]) j = _
  unfold feedOne
  by_cases hj : j = i
  · subst hj
    rw [Function.update_self, Function.update_self, List.drop_append_of_le_length hle, hq]
  · rw [Function.update_of_ne hj, Function.update_of_ne hj, hq]

theorem comparing_push {k j : ℕ} (h : Comparing feed pos fed s l k j) (i : Fin n)
    (p : FpgaPacket) : Comparing feed pos (feedOne fed i p) (s.push i p) l k j :=
  { h with
    queues := queuesAt_push h.queues i p
    avail := fun i' => (h.avail i').trans_le (length_le_feedOne fed i p i') }

/- A push between any two steps of the thread changes nothing that it will see. -/
theorem within_push (h : Within feed pos fed s l) (i : Fin n) (p : FpgaPacket) :
    Within feed pos (feedOne fed i p) (s.push i p) l := by
  unfold Within at h ⊢
  rw [show (s.push i p).pc = s.pc from rfl]
  cases hpc : s.pc with
  | reset =>
    rw [hpc] at h
    exact ⟨queuesAt_push h.1 i p, h.2⟩
  | search k =>
    rw [hpc] at h
    exact { h with
      queues := queuesAt_push h.queues i p
      avail := fun i' hi' => (h.avail i' hi').trans_le (length_le_feedOne fed i p i') }
  | compare k =>
    rw [hpc] at h
    exact comparing_push h i p
  | pop j =>
    rw [hpc] at h
    exact ⟨comparing_push h.1 i p, h.2⟩
  | send =>
    rw [hpc] at h
    exact comparing_push h i p

theorem merging_push (h : Merging feed fed s l) (i : Fin n) (p : FpgaPacket) :
    Merging feed (feedOne fed i p) (s.push i p) l where
  done := h.done
  past r hr i' := (h.past r hr i').trans_le (length_le_feedOne fed i p i')
  now := within_push h.now i p

end push

/-! ### The thread's steps -/

section act
variable {feed : Fin n → ℕ → FpgaPacket} {pos : Fin n → ℕ} {fed : Fin n → List FpgaPacket}
  {s : State n} {l : Log n}

/- What `front` returns is the packet of the stream at the queue's position. -/
theorem eq_of_head (hq : QueuesAt fed s pos) (hx : Extends feed fed) {i : Fin n} {p : FpgaPacket}
    (h : (s.queues i).head? = some p) : pos i < (fed i).length ∧ feed i (pos i) = p := by
  rw [(hq i).2, List.head?_drop] at h
  exact ⟨(List.getElem?_eq_some_iff.mp h).1, hx i (pos i) p h⟩

theorem queuesAt_pop (hq : QueuesAt fed s pos) {i : Fin n} {p : FpgaPacket}
    {rest : List FpgaPacket} (h : s.queues i = p :: rest) :
    QueuesAt fed (s.pop i rest) (Function.update pos i (pos i + 1)) := by
  intro j
  change _ ∧ Function.update s.queues i rest j = _
  by_cases hj : j = i
  · subst hj
    rw [Function.update_self, Function.update_self]
    have hdrop : (fed j).drop (pos j) = p :: rest := (hq j).2.symm.trans h
    have hlen := congrArg List.length hdrop
    rw [List.length_drop, List.length_cons] at hlen
    refine ⟨by omega, ?_⟩
    rw [← List.tail_drop, hdrop]
    rfl
  · rw [Function.update_of_ne hj, Function.update_of_ne hj]
    exact hq j

theorem within_reset (h : Within feed pos fed s l) (hpc : s.pc = .reset) :
    Within feed pos fed s.reset l := by
  rw [Within, hpc] at h
  obtain ⟨hq, hs, hp⟩ := h
  exact
    { le := Nat.zero_le n
      queues := hq
      avail := fun i hi => absurd hi (Nat.not_lt_zero _)
      searched := hs
      popped := hp
      min := rfl
      ids := rfl
      data := rfl
      stream := rfl }

theorem within_search (hx : Extends feed fed) (h : Within feed pos fed s l) {i : Fin n}
    {p : FpgaPacket} (hpc : s.pc = .search i.val) (hp : (s.queues i).head? = some p) :
    Within feed pos fed (s.search i p) (l.add (.searched i p)) := by
  rw [Within, hpc] at h
  obtain ⟨hlt, rfl⟩ := eq_of_head h.queues hx hp
  exact
    { le := i.isLt
      queues := h.queues
      avail := by
        intro j hj
        rcases Nat.lt_succ_iff_lt_or_eq.mp hj with hj | hj
        · exact h.avail j hj
        · rw [Fin.ext hj]
          exact hlt
      searched := by
        rw [firstStreams_succ, front_snoc, ← h.searched]
        rfl
      popped := h.popped
      min := by
        rw [firstStreams_succ, List.map_append, List.map_singleton, minKey_snoc, ← h.min]
        rfl
      ids := h.ids
      data := h.data
      stream := h.stream }

theorem within_format (h : Within feed pos fed s l) {k : ℕ} (hpc : s.pc = .search k)
    (hk : n ≤ k) : Within feed pos fed s.format l := by
  rw [Within, hpc] at h
  have hmin : s.minFrameNumber = minAt feed pos := by
    rw [h.min, firstStreams_all hk]
    rfl
  exact
    { le := Nat.zero_le n
      queues := by
        rw [advanceUpTo_zero]
        exact h.queues
      avail := fun i => h.avail i (i.isLt.trans_le hk)
      searched := by
        rw [h.searched, firstStreams_all hk]
      popped := h.popped
      min := hmin
      ids := h.ids
      data := h.data
      stream := by
        rw [← hmin]
        exact putFrameNumber_contents _ _ h.stream }

/- The front that is compared is still the one that was searched. -/
theorem within_compare (hx : Extends feed fed) (h : Within feed pos fed s l) {i : Fin n}
    {p : FpgaPacket} (hpc : s.pc = .compare i.val) (hp : (s.queues i).head? = some p) :
    Within feed pos fed (s.compare i p) l := by
  rw [Within, hpc] at h
  obtain ⟨-, rfl⟩ := eq_of_head h.queues hx hp
  rw [advanceUpTo_self]
  unfold State.compare
  split
  next heq =>
    have hi : i ∈ takenAt feed pos := mem_chosen.mpr (heq.trans h.min)
    refine ⟨?_, hi⟩
    exact { h with
      ids := by rw [chosenAmong_succ hi, front_snoc, idsOf_snoc, ← h.ids]
      data := by rw [chosenAmong_succ hi, front_snoc, dataOf_snoc, ← h.data] }
  next hne =>
    have hi : i ∉ takenAt feed pos := fun hi => hne ((mem_chosen.mp hi).trans h.min.symm)
    exact { h with
      le := i.isLt
      queues := by
        rw [advanceUpTo_skip hi]
        exact h.queues
      popped := by rw [chosenAmong_skip hi, ← h.popped]
      ids := by rw [chosenAmong_skip hi, ← h.ids]
      data := by rw [chosenAmong_skip hi, ← h.data] }

theorem within_pop (hx : Extends feed fed) (h : Within feed pos fed s l) {i : Fin n}
    {p : FpgaPacket} {rest : List FpgaPacket} (hpc : s.pc = .pop i)
    (hq : s.queues i = p :: rest) : Within feed pos fed (s.pop i rest) (l.add (.popped i p)) := by
  rw [Within, hpc] at h
  obtain ⟨hc, hi⟩ := h
  have hhead : (s.queues i).head? = some p := by
    rw [hq]
    rfl
  obtain ⟨-, rfl⟩ := eq_of_head hc.queues hx hhead
  have hqueues := queuesAt_pop hc.queues hq
  rw [advanceUpTo_self] at hqueues ⊢
  exact { hc with
    le := i.isLt
    queues := by
      rw [advanceUpTo_succ hi]
      exact hqueues
    popped := by
      rw [chosenAmong_succ hi, front_snoc, ← hc.popped]
      rfl }

theorem within_finish (h : Within feed pos fed s l) {k : ℕ} (hpc : s.pc = .compare k)
    (hk : n ≤ k) : Within feed pos fed s.finish l := by
  rw [Within, hpc] at h
  obtain rfl : k = n := le_antisymm h.le hk
  exact { h with }

/- The guard of the send is a test on the packets that were taken. -/
theorem add_send (h : Comparing feed pos fed s l n n) :
    l.add s.send.1 = { done := l.done ++ [mergeRound feed pos] } := by
  have hids := h.ids
  have hdata := h.data
  rw [chosenAmong_all le_rfl] at hids hdata
  have hround : mergeRound feed pos = ⟨l.searched, l.popped,
      messageOf (minAt feed pos) (front feed pos (takenAt feed pos))⟩ := by
    rw [h.searched, h.popped, chosenAmong_all le_rfl]
    rfl
  rw [hround]
  unfold State.send messageOf
  rw [hids, hdata]
  split
  · rw [← hids, ← hdata, ← h.stream]
    rfl
  · rfl

theorem merging_send (h : Merging feed fed s l) (hpc : s.pc = .send) :
    Merging feed fed s.send.2 (l.add s.send.1) := by
  have hnow := h.now
  rw [Within, hpc] at hnow
  have hpc' : s.send.2.pc = .reset := by
    unfold State.send
    split <;> rfl
  have hqueues : QueuesAt fed s.send.2 (posAt feed (l.done.length + 1)) := by
    have hq := hnow.queues
    rw [advanceUpTo_all le_rfl] at hq
    intro i
    rw [send_queues]
    exact hq i
  rw [add_send hnow]
  constructor
  · simp only [List.length_append, List.length_singleton, List.range_succ, List.map_append,
      List.map_singleton]
    rw [← h.done]
  · intro r hr i
    simp only [List.length_append, List.length_singleton] at hr
    rcases Nat.lt_succ_iff_lt_or_eq.mp hr with hr | rfl
    · exact h.past r hr i
    · exact hnow.avail i
  · simp only [List.length_append, List.length_singleton]
    rw [Within, hpc']
    exact ⟨hqueues, rfl, rfl⟩

theorem merging_within {s' : State n} {l' : Log n} (h : Merging feed fed s l)
    (hd : l'.done = l.done) (hw : Within feed (posAt feed l.done.length) fed s' l') :
    Merging feed fed s' l' where
  done := by
    rw [hd]
    exact h.done
  past := by
    rw [hd]
    exact h.past
  now := by
    rw [hd]
    exact hw

theorem merging_act (hx : Extends feed fed) (h : Merging feed fed s l) {s' : State n}
    {e : Event n} (ha : Act s e s') : Merging feed fed s' (l.add e) := by
  cases ha with
  | reset hpc => exact merging_within h rfl (within_reset h.now hpc)
  | search hpc hp => exact merging_within h rfl (within_search hx h.now hpc hp)
  | format hpc hk => exact merging_within h rfl (within_format h.now hpc hk)
  | compare hpc hp => exact merging_within h rfl (within_compare hx h.now hpc hp)
  | finish hpc hk => exact merging_within h rfl (within_finish h.now hpc hk)
  | pop hpc hq => exact merging_within h rfl (within_pop hx h.now hpc hq)
  | send hpc => exact merging_send h hpc

end act

/-! ### Runs -/

theorem extends_initial {feed : Fin n → ℕ → FpgaPacket} {fed fed' : Fin n → List FpgaPacket}
    (h : Extends feed fed') (hp : ∀ i, fed i <+: fed' i) : Extends feed fed := by
  intro i k p hk
  obtain ⟨rest, hrest⟩ := hp i
  apply h i k p
  rw [← hrest, List.getElem?_append_left (List.getElem?_eq_some_iff.mp hk).1]
  exact hk

/-- Relative to streams that begin with what was pushed, every run is the merge
of the streams, up to some point of some round. -/
theorem run_merging {feed : Fin n → ℕ → FpgaPacket} {tr : List (Event n)} {s : State n}
    (h : system.Run tr s) (hx : Extends feed fun i => pushed i tr) :
    Merging feed (fun i => pushed i tr) s (log tr) := by
  induction h with
  | init hs =>
    have hstart : _ = start := hs
    subst hstart
    refine ⟨rfl, fun r hr => absurd hr (Nat.not_lt_zero r), ?_, rfl, rfl⟩
    intro i
    exact ⟨Nat.zero_le _, rfl⟩
  | @snoc tr s e s' _ he ih =>
    have hx' : Extends feed fun i => pushed i tr := extends_initial hx fun i => pushed_grows i tr e
    have hih := ih hx'
    rw [log_snoc]
    cases he with
    | push i p =>
      have hfed : (fun j => pushed j (tr ++ [.push i p])) =
          feedOne (fun j => pushed j tr) i p := by
        funext j
        rw [pushed_append, pushed_push, feedOne]
        by_cases hj : j = i
        · subst hj
          rw [if_pos rfl, Function.update_self]
        · rw [if_neg (Ne.symm hj), Function.update_of_ne hj, List.append_nil]
      rw [hfed]
      exact merging_push hih i p
    | thread hn =>
      have ha := act_of_next hn
      have hfed : (fun j => pushed j (tr ++ [e])) = fun j => pushed j tr := by
        funext j
        rw [pushed_append, pushed_act ha, List.append_nil]
      rw [hfed]
      exact merging_act hx' hih ha

/- The streams that hold what was pushed, followed by `later`. -/
def streamOf (later : Fin n → ℕ → FpgaPacket) (fed : Fin n → List FpgaPacket) :
    Fin n → ℕ → FpgaPacket := fun i k => (fed i)[k]?.getD (later i k)

theorem streamOf_extends (later : Fin n → ℕ → FpgaPacket) (fed : Fin n → List FpgaPacket) :
    Extends (streamOf later fed) fed := by
  intro i k p hk
  rw [streamOf, hk]
  rfl

/-- The completed rounds of a run, one after the other. -/
theorem rounds_eq {feed : Fin n → ℕ → FpgaPacket} {tr : List (Event n)} {s : State n}
    (h : system.Run tr s) (hx : Extends feed fun i => pushed i tr) :
    rounds tr = (List.range (rounds tr).length).map fun r => mergeRound feed (posAt feed r) :=
  (run_merging h hx).done

end OSwitch.Concatinator
