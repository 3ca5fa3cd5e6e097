import OSwitch.MainMessages

/-!
# Losses within one numbering cycle

As long as no sender has sent more than 255 frames, the number of a frame tells
which frame it is. A frame that is lost then is missing in the message with its
number and nowhere else.
-/

namespace OSwitch.Main
open Trace Wire StdText StreamMerge SenderSocket ReceiverSocket Concatinator

variable {n : ℕ} {ids msgs : Fin n → Bytes} {traffic : Fin n → Recv → Prop}
  {tr : List (Event n)} {s : State n}

/- Some queue has received frame `k`, and every queue this frame or a later one. -/
def Sendable (ks : Fin n → List ℕ) (k : ℕ) : Prop := (∃ i, k ∈ ks i) ∧ ∀ j, ∃ k' ∈ ks j, k ≤ k'

instance (ks : Fin n → List ℕ) (k : ℕ) : Decidable (Sendable ks k) :=
  inferInstanceAs (Decidable (_ ∧ _))

/- The senders whose frame `k` has been received. -/
def receivedFrom (ks : Fin n → List ℕ) (k : ℕ) : List (Fin n) :=
  (List.finRange n).filter fun i => k ∈ ks i

/-! ### Packets of one cycle -/

/- The numbers of frames of the first cycle, in increasing order. -/
structure OneCycle (ks : List ℕ) : Prop where
  increasing : ks.Pairwise (· < ·)
  below : ∀ k ∈ ks, k < 255

theorem oneCycle_of_sublist {ks : List ℕ} {m : ℕ} (h : ks.Sublist (List.range m)) (hm : m ≤ 255) :
    OneCycle ks where
  increasing := List.pairwise_lt_range.sublist h
  below _ hk := (List.mem_range.mp (h.subset hk)).trans_le hm

theorem packetOf_number {senderId msg : Bytes} {k : ℕ} (hk : k < 255) :
    (packetOf senderId msg k).frameNumber = k := by
  rw [packetOf, Nat.mod_eq_of_lt hk]

/- The last frame has the largest number. -/
theorem le_getLast {ks : List ℕ} (h : OneCycle ks) (hne : ks ≠ []) {k : ℕ} (hk : k ∈ ks) :
    k ≤ ks.getLast hne := by
  have hsplit := List.dropLast_append_getLast hne
  have hincreasing := h.increasing
  rw [← hsplit] at hincreasing hk
  rcases List.mem_append.mp hk with hk | hk
  · exact ((List.pairwise_append.mp hincreasing).2.2 k hk _ (List.mem_singleton.mpr rfl)).le
  · exact (List.mem_singleton.mp hk).le

section packets
variable {ks : Fin n → List ℕ} (hks : ∀ i, OneCycle (ks i))
include hks

theorem sortedBy_packets (i : Fin n) :
    SortedBy FpgaPacket.frameNumber ((ks i).map (packetOf (ids i) (msgs i))) := by
  apply List.pairwise_map.mpr
  apply (hks i).increasing.imp_of_mem
  intro a b ha hb hab
  rw [packetOf_number ((hks i).below a ha), packetOf_number ((hks i).below b hb)]
  exact Int.ofNat_lt.mpr hab

theorem filter_packets (i : Fin n) (k : ℕ) :
    ((ks i).map (packetOf (ids i) (msgs i))).filter (fun p => p.frameNumber = (k : ℤ)) =
      if k ∈ ks i then [packetOf (ids i) (msgs i) k] else [] := by
  by_cases hk : k ∈ ks i
  · have hmem := List.mem_map_of_mem (f := packetOf (ids i) (msgs i)) hk
    have hone := (sortedBy_packets hks i).filter_eq_singleton hmem
    rw [packetOf_number ((hks i).below k hk)] at hone
    rw [if_pos hk]
    exact hone
  · rw [if_neg hk]
    apply List.filter_eq_nil_iff.mpr
    intro p hp
    obtain ⟨k', hk', rfl⟩ := List.mem_map.mp hp
    rw [packetOf_number ((hks i).below k' hk')]
    simp only [decide_eq_true_eq, Nat.cast_inj]
    rintro rfl
    exact hk hk'

/- The packets with number `k` are those of the `k`-th frames. -/
theorem group_packets (k : ℕ) :
    group FpgaPacket.frameNumber (fun i => (ks i).map (packetOf (ids i) (msgs i))) k =
      (receivedFrom ks k).map fun i => packetOf (ids i) (msgs i) k := by
  unfold group receivedFrom
  simp only [filter_packets hks]
  exact flatMap_ite_singleton _ _ _

/- What the queues have received reaches as far as the least of the last frames. -/
theorem le_least_iff {M : ℤ} (hne : ∀ i, ks i ≠ [])
    (hM : IsLeast (lastKeys FpgaPacket.frameNumber
      fun i => (ks i).map (packetOf (ids i) (msgs i))) M) (k : ℕ) :
    (k : ℤ) ≤ M ↔ ∀ j, ∃ k' ∈ ks j, k ≤ k' := by
  have hlast : ∀ j, ((ks j).getLast (hne j) : ℤ) ∈ lastKeys FpgaPacket.frameNumber
      fun i => (ks i).map (packetOf (ids i) (msgs i)) := by
    intro j
    refine ⟨j, packetOf (ids j) (msgs j) ((ks j).getLast (hne j)), ?_, ?_⟩
    · rw [List.getLast?_map, List.getLast?_eq_getLast_of_ne_nil (hne j)]
      rfl
    · exact packetOf_number ((hks j).below _ (List.getLast_mem _))
  constructor
  · intro hk j
    have hle := hM.2 (hlast j)
    exact ⟨_, List.getLast_mem (hne j), by omega⟩
  · intro hk
    obtain ⟨j, p, hp, hpM⟩ := hM.1
    rw [List.getLast?_map, List.getLast?_eq_getLast_of_ne_nil (hne j)] at hp
    cases hp
    rw [packetOf_number ((hks j).below _ (List.getLast_mem _))] at hpM
    obtain ⟨k', hk', hle⟩ := hk j
    have hlargest := le_getLast (hks j) (hne j) hk'
    omega

/- The numbers of the messages, from what the queues have received. -/
theorem sendable_of_keysUpTo {M : ℤ} {fs : List ℤ} (hne : ∀ i, ks i ≠ [])
    (hM : IsLeast (lastKeys FpgaPacket.frameNumber
      fun i => (ks i).map (packetOf (ids i) (msgs i))) M)
    (hfs : KeysUpTo FpgaPacket.frameNumber
      (fun i => (ks i).map (packetOf (ids i) (msgs i))) M fs) :
    fs = ((List.range 255).filter (Sendable ks)).map Nat.cast := by
  apply hfs.increasing.eq_of_mem_iff
  · apply List.pairwise_map.mpr
    apply (List.pairwise_lt_range.sublist List.filter_sublist).imp
    intro a b hab
    exact Int.ofNat_lt.mpr hab
  · intro f
    rw [hfs.mem_iff]
    constructor
    · intro hf
      obtain ⟨hle, i, p, hp, rfl⟩ := hf
      obtain ⟨k, hk, rfl⟩ := List.mem_map.mp hp
      have hk255 := (hks i).below k hk
      rw [packetOf_number hk255] at hle ⊢
      refine List.mem_map.mpr ⟨k, List.mem_filter.mpr ⟨List.mem_range.mpr hk255, ?_⟩, rfl⟩
      exact decide_eq_true ⟨⟨i, hk⟩, (le_least_iff hks hne hM k).mp hle⟩
    · intro hf
      obtain ⟨k, hk, rfl⟩ := List.mem_map.mp hf
      obtain ⟨hk255, hsend⟩ := List.mem_filter.mp hk
      obtain ⟨⟨i, hi⟩, hall⟩ := of_decide_eq_true hsend
      refine ⟨(le_least_iff hks hne hM k).mpr hall, i, _, List.mem_map_of_mem hi, ?_⟩
      exact packetOf_number ((hks i).below k hi)

end packets

/-! ### Messages of one cycle -/

/- Nothing is sent while a queue has received nothing. -/
theorem rounds_of_empty {m : List (Concatinator.Event n)} {c : Concatinator.State n}
    (h : Concatinator.system.Run m c) {j : Fin n} (hj : pushed j m = []) : rounds m = [] := by
  have hx := streamOf_extends (fun _ _ => ⟨[], 0, []⟩) fun i => pushed i m
  have havail := avail_rounds h hx
  by_contra hne
  have hfirst := havail 0 (List.length_pos_iff.mpr hne) j
  have hlen : (pushed j m).length = 0 := List.length_eq_zero_iff.mpr hj
  exact absurd (hfirst.trans_eq hlen) (Nat.not_lt_zero _)

theorem messages_of_settled (hn : 0 < n) (hid : ∀ i, (ids i).length = 10)
    (hmsg : ∀ i, msgs i = msg1 ∨ msgs i = msg2) {m : List (Concatinator.Event n)}
    {c : Concatinator.State n} (h : Concatinator.system.Run m c) (hwait : c.next = none)
    {ks : Fin n → List ℕ} (hks : ∀ i, OneCycle (ks i))
    (hpushed : (fun i => pushed i m) = fun i => (ks i).map (packetOf (ids i) (msgs i))) :
    messages m = ((List.range 255).filter (Sendable ks)).map fun k : ℕ =>
      concatenated k ((receivedFrom ks k).map fun i => packetOf (ids i) (msgs i) k) := by
  have hqueue : ∀ i, pushed i m = (ks i).map (packetOf (ids i) (msgs i)) := congrFun hpushed
  by_cases hne : ∀ i, ks i ≠ []
  · have hwell : ∀ i, ∀ p ∈ pushed i m, WellFormed p := by
      intro i p hp
      rw [hqueue] at hp
      obtain ⟨k, -, rfl⟩ := List.mem_map.mp hp
      exact packetOf_wellFormed (hid i) (hmsg i) k
    have hshape := fun i p hp => wellFormed_shape (hwell i p hp)
    have hsorted : ∀ i, SortedBy FpgaPacket.frameNumber (pushed i m) := by
      intro i
      rw [hqueue]
      exact sortedBy_packets hks i
    have hsome : ∀ i, pushed i m ≠ [] := by
      intro i
      rw [hqueue]
      simpa using hne i
    have hx := streamOf_extends (fun _ _ => ⟨[], 0, []⟩) fun i => pushed i m
    obtain ⟨-, j, hj⟩ := within_waiting (Concatinator.run_merging h hx).now hwait
    obtain ⟨M, hM, hfs, -⟩ := grouping_of_used_up
      (begins_pushed hx fun i p hp => (hshape i p hp).1) hsorted (avail_rounds h hx) hn hsome hj
    rw [messages_grouped hn h hx hshape hsorted]
    rw [hpushed] at hM hfs ⊢
    rw [sendable_of_keysUpTo hks hne hM hfs, List.map_map]
    apply List.map_congr_left
    intro k _
    exact congrArg (concatenated k) (group_packets hks k)
  · obtain ⟨j, hj⟩ := not_forall.mp hne
    have hempty : ks j = [] := not_not.mp hj
    have hnothing : pushed j m = [] := by
      rw [hqueue, hempty]
      rfl
    have hnone : (List.range 255).filter (Sendable ks) = [] := by
      apply List.filter_eq_nil_iff.mpr
      intro k _ hk
      obtain ⟨k', hk', -⟩ := (of_decide_eq_true hk).2 j
      rw [hempty] at hk'
      cases hk'
    rw [messages_eq, rounds_of_empty h hnothing, hnone]
    rfl

/-- Where the receivers ignore the foreign traffic: when nothing is left to do and no
sender has begun its second numbering cycle, there is one message for every number
that some queue has received and that no queue has still to receive, in increasing
order, and it joins all frames with this number that were received. -/
theorem messages_within_cycle (hn : 0 < n) (hid : ∀ i, (ids i).length = 10)
    (hmsg : ∀ i, msgs i = msg1 ∨ msgs i = msg2)
    (htraffic : ∀ i r, traffic i r → Harmless (ids i) r) (h : (system ids msgs traffic).Run tr s)
    (hs : Settled s) (hcycle : ∀ i, acceptedOn i tr ≤ 255) :
    ∃ ks : Fin n → List ℕ,
      (∀ i, (ks i).Sublist (List.range (acceptedOn i tr)) ∧
        (ks i).length + lostOn i tr = acceptedOn i tr) ∧
      (∀ i, pushed i (merging tr) = (ks i).map (packetOf (ids i) (msgs i))) ∧
      messages (merging tr) = ((List.range 255).filter (Sendable ks)).map fun k : ℕ =>
        concatenated k ((receivedFrom ks k).map fun i => packetOf (ids i) (msgs i) k) := by
  obtain ⟨ks, hqueued⟩ := exists_queued hid hmsg htraffic h
  have hks : ∀ i, OneCycle (ks i) := fun i => oneCycle_of_sublist (hqueued i).sub (hcycle i)
  refine ⟨ks, ?_, fun i => (hqueued i).pushed, ?_⟩
  · intro i
    have hcount := (hqueued i).count (run_sound hid hmsg htraffic h)
    rw [hs.pending i, hs.link i, Option.toList_none] at hcount
    exact ⟨(hqueued i).sub, hcount⟩
  · have hpushed : (fun i => pushed i (merging tr)) =
        fun i => (ks i).map (packetOf (ids i) (msgs i)) := funext fun i => (hqueued i).pushed
    exact messages_of_settled hn hid hmsg (run_merging h) hs.waiting hks hpushed

/- The second sender has lost its first frame. -/
theorem messages_within_cycle_links : ∃ tr s, (system linkId linkMsg linkTraffic).Run tr s ∧
    Settled s ∧ lostOn 1 tr = 1 ∧ ∃ ks : Fin 2 → List ℕ, (ks 0).length = 3 ∧ (ks 1).length = 2 ∧
      messages (merging tr) = ((List.range 255).filter (Sendable ks)).map fun k : ℕ =>
        concatenated k ((receivedFrom ks k).map fun i => packetOf (linkId i) (linkMsg i) k) := by
  obtain ⟨tr, s, h, hs, ha, hb, hlost, hlost'⟩ := exists_lossy_links
  have hcycle : ∀ i, acceptedOn i tr ≤ 255 := by
    intro i
    match i with
    | 0 => omega
    | 1 => omega
  obtain ⟨ks, hks, -, hmessages⟩ :=
    messages_within_cycle (by decide) linkId_length linkMsg_cases linkTraffic_harmless h hs hcycle
  have hfirst := (hks 0).2
  have hsecond := (hks 1).2
  exact ⟨tr, s, h, hs, hlost', ks, by omega, by omega, hmessages⟩

end OSwitch.Main
