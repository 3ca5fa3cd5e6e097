import OSwitch.Lib.ListMerge
import OSwitch.MessageDecoding

/-!
# The merge of what is queued

Without further pushes the thread comes to wait for a queue that it has
emptied. If the frame numbers increase in every queue, as they do within one
numbering cycle, it has by then sent the packets grouped by frame number.
-/

namespace OSwitch.Concatinator
open Trace Wire StdText StreamMerge

variable {n : ℕ}

section run
variable {feed : Fin n → ℕ → FpgaPacket} {tr : List (Event n)} {s : State n}

theorem avail_rounds (h : system.Run tr s) (hx : Extends feed fun i => pushed i tr) :
    Avail FpgaPacket.frameNumber 256 feed (fun i => pushed i tr) (rounds tr).length :=
  (run_merging h hx).past

theorem begins_pushed (hx : Extends feed fun i => pushed i tr)
    (hp : ∀ i, ∀ p ∈ pushed i tr, p.frameNumber ≤ 255) :
    Begins FpgaPacket.frameNumber 256 feed fun i => pushed i tr where
  get := hx
  below i p hi := Int.lt_add_one_of_le (hp i p hi)

/-! ### The thread comes to wait -/

theorem rounds_le_pushed (hn : 0 < n) (h : system.Run tr s)
    (hp : ∀ i, ∀ p ∈ pushed i tr, p.frameNumber ≤ 255) :
    (rounds tr).length ≤ ∑ i, (pushed i tr).length := by
  have hx := streamOf_extends (fun _ _ => ⟨[], 0, []⟩) fun i => pushed i tr
  exact (begins_pushed hx hp).rounds_le hn (avail_rounds h hx)

theorem remaining_le (s : State n) : remaining s ≤ 3 * n + 4 := by
  unfold remaining
  split <;> omega

theorem bound_lt {total done k a b : ℕ} (hdone : done < total) (hb : b < k + a) :
    (total - (done + 1)) * k + b < (total - done) * k + a := by
  obtain ⟨left, rfl⟩ := Nat.exists_eq_add_of_lt hdone
  have hbefore : done + left + 1 - done = left + 1 := by omega
  have hafter : done + left + 1 - (done + 1) = left := by omega
  rw [hbefore, hafter, Nat.add_one_mul]
  omega

/-- From every state the thread alone comes to wait. -/
theorem exists_waiting (hn : 0 < n) (h : system.Run tr s)
    (hp : ∀ i, ∀ p ∈ pushed i tr, p.frameNumber ≤ 255) :
    ∃ tr' s', system.Run (tr ++ tr') s' ∧ (∀ i, pushed i tr' = []) ∧ s'.next = none := by
  -- A step brings the end of the round closer, or is the end of a round.
  induction hm : (∑ i, (pushed i tr).length - (rounds tr).length) * (3 * n + 5) + remaining s
    using Nat.strong_induction_on generalizing tr s with
  | _ m ih =>
    cases hnext : s.next with
    | none =>
      have hsame : system.Run (tr ++ []) s := by
        rw [List.append_nil]
        exact h
      exact ⟨[], s, hsame, fun i => rfl, hnext⟩
    | some es =>
      obtain ⟨e, s'⟩ := es
      have hact := act_of_next hnext
      have hrun : system.Run (tr ++ [e]) s' := h.snoc (show Step s e s' from .thread hnext)
      have hfed : ∀ i, pushed i (tr ++ [e]) = pushed i tr := by
        intro i
        rw [pushed_append, pushed_act hact, List.append_nil]
      have hp' : ∀ i, ∀ p ∈ pushed i (tr ++ [e]), p.frameNumber ≤ 255 := by
        simpa only [hfed] using hp
      have hbound := rounds_le_pushed hn hrun hp'
      have hrounds := rounds_act hact tr
      simp only [hfed] at hbound
      have hless : (∑ i, (pushed i (tr ++ [e])).length - (rounds (tr ++ [e])).length) *
          (3 * n + 5) + remaining s' < m := by
        simp only [hfed, ← hm]
        by_cases hpc : s.pc = .send
        · rw [if_pos hpc] at hrounds
          rw [hrounds] at hbound ⊢
          have hle := remaining_le s'
          exact bound_lt hbound (by omega)
        · rw [if_neg hpc] at hrounds
          rw [hrounds]
          exact Nat.add_lt_add_left (remaining_act hact hpc) _
      obtain ⟨tr', s'', hrun', hsilent, hwait⟩ := ih _ hless hrun hp' rfl
      rw [List.append_assoc] at hrun'
      have hsilent' : ∀ i, pushed i ([e] ++ tr') = [] := by
        intro i
        rw [pushed_append, pushed_act hact, hsilent]
        rfl
      exact ⟨[e] ++ tr', s'', hrun', hsilent', hwait⟩

/-- It waits at the beginning of a round, for a queue that is used up. -/
theorem within_waiting {pos : Fin n → ℕ} {fed : Fin n → List FpgaPacket} {l : Log n}
    (h : Within feed pos fed s l) (hwait : s.next = none) :
    QueuesAt fed s pos ∧ ∃ i, (fed i).length ≤ pos i := by
  have hend : ∃ i, (fed i).length ≤ pos i := by
    by_contra hno
    obtain ⟨e, s', hnext⟩ := next_of_avail h fun i => not_le.mp fun hle => hno ⟨i, hle⟩
    rw [hwait] at hnext
    cases hnext
  refine ⟨?_, hend⟩
  obtain ⟨i, hi⟩ := hend
  unfold Within at h
  cases hpc : s.pc with
  | reset =>
    rw [hpc] at h
    exact h.1
  | search k =>
    rw [hpc] at h
    exact h.queues
  | compare k =>
    rw [hpc] at h
    exact absurd (h.avail i) (not_lt.mpr hi)
  | pop j =>
    rw [hpc] at h
    exact absurd (h.1.avail i) (not_lt.mpr hi)
  | send =>
    rw [hpc] at h
    exact absurd (h.avail i) (not_lt.mpr hi)

/-! ### What it has sent by then -/

/- A round sends the group of its frame number. -/
theorem message_of_group (hn : 0 < n) (h : system.Run tr s)
    (hx : Extends feed fun i => pushed i tr)
    (hp : ∀ i, ∀ p ∈ pushed i tr, p.frameNumber ≤ 255 ∧ p.sourceId ≠ [] ∧ p.data ≠ [])
    (hsorted : ∀ i, SortedBy FpgaPacket.frameNumber (pushed i tr)) {r : ℕ}
    (hr : r < (rounds tr).length) :
    (mergeRound feed (posAt feed r)).message = some (concatenated (minAt feed (posAt feed r))
      (group FpgaPacket.frameNumber (fun i => pushed i tr) (minAt feed (posAt feed r)))) := by
  have hb := begins_pushed hx fun i p hi => (hp i p hi).1
  have ha := avail_rounds h hx
  obtain ⟨i, hi⟩ := hb.exists_chosen hn ha hr
  have hgroup := taken_eq_group hb hsorted ha hn hr
  have hmessage := messageOf_front (minAt feed (posAt feed r)) (List.ne_nil_of_mem hi)
    fun j => (hp j _ (hb.mem (ha r hr j))).2
  rw [idsOf, dataOf, front, List.flatMap_map, List.flatMap_map] at hmessage
  rw [← hgroup, concatenated, List.flatMap_map, List.flatMap_map]
  exact hmessage

theorem messages_grouped (hn : 0 < n) (h : system.Run tr s)
    (hx : Extends feed fun i => pushed i tr)
    (hp : ∀ i, ∀ p ∈ pushed i tr, p.frameNumber ≤ 255 ∧ p.sourceId ≠ [] ∧ p.data ≠ [])
    (hsorted : ∀ i, SortedBy FpgaPacket.frameNumber (pushed i tr)) :
    messages tr = ((List.range (rounds tr).length).map fun r => minAt feed (posAt feed r)).map
      fun f => concatenated f (group FpgaPacket.frameNumber (fun i => pushed i tr) f) := by
  have hmessage := fun r (hr : r < (rounds tr).length) => message_of_group hn h hx hp hsorted hr
  have hsome : (rounds tr).map Round.message = (messages tr).map some := by
    apply map_message_eq
    intro R hR
    obtain ⟨r, hr, rfl⟩ := round_mem h hx hR
    exact ⟨_, hmessage r hr⟩
  apply List.map_injective_iff.mpr (Option.some_injective _)
  rw [← hsome, rounds_eq h hx]
  simp only [List.map_map, List.length_map, List.length_range]
  apply List.map_congr_left
  intro r hr
  exact hmessage r (List.mem_range.mp hr)

end run

/-- Queues with increasing frame numbers: the thread comes to wait, and then it
has sent one message for each frame number up to the least of the last ones, in
increasing order, each with all packets of that number, and has left the others. -/
theorem merge_groups (hn : 0 < n) {qs : Fin n → List FpgaPacket} (hne : ∀ i, qs i ≠ [])
    (hok : ∀ i, ∀ p ∈ qs i, 0 ≤ p.frameNumber ∧ p.frameNumber ≤ 255 ∧ p.sourceId ≠ [] ∧ p.data ≠ [])
    (hsorted : ∀ i, SortedBy FpgaPacket.frameNumber (qs i)) {tr : List (Event n)} {s : State n}
    (h : system.Run tr s) (hp : ∀ i, pushed i tr = qs i) :
    (∃ tr' s', system.Run (tr ++ tr') s' ∧ (∀ i, pushed i tr' = []) ∧ s'.next = none) ∧
    (s.next = none → ∃ M fs, IsLeast (lastKeys FpgaPacket.frameNumber qs) M ∧
      KeysUpTo FpgaPacket.frameNumber qs M fs ∧
      messages tr = fs.map (fun f => concatenated f (group FpgaPacket.frameNumber qs f)) ∧
      ∀ i, s.queues i = (qs i).filter fun p => M < p.frameNumber) := by
  obtain rfl : qs = fun i => pushed i tr := funext fun i => (hp i).symm
  have hshape : ∀ i, ∀ p ∈ pushed i tr, p.frameNumber ≤ 255 ∧ p.sourceId ≠ [] ∧ p.data ≠ [] :=
    fun i p hi => (hok i p hi).2
  have hle : ∀ i, ∀ p ∈ pushed i tr, p.frameNumber ≤ 255 := fun i p hi => (hshape i p hi).1
  constructor
  · exact exists_waiting hn h hle
  · intro hwait
    have hx := streamOf_extends (fun _ _ => ⟨[], 0, []⟩) fun i => pushed i tr
    obtain ⟨hqueues, j, hj⟩ := within_waiting (run_merging h hx).now hwait
    obtain ⟨M, hM, hfs, hleft⟩ := grouping_of_used_up (begins_pushed hx hle) hsorted
      (avail_rounds h hx) hn hne hj
    have hleft' : ∀ i, s.queues i = (pushed i tr).filter fun p => M < p.frameNumber :=
      fun i => (hqueues i).2.trans (hleft i)
    exact ⟨M, _, hM, hfs, messages_grouped hn h hx hshape hsorted, hleft'⟩

/- Frames 0, 2, 4, 6 in one queue, 0, 3, 6, 9 in the other. -/
theorem merge_groups_links :
    ∃ (tr : List (Event 2)) (s : State 2) (M : ℤ) (fs : List ℤ),
      system.Run tr s ∧ s.next = none ∧
      IsLeast (lastKeys FpgaPacket.frameNumber fun i : Fin 2 =>
        (List.range 4).map fun k => linkPacket i (k * (i + 2))) M ∧
      messages tr = fs.map (fun f => concatenated f (group FpgaPacket.frameNumber
        (fun i : Fin 2 => (List.range 4).map fun k => linkPacket i (k * (i + 2))) f)) := by
  obtain ⟨tr, s, h, hp, -⟩ := exists_rounds (fun i : Fin 2 => fun k => linkPacket i (k * (i + 2)))
    4 0 (by decide)
  have hne : ∀ i : Fin 2, ((List.range 4).map fun k => linkPacket i (k * (i + 2))) ≠ [] := by
    intro i hnil
    cases congrArg List.length hnil
  have hok : ∀ i : Fin 2, ∀ p ∈ (List.range 4).map fun k => linkPacket i (k * (i + 2)),
      0 ≤ p.frameNumber ∧ p.frameNumber ≤ 255 ∧ p.sourceId ≠ [] ∧ p.data ≠ [] := by
    intro i p hi
    obtain ⟨k, hk, rfl⟩ := List.mem_map.mp hi
    have hk4 := List.mem_range.mp hk
    have hprod : k * (i.val + 2) ≤ 3 * 3 := Nat.mul_le_mul (by omega) (by omega)
    refine ⟨Int.natCast_nonneg _, ?_, linkPacket_ne_nil i _⟩
    simp only [linkPacket]
    omega
  have hsorted : ∀ i : Fin 2, SortedBy FpgaPacket.frameNumber
      ((List.range 4).map fun k => linkPacket i (k * (i + 2))) := by
    intro i
    apply List.pairwise_map.mpr
    apply List.pairwise_lt_range.imp
    intro a b hab
    have hprod := Nat.mul_lt_mul_of_pos_right hab (show 0 < i.val + 2 by omega)
    simp only [linkPacket]
    omega
  obtain ⟨tr', s', h', hsilent, hwait⟩ := (merge_groups (by decide) hne hok hsorted h hp).1
  have hp' : ∀ i, pushed i (tr ++ tr') = (List.range 4).map fun k => linkPacket i (k * (i + 2)) := by
    intro i
    rw [pushed_append, hsilent, List.append_nil, hp]
  obtain ⟨M, fs, hM, -, hmessages, -⟩ :=
    (merge_groups (by decide) hne hok hsorted h' hp').2 hwait
  exact ⟨tr ++ tr', s', M, fs, h', hwait, hM, hmessages⟩

end OSwitch.Concatinator
