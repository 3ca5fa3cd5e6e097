import OSwitch.MergeRefinement

/-!
# Rounds come to an end

Inside a round the thread waits only for a queue from which it has yet to read
this round's packet. Once every queue has been fed that far, the round can be
finished without another push.
-/

namespace OSwitch.Concatinator
open Trace Wire StreamMerge

variable {n : ℕ}

/- An upper bound on the steps up to and including the send. -/
def remaining (s : State n) : ℕ :=
  match s.pc with
  | .reset => 3 * n + 4
  | .search k => (n - k) + 2 * n + 3
  | .compare k => 2 * (n - k) + 2
  | .pop i => 2 * (n - i) + 1
  | .send => 1

theorem remaining_act {s s' : State n} {e : Event n} (h : Act s e s') (hs : s.pc ≠ .send) :
    remaining s' < remaining s := by
  cases h with
  | reset hpc =>
    simp only [remaining, hpc, State.reset]
    omega
  | @search i p hpc _ =>
    have hi := i.isLt
    simp only [remaining, hpc, State.search]
    omega
  | format hpc _ =>
    simp only [remaining, hpc, State.format]
    omega
  | @compare i p hpc _ =>
    have hi := i.isLt
    unfold State.compare
    split
    · simp only [remaining, hpc]
      omega
    · simp only [remaining, hpc]
      omega
  | finish hpc _ =>
    simp only [remaining, hpc, State.finish]
    omega
  | @pop i p rest hpc _ =>
    have hi := i.isLt
    simp only [remaining, hpc, State.pop]
    omega
  | send hpc => exact absurd hpc hs

theorem head_of_lt {fed : Fin n → List FpgaPacket} {s : State n} {pos : Fin n → ℕ}
    (hq : QueuesAt fed s pos) {i : Fin n} (h : pos i < (fed i).length) :
    ∃ p, (s.queues i).head? = some p := by
  rw [(hq i).2, List.head?_drop]
  exact ⟨_, List.getElem?_eq_getElem h⟩

/- With a packet for every queue the thread does not wait. -/
theorem next_of_avail {feed : Fin n → ℕ → FpgaPacket} {pos : Fin n → ℕ}
    {fed : Fin n → List FpgaPacket} {s : State n} {l : Log n} (h : Within feed pos fed s l)
    (ha : ∀ i, pos i < (fed i).length) : ∃ e s', s.next = some (e, s') := by
  unfold Within at h
  unfold State.next
  cases hpc : s.pc with
  | reset => exact ⟨_, _, rfl⟩
  | search k =>
    rw [hpc] at h
    by_cases hk : k < n
    · obtain ⟨p, hp⟩ := head_of_lt h.queues (ha ⟨k, hk⟩)
      simp [hk, hp]
    · simp [hk]
  | compare k =>
    rw [hpc] at h
    by_cases hk : k < n
    · have hpos : advanceUpTo FpgaPacket.frameNumber 256 feed k pos ⟨k, hk⟩ <
          (fed ⟨k, hk⟩).length := by
        rw [advanceUpTo_self (⟨k, hk⟩ : Fin n)]
        exact ha _
      obtain ⟨p, hp⟩ := head_of_lt h.queues hpos
      simp [hk, hp]
    · simp [hk]
  | pop i =>
    rw [hpc] at h
    have hpos : advanceUpTo FpgaPacket.frameNumber 256 feed i pos i < (fed i).length := by
      rw [advanceUpTo_self]
      exact ha _
    obtain ⟨p, hp⟩ := head_of_lt h.1.queues hpos
    obtain ⟨rest, hq⟩ := List.head?_eq_some_iff.mp hp
    simp [hq]
  | send => exact ⟨_, _, rfl⟩

theorem rounds_act {s s' : State n} {e : Event n} (h : Act s e s') (tr : List (Event n)) :
    (rounds (tr ++ [e])).length =
      if s.pc = .send then (rounds tr).length + 1 else (rounds tr).length := by
  unfold rounds
  rw [log_snoc]
  cases h with
  | send hpc =>
    rw [if_pos hpc]
    unfold State.send
    split <;> simp [Log.add, Log.close]
  | reset hpc => simp [Log.add, hpc]
  | search hpc => simp [Log.add, hpc]
  | format hpc => simp [Log.add, hpc]
  | compare hpc => simp [Log.add, hpc]
  | finish hpc => simp [Log.add, hpc]
  | pop hpc => simp [Log.add, hpc]

/-- The round in progress can be finished by the thread alone. -/
theorem round_completes {feed : Fin n → ℕ → FpgaPacket} {tr : List (Event n)} {s : State n}
    (h : system.Run tr s) (hx : Extends feed fun i => pushed i tr)
    (ha : ∀ i, posAt feed (rounds tr).length i < (pushed i tr).length) :
    ∃ tr' s', system.Run tr' s' ∧ (∀ i, pushed i tr' = pushed i tr) ∧
      (rounds tr').length = (rounds tr).length + 1 := by
  induction hm : remaining s using Nat.strong_induction_on generalizing tr s with
  | _ m ih =>
    obtain ⟨e, s', hnext⟩ := next_of_avail (run_merging h hx).now ha
    have hact := act_of_next hnext
    have hrun : system.Run (tr ++ [e]) s' := h.snoc (show Step s e s' from .thread hnext)
    have hfed : ∀ i, pushed i (tr ++ [e]) = pushed i tr := by
      intro i
      rw [pushed_append, pushed_act hact, List.append_nil]
    have hrounds := rounds_act hact tr
    by_cases hpc : s.pc = .send
    · rw [if_pos hpc] at hrounds
      exact ⟨_, _, hrun, hfed, hrounds⟩
    · rw [if_neg hpc] at hrounds
      have hlt : remaining s' < m := by
        rw [← hm]
        exact remaining_act hact hpc
      obtain ⟨tr', s'', hr, hp, hc⟩ := ih _ hlt hrun
        (by simpa only [hfed] using hx) (by simpa only [hfed, hrounds] using ha) rfl
      exact ⟨tr', s'', hr, fun i => (hp i).trans (hfed i), by rw [hc, hrounds]⟩

/-! ### Runs for given streams -/

theorem run_pushes {tr : List (Event n)} {s : State n} (h : system.Run tr s) (i : Fin n)
    (ps : List FpgaPacket) :
    ∃ tr' s', system.Run tr' s' ∧ (∀ j, pushed j tr' = if i = j then pushed j tr ++ ps
      else pushed j tr) ∧ rounds tr' = rounds tr := by
  induction ps using List.reverseRecOn with
  | nil => exact ⟨tr, s, h, by simp, rfl⟩
  | append_singleton ps p ih =>
    obtain ⟨tr', s', hr, hp, hc⟩ := ih
    refine ⟨_, _, hr.snoc (show Step s' (.push i p) _ from .push s' i p), ?_, ?_⟩
    · intro j
      rw [pushed_append, pushed_push, hp]
      split <;> simp
    · rw [← hc]
      unfold rounds
      rw [log_snoc]
      rfl

/- Everything is pushed before the thread does its first step. -/
theorem run_fed (feed : Fin n → ℕ → FpgaPacket) (m k : ℕ) :
    ∃ tr s, system.Run tr s ∧ rounds tr = [] ∧
      ∀ i : Fin n, pushed i tr = if i.val < k then (List.range m).map (feed i) else [] := by
  induction k with
  | zero => exact ⟨[], start, .init rfl, rfl, fun i => (if_neg (Nat.not_lt_zero _)).symm⟩
  | succ k ih =>
    obtain ⟨tr, s, hr, hc, hp⟩ := ih
    by_cases hk : k < n
    · obtain ⟨tr', s', hr', hp', hc'⟩ := run_pushes hr ⟨k, hk⟩ ((List.range m).map (feed ⟨k, hk⟩))
      refine ⟨tr', s', hr', hc'.trans hc, ?_⟩
      intro i
      rw [hp', hp]
      by_cases hi : i.val = k
      · obtain rfl : (⟨k, hk⟩ : Fin n) = i := Fin.ext hi.symm
        simp
      · have hne : (⟨k, hk⟩ : Fin n) ≠ i := fun he => hi (congrArg Fin.val he).symm
        have hlt : i.val < k + 1 ↔ i.val < k := by omega
        simp only [hne, if_false, hlt]
    · refine ⟨tr, s, hr, hc, ?_⟩
      intro i
      have hi := i.isLt
      rw [hp, if_pos (by omega), if_pos (by omega)]

theorem posAt_le (feed : Fin n → ℕ → FpgaPacket) (r : ℕ) (i : Fin n) : posAt feed r i ≤ r := by
  induction r with
  | zero => exact Nat.zero_le _
  | succ r ih => exact (position_succ_le r i).trans (Nat.succ_le_succ ih)

theorem extends_range {feed : Fin n → ℕ → FpgaPacket} {fed : Fin n → List FpgaPacket} {m : ℕ}
    (h : ∀ i, fed i = (List.range m).map (feed i)) : Extends feed fed := by
  intro i k p hk
  have hlt := (List.getElem?_eq_some_iff.mp hk).1
  rw [h, List.length_map, List.length_range] at hlt
  rw [h, List.getElem?_map, List.getElem?_range hlt] at hk
  exact Option.some_inj.mp hk

/-- Every number of rounds is reached, for every choice of the streams. -/
theorem exists_rounds (feed : Fin n → ℕ → FpgaPacket) (m : ℕ) : ∀ r ≤ m,
    ∃ tr s, system.Run tr s ∧ (∀ i, pushed i tr = (List.range m).map (feed i)) ∧
      (rounds tr).length = r := by
  intro r
  induction r with
  | zero =>
    intro _
    obtain ⟨tr, s, hr, hc, hp⟩ := run_fed feed m n
    exact ⟨tr, s, hr, fun i => (hp i).trans (if_pos i.isLt), by rw [hc]; rfl⟩
  | succ r ih =>
    intro hm
    obtain ⟨tr, s, hr, hp, hc⟩ := ih (by omega)
    have havail : ∀ i, posAt feed (rounds tr).length i < (pushed i tr).length := by
      intro i
      rw [hp, hc, List.length_map, List.length_range]
      have hle := posAt_le feed r i
      omega
    obtain ⟨tr', s', hr', hp', hc'⟩ := round_completes hr (extends_range hp) havail
    exact ⟨tr', s', hr', fun i => (hp' i).trans (hp i), by rw [hc', hc]⟩

/-! ### The two links of `main` -/

def linkId : Fin 2 → Bytes
  | 0 => text "lan1&%argw"
  | 1 => text "lan2&%argw"

/- A packet as the receivers push it. -/
def linkPacket (i : Fin 2) (frame : ℕ) : FpgaPacket := ⟨linkId i, frame, List.replicate 6143 0⟩

theorem linkId_length : ∀ i, (linkId i).length = 10
  | 0 => rfl
  | 1 => rfl

theorem linkPacket_ne_nil (i : Fin 2) (frame : ℕ) :
    (linkPacket i frame).sourceId ≠ [] ∧ (linkPacket i frame).data ≠ [] := by
  constructor
  · intro h
    have hlen := linkId_length i
    rw [show linkId i = [] from h] at hlen
    cases hlen
  · intro h
    have hlen : (List.replicate 6143 (0 : Byte)).length = 6143 := List.length_replicate
    rw [show List.replicate 6143 (0 : Byte) = [] from h] at hlen
    cases hlen

end OSwitch.Concatinator
