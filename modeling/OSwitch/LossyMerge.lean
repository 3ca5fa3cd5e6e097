import OSwitch.MergeProperties

/-!
# Links that lose frames

A sender numbers its frames 0, 1, 2, ... and sends the number modulo 255
(`sender_socket/src/sender_socket.cc:55-72`); a queue receives some of them, in
order. The search for the least number on the wire finds the least frame only
while all fronts lie in the same numbering cycle: across a wrap the later frame
has the smaller number.
-/

namespace OSwitch.Concatinator
open Trace StreamMerge

variable {n : ℕ}

/- The numbers of the frames that arrive on a link; fewer than 100 consecutive
frames are missing, also before the first one. -/
structure LossyLink (k : ℕ → ℕ) : Prop where
  mono : StrictMono k
  first : k 0 < 100
  gap : ∀ m, k (m + 1) ≤ k m + 100

def wireNumber (k : ℕ) : ℤ := ((k % 255 : ℕ) : ℤ)

/- Round `r` is complete and took the front of queue `i`. -/
def PoppedAt (tr : List (Event n)) (r : ℕ) (i : Fin n) : Prop :=
  ∃ R, (rounds tr)[r]? = some R ∧ i ∈ R.popped.map Prod.fst

/-- A message combines frames with one number, and the numbers of successive
messages increase strictly. -/
structure InStep (ks : Fin n → ℕ → ℕ) (tr : List (Event n)) : Prop where
  together : ∀ r i j, PoppedAt tr r i → PoppedAt tr r j →
    ks i (consumed tr r i) = ks j (consumed tr r j)
  increasing : ∀ r r' i j, r < r' → PoppedAt tr r i → PoppedAt tr r' j →
    ks i (consumed tr r i) < ks j (consumed tr r' j)

/- The packet at the front of queue `i` in round `r` is sent during the run, in
this round or in a later one. -/
def Output (tr : List (Event n)) (r : ℕ) (i : Fin n) : Prop :=
  consumed tr r i < consumed tr (rounds tr).length i

/-- No round compares two frames of different numbering cycles, leaving aside
frames that are never sent. -/
def SameCycle (ks : Fin n → ℕ → ℕ) (tr : List (Event n)) : Prop :=
  ∀ r < (rounds tr).length, ∀ i j, Output tr r i → Output tr r j →
    ks i (consumed tr r i) / 255 = ks j (consumed tr r j) / 255

/-! ### In the terms of the merge -/

section merge
variable {ks : Fin n → ℕ → ℕ} {feed : Fin n → ℕ → FpgaPacket} {tr : List (Event n)} {s : State n}

theorem poppedAt_iff (h : system.Run tr s) (hx : Extends feed fun i => pushed i tr) (r : ℕ)
    (i : Fin n) :
    PoppedAt tr r i ↔ r < (rounds tr).length ∧ i ∈ takenAt feed (posAt feed r) := by
  constructor
  · rintro ⟨R, hR, hi⟩
    obtain ⟨hlt, rfl⟩ := round_eq h hx hR
    refine ⟨hlt, ?_⟩
    rw [← map_fst_front feed (posAt feed r) (takenAt feed (posAt feed r))]
    exact hi
  · rintro ⟨hlt, hi⟩
    refine ⟨_, getElem?_rounds h hx hlt, ?_⟩
    change i ∈ (front feed (posAt feed r) (takenAt feed (posAt feed r))).map Prod.fst
    rw [map_fst_front]
    exact hi

theorem output_of_poppedAt (h : system.Run tr s) (hx : Extends feed fun i => pushed i tr)
    {r r' : ℕ} {i : Fin n} (hr : r ≤ r') (hi : PoppedAt tr r' i) : Output tr r i := by
  obtain ⟨hr', hi⟩ := (poppedAt_iff h hx r' i).mp hi
  have hadv : posAt feed (r' + 1) i = posAt feed r' i + 1 := advance_of_chosen hi
  have hle : posAt feed r i ≤ posAt feed r' i := position_mono i hr
  have hle' : posAt feed (r' + 1) i ≤ posAt feed (rounds tr).length i := position_mono i hr'
  unfold Output
  rw [consumed_eq h hx i (hr.trans hr'.le), consumed_eq h hx i le_rfl]
  omega

/- The same number in all that is taken, and order, from one cycle per round. -/
theorem inStep_of_sameCycle (hk : ∀ i, StrictMono (ks i)) (h : system.Run tr s)
    (hx : Extends feed fun i => pushed i tr)
    (hlabel : ∀ i m, (feed i m).frameNumber = wireNumber (ks i m)) (hc : SameCycle ks tr) :
    InStep ks tr := by
  have hfaithful : ∀ r < (rounds tr).length,
      Faithful ks wireNumber (Output tr r) (posAt feed r) := by
    intro r hr i j hoi hoj hlt
    have hcycle := hc r hr i j hoi hoj
    rw [consumed_eq h hx i hr.le, consumed_eq h hx j hr.le] at hcycle
    unfold wireNumber
    omega
  constructor
  · intro r i j hi hj
    have hoi := output_of_poppedAt h hx le_rfl hi
    have hoj := output_of_poppedAt h hx le_rfl hj
    obtain ⟨hr, hi⟩ := (poppedAt_iff h hx r i).mp hi
    obtain ⟨-, hj⟩ := (poppedAt_iff h hx r j).mp hj
    rw [consumed_eq h hx i hr.le, consumed_eq h hx j hr.le]
    exact rank_eq_of_chosen hlabel (hfaithful r hr) hi hj hoi hoj
  · intro r r' i j hlt hi hj
    have hoi := output_of_poppedAt h hx le_rfl hi
    have hoj := output_of_poppedAt h hx hlt.le hj
    obtain ⟨hr, hi⟩ := (poppedAt_iff h hx r i).mp hi
    obtain ⟨hr', hj⟩ := (poppedAt_iff h hx r' j).mp hj
    rw [consumed_eq h hx i hr.le, consumed_eq h hx j hr'.le]
    exact rank_lt_of_rounds hlabel hk hlt (hfaithful r hr) hi hoi hoj

theorem exists_roundAt {r r' m : ℕ} {i : Fin n} (hr : r ≤ r') (h : posAt feed r i ≤ m)
    (h' : m < posAt feed r' i) :
    ∃ q, r ≤ q ∧ q < r' ∧ posAt feed q i = m ∧ i ∈ takenAt feed (posAt feed q) :=
  exists_round hr h h'

/- A front that is no longer among the first frames: the queue was served before,
and not much has been lost since. -/
theorem exists_served (hk : ∀ i, LossyLink (ks i)) (h : system.Run tr s)
    (hx : Extends feed fun i => pushed i tr) {r : ℕ} (hr : r ≤ (rounds tr).length) {j : Fin n}
    (hj : 100 ≤ ks j (consumed tr r j)) :
    ∃ q < r, PoppedAt tr q j ∧ ks j (consumed tr r j) ≤ ks j (consumed tr q j) + 100 := by
  rw [consumed_eq h hx j hr] at hj ⊢
  have hserved : posAt feed r j ≠ 0 := by
    intro hzero
    have hfirst := (hk j).first
    rw [hzero] at hj
    omega
  obtain ⟨c, hc⟩ := Nat.exists_eq_succ_of_ne_zero hserved
  have hlast : c < posAt feed r j := by omega
  obtain ⟨q, -, hq, hqc, hmem⟩ := exists_roundAt (Nat.zero_le r) (Nat.zero_le c) hlast
  refine ⟨q, hq, (poppedAt_iff h hx q j).mpr ⟨hq.trans_le hr, hmem⟩, ?_⟩
  rw [consumed_eq h hx j (hq.le.trans hr), hqc, hc]
  exact (hk j).gap c

/- A front that is sent at all is sent in this round or in a later one. -/
theorem exists_sent (h : system.Run tr s) (hx : Extends feed fun i => pushed i tr) {r : ℕ}
    (hr : r ≤ (rounds tr).length) {i : Fin n} (hi : Output tr r i) :
    ∃ q, r ≤ q ∧ PoppedAt tr q i ∧ consumed tr q i = consumed tr r i := by
  unfold Output at hi
  rw [consumed_eq h hx i hr] at hi ⊢
  rw [consumed_eq h hx i le_rfl] at hi
  obtain ⟨q, hqr, hq, hqi, hmem⟩ := exists_roundAt hr le_rfl hi
  refine ⟨q, hqr, (poppedAt_iff h hx q i).mpr ⟨hq, hmem⟩, ?_⟩
  rw [consumed_eq h hx i hq.le, hqi]

/- A completed round pops some packet, with a number on the wire that is least. -/
theorem exists_popped (h : system.Run tr s) (hx : Extends feed fun i => pushed i tr)
    (hlabel : ∀ i m, (feed i m).frameNumber = wireNumber (ks i m)) {r : ℕ}
    (hr : r < (rounds tr).length) (j : Fin n) :
    ∃ a, PoppedAt tr r a ∧
      wireNumber (ks a (consumed tr r a)) ≤ wireNumber (ks j (consumed tr r j)) := by
  have htop : ∀ a, (feed a (posAt feed r a)).frameNumber < 256 := by
    intro a
    rw [hlabel]
    unfold wireNumber
    omega
  obtain ⟨a, ha⟩ := List.exists_mem_of_ne_nil _ (chosen_ne_nil (Fin.pos j) htop)
  refine ⟨a, (poppedAt_iff h hx r a).mpr ⟨hr, ha⟩, ?_⟩
  rw [consumed_eq h hx a hr.le, consumed_eq h hx j hr.le, ← hlabel, ← hlabel, mem_chosen.mp ha]
  exact least_le j

/- A front that lags a cycle behind another one is overtaken: the other queue
was last served less than 100 frames before, so its front has just wrapped. -/
theorem cycle_le_of_inStep (hk : ∀ i, LossyLink (ks i)) (h : system.Run tr s)
    (hx : Extends feed fun i => pushed i tr)
    (hlabel : ∀ i m, (feed i m).frameNumber = wireNumber (ks i m)) (hs : InStep ks tr) {r : ℕ}
    (hr : r < (rounds tr).length) {i j : Fin n} (hi : Output tr r i) :
    ks j (consumed tr r j) / 255 ≤ ks i (consumed tr r i) / 255 := by
  by_contra hlt
  obtain ⟨q, hq, hserved, hgap⟩ := exists_served hk h hx hr.le (j := j) (by omega)
  obtain ⟨q', hqr, hsent, hsame⟩ := exists_sent h hx hr.le hi
  obtain ⟨a, ha, hleast⟩ := exists_popped h hx hlabel hr j
  -- Frame a is sent after the last one of queue j and not after that of queue i.
  have hki := hs.increasing q q' j i (hq.trans_le hqr) hserved hsent
  have hka := hs.increasing q r j a hq hserved ha
  have hle : ks a (consumed tr r a) ≤ ks i (consumed tr r i) := by
    rw [← hsame]
    rcases Nat.eq_or_lt_of_le hqr with rfl | hrq
    · exact (hs.together r a i ha hsent).le
    · exact (hs.increasing r q' a i hrq ha hsent).le
  rw [hsame] at hki
  unfold wireNumber at hleast
  omega

end merge

/- The packets pushed into queue `i` carry the numbers of link `i`. -/
def Carries (ks : Fin n → ℕ → ℕ) (tr : List (Event n)) : Prop :=
  ∀ i m p, (pushed i tr)[m]? = some p → p.frameNumber = wireNumber (ks i m)

theorem Carries.exists_feed {ks : Fin n → ℕ → ℕ} {tr : List (Event n)} (h : Carries ks tr) :
    ∃ feed, (Extends feed fun i => pushed i tr) ∧
      ∀ i m, (feed i m).frameNumber = wireNumber (ks i m) := by
  refine ⟨_, streamOf_extends (fun i m => ⟨[], wireNumber (ks i m), []⟩) _, ?_⟩
  intro i m
  unfold streamOf
  cases hm : (pushed i tr)[m]? with
  | none => rfl
  | some p => exact h i m p hm

/-- Exactly the runs that never compare frames across a wrap are in step. -/
theorem inStep_iff_sameCycle {ks : Fin n → ℕ → ℕ} (hk : ∀ i, LossyLink (ks i))
    {tr : List (Event n)} {s : State n} (h : system.Run tr s) (hp : Carries ks tr) :
    InStep ks tr ↔ SameCycle ks tr := by
  obtain ⟨feed, hx, hlabel⟩ := hp.exists_feed
  constructor
  · intro hs r hr i j hi hj
    exact le_antisymm (cycle_le_of_inStep hk h hx hlabel hs hr hj)
      (cycle_le_of_inStep hk h hx hlabel hs hr hi)
  · exact inStep_of_sameCycle (fun i => (hk i).mono) h hx hlabel

end OSwitch.Concatinator
