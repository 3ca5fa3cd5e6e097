import OSwitch.LossyMerge

/-!
# The losses that keep the merge in step

All fronts lie in one numbering cycle as long as the links end every cycle with
the same frame. A link that still has a frame of the cycle when the others wrap
waits until their numbers come up to that frame again, and then it is sent a
cycle late or more. If they never do, nothing of that link is sent any more.
-/

namespace OSwitch.Concatinator
open Trace StreamMerge

variable {n : ℕ}

/- Frame `k m` is the last one of its numbering cycle to arrive. -/
def CycleEnd (k : ℕ → ℕ) (m : ℕ) : Prop := k m / 255 < k (m + 1) / 255

/- It is the last one on link `k'`, too. -/
def EndsAlike (k k' : ℕ → ℕ) (m : ℕ) : Prop := ∃ m', k' m' = k m ∧ CycleEnd k' m'

/-- When link `k` ends the cycle of `k m`, link `k'` goes on with frame `k' m'`
of that cycle, whose number exceeds those of this and all later ends of `k`. -/
structure LeftAt (k k' : ℕ → ℕ) (m m' : ℕ) : Prop where
  ends : CycleEnd k m
  cycle : k' m' / 255 = k m / 255
  next : ∀ l < m', k' l ≤ k m
  above : ∀ l ≥ m, CycleEnd k l → wireNumber (k l) < wireNumber (k' m')

/-- At every cycle end of link `a` each link ends the cycle alike, or has been
left at this end or an earlier one. -/
def Leads (ks : Fin n → ℕ → ℕ) (a : Fin n) : Prop :=
  ∀ j m, CycleEnd (ks a) m →
    EndsAlike (ks a) (ks j) m ∨ ∃ m₁ ≤ m, ∃ m', LeftAt (ks a) (ks j) m₁ m'

theorem LossyLink.cycle_succ_le {k : ℕ → ℕ} (h : LossyLink k) (m : ℕ) :
    k (m + 1) / 255 ≤ k m / 255 + 1 := by
  have hgap := h.gap m
  omega

theorem LossyLink.cycle_mono {k : ℕ → ℕ} (h : LossyLink k) {m m' : ℕ} (hm : m ≤ m') :
    k m / 255 ≤ k m' / 255 := Nat.div_le_div_right (h.mono.monotone hm)

theorem LossyLink.exists_cycleEnd {k : ℕ → ℕ} (h : LossyLink k) (p : ℕ) :
    ∃ e ≥ p, CycleEnd k e ∧ k e / 255 = k p / 255 := by
  have hleaves : ∃ d, k p / 255 < k (p + d + 1) / 255 := by
    have hfar := h.mono.le_apply (x := p + (k p + 255) + 1)
    exact ⟨k p + 255, by omega⟩
  classical
  have hspec := Nat.find_spec hleaves
  have hstay : ∀ d < Nat.find hleaves, k (p + d + 1) / 255 ≤ k p / 255 :=
    fun d hd => not_lt.mp (Nat.find_min hleaves hd)
  generalize Nat.find hleaves = d at hspec hstay
  have hle : k (p + d) / 255 ≤ k p / 255 := by
    cases d with
    | zero => exact le_rfl
    | succ d => exact hstay d (Nat.lt_succ_self d)
  have hge : k p / 255 ≤ k (p + d) / 255 := h.cycle_mono (Nat.le_add_right p d)
  refine ⟨p + d, Nat.le_add_right p d, ?_, le_antisymm hle hge⟩
  exact hle.trans_lt hspec

theorem LossyLink.le_of_cycle {k : ℕ → ℕ} (h : LossyLink k) {m p : ℕ} (hm : CycleEnd k m)
    (hc : k p / 255 ≤ k m / 255) : p ≤ m := by
  by_contra hlt
  have hlater : k (m + 1) / 255 ≤ k p / 255 := h.cycle_mono (by omega)
  unfold CycleEnd at hm
  omega

/- A link is not left where it ends alike. -/
theorem not_left_of_endsAlike {k k' : ℕ → ℕ} (hk' : LossyLink k') {m m' : ℕ}
    (h : EndsAlike k k' m) : ¬LeftAt k k' m m' := by
  obtain ⟨l, hl, hend⟩ := h
  intro hleft
  have hnum := hleft.above m le_rfl hleft.ends
  have hcycle := hleft.cycle
  have hle : m' ≤ l := hk'.le_of_cycle hend (by rw [hcycle, hl])
  have hval : k' m' ≤ k' l := hk'.mono.monotone hle
  unfold wireNumber at hnum
  omega

section merge
variable {ks : Fin n → ℕ → ℕ} {feed : Fin n → ℕ → FpgaPacket}

theorem number_le (hlabel : ∀ i m, (feed i m).frameNumber = wireNumber (ks i m))
    {pos : Fin n → ℕ} {i : Fin n} (hi : i ∈ takenAt feed pos) (j : Fin n) :
    wireNumber (ks i (pos i)) ≤ wireNumber (ks j (pos j)) := by
  rw [← hlabel, ← hlabel]
  exact le_of_chosen hi j

theorem number_lt (hlabel : ∀ i m, (feed i m).frameNumber = wireNumber (ks i m))
    {pos : Fin n → ℕ} {i j : Fin n} (hi : i ∈ takenAt feed pos) (hj : j ∉ takenAt feed pos) :
    wireNumber (ks i (pos i)) < wireNumber (ks j (pos j)) := by
  rw [← hlabel, ← hlabel]
  exact lt_of_not_chosen hi hj

/-! ### A leading link keeps the merge in step -/

/- Link `j` is in the cycle of link `a` and has ended all cycles before alike. -/
structure Abreast (ks : Fin n → ℕ → ℕ) (a : Fin n) (pos : Fin n → ℕ) (j : Fin n) : Prop where
  cycle : ks j (pos j) / 255 = ks a (pos a) / 255
  alike : ∀ m < pos a, CycleEnd (ks a) m → EndsAlike (ks a) (ks j) m
  taken : ∀ l < pos j, ks j l ≤ ks a (pos a)

/- The front of link `j` is the frame with which it was left. -/
def Passed (ks : Fin n → ℕ → ℕ) (a : Fin n) (pos : Fin n → ℕ) (j : Fin n) : Prop :=
  ∃ m < pos a, LeftAt (ks a) (ks j) m (pos j)

theorem passed_not_taken (hk : ∀ i, LossyLink (ks i))
    (hlabel : ∀ i m, (feed i m).frameNumber = wireNumber (ks i m)) {a j : Fin n}
    {pos : Fin n → ℕ} (h : Passed ks a pos j) : j ∉ takenAt feed pos := by
  obtain ⟨m, hm, hleft⟩ := h
  obtain ⟨e, he, hend, hcycle⟩ := (hk a).exists_cycleEnd (pos a)
  intro hj
  have hnum := number_le hlabel hj a
  have habove := hleft.above e (hm.le.trans he) hend
  have hval : ks a (pos a) ≤ ks a e := (hk a).mono.monotone he
  unfold wireNumber at hnum habove
  omega

theorem passed_advance (hk : ∀ i, LossyLink (ks i))
    (hlabel : ∀ i m, (feed i m).frameNumber = wireNumber (ks i m)) {a j : Fin n} {r : ℕ}
    (h : Passed ks a (posAt feed r) j) :
    posAt feed (r + 1) j = posAt feed r j ∧ Passed ks a (posAt feed (r + 1)) j := by
  have hstay : posAt feed (r + 1) j = posAt feed r j :=
    advance_of_not_chosen (passed_not_taken hk hlabel h)
  obtain ⟨m, hm, hleft⟩ := h
  have hmono : posAt feed r a ≤ posAt feed (r + 1) a := position_le_succ r a
  refine ⟨hstay, m, hm.trans_le hmono, ?_⟩
  rw [hstay]
  exact hleft

/- Where link `a` ends the cycle, a link abreast has no earlier frame last. -/
theorem exists_later (hk : ∀ i, LossyLink (ks i)) {a j : Fin n} (ha : Leads ks a)
    {pos : Fin n → ℕ} (h : Abreast ks a pos j) {e : ℕ} (he : pos a ≤ e)
    (hend : CycleEnd (ks a) e) (hcycle : ks a e / 255 = ks a (pos a) / 255) :
    ∃ m', ks a e ≤ ks j m' ∧ ks j m' / 255 = ks a e / 255 := by
  rcases ha j e hend with ⟨m', hm', -⟩ | ⟨m, hm, m', hleft⟩
  · exact ⟨m', hm'.ge, by rw [hm']⟩
  · have hpos : pos a ≤ m := by
      by_contra hlt
      exact not_left_of_endsAlike (hk j) (h.alike m (by omega) hleft.ends) hleft
    have hsame : e ≤ m := by
      apply (hk a).le_of_cycle hleft.ends
      rw [hcycle]
      exact (hk a).cycle_mono hpos
    obtain rfl : m = e := le_antisymm hm hsame
    have hnum := hleft.above m le_rfl hend
    have hc := hleft.cycle
    unfold wireNumber at hnum
    exact ⟨m', by omega, hc⟩

/- Before link `a` leaves its cycle. -/
theorem abreast_within (hk : ∀ i, LossyLink (ks i))
    (hlabel : ∀ i m, (feed i m).frameNumber = wireNumber (ks i m)) {a j : Fin n}
    (ha : Leads ks a) {r : ℕ} (h : Abreast ks a (posAt feed r) j)
    (hsame : ks a (posAt feed (r + 1) a) / 255 = ks a (posAt feed r a) / 255) :
    Abreast ks a (posAt feed (r + 1)) j := by
  have hmono : posAt feed r a ≤ posAt feed (r + 1) a := position_le_succ r a
  have hval : ks a (posAt feed r a) ≤ ks a (posAt feed (r + 1) a) := (hk a).mono.monotone hmono
  have halike : ∀ m < posAt feed (r + 1) a, CycleEnd (ks a) m → EndsAlike (ks a) (ks j) m := by
    intro m hm hend
    apply h.alike m _ hend
    by_contra hge
    have hle := (hk a).le_of_cycle hend
      (hsame.trans_le ((hk a).cycle_mono (not_lt.mp hge)))
    omega
  by_cases hj : j ∈ takenAt feed (posAt feed r)
  · have hpos : posAt feed (r + 1) j = posAt feed r j + 1 := advance_of_chosen hj
    have hc := h.cycle
    have hlt : ks j (posAt feed r j) < ks a (posAt feed (r + 1) a) := by
      by_cases hi : a ∈ takenAt feed (posAt feed r)
      · have hadv : posAt feed (r + 1) a = posAt feed r a + 1 := advance_of_chosen hi
        have hstep : ks a (posAt feed r a) < ks a (posAt feed r a + 1) :=
          (hk a).mono (Nat.lt_succ_self _)
        have hnum := number_le hlabel hj a
        unfold wireNumber at hnum
        rw [hadv]
        omega
      · have hnum := number_lt hlabel hj hi
        unfold wireNumber at hnum
        omega
    -- A later frame of link j lies in the cycle, so its next one does.
    obtain ⟨e, he, hend, hcycle⟩ := (hk a).exists_cycleEnd (posAt feed (r + 1) a)
    obtain ⟨m', hm', hc'⟩ :=
      exists_later hk ha h (hmono.trans he) hend (hcycle.trans hsame)
    have hreach : ks a (posAt feed (r + 1) a) ≤ ks a e := (hk a).mono.monotone he
    have hbefore : posAt feed r j < m' :=
      (hk j).mono.lt_iff_lt.mp (hlt.trans_le (hreach.trans hm'))
    have hnext : ks j (posAt feed r j + 1) / 255 ≤ ks j m' / 255 := (hk j).cycle_mono hbefore
    have hback : ks j (posAt feed r j) / 255 ≤ ks j (posAt feed r j + 1) / 255 :=
      (hk j).cycle_mono (Nat.le_succ _)
    refine ⟨?_, halike, ?_⟩
    · rw [hpos]
      omega
    · intro l hl
      have hl' : ks j l ≤ ks j (posAt feed r j) := (hk j).mono.monotone (by omega)
      omega
  · have hpos : posAt feed (r + 1) j = posAt feed r j := advance_of_not_chosen hj
    refine ⟨?_, halike, ?_⟩
    · rw [hpos, h.cycle, hsame]
    · intro l hl
      rw [hpos] at hl
      exact (h.taken l hl).trans hval

/-- When link `a` leaves its cycle, link `j` leaves it too or is left. -/
theorem abreast_leave (hk : ∀ i, LossyLink (ks i))
    (hlabel : ∀ i m, (feed i m).frameNumber = wireNumber (ks i m)) {a j : Fin n}
    (ha : Leads ks a) {r : ℕ} (h : Abreast ks a (posAt feed r) j)
    (hi : a ∈ takenAt feed (posAt feed r)) (hend : CycleEnd (ks a) (posAt feed r a)) :
    Abreast ks a (posAt feed (r + 1)) j ∨ Passed ks a (posAt feed (r + 1)) j := by
  have hadv : posAt feed (r + 1) a = posAt feed r a + 1 := advance_of_chosen hi
  have hc := h.cycle
  have hnum := number_le hlabel hi j
  unfold wireNumber at hnum
  have hge : ks a (posAt feed r a) ≤ ks j (posAt feed r j) := by omega
  rcases ha j _ hend with ⟨m', hm', hend'⟩ | ⟨m, hm, m', hleft⟩
  · left
    have hfront : posAt feed r j = m' := by
      apply le_antisymm
      · exact (hk j).le_of_cycle hend' (by rw [hm', hc])
      · exact (hk j).mono.le_iff_le.mp (hm'.trans_le hge)
    have hj : j ∈ takenAt feed (posAt feed r) := by
      by_contra hno
      have hlt := number_lt hlabel hi hno
      rw [hfront, hm'] at hlt
      exact lt_irrefl _ hlt
    have hpos : posAt feed (r + 1) j = m' + 1 := by
      rw [← hfront]
      exact advance_of_chosen hj
    have hstep := (hk a).cycle_succ_le (posAt feed r a)
    have hstep' := (hk j).cycle_succ_le m'
    have hval : ks a (posAt feed r a) < ks a (posAt feed r a + 1) :=
      (hk a).mono (Nat.lt_succ_self _)
    refine ⟨?_, ?_, ?_⟩
    · rw [hpos, hadv]
      unfold CycleEnd at hend hend'
      rw [hm'] at hend' hstep'
      omega
    · intro l hl hl'
      rw [hadv] at hl
      rcases Nat.lt_succ_iff_lt_or_eq.mp hl with hl | rfl
      · exact h.alike l hl hl'
      · exact ⟨m', hm', hend'⟩
    · intro l hl
      have hlast : ks j l ≤ ks j m' := (hk j).mono.monotone (by omega)
      rw [hadv]
      omega
  · right
    have hat : m = posAt feed r a := by
      by_contra hne
      exact not_left_of_endsAlike (hk j) (h.alike m (by omega) hleft.ends) hleft
    subst hat
    refine ⟨posAt feed r a, by omega, ?_⟩
    have hnum' := hleft.above _ le_rfl hend
    have hc' := hleft.cycle
    unfold wireNumber at hnum'
    have hbeyond : ks a (posAt feed r a) < ks j m' := by omega
    have hle : posAt feed r j ≤ m' := by
      by_contra hlt
      exact absurd (h.taken m' (by omega)) (not_le.mpr hbeyond)
    have hpos : posAt feed (r + 1) j = m' := by
      by_cases hj : j ∈ takenAt feed (posAt feed r)
      · have hnum'' := number_le hlabel hj a
        unfold wireNumber at hnum''
        have hlt : posAt feed r j < m' := (hk j).mono.lt_iff_lt.mp (by omega)
        have hstep : ks j (posAt feed r j) < ks j (posAt feed r j + 1) :=
          (hk j).mono (Nat.lt_succ_self _)
        rw [show posAt feed (r + 1) j = posAt feed r j + 1 from advance_of_chosen hj]
        by_contra hne
        have hnext := hleft.next (posAt feed r j + 1) (by omega)
        omega
      · have hlt := number_lt hlabel hi hj
        unfold wireNumber at hlt
        rw [show posAt feed (r + 1) j = posAt feed r j from advance_of_not_chosen hj]
        by_contra hne
        have hnext := hleft.next (posAt feed r j) (by omega)
        omega
    rw [hpos]
    exact hleft

/-- Every link is abreast of a leading one until it is left. -/
theorem abreast_or_passed (hk : ∀ i, LossyLink (ks i))
    (hlabel : ∀ i m, (feed i m).frameNumber = wireNumber (ks i m)) {a : Fin n}
    (ha : Leads ks a) (r : ℕ) (j : Fin n) :
    Abreast ks a (posAt feed r) j ∨ Passed ks a (posAt feed r) j := by
  induction r with
  | zero =>
    left
    have hj := (hk j).first
    have hi := (hk a).first
    refine ⟨?_, ?_, ?_⟩
    · change ks j 0 / 255 = ks a 0 / 255
      omega
    · intro m hm
      exact absurd hm (Nat.not_lt_zero m)
    · intro l hl
      exact absurd hl (Nat.not_lt_zero l)
  | succ r ih =>
    rcases ih with h | h
    · by_cases hi : a ∈ takenAt feed (posAt feed r)
      · by_cases hend : CycleEnd (ks a) (posAt feed r a)
        · exact abreast_leave hk hlabel ha h hi hend
        · left
          apply abreast_within hk hlabel ha h
          have hback : ks a (posAt feed r a) / 255 ≤ ks a (posAt feed r a + 1) / 255 :=
            (hk a).cycle_mono (Nat.le_succ _)
          rw [show posAt feed (r + 1) a = posAt feed r a + 1 from advance_of_chosen hi]
          unfold CycleEnd at hend
          omega
      · left
        apply abreast_within hk hlabel ha h
        rw [show posAt feed (r + 1) a = posAt feed r a from advance_of_not_chosen hi]
    · exact .inr (passed_advance hk hlabel h).2

theorem position_of_passed (hk : ∀ i, LossyLink (ks i))
    (hlabel : ∀ i m, (feed i m).frameNumber = wireNumber (ks i m)) {a j : Fin n} {r r' : ℕ}
    (h : Passed ks a (posAt feed r) j) (hr : r ≤ r') :
    posAt feed r' j = posAt feed r j ∧ Passed ks a (posAt feed r') j := by
  induction r', hr using Nat.le_induction with
  | base => exact ⟨rfl, h⟩
  | succ r' hr ih =>
    obtain ⟨hpos, hpassed⟩ := passed_advance hk hlabel ih.2
    exact ⟨hpos.trans ih.1, hpassed⟩

theorem sameCycle_of_leads (hk : ∀ i, LossyLink (ks i)) {tr : List (Event n)} {s : State n}
    (h : system.Run tr s) (hx : Extends feed fun i => pushed i tr)
    (hlabel : ∀ i m, (feed i m).frameNumber = wireNumber (ks i m)) {a : Fin n}
    (ha : Leads ks a) : SameCycle ks tr := by
  have habreast : ∀ r < (rounds tr).length, ∀ i, Output tr r i → Abreast ks a (posAt feed r) i := by
    intro r hr i ho
    rcases abreast_or_passed hk hlabel ha r i with hi | hi
    · exact hi
    · have hstay := (position_of_passed hk hlabel hi hr.le).1
      unfold Output at ho
      rw [consumed_eq h hx i hr.le, consumed_eq h hx i le_rfl] at ho
      omega
  intro r hr i j hi hj
  rw [consumed_eq h hx i hr.le, consumed_eq h hx j hr.le, (habreast r hr i hi).cycle,
    (habreast r hr j hj).cycle]

/-! ### A merge in step has a leading link -/

/- The frames of two links that are both served again lie in one cycle. -/
def InCycle (ks : Fin n → ℕ → ℕ) (feed : Fin n → ℕ → FpgaPacket) : Prop :=
  ∀ r i j, ServedAt feed r i → ServedAt feed r j →
    ks i (posAt feed r i) / 255 = ks j (posAt feed r j) / 255

/- Once link `j` is not served any more, its number exceeds all that are taken. -/
theorem number_lt_of_not_served (hlabel : ∀ i m, (feed i m).frameNumber = wireNumber (ks i m))
    {a j : Fin n} (ha : ∀ r, ServedAt feed r a) {r : ℕ} (hj : ¬ServedAt feed r j) {m : ℕ}
    (hm : posAt feed r a ≤ m) : wireNumber (ks a m) < wireNumber (ks j (posAt feed r j)) := by
  obtain ⟨q, hqm, hi⟩ : ∃ q, posAt feed q a = m ∧ a ∈ takenAt feed (posAt feed q) :=
    exists_taken ha m
  have hq : r ≤ q := by
    by_contra hlt
    have hadv : posAt feed (q + 1) a = posAt feed q a + 1 := advance_of_chosen hi
    have hmono : posAt feed (q + 1) a ≤ posAt feed r a := position_mono a (by omega)
    omega
  have hstay : posAt feed q j = posAt feed r j := position_of_not_served hj hq
  rw [← hstay, ← hqm]
  exact number_lt hlabel hi fun hj' => hj ⟨q, hq, hj'⟩

/- The front that is never taken is the frame with which link `j` was left. -/
theorem leftAt_of_not_served (hlabel : ∀ i m, (feed i m).frameNumber = wireNumber (ks i m))
    {a j : Fin n} (ha : ∀ r, ServedAt feed r a) {r : ℕ} (hj : ¬ServedAt feed r j) {e : ℕ}
    (hend : CycleEnd (ks a) e) (hpos : posAt feed r a ≤ e + 1)
    (hcycle : ks j (posAt feed r j) / 255 = ks a e / 255)
    (hlt : ks a e < ks j (posAt feed r j)) (hnext : ∀ l < posAt feed r j, ks j l ≤ ks a e) :
    LeftAt (ks a) (ks j) e (posAt feed r j) := by
  refine ⟨hend, hcycle, hnext, ?_⟩
  intro l hl _
  rcases Nat.eq_or_lt_of_le hl with rfl | hl
  · unfold wireNumber
    omega
  · exact number_lt_of_not_served hlabel ha hj (hpos.trans hl)

/-- When the last frame of a cycle is taken from link `j`, the links that are
served again leave the cycle with it. -/
theorem leaves_with (hk : ∀ i, LossyLink (ks i))
    (hlabel : ∀ i m, (feed i m).frameNumber = wireNumber (ks i m)) (hin : InCycle ks feed)
    {a j : Fin n} (ha : ∀ r, ServedAt feed r a) {r : ℕ} (hj : j ∈ takenAt feed (posAt feed r))
    (hend : CycleEnd (ks j) (posAt feed r j)) :
    ks a (posAt feed r a) / 255 < ks a (posAt feed (r + 1) a) / 255 := by
  have htop : ∀ i, (feed i (posAt feed (r + 1) i)).frameNumber < 256 := by
    intro i
    rw [hlabel]
    unfold wireNumber
    omega
  obtain ⟨b, hb⟩ := List.exists_mem_of_ne_nil _ (chosen_ne_nil (Fin.pos j) htop)
  have hsb : ServedAt feed (r + 1) b := ⟨r + 1, le_rfl, hb⟩
  have hsb' : ServedAt feed r b := hsb.of_le (Nat.le_succ r)
  have hnow := hin r a b (ha r) hsb'
  have hjb := hin r j b ⟨r, le_rfl, hj⟩ hsb'
  have hthen := hin (r + 1) a b (ha (r + 1)) hsb
  -- Frame b is at least as late as the one taken from j, the next of j has wrapped.
  have hnum := number_le hlabel hj b
  have hleast := number_le hlabel hb j
  have hgap := (hk j).gap (posAt feed r j)
  have hmono : ks b (posAt feed r b) ≤ ks b (posAt feed (r + 1) b) :=
    (hk b).mono.monotone (position_le_succ r b)
  rw [show posAt feed (r + 1) j = posAt feed r j + 1 from advance_of_chosen hj] at hleast
  unfold CycleEnd at hend
  unfold wireNumber at hnum hleast
  rw [hthen, hnow]
  omega

/- A link that is never served is left at the end of the first cycle. -/
theorem left_of_never_served (hk : ∀ i, LossyLink (ks i))
    (hlabel : ∀ i m, (feed i m).frameNumber = wireNumber (ks i m)) {a j : Fin n}
    (ha : ∀ r, ServedAt feed r a) (hj : ¬ServedAt feed 0 j) {m : ℕ} (hm : CycleEnd (ks a) m) :
    ∃ e ≤ m, ∃ m', LeftAt (ks a) (ks j) e m' := by
  obtain ⟨e, -, hend, hcycle⟩ := (hk a).exists_cycleEnd 0
  have hfa := (hk a).first
  have hfj := (hk j).first
  have hc : ks j (posAt feed 0 j) / 255 = ks a e / 255 := by
    change ks j 0 / 255 = ks a e / 255
    omega
  have hnum := number_lt_of_not_served hlabel ha hj (Nat.zero_le e)
  unfold wireNumber at hnum
  refine ⟨e, (hk a).le_of_cycle hm (by omega), _, leftAt_of_not_served hlabel ha hj hend
    (Nat.zero_le _) hc (by omega) fun l hl => absurd hl (Nat.not_lt_zero l)⟩

/- A link whose last frame that is taken is not the last of its cycle. -/
theorem left_within (hk : ∀ i, LossyLink (ks i))
    (hlabel : ∀ i m, (feed i m).frameNumber = wireNumber (ks i m)) (hin : InCycle ks feed)
    {a j : Fin n} (ha : ∀ r, ServedAt feed r a) {r : ℕ} (hj : ¬ServedAt feed (r + 1) j)
    (htaken : j ∈ takenAt feed (posAt feed r)) (hno : ¬CycleEnd (ks j) (posAt feed r j)) {m : ℕ}
    (hm : CycleEnd (ks a) m) (hle : posAt feed r a ≤ m) :
    ∃ e ≤ m, ∃ m', LeftAt (ks a) (ks j) e m' := by
  obtain ⟨e, he, hend, hcycle⟩ := (hk a).exists_cycleEnd (posAt feed r a)
  have hpos : posAt feed (r + 1) j = posAt feed r j + 1 := advance_of_chosen htaken
  have hboth := hin r j a ⟨r, le_rfl, htaken⟩ (ha r)
  have hstep : ks j (posAt feed r j) < ks j (posAt feed r j + 1) := (hk j).mono (Nat.lt_succ_self _)
  have hleast := number_le hlabel htaken a
  have hreach : ks a (posAt feed r a) ≤ ks a e := (hk a).mono.monotone he
  have hone : posAt feed (r + 1) a ≤ posAt feed r a + 1 := position_succ_le r a
  unfold CycleEnd at hno
  unfold wireNumber at hleast
  have hc : ks j (posAt feed (r + 1) j) / 255 = ks a e / 255 := by
    rw [hpos]
    omega
  have hlt : ks a e < ks j (posAt feed (r + 1) j) := by
    by_cases hi : posAt feed (r + 1) a ≤ e
    · have hnum := number_lt_of_not_served hlabel ha hj hi
      unfold wireNumber at hnum
      omega
    · have hsame : posAt feed r a = e := by omega
      have hi' : a ∈ takenAt feed (posAt feed r) := by
        by_contra hno'
        have hstay : posAt feed (r + 1) a = posAt feed r a := advance_of_not_chosen hno'
        omega
      have hnum := number_le hlabel hi' j
      unfold wireNumber at hnum
      rw [← hsame, hpos]
      omega
  refine ⟨e, ?_, _, leftAt_of_not_served hlabel ha hj hend ?_ hc hlt ?_⟩
  · apply (hk a).le_of_cycle hm
    rw [hcycle]
    exact (hk a).cycle_mono hle
  · omega
  · intro l hl
    have hlast : ks j l ≤ ks j (posAt feed r j) := (hk j).mono.monotone (by omega)
    omega

/- A link whose last frame that is taken is the last of its cycle. -/
theorem left_at_end (hk : ∀ i, LossyLink (ks i))
    (hlabel : ∀ i m, (feed i m).frameNumber = wireNumber (ks i m)) (hin : InCycle ks feed)
    {a j : Fin n} (ha : ∀ r, ServedAt feed r a) {r : ℕ} (hj : ¬ServedAt feed (r + 1) j)
    (htaken : j ∈ takenAt feed (posAt feed r)) (hlast : CycleEnd (ks j) (posAt feed r j)) {m : ℕ}
    (hm : CycleEnd (ks a) m) (hle : posAt feed (r + 1) a ≤ m) :
    ∃ e ≤ m, ∃ m', LeftAt (ks a) (ks j) e m' := by
  obtain ⟨e, he, hend, hcycle⟩ := (hk a).exists_cycleEnd (posAt feed (r + 1) a)
  have hpos : posAt feed (r + 1) j = posAt feed r j + 1 := advance_of_chosen htaken
  have hboth := hin r j a ⟨r, le_rfl, htaken⟩ (ha r)
  have hleaves := leaves_with hk hlabel hin ha htaken hlast
  have hone : ks a (posAt feed (r + 1) a) / 255 ≤ ks a (posAt feed r a + 1) / 255 :=
    (hk a).cycle_mono (position_succ_le r a)
  have hstep := (hk a).cycle_succ_le (posAt feed r a)
  have hstep' := (hk j).cycle_succ_le (posAt feed r j)
  have hc : ks j (posAt feed (r + 1) j) / 255 = ks a e / 255 := by
    unfold CycleEnd at hlast
    rw [hpos]
    omega
  have hnum := number_lt_of_not_served hlabel ha hj he
  unfold wireNumber at hnum
  refine ⟨e, ?_, _, leftAt_of_not_served hlabel ha hj hend (Nat.le_succ_of_le he) hc
    (by omega) ?_⟩
  · apply (hk a).le_of_cycle hm
    rw [hcycle]
    exact (hk a).cycle_mono hle
  · intro l hl
    have hval : ks j l ≤ ks j (posAt feed r j) := (hk j).mono.monotone (by omega)
    omega

/- A link that is still served when link `a` has ended the cycle. -/
theorem endsAlike_of_served
    (hlabel : ∀ i m, (feed i m).frameNumber = wireNumber (ks i m)) (hin : InCycle ks feed)
    {a j : Fin n} (ha : ∀ r, ServedAt feed r a) {q : ℕ} (hi : a ∈ takenAt feed (posAt feed q))
    (hend : CycleEnd (ks a) (posAt feed q a)) (hj : ServedAt feed (q + 1) j) :
    EndsAlike (ks a) (ks j) (posAt feed q a) := by
  have hadv : posAt feed (q + 1) a = posAt feed q a + 1 := advance_of_chosen hi
  have hnow := hin q j a (hj.of_le (Nat.le_succ q)) (ha q)
  have hthen := hin (q + 1) j a hj (ha (q + 1))
  unfold CycleEnd at hend
  have htaken : j ∈ takenAt feed (posAt feed q) := by
    by_contra hno
    rw [show posAt feed (q + 1) j = posAt feed q j from advance_of_not_chosen hno, hadv] at hthen
    omega
  rw [show posAt feed (q + 1) j = posAt feed q j + 1 from advance_of_chosen htaken, hadv] at hthen
  have hle := number_le hlabel hi j
  have hge := number_le hlabel htaken a
  unfold wireNumber at hle hge
  exact ⟨posAt feed q j, by omega, show _ < _ by omega⟩

/-- A link that is served without end leads. -/
theorem leads_of_inCycle (hk : ∀ i, LossyLink (ks i))
    (hlabel : ∀ i m, (feed i m).frameNumber = wireNumber (ks i m)) (hin : InCycle ks feed)
    {a : Fin n} (ha : ∀ r, ServedAt feed r a) : Leads ks a := by
  intro j m hm
  obtain ⟨q, rfl, hi⟩ : ∃ q, posAt feed q a = m ∧ a ∈ takenAt feed (posAt feed q) :=
    exists_taken ha m
  by_cases hj : ServedAt feed (q + 1) j
  · exact .inl (endsAlike_of_served hlabel hin ha hi hm hj)
  have hlast : ¬ServedAt feed 0 j ∨
      ∃ r < q + 1, j ∈ takenAt feed (posAt feed r) ∧ ¬ServedAt feed (r + 1) j :=
    never_or_last_served hj
  rcases hlast with hnever | ⟨r, hr, htaken, hno⟩
  · exact .inr (left_of_never_served hk hlabel ha hnever hm)
  by_cases hend : CycleEnd (ks j) (posAt feed r j)
  · rcases Nat.eq_or_lt_of_le (Nat.le_of_lt_succ hr) with rfl | hlt
    · left
      have hboth := hin r j a ⟨r, le_rfl, htaken⟩ (ha r)
      have hle := number_le hlabel hi j
      have hge := number_le hlabel htaken a
      unfold wireNumber at hle hge
      exact ⟨posAt feed r j, by omega, hend⟩
    · exact .inr (left_at_end hk hlabel hin ha hno htaken hend hm (position_mono a hlt))
  · exact .inr (left_within hk hlabel hin ha hno htaken hend hm
      (position_mono a (Nat.le_of_lt_succ hr)))

/- Frames compared in some run of the merge are those compared at large. -/
theorem inCycle_of_inStep (hk : ∀ i, LossyLink (ks i))
    (hlabel : ∀ i m, (feed i m).frameNumber = wireNumber (ks i m))
    (hs : ∀ tr (s : State n), system.Run tr s → Carries ks tr → InStep ks tr) :
    InCycle ks feed := by
  rintro r i j ⟨q, hq, hi⟩ ⟨q', hq', hj⟩
  obtain ⟨m, hm, hm'⟩ : ∃ m, q < m ∧ q' < m := ⟨q + q' + 1, by omega, by omega⟩
  obtain ⟨tr, s, h, hp, hlen⟩ := exists_rounds feed m m le_rfl
  have hx : Extends feed fun i => pushed i tr := extends_range hp
  have hc : Carries ks tr := fun i l p hl => (hx i l p hl) ▸ hlabel i l
  have hcycle := (inStep_iff_sameCycle hk h hc).mp (hs tr s h hc)
  have hr : r < (rounds tr).length := by omega
  have houtput : ∀ {q i}, r ≤ q → q < m → i ∈ takenAt feed (posAt feed q) → Output tr r i := by
    intro q i hq hm hi
    exact output_of_poppedAt h hx hq ((poppedAt_iff h hx q i).mpr ⟨hlen ▸ hm, hi⟩)
  have hsame := hcycle r hr i j (houtput hq hm hi) (houtput hq' hm' hj)
  rw [consumed_eq h hx i hr.le, consumed_eq h hx j hr.le] at hsame
  exact hsame

end merge

/-- The losses that keep every run in step are those with a link that leads. -/
theorem inStep_iff_leads {ks : Fin n → ℕ → ℕ} (hn : 0 < n) (hk : ∀ i, LossyLink (ks i)) :
    (∀ tr (s : State n), system.Run tr s → Carries ks tr → InStep ks tr) ↔ ∃ a, Leads ks a := by
  constructor
  · intro hs
    have hlabel : ∀ i m, FpgaPacket.frameNumber ⟨[], wireNumber (ks i m), []⟩ =
        wireNumber (ks i m) := fun _ _ => rfl
    have htop : ∀ i m, FpgaPacket.frameNumber ⟨[], wireNumber (ks i m), []⟩ < 256 := by
      intro i m
      rw [hlabel]
      unfold wireNumber
      omega
    obtain ⟨a, ha⟩ := exists_served_forever hn htop
    exact ⟨a, leads_of_inCycle hk hlabel (inCycle_of_inStep hk hlabel hs) ha⟩
  · rintro ⟨a, ha⟩ tr s h hp
    obtain ⟨feed, hx, hlabel⟩ := hp.exists_feed
    exact inStep_of_sameCycle (fun i => (hk i).mono) h hx hlabel
      (sameCycle_of_leads hk h hx hlabel ha)

/- The second link of `main` misses its first frame. -/
def lateStart (i : Fin 2) (m : ℕ) : ℕ := m + i.val

theorem lateStart_lossy (i : Fin 2) : LossyLink (lateStart i) := by
  have hi := i.isLt
  refine ⟨fun m m' hm => Nat.add_lt_add_right hm _, ?_, fun m => ?_⟩
  · simp only [lateStart]
    omega
  · simp only [lateStart]
    omega

/- In step across the first wrap. -/
theorem inStep_iff_leads_lateStart :
    ∃ tr s, (system (n := 2)).Run tr s ∧ (rounds tr).length = 300 ∧ InStep lateStart tr := by
  obtain ⟨tr, s, h, hp, hr⟩ := exists_rounds (fun i m => linkPacket i (lateStart i m % 255)) 300
    300 le_rfl
  have hx : Extends (fun i m => linkPacket i (lateStart i m % 255)) fun i => pushed i tr :=
    extends_range hp
  have hc : Carries lateStart tr := fun i m p hm => (hx i m p hm) ▸ rfl
  have hleads : Leads lateStart 0 := by
    intro j m hm
    have hj := j.isLt
    simp only [CycleEnd, lateStart, Fin.val_zero] at hm
    refine .inl ⟨m - j.val, ?_, ?_⟩
    · simp only [lateStart, Fin.val_zero]
      omega
    · simp only [CycleEnd, lateStart]
      omega
  exact ⟨tr, s, h, hr, (inStep_iff_leads (by decide) lateStart_lossy).mpr ⟨0, hleads⟩ tr s h hc⟩

/-! ### A wrap that is missed -/

/- Frame 254 arrives while the other link has lost its frames from 200 to 254. -/
def earlyLink : ℕ → ℕ
  | 0 => 99
  | 1 => 199
  | m + 2 => 254 + m

def lateLink : ℕ → ℕ
  | 0 => 99
  | 1 => 199
  | 2 => 255
  | 3 => 355
  | 4 => 455
  | m + 5 => 509 + m

def wrapLinks : Fin 2 → ℕ → ℕ
  | 0 => earlyLink
  | 1 => lateLink

theorem earlyLink_lossy : LossyLink earlyLink := by
  refine ⟨strictMono_nat_of_lt_succ ?_, by decide, ?_⟩
  · rintro (_ | _ | m)
    · decide
    · decide
    · exact Nat.lt_succ_self _
  · rintro (_ | _ | m)
    · decide
    · decide
    · change 254 + (m + 1) ≤ 254 + m + 100
      omega

theorem lateLink_lossy : LossyLink lateLink := by
  refine ⟨strictMono_nat_of_lt_succ ?_, by decide, ?_⟩
  · rintro (_ | _ | _ | _ | _ | m)
    · decide
    · decide
    · decide
    · decide
    · decide
    · exact Nat.lt_succ_self _
  · rintro (_ | _ | _ | _ | _ | m)
    · decide
    · decide
    · decide
    · decide
    · decide
    · change 509 + (m + 1) ≤ 509 + m + 100
      omega

theorem wrapLinks_lossy : ∀ i, LossyLink (wrapLinks i)
  | 0 => earlyLink_lossy
  | 1 => lateLink_lossy

def wrapFeed (i : Fin 2) (m : ℕ) : FpgaPacket := linkPacket i (wrapLinks i m % 255)

def pair (a b : ℕ) : Fin 2 → ℕ
  | 0 => a
  | 1 => b

theorem advance_pair {a b c d : ℕ}
    (h0 : advance FpgaPacket.frameNumber 256 wrapFeed (pair a b) 0 = c)
    (h1 : advance FpgaPacket.frameNumber 256 wrapFeed (pair a b) 1 = d) :
    advance FpgaPacket.frameNumber 256 wrapFeed (pair a b) = pair c d := by
  funext i
  match i with
  | 0 => exact h0
  | 1 => exact h1

theorem posAt_wrapFeed : posAt wrapFeed 5 = pair 2 5 := by
  have h0 : posAt wrapFeed 0 = pair 0 0 := by
    funext i
    match i with
    | 0 => rfl
    | 1 => rfl
  have h1 : posAt wrapFeed 1 = pair 1 1 :=
    (congrArg _ h0).trans (advance_pair (by decide) (by decide))
  have h2 : posAt wrapFeed 2 = pair 2 2 :=
    (congrArg _ h1).trans (advance_pair (by decide) (by decide))
  have h3 : posAt wrapFeed 3 = pair 2 3 :=
    (congrArg _ h2).trans (advance_pair (by decide) (by decide))
  have h4 : posAt wrapFeed 4 = pair 2 4 :=
    (congrArg _ h3).trans (advance_pair (by decide) (by decide))
  exact (congrArg _ h4).trans (advance_pair (by decide) (by decide))

/-- The sixth message combines frame 254 with frame 509, and frames 255, 355
and 455 have been sent before frame 254. -/
theorem wrap_combines_frames :
    (∀ i, LossyLink (wrapLinks i)) ∧ ∃ tr s, system.Run tr s ∧
      (∀ i, pushed i tr = (List.range 6).map fun m => linkPacket i (wrapLinks i m % 255)) ∧
      PoppedAt tr 5 0 ∧ PoppedAt tr 5 1 ∧ wrapLinks 0 (consumed tr 5 0) = 254 ∧
      wrapLinks 1 (consumed tr 5 1) = 509 ∧ ¬InStep wrapLinks tr := by
  obtain ⟨tr, s, h, hp, hr⟩ := exists_rounds wrapFeed 6 6 le_rfl
  have hx : Extends wrapFeed fun i => pushed i tr := extends_range hp
  have hpos : ∀ i, consumed tr 5 i = pair 2 5 i := by
    intro i
    rw [consumed_eq h hx i (by omega), posAt_wrapFeed]
  have h0 : PoppedAt tr 5 0 := by
    rw [poppedAt_iff h hx, posAt_wrapFeed]
    exact ⟨by omega, by decide⟩
  have h1 : PoppedAt tr 5 1 := by
    rw [poppedAt_iff h hx, posAt_wrapFeed]
    exact ⟨by omega, by decide⟩
  have he : wrapLinks 0 (consumed tr 5 0) = 254 := by
    rw [hpos]
    rfl
  have hl : wrapLinks 1 (consumed tr 5 1) = 509 := by
    rw [hpos]
    rfl
  refine ⟨wrapLinks_lossy, tr, s, h, hp, h0, h1, he, hl, ?_⟩
  intro hs
  have htog := hs.together 5 0 1 h0 h1
  rw [he, hl] at htog
  cases htog

end OSwitch.Concatinator
