import OSwitch.ReceiverSocket

/-!
# The receiver under arbitrary traffic

The number of every frame of the right size is converted before its id is
compared, and `std::stoi` converts more than two hexadecimal digits and throws
on the rest. The traffic that the loop handles as intended is described here
datagram by datagram.
-/

namespace OSwitch.ReceiverSocket
open Wire StdText

/- The value of the two hexadecimal digits at bytes 17 and 18, where both are. -/
def hexPair (bytes : Bytes) : Option ℕ :=
  match slice bytes 17 19 with
  | [a, b] =>
    match hexValue a, hexValue b with
    | some x, some y => some (16 * x + y)
    | _, _ => none
  | _ => none

/- `std::stoi` converts something at bytes 17 and 18. -/
def convertible (bytes : Bytes) : Bool :=
  match slice bytes 17 19 with
  | [a, b] => converts a b
  | _ => false

/-- A frame is harmless if it is not looked into, if its number is two
hexadecimal digits, or if something is converted and the id is a foreign one. -/
def Benign (senderId : Bytes) : Recv → Prop
  | .failed => True
  | .datagram t bytes => Examined t bytes →
      (hexPair bytes).isSome ∨ convertible bytes ∧ slice bytes 1 11 ≠ senderId

/- What is asked of the loop on the arrivals `rs`. -/
structure Robust (senderId : Bytes) (sq : State × List FpgaPacket) (rs : List Recv) : Prop where
  noException : ∃ sq', startReceiving senderId sq rs = .ok sq'
  numbered : ∀ pre r post s q s' p, rs = pre ++ r :: post →
    startReceiving senderId sq pre = .ok (s, q) → iteration senderId s r = .ok (s', some p) →
    ∃ t bytes v, r = .datagram t bytes ∧ hexPair bytes = some v ∧ p.frameNumber = v ∧ v ≤ 255
  undisturbed : ∀ pre t bytes post s q, rs = pre ++ .datagram t bytes :: post →
    startReceiving senderId sq pre = .ok (s, q) → bytes.length = currentFpgaPacketSize →
    hexPair bytes = none →
    ∃ s', startReceiving senderId sq (pre ++ [.datagram t bytes]) = .ok (s', q)

/-! ### The digits -/

theorem slice_number {t : ℕ} {bytes : Bytes} (h : Examined t bytes) :
    ∃ a b, slice bytes 17 19 = [a, b] := by
  have hlen : bytes.length = 6163 := h.2
  exact ⟨_, _, slice_pair bytes 17 (by omega)⟩

theorem stoi_of_hexPair {bytes : Bytes} {v : ℕ} (h : hexPair bytes = some v) :
    stoi (slice bytes 17 19) = .ok (v : ℕ) ∧ v ≤ 255 := by
  unfold hexPair at h
  split at h
  next a b hs =>
    rw [hs]
    split at h
    next x y hx hy =>
      have hx15 := hexValue_le hx
      have hy15 := hexValue_le hy
      cases h
      exact ⟨stoi_digits hx hy, by omega⟩
    next => cases h
  next => cases h

theorem stoi_of_convertible {bytes : Bytes} (h : convertible bytes = true) :
    ∃ v, stoi (slice bytes 17 19) = .ok v := by
  unfold convertible at h
  split at h
  next a b hs =>
    rw [hs]
    exact stoi_of_converts h
  next => cases h

theorem stoi_of_not_convertible {t : ℕ} {bytes : Bytes} (he : Examined t bytes)
    (h : ¬convertible bytes = true) : stoi (slice bytes 17 19) = .error .invalidArgument := by
  obtain ⟨a, b, hs⟩ := slice_number he
  unfold convertible at h
  rw [hs] at h ⊢
  exact stoi_of_not_converts (by simpa using h)

/-! ### One iteration -/

/-- On a harmless arrival the iteration ends normally; a packet that it pushes
has two hexadecimal digits for its number. -/
theorem iteration_benign {senderId : Bytes} {s : State} {r : Recv} (h : Benign senderId r) :
    ∃ s' o, iteration senderId s r = .ok (s', o) ∧
      ∀ p, o = some p → ∃ t bytes v,
        r = .datagram t bytes ∧ hexPair bytes = some v ∧ p.frameNumber = v ∧ v ≤ 255 := by
  cases r with
  | failed => exact ⟨s, none, iteration_failed senderId s, fun p hp => by cases hp⟩
  | datagram t bytes =>
    by_cases he : Examined t bytes
    · rcases h he with hsome | ⟨hconv, hid⟩
      · obtain ⟨v, hv⟩ := Option.isSome_iff_exists.mp hsome
        obtain ⟨hs, hle⟩ := stoi_of_hexPair hv
        refine ⟨_, _, iteration_decoded he hs, ?_⟩
        intro p hp
        split at hp
        · cases hp
          exact ⟨t, bytes, v, rfl, hv, rfl, hle⟩
        · cases hp
      · obtain ⟨v, hs⟩ := stoi_of_convertible hconv
        refine ⟨_, _, iteration_decoded he hs, ?_⟩
        intro p hp
        rw [if_neg hid] at hp
        cases hp
    · refine ⟨_, _, iteration_ignored senderId s he, ?_⟩
      intro p hp
      cases hp

/-- Any other arrival ends the loop or puts a packet into the queue whose
number is not two hexadecimal digits. -/
theorem iteration_not_benign {senderId : Bytes} {s : State} {r : Recv} (h : ¬Benign senderId r) :
    ∃ t bytes, r = .datagram t bytes ∧ bytes.length = currentFpgaPacketSize ∧
      hexPair bytes = none ∧ ((∃ e, iteration senderId s r = .error e) ∨
        ∃ s' p, iteration senderId s r = .ok (s', some p)) := by
  cases r with
  | failed => exact absurd trivial h
  | datagram t bytes =>
    unfold Benign at h
    push Not at h
    obtain ⟨he, hnone, hid⟩ := h
    refine ⟨t, bytes, rfl, he.2, by simpa using hnone, ?_⟩
    by_cases hconv : convertible bytes = true
    · obtain ⟨v, hs⟩ := stoi_of_convertible hconv
      have hpush : iteration senderId s (.datagram t bytes) = _ := iteration_decoded he hs
      rw [if_pos (hid hconv)] at hpush
      exact .inr ⟨_, _, hpush⟩
    · exact .inl ⟨_, iteration_error he (stoi_of_not_convertible he hconv)⟩

/-! ### Runs of the loop -/

theorem startReceiving_append (senderId : Bytes) (sq : State × List FpgaPacket)
    (rs rs' : List Recv) :
    startReceiving senderId sq (rs ++ rs') =
      (startReceiving senderId sq rs).bind fun sq' => startReceiving senderId sq' rs' := by
  induction rs generalizing sq with
  | nil => rfl
  | cons r rs ih =>
    simp only [List.cons_append, startReceiving]
    cases iteration senderId sq.1 r with
    | error e => rfl
    | ok so => exact ih _

theorem startReceiving_snoc {senderId : Bytes} {sq : State × List FpgaPacket} {rs : List Recv}
    {s s' : State} {q : List FpgaPacket} {r : Recv} {o : Option FpgaPacket}
    (h : startReceiving senderId sq rs = .ok (s, q)) (hr : iteration senderId s r = .ok (s', o)) :
    startReceiving senderId sq (rs ++ [r]) = .ok (s', q ++ o.toList) := by
  rw [startReceiving_append, h]
  simp only [Except.bind, startReceiving, hr]
  rfl

/-- A run that ends normally has ended normally at every earlier point. -/
theorem startReceiving_initial {senderId : Bytes} {sq sq' : State × List FpgaPacket}
    {rs rs' : List Recv} (h : startReceiving senderId sq (rs ++ rs') = .ok sq') :
    ∃ s q, startReceiving senderId sq rs = .ok (s, q) := by
  rw [startReceiving_append] at h
  cases hs : startReceiving senderId sq rs with
  | error e =>
    rw [hs] at h
    cases h
  | ok sq₁ => exact ⟨sq₁.1, sq₁.2, rfl⟩

theorem startReceiving_benign {senderId : Bytes} (sq : State × List FpgaPacket) {rs : List Recv}
    (h : ∀ r ∈ rs, Benign senderId r) : ∃ sq', startReceiving senderId sq rs = .ok sq' := by
  induction rs generalizing sq with
  | nil => exact ⟨sq, rfl⟩
  | cons r rs ih =>
    obtain ⟨s', o, hr, -⟩ := iteration_benign (s := sq.1) (h r (List.mem_cons_self ..))
    simp only [startReceiving, hr]
    exact ih _ fun r' hr' => h r' (List.mem_cons_of_mem _ hr')

theorem robust_of_benign {senderId : Bytes} (sq : State × List FpgaPacket) {rs : List Recv}
    (h : ∀ r ∈ rs, Benign senderId r) : Robust senderId sq rs where
  noException := startReceiving_benign sq h
  numbered := by
    intro pre r post s q s' p hrs _ hpush
    obtain ⟨s₁, o, hr, hnum⟩ := iteration_benign (s := s) (h r (by simp [hrs]))
    rw [hr] at hpush
    cases hpush
    exact hnum p rfl
  undisturbed := by
    intro pre t bytes post s q hrs hpre _ hnone
    obtain ⟨s₁, o, hr, hnum⟩ := iteration_benign (s := s) (h (.datagram t bytes) (by simp [hrs]))
    refine ⟨s₁, ?_⟩
    have ho : o = none := by
      cases o with
      | none => rfl
      | some p =>
        obtain ⟨t', bytes', v, he, hv, -⟩ := hnum p rfl
        cases he
        rw [hnone] at hv
        cases hv
    rw [startReceiving_snoc hpre hr, ho]
    simp

/- The first arrival that is not harmless either throws or changes the queue. -/
theorem benign_of_robust {senderId : Bytes} {sq : State × List FpgaPacket} {rs : List Recv}
    (h : Robust senderId sq rs) : ∀ r ∈ rs, Benign senderId r := by
  intro r hr
  by_contra hbad
  obtain ⟨pre, post, hrs⟩ := List.append_of_mem hr
  obtain ⟨sq', hall⟩ := h.noException
  rw [hrs] at hall
  obtain ⟨s, q, hpre⟩ := startReceiving_initial hall
  obtain ⟨t, bytes, rfl, hlen, hnone, hout⟩ := iteration_not_benign (s := s) hbad
  obtain ⟨s₁, hkeep⟩ := h.undisturbed pre t bytes post s q hrs hpre hlen hnone
  rcases hout with ⟨e, he⟩ | ⟨s₂, p, hp⟩
  · rw [startReceiving_append, hpre] at hkeep
    simp only [Except.bind, startReceiving, he] at hkeep
    cases hkeep
  · rw [startReceiving_snoc hpre hp] at hkeep
    have hq : q ++ [p] = q := congrArg Prod.snd (Except.ok.inj hkeep)
    simp at hq

/-- The loop handles the arrivals as asked exactly if each of them is harmless. -/
theorem receiver_robust_iff (senderId : Bytes) (sq : State × List FpgaPacket) (rs : List Recv) :
    Robust senderId sq rs ↔ ∀ r ∈ rs, Benign senderId r :=
  ⟨benign_of_robust, robust_of_benign sq⟩

/-- One frame of the right size with zeros for its digits ends the thread. -/
theorem receiver_not_robust :
    ¬Robust (text "lan1&%argw")
      (⟨⟨List.replicate sizeOfBuffers 0, List.length_replicate⟩, 0⟩, [])
      [.datagram 0 (List.replicate 6163 0)] := by
  intro h
  have hs : slice (List.replicate 6163 0) 17 19 = [0, 0] :=
    slice_replicate 6163 17 19 0 (by omega)
  have hexamined : Examined 0 (List.replicate 6163 0) := ⟨by decide, List.length_replicate⟩
  rcases benign_of_robust h _ (List.mem_singleton.mpr rfl) hexamined with hpair | ⟨hconv, -⟩
  · rw [hexPair, hs] at hpair
    cases hpair
  · rw [convertible, hs] at hconv
    cases hconv

end OSwitch.ReceiverSocket
