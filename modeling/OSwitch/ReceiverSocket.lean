import OSwitch.FpgaPacket

/-!
# The receiver thread (`receiver_socket/src/receiver_socket.cc`)

`StartReceiving` reads every packet of the interface into one buffer, which is
never cleared, and decodes those that are not outgoing and have the size of an
FPGA frame. Only then is the id compared; a frame of the wanted sender goes to
the queue. An exception of the decoder leaves the loop and ends the thread.
-/

namespace OSwitch.ReceiverSocket
open Wire StdText

def sizeOfBuffers : ℕ := 10000
def currentFpgaPacketSize : ℕ := 6163
def packetOutgoing : ℕ := 4

/- `uint8_t buf[SIZE_OF_BUFFERS]` -/
structure RecvBuffer where
  bytes : Bytes
  size : bytes.length = sizeOfBuffers

/- A datagram overwrites the front of the buffer and is cut at its end. -/
def RecvBuffer.fill (buf : RecvBuffer) (datagram : Bytes) : RecvBuffer where
  bytes := poke buf.bytes 0 (datagram.take sizeOfBuffers)
  size := by
    rw [poke_length]
    · exact buf.size
    · rw [buf.size, List.length_take]
      omega

/- Result of `recvfrom`: a failure, or a packet and its `sll_pkttype`. -/
inductive Recv where
  | failed
  | datagram (pktType : ℕ) (bytes : Bytes)
  deriving DecidableEq, Repr

/- The buffer and the `sll_pkttype` of `address`; both outlive an iteration. -/
structure State where
  buf : RecvBuffer
  pktType : ℕ

def recvfrom (s : State) : Recv → State × ℤ
  | .failed => (s, -1)
  | .datagram t bytes => (⟨s.buf.fill bytes, t⟩, (bytes.take sizeOfBuffers).length)

/- The body of the loop after `recvfrom`: the packet for `push_back`, if any. -/
def examine (senderId : Bytes) (s : State) (numbytes : ℤ) :
    Except StdException (Option FpgaPacket) :=
  if s.pktType = packetOutgoing then .ok none
  else if numbytes = currentFpgaPacketSize then do
    let curPacket ← FpgaPacket.ofRaw s.buf.bytes (numbytes - 1).toNat
    return if curPacket.sourceId = senderId then some curPacket else none
  else .ok none

def iteration (senderId : Bytes) (s : State) (r : Recv) :
    Except StdException (State × Option FpgaPacket) := do
  let pushed ← examine senderId (recvfrom s r).1 (recvfrom s r).2
  return ((recvfrom s r).1, pushed)

/- The loop over what arrives; the second component is the queue. -/
def startReceiving (senderId : Bytes) :
    State × List FpgaPacket → List Recv → Except StdException (State × List FpgaPacket)
  | sq, [] => return sq
  | (s, queue), r :: rs => do
    let (s', pushed) ← iteration senderId s r
    startReceiving senderId (s', queue ++ pushed.toList) rs

/-! ### What an iteration reads -/

/- Reads inside the datagram do not see what the buffer held before. -/
theorem slice_fill (buf : RecvBuffer) (bytes : Bytes) (lo hi : ℕ)
    (hb : bytes.length ≤ sizeOfBuffers) (hh : hi ≤ bytes.length) :
    slice (buf.fill bytes).bytes lo hi = slice bytes lo hi := by
  simp only [RecvBuffer.fill, poke, List.take_zero, List.nil_append]
  rw [List.take_of_length_le hb, slice_append_left _ _ _ _ hh]

/- A datagram that is looked into: not outgoing and of the right size. -/
def Examined (pktType : ℕ) (bytes : Bytes) : Prop :=
  pktType ≠ packetOutgoing ∧ bytes.length = currentFpgaPacketSize

instance (t : ℕ) (bytes : Bytes) : Decidable (Examined t bytes) :=
  inferInstanceAs (Decidable (_ ∧ _))

theorem iteration_of_examine {senderId : Bytes} {s : State} {r : Recv}
    {o : Option FpgaPacket} (h : examine senderId (recvfrom s r).1 (recvfrom s r).2 = .ok o) :
    iteration senderId s r = .ok ((recvfrom s r).1, o) := by
  rw [iteration, h]
  rfl

theorem iteration_failed (senderId : Bytes) (s : State) :
    iteration senderId s .failed = .ok (s, none) := by
  apply iteration_of_examine
  change examine senderId s (-1) = .ok none
  unfold examine
  split
  · rfl
  · rw [if_neg (by decide)]

theorem iteration_ignored (senderId : Bytes) (s : State) {t : ℕ} {bytes : Bytes}
    (h : ¬Examined t bytes) :
    iteration senderId s (.datagram t bytes) = .ok (⟨s.buf.fill bytes, t⟩, none) := by
  apply iteration_of_examine
  change examine senderId ⟨s.buf.fill bytes, t⟩ (bytes.take sizeOfBuffers).length = .ok none
  unfold examine
  split
  · rfl
  next ht =>
    rw [if_neg]
    intro hlen
    apply h
    refine ⟨ht, ?_⟩
    simp only [List.length_take, currentFpgaPacketSize, sizeOfBuffers] at hlen ⊢
    omega

/- A datagram that is looked into is decoded from the bytes it brought. -/
theorem examine_examined (senderId : Bytes) (s : State) {t : ℕ} {bytes : Bytes}
    (h : Examined t bytes) :
    examine senderId ⟨s.buf.fill bytes, t⟩ (bytes.take sizeOfBuffers).length = (do
      let v ← stoi (slice bytes 17 19)
      return if slice bytes 1 11 = senderId
        then some ⟨slice bytes 1 11, v, slice bytes 19 6162⟩ else none) := by
  obtain ⟨ht, hlen⟩ := h
  have hb : bytes.length ≤ sizeOfBuffers := by
    rw [hlen]
    decide
  have hread : ∀ lo hi, hi ≤ 6163 →
      slice (s.buf.fill bytes).bytes lo hi = slice bytes lo hi := fun lo hi hhi =>
    slice_fill s.buf bytes lo hi hb (by rw [hlen]; exact hhi)
  have hnum : ((bytes.take sizeOfBuffers).length : ℤ) = currentFpgaPacketSize := by
    rw [List.take_of_length_le hb, hlen]
  unfold examine
  rw [if_neg ht, if_pos hnum, hnum, show ((currentFpgaPacketSize : ℤ) - 1).toNat = 6162 from rfl]
  cases hs : stoi (slice bytes 17 19) with
  | error e =>
    rw [ofRaw_error (by rw [hread 17 19 (by omega)]; exact hs)]
    rfl
  | ok v =>
    rw [ofRaw_ok (by rw [hread 17 19 (by omega)]; exact hs), hread 1 11 (by omega),
      hread 19 6162 (by omega)]
    rfl

theorem iteration_error {senderId : Bytes} {s : State} {t : ℕ} {bytes : Bytes} {e : StdException}
    (h : Examined t bytes) (hs : stoi (slice bytes 17 19) = .error e) :
    iteration senderId s (.datagram t bytes) = .error e := by
  have hx := examine_examined senderId s h
  rw [hs] at hx
  change (do
    let pushed ← examine senderId ⟨s.buf.fill bytes, t⟩ (bytes.take sizeOfBuffers).length
    return (_, pushed)) = _
  rw [hx]
  rfl

theorem iteration_decoded {senderId : Bytes} {s : State} {t : ℕ} {bytes : Bytes} {v : ℤ}
    (h : Examined t bytes) (hs : stoi (slice bytes 17 19) = .ok v) :
    iteration senderId s (.datagram t bytes) = .ok (⟨s.buf.fill bytes, t⟩,
      if slice bytes 1 11 = senderId then some ⟨slice bytes 1 11, v, slice bytes 19 6162⟩
      else none) := by
  have hx := examine_examined senderId s h
  rw [hs] at hx
  exact iteration_of_examine hx

/-- A packet that is pushed was cut out of the datagram just received. -/
theorem iteration_pushed {senderId : Bytes} {s s' : State} {r : Recv} {p : FpgaPacket}
    (h : iteration senderId s r = .ok (s', some p)) :
    ∃ t bytes, r = .datagram t bytes ∧ Examined t bytes ∧ p.sourceId = senderId ∧
      p.sourceId = slice bytes 1 11 ∧ stoi (slice bytes 17 19) = .ok p.frameNumber ∧
      p.data = slice bytes 19 6162 := by
  cases r with
  | failed =>
    rw [iteration_failed] at h
    cases h
  | datagram t bytes =>
    by_cases he : Examined t bytes
    · cases hs : stoi (slice bytes 17 19) with
      | error e =>
        rw [iteration_error he hs] at h
        cases h
      | ok v =>
        rw [iteration_decoded he hs] at h
        split at h
        next hid =>
          cases h
          exact ⟨t, bytes, rfl, he, hid, rfl, hs, rfl⟩
        next => cases h
    · rw [iteration_ignored senderId s he] at h
      cases h

end OSwitch.ReceiverSocket
