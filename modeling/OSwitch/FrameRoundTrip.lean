import OSwitch.ReceiverSocket
import OSwitch.SenderSocket

/-!
# From the sender's buffer to the receiver's packet

A frame of `StartTransmitting` has 19 bytes in front of its 6144 byte message,
which is the size that `StartReceiving` expects. The receiver hands one byte
less to the decoder, so the id and the number come through and the message
loses its last byte.
-/

namespace OSwitch.FrameRoundTrip
open Wire StdText SenderSocket ReceiverSocket

variable {senderId payload : Bytes} {s : SenderSocket.State}

/- The frame passes the length test and is decoded to what was sent. -/
def RoundTrip (senderId payload : Bytes) (s : SenderSocket.State) (buf : RecvBuffer) : Prop :=
  let frame := (sendBuf senderId payload s).1
  frame.length = currentFpgaPacketSize ∧
    ∃ p, FpgaPacket.ofRaw (buf.fill frame).bytes (frame.length - 1) = .ok p ∧
      p.sourceId = senderId ∧ p.frameNumber = s.frameNumber ∧ p.data = payload

theorem sendBuf_length (h : Ready s) (hid : senderId.length = 10) (hp : payload.length = 6144) :
    (sendBuf senderId payload s).1.length = currentFpgaPacketSize := by
  rw [sendBuf_ready h, wireText_length, hid, hp]
  rfl

theorem stoi_sendBuf (h : Ready s) :
    stoi [digitChar (s.frameNumber.toNat / 16), digitChar (s.frameNumber.toNat % 16)] =
      .ok s.frameNumber := by
  have hn := h.nonneg
  have hl := h.le
  rw [stoi_byte (by omega), Int.toNat_of_nonneg hn]

/-- The decoder gets the id, the number and all but the last byte. -/
theorem ofRaw_sendBuf (h : Ready s) (hid : senderId.length = 10) (hp : payload.length = 6144)
    (buf : RecvBuffer) :
    FpgaPacket.ofRaw (buf.fill (sendBuf senderId payload s).1).bytes
        ((sendBuf senderId payload s).1.length - 1) =
      .ok ⟨senderId, s.frameNumber, payload.dropLast⟩ := by
  have hlen := sendBuf_length h hid hp
  have hb : (sendBuf senderId payload s).1.length ≤ sizeOfBuffers := by
    rw [hlen]
    decide
  have hread : ∀ lo hi, hi ≤ 6163 →
      slice (buf.fill (sendBuf senderId payload s).1).bytes lo hi =
        slice (sendBuf senderId payload s).1 lo hi := fun lo hi hhi =>
    slice_fill buf _ lo hi hb (by rw [hlen]; exact hhi)
  obtain ⟨hsid, hnum, hdata⟩ := slice_wireText senderId payload
    (digitChar (s.frameNumber.toNat / 16)) (digitChar (s.frameNumber.toNat % 16)) hid 6162
  rw [← sendBuf_ready h] at hsid hnum hdata
  have hv : stoi (slice (buf.fill (sendBuf senderId payload s).1).bytes 17 19) =
      .ok s.frameNumber := by
    rw [hread 17 19 (by omega), hnum]
    exact stoi_sendBuf h
  rw [ofRaw_ok hv, hlen, hread 1 11 (by omega), hsid,
    show currentFpgaPacketSize - 1 = 6162 from rfl, hread 19 6162 (by omega), hdata,
    List.dropLast_eq_take, hp]

/-- The receiver of this sender queues that packet. -/
theorem iteration_sendBuf (h : Ready s) (hid : senderId.length = 10) (hp : payload.length = 6144)
    (r : ReceiverSocket.State) (t : ℕ) (ht : t ≠ packetOutgoing) :
    ReceiverSocket.iteration senderId r (.datagram t (sendBuf senderId payload s).1) =
      .ok (⟨r.buf.fill (sendBuf senderId payload s).1, t⟩,
        some ⟨senderId, s.frameNumber, payload.dropLast⟩) := by
  obtain ⟨hsid, hnum, hdata⟩ := slice_wireText senderId payload
    (digitChar (s.frameNumber.toNat / 16)) (digitChar (s.frameNumber.toNat % 16)) hid 6162
  rw [← sendBuf_ready h] at hsid hnum hdata
  have hv : stoi (slice (sendBuf senderId payload s).1 17 19) = .ok s.frameNumber := by
    rw [hnum]
    exact stoi_sendBuf h
  rw [iteration_decoded ⟨ht, sendBuf_length h hid hp⟩ hv, hsid, if_pos rfl, hdata,
    List.dropLast_eq_take, hp]

theorem not_roundTrip_of_ready (h : Ready s) (hid : senderId.length = 10)
    (hp : payload.length = 6144) (buf : RecvBuffer) : ¬RoundTrip senderId payload s buf := by
  rintro ⟨-, p, hdec, -, -, hdata⟩
  rw [ofRaw_sendBuf h hid hp buf] at hdec
  cases hdec
  have hlen := congrArg List.length hdata
  rw [List.length_dropLast, hp] at hlen
  omega

/-- No frame of any sender comes through whole. -/
theorem frame_never_roundTrips (hid : senderId.length = 10) (hp : payload.length = 6144)
    (hs : (startTransmitting senderId payload).Reachable s) (buf : RecvBuffer) :
    ¬RoundTrip senderId payload s buf :=
  not_roundTrip_of_ready (ready_of_reachable hs) hid hp buf

theorem frame_never_roundTrips_lan2 :
    ¬RoundTrip (text "lan2&%argw") msg2 start
      ⟨List.replicate sizeOfBuffers 0, List.length_replicate⟩ :=
  frame_never_roundTrips rfl List.length_replicate ⟨[], .init rfl⟩ _

/-- The first frame of the first sender of `main`. -/
theorem first_frame_lan1 :
    ¬RoundTrip (text "lan1&%argw") msg1 start
      ⟨List.replicate sizeOfBuffers 0, List.length_replicate⟩ :=
  not_roundTrip_of_ready start_ready rfl List.length_replicate _

end OSwitch.FrameRoundTrip
