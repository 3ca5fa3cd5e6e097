import OSwitch.StdText

/-!
# The packet on the wire (`channel/fpga_packet.hh`, `channel/src/fpga_packet.cc`)

Both the senders and the concatinator write `"[" + ids + "]---> " + number +
data`; the constructor of `FPGA_Packet` reads such a frame at fixed indices.
-/

namespace OSwitch
open Wire StdText

structure FpgaPacket where
  sourceId : Bytes
  frameNumber : ℤ
  data : Bytes
  deriving DecidableEq, Repr

def startIndexId : ℕ := 1
def endIndexId : ℕ := 10
def msbFrameNumIndex : ℕ := 17
def lsbFrameNumIndex : ℕ := 18

/-- `FPGA_Packet(raw_data, numbyte)`; an exception of `std::stoi` leaves the
constructor. -/
def FpgaPacket.ofRaw (rawData : Bytes) (numbyte : ℕ) : Except StdException FpgaPacket := do
  let sourceId := slice rawData startIndexId (endIndexId + 1)
  let frameNumber ← stoi (slice rawData msbFrameNumIndex (lsbFrameNumIndex + 1))
  let data := slice rawData (lsbFrameNumIndex + 1) numbyte
  return ⟨sourceId, frameNumber, data⟩

/-- `"[" + ids + "]---> " + number + data` -/
def wireText (ids number data : Bytes) : Bytes :=
  text "[" ++ ids ++ text "]---> " ++ number ++ data

theorem wireText_length (ids number data : Bytes) :
    (wireText ids number data).length = 7 + ids.length + number.length + data.length := by
  have h1 : (text "[").length = 1 := rfl
  have h2 : (text "]---> ").length = 6 := rfl
  simp only [wireText, List.length_append, h1, h2]
  omega

theorem ofRaw_error {rawData : Bytes} {numbyte : ℕ} {e : StdException}
    (h : stoi (slice rawData 17 19) = .error e) : FpgaPacket.ofRaw rawData numbyte = .error e := by
  unfold FpgaPacket.ofRaw msbFrameNumIndex lsbFrameNumIndex
  rw [h]
  rfl

theorem ofRaw_ok {rawData : Bytes} {numbyte : ℕ} {v : ℤ}
    (h : stoi (slice rawData 17 19) = .ok v) :
    FpgaPacket.ofRaw rawData numbyte =
      .ok ⟨slice rawData 1 11, v, slice rawData 19 numbyte⟩ := by
  unfold FpgaPacket.ofRaw msbFrameNumIndex lsbFrameNumIndex
  rw [h]
  rfl

/-- The fields of a frame with a 10-byte id and a two-byte number are where the
constructor looks for them. -/
theorem slice_wireText (id data : Bytes) (a b : Byte) (hid : id.length = 10) (hi : ℕ) :
    slice (wireText id [a, b] data) 1 11 = id ∧
      slice (wireText id [a, b] data) 17 19 = [a, b] ∧
      slice (wireText id [a, b] data) 19 hi = data.take (hi - 19) := by
  have h1 : text "[" = [91] := rfl
  have h2 : text "]---> " = [93, 45, 45, 45, 62, 32] := rfl
  have hw : wireText id [a, b] data = 91 :: (id ++ ([93, 45, 45, 45, 62, 32, a, b] ++ data)) := by
    simp [wireText, h1, h2]
  have hdrop : ∀ k, (wireText id [a, b] data).drop (11 + k) =
      ([93, 45, 45, 45, 62, 32, a, b] ++ data).drop k := by
    intro k
    rw [hw, show 11 + k = (id.length + k) + 1 by omega, List.drop_succ_cons, List.drop_append]
    simp
  refine ⟨?_, ?_, ?_⟩
  · rw [slice, hw, List.drop_succ_cons, List.drop_zero]
    rw [show 11 - 1 = id.length by omega, List.take_left]
  · rw [slice, show 17 = 11 + 6 by rfl, hdrop 6]
    rfl
  · rw [slice, show (wireText id [a, b] data).drop 19 = data from hdrop 8]

end OSwitch
