import OSwitch.FpgaPacket
import OSwitch.Lib.Trace

/-!
# The sender thread (`sender_socket/src/sender_socket.cc`)

`StartTransmitting` numbers its frames in a counter that is set back to 0 when
it reaches `0xff`, and only counts a frame that `sendto` accepted. The counter
and the stream that prints it are all the state that an iteration leaves to
the next one; the message is one of two fixed texts of 6144 characters.
-/

namespace OSwitch.SenderSocket
open Wire StdText Trace

structure State where
  frameNumber : ℤ
  frameNumberStream : StringStream

/- The declarations in front of the loop. -/
def start : State := ⟨0, {}⟩

def msg1 : Bytes := List.replicate (6232 - 88) (ascii '*')
def msg2 : Bytes := List.replicate (6232 - 88) (ascii '#')

/- What is handed to `sendto`, and the stream as `str("")` leaves it. -/
def sendBuf (senderId msg : Bytes) (s : State) : Bytes × StringStream :=
  let written := s.frameNumberStream.putFrameNumber s.frameNumber
  (wireText senderId written.contents msg, written.reset)

/- One iteration; `numbytes` is the value that `sendto` returned. -/
def iteration (senderId msg : Bytes) (s : State) (numbytes : ℤ) : State :=
  let stream := (sendBuf senderId msg s).2
  if numbytes < 0 then ⟨s.frameNumber, stream⟩
  else
    let next := s.frameNumber + 1
    ⟨if next = 0xff then 0 else next, stream⟩

/- The label of a step is the buffer and the answer of `sendto`. -/
def startTransmitting (senderId msg : Bytes) : Lts State (Bytes × ℤ) where
  init s := s = start
  step s e s' := e.1 = (sendBuf senderId msg s).1 ∧ s' = iteration senderId msg s e.2

/-- The counter stays below 255 and every frame is printed into an empty stream. -/
structure Ready (s : State) : Prop where
  nonneg : 0 ≤ s.frameNumber
  le : s.frameNumber ≤ 254
  empty : s.frameNumberStream.contents = []

theorem start_ready : Ready start := ⟨le_rfl, by decide, rfl⟩

theorem iteration_ready (senderId msg : Bytes) (s : State) (numbytes : ℤ) (h : Ready s) :
    Ready (iteration senderId msg s numbytes) := by
  have hn := h.nonneg
  have hl := h.le
  unfold iteration
  split
  · exact ⟨hn, hl, rfl⟩
  · refine ⟨?_, ?_, rfl⟩
    · dsimp only
      split <;> omega
    · dsimp only
      split <;> omega

theorem ready_of_reachable {senderId msg : Bytes} {s : State}
    (h : (startTransmitting senderId msg).Reachable s) : Ready s := by
  obtain ⟨tr, hr⟩ := h
  refine hr.invariant (I := fun _ s => Ready s) ?_ ?_
  · intro s hi
    cases hi
    exact start_ready
  · intro tr s e s' _ ih he
    rw [he.2]
    exact iteration_ready _ _ _ _ ih

/-- A frame: id, two hexadecimal digits, message. -/
theorem sendBuf_ready {senderId msg : Bytes} {s : State} (h : Ready s) :
    (sendBuf senderId msg s).1 = wireText senderId
      [digitChar (s.frameNumber.toNat / 16), digitChar (s.frameNumber.toNat % 16)] msg := by
  have hn := h.nonneg
  have hl := h.le
  have hv : s.frameNumber = (s.frameNumber.toNat : ℤ) := by omega
  have htext : frameText s.frameNumber =
      [digitChar (s.frameNumber.toNat / 16), digitChar (s.frameNumber.toNat % 16)] := by
    conv_lhs => rw [hv]
    exact frameText_byte _ (by omega)
  simp only [sendBuf, putFrameNumber_contents _ _ h.empty, htext]

end OSwitch.SenderSocket
