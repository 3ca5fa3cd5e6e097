import OSwitch.IpHeader

/-!
# The fragmentation loop (`concatinator/src/concatinator.cc:59-63, 113-128`)

One `sendBuf` is sent in chunks of at most 9000 bytes, each behind an IP header
of its own. The offset counter belongs to the caller: the loop starts from what
it finds there and leaves it 1125 further for every chunk. Signed overflow of
that counter, which C++ leaves undefined, is taken as wrap-around.
-/

namespace OSwitch.Fragmentation
open Wire IpHeader Rfc791

def maximumPacketSize : ℕ := 10000
def fragmentSize : ℕ := 9000
def packetId : ℕ := 54321
def srcIp : InAddr := ⟨192, 168, 1, 1⟩
def dstIp : InAddr := ⟨192, 168, 1, 2⟩

/- The body of the loop: what is handed to `sendto`. -/
def fragment (sendBuf : Bytes) (i offset : ℕ) : Bytes :=
  let buffer := List.replicate maximumPacketSize 0
  let dataChunkLen := min fragmentSize (sendBuf.length - i)
  let moreFragments := decide (i + fragmentSize < sendBuf.length)
  let buffer := createIpHeader buffer srcIp dstIp packetId offset moreFragments dataChunkLen
  let buffer := poke buffer sizeofIphdr (slice sendBuf i (i + dataChunkLen))
  buffer.take (sizeofIphdr + dataChunkLen)

def nextOffset (offset : ℕ) : ℕ := (offset + fragmentSize / 8) % 2 ^ 32

/- What is sent, and the counter afterwards. An iteration passes at least one
byte, so the length of the message is fuel enough (`sendFragments_eq`). -/
def sendLoop (sendBuf : Bytes) : ℕ → ℕ → ℕ → List Bytes × ℕ
  | 0, _, offset => ([], offset)
  | fuel + 1, i, offset =>
    if i < sendBuf.length then
      let rest := sendLoop sendBuf fuel (i + fragmentSize) (nextOffset offset)
      (fragment sendBuf i offset :: rest.1, rest.2)
    else ([], offset)

def sendFragments (sendBuf : Bytes) (offset : ℕ) : List Bytes × ℕ :=
  sendLoop sendBuf sendBuf.length 0 offset

/-! ### Closed form of the loop -/

/- Number of iterations for a message of this length. -/
def chunks (length : ℕ) : ℕ := (length + 8999) / 9000

theorem chunks_le (length : ℕ) : chunks length ≤ length := by
  unfold chunks
  omega

theorem chunks_pos {length : ℕ} (h : 0 < length) : 0 < chunks length := by
  unfold chunks
  omega

theorem lt_chunks {length t : ℕ} : t < chunks length ↔ 9000 * t < length := by
  unfold chunks
  omega

theorem nextOffset_mod (offset a : ℕ) :
    nextOffset ((offset + 1125 * a) % 2 ^ 32) = (offset + 1125 * (a + 1)) % 2 ^ 32 := by
  unfold nextOffset fragmentSize
  omega

theorem sendLoop_from (sendBuf : Bytes) (offset fuel : ℕ) : ∀ a k, a + k = chunks sendBuf.length →
    k ≤ fuel →
    sendLoop sendBuf fuel (9000 * a) ((offset + 1125 * a) % 2 ^ 32) =
      ((List.range' a k).map fun t => fragment sendBuf (9000 * t) ((offset + 1125 * t) % 2 ^ 32),
        (offset + 1125 * chunks sendBuf.length) % 2 ^ 32) := by
  induction fuel with
  | zero =>
    intro a k ha hk
    obtain rfl : k = 0 := by omega
    rw [sendLoop, ← ha]
    rfl
  | succ fuel ih =>
    intro a k ha hk
    cases k with
    | zero =>
      have hend : ¬9000 * a < sendBuf.length := by
        rw [← lt_chunks]
        omega
      rw [sendLoop, if_neg hend, ← ha]
      rfl
    | succ k =>
      have hmore : 9000 * a < sendBuf.length := by
        rw [← lt_chunks]
        omega
      have hstep : 9000 * a + fragmentSize = 9000 * (a + 1) := by
        unfold fragmentSize
        omega
      rw [sendLoop, if_pos hmore, nextOffset_mod, hstep, ih (a + 1) k (by omega) (by omega)]
      rfl

/-- The fragments of a message, one every 9000 bytes and every 1125 units of
the counter. -/
theorem sendFragments_eq (sendBuf : Bytes) (offset : ℕ) (ho : offset < 2 ^ 32) :
    sendFragments sendBuf offset =
      ((List.range (chunks sendBuf.length)).map fun t =>
          fragment sendBuf (9000 * t) ((offset + 1125 * t) % 2 ^ 32),
        (offset + 1125 * chunks sendBuf.length) % 2 ^ 32) := by
  have h := sendLoop_from sendBuf offset sendBuf.length 0 (chunks sendBuf.length) (by omega)
    (chunks_le _)
  simp only [Nat.mul_zero, Nat.add_zero, Nat.mod_eq_of_lt ho] at h
  rw [sendFragments, h, List.range_eq_range']

/-! ### One fragment -/

def chunkLen (length i : ℕ) : ℕ := min fragmentSize (length - i)

theorem headerBytes_length (src dst : InAddr) (id fragOffset : ℕ) (moreFragments : Bool)
    (dataLen : ℕ) : (headerBytes src dst id fragOffset moreFragments dataLen).length = 20 := rfl

theorem chunk_end (length i : ℕ) (hi : i < length) : i + chunkLen length i ≤ length := by
  unfold chunkLen
  omega

theorem chunk_length (sendBuf : Bytes) (i : ℕ) (hi : i < sendBuf.length) :
    (slice sendBuf i (i + chunkLen sendBuf.length i)).length = chunkLen sendBuf.length i := by
  rw [slice_length _ _ _ (chunk_end _ _ hi)]
  omega

theorem fragment_eq (sendBuf : Bytes) (i offset : ℕ) (hi : i < sendBuf.length) :
    fragment sendBuf i offset =
      headerBytes srcIp dstIp packetId offset (decide (i + fragmentSize < sendBuf.length))
          (chunkLen sendBuf.length i) ++
        slice sendBuf i (i + chunkLen sendBuf.length i) := by
  have hlen := chunk_length sendBuf i hi
  have hfold : min fragmentSize (sendBuf.length - i) = chunkLen sendBuf.length i := rfl
  have hpoke := poke_append_right
    (headerBytes srcIp dstIp packetId offset (decide (i + fragmentSize < sendBuf.length))
      (chunkLen sendBuf.length i)) ((List.replicate maximumPacketSize 0).drop 20)
    (slice sendBuf i (i + chunkLen sendBuf.length i))
  simp only [fragment, hfold, sizeofIphdr]
  rw [createIpHeader_eq _ _ _ _ _ _ _ (by rw [List.length_replicate]; decide)]
  rw [headerBytes_length] at hpoke
  rw [hpoke]
  apply List.take_left'
  rw [List.length_append, headerBytes_length, hlen]

theorem fragment_length (sendBuf : Bytes) (i offset : ℕ) (hi : i < sendBuf.length) :
    (fragment sendBuf i offset).length = 20 + chunkLen sendBuf.length i := by
  rw [fragment_eq _ _ _ hi, List.length_append, headerBytes_length, chunk_length _ _ hi]

/- The buffer that all fragments of all messages go to. -/
def flowId : BufferId := ⟨srcIp.bytes, dstIp.bytes, 17, packetId⟩

/-- What the receiver makes of a fragment: the low 13 bits of the counter are
its position, and bit 13 of the counter passes for MF. -/
theorem fragmentOf_fragment (sendBuf : Bytes) (i offset : ℕ) (hi : i < sendBuf.length) :
    fragmentOf (fragment sendBuf i offset) = some (flowId,
      ⟨8 * (offset % 8192),
        offset.testBit 13 || decide (i + fragmentSize < sendBuf.length),
        slice sendBuf i (i + chunkLen sendBuf.length i)⟩) := by
  have hlen := chunk_length sendBuf i hi
  have htotal : (sizeofIphdr + chunkLen sendBuf.length i) % 65536 - 4 * 5 =
      chunkLen sendBuf.length i := by
    simp only [chunkLen, fragmentSize, sizeofIphdr]
    omega
  rw [fragment_eq _ _ _ hi, fragmentOf, parse_headerBytes, Option.map_some]
  simp only [htotal, flagsWord_offset, flagsWord_testBit _ _ 13 (by omega)]
  rw [List.drop_left' (headerBytes_length ..), List.take_of_length_le hlen.le]
  simp [flowId, packetId]

/-- The flags and the offset of a fragment as RFC 791 reads them. -/
theorem parse_fragment (sendBuf : Bytes) (i offset : ℕ) (hi : i < sendBuf.length) :
    ∃ h, parse (fragment sendBuf i offset) = some h ∧ h.fragmentOffset = offset % 8192 ∧
      h.moreFragments = (offset.testBit 13 || decide (i + fragmentSize < sendBuf.length)) ∧
      h.dontFragment = offset.testBit 14 ∧ h.reserved = offset.testBit 15 := by
  rw [fragment_eq _ _ _ hi, parse_headerBytes]
  refine ⟨_, rfl, flagsWord_offset _ _, ?_, ?_, ?_⟩
  · simp [flagsWord_testBit _ _ 13 (by omega)]
  · simp [flagsWord_testBit _ _ 14 (by omega)]
  · simp [flagsWord_testBit _ _ 15 (by omega)]

end OSwitch.Fragmentation
