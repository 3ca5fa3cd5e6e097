import Mathlib.Algebra.Ring.Int.Defs
import OSwitch.Fragmentation

/-!
# The fragmentation loop in the arithmetic of C++

`i`, `fragment_size` and `data_chunk_len` are `int`, the length of the message
is `size_t`, and comparisons between them are made in `size_t`. Here an overflow
of `int` in the index and an access outside an object are errors. Below
2^31 - 9000 bytes none of them happens, and the loop sends what `sendFragments`
says. The offset counter wraps around, as there.
-/

namespace OSwitch.Fragmentation
open Wire IpHeader Rfc791

inductive Fault where
  | overflow
  | outOfBounds
  | unfinished
  deriving DecidableEq, Repr

/- The result of an operation on `int`. -/
def int (v : ℤ) : Except Fault ℤ := if -2 ^ 31 ≤ v ∧ v < 2 ^ 31 then .ok v else .error .overflow

/- Conversions between `size_t` and `int`. -/
def intOfSize (x : ℕ) : ℤ := Int.bmod x (2 ^ 32)
def sizeOfInt (v : ℤ) : ℕ := (v % 2 ^ 64).toNat

def memcpy (buffer : Bytes) (at' : ℕ) (src : Bytes) (i : ℤ) (count : ℕ) : Except Fault Bytes :=
  if 0 ≤ i ∧ i.toNat + count ≤ src.length ∧ at' + count ≤ buffer.length then
    .ok (poke buffer at' (slice src i.toNat (i.toNat + count)))
  else .error .outOfBounds

/- The bytes that `sendto` reads. -/
def sendto (buffer : Bytes) (count : ℕ) : Except Fault Bytes :=
  if count ≤ buffer.length then .ok (buffer.take count) else .error .outOfBounds

/- What one iteration computed: its index, the arguments of `create_ip_header`
and `memcpy`, and the bytes handed to `sendto`. -/
structure Piece where
  i : ℤ
  dataChunkLen : ℤ
  moreFragments : Bool
  packet : Bytes
  deriving DecidableEq, Repr

/- The body of the loop, and `i += fragment_size`. That `sendto` fails is only
reported. -/
def iteration (sendBuf : Bytes) (i : ℤ) (offset : ℕ) : Except Fault (Piece × ℤ) := do
  let buffer := List.replicate maximumPacketSize 0
  let remaining ← int (intOfSize sendBuf.length - i)
  let dataChunkLen := min (fragmentSize : ℤ) remaining
  let next ← int (i + fragmentSize)
  let moreFragments := decide (sizeOfInt next < sendBuf.length)
  let buffer := createIpHeader buffer srcIp dstIp packetId offset moreFragments
    (sizeOfInt dataChunkLen)
  let buffer ← memcpy buffer sizeofIphdr sendBuf i (sizeOfInt dataChunkLen)
  let packet ← sendto buffer (sizeofIphdr + sizeOfInt dataChunkLen)
  return (⟨i, dataChunkLen, moreFragments, packet⟩, next)

/- At most `fuel - 1` iterations. -/
def fragmentLoop (sendBuf : Bytes) : ℕ → ℤ → ℕ → Except Fault (List Piece × ℕ)
  | 0, _, _ => .error .unfinished
  | fuel + 1, i, offset =>
    if sizeOfInt i < sendBuf.length then do
      let (piece, next) ← iteration sendBuf i offset
      let (pieces, offset) ← fragmentLoop sendBuf fuel next (nextOffset offset)
      return (piece :: pieces, offset)
    else .ok ([], offset)

/-! ### One iteration -/

theorem int_of_fits {v : ℤ} (h : -2 ^ 31 ≤ v ∧ v < 2 ^ 31) : int v = .ok v := if_pos h

theorem intOfSize_of_lt {x : ℕ} (h : x < 2 ^ 31) : intOfSize x = x := by
  unfold intOfSize
  rw [Int.bmod_eq_of_le]
  · omega
  · omega

theorem sizeOfInt_natCast {x : ℕ} (h : x < 2 ^ 64) : sizeOfInt x = x := by
  unfold sizeOfInt
  omega

/- The iteration with index `i`. -/
def pieceAt (sendBuf : Bytes) (i offset : ℕ) : Piece :=
  ⟨i, chunkLen sendBuf.length i, decide (i + fragmentSize < sendBuf.length),
    fragment sendBuf i offset⟩

theorem createIpHeader_length (offset : ℕ) (moreFragments : Bool) (dataLen : ℕ) :
    (createIpHeader (List.replicate maximumPacketSize 0) srcIp dstIp packetId offset moreFragments
      dataLen).length = maximumPacketSize := by
  rw [createIpHeader_eq _ _ _ _ _ _ _ (by rw [List.length_replicate]; decide),
    List.length_append, headerBytes_length, List.length_drop, List.length_replicate]
  rfl

section iteration
variable {sendBuf : Bytes} {i : ℕ}

theorem chunkLen_le (length i : ℕ) : chunkLen length i ≤ 9000 := Nat.min_le_left _ _

theorem min_remaining (length i : ℕ) :
    min (fragmentSize : ℤ) ((length - i : ℕ) : ℤ) = (chunkLen length i : ℕ) := by
  unfold chunkLen
  omega

theorem memcpy_chunk {buffer : Bytes} (hbuffer : buffer.length = maximumPacketSize)
    (hi : i < sendBuf.length) :
    memcpy buffer sizeofIphdr sendBuf i (chunkLen sendBuf.length i) =
      .ok (poke buffer sizeofIphdr (slice sendBuf i (i + chunkLen sendBuf.length i))) := by
  have hend := chunk_end _ _ hi
  have hle := chunkLen_le sendBuf.length i
  have hfits : sizeofIphdr + chunkLen sendBuf.length i ≤ buffer.length := by
    rw [hbuffer]
    unfold sizeofIphdr maximumPacketSize
    omega
  rw [memcpy, Int.toNat_natCast, if_pos]
  exact ⟨Int.natCast_nonneg i, hend, hfits⟩

theorem sendto_chunk {buffer : Bytes} (hbuffer : buffer.length = maximumPacketSize)
    (hi : i < sendBuf.length) :
    sendto (poke buffer sizeofIphdr (slice sendBuf i (i + chunkLen sendBuf.length i)))
        (sizeofIphdr + chunkLen sendBuf.length i) =
      .ok ((poke buffer sizeofIphdr (slice sendBuf i (i + chunkLen sendBuf.length i))).take
        (sizeofIphdr + chunkLen sendBuf.length i)) := by
  have hslice := chunk_length sendBuf i hi
  have hle := chunkLen_le sendBuf.length i
  have hfits : sizeofIphdr + chunkLen sendBuf.length i ≤ buffer.length := by
    rw [hbuffer]
    unfold sizeofIphdr maximumPacketSize
    omega
  rw [sendto, if_pos]
  rw [poke_length _ _ _ (by rw [hslice]; exact hfits)]
  exact hfits

theorem bind_ok {α β : Type} {x : Except Fault α} {a : α} (h : x = .ok a)
    (f : α → Except Fault β) : x >>= f = f a := by
  rw [h]
  rfl

/- An iteration whose four operations succeed. -/
theorem iteration_of {k remaining dataChunkLen next : ℤ} {offset n m : ℕ} {buffer packet : Bytes}
    (hremaining : int (intOfSize sendBuf.length - k) = .ok remaining)
    (hmin : min (fragmentSize : ℤ) remaining = dataChunkLen)
    (hnext : int (k + fragmentSize) = .ok next)
    (hn : sizeOfInt dataChunkLen = n) (hm : sizeOfInt next = m)
    (hcopy : memcpy (createIpHeader (List.replicate maximumPacketSize 0) srcIp dstIp packetId offset
      (decide (m < sendBuf.length)) n) sizeofIphdr sendBuf k n = .ok buffer)
    (hsend : sendto buffer (sizeofIphdr + n) = .ok packet) :
    iteration sendBuf k offset =
      .ok (⟨k, dataChunkLen, decide (m < sendBuf.length), packet⟩, next) := by
  subst hmin hn hm
  unfold iteration
  rw [bind_ok hremaining, bind_ok hnext, bind_ok hcopy, bind_ok hsend]
  rfl

/-- Inside the message nothing overflows and no access is out of bounds. -/
theorem iteration_eq (hlen : sendBuf.length < 2 ^ 31 - 9000) (hi : i < sendBuf.length)
    (offset : ℕ) :
    iteration sendBuf i offset =
      .ok (pieceAt sendBuf i offset, ((i + fragmentSize : ℕ) : ℤ)) := by
  have hsize : fragmentSize = 9000 := rfl
  have hle := chunkLen_le sendBuf.length i
  have hremaining : int (intOfSize sendBuf.length - i) = .ok ((sendBuf.length - i : ℕ) : ℤ) := by
    rw [intOfSize_of_lt (by omega), int_of_fits (by omega), Int.natCast_sub (by omega)]
  have hnext : int ((i : ℤ) + fragmentSize) = .ok ((i + fragmentSize : ℕ) : ℤ) := by
    rw [int_of_fits (by omega), Int.natCast_add]
  have hheader := createIpHeader_length offset (decide (i + fragmentSize < sendBuf.length))
    (chunkLen sendBuf.length i)
  rw [iteration_of hremaining (min_remaining _ _) hnext (sizeOfInt_natCast (by omega))
    (sizeOfInt_natCast (by omega)) (memcpy_chunk hheader hi) (sendto_chunk hheader hi)]
  rfl

end iteration

/-! ### The whole loop -/

def piecesOf (sendBuf : Bytes) (offset : ℕ) : List Piece :=
  (List.range (chunks sendBuf.length)).map fun t =>
    pieceAt sendBuf (9000 * t) ((offset + 1125 * t) % 2 ^ 32)

theorem fragmentLoop_from {sendBuf : Bytes} (hlen : sendBuf.length < 2 ^ 31 - 9000)
    (offset fuel : ℕ) : ∀ a k, a + k = chunks sendBuf.length → k < fuel →
    fragmentLoop sendBuf fuel ((9000 * a : ℕ) : ℤ) ((offset + 1125 * a) % 2 ^ 32) =
      .ok ((List.range' a k).map fun t =>
          pieceAt sendBuf (9000 * t) ((offset + 1125 * t) % 2 ^ 32),
        (offset + 1125 * chunks sendBuf.length) % 2 ^ 32) := by
  have hchunks : 9000 * chunks sendBuf.length < 2 ^ 31 := by
    unfold chunks
    omega
  induction fuel with
  | zero =>
    intro a k ha hk
    omega
  | succ fuel ih =>
    intro a k ha hk
    have hsize : sizeOfInt ((9000 * a : ℕ) : ℤ) = 9000 * a := sizeOfInt_natCast (by omega)
    cases k with
    | zero =>
      have hend : ¬9000 * a < sendBuf.length := by
        rw [← lt_chunks]
        omega
      rw [fragmentLoop, hsize, if_neg hend, ← ha]
      rfl
    | succ k =>
      have hmore : 9000 * a < sendBuf.length := by
        rw [← lt_chunks]
        omega
      have hstep : 9000 * a + fragmentSize = 9000 * (a + 1) := by
        unfold fragmentSize
        omega
      have hrest := ih (a + 1) k (by omega) (by omega)
      rw [fragmentLoop, hsize, if_pos hmore, bind_ok (iteration_eq hlen hmore _), hstep,
        nextOffset_mod]
      dsimp only
      rw [bind_ok hrest]
      rfl

theorem fragmentLoop_eq {sendBuf : Bytes} (hlen : sendBuf.length < 2 ^ 31 - 9000) {offset : ℕ}
    (ho : offset < 2 ^ 32) {fuel : ℕ} (hfuel : chunks sendBuf.length < fuel) :
    fragmentLoop sendBuf fuel 0 offset =
      .ok (piecesOf sendBuf offset, (offset + 1125 * chunks sendBuf.length) % 2 ^ 32) := by
  have h := fragmentLoop_from hlen offset fuel 0 (chunks sendBuf.length) (by omega) hfuel
  simp only [Nat.mul_zero, Nat.add_zero, Nat.mod_eq_of_lt ho, Int.ofNat_zero] at h
  rw [h, piecesOf, List.range_eq_range']

/-- What the loop sends in the arithmetic of C++ is what it sends on naturals. -/
theorem fragmentLoop_refines {sendBuf : Bytes} (hlen : sendBuf.length < 2 ^ 31 - 9000)
    {offset : ℕ} (ho : offset < 2 ^ 32) :
    ∃ pieces, fragmentLoop sendBuf (chunks sendBuf.length + 1) 0 offset =
        .ok (pieces, (sendFragments sendBuf offset).2) ∧
      pieces.map Piece.packet = (sendFragments sendBuf offset).1 := by
  rw [fragmentLoop_eq hlen ho (Nat.lt_succ_self _), sendFragments_eq _ _ ho]
  exact ⟨_, rfl, List.map_map⟩

/-! ### Safety of a piece -/

/- What one iteration must respect. -/
structure Piece.Safe (sendBuf : Bytes) (p : Piece) : Prop where
  reads : 0 ≤ p.i ∧ p.i + p.dataChunkLen ≤ sendBuf.length
  writes : sizeofIphdr + p.dataChunkLen ≤ maximumPacketSize
  nonempty : 0 < p.dataChunkLen
  sent : p.packet.length = sizeofIphdr + p.dataChunkLen
  totLen : ∃ h, parse p.packet = some h ∧ h.totalLength = p.packet.length
  moreFragments : p.moreFragments = true ↔ p.i + p.dataChunkLen < sendBuf.length

/- The part of a packet behind its header. -/
def Piece.chunk (p : Piece) : Bytes := p.packet.drop sizeofIphdr

theorem chunk_pieceAt {sendBuf : Bytes} {i : ℕ} (hi : i < sendBuf.length) (offset : ℕ) :
    (pieceAt sendBuf i offset).chunk = slice sendBuf i (i + chunkLen sendBuf.length i) := by
  rw [Piece.chunk, pieceAt, fragment_eq _ _ _ hi]
  exact List.drop_left' (headerBytes_length ..)

theorem totalLength_fragment {sendBuf : Bytes} {i : ℕ} (hi : i < sendBuf.length) (offset : ℕ) :
    ∃ h, parse (fragment sendBuf i offset) = some h ∧
      h.totalLength = (fragment sendBuf i offset).length := by
  have hle := chunkLen_le sendBuf.length i
  have hfield : (sizeofIphdr + chunkLen sendBuf.length i) % 65536 =
      20 + chunkLen sendBuf.length i := by
    unfold sizeofIphdr
    omega
  rw [fragment_length _ _ _ hi, fragment_eq _ _ _ hi, parse_headerBytes]
  exact ⟨_, rfl, hfield⟩

theorem more_iff {length i : ℕ} (hi : i < length) :
    i + fragmentSize < length ↔ i + chunkLen length i < length := by
  unfold chunkLen
  omega

theorem pieceAt_safe {sendBuf : Bytes} {i : ℕ} (hi : i < sendBuf.length) (offset : ℕ) :
    (pieceAt sendBuf i offset).Safe sendBuf := by
  have hend := chunk_end _ _ hi
  have hle := chunkLen_le sendBuf.length i
  have hmore := more_iff hi
  have hpos : 0 < chunkLen sendBuf.length i := by
    unfold chunkLen fragmentSize
    omega
  have hlength := fragment_length sendBuf i offset hi
  constructor
  case reads =>
    simp only [pieceAt]
    omega
  case writes =>
    simp only [pieceAt, sizeofIphdr, maximumPacketSize]
    omega
  case nonempty =>
    simp only [pieceAt]
    omega
  case sent =>
    simp only [pieceAt, sizeofIphdr]
    omega
  case totLen => exact totalLength_fragment hi offset
  case moreFragments =>
    simp only [pieceAt, decide_eq_true_eq]
    omega

theorem piecesOf_safe (sendBuf : Bytes) (offset : ℕ) : ∀ p ∈ piecesOf sendBuf offset,
    p.Safe sendBuf := by
  intro p hp
  obtain ⟨t, ht, rfl⟩ := List.mem_map.mp hp
  exact pieceAt_safe (lt_chunks.mp (List.mem_range.mp ht)) _

/-! ### The pieces together -/

theorem dropLast_piecesOf (sendBuf : Bytes) (offset : ℕ) :
    (piecesOf sendBuf offset).dropLast = (List.range (chunks sendBuf.length - 1)).map fun t =>
      pieceAt sendBuf (9000 * t) ((offset + 1125 * t) % 2 ^ 32) := by
  rw [piecesOf, List.dropLast_eq_take, List.length_map, List.length_range, ← List.map_take,
    List.take_range, Nat.min_eq_left (by omega)]

/-- Every piece but the last is a full 9000 bytes. -/
theorem dataChunkLen_dropLast (sendBuf : Bytes) (offset : ℕ) :
    ∀ p ∈ (piecesOf sendBuf offset).dropLast, p.dataChunkLen = 9000 := by
  intro p hp
  rw [dropLast_piecesOf] at hp
  obtain ⟨t, ht, rfl⟩ := List.mem_map.mp hp
  have hnext : t + 1 < chunks sendBuf.length := by
    have := List.mem_range.mp ht
    omega
  have hfull : 9000 * (t + 1) < sendBuf.length := lt_chunks.mp hnext
  simp only [pieceAt, chunkLen, fragmentSize]
  omega

theorem slice_chunkLen (sendBuf : Bytes) (i : ℕ) :
    slice sendBuf i (i + chunkLen sendBuf.length i) = (sendBuf.drop i).take 9000 := by
  rw [slice, Nat.add_sub_cancel_left, chunkLen, ← List.length_drop]
  exact List.take_eq_take_min.symm

theorem take_of_pieces (sendBuf : Bytes) (offset count : ℕ) (h : count ≤ chunks sendBuf.length) :
    ((List.range count).map fun t =>
        pieceAt sendBuf (9000 * t) ((offset + 1125 * t) % 2 ^ 32)).flatMap Piece.chunk =
      sendBuf.take (9000 * count) := by
  induction count with
  | zero => rfl
  | succ count ih =>
    have hi : 9000 * count < sendBuf.length := lt_chunks.mp (by omega)
    rw [List.range_succ, List.map_append, List.flatMap_append, ih (by omega), List.map_singleton,
      List.flatMap_singleton, chunk_pieceAt hi, slice_chunkLen, Nat.mul_succ, List.take_add]

theorem piecesOf_flatMap (sendBuf : Bytes) (offset : ℕ) :
    (piecesOf sendBuf offset).flatMap Piece.chunk = sendBuf := by
  rw [piecesOf, take_of_pieces _ _ _ le_rfl]
  apply List.take_of_length_le
  unfold chunks
  omega

/-- Below 2^31 - 9000 bytes the loop partitions the message: it ends after one
iteration for every begun 9000 bytes, no iteration overflows or leaves an
object, and the chunks are the message. -/
theorem fragmentLoop_partition (sendBuf : Bytes) (hlen : sendBuf.length < 2 ^ 31 - 9000)
    (offset : ℕ) (ho : offset < 2 ^ 32) (fuel : ℕ) (hfuel : (sendBuf.length + 8999) / 9000 < fuel) :
    ∃ pieces offset', fragmentLoop sendBuf fuel 0 offset = .ok (pieces, offset') ∧
      pieces.length = (sendBuf.length + 8999) / 9000 ∧
      (∀ p ∈ pieces, p.Safe sendBuf) ∧
      (∀ p ∈ pieces.dropLast, 8 ∣ p.dataChunkLen) ∧
      pieces.flatMap Piece.chunk = sendBuf := by
  have hcount : (piecesOf sendBuf offset).length = (sendBuf.length + 8999) / 9000 := by
    rw [piecesOf, List.length_map, List.length_range]
    rfl
  have hblocks : ∀ p ∈ (piecesOf sendBuf offset).dropLast, 8 ∣ p.dataChunkLen := by
    intro p hp
    rw [dataChunkLen_dropLast _ _ p hp]
    decide
  exact ⟨_, _, fragmentLoop_eq hlen ho hfuel, hcount, piecesOf_safe _ _, hblocks,
    piecesOf_flatMap _ _⟩

theorem fragmentLoop_partition_three :
    ∃ pieces offset', fragmentLoop (List.replicate 18001 0x78) 4 0 (2 ^ 32 - 1) =
        .ok (pieces, offset') ∧
      pieces.length = 3 ∧ pieces.flatMap Piece.chunk = List.replicate 18001 0x78 := by
  have hlength : (List.replicate 18001 (0x78 : Byte)).length = 18001 := List.length_replicate
  obtain ⟨pieces, offset', hrun, hcount, -, -, hjoin⟩ :=
    fragmentLoop_partition (List.replicate 18001 0x78) (by rw [hlength]; decide) (2 ^ 32 - 1)
      (by decide) 4 (by rw [hlength]; decide)
  exact ⟨pieces, offset', hrun, by rw [hcount, hlength], hjoin⟩

end OSwitch.Fragmentation
