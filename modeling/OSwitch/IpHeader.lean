import OSwitch.Lib.Rfc791

/-!
# The IP header of a fragment (`concatinator/src/concatinator.cc:7-38`)

`checksum` and `create_ip_header` on a little-endian host: a 16-bit field of
`struct iphdr` is stored low byte first, `htons` exchanges the two bytes. An
`int` argument is the number with its 32 bits, of which `htons` keeps 16.
-/

namespace OSwitch.IpHeader
open Wire

/- The 32-bit accumulator takes the words of the buffer, low byte first. -/
def checksumLoop : ℕ → Bytes → ℕ
  | sum, lo :: hi :: rest => checksumLoop ((sum + le16 lo hi) % 2 ^ 32) rest
  | sum, [b] => (sum + b.val) % 2 ^ 32
  | sum, [] => sum

def checksum (buf : Bytes) : ℕ :=
  let sum := checksumLoop 0 buf
  let sum := sum / 2 ^ 16 + sum % 2 ^ 16
  let sum := (sum + sum / 2 ^ 16) % 2 ^ 32
  65535 - sum % 2 ^ 16

def htons (x : ℕ) : ℕ := swap16 (x % 2 ^ 16)

/- What `inet_addr` returns, as it lies in memory: network order. -/
structure InAddr where
  b0 : Byte
  b1 : Byte
  b2 : Byte
  b3 : Byte
  deriving DecidableEq, Repr

def InAddr.bytes (a : InAddr) : Bytes := [a.b0, a.b1, a.b2, a.b3]

def sizeofIphdr : ℕ := 20
def ipprotoUdp : Byte := 17

/- `ihl` and `version` are the two halves of byte 0. -/
def createIpHeader (buffer : Bytes) (src dst : InAddr) (id fragOffset : ℕ)
    (moreFragments : Bool) (dataLen : ℕ) : Bytes :=
  let b := poke buffer 0 [0x45]
  let b := poke b 1 [0]
  let b := poke b 2 (storeLe16 (htons (sizeofIphdr + dataLen)))
  let b := poke b 4 (storeLe16 (htons id))
  let b := poke b 6 (storeLe16 (htons (fragOffset ||| if moreFragments then 0x2000 else 0)))
  let b := poke b 8 [64]
  let b := poke b 9 [ipprotoUdp]
  let b := poke b 10 (storeLe16 0)
  let b := poke b 12 src.bytes
  let b := poke b 16 dst.bytes
  poke b 10 (storeLe16 (checksum (b.take ((b.headD 0).val % 16 * 4))))

/-! ### The twenty bytes -/

/- The frag_off word in host order. -/
def flagsWord (fragOffset : ℕ) (moreFragments : Bool) : ℕ :=
  (fragOffset ||| if moreFragments then 0x2000 else 0) % 2 ^ 16

def headerWith (src dst : InAddr) (id fragOffset : ℕ) (moreFragments : Bool) (dataLen : ℕ)
    (check : ℕ) : Bytes :=
  let w := flagsWord fragOffset moreFragments
  [0x45, 0, highByte (sizeofIphdr + dataLen), lowByte (sizeofIphdr + dataLen),
    highByte id, lowByte id, highByte w, lowByte w, 64, ipprotoUdp, lowByte check, highByte check,
    src.b0, src.b1, src.b2, src.b3, dst.b0, dst.b1, dst.b2, dst.b3]

def headerBytes (src dst : InAddr) (id fragOffset : ℕ) (moreFragments : Bool) (dataLen : ℕ) :
    Bytes :=
  headerWith src dst id fragOffset moreFragments dataLen
    (checksum (headerWith src dst id fragOffset moreFragments dataLen 0))

theorem lowByte_htons (x : ℕ) : lowByte (htons x) = highByte x := by
  rw [htons, lowByte_swap16]
  apply Fin.ext
  simp only [highByte_val]
  omega

theorem highByte_htons (x : ℕ) : highByte (htons x) = lowByte x := by
  rw [htons, highByte_swap16]
  apply Fin.ext
  simp only [lowByte_val]
  omega

theorem highByte_mod (x : ℕ) : highByte (x % 2 ^ 16) = highByte x := by
  apply Fin.ext
  simp only [highByte_val]
  omega

theorem lowByte_mod (x : ℕ) : lowByte (x % 2 ^ 16) = lowByte x := by
  apply Fin.ext
  simp only [lowByte_val]
  omega

theorem exists_twenty (buf : Bytes) (h : 20 ≤ buf.length) :
    ∃ c0 c1 c2 c3 c4 c5 c6 c7 c8 c9 c10 c11 c12 c13 c14 c15 c16 c17 c18 c19,
      buf = [c0, c1, c2, c3, c4, c5, c6, c7, c8, c9, c10, c11, c12, c13, c14, c15, c16, c17,
        c18, c19] ++ buf.drop 20 := by
  have hcut : ∀ k (hk : k < buf.length), buf.drop k = buf[k] :: buf.drop (k + 1) :=
    fun k hk => List.drop_eq_getElem_cons hk
  refine ⟨buf[0], buf[1], buf[2], buf[3], buf[4], buf[5], buf[6], buf[7], buf[8], buf[9],
    buf[10], buf[11], buf[12], buf[13], buf[14], buf[15], buf[16], buf[17], buf[18], buf[19], ?_⟩
  conv_lhs => rw [← List.drop_zero (l := buf)]
  rw [hcut 0, hcut 1, hcut 2, hcut 3, hcut 4, hcut 5, hcut 6, hcut 7, hcut 8, hcut 9, hcut 10,
    hcut 11, hcut 12, hcut 13, hcut 14, hcut 15, hcut 16, hcut 17, hcut 18, hcut 19]
  rfl

/-- The header takes the first twenty bytes, whatever they held, and the
buffer behind it stays as it was. -/
theorem createIpHeader_eq (buffer : Bytes) (src dst : InAddr) (id fragOffset : ℕ)
    (moreFragments : Bool) (dataLen : ℕ) (h : 20 ≤ buffer.length) :
    createIpHeader buffer src dst id fragOffset moreFragments dataLen =
      headerBytes src dst id fragOffset moreFragments dataLen ++ buffer.drop 20 := by
  obtain ⟨c0, c1, c2, c3, c4, c5, c6, c7, c8, c9, c10, c11, c12, c13, c14, c15, c16, c17, c18,
    c19, hb⟩ := exists_twenty buffer h
  generalize buffer.drop 20 = rest at hb
  subst hb
  have hihl : (0x45 : Byte).val % 16 * 4 = 20 := rfl
  simp only [createIpHeader, storeLe16, InAddr.bytes, poke, List.cons_append, List.nil_append,
    List.take_succ_cons, List.take_zero, List.drop_succ_cons, List.drop_zero, List.length_cons,
    List.length_nil, Nat.zero_add, Nat.reduceAdd, List.headD_cons, hihl, lowByte_htons,
    highByte_htons]
  simp only [headerBytes, headerWith, flagsWord, highByte_mod, lowByte_mod, List.cons_append,
    List.nil_append]

/-! ### Reading it back -/

/-- What RFC 791 reads from the twenty bytes. -/
theorem parse_headerBytes (src dst : InAddr) (id fragOffset : ℕ) (moreFragments : Bool)
    (dataLen : ℕ) (rest : Bytes) :
    Rfc791.parse (headerBytes src dst id fragOffset moreFragments dataLen ++ rest) =
      some
        { version := 4
          ihl := 5
          typeOfService := 0
          totalLength := (sizeofIphdr + dataLen) % 65536
          identification := id % 65536
          reserved := (flagsWord fragOffset moreFragments).testBit 15
          dontFragment := (flagsWord fragOffset moreFragments).testBit 14
          moreFragments := (flagsWord fragOffset moreFragments).testBit 13
          fragmentOffset := flagsWord fragOffset moreFragments % 8192
          timeToLive := 64
          protocol := 17
          headerChecksum := be16
            (lowByte (checksum (headerWith src dst id fragOffset moreFragments dataLen 0)))
            (highByte (checksum (headerWith src dst id fragOffset moreFragments dataLen 0)))
          source := src.bytes
          destination := dst.bytes } := by
  have hflags : flagsWord fragOffset moreFragments % 65536 = flagsWord fragOffset moreFragments :=
    Nat.mod_mod _ _
  simp only [headerBytes]
  generalize checksum (headerWith src dst id fragOffset moreFragments dataLen 0) = check
  simp only [headerWith, List.cons_append, List.nil_append, Rfc791.parse, be16_bytes, hflags]
  rfl

theorem flagsWord_offset (fragOffset : ℕ) (moreFragments : Bool) :
    flagsWord fragOffset moreFragments % 8192 = fragOffset % 8192 := by
  have hdvd : 8192 ∣ 2 ^ 16 := by decide
  rw [flagsWord, Nat.mod_mod_of_dvd _ hdvd, show 8192 = 2 ^ 13 from rfl, Nat.or_mod_two_pow]
  cases moreFragments <;> simp

theorem flagsWord_testBit (fragOffset : ℕ) (moreFragments : Bool) (i : ℕ) (hi : i < 16) :
    (flagsWord fragOffset moreFragments).testBit i =
      (fragOffset.testBit i || (decide (i = 13) && moreFragments)) := by
  rw [flagsWord, Nat.testBit_mod_two_pow, Nat.testBit_or]
  simp only [hi, decide_true, Bool.true_and]
  congr 1
  cases moreFragments with
  | false => simp
  | true =>
    rw [if_pos rfl, show 0x2000 = 2 ^ 13 from rfl, Nat.testBit_two_pow]
    simp [eq_comm]

end OSwitch.IpHeader
