import Mathlib.Algebra.Order.BigOperators.Group.List
import Mathlib.Algebra.Order.Ring.Nat
import OSwitch.IpHeader
import OSwitch.Lib.Rfc1071

/-!
# The checksum and the header as a receiver checks them

`checksum` adds little-endian words in 32 bits and folds the carries back in
twice. Up to 131074 bytes this is the sum of RFC 1071, so a receiver that adds
up the ten words of a header in network order gets all ones.
-/

namespace OSwitch.IpHeader
open Wire Rfc1071

/- The two folding steps of `checksum`, in 32 bits. -/
def foldSum (sum : ℕ) : ℕ :=
  let sum := sum / 2 ^ 16 + sum % 2 ^ 16
  (sum + sum / 2 ^ 16) % 2 ^ 32

theorem checksum_fold (buf : Bytes) :
    checksum buf = complement (foldSum (checksumLoop 0 buf) % 2 ^ 16) := rfl

/-! ### The accumulator -/

theorem checksumLoop_eq (buf : Bytes) (sum : ℕ) (h : sum + (words le16 buf).sum < 2 ^ 32) :
    checksumLoop sum buf = sum + (words le16 buf).sum := by
  induction buf using words.induct generalizing sum with
  | case1 lo hi rest ih =>
    rw [words, List.sum_cons] at h ⊢
    rw [checksumLoop, Nat.mod_eq_of_lt (by omega), ih _ (by omega)]
    omega
  | case2 b =>
    have hpad : le16 b 0 = b.val := by simp [le16]
    rw [words, List.sum_singleton, hpad] at h ⊢
    rw [checksumLoop, Nat.mod_eq_of_lt h]
  | case3 => rfl

theorem sum_words_lt {buf : Bytes} (h : buf.length ≤ 131074) :
    (words le16 buf).sum < 2 ^ 32 := by
  have hlen : (words le16 buf).length ≤ 65537 := by
    have hwords := words_length_le le16 buf
    omega
  have hle : ∀ w ∈ words le16 buf, w ≤ 65535 := fun w hw =>
    Nat.le_of_lt_succ (words_lt le16_lt buf w hw)
  have hsum : (words le16 buf).sum ≤ (words le16 buf).length * 65535 :=
    List.sum_le_card_nsmul _ _ hle
  omega

/-- Two folds take in every carry, the one that the first fold makes included. -/
theorem foldSum_eq {n : ℕ} (h : n < 2 ^ 32) : foldSum n % 2 ^ 16 = residue n := by
  have hfirst : n / 2 ^ 16 + n % 2 ^ 16 ≤ 131070 := by omega
  rw [← residue_fold n, foldSum]
  generalize n / 2 ^ 16 + n % 2 ^ 16 = f at hfirst
  by_cases hcarry : f < 65536
  · rw [residue_of_lt hcarry]
    omega
  · have hsplit : f = f - 65535 + 65535 * 1 := by omega
    have hresidue : residue f = f - 65535 := by
      rw [hsplit, residue_add_mul (by omega), residue_of_lt (by omega)]
      omega
    rw [hresidue]
    omega

theorem checksum_eq {buf : Bytes} (h : buf.length ≤ 131074) :
    checksum buf = complement (Rfc1071.sum (words le16 buf)) := by
  have hlt := sum_words_lt h
  have hloop : checksumLoop 0 buf = (words le16 buf).sum := by
    rw [checksumLoop_eq buf 0 (by omega), Nat.zero_add]
  rw [checksum_fold, hloop, foldSum_eq hlt, sum_eq (words_lt le16_lt buf)]

/-- Up to 131074 bytes the accumulator does not wrap, the folds leave the sum of
RFC 1071, and the checksum is its complement, in either byte order. -/
theorem checksum_rfc1071 (buf : Bytes) (h : buf.length ≤ 131074) :
    checksumLoop 0 buf = (words le16 buf).sum ∧ (words le16 buf).sum < 2 ^ 32 ∧
    foldSum (words le16 buf).sum % 2 ^ 16 = Rfc1071.sum (words le16 buf) ∧
    checksum buf = complement (Rfc1071.sum (words le16 buf)) ∧
    swap16 (checksum buf) = complement (Rfc1071.sum (words be16 buf)) := by
  have hlt := sum_words_lt h
  have hwords := words_lt le16_lt buf
  have hsum := sum_eq hwords
  have hsum_lt : Rfc1071.sum (words le16 buf) < 65536 := by
    rw [hsum]
    exact residue_lt _
  refine ⟨?_, hlt, ?_, checksum_eq h, ?_⟩
  · rw [checksumLoop_eq buf 0 (by omega), Nat.zero_add]
  · rw [foldSum_eq hlt, hsum]
  · rw [checksum_eq h, swap16_complement hsum_lt, swap16_sum hwords, map_swap16_words]

/- The longest buffer, every bit set. -/
theorem checksum_rfc1071_longest :
    checksumLoop 0 (List.replicate 131074 255) = (words le16 (List.replicate 131074 255)).sum ∧
    (words le16 (List.replicate 131074 255)).sum < 2 ^ 32 := by
  have h := checksum_rfc1071 (List.replicate 131074 255) List.length_replicate.le
  exact ⟨h.1, h.2.1⟩

/-! ### The header -/

section header
variable (src dst : InAddr) (id fragOffset : ℕ) (moreFragments : Bool) (dataLen : ℕ)

/- The check field is the sixth of ten words. -/
theorem words_headerWith : ∃ ws ws', (∀ w ∈ ws, w < 65536) ∧ (∀ w ∈ ws', w < 65536) ∧
    ∀ check, words le16 (headerWith src dst id fragOffset moreFragments dataLen check) =
      ws ++ check % 65536 :: ws' := by
  refine ⟨words le16 ((headerWith src dst id fragOffset moreFragments dataLen 0).take 10),
    words le16 ((headerWith src dst id fragOffset moreFragments dataLen 0).drop 12),
    words_lt le16_lt _, words_lt le16_lt _, ?_⟩
  intro check
  have hcheck : check % 65536 = le16 (lowByte check) (highByte check) := by
    simp only [le16, lowByte_val, highByte_val]
    omega
  rw [hcheck]
  rfl

/-- The ten words, in the byte order of the host, add up to all ones. -/
theorem sum_headerBytes :
    Rfc1071.sum (words le16 (headerBytes src dst id fragOffset moreFragments dataLen)) =
      65535 := by
  obtain ⟨ws, ws', hw, hw', hwords⟩ := words_headerWith src dst id fragOffset moreFragments dataLen
  have hzero := hwords 0
  rw [Nat.zero_mod] at hzero
  have hcheck : checksum (headerWith src dst id fragOffset moreFragments dataLen 0) =
      complement (Rfc1071.sum (ws ++ 0 :: ws')) := by
    rw [checksum_eq (Nat.le_of_ble_eq_true rfl), hzero]
  have hlt : complement (Rfc1071.sum (ws ++ 0 :: ws')) < 65536 := by
    unfold complement
    omega
  rw [headerBytes, hwords, hcheck, Nat.mod_eq_of_lt hlt]
  exact sum_complement hw hw'

end header

/-- RFC 791 reads back what `create_ip_header` was given, the checksum verifies
in network order, and the buffer behind the header is as before. -/
theorem header_inverted (buffer : Bytes) (hbuffer : 20 ≤ buffer.length) (src dst : InAddr)
    (id fragOffset : ℕ) (moreFragments : Bool) (dataLen : ℕ) (hid : id ≤ 65535)
    (hoffset : fragOffset ≤ 8191) (hlen : dataLen ≤ 65515) :
    (∃ h, Rfc791.parse ((createIpHeader buffer src dst id fragOffset moreFragments dataLen).take 20) =
        some h ∧
      h.version = 4 ∧ 4 * h.ihl = 20 ∧ h.totalLength = 20 + dataLen ∧ h.identification = id ∧
      h.fragmentOffset = fragOffset ∧ h.moreFragments = moreFragments ∧
      h.dontFragment = false ∧ h.reserved = false ∧
      h.source = src.bytes ∧ h.destination = dst.bytes) ∧
    Rfc1071.sum (words be16
      ((createIpHeader buffer src dst id fragOffset moreFragments dataLen).take 20)) = 65535 ∧
    (createIpHeader buffer src dst id fragOffset moreFragments dataLen).drop 20 =
      buffer.drop 20 := by
  have hheader : (headerBytes src dst id fragOffset moreFragments dataLen).length = 20 := rfl
  have hbit : ∀ i, 13 ≤ i → fragOffset.testBit i = false := by
    intro i hi
    refine Nat.testBit_lt_two_pow ?_
    calc fragOffset < 2 ^ 13 := by omega
      _ ≤ 2 ^ i := Nat.pow_le_pow_right (by decide) hi
  rw [createIpHeader_eq _ _ _ _ _ _ _ hbuffer, List.take_left' hheader, List.drop_left' hheader]
  refine ⟨?_, ?_, rfl⟩
  · have hparse := parse_headerBytes src dst id fragOffset moreFragments dataLen []
    rw [List.append_nil] at hparse
    refine ⟨_, hparse, rfl, rfl, ?_, ?_, ?_, ?_, ?_, ?_, rfl, rfl⟩
    · exact Nat.mod_eq_of_lt (by simp only [sizeofIphdr]; omega)
    · exact Nat.mod_eq_of_lt (by omega)
    · exact (flagsWord_offset _ _).trans (Nat.mod_eq_of_lt (by omega))
    · rw [flagsWord_testBit _ _ 13 (by omega), hbit 13 le_rfl]
      simp
    · rw [flagsWord_testBit _ _ 14 (by omega), hbit 14 (by omega)]
      simp
    · rw [flagsWord_testBit _ _ 15 (by omega), hbit 15 (by omega)]
      simp
  · rw [← map_swap16_words, ← swap16_sum (words_lt le16_lt _), sum_headerBytes]
    rfl

/- The largest values of all fields, in a buffer that was not cleared. -/
theorem header_inverted_largest :
    Rfc1071.sum (words be16 ((createIpHeader (List.replicate 10000 255) ⟨192, 168, 1, 1⟩
      ⟨192, 168, 1, 2⟩ 65535 8191 true 65515).take 20)) = 65535 :=
  (header_inverted (List.replicate 10000 255) (by rw [List.length_replicate]; decide)
    ⟨192, 168, 1, 1⟩ ⟨192, 168, 1, 2⟩ 65535 8191 true 65515 le_rfl le_rfl le_rfl).2.1

end OSwitch.IpHeader
