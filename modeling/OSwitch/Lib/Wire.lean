import Mathlib.Algebra.GroupWithZero.Nat
import Mathlib.Data.Fin.Basic
import Mathlib.Data.List.Basic
import Mathlib.Tactic.Common

/-!
# Bytes, 16-bit words and byte buffers

Octets are `Fin 256`; a buffer is the list of its octets. Words are naturals
below `2^16`, written to memory low byte first (`storeLe16`) and read from the
network high byte first (`be16`).
-/

namespace Wire

abbrev Byte := Fin 256
abbrev Bytes := List Byte

/- Numerals of type `Byte` go through this instance. -/
instance instNeZeroByte : NeZero 256 := ⟨by decide⟩

/-- The octet of an ASCII character. -/
def ascii (c : Char) : Byte := Fin.ofNat 256 c.toNat

/-- The octets of an ASCII text. -/
def text (s : String) : Bytes := s.toList.map ascii

/-! ### Sixteen-bit words -/

def lowByte (x : ℕ) : Byte := ⟨x % 256, Nat.mod_lt _ (by decide)⟩
def highByte (x : ℕ) : Byte := ⟨x / 256 % 256, Nat.mod_lt _ (by decide)⟩

@[simp] theorem lowByte_val (x : ℕ) : (lowByte x).val = x % 256 := rfl
@[simp] theorem highByte_val (x : ℕ) : (highByte x).val = x / 256 % 256 := rfl

/-- Value of two octets, most significant first. -/
def be16 (hi lo : Byte) : ℕ := hi.val * 256 + lo.val

/-- Value of two octets, least significant first. -/
def le16 (lo hi : Byte) : ℕ := lo.val + hi.val * 256

/-- Memory image of a 16-bit word on a little-endian host. -/
def storeLe16 (x : ℕ) : Bytes := [lowByte x, highByte x]

/-- The word with its two octets exchanged. -/
def swap16 (x : ℕ) : ℕ := x % 256 * 256 + x / 256 % 256

theorem be16_bytes (x : ℕ) : be16 (highByte x) (lowByte x) = x % 65536 := by
  simp only [be16, highByte_val, lowByte_val]
  omega

theorem lowByte_swap16 (x : ℕ) : lowByte (swap16 x) = highByte x := by
  apply Fin.ext
  simp only [lowByte_val, highByte_val, swap16]
  omega

theorem highByte_swap16 (x : ℕ) : highByte (swap16 x) = lowByte x := by
  have hh : x / 256 % 256 < 256 := Nat.mod_lt _ (by decide)
  apply Fin.ext
  simp only [lowByte_val, highByte_val, swap16]
  generalize x / 256 % 256 = h at hh
  omega

/-! ### Reads from a buffer -/

/-- The octets from index `lo` up to, not including, index `hi`. -/
def slice (buf : Bytes) (lo hi : ℕ) : Bytes := (buf.drop lo).take (hi - lo)

theorem slice_length (buf : Bytes) (lo hi : ℕ) (h : hi ≤ buf.length) :
    (slice buf lo hi).length = hi - lo := by
  simp only [slice, List.length_take, List.length_drop]
  omega

/-- A read inside the first part of a buffer does not see the second part. -/
theorem slice_append_left (buf rest : Bytes) (lo hi : ℕ) (h : hi ≤ buf.length) :
    slice (buf ++ rest) lo hi = slice buf lo hi := by
  unfold slice
  by_cases hlo : lo ≤ buf.length
  · rw [List.drop_append_of_le_length hlo, List.take_append_of_le_length]
    rw [List.length_drop]
    omega
  · rw [show hi - lo = 0 by omega, List.take_zero, List.take_zero]

theorem slice_replicate (n lo hi : ℕ) (b : Byte) (h : hi ≤ n) :
    slice (List.replicate n b) lo hi = List.replicate (hi - lo) b := by
  rw [slice, List.drop_replicate, List.take_replicate, Nat.min_eq_left (by omega)]

/-- Two adjacent octets. -/
theorem slice_pair (buf : Bytes) (i : ℕ) (h : i + 1 < buf.length) :
    slice buf i (i + 2) = [buf[i], buf[i + 1]] := by
  have hi : i < buf.length := by omega
  have hdrop : buf.drop i = buf[i] :: buf[i + 1] :: buf.drop (i + 1 + 1) := by
    rw [List.drop_eq_getElem_cons hi, List.drop_eq_getElem_cons h]
  rw [slice, hdrop, show i + 2 - i = 2 by omega]
  rfl

/-! ### Writes into a buffer -/

/-- The buffer after the octets `xs` were written from index `at'` on. -/
def poke (buf : Bytes) (at' : ℕ) (xs : Bytes) : Bytes :=
  buf.take at' ++ xs ++ buf.drop (at' + xs.length)

theorem poke_length (buf : Bytes) (at' : ℕ) (xs : Bytes) (h : at' + xs.length ≤ buf.length) :
    (poke buf at' xs).length = buf.length := by
  simp only [poke, List.length_append, List.length_take, List.length_drop]
  omega

/-- A write that starts where the first part ends. -/
theorem poke_append_right (buf rest xs : Bytes) :
    poke (buf ++ rest) buf.length xs = buf ++ xs ++ rest.drop xs.length := by
  simp only [poke, List.take_left', List.drop_append, List.append_assoc]
  rw [List.drop_of_length_le (by omega)]
  simp

end Wire
