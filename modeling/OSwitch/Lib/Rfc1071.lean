import Mathlib.Algebra.BigOperators.Group.List.Basic
import OSwitch.Lib.Wire

/-!
# The Internet checksum (RFC 1071)

One's complement addition of 16-bit words: the carry out of the top is added
in at the bottom. A sum of any number of words depends only on their ordinary
sum, through its residue among 1 .. 65535 (0 stands for an empty sum alone), so
carries may be deferred, words may be taken in any order, and exchanging the
octets of all words exchanges those of the sum.
-/

namespace Rfc1071
open Wire

/-- Addition with end-around carry. -/
def addCarry (x y : ℕ) : ℕ := (x + y) % 65536 + (x + y) / 65536

def sum (ws : List ℕ) : ℕ := ws.foldl addCarry 0

/-- The words of a buffer; an octet left over at the end is padded with zero. -/
def words (word : Byte → Byte → ℕ) : Bytes → List ℕ
  | a :: b :: rest => word a b :: words word rest
  | [a] => [word a 0]
  | [] => []

def complement (x : ℕ) : ℕ := 65535 - x

/-! ### The sum as a residue -/

def residue (n : ℕ) : ℕ := if n = 0 then 0 else (n - 1) % 65535 + 1

theorem residue_lt (n : ℕ) : residue n < 65536 := by
  unfold residue
  split <;> omega

theorem residue_of_lt {n : ℕ} (h : n < 65536) : residue n = n := by
  unfold residue
  split <;> omega

theorem residue_add (a b : ℕ) : residue (residue a + b) = residue (a + b) := by
  by_cases ha : a = 0
  · rw [ha]
    rfl
  · have hpos : a + b ≠ 0 := by omega
    simp only [residue, ha, hpos, if_false, Nat.add_eq_zero_iff, Nat.succ_ne_zero, false_and]
    omega

theorem residue_mul (k a : ℕ) : residue (k * residue a) = residue (k * a) := by
  induction k with
  | zero => rw [Nat.zero_mul, Nat.zero_mul]
  | succ k ih =>
    rw [Nat.succ_mul, Nat.succ_mul, ← residue_add, ih, residue_add, Nat.add_comm, residue_add,
      Nat.add_comm]

theorem residue_add_mul {a : ℕ} (ha : a ≠ 0) (k : ℕ) : residue (a + 65535 * k) = residue a := by
  rw [residue, residue, if_neg (by omega), if_neg ha,
    show a + 65535 * k - 1 = a - 1 + 65535 * k by omega, Nat.add_mul_mod_self_left]

/-- Adding the carries to the low half changes nothing. -/
theorem residue_fold (n : ℕ) : residue (n / 65536 + n % 65536) = residue n := by
  by_cases hn : n = 0
  · rw [hn]
  · have hpos : n / 65536 + n % 65536 ≠ 0 := by omega
    have hsplit : n = n / 65536 + n % 65536 + 65535 * (n / 65536) := by omega
    conv_rhs => rw [hsplit, residue_add_mul hpos]

theorem addCarry_eq {x y : ℕ} (hx : x < 65536) (hy : y < 65536) :
    addCarry x y = residue (x + y) := by
  unfold addCarry residue
  split <;> omega

theorem foldl_addCarry (ws : List ℕ) (hw : ∀ w ∈ ws, w < 65536) (a : ℕ) :
    ws.foldl addCarry (residue a) = residue (a + ws.sum) := by
  induction ws generalizing a with
  | nil => rfl
  | cons w ws ih =>
    have hcarry : addCarry (residue a) w = residue (a + w) := by
      rw [addCarry_eq (residue_lt a) (hw w List.mem_cons_self), residue_add]
    rw [List.foldl_cons, hcarry, ih (fun v hv => hw v (List.mem_cons_of_mem _ hv)),
      List.sum_cons, Nat.add_assoc]

/-- Deferred carries: the sum is the residue of the ordinary sum. -/
theorem sum_eq {ws : List ℕ} (hw : ∀ w ∈ ws, w < 65536) : sum ws = residue ws.sum := by
  have h := foldl_addCarry ws hw 0
  rw [Nat.zero_add] at h
  exact h

/-- A word of zero replaced by the complement of the sum makes the sum all ones. -/
theorem sum_complement {ws ws' : List ℕ} (hw : ∀ w ∈ ws, w < 65536) (hw' : ∀ w ∈ ws', w < 65536) :
    sum (ws ++ complement (sum (ws ++ 0 :: ws')) :: ws') = 65535 := by
  have hzero : ∀ w ∈ ws ++ 0 :: ws', w < 65536 := by
    intro w hmem
    rcases List.mem_append.mp hmem with hmem | hmem
    · exact hw w hmem
    · rcases List.mem_cons.mp hmem with rfl | hmem
      · decide
      · exact hw' w hmem
  have hcheck : ∀ w ∈ ws ++ complement (sum (ws ++ 0 :: ws')) :: ws', w < 65536 := by
    intro w hmem
    rcases List.mem_append.mp hmem with hmem | hmem
    · exact hw w hmem
    · rcases List.mem_cons.mp hmem with rfl | hmem
      · unfold complement
        omega
      · exact hw' w hmem
  rw [sum_eq hcheck, sum_eq hzero, List.sum_append, List.sum_append, List.sum_cons, List.sum_cons]
  generalize ws.sum = a
  generalize ws'.sum = b
  rw [Nat.zero_add]
  unfold complement residue
  split <;> split <;> omega

/-! ### Exchanging the octets -/

theorem swap16_lt (x : ℕ) : swap16 x < 65536 := by
  unfold swap16
  omega

/- 256 times a word is its octets exchanged and a multiple of 65535. -/
theorem swap16_eq {x : ℕ} (hx : x < 65536) : swap16 x = residue (256 * x) := by
  have hsplit : 256 * x = swap16 x + 65535 * (x / 256) := by
    unfold swap16
    omega
  by_cases hzero : x = 0
  · rw [hzero]
    rfl
  · have hpos : swap16 x ≠ 0 := by
      unfold swap16
      omega
    rw [hsplit, residue_add_mul hpos, residue_of_lt (swap16_lt x)]

theorem swap16_residue (n : ℕ) : swap16 (residue n) = residue (256 * n) := by
  rw [swap16_eq (residue_lt n), residue_mul]

theorem swap16_complement {x : ℕ} (hx : x < 65536) :
    swap16 (complement x) = complement (swap16 x) := by
  unfold swap16 complement
  omega

theorem residue_sum_swap16 (ws : List ℕ) (hw : ∀ w ∈ ws, w < 65536) :
    residue (ws.map swap16).sum = residue (256 * ws.sum) := by
  induction ws with
  | nil => rfl
  | cons w ws ih =>
    have htail := ih fun v hv => hw v (List.mem_cons_of_mem _ hv)
    rw [List.map_cons, List.sum_cons, List.sum_cons, swap16_eq (hw w List.mem_cons_self),
      residue_add, Nat.add_comm, ← residue_add, htail, residue_add, Nat.mul_add, Nat.add_comm]

/-- The octets of the sum are exchanged with those of the words. -/
theorem swap16_sum {ws : List ℕ} (hw : ∀ w ∈ ws, w < 65536) :
    swap16 (sum ws) = sum (ws.map swap16) := by
  have hswapped : ∀ w ∈ ws.map swap16, w < 65536 := by
    intro w hmem
    obtain ⟨v, -, rfl⟩ := List.mem_map.mp hmem
    exact swap16_lt v
  rw [sum_eq hw, sum_eq hswapped, residue_sum_swap16 ws hw, swap16_residue]

/-! ### The words of a buffer -/

theorem le16_lt (lo hi : Byte) : le16 lo hi < 65536 := by
  have hl := lo.isLt
  have hh := hi.isLt
  unfold le16
  omega

theorem words_lt {word : Byte → Byte → ℕ} (hw : ∀ a b, word a b < 65536) (buf : Bytes) :
    ∀ w ∈ words word buf, w < 65536 := by
  induction buf using words.induct with
  | case1 a b rest ih =>
    intro w hmem
    rcases List.mem_cons.mp hmem with rfl | hmem
    · exact hw a b
    · exact ih w hmem
  | case2 a =>
    intro w hmem
    rw [List.mem_singleton.mp hmem]
    exact hw a 0
  | case3 =>
    intro w hmem
    cases hmem

theorem swap16_le16 (a b : Byte) : swap16 (le16 a b) = be16 a b := by
  have ha := a.isLt
  have hb := b.isLt
  unfold swap16 le16 be16
  omega

/-- Reading the words the other way round exchanges their octets. -/
theorem map_swap16_words (buf : Bytes) : (words le16 buf).map swap16 = words be16 buf := by
  induction buf using words.induct with
  | case1 a b rest ih => rw [words, words, List.map_cons, swap16_le16, ih]
  | case2 a => rw [words, words, List.map_singleton, swap16_le16]
  | case3 => rfl

theorem words_length_le (word : Byte → Byte → ℕ) (buf : Bytes) :
    2 * (words word buf).length ≤ buf.length + 1 := by
  induction buf using words.induct with
  | case1 a b rest ih =>
    simp only [words, List.length_cons]
    omega
  | case2 a => exact Nat.le_refl 2
  | case3 => exact Nat.zero_le 1

end Rfc1071
