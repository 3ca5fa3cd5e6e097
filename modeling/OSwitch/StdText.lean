import Mathlib.Tactic.IntervalCases
import OSwitch.Lib.Wire

/-!
# The parts of the C++ library that read and write frame numbers

`std::stringstream` with the manipulators `setfill`, `setw` and `hex`, and
`std::stoi (s, 0, 16)`, which converts as `strtol` does: leading whitespace,
a sign, an optional `0x`, then the longest run of hexadecimal digits.
-/

namespace OSwitch.StdText
open Wire

/-! ### Writing -/

/- The fill character and the base stay set; the width holds for one number. -/
structure StringStream where
  contents : Bytes := []
  fill : Byte := ascii ' '
  width : ℕ := 0
  hexBase : Bool := false
  deriving DecidableEq, Repr

def digitChar (d : ℕ) : Byte := Fin.ofNat 256 (if d < 10 then 48 + d else 87 + d)

def digits (base : ℕ) : ℕ → ℕ → Bytes
  | 0, _ => []
  | fuel + 1, v =>
    if v < base then [digitChar v] else digits base fuel (v / base) ++ [digitChar (v % base)]

/- An `int` in base 16 is printed as the unsigned number with its 32 bits. -/
def intText (hexBase : Bool) (v : ℤ) : Bytes :=
  if hexBase then digits 16 8 (v % 2 ^ 32).toNat
  else if v < 0 then ascii '-' :: digits 10 10 v.natAbs
  else digits 10 10 v.natAbs

namespace StringStream

/-- `str("")` -/
def reset (s : StringStream) : StringStream := { s with contents := [] }
def setfill (s : StringStream) (c : Byte) : StringStream := { s with fill := c }
def setw (s : StringStream) (w : ℕ) : StringStream := { s with width := w }
def hex (s : StringStream) : StringStream := { s with hexBase := true }
def putInt (s : StringStream) (v : ℤ) : StringStream :=
  let t := intText s.hexBase v
  { s with contents := s.contents ++ List.replicate (s.width - t.length) s.fill ++ t, width := 0 }

/-- `s << std::setfill ('0') << std::setw(2) << std::hex << v` -/
def putFrameNumber (s : StringStream) (v : ℤ) : StringStream :=
  (((s.setfill (ascii '0')).setw 2).hex).putInt v

end StringStream

/-- The text of a number in an empty stream with these manipulators. -/
def frameText (v : ℤ) : Bytes :=
  List.replicate (2 - (intText true v).length) (ascii '0') ++ intText true v

/-- Whatever the stream was used for before, an empty one yields `frameText`. -/
theorem putFrameNumber_contents (s : StringStream) (v : ℤ) (h : s.contents = []) :
    (s.putFrameNumber v).contents = frameText v := by
  simp only [StringStream.putFrameNumber, StringStream.putInt, StringStream.hex,
    StringStream.setw, StringStream.setfill, h, List.nil_append, frameText]

theorem intText_hex_byte (v : ℕ) (h : v ≤ 255) : intText true v =
    if v < 16 then [digitChar v] else [digitChar (v / 16), digitChar (v % 16)] := by
  have hv : ((v : ℤ) % 2 ^ 32).toNat = v := by omega
  simp only [intText, if_true, hv, digits]
  split
  · rfl
  · rw [if_pos (by omega)]
    rfl

/-- A number up to 255 is written with exactly two digits. -/
theorem frameText_byte (v : ℕ) (h : v ≤ 255) :
    frameText v = [digitChar (v / 16), digitChar (v % 16)] := by
  unfold frameText
  rw [intText_hex_byte v h]
  split
  next hlt =>
    rw [show v / 16 = 0 by omega, show v % 16 = v by omega]
    rfl
  next => rfl

/-! ### Reading -/

inductive StdException where
  | invalidArgument
  | outOfRange
  deriving DecidableEq, Repr

def isSpace (b : Byte) : Bool := b.val = 32 || (9 ≤ b.val && b.val ≤ 13)

def isSign (b : Byte) : Bool := b = ascii '+' || b = ascii '-'

def hexValue (b : Byte) : Option ℕ :=
  if 48 ≤ b.val ∧ b.val ≤ 57 then some (b.val - 48)
  else if 97 ≤ b.val ∧ b.val ≤ 102 then some (b.val - 87)
  else if 65 ≤ b.val ∧ b.val ≤ 70 then some (b.val - 55)
  else none

def hexRun : Bytes → List ℕ
  | [] => []
  | b :: bs =>
    match hexValue b with
    | some d => d :: hexRun bs
    | none => []

def signOf : Bytes → Bool × Bytes
  | [] => (false, [])
  | b :: bs => if isSign b then (b = ascii '-', bs) else (false, b :: bs)

/- The prefix counts only where a digit follows it; `0x` alone reads as `0`. -/
def skipBase : Bytes → Bytes
  | z :: x :: d :: bs =>
    if z = ascii '0' ∧ (x = ascii 'x' ∨ x = ascii 'X') ∧ (hexValue d).isSome then d :: bs
    else z :: x :: d :: bs
  | bs => bs

def hexNumber (ds : List ℕ) : ℕ := ds.foldl (fun v d => 16 * v + d) 0

def stoi (s : Bytes) : Except StdException ℤ :=
  let signed := signOf (s.dropWhile isSpace)
  let ds := hexRun (skipBase signed.2)
  let v : ℤ := if signed.1 then -(hexNumber ds : ℤ) else hexNumber ds
  if ds = [] then .error .invalidArgument
  else if -2 ^ 31 ≤ v ∧ v < 2 ^ 31 then .ok v
  else .error .outOfRange

theorem hexValue_le {b : Byte} {d : ℕ} (h : hexValue b = some d) : d ≤ 15 := by
  unfold hexValue at h
  split at h
  · cases h; omega
  · split at h
    · cases h; omega
    · split at h
      · cases h; omega
      · cases h

theorem hexValue_digitChar (d : ℕ) (h : d < 16) : hexValue (digitChar d) = some d := by
  interval_cases d <;> rfl

theorem isSpace_of_hex {b : Byte} {d : ℕ} (h : hexValue b = some d) : isSpace b = false := by
  by_contra hs
  simp only [isSpace, Bool.not_eq_false, Bool.or_eq_true, Bool.and_eq_true,
    decide_eq_true_eq] at hs
  have hn : hexValue b = none := by
    unfold hexValue
    rw [if_neg (by omega), if_neg (by omega), if_neg (by omega)]
  rw [hn] at h
  cases h

theorem hexValue_of_sign {b : Byte} (h : isSign b = true) : hexValue b = none := by
  simp only [isSign, Bool.or_eq_true, decide_eq_true_eq] at h
  rcases h with rfl | rfl <;> rfl

theorem isSpace_of_sign {b : Byte} (h : isSign b = true) : isSpace b = false := by
  simp only [isSign, Bool.or_eq_true, decide_eq_true_eq] at h
  rcases h with rfl | rfl <;> rfl

theorem isSign_of_hex {b : Byte} {d : ℕ} (h : hexValue b = some d) : isSign b = false := by
  by_contra hs
  rw [hexValue_of_sign (by simpa using hs)] at h
  cases h

/-! ### Conversion of two characters -/

theorem stoi_of_run {s rest : Bytes} {neg : Bool} {ds : List ℕ}
    (hs : signOf (s.dropWhile isSpace) = (neg, rest)) (hd : hexRun (skipBase rest) = ds)
    (hne : ds ≠ []) (hle : hexNumber ds ≤ 255) :
    stoi s = .ok (if neg then -(hexNumber ds : ℤ) else hexNumber ds) := by
  simp only [stoi, hs, hd, if_neg hne]
  rw [if_pos]
  split <;> omega

theorem stoi_of_no_run {s : Bytes} (h : hexRun (skipBase (signOf (s.dropWhile isSpace)).2) = []) :
    stoi s = .error .invalidArgument := by
  simp only [stoi, h, if_true]

theorem stoi_digits {a b : Byte} {x y : ℕ} (ha : hexValue a = some x) (hb : hexValue b = some y) :
    stoi [a, b] = .ok (16 * x + y : ℕ) := by
  have hx := hexValue_le ha
  have hy := hexValue_le hb
  have hs : signOf ([a, b].dropWhile isSpace) = (false, [a, b]) := by
    simp [isSpace_of_hex ha, signOf, isSign_of_hex ha]
  have hrun : hexRun (skipBase [a, b]) = [x, y] := by simp only [skipBase, hexRun, ha, hb]
  have hv : hexNumber [x, y] = 16 * x + y := by simp [hexNumber]
  simpa only [hv, Bool.false_eq_true, if_false] using stoi_of_run hs hrun (by simp) (by omega)

theorem stoi_byte {k : ℕ} (h : k ≤ 255) :
    stoi [digitChar (k / 16), digitChar (k % 16)] = .ok (k : ℕ) := by
  have hhi := hexValue_digitChar (k / 16) (by omega)
  have hlo := hexValue_digitChar (k % 16) (by omega)
  rw [stoi_digits hhi hlo, Nat.div_add_mod]

/-- What is written for a number up to 255 is read back. -/
theorem stoi_frameText {v : ℤ} (h0 : 0 ≤ v) (h : v ≤ 255) : stoi (frameText v) = .ok v := by
  obtain ⟨k, rfl⟩ := Int.eq_ofNat_of_zero_le h0
  rw [frameText_byte k (by omega), stoi_byte (by omega)]

/- The conversion stops at the first character that is no digit. -/
theorem stoi_digit_other {a b : Byte} {x : ℕ} (ha : hexValue a = some x)
    (hb : hexValue b = none) : stoi [a, b] = .ok (x : ℕ) := by
  have hx := hexValue_le ha
  have hs : signOf ([a, b].dropWhile isSpace) = (false, [a, b]) := by
    simp [isSpace_of_hex ha, signOf, isSign_of_hex ha]
  have hrun : hexRun (skipBase [a, b]) = [x] := by simp only [skipBase, hexRun, ha, hb]
  have hv : hexNumber [x] = x := by simp [hexNumber]
  simpa only [hv, Bool.false_eq_true, if_false] using stoi_of_run hs hrun (by simp) (by omega)

/- After whitespace or a sign only the second character is converted. -/
theorem stoi_lead_digit {a b : Byte} {y : ℕ} (ha : isSpace a = true ∨ isSign a = true)
    (hb : hexValue b = some y) :
    stoi [a, b] = .ok (if a = ascii '-' then -(y : ℤ) else y) := by
  have hy := hexValue_le hb
  have hs : signOf ([a, b].dropWhile isSpace) = (decide (a = ascii '-'), [b]) := by
    rcases ha with ha | ha
    · have hm : a ≠ ascii '-' := by
        rintro rfl
        cases ha
      simp [ha, isSpace_of_hex hb, signOf, isSign_of_hex hb, hm]
    · simp [isSpace_of_sign ha, signOf, ha]
  have hrun : hexRun (skipBase [b]) = [y] := by simp only [skipBase, hexRun, hb]
  have hv : hexNumber [y] = y := by simp [hexNumber]
  simpa only [hv, decide_eq_true_eq] using stoi_of_run hs hrun (by simp) (by omega)

/-- Something is converted: a digit comes first, or whitespace or a sign
followed by a digit. -/
def converts (a b : Byte) : Bool :=
  (hexValue a).isSome || ((isSpace a || isSign a) && (hexValue b).isSome)

theorem stoi_of_converts {a b : Byte} (h : converts a b = true) : ∃ v, stoi [a, b] = .ok v := by
  cases ha : hexValue a with
  | some x =>
    cases hb : hexValue b with
    | some y => exact ⟨_, stoi_digits ha hb⟩
    | none => exact ⟨_, stoi_digit_other ha hb⟩
  | none =>
    simp only [converts, ha, Option.isSome_none, Bool.false_or, Bool.and_eq_true,
      Bool.or_eq_true] at h
    obtain ⟨hlead, hsome⟩ := h
    obtain ⟨y, hb⟩ := Option.isSome_iff_exists.mp hsome
    exact ⟨_, stoi_lead_digit hlead hb⟩

/- Whatever is skipped in front, no digit is found. -/
theorem stoi_of_not_converts {a b : Byte} (h : converts a b = false) :
    stoi [a, b] = .error .invalidArgument := by
  simp only [converts, Bool.or_eq_false_iff, Bool.and_eq_false_iff] at h
  obtain ⟨hna, hrest⟩ := h
  have ha : hexValue a = none := by simpa using hna
  apply stoi_of_no_run
  by_cases hlead : isSpace a = true ∨ isSign a = true
  · have hb : hexValue b = none := by
      rcases hrest with ⟨hs, hg⟩ | hb
      · simp [hs, hg] at hlead
      · simpa using hb
    by_cases hs : isSpace a = true
    · by_cases hsb : isSpace b = true
      · simp [hs, hsb, signOf, skipBase, hexRun]
      · by_cases hg : isSign b = true
        · simp [hs, hsb, signOf, hg, skipBase, hexRun]
        · simp [hs, hsb, signOf, hg, skipBase, hexRun, hb]
    · have hg : isSign a = true := by simpa [hs] using hlead
      simp [hs, signOf, hg, skipBase, hexRun, hb]
  · rw [not_or] at hlead
    simp [hlead.1, signOf, hlead.2, skipBase, hexRun, ha]

end OSwitch.StdText
