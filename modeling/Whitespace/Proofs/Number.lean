import Mathlib
import Whitespace.BitString

/-!
Numbers as literals and as decimal texts. A literal that is not too wide stands for a word of less
than 2³⁰ in either direction, and such a word is read back from its own literal. Every word is read
back from its text. So a literal that is written in decimal and read again keeps its number, though
leading zeros and the sign of zero are lost.
-/
namespace Whitespace

namespace Decimal

theorem isDigit_of_mem_ofNat {n : Nat} {c : Char} (h : c ∈ ofNat n) : c.isDigit = true :=
  Nat.isDigit_of_mem_toDigits (by decide) (by decide) h

theorem ofNat_ne_nil (n : Nat) : ofNat n ≠ [] := Nat.toDigits_ne_nil

theorem integer?_ofInt (i : Int) : integer? (ofInt i) = some i := by
  unfold ofInt
  split
  · next hneg =>
    have hvalue : -(i.natAbs : Int) = i := by omega
    rw [integer?, digits?_ofNat]
    exact congrArg some hvalue
  · next hpos =>
    have hdigit : ∀ {c cs}, ofNat i.natAbs = c :: cs → c.isDigit = true :=
      fun h => isDigit_of_mem_ofNat (h ▸ List.mem_cons_self)
    -- A digit comes first, so the text is read as a numeral without a sign.
    unfold integer?
    split
    · next h => cases hdigit h
    · next h => cases hdigit h
    · rw [digits?_ofNat]
      exact congrArg some (Int.natAbs_of_nonneg (Int.not_lt.mp hpos))

end Decimal

theorem Word.ofText?_text (w : Word) : ofText? w.text = some w := by
  have hlow := w.le_toInt
  have hhigh := w.toInt_lt
  rw [ofText?, text, Decimal.integer?_ofInt, Option.bind_some, if_pos (by omega), Int32.ofInt_toInt]

namespace BitString

theorem foldl_magnitude (bits : BitString) (n : Nat) :
    bits.foldl (fun n b => 2 * n + b.toNat) n = n * 2 ^ bits.length + magnitude bits := by
  unfold magnitude
  induction bits generalizing n with
  | nil => simp
  | cons b bits ih =>
    rw [List.foldl_cons, List.foldl_cons, ih, ih (2 * 0 + b.toNat), List.length_cons, Nat.pow_succ]
    ring

theorem magnitude_cons (b : Bit) (bits : BitString) :
    magnitude (b :: bits) = b.toNat * 2 ^ bits.length + magnitude bits := by
  rw [magnitude, List.foldl_cons, foldl_magnitude, Nat.mul_zero, Nat.zero_add]

theorem magnitude_lt (bits : BitString) : magnitude bits < 2 ^ bits.length := by
  induction bits with
  | nil => exact Nat.one_pos
  | cons b bits ih =>
    have hb : b.toNat ≤ 1 := by cases b <;> decide
    rw [magnitude_cons, List.length_cons, Nat.pow_succ]
    nlinarith

theorem magnitude_binary (n : Nat) (tail : BitString) :
    magnitude (binary n tail) = n * 2 ^ tail.length + magnitude tail := by
  fun_induction binary n tail with
  | case1 tail => simp
  | case2 n tail hn ih =>
    have hbit : (if n % 2 = 1 then Bit.tab else Bit.space).toNat = n % 2 := by
      split
      · next h => exact h.symm
      · next h => exact (Nat.mod_two_ne_one.mp h).symm
    rw [dite_eq_ite] at ih
    calc magnitude (binary (n / 2) _)
        = n / 2 * 2 ^ (tail.length + 1) + (n % 2 * 2 ^ tail.length + magnitude tail) := by
          rw [ih, magnitude_cons, hbit, List.length_cons]
      _ = (2 * (n / 2) + n % 2) * 2 ^ tail.length + magnitude tail := by ring
      _ = n * 2 ^ tail.length + magnitude tail := by rw [Nat.div_add_mod]

theorem length_binary (n : Nat) (tail : BitString) :
    (binary n tail).length = n.size + tail.length := by
  fun_induction binary n tail with
  | case1 tail => simp
  | case2 n tail hn ih =>
    have hsize : n.size = (n / 2).size + 1 := by
      have hbit := Nat.bit_bodd_div2 n
      have hne : Nat.bit n.bodd n.div2 ≠ 0 := hbit.symm ▸ hn
      have hsucc := Nat.size_bit hne
      rwa [hbit, Nat.div2_val] at hsucc
    rw [dite_eq_ite] at ih
    rw [ih, List.length_cons, hsize]
    omega

theorem toNumber_of_wide {bits : BitString} (h : numberWidth < bits.length) :
    bits.toNumber = .error ⟨bits.length⟩ :=
  if_pos h

theorem magnitude_eq_ofDigits (bits : BitString) :
    magnitude bits = Nat.ofDigits 2 (bits.map Bit.toNat).reverse := by
  induction bits with
  | nil => rfl
  | cons b bits ih =>
    rw [magnitude_cons, ih, List.map_cons, List.reverse_cons, Nat.ofDigits_append,
      Nat.ofDigits_singleton, List.length_reverse, List.length_map]
    ring

/-- The first bit is the sign, and the others are binary digits. -/
def value : BitString → Int
  | [] => 0
  | .space :: bits => (Nat.ofDigits 2 (bits.map Bit.toNat).reverse : Nat)
  | .tab :: bits => -(Nat.ofDigits 2 (bits.map Bit.toNat).reverse : Nat)

theorem natAbs_value (bits : BitString) : bits.value.natAbs = magnitude bits.tail := by
  cases bits with
  | nil => rfl
  | cons b rest =>
    cases b with
    | space => rw [value, Int.natAbs_natCast, List.tail_cons, magnitude_eq_ofDigits]
    | tab => rw [value, Int.natAbs_neg, Int.natAbs_natCast, List.tail_cons, magnitude_eq_ofDigits]

/-- At no point on the way through a literal that is not too wide do its digits need more than
thirty bits. -/
theorem magnitude_front_lt {bits front : BitString} (h : bits.length ≤ numberWidth)
    (hfront : front <+: bits.tail) : magnitude front < 2 ^ 30 := by
  have hlength : front.length ≤ 30 := by
    have htail := hfront.length_le
    rw [List.length_tail] at htail
    exact htail.trans (Nat.sub_le_of_le_add h)
  exact (magnitude_lt front).trans_le (Nat.pow_le_pow_right (by decide) hlength)

theorem natAbs_value_lt {bits : BitString} (h : bits.length ≤ numberWidth) :
    bits.value.natAbs < 2 ^ 30 := by
  rw [natAbs_value]
  exact magnitude_front_lt h List.prefix_rfl

theorem toNumber_eq_value {bits : BitString} (h : bits.length ≤ numberWidth) :
    bits.toNumber = .ok (Int32.ofInt bits.value) := by
  rw [toNumber.eq_def, if_neg (Nat.not_lt.mpr h)]
  cases bits with
  | nil => rfl
  | cons b rest => cases b <;> simp only [value, magnitude_eq_ofDigits]

/-- The value of a literal that is not too wide does not wrap around. -/
theorem toInt_value {bits : BitString} (h : bits.length ≤ numberWidth) :
    (Int32.ofInt bits.value).toInt = bits.value := by
  have hbound := natAbs_value_lt h
  exact Int32.toInt_ofInt_of_le (by omega) (by omega)

/-- A literal that is not too wide has a number, and thirty bits hold its magnitude. -/
theorem toNumber_of_narrow {bits : BitString} (h : bits.length ≤ numberWidth) :
    ∃ w, bits.toNumber = .ok w ∧ w.toInt.natAbs < 2 ^ 30 := by
  refine ⟨_, toNumber_eq_value h, ?_⟩
  rw [toInt_value h]
  exact natAbs_value_lt h

theorem toNumber_ofNumber {w : Word} (h : w.toInt.natAbs < 2 ^ 30) :
    (ofNumber w).toNumber = .ok w := by
  have hmagnitude : magnitude (binary w.toInt.natAbs []) = w.toInt.natAbs := by
    rw [magnitude_binary, List.length_nil, Nat.pow_zero, Nat.mul_one]
    rfl
  have hwidth : ¬numberWidth < (ofNumber w).length := by
    have hsize : w.toInt.natAbs.size ≤ 30 := Nat.size_le.mpr h
    rw [ofNumber, List.length_cons, length_binary, List.length_nil, numberWidth]
    omega
  rw [toNumber.eq_def, if_neg hwidth, ofNumber]
  by_cases hneg : w.toInt < 0
  · simp only [if_pos hneg, hmagnitude]
    rw [Int.ofNat_natAbs_of_nonpos hneg.le, Int.neg_neg, Int32.ofInt_toInt]
  · simp only [if_neg hneg, hmagnitude]
    rw [Int.natAbs_of_nonneg (Int.not_lt.mp hneg), Int32.ofInt_toInt]

/-- The shortest literal with a sign for the same number; a literal that is too wide stays. -/
def normal (bits : BitString) : BitString :=
  match bits.toNumber with
  | .ok w => ofNumber w
  | .error _ => bits

theorem normal_of_wide {bits : BitString} (h : numberWidth < bits.length) : bits.normal = bits := by
  rw [normal, toNumber_of_wide h]

theorem toNumber_normal (bits : BitString) : bits.normal.toNumber = bits.toNumber := by
  by_cases hwide : numberWidth < bits.length
  · rw [normal_of_wide hwide]
  · obtain ⟨w, hw, hbound⟩ := toNumber_of_narrow (Nat.not_lt.mp hwide)
    rw [normal, hw]
    exact toNumber_ofNumber hbound

end BitString

end Whitespace
