import Whitespace.Proofs.Number

/-!
Number literals are sign and magnitude, exactly. A literal of at most 31 bits stands for its signed
binary value, and no step on the way to it leaves the range of words; a longer one stands for no
number. A word below 2³⁰ in either direction is read back from its own literal, and no shorter one
with a sign stands for it.
-/
namespace Whitespace.BitString

variable {bits : BitString} {w : Word}

theorem length_ofNumber (w : Word) : (ofNumber w).length = w.toInt.natAbs.size + 1 := by
  rw [ofNumber, List.length_cons, length_binary, List.length_nil, Nat.add_zero]

theorem length_of_toNumber (h : bits.toNumber = .ok w) : bits.length ≤ numberWidth := by
  by_contra hwide
  rw [toNumber_of_wide (Nat.lt_of_not_le hwide)] at h
  cases h

/-- The magnitude of the least word has one bit more than that of any other. -/
theorem length_ofNumber_of_large (h : 2 ^ 30 ≤ w.toInt.natAbs) :
    (ofNumber w).length = if w.toInt = -2 ^ 31 then 33 else 32 := by
  have hleast := w.le_toInt
  have hgreatest := w.toInt_lt
  rw [length_ofNumber]
  split
  · next hmin =>
    have habs : w.toInt.natAbs = 2 ^ 31 := by omega
    rw [habs, Nat.size_pow]
  · next hmin =>
    have hlow : 30 < w.toInt.natAbs.size := Nat.lt_size.mpr h
    have hhigh : w.toInt.natAbs.size ≤ 31 := Nat.size_le.mpr (by omega)
    omega

theorem toNumber_ofNumber_of_large (h : 2 ^ 30 ≤ w.toInt.natAbs) :
    (ofNumber w).toNumber = .error ⟨if w.toInt = -2 ^ 31 then 33 else 32⟩ := by
  have hlength := length_ofNumber_of_large h
  have hwide : numberWidth < (ofNumber w).length := by
    rw [hlength]
    split <;> decide
  rw [toNumber_of_wide hwide, hlength]

theorem toNumber_ofNumber_iff : (ofNumber w).toNumber = .ok w ↔ w.toInt.natAbs < 2 ^ 30 := by
  constructor
  · intro hread
    by_contra hlarge
    rw [toNumber_ofNumber_of_large (Nat.le_of_not_lt hlarge)] at hread
    cases hread
  · exact toNumber_ofNumber

/-- The digits after the sign have room for the magnitude, so there are as many of them as the
magnitude has bits, or more. -/
theorem length_ofNumber_le (hne : bits ≠ []) (h : bits.toNumber = .ok w) :
    (ofNumber w).length ≤ bits.length := by
  have hnarrow := length_of_toNumber h
  rw [toNumber_eq_value hnarrow] at h
  cases h
  have hsize : (magnitude bits.tail).size ≤ bits.length - 1 := by
    rw [← List.length_tail]
    exact Nat.size_le.mpr (magnitude_lt bits.tail)
  have hpos := List.length_pos_iff.mpr hne
  rw [length_ofNumber, toInt_value hnarrow, natAbs_value]
  omega

/-- Literals of 32 bits or more are too wide, and all others have the number that their sign and
digits give. Words of magnitude 2³⁰ or more do not come back from their literals, and the others
do, from the shortest literals there are for them. -/
theorem literals_are_sign_magnitude :
    (∀ bits : BitString, 32 ≤ bits.length → bits.toNumber = .error ⟨bits.length⟩) ∧
    (∀ bits : BitString, bits.length < 32 →
      (∃ w, bits.toNumber = .ok w ∧ w.toInt = bits.value ∧ w.toInt.natAbs < 2 ^ 30) ∧
        ∀ front, front <+: bits.tail → magnitude front < 2 ^ 30) ∧
    (∀ w : Word, (ofNumber w).toNumber = .ok w ↔ w.toInt.natAbs < 2 ^ 30) ∧
    (∀ w : Word, 2 ^ 30 ≤ w.toInt.natAbs →
      (ofNumber w).toNumber = .error ⟨if w.toInt = -2 ^ 31 then 33 else 32⟩) ∧
    ∀ w : Word, w.toInt.natAbs < 2 ^ 30 → ∀ bits : BitString, bits ≠ [] → bits.toNumber = .ok w →
      (ofNumber w).length ≤ bits.length := by
  refine ⟨fun bits => toNumber_of_wide, ?_, fun w => toNumber_ofNumber_iff,
    fun w => toNumber_ofNumber_of_large, ?_⟩
  · intro bits hlength
    have hnarrow : bits.length ≤ numberWidth := Nat.le_of_lt_succ hlength
    have hvalue := toInt_value hnarrow
    constructor
    · exact ⟨_, toNumber_eq_value hnarrow, hvalue, hvalue.symm ▸ natAbs_value_lt hnarrow⟩
    · intro front hfront
      exact magnitude_front_lt hnarrow hfront
  · intro w _ bits hne hread
    exact length_ofNumber_le hne hread

/-- The widest number there is, a literal of one bit more, and the least word. -/
theorem widest_literals :
    (∃ w, toNumber (List.replicate 31 .tab) = .ok w ∧ w.toInt = -1073741823) ∧
      toNumber (List.replicate 32 .tab) = .error ⟨32⟩ ∧
      (ofNumber Int32.minValue).toNumber = .error ⟨33⟩ ∧
      (ofNumber 0).length ≤ [Bit.tab].length := by
  obtain ⟨hwide, hnarrow, -, hlarge, hshortest⟩ := literals_are_sign_magnitude
  obtain ⟨⟨w, hw, hvalue, -⟩, -⟩ := hnarrow (List.replicate 31 .tab) (by decide)
  refine ⟨⟨w, hw, hvalue.trans (by rfl)⟩, hwide (List.replicate 32 .tab) (by decide),
    hlarge Int32.minValue (by decide), hshortest 0 (by decide) [.tab] (by decide) rfl⟩

end Whitespace.BitString
