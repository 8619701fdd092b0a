import Mathlib.Data.Nat.Prime.Basic
import Mathlib.Data.Rat.Defs
import Mathlib.Tactic.Ring
import Tunebook.Rhythm.Length

/-! Lengths as fractions. What is read is positive and in lowest terms, scaling doubles or halves it
and keeps it so, and what is written is read back as the same length. -/
namespace Tunebook

namespace Number

theorem readNat?_digits (nonempty : cs ≠ []) (every : cs.all Char.isDigit = true) :
    readNat? cs = some (ofDigits cs) := by
  unfold readNat?
  split
  · contradiction
  next tail =>
    simp at every
  · rw [if_pos every]

theorem readNat?_toDigits (n : Nat) : readNat? (Nat.toDigits 10 n) = some n := by
  have every : (Nat.toDigits 10 n).all Char.isDigit = true := by
    rw [List.all_eq_true]
    intro c member
    exact Nat.isDigit_of_mem_toDigits (by decide) (by decide) member
  rw [readNat?_digits Nat.toDigits_ne_nil every]
  exact congrArg some (Nat.ofDigitChars_ten_toDigits (n := n))

theorem readBelow?_toDigits (h : n < bound) : readBelow? bound (Nat.toDigits 10 n) = some n := by
  simp [readBelow?, readNat?_toDigits, h]

end Number

/-- By how much an operator multiplies a length. -/
def Operator.factor : Operator → ℚ
  | multiply => 2
  | divide => 1 / 2

/-- A token that has no place in a text yet. -/
def Token.unplaced (kind : Kind) (lexeme : Text) : Token :=
  ⟨kind, lexeme, ⟨0, 0⟩, ⟨0, 0⟩⟩

namespace Length

def value (n : Length) : ℚ :=
  n.numerator / n.denominator

/-- Positive and in lowest terms. -/
structure Lowest (n : Length) : Prop where
  numerator : 0 < n.numerator
  denominator : 0 < n.denominator
  coprime : Nat.Coprime n.numerator n.denominator

theorem euclid_eq_gcd (a b : Nat) : euclid a b = Nat.gcd a b := by
  fun_induction euclid a b with
  | case1 a => exact (Nat.gcd_zero_right a).symm
  | case2 a b rest ih =>
    calc euclid b (a % b)
        = Nat.gcd b (a % b) := ih
      _ = Nat.gcd (a % b) b := Nat.gcd_comm ..
      _ = Nat.gcd b a := (Nat.gcd_rec b a).symm
      _ = Nat.gcd a b := Nat.gcd_comm ..

theorem reduce_eq (n : Length) :
    n.reduce = ⟨n.numerator / Nat.gcd n.numerator n.denominator,
      n.denominator / Nat.gcd n.numerator n.denominator⟩ := by
  simp only [reduce, euclid_eq_gcd]

theorem lowest_reduce {n : Length} (hn : 0 < n.numerator) (hd : 0 < n.denominator) :
    n.reduce.Lowest := by
  rw [reduce_eq]
  constructor
  · exact Nat.div_gcd_pos_of_pos_left _ hn
  · exact Nat.div_gcd_pos_of_pos_right _ hd
  · exact Nat.coprime_div_gcd_div_gcd (Nat.gcd_pos_of_pos_left _ hn)

theorem lowest_read? (h : read? r = some n) : n.Lowest := by
  simp only [read?, Option.bind_eq_bind, Option.bind_eq_some_iff] at h
  obtain ⟨numerator, _, denominator, _, h⟩ := h
  split at h
  · cases h
  next positive =>
    cases h
    simp only [Bool.or_eq_true, decide_eq_true_eq, not_or] at positive
    exact lowest_reduce (Nat.pos_of_ne_zero positive.1) (Nat.pos_of_ne_zero positive.2)

theorem coprime_two {n : Nat} (odd : n % 2 ≠ 0) : Nat.Coprime 2 n := by
  rw [Nat.coprime_two_left, Nat.odd_iff]
  omega

theorem Lowest.scaled {n : Length} (h : n.Lowest) (operator : Operator) :
    (n.scaled operator).Lowest := by
  obtain ⟨hn, hd, hc⟩ := h
  cases operator with
  | multiply =>
    simp only [Length.scaled]
    split
    next even =>
      have divides : n.denominator / 2 ∣ n.denominator :=
        Nat.div_dvd_of_dvd (Nat.dvd_of_mod_eq_zero even)
      exact ⟨hn, by dsimp only; omega, Nat.Coprime.coprime_dvd_right divides hc⟩
    next odd =>
      exact ⟨by dsimp only; omega, hd, Nat.coprime_mul_iff_left.mpr ⟨hc, coprime_two odd⟩⟩
  | divide =>
    simp only [Length.scaled]
    split
    next even =>
      have divides : n.numerator / 2 ∣ n.numerator :=
        Nat.div_dvd_of_dvd (Nat.dvd_of_mod_eq_zero even)
      exact ⟨by dsimp only; omega, hd, Nat.Coprime.coprime_dvd_left divides hc⟩
    next odd =>
      exact ⟨hn, by dsimp only; omega,
        Nat.coprime_mul_iff_right.mpr ⟨hc, (coprime_two odd).symm⟩⟩

theorem cast_half {n : Nat} (even : n % 2 = 0) : ((n / 2 : Nat) : ℚ) = n / 2 := by
  have whole : (n / 2) * 2 = n := by omega
  rw [eq_div_iff two_ne_zero]
  exact_mod_cast whole

theorem value_scaled (n : Length) (operator : Operator) :
    (n.scaled operator).value = operator.factor * n.value := by
  cases operator with
  | multiply =>
    simp only [Length.scaled, Operator.factor, value]
    split
    next even =>
      rw [cast_half even, div_div_eq_mul_div]
      ring
    · push_cast
      ring
  | divide =>
    simp only [Length.scaled, Operator.factor, value]
    split
    next even =>
      rw [cast_half even]
      ring
    · push_cast
      rw [div_mul_eq_div_div]
      ring

/-- The rhythm that writes a length, with the broken mark it had. -/
def rhythm (n : Length) (broken : Option Token) : Rhythm where
  numerator :=
    if n.numerator = 1 then none
    else some (Token.unplaced .number (Nat.toDigits 10 n.numerator))
  separator := if n.denominator = 1 then none else some (Token.unplaced .slash ['/'])
  denominator :=
    if n.denominator = 1 ∨ n.denominator = 2 then none
    else some (Token.unplaced .number (Nat.toDigits 10 n.denominator))
  broken := broken

theorem join_rhythm (n : Length) (broken : Option Token) :
    Token.join (n.rhythm broken).lengthTokens = n.render := by
  simp only [Rhythm.lengthTokens, rhythm, render, Token.join_append, List.append_assoc]
  congr 1
  · split <;> simp [Token.unplaced]
  · by_cases one : n.denominator = 1
    · simp [one]
    · by_cases two : n.denominator = 2
      · simp [two, Token.unplaced]
      · simp [one, two, Token.unplaced]

theorem read?_rhythm {n : Length} (h : n.Lowest) (hn : n.numerator < Number.word32)
    (hd : n.denominator < Number.word32) (broken : Option Token) :
    read? (n.rhythm broken) = some n := by
  have numerator : readNumerator? (n.rhythm broken) = some n.numerator := by
    simp only [readNumerator?, rhythm]
    split
    next found =>
      split at found
      · cases found
      · cases found
        exact Number.readBelow?_toDigits hn
    next found =>
      split at found
      next one => rw [one]
      · cases found
  have denominator : readDenominator? (n.rhythm broken) = some n.denominator := by
    by_cases one : n.denominator = 1
    · simp [readDenominator?, rhythm, one]
    · by_cases two : n.denominator = 2
      · simp [readDenominator?, rhythm, two, Token.unplaced]
        decide
      · simpa [readDenominator?, rhythm, one, two, Token.unplaced] using
          Number.readBelow?_toDigits hd
  have lowest : reduce n = n := by
    have gcd : Nat.gcd n.numerator n.denominator = 1 := h.coprime
    simp [reduce_eq, gcd]
  simp [read?, numerator, denominator, h.numerator.ne', h.denominator.ne', lowest]

end Length
end Tunebook
