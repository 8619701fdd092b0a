import Mathlib.Data.Nat.Cast.Field
import Mathlib.Data.Rat.Lemmas
import Tunebook.Proofs.Rhythm.Writing

/-! Lengths against the fractions they stand for: which rhythms are read and as what, which lengths
can be doubled or halved, and that nothing is rounded or wraps around on the way. -/
namespace Tunebook

namespace Number

theorem ofDigits_of_readNat? (h : readNat? cs = some n) : n = ofDigits cs := by
  unfold readNat? at h
  split at h
  · cases h
  next tail =>
    split at h
    · -- the value of a plus sign as a digit is 0
      cases h
      rfl
    · cases h
  · split at h
    · cases h
      rfl
    · cases h

theorem spec_of_readBelow? (h : readBelow? bound cs = some n) : n = ofDigits cs ∧ n < bound := by
  obtain ⟨read, below⟩ := Option.filter_eq_some_iff.mp h
  constructor
  · exact ofDigits_of_readNat? read
  · exact of_decide_eq_true below

theorem readBelow?_digits (nonempty : cs ≠ []) (every : cs.all Char.isDigit = true) :
    readBelow? bound cs = if ofDigits cs < bound then some (ofDigits cs) else none := by
  simp [readBelow?, readNat?_digits nonempty every, Option.filter]

/-- Twice a number, if 32 bits hold it. -/
def double? (n : Nat) : Option Nat :=
  if n * 2 < word32 then some (n * 2) else none

end Number

/-- Digits, with any number of zeros in front. -/
structure Token.IsNumeral (t : Token) : Prop where
  nonempty : t.lexeme ≠ []
  digits : t.lexeme.all Char.isDigit = true

namespace Rhythm

/-- The number above the line, which is 1 where none is written. -/
def above (r : Rhythm) : Nat :=
  match r.numerator with
  | some t => Number.ofDigits t.lexeme
  | none => 1

/-- The number below the line. Slashes alone, of a byte each, are as many factors of 2. -/
def below (r : Rhythm) : Nat :=
  match r.separator, r.denominator with
  | none, _ => 1
  | some _, some t => Number.ofDigits t.lexeme
  | some slashes, none => 2 ^ slashes.lexeme.bytes

def fraction (r : Rhythm) : ℚ :=
  r.above / r.below

/-- Where it has numbers, they are written in digits. -/
structure IsNumeric (r : Rhythm) : Prop where
  numerator : ∀ t ∈ r.numerator, t.IsNumeral
  denominator : ∀ t ∈ r.denominator, t.IsNumeral

end Rhythm

namespace Length

/-! Reading. -/

theorem two_pow_lt_word32 (n : Nat) : 2 ^ n < Number.word32 ↔ n < 32 := by
  have words : Number.word32 = 2 ^ 32 := rfl
  rw [words]
  exact Nat.pow_lt_pow_iff_right (by decide)

theorem spec_of_readNumerator? (h : readNumerator? r = some n) :
    n = r.above ∧ n < Number.word32 := by
  obtain ⟨numerator, _, _, _⟩ := r
  cases numerator with
  | some t => exact Number.spec_of_readBelow? h
  | none =>
    cases h
    exact ⟨rfl, by decide⟩

theorem spec_of_readDenominator? (h : readDenominator? r = some n) :
    n = r.below ∧ n < Number.word32 := by
  obtain ⟨_, separator, denominator, _⟩ := r
  match separator, denominator with
  | none, _ =>
    cases h
    exact ⟨rfl, by decide⟩
  | some _, some t => exact Number.spec_of_readBelow? h
  | some slashes, none =>
    simp only [readDenominator?, Option.ite_none_right_eq_some, Option.some.injEq] at h
    obtain ⟨few, rfl⟩ := h
    exact ⟨rfl, (two_pow_lt_word32 _).mpr few⟩

theorem readNumerator?_eq (numeric : r.IsNumeric) :
    readNumerator? r = if r.above < Number.word32 then some r.above else none := by
  obtain ⟨numerator, _, _, _⟩ := r
  cases numerator with
  | some t =>
    obtain ⟨nonempty, digits⟩ := numeric.numerator t rfl
    exact Number.readBelow?_digits nonempty digits
  | none => rfl

theorem readDenominator?_eq (numeric : r.IsNumeric) :
    readDenominator? r = if r.below < Number.word32 then some r.below else none := by
  obtain ⟨_, separator, denominator, _⟩ := r
  match separator, denominator with
  | none, _ => rfl
  | some _, some t =>
    obtain ⟨nonempty, digits⟩ := numeric.denominator t rfl
    exact Number.readBelow?_digits nonempty digits
  | some slashes, none =>
    simp only [readDenominator?, Rhythm.below, two_pow_lt_word32]
    rfl

/-- Both parts are words of 32 bits. -/
structure IsWord (n : Length) : Prop where
  numerator : n.numerator < Number.word32
  denominator : n.denominator < Number.word32

theorem value_reduce (n : Length) : n.reduce.value = n.value := by
  have above : Nat.gcd n.numerator n.denominator ∣ n.numerator := Nat.gcd_dvd_left ..
  have below : Nat.gcd n.numerator n.denominator ∣ n.denominator := Nat.gcd_dvd_right ..
  by_cases zero : Nat.gcd n.numerator n.denominator = 0
  · obtain ⟨top, bottom⟩ := Nat.gcd_eq_zero_iff.mp zero
    simp [reduce_eq, value, top, bottom]
  · have divisor : ((Nat.gcd n.numerator n.denominator : Nat) : ℚ) ≠ 0 := by exact_mod_cast zero
    simp only [reduce_eq, value]
    rw [Nat.cast_div above divisor, Nat.cast_div below divisor]
    exact div_div_div_cancel_right₀ divisor ..

theorem isWord_reduce {n : Length} (h : n.IsWord) : n.reduce.IsWord := by
  rw [reduce_eq]
  constructor
  · exact (Nat.div_le_self ..).trans_lt h.numerator
  · exact (Nat.div_le_self ..).trans_lt h.denominator

theorem isWord_read? (h : read? r = some n) : n.IsWord := by
  simp only [read?, Option.bind_eq_bind, Option.bind_eq_some_iff] at h
  obtain ⟨above, top, below, bottom, h⟩ := h
  split at h
  · cases h
  · cases h
    exact isWord_reduce ⟨(spec_of_readNumerator? top).2, (spec_of_readDenominator? bottom).2⟩

theorem value_read? (h : read? r = some n) : n.value = r.fraction := by
  simp only [read?, Option.bind_eq_bind, Option.bind_eq_some_iff] at h
  obtain ⟨above, top, below, bottom, h⟩ := h
  split at h
  · cases h
  · cases h
    rw [value_reduce, value, (spec_of_readNumerator? top).1, (spec_of_readDenominator? bottom).1]
    rfl

/-- Of what is written in digits, the positive fractions with parts of 32 bits are read. -/
theorem isSome_read? (numeric : r.IsNumeric) :
    (read? r).isSome ↔
      (0 < r.above ∧ r.above < Number.word32) ∧ 0 < r.below ∧ r.below < Number.word32 := by
  simp only [read?, readNumerator?_eq numeric, readDenominator?_eq numeric]
  by_cases above : r.above < Number.word32
  · by_cases below : r.below < Number.word32
    · simp [above, below, Nat.pos_iff_ne_zero]
    · simp [above, below]
  · simp [above]

/-! Scaling. -/

theorem Lowest.num_value {n : Length} (h : n.Lowest) : n.value.num = n.numerator :=
  Rat.num_div_eq_of_coprime (a := n.numerator) (by exact_mod_cast h.denominator) h.coprime

theorem Lowest.den_value {n : Length} (h : n.Lowest) : n.value.den = n.denominator := by
  have den : (n.value.den : Int) = n.denominator :=
    Rat.den_div_eq_of_coprime (a := n.numerator) (by exact_mod_cast h.denominator) h.coprime
  exact Int.ofNat_inj.mp den

/-- Two lengths in lowest terms with one value are the same. -/
theorem Lowest.eq_of_value {m n : Length} (hm : m.Lowest) (hn : n.Lowest)
    (same : m.value = n.value) : m = n := by
  have top : (m.numerator : Int) = n.numerator := by
    rw [← hm.num_value, ← hn.num_value, same]
  have bottom : m.denominator = n.denominator := by
    rw [← hm.den_value, ← hn.den_value, same]
  obtain ⟨a, b⟩ := m
  obtain ⟨c, d⟩ := n
  simp_all

/-- Both parts are within the limits. -/
structure IsUnder (limits : Limits) (n : Length) : Prop where
  numerator : n.numerator ≤ limits.numerator
  denominator : n.denominator ≤ limits.denominator

/-- The length, unless a part is past its limit. -/
def limited? (limits : Limits) (n : Length) : Option Length :=
  if limits.numerator < n.numerator || limits.denominator < n.denominator then none else some n

/-- Scaling as words do it: a part that is doubled is checked there and then, and both parts
against the limits behind it. -/
def scaleWords? (operator : Operator) (limits : Limits) (n : Length) : Option Length := do
  let m ←
    match operator with
    | .multiply =>
      if n.denominator % 2 = 0 then some ⟨n.numerator, n.denominator / 2⟩
      else (Number.double? n.numerator).map fun twice => Length.mk twice n.denominator
    | .divide =>
      if n.numerator % 2 = 0 then some ⟨n.numerator / 2, n.denominator⟩
      else (Number.double? n.denominator).map fun twice => Length.mk n.numerator twice
  m.limited? limits

theorem isWithin_iff {n : Length} : n.isWithin limits = true ↔ n.IsWord ∧ n.IsUnder limits := by
  simp only [isWithin, Bool.and_eq_true, decide_eq_true_eq]
  constructor
  · rintro ⟨⟨⟨a, b⟩, c⟩, d⟩
    exact ⟨⟨a, b⟩, c, d⟩
  · rintro ⟨⟨a, b⟩, c, d⟩
    exact ⟨⟨⟨a, b⟩, c⟩, d⟩

theorem scale?_eq_some {n : Length} :
    n.scale? operator limits = some m ↔
      m = n.scaled operator ∧ m.IsWord ∧ m.IsUnder limits := by
  rw [scale?, Option.ite_none_right_eq_some, isWithin_iff, Option.some.injEq]
  constructor
  · rintro ⟨fits, rfl⟩
    exact ⟨rfl, fits⟩
  · rintro ⟨rfl, fits⟩
    exact ⟨fits, rfl⟩

theorem scale?_eq_none {n : Length} :
    n.scale? operator limits = none ↔
      ¬((n.scaled operator).IsWord ∧ (n.scaled operator).IsUnder limits) := by
  rw [← isWithin_iff, scale?, ite_eq_right_iff]
  simp

theorem limited?_eq {n : Length} (h : n.IsWord) (limits : Limits) :
    n.limited? limits = if n.isWithin limits then some n else none := by
  by_cases fits : n.isWithin limits = true
  · have under := (isWithin_iff.mp fits).2
    simp [limited?, fits, under.numerator, under.denominator]
  · have past : ¬n.IsUnder limits := fun under => fits (isWithin_iff.mpr ⟨h, under⟩)
    have beyond : limits.numerator < n.numerator ∨ limits.denominator < n.denominator := by
      by_contra inside
      simp only [not_or, not_lt] at inside
      exact past ⟨inside.1, inside.2⟩
    simp [limited?, fits, beyond]

/-- On words nothing but a part that is doubled can wrap around, so one check there is enough. -/
theorem scaleWords?_eq {n : Length} (h : n.IsWord) (operator : Operator) (limits : Limits) :
    n.scaleWords? operator limits = n.scale? operator limits := by
  have half {m : Nat} (word : m < Number.word32) : m / 2 < Number.word32 :=
    (Nat.div_le_self m 2).trans_lt word
  -- what is too large to double is not within any limits
  have wide {m : Length} (past : ¬m.IsWord) : m.isWithin limits = false := by
    rw [Bool.eq_false_iff]
    exact fun fits => past (isWithin_iff.mp fits).1
  cases operator with
  | multiply =>
    simp only [scaleWords?, scale?, scaled]
    split
    · have word : IsWord ⟨n.numerator, n.denominator / 2⟩ := ⟨h.numerator, half h.denominator⟩
      exact limited?_eq word limits
    · by_cases fits : n.numerator * 2 < Number.word32
      · have word : IsWord ⟨n.numerator * 2, n.denominator⟩ := ⟨fits, h.denominator⟩
        simpa [Number.double?, fits] using limited?_eq word limits
      · have past : ¬IsWord ⟨n.numerator * 2, n.denominator⟩ := fun word => fits word.numerator
        simp [Number.double?, fits, wide past]
  | divide =>
    simp only [scaleWords?, scale?, scaled]
    split
    · have word : IsWord ⟨n.numerator / 2, n.denominator⟩ := ⟨half h.numerator, h.denominator⟩
      exact limited?_eq word limits
    · by_cases fits : n.denominator * 2 < Number.word32
      · have word : IsWord ⟨n.numerator, n.denominator * 2⟩ := ⟨h.numerator, fits⟩
        simpa [Number.double?, fits] using limited?_eq word limits
      · have past : ¬IsWord ⟨n.numerator, n.denominator * 2⟩ := fun word => fits word.denominator
        simp [Number.double?, fits, wide past]

end Length

/-- The parts of a fraction in lowest terms are words and within the limits. -/
structure Limits.Admits (limits : Limits) (q : ℚ) : Prop where
  numerator : q.num ≤ limits.numerator ∧ q.num < Number.word32
  denominator : q.den ≤ limits.denominator ∧ q.den < Number.word32

namespace Length

theorem Lowest.admits_value {n : Length} (h : n.Lowest) :
    limits.Admits n.value ↔ n.IsWord ∧ n.IsUnder limits := by
  constructor
  · rintro ⟨above, below⟩
    rw [h.num_value] at above
    rw [h.den_value] at below
    exact ⟨⟨by exact_mod_cast above.2, below.2⟩, by exact_mod_cast above.1, below.1⟩
  · rintro ⟨word, under⟩
    constructor
    · rw [h.num_value]
      exact ⟨by exact_mod_cast under.numerator, by exact_mod_cast word.numerator⟩
    · rw [h.den_value]
      exact ⟨under.denominator, word.denominator⟩

/-- What scaling gives, by the fraction alone. -/
theorem Lowest.scale?_eq_some {n : Length} (h : n.Lowest) :
    n.scale? operator limits = some m ↔
      m.Lowest ∧ m.value = operator.factor * n.value ∧ limits.Admits m.value := by
  have scaled := h.scaled operator
  rw [Length.scale?_eq_some]
  constructor
  · rintro ⟨rfl, fits⟩
    exact ⟨scaled, value_scaled n operator, scaled.admits_value.mpr fits⟩
  · rintro ⟨lowest, value, admitted⟩
    have same : m = n.scaled operator :=
      lowest.eq_of_value scaled (value.trans (value_scaled n operator).symm)
    exact ⟨same, lowest.admits_value.mp admitted⟩

theorem Lowest.scale?_eq_none {n : Length} (h : n.Lowest) :
    n.scale? operator limits = none ↔ ¬limits.Admits (operator.factor * n.value) := by
  rw [Length.scale?_eq_none, ← value_scaled, (h.scaled operator).admits_value]

/-- The opposite step leads back. -/
theorem Lowest.scale?_back {n : Length} (h : n.Lowest) (word : n.IsWord)
    (under : n.IsUnder limits) (scaled : n.scale? operator limits = some m) :
    m.scale? operator.opposite limits = some n := by
  obtain ⟨rfl, -⟩ := Length.scale?_eq_some.mp scaled
  rw [Length.scale?_eq_some, scaled_opposite h]
  exact ⟨rfl, word, under⟩

/-- What is read of a rhythm is its fraction in lowest terms, for every positive fraction with parts
of 32 bits. What a step makes of that is twice or half of it, again in lowest terms, and the step
back makes it what it was. There is no step only where the result has a part that is past its limit
or is no word. -/
theorem arithmetic_exact :
    (∀ r : Rhythm, r.IsNumeric →
      ((read? r).isSome ↔
        (0 < r.above ∧ r.above < Number.word32) ∧ 0 < r.below ∧ r.below < Number.word32)) ∧
    (∀ (r : Rhythm) (n : Length), read? r = some n →
      n.Lowest ∧ n.IsWord ∧ n.value = r.fraction) ∧
    ∀ n : Length, n.Lowest → n.IsWord → ∀ (operator : Operator) (limits : Limits),
      n.scale? operator limits = n.scaleWords? operator limits ∧
      (n.scale? operator limits = none ↔ ¬limits.Admits (operator.factor * n.value)) ∧
      ∀ m, n.scale? operator limits = some m →
        m.Lowest ∧ m.IsWord ∧ m.IsUnder limits ∧ m.value = operator.factor * n.value ∧
        (n.IsUnder limits → m.scale? operator.opposite limits = some n) := by
  refine ⟨fun r numeric => isSome_read? numeric, fun r n read => ?_, ?_⟩
  · exact ⟨lowest_read? read, isWord_read? read, value_read? read⟩
  · intro n lowest word operator limits
    refine ⟨(scaleWords?_eq word operator limits).symm, lowest.scale?_eq_none, fun m scaled => ?_⟩
    obtain ⟨reduced, value, admitted⟩ := lowest.scale?_eq_some.mp scaled
    obtain ⟨held, under⟩ := reduced.admits_value.mp admitted
    exact ⟨reduced, held, under, value, fun inside => lowest.scale?_back word inside scaled⟩

/-- Six quarters, doubled under limits that three halves just meet and halved again. -/
theorem arithmetic_exact_six_quarters :
    let r : Rhythm :=
      ⟨some (.unplaced .number "006".toList), some (.unplaced .slash ['/']),
        some (.unplaced .number ['4']), none⟩
    let n : Length := ⟨3, 2⟩
    let limits : Limits := ⟨3, 2⟩
    (read? r).isSome ∧ n.Lowest ∧ n.value = r.fraction ∧
      n.scale? .multiply limits = some ⟨3, 1⟩ ∧
      (⟨3, 1⟩ : Length).scale? .divide limits = some n ∧
      limits.Admits (Operator.multiply.factor * n.value) := by
  intro r n limits
  obtain ⟨accepts, reads, scales⟩ := arithmetic_exact
  have numeric : r.IsNumeric := by
    constructor
    · rintro t ⟨⟩
      exact ⟨by decide, by decide⟩
    · rintro t ⟨⟩
      exact ⟨by decide, by decide⟩
  have read : read? r = some n := by decide +kernel
  have doubled : n.scale? .multiply limits = some ⟨3, 1⟩ := by decide +kernel
  obtain ⟨lowest, word, value⟩ := reads r n read
  obtain ⟨-, fails, succeeds⟩ := scales n lowest word .multiply limits
  obtain ⟨-, -, -, -, undone⟩ := succeeds _ doubled
  refine ⟨(accepts r numeric).mpr (by decide +kernel), lowest, value, doubled, ?_, ?_⟩
  · exact undone ⟨by decide, by decide⟩
  · by_contra refused
    rw [fails.mpr refused] at doubled
    cases doubled

end Length
end Tunebook
