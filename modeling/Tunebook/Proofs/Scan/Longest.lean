import Tunebook.Scan.Pattern

/-! Derivatives find the longest match: what `Pattern.longest` reports is accepted, and no accepted
text at the front is longer. -/
namespace Tunebook.Pattern

theorem matches_char : Matches (char accepts) w ↔ ∃ c, accepts c = true ∧ w = [c] := by
  constructor
  · intro h
    cases h with
    | char passes => exact ⟨_, passes, rfl⟩
  · rintro ⟨c, passes, rfl⟩
    exact .char passes

theorem matches_alt : Matches (alt a b) w ↔ Matches a w ∨ Matches b w := by
  constructor
  · intro h
    cases h with
    | left h => exact .inl h
    | right h => exact .inr h
  · rintro (h | h)
    · exact .left h
    · exact .right h

theorem matches_seq : Matches (seq a b) w ↔ ∃ s t, w = s ++ t ∧ Matches a s ∧ Matches b t := by
  constructor
  · intro h
    cases h with
    | seq first second => exact ⟨_, _, rfl, first, second⟩
  · rintro ⟨s, t, rfl, first, second⟩
    exact .seq first second

theorem matches_empty : Matches empty w ↔ w = [] := by
  constructor
  · intro h
    cases h
    rfl
  · rintro rfl
    exact .empty

theorem not_matches_fail : ¬Matches fail w := by
  intro h
  cases h

theorem matches_seq_empty : Matches (seq a empty) w ↔ Matches a w := by
  simp only [matches_seq, matches_empty]
  constructor
  · rintro ⟨s, t, rfl, first, rfl⟩
    simpa using first
  · intro h
    exact ⟨w, [], by simp, h, rfl⟩

/-- A repetition of some text starts with a repeated text of some length. -/
theorem matches_star_cons : Matches (star a) (c :: w) ↔
    ∃ s t, w = s ++ t ∧ Matches a (c :: s) ∧ Matches (star a) t := by
  constructor
  · intro h
    generalize hp : star a = p at h
    generalize hv : c :: w = v at h
    induction h with
    | @more b s t first rest _ ih =>
      cases hp
      cases s with
      | nil => exact ih rfl hv
      | cons d s =>
        cases hv
        exact ⟨s, t, rfl, first, rest⟩
    | done => cases hv
    | _ => cases hp
  · rintro ⟨s, t, rfl, first, rest⟩
    exact .more first rest

theorem nullable_iff {p : Pattern} : p.nullable = true ↔ Matches p [] := by
  induction p with
  | fail => simp [nullable, not_matches_fail]
  | empty => simp [nullable, matches_empty]
  | char accepts => simp [nullable, matches_char]
  | alt a b iha ihb => simp [nullable, matches_alt, iha, ihb]
  | seq a b iha ihb =>
    simp only [nullable, Bool.and_eq_true, iha, ihb, matches_seq]
    constructor
    · rintro ⟨first, second⟩
      exact ⟨[], [], rfl, first, second⟩
    · rintro ⟨s, t, whole, first, second⟩
      obtain ⟨rfl, rfl⟩ := List.append_eq_nil_iff.mp whole.symm
      exact ⟨first, second⟩
  | star a => simp [nullable, Matches.done]

theorem matches_orElse : Matches (orElse a b) w ↔ Matches a w ∨ Matches b w := by
  unfold orElse
  split
  · simp [not_matches_fail]
  · simp [not_matches_fail]
  · exact matches_alt

theorem matches_andThen : Matches (andThen a b) w ↔ Matches (seq a b) w := by
  unfold andThen
  split
  · simp [matches_seq, not_matches_fail]
  · simp only [matches_seq, matches_empty]
    constructor
    · intro h
      exact ⟨[], w, rfl, rfl, h⟩
    · rintro ⟨s, t, rfl, rfl, h⟩
      exact h
  · rfl

/-- The derivative accepts what is left of the accepted texts that start with the character. -/
theorem matches_step {p : Pattern} : Matches (p.step c) w ↔ Matches p (c :: w) := by
  induction p generalizing w with
  | fail => simp [step, not_matches_fail]
  | empty => simp [step, matches_empty, not_matches_fail]
  | char accepts =>
    simp only [step, matches_char, List.cons.injEq]
    split
    next passes =>
      rw [matches_empty]
      constructor
      · intro h
        exact ⟨c, passes, rfl, h⟩
      · rintro ⟨d, _, rfl, h⟩
        exact h
    next fails =>
      constructor
      · intro h
        exact absurd h not_matches_fail
      · rintro ⟨d, passes, rfl, _⟩
        exact absurd passes fails
  | alt a b iha ihb => simp only [step, matches_orElse, matches_alt, iha, ihb]
  | seq a b iha ihb =>
    -- the character is of the first part, or of the second where the first can be empty
    have first : Matches ((a.step c).andThen b) w ↔
        ∃ s t, w = s ++ t ∧ Matches a (c :: s) ∧ Matches b t := by
      simp only [matches_andThen, matches_seq, iha]
    have whole : Matches (seq a b) (c :: w) ↔
        (∃ s t, w = s ++ t ∧ Matches a (c :: s) ∧ Matches b t) ∨
          (Matches a [] ∧ Matches b (c :: w)) := by
      rw [matches_seq]
      constructor
      · rintro ⟨s, t, same, hs, ht⟩
        cases s with
        | nil =>
          rw [List.nil_append] at same
          exact .inr ⟨hs, same ▸ ht⟩
        | cons d s =>
          obtain ⟨rfl, rfl⟩ := List.cons.inj same
          exact .inl ⟨s, t, rfl, hs, ht⟩
      · rintro (⟨s, t, rfl, hs, ht⟩ | ⟨hs, ht⟩)
        · exact ⟨c :: s, t, rfl, hs, ht⟩
        · exact ⟨[], c :: w, rfl, hs, ht⟩
    rw [step, whole, ← nullable_iff]
    split
    next nullable => rw [matches_orElse, first, ihb]; simp [nullable]
    next nullable => rw [first]; simp [nullable]
  | star a ih => simp only [step, matches_andThen, matches_seq, ih, matches_star_cons]

theorem matches_of_longest {p : Pattern} (h : p.longest cs = some n) :
    n ≤ cs.length ∧ Matches p (cs.take n) := by
  induction cs generalizing p n with
  | nil =>
    unfold longest at h
    split at h
    · cases h
    · split at h
      next nullable =>
        cases h
        exact ⟨Nat.le_refl 0, nullable_iff.mp nullable⟩
      · cases h
    next heq => cases heq
  | cons c cs ih =>
    have here : p.nullable = true → some 0 = some n →
        n ≤ (c :: cs).length ∧ Matches p ((c :: cs).take n) := by
      intro nullable zero
      cases zero
      exact ⟨Nat.zero_le _, nullable_iff.mp nullable⟩
    unfold longest at h
    split at h
    · cases h
    next heq => cases heq
    next heq =>
      cases heq
      split at h
      next m hm =>
        cases h
        obtain ⟨le, tail⟩ := ih hm
        exact ⟨Nat.succ_le_succ le, matches_step.mp tail⟩
      · split at h
        next nullable => exact here nullable h
        · cases h

theorem longest_of_matches {p : Pattern} (hw : Matches p w) (front : w <+: cs) :
    ∃ n, p.longest cs = some n ∧ w.length ≤ n := by
  induction cs generalizing p w with
  | nil =>
    obtain rfl := List.prefix_nil.mp front
    have nullable := nullable_iff.mpr hw
    refine ⟨0, ?_, Nat.le_refl 0⟩
    unfold longest
    split
    · exact absurd hw not_matches_fail
    · simp [nullable]
    next heq => cases heq
  | cons c cs ih =>
    unfold longest
    split
    · exact absurd hw not_matches_fail
    next heq => cases heq
    next heq =>
      cases heq
      cases w with
      | nil =>
        have nullable := nullable_iff.mpr hw
        split
        next m _ => exact ⟨m + 1, rfl, Nat.zero_le _⟩
        · exact ⟨0, by simp [nullable], Nat.le_refl 0⟩
      | cons d w =>
        obtain ⟨rfl, tail⟩ := List.cons_prefix_cons.mp front
        obtain ⟨m, hm, le⟩ := ih (matches_step.mpr hw) tail
        rw [hm]
        exact ⟨m + 1, rfl, Nat.succ_le_succ le⟩

/-- The longest match is the accepted text at the front that no other exceeds. -/
theorem longest_eq_some_iff {p : Pattern} : p.longest cs = some n ↔
    n ≤ cs.length ∧ Matches p (cs.take n) ∧
      ∀ w, Matches p w → w <+: cs → w.length ≤ n := by
  constructor
  · intro h
    obtain ⟨le, accepted⟩ := matches_of_longest h
    refine ⟨le, accepted, fun w hw front => ?_⟩
    obtain ⟨m, hm, longer⟩ := longest_of_matches hw front
    rw [h, Option.some.injEq] at hm
    exact hm ▸ longer
  · rintro ⟨le, accepted, most⟩
    obtain ⟨m, hm, longer⟩ := longest_of_matches accepted (List.take_prefix n cs)
    rw [List.length_take, Nat.min_eq_left le] at longer
    obtain ⟨within, other⟩ := matches_of_longest hm
    have shorter := most _ other (List.take_prefix m cs)
    rw [List.length_take, Nat.min_eq_left within] at shorter
    rw [hm, Nat.le_antisymm shorter longer]

theorem longest_eq_none_iff {p : Pattern} :
    p.longest cs = none ↔ ∀ w, w <+: cs → ¬Matches p w := by
  constructor
  · intro h w front hw
    obtain ⟨n, hn, _⟩ := longest_of_matches hw front
    rw [h] at hn
    cases hn
  · intro h
    cases hp : p.longest cs with
    | none => rfl
    | some n => exact absurd (matches_of_longest hp).2 (h _ (List.take_prefix n cs))

/-- The longest match depends on nothing but which accepted texts stand at the front. -/
theorem longest_congr {p : Pattern} (h : ∀ w, Matches p w → (w <+: cs ↔ w <+: ds)) :
    p.longest cs = p.longest ds := by
  have lift : ∀ {cs ds : Text} {n}, (∀ w, Matches p w → (w <+: cs ↔ w <+: ds)) →
      p.longest cs = some n → p.longest ds = some n := by
    intro cs ds n h hn
    obtain ⟨le, accepted, most⟩ := longest_eq_some_iff.mp hn
    have front := (h _ accepted).mp (List.take_prefix n cs)
    have length : (cs.take n).length = n := by rw [List.length_take, Nat.min_eq_left le]
    have same := List.prefix_iff_eq_take.mp front
    rw [length] at same
    refine longest_eq_some_iff.mpr ⟨length ▸ front.length_le, same ▸ accepted, ?_⟩
    intro w hw within
    exact most w hw ((h w hw).mpr within)
  cases hc : p.longest cs with
  | some n => exact (lift h hc).symm
  | none =>
    cases hd : p.longest ds with
    | none => rfl
    | some n =>
      have back := lift (fun w hw => (h w hw).symm) hd
      rw [hc] at back
      cases back

end Tunebook.Pattern
