import Tunebook.Proofs.Scan.Recognition

/-! Which rules match the same text. A match tells its rule by its first character and its last one,
or by its only one; nothing but a comment and a stylesheet directive have a text in common. So there
is one longest match at the front of a text, and `Rule.longest` finds it. -/
namespace Tunebook

namespace Pattern

/-- A match can end with `c`. -/
def endsWith (c : Char) : Pattern → Bool
  | fail | empty => false
  | char accepts => accepts c
  | alt a b => a.endsWith c || b.endsWith c
  | seq a b => b.endsWith c || (b.nullable && a.endsWith c)
  | star a => a.endsWith c

theorem endsWith_of_matches {p : Pattern} (hw : Matches p w) (last : c ∈ w.getLast?) :
    p.endsWith c = true := by
  induction hw with
  | empty | done => cases last
  | char passes =>
    cases last
    exact passes
  | left _ ih => rw [endsWith, ih last, Bool.true_or]
  | right _ ih => rw [endsWith, ih last, Bool.or_true]
  | @seq a s b t _ second iha ihb =>
    rw [endsWith, Bool.or_eq_true, Bool.and_eq_true]
    cases t with
    | nil =>
      rw [List.append_nil] at last
      exact .inr ⟨nullable_iff.mpr second, iha last⟩
    | cons d t =>
      rw [List.getLast?_append_of_ne_nil s (List.cons_ne_nil d t)] at last
      exact .inl (ihb last)
  | @more a s t _ _ iha ihb =>
    cases t with
    | nil =>
      rw [List.append_nil] at last
      exact iha last
    | cons d t =>
      rw [List.getLast?_append_of_ne_nil s (List.cons_ne_nil d t)] at last
      exact ihb last

end Pattern

namespace Rule
open Pattern

/-- The characters of one byte. -/
def ascii : List Char :=
  (List.range 128).map Char.ofNat

theorem mem_ascii (h : c.toNat < 128) : c ∈ ascii :=
  List.mem_map.mpr ⟨c.toNat, List.mem_range.mpr h, Char.ofNat_toNat c⟩

section Wide
variable {c : Char} (wide : ¬c.toNat < 128)
include wide

theorem ne_of_wide (d : Char) (narrow : d.toNat < 128) : c ≠ d := by
  rintro rfl
  exact wide narrow

theorem isDigit_of_wide : c.isDigit = false := by
  cases digit : c.isDigit with
  | false => rfl
  | true =>
    have last : c.toNat ≤ '9'.toNat := by
      simp only [Char.isDigit, Bool.and_eq_true, decide_eq_true_eq] at digit
      exact digit.2
    exact absurd (Nat.lt_of_le_of_lt last (by decide)) wide

theorem begins_of_wide (h : rule ∈ music) : rule.pattern.begins c = false := by
  revert rule
  simp (disch := decide) [music, begins, nullable, Pattern.text, Pattern.plus, opt, just, oneOf,
    Pattern.digit, lineFeed, ne_of_wide wide, isDigit_of_wide wide]

/-- Only what runs on through any character holds a wide one. -/
theorem avoids_of_wide (h : rule ∈ music) (free : rule.isFree = false) :
    rule.pattern.avoids c = true := by
  revert rule
  simp (disch := decide) [music, isFree, avoids, Pattern.text, Pattern.plus, opt, just, oneOf,
    Pattern.digit, lineFeed, ne_of_wide wide, isDigit_of_wide wide]

end Wide

/-- The two kinds with texts in common. -/
def Meet (k l : Kind) : Prop :=
  k = l ∨ k = .comment ∧ l = .stylesheetDirective ∨ k = .stylesheetDirective ∧ l = .comment

instance (k l : Kind) : Decidable (Meet k l) :=
  inferInstanceAs (Decidable (_ ∨ _))

/-- No text that starts with `c` is matched by both, for all that its only character or its last one
tells. -/
def areApart (c : Char) (r s : Rule) : Bool :=
  !((r.pattern.step c).nullable && (s.pattern.step c).nullable) && !(r.isFree && s.isFree) &&
    ascii.all fun d => !((r.pattern.step c).endsWith d && (s.pattern.step c).endsWith d)

theorem areApart_of_mem_candidates (narrow : c.toNat < 128) (h : r ∈ candidates c)
    (g : s ∈ candidates c) : Meet r.kind s.kind ∨ areApart c r s = true := by
  have every : ascii.all (fun c => (candidates c).all fun r => (candidates c).all fun s =>
      decide (Meet r.kind s.kind) || areApart c r s) = true := by
    decide +kernel
  have row := List.all_eq_true.mp every c (mem_ascii narrow)
  have pair := List.all_eq_true.mp (List.all_eq_true.mp row r h) s g
  simpa using pair

theorem not_areApart (h : r ∈ music) (g : s ∈ music) (hr : Matches r.pattern (c :: v))
    (hs : Matches s.pattern (c :: v)) : ¬areApart c r s = true := by
  intro apart
  simp only [areApart, Bool.and_eq_true, Bool.not_eq_true', Bool.and_eq_false_iff,
    List.all_eq_true] at apart
  obtain ⟨⟨lone, bound⟩, last⟩ := apart
  have left := matches_step.mpr hr
  have right := matches_step.mpr hs
  cases final : v.getLast? with
  | none =>
    obtain rfl := List.getLast?_eq_none_iff.mp final
    simp [nullable_iff.mpr left, nullable_iff.mpr right] at lone
  | some d =>
    by_cases narrow : d.toNat < 128
    · have ends := last d (mem_ascii narrow)
      simp [endsWith_of_matches left final, endsWith_of_matches right final] at ends
    · have inside : d ∈ c :: v := List.mem_cons_of_mem c (List.mem_of_getLast? final)
      rcases bound with free | free
      · exact not_mem_of_avoids (avoids_of_wide narrow h free) hr inside
      · exact not_mem_of_avoids (avoids_of_wide narrow g free) hs inside

theorem ne_nil_of_matches (h : r ∈ music) (hr : Matches r.pattern w) : w ≠ [] := by
  rintro rfl
  have nullable := nullable_of_mem_music h
  rw [nullable_iff.mpr hr] at nullable
  cases nullable

/-- Two rules that match the same text are of the same kind, or a comment and a directive. -/
theorem meet_of_matches (h : r ∈ music) (g : s ∈ music) (hr : Matches r.pattern w)
    (hs : Matches s.pattern w) : Meet r.kind s.kind := by
  obtain ⟨c, v, rfl⟩ := List.exists_cons_of_ne_nil (ne_nil_of_matches h hr)
  have narrow : c.toNat < 128 := by
    by_contra wide
    have never := begins_of_wide wide h
    rw [begins_of_matches hr] at never
    cases never
  have mine : r ∈ candidates c := List.mem_filter.mpr ⟨h, begins_of_matches hr⟩
  have other : s ∈ candidates c := List.mem_filter.mpr ⟨g, begins_of_matches hs⟩
  exact (areApart_of_mem_candidates narrow mine other).resolve_right (not_areApart h g hr hs)

/-- The kind and the text of the longest match at the front of a text. A directive is no comment. -/
structure IsLongest (kind : Kind) (w cs : Text) : Prop where
  nonempty : w ≠ []
  front : w <+: cs
  matched : ∃ rule ∈ music, rule.kind = kind ∧ Matches rule.pattern w
  most : ∀ rule ∈ music, ∀ v, Matches rule.pattern v → v <+: cs → v.length ≤ w.length
  directive : kind = .comment →
    ∀ rule ∈ music, rule.kind = .stylesheetDirective → ¬Matches rule.pattern w

/-- No rule matches anything at the front of the text. -/
def IsStuck (cs : Text) : Prop :=
  ∀ rule ∈ music, ∀ w, w ≠ [] → w <+: cs → ¬Matches rule.pattern w

theorem IsLongest.unique (first : IsLongest k v cs) (second : IsLongest l w cs) :
    k = l ∧ v = w := by
  obtain ⟨r, mine, rfl, hr⟩ := first.matched
  obtain ⟨s, other, rfl, hs⟩ := second.matched
  have length : v.length = w.length :=
    Nat.le_antisymm (second.most r mine v hr first.front) (first.most s other w hs second.front)
  obtain rfl : v = w := by
    rw [List.prefix_iff_eq_take.mp first.front, List.prefix_iff_eq_take.mp second.front, length]
  refine ⟨?_, rfl⟩
  rcases meet_of_matches mine other hr hs with same | ⟨comment, directive⟩ | ⟨directive, comment⟩
  · exact same
  · exact absurd hs (first.directive comment s other directive)
  · exact absurd hr (second.directive comment r mine directive)

theorem IsLongest.not_isStuck (h : IsLongest k w cs) : ¬IsStuck cs := by
  intro stuck
  obtain ⟨rule, member, _, hw⟩ := h.matched
  exact stuck rule member w h.nonempty h.front hw

theorem longest_percent (cs : Text) : longest music ('%' :: cs) =
    longest [⟨.stylesheetDirective, seq (Pattern.text "%%") restOfLine⟩,
      ⟨.comment, seq (just '%') restOfLine⟩] ('%' :: cs) :=
  longest_candidates '%' cs

/-- Where a directive matches as much, a comment does not win. -/
theorem kind_ne_comment (h : longest music cs = some (k, n)) (member : r ∈ music)
    (directive : r.kind = .stylesheetDirective) (hr : Matches r.pattern (cs.take n)) :
    k ≠ .comment := by
  obtain rfl : (⟨.stylesheetDirective, seq (Pattern.text "%%") restOfLine⟩ : Rule) = r :=
    eq_of_kind member directive rfl
  obtain ⟨c, v, text⟩ := List.exists_cons_of_ne_nil (ne_nil_of_matches member hr)
  obtain rfl : c = '%' := by
    rw [text] at hr
    simpa [Pattern.begins, Pattern.text, just, nullable] using begins_of_matches hr
  obtain ⟨rest, rfl⟩ : ∃ rest, cs = '%' :: rest := by
    obtain ⟨rest, whole⟩ := text ▸ List.take_prefix n cs
    exact ⟨_, whole.symm⟩
  have within := (longest_eq_some_iff.mp (exists_of_longest h).choose_spec.2.2).1
  obtain ⟨m, found, le⟩ := longest_of_matches hr (List.take_prefix n _)
  rw [List.length_take, Nat.min_eq_left within] at le
  obtain rfl : m = n := Nat.le_antisymm (le_of_longest h member found) le
  rw [longest_percent, longest, found] at h
  -- A comment as long as the directive stands behind it in the list.
  split at h
  next own other =>
    cases own
    split at h
    next =>
      cases h
      simp
    next longer =>
      cases h
      exact absurd (Nat.le_refl _) longer
  next own other =>
    cases h
    simp
  next nothing _ => contradiction

theorem isLongest_of_longest (h : longest music cs = some (k, n)) :
    IsLongest k (cs.take n) cs := by
  obtain ⟨rule, member, rfl, own⟩ := exists_of_longest h
  obtain ⟨within, hw, _⟩ := longest_eq_some_iff.mp own
  have length : (cs.take n).length = n := by rw [List.length_take, Nat.min_eq_left within]
  refine ⟨ne_nil_of_matches member hw, List.take_prefix n cs, ⟨rule, member, rfl, hw⟩, ?_, ?_⟩
  · intro r listed v hv front
    rw [length]
    exact length_le_of_longest h listed hv front
  · intro comment r listed directive hr
    exact kind_ne_comment h listed directive hr comment

theorem longest_eq_none_iff_isStuck : longest music cs = none ↔ IsStuck cs := by
  constructor
  · intro none rule member w _ front hw
    obtain ⟨m, found, _⟩ := longest_of_matches hw front
    obtain ⟨_, _, wins, _⟩ := exists_le_longest member found
    rw [none] at wins
    cases wins
  · intro stuck
    cases found : longest music cs with
    | none => rfl
    | some won => exact absurd stuck (isLongest_of_longest found).not_isStuck

/-- The rules find the longest match wherever there is one. -/
theorem longest_of_isLongest (h : IsLongest k w cs) : longest music cs = some (k, w.length) := by
  cases found : longest music cs with
  | none => exact absurd (longest_eq_none_iff_isStuck.mp found) h.not_isStuck
  | some won =>
    obtain ⟨l, n⟩ := won
    have within := (longest_eq_some_iff.mp (exists_of_longest found).choose_spec.2.2).1
    obtain ⟨rfl, rfl⟩ := h.unique (isLongest_of_longest found)
    rw [List.length_take, Nat.min_eq_left within]

/-- A line feed is the last character of its token. -/
theorem IsLongest.feed (h : IsLongest k w cs) : '\n' ∉ w.dropLast := by
  intro inside
  obtain ⟨rule, member, _, hw⟩ := h.matched
  have every : music.all (·.pattern.endsAt '\n') = true := by decide
  obtain ⟨front, back, cut⟩ := List.append_of_mem inside
  have whole := List.dropLast_concat_getLast h.nonempty
  rw [cut, List.append_assoc, List.cons_append] at whole
  rw [← whole] at hw
  have none := Pattern.last_of_endsAt (List.all_eq_true.mp every rule member) hw
  simp at none

end Rule

/-- The pieces of a text by its longest matches. What no rule matches goes character by character. -/
inductive Greedy : Text → List Piece → Prop where
  | done : Greedy [] []
  | token : Rule.IsLongest kind w (w ++ rest) → Greedy rest ps →
      Greedy (w ++ rest) (⟨kind, w⟩ :: ps)
  | invalid : Rule.IsStuck (c :: rest) → Greedy rest ps →
      Greedy (c :: rest) (⟨.invalid, [c]⟩ :: ps)

namespace Greedy

theorem unique (h : Greedy cs ps) (g : Greedy cs qs) : ps = qs := by
  induction h generalizing qs with
  | done =>
    generalize whole : ([] : Text) = cs at g
    cases g with
    | done => rfl
    | token longest _ => exact absurd (List.append_eq_nil_iff.mp whole.symm).1 longest.nonempty
    | invalid => cases whole
  | @token kind w rest ps longest _ ih =>
    generalize whole : w ++ rest = cs at g
    cases g with
    | done => exact absurd (List.append_eq_nil_iff.mp whole).1 longest.nonempty
    | token other tail =>
      obtain ⟨rfl, rfl⟩ := longest.unique (whole ▸ other)
      rw [ih (List.append_cancel_left whole ▸ tail)]
    | invalid stuck _ => exact absurd (whole ▸ stuck) longest.not_isStuck
  | @invalid c rest ps stuck _ ih =>
    generalize whole : c :: rest = cs at g
    cases g with
    | done => cases whole
    | token longest _ => exact absurd (whole ▸ stuck) longest.not_isStuck
    | invalid _ tail =>
      cases whole
      rw [ih tail]

theorem musicLine (cs : Text) : Greedy cs (Scan.musicLine cs) := by
  unfold Scan.musicLine
  fun_induction Scan.music (Rule.recognise Rule.music) cs with
  | case1 => exact .done
  | case2 c cs kind n found ih =>
    have longest := Rule.isLongest_of_longest (Rule.recognise_eq_token_iff.mp found)
    rw [List.take_succ_cons] at longest
    have whole : c :: cs = (c :: cs.take n) ++ cs.drop n := by simp
    rw [whole] at longest ⊢
    exact .token longest ih
  | case3 c cs kind found _ =>
    have longest := Rule.isLongest_of_longest (Rule.recognise_eq_token_iff.mp found)
    exact absurd rfl longest.nonempty
  | case4 c cs width found ih =>
    have none := Rule.longest_of_recognise_eq_failure found
    exact .invalid (Rule.longest_eq_none_iff_isStuck.mp none) ih

theorem iff_musicLine : Greedy cs ps ↔ ps = Scan.musicLine cs := by
  constructor
  · intro h
    exact h.unique (musicLine cs)
  · rintro rfl
    exact musicLine cs

end Greedy

end Tunebook
