import Tunebook.Proofs.Scan.Lookahead

/-! What the rules of the notation recognise: which of them can begin with a character, which piece
each of them yields, and how far ahead all of them together look. -/
namespace Tunebook.Rule
open Pattern

theorem longest_congr {rules : List Rule}
    (h : ∀ rule ∈ rules, rule.pattern.longest cs = rule.pattern.longest ds) :
    longest rules cs = longest rules ds := by
  induction rules with
  | nil => rfl
  | cons rule rules ih =>
    have tail := ih fun r member => h r (List.mem_cons_of_mem rule member)
    rw [longest, longest, h rule List.mem_cons_self, tail]

/-- Where a rule matches, one wins that matches no less. -/
theorem exists_le_longest {rules : List Rule} (member : r ∈ rules)
    (found : r.pattern.longest cs = some m) : ∃ k n, longest rules cs = some (k, n) ∧ m ≤ n := by
  induction rules with
  | nil => cases member
  | cons rule rules ih =>
    simp only [longest]
    rcases List.mem_cons.mp member with rfl | member
    · rw [found]
      cases longest rules cs with
      | none => exact ⟨_, _, rfl, Nat.le_refl m⟩
      | some other =>
        dsimp only
        split
        · exact ⟨_, _, rfl, Nat.le_refl m⟩
        next longer => exact ⟨_, _, rfl, Nat.le_of_lt (Nat.lt_of_not_le longer)⟩
    · obtain ⟨k, n, wins, le⟩ := ih member
      rw [wins]
      cases rule.pattern.longest cs with
      | none => exact ⟨k, n, rfl, le⟩
      | some own =>
        dsimp only
        split
        next longer => exact ⟨_, _, rfl, Nat.le_trans le longer⟩
        · exact ⟨_, _, rfl, le⟩

theorem le_of_longest {rules : List Rule} (h : longest rules cs = some (k, n)) (member : r ∈ rules)
    (found : r.pattern.longest cs = some m) : m ≤ n := by
  obtain ⟨_, _, wins, le⟩ := exists_le_longest member found
  cases h.symm.trans wins
  exact le

theorem length_le_of_longest {rules : List Rule} (h : longest rules cs = some (k, n))
    (member : r ∈ rules) (hw : Matches r.pattern w) (front : w <+: cs) : w.length ≤ n := by
  obtain ⟨m, found, le⟩ := longest_of_matches hw front
  exact Nat.le_trans le (le_of_longest h member found)

/-- What wins goes on as far as any rule does: with the character behind it none matches it. -/
theorem not_matches_concat {rules : List Rule} {w us : Text}
    (wins : longest rules (w ++ us) = some (k, w.length)) (member : r ∈ rules)
    (next : us.head? = some e) : ¬Matches r.pattern (w ++ [e]) := by
  intro more
  obtain ⟨rest, rfl⟩ := List.head?_eq_some_iff.mp next
  have bound := length_le_of_longest wins member more ⟨rest, by simp⟩
  rw [List.length_append, List.length_singleton] at bound
  omega

theorem longest_filter {rules : List Rule} {p : Rule → Bool}
    (h : ∀ rule ∈ rules, p rule = false → rule.pattern.longest cs = none) :
    longest rules cs = longest (rules.filter p) cs := by
  induction rules with
  | nil => rfl
  | cons rule rules ih =>
    have tail := ih fun r member => h r (List.mem_cons_of_mem rule member)
    rw [List.filter_cons]
    split
    · rw [longest, longest, tail]
    next fails =>
      rw [longest, h rule List.mem_cons_self (Bool.not_eq_true _ ▸ fails), tail]

/-- The rules whose matches can begin with `c`. -/
def candidates (c : Char) : List Rule :=
  music.filter (·.pattern.begins c)

theorem nullable_of_mem_music (h : rule ∈ music) : rule.pattern.nullable = false := by
  have every : music.all (!·.pattern.nullable) = true := by decide
  simpa using List.all_eq_true.mp every rule h

/-- Only the candidates for its first character can recognise a text. -/
theorem longest_candidates (c : Char) (cs : Text) :
    longest music (c :: cs) = longest (candidates c) (c :: cs) := by
  refine longest_filter fun rule member fails => ?_
  exact longest_eq_none_of_not_begins (nullable_of_mem_music member) fails cs

/-- Characters that the letters of notes and rests and the bracket that closes a chord are. -/
def stops : Text :=
  "ABCDEFGabcdefgxz]".toList

/-- The rules whose matches run up to a character that ends them, or through any other. -/
def isFree (rule : Rule) : Bool :=
  rule.kind matches .escapedChar | .stylesheetDirective | .comment | .quotedText | .symbol

theorem endsAt_of_mem_music (h : rule ∈ music) (free : rule.isFree = false) (hc : c ∈ stops) :
    rule.pattern.endsAt c = true := by
  have every : music.all (fun rule => rule.isFree || stops.all rule.pattern.endsAt) = true := by
    decide
  have row := List.all_eq_true.mp every rule h
  rw [free, Bool.false_or] at row
  exact List.all_eq_true.mp row c hc

theorem begins_of_isFree (h : rule ∈ music) (free : rule.isFree = true) (hc : c ∈ stops) :
    rule.pattern.begins c = false := by
  have every : music.all (fun rule => !rule.isFree || stops.all (!rule.pattern.begins ·)) = true := by
    decide
  have row := List.all_eq_true.mp every rule h
  rw [free, Bool.not_true, Bool.false_or] at row
  simpa using List.all_eq_true.mp row c hc

theorem find?_kind (h : rule ∈ music) : music.find? (·.kind = rule.kind) = some rule := by
  have distinct : (music.map Rule.kind).Nodup := by decide
  generalize music = rules at h distinct
  induction rules with
  | nil => cases h
  | cons r rules ih =>
    rw [List.map_cons, List.nodup_cons] at distinct
    rcases List.mem_cons.mp h with rfl | member
    · simp
    · have differs : r.kind ≠ rule.kind := fun same =>
        distinct.1 (same ▸ List.mem_map_of_mem member)
      rw [List.find?_cons_of_neg (by simpa using differs)]
      exact ih member distinct.2

theorem eq_of_kind (member : rule ∈ music) (hk : rule.kind = k)
    (found : music.find? (·.kind = k) = some other) : other = rule := by
  have only := find?_kind member
  rw [hk, found] at only
  exact Option.some.inj only

end Tunebook.Rule
