import Tunebook.Proofs.Scan.Longest
import Tunebook.Proofs.Scan.Pieces

/-! How far a recogniser looks ahead. A pattern is settled by a text if no match goes on from it;
what stands behind the text is then of no account. Where characters may stand in a match is read off
the pattern. -/
namespace Tunebook

namespace Pattern

/-- No character class of the pattern takes `c`. -/
def avoids (c : Char) : Pattern → Bool
  | fail | empty => true
  | char accepts => !accepts c
  | alt a b | seq a b => a.avoids c && b.avoids c
  | star a => a.avoids c

def isEmpty : Pattern → Bool
  | empty => true
  | _ => false

/-- `c` can only come last in a match. -/
def endsAt (c : Char) : Pattern → Bool
  | fail | empty | char _ => true
  | alt a b => a.endsAt c && b.endsAt c
  | seq a b => (a.avoids c && b.endsAt c) || (a.endsAt c && b.isEmpty)
  | star a => a.avoids c

/-- A match can begin with `c`. -/
def begins (c : Char) : Pattern → Bool
  | fail | empty => false
  | char accepts => accepts c
  | alt a b => a.begins c || b.begins c
  | seq a b => a.begins c || (a.nullable && b.begins c)
  | star a => a.begins c

theorem not_mem_of_avoids {p : Pattern} (h : p.avoids c = true) (hw : Matches p w) : c ∉ w := by
  induction hw with
  | empty | done => exact List.not_mem_nil
  | char passes =>
    intro member
    obtain rfl := List.mem_singleton.mp member
    simp [avoids, passes] at h
  | left _ ih =>
    rw [avoids, Bool.and_eq_true] at h
    exact ih h.1
  | right _ ih =>
    rw [avoids, Bool.and_eq_true] at h
    exact ih h.2
  | seq _ _ iha ihb =>
    rw [avoids, Bool.and_eq_true] at h
    intro member
    rcases List.mem_append.mp member with member | member
    · exact iha h.1 member
    · exact ihb h.2 member
  | more _ _ iha ihb =>
    intro member
    rcases List.mem_append.mp member with member | member
    · exact iha h member
    · exact ihb h member

theorem last_of_endsAt {p : Pattern} (h : p.endsAt c = true) (hw : Matches p (u ++ c :: v)) :
    v = [] := by
  induction p generalizing u v with
  | fail => exact absurd hw not_matches_fail
  | empty => simp [matches_empty] at hw
  | char accepts =>
    obtain ⟨d, _, whole⟩ := matches_char.mp hw
    have length := congrArg List.length whole
    simp only [List.length_append, List.length_cons, List.length_nil] at length
    exact List.eq_nil_of_length_eq_zero (by omega)
  | alt a b iha ihb =>
    rw [endsAt, Bool.and_eq_true] at h
    rcases matches_alt.mp hw with hw | hw
    · exact iha h.1 hw
    · exact ihb h.2 hw
  | seq a b iha ihb =>
    rw [endsAt, Bool.or_eq_true, Bool.and_eq_true, Bool.and_eq_true] at h
    rcases h with ⟨avoided, ends⟩ | ⟨ends, isEmpty⟩
    · obtain ⟨s, t, whole, first, second⟩ := matches_seq.mp hw
      have absent := not_mem_of_avoids avoided first
      rcases List.append_eq_append_iff.mp whole with ⟨excess, rfl, tail⟩ | ⟨excess, rfl, tail⟩
      · cases excess with
        | nil =>
          rw [List.nil_append] at tail
          rw [← tail] at second
          exact ihb (u := []) ends second
        | cons d excess =>
          rw [List.cons_append, List.cons.injEq] at tail
          exact absurd (tail.1 ▸ by simp) absent
      · exact ihb ends (tail ▸ second)
    · cases b with
      | empty => exact iha ends (matches_seq_empty.mp hw)
      | _ => cases isEmpty
  | star a =>
    have absent := not_mem_of_avoids (p := star a) h hw
    exact absurd (by simp) absent

theorem begins_of_matches {p : Pattern} (hw : Matches p (c :: w)) : p.begins c = true := by
  induction p generalizing w with
  | fail => exact absurd hw not_matches_fail
  | empty => simp [matches_empty] at hw
  | char accepts =>
    obtain ⟨d, passes, whole⟩ := matches_char.mp hw
    cases whole
    exact passes
  | alt a b iha ihb =>
    rw [begins, Bool.or_eq_true]
    rcases matches_alt.mp hw with hw | hw
    · exact .inl (iha hw)
    · exact .inr (ihb hw)
  | seq a b iha ihb =>
    obtain ⟨s, t, whole, first, second⟩ := matches_seq.mp hw
    rw [begins, Bool.or_eq_true, Bool.and_eq_true]
    cases s with
    | nil =>
      rw [List.nil_append] at whole
      exact .inr ⟨nullable_iff.mpr first, ihb (whole ▸ second)⟩
    | cons d s =>
      obtain ⟨rfl, _⟩ := List.cons.inj whole
      exact .inl (iha first)
  | star a ih =>
    obtain ⟨s, t, _, first, _⟩ := matches_star_cons.mp hw
    exact ih first

/-- No match goes on from `u`. -/
def Settled (p : Pattern) (u : Text) : Prop :=
  ∀ w, Matches p w → u <+: w → w = u

theorem longest_settled {p : Pattern} (h : p.Settled u) (s t : Text) :
    p.longest (u ++ s) = p.longest (u ++ t) := by
  have swap : ∀ {s t : Text} {w}, Matches p w → w <+: u ++ s → w <+: u ++ t := by
    intro s t w hw front
    rcases List.prefix_or_prefix_of_prefix front (List.prefix_append u s) with within | beyond
    · exact List.prefix_append_of_prefix within
    · exact h w hw beyond ▸ List.prefix_append u t
  exact longest_congr fun w hw => ⟨swap hw, swap hw⟩

theorem Settled.append {p : Pattern} (h : p.Settled u) (v : Text) : p.Settled (u ++ v) := by
  intro w hw beyond
  obtain rfl := h w hw ((List.prefix_append u v).trans beyond)
  exact beyond.eq_of_length_le (List.prefix_append w v).length_le |>.symm

theorem settled_of_endsAt {p : Pattern} (h : p.endsAt c = true) (u : Text) :
    p.Settled (u ++ [c]) := by
  rintro w hw ⟨v, rfl⟩
  rw [List.append_assoc, List.singleton_append] at hw
  rw [last_of_endsAt h hw, List.append_nil]

theorem settled_of_avoids {p : Pattern} (h : p.avoids c = true) (u : Text) :
    p.Settled (u ++ [c]) := by
  rintro w hw ⟨v, rfl⟩
  exact absurd (by simp) (not_mem_of_avoids h hw)

theorem settled_of_not_begins {p : Pattern} (h : p.begins c = false) (u : Text) :
    p.Settled (c :: u) := by
  rintro w hw ⟨v, rfl⟩
  rw [List.cons_append] at hw
  rw [begins_of_matches hw] at h
  cases h

theorem longest_eq_none_of_not_begins {p : Pattern} (null : p.nullable = false)
    (h : p.begins c = false) (cs : Text) : p.longest (c :: cs) = none := by
  rw [longest_eq_none_iff]
  intro w front hw
  cases w with
  | nil =>
    rw [nullable_iff.mpr hw] at null
    cases null
  | cons d w =>
    obtain ⟨rfl, _⟩ := List.cons_prefix_cons.mp front
    rw [begins_of_matches hw] at h
    cases h

theorem matches_star_char : Matches (star (char f)) w ↔ ∀ c ∈ w, f c = true := by
  constructor
  · intro h c member
    cases hc : f c with
    | true => rfl
    | false => exact absurd member (not_mem_of_avoids (by simp [avoids, hc]) h)
  · intro every
    induction w with
    | nil => exact .done
    | cons c w ih =>
      have rest := ih fun d member => every d (List.mem_cons_of_mem c member)
      exact .more (.char (every c List.mem_cons_self)) rest

theorem matches_star_char_concat :
    Matches (star (char f)) (w ++ [c]) ↔ Matches (star (char f)) w ∧ f c = true := by
  simp only [matches_star_char, List.forall_mem_append, List.forall_mem_singleton]

theorem matches_plus_char :
    Matches (plus (char f)) w ↔ w ≠ [] ∧ ∀ c ∈ w, f c = true := by
  rw [plus, matches_seq]
  constructor
  · rintro ⟨s, t, rfl, first, rest⟩
    obtain ⟨c, passes, rfl⟩ := matches_char.mp first
    refine ⟨by simp, fun d member => ?_⟩
    rcases List.mem_cons.mp member with rfl | member
    · exact passes
    · exact matches_star_char.mp rest d member
  · rintro ⟨nonempty, every⟩
    obtain ⟨c, w, rfl⟩ := List.exists_cons_of_ne_nil nonempty
    refine ⟨[c], w, rfl, .char (every c List.mem_cons_self), ?_⟩
    exact matches_star_char.mpr fun d member => every d (List.mem_cons_of_mem c member)

/-- A run ends where the first character outside its class stands. -/
theorem longest_plus_char (nonempty : u ≠ []) (every : ∀ c ∈ u, f c = true)
    (stop : ∀ c ∈ r.head?, f c = false) : (plus (char f)).longest (u ++ r) = some u.length := by
  rw [longest_eq_some_iff]
  refine ⟨by simp, ?_, ?_⟩
  · rw [List.take_left]
    exact matches_plus_char.mpr ⟨nonempty, every⟩
  · intro w hw front
    rcases List.prefix_or_prefix_of_prefix front (List.prefix_append u r) with within | ⟨v, rfl⟩
    · exact within.length_le
    · cases v with
      | nil => simp
      | cons c v =>
        have passes := (matches_plus_char.mp hw).2 c (by simp)
        have next : c ∈ r.head? := by
          obtain ⟨_, tail⟩ := List.prefix_append_right_inj u |>.mp front
          simp [← tail]
        rw [stop c next] at passes
        cases passes

end Pattern
end Tunebook
