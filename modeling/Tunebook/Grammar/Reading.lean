import Tunebook.Problem

/-! What the productions of the grammar share: the result of one, and the ways to look at and to
take the tokens ahead. -/
namespace Tunebook

/-- What a production built, what it found wrong on the way, and the tokens it left. -/
structure Reading (α : Type) where
  value : α
  problems : List Problem
  rest : List Token

namespace Token

/-- Takes the next token if its kind passes. -/
def accept (p : Kind → Bool) : List Token → Option Token × List Token
  | [] => (none, [])
  | t :: ts => if p t.kind then (some t, ts) else (none, t :: ts)

theorem accept_append (p : Kind → Bool) (ts : List Token) :
    (accept p ts).1.toList ++ (accept p ts).2 = ts := by
  unfold accept
  split
  · rfl
  · split <;> rfl

theorem length_accept_le (p : Kind → Bool) (ts : List Token) :
    (accept p ts).2.length ≤ ts.length := by
  unfold accept
  split
  · simp
  · split <;> simp

theorem kind_of_mem_accept {p : Kind → Bool} (h : t ∈ (accept p ts).1) : p t.kind = true := by
  unfold accept at h
  split at h
  · cases h
  · split at h
    next passes =>
      cases h
      exact passes
    · cases h

/-- Splits the tokens at the first of kind `close`, if all before it pass. -/
def splitClose (close : Kind) (admits : Kind → Bool) :
    List Token → Option (List Token × Token × List Token)
  | [] => none
  | t :: ts =>
    if t.kind = close then some ([], t, ts)
    else if admits t.kind then
      (splitClose close admits ts).map fun (inside, right, rest) => (t :: inside, right, rest)
    else none

theorem splitClose_append (h : splitClose close admits ts = some (inside, right, rest)) :
    ts = inside ++ right :: rest := by
  induction ts generalizing inside with
  | nil => simp [splitClose] at h
  | cons t ts ih =>
    unfold splitClose at h
    split at h
    · simp_all
    · split at h
      · obtain ⟨⟨i, r, s⟩, hs, heq⟩ := Option.map_eq_some_iff.1 h
        simp only [Prod.mk.injEq] at heq
        obtain ⟨rfl, rfl, rfl⟩ := heq
        simp [ih hs]
      · simp at h

/-- A letter that stands for a decoration. -/
def isDecorationLetter (t : Token) : Bool :=
  t.lexeme.head?.any "HLMOPSTuv".toList.contains

end Token
end Tunebook
