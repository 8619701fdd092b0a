import Tunebook.Proofs.Conservation
import Tunebook.Proofs.Grammar.Notes

/-! Lines without music read back: information lines, comment lines and headers are read as before
from their tokens, whatever stands behind them that starts as it did. -/
namespace Tunebook

theorem head?_append_congr {us rest : List Token} (same : us.head? = rest.head?)
    (ts : List Token) : (ts ++ us).head? = (ts ++ rest).head? := by
  rw [List.head?_append, List.head?_append, same]

/-- A front that passes, before what does not, is what is split off. -/
theorem span_append {p : α → Bool} {as bs : List α} (every : ∀ a ∈ as, p a = true)
    (next : ∀ b ∈ bs.head?, p b = false) :
    (as ++ bs).takeWhile p = as ∧ (as ++ bs).dropWhile p = bs := by
  rw [List.takeWhile_append_of_pos every, List.dropWhile_append_of_pos every]
  cases bs with
  | nil => simp
  | cons b bs => simp [next b rfl]

theorem not_of_mem_head?_dropWhile (p : α → Bool) {as : List α} (h : a ∈ (as.dropWhile p).head?) :
    p a = false := by
  have first := List.head?_dropWhile_not p as
  rw [h] at first
  simpa using first

/-- The front that passes is split off again. -/
theorem span_again (p : α → Bool) (as : List α) (same : bs.head? = (as.dropWhile p).head?) :
    (as.takeWhile p ++ bs).takeWhile p = as.takeWhile p ∧
      (as.takeWhile p ++ bs).dropWhile p = bs := by
  refine span_append (List.all_eq_true.mp List.all_takeWhile) ?_
  intro b member
  rw [same] at member
  exact not_of_mem_head?_dropWhile p member

theorem InfoLine.read_again (t : Token) (ts : List Token) (same : us.head? = (read t ts).2.head?) :
    read t ((read t ts).1.tokens.tail ++ us) = ((read t ts).1, us) := by
  simp only [read] at same
  simp only [read, tokens, List.cons_append, List.tail_cons, List.append_assoc]
  have front := head?_append_congr same
    (Token.accept (· = .eol) (Token.accept Kind.isComment (ts.dropWhile (isValue ·.kind))).2).1.toList
  rw [Token.accept_append] at front
  have whole := head?_append_congr front
    (Token.accept Kind.isComment (ts.dropWhile (isValue ·.kind))).1.toList
  rw [Token.accept_append] at whole
  have value := span_again (isValue ·.kind) ts whole
  rw [value.1, value.2, Token.accept_again _ _ front]
  simp only [Token.accept_again _ _ same]

theorem CommentLine.read_again (t : Token) (ts : List Token)
    (same : us.head? = (read t ts).2.head?) :
    read t ((read t ts).1.tokens.tail ++ us) = ((read t ts).1, us) := by
  simp only [read, tokens, List.tail_cons]
  rw [Token.accept_again _ _ same]

namespace Tune

/-- The header is read again from its tokens. -/
theorem readHeader_again (isFirst : Bool) (ts : List Token)
    (same : us.head? = (readHeader isFirst ts).2.head?) :
    readHeader isFirst ((readHeader isFirst ts).1.flatMap HeaderLine.tokens ++ us) =
      ((readHeader isFirst ts).1, us) := by
  fun_induction readHeader isFirst ts with
  | case1 =>
    obtain rfl : us = [] := List.head?_eq_none_iff.mp same
    simp [readHeader]
  | case2 isFirst t ts hk hx =>
    obtain ⟨us, rfl⟩ := List.head?_eq_some_iff.mp same
    simp [readHeader, hk, hx]
  | case3 isFirst t ts hk hx line hc =>
    have again := InfoLine.read_again t ts same
    have tokens : line.1.tokens ++ us = t :: (line.1.tokens.tail ++ us) := rfl
    simp only [List.flatMap_cons, List.flatMap_nil, List.append_nil, HeaderLine.tokens, tokens,
      readHeader, hk, hx, if_true]
    rw [again]
    simp only [line, hc, if_true]
    rfl
  | case4 isFirst t ts hk hx line hc tail ih =>
    -- the lines behind stay, so the line is followed by what it was followed by
    have behind := head?_append_congr same (tail.1.flatMap HeaderLine.tokens)
    rw [readHeader_append] at behind
    have again := InfoLine.read_again t ts behind
    have tokens : line.1.tokens ++ (tail.1.flatMap HeaderLine.tokens ++ us) =
        t :: (line.1.tokens.tail ++ (tail.1.flatMap HeaderLine.tokens ++ us)) := rfl
    simp only [List.flatMap_cons, List.append_assoc, HeaderLine.tokens, tokens, readHeader, hk, hx,
      if_true]
    rw [again]
    simp only [line] at hc
    simp only [hc, if_false]
    rw [ih same]
    rfl
  | case5 isFirst t ts hk hc line tail ih =>
    have behind := head?_append_congr same (tail.1.flatMap HeaderLine.tokens)
    rw [readHeader_append] at behind
    have again := CommentLine.read_again t ts behind
    have tokens : line.1.tokens ++ (tail.1.flatMap HeaderLine.tokens ++ us) =
        t :: (line.1.tokens.tail ++ (tail.1.flatMap HeaderLine.tokens ++ us)) := rfl
    simp only [List.flatMap_cons, List.append_assoc, HeaderLine.tokens, tokens, readHeader, hk, hc,
      if_true, if_false]
    rw [again]
    simp only
    rw [ih same]
  | case6 isFirst t ts hk hc =>
    obtain ⟨us, rfl⟩ := List.head?_eq_some_iff.mp same
    simp [readHeader, hk, hc]

end Tune
end Tunebook
