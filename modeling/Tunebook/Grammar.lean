import Tunebook.Grammar.Line

/-! Reading a whole text: what stands before the first tune, then one tune after the other. Reading
a tune takes at least one token, so the tunes come to an end. -/
namespace Tunebook

namespace Tune

/-- Splits off what belongs to no tune: everything up to the next tune, or the blank lines where
none follows. `beyond` says that a tune follows the tokens at hand. -/
def splitApart (beyond : Bool) (ts : List Token) : List Token × List Token :=
  if beyond || ts.any Token.opensTune then
    (ts.takeWhile (!·.opensTune), ts.dropWhile (!·.opensTune))
  else Token.splitBlankLines ts

theorem splitApart_append (beyond : Bool) (ts : List Token) :
    (splitApart beyond ts).1 ++ (splitApart beyond ts).2 = ts := by
  unfold splitApart
  split
  · simp [List.takeWhile_append_dropWhile]
  · exact Token.splitBlankLines_append ts

theorem length_splitApart_le (beyond : Bool) (ts : List Token) :
    (splitApart beyond ts).2.length ≤ ts.length := by
  have hlen := congrArg List.length (splitApart_append beyond ts)
  simp only [List.length_append] at hlen
  omega

/-- A tune opened by an `X:` line wants a `K:` line. -/
def missingKey? (tune : Tune) (ts : List Token) : Option Problem :=
  match ts with
  | t :: _ => if t.opensTune && (tune.field? 'K').isNone then some ⟨.missingKey, t⟩ else none
  | [] => none

def read (beyond : Bool) (ts : List Token) : Reading Tune :=
  let header := readHeader true ts
  let body := readBody true header.2
  let trailing := splitApart beyond body.rest
  let tune : Tune := ⟨header.1, body.value, trailing.1⟩
  ⟨tune, (tune.missingKey? ts).toList ++ body.problems, trailing.2⟩

theorem length_readHeader_lt (h : (t.kind = .infoKey || t.kind.isComment) = true) :
    (readHeader true (t :: ts)).2.length ≤ ts.length := by
  rw [readHeader]
  split
  · simp only [Bool.not_true, Bool.and_false, Bool.false_eq_true, if_false]
    split
    · exact InfoLine.length_read_le t ts
    · exact Nat.le_trans (length_readHeader_le _ _) (InfoLine.length_read_le t ts)
  next hi =>
    simp only [hi, decide_false, Bool.false_or] at h
    simp only [h, if_true]
    exact Nat.le_trans (length_readHeader_le _ _) (CommentLine.length_read_le t ts)

theorem length_splitApart_lt (ht : t.opensTune = false)
    (hb : Token.startsBlankLine (t :: ts) = true) :
    (splitApart beyond (t :: ts)).2.length ≤ ts.length := by
  have hne : (splitApart beyond (t :: ts)).1 ≠ [] := by
    unfold splitApart
    split
    · simp [ht]
    · exact Token.splitBlankLines_ne_nil hb
  have hlen := congrArg List.length (splitApart_append beyond (t :: ts))
  have hpos := List.length_pos_iff.2 hne
  simp only [List.length_append, List.length_cons] at hlen
  omega

theorem length_read_le (beyond : Bool) (t : Token) (ts : List Token) :
    (read beyond (t :: ts)).rest.length ≤ ts.length := by
  simp only [read]
  by_cases hh : (t.kind = .infoKey || t.kind.isComment) = true
  · exact Nat.le_trans (length_splitApart_le _ _)
      (Nat.le_trans (length_readBody_le _ _) (length_readHeader_lt hh))
  · have hheader : readHeader true (t :: ts) = ([], t :: ts) := by
      simp only [Bool.or_eq_true, decide_eq_true_eq, not_or, Bool.not_eq_true] at hh
      simp [readHeader, hh.1, hh.2]
    have ht : t.opensTune = false := by
      simp only [Bool.or_eq_true, decide_eq_true_eq, not_or] at hh
      simp [Token.opensTune, hh.1]
    rw [hheader]
    by_cases hb : Token.startsBlankLine (t :: ts) = true
    · have hbody : (readBody true (t :: ts)).rest = t :: ts := by simp [readBody, hb]
      rw [hbody]
      exact length_splitApart_lt ht hb
    · refine Nat.le_trans (length_splitApart_le _ _) ?_
      rw [readBody]
      simp only [ht, hb, Bool.false_or, Bool.and_false, Bool.false_eq_true, if_false]
      exact Nat.le_trans (length_readBody_le _ _) (BodyLine.length_read_le t ts)

end Tune

namespace Tree

def readTunes (beyond : Bool) : List Token → List Tune × List Problem
  | [] => ([], [])
  | t :: ts =>
    let tune := Tune.read beyond (t :: ts)
    let tail := readTunes beyond tune.rest
    (tune.value :: tail.1, tune.problems ++ tail.2)
termination_by ts => ts.length
decreasing_by exact Nat.lt_succ_of_le (Tune.length_read_le beyond t ts)

/-- The tree of a list of tokens up to the first end mark, and what is wrong with it. Tokens past
that mark count only in that they may open a tune. -/
def ofTokens (tokens : List Token) : Tree × List Problem :=
  let isText (t : Token) : Bool := t.kind ≠ .eof
  let ts := tokens.takeWhile isText
  let beyond := (tokens.dropWhile isText).any Token.opensTune
  let header := Tune.splitApart beyond ts
  let tunes := readTunes beyond header.2
  (⟨header.1, tunes.1⟩, tunes.2)

end Tree
end Tunebook
