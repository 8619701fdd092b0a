import Tunebook.Grammar.Item
import Tunebook.Tree

/-! Reading lines: information lines, comment lines and music lines, and the body of a tune, which
runs up to a blank line or the next tune. -/
namespace Tunebook

namespace InfoLine

def isValue (k : Kind) : Bool :=
  k matches .freeText | .whitespace

def read (key : Token) (ts : List Token) : InfoLine × List Token :=
  let value := ts.takeWhile (isValue ·.kind)
  let comment := Token.accept Kind.isComment (ts.dropWhile (isValue ·.kind))
  let eol := Token.accept (· = .eol) comment.2
  (⟨key, value, comment.1, eol.1⟩, eol.2)

theorem read_append (key : Token) (ts : List Token) :
    (read key ts).1.tokens ++ (read key ts).2 = key :: ts := by
  simp [read, tokens, Token.accept_append]

theorem length_read_le (key : Token) (ts : List Token) :
    (read key ts).2.length ≤ ts.length := by
  have hlen := congrArg List.length (read_append key ts)
  simp only [tokens, List.length_append, List.length_cons] at hlen
  omega

end InfoLine

namespace CommentLine

def read (comment : Token) (ts : List Token) : CommentLine × List Token :=
  let eol := Token.accept (· = .eol) ts
  (⟨comment, eol.1⟩, eol.2)

theorem read_append (comment : Token) (ts : List Token) :
    (read comment ts).1.tokens ++ (read comment ts).2 = comment :: ts := by
  simp [read, tokens, Token.accept_append]

theorem length_read_le (comment : Token) (ts : List Token) :
    (read comment ts).2.length ≤ ts.length :=
  Token.length_accept_le _ ts

end CommentLine

namespace MusicLine

/-- The kinds before which music ends. A line feed belongs to the line it ends. -/
def isBoundary (k : Kind) : Bool :=
  k = .eol || k = .infoKey || k.isComment

def read (ts : List Token) : Reading MusicLine :=
  let items := Item.readAll false (ts.takeWhile (!isBoundary ·.kind))
  let eol := Token.accept (· = .eol) (ts.dropWhile (!isBoundary ·.kind))
  ⟨⟨items.value, eol.1⟩, items.problems, eol.2⟩

theorem length_read_le (hi : t.kind ≠ .infoKey) (hc : t.kind.isComment = false) :
    (read (t :: ts)).rest.length ≤ ts.length := by
  by_cases he : t.kind = .eol
  · simp [read, Token.accept, isBoundary, he]
  · have hb : isBoundary t.kind = false := by simp [isBoundary, hi, hc, he]
    simp only [read, List.dropWhile_cons, hb]
    exact Nat.le_trans (Token.length_accept_le _ _) (List.dropWhile_sublist _).length_le

end MusicLine

namespace BodyLine

/-- The line that `t` starts. -/
def read (t : Token) (ts : List Token) : Reading BodyLine :=
  if t.kind = .infoKey then
    let line := InfoLine.read t ts
    ⟨.info line.1, [], line.2⟩
  else if t.kind.isComment then
    let line := CommentLine.read t ts
    ⟨.comment line.1, [], line.2⟩
  else
    let line := MusicLine.read (t :: ts)
    ⟨.music line.value, line.problems, line.rest⟩

theorem length_read_le (t : Token) (ts : List Token) : (read t ts).rest.length ≤ ts.length := by
  unfold read
  split
  · exact InfoLine.length_read_le t ts
  · split
    · exact CommentLine.length_read_le t ts
    next hi hc => exact MusicLine.length_read_le hi (by simpa using hc)

end BodyLine

namespace Token

def isSpace (t : Token) : Bool :=
  t.kind = .whitespace

/-- Only spaces are left before the line feed or the end. -/
def startsBlankLine (ts : List Token) : Bool :=
  match ts.dropWhile isSpace with
  | [] => true
  | t :: _ => t.kind = .eol

/-- Splits off the blank lines at the front. -/
def splitBlankLines (ts : List Token) : List Token × List Token :=
  match _h : ts.dropWhile isSpace with
  | [] => (ts, [])
  | t :: rest =>
    if t.kind = .eol then
      let (lines, rest) := splitBlankLines rest
      (ts.takeWhile isSpace ++ t :: lines, rest)
    else ([], ts)
termination_by ts.length
decreasing_by
  have hlen := (List.dropWhile_sublist isSpace (l := ts)).length_le
  rw [_h, List.length_cons] at hlen
  omega

theorem splitBlankLines_of_nil (h : ts.dropWhile isSpace = []) :
    splitBlankLines ts = (ts, []) := by
  rw [splitBlankLines.eq_def]
  split
  · rfl
  next found => cases h.symm.trans found

theorem splitBlankLines_of_eol (h : ts.dropWhile isSpace = t :: rest) (ends : t.kind = .eol) :
    splitBlankLines ts =
      (ts.takeWhile isSpace ++ t :: (splitBlankLines rest).1, (splitBlankLines rest).2) := by
  rw [splitBlankLines.eq_def]
  split
  next found => cases h.symm.trans found
  next found =>
    cases h.symm.trans found
    simp only [ends, if_true]

theorem splitBlankLines_of_visible (h : ts.dropWhile isSpace = t :: rest) (plain : t.kind ≠ .eol) :
    splitBlankLines ts = ([], ts) := by
  rw [splitBlankLines.eq_def]
  split
  next found => cases h.symm.trans found
  next found =>
    cases h.symm.trans found
    rw [if_neg plain]

theorem splitBlankLines_append (ts : List Token) :
    (splitBlankLines ts).1 ++ (splitBlankLines ts).2 = ts := by
  fun_induction splitBlankLines ts with
  | case1 => simp
  | case2 ts t rest h _ lines rest' hr ih =>
    rw [hr] at ih
    simp only [List.append_assoc, List.cons_append, ih]
    rw [← h, List.takeWhile_append_dropWhile]
  | case3 => rfl

theorem splitBlankLines_ne_nil (h : startsBlankLine (t :: ts) = true) :
    (splitBlankLines (t :: ts)).1 ≠ [] := by
  unfold splitBlankLines
  split
  · simp
  next u rest hu =>
    have : u.kind = .eol := by simpa [startsBlankLine, hu] using h
    simp [this]

end Token

namespace Tune

/-- Body lines from the front on. A tune ends before the key that opens another and, where a line
starts, before a blank line. -/
def readBody (atLineStart : Bool) : List Token → Reading (List BodyLine)
  | [] => ⟨[], [], []⟩
  | t :: ts =>
    if t.opensTune || (atLineStart && Token.startsBlankLine (t :: ts)) then ⟨[], [], t :: ts⟩
    else
      let line := BodyLine.read t ts
      let tail := readBody line.value.eol.isSome line.rest
      ⟨line.value :: tail.value, line.problems ++ tail.problems, tail.rest⟩
termination_by ts => ts.length
decreasing_by exact Nat.lt_succ_of_le (BodyLine.length_read_le t ts)

/-- Header lines: information and comment lines up to the first `K:` line. The key that opens a
tune can only come first. -/
def readHeader (isFirst : Bool) : List Token → List HeaderLine × List Token
  | [] => ([], [])
  | t :: ts =>
    if t.kind = .infoKey then
      if t.opensTune && !isFirst then ([], t :: ts)
      else
        let line := InfoLine.read t ts
        if line.1.code = 'K' then ([.info line.1], line.2)
        else
          let tail := readHeader false line.2
          (.info line.1 :: tail.1, tail.2)
    else if t.kind.isComment then
      let line := CommentLine.read t ts
      let tail := readHeader false line.2
      (.comment line.1 :: tail.1, tail.2)
    else ([], t :: ts)
termination_by ts => ts.length
decreasing_by
  · exact Nat.lt_succ_of_le (InfoLine.length_read_le t ts)
  · exact Nat.lt_succ_of_le (CommentLine.length_read_le t ts)

theorem length_readBody_le (atLineStart : Bool) (ts : List Token) :
    (readBody atLineStart ts).rest.length ≤ ts.length := by
  fun_induction readBody atLineStart ts with
  | case1 => simp
  | case2 => simp
  | case3 _ t ts _ line tail ih =>
    exact Nat.le_succ_of_le (Nat.le_trans ih (BodyLine.length_read_le t ts))

theorem length_readHeader_le (isFirst : Bool) (ts : List Token) :
    (readHeader isFirst ts).2.length ≤ ts.length := by
  fun_induction readHeader isFirst ts with
  | case1 => simp
  | case2 => simp
  | case3 _ t ts => exact Nat.le_succ_of_le (InfoLine.length_read_le t ts)
  | case4 _ t ts _ _ _ _ _ ih =>
    exact Nat.le_succ_of_le (Nat.le_trans ih (InfoLine.length_read_le t ts))
  | case5 _ t ts _ _ _ _ ih =>
    exact Nat.le_succ_of_le (Nat.le_trans ih (CommentLine.length_read_le t ts))
  | case6 => simp

end Tune
end Tunebook
