import Tunebook.Grammar.Note
import Tunebook.Tree.Item

/-! Reading the items of one line.

    item  := bar | repeat | quoted text | symbol | decoration | note | chord | grace group
           | slur | inline field | multi-measure rest | spacer | bare token
    field := '[' space* letter ':' token* ']'
    slur  := '(' item* ')'

A parenthesis opens a slur if the line has one to match it. Inside a slur an inline field ends at a
closing parenthesis too, so that the slur keeps its end. -/
namespace Tunebook

namespace InlineField

/-- The kinds of a field's letter. -/
def isLetter (k : Kind) : Bool :=
  k matches .noteLetter | .restLetter | .multiMeasureRest | .spacerLetter | .letter

/-- The kinds that end the text of a field. -/
def endsText (inSlur : Bool) (k : Kind) : Bool :=
  k = .rightBracket || k = .antislashEol || (inSlur && k = .rightParen)

/-- The field that the bracket `left` opens, if it opens one. -/
def read? (inSlur : Bool) (left : Token) (ts : List Token) : Option (Reading InlineField) :=
  match ts.dropWhile (·.kind = .whitespace) with
  | field :: colon :: rest =>
    if isLetter field.kind && colon.kind = .colon then
      let padding := ts.takeWhile (·.kind = .whitespace)
      let text := rest.takeWhile (!endsText inSlur ·.kind)
      let (right, rest) :=
        Token.accept (· = .rightBracket) (rest.dropWhile (!endsText inSlur ·.kind))
      some ⟨⟨left, padding, field, colon, text, right⟩,
        if right.isNone then [⟨.unterminatedInlineField, left⟩] else [], rest⟩
    else none
  | _ => none

theorem read?_append (h : read? inSlur t ts = some r) :
    r.value.tokens ++ r.rest = t :: ts := by
  unfold read? at h
  split at h
  next field colon rest heq =>
    split at h
    · simp only [Option.some.injEq] at h
      subst h
      simp only [tokens, List.cons_append, List.append_assoc, Token.accept_append,
        List.takeWhile_append_dropWhile]
      rw [← heq, List.takeWhile_append_dropWhile]
    · simp at h
  · simp at h

end InlineField

namespace Item

/-- A token that no production takes. -/
def bare (t : Token) (ts : List Token) (fault : Option Fault) : Reading Item :=
  ⟨.token t, fault.toList.map (⟨·, t⟩), ts⟩

def plain (item : Item) (ts : List Token) : Reading Item :=
  ⟨item, [], ts⟩

/-- What a bracket opens. -/
def readBracket (inSlur : Bool) (t : Token) (ts : List Token) : Reading Item :=
  match InlineField.read? inSlur t ts with
  | some r => ⟨.inlineField r.value, r.problems, r.rest⟩
  | none =>
    match Chord.read? t ts with
    | some r => ⟨.chord r.value, r.problems, r.rest⟩
    | none => bare t ts (some .unterminatedChord)

def readBrace (t : Token) (ts : List Token) : Reading Item :=
  match GraceGroup.read? t ts with
  | some r => ⟨.grace r.value, r.problems, r.rest⟩
  | none => bare t ts (some .unterminatedGraceGroup)

def readNote (t : Token) (ts : List Token) : Reading Item :=
  match Note.read? t ts with
  | some (n, rest) => plain (.note n) rest
  | none => bare t ts (some .danglingAccidental)

/-- The item that `t` starts, slurs apart. -/
def read (inSlur : Bool) (t : Token) (ts : List Token) : Reading Item :=
  match t.kind with
  | .nthRepeat => plain (.nthRepeat t) ts
  | .quotedText => plain (.quotedText t) ts
  | .symbol => plain (.symbol t) ts
  | .dot | .tilde => plain (.decoration t) ts
  | .letter =>
    if t.isDecorationLetter then plain (.decoration t) ts else bare t ts (some .unknownLetter)
  | .multiMeasureRest =>
    let number := Token.accept (· = .number) ts
    plain (.multiMeasureRest t number.1) number.2
  | .spacerLetter =>
    let number := Token.accept (· = .number) ts
    plain (.spacer t number.1) number.2
  | .leftBracket => readBracket inSlur t ts
  | .leftBrace => readBrace t ts
  | .number | .slash | .greater | .less => bare t ts (some .detachedRhythm)
  | .minus => bare t ts (some .detachedTie)
  | .rightBracket | .rightBrace => bare t ts (some .unmatchedBracket)
  | kind =>
    if kind.isBarline then plain (.barline t) ts
    else if kind.startsNote then readNote t ts
    else bare t ts none

theorem bare_append (t : Token) (ts : List Token) (fault : Option Fault) :
    (bare t ts fault).value.tokens ++ (bare t ts fault).rest = t :: ts := by
  simp [bare, tokens]

theorem readBracket_append (inSlur : Bool) (t : Token) (ts : List Token) :
    (readBracket inSlur t ts).value.tokens ++ (readBracket inSlur t ts).rest = t :: ts := by
  unfold readBracket
  split
  next h => simpa only [tokens] using InlineField.read?_append h
  · split
    next h => simpa only [tokens] using Chord.read?_append h
    · exact bare_append t ts _

theorem readBrace_append (t : Token) (ts : List Token) :
    (readBrace t ts).value.tokens ++ (readBrace t ts).rest = t :: ts := by
  unfold readBrace
  split
  next h => simpa only [tokens] using GraceGroup.read?_append h
  · exact bare_append t ts _

theorem readNote_append (t : Token) (ts : List Token) :
    (readNote t ts).value.tokens ++ (readNote t ts).rest = t :: ts := by
  unfold readNote
  split
  next h => simpa only [plain, tokens] using Note.read?_append h
  · exact bare_append t ts _

/-- An item and what it leaves are the tokens it was read from. -/
theorem read_append (inSlur : Bool) (t : Token) (ts : List Token) :
    (read inSlur t ts).value.tokens ++ (read inSlur t ts).rest = t :: ts := by
  unfold read
  split <;> (try split) <;> (try split) <;>
    simp [plain, tokens, bare_append, readBracket_append, readBrace_append, readNote_append,
      Token.accept_append]

theorem tokens_ne_nil (item : Item) : item.tokens ≠ [] := by
  cases item <;> simp [tokens, Note.tokens, NoteHead.tokens_ne_nil, Chord.tokens,
    GraceGroup.tokens, InlineField.tokens]

theorem length_read_le (inSlur : Bool) (t : Token) (ts : List Token) :
    (read inSlur t ts).rest.length ≤ ts.length := by
  have hlen := congrArg List.length (read_append inSlur t ts)
  have hpos := List.length_pos_iff.2 (read inSlur t ts).value.tokens_ne_nil
  simp only [List.length_append, List.length_cons] at hlen
  omega

/-- Whether a parenthesis with `depth` others open inside it is closed. -/
def isClosed : Nat → List Token → Bool
  | _, [] => false
  | depth, t :: ts =>
    if t.kind = .leftParen then isClosed (depth + 1) ts
    else if t.kind = .rightParen then
      match depth with
      | 0 => true
      | depth + 1 => isClosed depth ts
    else isClosed depth ts

/-- Items up to the end of the tokens or, inside a slur, up to a closing parenthesis. -/
def readBounded (inSlur : Bool) :
    (ts : List Token) → { r : Reading (List Item) // r.rest.length ≤ ts.length }
  | [] => ⟨⟨[], [], []⟩, Nat.le_refl _⟩
  | t :: ts =>
    if inSlur && t.kind = .rightParen then ⟨⟨[], [], t :: ts⟩, Nat.le_refl _⟩
    else if t.kind = .leftParen && isClosed 0 ts then
      let ⟨inner, hinner⟩ := readBounded true ts
      let close := Token.accept (· = .rightParen) inner.rest
      have hclose : close.2.length ≤ ts.length :=
        Nat.le_trans (Token.length_accept_le _ _) hinner
      let ⟨tail, htail⟩ := readBounded inSlur close.2
      ⟨⟨.slur t inner.value close.1 :: tail.value, inner.problems ++ tail.problems, tail.rest⟩,
        Nat.le_succ_of_le (Nat.le_trans htail hclose)⟩
    else
      let item := read inSlur t ts
      have hitem : item.rest.length ≤ ts.length := length_read_le inSlur t ts
      let ⟨tail, htail⟩ := readBounded inSlur item.rest
      ⟨⟨item.value :: tail.value, item.problems ++ tail.problems, tail.rest⟩,
        Nat.le_succ_of_le (Nat.le_trans htail hitem)⟩
termination_by ts => ts.length
decreasing_by
  · simp
  · exact Nat.lt_succ_of_le hclose
  · exact Nat.lt_succ_of_le hitem

def readAll (inSlur : Bool) (ts : List Token) : Reading (List Item) :=
  (readBounded inSlur ts).val

theorem readAll_nil (inSlur : Bool) : readAll inSlur [] = ⟨[], [], []⟩ := by
  simp [readAll, readBounded]

theorem readAll_stop (h : t.kind = .rightParen) : readAll true (t :: ts) = ⟨[], [], t :: ts⟩ := by
  simp [readAll, readBounded, h]

theorem readAll_slur (h : t.kind = .leftParen) (hc : isClosed 0 ts = true) :
    readAll inSlur (t :: ts) =
      let inner := readAll true ts
      let close := Token.accept (· = .rightParen) inner.rest
      let tail := readAll inSlur close.2
      ⟨.slur t inner.value close.1 :: tail.value, inner.problems ++ tail.problems, tail.rest⟩ := by
  rw [readAll, readBounded]
  simp [h, hc, readAll]

theorem readAll_item (hr : (inSlur && t.kind = .rightParen) = false)
    (hl : (t.kind = .leftParen && isClosed 0 ts) = false) :
    readAll inSlur (t :: ts) =
      let item := read inSlur t ts
      let tail := readAll inSlur item.rest
      ⟨item.value :: tail.value, item.problems ++ tail.problems, tail.rest⟩ := by
  rw [readAll, readBounded]
  simp only [hr, hl, readAll]
  rfl

theorem length_readAll_le (inSlur : Bool) (ts : List Token) :
    (readAll inSlur ts).rest.length ≤ ts.length :=
  (readBounded inSlur ts).property

end Item
end Tunebook
