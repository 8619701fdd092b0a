import Tunebook.Tree

/-! The edges of a node. The first token and the last that a node finds among its parts, whichever of
these are there, are the ends of all the tokens that it owns, so that its range covers them. -/
namespace Tunebook

namespace Token

theorem cover_eq {ts : List Token} (starts : ts.head? = some first) (ends : ts.getLast? = some last) :
    cover ts = some (between first last) := by
  simp only [cover, starts, ends, between]

theorem exists_cover {ts : List Token} (nonempty : ts ≠ []) : ∃ first last,
    ts.head? = some first ∧ ts.getLast? = some last ∧ cover ts = some (between first last) :=
  ⟨_, _, List.head?_eq_some_head nonempty, List.getLast?_eq_some_getLast nonempty,
    cover_eq (List.head?_eq_some_head nonempty) (List.getLast?_eq_some_getLast nonempty)⟩

/-- The last of some tokens and of one more that may be missing. -/
theorem getLast?_toList (ts : List Token) (t : Option Token) :
    (ts ++ t.toList).getLast? = t.or ts.getLast? := by
  cases t with
  | none => simp
  | some t => simp

end Token

namespace NoteHead

theorem head?_tokens (head : NoteHead) : head.tokens.head? = some head.first := by
  cases head with
  | pitch alteration letter octave => cases alteration <;> rfl
  | rest letter => rfl

theorem getLast?_tokens (head : NoteHead) : head.tokens.getLast? = some head.last := by
  cases head with
  | pitch alteration letter octave => cases octave <;> simp [tokens, last]
  | rest letter => rfl

end NoteHead

/-- Where a rhythm and a tie follow, the last of them that is there comes last. -/
theorem Rhythm.getLast?_tied {ts : List Token} (ends : ts.getLast? = some own) (r : Rhythm)
    (tie : Option Token) : (ts ++ r.tokens ++ tie.toList).getLast? =
      some ((tie.or r.tokens.getLast?).getD own) := by
  rw [Token.getLast?_toList, List.getLast?_append, ends]
  cases tie <;> cases r.tokens.getLast? <;> rfl

namespace Note

theorem head?_tokens (n : Note) : n.tokens.head? = some n.first := by
  rw [tokens, List.append_assoc, List.head?_append, n.head.head?_tokens]
  rfl

theorem getLast?_tokens (n : Note) : n.tokens.getLast? = some n.last :=
  Rhythm.getLast?_tied n.head.getLast?_tokens n.rhythm n.tie

theorem range_eq_cover (n : Note) : n.range = Token.cover n.tokens :=
  (Token.cover_eq n.head?_tokens n.getLast?_tokens).symm

end Note

namespace Chord

theorem getLast?_tokens (c : Chord) : c.tokens.getLast? = some c.last := by
  have ends : (c.left :: c.parts.flatMap ChordPart.tokens ++ [c.right]).getLast? = some c.right := by
    rw [List.getLast?_append]
    rfl
  have parts : c.tokens =
      (c.left :: c.parts.flatMap ChordPart.tokens ++ [c.right]) ++ c.rhythm.tokens ++ c.tie.toList := by
    simp [tokens]
  rw [parts, last]
  exact Rhythm.getLast?_tied ends c.rhythm c.tie

theorem range_eq_cover (c : Chord) : c.range = Token.cover c.tokens :=
  (Token.cover_eq rfl c.getLast?_tokens).symm

end Chord

theorem GraceGroup.getLast?_tokens (g : GraceGroup) : g.tokens.getLast? = some g.right := by
  rw [tokens, List.getLast?_append]
  rfl

theorem GraceGroup.range_eq_cover (g : GraceGroup) : g.range = Token.cover g.tokens :=
  (Token.cover_eq rfl g.getLast?_tokens).symm

theorem InlineField.getLast?_tokens (f : InlineField) : f.tokens.getLast? = some f.last := by
  have text : (f.left :: f.padding ++ f.field :: f.colon :: f.text).getLast? =
      some (f.text.getLast?.getD f.colon) := by
    rw [List.getLast?_append, List.getLast?_cons_cons, List.getLast?_cons]
    rfl
  have parts : f.tokens =
      (f.left :: f.padding ++ f.field :: f.colon :: f.text) ++ f.right.toList := by
    simp [tokens]
  rw [parts, Token.getLast?_toList, text, last]
  cases f.right <;> rfl

namespace Item

theorem head?_tokens (item : Item) : item.tokens.head? = some item.first := by
  cases item with
  | note n => simpa only [tokens, first] using n.head?_tokens
  | _ => simp [tokens, first, Chord.tokens, GraceGroup.tokens, InlineField.tokens]

mutual

theorem getLast?_tokens (item : Item) : item.tokens.getLast? = some item.last := by
  cases item with
  | note n => simpa only [tokens, last] using n.getLast?_tokens
  | chord c => simpa only [tokens, last] using c.getLast?_tokens
  | grace g => simpa only [tokens, last] using g.getLast?_tokens
  | inlineField f => simpa only [tokens, last] using f.getLast?_tokens
  | slur left contents right =>
    rw [tokens, Token.getLast?_toList, List.getLast?_cons, getLast?_tokensOf contents, last]
    cases right <;> rfl
  | multiMeasureRest letter length =>
    cases length <;> rfl
  | spacer letter width =>
    cases width <;> rfl
  | _ => rfl

theorem getLast?_tokensOf (items : List Item) : (tokensOf items).getLast? = lastOf? items := by
  cases items with
  | nil => rfl
  | cons item items =>
    rw [tokensOf, List.getLast?_append, getLast?_tokensOf items, getLast?_tokens item, lastOf?]

end

theorem range_eq_cover (item : Item) : item.range = Token.cover item.tokens :=
  (Token.cover_eq item.head?_tokens item.getLast?_tokens).symm

end Item

namespace InfoLine

theorem getLast?_tokens (l : InfoLine) : l.tokens.getLast? = some l.last := by
  rw [tokens, Token.getLast?_toList, Token.getLast?_toList, List.getLast?_cons, last]
  cases l.eol <;> cases l.comment <;> cases l.value.getLast? <;> rfl

theorem range_eq_cover (l : InfoLine) : l.range = Token.cover l.tokens :=
  (Token.cover_eq rfl l.getLast?_tokens).symm

end InfoLine

namespace CommentLine

theorem getLast?_tokens (l : CommentLine) : l.tokens.getLast? = some l.last := by
  cases l with
  | mk comment eol => cases eol <;> rfl

theorem range_eq_cover (l : CommentLine) : l.range = Token.cover l.tokens :=
  (Token.cover_eq rfl l.getLast?_tokens).symm

end CommentLine

/-- A node that may be empty covers what its edges, if there are any, say. -/
theorem Token.cover_eq_bind (ts : List Token) :
    cover ts = ts.head?.bind fun first => ts.getLast?.bind fun last => some (between first last) := by
  cases ts with
  | nil => rfl
  | cons t ts => rw [cover_eq rfl (List.getLast?_cons ..), List.getLast?_cons]; rfl

namespace MusicLine

theorem tokensOf_contents (l : MusicLine) : Item.tokensOf l.contents = l.tokens := by
  rw [contents, tokens, Item.tokensOf_eq_flatMap, Item.tokensOf_eq_flatMap, List.flatMap_append]
  cases l.eol <;> simp [Item.tokens]

theorem head?_tokens (l : MusicLine) : l.tokens.head? = l.first? := by
  rw [← tokensOf_contents, first?]
  cases l.contents with
  | nil => rfl
  | cons item items =>
    rw [Item.tokensOf, List.head?_append, item.head?_tokens]
    rfl

theorem getLast?_tokens (l : MusicLine) : l.tokens.getLast? = l.last? := by
  rw [← tokensOf_contents, last?, Item.getLast?_tokensOf]

theorem range_eq_cover (l : MusicLine) : l.range = Token.cover l.tokens := by
  rw [Token.cover_eq_bind, l.head?_tokens, l.getLast?_tokens]
  rfl

end MusicLine

namespace BodyLine

theorem head?_tokens (l : BodyLine) : l.tokens.head? = l.first? := by
  cases l with
  | music l => exact l.head?_tokens
  | info l | comment l => rfl

theorem getLast?_tokens (l : BodyLine) : l.tokens.getLast? = l.last? := by
  cases l with
  | music l => exact l.getLast?_tokens
  | info l => exact l.getLast?_tokens
  | comment l => exact l.getLast?_tokens

theorem range_eq_cover (l : BodyLine) : l.range = Token.cover l.tokens := by
  rw [Token.cover_eq_bind, l.head?_tokens, l.getLast?_tokens]
  rfl

end BodyLine

/-- Lines without tokens are passed over on both sides. -/
theorem Tune.bodyRange_eq_cover (t : Tune) : t.bodyRange = Token.cover t.bodyTokens := by
  rw [Token.cover_eq_bind, bodyTokens, List.head?_flatMap, List.getLast?_flatMap]
  simp only [BodyLine.head?_tokens, BodyLine.getLast?_tokens]
  rfl

end Tunebook
