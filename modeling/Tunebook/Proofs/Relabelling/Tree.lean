import Tunebook.Grammar

/-! Trees with every token replaced by another, node by node, and so in the lists of their tokens. -/
namespace Tunebook

/-- Kind and text stay; the grammar looks at nothing else. -/
structure Token.Relabels (f : Token → Token) : Prop where
  kind (t : Token) : (f t).kind = t.kind
  lexeme (t : Token) : (f t).lexeme = t.lexeme

def Problem.map (f : Token → Token) (p : Problem) : Problem :=
  ⟨p.fault, f p.token⟩

def Rhythm.map (f : Token → Token) (r : Rhythm) : Rhythm :=
  ⟨r.numerator.map f, r.separator.map f, r.denominator.map f, r.broken.map f⟩

def NoteHead.map (f : Token → Token) : NoteHead → NoteHead
  | pitch alteration letter octave => pitch (alteration.map f) (f letter) (octave.map f)
  | rest letter => rest (f letter)

def Note.map (f : Token → Token) (n : Note) : Note :=
  ⟨n.head.map f, n.rhythm.map f, n.tie.map f⟩

def ChordPart.map (f : Token → Token) : ChordPart → ChordPart
  | note n => note (n.map f)
  | quotedText t => quotedText (f t)
  | token t => token (f t)

def Chord.map (f : Token → Token) (c : Chord) : Chord :=
  ⟨f c.left, c.parts.map (ChordPart.map f), f c.right, c.rhythm.map f, c.tie.map f⟩

theorem Chord.notes_map (f : Token → Token) (c : Chord) :
    (c.map f).notes = c.notes.map (Note.map f) := by
  simp only [notes, map, List.filterMap_map, List.map_filterMap]
  congr 1
  funext part
  cases part <;> rfl

def GracePart.map (f : Token → Token) : GracePart → GracePart
  | note n => note (n.map f)
  | chord c => chord (c.map f)
  | token t => token (f t)

def GraceGroup.map (f : Token → Token) (g : GraceGroup) : GraceGroup :=
  ⟨f g.left, g.slash.map f, g.parts.map (GracePart.map f), f g.right⟩

def InlineField.map (f : Token → Token) (i : InlineField) : InlineField :=
  ⟨f i.left, i.padding.map f, f i.field, f i.colon, i.text.map f, i.right.map f⟩

mutual

def Item.map (f : Token → Token) : Item → Item
  | .token t => .token (f t)
  | .barline t => .barline (f t)
  | .quotedText t => .quotedText (f t)
  | .decoration t => .decoration (f t)
  | .symbol t => .symbol (f t)
  | .nthRepeat t => .nthRepeat (f t)
  | .note n => .note (n.map f)
  | .chord c => .chord (c.map f)
  | .grace g => .grace (g.map f)
  | .slur left contents right => .slur (f left) (Item.mapAll f contents) (right.map f)
  | .multiMeasureRest letter length => .multiMeasureRest (f letter) (length.map f)
  | .inlineField i => .inlineField (i.map f)
  | .spacer letter width => .spacer (f letter) (width.map f)

def Item.mapAll (f : Token → Token) : List Item → List Item
  | [] => []
  | item :: items => item.map f :: Item.mapAll f items

end

theorem Rhythm.tokens_map (f : Token → Token) (r : Rhythm) :
    (r.map f).tokens = r.tokens.map f := by
  simp only [tokens, lengthTokens, map, List.map_append, Option.toList_map]

theorem NoteHead.tokens_map (f : Token → Token) (head : NoteHead) :
    (head.map f).tokens = head.tokens.map f := by
  cases head with
  | pitch alteration letter octave =>
    simp only [map, tokens, List.map_append, List.map_cons, Option.toList_map]
  | rest letter => rfl

theorem Note.tokens_map (f : Token → Token) (n : Note) : (n.map f).tokens = n.tokens.map f := by
  simp only [tokens, map, NoteHead.tokens_map, Rhythm.tokens_map, List.map_append, Option.toList_map]

theorem Chord.tokens_map (f : Token → Token) (c : Chord) : (c.map f).tokens = c.tokens.map f := by
  have part (p : ChordPart) : (p.map f).tokens = p.tokens.map f := by
    cases p with
    | note n => exact n.tokens_map f
    | quotedText t | token t => rfl
  simp only [tokens, map, Rhythm.tokens_map, List.map_append, List.map_cons, Option.toList_map,
    List.flatMap_map, List.map_flatMap, part]

theorem GraceGroup.tokens_map (f : Token → Token) (g : GraceGroup) :
    (g.map f).tokens = g.tokens.map f := by
  have part (p : GracePart) : (p.map f).tokens = p.tokens.map f := by
    cases p with
    | note n => exact n.tokens_map f
    | chord c => exact c.tokens_map f
    | token t => rfl
  simp only [tokens, map, List.map_append, List.map_cons, List.map_nil, Option.toList_map,
    List.flatMap_map, List.map_flatMap, part]

theorem InlineField.tokens_map (f : Token → Token) (i : InlineField) :
    (i.map f).tokens = i.tokens.map f := by
  simp only [tokens, map, List.map_append, List.map_cons, Option.toList_map]

mutual

theorem Item.tokens_map (f : Token → Token) (item : Item) :
    (item.map f).tokens = item.tokens.map f := by
  cases item with
  | note n => exact n.tokens_map f
  | chord c => exact c.tokens_map f
  | grace g => exact g.tokens_map f
  | inlineField i => exact i.tokens_map f
  | slur left contents right =>
    simp only [map, tokens, Item.tokensOf_mapAll f contents, List.map_append, List.map_cons,
      Option.toList_map]
  | _ => simp only [map, tokens, List.map_cons, List.map_nil, Option.toList_map]

theorem Item.tokensOf_mapAll (f : Token → Token) (items : List Item) :
    Item.tokensOf (Item.mapAll f items) = (Item.tokensOf items).map f := by
  cases items with
  | nil => simp only [mapAll, tokensOf, List.map_nil]
  | cons item items =>
    simp only [mapAll, tokensOf, Item.tokens_map f item, Item.tokensOf_mapAll f items,
      List.map_append]

end

def InfoLine.map (f : Token → Token) (l : InfoLine) : InfoLine :=
  ⟨f l.key, l.value.map f, l.comment.map f, l.eol.map f⟩

def CommentLine.map (f : Token → Token) (l : CommentLine) : CommentLine :=
  ⟨f l.comment, l.eol.map f⟩

def MusicLine.map (f : Token → Token) (l : MusicLine) : MusicLine :=
  ⟨Item.mapAll f l.items, l.eol.map f⟩

def HeaderLine.map (f : Token → Token) : HeaderLine → HeaderLine
  | info l => info (l.map f)
  | comment l => comment (l.map f)

def BodyLine.map (f : Token → Token) : BodyLine → BodyLine
  | music l => music (l.map f)
  | info l => info (l.map f)
  | comment l => comment (l.map f)

def Tune.map (f : Token → Token) (t : Tune) : Tune :=
  ⟨t.header.map (HeaderLine.map f), t.body.map (BodyLine.map f), t.trailing.map f⟩

def Tree.map (f : Token → Token) (t : Tree) : Tree :=
  ⟨t.header.map f, t.tunes.map (Tune.map f)⟩

/-- A reading with its tokens replaced, and what it built as `g` says. -/
def Reading.map (f : Token → Token) (g : α → β) (r : Reading α) : Reading β :=
  ⟨g r.value, r.problems.map (Problem.map f), r.rest.map f⟩

end Tunebook
