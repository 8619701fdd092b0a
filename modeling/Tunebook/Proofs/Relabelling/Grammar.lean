import Tunebook.Proofs.Conservation
import Tunebook.Proofs.Relabelling.Tree

/-! Reading does not look at places: tokens with the same kinds and texts are read alike, and what is
built of them is the same up to the tokens themselves. -/
namespace Tunebook

variable {f : Token → Token}

namespace Token.Relabels

variable (hf : Token.Relabels f)
include hf

theorem opensTune (t : Token) : (f t).opensTune = t.opensTune := by
  simp only [Token.opensTune, hf.kind, hf.lexeme]

theorem isDecorationLetter (t : Token) : (f t).isDecorationLetter = t.isDecorationLetter := by
  simp only [Token.isDecorationLetter, hf.lexeme]

theorem takeWhile_kind (p : Kind → Bool) (ts : List Token) :
    (ts.map f).takeWhile (p ·.kind) = (ts.takeWhile (p ·.kind)).map f := by
  simp only [List.takeWhile_map, Function.comp_def, hf.kind]

theorem dropWhile_kind (p : Kind → Bool) (ts : List Token) :
    (ts.map f).dropWhile (p ·.kind) = (ts.dropWhile (p ·.kind)).map f := by
  simp only [List.dropWhile_map, Function.comp_def, hf.kind]

theorem accept (p : Kind → Bool) (ts : List Token) :
    Token.accept p (ts.map f) = ((Token.accept p ts).1.map f, (Token.accept p ts).2.map f) := by
  cases ts with
  | nil => rfl
  | cons t ts =>
    simp only [Token.accept, List.map_cons, hf.kind]
    split <;> rfl

theorem splitClose (close : Kind) (admits : Kind → Bool) (ts : List Token) :
    Token.splitClose close admits (ts.map f) =
      (Token.splitClose close admits ts).map fun (inside, right, rest) =>
        (inside.map f, f right, rest.map f) := by
  induction ts with
  | nil => rfl
  | cons t ts ih =>
    simp only [Token.splitClose, List.map_cons, hf.kind, ih]
    split
    · rfl
    · split
      · simp [Function.comp_def]
      · rfl

theorem readRhythm (ts : List Token) :
    Rhythm.read (ts.map f) = ((Rhythm.read ts).1.map f, (Rhythm.read ts).2.map f) := by
  simp only [Rhythm.read, hf.accept, Option.isSome_map]
  split <;> simp [Rhythm.map, hf.accept]

theorem readTied (ts : List Token) :
    Rhythm.readTied (ts.map f) =
      ((Rhythm.readTied ts).1.map f, (Rhythm.readTied ts).2.1.map f,
        (Rhythm.readTied ts).2.2.map f) := by
  simp only [Rhythm.readTied, hf.readRhythm, hf.accept]

theorem readPitch (alteration : Option Token) (letter : Token) (ts : List Token) :
    Note.readPitch (alteration.map f) (f letter) (ts.map f) =
      ((Note.readPitch alteration letter ts).1.map f,
        (Note.readPitch alteration letter ts).2.map f) := by
  simp only [Note.readPitch, Note.finish, hf.accept, hf.readTied, Note.map, NoteHead.map]

theorem readNote? (t : Token) (ts : List Token) :
    Note.read? (f t) (ts.map f) =
      (Note.read? t ts).map fun (n, rest) => (n.map f, rest.map f) := by
  simp only [Note.read?, hf.kind]
  split
  · cases ts with
    | nil => rfl
    | cons letter ts =>
      simp only [List.map_cons, hf.kind]
      split
      · exact congrArg some (hf.readPitch (some t) letter ts)
      · rfl
  · split
    · exact congrArg some (hf.readPitch none t ts)
    · simp only [Note.finish, hf.readTied, Option.map_some, Note.map, NoteHead.map]

theorem chordFault? (t : Token) : Chord.fault? (f t) = Chord.fault? t := by
  simp only [Chord.fault?, hf.kind, hf.isDecorationLetter]

theorem readChordParts (ts : List Token) :
    Chord.readParts (ts.map f) =
      ((Chord.readParts ts).1.map (ChordPart.map f),
        (Chord.readParts ts).2.map (Problem.map f)) := by
  fun_induction Chord.readParts ts with
  | case1 => simp [Chord.readParts]
  | case2 t ts starts note rest read parts problems tail ih =>
    have mapped : Note.read? (f t) (ts.map f) = some (note.map f, rest.map f) := by
      rw [hf.readNote?, read, Option.map_some]
    rw [List.map_cons, Chord.readParts_note (by rwa [hf.kind]) mapped, ih, tail]
    rfl
  | case3 t ts starts read parts problems tail ih =>
    have mapped : Note.read? (f t) (ts.map f) = none := by rw [hf.readNote?, read, Option.map_none]
    rw [List.map_cons, Chord.readParts_dangling (by rwa [hf.kind]) mapped, ih, tail]
    rfl
  | case4 t ts starts quoted parts problems tail ih =>
    rw [List.map_cons, Chord.readParts_quotedText (by rwa [hf.kind]), ih, tail]
    rfl
  | case5 t ts starts quoted parts problems tail ih =>
    have other : (f t).kind.startsNote = false := by rw [hf.kind]; simpa using starts
    rw [List.map_cons, Chord.readParts_token other (by rwa [hf.kind]), ih, tail, hf.chordFault?]
    cases Chord.fault? t <;> rfl

theorem readChord? (t : Token) (ts : List Token) :
    Chord.read? (f t) (ts.map f) = (Chord.read? t ts).map (Reading.map f (Chord.map f)) := by
  simp only [Chord.read?, hf.splitClose, Option.map_map]
  congr 1
  funext ⟨inside, right, rest⟩
  have notes := Chord.notes_map f ⟨t, (Chord.readParts inside).1, right,
    (Rhythm.readTied rest).1, (Rhythm.readTied rest).2.1⟩
  simp only [Chord.map] at notes
  simp only [Function.comp, hf.readChordParts, hf.readTied, notes, Reading.map, Chord.map,
    List.map_append, List.isEmpty_map]
  split <;> rfl

theorem chord? (t : Token) (ts : List Token) :
    GraceGroup.chord? (f t) (ts.map f) =
      (GraceGroup.chord? t ts).map (Reading.map f (Chord.map f)) := by
  simp only [GraceGroup.chord?, hf.kind, hf.readChord?]
  split <;> rfl

theorem readGraceParts (ts : List Token) :
    GraceGroup.readParts (ts.map f) =
      ((GraceGroup.readParts ts).1.map (GracePart.map f),
        (GraceGroup.readParts ts).2.map (Problem.map f)) := by
  fun_induction GraceGroup.readParts ts with
  | case1 => simp [GraceGroup.readParts]
  | case2 t ts starts note rest read parts problems tail ih =>
    have mapped : Note.read? (f t) (ts.map f) = some (note.map f, rest.map f) := by
      rw [hf.readNote?, read, Option.map_some]
    rw [List.map_cons, GraceGroup.readParts_note (by rwa [hf.kind]) mapped, ih, tail]
    rfl
  | case3 t ts starts read parts problems tail ih =>
    have mapped : Note.read? (f t) (ts.map f) = none := by rw [hf.readNote?, read, Option.map_none]
    rw [List.map_cons, GraceGroup.readParts_dangling (by rwa [hf.kind]) mapped, ih, tail]
    rfl
  | case4 t ts starts chord read parts problems tail ih =>
    have other : (f t).kind.startsNote = false := by rw [hf.kind]; simpa using starts
    have mapped : GraceGroup.chord? (f t) (ts.map f) = some (chord.map f (Chord.map f)) := by
      rw [hf.chord?, read, Option.map_some]
    rw [tail] at ih
    rw [List.map_cons, GraceGroup.readParts_chord other mapped]
    simp [Reading.map, ih, GracePart.map, Problem.map]
  | case5 t ts starts read parts problems tail ih =>
    have other : (f t).kind.startsNote = false := by rw [hf.kind]; simpa using starts
    have mapped : GraceGroup.chord? (f t) (ts.map f) = none := by
      rw [hf.chord?, read, Option.map_none]
    rw [List.map_cons, GraceGroup.readParts_token other mapped, ih, tail, hf.kind]
    split <;> rfl

theorem readGrace? (t : Token) (ts : List Token) :
    GraceGroup.read? (f t) (ts.map f) =
      (GraceGroup.read? t ts).map (Reading.map f (GraceGroup.map f)) := by
  simp only [GraceGroup.read?, hf.splitClose, Option.map_map]
  congr 1
  funext ⟨inside, right, rest⟩
  simp only [Function.comp, hf.accept, hf.readGraceParts, Reading.map, GraceGroup.map]

theorem readInlineField? (inSlur : Bool) (t : Token) (ts : List Token) :
    InlineField.read? inSlur (f t) (ts.map f) =
      (InlineField.read? inSlur t ts).map (Reading.map f (InlineField.map f)) := by
  simp only [InlineField.read?, hf.dropWhile_kind (· = .whitespace)]
  cases ts.dropWhile (·.kind = .whitespace) with
  | nil => rfl
  | cons field rest =>
    cases rest with
    | nil => rfl
    | cons colon rest =>
      simp only [List.map_cons, hf.kind]
      split
      · simp only [hf.takeWhile_kind (· = .whitespace),
          hf.takeWhile_kind (!InlineField.endsText inSlur ·),
          hf.dropWhile_kind (!InlineField.endsText inSlur ·), hf.accept, Option.isNone_map,
          Option.map_some, Reading.map, InlineField.map]
        split <;> rfl
      · rfl

theorem readItem (inSlur : Bool) (t : Token) (ts : List Token) :
    Item.read inSlur (f t) (ts.map f) = (Item.read inSlur t ts).map f (Item.map f) := by
  have bracket : Item.readBracket inSlur (f t) (ts.map f) =
      (Item.readBracket inSlur t ts).map f (Item.map f) := by
    simp only [Item.readBracket, hf.readInlineField?, hf.readChord?]
    cases InlineField.read? inSlur t ts with
    | some r => rfl
    | none => cases Chord.read? t ts <;> rfl
  have brace : Item.readBrace (f t) (ts.map f) = (Item.readBrace t ts).map f (Item.map f) := by
    simp only [Item.readBrace, hf.readGrace?]
    cases GraceGroup.read? t ts <;> rfl
  have note : Item.readNote (f t) (ts.map f) = (Item.readNote t ts).map f (Item.map f) := by
    simp only [Item.readNote, hf.readNote?]
    cases Note.read? t ts <;> rfl
  simp only [Item.read, hf.kind, hf.isDecorationLetter, hf.accept]
  split <;> (try split) <;> (try split) <;> first | rfl | exact bracket | exact brace | exact note

theorem isClosed (depth : Nat) (ts : List Token) :
    Item.isClosed depth (ts.map f) = Item.isClosed depth ts := by
  induction ts generalizing depth with
  | nil => rfl
  | cons t ts ih =>
    simp only [List.map_cons, Item.isClosed, hf.kind, ih]

theorem readAll (inSlur : Bool) (ts : List Token) :
    Item.readAll inSlur (ts.map f) = (Item.readAll inSlur ts).map f (Item.mapAll f) := by
  induction inSlur, ts using Item.readAll_induct with
  | nil inSlur => simp [Item.readAll_nil, Reading.map, Item.mapAll]
  | stop t ts hr =>
    have mapped : (f t).kind = .rightParen := by rw [hf.kind, hr]
    rw [List.map_cons, Item.readAll_stop mapped, Item.readAll_stop hr]
    rfl
  | slur inSlur t ts hl hc inner tail =>
    have mapped : (f t).kind = .leftParen := by rw [hf.kind, hl]
    have closed : Item.isClosed 0 (ts.map f) = true := by rw [hf.isClosed, hc]
    rw [List.map_cons, Item.readAll_slur mapped closed, Item.readAll_slur hl hc]
    simp only [inner, Reading.map, hf.accept, tail, Item.mapAll, Item.map, List.map_append]
  | item inSlur t ts hr hl tail =>
    rw [List.map_cons, Item.readAll_item (by rwa [hf.kind]) (by rwa [hf.kind, hf.isClosed]),
      Item.readAll_item hr hl]
    simp only [hf.readItem, Reading.map, tail, Item.mapAll, List.map_append]

end Token.Relabels
end Tunebook
