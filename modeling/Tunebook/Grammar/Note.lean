import Tunebook.Grammar.Reading
import Tunebook.Tree.Note

/-! Reading notes, chords and grace groups.

    rhythm := number? (slashes number?)? broken?
    note   := (accidental? letter octave? | rest) rhythm tie?
    chord  := '[' (note | quoted text | space | decoration)* ']' rhythm tie?
    grace  := '{' slash? (note | space)* '}'

A bracket opens a chord only if it is closed with nothing in between that a chord cannot hold, and
a brace opens a grace group on the same terms. What is out of place between them is kept as a bare
token and reported. -/
namespace Tunebook

def Rhythm.read (ts : List Token) : Rhythm × List Token :=
  let (numerator, ts) := Token.accept (· = .number) ts
  let (separator, ts) := Token.accept (· = .slash) ts
  let (denominator, ts) :=
    if separator.isSome then Token.accept (· = .number) ts else (none, ts)
  let (broken, ts) := Token.accept (fun k => k = .greater || k = .less) ts
  (⟨numerator, separator, denominator, broken⟩, ts)

theorem Rhythm.read_append (ts : List Token) :
    (Rhythm.read ts).1.tokens ++ (Rhythm.read ts).2 = ts := by
  simp only [Rhythm.read, Rhythm.tokens, Rhythm.lengthTokens]
  split <;> simp [Token.accept_append]

/-- The rhythm and the tie after a head or a closing bracket. -/
def Rhythm.readTied (ts : List Token) : Rhythm × Option Token × List Token :=
  let (rhythm, ts) := Rhythm.read ts
  let (tie, ts) := Token.accept (· = .minus) ts
  (rhythm, tie, ts)

theorem Rhythm.readTied_append (ts : List Token) :
    (readTied ts).1.tokens ++ (readTied ts).2.1.toList ++ (readTied ts).2.2 = ts := by
  simp only [readTied, List.append_assoc, Token.accept_append, Rhythm.read_append]

def Note.finish (head : NoteHead) (ts : List Token) : Note × List Token :=
  let (rhythm, tie, ts) := Rhythm.readTied ts
  (⟨head, rhythm, tie⟩, ts)

theorem Note.finish_append (head : NoteHead) (ts : List Token) :
    (finish head ts).1.tokens ++ (finish head ts).2 = head.tokens ++ ts := by
  have h := Rhythm.readTied_append ts
  simp only [finish, Note.tokens, List.append_assoc] at h ⊢
  rw [h]

/-- A pitch from its letter on. -/
def Note.readPitch (alteration : Option Token) (letter : Token) (ts : List Token) :
    Note × List Token :=
  let (octave, ts) := Token.accept (fun k => k = .apostrophe || k = .comma) ts
  Note.finish (.pitch alteration letter octave) ts

theorem Note.readPitch_append (alteration : Option Token) (letter : Token) (ts : List Token) :
    (readPitch alteration letter ts).1.tokens ++ (readPitch alteration letter ts).2 =
      alteration.toList ++ letter :: ts := by
  simp [readPitch, Note.finish_append, NoteHead.tokens, Token.accept_append]

/-- The note that `t` starts. There is none if `t` is an accidental with no letter after it. -/
def Note.read? (t : Token) (ts : List Token) : Option (Note × List Token) :=
  if t.kind.isAccidental then
    match ts with
    | letter :: ts =>
      if letter.kind = .noteLetter then some (Note.readPitch (some t) letter ts) else none
    | [] => none
  else if t.kind = .noteLetter then some (Note.readPitch none t ts)
  else some (Note.finish (.rest t) ts)

theorem Note.read?_append (h : Note.read? t ts = some (note, rest)) :
    note.tokens ++ rest = t :: ts := by
  unfold Note.read? at h
  split at h
  · split at h
    next letter ts =>
      split at h
      · have := Note.readPitch_append (some t) letter ts
        simp_all
      · simp at h
    · simp at h
  · split at h
    · have := Note.readPitch_append none t ts
      simp_all
    · have := Note.finish_append (.rest t) ts
      simp_all [NoteHead.tokens]

theorem NoteHead.tokens_ne_nil (head : NoteHead) : head.tokens ≠ [] := by
  cases head <;> simp [NoteHead.tokens]

theorem Note.length_read?_le (h : Note.read? t ts = some (note, rest)) :
    rest.length ≤ ts.length := by
  have hlen := congrArg List.length (Note.read?_append h)
  have hpos := List.length_pos_iff.2 note.head.tokens_ne_nil
  simp only [Note.tokens, List.length_append, List.length_cons] at hlen
  omega

namespace Chord

/-- What may stand between the brackets of a chord, in place or not. -/
def admits (k : Kind) : Bool :=
  k.startsNote || k.isRhythm ||
    k matches .apostrophe | .comma | .minus | .whitespace | .quotedText | .dot | .tilde | .symbol
      | .letter

/-- What is wrong with a bare token in a chord. -/
def fault? (t : Token) : Option Fault :=
  if t.kind.isRhythm || t.kind = .minus then some .detachedRhythmInChord
  else if t.kind = .letter && !t.isDecorationLetter then some .unknownLetterInChord
  else none

def readParts : List Token → List ChordPart × List Problem
  | [] => ([], [])
  | t :: ts =>
    if t.kind.startsNote then
      match _h : Note.read? t ts with
      | some (note, rest) =>
        let (parts, problems) := readParts rest
        (.note note :: parts, problems)
      | none =>
        let (parts, problems) := readParts ts
        (.token t :: parts, ⟨.danglingAccidental, t⟩ :: problems)
    else if t.kind = .quotedText then
      let (parts, problems) := readParts ts
      (.quotedText t :: parts, problems)
    else
      let (parts, problems) := readParts ts
      (.token t :: parts, (fault? t).toList.map (⟨·, t⟩) ++ problems)
termination_by ts => ts.length
decreasing_by
  · have := Note.length_read?_le _h
    simp only [List.length_cons]
    omega
  · simp
  · simp
  · simp

theorem readParts_note (hs : t.kind.startsNote = true) (hr : Note.read? t ts = some (note, rest)) :
    readParts (t :: ts) = (.note note :: (readParts rest).1, (readParts rest).2) := by
  rw [readParts, if_pos hs]
  split
  next h => cases hr.symm.trans h; rfl
  next h => cases hr.symm.trans h

theorem readParts_dangling (hs : t.kind.startsNote = true) (hr : Note.read? t ts = none) :
    readParts (t :: ts) =
      (.token t :: (readParts ts).1, ⟨.danglingAccidental, t⟩ :: (readParts ts).2) := by
  rw [readParts, if_pos hs]
  split
  next h => cases hr.symm.trans h
  · rfl

theorem readParts_quotedText (hq : t.kind = .quotedText) :
    readParts (t :: ts) = (.quotedText t :: (readParts ts).1, (readParts ts).2) := by
  have hs : ¬t.kind.startsNote = true := by simp [hq, Kind.startsNote, Kind.isAccidental]
  rw [readParts, if_neg hs, if_pos hq]

theorem readParts_token (hs : t.kind.startsNote = false) (hq : t.kind ≠ .quotedText) :
    readParts (t :: ts) =
      (.token t :: (readParts ts).1, (fault? t).toList.map (⟨·, t⟩) ++ (readParts ts).2) := by
  rw [readParts, if_neg (Bool.eq_false_iff.1 hs), if_neg hq]

theorem readParts_append (ts : List Token) :
    (readParts ts).1.flatMap ChordPart.tokens = ts := by
  fun_induction readParts ts with
  | case1 => rfl
  | case2 t ts _ note rest h parts problems hr ih =>
    rw [hr] at ih
    simp only [List.flatMap_cons, ChordPart.tokens, ih, Note.read?_append h]
  | case3 t ts _ _ parts problems hr ih | case4 t ts _ _ parts problems hr ih
  | case5 t ts _ _ parts problems hr ih =>
    rw [hr] at ih
    simp only [List.flatMap_cons, ChordPart.tokens, ih, List.singleton_append]

/-- The chord that the bracket `left` opens, if it opens one. -/
def read? (left : Token) (ts : List Token) : Option (Reading Chord) :=
  (Token.splitClose .rightBracket admits ts).map fun (inside, right, rest) =>
    let (parts, problems) := readParts inside
    let (rhythm, tie, rest) := Rhythm.readTied rest
    let chord : Chord := ⟨left, parts, right, rhythm, tie⟩
    ⟨chord, problems ++ if chord.notes.isEmpty then [⟨.emptyChord, left⟩] else [], rest⟩

theorem read?_append (h : read? t ts = some r) : r.value.tokens ++ r.rest = t :: ts := by
  obtain ⟨⟨inside, right, rest⟩, hs, rfl⟩ := Option.map_eq_some_iff.1 h
  have hparts := readParts_append inside
  have htied := Rhythm.readTied_append rest
  rw [Token.splitClose_append hs]
  simp only [tokens, List.cons_append, List.append_assoc] at htied ⊢
  rw [hparts, htied]

theorem length_read?_lt (h : read? t ts = some r) : r.rest.length < ts.length := by
  have hlen := congrArg List.length (read?_append h)
  simp only [tokens, List.length_append, List.length_cons] at hlen
  omega

end Chord

namespace GraceGroup

/-- What may stand between the braces of a grace group, in place or not. -/
def admits (k : Kind) : Bool :=
  (Chord.admits k && !(k matches .quotedText | .symbol | .letter)) ||
    k matches .leftBracket | .rightBracket

/-- The chord at `t`, if there is one. -/
def chord? (t : Token) (ts : List Token) : Option (Reading Chord) :=
  if t.kind = .leftBracket then Chord.read? t ts else none

theorem chord?_eq_some_iff :
    chord? t ts = some r ↔ t.kind = .leftBracket ∧ Chord.read? t ts = some r := by
  simp [chord?]

theorem chord?_append (h : chord? t ts = some r) : r.value.tokens ++ r.rest = t :: ts :=
  Chord.read?_append (chord?_eq_some_iff.mp h).2

theorem length_chord?_lt (h : chord? t ts = some r) : r.rest.length < ts.length :=
  Chord.length_read?_lt (chord?_eq_some_iff.mp h).2

def readParts : List Token → List GracePart × List Problem
  | [] => ([], [])
  | t :: ts =>
    if t.kind.startsNote then
      match _h : Note.read? t ts with
      | some (note, rest) =>
        let (parts, problems) := readParts rest
        (.note note :: parts, problems)
      | none =>
        let (parts, problems) := readParts ts
        (.token t :: parts, ⟨.danglingAccidental, t⟩ :: problems)
    else
      match _h : chord? t ts with
      | some chord =>
        let (parts, problems) := readParts chord.rest
        (.chord chord.value :: parts, chord.problems ++ ⟨.chordInGraceGroup, t⟩ :: problems)
      | none =>
        let (parts, problems) := readParts ts
        (.token t :: parts,
          if t.kind = .whitespace then problems else ⟨.unexpectedInGraceGroup, t⟩ :: problems)
termination_by ts => ts.length
decreasing_by
  · have := Note.length_read?_le _h
    simp only [List.length_cons]
    omega
  · simp
  · have := length_chord?_lt _h
    simp only [List.length_cons]
    omega
  · simp

theorem readParts_note (hs : t.kind.startsNote = true) (hr : Note.read? t ts = some (note, rest)) :
    readParts (t :: ts) = (.note note :: (readParts rest).1, (readParts rest).2) := by
  rw [readParts, if_pos hs]
  split
  next h => cases hr.symm.trans h; rfl
  next h => cases hr.symm.trans h

theorem readParts_dangling (hs : t.kind.startsNote = true) (hr : Note.read? t ts = none) :
    readParts (t :: ts) =
      (.token t :: (readParts ts).1, ⟨.danglingAccidental, t⟩ :: (readParts ts).2) := by
  rw [readParts, if_pos hs]
  split
  next h => cases hr.symm.trans h
  · rfl

theorem readParts_chord (hs : t.kind.startsNote = false) (hr : chord? t ts = some chord) :
    readParts (t :: ts) =
      (.chord chord.value :: (readParts chord.rest).1,
        chord.problems ++ ⟨.chordInGraceGroup, t⟩ :: (readParts chord.rest).2) := by
  rw [readParts, if_neg (Bool.eq_false_iff.1 hs)]
  split
  next h => cases hr.symm.trans h; rfl
  next h => cases hr.symm.trans h

theorem readParts_token (hs : t.kind.startsNote = false) (hr : chord? t ts = none) :
    readParts (t :: ts) =
      (.token t :: (readParts ts).1,
        if t.kind = .whitespace then (readParts ts).2
        else ⟨.unexpectedInGraceGroup, t⟩ :: (readParts ts).2) := by
  rw [readParts, if_neg (Bool.eq_false_iff.1 hs)]
  split
  next h => cases hr.symm.trans h
  · rfl

theorem readParts_append (ts : List Token) :
    (readParts ts).1.flatMap GracePart.tokens = ts := by
  fun_induction readParts ts with
  | case1 => rfl
  | case2 t ts _ note rest h parts problems hr ih =>
    rw [hr] at ih
    simp only [List.flatMap_cons, GracePart.tokens, ih, Note.read?_append h]
  | case3 t ts _ _ parts problems hr ih | case5 t ts _ _ parts problems hr ih =>
    rw [hr] at ih
    simp only [List.flatMap_cons, GracePart.tokens, ih, List.singleton_append]
  | case4 t ts _ chord h parts problems hr ih =>
    rw [hr] at ih
    simp only [List.flatMap_cons, GracePart.tokens, ih, chord?_append h]

/-- The grace group that the brace `left` opens, if it opens one. -/
def read? (left : Token) (ts : List Token) : Option (Reading GraceGroup) :=
  (Token.splitClose .rightBrace admits ts).map fun (inside, right, rest) =>
    let (slash, inside) := Token.accept (· = .slash) inside
    let (parts, problems) := readParts inside
    ⟨⟨left, slash, parts, right⟩, problems, rest⟩

theorem read?_append (h : read? t ts = some r) : r.value.tokens ++ r.rest = t :: ts := by
  obtain ⟨⟨inside, right, rest⟩, hs, rfl⟩ := Option.map_eq_some_iff.1 h
  have hslash := Token.accept_append (· = .slash) inside
  have hparts := readParts_append (Token.accept (· = .slash) inside).2
  rw [Token.splitClose_append hs]
  simp only [tokens, List.cons_append, List.append_assoc, hparts, List.nil_append]
  rw [← List.append_assoc, hslash]

end GraceGroup
end Tunebook
