import Tunebook.Proofs.Rhythm.RoundTrip
import Tunebook.Proofs.Rhythm.Selecting

/-! Notes and chords by their heads. Up to the letter of a note and its octave marks, or to the bracket
that closes a chord, a sound is scanned and read whatever stands behind it; what stands there is its
rhythm and its tie. -/
namespace Tunebook
open Scan
open WrittenNote (tuneTree)

/-- The kinds that a note or a chord starts with. -/
def Kind.startsSound (k : Kind) : Bool :=
  k.startsNote || k = .leftBracket

/-- The kinds of the tokens of notes and chords. -/
def Kind.isSounded (k : Kind) : Bool :=
  Chord.admits k || k matches .leftBracket | .rightBracket

theorem MusicLine.isBoundary_of_isSounded (h : k.isSounded = true) : isBoundary k = false := by
  cases k <;> first | rfl | cases h

theorem Kind.isSounded_of_isLength {k : Kind} (h : k.isLength = true) : k.isSounded = true := by
  cases k <;> cases h <;> rfl

namespace Sound

def item : Sound → Item
  | note n => .note n
  | chord c => .chord c

/-- What stands before the rhythm. -/
def headTokens : Sound → List Token
  | note n => n.head.tokens
  | chord c => c.left :: (c.parts.flatMap ChordPart.tokens ++ [c.right])

/-- The same head with another rhythm and tie. -/
def withRhythm (r : Rhythm) (tie : Option Token) : Sound → Sound
  | note n => note { n with rhythm := r, tie }
  | chord c => chord { c with rhythm := r, tie }

/-- The head is one that the grammar takes for a head. -/
def HasHead : Sound → Prop
  | note n => n.head.Fits
  | chord c =>
    c.left.kind = .leftBracket ∧ c.right.kind = .rightBracket ∧
      (∀ t ∈ c.parts.flatMap ChordPart.tokens,
        t.kind ≠ .rightBracket ∧ Chord.admits t.kind = true) ∧
      (Chord.readParts (c.parts.flatMap ChordPart.tokens)).1 = c.parts

theorem headTokens_eq (s : Sound) : s.headTokens = s.first :: s.headTokens.tail := by
  cases s with
  | note n => exact n.head.tokens_eq
  | chord c => rfl

theorem HasHead.startsSound {s : Sound} (h : s.HasHead) : s.first.kind.startsSound = true := by
  cases s with
  | note n =>
    have fits : n.head.Fits := h
    rw [Kind.startsSound, Bool.or_eq_true]
    exact .inl fits.startsNote
  | chord c => simp [first, Kind.startsSound, h.1]

theorem HasHead.isSounded {s : Sound} (h : s.HasHead) : ∀ t ∈ s.headTokens, t.kind.isSounded = true := by
  intro t member
  cases s with
  | note n =>
    have bare : Note.Fits ⟨n.head, ⟨none, none, none, none⟩, none⟩ := by
      constructor
      · exact h
      · constructor <;> simp
      · simp
    have listed : t ∈ Note.tokens ⟨n.head, ⟨none, none, none, none⟩, none⟩ :=
      List.mem_append_left _ (List.mem_append_left _ member)
    simp [Kind.isSounded, Chord.admits_of_mem_note bare listed]
  | chord c =>
    obtain ⟨opens, closes, inner, _⟩ := h
    simp only [headTokens, List.mem_cons, List.mem_append, List.not_mem_nil, or_false] at member
    rcases member with rfl | member | rfl
    · simp [Kind.isSounded, opens]
    · simp [Kind.isSounded, (inner t member).2]
    · simp [Kind.isSounded, closes]

/-- A head ends with a letter or a bracket, or with octave marks behind a letter. -/
theorem HasHead.exists_stop {s : Sound} (h : s.HasHead) : ∃ front stop, ∃ octave : Option Token,
    s.headTokens = front ++ stop :: octave.toList ∧ stop.kind.isStop = true ∧
      ∀ t ∈ octave, t.kind.isOctave = true := by
  cases s with
  | note n =>
    obtain ⟨head, _, _⟩ := n
    cases head with
    | pitch alteration letter octave =>
      obtain ⟨_, kind, marks⟩ := h
      exact ⟨alteration.toList, letter, octave, rfl, by rw [kind]; rfl, marks⟩
    | rest letter =>
      have kind : letter.kind = .restLetter := h
      exact ⟨[], letter, none, rfl, by rw [kind]; rfl, by simp⟩
  | chord c =>
    refine ⟨c.left :: c.parts.flatMap ChordPart.tokens, c.right, none, rfl, ?_, by simp⟩
    rw [h.2.1]
    rfl

/-! Reading. -/

theorem HasHead.read_item {s : Sound} (h : s.HasHead) (next : Token.NextNot Kind.isOctave us) :
    ∃ problems, Item.read false s.first (s.headTokens.tail ++ us) =
      ⟨(s.withRhythm (Rhythm.readTied us).1 (Rhythm.readTied us).2.1).item, problems,
        (Rhythm.readTied us).2.2⟩ := by
  cases s with
  | note n =>
    have fits : n.head.Fits := h
    have read := Note.read?_head fits fun _ => next
    refine ⟨[], ?_⟩
    rw [first, Note.first, headTokens, Item.read_note fits.startsNote, Item.readNote, read]
    rfl
  | chord c =>
    obtain ⟨opens, closes, inner, parts⟩ := h
    have read := Chord.read?_head closes (Prod.ext parts rfl) inner us
    have field : InlineField.read? false c.left
        (c.parts.flatMap ChordPart.tokens ++ c.right :: us) = none := by
      apply InlineField.read?_eq_none closes
      intro t member colon
      have passes := (inner t member).2
      rw [colon] at passes
      cases passes
    have tokens : (chord c).headTokens.tail ++ us =
        c.parts.flatMap ChordPart.tokens ++ c.right :: us := by
      simp [headTokens]
    refine ⟨(Chord.readParts (c.parts.flatMap ChordPart.tokens)).2 ++
      if c.notes.isEmpty then [⟨.emptyChord, c.left⟩] else [], ?_⟩
    rw [tokens, first, Item.read, opens]
    simp only [Item.readBracket, field, read]
    rfl

/-- A sound is the first item of a line that starts with its head. -/
theorem HasHead.readAll {s : Sound} (h : s.HasHead) (next : Token.NextNot Kind.isOctave us) :
    (Item.readAll false (s.headTokens ++ us)).value =
      (s.withRhythm (Rhythm.readTied us).1 (Rhythm.readTied us).2.1).item ::
        (Item.readAll false (Rhythm.readTied us).2.2).value := by
  obtain ⟨problems, read⟩ := h.read_item next
  have starts := h.startsSound
  have noSlur : (s.first.kind = .leftParen && Item.isClosed 0 (s.headTokens.tail ++ us)) = false := by
    cases hk : s.first.kind <;> rw [hk] at starts <;> cases starts <;> rfl
  rw [headTokens_eq, List.cons_append, Item.readAll_item rfl noSlur, read]

/-- What is read as one sound without a length has its head. -/
theorem hasHead_of_readAll {s : Sound} (wellFormed : s.WellFormed)
    (h : (Item.readAll false s.headTokens).value = [s.item]) : s.HasHead := by
  cases s with
  | note n =>
    have fits : n.Fits := wellFormed
    exact fits.head
  | chord c =>
    have fits : c.WellFormed := wellFormed
    have noSlur : (c.left.kind = .leftParen &&
        Item.isClosed 0 (c.parts.flatMap ChordPart.tokens ++ [c.right])) = false := by
      rw [fits.left]
      rfl
    rw [headTokens, Item.readAll_item rfl noSlur] at h
    have own : (Item.read false c.left (c.parts.flatMap ChordPart.tokens ++ [c.right])).value =
        .chord c := (List.cons.inj h).1
    rw [Item.read, fits.left] at own
    simp only [Item.readBracket] at own
    split at own
    · cases own
    · split at own
      next r found =>
        obtain rfl : r.value = c := by simpa using own
        have reading := Chord.isReading_of_read? found
        exact ⟨fits.left, reading.closes, reading.inner, reading.parts⟩
      · cases own

/-! Scanning. -/

/-- A head that was cut off is cut off before any text that does not go on with its octave marks. -/
theorem HasHead.cutBefore {s : Sound} (h : s.HasHead) (cut : Cut (s.headTokens.map Token.piece ++ ps))
    {us : Text} (next : ∀ c ∈ us.head?, c ∉ ['\x27', ',']) :
    CutBefore us (s.headTokens.map Token.piece) := by
  obtain ⟨front, stop, octave, tokens, stops, marks⟩ := h.exists_stop
  simp only [tokens, List.map_append, List.map_cons, List.append_assoc, List.cons_append] at cut
  have upTo (vs : Text) := cut.before (q := stop.piece) stops vs
  rw [tokens, List.map_append, List.map_cons]
  cases octave with
  | none => exact upTo us
  | some mark =>
    have behind : Cut (mark.piece :: ps) := (cut.right (front.map Token.piece)).2.2
    obtain ⟨d, listed, run⟩ := Rewritten.isRun_octave (marks mark rfl)
    have last : CutBefore us [mark.piece] := by
      apply IsRun.cutBefore run behind.1 (behind.mem_run run)
      intro c first
      apply decide_eq_false
      rintro rfl
      exact next c first listed
    have whole := CutBefore.append (upTo (Piece.join [mark.piece] ++ us)) last
    simpa using whole

end Sound

def Tree.musicLines (t : Tree) : List MusicLine :=
  t.tunes.flatMap Tune.musicLines

/-! The first music line behind the opening lines of a tune. -/

theorem MusicLine.value_read_append (inside : ∀ t ∈ ts, isBoundary t.kind = false) (us : List Token) :
    (read (ts ++ us)).value =
      ⟨(Item.readAll false (ts ++ us.takeWhile (!isBoundary ·.kind))).value,
        (Token.accept (· = .eol) (us.dropWhile (!isBoundary ·.kind))).1⟩ := by
  have passes : ∀ t ∈ ts, (!isBoundary t.kind) = true := by simpa using inside
  rw [read, List.takeWhile_append_of_pos passes, List.dropWhile_append_of_pos passes]

theorem Tune.head?_readBody {u : Token} (starts : u.kind.startsSound = true) (us : List Token) :
    (readBody true (u :: us)).value.head? = some (.music (MusicLine.read (u :: us)).value) := by
  have kinds : u.kind ≠ .infoKey ∧ u.kind.isComment = false ∧ u.kind ≠ .whitespace ∧ u.kind ≠ .eol := by
    cases hk : u.kind <;> rw [hk] at starts <;> cases starts <;> decide
  obtain ⟨noKey, noComment, visible, noFeed⟩ := kinds
  have goes : (u.opensTune || (true && Token.startsBlankLine (u :: us))) = false := by
    simp [Token.opensTune, Token.startsBlankLine, Token.isSpace, noKey, visible, noFeed]
  have music : (BodyLine.read u us).value = .music (MusicLine.read (u :: us)).value := by
    simp [BodyLine.read, noKey, noComment]
  rw [readBody, goes]
  exact congrArg some music

theorem Tree.head?_musicLines {u : Token} {us : List Token} (starts : u.kind.startsSound = true)
    (texts : ∀ t ∈ u :: us, t.kind ≠ .eof) :
    (ofTokens (textTokens opening ++ u :: us)).1.musicLines.head? =
      some (MusicLine.read (u :: us)).value := by
  have every : ∀ t ∈ textTokens opening ++ u :: us, decide (t.kind ≠ .eof) = true := by
    intro t member
    rw [decide_eq_true_eq]
    rcases List.mem_append.mp member with member | member
    · exact kind_of_mem_textTokens member
    · exact texts t member
  have opens : Tune.splitApart false (textTokens opening ++ u :: us) =
      ([], textTokens opening ++ u :: us) := by
    rw [textTokens_opening]
    simp [Tune.splitApart, Token.opensTune]
  have tune : (Tune.read false (textTokens opening ++ u :: us)).value.musicLines.head? =
      some (MusicLine.read (u :: us)).value := by
    obtain ⟨body, first⟩ := List.head?_eq_some_iff.mp (Tune.head?_readBody starts us)
    simp only [Tune.read, readHeader_opening, first]
    rfl
  simp only [ofTokens, List.takeWhile_eq_self_iff.mpr every, List.dropWhile_eq_nil_iff.mpr every,
    List.any_nil, opens, musicLines]
  rw [textTokens_opening, List.cons_append] at tune ⊢
  rw [readTunes, List.flatMap_cons, List.head?_append, tune]
  rfl

/-! A head on a line of its own. -/

/-- The text is a line with the sound on it and nothing else. The sound has no length. -/
structure Sound.IsWhole (s : Sound) (text : Text) : Prop where
  bare : s.tokens = s.headTokens
  tree : ∃ e : Token, e.lexeme = ['\n'] ∧
    (Tree.ofTokens (scan (tuneOf text))).1 = tuneTree [s.item] e

namespace Sound

theorem tokensOf_item (s : Sound) : Item.tokensOf [s.item] = s.tokens := by
  cases s <;> simp [item, Item.tokensOf, Item.tokens, tokens]

theorem WellFormed.startsSound {s : Sound} (h : s.WellFormed) : s.first.kind.startsSound = true := by
  cases s with
  | note n => exact HasHead.startsSound (s := .note n) h.head
  | chord c => simp [first, Kind.startsSound, h.left]

variable {s : Sound} {text : Text}

/-- The tokens of the sound are what the text is cut into, on a line of music. -/
structure Spells (s : Sound) (text : Text) : Prop where
  head : s.HasHead
  join : Token.join s.headTokens = text
  place : placed ⟨2, 0⟩ 8 (s.headTokens.map Token.piece) = s.headTokens
  feedless : '\n' ∉ text
  music : ¬IsField (text ++ ['\n'])
  cut : Cut (s.headTokens.map Token.piece ++ [⟨.eol, ['\n']⟩])

/-- What is read as all the music of a line has a head. -/
theorem WellFormed.hasHead (h : s.WellFormed) (bare : s.tokens = s.headTokens)
    (read : (MusicLine.read (s.headTokens ++ [e])).value = ⟨[s.item], some e⟩) : s.HasHead := by
  have items : (Item.readAll false
      ((s.headTokens ++ [e]).takeWhile (!MusicLine.isBoundary ·.kind))).value = [s.item] :=
    congrArg MusicLine.items read
  have own := Item.tokensOf_readAll
    ((s.headTokens ++ [e]).takeWhile (!MusicLine.isBoundary ·.kind))
  rw [items, tokensOf_item, bare] at own
  apply hasHead_of_readAll h
  rw [own]
  exact items

/-- A line that is cut into a head is one of music. -/
theorem HasHead.cut_line (h : s.HasHead)
    (whole : line (text ++ ['\n']) = s.headTokens.map Token.piece ++ [⟨.eol, ['\n']⟩]) :
    ¬IsField (text ++ ['\n']) ∧ Cut (s.headTokens.map Token.piece ++ [⟨.eol, ['\n']⟩]) := by
  have first : s.first.piece ∈ (line (text ++ ['\n'])).head? := by
    rw [whole, headTokens_eq]
    rfl
  rcases mem_head?_line first with ⟨_, _, _, _, key⟩ | ⟨music, _⟩
  · have starts := h.startsSound
    rw [show s.first.kind = .infoKey from congrArg Piece.kind key] at starts
    cases starts
  · rw [line_of_not_field music] at whole
    refine ⟨music, ?_⟩
    rw [← whole]
    apply cut_musicLine
    intro p member invalid
    rw [whole] at member
    rcases List.mem_append.mp member with member | member
    · obtain ⟨t, listed, rfl⟩ := List.mem_map.mp member
      have sounded := h.isSounded t listed
      rw [show t.kind = .invalid from invalid] at sounded
      cases sounded
    · obtain rfl := List.mem_singleton.mp member
      cases invalid

namespace IsWhole

theorem exists_placed (h : s.IsWhole text) : ∃ e : Token, e.lexeme = ['\n'] ∧
    placed ⟨2, 0⟩ 8 (pieces (text ++ ['\n'])) = s.headTokens ++ [e] ∧
    (MusicLine.read (s.headTokens ++ [e])).value = ⟨[s.item], some e⟩ ∧ s.WellFormed := by
  obtain ⟨e, feed, tree⟩ := h.tree
  have wellFormed : s.WellFormed := by
    have listed : s ∈ (Tree.ofTokens (scan (tuneOf text))).1.sounds := by
      rw [tree]
      cases s <;> simp [tuneTree, Tree.sounds, Tune.musicLines, BodyLine.music?, Item.soundsOf,
        Item.sounds, item]
    exact Tree.wellFormed_of_mem_sounds listed
  have front : openingLines.flatMap HeaderLine.tokens = textTokens opening := by
    have lines := Tune.readHeader_append true (textTokens opening ++ [])
    rwa [readHeader_opening, List.append_nil, List.append_nil] at lines
  have whole := Tree.tokens_ofTokens_scan (tuneOf text)
  have own : (tuneTree [s.item] e).tokens = textTokens opening ++ (s.headTokens ++ [e]) := by
    simp [tuneTree, Tree.tokens, Tune.tokens, Tune.headerTokens, Tune.bodyTokens, BodyLine.tokens,
      MusicLine.tokens, front, tokensOf_item, h.bare]
  rw [tree, own, tuneOf, textTokens_opening_append] at whole
  have line := List.append_cancel_left whole
  refine ⟨e, feed, line.symm, ?_, wellFormed⟩
  have texts : ∀ t ∈ s.headTokens ++ [e], t.kind ≠ .eof := by
    intro t member
    have listed : t ∈ textTokens (tuneOf text) := by
      rw [tuneOf, textTokens_opening_append, ← line]
      exact List.mem_append_right _ member
    exact kind_of_mem_textTokens listed
  rw [headTokens_eq, List.cons_append] at line texts ⊢
  have music := Tree.head?_musicLines wellFormed.startsSound texts
  rw [line, ← textTokens_opening_append, ← tuneOf, ← Tree.ofTokens_scan, tree] at music
  rw [line]
  exact (Option.some.inj music).symm

theorem spells (h : s.IsWhole text) : s.Spells text := by
  obtain ⟨e, feed, line, read, wellFormed⟩ := h.exists_placed
  have head := wellFormed.hasHead h.bare read
  have last : e.piece = ⟨.eol, ['\n']⟩ := by
    have found : e ∈ (MusicLine.read (s.headTokens ++ [e])).value.eol := by
      rw [read]
      rfl
    have ends : e.kind = .eol := of_decide_eq_true (Token.kind_of_mem_accept found)
    rw [Token.piece, ends, feed]
  have pieces := congrArg (List.map Token.piece) line
  rw [map_piece_placed, List.map_append, List.map_singleton, last] at pieces
  have join : Token.join s.headTokens = text := by
    have whole := join_pieces (text ++ ['\n'])
    rw [pieces, Piece.join_append, Token.join_map_piece] at whole
    simpa using whole
  have feedless : '\n' ∉ text := by
    rw [← join]
    intro inside
    obtain ⟨t, member, own⟩ := List.mem_flatMap.mp inside
    have listed : t ∈ textTokens (tuneOf text) := by
      rw [tuneOf, textTokens_opening_append, line]
      simp [member]
    have breaks := breaksLine_of_mem_textTokens listed own
    have sounded := head.isSounded t member
    cases hk : t.kind <;> rw [hk] at breaks sounded <;> cases breaks <;> cases sounded
  have place : placed ⟨2, 0⟩ 8 (s.headTokens.map Token.piece) = s.headTokens := by
    rw [pieces, placed_append] at line
    exact (List.append_inj' line rfl).1
  have none : Scan.pieces [] = [] := by simp [Scan.pieces, Text.lines]
  rw [pieces_line feedless, none, List.append_nil] at pieces
  obtain ⟨music, cut⟩ := head.cut_line pieces
  exact ⟨head, join, place, feedless, music, cut⟩

end IsWhole

theorem withRhythm_of_bare (bare : s.tokens = s.headTokens) :
    s.withRhythm ⟨none, none, none, none⟩ none = s := by
  have empty {r : Rhythm} (h : r.tokens = []) : r = ⟨none, none, none, none⟩ := by
    obtain ⟨numerator, separator, denominator, broken⟩ := r
    simp [Rhythm.tokens, Rhythm.lengthTokens] at h
    simp [h]
  cases s with
  | note n =>
    obtain ⟨head, rhythm, tie⟩ := n
    simp only [tokens, Note.tokens, headTokens, List.append_assoc, List.append_right_eq_self,
      List.append_eq_nil_iff, Option.toList_eq_nil_iff] at bare
    rw [withRhythm, empty bare.1, bare.2]
  | chord c =>
    obtain ⟨left, parts, right, rhythm, tie⟩ := c
    simp only [tokens, Chord.tokens, headTokens, List.append_assoc, List.cons_append,
      List.cons.injEq, true_and, List.append_cancel_left_eq, List.append_eq_nil_iff,
      Option.toList_eq_nil_iff] at bare
    rw [withRhythm, empty bare.1, bare.2]

/-- Where a line is cut into a head, the head is read as a sound. -/
theorem isWhole_of_tokens (head : s.HasHead) (bare : s.tokens = s.headTokens) {e : Token}
    (tokens : textTokens (tuneOf text) = textTokens opening ++ (s.headTokens ++ [e]))
    (ends : e.kind = .eol) (feed : e.lexeme = ['\n']) : s.IsWhole text := by
  have visible : s.first.kind ≠ .whitespace := by
    intro space
    have starts := head.startsSound
    rw [space] at starts
    cases starts
  have inside : ∀ t ∈ s.first :: s.headTokens.tail,
      MusicLine.isBoundary t.kind = false ∧ t.kind ≠ .eof := by
    rw [← headTokens_eq]
    intro t member
    have sounded := head.isSounded t member
    constructor
    · exact MusicLine.isBoundary_of_isSounded sounded
    · intro kind
      rw [kind] at sounded
      cases sounded
  have items : (Item.readAll false s.headTokens).value = [s.item] := by
    have read := head.readAll (Token.nextNot_nil _)
    rw [List.append_nil] at read
    rw [read]
    simp [Rhythm.readTied, Rhythm.read, Token.accept, Item.readAll_nil, withRhythm_of_bare bare]
  have tree := Tree.ofTokens_line visible inside ends
  rw [← headTokens_eq, ← tokens, ← Tree.ofTokens_scan, items] at tree
  exact ⟨bare, e, feed, by rw [tree]; rfl⟩

end Sound

theorem Item.exists_note_of_mapAll {m : Note} (h : mapAll f items = mapAll f [.note m]) :
    ∃ n : Note, items = [.note n] ∧ n.map f = m.map f := by
  cases items with
  | nil => simp [mapAll] at h
  | cons item items =>
    obtain ⟨same, none⟩ := List.cons.inj h
    cases items with
    | cons other items => simp [mapAll] at none
    | nil =>
      cases item with
      | note n => exact ⟨n, rfl, Item.note.inj same⟩
      | _ => cases same

/-- A written head without a length is read as the head that it stands for. -/
theorem WrittenHead.exists_isWhole (w : WrittenHead) : ∃ n : Note, (Sound.note n).IsWhole w.text ∧
    n.head.map Token.forget = w.head := by
  have one : Length.Lowest ⟨1, 1⟩ := ⟨by decide, by decide, by decide⟩
  obtain ⟨its, e, feed, tokens, tree, own, forgotten⟩ :=
    WrittenNote.exists_tree ⟨w, ⟨1, 1⟩, one, none, false⟩ []
  have text : WrittenNote.line [⟨w, ⟨1, 1⟩, one, none, false⟩] = w.text := by
    simp [WrittenNote.line, WrittenNote.text, Length.written]
  have items : WrittenNote.items [⟨w, ⟨1, 1⟩, one, none, false⟩] =
      [.note ⟨w.head, ⟨none, none, none, none⟩, none⟩] := by
    simp [WrittenNote.items, WrittenNote.note, Length.rhythm]
  rw [items] at forgotten
  obtain ⟨n, rfl, same⟩ := Item.exists_note_of_mapAll forgotten
  refine ⟨n, ⟨?_, e, feed, by rw [← text, tree]; rfl⟩, ?_⟩
  · have rhythm : n.rhythm.tokens.map Token.forget = [] := by
      rw [← Rhythm.tokens_map, show n.rhythm.map Token.forget = _ from congrArg Note.rhythm same]
      rfl
    have tie : n.tie = none := Option.map_eq_none_iff.mp (congrArg Note.tie same)
    simp [Sound.tokens, Note.tokens, Sound.headTokens, List.map_eq_nil_iff.mp rhythm, tie]
  · rw [show n.head.map Token.forget = _ from congrArg Note.head same]
    cases w with
    | rest letter => rfl
    | pitch accidental letter octave => cases accidental <;> cases octave <;> rfl

end Tunebook
