import Tunebook.Proofs.Rhythm.Spelling
import Tunebook.Proofs.Rhythm.WholeLine

/-! Scaling the lengths of a whole line of notes one way and, after a new analysis, the other way
gives back the line. One pass scales every length of the line and writes the line anew; the second
pass is another such pass. -/
namespace Tunebook

/-! A tune of one line of notes. -/

def opening : Text := "X:1\nK:C\n".toList

theorem textTokens_opening : textTokens opening =
    [⟨.infoKey, ['X', ':'], ⟨0, 0⟩, ⟨0, 2⟩⟩, ⟨.freeText, ['1'], ⟨0, 2⟩, ⟨2, 3⟩⟩,
      ⟨.eol, ['\n'], ⟨0, 3⟩, ⟨3, 4⟩⟩, ⟨.infoKey, ['K', ':'], ⟨1, 0⟩, ⟨4, 6⟩⟩,
      ⟨.freeText, ['C'], ⟨1, 2⟩, ⟨6, 7⟩⟩, ⟨.eol, ['\n'], ⟨1, 3⟩, ⟨7, 8⟩⟩] := by
  decide +kernel

/-- What stands behind the opening lines is cut up by itself. -/
theorem textTokens_opening_append (text : Text) : textTokens (opening ++ text) =
    textTokens opening ++ Scan.placed ⟨2, 0⟩ 8 (Scan.pieces text) := by
  have start : (⟨0, 0⟩ : Position).after opening = ⟨2, 0⟩ := by decide
  have size : opening.bytes = 8 := by decide
  have cut : Scan.pieces (opening ++ text) = Scan.pieces opening ++ Scan.pieces text := by
    rw [Scan.pieces, Text.lines_append (.inr (by decide)), List.flatMap_append]
    rfl
  rw [textTokens, cut, Scan.placed_append, Scan.join_pieces, start, size]
  rfl

/-- The opening lines of a tune, and one line of music. -/
def tuneOf (line : Text) : Text :=
  opening ++ (line ++ ['\n'])

def openingLines : List HeaderLine :=
  (Tune.readHeader true (textTokens opening)).1

theorem readHeader_opening (us : List Token) :
    Tune.readHeader true (textTokens opening ++ us) = (openingLines, us) := by
  rw [openingLines, textTokens_opening]
  simp [Tune.readHeader, InfoLine.read, InfoLine.isValue, Token.accept, Kind.isComment,
    InfoLine.code, Token.fieldCode, Token.opensTune]

theorem MusicLine.read_line {us : List Token} (inside : ∀ t ∈ us, isBoundary t.kind = false)
    (ends : e.kind = .eol) :
    read (us ++ [e]) =
      ⟨⟨(Item.readAll false us).value, some e⟩, (Item.readAll false us).problems, []⟩ := by
  have stops : ∀ t ∈ [e].head?, (!isBoundary t.kind) = false := by
    rintro t ⟨⟩
    simp [isBoundary, ends]
  obtain ⟨taken, dropped⟩ := span_append (by simpa using inside) stops
  rw [read, taken, dropped]
  simp [Token.accept, ends]

theorem Tune.readBody_line {u : Token} {us : List Token} (visible : u.kind ≠ .whitespace)
    (inside : ∀ t ∈ u :: us, MusicLine.isBoundary t.kind = false) (ends : e.kind = .eol) :
    readBody true (u :: us ++ [e]) =
      ⟨[.music ⟨(Item.readAll false (u :: us)).value, some e⟩],
        (Item.readAll false (u :: us)).problems, []⟩ := by
  have line := MusicLine.read_line inside ends
  have kinds := inside u List.mem_cons_self
  simp only [MusicLine.isBoundary, Bool.or_eq_false_iff, decide_eq_false_iff_not] at kinds
  obtain ⟨⟨noFeed, noKey⟩, noComment⟩ := kinds
  rw [List.cons_append] at line ⊢
  have music : BodyLine.read u (us ++ [e]) = ⟨.music ⟨(Item.readAll false (u :: us)).value, some e⟩,
      (Item.readAll false (u :: us)).problems, []⟩ := by
    simp [BodyLine.read, noKey, noComment, line]
  have goes : (u.opensTune || (true && Token.startsBlankLine (u :: (us ++ [e])))) = false := by
    simp [Token.opensTune, Token.startsBlankLine, Token.isSpace, noKey, visible, noFeed]
  rw [readBody, goes, music]
  simp [readBody]

theorem Tune.read_line {u : Token} {us : List Token} (visible : u.kind ≠ .whitespace)
    (inside : ∀ t ∈ u :: us, MusicLine.isBoundary t.kind = false) (ends : e.kind = .eol) :
    read false (textTokens opening ++ (u :: us ++ [e])) =
      ⟨⟨openingLines, [.music ⟨(Item.readAll false (u :: us)).value, some e⟩], []⟩,
        (Item.readAll false (u :: us)).problems, []⟩ := by
  have key (body : List BodyLine) : (Tune.mk openingLines body []).missingKey?
      (textTokens opening ++ (u :: us ++ [e])) = none := by
    have found : ((openingLines.filterMap HeaderLine.info?).find? (·.code = 'K')).isNone = false := by
      decide +kernel
    rw [textTokens_opening]
    simp only [missingKey?, field?, List.cons_append, found, Bool.and_false]
    rfl
  have rest : splitApart false [] = ([], []) := by
    simp [splitApart, Token.splitBlankLines]
  simp only [read, readHeader_opening, readBody_line visible inside ends, rest, key,
    Option.toList_none, List.nil_append]

/-- One line of music behind the opening lines. -/
theorem Tree.ofTokens_line {u : Token} {us : List Token} (visible : u.kind ≠ .whitespace)
    (inside : ∀ t ∈ u :: us, MusicLine.isBoundary t.kind = false ∧ t.kind ≠ .eof)
    (ends : e.kind = .eol) :
    ofTokens (textTokens opening ++ (u :: us ++ [e])) =
      (⟨[], [⟨openingLines, [.music ⟨(Item.readAll false (u :: us)).value, some e⟩], []⟩]⟩,
        (Item.readAll false (u :: us)).problems) := by
  have texts : ∀ t ∈ textTokens opening ++ (u :: us ++ [e]), decide (t.kind ≠ .eof) = true := by
    intro t member
    rw [decide_eq_true_eq]
    rcases List.mem_append.mp member with member | member
    · exact kind_of_mem_textTokens member
    · rcases List.mem_append.mp member with member | member
      · exact (inside t member).2
      · simp [List.mem_singleton.mp member, ends]
  have opens : Tune.splitApart false (textTokens opening ++ (u :: us ++ [e])) =
      ([], textTokens opening ++ (u :: us ++ [e])) := by
    rw [textTokens_opening]
    simp [Tune.splitApart, Token.opensTune]
  have tunes : readTunes false (textTokens opening ++ (u :: us ++ [e])) =
      ([⟨openingLines, [.music ⟨(Item.readAll false (u :: us)).value, some e⟩], []⟩],
        (Item.readAll false (u :: us)).problems) := by
    have tune := Tune.read_line visible (fun t member => (inside t member).1) ends
    rw [textTokens_opening, List.cons_append] at tune ⊢
    rw [readTunes, tune]
    simp [readTunes]
  simp only [ofTokens, List.takeWhile_eq_self_iff.mpr texts, List.dropWhile_eq_nil_iff.mpr texts,
    List.any_nil, opens, tunes]

namespace WrittenNote

/-! Reading a line of notes. -/

theorem readAll_note (w : WrittenNote) (next : Ends us) :
    Item.readAll false (w.note.tokens ++ us) =
      ⟨.note w.note :: (Item.readAll false us).value, (Item.readAll false us).problems,
        (Item.readAll false us).rest⟩ := by
  have fits := w.fits_note
  have starts := fits.head.startsNote
  have bounded : w.note.Bounded us := by
    constructor
    · exact ⟨next.nextNot_isRhythm, fun _ => next.nextNot_minus⟩
    · exact fun _ _ _ => next.nextNot_isOctave
  have read := Note.read?_tokens fits bounded
  have noSlur : (w.note.head.first.kind = .leftParen &&
      Item.isClosed 0 (w.note.tokens.tail ++ us)) = false := by
    cases hk : w.note.head.first.kind <;> rw [hk] at starts <;> cases starts <;> rfl
  rw [w.note.tokens_eq, List.cons_append, Item.readAll_item rfl noSlur, Item.read_note starts,
    Item.readNote, read]
  rfl

theorem readAll_items (ws : List WrittenNote) :
    Item.readAll false (Item.tokensOf (items ws)) = ⟨items ws, [], []⟩ := by
  induction ws with
  | nil => exact Item.readAll_nil false
  | cons w ws ih =>
    cases ws with
    | nil =>
      have whole := w.readAll_note (Token.nextNot_nil _)
      rw [Item.readAll_nil] at whole
      simpa [items, Item.tokensOf, Item.tokens] using whole
    | cons v ws =>
      have spaced : Item.readAll false (space :: Item.tokensOf (items (v :: ws))) =
          ⟨.token space :: items (v :: ws), [], []⟩ := by
        rw [Item.readAll_item rfl rfl]
        simp [Item.read, space, Token.unplaced, Kind.isBarline, Kind.startsNote, Kind.isAccidental,
          Item.bare, ih]
      have next : Ends (space :: Item.tokensOf (items (v :: ws))) := Token.nextNot_cons.mpr rfl
      have whole := w.readAll_note next
      rw [spaced] at whole
      simpa only [items_cons_cons, Item.tokensOf, Item.tokens, List.singleton_append] using whole

/-- The tokens of a line of notes behind the opening lines. -/
def placedTokens (ws : List WrittenNote) : List Token :=
  Scan.placed ⟨2, 0⟩ 8 ((Item.tokensOf (items ws)).map Token.piece)

theorem map_piece_placedTokens (ws : List WrittenNote) :
    (placedTokens ws).map Token.piece = (Item.tokensOf (items ws)).map Token.piece :=
  Scan.map_piece_placed _ _ _

theorem join_placedTokens (ws : List WrittenNote) : Token.join (placedTokens ws) = line ws := by
  rw [← Token.join_map_piece, map_piece_placedTokens, Token.join_map_piece, join_items]

theorem exists_of_mem_placedTokens {ws : List WrittenNote} (h : t ∈ placedTokens ws) :
    ∃ u ∈ Item.tokensOf (items ws), t.piece = u.piece := by
  have listed : t.piece ∈ (placedTokens ws).map Token.piece := List.mem_map_of_mem h
  rw [map_piece_placedTokens] at listed
  obtain ⟨u, member, same⟩ := List.mem_map.mp listed
  exact ⟨u, member, same.symm⟩

theorem isWritten_of_mem_placedTokens {ws : List WrittenNote} (h : t ∈ placedTokens ws) :
    t.kind.isWritten = true := by
  obtain ⟨u, member, same⟩ := exists_of_mem_placedTokens h
  rw [show t.kind = u.kind from congrArg Piece.kind same]
  exact isWritten_of_mem member

theorem exists_placedTokens_cons (w : WrittenNote) (ws : List WrittenNote) :
    ∃ u us, placedTokens (w :: ws) = u :: us ∧ u.kind.startsNote = true := by
  obtain ⟨more, first⟩ := exists_items_cons w ws
  rw [placedTokens, first]
  exact ⟨_, _, rfl, w.fits_note.head.startsNote⟩

theorem pieces_line_line (ws : List WrittenNote) : Scan.pieces (line ws ++ ['\n']) =
    (Item.tokensOf (items ws)).map Token.piece ++ [Token.lineFeed.piece] := by
  have last := Scan.pieces_line (not_mem_line ws (by decide)) []
  have none : Scan.pieces [] = [] := by simp [Scan.pieces, Text.lines]
  rwa [line_line, none, List.append_nil, List.map_append] at last

theorem textTokens_tuneOf (ws : List WrittenNote) : ∃ e, e.kind = .eol ∧ e.lexeme = ['\n'] ∧
    textTokens (tuneOf (line ws)) = textTokens opening ++ (placedTokens ws ++ [e]) := by
  rw [tuneOf, textTokens_opening_append, pieces_line_line, Scan.placed_append]
  exact ⟨_, rfl, rfl, rfl⟩

/-- The tree of a tune of one line. -/
def tuneTree (its : List Item) (e : Token) : Tree :=
  ⟨[], [⟨openingLines, [.music ⟨its, some e⟩], []⟩]⟩

/-- A line of notes is read into items that are, but for their places, those that it was written
from. -/
theorem exists_tree (w : WrittenNote) (ws : List WrittenNote) : ∃ its e, e.lexeme = ['\n'] ∧
    textTokens (tuneOf (line (w :: ws))) = textTokens opening ++ (placedTokens (w :: ws) ++ [e]) ∧
    Tree.ofTokens (scan (tuneOf (line (w :: ws)))) = (tuneTree its e, []) ∧
    Item.tokensOf its = placedTokens (w :: ws) ∧
    Item.mapAll Token.forget its = Item.mapAll Token.forget (items (w :: ws)) := by
  obtain ⟨e, ends, feed, tokens⟩ := textTokens_tuneOf (w :: ws)
  obtain ⟨u, us, first, starts⟩ := exists_placedTokens_cons w ws
  have visible : u.kind ≠ .whitespace := by
    intro space
    rw [space] at starts
    cases starts
  have inside : ∀ t ∈ u :: us, MusicLine.isBoundary t.kind = false ∧ t.kind ≠ .eof := by
    intro t member
    have written := isWritten_of_mem_placedTokens (first ▸ member)
    cases hk : t.kind <;> rw [hk] at written <;> cases written <;> exact ⟨rfl, by simp⟩
  have tree := Tree.ofTokens_line visible inside ends
  rw [← first, ← tokens, ← Tree.ofTokens_scan] at tree
  have forgotten : (placedTokens (w :: ws)).map Token.forget =
      (Item.tokensOf (items (w :: ws))).map Token.forget := by
    have forget : Token.forget = (fun p : Piece => Token.unplaced p.kind p.text) ∘ Token.piece := rfl
    rw [forget, ← List.map_map, map_piece_placedTokens, List.map_map]
  have read := Token.relabels_forget.readAll false (placedTokens (w :: ws))
  rw [forgotten, Token.relabels_forget.readAll, readAll_items] at read
  simp only [Reading.map, List.map_nil, Reading.mk.injEq] at read
  obtain ⟨own, problems, _⟩ := read
  rw [List.map_eq_nil_iff.mp problems.symm] at tree
  exact ⟨_, e, feed, tokens, tree, Item.tokensOf_readAll _, own.symm⟩

theorem lexicalFault?_of_mem {ws : List WrittenNote} (h : t ∈ textTokens (tuneOf (line ws))) :
    t.lexicalFault? = none := by
  obtain ⟨e, ends, _, tokens⟩ := textTokens_tuneOf ws
  rw [tokens] at h
  simp only [List.mem_append, List.mem_singleton] at h
  rcases h with member | member | rfl
  · have every : (textTokens opening).all (·.lexicalFault? = none) = true := by
      rw [textTokens_opening]
      decide
    exact of_decide_eq_true (List.all_eq_true.mp every t member)
  · have written := isWritten_of_mem_placedTokens member
    cases hk : t.kind <;> rw [hk] at written <;> cases written <;> simp [Token.lexicalFault?, hk]
  · simp [Token.lexicalFault?, ends]

theorem hasErrors_tuneOf (source : String) (w : WrittenNote) (ws : List WrittenNote) :
    (Document.analyze source (tuneOf (line (w :: ws)))).hasErrors = false := by
  obtain ⟨its, e, _, _, tree, _⟩ := exists_tree w ws
  rw [Document.hasErrors_eq_false]
  constructor
  · rw [Document.analyze, noErrors_scan]
    intro t member
    exact lexicalFault?_of_mem member
  · rw [Document.analyze, tree]
    intro p member
    cases member

/-! One pass. -/

theorem join_rescaleAll {k : Scaling} {its : List Item} {ws : List WrittenNote}
    (same : Item.mapAll Token.forget its = Item.mapAll Token.forget (items ws))
    (h : ∀ w ∈ ws, w.Scales k) :
    Token.join (Item.tokensOf (Item.rescaleAll k (fun _ => true) its)) =
      line (ws.map (scaled k.operator)) := by
  have forget (ts : List Token) : Token.join (ts.map Token.forget) = Token.join ts :=
    List.flatMap_map ..
  have drop (its : List Item) :
      Token.join (Item.tokensOf (Item.rescaleAll k (fun _ => true) (Item.mapAll Token.forget its))) =
        Token.join (Item.tokensOf (Item.rescaleAll k (fun _ => true) its)) := by
    rw [Item.rescaleAll_map Token.relabels_forget fun _ _ => rfl, Item.tokensOf_mapAll, forget]
  rw [← drop, same, drop, rescale_items h, join_items]

theorem join_rescale_tuneTree {k : Scaling} {its : List Item} {e : Token} {ws : List WrittenNote}
    (feed : e.lexeme = ['\n'])
    (same : Item.mapAll Token.forget its = Item.mapAll Token.forget (items ws))
    (h : ∀ w ∈ ws, w.Scales k) :
    Token.join ((tuneTree its e).rescale k fun _ => true).tokens =
      tuneOf (line (ws.map (scaled k.operator))) := by
  have front : Token.join (openingLines.flatMap HeaderLine.tokens) = opening := by
    have lines := Tune.readHeader_append true (textTokens opening ++ [])
    rw [readHeader_opening, List.append_nil, List.append_nil] at lines
    rw [lines, join_textTokens]
  rw [tuneOf, ← join_rescaleAll same h]
  simp [tuneTree, Tree.rescale, Tune.rescale, BodyLine.rescale, MusicLine.rescale, Tree.tokens,
    Tune.tokens, Tune.headerTokens, Tune.bodyTokens, BodyLine.tokens, MusicLine.tokens, front, feed]

/-- A selection of the whole line meets every note of it. -/
theorem intersects_of_mem {its : List Item} {ws : List WrittenNote} {s : Sound}
    (own : Item.tokensOf its = placedTokens ws) (h : s ∈ Item.soundsOf its) :
    (Selection.between ⟨2, 0⟩ ⟨2, (line ws).units⟩).intersects s = true := by
  apply Selection.intersects_line
  intro t member
  have placed : t ∈ placedTokens ws := own ▸ Item.tokens_of_mem_soundsOf its h member
  have text : Piece.join ((Item.tokensOf (items ws)).map Token.piece) = line ws := by
    rw [Token.join_map_piece, join_items]
  have filled : ∀ p ∈ (Item.tokensOf (items ws)).map Token.piece, p.text ≠ [] := by
    intro p listed
    have found : p ∈ Scan.pieces (line ws ++ ['\n']) := by
      rw [pieces_line_line]
      exact List.mem_append_left _ listed
    exact (Scan.isProper_of_mem_pieces found).1
  have absent := not_mem_line ws (c := '\n') (by decide)
  rw [← text] at absent ⊢
  exact Scan.liesOn_of_mem_placed filled absent placed

theorem byteAt_tuneOf (ws : List WrittenNote) (column : Nat) :
    (tuneOf (line ws)).byteAt ⟨2, column⟩ = opening.bytes + Text.bytesToColumn (line ws) column := by
  have smooth : ∀ c ∈ line ws, Text.isLineBreak c = false := by
    intro c inside
    cases breaks : Text.isLineBreak c with
    | false => rfl
    | true =>
      simp only [Text.isLineBreak, Bool.or_eq_true, decide_eq_true_eq] at breaks
      rcases breaks with rfl | rfl
      · exact absurd inside (not_mem_line ws (by decide))
      · exact absurd inside (not_mem_line ws (by decide))
  have lines : opening.lines.length = 2 := by decide
  have ends : opening.getLast? = some '\n' := by decide
  have found := Text.byteAt_line ends smooth column
  rwa [lines] at found

theorem sounds_tuneTree (its : List Item) (e : Token) :
    (tuneTree its e).sounds = Item.soundsOf its := by
  simp [Tree.sounds, tuneTree, Tune.musicLines, BodyLine.music?]

/-- The edits of a line are in order, and those of all its notes. -/
theorem edits_tuneTree (k : Scaling) {its : List Item} {e : Token} {ws : List WrittenNote}
    (tokens : (tuneTree its e).tokens = textTokens (tuneOf (line ws)))
    (own : Item.tokensOf its = placedTokens ws) (filled : line ws ≠ []) :
    k.edits (tuneTree its e) (Selection.between ⟨2, 0⟩ ⟨2, (line ws).units⟩) =
      k.editsOf (fun _ => true) (Item.soundsOf its) := by
  have apart : (⟨2, 0⟩ : Position) ≠ ⟨2, (line ws).units⟩ := by
    obtain ⟨c, cs, text⟩ := List.exists_cons_of_ne_nil filled
    have := Text.charUnits_pos c
    rw [text, Text.units_cons]
    simp
    omega
  have met : k.editsOf (Selection.between ⟨2, 0⟩ ⟨2, (line ws).units⟩).intersects
      (Item.soundsOf its) = k.editsOf (fun _ => true) (Item.soundsOf its) := by
    refine List.flatMap_congr fun s listed => ?_
    rw [intersects_of_mem own listed]
  have ordered := (((tuneTree its e).spliced k fun _ => true).spans
    (tokens ▸ tiles_textTokens _)).2
  rw [sounds_tuneTree] at ordered
  rw [Scaling.edits_eq, k.meets_eq _ (Selection.isCursor_between apart), sounds_tuneTree, met]
  exact List.mergeSort_of_pairwise (by simpa only [decide_eq_true_eq] using ordered)

/-- No edit reaches past the line. -/
theorem within_of_mem_editsOf (k : Scaling) {its : List Item} {ws : List WrittenNote}
    (own : Item.tokensOf its = placedTokens ws) :
    ∀ e ∈ k.editsOf (fun _ => true) (Item.soundsOf its),
      opening.bytes ≤ e.span.start ∧ e.span.stop ≤ opening.bytes + (line ws).bytes := by
  have size : opening.bytes = 8 := by decide
  have tiles : Token.Tiles opening.bytes (Item.tokensOf its) := by
    rw [own, size]
    exact Token.tiles_placed _ _ _
  have within := ((Item.splicedAll k (fun _ => true) its).spans tiles).1
  rwa [own, join_placedTokens] at within

/-- Scaling a whole line of notes writes the line of the scaled notes in its place. -/
theorem scale?_line (source : String) {k : Scaling} {w : WrittenNote} {ws : List WrittenNote}
    (h : ∀ v ∈ w :: ws, v.Scales k) : ∃ r,
    (Document.analyze source (tuneOf (line (w :: ws)))).scale? k ⟨2, 0⟩
        ⟨2, (line (w :: ws)).units⟩ = some r ∧
      r.text = line ((w :: ws).map (scaled k.operator)) ∧
      r.apply (tuneOf (line (w :: ws))) = tuneOf (line ((w :: ws).map (scaled k.operator))) := by
  obtain ⟨its, e, feed, _, tree, own, same⟩ := exists_tree w ws
  have good := hasErrors_tuneOf source w ws
  have made := join_rescale_tuneTree feed same h
  have whole := Tree.text_ofTokens_scan (tuneOf (line (w :: ws)))
  have tokens := Tree.tokens_ofTokens (scan (tuneOf (line (w :: ws))))
  rw [takeWhile_scan, tree] at tokens
  rw [tree] at whole
  have edits := edits_tuneTree k tokens own (line_ne_nil w ws)
  have spliced := (tuneTree its e).spliced k fun _ => true
  rw [tokens, sounds_tuneTree, ← edits] at spliced
  have within := within_of_mem_editsOf k own
  rw [← edits] at within
  refine ⟨k.apply (tuneTree its e) ⟨2, 0⟩ ⟨2, (line (w :: ws)).units⟩, ?_, ?_, ?_⟩
  · rw [Document.scale?, good, Document.analyze, tree]
    rfl
  · apply Scaling.text_apply _ _ whole spliced made
    · rw [Selection.between_line, ← tuneOf, byteAt_tuneOf, Text.bytesToColumn_zero]
      rfl
    · rw [Selection.between_line, ← tuneOf, byteAt_tuneOf, Text.bytesToColumn_units]
    · exact within
  · rw [Scaling.apply_eq _ _ whole spliced, made]

end WrittenNote

/-- The same limits, and the other operator. -/
def Scaling.opposite (k : Scaling) : Scaling :=
  { k with operator := k.operator.opposite }

theorem WrittenNote.Scales.opposite {k : Scaling} {w : WrittenNote} (h : w.Scales k) :
    (w.scaled k.operator).Scales k.opposite := by
  constructor
  · exact h.scaled
  · have own := h.own
    rwa [← Length.scaled_opposite w.lowest k.operator] at own

/-- A whole line of notes is scaled, and scaled back on the new text: what the first edit writes are
the scaled notes, and what the second writes is the line that was there. -/
theorem Document.scale?_opposite (source : String) (k : Scaling) (w : WrittenNote)
    (ws : List WrittenNote) (scales : ∀ v ∈ w :: ws, v.Scales k) :
    let line := WrittenNote.line (w :: ws)
    ∃ first second,
      (analyze source (tuneOf line)).scale? k ⟨2, 0⟩ ⟨2, line.units⟩ = some first ∧
      first.text = WrittenNote.line ((w :: ws).map (WrittenNote.scaled k.operator)) ∧
      first.apply (tuneOf line) = tuneOf first.text ∧
      (analyze source (first.apply (tuneOf line))).scale? k.opposite ⟨2, 0⟩
        ⟨2, first.text.units⟩ = some second ∧
      second.text = line ∧
      second.apply (first.apply (tuneOf line)) = tuneOf line := by
  intro line
  obtain ⟨first, scaled, text, applied⟩ := WrittenNote.scale?_line source scales
  have back : ∀ v ∈ (w :: ws).map (WrittenNote.scaled k.operator), v.Scales k.opposite := by
    intro v listed
    obtain ⟨u, member, rfl⟩ := List.mem_map.mp listed
    exact (scales u member).opposite
  obtain ⟨second, scaled', text', applied'⟩ := WrittenNote.scale?_line source back
  have restored : ((w :: ws).map (WrittenNote.scaled k.operator)).map
      (WrittenNote.scaled k.opposite.operator) = w :: ws := by
    rw [List.map_map]
    refine (List.map_congr_left fun v _ => ?_).trans (List.map_id _)
    exact v.scaled_opposite k.operator
  rw [← List.map_cons] at scaled' text' applied'
  rw [restored] at text' applied'
  rw [← applied, ← text] at scaled'
  rw [← applied] at applied'
  rw [← text] at applied
  exact ⟨first, second, scaled, text, applied, scaled', text', applied'⟩

theorem Document.scale?_opposite_halved :
    let k : Scaling := ⟨.divide, ⟨64, 64⟩⟩
    let note : WrittenNote := ⟨.pitch (some .sharpDbl) ⟨'a', by decide⟩ (some ⟨⟨',', by decide⟩, 1⟩),
      ⟨3, 2⟩, ⟨by decide, by decide, by decide⟩, some ⟨⟨'<', by decide⟩, 1⟩, true⟩
    let rest : WrittenNote :=
      ⟨.rest ⟨'z', by decide⟩, ⟨2, 1⟩, ⟨by decide, by decide, by decide⟩, none, false⟩
    (∀ v ∈ [note, rest], v.Scales k) ∧ WrittenNote.line [note, rest] = "^^a,,3/<<- z2".toList ∧
      ∃ first second,
        (analyze "abc" "X:1\nK:C\n^^a,,3/<<- z2\n".toList).scale? k ⟨2, 0⟩ ⟨2, 13⟩ = some first ∧
        first.text = "^^a,,3/4<<- z".toList ∧
        (analyze "abc" "X:1\nK:C\n^^a,,3/4<<- z\n".toList).scale? k.opposite ⟨2, 0⟩ ⟨2, 13⟩ =
          some second ∧
        second.text = "^^a,,3/<<- z2".toList := by
  intro k note rest
  have scales : ∀ v ∈ [note, rest], v.Scales k := by
    rintro v member
    rcases (by simpa using member : v = note ∨ v = rest) with rfl | rfl
    · exact ⟨by decide, by decide⟩
    · exact ⟨by decide, by decide⟩
  have written : WrittenNote.line [note, rest] = "^^a,,3/<<- z2".toList := by decide +kernel
  have halved : WrittenNote.line ([note, rest].map (WrittenNote.scaled k.operator)) =
      "^^a,,3/4<<- z".toList := by decide +kernel
  obtain ⟨first, second, scaled, text, applied, scaled', text', _⟩ :=
    scale?_opposite "abc" k note [rest] scales
  rw [applied] at scaled'
  rw [written] at scaled text'
  rw [halved] at text
  rw [text] at scaled'
  exact ⟨scales, written, first, second, scaled, text, scaled', text'⟩

end Tunebook
