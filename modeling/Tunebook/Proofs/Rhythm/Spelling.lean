import Tunebook.Proofs.Rhythm.Rescanning
import Tunebook.Proofs.Rhythm.Writing

/-! A line of written notes is scanned as it was written: head, length and marks are cut off behind
one another, and the space behind each note ends it. -/
namespace Tunebook
open Scan

theorem Token.NextNot.head?_piece {p : Kind → Bool} (h : NextNot p ts) :
    ∀ q ∈ (ts.map piece).head?, p q.kind = false := by
  intro q member
  obtain ⟨t, first, rfl⟩ := Option.map_eq_some_iff.mp (List.head?_map ▸ member)
  exact h t first

/-- The line feed behind a line. -/
def Token.lineFeed : Token :=
  .unplaced .eol ['\n']

/-- A character is cut off by itself, if every one of its choice is a token and ends it. -/
theorem OneOf.cut {kind : Kind} (c : OneOf choice)
    (every : choice.toList.all (fun c => (Rule.candidates c).all (·.pattern.endsAt c) &&
      Rule.longest (Rule.candidates c) [c] == some (kind, 1)) = true)
    (rest : Cut ps) : Cut (⟨kind, [c.val]⟩ :: ps) := by
  obtain ⟨ends, wins⟩ := Bool.and_eq_true_iff.mp (List.all_eq_true.mp every c c.property)
  exact Cut.single ⟨ends, eq_of_beq wins⟩ rest

namespace Strokes

theorem mem_text {s : Strokes choice} (h : c ∈ s.text) : c = s.char :=
  List.eq_of_mem_replicate h

/-- Strokes are cut off as one, if nothing behind them is of their class. -/
theorem cut (s : Strokes choice) {kind : Char → Kind} {p : Kind → Bool}
    (runs : ∀ c ∈ choice.toList, p (kind c) = true ∧ IsRun (kind c) (· = c))
    (next : Token.NextNot p ts) (rest : Cut (ts.map Token.piece)) :
    Cut ((s.token kind :: ts).map Token.piece) := by
  obtain ⟨own, run⟩ := runs s.char s.char.property
  have nonempty : s.text ≠ [] := by simp [text]
  apply Cut.run (p := (s.token kind).piece) run nonempty _ _ rest
  · intro c member
    exact decide_eq_true (mem_text member)
  · intro q member same
    have fails := next.head?_piece q member
    rw [same] at fails
    rw [show (s.token kind).piece.kind = kind s.char from rfl, own] at fails
    cases fails

theorem cut_octave (s : Strokes "\x27,") (next : Token.NextNot Kind.isOctave ts)
    (rest : Cut (ts.map Token.piece)) : Cut ((s.token octaveKind :: ts).map Token.piece) := by
  apply s.cut _ next rest
  intro c member
  rcases (by simpa using member : c = '\x27' ∨ c = ',') with rfl | rfl
  · exact ⟨rfl, isRun_apostrophe⟩
  · exact ⟨rfl, isRun_comma⟩

theorem cut_broken (s : Strokes "<>") (next : Token.NextNot Kind.isBroken ts)
    (rest : Cut (ts.map Token.piece)) : Cut ((s.token brokenKind :: ts).map Token.piece) := by
  apply s.cut _ next rest
  intro c member
  rcases (by simpa using member : c = '<' ∨ c = '>') with rfl | rfl
  · exact ⟨rfl, isRun_less⟩
  · exact ⟨rfl, isRun_greater⟩

end Strokes

namespace WrittenHead

theorem cut_letter (letter : OneOf "ABCDEFGabcdefg") (rest : Cut ps) :
    Cut (⟨.noteLetter, [letter.val]⟩ :: ps) :=
  letter.cut (by decide) rest

theorem cut_rest (letter : OneOf "xz") (rest : Cut ps) : Cut (⟨.restLetter, [letter.val]⟩ :: ps) :=
  letter.cut (by decide) rest

/-- No letter of a note goes on with an accidental. -/
theorem cut_accidental (a : Accidental) (letter : OneOf "ABCDEFGabcdefg")
    (rest : Cut (⟨.noteLetter, [letter.val]⟩ :: ps)) :
    Cut (⟨a.kind, a.text⟩ :: ⟨.noteLetter, [letter.val]⟩ :: ps) := by
  obtain ⟨d, ds, text⟩ : ∃ d ds, a.text = d :: ds := by cases a <;> exact ⟨_, _, rfl⟩
  have every : "ABCDEFGabcdefg".toList.all (fun c => (Rule.candidates d).all (·.pattern.endsAt c) &&
      Rule.longest (Rule.candidates d) (d :: ds ++ [c]) == some (a.kind, (d :: ds).length)) = true := by
    cases a <;> cases text <;> decide
  obtain ⟨ends, wins⟩ := Bool.and_eq_true_iff.mp (List.all_eq_true.mp every letter letter.property)
  have whole : a.text ++ Piece.join (⟨.noteLetter, [letter.val]⟩ :: ps) =
      d :: ds ++ letter.val :: Piece.join ps := by
    rw [text]
    rfl
  apply Cut.ended (d := d) _ whole ends _ rest
  · simp [text]
  · rw [eq_of_beq wins, text]

theorem cut (h : WrittenHead) (next : Token.NextNot Kind.isOctave ts)
    (rest : Cut (ts.map Token.piece)) : Cut ((h.head.tokens ++ ts).map Token.piece) := by
  cases h with
  | rest letter => exact cut_rest letter rest
  | pitch accidental letter octave =>
    have marked : Cut (((octave.map (Strokes.token octaveKind)).toList ++ ts).map Token.piece) := by
      cases octave with
      | none => exact rest
      | some s => exact s.cut_octave next rest
    have pitched := cut_letter letter marked
    cases accidental with
    | none => exact pitched
    | some a => exact cut_accidental a letter pitched

end WrittenHead

theorem Scan.cut_minus (rest : Cut ps) : Cut (⟨.minus, ['-']⟩ :: ps) :=
  Cut.single (by decide) rest

theorem Scan.cut_lineFeed : Cut [Token.lineFeed.piece] :=
  cut_eol List.mem_cons_self

namespace WrittenNote

/-- What stands behind a note is a space or the end of the line. -/
abbrev Ends (ts : List Token) : Prop :=
  Token.NextNot (!Kind.isWhitespace ·) ts

theorem Ends.nextNot {p : Kind → Bool} (h : Ends ts)
    (visible : ∀ k, p k = true → k.isWhitespace = false) : Token.NextNot p ts := by
  apply h.mono
  intro k passes
  simp [visible k passes]

theorem Ends.nextNot_isRhythm (h : Ends ts) : Token.NextNot Kind.isRhythm ts := by
  apply h.nextNot
  rintro k rhythm
  cases k <;> cases rhythm <;> rfl

theorem Ends.nextNot_isOctave (h : Ends ts) : Token.NextNot Kind.isOctave ts := by
  apply h.nextNot
  rintro k octave
  cases k <;> cases octave <;> rfl

theorem Ends.nextNot_minus (h : Ends ts) : Token.NextNot (· = .minus) ts := by
  apply h.nextNot
  intro k same
  obtain rfl := of_decide_eq_true same
  rfl

theorem cut (w : WrittenNote) (next : Ends ts) (rest : Cut (ts.map Token.piece)) :
    Cut ((w.note.tokens ++ ts).map Token.piece) := by
  have fits := w.fits_note
  have tied : Cut ((w.note.tie.toList ++ ts).map Token.piece) := by
    cases ht : w.tied with
    | false => simpa [note, ht] using rest
    | true => simpa [note, ht, Token.unplaced, Token.piece] using cut_minus rest
  have broken : Cut ((w.note.rhythm.broken.toList ++ (w.note.tie.toList ++ ts)).map Token.piece) := by
    have behind : Token.NextNot Kind.isBroken (w.note.tie.toList ++ ts) := by
      apply Token.nextNot_toList_append
      · intro t member
        rw [fits.tie t member]
        rfl
      · apply next.nextNot_isRhythm.mono
        rintro k mark
        cases k <;> cases mark <;> rfl
    cases hb : w.broken with
    | none => simpa [note, Length.rhythm, hb] using tied
    | some s => simpa [note, Length.rhythm, hb] using s.cut_broken behind tied
  have length := w.length.cut_rhythm (w.broken.map (Strokes.token brokenKind)) broken
    (Rhythm.nextNot_isLength fits.rhythm fits.tie next.nextNot_isRhythm).head?_piece
  have behind : Cut ((w.note.rhythm.tokens ++ (w.note.tie.toList ++ ts)).map Token.piece) := by
    simpa [Rhythm.tokens, note] using length
  have headed := w.head.cut (fits.nextNot_octave fun _ _ => next.nextNot_isOctave) behind
  simpa [Note.tokens, note] using headed

/-- A line starts with its first note. -/
theorem exists_items_cons (w : WrittenNote) (ws : List WrittenNote) :
    ∃ more, Item.tokensOf (items (w :: ws)) = w.note.head.first :: more := by
  cases ws with
  | nil =>
    have own : Item.tokensOf (items [w]) = w.note.tokens := by
      simp [items, Item.tokensOf, Item.tokens]
    exact ⟨_, own.trans w.note.tokens_eq⟩
  | cons v ws =>
    rw [items_cons_cons, Item.tokensOf, Item.tokens, w.note.tokens_eq]
    exact ⟨_, rfl⟩

/-- A line of notes with its line feed is cut into the tokens that it stands for. -/
theorem cut_items (ws : List WrittenNote) :
    Cut ((Item.tokensOf (items ws) ++ [Token.lineFeed]).map Token.piece) := by
  induction ws with
  | nil => exact cut_lineFeed
  | cons w ws ih =>
    cases ws with
    | nil =>
      have whole : Cut ((w.note.tokens ++ [Token.lineFeed]).map Token.piece) :=
        w.cut (Token.nextNot_cons.mpr rfl) cut_lineFeed
      simpa [items, Item.tokensOf, Item.tokens] using whole
    | cons v ws =>
      have next : Token.NextNot (· = .whitespace) (Item.tokensOf (items (v :: ws)) ++ [Token.lineFeed]) := by
        obtain ⟨more, first⟩ := exists_items_cons v ws
        rw [first, List.cons_append, Token.nextNot_cons]
        have starts := v.fits_note.head.startsNote
        cases hk : v.note.head.first.kind <;> rw [hk] at starts <;> cases starts <;> rfl
      have spaced : Cut ((space :: (Item.tokensOf (items (v :: ws)) ++ [Token.lineFeed])).map
          Token.piece) := by
        have blank : ∀ d ∈ [' '], " \t".toList.contains d = true := by simp
        apply Cut.run (p := space.piece) isRun_whitespace (by decide) blank _ ih
        intro q member
        exact of_decide_eq_false (next.head?_piece q member)
      have whole := w.cut (Token.nextNot_cons.mpr rfl) spaced
      simpa [items_cons_cons, Item.tokensOf, Item.tokens] using whole

end WrittenNote

theorem WrittenNote.line_ne_nil (w : WrittenNote) (ws : List WrittenNote) : line (w :: ws) ≠ [] := by
  have cut := cut_items (w :: ws)
  obtain ⟨more, first⟩ := exists_items_cons w ws
  rw [first] at cut
  rw [← join_items, first, Token.join_cons]
  exact List.append_ne_nil_of_left_ne_nil cut.1 _

/-- Notes are written without colons and line breaks. -/
theorem Rule.avoids_of_isWritten (h : rule ∈ music) (written : rule.kind.isWritten = true)
    (hc : c ∈ [':', '\n', '\r']) : rule.pattern.avoids c = true := by
  have every : music.all (fun rule => !rule.kind.isWritten ||
      [':', '\n', '\r'].all rule.pattern.avoids) = true := by decide
  have row := List.all_eq_true.mp every rule h
  rw [written, Bool.not_true, Bool.false_or] at row
  exact List.all_eq_true.mp row c hc

namespace WrittenNote

theorem not_mem_line (ws : List WrittenNote) (hc : c ∈ [':', '\n', '\r']) : c ∉ line ws := by
  rw [← join_items]
  intro inside
  obtain ⟨t, member, own⟩ := List.mem_flatMap.mp inside
  have listed : t.piece ∈ (Item.tokensOf (items ws) ++ [Token.lineFeed]).map Token.piece :=
    List.mem_map_of_mem (List.mem_append_left _ member)
  obtain ⟨rule, known, same, whole⟩ := (cut_items ws).exists_rule_of_mem listed
  have written : rule.kind.isWritten = true := same ▸ isWritten_of_mem member
  exact Pattern.not_mem_of_avoids (Rule.avoids_of_isWritten known written hc) whole own

/-- A line of notes is scanned into the tokens that it stands for. -/
theorem line_line (ws : List WrittenNote) :
    Scan.line (line ws ++ ['\n']) =
      (Item.tokensOf (items ws) ++ [Token.lineFeed]).map Token.piece := by
  have text : line ws ++ ['\n'] =
      Piece.join ((Item.tokensOf (items ws) ++ [Token.lineFeed]).map Token.piece) := by
    rw [Token.join_map_piece, Token.join_append, join_items]
    rfl
  have music : ¬IsField (line ws ++ ['\n']) := by
    rintro ⟨c, rest, whole, _⟩
    have colon : ':' ∈ line ws ++ ['\n'] := by simp [whole]
    rcases List.mem_append.mp colon with inside | other
    · exact not_mem_line ws (by decide) inside
    · exact absurd other (by decide)
  rw [line_of_not_field music, text, musicLine_of_cut (cut_items ws)]

end WrittenNote
end Tunebook
