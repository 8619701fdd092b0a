import Tunebook.Proofs.Rhythm.Editing
import Tunebook.Proofs.Rhythm.Preservation
import Tunebook.Proofs.Rhythm.Sounds
import Tunebook.Proofs.Text.Returning

/-! Selecting one whole line: the selection goes from the first byte of the line to its last, and it
meets every note and chord whose tokens lie on the line. Whether places are forgotten before or after
the lengths are scaled makes no difference. -/
namespace Tunebook

namespace Scaling

theorem foldl_min_eq {es : List Edit} (h : ∀ e ∈ es, n ≤ e.span.start) :
    es.foldl (fun n e => min n e.span.start) n = n := by
  induction es with
  | nil => rfl
  | cons e es ih =>
    rw [List.foldl_cons, Nat.min_eq_left (h e List.mem_cons_self)]
    exact ih fun f member => h f (List.mem_cons_of_mem e member)

theorem foldl_max_eq {es : List Edit} (h : ∀ e ∈ es, e.span.stop ≤ n) :
    es.foldl (fun n e => max n e.span.stop) n = n := by
  induction es with
  | nil => rfl
  | cons e es ih =>
    rw [List.foldl_cons, Nat.max_eq_left (h e List.mem_cons_self)]
    exact ih fun f member => h f (List.mem_cons_of_mem e member)

/-- Where no edit reaches past the selection, just the selected text is replaced. -/
theorem text_apply {k : Scaling} {tree : Tree} {front content back new : Text} (a b : Position)
    (own : tree.text = front ++ (content ++ back))
    (h : Spliced k (textTokens (front ++ (content ++ back)))
      (k.edits tree (Selection.between a b)) us)
    (made : Token.join us = front ++ (new ++ back))
    (first : (front ++ (content ++ back)).byteAt (Selection.between a b).start = front.bytes)
    (last : (front ++ (content ++ back)).byteAt (Selection.between a b).stop =
      front.bytes + content.bytes)
    (within : ∀ e ∈ k.edits tree (Selection.between a b),
      front.bytes ≤ e.span.start ∧ e.span.stop ≤ front.bytes + content.bytes) :
    (k.apply tree a b).text = new := by
  have tiles : Token.Tiles (Text.bytes []) (textTokens (front ++ (content ++ back))) :=
    tiles_textTokens _
  have whole := h.splice?_eq [] tiles
  rw [List.nil_append, join_textTokens, Text.bytes_nil, made] at whole
  have ahead : (front ++ (content ++ back)).slice? ⟨0, front.bytes⟩ = some front := by
    simpa using Text.slice?_middle [] front (content ++ back)
  have behind : (front ++ (content ++ back)).slice?
      ⟨front.bytes + content.bytes, (front ++ (content ++ back)).bytes⟩ = some back := by
    simpa [Nat.add_assoc] using Text.slice?_middle (front ++ content) back []
  simp only [apply, own, first, last, Nat.max_eq_right (Nat.le_add_right _ _)]
  generalize k.edits tree (Selection.between a b) = es at *
  have starts : ∀ e ∈ es, front.bytes ≤ e.span.start := fun e listed => (within e listed).1
  have stops : ∀ e ∈ es, e.span.stop ≤ front.bytes + content.bytes :=
    fun e listed => (within e listed).2
  obtain ⟨f, m, b, ahead', cut, behind', parts⟩ := splice?_between whole
    (Text.isBoundary_of_slice? ahead).2 (Text.isBoundary_of_slice? behind).1 (Nat.le_add_right _ _)
    starts stops
  cases ahead.symm.trans ahead'
  cases behind.symm.trans behind'
  rw [foldl_min_eq starts, foldl_max_eq stops, splice_of_splice? cut]
  rw [List.append_assoc] at parts
  exact (List.append_cancel_right (List.append_cancel_left parts)).symm

end Scaling

/-- The token lies on this line, and short of this column. -/
structure Token.LiesOn (line columns : Nat) (t : Token) : Prop where
  first : t.start.line = line
  before : t.start.column < columns
  last : t.stop.line = line
  after : 0 < t.stop.column

/-- The pieces of a line without line feeds lie on it. -/
theorem Scan.liesOn_of_mem_placed {ps : List Piece} (filled : ∀ p ∈ ps, p.text ≠ [])
    (absent : '\n' ∉ Piece.join ps) (h : t ∈ placed ⟨n, 0⟩ offset ps) :
    t.LiesOn n (Piece.join ps).units := by
  obtain ⟨front, p, back, rfl, rfl⟩ := exists_of_mem_placed h
  simp only [Piece.join_append, Piece.join_cons, List.mem_append, not_or] at absent
  have own : p.text ≠ [] := filled p (by simp)
  have units : 0 < p.text.units := by
    obtain ⟨c, cs, text⟩ := List.exists_cons_of_ne_nil own
    have := Text.charUnits_pos c
    rw [text, Text.units_cons]
    omega
  have start := Position.after_line ⟨n, 0⟩ absent.1
  have stop := Position.after_line ((⟨n, 0⟩ : Position).after (Piece.join front)) absent.2.1
  constructor
  · rw [start]
  · simp only [start, Piece.join_append, Piece.join_cons, Text.units_append]
    omega
  · rw [Token.stop, stop, start]
  · rw [Token.stop, stop, start]
    dsimp only
    omega

theorem Selection.between_line (line columns : Nat) :
    between ⟨line, 0⟩ ⟨line, columns⟩ = ⟨⟨line, 0⟩, ⟨line, columns⟩⟩ := by
  have forward : ¬(⟨line, columns⟩ : Position) < ⟨line, 0⟩ := by
    rintro (below | ⟨_, before⟩)
    · exact Nat.lt_irrefl _ below
    · exact Nat.not_lt_zero _ before
  rw [between, if_neg forward]

/-- A selection of a line meets the sounds on it. -/
theorem Selection.intersects_line {s : Sound} (h : ∀ t ∈ s.tokens, t.LiesOn line columns) :
    (Selection.between ⟨line, 0⟩ ⟨line, columns⟩).intersects s = true := by
  obtain ⟨first, starts⟩ : ∃ first, s.tokens.head? = some first :=
    ⟨_, List.head?_eq_some_head s.tokens_ne_nil⟩
  obtain ⟨last, ends⟩ : ∃ last, s.tokens.getLast? = some last :=
    ⟨_, List.getLast?_eq_some_getLast s.tokens_ne_nil⟩
  have front := h first (List.mem_of_head? starts)
  have back := h last (List.mem_of_getLast? ends)
  have before : first.start < ⟨line, columns⟩ := .inr ⟨front.first, front.before⟩
  have after : (⟨line, 0⟩ : Position) < last.stop := .inr ⟨back.last.symm, back.after⟩
  simp [between_line, intersects, s.range_eq, Token.cover, starts, ends, before, after]

/-! Scaling and places. -/

namespace Token.Relabels

variable {f : Token → Token} (hf : Token.Relabels f)
  (fresh : ∀ kind lexeme, f (.unplaced kind lexeme) = .unplaced kind lexeme) (k : Scaling)
include hf fresh

theorem rescaleRhythm (r : Rhythm) : (r.map f).rescale k = (r.rescale k).map f := by
  have length : k.length? (r.map f) = k.length? r := by
    rw [Scaling.length?, hf.readLength?, Scaling.length?]
  rw [Rhythm.rescale, length, Rhythm.rescale]
  cases k.length? r with
  | none => rfl
  | some n =>
    simp only [Length.rhythm, Rhythm.map, apply_ite (Option.map f), Option.map_some, fresh,
      Option.map_none]

theorem rescaleNote (n : Note) : (n.map f).rescale k = (n.rescale k).map f := by
  simp only [Note.rescale, Note.map, hf.rescaleRhythm fresh]

theorem rescaleChord (c : Chord) : (c.map f).rescale k = (c.rescale k).map f := by
  have bare (r : Rhythm) : (r.map f).lengthTokens.isEmpty = r.lengthTokens.isEmpty := by
    obtain ⟨numerator, separator, denominator, _⟩ := r
    cases numerator <;> cases separator <;> cases denominator <;> rfl
  have notewise : Scaling.editsNotes (c.map f) = Scaling.editsNotes c := by
    simp only [Scaling.editsNotes, Chord.notes_map, List.any_map, Function.comp_def]
    simp only [Chord.map, Note.map, bare]
  have part (p : ChordPart) : (p.map f).rescale k = (p.rescale k).map f := by
    cases p with
    | note n => simp only [ChordPart.map, ChordPart.rescale, hf.rescaleNote fresh]
    | quotedText t | token t => rfl
  rw [Chord.rescale, notewise, Chord.rescale]
  split
  · simp only [Chord.map, List.map_map, Function.comp_def, part]
  · simp only [Chord.map, hf.rescaleRhythm fresh]

end Token.Relabels

mutual

theorem Item.rescale_map {f : Token → Token} (hf : Token.Relabels f)
    (fresh : ∀ kind lexeme, f (.unplaced kind lexeme) = .unplaced kind lexeme) (k : Scaling)
    (item : Item) :
    (item.map f).rescale k (fun _ => true) = (item.rescale k fun _ => true).map f := by
  cases item with
  | note n => simp only [map, rescale, if_true, hf.rescaleNote fresh]
  | chord c => simp only [map, rescale, if_true, hf.rescaleChord fresh]
  | slur left contents right => simp only [map, rescale, Item.rescaleAll_map hf fresh k contents]
  | _ => simp only [map, rescale]

theorem Item.rescaleAll_map {f : Token → Token} (hf : Token.Relabels f)
    (fresh : ∀ kind lexeme, f (.unplaced kind lexeme) = .unplaced kind lexeme) (k : Scaling)
    (items : List Item) :
    Item.rescaleAll k (fun _ => true) (Item.mapAll f items) =
      Item.mapAll f (Item.rescaleAll k (fun _ => true) items) := by
  cases items with
  | nil => simp only [mapAll, rescaleAll]
  | cons item items =>
    simp only [mapAll, rescaleAll, Item.rescale_map hf fresh k item,
      Item.rescaleAll_map hf fresh k items]

end
end Tunebook
