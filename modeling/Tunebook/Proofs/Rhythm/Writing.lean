import Tunebook.Proofs.Rhythm.Rescaling

/-! Notes as they are written on a line: a head, a length in its shortest form, the mark of a broken
rhythm and a tie, with one space between two notes. Written notes stand for notes whose tokens have
no place yet, and scaling those writes the scaled lengths. -/
namespace Tunebook

def Operator.opposite : Operator → Operator
  | multiply => divide
  | divide => multiply

/-- The digits of a length: no numerator of 1, no denominator of 1, and a bare slash for a half. -/
def Length.written : Length → String
  | ⟨1, 1⟩ => ""
  | ⟨n, 1⟩ => toString n
  | ⟨1, 2⟩ => "/"
  | ⟨n, 2⟩ => toString n ++ "/"
  | ⟨1, d⟩ => "/" ++ toString d
  | ⟨n, d⟩ => toString n ++ "/" ++ toString d

inductive Accidental where
  | sharp | sharpDbl | flat | flatDbl | natural
  deriving DecidableEq, Repr

namespace Accidental

def text : Accidental → Text
  | sharp => ['^']
  | sharpDbl => ['^', '^']
  | flat => ['_']
  | flatDbl => ['_', '_']
  | natural => ['=']

def kind : Accidental → Kind
  | sharp => .sharp
  | sharpDbl => .sharpDbl
  | flat => .flat
  | flatDbl => .flatDbl
  | natural => .natural

end Accidental

/-- One character of a choice. -/
abbrev OneOf (choice : String) :=
  { c : Char // c ∈ choice.toList }

/-- One character of a choice, once or several times. -/
structure Strokes (choice : String) where
  char : OneOf choice
  more : Nat

def Strokes.text (s : Strokes choice) : Text :=
  List.replicate (s.more + 1) s.char.val

inductive WrittenHead where
  | pitch (accidental : Option Accidental) (letter : OneOf "ABCDEFGabcdefg")
    (octave : Option (Strokes "\x27,"))
  | rest (letter : OneOf "xz")

/-- A note with a length in lowest terms. -/
structure WrittenNote where
  head : WrittenHead
  length : Length
  lowest : length.Lowest
  broken : Option (Strokes "<>")
  tied : Bool

def WrittenHead.text : WrittenHead → Text
  | pitch accidental letter octave =>
    accidental.elim [] Accidental.text ++ letter.val :: octave.elim [] Strokes.text
  | rest letter => [letter.val]

namespace WrittenNote

def text (w : WrittenNote) : Text :=
  w.head.text ++ w.length.written.toList ++ w.broken.elim [] Strokes.text ++
    if w.tied then ['-'] else []

/-- The note with its length scaled. -/
def scaled (operator : Operator) (w : WrittenNote) : WrittenNote :=
  { w with length := w.length.scaled operator, lowest := w.lowest.scaled operator }

/-- A line of notes, with a space between any two. -/
def line (ws : List WrittenNote) : Text :=
  [' '].intercalate (ws.map text)

end WrittenNote

/-! Scaling back and forth. -/

theorem Length.scaled_opposite {n : Length} (h : n.Lowest) (operator : Operator) :
    (n.scaled operator).scaled operator.opposite = n := by
  have apart : n.numerator % 2 = 0 → n.denominator % 2 = 0 → False := by
    intro above below
    have divides := Nat.dvd_gcd (Nat.dvd_of_mod_eq_zero above) (Nat.dvd_of_mod_eq_zero below)
    rw [h.coprime] at divides
    omega
  cases operator with
  | multiply =>
    by_cases even : n.denominator % 2 = 0
    · have odd : n.numerator % 2 ≠ 0 := fun above => apart above even
      have whole : n.denominator / 2 * 2 = n.denominator := by omega
      simp [scaled, Operator.opposite, even, odd, whole]
    · simp [scaled, Operator.opposite, even]
  | divide =>
    by_cases even : n.numerator % 2 = 0
    · have odd : n.denominator % 2 ≠ 0 := apart even
      have whole : n.numerator / 2 * 2 = n.numerator := by omega
      simp [scaled, Operator.opposite, even, odd, whole]
    · simp [scaled, Operator.opposite, even]

theorem WrittenNote.scaled_opposite (w : WrittenNote) (operator : Operator) :
    (w.scaled operator).scaled operator.opposite = w := by
  obtain ⟨head, length, lowest, broken, tied⟩ := w
  simp only [scaled, Length.scaled_opposite lowest]

/-! The notes that written notes stand for. -/

/-- A length is written as it is rendered. -/
theorem Length.toList_written (n : Length) : n.written.toList = n.render := by
  have digits (m : Nat) : (toString m).toList = Nat.toDigits 10 m := by
    simp [toString, Nat.repr]
  unfold written render
  split <;> simp_all [String.toList_append]

def Strokes.token (kind : Char → Kind) (s : Strokes choice) : Token :=
  .unplaced (kind s.char) s.text

def octaveKind (c : Char) : Kind :=
  if c = ',' then .comma else .apostrophe

def brokenKind (c : Char) : Kind :=
  if c = '<' then .less else .greater

def WrittenHead.head : WrittenHead → NoteHead
  | pitch accidental letter octave =>
    .pitch (accidental.map fun a => .unplaced a.kind a.text) (.unplaced .noteLetter [letter])
      (octave.map (Strokes.token octaveKind))
  | rest letter => .rest (.unplaced .restLetter [letter])

namespace WrittenNote

def note (w : WrittenNote) : Note :=
  ⟨w.head.head, w.length.rhythm (w.broken.map (Strokes.token brokenKind)),
    if w.tied then some (.unplaced .minus ['-']) else none⟩

def space : Token :=
  .unplaced .whitespace [' ']

def items (ws : List WrittenNote) : List Item :=
  (ws.map fun w => .note w.note).intersperse (.token space)

theorem items_cons_cons (w v : WrittenNote) (ws : List WrittenNote) :
    items (w :: v :: ws) = .note w.note :: .token space :: items (v :: ws) := by
  simp only [items, List.map_cons, List.intersperse_cons_cons]

end WrittenNote

theorem WrittenHead.fits_head (h : WrittenHead) : h.head.Fits := by
  cases h with
  | rest letter => rfl
  | pitch accidental letter octave =>
    refine ⟨?_, rfl, ?_⟩
    · intro t member
      obtain ⟨a, _, rfl⟩ := Option.map_eq_some_iff.mp member
      cases a <;> rfl
    · intro t member
      obtain ⟨s, _, rfl⟩ := Option.map_eq_some_iff.mp member
      simp only [Strokes.token, Token.unplaced, octaveKind]
      split <;> rfl

theorem WrittenHead.join_tokens (h : WrittenHead) : Token.join h.head.tokens = h.text := by
  cases h with
  | rest letter => rfl
  | pitch accidental letter octave =>
    cases accidental <;> cases octave <;>
      simp [head, text, NoteHead.tokens, Token.unplaced, Strokes.token]

namespace WrittenNote

theorem fits_note (w : WrittenNote) : w.note.Fits := by
  refine ⟨w.head.fits_head, w.length.fits_rhythm ?_, ?_⟩
  · intro t member
    obtain ⟨s, _, rfl⟩ := Option.map_eq_some_iff.mp member
    simp only [Strokes.token, Token.unplaced, brokenKind]
    split <;> rfl
  · intro t member
    simp only [note] at member
    split at member <;> cases member
    rfl

theorem join_note (w : WrittenNote) : Token.join w.note.tokens = w.text := by
  have length := w.length.join_rhythm (w.broken.map (Strokes.token brokenKind))
  have broken : Token.join (w.broken.map (Strokes.token brokenKind)).toList =
      w.broken.elim [] Strokes.text := by
    cases w.broken <;> simp [Strokes.token, Token.unplaced]
  have tie : Token.join (if w.tied then some (Token.unplaced .minus ['-']) else none).toList =
      if w.tied then ['-'] else [] := by
    split <;> rfl
  rw [text, Length.toList_written, ← w.head.join_tokens, ← length, ← broken, ← tie]
  simp only [note, Note.tokens, Rhythm.tokens, Token.join_append, List.append_assoc]
  rfl

/-- The items of a line have its text. -/
theorem join_items (ws : List WrittenNote) : Token.join (Item.tokensOf (items ws)) = line ws := by
  induction ws with
  | nil => rfl
  | cons w ws ih =>
    cases ws with
    | nil => simp [items, line, Item.tokensOf, Item.tokens, join_note]
    | cons v ws =>
      simp only [line, List.map_cons, List.intercalate_cons_cons] at ih ⊢
      simp only [items_cons_cons, Item.tokensOf, Item.tokens, Token.join_append, join_note, ih,
        List.append_assoc]
      rfl

/-- Its length and the scaled one are within the limits. -/
structure Scales (k : Scaling) (w : WrittenNote) : Prop where
  own : w.length.isWithin k.limits = true
  scaled : (w.length.scaled k.operator).isWithin k.limits = true

theorem rescale_note {k : Scaling} {w : WrittenNote} (h : w.Scales k) :
    w.note.rescale k = (w.scaled k.operator).note := by
  have own := h.own
  simp only [Length.isWithin, Bool.and_eq_true, decide_eq_true_eq] at own
  have read := Length.read?_rhythm w.lowest own.1.1.1 own.1.1.2
    (w.broken.map (Strokes.token brokenKind))
  have given : k.length? w.note.rhythm = some (w.length.scaled k.operator) := by
    simp only [Scaling.length?, note, read, Option.bind_some, Length.scale?, h.scaled, if_true]
  rw [Note.rescale, Rhythm.rescale, given]
  rfl

theorem rescale_items {k : Scaling} {ws : List WrittenNote} (h : ∀ w ∈ ws, w.Scales k) :
    Item.rescaleAll k (fun _ => true) (items ws) = items (ws.map (scaled k.operator)) := by
  have each {w : WrittenNote} (member : w ∈ ws) :
      (Item.note w.note).rescale k (fun _ => true) = .note (w.scaled k.operator).note := by
    rw [Item.rescale, if_pos rfl, rescale_note (h w member)]
  induction ws with
  | nil => rfl
  | cons w ws ih =>
    have here := each List.mem_cons_self
    cases ws with
    | nil => simp [items, Item.rescaleAll, here]
    | cons v ws =>
      have behind := ih (fun u member => h u (List.mem_cons_of_mem w member))
        fun member => each (List.mem_cons_of_mem w member)
      simp only [List.map_cons, items_cons_cons, Item.rescaleAll, here] at behind ⊢
      rw [behind]
      rfl

end WrittenNote

/-- The kinds of the tokens of notes, and of the spaces between them. -/
def Kind.isWritten (k : Kind) : Bool :=
  k.startsNote || k.isOctave || k.isRhythm || k matches .minus | .whitespace

theorem NoteHead.Fits.isWritten {head : NoteHead} (fits : head.Fits) (h : t ∈ head.tokens) :
    t.kind.isWritten = true := by
  cases head with
  | rest letter =>
    obtain rfl := List.mem_singleton.mp h
    have rest : t.kind = .restLetter := fits
    rw [rest]
    rfl
  | pitch alteration letter octave =>
    obtain ⟨ha, hl, ho⟩ := fits
    simp only [NoteHead.tokens, List.mem_append, List.mem_cons, Option.mem_toList] at h
    rcases h with h | rfl | h
    · simp [Kind.isWritten, Kind.startsNote, ha t h]
    · rw [hl]
      rfl
    · simp [Kind.isWritten, ho t h]

theorem Note.Fits.isWritten {n : Note} (fits : n.Fits) (h : t ∈ n.tokens) :
    t.kind.isWritten = true := by
  simp only [Note.tokens, List.mem_append, Option.mem_toList] at h
  rcases h with (h | h) | h
  · exact fits.head.isWritten h
  · simp [Kind.isWritten, Rhythm.isRhythm_of_mem fits.rhythm h]
  · rw [fits.tie t h]
    rfl

theorem WrittenNote.isWritten_of_mem {ws : List WrittenNote} (h : t ∈ Item.tokensOf (items ws)) :
    t.kind.isWritten = true := by
  induction ws with
  | nil => cases h
  | cons w ws ih =>
    cases ws with
    | nil =>
      apply w.fits_note.isWritten
      simpa [items, Item.tokensOf, Item.tokens] using h
    | cons v ws =>
      simp only [items_cons_cons, Item.tokensOf, Item.tokens, List.mem_append,
        List.mem_singleton] at h
      rcases h with h | rfl | h
      · exact w.fits_note.isWritten h
      · rfl
      · exact ih h

end Tunebook
