import Tunebook.Command
import Tunebook.Proofs.Rhythm.Editing
import Tunebook.Proofs.Rhythm.Preservation
import Tunebook.Proofs.Rhythm.Sounds
import Tunebook.Proofs.Scan.Unambiguous
import Tunebook.Proofs.Text.Places
import Tunebook.Proofs.WellFormed

/-! What a selection takes, by the bytes of its ends alone. A note or chord starts and ends with a
character of one byte, which no position can be inside of; so positions in any column past the content
of a line, and columns counted in characters, take the same notes. -/
namespace Tunebook

/-- The kinds that a note or chord can start or end with. -/
def Kind.isEdge (k : Kind) : Bool :=
  k.isAccidental || k.isRhythm ||
    k matches .noteLetter | .restLetter | .apostrophe | .comma | .minus | .leftBracket | .rightBracket

namespace Kind

theorem isEdge_of_isRhythm (h : isRhythm k = true) : k.isEdge = true := by
  cases k <;> first | rfl | cases h

theorem isEdge_of_isAccidental (h : isAccidental k = true) : k.isEdge = true := by
  cases k <;> first | rfl | cases h

theorem isEdge_of_isOctave (h : isOctave k = true) : k.isEdge = true := by
  cases k <;> first | rfl | cases h

theorem spec_of_isEdge (h : isEdge k = true) :
    k.isProse = false ∧ k.breaksLine = false ∧ k ≠ .infoKey ∧ k ≠ .invalid := by
  cases k <;> first | decide | cases h

end Kind

theorem Rule.isFree_of_isEdge {rule : Rule} (h : rule.kind.isEdge = true) : rule.isFree = false := by
  unfold isFree
  cases kind : rule.kind <;> first | rfl | (rw [kind] at h; cases h)

namespace Scan

theorem mem_musicLine_of_isEdge (h : p ∈ line cs) (edge : p.kind.isEdge = true) :
    ∃ us, p ∈ musicLine us := by
  obtain ⟨prose, _, key, _⟩ := Kind.spec_of_isEdge edge
  cases found : line cs with
  | nil =>
    rw [found] at h
    cases h
  | cons q qs =>
    rw [found] at h
    rcases List.mem_cons.mp h with rfl | h
    · rcases mem_head?_line (found ▸ rfl : p ∈ (line cs).head?) with ⟨_, _, _, _, rfl⟩ | ⟨_, own⟩
      · exact absurd rfl key
      · exact ⟨cs, own⟩
    · rcases mem_tail_line (found ▸ h : p ∈ (line cs).tail) with kept | own
      · rw [prose] at kept
        cases kept
      · exact own

/-- Nothing but characters of one byte is in such a piece, and no line break. -/
theorem narrow_of_isEdge (h : p ∈ line cs) (edge : p.kind.isEdge = true) (member : c ∈ p.text) :
    c.toNat < 128 ∧ Text.isLineBreak c = false := by
  obtain ⟨us, own⟩ := mem_musicLine_of_isEdge h edge
  obtain ⟨_, goesOn, _, valid⟩ := Kind.spec_of_isEdge edge
  obtain ⟨rule, listed, same, whole⟩ := matches_of_mem_musicLine own valid
  rw [← same] at edge goesOn
  constructor
  · by_contra wide
    have avoids := Rule.avoids_of_wide wide listed (Rule.isFree_of_isEdge edge)
    exact Pattern.not_mem_of_avoids avoids whole member
  · rw [Bool.eq_false_iff]
    intro breaks
    have avoids := Rule.avoids_of_not_breaksLine listed goesOn breaks
    exact Pattern.not_mem_of_avoids avoids whole member

end Scan

theorem Text.charUnits_of_narrow (h : c.toNat < 128) : charUnits c = 1 :=
  if_pos (Nat.lt_trans h (by decide))

theorem narrow_of_mem_textTokens (h : t ∈ textTokens text) (edge : t.kind.isEdge = true)
    (member : c ∈ t.lexeme) : Text.isLineBreak c = false ∧ Text.charUnits c = 1 := by
  obtain ⟨front, p, back, cut, rfl⟩ := exists_of_mem_textTokens h
  have listed : p ∈ Scan.pieces text := cut ▸ List.mem_append_right front List.mem_cons_self
  obtain ⟨l, _, own⟩ := List.mem_flatMap.mp listed
  obtain ⟨narrow, plain⟩ := Scan.narrow_of_isEdge own edge member
  exact ⟨plain, Text.charUnits_of_narrow narrow⟩

/-- A position is behind the start of such a token if its offset is. -/
theorem Token.start_lt_iff (h : t ∈ textTokens text) (edge : t.kind.isEdge = true) {q : Position} :
    t.start < q ↔ t.span.start < text.byteAt q := by
  have scanned : t ∈ scan text := by
    rw [scan_eq]
    exact List.mem_append_left _ h
  obtain ⟨s, u, whole, span, start⟩ := exists_split_of_mem_scan scanned
  obtain ⟨c, cs, text'⟩ := List.exists_cons_of_ne_nil (lexeme_ne_nil_of_mem_textTokens h)
  obtain ⟨plain, narrow⟩ := narrow_of_mem_textTokens h edge (text' ▸ List.mem_cons_self)
  have place : t.start = text.positionAt s.bytes := by
    rw [start, whole, Text.positionAt_bytes]
  rw [place, span, whole, text', List.cons_append]
  exact Text.positionAt_lt_iff_lt_byteAt plain s _ narrow

/-- It is before the end of such a token if its offset is. -/
theorem Token.lt_stop_iff (h : t ∈ textTokens text) (edge : t.kind.isEdge = true) {q : Position} :
    q < t.stop ↔ text.byteAt q < t.span.stop := by
  have scanned : t ∈ scan text := by
    rw [scan_eq]
    exact List.mem_append_left _ h
  obtain ⟨s, u, whole, span, start⟩ := exists_split_of_mem_scan scanned
  obtain ⟨cs, c, text'⟩ := (List.eq_nil_or_concat' t.lexeme).resolve_left
    (lexeme_ne_nil_of_mem_textTokens h)
  obtain ⟨plain, narrow⟩ := narrow_of_mem_textTokens h edge (c := c) (by simp [text'])
  have cut : text = (s ++ cs) ++ c :: u := by
    rw [whole, text']
    simp only [List.append_assoc, List.singleton_append]
  have place : t.stop = text.positionAt ((s ++ cs) ++ [c]).bytes := by
    rw [stop, start, text', cut, List.append_cons (s ++ cs), Text.positionAt_bytes,
      ← Position.after_append, List.append_assoc]
  have size : t.span.stop = ((s ++ cs) ++ [c]).bytes := by
    rw [span, text', List.append_assoc, Text.bytes_append s]
  rw [place, size, cut]
  exact Text.lt_positionAt_iff_byteAt_lt plain (s ++ cs) u narrow

/-! The ends of notes and chords. -/

theorem NoteHead.isEdge_of_mem {head : NoteHead} (fits : head.Fits) (h : t ∈ head.tokens) :
    t.kind.isEdge = true := by
  cases head with
  | pitch alteration letter octave =>
    obtain ⟨ha, hl, ho⟩ := fits
    simp only [tokens, List.mem_append, Option.mem_toList, List.mem_cons] at h
    rcases h with h | rfl | h
    · exact Kind.isEdge_of_isAccidental (ha t h)
    · rw [hl]
      rfl
    · exact Kind.isEdge_of_isOctave (ho t h)
  | rest letter =>
    obtain rfl := List.mem_singleton.mp h
    rw [show t.kind = .restLetter from fits]
    rfl

/-- Behind a head or bracket a rhythm and a tie may come last. -/
theorem Rhythm.isEdge_last {r : Rhythm} (fits : r.Fits) {tie : Option Token}
    (tied : ∀ t ∈ tie, t.kind = .minus) (own : t.kind.isEdge = true) :
    ((tie.or r.tokens.getLast?).getD t).kind.isEdge = true := by
  cases tie with
  | some m =>
    show m.kind.isEdge = true
    rw [tied m rfl]
    rfl
  | none =>
    rw [Option.none_or]
    cases last : r.tokens.getLast? with
    | some u => exact Kind.isEdge_of_isRhythm (isRhythm_of_mem fits (List.mem_of_getLast? last))
    | none => exact own

namespace Sound

/-- The first token of a sound and its last one. -/
def first : Sound → Token
  | note n => n.first
  | chord c => c.left

def last : Sound → Token
  | note n => n.last
  | chord c => c.last

theorem range_eq_between (s : Sound) : s.range = some (Token.between s.first s.last) := by
  cases s <;> rfl

def WellFormed : Sound → Prop
  | note n => n.Fits
  | chord c => c.WellFormed

theorem WellFormed.isEdge {s : Sound} (h : s.WellFormed) :
    s.first.kind.isEdge = true ∧ s.last.kind.isEdge = true := by
  cases s with
  | note n =>
    constructor
    · exact NoteHead.isEdge_of_mem h.head (List.mem_of_mem_head? n.head.head?_tokens)
    · exact Rhythm.isEdge_last h.rhythm h.tie
        (NoteHead.isEdge_of_mem h.head (List.mem_of_getLast? n.head.getLast?_tokens))
  | chord c =>
    constructor
    · rw [first, h.left]
      rfl
    · exact Rhythm.isEdge_last h.rhythm h.tie (by rw [h.right]; rfl)

theorem first_mem (s : Sound) : s.first ∈ s.tokens := by
  cases s with
  | note n => exact List.mem_of_mem_head? n.head?_tokens
  | chord c => exact List.mem_cons_self

theorem last_mem (s : Sound) : s.last ∈ s.tokens := by
  cases s with
  | note n => exact List.mem_of_getLast? n.getLast?_tokens
  | chord c => exact List.mem_of_getLast? c.getLast?_tokens

end Sound

mutual

theorem Item.wellFormed_of_mem_sounds {item : Item} (h : item.WellFormed) (member : s ∈ item.sounds) :
    s.WellFormed := by
  cases item with
  | note n | chord c =>
    simp only [sounds, List.mem_singleton] at member
    subst member
    exact h
  | slur left contents right =>
    simp only [sounds] at member
    simp only [WellFormed] at h
    exact Item.wellFormed_of_mem_soundsOf h.2.2 member
  | _ => simp [sounds] at member

theorem Item.wellFormed_of_mem_soundsOf {items : List Item} (h : Item.AllWellFormed items)
    (member : s ∈ Item.soundsOf items) : s.WellFormed := by
  cases items with
  | nil => cases member
  | cons item items =>
    simp only [soundsOf, List.mem_append] at member
    simp only [AllWellFormed] at h
    rcases member with member | member
    · exact Item.wellFormed_of_mem_sounds h.1 member
    · exact Item.wellFormed_of_mem_soundsOf h.2 member

end

/-- The sounds of a tree have tokens of their kinds in all their slots. -/
theorem Tree.wellFormed_of_mem_sounds (h : s ∈ (ofTokens ts).1.sounds) : s.WellFormed := by
  obtain ⟨tune, listed, h⟩ := List.mem_flatMap.mp h
  obtain ⟨line, body, h⟩ := List.mem_flatMap.mp h
  exact Item.wellFormed_of_mem_soundsOf (wellFormed_readTunes _ _ tune listed line body) h

/-- Between two offsets that differ, the sounds with a byte between them are met. -/
theorem Sound.intersects_iff (h : s ∈ (Tree.ofTokens (scan text)).1.sounds) (a b : Position) :
    (Selection.between a b).intersects s = true ↔
      s.first.span.start < text.byteAt (Selection.between a b).stop ∧
        text.byteAt (Selection.between a b).start < s.last.span.stop := by
  have listed : s.tokens ⊆ textTokens text := by
    intro t member
    have own := (Tree.ofTokens (scan text)).1.sounds_sublist.subset
      (List.mem_flatMap.mpr ⟨s, h, member⟩)
    rwa [Tree.tokens_ofTokens_scan] at own
  obtain ⟨first, last⟩ := (Tree.wellFormed_of_mem_sounds h).isEdge
  rw [Selection.intersects, s.range_eq_between, Option.any_some, Bool.and_eq_true,
    decide_eq_true_eq, decide_eq_true_eq]
  exact and_congr (Token.start_lt_iff (listed s.first_mem) first)
    (Token.lt_stop_iff (listed s.last_mem) last)

namespace Selection

/-- The offsets of the ends of a selection are those of the positions that it was made of, in
order. -/
theorem byteAt_between (text : Text) (a b : Position) :
    text.byteAt (between a b).start = min (text.byteAt a) (text.byteAt b) ∧
      text.byteAt (between a b).stop = max (text.byteAt a) (text.byteAt b) := by
  unfold between
  split
  next before =>
    have order := text.byteAt_mono (Position.le_of_lt before)
    exact ⟨(Nat.min_eq_right order).symm, (Nat.max_eq_left order).symm⟩
  next after =>
    have order := text.byteAt_mono (Position.le_of_not_lt after)
    exact ⟨(Nat.min_eq_left order).symm, (Nat.max_eq_right order).symm⟩

end Selection

namespace Scaling
variable {text : Text} {a b p q : Position}

theorem edits_of_apart (k : Scaling) (apart : text.byteAt a ≠ text.byteAt b) :
    k.edits (Tree.ofTokens (scan text)).1 (Selection.between a b) =
      (k.editsOf (Selection.between a b).intersects (Tree.ofTokens (scan text)).1.sounds).mergeSort
        fun e f => e.span.start ≤ f.span.start := by
  have differ : a ≠ b := fun same => apart (congrArg _ same)
  rw [edits_eq, k.meets_eq _ (Selection.isCursor_between differ)]

/-- A selection with something between its ends scales what lies between their offsets. -/
theorem apply_congr (k : Scaling) (apart : text.byteAt a ≠ text.byteAt b)
    (first : text.byteAt p = text.byteAt a) (second : text.byteAt q = text.byteAt b) :
    k.apply (Tree.ofTokens (scan text)).1 a b = k.apply (Tree.ofTokens (scan text)).1 p q := by
  obtain ⟨start, stop⟩ := Selection.byteAt_between text a b
  obtain ⟨start', stop'⟩ := Selection.byteAt_between text p q
  rw [first, second] at start' stop'
  have edits : k.edits (Tree.ofTokens (scan text)).1 (Selection.between a b) =
      k.edits (Tree.ofTokens (scan text)).1 (Selection.between p q) := by
    rw [k.edits_of_apart apart, k.edits_of_apart (by rwa [first, second])]
    congr 1
    refine List.flatMap_congr fun s member => ?_
    have same : (Selection.between a b).intersects s = (Selection.between p q).intersects s := by
      rw [Bool.eq_iff_iff, Sound.intersects_iff member, Sound.intersects_iff member, start, stop,
        start', stop']
    rw [same]
  simp only [apply, Tree.text_ofTokens_scan, edits, start, stop, start', stop']

end Scaling

/-- In a text without errors a place is where an editor has it. -/
theorem Document.position_eq_inEditor {source : String} {text : Text}
    (good : (analyze source text).hasErrors = false) (p : Place) :
    p.position text = p.inEditor text := by
  rw [hasErrors_eq_false] at good
  have lexical := (noErrors_scan text).mp good.1
  refine p.position_eq_inEditor fun line listed ends stray => ?_
  exact Scan.not_isSuffix_of_mem_lines lexical listed stray

theorem Document.scale?_inEditor (source : String) (text : Text) (k : Scaling) (a b : Place) :
    (analyze source text).scale? k (a.position text) (b.position text) =
      (analyze source text).scale? k (a.inEditor text) (b.inEditor text) := by
  cases good : (analyze source text).hasErrors with
  | true => simp only [scale?, good, if_true]
  | false => rw [position_eq_inEditor good, position_eq_inEditor good]

namespace Command

/-- Places of a text lead to the offsets of their characters, however a column is counted, and take
the notes between those offsets. So the command scales what an editor would that selects the same
characters. -/
theorem perform_rhythm (text : Text) :
    (∀ p : Place, text.byteAt (p.position text) = p.offset text ∧
      text.byteAt (p.inEditor text) = p.offset text) ∧
    (∀ (k : Scaling) (a b : Place) (p q : Position), a.offset text ≠ b.offset text →
      text.byteAt p = a.offset text → text.byteAt q = b.offset text →
      k.apply (Tree.ofTokens (scan text)).1 (a.position text) (b.position text) =
        k.apply (Tree.ofTokens (scan text)).1 p q) ∧
    (∀ a b : Place, a.IsCountable → b.IsCountable → ¬b < a →
      Place.readTwo? (a.written ++ '-' :: b.written) = some (a, b)) ∧
    ∀ (files : Files) (config : Config) (path : String) (operator : Operator) (range : String)
      (a b : Place), files.text path = .ok text → Place.readTwo? range.toList = some (a, b) →
      perform files config path (.rhythm operator range) =
        let d := Document.analyze config.source text
        unlessErrors path d ((d.scale? ⟨operator, config.limits⟩ (a.inEditor text)
          (b.inEditor text)).map fun edit => edit.text ++ ['\n']) := by
  refine ⟨fun p => ⟨p.byteAt_position text, p.byteAt_inEditor text⟩, ?_, ?_, ?_⟩
  · intro k a b p q apart first second
    rw [← a.byteAt_position] at apart first
    rw [← b.byteAt_position] at apart second
    exact k.apply_congr apart first second
  · intro a b first second order
    exact Place.readTwo?_written first second order
  · intro files config path operator range a b readable places
    dsimp only
    rw [perform, places, analyze, readable, ← Document.scale?_inEditor]
    rfl

/-- Behind a clef of two units, a note that is selected by the fourth character of its line. -/
theorem perform_rhythm_clef :
    let text := "X:1\nK:C\n\"𝄞\"A2 B\r\n".toList
    let k : Scaling := ⟨.multiply, ⟨64, 64⟩⟩
    let a : Place := ⟨2, 3⟩
    let b : Place := ⟨2, 5⟩
    a.offset text = 14 ∧ b.offset text = 16 ∧
      k.apply (Tree.ofTokens (scan text)).1 (a.position text) (b.position text) =
        k.apply (Tree.ofTokens (scan text)).1 ⟨2, 4⟩ ⟨2, 6⟩ ∧
      Place.readTwo? "3:4-3:6".toList = some (a, b) ∧
      perform (fun _ => .ok "X:1\nK:C\n\"𝄞\"A2 B\r\n".toUTF8.toList) Config.default "t.abc"
        (.rhythm .multiply "3:4-3:6") = .ok ⟨"A4\n", true⟩ := by
  intro text k a b
  obtain ⟨-, same, reads, performs⟩ := perform_rhythm text
  have readable : Files.text (fun _ => .ok "X:1\nK:C\n\"𝄞\"A2 B\r\n".toUTF8.toList) "t.abc" =
      .ok text := by
    decide +kernel
  have places : Place.readTwo? "3:4-3:6".toList = some (a, b) := by
    rw [show "3:4-3:6".toList = a.written ++ '-' :: b.written by decide +kernel]
    exact reads a b ⟨by decide, by decide⟩ ⟨by decide, by decide⟩ (by decide)
  refine ⟨by decide +kernel, by decide +kernel, ?_, places, ?_⟩
  · exact same k a b _ _ (by decide +kernel) (by decide +kernel) (by decide +kernel)
  · rw [performs _ Config.default _ .multiply _ a b readable places]
    decide +kernel

end Command
end Tunebook
