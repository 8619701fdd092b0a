import Tunebook.Proofs.Conservation
import Tunebook.Proofs.Grammar.Notes

/-! Chords, grace groups and inline fields read back. What closes them ends the search for it, so
nothing behind the closing token matters, a rhythm and a tie behind a chord apart. -/
namespace Tunebook

namespace Token

theorem splitClose_spec (h : splitClose close admits ts = some (inside, right, rest)) :
    right.kind = close ∧ ∀ t ∈ inside, t.kind ≠ close ∧ admits t.kind = true := by
  induction ts generalizing inside with
  | nil => cases h
  | cons t ts ih =>
    unfold splitClose at h
    split at h
    next closes =>
      cases h
      exact ⟨closes, by simp⟩
    next goes =>
      split at h
      next admitted =>
        obtain ⟨⟨inner, r, s⟩, found, same⟩ := Option.map_eq_some_iff.mp h
        cases same
        obtain ⟨closes, inner⟩ := ih found
        refine ⟨closes, fun u member => ?_⟩
        rcases List.mem_cons.mp member with rfl | member
        · exact ⟨goes, admitted⟩
        · exact inner u member
      · cases h

theorem splitClose_tokens (closes : right.kind = close)
    (inner : ∀ t ∈ inside, t.kind ≠ close ∧ admits t.kind = true) (rest : List Token) :
    splitClose close admits (inside ++ right :: rest) = some (inside, right, rest) := by
  induction inside with
  | nil => simp [splitClose, closes]
  | cons t inside ih =>
    obtain ⟨goes, admitted⟩ := inner t List.mem_cons_self
    have tail := ih fun u member => inner u (List.mem_cons_of_mem t member)
    simp [splitClose, goes, admitted, tail]

end Token

namespace Chord

theorem read?_head {c : Chord} {problems : List Problem} (closes : c.right.kind = .rightBracket)
    (parts : readParts (c.parts.flatMap ChordPart.tokens) = (c.parts, problems))
    (inner : ∀ t ∈ c.parts.flatMap ChordPart.tokens,
      t.kind ≠ .rightBracket ∧ admits t.kind = true) (us : List Token) :
    read? c.left (c.parts.flatMap ChordPart.tokens ++ c.right :: us) =
      some ⟨{ c with rhythm := (Rhythm.readTied us).1, tie := (Rhythm.readTied us).2.1 },
        problems ++ if c.notes.isEmpty then [⟨.emptyChord, c.left⟩] else [],
        (Rhythm.readTied us).2.2⟩ := by
  rw [read?, Token.splitClose_tokens closes inner]
  simp only [Option.map_some, parts]
  rfl

/-- A chord is read from its tokens if its parts are, and they may stand in a chord. -/
theorem read?_tokens {c : Chord} {problems : List Problem} (closes : c.right.kind = .rightBracket)
    (parts : readParts (c.parts.flatMap ChordPart.tokens) = (c.parts, problems))
    (inner : ∀ t ∈ c.parts.flatMap ChordPart.tokens,
      t.kind ≠ .rightBracket ∧ admits t.kind = true)
    (fits : c.rhythm.Fits) (tie : ∀ t ∈ c.tie, t.kind = .minus) (ends : Rhythm.EndsTied c.tie us) :
    read? c.left (c.tokens.tail ++ us) =
      some ⟨c, problems ++ if c.notes.isEmpty then [⟨.emptyChord, c.left⟩] else [], us⟩ := by
  have tokens : c.tokens.tail ++ us = c.parts.flatMap ChordPart.tokens ++
      c.right :: (c.rhythm.tokens ++ (c.tie.toList ++ us)) := by
    simp [Chord.tokens]
  rw [tokens, read?_head closes parts inner, Rhythm.readTied_tokens fits tie ends]

structure IsReading (t : Token) (r : Reading Chord) : Prop where
  left : r.value.left = t
  closes : r.value.right.kind = .rightBracket
  inner : ∀ u ∈ r.value.parts.flatMap ChordPart.tokens,
    u.kind ≠ .rightBracket ∧ admits u.kind = true
  fits : r.value.rhythm.Fits
  tie : ∀ u ∈ r.value.tie, u.kind = .minus
  untied : r.value.tie = none → Token.NextNot (· = .minus) r.rest
  problems : r.problems = (readParts (r.value.parts.flatMap ChordPart.tokens)).2 ++
    if r.value.notes.isEmpty then [⟨.emptyChord, t⟩] else []
  parts : (readParts (r.value.parts.flatMap ChordPart.tokens)).1 = r.value.parts

theorem isReading_of_read? (h : read? t ts = some r) : IsReading t r := by
  obtain ⟨⟨inside, right, rest⟩, split, rfl⟩ := Option.map_eq_some_iff.1 h
  obtain ⟨closes, inner⟩ := Token.splitClose_spec split
  obtain ⟨fits, tie, untied⟩ := Rhythm.fits_readTied rest
  -- the parts have the tokens they were read from, so reading them once more gives the same
  have whole : (readParts inside).1.flatMap ChordPart.tokens = inside := readParts_append inside
  refine { left := rfl, closes, inner := ?_, fits, tie, untied, problems := ?_, parts := ?_ }
  · intro u member
    exact inner u (whole ▸ member)
  · dsimp only
    rw [whole]
  · dsimp only
    rw [whole]

theorem admits_of_isRhythm (h : k.isRhythm = true) : admits k = true := by
  simp [admits, h]

theorem admits_of_mem_note {n : Note} (fits : n.Fits) (h : t ∈ n.tokens) :
    admits t.kind = true := by
  simp only [Note.tokens, List.mem_append, Option.mem_toList] at h
  rcases h with (h | h) | h
  · cases hd : n.head with
    | rest letter =>
      have kind : letter.kind = .restLetter := by simpa only [hd, NoteHead.Fits] using fits.head
      obtain rfl : t = letter := by simpa [hd, NoteHead.tokens] using h
      simp [admits, Kind.startsNote, kind]
    | pitch alteration letter octave =>
      obtain ⟨accidental, kind, mark⟩ : NoteHead.Fits (.pitch alteration letter octave) :=
        hd ▸ fits.head
      simp only [hd, NoteHead.tokens, List.mem_append, List.mem_cons, Option.mem_toList] at h
      rcases h with h | rfl | h
      · simp [admits, Kind.startsNote, accidental t h]
      · simp [admits, Kind.startsNote, kind]
      · have own := mark t h
        cases hk : t.kind <;> simp [hk, Kind.isOctave] at own <;> rfl
  · exact admits_of_isRhythm (Rhythm.isRhythm_of_mem fits.rhythm h)
  · rw [fits.tie t h]
    rfl

theorem kind_of_mem (h : read? t ts = some r) (member : u ∈ r.value.tokens) :
    u = t ∨ u.kind = .rightBracket ∨ admits u.kind = true := by
  have reading := isReading_of_read? h
  simp only [tokens, List.mem_append, List.mem_cons, Option.mem_toList] at member
  rcases member with ((rfl | member) | rfl | member) | member
  · exact .inl reading.left
  · exact .inr (.inr (reading.inner u member).2)
  · exact .inr (.inl reading.closes)
  · exact .inr (.inr (admits_of_isRhythm (Rhythm.isRhythm_of_mem reading.fits member)))
  · exact .inr (.inr (by rw [reading.tie u member]; rfl))

end Chord

namespace GraceGroup

theorem kind_of_mem (h : read? t ts = some r) (member : u ∈ r.value.tokens) :
    u = t ∨ u.kind = .rightBrace ∨ admits u.kind = true := by
  have whole := read?_append h
  obtain ⟨⟨inside, right, rest⟩, found, rfl⟩ := Option.map_eq_some_iff.1 h
  obtain ⟨closes, inner⟩ := Token.splitClose_spec found
  rw [Token.splitClose_append found, List.append_cons, ← List.cons_append] at whole
  rw [List.append_cancel_right whole] at member
  simp only [List.mem_cons, List.mem_append, List.not_mem_nil, or_false] at member
  rcases member with rfl | member | rfl
  · exact .inl rfl
  · exact .inr (.inr (inner u member).2)
  · exact .inr (.inl closes)

/-- A grace group that was read is read again from its tokens, whatever stands behind them. -/
theorem read?_tokens (h : read? t ts = some r) (us : List Token) :
    read? t (r.value.tokens.tail ++ us) = some ⟨r.value, r.problems, us⟩ := by
  obtain ⟨⟨inside, right, rest⟩, split, rfl⟩ := Option.map_eq_some_iff.1 h
  obtain ⟨closes, inner⟩ := Token.splitClose_spec split
  have slash := Token.accept_append (· = .slash) inside
  have parts := readParts_append (Token.accept (· = .slash) inside).2
  have tokens : (GraceGroup.mk t (Token.accept (· = .slash) inside).1
      (readParts (Token.accept (· = .slash) inside).2).1 right).tokens.tail ++ us =
      inside ++ right :: us := by
    simp only [GraceGroup.tokens, List.cons_append, List.tail_cons, parts, List.append_assoc,
      List.nil_append]
    rw [← List.append_assoc, slash]
  dsimp only
  rw [tokens, read?, Token.splitClose_tokens closes inner]
  rfl

end GraceGroup

/-- What is dropped from a front ends before the first that fails. -/
theorem exists_dropWhile_append {p : α → Bool} (fails : p a = false) (front back : List α) :
    ∃ front', (front ++ a :: back).dropWhile p = front' ++ a :: back ∧ front' ⊆ front := by
  induction front with
  | nil => exact ⟨[], by simp [fails], List.Subset.refl _⟩
  | cons b front ih =>
    cases passes : p b with
    | false => exact ⟨b :: front, by simp [passes], List.Subset.refl _⟩
    | true =>
      obtain ⟨front', same, sub⟩ := ih
      exact ⟨front', by simpa [passes] using same, List.Subset.trans sub (List.subset_cons_self b front)⟩

namespace InlineField

/-- Tokens of a field with the kinds they are read by. -/
structure Fits (inSlur : Bool) (f : InlineField) : Prop where
  padding : ∀ t ∈ f.padding, t.kind = .whitespace
  field : isLetter f.field.kind = true
  colon : f.colon.kind = .colon
  text : ∀ t ∈ f.text, endsText inSlur t.kind = false
  right : ∀ t ∈ f.right, t.kind = .rightBracket

theorem fits_of_read? (h : read? inSlur t ts = some r) :
    r.value.left = t ∧ r.value.Fits inSlur ∧
      r.problems = if r.value.right.isNone then [⟨.unterminatedInlineField, t⟩] else [] := by
  unfold read? at h
  split at h
  next field colon text _ =>
    split at h
    next letter =>
      cases h
      simp only [Bool.and_eq_true, decide_eq_true_eq] at letter
      refine ⟨rfl, ⟨?_, letter.1, letter.2, ?_, ?_⟩, rfl⟩
      · intro u member
        simpa using List.all_eq_true.mp List.all_takeWhile u member
      · intro u member
        simpa using List.all_eq_true.mp List.all_takeWhile u member
      · intro u member
        have found : u ∈ (Token.accept (· = .rightBracket)
            (text.dropWhile (!endsText inSlur ·.kind))).1 := member
        simpa using Token.kind_of_mem_accept found
    · cases h
  · cases h

/-- A closed field is read from its tokens, whatever stands behind them. -/
theorem read?_tokens {f : InlineField} (fits : f.Fits inSlur) (closed : f.right.isSome = true)
    (us : List Token) : read? inSlur f.left (f.tokens.tail ++ us) = some ⟨f, [], us⟩ := by
  obtain ⟨left, padding, field, colon, text, right⟩ := f
  obtain ⟨hp, hf, hc, ht, hr⟩ := fits
  dsimp only at hp hf hc ht hr closed
  obtain ⟨right, rfl⟩ := Option.isSome_iff_exists.mp closed
  have closes : right.kind = .rightBracket := hr right rfl
  have letter : field.kind ≠ .whitespace := by
    intro space
    simp [space, isLetter] at hf
  have spaces : ∀ u ∈ padding, (decide (u.kind = .whitespace)) = true := by simpa using hp
  have inner : ∀ u ∈ text, (!endsText inSlur u.kind) = true := by simpa using ht
  have ends : endsText inSlur right.kind = true := by simp [endsText, closes]
  have tokens : (InlineField.mk left padding field colon text (some right)).tokens.tail ++ us =
      padding ++ field :: colon :: (text ++ right :: us) := by
    simp [InlineField.tokens]
  rw [tokens, read?, List.dropWhile_append_of_pos spaces, List.takeWhile_append_of_pos spaces]
  simp only [List.dropWhile_cons, List.takeWhile_cons, letter, decide_false, hf, hc, decide_true,
    Bool.and_self, if_true, Bool.false_eq_true, if_false, List.append_nil,
    List.takeWhile_append_of_pos inner, List.dropWhile_append_of_pos inner, ends, Bool.not_true]
  simp [Token.accept, closes]

theorem read?_eq_none {right : Token} (closes : right.kind = .rightBracket) {inside : List Token}
    (inner : ∀ t ∈ inside, t.kind ≠ .colon) (t : Token) (us : List Token) :
    read? inSlur t (inside ++ right :: us) = none := by
  have notSpace : (decide (right.kind = .whitespace)) = false := by simp [closes]
  obtain ⟨inside', same, sub⟩ :=
    exists_dropWhile_append (p := fun t : Token => t.kind = .whitespace) notSpace inside us
  have inner' : ∀ u ∈ inside', u.kind ≠ .colon := fun u member => inner u (sub member)
  rw [read?, same]
  cases inside' with
  | nil =>
    cases us with
    | nil => rfl
    | cons u us => simp [isLetter, closes]
  | cons field inside' =>
    cases inside' with
    | nil => simp [closes]
    | cons colon inside' => simp [inner' colon (by simp)]

end InlineField
end Tunebook
