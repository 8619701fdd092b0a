import Tunebook.Proofs.Grammar.Groups
import Tunebook.Proofs.Rhythm.Rescaling

/-! Scaled items are read back: where the tokens of a line are read without errors, the tokens of
the scaled items are read as those items, with the same problems, if no edit joins what it leaves
side by side. The induction follows the first reading; what it leaves is rewritten already. -/
namespace Tunebook

def NoErrors (ps : List Problem) : Prop :=
  ∀ p ∈ ps, p.isError = false

theorem noErrors_append : NoErrors (ps ++ qs) ↔ NoErrors ps ∧ NoErrors qs := by
  simp only [NoErrors, List.mem_append]
  constructor
  · intro h
    exact ⟨fun p hp => h p (.inl hp), fun p hp => h p (.inr hp)⟩
  · rintro ⟨hps, hqs⟩ p (hp | hp)
    · exact hps p hp
    · exact hqs p hp

theorem noErrors_cons : NoErrors (p :: ps) ↔ p.isError = false ∧ NoErrors ps := by
  simp [NoErrors]

namespace Chord

theorem nextNot_of_noErrors (h : NoErrors (readParts ts).2) :
    Token.NextNot Kind.isRhythm ts := by
  cases ts with
  | nil => exact Token.nextNot_nil _
  | cons t ts =>
    refine Token.nextNot_cons.mpr ?_
    cases ht : t.kind.isRhythm with
    | false => rfl
    | true =>
      have starts : t.kind.startsNote = false := by
        cases hk : t.kind <;> simp [hk, Kind.isRhythm, Kind.startsNote, Kind.isAccidental] at ht ⊢
      have quoted : t.kind ≠ .quotedText := by
        intro hk
        simp [hk, Kind.isRhythm] at ht
      simp only [readParts_token starts quoted, fault?, ht, Bool.true_or, if_true] at h
      have error := h ⟨.detachedRhythmInChord, t⟩ (by simp)
      cases error

theorem rewritten_parts {k : Scaling} (good : NoErrors (readParts ts).2)
    (next : Token.NextNot Kind.isRhythm rest) (tail : Rewritten k rest es us) :
    Rewritten k (ts ++ rest) (partEdits k (readParts ts).1 ++ es)
      (((readParts ts).1.map (ChordPart.rescale k)).flatMap ChordPart.tokens ++ us) := by
  fun_induction readParts ts with
  | case1 => exact tail
  | case2 t ts starts n after hr parts problems heq ih =>
    rw [heq] at ih
    have whole := Note.read?_append hr
    have ends : Token.NextNot Kind.isRhythm after := nextNot_of_noErrors (heq ▸ good)
    have fits := (Note.isReading_of_read? starts hr).fits
    rw [← whole, List.append_assoc, partEdits_note, List.append_assoc]
    have here := Note.rewritten fits (ends.append next) (ih good)
    simpa only [List.map_cons, List.flatMap_cons, ChordPart.rescale, ChordPart.tokens,
      List.append_assoc] using here
  | case3 t ts _ _ parts problems heq ih =>
    have error := (noErrors_cons.mp good).1
    cases error
  | case4 t ts _ _ parts problems heq ih =>
    rw [heq] at ih
    exact .keep t (ih good)
  | case5 t ts _ _ parts problems heq ih =>
    rw [heq] at ih
    exact .keep t (ih (noErrors_append.mp good).2)

/-- The parts of a chord are read again once their lengths are scaled. -/
theorem readParts_rescale {k : Scaling} (good : NoErrors (readParts ts).2)
    (apart : Unjoined all ts (partEdits k (readParts ts).1)) :
    readParts (((readParts ts).1.map (ChordPart.rescale k)).flatMap ChordPart.tokens) =
      ((readParts ts).1.map (ChordPart.rescale k), (readParts ts).2) := by
  fun_induction readParts ts with
  | case1 => simp [readParts]
  | case2 t ts starts n after hr parts problems heq ih =>
    have whole := Note.read?_append hr
    have ends : Token.NextNot Kind.isRhythm after := nextNot_of_noErrors (heq ▸ good)
    have note := Note.isReading_of_read? starts hr
    have fits := note.fits
    rw [← whole, partEdits_note] at apart
    have apartAfter : Unjoined all after (partEdits k (readParts after).1) := by
      rw [heq]
      exact apart.right n.tokens (List.subset_append_right _ _)
    have again := ih (heq ▸ good) apartAfter
    -- the first token behind the note stays, so the note ends where it did
    have behind : Rewritten k (after ++ []) (partEdits k (readParts after).1 ++ [])
        (((readParts after).1.map (ChordPart.rescale k)).flatMap ChordPart.tokens ++ []) :=
      rewritten_parts (heq ▸ good) (Token.nextNot_nil _) .nil
    simp only [List.append_nil, heq] at behind again
    have reads := Note.read?_tokens (fits.rescale k)
      ((note.bounded ends).rescale fits (apart.mono (List.subset_append_left _ _)) behind.head?_eq)
    rw [List.map_cons, List.flatMap_cons, ChordPart.rescale, ChordPart.tokens, Note.tokens_eq,
      List.cons_append, readParts_note (fits.rescale k).head.startsNote reads, again]
  | case3 t ts _ _ parts problems heq ih =>
    have error := (noErrors_cons.mp good).1
    cases error
  | case4 t ts _ quoted parts problems heq ih =>
    rw [heq] at ih
    have again := ih good apart.tail
    simp only [List.map_cons, List.flatMap_cons, ChordPart.rescale, ChordPart.tokens,
      List.singleton_append, readParts_quotedText quoted, again]
  | case5 t ts starts quoted parts problems heq ih =>
    rw [heq] at ih
    have again := ih (noErrors_append.mp good).2 apart.tail
    simp only [List.map_cons, List.flatMap_cons, ChordPart.rescale, ChordPart.tokens,
      List.singleton_append, readParts_token (Bool.not_eq_true _ ▸ starts) quoted, again]

/-- The tokens of a chord, with its length apart. -/
theorem tokens_append (c : Chord) (us : List Token) : c.tokens ++ us =
    c.left :: (c.parts.flatMap ChordPart.tokens ++ c.right :: (c.rhythm.lengthTokens ++
      (c.rhythm.broken.toList ++ (c.tie.toList ++ us)))) := by
  simp [tokens, Rhythm.tokens]

/-- A chord that was read is read again with other parts and another rhythm, if the parts are read
again, with the same problems. -/
theorem read?_again {parts : List ChordPart} {rhythm : Rhythm} (h : read? t ts = some r)
    (again : readParts (parts.flatMap ChordPart.tokens) =
      (parts, (readParts (r.value.parts.flatMap ChordPart.tokens)).2))
    (inner : ∀ u ∈ parts.flatMap ChordPart.tokens,
      u ∈ r.value.parts.flatMap ChordPart.tokens ∨ u.kind.isLength = true)
    (notes : (parts.filterMap ChordPart.note?).isEmpty = r.value.notes.isEmpty)
    (fits : rhythm.Fits) (next : Token.NextNot Kind.isRhythm r.rest) (same : us.head? = r.rest.head?) :
    let c : Chord := { r.value with parts, rhythm }
    read? t (c.tokens.tail ++ us) = some ⟨c, r.problems, us⟩ ∧
      InlineField.read? inSlur t (c.tokens.tail ++ us) = none := by
  intro c
  have reading := isReading_of_read? h
  obtain rfl := reading.left
  have inside : ∀ u ∈ c.parts.flatMap ChordPart.tokens,
      u.kind ≠ .rightBracket ∧ admits u.kind = true := by
    intro u member
    rcases inner u member with own | length
    · exact reading.inner u own
    · cases hk : u.kind <;> rw [hk] at length <;> cases length <;> exact ⟨by simp, rfl⟩
  have ends : Rhythm.EndsTied c.tie us :=
    ⟨next.congr same, fun untied => (reading.untied untied).congr same⟩
  refine ⟨?_, ?_⟩
  · have reads := read?_tokens (c := c) reading.closes again inside fits reading.tie ends
    rw [reading.problems, ← notes]
    exact reads
  · have tokens : c.tokens.tail ++ us = c.parts.flatMap ChordPart.tokens ++
        c.right :: (c.rhythm.tokens ++ (c.tie.toList ++ us)) := by
      simp [Chord.tokens]
    rw [tokens]
    -- a field needs a colon, and a chord admits none
    refine InlineField.read?_eq_none reading.closes ?_ _ _
    intro u member colon
    have passes := (inside u member).2
    simp [admits, colon, Kind.startsNote, Kind.isAccidental, Kind.isRhythm] at passes

/-- A chord that is not scaled is read again. -/
theorem reread (h : read? t ts = some r) (next : Token.NextNot Kind.isRhythm r.rest)
    (same : us.head? = r.rest.head?) :
    read? t (r.value.tokens.tail ++ us) = some ⟨r.value, r.problems, us⟩ ∧
      InlineField.read? inSlur t (r.value.tokens.tail ++ us) = none := by
  have reading := isReading_of_read? h
  exact read?_again h (Prod.ext reading.parts rfl) (fun _ member => .inl member) rfl reading.fits
    next same

/-- A chord is read again once its length, or those of its notes, are scaled. -/
theorem reread_rescale {k : Scaling} (h : read? t ts = some r) (good : NoErrors r.problems)
    (next : Token.NextNot Kind.isRhythm r.rest)
    (apart : Unjoined all (t :: ts) (k.ofSound (.chord r.value))) (same : us.head? = r.rest.head?) :
    read? t ((r.value.rescale k).tokens.tail ++ us) =
        some ⟨r.value.rescale k, r.problems, us⟩ ∧
      InlineField.read? inSlur t ((r.value.rescale k).tokens.tail ++ us) = none := by
  have reading := isReading_of_read? h
  unfold rescale
  split
  next notewise =>
    rw [reading.problems] at good
    have within : Unjoined all (r.value.parts.flatMap ChordPart.tokens)
        (partEdits k (readParts (r.value.parts.flatMap ChordPart.tokens)).1) := by
      rw [← read?_append h, tokens_append, Scaling.ofSound, if_pos notewise] at apart
      rw [reading.parts]
      exact apart.tail.left (List.Subset.refl _)
    have again := readParts_rescale (noErrors_append.mp good).1 within
    rw [reading.parts] at again
    refine read?_again h again ?_ ?_ reading.fits next same
    · intro u member
      obtain ⟨scaled, found, member⟩ := List.mem_flatMap.mp member
      obtain ⟨part, listed, rfl⟩ := List.mem_map.mp found
      rcases ChordPart.mem_rescale member with own | length
      · exact .inl (List.mem_flatMap.mpr ⟨part, listed, own⟩)
      · exact .inr length
    · rw [notes_rescale]
      simp [notes]
  · exact read?_again h (Prod.ext reading.parts rfl) (fun _ member => .inl member) rfl
      (reading.fits.rescale k) next same

theorem rewritten {k : Scaling} (h : read? t ts = some r) (good : NoErrors r.problems)
    (next : Token.NextNot Kind.isRhythm r.rest) (tail : Rewritten k r.rest es us) :
    Rewritten k (t :: ts) (k.ofSound (.chord r.value) ++ es)
      ((r.value.rescale k).tokens ++ us) := by
  have reading := isReading_of_read? h
  rw [← read?_append h, tokens_append, tokens_append, Scaling.ofSound]
  unfold rescale
  split
  next notewise =>
    have behind := ((((tail.keepAll r.value.tie.toList).keepAll r.value.rhythm.broken.toList).keepAll
      r.value.rhythm.lengthTokens).keep r.value.right)
    have inner := rewritten_parts (noErrors_append.mp (reading.problems ▸ good)).1
      (Token.nextNot_cons.mpr (by simp [reading.closes, Kind.isRhythm])) behind
    rw [reading.parts] at inner
    exact inner.keep r.value.left
  next shared =>
    have behind := (tail.keepAll r.value.tie.toList).keepAll r.value.rhythm.broken.toList
    have bracket : IsHead [r.value.right] := .bracket reading.closes
    have length := Rewritten.rhythm bracket reading.fits
      (Rhythm.nextNot_isLength reading.fits reading.tie next) behind
    rw [Rhythm.broken_rescale]
    exact (length.keepAll _).keep r.value.left

end Chord
end Tunebook
