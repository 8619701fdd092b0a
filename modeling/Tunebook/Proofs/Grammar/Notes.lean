import Tunebook.Grammar.Note

/-! Notes read back. A note that was read has tokens of the right kinds in its slots, and the tokens
of any such note are read as that note again, whatever stands behind them that does not go on with
it. -/
namespace Tunebook

namespace Token

/-- The next token, if there is one, fails `p`. -/
def NextNot (p : Kind → Bool) (ts : List Token) : Prop :=
  ∀ t ∈ ts.head?, p t.kind = false

theorem nextNot_nil (p : Kind → Bool) : NextNot p [] := by
  intro t member
  cases member

theorem nextNot_cons {p : Kind → Bool} : NextNot p (t :: ts) ↔ p t.kind = false := by
  simp [NextNot]

theorem nextNot_toList_append {p : Kind → Bool} {o : Option Token}
    (ho : ∀ t ∈ o, p t.kind = false) (h : NextNot p ts) : NextNot p (o.toList ++ ts) := by
  cases o with
  | none => exact h
  | some t => exact nextNot_cons.mpr (ho t rfl)

theorem NextNot.congr {p : Kind → Bool} (h : NextNot p ts) (same : us.head? = ts.head?) :
    NextNot p us := by
  rw [NextNot, same]
  exact h

theorem NextNot.append {p : Kind → Bool} (hs : NextNot p ss) (ht : NextNot p ts) :
    NextNot p (ss ++ ts) := by
  cases ss with
  | nil => exact ht
  | cons s ss => exact hs

theorem NextNot.mono {p q : Kind → Bool} (h : NextNot p ts) (le : ∀ k, q k = true → p k = true) :
    NextNot q ts := by
  intro t member
  cases hq : q t.kind with
  | false => rfl
  | true =>
    have fails := h t member
    rw [le _ hq] at fails
    cases fails

theorem accept_toList {p : Kind → Bool} {o : Option Token} (ho : ∀ t ∈ o, p t.kind = true)
    (hn : o = none → NextNot p ts) : accept p (o.toList ++ ts) = (o, ts) := by
  cases o with
  | none =>
    cases ts with
    | nil => rfl
    | cons t ts =>
      have fails := nextNot_cons.mp (hn rfl)
      simp [accept, fails]
  | some t => simp [accept, ho t rfl]

theorem nextNot_of_accept {p : Kind → Bool} (h : accept p ts = (none, us)) : NextNot p us := by
  unfold accept at h
  split at h
  · cases h
    exact nextNot_nil p
  · split at h
    · cases h
    next fails =>
      cases h
      exact nextNot_cons.mpr (Bool.not_eq_true _ ▸ fails)

/-- An optional token is accepted again. -/
theorem accept_again (p : Kind → Bool) (ts : List Token) (same : us.head? = (accept p ts).2.head?) :
    accept p ((accept p ts).1.toList ++ us) = ((accept p ts).1, us) := by
  refine accept_toList (fun t member => kind_of_mem_accept member) ?_
  intro none
  exact (nextNot_of_accept (Prod.ext none rfl)).congr same

end Token

/-- The kinds of a written length. -/
def Kind.isLength (k : Kind) : Bool :=
  k matches .number | .slash

def Kind.isBroken (k : Kind) : Bool :=
  k matches .greater | .less

/-- The kinds of octave marks. -/
def Kind.isOctave (k : Kind) : Bool :=
  k matches .apostrophe | .comma

/-- Parts of a rhythm with the kinds they are read by. -/
structure Rhythm.Fits (r : Rhythm) : Prop where
  numerator : ∀ t ∈ r.numerator, t.kind = .number
  separator : ∀ t ∈ r.separator, t.kind = .slash
  denominator : ∀ t ∈ r.denominator, t.kind = .number
  separated : r.denominator.isSome = true → r.separator.isSome = true
  broken : ∀ t ∈ r.broken, t.kind.isBroken = true

namespace Rhythm

theorem fits_read (ts : List Token) : (read ts).1.Fits := by
  refine ⟨?_, ?_, ?_, ?_, ?_⟩ <;> simp only [read]
  · intro t member
    simpa using Token.kind_of_mem_accept member
  · intro t member
    simpa using Token.kind_of_mem_accept member
  · intro t member
    split at member
    · simpa using Token.kind_of_mem_accept member
    · cases member
  · intro found
    split at found
    next separated => exact separated
    · cases found
  · intro t member
    have passes := Token.kind_of_mem_accept member
    simp only [Bool.or_eq_true, decide_eq_true_eq] at passes
    rcases passes with h | h <;> simp [h, Kind.isBroken]

theorem isRhythm_of_mem {r : Rhythm} (fits : r.Fits) (h : t ∈ r.tokens) :
    t.kind.isRhythm = true := by
  simp only [tokens, lengthTokens, List.mem_append, Option.mem_toList] at h
  rcases h with ((h | h) | h) | h
  · simp [fits.numerator t h, Kind.isRhythm]
  · simp [fits.separator t h, Kind.isRhythm]
  · simp [fits.denominator t h, Kind.isRhythm]
  · have mark := fits.broken t h
    cases htk : t.kind <;> rw [htk] at mark <;> cases mark <;> rfl

theorem isBroken_eq (k : Kind) : (k = .greater || k = .less) = k.isBroken := by
  cases k <;> rfl

/-- Behind the tokens of a length the mark of a broken rhythm is read. -/
theorem read_lengthTokens {r : Rhythm} (fits : r.Fits) (next : Token.NextNot Kind.isLength us) :
    read (r.lengthTokens ++ us) =
      ({ r with broken := (Token.accept Kind.isBroken us).1 },
        (Token.accept Kind.isBroken us).2) := by
  obtain ⟨numerator, separator, denominator, broken⟩ := r
  obtain ⟨hn, hs, hd, separated, hb⟩ := fits
  have rest {k : Kind} (length : k.isLength = true) : Token.NextNot (· = k) us := by
    apply next.mono
    intro j same
    obtain rfl := of_decide_eq_true same
    exact length
  cases separator with
  | none =>
    obtain rfl : denominator = none := by simpa using separated
    have first : Token.accept (· = .number) (numerator.toList ++ us) = (numerator, us) :=
      Token.accept_toList (by simpa using hn) fun _ => rest rfl
    have second : Token.accept (· = .slash) us = (none, us) :=
      Token.accept_toList (o := none) (by simp) fun _ => rest rfl
    simp [read, lengthTokens, first, second, isBroken_eq]
  | some s =>
    have slash := hs s rfl
    have first : Token.accept (· = .number) (numerator.toList ++ s :: (denominator.toList ++ us)) =
        (numerator, s :: (denominator.toList ++ us)) :=
      Token.accept_toList (by simpa using hn) fun _ => Token.nextNot_cons.mpr (by simp [slash])
    have second : Token.accept (· = .slash) (s :: (denominator.toList ++ us)) =
        (some s, denominator.toList ++ us) := by
      simp [Token.accept, slash]
    have third : Token.accept (· = .number) (denominator.toList ++ us) = (denominator, us) :=
      Token.accept_toList (by simpa using hd) fun _ => rest rfl
    simp [read, lengthTokens, first, second, third, isBroken_eq]

theorem read_tokens {r : Rhythm} (fits : r.Fits) (next : Token.NextNot Kind.isRhythm us) :
    read (r.tokens ++ us) = (r, us) := by
  have behind : Token.NextNot Kind.isLength (r.broken.toList ++ us) := by
    apply Token.nextNot_toList_append
    · intro t member
      have mark := fits.broken t member
      cases htk : t.kind <;> rw [htk] at mark <;> cases mark <;> rfl
    · apply next.mono
      intro k length
      cases k <;> cases length <;> rfl
  have last : Token.accept Kind.isBroken (r.broken.toList ++ us) = (r.broken, us) := by
    apply Token.accept_toList fits.broken
    intro _
    apply next.mono
    intro k mark
    cases k <;> cases mark <;> rfl
  rw [tokens, List.append_assoc, read_lengthTokens fits behind, last]

/-- What does not go on with a rhythm and a tie. -/
def EndsTied (tie : Option Token) (us : List Token) : Prop :=
  Token.NextNot Kind.isRhythm us ∧ (tie = none → Token.NextNot (· = .minus) us)

theorem readTied_tokens {r : Rhythm} (fits : r.Fits) (ht : ∀ t ∈ tie, t.kind = .minus)
    (ends : EndsTied tie us) : readTied (r.tokens ++ (tie.toList ++ us)) = (r, tie, us) := by
  have next : Token.NextNot Kind.isRhythm (tie.toList ++ us) := by
    refine Token.nextNot_toList_append ?_ ends.1
    intro t member
    simp [ht t member, Kind.isRhythm]
  have last : Token.accept (· = .minus) (tie.toList ++ us) = (tie, us) :=
    Token.accept_toList (by simpa using ht) ends.2
  simp only [readTied, read_tokens fits next, last]

theorem fits_readTied (ts : List Token) :
    (readTied ts).1.Fits ∧ (∀ t ∈ (readTied ts).2.1, t.kind = .minus) ∧
      ((readTied ts).2.1 = none → Token.NextNot (· = .minus) (readTied ts).2.2) := by
  refine ⟨fits_read ts, ?_, ?_⟩
  · intro t member
    have found : t ∈ (Token.accept (· = .minus) (read ts).2).1 := member
    simpa using Token.kind_of_mem_accept found
  · intro none
    exact Token.nextNot_of_accept (Prod.ext none rfl)

end Rhythm

namespace NoteHead

/-- Tokens of a head with the kinds they are read by. -/
def Fits : NoteHead → Prop
  | pitch alteration letter octave =>
    (∀ t ∈ alteration, t.kind.isAccidental = true) ∧ letter.kind = .noteLetter ∧
      ∀ t ∈ octave, t.kind.isOctave = true
  | rest letter => letter.kind = .restLetter

/-- A mark of the octave behind the letter would be part of the head. -/
def takesOctave : NoteHead → Bool
  | pitch _ _ none => true
  | _ => false

theorem tokens_eq (head : NoteHead) : head.tokens = head.first :: head.tokens.tail := by
  cases head with
  | pitch alteration letter octave => cases alteration <;> rfl
  | rest letter => rfl

theorem Fits.startsNote {head : NoteHead} (h : head.Fits) : head.first.kind.startsNote = true := by
  cases head with
  | pitch alteration letter octave =>
    cases alteration with
    | none => simp [first, Kind.startsNote, h.2.1]
    | some t => simp [first, Kind.startsNote, h.1 t rfl]
  | rest letter =>
    have rest : letter.kind = .restLetter := h
    simp [first, Kind.startsNote, rest]

end NoteHead

namespace Note

structure Fits (n : Note) : Prop where
  head : n.head.Fits
  rhythm : n.rhythm.Fits
  tie : ∀ t ∈ n.tie, t.kind = .minus

/-- What stands behind the note does not go on with it. -/
structure Bounded (n : Note) (us : List Token) : Prop where
  tied : Rhythm.EndsTied n.tie us
  octave : n.head.takesOctave = true → n.rhythm.tokens = [] → n.tie = none →
    Token.NextNot Kind.isOctave us

theorem Bounded.congr {n : Note} (bounded : n.Bounded ts) (same : us.head? = ts.head?) :
    n.Bounded us := by
  obtain ⟨⟨rhythm, tie⟩, octave⟩ := bounded
  exact ⟨⟨rhythm.congr same, fun untied => (tie untied).congr same⟩,
    fun takes bare untied => (octave takes bare untied).congr same⟩

theorem tokens_eq (n : Note) : n.tokens = n.head.first :: n.tokens.tail := by
  rw [tokens, NoteHead.tokens_eq]
  rfl

theorem first_of_read? (h : read? t ts = some (n, rest)) : n.head.first = t := by
  have whole := read?_append h
  rw [tokens_eq, List.cons_append, List.cons.injEq] at whole
  exact whole.1

theorem isOctave_eq (k : Kind) : (k = .apostrophe || k = .comma) = k.isOctave := by
  cases k <;> rfl

/-- The octave mark of a note would stand before all else that goes on with it. -/
theorem Fits.nextNot_octave {n : Note} (fits : n.Fits)
    (bare : n.rhythm.tokens = [] → n.tie = none → Token.NextNot Kind.isOctave us) :
    Token.NextNot Kind.isOctave (n.rhythm.tokens ++ (n.tie.toList ++ us)) := by
  have notOctave (k : Kind) (h : k.isRhythm = true ∨ k = .minus) : k.isOctave = false := by
    cases k <;> simp [Kind.isRhythm, Kind.isOctave] at h ⊢
  cases hr : n.rhythm.tokens with
  | cons t ts =>
    have length := Rhythm.isRhythm_of_mem fits.rhythm (hr ▸ List.mem_cons_self)
    exact Token.nextNot_cons.mpr (notOctave _ (.inl length))
  | nil =>
    cases ht : n.tie with
    | some t => exact Token.nextNot_cons.mpr (notOctave _ (.inr (fits.tie t ht)))
    | none => exact bare hr ht

/-- Behind its head a note goes on with its rhythm and tie. -/
theorem read?_head {head : NoteHead} (fits : head.Fits)
    (next : head.takesOctave = true → Token.NextNot Kind.isOctave us) :
    read? head.first (head.tokens.tail ++ us) = some (finish head us) := by
  cases head with
  | rest letter =>
    have rest : letter.kind = .restLetter := fits
    simp [read?, NoteHead.first, rest, Kind.isAccidental, NoteHead.tokens]
  | pitch alteration letter octave =>
    obtain ⟨ha, hl, ho⟩ := fits
    have written : readPitch alteration letter (octave.toList ++ us) =
        finish (.pitch alteration letter octave) us := by
      have mark : Token.accept Kind.isOctave (octave.toList ++ us) = (octave, us) := by
        apply Token.accept_toList ho
        rintro rfl
        exact next rfl
      simp only [readPitch, isOctave_eq, mark]
    cases alteration with
    | none => simp [read?, NoteHead.first, hl, Kind.isAccidental, NoteHead.tokens, written]
    | some t => simp [read?, NoteHead.first, hl, ha t rfl, NoteHead.tokens, written]

theorem read?_tokens {n : Note} (fits : n.Fits) (bounded : n.Bounded us) :
    read? n.head.first (n.tokens.tail ++ us) = some (n, us) := by
  have finished : finish n.head (n.rhythm.tokens ++ (n.tie.toList ++ us)) = (n, us) := by
    rw [finish, Rhythm.readTied_tokens fits.rhythm fits.tie bounded.tied]
  have tokens : n.tokens.tail ++ us =
      n.head.tokens.tail ++ (n.rhythm.tokens ++ (n.tie.toList ++ us)) := by
    rw [Note.tokens, n.head.tokens_eq]
    simp
  rw [tokens, read?_head fits.head fun takes => fits.nextNot_octave (bounded.octave takes), finished]

/-- What holds of a note that was read and what it left: neither a tie nor an octave mark that it
has none of follows. -/
structure IsReading (n : Note) (rest : List Token) : Prop where
  fits : n.Fits
  untied : n.tie = none → Token.NextNot (· = .minus) rest
  octave : n.head.takesOctave = true → n.rhythm.tokens = [] → n.tie = none →
    Token.NextNot Kind.isOctave rest

theorem isReading_finish {head : NoteHead} (fits : head.Fits)
    (octave : head.takesOctave = true → Token.NextNot Kind.isOctave ts) :
    IsReading (finish head ts).1 (finish head ts).2 := by
  obtain ⟨rhythm, tie, untied⟩ := Rhythm.fits_readTied ts
  refine ⟨⟨fits, rhythm, tie⟩, untied, ?_⟩
  -- with neither a rhythm nor a tie the head left all there was
  intro takes bare none
  have whole := Rhythm.readTied_append ts
  rw [show (Rhythm.readTied ts).1.tokens = [] from bare,
    show (Rhythm.readTied ts).2.1 = Option.none from none] at whole
  simp only [Option.toList_none, List.nil_append] at whole
  exact (octave takes).congr (congrArg List.head? whole)

theorem isReading_readPitch {alteration : Option Token}
    (accidental : ∀ t ∈ alteration, t.kind.isAccidental = true) (h : letter.kind = .noteLetter) :
    IsReading (readPitch alteration letter ts).1 (readPitch alteration letter ts).2 := by
  simp only [readPitch, isOctave_eq]
  refine isReading_finish ⟨accidental, h, fun t member => Token.kind_of_mem_accept member⟩ ?_
  intro takes
  have none : (Token.accept Kind.isOctave ts).1 = none := by
    cases found : (Token.accept Kind.isOctave ts).1 with
    | none => rfl
    | some mark => simp [found, NoteHead.takesOctave] at takes
  exact Token.nextNot_of_accept (Prod.ext none rfl)

theorem isReading_of_read? (starts : t.kind.startsNote = true)
    (h : read? t ts = some (n, rest)) : IsReading n rest := by
  unfold read? at h
  split at h
  next accidental =>
    split at h
    next letter us =>
      split at h
      next hl =>
        cases h
        refine isReading_readPitch ?_ hl
        intro u member
        cases member
        exact accidental
      · cases h
    · cases h
  next plain =>
    split at h
    next hl =>
      cases h
      exact isReading_readPitch (by simp) hl
    next other =>
      cases h
      have rest : t.kind = .restLetter := by
        cases hk : t.kind <;> simp_all [Kind.startsNote, Kind.isAccidental]
      exact isReading_finish rest (by simp [NoteHead.takesOctave])

/-- What a note leaves does not go on with it, parts of a rhythm apart. -/
theorem IsReading.bounded (reading : IsReading n rest) (next : Token.NextNot Kind.isRhythm rest) :
    n.Bounded rest where
  tied := ⟨next, reading.untied⟩
  octave := reading.octave

end Note
end Tunebook
