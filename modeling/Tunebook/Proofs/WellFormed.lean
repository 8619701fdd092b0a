import Tunebook.Proofs.Grammar.Groups

/-! Trees are well formed. Whatever tokens a tree was read from, what opens a group in it has its
counterpart of the right kind, and each part of a note or field stands in the slot of its kind. For
slurs this rests on the look ahead: a parenthesis that was found closed still is when the contents of
its slur have been read, though a field among them may have taken parentheses as text. -/
namespace Tunebook

/-- Parentheses delimit slurs. -/
def Kind.isParen (k : Kind) : Bool :=
  k = .leftParen || k = .rightParen

theorem Kind.isParen_iff {k : Kind} : k.isParen = true ↔ k = .leftParen ∨ k = .rightParen := by
  simp [isParen]

theorem Kind.isParen_eq_false {k : Kind} :
    k.isParen = false ↔ k ≠ .leftParen ∧ k ≠ .rightParen := by
  simp [isParen]

theorem Chord.isParen_of_admits (h : admits k = true) : k.isParen = false := by
  cases k <;> first | rfl | cases h

theorem GraceGroup.isParen_of_admits (h : admits k = true) : k.isParen = false := by
  cases k <;> first | rfl | cases h

def ChordPart.WellFormed : ChordPart → Prop
  | note n => n.Fits
  | quotedText t => t.kind = .quotedText
  | token _ => True

structure Chord.WellFormed (c : Chord) : Prop where
  left : c.left.kind = .leftBracket
  parts : ∀ part ∈ c.parts, part.WellFormed
  right : c.right.kind = .rightBracket
  rhythm : c.rhythm.Fits
  tie : ∀ t ∈ c.tie, t.kind = .minus

def GracePart.WellFormed : GracePart → Prop
  | note n => n.Fits
  | chord c => c.WellFormed
  | token _ => True

structure GraceGroup.WellFormed (g : GraceGroup) : Prop where
  left : g.left.kind = .leftBrace
  slash : ∀ t ∈ g.slash, t.kind = .slash
  parts : ∀ part ∈ g.parts, part.WellFormed
  right : g.right.kind = .rightBrace

/-- The bracket that closes a field may be missing, unlike that of a chord. -/
structure InlineField.WellFormed (f : InlineField) : Prop where
  left : f.left.kind = .leftBracket
  padding : ∀ t ∈ f.padding, t.kind = .whitespace
  field : isLetter f.field.kind = true
  colon : f.colon.kind = .colon
  right : ∀ t ∈ f.right, t.kind = .rightBracket

mutual

/-- Groups are delimited on both sides, and so are those inside them. -/
def Item.WellFormed : Item → Prop
  | .note n => n.Fits
  | .chord c => c.WellFormed
  | .grace g => g.WellFormed
  | .slur left contents right =>
    left.kind = .leftParen ∧ (∃ t ∈ right, t.kind = .rightParen) ∧ Item.AllWellFormed contents
  | .inlineField f => f.WellFormed
  | .barline t => t.kind.isBarline = true
  | .quotedText t => t.kind = .quotedText
  | .symbol t => t.kind = .symbol
  | .nthRepeat t => t.kind = .nthRepeat
  | .decoration t => t.kind = .dot ∨ t.kind = .tilde ∨ t.kind = .letter
  | .multiMeasureRest letter length =>
    letter.kind = .multiMeasureRest ∧ ∀ t ∈ length, t.kind = .number
  | .spacer letter width => letter.kind = .spacerLetter ∧ ∀ t ∈ width, t.kind = .number
  | .token _ => True

def Item.AllWellFormed : List Item → Prop
  | [] => True
  | item :: items => item.WellFormed ∧ Item.AllWellFormed items

end

def Tree.WellFormed (t : Tree) : Prop :=
  ∀ tune ∈ t.tunes, ∀ line ∈ tune.musicLines, Item.AllWellFormed line.items

namespace Chord

theorem wellFormed_of_mem_readParts (h : part ∈ (readParts ts).1) : part.WellFormed := by
  fun_induction readParts ts with
  | case1 => cases h
  | case2 t ts starts note rest found parts problems hr ih =>
    rw [hr] at ih
    rcases List.mem_cons.mp h with rfl | h
    · exact (Note.isReading_of_read? starts found).fits
    · exact ih h
  | case4 t ts _ quoted parts problems hr ih =>
    rw [hr] at ih
    rcases List.mem_cons.mp h with rfl | h
    · exact quoted
    · exact ih h
  | case3 t ts _ _ parts problems hr ih | case5 t ts _ _ parts problems hr ih =>
    rw [hr] at ih
    rcases List.mem_cons.mp h with rfl | h
    · trivial
    · exact ih h

theorem wellFormed_read? (left : t.kind = .leftBracket) (h : read? t ts = some r) :
    r.value.WellFormed := by
  have reading := isReading_of_read? h
  refine ⟨reading.left ▸ left, fun part member => ?_, reading.closes, reading.fits, reading.tie⟩
  rw [← reading.parts] at member
  exact wellFormed_of_mem_readParts member

end Chord

namespace GraceGroup

theorem wellFormed_chord? (h : chord? t ts = some r) : r.value.WellFormed := by
  obtain ⟨left, read⟩ := chord?_eq_some_iff.mp h
  exact Chord.wellFormed_read? left read

theorem wellFormed_of_mem_readParts (h : part ∈ (readParts ts).1) : part.WellFormed := by
  fun_induction readParts ts with
  | case1 => cases h
  | case2 t ts starts note rest found parts problems hr ih =>
    rw [hr] at ih
    rcases List.mem_cons.mp h with rfl | h
    · exact (Note.isReading_of_read? starts found).fits
    · exact ih h
  | case4 t ts _ chord found parts problems hr ih =>
    rw [hr] at ih
    rcases List.mem_cons.mp h with rfl | h
    · exact wellFormed_chord? found
    · exact ih h
  | case3 t ts _ _ parts problems hr ih | case5 t ts _ _ parts problems hr ih =>
    rw [hr] at ih
    rcases List.mem_cons.mp h with rfl | h
    · trivial
    · exact ih h

theorem wellFormed_read? (left : t.kind = .leftBrace) (h : read? t ts = some r) :
    r.value.WellFormed := by
  obtain ⟨⟨inside, right, rest⟩, split, rfl⟩ := Option.map_eq_some_iff.1 h
  refine ⟨left, fun t member => ?_, fun part => wellFormed_of_mem_readParts,
    (Token.splitClose_spec split).1⟩
  simpa using Token.kind_of_mem_accept member

end GraceGroup

theorem InlineField.wellFormed_read? (left : t.kind = .leftBracket)
    (h : read? inSlur t ts = some r) : r.value.WellFormed := by
  obtain ⟨same, fits, _⟩ := fits_of_read? h
  exact ⟨same ▸ left, fits.padding, fits.field, fits.colon, fits.right⟩

/-- In a slur a field leaves the parenthesis that closes. -/
theorem InlineField.ne_rightParen_of_mem (left : t.kind = .leftBracket)
    (h : read? true t ts = some r) (member : u ∈ r.value.tokens) : u.kind ≠ .rightParen := by
  obtain ⟨same, fits, _⟩ := fits_of_read? h
  intro kind
  simp only [tokens, List.mem_append, List.mem_cons, Option.mem_toList] at member
  rcases member with ((rfl | padding) | rfl | rfl | text) | right
  · simp [same, left] at kind
  · simp [fits.padding u padding] at kind
  · simpa [kind, isLetter] using fits.field
  · simp [fits.colon] at kind
  · simpa [kind, endsText] using fits.text u text
  · simp [fits.right u right] at kind

namespace Item

theorem wellFormed_bare (t : Token) (ts : List Token) (fault : Option Fault) :
    (bare t ts fault).value.WellFormed := by
  simp [bare, WellFormed]

theorem wellFormed_readBracket (left : t.kind = .leftBracket) (inSlur : Bool) (ts : List Token) :
    (readBracket inSlur t ts).value.WellFormed := by
  unfold readBracket
  split
  next r found => simpa only [WellFormed] using InlineField.wellFormed_read? left found
  · split
    next r found => simpa only [WellFormed] using Chord.wellFormed_read? left found
    · exact wellFormed_bare t ts _

theorem wellFormed_readBrace (left : t.kind = .leftBrace) (ts : List Token) :
    (readBrace t ts).value.WellFormed := by
  unfold readBrace
  split
  next r found => simpa only [WellFormed] using GraceGroup.wellFormed_read? left found
  · exact wellFormed_bare t ts _

theorem wellFormed_readNote (starts : t.kind.startsNote = true) (ts : List Token) :
    (readNote t ts).value.WellFormed := by
  unfold readNote
  split
  next n rest found =>
    simpa only [plain, WellFormed] using (Note.isReading_of_read? starts found).fits
  · exact wellFormed_bare t ts _

theorem wellFormed_read (inSlur : Bool) (t : Token) (ts : List Token) :
    (read inSlur t ts).value.WellFormed := by
  have number (u : Token) (member : u ∈ (Token.accept (· = .number) ts).1) : u.kind = .number := by
    simpa using Token.kind_of_mem_accept member
  cases hk : t.kind with
  | leftBracket => simpa only [read, hk] using wellFormed_readBracket hk inSlur ts
  | leftBrace => simpa only [read, hk] using wellFormed_readBrace hk ts
  | noteLetter | restLetter | sharp | sharpDbl | flat | flatDbl | natural =>
    simp only [read, hk]
    exact wellFormed_readNote (by rw [hk]; rfl) ts
  | letter =>
    simp only [read, hk]
    split <;> simp [plain, bare, WellFormed, hk]
  | multiMeasureRest | spacerLetter =>
    simpa only [read, hk, plain, WellFormed, true_and] using number
  | _ => simp [read, hk, plain, bare, WellFormed, Kind.isBarline, Kind.startsNote, Kind.isAccidental]

/-! What a parenthesis that is closed rests on. -/

theorem isClosed_left (h : t.kind = .leftParen) :
    isClosed depth (t :: ts) = isClosed (depth + 1) ts := by
  simp [isClosed, h]

theorem isClosed_other (left : t.kind ≠ .leftParen) (right : t.kind ≠ .rightParen) :
    isClosed depth (t :: ts) = isClosed depth ts := by
  simp [isClosed, left, right]

/-- Where more parentheses are closed, so are fewer. -/
theorem isClosed_of_le (le : fewer ≤ depth) (h : isClosed depth ts = true) :
    isClosed fewer ts = true := by
  induction ts generalizing fewer depth with
  | nil => cases h
  | cons t ts ih =>
    by_cases left : t.kind = .leftParen
    · rw [isClosed_left left] at h ⊢
      exact ih (Nat.succ_le_succ le) h
    · by_cases right : t.kind = .rightParen
      · cases fewer with
        | zero => simp [isClosed, right]
        | succ fewer =>
          obtain ⟨depth, rfl⟩ := Nat.exists_eq_add_of_lt le
          simp only [isClosed, right] at h ⊢
          exact ih (by omega) h
      · rw [isClosed_other left right] at h ⊢
        exact ih le h

/-- Tokens that close nothing may be passed over. -/
theorem isClosed_of_append (h : isClosed depth (ts ++ us) = true)
    (closesNone : ∀ t ∈ ts, t.kind ≠ .rightParen) : isClosed depth us = true := by
  induction ts generalizing depth with
  | nil => exact h
  | cons t ts ih =>
    have tail : ∀ u ∈ ts, u.kind ≠ .rightParen := fun u member => closesNone u (.tail t member)
    rw [List.cons_append] at h
    by_cases left : t.kind = .leftParen
    · rw [isClosed_left left] at h
      exact ih (isClosed_of_le (Nat.le_succ depth) h) tail
    · rw [isClosed_other left (closesNone t List.mem_cons_self)] at h
      exact ih h tail

/-! Of all items but slurs and bare tokens only a field takes parentheses, and in a slur none that
closes. -/

theorem isParen_of_mem_bare (first : t.kind.isParen = false)
    (h : u ∈ (bare t ts fault).value.tokens) : u.kind.isParen = false := by
  obtain rfl : u = t := by simpa [bare, tokens] using h
  exact first

theorem isParen_of_mem_readBracket (left : t.kind = .leftBracket)
    (h : u ∈ (readBracket inSlur t ts).value.tokens) :
    u.kind.isParen = false ∨ ∃ r, InlineField.read? inSlur t ts = some r ∧
      (readBracket inSlur t ts).value = .inlineField r.value := by
  have opens : t.kind.isParen = false := by rw [left]; rfl
  unfold readBracket at h ⊢
  split at h
  next r found => exact .inr ⟨r, found, rfl⟩
  · left
    split at h
    next r found =>
      rw [tokens] at h
      rcases Chord.kind_of_mem found h with rfl | closes | admitted
      · exact opens
      · rw [closes]
        rfl
      · exact Chord.isParen_of_admits admitted
    · exact isParen_of_mem_bare opens h

theorem isParen_of_mem_readBrace (left : t.kind = .leftBrace)
    (h : u ∈ (readBrace t ts).value.tokens) : u.kind.isParen = false := by
  have opens : t.kind.isParen = false := by rw [left]; rfl
  unfold readBrace at h
  split at h
  next r found =>
    rw [tokens] at h
    rcases GraceGroup.kind_of_mem found h with rfl | closes | admitted
    · exact opens
    · rw [closes]
      rfl
    · exact GraceGroup.isParen_of_admits admitted
  · exact isParen_of_mem_bare opens h

theorem isParen_of_mem_readNote (starts : t.kind.startsNote = true)
    (h : u ∈ (readNote t ts).value.tokens) : u.kind.isParen = false := by
  unfold readNote at h
  split at h
  next n rest found =>
    have fits := (Note.isReading_of_read? starts found).fits
    exact Chord.isParen_of_admits <| Chord.admits_of_mem_note fits
      (by simpa only [plain, tokens] using h)
  · refine isParen_of_mem_bare ?_ h
    cases kind : t.kind <;> rw [kind] at starts <;> first | rfl | cases starts

theorem isParen_of_mem_read (first : t.kind.isParen = false)
    (h : u ∈ (read inSlur t ts).value.tokens) :
    u.kind.isParen = false ∨ t.kind = .leftBracket ∧
      ∃ r, InlineField.read? inSlur t ts = some r ∧
        (read inSlur t ts).value = .inlineField r.value := by
  have number (letter : u ∈ t :: (Token.accept (· = .number) ts).1.toList) :
      u.kind.isParen = false := by
    rcases List.mem_cons.mp letter with rfl | member
    · exact first
    · have kind := of_decide_eq_true (Token.kind_of_mem_accept (Option.mem_toList.mp member))
      rw [kind]
      rfl
  cases hk : t.kind with
  | leftBracket =>
    simp only [read, hk] at h ⊢
    exact (isParen_of_mem_readBracket hk h).imp_right fun field => ⟨trivial, field⟩
  | leftBrace => exact .inl (isParen_of_mem_readBrace hk (by simpa only [read, hk] using h))
  | noteLetter | restLetter | sharp | sharpDbl | flat | flatDbl | natural =>
    simp only [read, hk] at h
    exact .inl (isParen_of_mem_readNote (by rw [hk]; rfl) h)
  | multiMeasureRest | spacerLetter =>
    exact .inl (number (by simpa only [read, hk, plain, tokens] using h))
  | letter =>
    obtain rfl : u = t := by
      simp only [read, hk] at h
      split at h <;> simpa [plain, bare, tokens] using h
    exact .inl first
  | _ =>
    obtain rfl : u = t := by
      simpa [read, hk, plain, bare, tokens, Kind.isBarline, Kind.startsNote, Kind.isAccidental]
        using h
    exact .inl first

/-- A parenthesis that starts an item stands for itself. -/
theorem read_paren (h : t.kind.isParen = true) (inSlur : Bool) (ts : List Token) :
    read inSlur t ts = bare t ts none := by
  rcases Kind.isParen_iff.mp h with kind | kind <;>
    simp [read, kind, Kind.isBarline, Kind.startsNote, Kind.isAccidental]

theorem ne_rightParen_of_mem_read (first : t.kind ≠ .rightParen)
    (h : u ∈ (read true t ts).value.tokens) : u.kind ≠ .rightParen := by
  cases paren : t.kind.isParen with
  | true =>
    rw [read_paren paren] at h
    obtain rfl : u = t := by simpa [bare, tokens] using h
    exact first
  | false =>
    rcases isParen_of_mem_read paren h with plain | ⟨left, r, found, field⟩
    · exact (Kind.isParen_eq_false.mp plain).2
    · rw [field, tokens] at h
      exact InlineField.ne_rightParen_of_mem left found h

/-- With `depth` others open around it, a slur is read up to the parenthesis that closes it, and
those others are still closed behind that. -/
theorem rest_readAll_of_isClosed (h : isClosed depth ts = true) :
    ∃ t us, (readAll true ts).rest = t :: us ∧ t.kind = .rightParen ∧
      ∀ outer, depth = outer + 1 → isClosed outer us = true := by
  -- whether the items stand in a slur has to vary in the induction
  suffices general : ∀ inSlur ts, inSlur = true → ∀ depth, isClosed depth ts = true →
      ∃ t us, (readAll true ts).rest = t :: us ∧ t.kind = .rightParen ∧
        ∀ outer, depth = outer + 1 → isClosed outer us = true from general true ts rfl depth h
  clear h depth ts
  intro inSlur ts
  induction inSlur, ts using readAll_induct with
  | nil inSlur =>
    intro _ depth h
    cases h
  | stop t ts right =>
    intro _ depth h
    refine ⟨t, ts, by rw [readAll_stop right], right, ?_⟩
    rintro outer rfl
    simpa [isClosed, right] using h
  | slur inSlur t ts left closed inner tail =>
    rintro rfl depth h
    rw [isClosed_left left] at h
    obtain ⟨c, us, rest, right, again⟩ := inner rfl (depth + 1) h
    have accepted : Token.accept (· = .rightParen) (readAll true ts).rest = (some c, us) := by
      simp [rest, Token.accept, right]
    rw [accepted] at tail
    rw [readAll_slur left closed]
    simp only [accepted]
    exact tail rfl depth (again depth rfl)
  | item inSlur t ts right left tail =>
    rintro rfl depth h
    have closes : t.kind ≠ .rightParen := by simpa using right
    have opens : t.kind ≠ .leftParen := by
      intro opens
      rw [isClosed_left opens] at h
      simp [opens, isClosed_of_le (Nat.zero_le _) h] at left
    rw [readAll_item right left]
    refine tail rfl depth ?_
    have whole := read_append true t ts
    have ahead : isClosed depth ((read true t ts).value.tokens ++ (read true t ts).rest) = true := by
      rwa [whole]
    exact isClosed_of_append ahead fun u => ne_rightParen_of_mem_read closes

theorem wellFormed_readAll (inSlur : Bool) (ts : List Token) :
    AllWellFormed (readAll inSlur ts).value := by
  induction inSlur, ts using readAll_induct with
  | nil inSlur =>
    rw [readAll_nil]
    trivial
  | stop t ts right =>
    rw [readAll_stop right]
    trivial
  | slur inSlur t ts left closed inner tail =>
    obtain ⟨c, us, rest, right, _⟩ := rest_readAll_of_isClosed closed
    rw [readAll_slur left closed]
    refine ⟨⟨left, ⟨c, ?_, right⟩, inner⟩, tail⟩
    simp [rest, Token.accept, right]
  | item inSlur t ts right left tail =>
    rw [readAll_item right left]
    exact ⟨wellFormed_read inSlur t ts, tail⟩

end Item

theorem BodyLine.wellFormed_read (h : (read t ts).value.music? = some line) :
    Item.AllWellFormed line.items := by
  unfold read at h
  split at h
  · cases h
  · split at h
    · cases h
    · cases h
      exact Item.wellFormed_readAll false _

/-- The music lines among lines of a body are well formed. -/
def Tune.BodyWellFormed (lines : List BodyLine) : Prop :=
  ∀ line ∈ lines.filterMap BodyLine.music?, Item.AllWellFormed line.items

namespace Tune

theorem bodyWellFormed_readBody (atLineStart : Bool) (ts : List Token) :
    BodyWellFormed (readBody atLineStart ts).value := by
  fun_induction readBody atLineStart ts with
  | case1 | case2 =>
    intro line member
    cases member
  | case3 _ t ts _ line tail ih =>
    intro music member
    obtain ⟨own, listed, same⟩ := List.mem_filterMap.mp member
    rcases List.mem_cons.mp listed with rfl | listed
    · exact BodyLine.wellFormed_read same
    · exact ih music (List.mem_filterMap.mpr ⟨own, listed, same⟩)

end Tune

namespace Tree

theorem wellFormed_readTunes (beyond : Bool) (ts : List Token) :
    ∀ tune ∈ (readTunes beyond ts).1, Tune.BodyWellFormed tune.body := by
  fun_induction readTunes beyond ts with
  | case1 =>
    intro tune member
    cases member
  | case2 t ts tune tail ih =>
    intro other member
    rcases List.mem_cons.mp member with rfl | member
    · exact Tune.bodyWellFormed_readBody true _
    · exact ih other member

/-- The tree of any tokens is well formed. -/
theorem wellFormed_ofTokens (ts : List Token) : (ofTokens ts).1.WellFormed :=
  fun tune member => wellFormed_readTunes _ _ tune member

end Tree
end Tunebook
