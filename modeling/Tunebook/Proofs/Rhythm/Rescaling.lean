import Mathlib.Data.List.Chain
import Tunebook.Proofs.Grammar.Notes
import Tunebook.Proofs.Rhythm.Length
import Tunebook.Proofs.Scan.Tiling
import Tunebook.Rhythm.Scaling

/-! Scaled trees: the tree of a text with new lengths in place of those that are scaled, and how its
tokens come from the tokens of the text by the edits. -/
namespace Tunebook

/-- The length that a rhythm is given, if it is given one. -/
def Scaling.length? (k : Scaling) (r : Rhythm) : Option Length :=
  (Length.read? r).bind (Length.scale? k.operator k.limits)

def Rhythm.rescale (k : Scaling) (r : Rhythm) : Rhythm :=
  match k.length? r with
  | some n => n.rhythm r.broken
  | none => r

def Note.rescale (k : Scaling) (n : Note) : Note :=
  { n with rhythm := n.rhythm.rescale k }

def ChordPart.rescale (k : Scaling) : ChordPart → ChordPart
  | note n => note (n.rescale k)
  | part => part

def Chord.rescale (k : Scaling) (c : Chord) : Chord :=
  if Scaling.editsNotes c then { c with parts := c.parts.map (ChordPart.rescale k) }
  else { c with rhythm := c.rhythm.rescale k }

theorem Chord.notes_rescale (k : Scaling) (parts : List ChordPart) :
    (parts.map (ChordPart.rescale k)).filterMap ChordPart.note? =
      (parts.filterMap ChordPart.note?).map (Note.rescale k) := by
  simp only [List.filterMap_map, List.map_filterMap]
  congr 1
  funext part
  cases part <;> rfl

theorem Chord.left_rescale (k : Scaling) (c : Chord) : (c.rescale k).left = c.left := by
  unfold rescale
  split <;> rfl

mutual

/-- The item with the lengths scaled of the sounds that `meets` picks out. -/
def Item.rescale (k : Scaling) (meets : Sound → Bool) : Item → Item
  | .note n => .note (if meets (.note n) then n.rescale k else n)
  | .chord c => .chord (if meets (.chord c) then c.rescale k else c)
  | .slur left contents right => .slur left (Item.rescaleAll k meets contents) right
  | item => item

def Item.rescaleAll (k : Scaling) (meets : Sound → Bool) : List Item → List Item
  | [] => []
  | item :: items => item.rescale k meets :: Item.rescaleAll k meets items

end

def MusicLine.rescale (k : Scaling) (meets : Sound → Bool) (l : MusicLine) : MusicLine :=
  { l with items := Item.rescaleAll k meets l.items }

def BodyLine.rescale (k : Scaling) (meets : Sound → Bool) : BodyLine → BodyLine
  | music l => music (l.rescale k meets)
  | line => line

def Tune.rescale (k : Scaling) (meets : Sound → Bool) (t : Tune) : Tune :=
  { t with body := t.body.map (BodyLine.rescale k meets) }

def Tree.rescale (k : Scaling) (meets : Sound → Bool) (t : Tree) : Tree :=
  { t with tunes := t.tunes.map (Tune.rescale k meets) }

/-- The edits of those sounds that `meets` picks out. -/
def Scaling.editsOf (k : Scaling) (meets : Sound → Bool) (sounds : List Sound) : List Edit :=
  sounds.flatMap fun s => if meets s then k.ofSound s else []

@[simp] theorem Scaling.editsOf_nil (k : Scaling) (meets : Sound → Bool) :
    k.editsOf meets [] = [] := rfl

@[simp] theorem Scaling.editsOf_append (k : Scaling) (meets : Sound → Bool)
    (sounds others : List Sound) :
    k.editsOf meets (sounds ++ others) = k.editsOf meets sounds ++ k.editsOf meets others :=
  List.flatMap_append

/-- The edits of the notes among the parts of a chord. -/
def Chord.partEdits (k : Scaling) (parts : List ChordPart) : List Edit :=
  (parts.filterMap ChordPart.note?).filterMap k.ofNote

theorem Chord.partEdits_note (k : Scaling) (n : Note) (parts : List ChordPart) :
    partEdits k (.note n :: parts) = (k.ofNote n).toList ++ partEdits k parts := by
  simp only [partEdits, List.filterMap_eq_flatMap_toList, List.flatMap_cons, ChordPart.note?,
    Option.toList_some, List.flatMap_append, List.flatMap_nil, List.append_nil]

/-- The notes and chords of a line. -/
def BodyLine.sounds : BodyLine → List Sound
  | music l => Item.soundsOf l.items
  | _ => []

theorem BodyLine.sounds_body (lines : List BodyLine) :
    ((lines.filterMap music?).flatMap fun l => Item.soundsOf l.items) = lines.flatMap sounds := by
  induction lines with
  | nil => rfl
  | cons line lines ih => cases line <;> simp [List.filterMap_cons, music?, sounds, ih]

theorem Scaling.exists_of_ofRhythm {k : Scaling} (h : k.ofRhythm r insertion = some e) :
    ∃ n, k.length? r = some n ∧ e.text = n.render := by
  simp only [ofRhythm, Option.bind_eq_bind, Option.bind_eq_some_iff] at h
  obtain ⟨length, read, scaled, within, h⟩ := h
  refine ⟨scaled, by simp [length?, read, within], ?_⟩
  split at h
  · cases h
    rfl
  · obtain ⟨span, _, whole⟩ := Option.bind_eq_some_iff.mp h
    cases whole
    rfl

/-- A length that is given is written in its canonical form. -/
theorem Rhythm.join_rescale {k : Scaling} {r : Rhythm} (h : k.ofRhythm r insertion = some e) :
    Token.join (r.rescale k).lengthTokens = e.text := by
  obtain ⟨n, given, text⟩ := Scaling.exists_of_ofRhythm h
  rw [rescale, given, Length.join_rhythm, text]

theorem Scaling.ofRhythm_eq_none {k : Scaling} (h : k.ofRhythm r (some t) = none) :
    k.length? r = none := by
  cases hl : k.length? r with
  | none => rfl
  | some n =>
    obtain ⟨length, read, within⟩ := Option.bind_eq_some_iff.mp hl
    simp only [ofRhythm, read, within, Option.bind_eq_bind, Option.bind_some] at h
    split at h <;> simp at h

theorem Rhythm.rescale_of_none {k : Scaling} {r : Rhythm} (h : k.length? r = none) :
    r.rescale k = r := by
  rw [rescale, h]

@[simp] theorem Rhythm.broken_rescale (k : Scaling) (r : Rhythm) :
    (r.rescale k).broken = r.broken := by
  unfold rescale
  split <;> rfl

/-- A length given is in lowest terms and fits in words. -/
theorem Scaling.lowest_of_length? {k : Scaling} (h : k.length? r = some n) :
    n.Lowest ∧ n.numerator < Number.word32 ∧ n.denominator < Number.word32 := by
  obtain ⟨length, read, scaled⟩ := Option.bind_eq_some_iff.mp h
  unfold Length.scale? at scaled
  split at scaled
  next within =>
    cases scaled
    simp only [Length.isWithin, Bool.and_eq_true, decide_eq_true_eq] at within
    exact ⟨(Length.lowest_read? read).scaled _, within.1.1.1, within.1.1.2⟩
  · cases scaled

theorem Rhythm.isLength_of_mem {r : Rhythm} (fits : r.Fits) (h : t ∈ r.lengthTokens) :
    t.kind.isLength = true := by
  simp only [lengthTokens, List.mem_append, Option.mem_toList] at h
  rcases h with (h | h) | h
  · simp [fits.numerator t h, Kind.isLength]
  · simp [fits.separator t h, Kind.isLength]
  · simp [fits.denominator t h, Kind.isLength]

theorem Length.fits_rhythm (n : Length) {broken : Option Token}
    (hb : ∀ t ∈ broken, t.kind.isBroken = true) : (n.rhythm broken).Fits := by
  refine ⟨?_, ?_, ?_, ?_, hb⟩ <;> simp only [rhythm]
  · intro t member
    split at member <;> cases member
    rfl
  · intro t member
    split at member <;> cases member
    rfl
  · intro t member
    split at member <;> cases member
    rfl
  · by_cases one : n.denominator = 1 <;> simp [one]

theorem Rhythm.Fits.rescale {r : Rhythm} (fits : r.Fits) (k : Scaling) : (r.rescale k).Fits := by
  unfold Rhythm.rescale
  split
  next n _ => exact n.fits_rhythm fits.broken
  · exact fits

/-- The tokens of a scaled rhythm are its own or parts of a length. -/
theorem Rhythm.mem_rescale {r : Rhythm} {k : Scaling} (h : t ∈ (r.rescale k).tokens) :
    t ∈ r.tokens ∨ t.kind.isLength = true := by
  unfold Rhythm.rescale at h
  split at h
  next n _ =>
    simp only [tokens, lengthTokens, Length.rhythm, List.mem_append, Option.mem_toList] at h
    rcases h with ((h | h) | h) | h
    · split at h <;> cases h
      exact .inr rfl
    · split at h <;> cases h
      exact .inr rfl
    · split at h <;> cases h
      exact .inr rfl
    · exact .inl (List.mem_append_right _ (Option.mem_toList.mpr h))
  · exact .inl h

theorem Note.mem_rescale {n : Note} {k : Scaling} (h : t ∈ (n.rescale k).tokens) :
    t ∈ n.tokens ∨ t.kind.isLength = true := by
  simp only [tokens, rescale, List.mem_append] at h ⊢
  rcases h with (h | h) | h
  · exact .inl (.inl (.inl h))
  · rcases Rhythm.mem_rescale h with h | h
    · exact .inl (.inl (.inr h))
    · exact .inr h
  · exact .inl (.inr h)

theorem ChordPart.mem_rescale {part : ChordPart} {k : Scaling} (h : t ∈ (part.rescale k).tokens) :
    t ∈ part.tokens ∨ t.kind.isLength = true := by
  cases part with
  | note n => exact Note.mem_rescale h
  | quotedText | token => exact .inl h

theorem Note.Fits.rescale {n : Note} (fits : n.Fits) (k : Scaling) : (n.rescale k).Fits :=
  ⟨fits.head, fits.rhythm.rescale k, fits.tie⟩

/-- Two tokens that are read as one thing, or their line as another, once nothing is left between
them. -/
def Token.Joins (t u : Token) : Prop :=
  (t.kind = .noteLetter ∧ u.kind.isOctave = true) ∨
    (t.kind.isOctave = true ∧ u.kind = t.kind) ∨
    (t.start.column = 0 ∧ (t.kind = .noteLetter ∨ t.kind = .restLetter) ∧
      u.lexeme.head? = some ':')

instance (t u : Token) : Decidable (t.Joins u) :=
  inferInstanceAs (Decidable (_ ∨ _ ∨ _))

/-- The edit leaves nothing between two tokens that join. -/
def Edit.Joins (e : Edit) (ts : List Token) : Prop :=
  e.text = [] ∧ ∃ t ∈ ts, ∃ u ∈ ts,
    t.span.stop = e.span.start ∧ e.span.stop = u.span.start ∧ t.Joins u

instance (e : Edit) (ts : List Token) : Decidable (e.Joins ts) :=
  inferInstanceAs (Decidable (_ ∧ _))

/-- What the edits of a stretch of tokens need: the tokens lie in the text, without gaps, and no
edit joins two tokens of it. -/
structure Unjoined (all ts : List Token) (es : List Edit) : Prop where
  chain : ts.IsChain Token.Abuts
  within : ts ⊆ all
  clear : ∀ e ∈ es, ¬e.Joins all

theorem Unjoined.mono (h : Unjoined all ts es) (sub : fs ⊆ es) : Unjoined all ts fs :=
  ⟨h.chain, h.within, fun e he => h.clear e (sub he)⟩

theorem Unjoined.right (ss : List Token) {ts : List Token} (h : Unjoined all (ss ++ ts) es)
    (sub : fs ⊆ es) : Unjoined all ts fs :=
  ⟨h.chain.right_of_append, fun _ ht => h.within (List.mem_append_right ss ht),
    fun e he => h.clear e (sub he)⟩

theorem Unjoined.tail (h : Unjoined all (t :: ts) es) : Unjoined all ts es :=
  h.right [t] (List.Subset.refl es)

theorem Unjoined.left {ss ts : List Token} (h : Unjoined all (ss ++ ts) es) (sub : fs ⊆ es) :
    Unjoined all ss fs :=
  ⟨h.chain.left_of_append, fun _ ht => h.within (List.mem_append_left ts ht),
    fun e he => h.clear e (sub he)⟩

/-- What a length can follow: a letter with or without an octave mark, or the bracket that closes a
chord. -/
inductive IsHead : List Token → Prop where
  | letter : t.kind = .noteLetter ∨ t.kind = .restLetter → IsHead [t]
  | octave : t.kind = .noteLetter → m.kind.isOctave = true → IsHead [t, m]
  | bracket : t.kind = .rightBracket → IsHead [t]

theorem IsHead.ne_nil (h : IsHead head) : head ≠ [] := by
  cases h <;> exact List.cons_ne_nil _ _

/-- How tokens come from others by edits: each is kept, or it is part of a length that an edit puts
in place of another, or of none, behind a head. What follows does not go on with the length. -/
inductive Rewritten (k : Scaling) : List Token → List Edit → List Token → Prop where
  | nil : Rewritten k [] [] []
  | keep (t : Token) : Rewritten k ts es us → Rewritten k (t :: ts) es (t :: us)
  | sound : IsHead head → r.Fits → k.ofRhythm r head.getLast? = some e →
      Token.NextNot Kind.isLength ts → Rewritten k ts es us →
      Rewritten k (head ++ (r.lengthTokens ++ ts)) (e :: es)
        (head ++ ((r.rescale k).lengthTokens ++ us))

namespace Rewritten

theorem nil_inv (h : Rewritten k [] es us) : es = [] ∧ us = [] := by
  generalize none : [] = ts at h
  cases h with
  | nil => exact ⟨rfl, rfl⟩
  | keep => cases none
  | sound head => cases head <;> cases none

theorem keepAll (h : Rewritten k ts es us) (vs : List Token) :
    Rewritten k (vs ++ ts) es (vs ++ us) := by
  induction vs with
  | nil => exact h
  | cons v vs ih => exact .keep v ih

/-- The head of a list of tokens is kept. -/
theorem head?_eq (h : Rewritten k ts es us) : us.head? = ts.head? := by
  cases h with
  | nil | keep => rfl
  | sound head => cases head <;> rfl

theorem nextNot {p : Kind → Bool} (h : Rewritten k ts es us) (next : Token.NextNot p ts) :
    Token.NextNot p us := by
  rw [Token.NextNot, h.head?_eq]
  exact next

/-- A token is one of those that were there, or part of a length. -/
theorem mem (h : Rewritten k ts es us) (hu : u ∈ us) : u ∈ ts ∨ u.kind.isLength = true := by
  induction h with
  | nil => cases hu
  | keep t _ ih =>
    rcases List.mem_cons.mp hu with rfl | hu
    · exact .inl List.mem_cons_self
    · exact (ih hu).imp_left (List.mem_cons_of_mem t)
  | sound _ fits _ _ _ ih =>
    rcases List.mem_append.mp hu with own | hu
    · exact .inl (List.mem_append_left _ own)
    · rcases List.mem_append.mp hu with length | hu
      · exact .inr (Rhythm.isLength_of_mem (fits.rescale k) length)
      · exact (ih hu).imp_left fun member =>
          List.mem_append_right _ (List.mem_append_right _ member)

end Rewritten

/-- Where an edit behind a head is made: from the last token of the head up to what follows the
length. -/
theorem Scaling.span_of_ofRhythm {k : Scaling} {r : Rhythm} (h : k.ofRhythm r head.getLast? = some e)
    (chain : (head ++ (r.lengthTokens ++ ts)).IsChain Token.Abuts) :
    (∀ t ∈ head.getLast?, t.span.stop = e.span.start) ∧
      ∀ u ∈ ts.head?, e.span.stop = u.span.start := by
  simp only [ofRhythm, Option.bind_eq_bind, Option.bind_eq_some_iff] at h
  obtain ⟨length, _, scaled, _, h⟩ := h
  obtain ⟨_, tail, front⟩ := List.isChain_append.mp chain
  obtain ⟨_, _, back⟩ := List.isChain_append.mp tail
  cases hl : r.lengthTokens with
  | nil =>
    -- without a length the edit stands where the head stops
    rw [hl, List.nil_append] at front
    simp only [hl, List.head?_nil] at h
    obtain ⟨span, found, whole⟩ := Option.bind_eq_some_iff.mp h
    obtain ⟨t, last, rfl⟩ := Option.map_eq_some_iff.mp found
    cases whole
    refine ⟨?_, ?_⟩
    · intro u member
      rw [last] at member
      cases member
      rfl
    · intro u member
      exact front t last u member
  | cons first others =>
    obtain ⟨last, found⟩ : ∃ last, (first :: others).getLast? = some last :=
      ⟨_, List.getLast?_eq_some_getLast (List.cons_ne_nil first others)⟩
    simp only [hl, found, List.head?_cons] at h
    cases h
    refine ⟨?_, ?_⟩
    · intro t member
      exact front t member first (by simp [hl])
    · intro u member
      exact back last (hl ▸ found) u member

/-- Behind a length stands nothing that goes on with it. -/
theorem Rhythm.nextNot_isLength {r : Rhythm} (fits : r.Fits) {tie : Option Token}
    (ht : ∀ t ∈ tie, t.kind = .minus)
    (next : Token.NextNot Kind.isRhythm ts) :
    Token.NextNot Kind.isLength (r.broken.toList ++ (tie.toList ++ ts)) := by
  refine Token.nextNot_toList_append ?_ (Token.nextNot_toList_append ?_ (next.mono ?_))
  · intro t member
    have mark := fits.broken t member
    cases hk : t.kind <;> rw [hk] at mark <;> cases mark <;> rfl
  · intro t member
    simp [ht t member, Kind.isLength]
  · intro k length
    cases k <;> cases length <;> rfl

/-- No edit leaves its head before a token that the head joins. -/
theorem Unjoined.not_joins {k : Scaling} {r : Rhythm} (he : k.ofRhythm r head.getLast? = some e)
    (apart : Unjoined all (head ++ (r.lengthTokens ++ ts)) es) (listed : e ∈ es) :
    ∀ t ∈ head.getLast?, ∀ u ∈ ts.head?, e.text = [] → ¬t.Joins u := by
  intro t ht u hu bare joins
  obtain ⟨front, back⟩ := Scaling.span_of_ofRhythm he apart.chain
  refine apart.clear e listed
    ⟨bare, t, apart.within ?_, u, apart.within ?_, front t ht, back u hu, joins⟩
  · exact List.mem_append_left _ (List.mem_of_getLast? ht)
  · exact List.mem_append_right _ (List.mem_append_right _ (List.mem_of_head? hu))

/-- The edit of a rhythm, if it has one, behind a head. -/
theorem Rewritten.rhythm {k : Scaling} {r : Rhythm} (hd : IsHead head) (fits : r.Fits)
    (next : Token.NextNot Kind.isLength ts) (tail : Rewritten k ts es us) :
    Rewritten k (head ++ (r.lengthTokens ++ ts)) ((k.ofRhythm r head.getLast?).toList ++ es)
      (head ++ ((r.rescale k).lengthTokens ++ us)) := by
  cases he : k.ofRhythm r head.getLast? with
  | none =>
    obtain ⟨last, found⟩ : ∃ last, head.getLast? = some last := by
      cases hd <;> exact ⟨_, rfl⟩
    rw [found] at he
    rw [Rhythm.rescale_of_none (Scaling.ofRhythm_eq_none he)]
    exact (tail.keepAll _).keepAll _
  | some e =>
    exact .sound hd fits he next tail

/-- Stretches of tokens that come from others one by one do so together. -/
theorem Rewritten.append (h : Rewritten k ts es us) (next : Token.NextNot Kind.isLength ss)
    (tail : Rewritten k ss fs vs) : Rewritten k (ts ++ ss) (es ++ fs) (us ++ vs) := by
  induction h with
  | nil => exact tail
  | keep t _ ih => exact .keep t ih
  | sound hd fits he bound _ ih =>
    simp only [List.append_assoc]
    exact .sound hd fits he (bound.append next) ih

namespace Note

theorem isHead_of_fits {head : NoteHead} (fits : head.Fits) :
    ∃ front back, head.tokens = front ++ back ∧ IsHead back ∧
      head.tokens.getLast? = back.getLast? := by
  cases head with
  | rest letter =>
    have rest : letter.kind = .restLetter := fits
    exact ⟨[], [letter], rfl, .letter (.inr rest), rfl⟩
  | pitch alteration letter octave =>
    obtain ⟨_, hl, ho⟩ := fits
    cases octave with
    | none => exact ⟨alteration.toList, [letter], rfl, .letter (.inl hl), by simp [NoteHead.tokens]⟩
    | some m =>
      exact ⟨alteration.toList, [letter, m], rfl, .octave hl (ho m rfl), by simp [NoteHead.tokens]⟩

/-- The tokens of a note, with its length apart. -/
theorem tokens_append (n : Note) (us : List Token) : n.tokens ++ us =
    n.head.tokens ++ (n.rhythm.lengthTokens ++ (n.rhythm.broken.toList ++ (n.tie.toList ++ us))) := by
  simp only [tokens, Rhythm.tokens, List.append_assoc]

theorem rewritten {n : Note} {k : Scaling} (fits : n.Fits)
    (next : Token.NextNot Kind.isRhythm ts) (tail : Rewritten k ts es us) :
    Rewritten k (n.tokens ++ ts) ((k.ofNote n).toList ++ es) ((n.rescale k).tokens ++ us) := by
  obtain ⟨front, back, parts, hd, last⟩ := isHead_of_fits fits.head
  rw [tokens_append, tokens_append, Note.rescale, Rhythm.broken_rescale, parts,
    List.append_assoc, List.append_assoc, Scaling.ofNote, last]
  have behind := (tail.keepAll n.tie.toList).keepAll n.rhythm.broken.toList
  exact (Rewritten.rhythm hd fits.rhythm (Rhythm.nextNot_isLength fits.rhythm fits.tie next)
    behind).keepAll front

theorem Bounded.rescale {n : Note} {k : Scaling} (fits : n.Fits) (bounded : n.Bounded ts)
    (apart : Unjoined all (n.tokens ++ ts) (k.ofNote n).toList) (same : us.head? = ts.head?) :
    (n.rescale k).Bounded us := by
  refine ⟨⟨bounded.tied.1.congr same, fun untied => (bounded.tied.2 untied).congr same⟩, ?_⟩
  intro takes bare untied
  obtain ⟨alteration, letter, hhead⟩ : ∃ alteration letter, n.head = .pitch alteration letter none := by
    cases hn : n.head with
    | rest => simp [Note.rescale, hn, NoteHead.takesOctave] at takes
    | pitch alteration letter octave =>
      cases octave with
      | none => exact ⟨alteration, letter, rfl⟩
      | some => simp [Note.rescale, hn, NoteHead.takesOctave] at takes
  cases he : k.ofNote n with
  | none =>
    have last : n.head.tokens.getLast? = some letter := by simp [hhead, NoteHead.tokens]
    rw [Scaling.ofNote, last] at he
    rw [Note.rescale, Rhythm.rescale_of_none (Scaling.ofRhythm_eq_none he)] at bare
    exact (bounded.octave (hhead ▸ rfl) bare untied).congr same
  | some e =>
    have letterKind : letter.kind = .noteLetter := (hhead ▸ fits.head).2.1
    have bareLength : (n.rhythm.rescale k).lengthTokens = [] ∧ n.rhythm.broken = none := by
      have split := List.append_eq_nil_iff.mp bare
      simpa [Note.rescale] using split
    have noText : e.text = [] := by
      rw [← Rhythm.join_rescale he, bareLength.1]
      rfl
    rw [tokens_append, bareLength.2, show n.tie = none from untied] at apart
    have last : letter ∈ n.head.tokens.getLast? := by simp [hhead, NoteHead.tokens]
    intro u hu
    rw [same] at hu
    cases octave : u.kind.isOctave with
    | false => rfl
    | true =>
      have joins : letter.Joins u := .inl ⟨letterKind, octave⟩
      exact absurd joins (apart.not_joins he (by simp [he]) letter last u hu noText)

end Note
end Tunebook
