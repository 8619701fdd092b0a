import Tunebook.Proofs.Relabelling.Tree
import Tunebook.Proofs.Rhythm.Rescaling

/-! What a tree sounds like: its notes and chords in order, those of grace groups among them, with
the texts of their heads and marks and the values of their lengths. Places play no part in it. -/
namespace Tunebook

/-- The value of a length, or what is written where it has none. -/
inductive Duration where
  | value (q : ℚ)
  | unread (text : Text)
  deriving DecidableEq

structure Timing where
  duration : Duration
  broken : Option Text
  tie : Option Text
  deriving DecidableEq

inductive Pitch where
  | note (alteration : Option Text) (letter : Text) (octave : Option Text)
  | rest (letter : Text)
  deriving DecidableEq

structure Tone where
  pitch : Pitch
  timing : Timing
  deriving DecidableEq

inductive Voice where
  | note (tone : Tone)
  | chord (tones : List Tone) (timing : Timing)
  deriving DecidableEq

/-- The length `rate` times as long. -/
def Duration.times (rate : ℚ) : Duration → Duration
  | value q => value (rate * q)
  | unread text => unread text

namespace Rhythm

def duration (r : Rhythm) : Duration :=
  match Length.read? r with
  | some n => .value n.value
  | none => .unread (Token.join r.lengthTokens)

def timing (rate : ℚ) (r : Rhythm) (tie : Option Token) : Timing :=
  ⟨r.duration.times rate, r.broken.map Token.lexeme, tie.map Token.lexeme⟩

end Rhythm

def NoteHead.toPitch : NoteHead → Pitch
  | pitch alteration letter octave =>
    .note (alteration.map Token.lexeme) letter.lexeme (octave.map Token.lexeme)
  | rest letter => .rest letter.lexeme

def Note.tone (rate : ℚ) (n : Note) : Tone :=
  ⟨n.head.toPitch, n.rhythm.timing rate n.tie⟩

/-- A note or chord, and whether it is part of a grace group. -/
structure Strike where
  isGrace : Bool
  sound : Sound

def GracePart.sound? : GracePart → Option Sound
  | note n => some (.note n)
  | chord c => some (.chord c)
  | token _ => none

mutual

/-- The notes and chords of an item, those in slurs and in grace groups among them. -/
def Item.strikes : Item → List Strike
  | .note n => [⟨false, .note n⟩]
  | .chord c => [⟨false, .chord c⟩]
  | .grace g => (g.parts.filterMap GracePart.sound?).map (⟨true, ·⟩)
  | .slur _ contents _ => Item.strikesOf contents
  | _ => []

def Item.strikesOf : List Item → List Strike
  | [] => []
  | item :: items => item.strikes ++ Item.strikesOf items

end

def Tree.strikes (t : Tree) : List Strike :=
  t.tunes.flatMap fun tune => tune.musicLines.flatMap fun line => Item.strikesOf line.items

def Sound.voice : Sound → Voice
  | note n => .note (n.tone 1)
  | chord c => .chord (c.notes.map (Note.tone 1)) (c.rhythm.timing 1 c.tie)

/-- What a tree sounds like, with a mark at what is part of a grace group. -/
def Tree.voices (t : Tree) : List (Bool × Voice) :=
  t.strikes.map fun s => (s.isGrace, s.sound.voice)

namespace Scaling

/-- How much longer an edit makes a length. -/
def rate (k : Scaling) (e : Option Edit) : ℚ :=
  if e.isSome then k.operator.factor else 1

/-- A note or chord with the lengths scaled that its edits rewrite. -/
def voice (k : Scaling) : Sound → Voice
  | .note n => .note (n.tone (k.rate (k.ofNote n)))
  | .chord c =>
    if editsNotes c then
      .chord (c.notes.map fun n => n.tone (k.rate (k.ofNote n))) (c.rhythm.timing 1 c.tie)
    else
      .chord (c.notes.map (Note.tone 1))
        (c.rhythm.timing (k.rate (k.ofRhythm c.rhythm (some c.right))) c.tie)

/-- What a tree sounds like once the lengths are scaled of the sounds that `meets` picks out. -/
def voices (k : Scaling) (meets : Sound → Bool) (t : Tree) : List (Bool × Voice) :=
  t.strikes.map fun s =>
    (s.isGrace, if !s.isGrace && meets s.sound then k.voice s.sound else s.sound.voice)

end Scaling

/-! Scaling a tree scales what it sounds like. -/

theorem Duration.times_one (d : Duration) : d.times 1 = d := by
  cases d <;> simp [times]

theorem Rhythm.duration_rescale {k : Scaling} {r : Rhythm} (h : k.length? r = some n) :
    (r.rescale k).duration = r.duration.times k.operator.factor := by
  obtain ⟨lowest, numerator, denominator⟩ := Scaling.lowest_of_length? h
  have again := Length.read?_rhythm lowest numerator denominator r.broken
  obtain ⟨length, read, scaled⟩ := Option.bind_eq_some_iff.mp h
  unfold Length.scale? at scaled
  split at scaled
  · cases scaled
    rw [rescale, h]
    simp only [duration, again, read, Duration.times, Length.value_scaled]
  · cases scaled

theorem Rhythm.timing_rescale {k : Scaling} (r : Rhythm) (tie : Option Token) (t : Token) :
    (r.rescale k).timing 1 tie = r.timing (k.rate (k.ofRhythm r (some t))) tie := by
  cases he : k.ofRhythm r (some t) with
  | none =>
    rw [rescale_of_none (Scaling.ofRhythm_eq_none he)]
    rfl
  | some e =>
    obtain ⟨n, given, _⟩ := Scaling.exists_of_ofRhythm he
    simp only [timing, Duration.times_one, duration_rescale given, broken_rescale, Scaling.rate,
      Option.isSome_some, if_true]

theorem Note.tone_rescale (k : Scaling) (n : Note) :
    (n.rescale k).tone 1 = n.tone (k.rate (k.ofNote n)) := by
  obtain ⟨t, last⟩ : ∃ t, n.head.tokens.getLast? = some t :=
    ⟨_, List.getLast?_eq_some_getLast n.head.tokens_ne_nil⟩
  rw [Scaling.ofNote, last, tone, tone, ← Rhythm.timing_rescale]
  rfl

def Sound.rescale (k : Scaling) : Sound → Sound
  | note n => note (n.rescale k)
  | chord c => chord (c.rescale k)

theorem Sound.voice_rescale (k : Scaling) (s : Sound) : (s.rescale k).voice = k.voice s := by
  cases s with
  | note n => simp only [rescale, voice, Scaling.voice, Note.tone_rescale]
  | chord c =>
    simp only [rescale, voice, Scaling.voice, Chord.rescale]
    split
    · simp only [Chord.notes, Chord.notes_rescale, List.map_map, Function.comp_def,
        Note.tone_rescale]
    · simp only [Chord.notes, Rhythm.timing_rescale _ _ c.right]

def Strike.rescale (k : Scaling) (meets : Sound → Bool) (s : Strike) : Strike :=
  if !s.isGrace && meets s.sound then { s with sound := s.sound.rescale k } else s

mutual

theorem Item.strikes_rescale (k : Scaling) (meets : Sound → Bool) (item : Item) :
    (item.rescale k meets).strikes = item.strikes.map (Strike.rescale k meets) := by
  cases item with
  | note n =>
    simp only [rescale, strikes, List.map_cons, List.map_nil, Strike.rescale, Bool.not_false,
      Bool.true_and]
    split <;> rfl
  | chord c =>
    simp only [rescale, strikes, List.map_cons, List.map_nil, Strike.rescale, Bool.not_false,
      Bool.true_and]
    split <;> rfl
  | grace g =>
    simp [rescale, strikes, Strike.rescale]
  | slur left contents right =>
    simp only [rescale, strikes, Item.strikesOf_rescale]
  | _ => rfl

theorem Item.strikesOf_rescale (k : Scaling) (meets : Sound → Bool) (items : List Item) :
    Item.strikesOf (Item.rescaleAll k meets items) =
      (Item.strikesOf items).map (Strike.rescale k meets) := by
  cases items with
  | nil => rfl
  | cons item items =>
    simp only [rescaleAll, strikesOf, List.map_append, Item.strikes_rescale k meets item,
      Item.strikesOf_rescale k meets items]

end

theorem Tune.musicLines_rescale (k : Scaling) (meets : Sound → Bool) (t : Tune) :
    (t.rescale k meets).musicLines = t.musicLines.map (MusicLine.rescale k meets) := by
  simp only [musicLines, rescale, List.filterMap_map, List.map_filterMap]
  congr 1
  funext line
  cases line <;> rfl

theorem Tree.strikes_rescale (k : Scaling) (meets : Sound → Bool) (t : Tree) :
    (t.rescale k meets).strikes = t.strikes.map (Strike.rescale k meets) := by
  simp only [strikes, rescale, List.flatMap_map, Tune.musicLines_rescale, List.map_flatMap,
    MusicLine.rescale, Item.strikesOf_rescale]

/-- A scaled tree sounds as it should. -/
theorem Tree.voices_rescale (k : Scaling) (meets : Sound → Bool) (t : Tree) :
    (t.rescale k meets).voices = k.voices meets t := by
  simp only [voices, Scaling.voices, strikes_rescale, List.map_map]
  refine List.map_congr_left fun s _ => ?_
  simp only [Function.comp_apply, Strike.rescale]
  split
  · rw [← Sound.voice_rescale]
  · rfl

/-! Tokens with the same kinds and texts sound alike. -/

def Sound.map (f : Token → Token) : Sound → Sound
  | note n => note (n.map f)
  | chord c => chord (c.map f)

def Strike.map (f : Token → Token) (s : Strike) : Strike :=
  ⟨s.isGrace, s.sound.map f⟩

namespace Token.Relabels

variable {f : Token → Token} (hf : Token.Relabels f)
include hf

theorem map_lexeme (o : Option Token) : (o.map f).map Token.lexeme = o.map Token.lexeme := by
  cases o with
  | none => rfl
  | some t => exact congrArg some (hf.lexeme t)

theorem readLength? (r : Rhythm) : Length.read? (r.map f) = Length.read? r := by
  have above : Length.readNumerator? (r.map f) = Length.readNumerator? r := by
    obtain ⟨numerator, _, _, _⟩ := r
    cases numerator <;> simp [Length.readNumerator?, Rhythm.map, hf.lexeme]
  have below : Length.readDenominator? (r.map f) = Length.readDenominator? r := by
    obtain ⟨_, separator, denominator, _⟩ := r
    cases separator <;> cases denominator <;>
      simp [Length.readDenominator?, Rhythm.map, hf.lexeme]
  rw [Length.read?, Length.read?, above, below]

theorem duration (r : Rhythm) : (r.map f).duration = r.duration := by
  have written : Token.join (r.map f).lengthTokens = Token.join r.lengthTokens := by
    obtain ⟨numerator, separator, denominator, _⟩ := r
    cases numerator <;> cases separator <;> cases denominator <;>
      simp [Rhythm.lengthTokens, Rhythm.map, hf.lexeme]
  rw [Rhythm.duration, Rhythm.duration, hf.readLength?, written]

theorem timing (rate : ℚ) (r : Rhythm) (tie : Option Token) :
    (r.map f).timing rate (tie.map f) = r.timing rate tie := by
  simp only [Rhythm.timing, hf.duration, hf.map_lexeme]
  simp only [Rhythm.map, hf.map_lexeme]

theorem tone (rate : ℚ) (n : Note) : (n.map f).tone rate = n.tone rate := by
  simp only [Note.tone, Note.map, hf.timing]
  cases n.head <;> simp only [NoteHead.map, NoteHead.toPitch, hf.map_lexeme, hf.lexeme]

theorem voice (s : Sound) : (s.map f).voice = s.voice := by
  cases s with
  | note n => simp only [Sound.map, Sound.voice, hf.tone]
  | chord c =>
    simp only [Sound.map, Sound.voice, Chord.notes_map, List.map_map, Function.comp_def, hf.tone]
    simp only [Chord.map, hf.timing]

end Token.Relabels

mutual

theorem Item.strikes_map (f : Token → Token) (item : Item) :
    (item.map f).strikes = item.strikes.map (Strike.map f) := by
  cases item with
  | grace g =>
    simp only [map, strikes, GraceGroup.map, List.filterMap_map, List.map_filterMap]
    congr 1
    funext part
    cases part <;> rfl
  | slur left contents right => simp only [map, strikes, Item.strikesOf_mapAll]
  | _ => rfl

theorem Item.strikesOf_mapAll (f : Token → Token) (items : List Item) :
    Item.strikesOf (Item.mapAll f items) = (Item.strikesOf items).map (Strike.map f) := by
  cases items with
  | nil => rfl
  | cons item items =>
    simp only [mapAll, strikesOf, List.map_append, Item.strikes_map f item,
      Item.strikesOf_mapAll f items]

end

theorem Tree.strikes_map (f : Token → Token) (t : Tree) :
    (t.map f).strikes = t.strikes.map (Strike.map f) := by
  have lines (tune : Tune) : (tune.map f).musicLines = tune.musicLines.map (MusicLine.map f) := by
    simp only [Tune.musicLines, Tune.map, List.filterMap_map, List.map_filterMap]
    congr 1
    funext line
    cases line <;> rfl
  simp only [strikes, map, List.flatMap_map, lines, List.map_flatMap, MusicLine.map,
    Item.strikesOf_mapAll]

theorem Token.Relabels.voices {f : Token → Token} (hf : Token.Relabels f) (t : Tree) :
    (t.map f).voices = t.voices := by
  simp only [Tree.voices, Tree.strikes_map, List.map_map]
  refine List.map_congr_left fun s _ => ?_
  simp only [Function.comp_apply, Strike.map, hf.voice]

end Tunebook
