import Tunebook.Document

/-! The decorations written between exclamation marks, and where typing one is completed. -/
namespace Tunebook

structure Decoration where
  name : String
  meaning : String
  deriving DecidableEq, Repr

namespace Decoration

def all : List Decoration :=
  [⟨"trill", "\"tr\" (trill mark)"⟩,
   ⟨"trill(", "start of an extended trill"⟩,
   ⟨"trill)", "end of an extended trill"⟩,
   ⟨"lowermordent", "short /|/|/ squiggle with a vertical line through it"⟩,
   ⟨"uppermordent", "short /|/|/ squiggle"⟩,
   ⟨"mordent", "same as !lowermordent!"⟩,
   ⟨"pralltriller", "same as !uppermordent!"⟩,
   ⟨"roll", "a roll mark (arc) as used in Irish music"⟩,
   ⟨"turn", "a turn mark (also known as gruppetto)"⟩,
   ⟨"turnx", "a turn mark with a line through it"⟩,
   ⟨"invertedturn", "an inverted turn mark"⟩,
   ⟨"invertedturnx", "an inverted turn mark with a line through it"⟩,
   ⟨"arpeggio", "vertical squiggle"⟩,
   ⟨">", "> mark"⟩,
   ⟨"accent", "same as !>!"⟩,
   ⟨"emphasis", "same as !>!"⟩,
   ⟨"fermata", "fermata or hold (arc above dot)"⟩,
   ⟨"invertedfermata", "upside down fermata"⟩,
   ⟨"tenuto", "horizontal line to indicate holding note for full duration"⟩,
   ⟨"0", "fingering"⟩,
   ⟨"1", "fingering"⟩,
   ⟨"2", "fingering"⟩,
   ⟨"3", "fingering"⟩,
   ⟨"4", "fingering"⟩,
   ⟨"5", "fingering"⟩,
   ⟨"+", "left-hand pizzicato, or rasp for French horns"⟩,
   ⟨"plus", "same as !+!"⟩,
   ⟨"snap", "snap-pizzicato mark, visually similar to !thumb!"⟩,
   ⟨"slide", "slide up to a note, visually similar to a half slur"⟩,
   ⟨"wedge", "small filled-in wedge mark"⟩,
   ⟨"upbow", "V mark"⟩,
   ⟨"downbow", "squared n mark"⟩,
   ⟨"open", "small circle above note indicating open string or harmonic"⟩,
   ⟨"thumb", "cello thumb symbol"⟩,
   ⟨"breath", "a breath mark (apostrophe-like) after note"⟩,
   ⟨"pppp", "dynamics mark"⟩,
   ⟨"ppp", "dynamics mark"⟩,
   ⟨"pp", "dynamics mark"⟩,
   ⟨"p", "dynamics mark"⟩,
   ⟨"mp", "dynamics mark"⟩,
   ⟨"mf", "dynamics mark"⟩,
   ⟨"f", "dynamics mark"⟩,
   ⟨"ff", "dynamics mark"⟩,
   ⟨"fff", "dynamics mark"⟩,
   ⟨"ffff", "dynamics mark"⟩,
   ⟨"sfz", "dynamics mark"⟩,
   ⟨"crescendo(", "start of a < crescendo mark"⟩,
   ⟨"<(", "same as !crescendo(!"⟩,
   ⟨"crescendo)", "end of a < crescendo mark, placed after the last note"⟩,
   ⟨"<)", "same as !crescendo)!"⟩,
   ⟨"diminuendo(", "start of a > diminuendo mark"⟩,
   ⟨">(", "same as !diminuendo(!"⟩,
   ⟨"diminuendo)", "end of a > diminuendo mark, placed after the last note"⟩,
   ⟨">)", "same as !diminuendo)!"⟩,
   ⟨"segno", "2 ornate s-like symbols separated by a diagonal line"⟩,
   ⟨"coda", "a ring with a cross in it"⟩,
   ⟨"D.S.", "the letters D.S. (=Da Segno)"⟩,
   ⟨"D.C.", "the letters D.C. (=either Da Coda or Da Capo)"⟩,
   ⟨"dacoda", "the word \"Da\" followed by a Coda sign"⟩,
   ⟨"dacapo", "the words \"Da Capo\""⟩,
   ⟨"fine", "the word \"fine\""⟩,
   ⟨"shortphrase", "vertical line on the upper part of the staff"⟩,
   ⟨"mediumphrase", "same, but extending down to the centre line"⟩,
   ⟨"longphrase", "same, but extending 3/4 of the way down"⟩]

def label (d : Decoration) : String :=
  "!" ++ d.name ++ "!"

/-- What is left to type after the first exclamation mark. -/
def rest (d : Decoration) : String :=
  d.name ++ "!"

end Decoration

namespace Document

def isInBody (d : Document) (p : Position) : Bool :=
  (d.tree.tunes.filterMap Tune.bodyRange).any fun r => r.start ≤ p ∧ p < r.stop

/-- The decorations to offer at a position: all of them right after an exclamation mark in the body
of a tune. -/
def completions (d : Document) (p : Position) : List Decoration :=
  if (d.text.slice ⟨0, d.text.byteAt p⟩).getLast? = some '!' && d.isInBody p then Decoration.all
  else []

end Document
end Tunebook
