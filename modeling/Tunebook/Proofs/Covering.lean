import Tunebook.Highlight
import Tunebook.Proofs.Conservation
import Tunebook.Proofs.Grammar.Groups
import Tunebook.Proofs.Scan.LineFeeds

/-! Highlights cover what they show: each stands for a run of tokens, and the runs follow one another
and leave out nothing but space. Every node of a tree is covered so by its own highlights, and nodes
that follow one another are covered together. A run of several tokens lies within a line. -/
namespace Tunebook

/-- Space and line ends, which no highlight needs to cover. -/
def Kind.isUncoloured (k : Kind) : Bool :=
  k matches .whitespace | .eol | .eof

namespace Token

/-- None of the tokens is of a kind that passes. -/
def Lacks (p : Kind → Bool) (ts : List Token) : Prop :=
  ∀ t ∈ ts, p t.kind = false

namespace Lacks

variable {p : Kind → Bool}

theorem append (hs : Lacks p ts) (hu : Lacks p us) : Lacks p (ts ++ us) :=
  fun t member => (List.mem_append.mp member).elim (hs t) (hu t)

theorem left (h : Lacks p (ts ++ us)) : Lacks p ts :=
  fun t member => h t (List.mem_append_left us member)

theorem right (h : Lacks p (ts ++ us)) : Lacks p us :=
  fun t member => h t (List.mem_append_right ts member)

theorem tail (h : Lacks p (t :: ts)) : Lacks p ts :=
  fun u member => h u (List.mem_cons_of_mem t member)

theorem of_mem {items : List α} {tokens : α → List Token} (h : Lacks p (items.flatMap tokens))
    (listed : item ∈ items) : Lacks p (tokens item) :=
  fun t member => h t (List.mem_flatMap.mpr ⟨item, listed, member⟩)

theorem single (h : p t.kind = false) : Lacks p [t] := by
  intro u member
  obtain rfl := List.mem_singleton.mp member
  exact h

theorem option {o : Option Token} (h : ∀ t ∈ o, t.kind = k) (fails : p k = false) :
    Lacks p o.toList := by
  intro t member
  rwa [h t (Option.mem_toList.mp member)]

end Lacks
end Token

namespace Highlight

/-- None of the tokens holds a line feed. -/
abbrev StayInLine (ts : List Token) : Prop :=
  Token.Lacks Kind.breaksLine ts

/-- The highlights stand for runs of the tokens, in order, with only uncoloured tokens between. Only
a token by itself may hold a line feed. -/
inductive Covers : List Token → List Token → Prop
  | nil : Covers [] []
  | space {t : Token} {ts hs : List Token} (h : t.kind.isUncoloured = true) (rest : Covers ts hs) :
      Covers (t :: ts) hs
  | run {run ts hs : List Token} {g : Token} (kind : Kind) (h : Token.merge run = some g)
      (line : run = [g] ∨ StayInLine run) (rest : Covers ts hs) :
      Covers (run ++ ts) (g.retag kind :: hs)

theorem Covers.append (first : Covers ts hs) (second : Covers us gs) :
    Covers (ts ++ us) (hs ++ gs) := by
  induction first with
  | nil => exact second
  | space h _ ih => exact .space h ih
  | run kind h line _ ih =>
    rw [List.append_assoc]
    exact .run kind h line ih

theorem Covers.flatMap {items : List α} {tokens highlights : α → List Token}
    (h : ∀ item ∈ items, Covers (tokens item) (highlights item)) :
    Covers (items.flatMap tokens) (items.flatMap highlights) := by
  induction items with
  | nil => exact .nil
  | cons item items ih =>
    have others := ih fun other member => h other (List.mem_cons_of_mem item member)
    exact (h item List.mem_cons_self).append others

theorem covers_spaces (h : ∀ t ∈ ts, t.kind.isUncoloured = true) : Covers ts [] := by
  induction ts with
  | nil => exact .nil
  | cons t ts ih =>
    have others := ih fun u member => h u (List.mem_cons_of_mem t member)
    exact .space (h t List.mem_cons_self) others

theorem visible_eq (ts : List Token) : visible ts = ts.filter (!·.kind.isUncoloured) :=
  rfl

theorem covers_visible (ts : List Token) : Covers ts (visible ts) := by
  induction ts with
  | nil => exact .nil
  | cons t ts ih =>
    rw [visible_eq] at ih ⊢
    cases space : t.kind.isUncoloured with
    | true =>
      rw [List.filter_cons_of_neg (by simp [space])]
      exact .space space ih
    | false =>
      have single : Token.merge [t] = some t := by simp [Token.merge]
      rw [List.filter_cons_of_pos (by simp [space])]
      exact .run t.kind single (.inl rfl) ih

theorem covers_mergedAs (kind : Kind) (line : StayInLine ts) : Covers ts (mergedAs kind ts) := by
  cases ts with
  | nil => exact .nil
  | cons t ts =>
    have whole := Covers.run kind (rfl : Token.merge (t :: ts) = some _) (.inr line) .nil
    rwa [List.append_nil] at whole

theorem covers_merged (line : StayInLine ts) : Covers ts (merged ts) := by
  cases ts with
  | nil => exact .nil
  | cons t ts => exact covers_mergedAs t.kind line

/-- What prose leaves out at its ends is uncoloured, unless a line goes on in it. -/
theorem covers_prose (line : StayInLine ts) : Covers ts (prose ts) := by
  have blank : ∀ t ∈ ts, t.kind.isWhitespace = true → t.kind.isUncoloured = true := by
    intro t member white
    have stays := line t member
    cases hk : t.kind <;> simp_all [Kind.isWhitespace, Kind.isUncoloured, Kind.breaksLine]
  let isBlank (t : Token) : Bool := t.kind.isWhitespace
  have front : Covers (ts.takeWhile isBlank) [] := by
    apply covers_spaces
    intro t member
    have white := List.all_eq_true.mp List.all_takeWhile t member
    exact blank t (List.takeWhile_subset _ member) white
  obtain ⟨tail, cut, white⟩ := exists_dropTrailing_append isBlank (ts.dropWhile isBlank)
  have back : Covers tail [] := by
    apply covers_spaces
    intro t member
    have inside : t ∈ ts.dropWhile isBlank := cut ▸ List.mem_append_right _ member
    exact blank t (List.dropWhile_subset _ inside) (white t member)
  have inner : StayInLine (dropTrailing isBlank (ts.dropWhile isBlank)) :=
    fun t member => line t (List.dropWhile_subset _ (mem_dropTrailing member))
  have middle := (covers_mergedAs .freeText inner).append back
  rw [← cut, List.append_nil] at middle
  have whole := front.append middle
  rwa [List.takeWhile_append_dropWhile] at whole

theorem covers_eol (ts : List Token) : Covers (Token.accept (· = .eol) ts).1.toList [] := by
  apply covers_spaces
  intro t member
  have ends := Token.kind_of_mem_accept (Option.mem_toList.mp member)
  rw [of_decide_eq_true ends]
  rfl

theorem covers_note {n : Note} (line : StayInLine n.tokens) : Covers n.tokens (ofNote n) :=
  ((covers_visible _).append (covers_merged line.left.right)).append (covers_visible _)

theorem covers_chordPart {part : ChordPart} (line : StayInLine part.tokens) :
    Covers part.tokens (ofChordPart part) := by
  cases part with
  | note n => exact covers_note line
  | quotedText t | token t => exact covers_visible [t]

theorem covers_chord {c : Chord} (line : StayInLine c.tokens) : Covers c.tokens (ofChord c) := by
  have parts : Covers (c.parts.flatMap ChordPart.tokens) (c.parts.flatMap ofChordPart) :=
    .flatMap fun part listed => covers_chordPart (line.left.left.tail.of_mem listed)
  have behind := (covers_merged line.left.right.tail).append (covers_visible c.tie.toList)
  have whole := (covers_visible [c.left]).append
    (parts.append ((covers_visible [c.right]).append behind))
  simpa [Chord.tokens, ofChord, ofRhythm] using whole

theorem covers_gracePart {part : GracePart} (line : StayInLine part.tokens) :
    Covers part.tokens (ofGracePart part) := by
  cases part with
  | note n => exact covers_note line
  | chord c => exact covers_chord line
  | token t => exact covers_visible [t]

theorem covers_graceGroup {g : GraceGroup} (line : StayInLine g.tokens) :
    Covers g.tokens (ofGraceGroup g) := by
  have parts : Covers (g.parts.flatMap GracePart.tokens) (g.parts.flatMap ofGracePart) :=
    .flatMap fun part listed => covers_gracePart (line.left.right.of_mem listed)
  exact ((covers_visible _).append parts).append (covers_visible [g.right])

/-- The space behind the bracket of a field is left out. -/
theorem covers_inlineField {f : InlineField} (fits : f.Fits inSlur) (line : StayInLine f.tokens) :
    Covers f.tokens (ofInlineField f) := by
  have padding : Covers f.padding [] := by
    apply covers_spaces
    intro t member
    rw [fits.padding t member]
    rfl
  have behind : StayInLine ([f.field, f.colon] ++ f.text) := line.left.right
  have key := covers_mergedAs .infoKey behind.left
  have whole := ((covers_visible [f.left]).append padding).append
    ((key.append (covers_prose behind.right)).append (covers_visible f.right.toList))
  simpa [InlineField.tokens, ofInlineField] using whole

/-! What is read within a line stays in it: a backslash at the end of a line is an item by itself. -/

theorem breaksLine_of_admits (h : Chord.admits k = true) : k.breaksLine = false := by
  cases k <;> first | rfl | cases h

theorem stayInLine_note {n : Note} (fits : n.Fits) : StayInLine n.tokens :=
  fun _ member => breaksLine_of_admits (Chord.admits_of_mem_note fits member)

theorem stayInLine_chord (left : t.kind = .leftBracket) (h : Chord.read? t ts = some r) :
    StayInLine r.value.tokens := by
  intro u member
  rcases Chord.kind_of_mem h member with rfl | closes | admitted
  · rw [left]
    rfl
  · rw [closes]
    rfl
  · exact breaksLine_of_admits admitted

theorem stayInLine_graceGroup (left : t.kind = .leftBrace) (h : GraceGroup.read? t ts = some r) :
    StayInLine r.value.tokens := by
  intro u member
  rcases GraceGroup.kind_of_mem h member with rfl | closes | admitted
  · rw [left]
    rfl
  · rw [closes]
    rfl
  · cases hk : u.kind <;> rw [hk] at admitted <;> first | rfl | cases admitted

/-- None of the tokens ends a line. -/
abbrev OnLine (ts : List Token) : Prop :=
  Token.Lacks (· = .eol) ts

theorem stayInLine_inlineField {f : InlineField} (fits : f.Fits inSlur)
    (left : f.left.kind = .leftBracket) (line : OnLine f.tokens) : StayInLine f.tokens := by
  intro t member
  have stays := line t member
  simp only [InlineField.tokens, List.mem_append, List.mem_cons, Option.mem_toList] at member
  rcases member with ((rfl | member) | rfl | rfl | member) | member
  · rw [left]
    rfl
  · rw [fits.padding t member]
    rfl
  · have letter := fits.field
    cases hk : f.field.kind <;> rw [hk] at letter <;> first | rfl | cases letter
  · rw [fits.colon]
    rfl
  · have inside := fits.text t member
    cases hk : t.kind <;> simp_all [InlineField.endsText, Kind.breaksLine]
  · rw [fits.right t member]
    rfl

end Highlight

namespace Item

open Highlight

/-- The highlights of the item cover it. -/
def IsCovered (item : Item) : Prop :=
  Covers item.tokens (ofItem item)

theorem isCovered_plain {item : Item} (own : item.IsCovered) (ts : List Token) :
    (plain item ts).value.IsCovered :=
  own

theorem isCovered_bare (t : Token) (ts : List Token) (fault : Option Fault) :
    (bare t ts fault).value.IsCovered := by
  simpa only [bare, IsCovered, tokens, ofItem] using covers_visible [t]

theorem isCovered_readBracket (left : t.kind = .leftBracket)
    (line : OnLine (readBracket inSlur t ts).value.tokens) :
    (readBracket inSlur t ts).value.IsCovered := by
  unfold readBracket at line ⊢
  split at line
  next r found =>
    obtain ⟨rfl, fits, _⟩ := InlineField.fits_of_read? found
    simp only [tokens] at line
    simpa only [IsCovered, tokens, ofItem] using
      covers_inlineField fits (stayInLine_inlineField fits left line)
  · split
    next r found =>
      simpa only [IsCovered, tokens, ofItem] using covers_chord (stayInLine_chord left found)
    · exact isCovered_bare t ts _

theorem isCovered_readBrace (left : t.kind = .leftBrace) (ts : List Token) :
    (readBrace t ts).value.IsCovered := by
  unfold readBrace
  split
  next r found =>
    simpa only [IsCovered, tokens, ofItem] using
      covers_graceGroup (stayInLine_graceGroup left found)
  · exact isCovered_bare t ts _

theorem isCovered_readNote (starts : t.kind.startsNote = true) (ts : List Token) :
    (readNote t ts).value.IsCovered := by
  unfold readNote
  split
  next n rest found =>
    apply isCovered_plain
    have fits := (Note.isReading_of_read? starts found).fits
    simpa only [IsCovered, tokens, ofItem] using covers_note (stayInLine_note fits)
  · exact isCovered_bare t ts _

theorem isCovered_read (line : OnLine (read inSlur t ts).value.tokens) :
    (read inSlur t ts).value.IsCovered := by
  have single : Covers [t] (visible [t]) := covers_visible [t]
  cases hk : t.kind with
  | leftBracket =>
    simp only [read, hk] at line ⊢
    exact isCovered_readBracket hk line
  | leftBrace => simpa only [read, hk] using isCovered_readBrace hk ts
  | noteLetter | restLetter | sharp | sharpDbl | flat | flatDbl | natural =>
    simp only [read, hk]
    exact isCovered_readNote (by rw [hk]; rfl) ts
  | letter =>
    simp only [read, hk]
    split
    · exact isCovered_plain (by simpa only [IsCovered, tokens, ofItem] using single) _
    · exact isCovered_bare t ts _
  | barline | barDbl | barRightBracket | leftBracketBar | barColon | colonBar | colonDbl | barDigit
  | colonBarDigit | nthRepeat | quotedText | symbol | dot | tilde =>
    simp only [read, hk]
    exact isCovered_plain (by simpa only [IsCovered, tokens, ofItem] using single) _
  | multiMeasureRest | spacerLetter =>
    have letter : StayInLine [t] := .single (by rw [hk]; rfl)
    have number : StayInLine (Token.accept (· = .number) ts).1.toList :=
      .option (fun u member => of_decide_eq_true (Token.kind_of_mem_accept member)) rfl
    have both := covers_merged (letter.append number)
    rw [List.singleton_append] at both
    simp only [read, hk]
    exact isCovered_plain (by simpa only [IsCovered, tokens, ofItem] using both) _
  | _ =>
    simp only [read, hk]
    exact isCovered_bare t ts _

/-- The highlights of a row of items cover it, slurs within slurs included. -/
theorem covers_readAll (inSlur : Bool) (ts : List Token)
    (line : OnLine (tokensOf (readAll inSlur ts).value)) :
    Covers (tokensOf (readAll inSlur ts).value) (ofItems (readAll inSlur ts).value) := by
  induction inSlur, ts using readAll_induct with
  | nil inSlur =>
    simp only [readAll_nil, tokensOf, ofItems]
    exact .nil
  | stop t ts closes =>
    simp only [readAll_stop closes, tokensOf, ofItems]
    exact .nil
  | slur inSlur t ts opens closed inner tail =>
    rw [readAll_slur opens closed] at line ⊢
    simp only [tokensOf, tokens, ofItems, ofItem] at line ⊢
    have opening := (covers_visible [t]).append (inner line.left.left.tail)
    exact (opening.append (covers_visible _)).append (tail line.right)
  | item inSlur t ts stays single tail =>
    rw [readAll_item stays single] at line ⊢
    simp only [tokensOf, ofItems] at line ⊢
    exact (isCovered_read line.left).append (tail line.right)

end Item

open Highlight

theorem InfoLine.covers_read (key : Token) (ts : List Token) :
    Covers (read key ts).1.tokens (ofInfoLine (read key ts).1) := by
  have value : Covers (read key ts).1.value (prose (read key ts).1.value) := by
    apply covers_prose
    intro t member
    have inside := List.all_eq_true.mp List.all_takeWhile t member
    cases hk : t.kind <;> simp_all [isValue, Kind.breaksLine]
  have eol : Covers (read key ts).1.eol.toList [] := covers_eol _
  have whole := (((covers_visible [(read key ts).1.key]).append value).append
    (covers_visible (read key ts).1.comment.toList)).append eol
  rwa [List.append_nil] at whole

theorem CommentLine.covers_read (comment : Token) (ts : List Token) :
    Covers (read comment ts).1.tokens (ofCommentLine (read comment ts).1) := by
  have whole := (covers_visible [(read comment ts).1.comment]).append (covers_eol ts)
  rwa [List.append_nil] at whole

theorem MusicLine.covers_read (ts : List Token) :
    Covers (read ts).value.tokens (ofBodyLine (.music (read ts).value)) := by
  refine (Item.covers_readAll false _ ?_).append (covers_visible _)
  rw [Item.tokensOf_readAll]
  intro t member
  have inside := List.all_eq_true.mp List.all_takeWhile t member
  simp_all [isBoundary]

theorem BodyLine.covers_read (t : Token) (ts : List Token) :
    Covers (read t ts).value.tokens (ofBodyLine (read t ts).value) := by
  unfold read
  split
  · exact InfoLine.covers_read t ts
  · split
    · exact CommentLine.covers_read t ts
    · exact MusicLine.covers_read (t :: ts)

namespace Tune

theorem covers_readBody (atLineStart : Bool) (ts : List Token) :
    Covers ((readBody atLineStart ts).value.flatMap BodyLine.tokens)
      ((readBody atLineStart ts).value.flatMap ofBodyLine) := by
  fun_induction readBody atLineStart ts with
  | case1 | case2 => exact .nil
  | case3 _ t ts _ line tail ih => exact (BodyLine.covers_read t ts).append ih

theorem covers_readHeader (isFirst : Bool) (ts : List Token) :
    Covers ((readHeader isFirst ts).1.flatMap HeaderLine.tokens)
      ((readHeader isFirst ts).1.flatMap ofHeaderLine) := by
  fun_induction readHeader isFirst ts with
  | case1 | case2 | case6 => exact .nil
  | case3 _ t ts _ _ line _ => exact (InfoLine.covers_read t ts).append .nil
  | case4 _ t ts _ _ line _ tail ih => exact (InfoLine.covers_read t ts).append ih
  | case5 _ t ts _ _ line tail ih => exact (CommentLine.covers_read t ts).append ih

theorem covers_read (beyond : Bool) (ts : List Token) :
    Covers (read beyond ts).value.tokens (ofTune (read beyond ts).value) :=
  ((covers_readHeader _ _).append (covers_readBody _ _)).append (covers_visible _)

end Tune

namespace Tree

theorem covers_readTunes (beyond : Bool) (ts : List Token) :
    Covers ((readTunes beyond ts).1.flatMap Tune.tokens)
      ((readTunes beyond ts).1.flatMap ofTune) := by
  fun_induction readTunes beyond ts with
  | case1 => exact .nil
  | case2 t ts tune tail ih => exact (Tune.covers_read _ _).append ih

/-- The highlights of a tree in the order in which its nodes come. -/
def inOrder (t : Tree) : List Token :=
  visible t.header ++ t.tunes.flatMap ofTune

theorem covers_ofTokens (ts : List Token) :
    Covers (ofTokens ts).1.tokens (ofTokens ts).1.inOrder :=
  (covers_visible _).append (covers_readTunes _ _)

end Tree

end Tunebook
