import Tunebook.Proofs.Conservation

/-! What reading reports. A tree shows by itself where its text is at fault: at tokens that are kept
bare and at fields left open. The errors reported while the tree is read are these faults, in the
order of the text and each of them once. All else that is reported are warnings. -/
namespace Tunebook

/-- The problems that a fault at a token comes to. -/
def Token.blame (t : Token) (fault : Option Fault) : List Problem :=
  fault.toList.map (⟨·, t⟩)

namespace Token

/-- What is wrong with a token kept bare among the items of a line. -/
def faultInLine? (t : Token) : Option Fault :=
  match t.kind with
  | .number | .slash | .greater | .less => some .detachedRhythm
  | .leftBracket => some .unterminatedChord
  | .leftBrace => some .unterminatedGraceGroup
  | .rightBracket | .rightBrace => some .unmatchedBracket
  | .sharp | .sharpDbl | .flat | .flatDbl | .natural => some .danglingAccidental
  | .letter => if t.isDecorationLetter then none else some .unknownLetter
  | _ => none

/-- What is wrong with a token kept bare in a chord. -/
def faultInChord? (t : Token) : Option Fault :=
  match t.kind with
  | .number | .slash | .greater | .less | .minus => some .detachedRhythmInChord
  | .sharp | .sharpDbl | .flat | .flatDbl | .natural => some .danglingAccidental
  | .letter => if t.isDecorationLetter then none else some .unknownLetterInChord
  | _ => none

/-- What is wrong with a token kept bare in a grace group. -/
def faultInGraceGroup? (t : Token) : Option Fault :=
  match t.kind with
  | .whitespace => none
  | .sharp | .sharpDbl | .flat | .flatDbl | .natural => some .danglingAccidental
  | _ => some .unexpectedInGraceGroup

end Token

def ChordPart.faults : ChordPart → List Problem
  | token t => t.blame t.faultInChord?
  | note _ | quotedText _ => []

def Chord.faults (c : Chord) : List Problem :=
  c.parts.flatMap ChordPart.faults

def GracePart.faults : GracePart → List Problem
  | token t => t.blame t.faultInGraceGroup?
  | chord c => c.faults
  | note _ => []

def GraceGroup.faults (g : GraceGroup) : List Problem :=
  g.parts.flatMap GracePart.faults

/-- A field is at fault where it opens, if nothing closes it. -/
def InlineField.faults (f : InlineField) : List Problem :=
  f.left.blame (if f.right.isNone then some .unterminatedInlineField else none)

mutual

def Item.faults : Item → List Problem
  | .token t => t.blame t.faultInLine?
  | .chord c => c.faults
  | .grace g => g.faults
  | .slur _ contents _ => Item.faultsOf contents
  | .inlineField f => f.faults
  | _ => []

def Item.faultsOf : List Item → List Problem
  | [] => []
  | item :: items => item.faults ++ Item.faultsOf items

end

def BodyLine.faults : BodyLine → List Problem
  | music l => Item.faultsOf l.items
  | info _ | comment _ => []

def Tune.faults (t : Tune) : List Problem :=
  t.body.flatMap BodyLine.faults

/-- The faults that a tree shows, in reading order. -/
def Tree.faults (t : Tree) : List Problem :=
  t.tunes.flatMap Tune.faults

/-- The reading reports the errors that its value shows, and warnings besides. -/
def Reading.Reports (faults : α → List Problem) (r : Reading α) : Prop :=
  r.problems.filter Problem.isError = faults r.value

theorem Note.isAccidental_of_read?_eq_none (h : Note.read? t ts = none) :
    t.kind.isAccidental = true := by
  unfold Note.read? at h
  split at h
  next accidental => exact accidental
  · split at h <;> cases h

theorem Token.errors_blame (t : Token) {fault : Option Fault}
    (h : ∀ f ∈ fault, f.severity = .error) :
    (t.blame fault).filter Problem.isError = t.blame fault := by
  refine List.filter_eq_self.mpr fun p member => ?_
  obtain ⟨f, listed, rfl⟩ := List.mem_map.mp member
  exact decide_eq_true (h f (Option.mem_toList.mp listed))

namespace Chord

theorem blame_accidental {t : Token} (h : t.kind.isAccidental = true) :
    t.blame t.faultInChord? = [⟨.danglingAccidental, t⟩] := by
  cases hk : t.kind <;> rw [hk] at h <;> cases h <;>
    simp only [Token.blame, Token.faultInChord?, hk] <;> rfl

theorem fault?_eq {t : Token} (silent : t.kind.startsNote = false) :
    fault? t = t.faultInChord? := by
  cases hk : t.kind <;> rw [hk] at silent <;> cases silent <;>
    simp [fault?, Token.faultInChord?, hk, Kind.isRhythm]
  cases t.isDecorationLetter <;> rfl

theorem severity_of_fault? {t : Token} (h : f ∈ fault? t) : f.severity = .error := by
  unfold fault? at h
  split at h
  · cases h
    rfl
  · split at h <;> cases h
    rfl

theorem errors_readParts (ts : List Token) :
    (readParts ts).2.filter Problem.isError = (readParts ts).1.flatMap ChordPart.faults := by
  fun_induction readParts ts with
  | case1 => rfl
  | case2 t ts _ note rest _ parts problems read ih =>
    rw [read] at ih
    simpa [ChordPart.faults] using ih
  | case3 t ts _ none parts problems read ih =>
    rw [read] at ih
    have accidental := Note.isAccidental_of_read?_eq_none none
    simp only [List.flatMap_cons, ChordPart.faults, blame_accidental accidental, ← ih]
    rfl
  | case4 t ts _ _ parts problems read ih =>
    rw [read] at ih
    simpa [ChordPart.faults] using ih
  | case5 t ts silent _ parts problems read ih =>
    rw [read] at ih
    have own : (t.blame (fault? t)).filter Problem.isError = t.blame (fault? t) :=
      t.errors_blame fun _ => severity_of_fault?
    rw [fault?_eq (Bool.eq_false_iff.mpr silent)] at own ⊢
    simp only [List.flatMap_cons, ChordPart.faults, ← ih, List.filter_append]
    exact congrArg (· ++ problems.filter Problem.isError) own

theorem reports_read? (h : read? t ts = some r) : r.Reports faults := by
  obtain ⟨⟨inside, right, rest⟩, _, rfl⟩ := Option.map_eq_some_iff.mp h
  simp only [Reading.Reports, List.filter_append, errors_readParts, faults]
  split <;> simp [Problem.isError, Problem.severity, Fault.severity]

end Chord

namespace GraceGroup

theorem reports_chord? (h : chord? t ts = some r) : r.Reports Chord.faults :=
  Chord.reports_read? (chord?_eq_some_iff.mp h).2

theorem blame_accidental {t : Token} (h : t.kind.isAccidental = true) :
    t.blame t.faultInGraceGroup? = [⟨.danglingAccidental, t⟩] := by
  cases hk : t.kind <;> rw [hk] at h <;> cases h <;>
    simp only [Token.blame, Token.faultInGraceGroup?, hk] <;> rfl

theorem blame_silent {t : Token} (silent : t.kind.startsNote = false) :
    t.blame t.faultInGraceGroup? =
      if t.kind = .whitespace then [] else [⟨.unexpectedInGraceGroup, t⟩] := by
  cases hk : t.kind <;> rw [hk] at silent <;> cases silent <;>
    simp [Token.blame, Token.faultInGraceGroup?, hk]

theorem errors_readParts (ts : List Token) :
    (readParts ts).2.filter Problem.isError = (readParts ts).1.flatMap GracePart.faults := by
  fun_induction readParts ts with
  | case1 => rfl
  | case2 t ts _ note rest _ parts problems read ih =>
    rw [read] at ih
    simpa [GracePart.faults] using ih
  | case3 t ts _ none parts problems read ih =>
    rw [read] at ih
    have accidental := Note.isAccidental_of_read?_eq_none none
    simp only [List.flatMap_cons, GracePart.faults, blame_accidental accidental, ← ih]
    rfl
  | case4 t ts _ chord found parts problems read ih =>
    -- The remark on the chord itself is a warning.
    rw [read] at ih
    have inner : chord.problems.filter Problem.isError = chord.value.faults := reports_chord? found
    simp only [List.flatMap_cons, GracePart.faults, List.filter_append, inner, ← ih]
    rfl
  | case5 t ts silent _ parts problems read ih =>
    rw [read] at ih
    simp only [List.flatMap_cons, GracePart.faults, blame_silent (Bool.eq_false_iff.mpr silent),
      ← ih]
    split <;> rfl

theorem reports_read? (h : read? t ts = some r) : r.Reports faults := by
  obtain ⟨⟨inside, right, rest⟩, _, rfl⟩ := Option.map_eq_some_iff.mp h
  exact errors_readParts _

end GraceGroup

theorem InlineField.reports_read? (h : read? inSlur t ts = some r) : r.Reports faults := by
  unfold read? at h
  split at h
  · split at h
    · simp only [Option.some.injEq] at h
      subst h
      simp only [Reading.Reports, faults]
      generalize Token.accept (· = .rightBracket) _ = closing
      cases closing.1 <;> rfl
    · cases h
  · cases h

namespace Item

theorem reports_plain {item : Item} (silent : item.faults = []) (ts : List Token) :
    (plain item ts).Reports faults :=
  silent.symm

theorem severity_of_faultInLine? {t : Token} (h : f ∈ t.faultInLine?) : f.severity = .error := by
  unfold Token.faultInLine? at h
  split at h <;> (try split at h) <;> cases h <;> rfl

/-- A token is reported with the fault that it shows when it is kept bare. -/
theorem reports_bare {t : Token} (own : t.faultInLine? = fault) (ts : List Token) :
    (bare t ts fault).Reports faults := by
  have error : (t.blame fault).filter Problem.isError = t.blame fault :=
    t.errors_blame fun f listed => severity_of_faultInLine? (own ▸ listed)
  rw [Reading.Reports, bare, faults, own]
  exact error

theorem reports_bracket (inSlur : Bool) {t : Token} (ts : List Token) (hk : t.kind = .leftBracket) :
    (readBracket inSlur t ts).Reports faults := by
  unfold readBracket
  split
  next r found =>
    have inner : r.problems.filter Problem.isError = r.value.faults :=
      InlineField.reports_read? found
    simpa only [Reading.Reports, faults] using inner
  · split
    next r found =>
      have inner : r.problems.filter Problem.isError = r.value.faults := Chord.reports_read? found
      simpa only [Reading.Reports, faults] using inner
    · exact reports_bare (by simp only [Token.faultInLine?, hk]) ts

theorem reports_brace {t : Token} (ts : List Token) (hk : t.kind = .leftBrace) :
    (readBrace t ts).Reports faults := by
  unfold readBrace
  split
  next r found =>
    have inner : r.problems.filter Problem.isError = r.value.faults :=
      GraceGroup.reports_read? found
    simpa only [Reading.Reports, faults] using inner
  · exact reports_bare (by simp only [Token.faultInLine?, hk]) ts

theorem reports_note (t : Token) (ts : List Token) : (readNote t ts).Reports faults := by
  unfold readNote
  split
  · exact reports_plain (by simp only [faults]) _
  next none =>
    have accidental := Note.isAccidental_of_read?_eq_none none
    apply reports_bare
    cases hk : t.kind <;> rw [hk] at accidental <;> cases accidental <;>
      simp only [Token.faultInLine?, hk]

theorem reports_read (inSlur : Bool) (t : Token) (ts : List Token) :
    (read inSlur t ts).Reports faults := by
  cases hk : t.kind with
  | leftBracket => simpa only [read, hk] using reports_bracket inSlur ts hk
  | leftBrace => simpa only [read, hk] using reports_brace ts hk
  | noteLetter | restLetter | sharp | sharpDbl | flat | flatDbl | natural =>
    simp only [read, hk]
    exact reports_note t ts
  | letter =>
    simp only [read, hk]
    split
    · exact reports_plain (by simp only [faults]) _
    next unknown => exact reports_bare (by simp only [Token.faultInLine?, hk, unknown]; rfl) _
  | minus =>
    -- A tie that follows no note is a warning, the one bare token that is.
    have own : t.faultInLine? = none := by simp only [Token.faultInLine?, hk]
    simp only [read, hk, Reading.Reports, bare, faults, own]
    rfl
  | barline | barDbl | barRightBracket | leftBracketBar | barColon | colonBar | colonDbl | barDigit
  | colonBarDigit | nthRepeat | quotedText | symbol | dot | tilde | multiMeasureRest
  | spacerLetter =>
    simp only [read, hk]
    exact reports_plain (by simp only [faults]) _
  | _ =>
    simp only [read, hk]
    exact reports_bare (by simp only [Token.faultInLine?, hk]) _

/-- The items of a line show all that was reported of them, those in slurs among them. -/
theorem reports_readAll (inSlur : Bool) (ts : List Token) :
    (readAll inSlur ts).Reports faultsOf := by
  unfold Reading.Reports
  induction inSlur, ts using readAll_induct with
  | nil inSlur => simp [readAll_nil, faultsOf]
  | stop t ts closes => simp [readAll_stop closes, faultsOf]
  | slur inSlur t ts opens closed inner tail =>
    rw [readAll_slur opens closed]
    simp only [List.filter_append, inner, tail, faultsOf, faults]
  | item inSlur t ts stays single tail =>
    have own : (read inSlur t ts).problems.filter Problem.isError =
        (read inSlur t ts).value.faults :=
      reports_read inSlur t ts
    rw [readAll_item stays single]
    simp only [List.filter_append, own, tail, faultsOf]

end Item

theorem BodyLine.reports_read (t : Token) (ts : List Token) : (read t ts).Reports faults := by
  unfold read
  split
  · rfl
  · split
    · rfl
    · exact Item.reports_readAll false _

namespace Tune

theorem reports_readBody (atLineStart : Bool) (ts : List Token) :
    (readBody atLineStart ts).Reports (·.flatMap BodyLine.faults) := by
  unfold Reading.Reports
  fun_induction readBody atLineStart ts with
  | case1 | case2 => rfl
  | case3 _ t ts _ line tail ih =>
    have own : line.problems.filter Problem.isError = line.value.faults :=
      BodyLine.reports_read t ts
    simp only [List.filter_append, List.flatMap_cons, own, tail, ih]

theorem reports_read (beyond : Bool) (ts : List Token) : (read beyond ts).Reports faults := by
  have body : (readBody true (readHeader true ts).2).problems.filter Problem.isError = _ :=
    reports_readBody true _
  -- A missing key is no more than a warning.
  have warned (tune : Tune) : (tune.missingKey? ts).toList.filter Problem.isError = [] := by
    unfold missingKey?
    split
    · split <;> rfl
    · rfl
  simp only [Reading.Reports, read, List.filter_append, warned, body, faults, List.nil_append]

end Tune

namespace Tree

theorem errors_readTunes (beyond : Bool) (ts : List Token) :
    (readTunes beyond ts).2.filter Problem.isError =
      (readTunes beyond ts).1.flatMap Tune.faults := by
  fun_induction readTunes beyond ts with
  | case1 => rfl
  | case2 t ts tune tail ih =>
    have own : tune.problems.filter Problem.isError = tune.value.faults :=
      Tune.reports_read beyond _
    simp only [List.filter_append, List.flatMap_cons, own, tail, ih]

/-- The errors reported of any tokens are the faults of their tree, in order and each once, so that
the tree alone tells whether there are any. -/
theorem errors_ofTokens (ts : List Token) :
    (ofTokens ts).2.filter Problem.isError = (ofTokens ts).1.faults ∧
      ((ofTokens ts).2.any Problem.isError = true ↔ (ofTokens ts).1.faults ≠ []) := by
  have exact : (ofTokens ts).2.filter Problem.isError = (ofTokens ts).1.faults :=
    errors_readTunes _ _
  refine ⟨exact, ?_⟩
  rw [← exact, List.any_eq_true, ne_eq, List.filter_eq_nil_iff]
  simp only [Classical.not_forall, Classical.not_not, exists_prop]

end Tree
end Tunebook
