import Mathlib.Data.List.Basic
import Tunebook.Document
import Tunebook.Proofs.Edges
import Tunebook.Proofs.Leaves

/-! What stands between the brackets of a chord and between the braces of a grace group. A part that
the grammar does not let stand there is reported, octave marks without a note in a chord apart. -/
namespace Tunebook

/-- Notes, quoted text, spaces and decorations may stand in a chord. -/
def ChordPart.isAllowed : ChordPart → Bool
  | note _ => true
  | quotedText t => t.kind = .quotedText
  | token t =>
    match t.kind with
    | .whitespace | .dot | .tilde | .symbol => true
    | .letter => t.isDecorationLetter
    | _ => false

/-- An octave mark that belongs to no note. -/
def ChordPart.isOctave : ChordPart → Bool
  | token t => t.kind.isOctave
  | _ => false

/-- Notes, spaces and, as the grammar warns of them, chords may stand in a grace group. -/
def GracePart.isAllowed : GracePart → Bool
  | note _ | chord _ => true
  | token t => t.kind = .whitespace

def GracePart.chord? : GracePart → Option Chord
  | chord c => some c
  | _ => none

theorem ChordPart.exists_mem_tokens (part : ChordPart) : ∃ t, t ∈ part.tokens := by
  cases part with
  | note n => exact ⟨n.last, List.mem_of_getLast? n.getLast?_tokens⟩
  | quotedText t | token t => exact ⟨t, List.mem_singleton_self t⟩

theorem GracePart.exists_mem_tokens (part : GracePart) : ∃ t, t ∈ part.tokens := by
  cases part with
  | note n => exact ⟨n.last, List.mem_of_getLast? n.getLast?_tokens⟩
  | chord c => exact ⟨c.left, List.mem_cons_self⟩
  | token t => exact ⟨t, List.mem_singleton_self t⟩

namespace Item

def grace? : Item → Option GraceGroup
  | grace g => some g
  | _ => none

def chords : Item → List Chord
  | chord c => [c]
  | grace g => g.parts.filterMap GracePart.chord?
  | _ => []

end Item

def Tree.graceGroups (t : Tree) : List GraceGroup :=
  t.leaves.filterMap (·.item.grace?)

/-- All chords, those in grace groups among them. -/
def Tree.chords (t : Tree) : List Chord :=
  t.leaves.flatMap (·.item.chords)

namespace Chord

theorem kind_of_token_mem (h : .token t ∈ (readParts ts).1) :
    t.kind.isAccidental = true ∨ t.kind.startsNote = false ∧ t.kind ≠ .quotedText := by
  fun_induction readParts ts with
  | case1 => cases h
  | case2 u us _ note rest _ parts problems hr ih | case4 u us _ _ parts problems hr ih =>
    rw [hr] at ih
    exact ih (by simpa using h)
  | case3 u us _ none parts problems hr ih =>
    rw [hr] at ih
    rcases List.mem_cons.mp h with same | h
    · cases same
      exact .inl (Note.isAccidental_of_read?_eq_none none)
    · exact ih h
  | case5 u us silent plain parts problems hr ih =>
    rw [hr] at ih
    rcases List.mem_cons.mp h with same | h
    · cases same
      exact .inr ⟨Bool.eq_false_iff.mpr silent, plain⟩
    · exact ih h

/-- Of the bare tokens that a chord admits only octave marks are neither in place nor at fault. -/
theorem fault_of_bare {t : Token} (admitted : admits t.kind = true)
    (bare : t.kind.isAccidental = true ∨ t.kind.startsNote = false ∧ t.kind ≠ .quotedText) :
    (ChordPart.token t).isAllowed = true ∨ t.kind.isOctave = true ∨
      ∃ f, t.faultInChord? = some f := by
  cases kind : t.kind with
  | whitespace | dot | tilde | symbol => exact .inl (by simp only [ChordPart.isAllowed, kind])
  | apostrophe | comma => exact .inr (.inl rfl)
  | letter =>
    simp only [ChordPart.isAllowed, Token.faultInChord?, kind]
    cases t.isDecorationLetter <;> simp
  | number | slash | greater | less | minus =>
    exact .inr (.inr ⟨.detachedRhythmInChord, by simp only [Token.faultInChord?, kind]⟩)
  | sharp | sharpDbl | flat | flatDbl | natural =>
    exact .inr (.inr ⟨.danglingAccidental, by simp only [Token.faultInChord?, kind]⟩)
  | noteLetter | restLetter | quotedText =>
    simp [kind, Kind.startsNote, Kind.isAccidental] at bare
  | _ => simp [kind, admits, Kind.startsNote, Kind.isAccidental, Kind.isRhythm] at admitted

theorem fault_of_mem_parts (h : read? t ts = some r) (member : part ∈ r.value.parts) :
    part.isAllowed = true ∨ part.isOctave = true ∨
      ∀ u ∈ part.tokens, ∃ p ∈ r.value.faults, p.token = u := by
  have reading := isReading_of_read? h
  cases part with
  | note n => exact .inl rfl
  | quotedText u =>
    have kind : (ChordPart.quotedText u).WellFormed := wellFormed_of_mem_readParts (reading.parts ▸ member)
    exact .inl (decide_eq_true kind)
  | token u =>
    have own : u ∈ r.value.parts.flatMap ChordPart.tokens :=
      List.mem_flatMap.mpr ⟨_, member, List.mem_singleton.mpr rfl⟩
    refine (fault_of_bare (reading.inner u own).2
      (kind_of_token_mem (reading.parts ▸ member))).imp_right ?_
    refine Or.imp_right ?_
    rintro ⟨f, found⟩ v same
    obtain rfl := List.mem_singleton.mp same
    refine ⟨⟨f, v⟩, List.mem_flatMap.mpr ⟨_, member, ?_⟩, rfl⟩
    simp [ChordPart.faults, Token.blame, found]

end Chord

namespace GraceGroup

theorem fault_of_mem_parts {g : GraceGroup} (member : part ∈ g.parts) :
    part.isAllowed = true ∨ ∀ t ∈ part.tokens, ∃ p ∈ g.faults, p.token = t := by
  cases part with
  | note | chord => exact .inl rfl
  | token t =>
    by_cases space : t.kind = .whitespace
    · exact .inl (decide_eq_true space)
    · right
      intro u same
      obtain rfl := List.mem_singleton.mp same
      obtain ⟨f, found⟩ : ∃ f, u.faultInGraceGroup? = some f := by
        unfold Token.faultInGraceGroup?
        split
        · contradiction
        all_goals exact ⟨_, rfl⟩
      refine ⟨⟨f, u⟩, List.mem_flatMap.mpr ⟨_, member, ?_⟩, rfl⟩
      simp [GracePart.faults, Token.blame, found]

/-- A chord in a grace group is one that the grammar reads, and is warned of. -/
theorem chord_of_mem_readParts (h : .chord c ∈ (readParts ts).1) :
    (∃ t us r, Chord.read? t us = some r ∧ r.value = c) ∧
      ⟨.chordInGraceGroup, c.left⟩ ∈ (readParts ts).2 := by
  fun_induction readParts ts with
  | case1 => cases h
  | case2 t ts _ note rest _ parts problems hr ih =>
    rw [hr] at ih
    exact ih (by simpa using h)
  | case3 t ts _ _ parts problems hr ih =>
    rw [hr] at ih
    exact (ih (by simpa using h)).imp_right (List.mem_cons_of_mem _)
  | case4 t ts _ chord found parts problems hr ih =>
    rw [hr] at ih
    rcases List.mem_cons.mp h with same | h
    · cases same
      have read := (chord?_eq_some_iff.mp found).2
      rw [(Chord.isReading_of_read? read).left]
      exact ⟨⟨t, ts, chord, read, rfl⟩, by simp⟩
    · exact (ih h).imp_right fun own => List.mem_append_right _ (List.mem_cons_of_mem _ own)
  | case5 t ts _ _ parts problems hr ih =>
    rw [hr] at ih
    refine (ih (by simpa using h)).imp_right fun own => ?_
    split
    · exact own
    · exact List.mem_cons_of_mem _ own

end GraceGroup

namespace Item

theorem read?_of_chord (h : (read inSlur t ts).value = .chord c) :
    ∃ r, Chord.read? t ts = some r ∧ r.value = c := by
  unfold read readBracket readBrace readNote at h
  repeat' split at h
  all_goals simp_all [plain, bare]

theorem read?_of_grace (h : (read inSlur t ts).value = .grace g) :
    ∃ r, GraceGroup.read? t ts = some r ∧ r.value = g ∧
      (read inSlur t ts).problems = r.problems := by
  generalize whole : read inSlur t ts = item at h ⊢
  unfold read readBracket readBrace readNote at whole
  repeat' split at whole
  all_goals subst whole; simp_all [plain, bare]

end Item

namespace GraceGroup

theorem readParts_of_read? (h : read? t ts = some r) :
    ∃ us, r.value.parts = (readParts us).1 ∧ r.problems = (readParts us).2 := by
  obtain ⟨⟨inside, right, rest⟩, _, rfl⟩ := Option.map_eq_some_iff.mp h
  exact ⟨_, rfl, rfl⟩

end GraceGroup

namespace Tree

theorem mem_problems_of_mem_faults (h : leaf ∈ (ofTokens ts).1.leaves) (own : p ∈ leaf.item.faults) :
    p ∈ (ofTokens ts).2 ∧ p.isError = true := by
  rw [← List.mem_filter, errors_eq_leaves]
  exact List.mem_flatMap.mpr ⟨leaf, h, own⟩

theorem exists_of_mem_graceGroups (h : g ∈ (ofTokens ts).1.graceGroups) :
    ∃ leaf ∈ (ofTokens ts).1.leaves, leaf.item = .grace g := by
  obtain ⟨leaf, listed, own⟩ := List.mem_filterMap.mp h
  refine ⟨leaf, listed, ?_⟩
  unfold Item.grace? at own
  split at own <;> simp_all

theorem mem_problems_of_mem_graceGroups (h : g ∈ (ofTokens ts).1.graceGroups)
    (member : .chord c ∈ g.parts) : ⟨.chordInGraceGroup, c.left⟩ ∈ (ofTokens ts).2 := by
  obtain ⟨leaf, listed, own⟩ := exists_of_mem_graceGroups h
  obtain ⟨_, _, t, us, _, same, reported⟩ := isRead_of_mem_leaves listed
  obtain ⟨r, found, rfl, problems⟩ := Item.read?_of_grace (same.trans own)
  obtain ⟨vs, parts, remarks⟩ := GraceGroup.readParts_of_read? found
  apply reported
  rw [problems, remarks]
  exact (GraceGroup.chord_of_mem_readParts (parts ▸ member)).2

theorem read_of_mem_chords (h : c ∈ (ofTokens ts).1.chords) :
    (∃ t us r, Chord.read? t us = some r ∧ r.value = c) ∧
      ∀ p ∈ c.faults, p ∈ (ofTokens ts).2 ∧ p.isError = true := by
  obtain ⟨leaf, listed, own⟩ := List.mem_flatMap.mp h
  obtain ⟨_, _, t, us, _, same, _⟩ := isRead_of_mem_leaves listed
  cases item : leaf.item with
  | chord d =>
    obtain rfl : c = d := by simpa [item, Item.chords] using own
    obtain ⟨r, found⟩ := Item.read?_of_chord (same.trans item)
    refine ⟨⟨t, us, r, found⟩, fun p fault => mem_problems_of_mem_faults listed ?_⟩
    simpa only [item, Item.faults] using fault
  | grace g =>
    have member : .chord c ∈ g.parts := by
      rw [item, Item.chords] at own
      obtain ⟨part, inside, chord⟩ := List.mem_filterMap.mp own
      cases part <;> cases chord
      exact inside
    obtain ⟨r, found, rfl, _⟩ := Item.read?_of_grace (same.trans item)
    obtain ⟨vs, parts, _⟩ := GraceGroup.readParts_of_read? found
    refine ⟨(GraceGroup.chord_of_mem_readParts (parts ▸ member)).1, fun p fault =>
      mem_problems_of_mem_faults listed ?_⟩
    rw [item, Item.faults]
    exact List.mem_flatMap.mpr ⟨_, member, fault⟩
  | _ => simp [item, Item.chords] at own

end Tree

namespace Document

/-- An error is found at a token. -/
def Blames (d : Document) (t : Token) : Prop :=
  ∃ p ∈ d.problems, p.token = t ∧ p.isError = true

theorem not_blames {d : Document} (clean : d.hasErrors = false) (t : Token) : ¬d.Blames t := by
  rintro ⟨p, listed, _, error⟩
  exact List.any_eq_false.mp clean p listed error

theorem blames_of_mem_problems {text : Text} (source : String)
    (h : p ∈ (Tree.ofTokens (scan text)).2 ∧ p.isError = true) :
    (analyze source text).Blames p.token :=
  ⟨p, List.mem_append_right _ h.1, rfl, h.2⟩

theorem blames_chordPart {text : Text} (source : String)
    (h : c ∈ (Tree.ofTokens (scan text)).1.chords) (member : part ∈ c.parts)
    (attached : part.isOctave = false) :
    part.isAllowed = true ∨ ∀ t ∈ part.tokens, (analyze source text).Blames t := by
  obtain ⟨⟨_, _, r, found, rfl⟩, reported⟩ := Tree.read_of_mem_chords h
  rcases Chord.fault_of_mem_parts found member with allowed | octave | faults
  · exact .inl allowed
  · rw [octave] at attached
    cases attached
  · right
    intro t own
    obtain ⟨p, fault, rfl⟩ := faults t own
    exact blames_of_mem_problems source (reported p fault)

theorem blames_gracePart {text : Text} (source : String)
    (h : g ∈ (Tree.ofTokens (scan text)).1.graceGroups) (member : part ∈ g.parts) :
    part.isAllowed = true ∨ ∀ t ∈ part.tokens, (analyze source text).Blames t := by
  obtain ⟨leaf, listed, item⟩ := Tree.exists_of_mem_graceGroups h
  refine (GraceGroup.fault_of_mem_parts member).imp_right fun faults t own => ?_
  obtain ⟨p, fault, rfl⟩ := faults t own
  apply blames_of_mem_problems source
  apply Tree.mem_problems_of_mem_faults listed
  simpa only [item, Item.faults] using fault

/-- In a text without octave marks that stand by themselves in a chord, all that is out of place in a
chord or a grace group is reported as an error, and chords in grace groups are warned of. So where no
error is found, chords hold notes, quoted text, spaces and decorations and grace groups notes, spaces
and chords. -/
theorem contents_analyze (source : String) (text : Text)
    (attached : ∀ c ∈ (analyze source text).tree.chords, ∀ part ∈ c.parts, part.isOctave = false) :
    let d := analyze source text
    (d.hasErrors = false →
      (∀ c ∈ d.tree.chords, ∀ part ∈ c.parts, part.isAllowed = true) ∧
        ∀ g ∈ d.tree.graceGroups, ∀ part ∈ g.parts, part.isAllowed = true) ∧
    (∀ g ∈ d.tree.graceGroups, ∀ c, .chord c ∈ g.parts →
      ⟨.chordInGraceGroup, c.left⟩ ∈ d.problems) ∧
    (∀ c ∈ d.tree.chords, ∀ part ∈ c.parts, part.isAllowed = false →
      ∀ t ∈ part.tokens, d.Blames t) ∧
    ∀ g ∈ d.tree.graceGroups, ∀ part ∈ g.parts, part.isAllowed = false →
      ∀ t ∈ part.tokens, d.Blames t := by
  have chord {c part} (listed : c ∈ (analyze source text).tree.chords) (member : part ∈ c.parts) :=
    blames_chordPart source listed member (attached c listed part member)
  have grace {g part} (listed : g ∈ (analyze source text).tree.graceGroups) (member : part ∈ g.parts) :=
    blames_gracePart source listed member
  refine ⟨fun clean => ⟨?_, ?_⟩, ?_, ?_, ?_⟩
  · intro c listed part member
    refine (chord listed member).resolve_right fun blames => ?_
    obtain ⟨t, own⟩ := part.exists_mem_tokens
    exact not_blames clean t (blames t own)
  · intro g listed part member
    refine (grace listed member).resolve_right fun blames => ?_
    obtain ⟨t, own⟩ := part.exists_mem_tokens
    exact not_blames clean t (blames t own)
  · intro g listed c member
    exact List.mem_append_right _ (Tree.mem_problems_of_mem_graceGroups listed member)
  · intro c listed part member out
    exact (chord listed member).resolve_left (by simp [out])
  · intro g listed part member out
    exact (grace listed member).resolve_left (by simp [out])

/-- Two chords, one of them in a grace group, and none out of place; a number by itself and a dot that
are. -/
theorem contents_analyze_both : ∃ d e : Document,
    (∃ c₁ c₂ g, d.tree.chords = [c₁, c₂] ∧ d.tree.graceGroups = [g] ∧
      (∀ part ∈ c₁.parts, part.isAllowed = true) ∧ (∀ part ∈ c₂.parts, part.isAllowed = true) ∧
      ∀ part ∈ g.parts, part.isAllowed = true) ∧
    (∃ c ∈ e.tree.chords, ∃ part ∈ c.parts, part.isAllowed = false ∧ ∀ t ∈ part.tokens, e.Blames t) ∧
    ∃ g ∈ e.tree.graceGroups, ∃ part ∈ g.parts, part.isAllowed = false ∧
      ∀ t ∈ part.tokens, e.Blames t := by
  let s := "X:1\nK:C\n[C2 .TE]\x7ba [ce]\x7d\n".toList
  let u := "X:1\nK:C\n[C 2E]\x7ba.\x7d\n".toList
  have plain : (∀ c ∈ (analyze "abc" s).tree.chords, ∀ part ∈ c.parts, part.isOctave = false) ∧
      (analyze "abc" s).hasErrors = false ∧ (analyze "abc" s).tree.chords.length = 2 ∧
      (analyze "abc" s).tree.graceGroups.length = 1 := by
    decide +kernel
  have mixed : (∀ c ∈ (analyze "abc" u).tree.chords, ∀ part ∈ c.parts, part.isOctave = false) ∧
      (∃ c ∈ (analyze "abc" u).tree.chords, ∃ part ∈ c.parts, part.isAllowed = false) ∧
      ∃ g ∈ (analyze "abc" u).tree.graceGroups, ∃ part ∈ g.parts, part.isAllowed = false := by
    decide +kernel
  obtain ⟨attached, clean, two, one⟩ := plain
  obtain ⟨c₁, c₂, chords⟩ := List.length_eq_two.mp two
  obtain ⟨g, graces⟩ := List.length_eq_one_iff.mp one
  obtain ⟨allowed, allowed'⟩ := (contents_analyze "abc" s attached).1 clean
  obtain ⟨attached', ⟨c, listed, part, member, out⟩, g', listed', part', member', out'⟩ := mixed
  obtain ⟨_, _, blames, blames'⟩ := contents_analyze "abc" u attached'
  refine ⟨analyze "abc" s, analyze "abc" u, ⟨c₁, c₂, g, chords, graces, ?_, ?_, ?_⟩, ?_, ?_⟩
  · exact allowed c₁ (by simp [chords])
  · exact allowed c₂ (by simp [chords])
  · exact allowed' g (by simp [graces])
  · exact ⟨c, listed, part, member, out, blames c listed part member out⟩
  · exact ⟨g', listed', part', member', out', blames' g' listed' part' member' out'⟩

/-- An octave mark behind a space stands in the chord without an error. -/
theorem not_contents_octave :
    ¬∀ source text, (analyze source text).hasErrors = false →
      ∀ c ∈ (analyze source text).tree.chords, ∀ part ∈ c.parts, part.isAllowed = true := by
  intro every
  have found : (analyze "abc" "X:1\nK:C\n[C ,E]\n".toList).hasErrors = false ∧
      ∃ c ∈ (analyze "abc" "X:1\nK:C\n[C ,E]\n".toList).tree.chords,
        ∃ part ∈ c.parts, part.isAllowed = false := by
    decide +kernel
  obtain ⟨clean, c, listed, part, member, out⟩ := found
  rw [every _ _ clean c listed part member] at out
  cases out

end Document
end Tunebook
