import Mathlib.Data.List.Basic
import Tunebook.Proofs.Leaves
import Tunebook.Proofs.Lossless
import Tunebook.Proofs.Scan.Tiling

/-! Fields inside music. A field lacks its bracket just if none stands on the rest of its line, and the
fields that lack it are what is reported as unterminated. In a slur this fails where a parenthesis that
closes comes before the bracket: the search for the bracket ends at the parenthesis. -/
namespace Tunebook

/-- The kinds that end a line of music, continued or not. -/
def Kind.endsMusic (k : Kind) : Bool :=
  k matches eol | antislashEol | comment | stylesheetDirective | infoKey | eof

namespace InlineField

/-- The rest of the line, behind the colon of a field. -/
def ahead (f : InlineField) (ts : List Token) : List Token :=
  (f.colon.behind ts).takeWhile (!·.kind.endsMusic)

/-- In a slur no parenthesis that closes comes before the bracket on the rest of the line. -/
def IsClear (inSlur : Bool) (f : InlineField) (ts : List Token) : Prop :=
  inSlur = true → (∃ t ∈ f.ahead ts, t.kind = .rightBracket) →
    ∀ t ∈ (f.ahead ts).takeWhile (·.kind ≠ .rightBracket), t.kind ≠ .rightParen

instance (inSlur : Bool) (f : InlineField) (ts : List Token) : Decidable (f.IsClear inSlur ts) :=
  inferInstanceAs (Decidable (_ → _ → _))

def stops (inSlur : Bool) (k : Kind) : Bool :=
  k.endsMusic || (inSlur && k = .rightParen)

/-- Where a field finds its bracket: in a slur not behind a parenthesis that closes. -/
def reach (inSlur : Bool) (f : InlineField) (ts : List Token) : List Token :=
  (f.colon.behind ts).takeWhile (!stops inSlur ·.kind)

theorem reach_eq (inSlur : Bool) (f : InlineField) (ts : List Token) :
    f.reach inSlur ts = (f.ahead ts).takeWhile fun t => !(inSlur && t.kind = .rightParen) := by
  rw [reach, ahead, List.takeWhile_takeWhile]
  refine congrArg (List.takeWhile · _) (funext fun t => ?_)
  simp [stops, Bool.and_comm]

/-- The search of a field goes as the rest of the line says exactly where the way is clear. -/
theorem isClear_iff (inSlur : Bool) (f : InlineField) (ts : List Token) :
    f.IsClear inSlur ts ↔ ((∀ t ∈ f.reach inSlur ts, t.kind ≠ .rightBracket) ↔
      ∀ t ∈ f.ahead ts, t.kind ≠ .rightBracket) := by
  rw [reach_eq, IsClear]
  cases inSlur with
  | false => simp [List.takeWhile_eq_self_iff.mpr fun _ _ => rfl]
  | true =>
    -- the first bracket or parenthesis on the rest of the line settles both sides
    generalize f.ahead ts = us
    induction us with
    | nil => simp
    | cons u us ih =>
      by_cases bracket : u.kind = .rightBracket
      · simp [bracket]
      · by_cases closes : u.kind = .rightParen
        · simp [closes]
        · simpa [bracket, closes] using ih

/-- Where a field lies among the tokens it is read from, and where its bracket is looked for. -/
theorem exists_of_read? (h : read? inSlur t ts = some r) :
    ∃ rest, ts = r.value.padding ++ r.value.field :: r.value.colon :: rest ∧
      r.value.right = (Token.accept (· = .rightBracket)
        (rest.dropWhile (!endsText inSlur ·.kind))).1 := by
  unfold read? at h
  split at h
  next field colon rest cut =>
    split at h
    · cases h
      refine ⟨rest, ?_, rfl⟩
      rw [← cut, List.takeWhile_append_dropWhile]
    · cases h
  · cases h

theorem endsText_eq (inSlur : Bool) {k : Kind} (music : MusicLine.isBoundary k = false) (text : k ≠ .eof) :
    endsText inSlur k = (k = .rightBracket || stops inSlur k) := by
  cases k <;> first | rfl | contradiction

theorem accept_eq_none_iff {ts us : List Token}
    (music : ∀ t ∈ ts, MusicLine.isBoundary t.kind = false ∧ t.kind ≠ .eof)
    (ends : ∀ t ∈ us.head?, t.kind.endsMusic = true) :
    (Token.accept (· = .rightBracket) (ts.dropWhile (!endsText inSlur ·.kind))).1 = none ↔
      ∀ t ∈ (ts ++ us).takeWhile (!stops inSlur ·.kind), t.kind ≠ .rightBracket := by
  induction ts with
  | nil =>
    have none : us.takeWhile (!stops inSlur ·.kind) = [] := by
      cases us with
      | nil => rfl
      | cons u us => simp [stops, ends u rfl]
    simp [Token.accept, none]
  | cons t ts ih =>
    obtain ⟨own, others⟩ := List.forall_mem_cons.mp music
    have text := endsText_eq inSlur own.1 own.2
    rw [List.cons_append]
    cases stop : stops inSlur t.kind with
    | true =>
      have other : t.kind ≠ .rightBracket := by
        intro bracket
        simp [bracket, stops, Kind.endsMusic] at stop
      simp [text, stop, other, Token.accept]
    | false =>
      by_cases bracket : t.kind = .rightBracket
      · rw [bracket] at text stop
        simp [text, stop, bracket, Token.accept]
      · simp [text, stop, bracket, ih others]

def report (f : InlineField) : Problem :=
  ⟨.unterminatedInlineField, f.left⟩

end InlineField

namespace Item

def field? : Item → Option InlineField
  | inlineField f => some f
  | _ => none

def openField? : Item → Option InlineField
  | inlineField f => if f.right.isNone then some f else none
  | _ => none

theorem read?_of_field? (h : f ∈ (read inSlur t ts).value.field?) :
    ∃ r, InlineField.read? inSlur t ts = some r ∧ r.value = f := by
  unfold read readBracket readBrace readNote at h
  repeat' split at h
  all_goals simp_all [plain, bare, field?]

end Item

/-- The fields that nothing closes, in reading order. -/
def Tree.openFields (t : Tree) : List InlineField :=
  t.leaves.filterMap (·.item.openField?)

/-! A field is the only thing that is reported as an unterminated field. -/

theorem Token.filter_blame_of_notMem (t : Token) {fault : Option Fault} (other : f ∉ fault) :
    (t.blame fault).filter (·.fault = f) = [] := by
  refine List.filter_eq_nil_iff.mpr fun p member => ?_
  obtain ⟨own, listed, rfl⟩ := List.mem_map.mp member
  rw [decide_eq_true_eq]
  rintro rfl
  exact other (Option.mem_toList.mp listed)

theorem Chord.filter_faults (c : Chord) :
    c.faults.filter (·.fault = .unterminatedInlineField) = [] := by
  rw [faults, List.filter_flatMap, List.flatMap_eq_nil_iff]
  intro part _
  cases part with
  | note | quotedText => rfl
  | token t =>
    refine t.filter_blame_of_notMem ?_
    unfold Token.faultInChord?
    split <;> (try split) <;> simp

theorem GraceGroup.filter_faults (g : GraceGroup) :
    g.faults.filter (·.fault = .unterminatedInlineField) = [] := by
  rw [faults, List.filter_flatMap, List.flatMap_eq_nil_iff]
  intro part _
  cases part with
  | note => rfl
  | chord c => exact c.filter_faults
  | token t =>
    refine t.filter_blame_of_notMem ?_
    unfold Token.faultInGraceGroup?
    split <;> simp

theorem Item.filter_faults_read (inSlur : Bool) (t : Token) (ts : List Token) :
    (read inSlur t ts).value.faults.filter (·.fault = .unterminatedInlineField) =
      (read inSlur t ts).value.openField?.toList.map InlineField.report := by
  cases value : (read inSlur t ts).value with
  | slur left contents right => exact absurd value (read_ne_slur inSlur t ts left contents right)
  | chord c => simpa only [faults, openField?, Option.toList_none, List.map_nil] using c.filter_faults
  | grace g => simpa only [faults, openField?, Option.toList_none, List.map_nil] using g.filter_faults
  | token u =>
    rw [faults]
    refine u.filter_blame_of_notMem ?_
    unfold Token.faultInLine?
    split <;> (try split) <;> simp
  | inlineField f =>
    rw [faults, InlineField.faults]
    cases closes : f.right <;> simp [closes, Token.blame, openField?, InlineField.report]
  | _ => simp [faults, openField?]

theorem MusicLine.endsMusic_of_isBoundary (h : isBoundary k = true) : k.endsMusic = true := by
  cases k <;> first | rfl | cases h

/-- Behind the music of a line stands what ends it, if only the end of the text. -/
theorem MusicLine.endsMusic_behind (line : List Token)
    (h : t ∈ (line.dropWhile (!isBoundary ·.kind) ++ [endMark text]).head?) :
    t.kind.endsMusic = true := by
  cases rest : line.dropWhile (!isBoundary ·.kind) with
  | nil =>
    rw [rest] at h
    obtain rfl := Option.some.inj h
    rfl
  | cons u us =>
    have stops := List.head?_dropWhile_not (!isBoundary ·.kind) line
    rw [rest] at h stops
    obtain rfl := Option.some.inj h
    exact endsMusic_of_isBoundary (by simpa using stops)

theorem Leaf.right_eq_none_iff {text : Text} {leaf : Leaf}
    (h : leaf ∈ (Tree.ofTokens (scan text)).1.leaves) (field : f ∈ leaf.item.field?) :
    f.right = none ↔ ∀ t ∈ f.reach leaf.inSlur (scan text), t.kind ≠ .rightBracket := by
  obtain ⟨line, ⟨front, cut⟩, t, us, ⟨gap, place⟩, same, _⟩ := Tree.isRead_of_mem_leaves h
  rw [← same] at field
  obtain ⟨r, found, rfl⟩ := Item.read?_of_field? field
  obtain ⟨rest, inside, right⟩ := InlineField.exists_of_read? found
  rw [Tree.tokens_ofTokens_scan] at cut
  have whole : scan text = (front ++ gap ++ t :: r.value.padding ++ [r.value.field]) ++
      r.value.colon :: (rest ++ (line.dropWhile (!MusicLine.isBoundary ·.kind) ++ [endMark text])) := by
    have music := List.takeWhile_append_dropWhile (p := (!MusicLine.isBoundary ·.kind)) (l := line)
    rw [scan_eq, ← cut]
    conv_lhs => rw [← music, ← place, inside]
    simp
  have behind : r.value.colon.behind (scan text) =
      rest ++ (line.dropWhile (!MusicLine.isBoundary ·.kind) ++ [endMark text]) := by
    rw [whole]
    exact Token.behind_append (whole ▸ nodup_scan text)
  have plain : ∀ u ∈ rest, MusicLine.isBoundary u.kind = false ∧ u.kind ≠ .eof := by
    intro u member
    have own : u ∈ line.takeWhile (!MusicLine.isBoundary ·.kind) := by
      rw [← place, inside]
      simp [member]
    constructor
    · simpa using List.mem_takeWhile_imp own
    · have listed : u ∈ textTokens text :=
        cut ▸ List.mem_append_right front (List.takeWhile_subset _ own)
      exact kind_of_mem_textTokens listed
  rw [right, InlineField.reach, behind]
  exact InlineField.accept_eq_none_iff plain fun u => MusicLine.endsMusic_behind line

namespace Tree

theorem filter_problems_ofTokens (ts : List Token) :
    (ofTokens ts).2.filter (·.fault = .unterminatedInlineField) =
      (ofTokens ts).1.openFields.map InlineField.report := by
  have error : ∀ p : Problem, (decide (p.fault = .unterminatedInlineField) && p.isError) =
      decide (p.fault = .unterminatedInlineField) := by
    intro p
    by_cases own : p.fault = .unterminatedInlineField
    · simp [own, Problem.isError, Problem.severity, Fault.severity]
    · simp [own]
  rw [← List.filter_congr fun p _ => error p, ← List.filter_filter, errors_eq_leaves,
    List.filter_flatMap, openFields, List.filterMap_eq_flatMap_toList, List.map_flatMap]
  refine List.flatMap_congr fun leaf listed => ?_
  obtain ⟨_, _, t, us, _, same, _⟩ := isRead_of_mem_leaves listed
  rw [← same]
  exact Item.filter_faults_read leaf.inSlur t us

/-- In every text a field lacks its bracket just if none stands on the rest of its line, where in a slur
the way to the bracket is clear. The fields that lack it are reported, and nothing else is reported so. -/
theorem fields_ofTokens (text : Text) :
    (∀ leaf ∈ (ofTokens (scan text)).1.leaves, ∀ f ∈ leaf.item.field?,
      f.IsClear leaf.inSlur (scan text) →
        (f.right = none ↔ ∀ t ∈ f.ahead (scan text), t.kind ≠ .rightBracket)) ∧
    (ofTokens (scan text)).2.filter (·.fault = .unterminatedInlineField) =
      (ofTokens (scan text)).1.openFields.map InlineField.report := by
  constructor
  · intro leaf listed f field clear
    calc f.right = none
        ↔ ∀ t ∈ f.reach leaf.inSlur (scan text), t.kind ≠ .rightBracket :=
          Leaf.right_eq_none_iff listed field
      _ ↔ ∀ t ∈ f.ahead (scan text), t.kind ≠ .rightBracket :=
          (f.isClear_iff leaf.inSlur (scan text)).mp clear
  · exact filter_problems_ofTokens _

/-- Two fields in slurs: one is closed ahead of the parenthesis, and one has no bracket on its line. -/
theorem fields_ofTokens_slur : ∃ text, ∃ closed ∈ (ofTokens (scan text)).1.leaves,
    ∃ f ∈ closed.item.field?, ∃ cut ∈ (ofTokens (scan text)).1.leaves, ∃ g ∈ cut.item.field?,
      closed.inSlur = true ∧ f.right ≠ none ∧ cut.inSlur = true ∧ g.right = none ∧
      g.report ∈ (ofTokens (scan text)).2.filter (·.fault = .unterminatedInlineField) := by
  have found : ∃ closed ∈ (ofTokens (scan "X:1\nK:C\n([r:a]b)\n([r:c)\n".toList)).1.leaves,
      ∃ f ∈ closed.item.field?,
      ∃ cut ∈ (ofTokens (scan "X:1\nK:C\n([r:a]b)\n([r:c)\n".toList)).1.leaves,
      ∃ g ∈ cut.item.field?,
        (closed.inSlur = true ∧ f.IsClear closed.inSlur (scan "X:1\nK:C\n([r:a]b)\n([r:c)\n".toList) ∧
          ∃ t ∈ f.ahead (scan "X:1\nK:C\n([r:a]b)\n([r:c)\n".toList), t.kind = .rightBracket) ∧
        (cut.inSlur = true ∧ g.IsClear cut.inSlur (scan "X:1\nK:C\n([r:a]b)\n([r:c)\n".toList) ∧
          ∀ t ∈ g.ahead (scan "X:1\nK:C\n([r:a]b)\n([r:c)\n".toList), t.kind ≠ .rightBracket) ∧
        g ∈ (ofTokens (scan "X:1\nK:C\n([r:a]b)\n([r:c)\n".toList)).1.openFields := by
    decide +kernel
  obtain ⟨closed, listed, f, field, cut, listed', g, field', ⟨slur, clear, t, member, bracket⟩,
    ⟨slur', clear', without⟩, isOpen⟩ := found
  obtain ⟨brackets, reports⟩ := fields_ofTokens "X:1\nK:C\n([r:a]b)\n([r:c)\n".toList
  refine ⟨_, closed, listed, f, field, cut, listed', g, field', slur, ?_, slur', ?_, ?_⟩
  · intro missing
    exact (brackets closed listed f field clear).mp missing t member bracket
  · exact (brackets cut listed' g field' clear').mpr without
  · rw [reports]
    exact List.mem_map_of_mem isOpen

/-- A parenthesis that closes a slur ends the search for the bracket, though the bracket follows. -/
theorem not_fields_beyond_slur :
    ¬∀ text, ∀ leaf ∈ (ofTokens (scan text)).1.leaves, ∀ f ∈ leaf.item.field?,
      (f.right = none ↔ ∀ t ∈ f.ahead (scan text), t.kind ≠ .rightBracket) := by
  intro every
  have broken : ∃ leaf ∈ (ofTokens (scan "X:1\nK:C\n([r:a)b]c)\n".toList)).1.leaves,
      ∃ f ∈ leaf.item.field?, f.right = none ∧
        ∃ t ∈ f.ahead (scan "X:1\nK:C\n([r:a)b]c)\n".toList), t.kind = .rightBracket := by
    decide +kernel
  obtain ⟨leaf, listed, f, field, missing, t, member, bracket⟩ := broken
  exact (every _ leaf listed f field).mp missing t member bracket

end Tree
end Tunebook
