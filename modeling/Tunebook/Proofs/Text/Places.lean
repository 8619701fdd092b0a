import Tunebook.Proofs.Rhythm.Length
import Tunebook.Proofs.Scan.Lines
import Tunebook.Proofs.Text.Ordering
import Tunebook.Text.Place

/-! Places in characters against byte offsets. The column of a place is counted in UTF-16 units and
counted back in bytes, and comes out behind as many characters as were asked for, or where the content
of the line ends. -/
namespace Tunebook

namespace Position

theorem le_of_not_lt {p q : Position} (h : ¬p < q) : q ≤ p := by
  rcases Nat.lt_trichotomy q.line p.line with above | same | below
  · exact .inl above
  · refine .inr ⟨same, Nat.le_of_not_lt fun before => h ?_⟩
    exact .inr ⟨same.symm, before⟩
  · exact absurd (.inl below) h

/-- Between a position and the next column there is none. -/
theorem lt_iff_next_le {p q : Position} : p < q ↔ (⟨p.line, p.column + 1⟩ : Position) ≤ q := by
  rfl

end Position

namespace Text

/-- The end of a line, as people count its characters, is part of its line break. -/
theorem lineContent_isPrefix_dropLineEnd (line : Text) : lineContent line <+: dropLineEnd line := by
  fun_induction dropLineEnd line with
  | case1 | case2 | case3 => exact List.prefix_rfl
  | case4 c cs _ _ ih =>
    rw [lineContent, dropTrailing]
    split
    next none =>
      split
      · exact List.nil_prefix
      · exact List.cons_prefix_cons.mpr ⟨rfl, List.nil_prefix⟩
    next kept => exact List.cons_prefix_cons.mpr ⟨rfl, ih⟩

theorem dropLineEnd_append (plain : ∀ c ∈ content.getLast?, isLineBreak c = false)
    (ends : dropLineEnd breaks = []) : dropLineEnd (content ++ breaks) = content := by
  induction content with
  | nil => exact ends
  | cons c cs ih =>
    have more : ∀ d ∈ cs.getLast?, isLineBreak d = false := by
      intro d last
      refine plain d ?_
      rw [List.getLast?_cons, Option.mem_def.mp last]
      rfl
    have rest := ih more
    -- an end of line has no character in front that is none
    cases cs with
    | nil =>
      have own := plain c rfl
      rw [List.singleton_append, dropLineEnd, show dropLineEnd breaks = [] from ends]
      · rintro rfl
        cases own
      · rintro rfl
        cases own
    | cons d ds =>
      rw [List.cons_append, dropLineEnd, rest]
      · exact fun _ none => List.cons_ne_nil _ _ none
      · intro _ feed
        obtain ⟨rfl, none⟩ := List.cons.inj feed
        obtain ⟨rfl, _⟩ := List.append_eq_nil_iff.mp none
        cases plain '\n' rfl

/-- Where at most one carriage return stands before the line feed, and none at the end, nothing but
the content is left. -/
theorem dropLineEnd_eq {line : Text} (feed : '\n' ∉ line.dropLast)
    (plain : ∀ ends ∈ Scan.strayReturns, ¬ends <:+ line) : dropLineEnd line = lineContent line := by
  obtain ⟨breaks, split, dropped⟩ := exists_dropTrailing_append isLineBreak line
  have content : ∀ c ∈ (lineContent line).getLast?, isLineBreak c = false :=
    fun c last => not_of_mem_getLast?_dropTrailing last
  suffices ends : dropLineEnd breaks = [] by
    conv_lhs => rw [split]
    exact dropLineEnd_append content ends
  have return_of (c : Char) (member : c ∈ breaks) (other : c ≠ '\n') : c = '\r' := by
    have own := dropped c member
    simpa [isLineBreak, other] using own
  rcases List.eq_nil_or_concat' breaks with rfl | ⟨returns, c, rfl⟩
  · rfl
  · rw [split, ← List.append_assoc, List.dropLast_concat, List.mem_append, not_or] at feed
    by_cases ends : c = '\n'
    · subst ends
      rcases List.eq_nil_or_concat' returns with rfl | ⟨more, d, rfl⟩
      · rfl
      · obtain rfl := return_of d (by simp) (ne_of_mem_of_not_mem (by simp) feed.2)
        rcases List.eq_nil_or_concat' more with rfl | ⟨others, e, rfl⟩
        · rfl
        · obtain rfl := return_of e (by simp) (ne_of_mem_of_not_mem (by simp) feed.2)
          refine absurd ?_ (plain ['\r', '\r', '\n'] (by decide))
          rw [split]
          exact ⟨lineContent line ++ others, by simp [lineContent]⟩
    · obtain rfl := return_of c (by simp) ends
      refine absurd ?_ (plain ['\r'] (by decide))
      rw [split]
      exact ⟨lineContent line ++ returns, by simp [lineContent]⟩

theorem bytesToColumn_take {content line : Text} (front : content <+: line) (n : Nat) :
    bytesToColumn content (units (line.take n)) = bytes (content.take n) := by
  obtain ⟨ending, rfl⟩ := front
  rcases Nat.le_total n content.length with within | past
  · have column := bytesToColumn_append (content.take n) (content.drop n)
    rw [List.take_append_drop] at column
    rw [List.take_append_of_le_length within, column]
  · rw [List.take_of_length_le past, List.take_append, List.take_of_length_le past]
    refine bytesToColumn_past ?_
    rw [units_append]
    exact Nat.le_add_right _ _

section Narrow
variable {c : Char} (plain : isLineBreak c = false) (s u : Text)
include plain

theorem byteAt_around :
    (s ++ c :: u).byteAt ((s ++ c :: u).positionAt s.bytes) = s.bytes ∧
      (s ++ c :: u).byteAt ((s ++ c :: u).positionAt (s ++ [c]).bytes) = (s ++ [c]).bytes := by
  simp only [isLineBreak, Bool.or_eq_false_iff, decide_eq_false_iff_not] at plain
  constructor
  · refine returns_of_not_inBreak ?_ fun _ => List.cons_ne_nil c u
    rintro ⟨_, _, every⟩
    exact plain.2 (every c (by simp [plain.1]))
  · rw [List.append_cons]
    exact returns_bytes _ u (by simpa using plain.2)

variable (narrow : charUnits c = 1)
include narrow

/-- Where a character of one code unit starts and where it ends. -/
theorem positionAt_narrow : (s ++ c :: u).positionAt (s ++ [c]).bytes =
    ⟨((s ++ c :: u).positionAt s.bytes).line, ((s ++ c :: u).positionAt s.bytes).column + 1⟩ := by
  have feed : c ≠ '\n' := by
    rintro rfl
    cases plain
  rw [positionAt_bytes, List.append_cons, positionAt_bytes, Position.after_append,
    Position.after_cons, Position.next, if_neg feed, narrow, Position.after_nil]

/-- A position is behind the start of the character if its offset is. -/
theorem positionAt_lt_iff_lt_byteAt {q : Position} :
    (s ++ c :: u).positionAt s.bytes < q ↔ s.bytes < (s ++ c :: u).byteAt q := by
  obtain ⟨start, stop⟩ := byteAt_around plain s u
  constructor
  · intro past
    rw [Position.lt_iff_next_le, ← positionAt_narrow plain s u narrow] at past
    calc s.bytes < (s ++ [c]).bytes := by
          rw [bytes_append]
          exact Nat.lt_add_of_pos_right c.utf8Size_pos
      _ ≤ (s ++ c :: u).byteAt q := stop ▸ byteAt_mono _ past
  · intro past
    by_contra before
    exact absurd (start ▸ byteAt_mono _ (Position.le_of_not_lt before)) (Nat.not_le_of_lt past)

theorem lt_positionAt_iff_byteAt_lt {q : Position} :
    q < (s ++ c :: u).positionAt (s ++ [c]).bytes ↔ (s ++ c :: u).byteAt q < (s ++ [c]).bytes := by
  obtain ⟨start, stop⟩ := byteAt_around plain s u
  constructor
  · intro before
    have upTo : q ≤ (s ++ c :: u).positionAt s.bytes := by
      refine Position.le_of_not_lt fun past => Position.not_le_of_lt before ?_
      rwa [Position.lt_iff_next_le, ← positionAt_narrow plain s u narrow] at past
    calc (s ++ c :: u).byteAt q ≤ s.bytes := start ▸ byteAt_mono _ upTo
      _ < (s ++ [c]).bytes := by
        rw [bytes_append]
        exact Nat.lt_add_of_pos_right c.utf8Size_pos
  · intro before
    by_contra past
    exact absurd (stop ▸ byteAt_mono _ (Position.le_of_not_lt past)) (Nat.not_le_of_lt before)

end Narrow

end Text

namespace Place
open Text

/-- The byte offset of a place: behind so many characters of its line or, where its content has
fewer, behind the content. Past the last line it is the end of the text. -/
def offset (p : Place) (t : Text) : Nat :=
  match t.lines.drop p.line with
  | [] => t.bytes
  | line :: _ =>
    bytes (t.lines.take p.line).flatten + bytes ((lineContent line).take p.characters)

/-- The position of a place in an editor, which shows of a line its content only. -/
def inEditor (p : Place) (t : Text) : Position :=
  let line := (t.lines.drop p.line).headD []
  ⟨p.line, units ((lineContent line).take p.characters)⟩

theorem byteAt_units (p : Place) (t : Text) {shown : Text → Text}
    (front : ∀ line, lineContent line <+: shown line) :
    t.byteAt ⟨p.line, units ((shown ((t.lines.drop p.line).headD [])).take p.characters)⟩ =
      p.offset t := by
  unfold byteAt offset
  cases t.lines.drop p.line with
  | nil => rfl
  | cons line others => exact congrArg _ (bytesToColumn_take (front line) p.characters)

theorem byteAt_position (p : Place) (t : Text) : t.byteAt (p.position t) = p.offset t :=
  p.byteAt_units t lineContent_isPrefix_dropLineEnd

theorem byteAt_inEditor (p : Place) (t : Text) : t.byteAt (p.inEditor t) = p.offset t :=
  p.byteAt_units t fun _ => List.prefix_rfl

/-- Where no carriage return stands alone, a place is where an editor has it. -/
theorem position_eq_inEditor (p : Place) {t : Text}
    (plain : ∀ line ∈ t.lines, ∀ ends ∈ Scan.strayReturns, ¬ends <:+ line) :
    p.position t = p.inEditor t := by
  unfold position inEditor
  cases found : t.lines.drop p.line with
  | nil => rfl
  | cons line others =>
    have listed : line ∈ t.lines := List.mem_of_mem_drop (found ▸ List.mem_cons_self)
    dsimp only [List.headD_cons]
    rw [dropLineEnd_eq (feed_of_mem_lines listed) (plain line listed)]

/-! Places as they are written. -/

/-- A place in digits, counted from one. -/
def written (p : Place) : Text :=
  Nat.toDigits 10 (p.line + 1) ++ ':' :: Nat.toDigits 10 (p.characters + 1)

/-- Both numbers of the place, counted from one, are words of 64 bits. -/
def IsCountable (p : Place) : Prop :=
  p.line + 1 < Number.word64 ∧ p.characters + 1 < Number.word64

theorem isDigit_or_colon_of_mem_written {p : Place} (h : c ∈ p.written) :
    c.isDigit = true ∨ c = ':' := by
  have digit (n : Nat) (member : c ∈ Nat.toDigits 10 n) : c.isDigit = true :=
    Nat.isDigit_of_mem_toDigits (by decide) (by decide) member
  rcases List.mem_append.mp h with first | second
  · exact .inl (digit _ first)
  · rcases List.mem_cons.mp second with rfl | second
    · exact .inr rfl
    · exact .inl (digit _ second)

theorem isBlank_eq_false_of_mem_written {p : Place} (h : c ∈ p.written) :
    Text.isBlank c = false := by
  have bounds : 48 ≤ c.toNat ∧ c.toNat ≤ 58 := by
    rcases isDigit_or_colon_of_mem_written h with digit | rfl
    · simp only [Char.isDigit, Bool.and_eq_true, decide_eq_true_eq, ge_iff_le,
        UInt32.le_iff_toNat_le] at digit
      change 48 ≤ c.toNat ∧ c.toNat ≤ 57 at digit
      exact ⟨digit.1, by omega⟩
    · decide
  have space : c ≠ ' ' := by
    rintro rfl
    exact absurd bounds.1 (by decide)
  have past : ¬c ≤ '\r' := by
    intro before
    have below : c.toNat ≤ 13 := UInt32.le_iff_toNat_le.mp before
    omega
  simp only [isBlank, past, decide_false, Bool.and_false, space, Bool.false_or,
    Bool.or_eq_false_iff, decide_eq_false_iff_not, Bool.and_eq_false_iff]
  omega

theorem readOrdinal?_toDigits (h : n + 1 < Number.word64) :
    readOrdinal? (Nat.toDigits 10 (n + 1)) = some n := by
  rw [readOrdinal?, Number.readBelow?_toDigits h]

theorem trim_eq {t : Text} (plain : ∀ c ∈ t, isBlank c = false) : t.trim = t := by
  have front : t.dropWhile isBlank = t := by
    cases t with
    | nil => rfl
    | cons c cs => rw [List.dropWhile_cons_of_neg (by simp [plain c])]
  have back := dropTrailing_append (fun c last => plain c (List.mem_of_getLast? last)) []
  rw [List.append_nil] at back
  rw [trim, front, back]
  exact List.append_nil t

theorem not_mem_toDigits {c : Char} (h : c.isDigit = false) (n : Nat) : c ∉ Nat.toDigits 10 n := by
  intro member
  rw [Nat.isDigit_of_mem_toDigits (by decide) (by decide) member] at h
  cases h

theorem read?_written {p : Place} (h : p.IsCountable) : read? p.written = some p := by
  have colon : ':' ∉ Nat.toDigits 10 (p.line + 1) := not_mem_toDigits rfl _
  have cut := splitAt?_append ':' colon (Nat.toDigits 10 (p.characters + 1))
  rw [read?, trim_eq fun c => isBlank_eq_false_of_mem_written, written, cut]
  simp [readOrdinal?_toDigits h.1, readOrdinal?_toDigits h.2]

/-- Two places in order, counted from one and with a dash between them, are read as those places. -/
theorem readTwo?_written {a b : Place} (ha : a.IsCountable) (hb : b.IsCountable) (order : ¬b < a) :
    readTwo? (a.written ++ '-' :: b.written) = some (a, b) := by
  have dash : '-' ∉ a.written := by
    intro member
    rcases isDigit_or_colon_of_mem_written member with digit | colon
    · cases digit
    · cases colon
  rw [readTwo?, splitAt?_append '-' dash]
  simp [read?_written ha, read?_written hb, order]

end Place
end Tunebook
