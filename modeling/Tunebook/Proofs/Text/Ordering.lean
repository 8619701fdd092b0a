import Mathlib.Order.MinMax
import Tunebook.Proofs.Text.Returning

/-! Order under the two maps between offsets and positions. Later positions have later offsets, or
the same one where a column is clamped; an offset comes back from its position unless it is behind
the content of its line, and then the way back ends where that content does. -/
namespace Tunebook

theorem dropTrailing_congr {p q : α → Bool} (h : ∀ a ∈ as, p a = q a) :
    dropTrailing p as = dropTrailing q as := by
  induction as with
  | nil => rfl
  | cons a as ih =>
    rw [List.forall_mem_cons] at h
    rw [dropTrailing, dropTrailing, ih h.2, h.1]

theorem dropTrailing_concat {p : α → Bool} (as : List α) (h : p a = true) :
    dropTrailing p (as ++ [a]) = dropTrailing p as := by
  induction as with
  | nil => simp [dropTrailing, h]
  | cons b as ih => rw [List.cons_append, dropTrailing, dropTrailing, ih]

namespace Text

/-- Where the carriage returns and the line feed start that end a line: the line in which the first
text stops and the second goes on. -/
def breakStart (s u : Text) : Nat :=
  bytes (dropTrailing (· = '\r') (s ++ u.takeWhile (· ≠ '\n')))

theorem lineContent_eq {content : Text} (absent : '\n' ∉ content) :
    lineContent content = dropTrailing (· = '\r') content := by
  refine dropTrailing_congr fun c member => ?_
  have feed : c ≠ '\n' := ne_of_mem_of_not_mem member absent
  simp [isLineBreak, feed]

theorem takeWhile_line {content rest : Text} (absent : '\n' ∉ content)
    (ends : ∀ c ∈ rest.head?, c = '\n') : (content ++ rest).takeWhile (· ≠ '\n') = content := by
  have plain : ∀ c ∈ content, decide (c ≠ '\n') = true :=
    fun c member => decide_eq_true (ne_of_mem_of_not_mem member absent)
  rw [List.takeWhile_append_of_pos plain]
  cases rest with
  | nil => simp
  | cons d rest => rw [List.takeWhile_cons_of_neg (by simp [ends d rfl]), List.append_nil]

/-- A stretch without a line feed is the start of a line, the content of which ends before the
carriage returns in front of the next line feed. -/
theorem lines_append_takeWhile {s : Text} (absent : '\n' ∉ s) (u : Text) (nonempty : s ++ u ≠ []) :
    ∃ line others, (s ++ u).lines = line :: others ∧
      lineContent line = dropTrailing (· = '\r') (s ++ u.takeWhile (· ≠ '\n')) := by
  induction u using line_induct with
  | last content none =>
    have inside : '\n' ∉ s ++ content := by simp [absent, none]
    have whole : (content ++ []).takeWhile (· ≠ '\n') = content := takeWhile_line none (by simp)
    rw [List.append_nil] at whole
    exact ⟨_, _, lines_content inside nonempty, by rw [lineContent_eq inside, whole]⟩
  | more content rest none _ =>
    have inside : '\n' ∉ s ++ content := by simp [absent, none]
    rw [← List.append_assoc, lines_cons inside, takeWhile_line none (by simp)]
    refine ⟨_, _, rfl, ?_⟩
    rw [lineContent, dropTrailing_concat _ rfl, ← lineContent, lineContent_eq inside]

theorem bytesToColumn_mono (t : Text) (h : m ≤ n) : bytesToColumn t m ≤ bytesToColumn t n := by
  induction t generalizing m n with
  | nil => exact Nat.le_refl 0
  | cons c cs ih =>
    rw [bytesToColumn, bytesToColumn]
    split
    · exact Nat.zero_le _
    · rw [if_neg (by omega)]
      exact Nat.add_le_add_left (ih (by omega)) _

theorem bytesToColumn_le (t : Text) (column : Nat) : bytesToColumn t column ≤ t.bytes := by
  obtain ⟨s, u, rfl, size⟩ := bytesToColumn_eq t column
  rw [size, bytes_append]
  exact Nat.le_add_right _ _

theorem bytesToColumn_past {t : Text} (h : t.units ≤ column) : bytesToColumn t column = t.bytes :=
  Nat.le_antisymm (bytesToColumn_le t column)
    (bytesToColumn_units t ▸ bytesToColumn_mono t h)

/-- The column behind a stretch, in a content that may end within the stretch. -/
theorem bytesToColumn_isPrefix {content s u : Text} (front : content <+: s ++ u) :
    bytesToColumn content s.units = min s.bytes content.bytes := by
  rcases List.prefix_or_prefix_of_prefix front (List.prefix_append s u) with short | long
  · obtain ⟨more, rfl⟩ := short
    rw [bytesToColumn_past (by rw [units_append]; exact Nat.le_add_right _ _), bytes_append]
    exact (Nat.min_eq_right (Nat.le_add_right _ _)).symm
  · obtain ⟨more, rfl⟩ := long
    rw [bytesToColumn_append, bytes_append]
    exact (Nat.min_eq_left (Nat.le_add_right _ _)).symm

/-- The offset at which a line starts; past the text it is the end. -/
def startOf (t : Text) (line : Nat) : Nat :=
  bytes (t.lines.take line).flatten

theorem startOf_mono (t : Text) (h : m ≤ n) : t.startOf m ≤ t.startOf n := by
  obtain ⟨k, rfl⟩ := Nat.exists_eq_add_of_le h
  rw [startOf, startOf, List.take_add, List.flatten_append, bytes_append]
  exact Nat.le_add_right _ _

theorem byteAt_mem_line (t : Text) (p : Position) :
    t.startOf p.line ≤ t.byteAt p ∧ t.byteAt p ≤ t.startOf (p.line + 1) := by
  unfold byteAt
  split
  next past =>
    have whole : t.lines.take p.line = t.lines :=
      List.take_of_length_le (List.drop_eq_nil_iff.mp past)
    have ends : t.startOf p.line = t.bytes := by rw [startOf, whole, flatten_lines]
    exact ⟨Nat.le_of_eq ends, ends ▸ t.startOf_mono (Nat.le_succ _)⟩
  next line others found =>
    refine ⟨Nat.le_add_right _ _, ?_⟩
    obtain ⟨ending, split⟩ : lineContent line <+: line := dropTrailing_isPrefix isLineBreak line
    have content : bytesToColumn (lineContent line) p.column ≤ line.bytes := by
      refine Nat.le_trans (bytesToColumn_le _ _) ?_
      rw [← congrArg bytes split, bytes_append]
      exact Nat.le_add_right _ _
    have next : t.startOf (p.line + 1) = t.startOf p.line + line.bytes := by
      rw [startOf, List.take_add, found, List.flatten_append, bytes_append]
      simp [startOf]
    rw [next]
    exact Nat.add_le_add_left content _

theorem byteAt_mono (t : Text) {p q : Position} (h : p ≤ q) : t.byteAt p ≤ t.byteAt q := by
  rcases h with above | ⟨same, before⟩
  · calc t.byteAt p ≤ t.startOf (p.line + 1) := (t.byteAt_mem_line p).2
      _ ≤ t.startOf q.line := t.startOf_mono above
      _ ≤ t.byteAt q := (t.byteAt_mem_line q).1
  · unfold byteAt
    rw [same]
    split
    · exact Nat.le_refl _
    · exact Nat.add_le_add_left (bytesToColumn_mono _ before) _

theorem byteAt_positionAt (s u : Text) :
    (s ++ u).byteAt ((s ++ u).positionAt s.bytes) = min s.bytes (breakStart s u) := by
  obtain ⟨front, tail, rfl, whole, absent⟩ := s.exists_lines_tail
  have kept : ∀ c ∈ front.getLast?, decide (c = '\r') = false := by
    rcases whole with rfl | ends
    · simp
    · rw [ends]
      simp
  have start : breakStart (front ++ tail) u = front.bytes +
      bytes (dropTrailing (· = '\r') (tail ++ u.takeWhile (· ≠ '\n'))) := by
    rw [breakStart, List.append_assoc, dropTrailing_append kept, bytes_append]
  by_cases nonempty : tail ++ u = []
  · obtain ⟨rfl, rfl⟩ := List.append_eq_nil_iff.mp nonempty
    have plain : (front ++ []).getLast? ≠ some '\r' := by
      rw [List.append_nil]
      intro last
      simpa using kept _ last
    rw [returns_bytes (front ++ []) [] plain, start]
    simp [dropTrailing]
  · obtain ⟨line, others, cut, content⟩ := lines_append_takeWhile absent u nonempty
    have place : (front ++ tail ++ u).positionAt (front ++ tail).bytes =
        ⟨front.lines.length, tail.units⟩ := by
      rw [positionAt_bytes, Position.after_append, Position.after_lines 0 whole,
        Position.after_line _ absent, Nat.zero_add, Nat.zero_add]
    rw [place, List.append_assoc, byteAt_lines whole cut, content,
      bytesToColumn_isPrefix (dropTrailing_isPrefix _ _), start, bytes_append,
      Nat.add_min_add_left]

/-- The two maps keep order, the first one strictly. What the second one returns falls between
characters of the text; it undoes the first at every such offset that is not behind the start of the
line break at the end of its line, and at no other. -/
theorem positionAt_byteAt_ordered (t : Text) :
    (∀ m n, t.IsBoundary m → t.IsBoundary n → (t.positionAt m < t.positionAt n ↔ m < n)) ∧
    (∀ p q : Position, p ≤ q → t.byteAt p ≤ t.byteAt q) ∧
    (∀ p, t.IsBoundary (t.byteAt p) ∧ t.byteAt p ≤ t.bytes) ∧
    ∀ s u, t = s ++ u → (t.byteAt (t.positionAt s.bytes) = s.bytes ↔ s.bytes ≤ breakStart s u) := by
  refine ⟨fun m n => positionAt_lt_iff, fun p q => t.byteAt_mono, fun p => ?_, ?_⟩
  · have cut := t.isBoundary_byteAt p
    exact ⟨cut, cut.le⟩
  · rintro s u rfl
    rw [byteAt_positionAt, min_eq_left_iff]

/-- Between the characters of a surrogate pair the offset is that behind the pair. -/
example : Text.byteAt ['𝄞', 'A'] ⟨0, 1⟩ = 4 ∧ Text.byteAt ['A', '\r', '\n', 'B'] ⟨0, 9⟩ = 1 := by
  decide

end Text
end Tunebook
