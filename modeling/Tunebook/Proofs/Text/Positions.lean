import Tunebook.Proofs.Scan.Placement
import Tunebook.Proofs.Text.Slicing

/-! Positions and byte offsets. The walk that finds a position agrees with a table of line starts,
and the offset of a position falls between characters. -/
namespace Tunebook

namespace Position

theorem le_trans {p q r : Position} (first : p ≤ q) (second : q ≤ r) : p ≤ r := by
  rcases first with above | ⟨same, before⟩ <;> rcases second with above' | ⟨same', before'⟩
  · exact .inl (Nat.lt_trans above above')
  · exact .inl (same' ▸ above)
  · exact .inl (same ▸ above')
  · exact .inr ⟨same.trans same', Nat.le_trans before before'⟩

theorem le_of_lt {p q : Position} (h : p < q) : p ≤ q := by
  rcases h with above | ⟨same, before⟩
  · exact .inl above
  · exact .inr ⟨same, Nat.le_of_lt before⟩

theorem not_le_of_lt {p q : Position} (h : p < q) : ¬q ≤ p := by
  rcases h with above | ⟨same, before⟩ <;> rintro (above' | ⟨same', before'⟩) <;> omega

theorem lt_of_lt_of_le {p q r : Position} (first : p < q) (second : q ≤ r) : p < r := by
  rcases first with above | ⟨same, before⟩ <;> rcases second with above' | ⟨same', before'⟩
  · exact .inl (Nat.lt_trans above above')
  · exact .inl (same' ▸ above)
  · exact .inl (same ▸ above')
  · exact .inr ⟨same.trans same', Nat.lt_of_lt_of_le before before'⟩

theorem lt_next (p : Position) (c : Char) : p < p.next c := by
  unfold next
  split
  · exact .inl (Nat.lt_succ_self p.line)
  · exact .inr ⟨rfl, Nat.lt_add_of_pos_right (Text.charUnits_pos c)⟩

/-- Reading never leads back. -/
theorem le_after (p : Position) (t : Text) : p ≤ p.after t := by
  induction t generalizing p with
  | nil => exact .inr ⟨rfl, Nat.le_refl _⟩
  | cons c cs ih => exact le_trans (le_of_lt (p.lt_next c)) (ih _)

theorem lt_after (p : Position) {t : Text} (nonempty : t ≠ []) : p < p.after t := by
  obtain ⟨c, cs, rfl⟩ := List.exists_cons_of_ne_nil nonempty
  exact lt_of_lt_of_le (p.lt_next c) (le_after _ cs)

/-- Within a line only the column moves. -/
theorem after_line (p : Position) {t : Text} (h : '\n' ∉ t) :
    p.after t = ⟨p.line, p.column + t.units⟩ := by
  induction t generalizing p with
  | nil => rfl
  | cons c cs ih =>
    rw [List.mem_cons, not_or] at h
    rw [after_cons, ih _ h.2, next, if_neg (Ne.symm h.1), Text.units_cons, Nat.add_assoc]

/-- After a line feed the column starts again. -/
theorem after_feed (p : Position) (front : Text) {tail : Text} (h : '\n' ∉ tail) :
    p.after (front ++ '\n' :: tail) = ⟨p.line + front.count '\n' + 1, tail.units⟩ := by
  have feeds : ∀ p : Position, (p.after front).line = p.line + front.count '\n' := by
    induction front with
    | nil => exact fun _ => rfl
    | cons c cs ih =>
      intro p
      rw [after_cons, ih, next, List.count_cons]
      split <;> simp_all [Nat.add_right_comm, Nat.add_assoc]
  rw [after_append, after_cons, after_line _ h, next, if_pos rfl, feeds, Nat.zero_add]

end Position

namespace Text

/-- A text is whole lines and then a line without a line feed. -/
theorem exists_lines_tail (t : Text) :
    ∃ front tail, t = front ++ tail ∧ (front = [] ∨ front.getLast? = some '\n') ∧ '\n' ∉ tail := by
  induction t using line_induct with
  | last content absent => exact ⟨[], content, rfl, .inl rfl, absent⟩
  | more content rest absent ih =>
    obtain ⟨front, tail, rfl, whole, last⟩ := ih
    refine ⟨content ++ '\n' :: front, tail, by simp, .inr ?_, last⟩
    rcases whole with rfl | ends
    · simp
    · rw [List.getLast?_append, List.getLast?_cons, ends]
      rfl

theorem walk_before (p : Position) (s u : Text) (n : Nat) :
    walk p (s ++ u) (s.bytes + n) = walk (p.after s) u n := by
  induction s generalizing p with
  | nil => simp
  | cons c cs ih =>
    have positive := c.utf8Size_pos
    have started : ¬c.utf8Size + bytes cs + n = 0 := by omega
    have reached : ¬c.utf8Size + bytes cs + n < c.utf8Size := by omega
    have rest : c.utf8Size + bytes cs + n - c.utf8Size = bytes cs + n := by omega
    rw [List.cons_append, bytes_cons, walk, if_neg started, if_neg reached, rest, ih]
    rfl

/-- The position between two texts is where reading the first leads. -/
theorem positionAt_bytes (s u : Text) :
    (s ++ u).positionAt s.bytes = (⟨0, 0⟩ : Position).after s := by
  have walked := walk_before ⟨0, 0⟩ s u 0
  rw [Nat.add_zero] at walked
  rw [positionAt, walked]
  cases u <;> rfl

theorem positionAt_past (t : Text) (n : Nat) :
    t.positionAt (t.bytes + n) = (⟨0, 0⟩ : Position).after t := by
  have walked := walk_before ⟨0, 0⟩ t [] n
  rw [List.append_nil] at walked
  exact walked

theorem positionAt_inside (s u : Text) (positive : 0 < n) (h : n < c.utf8Size) :
    (s ++ c :: u).positionAt (s.bytes + n) = ⟨((⟨0, 0⟩ : Position).after s).line, 0⟩ := by
  rw [positionAt, walk_before, walk, if_neg (by omega), if_pos h]

/-- The offsets just past the line feeds. -/
def feeds : Nat → Text → List Nat
  | _, [] => []
  | offset, c :: cs =>
    if c = '\n' then (offset + c.utf8Size) :: feeds (offset + c.utf8Size) cs
    else feeds (offset + c.utf8Size) cs

/-- The offsets at which the lines start. -/
def lineStarts (t : Text) : List Nat :=
  0 :: feeds 0 t

/-- Position of a byte offset by the table of line starts: the line is that of the last start not
past the offset, and the column counts from there. Inside a character the column is 0. -/
def locate (t : Text) (offset : Nat) : Position :=
  let offset := min offset t.bytes
  let starts := t.lineStarts.takeWhile (· ≤ offset)
  ⟨starts.length - 1, ((t.slice? ⟨starts.getLast?.getD 0, offset⟩).map units).getD 0⟩

theorem feeds_append (offset : Nat) (s t : Text) :
    feeds offset (s ++ t) = feeds offset s ++ feeds (offset + s.bytes) t := by
  induction s generalizing offset with
  | nil => rfl
  | cons c cs ih =>
    simp only [List.cons_append, feeds, ih, bytes_cons, Nat.add_assoc]
    split <;> rfl

theorem feeds_line (offset : Nat) {t : Text} (h : '\n' ∉ t) : feeds offset t = [] := by
  induction t generalizing offset with
  | nil => rfl
  | cons c cs ih =>
    rw [List.mem_cons, not_or] at h
    rw [feeds, if_neg (Ne.symm h.1), ih _ h.2]

theorem of_mem_feeds (h : n ∈ feeds offset t) : offset < n ∧ n ≤ offset + t.bytes := by
  induction t generalizing offset with
  | nil => cases h
  | cons c cs ih =>
    have positive := c.utf8Size_pos
    rw [bytes_cons]
    rw [feeds] at h
    split at h
    · rcases List.mem_cons.mp h with rfl | h
      · omega
      · have := ih h
        omega
    · have := ih h
      omega

/-- Whole lines end where the next line starts. -/
theorem lineStarts_lines {t : Text} (h : t = [] ∨ t.getLast? = some '\n') :
    t.lineStarts.length = t.lines.length + 1 ∧ t.lineStarts.getLast? = some t.bytes := by
  suffices general : ∀ (t : Text) (offset : Nat), t.getLast? = some '\n' →
      (feeds offset t).length = t.lines.length ∧
        (feeds offset t).getLast? = some (offset + t.bytes) by
    rcases h with rfl | h
    · exact ⟨rfl, rfl⟩
    · obtain ⟨length, last⟩ := general t 0 h
      rw [lineStarts, List.length_cons, length, List.getLast?_cons, last, Nat.zero_add]
      exact ⟨rfl, rfl⟩
  intro t
  induction t with
  | nil => simp
  | cons c cs ih =>
    intro offset h
    cases cs with
    | nil =>
      obtain rfl : c = '\n' := by simpa using h
      simp [feeds, lines]
    | cons d cs =>
      rw [List.getLast?_cons_cons] at h
      obtain ⟨length, last⟩ := ih (offset + c.utf8Size) h
      rw [feeds, length_lines_cons c (List.cons_ne_nil d cs), bytes_cons c]
      split
      · rw [List.length_cons, length, List.getLast?_cons, last]
        exact ⟨Nat.add_comm _ _, by simp [Nat.add_assoc]⟩
      · exact ⟨by omega, by rw [last, Nat.add_assoc]⟩

theorem lineStarts_append (s t : Text) : lineStarts (s ++ t) = lineStarts s ++ feeds s.bytes t := by
  rw [lineStarts, feeds_append, Nat.zero_add]
  rfl

theorem takeWhile_lineStarts (s t : Text) (reached : s.bytes ≤ offset)
    (h : ∀ n ∈ feeds s.bytes t, offset < n) :
    (lineStarts (s ++ t)).takeWhile (· ≤ offset) = lineStarts s := by
  have own : ∀ n ∈ lineStarts s, (decide (n ≤ offset)) = true := by
    intro n member
    rcases List.mem_cons.mp member with rfl | member
    · simp
    · have := of_mem_feeds member
      exact decide_eq_true (by omega)
  have others : (feeds s.bytes t).takeWhile (· ≤ offset) = [] := by
    cases found : feeds s.bytes t with
    | nil => rfl
    | cons n ns =>
      have := h n (found ▸ List.mem_cons_self)
      rw [List.takeWhile_cons_of_neg (by simpa using this)]
  rw [lineStarts_append, List.takeWhile_append_of_pos own, others, List.append_nil]

/-- The table of line starts and reading from the start agree. -/
theorem locate_bytes (s u : Text) : (s ++ u).locate s.bytes = (⟨0, 0⟩ : Position).after s := by
  obtain ⟨front, tail, rfl, whole, last⟩ := s.exists_lines_tail
  obtain ⟨length, ends⟩ := lineStarts_lines whole
  have table : lineStarts (front ++ tail) = lineStarts front := by
    rw [lineStarts_append, feeds_line _ last, List.append_nil]
  have between := slice?_middle front tail u
  rw [← List.append_assoc] at between
  have starts := takeWhile_lineStarts (front ++ tail) u (Nat.le_refl _)
    fun n member => (of_mem_feeds member).1
  have inside : min (front ++ tail).bytes (front ++ tail ++ u).bytes = (front ++ tail).bytes := by
    rw [bytes_append (front ++ tail)]
    omega
  rw [locate, inside, starts, table, length, ends, Option.getD_some, bytes_append, between,
    Position.after_append, Position.after_lines 0 whole, Position.after_line _ last]
  simp

theorem locate_past (t : Text) (n : Nat) :
    t.locate (t.bytes + n) = (⟨0, 0⟩ : Position).after t := by
  have whole := locate_bytes t []
  rw [List.append_nil] at whole
  rw [← whole, locate, locate, Nat.min_self, Nat.min_eq_right (Nat.le_add_right _ _)]

theorem locate_inside (s u : Text) (positive : 0 < n) (h : n < c.utf8Size) :
    (s ++ c :: u).locate (s.bytes + n) = ⟨((⟨0, 0⟩ : Position).after s).line, 0⟩ := by
  have wide : c ≠ '\n' := by
    rintro rfl
    have narrow : '\n'.utf8Size = 1 := by decide
    omega
  have line := congrArg Position.line (locate_bytes s (c :: u))
  have clamped : min s.bytes (s ++ c :: u).bytes = s.bytes := by
    rw [bytes_append]
    omega
  have inside : min (s.bytes + n) (s ++ c :: u).bytes = s.bytes + n := by
    rw [bytes_append, bytes_cons]
    omega
  have later : ∀ m ∈ feeds s.bytes (c :: u), s.bytes + n < m := by
    intro m member
    rw [feeds, if_neg wide] at member
    have := of_mem_feeds member
    omega
  rw [locate, clamped] at line
  dsimp only at line
  rw [takeWhile_lineStarts s _ (Nat.le_refl _) fun m member => (of_mem_feeds member).1] at line
  rw [locate, inside, takeWhile_lineStarts s _ (Nat.le_add_right _ _) later, line, slice?,
    cutAt?_inside s u positive h]
  rfl

/-- A byte offset is past the text, between two characters of it or inside one. -/
theorem offset_cases {motive : Text → Nat → Prop} (past : ∀ t n, motive t (bytes t + n))
    (between : ∀ s u, motive (s ++ u) (bytes s))
    (inside : ∀ s c u n, 0 < n → n < c.utf8Size → motive (s ++ c :: u) (bytes s + n))
    (t : Text) (offset : Nat) : motive t offset := by
  suffices general : ∀ s n, motive (s ++ t) (bytes s + n) by
    simpa using general [] offset
  induction t with
  | nil =>
    intro s n
    rw [List.append_nil]
    exact past s n
  | cons c cs ih =>
    intro s n
    rcases Nat.eq_zero_or_pos n with rfl | positive
    · exact between s (c :: cs)
    · rcases Nat.lt_or_ge n c.utf8Size with within | reached
      · exact inside s c cs n positive within
      · have rest := ih (s ++ [c]) (n - c.utf8Size)
        have size : bytes (s ++ [c]) + (n - c.utf8Size) = bytes s + n := by
          simp only [bytes_append, bytes_cons, bytes_nil]
          omega
        rwa [size, List.append_assoc] at rest

/-- The walk finds what the table of line starts says, of any offset. -/
theorem positionAt_eq_locate (t : Text) (offset : Nat) : t.positionAt offset = t.locate offset := by
  induction t, offset using offset_cases with
  | past t n => rw [positionAt_past, locate_past]
  | between s u => rw [positionAt_bytes, locate_bytes]
  | inside s c u n positive h => rw [positionAt_inside s u positive h, locate_inside s u positive h]

/-- Of two offsets that fall between characters the later one has the later position. -/
theorem positionAt_lt {t : Text} (first : t.IsBoundary m) (second : t.IsBoundary n) (h : m < n) :
    t.positionAt m < t.positionAt n := by
  obtain ⟨s, u, rfl, rfl⟩ := first
  obtain ⟨s', u', whole, rfl⟩ := second
  obtain ⟨more, rfl⟩ : s <+: s' := isPrefix_of_bytes_le (List.prefix_append s u)
    (whole ▸ List.prefix_append s' u') (Nat.le_of_lt h)
  have nonempty : more ≠ [] := by
    rintro rfl
    rw [List.append_nil] at h
    exact Nat.lt_irrefl _ h
  rw [positionAt_bytes, whole, positionAt_bytes, Position.after_append]
  exact Position.lt_after _ nonempty

theorem positionAt_le_iff {t : Text} (first : t.IsBoundary m) (second : t.IsBoundary n) :
    t.positionAt m ≤ t.positionAt n ↔ m ≤ n := by
  constructor
  · intro h
    by_contra past
    exact Position.not_le_of_lt (positionAt_lt second first (Nat.lt_of_not_le past)) h
  · intro h
    rcases Nat.eq_or_lt_of_le h with rfl | before
    · exact Position.le_after _ []
    · exact Position.le_of_lt (positionAt_lt first second before)

theorem positionAt_lt_iff {t : Text} (first : t.IsBoundary m) (second : t.IsBoundary n) :
    t.positionAt m < t.positionAt n ↔ m < n := by
  refine ⟨fun h => ?_, positionAt_lt first second⟩
  by_contra past
  exact Position.not_le_of_lt h ((positionAt_le_iff second first).mpr (Nat.le_of_not_lt past))

theorem bytesToColumn_eq (t : Text) (column : Nat) :
    ∃ s u, t = s ++ u ∧ bytesToColumn t column = s.bytes := by
  induction t generalizing column with
  | nil => exact ⟨[], [], rfl, rfl⟩
  | cons c cs ih =>
    rw [bytesToColumn]
    split
    · exact ⟨[], c :: cs, rfl, rfl⟩
    · obtain ⟨s, u, whole, size⟩ := ih (column - charUnits c)
      exact ⟨c :: s, u, by rw [whole, List.cons_append], by rw [size, bytes_cons]⟩

/-- The offset of a position falls between characters. -/
theorem isBoundary_byteAt (t : Text) (p : Position) : t.IsBoundary (t.byteAt p) := by
  unfold byteAt
  split
  · exact ⟨t, [], (List.append_nil t).symm, rfl⟩
  next line rest found =>
    have whole := flatten_lines t
    rw [← List.take_append_drop p.line t.lines, found, List.flatten_append,
      List.flatten_cons] at whole
    obtain ⟨ending, split⟩ := dropTrailing_isPrefix isLineBreak line
    obtain ⟨s, u, content, size⟩ := bytesToColumn_eq (lineContent line) p.column
    refine ⟨(t.lines.take p.line).flatten ++ s, u ++ ending ++ rest.flatten, ?_, ?_⟩
    · have cut : line = s ++ (u ++ ending) := by
        rw [← List.append_assoc, ← content, lineContent, split]
      rw [cut] at whole
      simpa only [List.append_assoc] using whole.symm
    · rw [size, bytes_append]

end Text
end Tunebook
