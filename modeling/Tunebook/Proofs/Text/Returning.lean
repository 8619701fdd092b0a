import Tunebook.Proofs.Scan.LineFeeds

/-! From a byte offset to its position and back. A column is clamped to the content of its line, so
that the way back misses only the offsets behind that content: those in the middle of a line break,
and the end of a text that ends with a carriage return. -/
namespace Tunebook

theorem dropTrailing_append {p : α → Bool} (keeps : ∀ a ∈ s.getLast?, p a = false) (t : List α) :
    dropTrailing p (s ++ t) = s ++ dropTrailing p t := by
  induction s with
  | nil => rfl
  | cons a s ih =>
    cases s with
    | nil =>
      have own : p a = false := keeps a rfl
      rw [List.singleton_append, dropTrailing]
      cases rest : dropTrailing p t <;> simp [own]
    | cons b s =>
      rw [List.getLast?_cons_cons] at keeps
      rw [List.cons_append, dropTrailing, ih keeps]
      rfl

theorem dropTrailing_append_of_mem {p : α → Bool} (s : List α) (kept : a ∈ t) (h : p a = false) :
    dropTrailing p (s ++ t) = s ++ dropTrailing p t := by
  have nonempty : dropTrailing p t ≠ [] := by
    intro none
    obtain ⟨tail, whole, dropped⟩ := exists_dropTrailing_append p t
    rw [none, List.nil_append] at whole
    rw [dropped a (whole ▸ kept)] at h
    cases h
  induction s with
  | nil => rfl
  | cons b s ih =>
    rw [List.cons_append, dropTrailing, ih]
    split
    next none => exact absurd (List.append_eq_nil_iff.mp none).2 nonempty
    next => rfl

namespace Text

theorem lineContent_append (plain : ∀ c ∈ s.getLast?, isLineBreak c = false) (t : Text) :
    lineContent (s ++ t) = s ++ lineContent t :=
  dropTrailing_append plain t

theorem lineContent_line {content : Text} (h : ∀ c ∈ content, isLineBreak c = false) :
    lineContent (content ++ ['\n']) = content := by
  rw [lineContent_append fun c last => h c (List.mem_of_getLast? last)]
  exact List.append_nil content

theorem bytesToColumn_zero (t : Text) : bytesToColumn t 0 = 0 := by
  cases t <;> rfl

theorem bytesToColumn_append (s t : Text) : bytesToColumn (s ++ t) s.units = s.bytes := by
  induction s with
  | nil => exact bytesToColumn_zero t
  | cons c cs ih =>
    have some : charUnits c + units cs ≠ 0 := by
      have := charUnits_pos c
      omega
    rw [List.cons_append, bytesToColumn, units_cons, if_neg some, Nat.add_sub_cancel_left, ih,
      bytes_cons]

theorem bytesToColumn_units (t : Text) : bytesToColumn t t.units = t.bytes := by
  simpa using bytesToColumn_append t []

/-- The positions of a line behind others. -/
theorem byteAt_lines {front rest : Text} (whole : front = [] ∨ front.getLast? = some '\n')
    (cut : rest.lines = line :: others) (column : Nat) :
    (front ++ rest).byteAt ⟨front.lines.length, column⟩ =
      front.bytes + bytesToColumn (lineContent line) column := by
  rw [byteAt, lines_append whole, cut, List.drop_left, List.take_left, flatten_lines]

theorem byteAt_line {front content : Text} (ends : front.getLast? = some '\n')
    (h : ∀ c ∈ content, isLineBreak c = false) (column : Nat) :
    (front ++ (content ++ ['\n'])).byteAt ⟨front.lines.length, column⟩ =
      front.bytes + bytesToColumn content column := by
  have absent : '\n' ∉ content := fun member => absurd (h _ member) (by decide)
  rw [byteAt_lines (.inr ends) (lines_line absent), lineContent_line h]

/-- The position of the offset leads back to it. -/
def Returns (t : Text) (offset : Nat) : Prop :=
  t.byteAt (t.positionAt offset) = offset

/-- The offsets in the content of a line return. -/
theorem returns_content {front rest : Text} (whole : front = [] ∨ front.getLast? = some '\n')
    (cut : rest.lines = line :: others) (content : lineContent line = s ++ u) :
    (front ++ rest).Returns (front.bytes + s.bytes) := by
  have listed : line ∈ rest.lines := cut ▸ List.mem_cons_self
  have absent : '\n' ∉ s := by
    intro feed
    refine not_mem_lineContent (feed_of_mem_lines listed) ?_
    rw [content]
    exact List.mem_append_left u feed
  obtain ⟨ending, split⟩ : lineContent line <+: line := dropTrailing_isPrefix isLineBreak line
  have text : front ++ rest = front ++ s ++ (u ++ ending ++ others.flatten) := by
    rw [← flatten_lines rest, cut, List.flatten_cons, ← split, content]
    simp only [List.append_assoc]
  have place : (front ++ rest).positionAt (front.bytes + s.bytes) =
      ⟨front.lines.length, s.units⟩ := by
    rw [text, ← bytes_append, positionAt_bytes, Position.after_append, Position.after_lines 0 whole,
      Position.after_line _ absent, Nat.zero_add, Nat.zero_add]
  rw [Returns, place, byteAt_lines whole cut, content, bytesToColumn_append]

/-- A stretch without a line feed is the start of a line, and what follows it up to a line feed is
more of that line. -/
theorem exists_lines_append {s : Text} (absent : '\n' ∉ s) (u : Text) (nonempty : s ++ u ≠ []) :
    ∃ v others, (s ++ u).lines = (s ++ v) :: others ∧ u.takeWhile (· ≠ '\n') <+: v := by
  induction u using line_induct with
  | last content none =>
    exact ⟨content, [], lines_content (by simp [absent, none]) nonempty, List.takeWhile_prefix _⟩
  | more content rest none _ =>
    have inside : '\n' ∉ s ++ content := by simp [absent, none]
    have line : ∀ c ∈ content, decide (c ≠ '\n') = true := by
      intro c member
      simpa using ne_of_mem_of_not_mem member none
    rw [← List.append_assoc, lines_cons inside, List.append_assoc]
    refine ⟨_, _, rfl, ?_⟩
    rw [List.takeWhile_append_of_pos line, List.takeWhile_cons_of_neg (by simp), List.append_nil]
    exact List.prefix_append content _

/-- An offset returns that is not behind a carriage return. -/
theorem returns_bytes (s u : Text) (plain : s.getLast? ≠ some '\r') : (s ++ u).Returns s.bytes := by
  obtain ⟨front, tail, rfl, whole, absent⟩ := s.exists_lines_tail
  by_cases nonempty : tail ++ u = []
  · obtain ⟨rfl, rfl⟩ := List.append_eq_nil_iff.mp nonempty
    have place := positionAt_bytes front []
    rw [List.append_nil] at place
    rw [List.append_nil, List.append_nil, Returns, place, Position.after_lines 0 whole, byteAt,
      Nat.zero_add, List.drop_length]
  · obtain ⟨v, others, cut, _⟩ := exists_lines_append absent u nonempty
    rw [bytes_append, List.append_assoc]
    refine returns_content whole cut (lineContent_append (fun c last => ?_) v)
    have feed : c ≠ '\n' := by
      rintro rfl
      exact absent (List.mem_of_getLast? last)
    have ret : c ≠ '\r' := by
      rintro rfl
      rw [List.getLast?_append, Option.mem_def.mp last] at plain
      exact plain rfl
    simp [isLineBreak, feed, ret]

/-- The offset between the two texts is inside a line break, which takes in every carriage return
before a line feed or before the end. -/
def InBreak (s u : Text) : Prop :=
  s.getLast? = some '\r' ∧ u ≠ [] ∧ ∀ c ∈ u.takeWhile (· ≠ '\n'), c = '\r'

/-- Behind a carriage return an offset returns as well where more than a break is left of its
line. -/
theorem returns_of_not_inBreak {s u : Text} (free : ¬InBreak s u)
    (more : s.getLast? = some '\r' → u ≠ []) : (s ++ u).Returns s.bytes := by
  by_cases ret : s.getLast? = some '\r'
  · obtain ⟨c, left, other⟩ : ∃ c ∈ u.takeWhile (· ≠ '\n'), c ≠ '\r' := by
      by_contra all
      push Not at all
      exact free ⟨ret, more ret, all⟩
    have plain : isLineBreak c = false := by
      have feed := List.all_eq_true.mp List.all_takeWhile c left
      simp_all [isLineBreak]
    obtain ⟨front, tail, rfl, whole, absent⟩ := s.exists_lines_tail
    obtain ⟨v, others, cut, line⟩ := exists_lines_append absent u (by simp [more ret])
    rw [bytes_append, List.append_assoc]
    exact returns_content whole cut (dropTrailing_append_of_mem tail (line.subset left) plain)
  · exact returns_bytes s u ret

/-- In the middle of a line break the way back stops where the content ends. -/
example : Text.byteAt ['A', '\r', '\n'] (Text.positionAt ['A', '\r', '\n'] 2) = 1 := by
  decide

theorem returns_behind (before : Text) {s : Text} (nonempty : s ≠ []) (plain : '\r' ∉ s) (u : Text) :
    (before ++ (s ++ u)).Returns (before.bytes + s.bytes) := by
  rw [← List.append_assoc, ← bytes_append]
  refine returns_bytes (before ++ s) u fun last => plain (List.mem_of_getLast? (l := s) ?_)
  rwa [List.getLast?_append_of_ne_nil before nonempty] at last

theorem returns_end {t : Text} (plain : t.getLast? ≠ some '\r') : t.Returns t.bytes := by
  simpa using returns_bytes t [] plain

/-- The lines from one on are those of what stands behind the others. -/
theorem exists_of_drop_lines {t : Text} (h : t.lines.drop n = line :: others) :
    ∃ front rest, t = front ++ rest ∧ (front = [] ∨ front.getLast? = some '\n') ∧
      front.lines = t.lines.take n ∧ rest.lines = line :: others := by
  induction t using line_induct generalizing n with
  | last content absent =>
    cases n with
    | zero => exact ⟨[], content, rfl, .inl rfl, rfl, h⟩
    | succ n =>
      by_cases nonempty : content = []
      · subst nonempty
        cases h
      · rw [lines_content absent nonempty] at h
        simp at h
  | more content rest absent ih =>
    cases n with
    | zero => exact ⟨[], content ++ '\n' :: rest, rfl, .inl rfl, rfl, h⟩
    | succ n =>
      rw [lines_cons absent] at h ⊢
      obtain ⟨front, back, rfl, whole, taken, left⟩ := ih h
      refine ⟨content ++ '\n' :: front, back, by simp, .inr ?_, ?_, left⟩
      · rcases whole with rfl | ends
        · simp
        · rw [List.getLast?_append, List.getLast?_cons, ends]
          rfl
      · rw [lines_cons absent, taken, List.take_succ_cons]

/-- The offset of a position returns. -/
theorem returns_byteAt {t : Text} (plain : t.getLast? ≠ some '\r') (p : Position) :
    t.Returns (t.byteAt p) := by
  unfold byteAt
  split
  · exact returns_end plain
  next line others found =>
    obtain ⟨front, rest, rfl, whole, taken, cut⟩ := exists_of_drop_lines found
    obtain ⟨s, u, content, size⟩ := bytesToColumn_eq (lineContent line) p.column
    rw [← taken, flatten_lines, size]
    exact returns_content whole cut content

theorem Returns.min {t : Text} (h : t.Returns m) (g : t.Returns n) : t.Returns (min m n) := by
  rw [Nat.min_def]
  split
  · exact h
  · exact g

theorem Returns.max {t : Text} (h : t.Returns m) (g : t.Returns n) : t.Returns (max m n) := by
  rw [Nat.max_def]
  split
  · exact g
  · exact h

end Text
end Tunebook
