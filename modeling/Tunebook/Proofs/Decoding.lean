import Tunebook.Highlight.Delta
import Tunebook.Proofs.Highlighting

/-! What editors read back. Undoing the encoding of the highlights of a text gives one entry for each
of them that shows, at its own line and column: they come in reading order, so that no difference is
ever negative, and none goes on in another line. -/
namespace Tunebook

namespace Text

def firstLine (t : Text) : Text :=
  t.takeWhile (· ≠ '\n')

theorem firstLine_cons (h : c ≠ '\n') (cs : Text) : firstLine (c :: cs) = c :: firstLine cs := by
  simp [firstLine, h]

/-- Words of 32 bits count the lines and the columns of a text. -/
def Countable (t : Text) : Prop :=
  t.lines.length < Number.word32 ∧ ∀ line ∈ t.lines, (firstLine line).units < Number.word32

instance (t : Text) : Decidable t.Countable :=
  inferInstanceAs (Decidable (_ ∧ _))

theorem exists_lines_cons (t : Text) (nonempty : t ≠ []) :
    ∃ line rest, t.lines = line :: rest ∧ firstLine line = firstLine t := by
  induction t with
  | nil => contradiction
  | cons c cs ih =>
    rw [lines]
    split
    next feed => exact ⟨[c], lines cs, rfl, by simp [firstLine, feed]⟩
    next goes =>
      cases cs with
      | nil => exact ⟨[c], [], rfl, rfl⟩
      | cons d ds =>
        obtain ⟨line, rest, found, same⟩ := ih (List.cons_ne_nil d ds)
        refine ⟨c :: line, rest, by rw [found], ?_⟩
        rw [firstLine_cons goes, firstLine_cons goes, same]

theorem units_firstLine_le (t : Text) : t.firstLine.units ≤ t.units := by
  obtain ⟨rest, whole⟩ := List.takeWhile_prefix (l := t) (· ≠ '\n')
  have units := units_append t.firstLine rest
  rw [show t.firstLine ++ rest = t from whole] at units
  omega

theorem units_firstLine_append (s t : Text) :
    s.firstLine.units ≤ (firstLine (s ++ t)).units := by
  unfold firstLine
  rw [List.takeWhile_append]
  split
  next whole =>
    rw [units_append, (List.takeWhile_prefix _).eq_of_length whole]
    exact Nat.le_add_right _ _
  · exact Nat.le_refl _

/-- What is left of a text goes on in one of its lines. -/
theorem exists_line_of_append (s : Text) {rest : Text} (nonempty : rest ≠ []) :
    ((⟨0, 0⟩ : Position).after s).line < (s ++ rest).lines.length ∧
      ∃ line ∈ (s ++ rest).lines,
        ((⟨0, 0⟩ : Position).after s).column + (firstLine rest).units = (firstLine line).units := by
  obtain ⟨front, tail, rfl, whole, absent⟩ := s.exists_lines_tail
  obtain ⟨line, others, found, same⟩ :=
    exists_lines_cons (tail ++ rest) (List.append_ne_nil_of_right_ne_nil tail nonempty)
  have lines : (front ++ tail ++ rest).lines = front.lines ++ line :: others := by
    rw [List.append_assoc, lines_append whole, found]
  have place : (⟨0, 0⟩ : Position).after (front ++ tail) = ⟨front.lines.length, tail.units⟩ := by
    rw [Position.after_append, Position.after_lines 0 whole, Position.after_line _ absent]
    simp
  have inside : ∀ c ∈ tail, decide (c ≠ '\n') = true := by
    intro c member
    rw [decide_eq_true_eq]
    rintro rfl
    exact absent member
  rw [lines, place]
  refine ⟨by simp, line, by simp, ?_⟩
  rw [same, firstLine, firstLine, List.takeWhile_append_of_pos inside, units_append]

end Text

namespace Highlight

/-- What is shown of a token: its text up to a line feed, without a carriage return before it. -/
def shown (t : Token) : Text :=
  stripReturn (Text.firstLine t.lexeme)

/-- The stretch of its line that a token shows in colour, if it shows at all. -/
def mark? (t : Token) : Option Mark := do
  let category ← t.kind.category.legendIndex?
  if (shown t).units = 0 then none
  else some ⟨t.start.line, t.start.column, (shown t).units, category⟩

/-- Undoes the encoding, from the line and the column of the mark before. -/
def decode (line column : Nat) : List Delta → List Mark
  | [] => []
  | d :: ds =>
    let m : Mark :=
      ⟨line + d.line, if d.line = 0 then column + d.column else d.column, d.length, d.category⟩
    m :: decode m.line m.column ds

def difference? (a b : Nat) : Option Nat :=
  if b ≤ a then some (a - b) else none

/-- The marks relative to one another, if no difference is negative. -/
def deltas? (line column : Nat) : List Mark → Option (List Delta)
  | [] => some []
  | m :: ms => do
    let down ← difference? m.line line
    let across ← if down = 0 then difference? m.column column else some m.column
    let rest ← deltas? m.line m.column ms
    return ⟨down, across, m.length, m.category⟩ :: rest

def Mark.Before (a b : Mark) : Prop :=
  a.line < b.line ∨ a.line = b.line ∧ a.column + a.length ≤ b.column

def Mark.start (m : Mark) : Position :=
  ⟨m.line, m.column⟩

theorem Mark.Before.start_le {a b : Mark} (h : a.Before b) : a.start ≤ b.start := by
  rcases h with below | ⟨same, right⟩
  · exact .inl below
  · exact .inr ⟨same, (Nat.le_add_right _ _).trans right⟩

theorem deltas_ordered {line column : Nat} {ms : List Mark}
    (first : ∀ m ∈ ms, (⟨line, column⟩ : Position) ≤ m.start)
    (ordered : ms.Pairwise fun a b => a.start ≤ b.start) :
    deltas? line column ms = some (deltas line column ms) ∧
      decode line column (deltas line column ms) = ms := by
  induction ms generalizing line column with
  | nil => exact ⟨rfl, rfl⟩
  | cons m ms ih =>
    obtain ⟨next, ordered⟩ := List.pairwise_cons.mp ordered
    obtain ⟨checked, decoded⟩ := ih next ordered
    have down : difference? m.line line = some (m.line - line) ∧
        line + (m.line - line) = m.line := by
      rcases first m List.mem_cons_self with below | ⟨same, _⟩
      · exact ⟨if_pos (Nat.le_of_lt below), Nat.add_sub_cancel' (Nat.le_of_lt below)⟩
      · exact ⟨if_pos (Nat.le_of_eq same), Nat.add_sub_cancel' (Nat.le_of_eq same)⟩
    have across : m.line - line = 0 → difference? m.column column = some (m.column - column) ∧
        column + (m.column - column) = m.column := by
      intro level
      rcases first m List.mem_cons_self with below | ⟨_, right⟩
      · exact absurd level (Nat.sub_ne_zero_of_lt below)
      · exact ⟨if_pos right, Nat.add_sub_cancel' right⟩
    by_cases level : m.line - line = 0
    · obtain ⟨found, total⟩ := across level
      obtain rfl : line = m.line := by omega
      constructor
      · simp [deltas?, deltas, down.1, found, checked]
      · simp [deltas, decode, total, decoded]
    · constructor
      · simp [deltas?, deltas, down.1, level, checked]
      · simp [deltas, decode, down.2, level, decoded]

/-- A text with a line feed at most at its end is cut into its first line and no more text. -/
theorem splitLines_of_feed {t : Text} (h : '\n' ∉ t.dropLast) :
    splitLines t = [t.firstLine] ∨ splitLines t = [t.firstLine, []] := by
  induction t with
  | nil => exact .inl rfl
  | cons c cs ih =>
    rw [splitLines]
    cases cs with
    | nil =>
      split
      next feed => exact .inr (by simp [splitLines, Text.firstLine, feed])
      next goes => exact .inl (by simp [splitLines, Text.firstLine, goes])
    | cons d ds =>
      rw [List.dropLast_cons_of_ne_nil (List.cons_ne_nil d ds), List.mem_cons, not_or] at h
      rw [if_neg (Ne.symm h.1), Text.firstLine_cons (Ne.symm h.1)]
      rcases ih h.2 with one | two
      · exact .inl (by rw [one])
      · exact .inr (by rw [two])

theorem low32_of_lt (h : n < Number.word32) : Number.low32 n = n :=
  Nat.mod_eq_of_lt h

theorem units_stripReturn_le (line : Text) : (stripReturn line).units ≤ line.units := by
  unfold stripReturn
  split
  next ends =>
    obtain ⟨front, rfl⟩ := List.getLast?_eq_some_iff.mp ends
    rw [List.dropLast_concat, Text.units_append]
    exact Nat.le_add_right _ _
  · exact Nat.le_refl _

theorem mark?_eq_some (h : mark? t = some m) :
    m.line = t.start.line ∧ m.column = t.start.column ∧ m.length = (shown t).units := by
  obtain ⟨category, _, shows⟩ := Option.bind_eq_some_iff.mp h
  split at shows
  · cases shows
  · obtain rfl := Option.some.inj shows
    exact ⟨rfl, rfl, rfl⟩

theorem units_shown_le (t : Token) : (shown t).units ≤ t.lexeme.firstLine.units :=
  units_stripReturn_le _

theorem marks_eq {t : Token} (feed : '\n' ∉ t.lexeme.dropLast)
    (line : t.start.line < Number.word32)
    (column : t.start.column + t.lexeme.firstLine.units < Number.word32) :
    marks t = (mark? t).toList := by
  have shorter := units_shown_le t
  have length : Number.low32 (stripReturn t.lexeme.firstLine).units = (shown t).units :=
    low32_of_lt (n := (shown t).units) (by omega)
  have place : Number.low32 t.start.column = t.start.column := low32_of_lt (by omega)
  have row : Number.low32 t.start.line = t.start.line := low32_of_lt line
  -- The line behind a last line feed is empty and has no mark.
  have empty : Number.low32 (stripReturn []).units = 0 := rfl
  cases legend : t.kind.category.legendIndex? with
  | none => simp [marks, mark?, legend]
  | some category =>
    by_cases hidden : (shown t).units = 0
    · rcases splitLines_of_feed feed with whole | whole
      · simp [marks, mark?, legend, whole, length, hidden]
      · simp [marks, mark?, legend, whole, length, hidden, empty]
    · rcases splitLines_of_feed feed with whole | whole
      · simp [marks, mark?, legend, whole, length, hidden, place, row]
      · simp [marks, mark?, legend, whole, length, hidden, place, row, empty]

/-- A highlight holds a line feed at most at its end, as tokens do. -/
theorem Covers.feed_of_mem (h : Covers ts hs) (last : ∀ t ∈ ts, '\n' ∉ t.lexeme.dropLast)
    (breaks : ∀ t ∈ ts, '\n' ∈ t.lexeme → t.kind.breaksLine = true) (member : g ∈ hs) :
    '\n' ∉ g.lexeme.dropLast := by
  induction h with
  | nil => cases member
  | @space t ts hs _ _ ih =>
    exact ih (fun u listed => last u (List.mem_cons_of_mem t listed))
      (fun u listed => breaks u (List.mem_cons_of_mem t listed)) member
  | @run run ts hs m kind merged line _ ih =>
    rcases List.mem_cons.mp member with rfl | member
    · rcases line with rfl | stays
      · exact last m (by simp)
      · obtain ⟨_, _, _, _, _, _, lexeme⟩ := Token.of_merge merged
        intro feed
        have inside : '\n' ∈ Token.join run := lexeme ▸ List.dropLast_subset _ feed
        obtain ⟨t, listed, own⟩ := List.mem_flatMap.mp inside
        have broken := breaks t (List.mem_append_left ts listed) own
        rw [stays t listed] at broken
        cases broken
    · exact ih (fun u listed => last u (List.mem_append_right run listed))
        (fun u listed => breaks u (List.mem_append_right run listed)) member

end Highlight

open Highlight

namespace Tree

theorem feed_of_mem_inOrder {text : Text} (h : g ∈ (ofTokens (scan text)).1.inOrder) :
    '\n' ∉ g.lexeme.dropLast := by
  refine (covers_textTokens text).feed_of_mem ?_ (fun t => breaksLine_of_mem_textTokens) h
  intro t member
  obtain ⟨front, p, back, cut, rfl⟩ := exists_of_mem_textTokens member
  exact Scan.feed_of_mem_pieces (cut ▸ List.mem_append_right front List.mem_cons_self)

theorem spans_inOrder (text : Text) :
    (∀ g ∈ (ofTokens (scan text)).1.inOrder, g.span.start < g.span.stop) ∧
      (ofTokens (scan text)).1.inOrder.Pairwise fun g h => g.span.stop ≤ h.span.start := by
  obtain ⟨within, apart⟩ := (covers_textTokens text).spans (tiles_textTokens text)
    fun t => lexeme_ne_nil_of_mem_textTokens
  exact ⟨fun g member => (within g member).2.1, apart⟩

/-- A highlight stands between what is before it and what is after it, and starts where reading the
former leads. -/
theorem exists_split_of_mem_inOrder {text : Text} (h : g ∈ (ofTokens (scan text)).1.inOrder) :
    ∃ s u, text = s ++ (g.lexeme ++ u) ∧ s.bytes = g.span.start ∧
      s.bytes + g.lexeme.bytes = g.span.stop ∧ g.start = (⟨0, 0⟩ : Position).after s := by
  obtain ⟨found, before, run, after, whole, cover⟩ := exists_run_of_mem_inOrder h
  obtain ⟨s, u, cut, start, stop⟩ := Text.slice?_eq_some_iff.mp found
  refine ⟨s, u, cut, start, stop, ?_⟩
  unfold Token.cover at cover
  split at cover
  next first last starts _ =>
    have listed : first ∈ scan text := by
      rw [whole]
      exact List.mem_append_right _ (List.mem_append_left _ (List.mem_of_head? starts))
    have place : first.start = g.start := congrArg Range.start (Option.some.inj cover)
    have offset : first.span.start = g.span.start :=
      congrArg (fun r => r.span.start) (Option.some.inj cover)
    have walked : first.start = text.positionAt first.span.start :=
      congrArg Range.start (range_of_mem_scan listed)
    rw [← place, walked, offset, ← start, cut, Text.positionAt_bytes]
  · cases cover

end Tree

/-- The position between two parts of a text is not past that between two later ones. -/
theorem Position.after_le_after {s t u v : Text} (same : s ++ u = t ++ v) (h : s.bytes ≤ t.bytes) :
    (⟨0, 0⟩ : Position).after s ≤ (⟨0, 0⟩ : Position).after t := by
  have front : s <+: t :=
    Text.isPrefix_of_bytes_le (List.prefix_append s u) (same ▸ List.prefix_append t v) h
  obtain ⟨more, rfl⟩ := front
  rw [Position.after_append]
  exact Position.le_after _ more

namespace Document

theorem before_of_entries {g h : Token} {text : Text}
    (first : g ∈ (Tree.ofTokens (scan text)).1.inOrder)
    (second : h ∈ (Tree.ofTokens (scan text)).1.inOrder)
    (apart : g.span.stop ≤ h.span.start) (one : mark? g = some m) (other : mark? h = some n) :
    m.Before n := by
  obtain ⟨s, u, cut, start, stop, place⟩ := Tree.exists_split_of_mem_inOrder first
  obtain ⟨s', u', cut', start', _, place'⟩ := Tree.exists_split_of_mem_inOrder second
  have reached : (⟨0, 0⟩ : Position).after (s ++ g.lexeme) ≤ (⟨0, 0⟩ : Position).after s' := by
    refine Position.after_le_after (u := u) (v := h.lexeme ++ u') ?_ ?_
    · rw [List.append_assoc, ← cut, cut']
    · rw [Text.bytes_append]
      omega
  rw [Position.after_append, ← place, ← place'] at reached
  have stop := Token.stop_eq (Tree.feed_of_mem_inOrder first)
  have shorter := (units_shown_le g).trans (Text.units_firstLine_le g.lexeme)
  obtain ⟨line, column, length⟩ := mark?_eq_some one
  obtain ⟨line', column', _⟩ := mark?_eq_some other
  rw [Mark.Before, line, column, length, line', column']
  rw [Token.stop] at stop
  rw [stop] at reached
  split at reached
  · rcases reached with below | ⟨same, _⟩
    · exact .inl (Nat.lt_of_succ_lt below)
    · exact .inl (Nat.lt_of_succ_le (Nat.le_of_eq same))
  · rcases reached with below | ⟨same, right⟩
    · exact .inl below
    · exact .inr ⟨same, (Nat.add_le_add_left shorter _).trans right⟩

theorem marks_of_mem_inOrder {text : Text} (counted : text.Countable)
    (h : g ∈ (Tree.ofTokens (scan text)).1.inOrder) : marks g = (mark? g).toList := by
  obtain ⟨s, u, cut, start, stop, place⟩ := Tree.exists_split_of_mem_inOrder h
  have nonempty : g.lexeme ++ u ≠ [] := by
    intro none
    have positive := (Tree.spans_inOrder text).1 g h
    rw [(List.append_eq_nil_iff.mp none).1, Text.bytes_nil] at stop
    omega
  obtain ⟨line, l, listed, column⟩ := s.exists_line_of_append nonempty
  rw [← cut, ← place] at line
  rw [← place] at column
  rw [← cut] at listed
  have width := Text.units_firstLine_append g.lexeme u
  have inside := counted.2 l listed
  exact marks_eq (Tree.feed_of_mem_inOrder h) (line.trans counted.1) (by omega)

/-- Undoing the encoding of the highlights of a text gives, in order, one entry for each of them that
shows in a colour; none of the differences is negative, and each entry ends before the next starts. -/
theorem decode_encode (source : String) (text : Text) (counted : text.Countable) :
    let hs := (analyze source text).highlights
    deltas? 0 0 (hs.flatMap marks) = some (encode hs) ∧
      decode 0 0 (encode hs) = hs.filterMap mark? ∧
      (hs.filterMap mark?).Pairwise Mark.Before := by
  have inOrder : (analyze source text).highlights = (Tree.ofTokens (scan text)).1.inOrder :=
    Tree.highlights_eq text
  intro hs
  rw [show hs = _ from inOrder]
  have marked : (Tree.ofTokens (scan text)).1.inOrder.flatMap marks =
      (Tree.ofTokens (scan text)).1.inOrder.filterMap mark? := by
    rw [List.filterMap_eq_flatMap_toList]
    exact List.flatMap_congr fun g member => marks_of_mem_inOrder counted member
  have ordered : ((Tree.ofTokens (scan text)).1.inOrder.filterMap mark?).Pairwise Mark.Before := by
    refine List.pairwise_filterMap.mpr ((Tree.spans_inOrder text).2.imp_of_mem ?_)
    intro g h first second apart m one n other
    exact before_of_entries first second apart one other
  have sorted := ordered.imp Mark.Before.start_le
  have first : ∀ m ∈ (Tree.ofTokens (scan text)).1.inOrder.filterMap mark?,
      (⟨0, 0⟩ : Position) ≤ m.start :=
    fun m _ => m.line.eq_zero_or_pos.elim (fun top => .inr ⟨top.symm, Nat.zero_le _⟩) .inl
  obtain ⟨checked, decoded⟩ := deltas_ordered first sorted
  rw [encode, marked]
  exact ⟨checked, decoded, ordered⟩

/-- A letter outside the basic plane counts twice, and of a line that goes on only the backslash
shows. -/
theorem decode_encode_continued :
    let text : Text := "\"𝄞\"A2 \\\r\nB\n".toList
    text.Countable ∧ decode 0 0 (encode (analyze "abc" text).highlights) =
      [⟨0, 0, 4, 0⟩, ⟨0, 4, 1, 5⟩, ⟨0, 5, 1, 1⟩, ⟨0, 7, 1, 3⟩, ⟨1, 0, 1, 5⟩] := by
  intro text
  have counted : text.Countable := by decide
  have decoded := (decode_encode "abc" text counted).2.1
  refine ⟨counted, decoded.trans ?_⟩
  rw [show (analyze "abc" text).highlights = _ from Tree.highlights_eq text]
  decide +kernel

end Document
end Tunebook
