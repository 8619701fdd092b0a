import Tunebook.Proofs.Lossless
import Tunebook.Proofs.Rows

/-! A text without an `X:` line is read as paragraphs. Every tune of its tree is one: the header and
the body own a group of lines without a blank one between them, and the blank lines behind it trail. -/
namespace Tunebook

/-- Lines that stand together, and the blank lines behind them. -/
structure Paragraph where
  lines : List Row
  blanks : List Row

namespace Paragraph

def rows (p : Paragraph) : List Row :=
  p.lines ++ p.blanks

def parts (p : Paragraph) : List Token × List Token :=
  (Row.join p.lines, Row.join p.blanks)

end Paragraph

/-- What a tune owns ahead of what trails it, and what trails it. -/
def Tune.parts (t : Tune) : List Token × List Token :=
  (t.headerTokens ++ t.bodyTokens, t.trailing)

/-- Paragraphs are apart: only the last may have no blank line behind it. -/
structure AreParagraphs (ps : List Paragraph) : Prop where
  lines : ∀ p ∈ ps, p.lines ≠ [] ∧ ∀ r ∈ p.lines, r.isBlank = false
  blanks : ∀ p ∈ ps, ∀ r ∈ p.blanks, r.isBlank = true
  apart : ∀ p ∈ ps.dropLast, p.blanks ≠ []

open Row

theorem AreParagraphs.cons (hl : p.lines ≠ [] ∧ ∀ r ∈ p.lines, r.isBlank = false)
    (hb : ∀ r ∈ p.blanks, r.isBlank = true) (apart : ps ≠ [] → p.blanks ≠ [])
    (h : AreParagraphs ps) : AreParagraphs (p :: ps) := by
  refine ⟨?_, ?_, ?_⟩
  · exact List.forall_mem_cons.mpr ⟨hl, h.lines⟩
  · exact List.forall_mem_cons.mpr ⟨hb, h.blanks⟩
  · cases ps with
    | nil => simp
    | cons q ps =>
      rw [List.dropLast_cons_of_ne_nil (List.cons_ne_nil q ps)]
      exact List.forall_mem_cons.mpr ⟨apart (List.cons_ne_nil q ps), h.apart⟩

namespace IsRows

theorem splitBlock_first (h : IsRows (r :: rs)) (visible : Scan.isBlank r.text = false) :
    Token.splitBlock true true (join (r :: rs)) =
      (join (r :: rs.takeWhile inBlock), join (rs.dropWhile inBlock)) := by
  have next : ∀ s ∈ rs.head?, s.continues = !decide (r.ending = some .eol) := by
    intro s first
    obtain ⟨others, rfl⟩ := List.head?_eq_some_iff.mp first
    exact h.continues_eq
  rw [h.splitBlock (by simp) (by simp [visible]), h.tail.splitBlock_rows next]
  rfl

theorem isBlank_of_mem_head? {rs : List Row} (plain : ∀ r ∈ rs, r.opensTune = false)
    (first : r ∈ (rs.dropWhile inBlock).head?) : r.isBlank = true := by
  have stops := not_of_mem_head?_dropWhile inBlock first
  have listed : r ∈ rs := (List.dropWhile_sublist _).subset (List.mem_of_mem_head? first)
  simpa [inBlock, plain r listed] using stops

theorem splitApart_rows (h : IsRows rs) (plain : ∀ r ∈ rs, r.opensTune = false)
    (fresh : ∀ r ∈ rs.head?, r.continues = false) :
    Tune.splitApart false (join rs) =
      (join (rs.takeWhile isBlank), join (rs.dropWhile isBlank)) := by
  have none : (join rs).any Token.opensTune = false := by
    rw [List.any_eq_false]
    intro t member
    simp [h.opensTune_of_mem plain t member]
  rw [Tune.splitApart, none, ← h.splitBlankLines_rows fresh]
  rfl

/-- Where no line opens a tune, a tune takes a paragraph. Unless nothing is left, what is left starts
with a line that is not blank, and blank lines stand before it. -/
theorem exists_paragraph (h : IsRows (r :: rs)) (visible : Scan.isBlank r.text = false)
    (plain : ∀ s ∈ rs, s.opensTune = false) : ∃ p : Paragraph, ∃ rest : List Row,
      r :: rs = p.rows ++ rest ∧ p.lines.head? = some r ∧ (∀ s ∈ p.lines, s.isBlank = false) ∧
      (∀ s ∈ p.blanks, s.isBlank = true) ∧ (rest ≠ [] → p.blanks ≠ []) ∧
      (∀ s ∈ rest.head?, Scan.isBlank s.text = false) ∧
      (Tune.read false (join (r :: rs))).value.parts = p.parts ∧
      (Tune.read false (join (r :: rs))).rest = join rest := by
  have behind : IsRows (rs.dropWhile inBlock) := by
    refine IsRows.right (rs.takeWhile inBlock) ?_
    rw [List.takeWhile_append_dropWhile]
    exact h.tail
  have others : ∀ s ∈ rs.dropWhile inBlock, s.opensTune = false := fun s member =>
    plain s ((List.dropWhile_sublist _).subset member)
  have blank : ∀ s ∈ (rs.dropWhile inBlock).head?, s.isBlank = true := fun s =>
    isBlank_of_mem_head? plain
  have fresh : ∀ s ∈ (rs.dropWhile inBlock).head?, s.continues = false := by
    intro s first
    have own := blank s first
    rw [isBlank, Bool.and_eq_true, Bool.not_eq_true'] at own
    exact own.2
  -- a paragraph is the rows of its block and the blank rows behind
  refine ⟨⟨r :: rs.takeWhile inBlock, (rs.dropWhile inBlock).takeWhile isBlank⟩,
    (rs.dropWhile inBlock).dropWhile isBlank, ?_, rfl, ?_, ?_, ?_, behind.visible_dropWhile fresh, ?_⟩
  · rw [Paragraph.rows, List.append_assoc, List.takeWhile_append_dropWhile, List.cons_append,
      List.takeWhile_append_dropWhile]
  · intro s member
    rcases List.mem_cons.mp member with rfl | member
    · rw [isBlank, visible, Bool.false_and]
    · have goes := List.all_eq_true.mp List.all_takeWhile s member
      rw [inBlock, Bool.and_eq_true, Bool.not_eq_true', Bool.not_eq_true'] at goes
      exact goes.2
  · intro s member
    exact List.all_eq_true.mp List.all_takeWhile s member
  · intro more none
    cases left : rs.dropWhile inBlock with
    | nil =>
      rw [left] at more
      exact more rfl
    | cons s rest =>
      have own := blank s (by rw [left]; rfl)
      simp [left, own] at none
  · obtain ⟨own, left⟩ := Tune.read_eq_splitBlock false h.isChain_join
    rw [h.splitBlock_first visible] at own left
    rw [behind.splitApart_rows others fresh, Prod.mk.injEq] at left
    exact ⟨by rw [Tune.parts, own, left.1]; rfl, left.2⟩

end IsRows

namespace Tree

theorem readTunes_of_ne_nil (beyond : Bool) (nonempty : ts ≠ []) :
    (readTunes beyond ts).1 =
      (Tune.read beyond ts).value :: (readTunes beyond (Tune.read beyond ts).rest).1 := by
  cases ts with
  | nil => exact absurd rfl nonempty
  | cons t ts => rw [readTunes]

theorem exists_paragraphs (h : IsRows rs) (plain : ∀ r ∈ rs, r.opensTune = false)
    (visible : ∀ r ∈ rs.head?, Scan.isBlank r.text = false) :
    ∃ ps : List Paragraph, rs = ps.flatMap Paragraph.rows ∧ AreParagraphs ps ∧
      (readTunes false (join rs)).1.map Tune.parts = ps.map Paragraph.parts := by
  induction size : rs.length using Nat.strongRecOn generalizing rs with
  | ind n ih =>
    cases rs with
    | nil => exact ⟨[], rfl, ⟨by simp, by simp, by simp⟩, by simp [readTunes]⟩
    | cons r rs =>
      obtain ⟨p, rest, whole, first, lines, blanks, apart, next, parts, left⟩ :=
        h.exists_paragraph (visible r rfl) fun s member => plain s (.tail r member)
      have nonempty : p.lines ≠ [] := by
        intro none
        rw [none] at first
        cases first
      have shorter : rest.length < n := by
        have length := congrArg List.length whole
        have some := List.length_pos_iff.mpr nonempty
        rw [size, List.length_append, Paragraph.rows, List.length_append] at length
        omega
      obtain ⟨ps, rfl, are, read⟩ := ih rest.length shorter (IsRows.right p.rows (whole ▸ h))
        (fun s member => plain s (whole ▸ List.mem_append_right p.rows member)) next rfl
      refine ⟨p :: ps, whole, are.cons ⟨nonempty, lines⟩ blanks ?_, ?_⟩
      · intro more
        refine apart fun none => ?_
        obtain ⟨q, qs, rfl⟩ := List.exists_cons_of_ne_nil more
        have empty := (List.append_eq_nil_iff.mp (List.append_eq_nil_iff.mp none).1).1
        exact (are.lines q List.mem_cons_self).1 empty
      · have tokens : join (r :: rs) ≠ [] := mt h.join_eq_nil.mp (List.cons_ne_nil r rs)
        rw [readTunes_of_ne_nil false tokens, left, List.map_cons, List.map_cons, parts, read]

/-- The blank lines at the front of a text without an `X:` line are its header, and its tunes are the
paragraphs behind them. -/
theorem paragraphs (text : Text) (plain : ∀ line ∈ text.lines, ¬['X', ':'] <+: line) :
    ∃ lead : List Row, ∃ ps : List Paragraph,
      rows text = lead ++ ps.flatMap Paragraph.rows ∧
      (∀ r ∈ lead, r.isBlank = true) ∧ AreParagraphs ps ∧
      (ofTokens (scan text)).1.header = join lead ∧
      ((ofTokens (scan text)).1.header = [] ↔ lead = []) ∧
      (ofTokens (scan text)).1.tunes.map Tune.parts = ps.map Paragraph.parts := by
  have all := isRows_rows text
  have none : ∀ r ∈ rows text, r.opensTune = false := by
    intro r member
    have listed : r.text ∈ text.lines := text_rows text ▸ List.mem_map_of_mem member
    rw [opensTune, Bool.eq_false_iff, Ne, List.isPrefixOf_iff_prefix]
    exact plain r.text listed
  have fresh : ∀ r ∈ (rows text).head?, r.continues = false := fun r first =>
    continues_of_mem_head? first
  have whole : (rows text).takeWhile isBlank ++ (rows text).dropWhile isBlank = rows text :=
    List.takeWhile_append_dropWhile
  obtain ⟨ps, cut, are, read⟩ := exists_paragraphs (IsRows.right _ (whole ▸ all))
    (fun r member => none r ((List.dropWhile_sublist _).subset member))
    (all.visible_dropWhile fresh)
  have header : Tune.splitApart false (textTokens text) =
      (join ((rows text).takeWhile isBlank), join ((rows text).dropWhile isBlank)) := by
    rw [← join_rows, all.splitApart_rows none fresh]
  have blank : ∀ r ∈ (rows text).takeWhile isBlank, r.isBlank = true :=
    List.all_eq_true.mp List.all_takeWhile
  have absent : join ((rows text).takeWhile isBlank) = [] ↔ (rows text).takeWhile isBlank = [] :=
    (whole ▸ all : IsRows (_ ++ _)).left.join_eq_nil
  rw [ofTokens_scan_eq, header]
  exact ⟨(rows text).takeWhile isBlank, ps, by rw [← cut, whole], blank, are, rfl, absent, read⟩

/-- A blank line, two lines of music and a blank line between them. -/
theorem paragraphs_apart :
    let text : Text := [' ', '\n', 'C', '\n', '\n', 'D']
    (∀ line ∈ text.lines, ¬['X', ':'] <+: line) ∧
      ∃ lead : List Row, ∃ ps : List Paragraph,
        rows text = lead ++ ps.flatMap Paragraph.rows ∧
        (∀ r ∈ lead, r.isBlank = true) ∧ AreParagraphs ps ∧
        (ofTokens (scan text)).1.header = join lead ∧
        ((ofTokens (scan text)).1.header = [] ↔ lead = []) ∧
        (ofTokens (scan text)).1.tunes.map Tune.parts = ps.map Paragraph.parts :=
  ⟨by decide, paragraphs _ (by decide)⟩

end Tree
end Tunebook
