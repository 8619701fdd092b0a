import Mathlib.Data.List.TakeWhile
import Tunebook.Proofs.Grammar.Blocks
import Tunebook.Proofs.Scan.Lines
import Tunebook.Proofs.Scan.Tiling

/-! A text as rows: its lines, each with the tokens that a scan makes of it. What the grammar asks of
tokens, whether one opens a tune and whether a blank line starts with it, are questions about rows. -/
namespace Tunebook

/-- A line of a text with its tokens. It continues the line before if that ends in a backslash. -/
structure Row where
  text : Text
  tokens : List Token
  continues : Bool

namespace Row

def opensTune (r : Row) : Bool :=
  ['X', ':'].isPrefixOf r.text

/-- A line that continues another is not blank, whatever is in it. -/
def isBlank (r : Row) : Bool :=
  Scan.isBlank r.text && !r.continues

/-- A block runs up to a line that opens a tune or is blank. -/
def inBlock (r : Row) : Bool :=
  !r.opensTune && !r.isBlank

/-- The kind of the line break, if there is one. -/
def ending (r : Row) : Option Kind :=
  (r.tokens.getLast?.map Token.kind).filter Kind.breaksLine

end Row

/-- The rows of lines that stand at a place. -/
def rowsFrom (continues : Bool) (start : Position) (offset : Nat) : List Text → List Row
  | [] => []
  | line :: lines =>
    let row : Row := ⟨line, Scan.placed start offset (Scan.line line), continues⟩
    row :: rowsFrom (row.ending = some .antislashEol) (start.after line) (offset + line.bytes) lines

def rows (text : Text) : List Row :=
  rowsFrom false ⟨0, 0⟩ 0 text.lines

abbrev Row.join (rs : List Row) : List Token :=
  rs.flatMap Row.tokens

theorem text_rowsFrom (continues : Bool) (start : Position) (offset : Nat) (lines : List Text) :
    (rowsFrom continues start offset lines).map Row.text = lines := by
  induction lines generalizing continues start offset with
  | nil => rfl
  | cons line lines ih => rw [rowsFrom, List.map_cons, ih]

theorem join_rowsFrom (continues : Bool) (start : Position) (offset : Nat) (lines : List Text) :
    Row.join (rowsFrom continues start offset lines) =
      Scan.placed start offset (lines.flatMap Scan.line) := by
  induction lines generalizing continues start offset with
  | nil => rfl
  | cons line lines ih =>
    rw [rowsFrom, Row.join, List.flatMap_cons, ← Row.join, ih, List.flatMap_cons, Scan.placed_append,
      Scan.join_line]

/-- The rows of a text are its lines, and own its tokens. -/
theorem join_rows (text : Text) : Row.join (rows text) = textTokens text :=
  join_rowsFrom false ⟨0, 0⟩ 0 text.lines

theorem text_rows (text : Text) : (rows text).map Row.text = text.lines :=
  text_rowsFrom false ⟨0, 0⟩ 0 text.lines

/-- A row of a line: its line feed, if it has one, comes last. -/
structure Row.IsLine (r : Row) : Prop where
  nonempty : r.text ≠ []
  feed : '\n' ∉ r.text.dropLast
  tokens : r.tokens.map Token.piece = Scan.line r.text

/-- A row that stands before another has a line break, which says whether the other continues it. -/
def Row.Precedes (r s : Row) : Prop :=
  r.ending.isSome = true ∧ s.continues = decide (r.ending = some .antislashEol)

/-- Rows that follow one another. -/
structure IsRows (rs : List Row) : Prop where
  lines : ∀ r ∈ rs, r.IsLine
  chain : rs.IsChain Row.Precedes

namespace IsRows

theorem nil : IsRows [] :=
  ⟨by simp, .nil⟩

theorem head (h : IsRows (r :: rs)) : r.IsLine :=
  h.lines r List.mem_cons_self

theorem tail (h : IsRows (r :: rs)) : IsRows rs :=
  ⟨fun s member => h.lines s (List.mem_cons_of_mem r member), (List.isChain_cons.mp h.chain).2⟩

theorem next (h : IsRows (r :: s :: rs)) : r.Precedes s :=
  (List.isChain_cons.mp h.chain).1 s rfl

theorem right (front : List Row) (h : IsRows (front ++ rs)) : IsRows rs := by
  induction front with
  | nil => exact h
  | cons r front ih => exact ih h.tail

theorem left (h : IsRows (front ++ rs)) : IsRows front :=
  ⟨fun r member => h.lines r (List.mem_append_left rs member), (List.isChain_append.mp h.chain).1⟩

end IsRows

theorem continues_of_mem_head? (h : r ∈ (rowsFrom continues start offset lines).head?) :
    r.continues = continues := by
  cases lines with
  | nil => cases h
  | cons line lines =>
    cases h
    rfl

theorem isRows_rowsFrom (continues : Bool) (start : Position) (offset : Nat) (text : Text) :
    IsRows (rowsFrom continues start offset text.lines) := by
  induction text using Text.line_induct generalizing continues start offset with
  | last content absent =>
    cases content with
    | nil => exact .nil
    | cons c cs =>
      rw [Text.lines_content absent (List.cons_ne_nil c cs)]
      refine ⟨fun r member => ?_, .singleton _⟩
      obtain rfl := List.mem_singleton.mp member
      exact ⟨List.cons_ne_nil c cs, fun member => absent (List.dropLast_subset _ member),
        Scan.map_piece_placed _ _ _⟩
  | more content rest absent ih =>
    rw [Text.lines_cons absent, rowsFrom]
    refine ⟨fun r member => ?_, List.isChain_cons.mpr ⟨fun r first => ?_, (ih _ _ _).chain⟩⟩
    · rcases List.mem_cons.mp member with rfl | member
      · exact ⟨by simp, by rwa [List.dropLast_concat], Scan.map_piece_placed _ _ _⟩
      · exact (ih _ _ _).lines r member
    · refine ⟨?_, continues_of_mem_head? first⟩
      obtain ⟨front, last, cut, breaks, _⟩ := Scan.exists_last_line absent
      have kinds : (Scan.placed start offset (Scan.line (content ++ ['\n']))).map Token.kind =
          (Scan.line (content ++ ['\n'])).map Piece.kind := by
        rw [← congrArg (List.map Piece.kind) (Scan.map_piece_placed start offset _), List.map_map]
        rfl
      rw [Row.ending, ← List.getLast?_map, kinds, cut]
      simp [breaks]

/-- The rows of a text follow one another. -/
theorem isRows_rows (text : Text) : IsRows (rows text) :=
  isRows_rowsFrom false ⟨0, 0⟩ 0 text

namespace Row

theorem IsLine.tokens_ne_nil (h : IsLine r) : r.tokens ≠ [] := by
  intro none
  have whole := Scan.join_line r.text
  rw [← h.tokens, none] at whole
  exact h.nonempty whole.symm

/-- Nothing stands behind a line break. -/
theorem IsLine.eq_nil_of_breaksLine (h : IsLine r) (cut : r.tokens = front ++ t :: back)
    (breaks : t.kind.breaksLine = true) : back = [] := by
  have pieces := h.tokens
  rw [cut, List.map_append, List.map_cons] at pieces
  have listed : t.piece ∈ Scan.line r.text := by simp [← pieces]
  have feed := Scan.feed_of_breaksLine listed breaks
  exact List.map_eq_nil_iff.mp (Scan.eq_nil_of_feed h.feed pieces.symm feed)

theorem IsLine.kind_of_mem_tail (h : IsLine r) (member : t ∈ r.tokens.tail) :
    t.kind ≠ .infoKey := by
  have listed : t.piece ∈ (Scan.line r.text).tail := by
    rw [← h.tokens, ← List.map_tail]
    exact List.mem_map_of_mem member
  exact Scan.kind_of_mem_tail_line listed

/-- A line opens a tune if its first token does. -/
theorem IsLine.opensTune_head? (h : IsLine r) :
    r.tokens.head?.any Token.opensTune = r.opensTune := by
  obtain ⟨t, ts, cut⟩ := List.exists_cons_of_ne_nil h.tokens_ne_nil
  have first : t.piece ∈ (Scan.line r.text).head? := by
    rw [← h.tokens, cut]
    rfl
  rw [cut, List.head?_cons, Option.any_some]
  rcases Scan.mem_head?_line first with ⟨c, rest, text, _, key⟩ | ⟨music, own⟩
  · obtain ⟨kind, lexeme⟩ : t.kind = .infoKey ∧ t.lexeme = [c, ':'] := by
      simpa [Token.piece] using key
    have front : r.opensTune = decide (c = 'X') := by
      rw [Row.opensTune, text, List.isPrefixOf, List.isPrefixOf, List.isPrefixOf]
      simp [Bool.beq_eq_decide_eq, eq_comm]
    simp [Token.opensTune, kind, lexeme, front]
  · rw [Token.opensTune_eq_false (Scan.kind_ne_infoKey_of_mem_musicLine own)]
    cases opens : r.opensTune with
    | false => rfl
    | true =>
      obtain ⟨rest, text⟩ := List.isPrefixOf_iff_prefix.mp opens
      exact absurd ⟨'X', rest, text.symm, by decide⟩ music

/-- The line feed of a row, if it has one that does not go on. -/
def eol (r : Row) : Option Token :=
  r.tokens.getLast?.filter (·.kind = .eol)

/-- The first token of a line opens a tune if the line does, and no other one. -/
theorem IsLine.exists_first (h : IsLine r) : ∃ t ts, r.tokens = t :: ts ∧
    t.opensTune = r.opensTune ∧ ∀ u ∈ ts, u.opensTune = false := by
  obtain ⟨t, ts, cut⟩ := List.exists_cons_of_ne_nil h.tokens_ne_nil
  have first := h.opensTune_head?
  rw [cut, List.head?_cons, Option.any_some] at first
  refine ⟨t, ts, cut, first, fun u member => ?_⟩
  exact Token.opensTune_eq_false (h.kind_of_mem_tail (cut ▸ member))

theorem exists_of_ending {r : Row} (h : r.ending.isSome = true) :
    ∃ t, r.tokens.getLast? = some t ∧ t.kind.breaksLine = true := by
  obtain ⟨k, found⟩ := Option.isSome_iff_exists.mp h
  obtain ⟨same, breaks⟩ := Option.filter_eq_some_iff.mp found
  obtain ⟨t, last, rfl⟩ := Option.map_eq_some_iff.mp same
  exact ⟨t, last, breaks⟩

theorem IsLine.isLine_tokens (h : IsLine r) : Token.IsLine r.tokens r.eol := by
  obtain ⟨front, last, cut⟩ := (List.eq_nil_or_concat' r.tokens).resolve_left h.tokens_ne_nil
  have inside : ∀ t ∈ front, t.kind ≠ .eol := by
    intro t member ends
    obtain ⟨before, behind, rfl⟩ := List.append_of_mem member
    rw [List.append_assoc, List.cons_append] at cut
    have none := h.eq_nil_of_breaksLine cut (by rw [ends]; rfl)
    simp at none
  refine ⟨?_, ?_, fun t member => Token.opensTune_eq_false (h.kind_of_mem_tail member)⟩
  · rw [eol, cut, List.getLast?_concat]
    by_cases ends : last.kind = .eol
    · exact ⟨front, by simp [Option.filter, ends], inside⟩
    · refine ⟨front ++ [last], by simp [Option.filter, ends], fun t member => ?_⟩
      rcases List.mem_append.mp member with member | member
      · exact inside t member
      · obtain rfl := List.mem_singleton.mp member
        exact ends
  · intro t member
    simpa using (Option.mem_filter_iff.mp member).2

theorem isSome_eol (r : Row) : r.eol.isSome = decide (r.ending = some .eol) := by
  rw [eol, ending]
  cases r.tokens.getLast? with
  | none => rfl
  | some t =>
    by_cases ends : t.kind = .eol
    · simp [ends, Kind.breaksLine]
    · simp [ends]

/-- What a blank line is to the grammar. -/
theorem IsLine.exists_gaps (h : IsLine r) (blank : Scan.isBlank r.text = true) :
    ∃ gaps : List Token, ∃ eol : Option Token, r.tokens = gaps ++ eol.toList ∧
      (∀ t ∈ gaps, t.isSpace = true) ∧ ∀ t ∈ eol, t.kind = .eol := by
  obtain ⟨gaps, eol, cut, spaces, ends⟩ := Scan.line_of_isBlank blank
  rw [← h.tokens] at cut
  obtain ⟨ts, us, whole, rfl, back⟩ := List.map_eq_append_iff.mp cut
  have space : ∀ t ∈ ts, t.isSpace = true := fun t member =>
    decide_eq_true (spaces t.piece (List.mem_map_of_mem member))
  cases eol with
  | none => exact ⟨ts, none, by simpa [List.map_eq_nil_iff.mp back] using whole, space, by simp⟩
  | some e =>
    obtain ⟨u, rfl, rfl⟩ := List.map_eq_singleton_iff.mp back
    exact ⟨ts, some u, whole, space, fun t member => by cases member; exact ends _ rfl⟩

theorem IsLine.exists_visible (h : IsLine r) (blank : Scan.isBlank r.text = false) :
    ∃ gaps t rest, r.tokens = gaps ++ t :: rest ∧ (∀ u ∈ gaps, u.isSpace = true) ∧
      t.isSpace = false ∧ t.kind ≠ .eol := by
  obtain ⟨gaps, p, rest, cut, spaces, visible, plain⟩ := Scan.line_of_not_isBlank h.feed blank
  rw [← h.tokens] at cut
  obtain ⟨ts, us, whole, rfl, back⟩ := List.map_eq_append_iff.mp cut
  obtain ⟨u, us, rfl, rfl, rfl⟩ := List.map_eq_cons_iff.mp back
  exact ⟨ts, u, us, whole, fun t member => decide_eq_true (spaces t.piece (List.mem_map_of_mem member)),
    decide_eq_false visible, plain⟩

end Row

namespace Token

variable {gaps : List Token} (space : ∀ t ∈ gaps, t.isSpace = true)
include space

theorem startsBlankLine_gaps (us : List Token) :
    startsBlankLine (gaps ++ us) = startsBlankLine us := by
  rw [startsBlankLine, startsBlankLine, List.dropWhile_append_of_pos space]

theorem splitBlankLines_gaps : splitBlankLines gaps = (gaps, []) :=
  splitBlankLines_of_nil (List.dropWhile_eq_nil_iff.mpr space)

theorem splitBlankLines_eol (ends : e.kind = .eol) (us : List Token) :
    splitBlankLines (gaps ++ e :: us) = before (gaps ++ [e]) (splitBlankLines us) := by
  have stops : ∀ t ∈ (e :: us).head?, t.isSpace = false := by simp [isSpace, ends]
  obtain ⟨taken, dropped⟩ := span_append space stops
  rw [splitBlankLines_of_eol dropped ends, taken, before, List.append_assoc,
    List.singleton_append]

theorem splitBlankLines_visible (visible : t.isSpace = false) (plain : t.kind ≠ .eol)
    (us : List Token) : splitBlankLines (gaps ++ t :: us) = ([], gaps ++ t :: us) := by
  have stops : ∀ u ∈ (t :: us).head?, u.isSpace = false := by simp [visible]
  exact splitBlankLines_of_visible (span_append space stops).2 plain

end Token

namespace IsRows
open Row

theorem eq_nil_of_ending (h : IsRows (r :: rs)) (none : r.ending = none) : rs = [] := by
  cases rs with
  | nil => rfl
  | cons s rs =>
    have ends := h.next.1
    rw [none] at ends
    cases ends

/-- A blank row does not go on in the next. -/
theorem continues_of_isBlank (h : IsRows (r :: s :: rs)) (blank : Scan.isBlank r.text = true) :
    s.continues = false := by
  obtain ⟨gaps, eol, cut, space, ends⟩ := h.head.exists_gaps blank
  rw [h.next.2, decide_eq_false_iff_not]
  intro goes
  obtain ⟨last, found⟩ : ∃ t ∈ r.tokens.getLast?, t.kind = .antislashEol := by
    simp only [ending, Option.filter_eq_some_iff, Option.map_eq_some_iff] at goes
    exact goes.1
  have member := List.mem_of_getLast? found.1
  rw [cut, List.mem_append, Option.mem_toList] at member
  rcases member with member | member
  · have spaces := space _ member
    simp [Token.isSpace, found.2] at spaces
  · have line := ends _ member
    simp [found.2] at line

/-- Where a line does not go on, a new one starts. -/
theorem continues_eq (h : IsRows (r :: s :: rs)) :
    s.continues = !decide (r.ending = some .eol) := by
  obtain ⟨ends, goes⟩ := h.next
  obtain ⟨k, found⟩ := Option.isSome_iff_exists.mp ends
  have breaks : k.breaksLine = true := (Option.filter_eq_some_iff.mp found).2
  rw [goes, found]
  cases k <;> first | rfl | cases breaks

theorem ending_of_gaps {r : Row} (space : ∀ t ∈ r.tokens, t.isSpace = true) : r.ending = none := by
  rw [ending, Option.filter_eq_none_iff]
  intro k found breaks
  obtain ⟨t, last, rfl⟩ := Option.map_eq_some_iff.mp found
  have gap := of_decide_eq_true (space t (List.mem_of_getLast? last))
  rw [gap] at breaks
  cases breaks

theorem startsBlankLine (h : IsRows (r :: rs)) :
    Token.startsBlankLine (join (r :: rs)) = Scan.isBlank r.text := by
  rw [join, List.flatMap_cons]
  cases blank : Scan.isBlank r.text with
  | true =>
    obtain ⟨gaps, eol, cut, space, ends⟩ := h.head.exists_gaps blank
    cases eol with
    | none =>
      rw [Option.toList_none, List.append_nil] at cut
      obtain rfl := h.eq_nil_of_ending (ending_of_gaps (cut ▸ space))
      rw [cut, Token.startsBlankLine_gaps space]
      rfl
    | some e =>
      rw [cut, List.append_assoc, Token.startsBlankLine_gaps space]
      simp [Token.startsBlankLine, Token.isSpace, ends e rfl]
  | false =>
    obtain ⟨gaps, t, rest, cut, space, visible, plain⟩ := h.head.exists_visible blank
    rw [cut, List.append_assoc, Token.startsBlankLine_gaps space]
    simp [Token.startsBlankLine, visible, plain]

theorem splitBlankLines (h : IsRows (r :: rs)) : Token.splitBlankLines (join (r :: rs)) =
    if Scan.isBlank r.text then before r.tokens (Token.splitBlankLines (join rs))
    else ([], join (r :: rs)) := by
  rw [join, List.flatMap_cons]
  cases blank : Scan.isBlank r.text with
  | true =>
    obtain ⟨gaps, eol, cut, space, ends⟩ := h.head.exists_gaps blank
    cases eol with
    | none =>
      rw [Option.toList_none, List.append_nil] at cut
      obtain rfl := h.eq_nil_of_ending (ending_of_gaps (cut ▸ space))
      rw [cut, List.flatMap_nil, List.append_nil, Token.splitBlankLines_gaps space]
      simp [Token.splitBlankLines, before]
    | some e =>
      rw [cut, List.append_assoc, Option.toList_some, List.singleton_append,
        Token.splitBlankLines_eol space (ends e rfl)]
      rfl
  | false =>
    obtain ⟨gaps, t, rest, cut, space, visible, plain⟩ := h.head.exists_visible blank
    rw [cut, List.append_assoc, List.cons_append, Token.splitBlankLines_visible space visible plain]
    rfl

/-- The blank rows at the front are what is split off as blank lines. -/
theorem splitBlankLines_rows (h : IsRows rs) (fresh : ∀ r ∈ rs.head?, r.continues = false) :
    Token.splitBlankLines (join rs) =
      (join (rs.takeWhile isBlank), join (rs.dropWhile isBlank)) := by
  induction rs with
  | nil => simp [Token.splitBlankLines]
  | cons r rs ih =>
    have plain : r.isBlank = Scan.isBlank r.text := by simp [isBlank, fresh r rfl]
    rw [h.splitBlankLines]
    cases blank : Scan.isBlank r.text with
    | true =>
      have next : ∀ s ∈ rs.head?, s.continues = false := by
        intro s first
        obtain ⟨others, rfl⟩ := List.head?_eq_some_iff.mp first
        exact h.continues_of_isBlank blank
      rw [ih h.tail next]
      simp [plain, blank, before, join]
    | false => simp [plain, blank]

theorem splitBlock (h : IsRows (r :: rs)) (opens : (r.opensTune && !isFirst) = false)
    (visible : (atLineStart && Scan.isBlank r.text) = false) :
    Token.splitBlock isFirst atLineStart (join (r :: rs)) =
      before r.tokens (Token.splitBlock false (r.ending = some .eol) (join rs)) := by
  obtain ⟨t, ts, cut, first, _⟩ := h.head.exists_first
  have whole : r.tokens ++ join rs = t :: (ts ++ join rs) := by rw [cut, List.cons_append]
  rw [← h.startsBlankLine, join, List.flatMap_cons, whole] at visible
  rw [join, List.flatMap_cons, whole, ← isSome_eol]
  exact h.head.isLine_tokens.splitBlock whole h.head.tokens_ne_nil (first ▸ opens) visible

theorem splitBlock_stops (h : IsRows (r :: rs)) (start : r.continues = !atLineStart)
    (stops : inBlock r = false) :
    Token.splitBlock false atLineStart (join (r :: rs)) = ([], join (r :: rs)) := by
  obtain ⟨t, ts, cut, first, _⟩ := h.head.exists_first
  have whole : join (r :: rs) = t :: (ts ++ join rs) := by
    rw [join, List.flatMap_cons, cut, List.cons_append]
  have blank := h.startsBlankLine
  rw [whole] at blank ⊢
  rw [Token.splitBlock, first, blank, if_pos]
  cases opens : r.opensTune with
  | true => rfl
  | false =>
    cases atLineStart <;> simp_all [inBlock, isBlank]

/-- The rows of a block at the front are what is split off as a block. -/
theorem splitBlock_rows (h : IsRows rs) (start : ∀ r ∈ rs.head?, r.continues = !atLineStart) :
    Token.splitBlock false atLineStart (join rs) =
      (join (rs.takeWhile inBlock), join (rs.dropWhile inBlock)) := by
  induction rs generalizing atLineStart with
  | nil => rfl
  | cons r rs ih =>
    have own := start r rfl
    cases goes : inBlock r with
    | false =>
      rw [h.splitBlock_stops own goes]
      simp [goes]
    | true =>
      have opens : r.opensTune = false := by
        simp only [inBlock, Bool.and_eq_true, Bool.not_eq_true'] at goes
        exact goes.1
      have visible : (atLineStart && Scan.isBlank r.text) = false := by
        simp only [inBlock, isBlank, own, Bool.not_not, Bool.and_eq_true, Bool.not_eq_true'] at goes
        rw [Bool.and_comm]
        exact goes.2
      have next : ∀ s ∈ rs.head?, s.continues = !decide (r.ending = some .eol) := by
        intro s first
        obtain ⟨others, rfl⟩ := List.head?_eq_some_iff.mp first
        exact h.continues_eq
      rw [h.splitBlock (by simp [opens]) visible, ih h.tail next]
      simp [goes, before]

/-- Behind the blank rows at the front a line starts that is not blank. -/
theorem visible_dropWhile (h : IsRows rs) (fresh : ∀ r ∈ rs.head?, r.continues = false) :
    ∀ r ∈ (rs.dropWhile isBlank).head?, Scan.isBlank r.text = false := by
  induction rs with
  | nil => simp
  | cons r rs ih =>
    have plain : r.isBlank = Scan.isBlank r.text := by simp [isBlank, fresh r rfl]
    cases blank : Scan.isBlank r.text with
    | true =>
      rw [List.dropWhile_cons_of_pos (plain.trans blank)]
      refine ih h.tail fun s first => ?_
      obtain ⟨others, rfl⟩ := List.head?_eq_some_iff.mp first
      exact h.continues_of_isBlank blank
    | false =>
      rw [List.dropWhile_cons_of_neg (by simp [plain, blank])]
      rintro s ⟨⟩
      exact blank

/-! Keys that open tunes. -/

theorem opensTune_of_mem (h : IsRows rs) (plain : ∀ r ∈ rs, r.opensTune = false) :
    ∀ t ∈ join rs, t.opensTune = false := by
  intro t member
  obtain ⟨r, listed, member⟩ := List.mem_flatMap.mp member
  obtain ⟨u, us, cut, first, later⟩ := (h.lines r listed).exists_first
  rw [cut] at member
  rcases List.mem_cons.mp member with rfl | member
  · exact first.trans (plain r listed)
  · exact later t member

theorem join_eq_nil (h : IsRows rs) : join rs = [] ↔ rs = [] := by
  refine ⟨fun none => List.eq_nil_iff_forall_not_mem.mpr fun r member => ?_, fun none => none ▸ rfl⟩
  exact (h.lines r member).tokens_ne_nil (List.flatMap_eq_nil_iff.mp none r member)

/-! No space stands behind a comment. -/

theorem isChain_join (h : IsRows rs) : (join rs).IsChain Token.IsTight := by
  induction rs with
  | nil => exact .nil
  | cons r rs ih =>
    have own : r.tokens.IsChain Token.IsTight := by
      have pieces := Scan.isChain_line r.text
      rw [← h.head.tokens, List.isChain_map] at pieces
      exact pieces
    refine List.isChain_append.mpr ⟨own, ih h.tail, ?_⟩
    intro t last u first comment
    cases rs with
    | nil => cases first
    | cons s rs =>
      obtain ⟨e, ends, breaks⟩ := exists_of_ending h.next.1
      obtain rfl := Option.some_inj.mp (ends.symm.trans last)
      rw [Kind.breaksLine_of_isComment comment] at breaks
      cases breaks

end IsRows
end Tunebook
