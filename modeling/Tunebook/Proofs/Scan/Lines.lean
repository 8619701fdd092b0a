import Tunebook.Proofs.Scan.Cut
import Tunebook.Proofs.Scan.LineFeeds

/-! The pieces of one line. A key can only come first and a line break only last, a blank line is space
and a line break, and a comment has no space behind it. -/
namespace Tunebook
open Pattern

/-- The kinds that a value and a comment are cut into. -/
def Kind.isProse (k : Kind) : Bool :=
  k matches .whitespace | .freeText | .comment | .stylesheetDirective

theorem Kind.breaksLine_of_isProse (h : isProse k = true) : k.breaksLine = false := by
  cases k <;> first | rfl | cases h

theorem Kind.breaksLine_of_isComment (h : isComment k = true) : k.breaksLine = false := by
  cases k <;> first | rfl | cases h

/-- Behind the content of a line are all the line breaks that end it. -/
theorem Text.isSuffix_drop_lineContent (breaks : ∀ c ∈ ends, isLineBreak c = true)
    (h : ends <:+ line) : ends <:+ line.drop (lineContent line).length := by
  obtain ⟨ending, split⟩ : lineContent line <+: line := dropTrailing_isPrefix isLineBreak line
  have left : line.drop (lineContent line).length = ending :=
    (congrArg _ split).symm.trans List.drop_left
  rw [left]
  rcases List.suffix_or_suffix_of_suffix h ⟨lineContent line, split⟩ with inside | ⟨more, rfl⟩
  · exact inside
  · obtain ⟨before, whole⟩ := h
    rw [← split, ← List.append_assoc] at whole
    have content : before ++ more = lineContent line := List.append_cancel_right whole
    rcases List.eq_nil_or_concat' more with rfl | ⟨_, c, rfl⟩
    · exact List.suffix_rfl
    · have last : c ∈ (dropTrailing isLineBreak line).getLast? := by
        rw [show dropTrailing isLineBreak line = _ from content.symm]
        simp
      have kept : isLineBreak c = false := not_of_mem_getLast?_dropTrailing last
      rw [breaks c (by simp)] at kept
      cases kept

/-- The piece that a token was made of. -/
def Token.piece (t : Token) : Piece :=
  ⟨t.kind, t.lexeme⟩

namespace Scan

theorem map_piece_placed (start : Position) (offset : Nat) (ps : List Piece) :
    (placed start offset ps).map Token.piece = ps := by
  induction ps generalizing start offset with
  | nil => rfl
  | cons p ps ih => simp [placed, Token.piece, ih]

theorem pieces_content {content : Text} (h : '\n' ∉ content) : pieces content = line content := by
  cases content with
  | nil => simp [pieces, Text.lines, line, musicLine, music]
  | cons c cs => simp [pieces, Text.lines_content h]

theorem pieces_line {content : Text} (h : '\n' ∉ content) (rest : Text) :
    pieces (content ++ '\n' :: rest) = line (content ++ ['\n']) ++ pieces rest := by
  rw [List.append_cons, pieces, Text.lines_append (.inr (by simp)), Text.lines_line h]
  rfl

/-- A line that starts like an information line. -/
def IsField (cs : Text) : Prop :=
  ∃ c rest, cs = c :: ':' :: rest ∧ startsField c = true

theorem line_of_not_field (h : ¬IsField cs) : line cs = musicLine cs := by
  obtain music | ⟨c, rest, starts, same, _⟩ := line_cases cs
  · exact music
  · exact absurd ⟨c, rest, same, starts⟩ h

/-- The rule that cut a piece, if any did, and what it matched. -/
theorem matches_of_mem_musicLine (h : p ∈ musicLine cs) (valid : p.kind ≠ .invalid) :
    ∃ rule ∈ Rule.music, rule.kind = p.kind ∧ Matches rule.pattern p.text := by
  rcases exists_rule_of_mem_musicLine h with invalid | ⟨rule, member, same, us, n, longest, text⟩
  · exact absurd invalid valid
  · exact ⟨rule, member, same, text ▸ (matches_of_longest longest).2⟩

theorem matches_of_kind (rule : Rule) (h : p ∈ musicLine cs) (hk : p.kind = rule.kind)
    (found : Rule.music.find? (·.kind = rule.kind) = some rule) : Matches rule.pattern p.text := by
  have valid : p.kind ≠ .invalid := by
    have every : Rule.music.all (·.kind ≠ .invalid) = true := by decide
    have row := List.all_eq_true.mp every rule (List.mem_of_find?_eq_some found)
    rw [hk]
    simpa using row
  obtain ⟨winner, member, same, whole⟩ := matches_of_mem_musicLine h valid
  obtain rfl : rule = winner := Rule.eq_of_kind member (same.trans hk) found
  exact whole

theorem matches_lineFeed : Matches Rule.lineFeed w ↔ w = ['\n'] ∨ w = ['\r', '\n'] := by
  constructor
  · intro h
    obtain ⟨s, t, rfl, first, second⟩ := matches_seq.mp h
    obtain ⟨d, feed, rfl⟩ := matches_char.mp second
    obtain rfl := of_decide_eq_true feed
    rcases matches_alt.mp first with first | first
    · obtain ⟨c, return', rfl⟩ := matches_char.mp first
      obtain rfl := of_decide_eq_true return'
      exact .inr rfl
    · obtain rfl := matches_empty.mp first
      exact .inl rfl
  · rintro (rfl | rfl)
    · exact .seq (s := []) (.right .empty) (.char rfl)
    · exact .seq (s := ['\r']) (.left (.char rfl)) (.char rfl)

theorem text_of_eol (h : p ∈ musicLine cs) (hk : p.kind = .eol) :
    p.text = ['\n'] ∨ p.text = ['\r', '\n'] :=
  matches_lineFeed.mp (matches_of_kind ⟨.eol, Rule.lineFeed⟩ h hk rfl)

theorem isGap_of_whitespace (h : p ∈ musicLine cs) (hk : p.kind = .whitespace) :
    ∀ c ∈ p.text, isGap c = true := by
  have whole := matches_of_kind ⟨.whitespace, plus (oneOf " \t")⟩ h hk rfl
  intro c member
  have listed := (matches_plus_char.mp whole).2 c member
  simpa [isGap] using listed

theorem getLast?_of_breaksLine (h : p ∈ musicLine cs) (hk : p.kind.breaksLine = true) :
    p.text.getLast? = some '\n' := by
  cases kind : p.kind with
  | eol => rcases text_of_eol h kind with text | text <;> simp [text]
  | antislashEol =>
    have whole := matches_of_kind ⟨.antislashEol, seq (just '\\') Rule.lineFeed⟩ h kind rfl
    obtain ⟨s, t, same, _, ends⟩ := matches_seq.mp whole
    rw [same]
    rcases matches_lineFeed.mp ends with rfl | rfl <;> simp
  | _ => rw [kind] at hk; cases hk

theorem feed_of_mem_musicLine (h : p ∈ musicLine cs) (hk : p.kind.breaksLine = true) :
    '\n' ∈ p.text :=
  List.mem_of_getLast? (getLast?_of_breaksLine h hk)

/-- An information line is its key, prose, and line breaks cut as music. -/
theorem mem_infoLine (h : p ∈ (infoLine key rest).tail) :
    p.kind.isProse = true ∨ p ∈ musicLine (rest.drop (Text.lineContent rest).length) := by
  simp only [infoLine, List.cons_append, List.tail_cons, List.mem_append] at h
  rcases h with (value | comment) | ends
  · obtain ⟨run, _, rfl⟩ := List.mem_map.mp value
    dsimp only
    split <;> exact .inl rfl
  · unfold commentPiece at comment
    split at comment
    · cases comment
    · obtain rfl := List.mem_singleton.mp comment
      exact .inl rfl
    · obtain rfl := List.mem_singleton.mp comment
      exact .inl rfl
  · exact .inr ends

/-- Past the first piece of a line, what is not prose is cut as music. -/
theorem mem_tail_line (h : p ∈ (line cs).tail) :
    p.kind.isProse = true ∨ ∃ us, p ∈ musicLine us := by
  by_cases field : IsField cs
  · obtain ⟨c, rest, rfl, starts⟩ := field
    rw [line, if_pos starts] at h
    exact (mem_infoLine h).imp_right fun own => ⟨_, own⟩
  · rw [line_of_not_field field] at h
    exact .inr ⟨cs, List.mem_of_mem_tail h⟩

theorem kind_ne_infoKey_of_mem_musicLine (h : p ∈ musicLine cs) : p.kind ≠ .infoKey := by
  rcases exists_rule_of_mem_musicLine h with invalid | ⟨rule, member, same, _⟩
  · simp [invalid]
  · have every : Rule.music.all (·.kind ≠ .infoKey) = true := by decide
    have row := List.all_eq_true.mp every rule member
    rw [← same]
    simpa using row

theorem kind_of_mem_tail_line (h : p ∈ (line cs).tail) : p.kind ≠ .infoKey := by
  rcases mem_tail_line h with prose | ⟨us, own⟩
  · intro key
    rw [key] at prose
    cases prose
  · exact kind_ne_infoKey_of_mem_musicLine own

/-- The first piece of a line is its key, if it has one. -/
theorem mem_head?_line (h : p ∈ (line cs).head?) :
    (∃ c rest, cs = c :: ':' :: rest ∧ startsField c = true ∧ p = ⟨.infoKey, [c, ':']⟩) ∨
      (¬IsField cs ∧ p ∈ musicLine cs) := by
  by_cases field : IsField cs
  · obtain ⟨c, rest, rfl, starts⟩ := field
    rw [line, if_pos starts] at h
    cases h
    exact .inl ⟨c, rest, rfl, starts, rfl⟩
  · rw [line_of_not_field field] at h
    exact .inr ⟨field, List.mem_of_mem_head? h⟩

theorem feed_of_breaksLine (h : p ∈ line cs) (hk : p.kind.breaksLine = true) : '\n' ∈ p.text := by
  cases found : line cs with
  | nil => rw [found] at h; cases h
  | cons q qs =>
    rw [found] at h
    rcases List.mem_cons.mp h with rfl | h
    · rcases mem_head?_line (found ▸ rfl : p ∈ (line cs).head?) with ⟨c, rest, _, _, rfl⟩ | ⟨_, own⟩
      · cases hk
      · exact feed_of_mem_musicLine own hk
    · rcases mem_tail_line (found ▸ h : p ∈ (line cs).tail) with prose | ⟨us, own⟩
      · rw [Kind.breaksLine_of_isProse prose] at hk
        cases hk
      · exact feed_of_mem_musicLine own hk

/-! A line break is the last piece of its line. -/

theorem exists_last_line {content : Text} (absent : '\n' ∉ content) :
    ∃ front last, line (content ++ ['\n']) = front ++ [last] ∧ last.kind.breaksLine = true ∧
      ∀ p ∈ front, p.kind.breaksLine = false := by
  have whole := join_line (content ++ ['\n'])
  rcases List.eq_nil_or_concat' (line (content ++ ['\n'])) with none | ⟨front, last, cut⟩
  · rw [none] at whole
    simp at whole
  · have listed : last ∈ line (content ++ ['\n']) := by simp [cut]
    obtain ⟨body, c, text⟩ : ∃ body c, last.text = body ++ [c] :=
      (List.eq_nil_or_concat' last.text).resolve_left (isProper_of_mem_line listed).1
    rw [cut, Piece.join_append, Piece.join_cons, Piece.join_nil, List.append_nil, text,
      ← List.append_assoc] at whole
    obtain ⟨before, ends⟩ := List.append_inj' whole rfl
    obtain rfl := List.singleton_inj.mp ends
    have own : '\n' ∉ (content ++ ['\n']).dropLast := by rwa [List.dropLast_concat]
    refine ⟨front, last, cut, breaksLine_of_mem_line own listed (by simp [text]), ?_⟩
    intro p member
    cases breaks : p.kind.breaksLine with
    | false => rfl
    | true =>
      have listed : p ∈ line (content ++ ['\n']) := by simp [cut, member]
      have inside := mem_join member (feed_of_breaksLine listed breaks)
      exact absurd (before ▸ List.mem_append_left body inside) absent

/-! A carriage return is part of the line feed behind it, and otherwise invalid. -/

/-- Ends of lines with a carriage return that no line feed takes in. -/
def strayReturns : List Text :=
  [['\r'], ['\r', '\r', '\n']]

theorem isLineBreak_of_stray (stray : ends ∈ strayReturns) : ∀ c ∈ ends, Text.isLineBreak c = true := by
  have every : strayReturns.all (List.all · Text.isLineBreak) = true := by decide
  exact List.all_eq_true.mp (List.all_eq_true.mp every ends stray)

theorem getLast?_ne_return_of_mem_musicLine (h : p ∈ musicLine cs) (valid : p.kind ≠ .invalid) :
    p.text.getLast? ≠ some '\r' := by
  intro ends
  cases breaks : p.kind.breaksLine with
  | true =>
    rw [getLast?_of_breaksLine h breaks] at ends
    cases ends
  | false =>
    obtain ⟨rule, member, same, matched⟩ := matches_of_mem_musicLine h valid
    have avoids := Rule.avoids_of_not_breaksLine (c := '\r') member (same ▸ breaks) rfl
    exact Pattern.not_mem_of_avoids avoids matched (List.mem_of_getLast? ends)

/-- Where all pieces are valid, they end with a carriage return nowhere. -/
theorem getLast?_join_ne_return (h : front <+: musicLine cs)
    (valid : ∀ p ∈ musicLine cs, p.kind ≠ .invalid) : (Piece.join front).getLast? ≠ some '\r' := by
  rcases List.eq_nil_or_concat' front with rfl | ⟨before, last, rfl⟩
  · simp
  · have listed : last ∈ musicLine cs := h.subset (by simp)
    rw [Piece.join_append, Piece.join_cons, Piece.join_nil, List.append_nil,
      List.getLast?_append_of_ne_nil _ (isProper_of_mem_musicLine listed).1]
    exact getLast?_ne_return_of_mem_musicLine listed (valid last listed)

theorem text_of_antislashEol (h : p ∈ musicLine cs) (hk : p.kind = .antislashEol) :
    p.text = ['\\', '\n'] ∨ p.text = ['\\', '\r', '\n'] := by
  have whole := matches_of_kind ⟨.antislashEol, seq (just '\\') Rule.lineFeed⟩ h hk rfl
  obtain ⟨s, t, same, first, ends⟩ := matches_seq.mp whole
  obtain ⟨c, slash, rfl⟩ := matches_char.mp first
  obtain rfl := of_decide_eq_true slash
  rw [same]
  exact (matches_lineFeed.mp ends).imp (congrArg _) (congrArg _)

theorem exists_invalid_musicLine (stray : ends ∈ strayReturns) (h : ends <:+ cs) :
    ∃ p ∈ musicLine cs, p.kind = .invalid := by
  by_contra none
  have valid : ∀ p ∈ musicLine cs, p.kind ≠ .invalid := fun p member invalid =>
    none ⟨p, member, invalid⟩
  have whole : Piece.join (musicLine cs) = cs := join_music _ cs
  obtain ⟨before, rfl⟩ := h
  rcases List.mem_pair.mp stray with rfl | rfl
  · refine getLast?_join_ne_return List.prefix_rfl valid ?_
    rw [whole, List.getLast?_append]
    rfl
  · -- the line feed leaves a carriage return to the pieces before it
    rcases List.eq_nil_or_concat' (musicLine _) with empty | ⟨front, last, cut⟩
    · rw [empty] at whole
      simp at whole
    · have listed : last ∈ musicLine (before ++ ['\r', '\r', '\n']) := by simp [cut]
      have final := getLast?_join_ne_return ⟨[last], cut.symm⟩ valid
      rw [cut, Piece.join_append, Piece.join_cons, Piece.join_nil, List.append_nil] at whole
      have feed : last.text.getLast? = some '\n' := by
        rw [← List.getLast?_append_of_ne_nil (Piece.join front)
          (isProper_of_mem_musicLine listed).1, whole, List.getLast?_append]
        rfl
      have breaks := breaksLine_of_mem_musicLine listed (List.mem_of_getLast? feed)
      have flipped := congrArg List.reverse whole
      rw [← List.head?_reverse] at final
      cases kind : last.kind with
      | eol =>
        rcases text_of_eol listed kind with text | text <;> simp [text] at flipped <;>
          simp [flipped] at final
      | antislashEol =>
        rcases text_of_antislashEol listed kind with text | text <;> simp [text] at flipped
      | _ => rw [kind] at breaks; cases breaks

theorem exists_invalid_line (stray : ends ∈ strayReturns) (h : ends <:+ cs) :
    ∃ p ∈ line cs, p.kind = .invalid := by
  by_cases field : IsField cs
  · obtain ⟨c, rest, rfl, starts⟩ := field
    have breaks := isLineBreak_of_stray stray
    have inside : ends <:+ rest := by
      -- neither the key nor its colon is part of a line break
      obtain ⟨before, whole⟩ := h
      match before, whole with
      | _ :: _ :: before, whole =>
        injection whole with _ whole
        injection whole with _ whole
        exact ⟨before, whole⟩
      | [d], whole =>
        injection whole with _ whole
        have own := breaks ':' (by rw [show ends = _ from whole]; simp)
        cases own
      | [], whole =>
        have own := breaks ':' (by rw [show ends = _ from whole]; simp)
        cases own
    rw [line, if_pos starts]
    obtain ⟨p, member, invalid⟩ := exists_invalid_musicLine stray
      (Text.isSuffix_drop_lineContent breaks inside)
    exact ⟨p, List.mem_append_right _ member, invalid⟩
  · rw [line_of_not_field field]
    exact exists_invalid_musicLine stray h

theorem exists_invalid_pieces {text : Text} (stray : ends ∈ strayReturns)
    (listed : l ∈ Text.lines text) (h : ends <:+ l) : ∃ p ∈ pieces text, p.kind = .invalid := by
  obtain ⟨p, member, invalid⟩ := exists_invalid_line stray h
  exact ⟨p, List.mem_flatMap.mpr ⟨l, listed, member⟩, invalid⟩

/-- In a text without errors every carriage return has its line feed. -/
theorem not_isSuffix_of_mem_lines {text : Text}
    (lexical : ∀ t ∈ textTokens text, t.lexicalFault? = none) (listed : l ∈ Text.lines text)
    (stray : ends ∈ strayReturns) : ¬ends <:+ l := by
  intro h
  obtain ⟨p, member, invalid⟩ := exists_invalid_pieces stray listed h
  rw [← map_piece_placed ⟨0, 0⟩ 0 (pieces text)] at member
  obtain ⟨t, listed, rfl⟩ := List.mem_map.mp member
  have silent := lexical t listed
  have kind : t.kind = .invalid := invalid
  simp [Token.lexicalFault?, kind] at silent

theorem exists_line_of_return {text : Text} (h : text.getLast? = some '\r') :
    ∃ l ∈ Text.lines text, ['\r'] <:+ l := by
  induction text using Text.line_induct with
  | last content absent =>
    obtain ⟨before, rfl⟩ := List.getLast?_eq_some_iff.mp h
    rw [Text.lines_content absent (by simp)]
    exact ⟨_, List.mem_singleton_self _, List.suffix_append before _⟩
  | more content rest absent ih =>
    have left : rest.getLast? = some '\r' := by
      cases rest with
      | nil => simp at h
      | cons c cs =>
        rwa [List.getLast?_append_of_ne_nil _ (List.cons_ne_nil _ _), List.getLast?_cons_cons] at h
    obtain ⟨l, listed, ends⟩ := ih left
    rw [Text.lines_cons absent]
    exact ⟨l, List.mem_cons_of_mem _ listed, ends⟩

/-! Blank lines. -/

/-- Nothing but space before the line break, or before the end. -/
def isBlank (cs : Text) : Bool :=
  [[], ['\n'], ['\r', '\n']].contains (cs.dropWhile isGap)

theorem not_isField_of_isBlank (h : isBlank cs = true) : ¬IsField cs := by
  rintro ⟨c, rest, rfl, starts⟩
  cases gap : isGap c with
  | false => simp [isBlank, gap] at h
  | true =>
    rcases (by simpa [isGap] using gap : c = ' ' ∨ c = '\t') with rfl | rfl <;> cases starts

theorem cut_eol (h : ends ∈ [['\n'], ['\r', '\n']]) : Cut [⟨.eol, ends⟩] := by
  rcases (by simpa using h : ends = ['\n'] ∨ ends = ['\r', '\n']) with rfl | rfl
  · exact Cut.single (by decide) trivial
  · exact ⟨by simp, by decide, trivial⟩

/-- A blank line is a gap, if it has one, and a line break, if it has one. -/
theorem line_of_isBlank (h : isBlank cs = true) : ∃ gaps : List Piece, ∃ eol : Option Piece,
    line cs = gaps ++ eol.toList ∧ (∀ p ∈ gaps, p.kind = .whitespace) ∧
      ∀ p ∈ eol, p.kind = .eol := by
  obtain ⟨eol, cutEnd, text, kind⟩ : ∃ eol : Option Piece, Cut eol.toList ∧
      Piece.join eol.toList = cs.dropWhile isGap ∧ ∀ p ∈ eol, p.kind = .eol := by
    simp only [isBlank, List.contains_iff_mem] at h
    rcases List.mem_cons.mp h with bare | ends
    · exact ⟨none, trivial, bare.symm, by simp⟩
    · exact ⟨some ⟨.eol, cs.dropWhile isGap⟩, cut_eol ends, by simp, by simp⟩
  obtain ⟨gaps, cut, front, spaces⟩ : ∃ gaps : List Piece, Cut (gaps ++ eol.toList) ∧
      Piece.join gaps = cs.takeWhile isGap ∧ ∀ p ∈ gaps, p.kind = .whitespace := by
    by_cases bare : cs.takeWhile isGap = []
    · exact ⟨[], cutEnd, bare.symm, by simp⟩
    · refine ⟨[⟨.whitespace, cs.takeWhile isGap⟩], ?_, by simp, by simp⟩
      refine Cut.run isRun_whitespace bare ?_ ?_ cutEnd
      · intro c member
        have gap := List.all_eq_true.mp List.all_takeWhile c member
        simpa [isGap] using gap
      · intro p first
        have ends := kind p (by simpa using first)
        simp [ends]
  refine ⟨gaps, eol, ?_, spaces, kind⟩
  rw [line_of_not_field (not_isField_of_isBlank h), ← musicLine_of_cut cut, Piece.join_append, front,
    text, List.takeWhile_append_dropWhile]

theorem isBlank_of_line {gaps : List Piece} (eol : Option Piece) (cut : line cs = gaps ++ eol.toList)
    (spaces : ∀ p ∈ gaps, p.kind = .whitespace) (ends : ∀ p ∈ eol, p.kind = .eol) :
    isBlank cs = true := by
  have kinds : ∀ p ∈ line cs, p.kind = .whitespace ∨ p.kind = .eol := by
    intro p member
    rw [cut, List.mem_append, Option.mem_toList] at member
    exact member.imp (spaces p) (ends p)
  have music : line cs = musicLine cs := by
    refine line_of_not_field ?_
    rintro ⟨c, rest, rfl, starts⟩
    have first : (⟨.infoKey, [c, ':']⟩ : Piece) ∈ line (c :: ':' :: rest) := by
      simp [line, starts, infoLine]
    simpa using kinds _ first
  have whole := join_line cs
  rw [cut, Piece.join_append] at whole
  have gap : ∀ c ∈ Piece.join gaps, isGap c = true := by
    intro c member
    obtain ⟨p, listed, inside⟩ := List.mem_flatMap.mp member
    have own : p ∈ musicLine cs := by
      rw [← music, cut]
      exact List.mem_append_left _ listed
    exact isGap_of_whitespace own (spaces p listed) c inside
  rw [isBlank, ← whole, List.dropWhile_append_of_pos gap]
  cases eol with
  | none => rfl
  | some e =>
    have own : e ∈ musicLine cs := by
      rw [← music, cut]
      simp
    rcases text_of_eol own (ends e rfl) with text | text <;> simp [text, isGap]

theorem eq_nil_of_feed (last : '\n' ∉ cs.dropLast) (cut : line cs = front ++ p :: rest)
    (feed : '\n' ∈ p.text) : rest = [] := by
  cases rest with
  | nil => rfl
  | cons q rest =>
    have listed : q ∈ line cs := by simp [cut]
    have proper := isProper_of_mem_line listed
    have whole := join_line cs
    rw [cut, Piece.join_append, Piece.join_cons, Piece.join_cons, ← List.append_assoc] at whole
    rw [← whole, List.dropLast_append_of_ne_nil (by simp [proper.1])] at last
    exact absurd (List.mem_append_left _ (List.mem_append_right _ feed)) last

/-- Behind the gap of any other line something stands that is no line break. -/
theorem line_of_not_isBlank (last : '\n' ∉ cs.dropLast) (h : isBlank cs = false) :
    ∃ gaps p rest, line cs = gaps ++ p :: rest ∧ (∀ q ∈ gaps, q.kind = .whitespace) ∧
      p.kind ≠ .whitespace ∧ p.kind ≠ .eol := by
  have spaces : ∀ q ∈ (line cs).takeWhile (·.kind = .whitespace), q.kind = .whitespace := by
    intro q member
    simpa using List.all_eq_true.mp List.all_takeWhile q member
  have whole : (line cs).takeWhile (·.kind = .whitespace) ++
      (line cs).dropWhile (·.kind = .whitespace) = line cs := List.takeWhile_append_dropWhile
  cases found : (line cs).dropWhile (·.kind = .whitespace) with
  | nil =>
    rw [found] at whole
    rw [isBlank_of_line none whole.symm spaces (by simp)] at h
    cases h
  | cons p rest =>
    rw [found] at whole
    refine ⟨_, p, rest, whole.symm, spaces, ?_, ?_⟩
    · have stops := List.head?_dropWhile_not (fun q : Piece => decide (q.kind = .whitespace)) (line cs)
      rw [found] at stops
      simpa using stops
    · intro ends
      have listed : p ∈ line cs := by
        rw [← whole]
        simp
      have feed := feed_of_breaksLine listed (by rw [ends]; rfl)
      obtain rfl := eq_nil_of_feed last whole.symm feed
      rw [isBlank_of_line (some p) whole.symm spaces (by simp [ends])] at h
      cases h

/-! Behind a comment the line breaks. -/

/-- No space stands behind a comment. -/
def Piece.IsTight (p q : Piece) : Prop :=
  p.kind.isComment = true → q.kind ≠ .whitespace

theorem isChain_append_of_plain {ps qs : List Piece} (plain : ∀ p ∈ ps, p.kind.isComment = false)
    (tight : qs.IsChain Piece.IsTight) : (ps ++ qs).IsChain Piece.IsTight := by
  induction ps with
  | nil => exact tight
  | cons p ps ih =>
    have tail := ih fun q member => plain q (List.mem_cons_of_mem p member)
    refine List.isChain_cons.mpr ⟨?_, tail⟩
    intro q _ comment
    rw [plain p List.mem_cons_self] at comment
    cases comment

theorem ne_whitespace_of_lineBreak (breaks : ∀ e ∈ cs.head?, Text.isLineBreak e = true)
    (first : q ∈ (musicLine cs).head?) : q.kind ≠ .whitespace := by
  intro space
  obtain ⟨qs, cut⟩ := List.head?_eq_some_iff.mp first
  have own : q ∈ musicLine cs := List.mem_of_mem_head? first
  have whole : Piece.join (musicLine cs) = cs := join_music _ cs
  obtain ⟨c, ds, text⟩ := List.exists_cons_of_ne_nil (isProper_of_mem_musicLine own).1
  rw [cut, Piece.join_cons, text, List.cons_append] at whole
  have line := breaks c (by rw [← whole]; rfl)
  have gap := isGap_of_whitespace own space c (by simp [text])
  rcases (by simpa [isGap] using gap : c = ' ' ∨ c = '\t') with rfl | rfl <;> cases line

theorem head?_of_isComment (h : p ∈ musicLine cs) (comment : p.kind.isComment = true) :
    '%' ∈ p.text.head? := by
  obtain ⟨c, ds, text⟩ := List.exists_cons_of_ne_nil (isProper_of_mem_musicLine h).1
  suffices percent : c = '%' by simp [text, percent]
  cases kind : p.kind with
  | comment =>
    have whole := matches_of_kind ⟨.comment, seq (just '%') Rule.restOfLine⟩ h kind rfl
    rw [text] at whole
    simpa [Pattern.begins, just, nullable] using begins_of_matches whole
  | stylesheetDirective =>
    have whole := matches_of_kind ⟨.stylesheetDirective, seq (Pattern.text "%%") Rule.restOfLine⟩ h
      kind rfl
    rw [text] at whole
    simpa [Pattern.begins, Pattern.text, just, nullable] using begins_of_matches whole
  | _ => rw [kind] at comment; cases comment

theorem isChain_musicLine (cs : Text) : (musicLine cs).IsChain Piece.IsTight := by
  generalize cut : musicLine cs = ps
  induction ps generalizing cs with
  | nil => exact .nil
  | cons p ps ih =>
    obtain ⟨others, won⟩ := musicLine_cons cut
    refine List.isChain_cons.mpr ⟨?_, ih _ others⟩
    intro q first comment
    have percent := head?_of_isComment (cut ▸ List.mem_cons_self) comment
    rcases won with invalid | wins
    · rw [invalid] at comment
      cases comment
    · rw [← others] at first
      exact ne_whitespace_of_lineBreak (Rule.lineBreak_of_longest wins percent) first

theorem isChain_infoLine (key rest : Text) : (infoLine key rest).IsChain Piece.IsTight := by
  have tail := isChain_musicLine (rest.drop (Text.lineContent rest).length)
  have breaks : ∀ e ∈ (rest.drop (Text.lineContent rest).length).head?, Text.isLineBreak e = true :=
    fun e first => mem_drop_dropTrailing Text.isLineBreak rest e (List.mem_of_mem_head? first)
  have behind (p : Piece) : (p :: musicLine (rest.drop (Text.lineContent rest).length)).IsChain
      Piece.IsTight :=
    List.isChain_cons.mpr ⟨fun q first _ => ne_whitespace_of_lineBreak breaks first, tail⟩
  simp only [infoLine, List.append_assoc]
  refine isChain_append_of_plain ?_ ?_
  · intro p member
    rcases List.mem_cons.mp member with rfl | member
    · rfl
    · obtain ⟨run, _, rfl⟩ := List.mem_map.mp member
      dsimp only
      split <;> rfl
  · unfold commentPiece
    split
    · exact tail
    · exact behind _
    · exact behind _

theorem isChain_line (cs : Text) : (line cs).IsChain Piece.IsTight := by
  obtain music | ⟨c, rest, _, _, info⟩ := line_cases cs
  · rw [music]
    exact isChain_musicLine cs
  · rw [info]
    exact isChain_infoLine [c, ':'] rest

end Scan
end Tunebook
