import Tunebook.Proofs.Rhythm.Arithmetic
import Tunebook.Proofs.Rhythm.Heads

/-! Lengths read back. A length that is written behind a head, before a space, a tie, the mark of a
broken rhythm or the end of the line, is read as the length of that head. -/
namespace Tunebook
open Scan

/-! What stands behind a length. -/

namespace Scan

/-- Where the rules leave no choice, the first piece is of the kind of the one that matches. -/
theorem exists_musicLine_cons {rule : Rule} (only : Rule.candidates c = [rule])
    (whole : Pattern.Matches rule.pattern (c :: w)) (front : c :: w <+: cs) :
    ∃ v ps, musicLine cs = ⟨rule.kind, v⟩ :: ps := by
  obtain ⟨n, found, le⟩ := Pattern.longest_of_matches whole front
  obtain ⟨m, rfl⟩ : ∃ m, n = m + 1 := by
    rw [List.length_cons] at le
    exact Nat.exists_eq_add_one_of_ne_zero (by omega)
  obtain ⟨rest, rfl⟩ := front
  have wins : Rule.longest Rule.music (c :: (w ++ rest)) = some (rule.kind, m + 1) := by
    rw [List.cons_append] at found
    rw [Rule.longest_candidates, only]
    simp only [Rule.longest, found]
  rw [List.cons_append, musicLine, music, Rule.recognise_eq_token_iff.mpr wins]
  exact ⟨_, _, rfl⟩

end Scan

/-- A text is a line and more lines. The line can be the end of one that starts before the text. -/
theorem Text.exists_line (us : Text) : ∃ l rest, us = l ++ rest ∧
    (rest = [] ∨ l.getLast? = some '\n') ∧ (l = [] → us = []) ∧
    ∀ front : Text, front ≠ [] → '\n' ∉ front → lines (front ++ us) = (front ++ l) :: lines rest := by
  by_cases feed : '\n' ∈ us
  · obtain ⟨content, rest, rfl, absent⟩ := List.eq_append_cons_of_mem feed
    refine ⟨content ++ ['\n'], rest, by simp, .inr (by simp), by simp, ?_⟩
    intro front _ plain
    have whole : '\n' ∉ front ++ content := by
      rw [List.mem_append, not_or]
      exact ⟨plain, absent⟩
    rw [← List.append_assoc, lines_cons whole, List.append_assoc]
  · refine ⟨us, [], by simp, .inl rfl, id, ?_⟩
    intro front nonempty plain
    have whole : '\n' ∉ front ++ us := by
      rw [List.mem_append, not_or]
      exact ⟨plain, feed⟩
    rw [lines_content whole (by simp [nonempty])]
    rfl

namespace Length

/-- Spaces, a tie, the marks of a broken rhythm, and the ends of a line. -/
def followers : List Text :=
  [[' '], ['\t'], ['-'], ['<'], ['>'], ['\n'], ['\r', '\n']]

/-- The text starts with one of the followers of a length, or there is none left. -/
def EndsBefore (us : Text) : Prop :=
  us = [] ∨ ∃ w ∈ followers, w <+: us

def endsBefore (k : Kind) : Bool :=
  k matches .whitespace | .minus | .less | .greater | .eol

theorem endsBefore_iff : endsBefore k = true ↔
    k = .eol ∨ k = .whitespace ∨ k = .minus ∨ k.isBroken = true := by
  cases k <;> decide

/-- One rule matches a follower, and no other rule begins as it does. -/
theorem exists_rule_of_follower (h : w ∈ followers) : ∃ c v, ∃ rule : Rule, w = c :: v ∧
    Rule.candidates c = [rule] ∧ Pattern.Matches rule.pattern (c :: v) ∧
    endsBefore rule.kind = true := by
  have single {c : Char} {p : Pattern} (nullable : (p.step c).nullable = true) :
      Pattern.Matches p [c] :=
    Pattern.matches_step.mp (Pattern.nullable_iff.mp nullable)
  simp only [followers, List.mem_cons, List.not_mem_nil, or_false] at h
  rcases h with rfl | rfl | rfl | rfl | rfl | rfl | rfl
  · exact ⟨' ', [], _, rfl, rfl, single rfl, rfl⟩
  · exact ⟨'\t', [], _, rfl, rfl, single rfl, rfl⟩
  · exact ⟨'-', [], _, rfl, rfl, single rfl, rfl⟩
  · exact ⟨'<', [], _, rfl, rfl, single rfl, rfl⟩
  · exact ⟨'>', [], _, rfl, rfl, single rfl, rfl⟩
  · exact ⟨'\n', [], _, rfl, rfl, single rfl, rfl⟩
  · exact ⟨'\r', ['\n'], _, rfl, rfl, matches_lineFeed.mpr (.inr rfl), rfl⟩

theorem prefix_of_follower (h : w ∈ followers) (front : w <+: l ++ rest)
    (last : rest = [] ∨ l.getLast? = some '\n') : w <+: l := by
  rcases List.prefix_or_prefix_of_prefix front (List.prefix_append l rest) with own | ⟨more, rfl⟩
  · exact own
  · rcases last with rfl | feed
    · rwa [List.append_nil] at front
    · cases more with
      | nil => simp
      | cons c more =>
        -- a line feed comes last in a follower
        have inner : followers.all (fun w => !w.dropLast.contains '\n') = true := by decide
        have absent := List.all_eq_true.mp inner _ h
        have inside : '\n' ∈ (l ++ c :: more).dropLast := by
          rw [List.dropLast_append_of_ne_nil (List.cons_ne_nil c more)]
          exact List.mem_append_left _ (List.mem_of_getLast? feed)
        rw [List.contains_iff_mem.mpr inside] at absent
        cases absent

theorem EndsBefore.kind_of_mem_pieces (h : EndsBefore (l ++ rest))
    (last : rest = [] ∨ l.getLast? = some '\n') (empty : l = [] → l ++ rest = []) :
    ∀ p ∈ (musicLine l ++ pieces rest).head?, endsBefore p.kind = true := by
  intro p member
  by_cases none : l = []
  · obtain ⟨-, rfl⟩ := List.append_eq_nil_iff.mp (empty none)
    subst none
    simp [musicLine, Scan.music, pieces, Text.lines] at member
  · rcases h with nothing | ⟨w, listed, front⟩
    · exact absurd (List.append_eq_nil_iff.mp nothing).1 none
    · obtain ⟨c, v, rule, rfl, only, whole, kind⟩ := exists_rule_of_follower listed
      obtain ⟨v', ps, cut⟩ := exists_musicLine_cons only whole (prefix_of_follower listed front last)
      rw [cut] at member
      cases member
      exact kind

theorem EndsBefore.apart (h : EndsBefore us) :
    ∀ c ∈ us.head?, c.isDigit = false ∧ c ∉ ['/', ':', '\x27', ','] := by
  intro c first
  rcases h with rfl | ⟨w, listed, rest, rfl⟩
  · cases first
  · have heads : followers.all (fun w => w.head?.all fun c =>
        !c.isDigit && decide (c ∉ ['/', ':', '\x27', ','])) = true := by
      decide
    obtain ⟨d, v, _, rfl, _⟩ := exists_rule_of_follower listed
    cases first
    have own := List.all_eq_true.mp heads _ listed
    simpa using own

theorem EndsBefore.head?_render (h : EndsBefore us) (n : Length) :
    ∀ c ∈ (n.render ++ us).head?, c ∉ [':', '\x27', ','] := by
  intro c first
  cases text : n.render with
  | cons d ds =>
    rw [text] at first
    cases first
    rcases mem_render (text ▸ List.mem_cons_self) with digit | rfl
    · simp only [List.mem_cons, List.not_mem_nil, or_false, not_or]
      refine ⟨?_, ?_, ?_⟩ <;> rintro rfl <;> cases digit
    · decide
  | nil =>
    rw [text, List.nil_append] at first
    have apart := (h.apart c first).2
    rw [List.mem_cons, not_or] at apart
    exact apart.2

end Length

namespace Sound
variable {s : Sound} {text : Text}

theorem Spells.ne_nil (h : s.Spells text) : text ≠ [] := by
  have cut := h.cut
  rw [headTokens_eq] at cut
  rw [← h.join, headTokens_eq, Token.join_cons]
  exact List.append_ne_nil_of_left_ne_nil cut.1 _

theorem Spells.not_isField (h : s.Spells text) (next : ∀ c ∈ vs.head?, c ≠ ':') :
    ¬IsField (text ++ vs) := by
  rintro ⟨c, rest, whole, starts⟩
  obtain ⟨d, ds, rfl⟩ := List.exists_cons_of_ne_nil h.ne_nil
  cases ds with
  | nil =>
    have behind : vs = ':' :: rest := (List.cons.inj whole).2
    exact next ':' (behind ▸ rfl) rfl
  | cons e ds =>
    simp only [List.cons_append, List.cons.injEq] at whole
    obtain ⟨rfl, rfl, -⟩ := whole
    exact h.music ⟨d, ds ++ ['\n'], rfl, starts⟩

theorem Spells.line_eq (h : s.Spells text) (n : Length)
    (ahead : ∀ c ∈ (n.render ++ l).head?, c ∉ [':', '\x27', ','])
    (behind : ∀ c ∈ l.head?, c.isDigit = false ∧ c ≠ '/') :
    line (text ++ (n.render ++ l)) = s.headTokens.map Token.piece ++
      ((n.rhythm none).lengthTokens.map Token.piece ++ musicLine l) := by
  have music : ¬IsField (text ++ (n.render ++ l)) := by
    apply h.not_isField
    rintro c member rfl
    exact ahead _ member (by decide)
  have head : CutBefore (n.render ++ l) (s.headTokens.map Token.piece) := by
    apply h.head.cutBefore h.cut
    intro c member octave
    exact ahead c member (List.mem_cons_of_mem _ octave)
  have length := musicLine_append (n.cutBefore_rhythm none behind)
  rw [Token.join_map_piece, n.join_rhythm] at length
  have whole := musicLine_append head
  rw [Token.join_map_piece, h.join, length] at whole
  rw [line_of_not_field music, whole]

theorem Spells.exists_pieces (h : s.Spells text) (n : Length) (ends : Length.EndsBefore us) :
    ∃ ps, pieces (text ++ (n.render ++ us)) = s.headTokens.map Token.piece ++
        ((n.rhythm none).lengthTokens.map Token.piece ++ ps) ∧
      Piece.join ps = us ∧ ∀ p ∈ ps.head?, Length.endsBefore p.kind = true := by
  obtain ⟨l, rest, rfl, last, empty, lines⟩ := Text.exists_line us
  have ahead : ∀ c ∈ (n.render ++ l).head?, c ∉ [':', '\x27', ','] := by
    have first : (n.render ++ l).head? = (n.render ++ (l ++ rest)).head? := by
      cases l with
      | nil => rw [empty rfl]
      | cons c l => simp [List.head?_append]
    exact first ▸ ends.head?_render n
  have behind : ∀ c ∈ l.head?, c.isDigit = false ∧ c ≠ '/' := by
    intro c member
    have own : c ∈ (l ++ rest).head? := by
      obtain ⟨cs, rfl⟩ := List.head?_eq_some_iff.mp member
      rfl
    obtain ⟨digit, others⟩ := ends.apart c own
    constructor
    · exact digit
    · rintro rfl
      exact others (by decide)
  have cut : pieces (text ++ (n.render ++ (l ++ rest))) = s.headTokens.map Token.piece ++
      ((n.rhythm none).lengthTokens.map Token.piece ++ (musicLine l ++ pieces rest)) := by
    have plain : '\n' ∉ text ++ n.render := by
      rw [List.mem_append, not_or]
      exact ⟨h.feedless, n.newline_not_mem_render⟩
    rw [← List.append_assoc, pieces, lines _ (by simp [h.ne_nil]) plain, List.flatMap_cons,
      List.append_assoc, h.line_eq n ahead behind, List.append_assoc, List.append_assoc]
    rfl
  refine ⟨_, cut, ?_, ?_⟩
  · rw [Piece.join_append, join_pieces, musicLine, join_music]
  · exact ends.kind_of_mem_pieces last empty

/-- The tokens of the head stay, those of the length stand behind them, and then a follower. -/
theorem Spells.exists_tokens (h : s.Spells text) (n : Length) (ends : Length.EndsBefore us) :
    ∃ ls vs, textTokens (opening ++ (text ++ (n.render ++ us))) =
        textTokens opening ++ (s.headTokens ++ (ls ++ vs)) ∧
      ls.map Token.piece = (n.rhythm none).lengthTokens.map Token.piece ∧
      Token.join vs = us ∧ ∀ t ∈ vs.head?, Length.endsBefore t.kind = true := by
  obtain ⟨ps, cut, join, first⟩ := h.exists_pieces n ends
  rw [textTokens_opening_append, cut, placed_append, placed_append, h.place]
  refine ⟨_, _, rfl, map_piece_placed _ _ _, ?_, ?_⟩
  · rw [join_placed, join]
  · intro t member
    cases ps with
    | nil => cases member
    | cons p ps =>
      cases member
      exact first p rfl

end Sound

theorem Length.exists_rhythm {n : Length} {ls : List Token}
    (h : ls.map Token.piece = (n.rhythm none).lengthTokens.map Token.piece) :
    ∃ r : Rhythm, r.Fits ∧ r.lengthTokens = ls ∧
      r.map Token.forget = (n.rhythm none).map Token.forget := by
  have forget : Token.forget = (fun p : Piece => Token.unplaced p.kind p.text) ∘ Token.piece := rfl
  have forgotten : ls.map Token.forget = (n.rhythm none).lengthTokens.map Token.forget := by
    rw [forget, ← List.map_map, h, List.map_map]
  have own : Rhythm.read (n.rhythm none).lengthTokens = (n.rhythm none, []) := by
    have fits : (n.rhythm none).Fits := n.fits_rhythm (by simp)
    have read := Rhythm.read_lengthTokens fits (Token.nextNot_nil _)
    rwa [List.append_nil] at read
  have read := Token.relabels_forget.readRhythm ls
  rw [forgotten, Token.relabels_forget.readRhythm, own] at read
  obtain ⟨value, rest⟩ := Prod.mk.inj read
  have unbroken : (Rhythm.read ls).1.broken = none :=
    Option.map_eq_none_iff.mp (congrArg Rhythm.broken value).symm
  have whole := Rhythm.read_append ls
  rw [List.map_eq_nil_iff.mp rest.symm, List.append_nil, Rhythm.tokens, unbroken, Option.toList_none,
    List.append_nil] at whole
  exact ⟨_, Rhythm.fits_read ls, whole, value.symm⟩

theorem Length.takeWhile_follower (h : endsBefore t.kind = true) (goes : t.kind ≠ .eol)
    (ts : List Token) :
    (t :: ts).takeWhile (!MusicLine.isBoundary ·.kind) =
        t :: ts.takeWhile (!MusicLine.isBoundary ·.kind) ∧
      Token.NextNot (fun k => k.isLength || k.isOctave)
        (t :: ts.takeWhile (!MusicLine.isBoundary ·.kind)) := by
  constructor
  · apply List.takeWhile_cons_of_pos
    cases hk : t.kind <;> rw [hk] at h <;> cases h <;> first | rfl | exact absurd hk goes
  · apply Token.nextNot_cons.mpr
    cases hk : t.kind <;> rw [hk] at h <;> cases h <;> rfl

/-- Where the token goes that stands behind a length, and what stands behind it on its line. -/
inductive Length.Follows (us : Text) :
    (broken tie : Option Token) → (items : List Item) → (eol : Option Token) → Prop where
  | space : t.kind = .whitespace → t.lexeme <+: us → Follows us none none (.token t :: items) eol
  | tie : t.kind = .minus → t.lexeme <+: us → Follows us none (some t) items eol
  | broken : t.kind.isBroken = true → t.lexeme <+: us → Follows us (some t) tie items eol
  | lineEnd : t.kind = .eol → t.lexeme <+: us → Follows us none none [] (some t)
  | textEnd : us = [] → Follows us none none [] none

namespace Sound
variable {s : Sound} {text : Text}

theorem HasHead.readAll_length {r : Rhythm} (h : s.HasHead) (fits : r.Fits)
    (next : Token.NextNot (fun k => k.isLength || k.isOctave) us) :
    (Item.readAll false (s.headTokens ++ (r.lengthTokens ++ us))).value =
      (s.withRhythm { r with broken := (Token.accept Kind.isBroken us).1 }
        (Token.accept (· = .minus) (Token.accept Kind.isBroken us).2).1).item ::
        (Item.readAll false (Token.accept (· = .minus) (Token.accept Kind.isBroken us).2).2).value := by
  have length : Token.NextNot Kind.isLength us := next.mono (by simp +contextual)
  have octave : Token.NextNot Kind.isOctave (r.lengthTokens ++ us) := by
    apply Token.NextNot.append
    · intro t member
      have own := Rhythm.isLength_of_mem fits (List.mem_of_mem_head? member)
      exact Rewritten.isOctave_of_isLength own
    · exact next.mono (by simp +contextual)
  rw [h.readAll octave]
  simp only [Rhythm.readTied, Rhythm.read_lengthTokens fits length]

theorem HasHead.read_line {r : Rhythm} (h : s.HasHead) (fits : r.Fits) {vs : List Token}
    (first : ∀ t ∈ vs.head?, Length.endsBefore t.kind = true) :
    ∃ broken tie items eol, (MusicLine.read (s.headTokens ++ (r.lengthTokens ++ vs))).value =
        ⟨(s.withRhythm { r with broken } tie).item :: items, eol⟩ ∧
      Length.Follows (Token.join vs) broken tie items eol := by
  have inside : ∀ t ∈ s.headTokens ++ r.lengthTokens, MusicLine.isBoundary t.kind = false := by
    intro t member
    apply MusicLine.isBoundary_of_isSounded
    rcases List.mem_append.mp member with member | member
    · exact h.isSounded t member
    · exact Kind.isSounded_of_isLength (Rhythm.isLength_of_mem fits member)
  have line := MusicLine.value_read_append inside vs
  rw [List.append_assoc, List.append_assoc] at line
  rw [line]
  -- what stands behind says where the items end and what the rhythm takes up
  cases vs with
  | nil =>
    refine ⟨none, none, [], none, ?_, .textEnd rfl⟩
    rw [List.takeWhile_nil, List.dropWhile_nil, h.readAll_length fits (Token.nextNot_nil _)]
    simp [Token.accept, Item.readAll_nil]
  | cons t vs =>
    have text : t.lexeme <+: Token.join (t :: vs) := List.prefix_append _ _
    have own := first t rfl
    rcases Length.endsBefore_iff.mp own with ends | space | minus | mark
    · have stops : (t :: vs).takeWhile (!MusicLine.isBoundary ·.kind) = [] ∧
          (t :: vs).dropWhile (!MusicLine.isBoundary ·.kind) = t :: vs := by
        simp [MusicLine.isBoundary, ends]
      refine ⟨none, none, [], some t, ?_, .lineEnd ends text⟩
      rw [stops.1, stops.2, h.readAll_length fits (Token.nextNot_nil _)]
      simp [Token.accept, Item.readAll_nil, ends]
    · obtain ⟨taken, next⟩ := Length.takeWhile_follower own (by simp [space]) vs
      rw [taken, h.readAll_length fits next]
      simp only [Token.accept, space, Kind.isBroken, Bool.false_eq_true, if_false]
      have starts : (Item.readAll false (t :: vs.takeWhile (!MusicLine.isBoundary ·.kind))).value =
          .token t :: (Item.readAll false (vs.takeWhile (!MusicLine.isBoundary ·.kind))).value := by
        rw [Item.readAll_item rfl (by simp [space])]
        simp [Item.read, Item.bare, space, Kind.isBarline, Kind.startsNote, Kind.isAccidental]
      exact ⟨none, none, _, _, congrArg (MusicLine.mk · _) (congrArg _ starts), .space space text⟩
    · obtain ⟨taken, next⟩ := Length.takeWhile_follower own (by simp [minus]) vs
      rw [taken, h.readAll_length fits next]
      simp only [Token.accept, minus, Kind.isBroken, Bool.false_eq_true, if_false, decide_true,
        if_true]
      exact ⟨none, some t, _, _, rfl, .tie minus text⟩
    · obtain ⟨taken, next⟩ :=
        Length.takeWhile_follower own (by rintro ends; rw [ends] at mark; cases mark) vs
      rw [taken, h.readAll_length fits next]
      simp only [Token.accept, mark, if_true]
      exact ⟨some t, _, _, _, rfl, .broken mark text⟩

theorem IsWhole.reads (h : s.IsWhole text) {n : Length} (lowest : n.Lowest) (word : n.IsWord)
    (ends : Length.EndsBefore us) : ∃ r tie items eol,
      (Tree.ofTokens (scan (opening ++ (text ++ (n.render ++ us))))).1.musicLines.head? =
          some ⟨(s.withRhythm r tie).item :: items, eol⟩ ∧
        Length.read? r = some n ∧ Token.join r.lengthTokens = n.render ∧
        Length.Follows us r.broken tie items eol := by
  have spells := h.spells
  obtain ⟨ls, vs, tokens, length, rfl, first⟩ := spells.exists_tokens n ends
  obtain ⟨r, fits, rfl, forgotten⟩ := Length.exists_rhythm length
  obtain ⟨broken, tie, items, eol, line, follows⟩ := spells.head.read_line fits first
  have texts : ∀ t ∈ s.headTokens ++ (r.lengthTokens ++ vs), t.kind ≠ .eof := by
    intro t member
    have listed := List.mem_append_right (textTokens opening) member
    rw [← tokens] at listed
    exact kind_of_mem_textTokens listed
  refine ⟨{ r with broken }, tie, items, eol, ?_, ?_, ?_, follows⟩
  · rw [headTokens_eq, List.cons_append] at tokens texts line
    rw [Tree.ofTokens_scan, tokens, Tree.head?_musicLines spells.head.startsSound texts, line]
  · have own : Length.read? { r with broken } = Length.read? r := rfl
    rw [own, ← Token.relabels_forget.readLength? r, forgotten, Token.relabels_forget.readLength?]
    exact Length.read?_rhythm lowest word.numerator word.denominator none
  · have text : Token.join r.lengthTokens = n.render := by
      rw [← Token.join_map_piece, length, Token.join_map_piece, n.join_rhythm]
    exact text

end Sound

/-- Behind every head of a note or chord that is read as one, a length in lowest terms is read back
from its shortest form, whatever follows of what can end it. So no two lengths are written alike. -/
theorem Length.reads_back :
    (∀ (s : Sound) (text : Text), s.IsWhole text → ∀ n : Length, n.Lowest → n.IsWord →
      ∀ us : Text, EndsBefore us → ∃ r tie items eol,
        (Tree.ofTokens (scan (opening ++ (text ++ (n.render ++ us))))).1.musicLines.head? =
            some ⟨(s.withRhythm r tie).item :: items, eol⟩ ∧
          read? r = some n ∧ Token.join r.lengthTokens = n.render ∧
          Follows us r.broken tie items eol) ∧
    (∀ w : WrittenHead, ∃ n : Note, (Sound.note n).IsWhole w.text ∧
      n.head.map Token.forget = w.head) ∧
    ∀ m n : Length, m.Lowest → m.IsWord → n.Lowest → n.IsWord → m.render = n.render → m = n := by
  refine ⟨?_, WrittenHead.exists_isWhole, ?_⟩
  · intro s text whole n lowest word us ends
    exact whole.reads lowest word ends
  · intro m n lowest word lowest' word' same
    -- one text behind one head has one reading
    obtain ⟨head, whole, -⟩ := WrittenHead.exists_isWhole (.rest ⟨'z', by decide⟩)
    obtain ⟨r, tie, items, eol, line, read, -⟩ := whole.reads lowest word (.inl rfl)
    obtain ⟨r', tie', items', eol', line', read', -⟩ := whole.reads lowest' word' (.inl rfl)
    rw [same, line'] at line
    obtain rfl : r' = r := by
      have item := congrArg MusicLine.items (Option.some.inj line)
      exact congrArg Note.rhythm (Item.note.inj (List.cons.inj item).1)
    exact Option.some.inj (read.symm.trans read')

/-- Three quarters behind a chord with an accidental and an octave mark, before a broken rhythm. -/
theorem Length.reads_back_chord : ∃ s r tie items eol, Sound.IsWhole s "[^CE,]".toList ∧
    (Tree.ofTokens (scan "X:1\nK:C\n[^CE,]3/4>d2\n".toList)).1.musicLines.head? =
        some ⟨(s.withRhythm r tie).item :: items, eol⟩ ∧
      read? r = some ⟨3, 4⟩ ∧ Token.join r.lengthTokens = "3/4".toList ∧
      Follows ">d2\n".toList r.broken tie items eol := by
  let bare : Rhythm := ⟨none, none, none, none⟩
  let sharp : Note := ⟨.pitch (some ⟨.sharp, ['^'], ⟨2, 1⟩, ⟨9, 10⟩⟩)
    ⟨.noteLetter, ['C'], ⟨2, 2⟩, ⟨10, 11⟩⟩ none, bare, none⟩
  let low : Note := ⟨.pitch none ⟨.noteLetter, ['E'], ⟨2, 3⟩, ⟨11, 12⟩⟩
    (some ⟨.comma, [','], ⟨2, 4⟩, ⟨12, 13⟩⟩), bare, none⟩
  let chord : Sound := .chord ⟨⟨.leftBracket, ['['], ⟨2, 0⟩, ⟨8, 9⟩⟩, [.note sharp, .note low],
    ⟨.rightBracket, [']'], ⟨2, 5⟩, ⟨13, 14⟩⟩, bare, none⟩
  have head : chord.HasHead := by
    constructor
    · rfl
    · exact ⟨rfl, by decide +kernel, by decide +kernel⟩
  have whole : chord.IsWhole "[^CE,]".toList := by
    apply Sound.isWhole_of_tokens head rfl (e := ⟨.eol, ['\n'], ⟨2, 6⟩, ⟨14, 15⟩⟩) _ rfl rfl
    decide +kernel
  have ends : EndsBefore ">d2\n".toList := .inr ⟨['>'], by decide, by decide⟩
  obtain ⟨r, tie, items, eol, reads⟩ := reads_back.1 chord _ whole ⟨3, 4⟩
    ⟨by decide, by decide, by decide⟩ ⟨by decide, by decide⟩ _ ends
  exact ⟨chord, r, tie, items, eol, whole, reads⟩

end Tunebook
