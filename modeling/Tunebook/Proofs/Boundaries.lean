import Tunebook.Proofs.Grammar.Blocks
import Tunebook.Proofs.Lossless
import Tunebook.Proofs.Scan.Tiling

/-! Where a body stands in a text. It goes on right behind the header, holds no blank line and no key
that opens a tune, and is followed by one of them or by the end of the text. No line feed is hidden in
an item of its music, so that every blank line is one that the grammar looks at. -/
namespace Tunebook

namespace Token

/-- Spaces and then a line feed or the end of the text stand first. -/
def BlankLine (ts : List Token) : Prop :=
  ∃ spaces stop rest, ts = spaces ++ stop :: rest ∧ (∀ s ∈ spaces, s.kind = .whitespace) ∧
    stop.kind.isLineEnd = true

theorem blankLine_cons :
    BlankLine (t :: ts) ↔ t.kind.isLineEnd = true ∨ t.kind = .whitespace ∧ BlankLine ts := by
  constructor
  · rintro ⟨spaces, stop, rest, whole, blank, ends⟩
    cases spaces with
    | nil =>
      obtain ⟨rfl, rfl⟩ := List.cons.inj whole
      exact .inl ends
    | cons s spaces =>
      obtain ⟨rfl, rfl⟩ := List.cons.inj whole
      obtain ⟨first, others⟩ := List.forall_mem_cons.mp blank
      exact .inr ⟨first, spaces, stop, rest, rfl, others, ends⟩
  · rintro (ends | ⟨first, spaces, stop, rest, rfl, others, ends⟩)
    · exact ⟨[], t, ts, rfl, by simp, ends⟩
    · exact ⟨t :: spaces, stop, rest, rfl, List.forall_mem_cons.mpr ⟨first, others⟩, ends⟩

theorem blankLine_append (text : ∀ t ∈ ts, t.kind ≠ .eof) (mark : e.kind = .eof) :
    BlankLine (ts ++ [e]) ↔ startsBlankLine ts = true := by
  induction ts with
  | nil => exact iff_of_true ⟨[], e, [], rfl, by simp, by rw [mark]; rfl⟩ rfl
  | cons t ts ih =>
    obtain ⟨own, others⟩ := List.forall_mem_cons.mp text
    rw [List.cons_append, blankLine_cons, ih others]
    by_cases space : t.kind = .whitespace
    · simp [space, startsBlankLine, isSpace, Kind.isLineEnd]
    · rw [startsBlankLine_cons space, decide_eq_true_eq]
      cases kind : t.kind <;> simp_all [Kind.isLineEnd]

/-- A line starts behind these tokens. `atLineStart` says whether one starts ahead of them. -/
def endsLine (atLineStart : Bool) (ts : List Token) : Bool :=
  (ts.getLast?.map fun t => decide (t.kind = .eol)).getD atLineStart

theorem endsLine_cons (atLineStart : Bool) (t : Token) (ts : List Token) :
    endsLine atLineStart (t :: ts) = endsLine (t.kind = .eol) ts := by
  rw [endsLine, endsLine, List.getLast?_cons]
  cases ts.getLast? <;> rfl

theorem splitBlock_append (isFirst atLineStart : Bool) (ts : List Token) :
    (splitBlock isFirst atLineStart ts).1 ++ (splitBlock isFirst atLineStart ts).2 = ts := by
  induction ts generalizing isFirst atLineStart with
  | nil => rfl
  | cons t ts ih =>
    rw [splitBlock]
    split
    · rfl
    · simp [before, ih]

/-- What keeps a block together, and what ends it. -/
structure IsBlock (atLineStart : Bool) (block rest : List Token) : Prop where
  keyless : ∀ t ∈ block, t.opensTune = false
  visible : ∀ front t back, block = front ++ t :: back → endsLine atLineStart front = true →
    startsBlankLine (t :: (back ++ rest)) = false
  ends : ∀ t ∈ rest.head?, t.opensTune = true ∨
    endsLine atLineStart block = true ∧ startsBlankLine rest = true

theorem isBlock_splitBlock (atLineStart : Bool) (ts : List Token) :
    IsBlock atLineStart (splitBlock false atLineStart ts).1 (splitBlock false atLineStart ts).2 := by
  induction ts generalizing atLineStart with
  | nil => exact ⟨by simp [splitBlock], by simp [splitBlock], by simp [splitBlock]⟩
  | cons t ts ih =>
    rw [splitBlock]
    split
    next stops =>
      refine ⟨by simp, by simp, ?_⟩
      intro u first
      obtain rfl : t = u := Option.some.inj first
      simpa [endsLine] using stops
    next goes =>
      simp only [Bool.not_false, Bool.and_true, Bool.or_eq_true, not_or, Bool.not_eq_true,
        Bool.and_eq_false_imp] at goes
      obtain ⟨keyless, visible, ends⟩ := ih (t.kind = .eol)
      refine ⟨List.forall_mem_cons.mpr ⟨goes.1, keyless⟩, ?_, ?_⟩
      · intro front u back cut starts
        rw [before, List.singleton_append] at cut
        cases front with
        | nil =>
          obtain ⟨rfl, rfl⟩ := List.cons.inj cut
          rw [before, splitBlock_append]
          exact goes.2 starts
        | cons v front =>
          obtain ⟨rfl, later⟩ := List.cons.inj cut
          rw [endsLine_cons] at starts
          exact visible front u back later starts
      · intro u first
        rw [before, List.singleton_append, endsLine_cons]
        exact ends u first

end Token

/-- A line feed ends a music line and stands nowhere else in it, in no group and no field. -/
def MusicLine.EndsOnce (line : MusicLine) : Prop :=
  ∀ front item back, line.contents = front ++ item :: back →
    ∀ t ∈ item.tokens, t.kind = .eol → item = .token t ∧ back = []

namespace MusicLine

theorem ne_eol_of_mem_items (listed : item ∈ (read ts).value.items) (member : t ∈ item.tokens) :
    t.kind ≠ .eol := by
  have own : t ∈ Item.tokensOf (read ts).value.items := by
    rw [Item.tokensOf_eq_flatMap]
    exact List.mem_flatMap.mpr ⟨item, listed, member⟩
  rw [read, Item.tokensOf_readAll] at own
  have passes := List.all_eq_true.mp List.all_takeWhile t own
  intro eol
  simp [eol, isBoundary] at passes

theorem endsOnce_read (ts : List Token) : (read ts).value.EndsOnce := by
  intro front item back cut t member eol
  have outside : item ∉ (read ts).value.items := fun listed => ne_eol_of_mem_items listed member eol
  cases ends : (read ts).value.eol with
  | none =>
    rw [contents, ends, Option.toList_none, List.map_nil, List.append_nil] at cut
    exact absurd (cut ▸ List.mem_append_right front List.mem_cons_self) outside
  | some e =>
    rw [contents, ends, Option.toList_some, List.map_singleton] at cut
    rcases List.eq_nil_or_concat back with rfl | ⟨inner, last, rfl⟩
    · obtain ⟨_, same⟩ := List.append_inj' cut rfl
      obtain ⟨rfl, _⟩ := List.cons.inj same
      obtain rfl := List.mem_singleton.mp member
      exact ⟨rfl, rfl⟩
    · rw [List.concat_eq_append, ← List.cons_append, ← List.append_assoc] at cut
      obtain ⟨items, _⟩ := List.append_inj' cut rfl
      exact absurd (items ▸ List.mem_append_right front List.mem_cons_self) outside

end MusicLine

/-- A body, in what follows it: no key in it opens a tune, no line in it is blank, and it ends where
the text does or at such a key or line. -/
structure Token.IsBody (body rest : List Token) : Prop where
  keyless : ∀ t ∈ body, t.opensTune = false
  visible : ∀ front t back, body = front ++ t :: back →
    (front = [] ∨ ∃ e ∈ front.getLast?, e.kind = .eol) → ¬BlankLine (t :: (back ++ rest))
  ends : ∃ next tail, rest = next :: tail ∧
    (next.kind = .eof ∨ next.opensTune = true ∨
      (∃ e ∈ body.getLast?, e.kind = .eol) ∧ BlankLine rest)

namespace Token

theorem endsLine_iff {ts : List Token} :
    endsLine true ts = true ↔ ts = [] ∨ ∃ e ∈ ts.getLast?, e.kind = .eol := by
  rw [endsLine]
  cases last : ts.getLast? with
  | none => simpa using last
  | some e =>
    have some : ts ≠ [] := by
      rintro rfl
      cases last
    simp [some]

theorem IsBlock.isBody (h : IsBlock true body rest) (nonempty : body ≠ [])
    (text : ∀ t ∈ body ++ rest, t.kind ≠ .eof) (mark : e.kind = .eof) :
    IsBody body (rest ++ [e]) where
  keyless := h.keyless
  visible front t back cut starts := by
    have inside : ∀ u ∈ t :: (back ++ rest), u.kind ≠ .eof := by
      intro u member
      refine text u ?_
      rw [cut, List.append_assoc, List.cons_append]
      exact List.mem_append_right front member
    rw [← List.append_assoc, ← List.cons_append, blankLine_append inside mark, Bool.not_eq_true]
    exact h.visible front t back cut (endsLine_iff.mpr starts)
  ends := by
    have behind : ∀ t ∈ rest, t.kind ≠ .eof := fun t member =>
      text t (List.mem_append_right body member)
    cases rest with
    | nil => exact ⟨e, [], rfl, .inl mark⟩
    | cons next tail =>
      refine ⟨next, tail ++ [e], rfl, .inr ?_⟩
      refine (h.ends next rfl).imp_right fun ⟨starts, blank⟩ => ⟨?_, ?_⟩
      · exact (endsLine_iff.mp starts).resolve_left nonempty
      · exact (blankLine_append behind mark).mpr blank

end Token

theorem Tune.exists_block (beyond : Bool) (us : List Token) :
    ∃ rest, us = (read beyond us).value.headerTokens ++ ((read beyond us).value.bodyTokens ++ rest) ∧
      Token.IsBlock true (read beyond us).value.bodyTokens rest := by
  refine ⟨(readBody true (readHeader true us).2).rest, ?_, ?_⟩
  · conv_lhs => rw [← readHeader_append true us, ← readBody_append true (readHeader true us).2]
    rfl
  · have block := Token.isBlock_splitBlock true (readHeader true us).2
    rw [← readBody_eq_splitBlock] at block
    exact block

namespace Tree

theorem bodyTokens_ne_nil (listed : tune ∈ (ofTokens ts).1.tunes) (some : tune.body ≠ []) :
    tune.bodyTokens ≠ [] := by
  obtain ⟨line, lines, body⟩ := List.exists_cons_of_ne_nil some
  obtain ⟨t, us, read⟩ := exists_read_of_mem_body listed (body ▸ List.mem_cons_self)
  rw [Tune.bodyTokens, body, List.flatMap_cons, read]
  exact List.append_ne_nil_of_left_ne_nil (BodyLine.tokens_ne_nil t us) _

/-- In every text each body stands right behind the header of its tune, with no blank line and no
opening key inside and one of them or the end behind, and its music has line feeds at the ends of
lines only. -/
theorem bodies_ofTokens (text : Text)
    (cut : (ofTokens (scan text)).1.tunes = front ++ tune :: back) (some : tune.body ≠ []) :
    (∃ rest, scan text = (ofTokens (scan text)).1.header ++ front.flatMap Tune.tokens ++
        tune.headerTokens ++ tune.bodyTokens ++ rest ∧
      Token.IsBody tune.bodyTokens rest) ∧
    ∀ line ∈ tune.musicLines, line.EndsOnce := by
  have listed : tune ∈ (ofTokens (scan text)).1.tunes :=
    cut ▸ List.mem_append_right front List.mem_cons_self
  refine ⟨?_, ?_⟩
  · have nonempty := bodyTokens_ne_nil listed some
    obtain ⟨beyond, us, whole, read⟩ := exists_read_of_tunes cut
    obtain ⟨rest, own, block⟩ := Tune.exists_block beyond us
    rw [← read] at own block
    rw [tokens_ofTokens_scan, own] at whole
    refine ⟨rest ++ [endMark text], ?_, block.isBody nonempty ?_ rfl⟩
    · refine (scan_eq text).trans ?_
      rw [whole]
      simp only [List.append_assoc]
    · intro t member
      have inside : t ∈ textTokens text :=
        whole ▸ List.mem_append_right _ (List.mem_append_right _ member)
      exact kind_of_mem_textTokens inside
  · intro line member
    obtain ⟨us, rfl⟩ := exists_read_of_mem_musicLines listed member
    exact MusicLine.endsOnce_read us

/-- Two lines with a slur in one and a comment behind the other, ahead of a line with a space. -/
theorem bodies_ofTokens_slur : ∃ tune other,
    (ofTokens (scan "X:1\nK:C\n(AB)\nc%d\n \ne\nX:2\nK:G\n".toList)).1.tunes =
        [] ++ tune :: [other] ∧
      tune.body ≠ [] ∧ Token.join tune.bodyTokens = "(AB)\nc%d\n".toList ∧
      (∃ rest, Token.IsBody tune.bodyTokens rest) ∧ ∀ line ∈ tune.musicLines, line.EndsOnce := by
  have two :
      (ofTokens (scan "X:1\nK:C\n(AB)\nc%d\n \ne\nX:2\nK:G\n".toList)).1.tunes.length = 2 := by
    decide +kernel
  have first : ∀ tune ∈
      (ofTokens (scan "X:1\nK:C\n(AB)\nc%d\n \ne\nX:2\nK:G\n".toList)).1.tunes.head?,
      tune.body.isEmpty = false ∧ Token.join tune.bodyTokens = "(AB)\nc%d\n".toList := by
    decide +kernel
  obtain ⟨tune, other, listed⟩ := List.length_eq_two.mp two
  rw [listed] at first
  obtain ⟨some, own⟩ := first tune rfl
  have nonempty : tune.body ≠ [] := by
    intro none
    simp [none] at some
  have cut :
      (ofTokens (scan "X:1\nK:C\n(AB)\nc%d\n \ne\nX:2\nK:G\n".toList)).1.tunes =
        [] ++ tune :: [other] := listed
  obtain ⟨⟨rest, _, body⟩, lines⟩ := bodies_ofTokens _ cut nonempty
  exact ⟨tune, other, cut, nonempty, own, ⟨rest, body⟩, lines⟩

end Tree
end Tunebook
