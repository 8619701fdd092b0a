import Tunebook.Proofs.Text.Positions

/-! The tokens of a text tile it. Each stands where reading what is before it leads, and its span is
where its lexeme is found; a line feed can only be its last character. -/
namespace Tunebook

/-- The second token starts where the first one stops. -/
def Token.Abuts (t u : Token) : Prop :=
  t.span.stop = u.span.start

namespace Token

/-- The spans of the tokens follow one another from `n` on. -/
def Tiles : Nat → List Token → Prop
  | _, [] => True
  | n, t :: ts => t.span = ⟨n, n + t.lexeme.bytes⟩ ∧ Tiles (n + t.lexeme.bytes) ts

theorem tiles_append : Tiles n (ts ++ us) ↔ Tiles n ts ∧ Tiles (n + (join ts).bytes) us := by
  induction ts generalizing n with
  | nil => simp [Tiles]
  | cons t ts ih => simp only [List.cons_append, Tiles, ih, join_cons, Text.bytes_append,
      and_assoc, Nat.add_assoc]

theorem Tiles.start_of_head? (h : Tiles n ts) (first : t ∈ ts.head?) : t.span.start = n := by
  cases ts with
  | nil => cases first
  | cons u ts =>
    cases first
    rw [h.1]

theorem Tiles.stop_of_getLast? (h : Tiles n ts) (last : t ∈ ts.getLast?) :
    t.span.stop = n + (join ts).bytes := by
  obtain ⟨front, rfl⟩ := List.getLast?_eq_some_iff.mp last
  have own := (tiles_append.mp h).2.1
  rw [own, join_append, join_cons, join_nil, List.append_nil, Text.bytes_append, Nat.add_assoc]

theorem Tiles.span_of_mem (h : Tiles n ts) (member : t ∈ ts) :
    n ≤ t.span.start ∧ t.span.stop = t.span.start + t.lexeme.bytes ∧
      t.span.stop ≤ n + (join ts).bytes := by
  induction ts generalizing n with
  | nil => cases member
  | cons u ts ih =>
    rw [join_cons, Text.bytes_append]
    rcases List.mem_cons.mp member with rfl | member
    · rw [h.1]
      dsimp only
      omega
    · have := ih h.2 member
      omega

/-- The character that ends at an offset among the tokens is one of a token. -/
theorem Tiles.exists_mem (h : Tiles n ts) (behind : n < offset)
    (within : offset ≤ n + (join ts).bytes) :
    ∃ t ∈ ts, t.span.start < offset ∧ offset ≤ t.span.stop := by
  induction ts generalizing n with
  | nil =>
    rw [join_nil, Text.bytes_nil] at within
    omega
  | cons u ts ih =>
    rw [join_cons, Text.bytes_append] at within
    by_cases past : n + u.lexeme.bytes < offset
    · obtain ⟨t, member, inside⟩ := ih h.2 past (by omega)
      exact ⟨t, List.mem_cons_of_mem u member, inside⟩
    · refine ⟨u, List.mem_cons_self, ?_⟩
      rw [h.1]
      exact ⟨behind, Nat.le_of_not_lt past⟩

theorem Tiles.isChain (h : Tiles n ts) : ts.IsChain Abuts := by
  induction ts generalizing n with
  | nil => exact .nil
  | cons t ts ih =>
    refine List.isChain_cons.mpr ⟨?_, ih h.2⟩
    intro u first
    rw [Abuts, h.1, h.2.start_of_head? first]

theorem tiles_placed (start : Position) (offset : Nat) (ps : List Piece) :
    Tiles offset (Scan.placed start offset ps) := by
  induction ps generalizing start offset with
  | nil => trivial
  | cons p ps ih => exact ⟨rfl, ih _ _⟩

/-- Just past a lexeme whose last character alone may be a line feed: one counter of lines and one
of columns are enough. -/
theorem stop_eq {t : Token} (h : '\n' ∉ t.lexeme.dropLast) :
    t.stop = if t.lexeme.getLast? = some '\n' then ⟨t.start.line + 1, 0⟩
      else ⟨t.start.line, t.start.column + t.units⟩ := by
  rw [stop, units]
  rcases List.eq_nil_or_concat' t.lexeme with bare | ⟨front, c, whole⟩
  · rw [bare]
    rfl
  · rw [whole, List.dropLast_concat] at h
    rw [whole, List.getLast?_concat]
    by_cases feed : c = '\n'
    · rw [if_pos (congrArg some feed), feed, Position.after_feed _ _ List.not_mem_nil,
        List.count_eq_zero.mpr h]
      rfl
    · have absent : '\n' ∉ front ++ [c] := by
        simp only [List.mem_append, List.mem_singleton, not_or]
        exact ⟨h, Ne.symm feed⟩
      rw [if_neg (fun same => feed (Option.some.inj same)), Position.after_line _ absent]

end Token

namespace Text

theorem feed_of_mem_lines (h : line ∈ lines t) : '\n' ∉ line.dropLast := by
  induction t using line_induct with
  | last content absent =>
    cases content with
    | nil => cases h
    | cons c cs =>
      rw [lines_content absent (List.cons_ne_nil c cs)] at h
      obtain rfl := List.mem_singleton.mp h
      exact fun member => absent (List.dropLast_subset _ member)
  | more content rest absent ih =>
    have cut : content ++ '\n' :: rest = (content ++ ['\n']) ++ rest := by simp
    rw [cut, lines_append (.inr (by simp)), lines_line absent] at h
    rcases List.mem_append.mp h with h | h
    · obtain rfl := List.mem_singleton.mp h
      rwa [List.dropLast_concat]
    · exact ih h

end Text

namespace Scan

/-- Lines are cut from one another after each line feed, so a piece has none but at its end. -/
theorem feed_of_mem_pieces (h : p ∈ pieces text) : '\n' ∉ p.text.dropLast := by
  obtain ⟨l, listed, member⟩ := List.mem_flatMap.mp h
  obtain ⟨front, back, cut⟩ := List.mem_iff_append.mp member
  have whole := join_line l
  rw [cut, Piece.join_append, Piece.join_cons] at whole
  intro feed
  refine Text.feed_of_mem_lines listed ?_
  have nonempty : p.text ≠ [] := by
    intro none
    rw [none] at feed
    cases feed
  rw [← whole, List.dropLast_append_of_ne_nil (by simp [nonempty])]
  refine List.mem_append_right _ ?_
  cases found : Piece.join back with
  | nil => rwa [List.append_nil]
  | cons c cs =>
    rw [List.dropLast_append_of_ne_nil (List.cons_ne_nil c cs)]
    exact List.mem_append_left _ (List.dropLast_subset p.text feed)

theorem exists_of_mem_placed (h : t ∈ placed start offset ps) :
    ∃ front p back, ps = front ++ p :: back ∧
      t = ⟨p.kind, p.text, start.after (Piece.join front), ⟨offset + (Piece.join front).bytes,
        offset + (Piece.join front).bytes + p.text.bytes⟩⟩ := by
  induction ps generalizing start offset with
  | nil => cases h
  | cons p ps ih =>
    rcases List.mem_cons.mp h with rfl | h
    · exact ⟨[], p, ps, rfl, rfl⟩
    · obtain ⟨front, q, back, rfl, rfl⟩ := ih h
      refine ⟨p :: front, q, back, rfl, ?_⟩
      rw [Piece.join_cons, Position.after_append, Text.bytes_append, Nat.add_assoc offset]

end Scan

def endMark (text : Text) : Token :=
  ⟨.eof, [], (⟨0, 0⟩ : Position).after text, ⟨text.bytes, text.bytes⟩⟩

theorem scan_eq (text : Text) : scan text = textTokens text ++ [endMark text] := by
  have parts := Scan.place_append ⟨0, 0⟩ 0 (Scan.pieces text) []
  rwa [List.append_nil, Scan.join_pieces, Nat.zero_add] at parts

theorem tiles_textTokens (text : Text) : Token.Tiles 0 (textTokens text) :=
  Token.tiles_placed _ _ _

theorem tiles_scan (text : Text) : Token.Tiles 0 (scan text) := by
  rw [scan_eq, Token.tiles_append, join_textTokens, Nat.zero_add]
  exact ⟨tiles_textTokens text, rfl, trivial⟩

theorem exists_of_mem_textTokens (h : t ∈ textTokens text) :
    ∃ front p back, Scan.pieces text = front ++ p :: back ∧
      t = ⟨p.kind, p.text, (⟨0, 0⟩ : Position).after (Piece.join front),
        ⟨(Piece.join front).bytes, (Piece.join front).bytes + p.text.bytes⟩⟩ := by
  obtain ⟨front, p, back, cut, same⟩ := Scan.exists_of_mem_placed h
  rw [Nat.zero_add] at same
  exact ⟨front, p, back, cut, same⟩

theorem lexeme_ne_nil_of_mem_textTokens (h : t ∈ textTokens text) : t.lexeme ≠ [] := by
  obtain ⟨front, p, back, cut, rfl⟩ := exists_of_mem_textTokens h
  have listed : p ∈ Scan.pieces text := cut ▸ List.mem_append_right front List.mem_cons_self
  exact (Scan.isProper_of_mem_pieces listed).1

/-- A token stands between what is before it and what is after it, and starts where reading the
former leads. -/
theorem exists_split_of_mem_scan (h : t ∈ scan text) :
    ∃ s u, text = s ++ (t.lexeme ++ u) ∧
      t.span = ⟨s.bytes, s.bytes + t.lexeme.bytes⟩ ∧ t.start = (⟨0, 0⟩ : Position).after s := by
  rw [scan_eq] at h
  rcases List.mem_append.mp h with h | h
  · obtain ⟨front, p, back, cut, rfl⟩ := exists_of_mem_textTokens h
    refine ⟨Piece.join front, Piece.join back, ?_, rfl, rfl⟩
    have whole := Scan.join_pieces text
    rwa [cut, Piece.join_append, Piece.join_cons, eq_comm] at whole
  · obtain rfl := List.mem_singleton.mp h
    exact ⟨text, [], (List.append_nil text).symm, rfl, rfl⟩

/-- A token is found in the text by its span. -/
theorem slice?_of_mem_scan (h : t ∈ scan text) : text.slice? t.span = some t.lexeme := by
  obtain ⟨s, u, rfl, span, _⟩ := exists_split_of_mem_scan h
  rw [span, Text.slice?_middle]

/-- A token lies at the positions of its span. -/
theorem range_of_mem_scan (h : t ∈ scan text) : t.range = text.rangeOfSpan t.span := by
  obtain ⟨s, u, rfl, span, start⟩ := exists_split_of_mem_scan h
  have first := Text.positionAt_bytes s (t.lexeme ++ u)
  have last := Text.positionAt_bytes (s ++ t.lexeme) u
  rw [List.append_assoc, Text.bytes_append, Position.after_append] at last
  rw [Token.range, Text.rangeOfSpan, span, first, last, Token.stop, start]

/-- Later tokens start where earlier ones have stopped. -/
theorem pairwise_textTokens (text : Text) :
    (textTokens text).Pairwise fun t u => t.stop ≤ u.start := by
  suffices general : ∀ start offset ps, (Scan.placed start offset ps).Pairwise
      fun t u => t.stop ≤ u.start from general _ _ _
  intro start offset ps
  induction ps generalizing start offset with
  | nil => exact .nil
  | cons p ps ih =>
    refine List.pairwise_cons.mpr ⟨?_, ih _ _⟩
    intro u member
    obtain ⟨front, q, back, _, rfl⟩ := Scan.exists_of_mem_placed member
    exact Position.le_after _ _

theorem pairwise_start_textTokens (text : Text) :
    (textTokens text).Pairwise fun t u => t.start ≤ u.start :=
  (pairwise_textTokens text).imp fun h => Position.le_trans (Position.le_after _ _) h

/-- A token is told by its place from every other. -/
theorem nodup_scan (text : Text) : (scan text).Nodup := by
  have distinct : (textTokens text).Nodup := by
    refine (pairwise_textTokens text).imp_of_mem ?_
    rintro t _ member _ apart rfl
    exact Position.not_le_of_lt (Position.lt_after _ (lexeme_ne_nil_of_mem_textTokens member)) apart
  rw [scan_eq, List.nodup_append]
  refine ⟨distinct, List.pairwise_singleton _ _, ?_⟩
  intro t member mark listed same
  obtain rfl := List.mem_singleton.mp listed
  exact kind_of_mem_textTokens member (congrArg Token.kind same)

/-- The tokens tile their text up to the end mark, each is the slice of it that its span says, and
its positions are those of its span, by the walk and by the table of line starts alike. -/
theorem scan_tiles (text : Text) :
    (∃ ts mark, scan text = ts ++ [mark] ∧ mark.kind = .eof ∧
      mark.span = ⟨text.bytes, text.bytes⟩ ∧
      ∀ t ∈ ts, t.kind ≠ .eof ∧ t.span.start < t.span.stop) ∧
    (scan text).head?.map (·.span.start) = some 0 ∧
    (scan text).IsChain Token.Abuts ∧
    ∀ t ∈ scan text, text.slice? t.span = some t.lexeme ∧
      t.start = text.positionAt t.span.start ∧ t.stop = text.positionAt t.span.stop ∧
      t.start = text.locate t.span.start ∧ t.stop = text.locate t.span.stop := by
  refine ⟨⟨textTokens text, endMark text, scan_eq text, rfl, rfl, ?_⟩, ?_,
    (tiles_scan text).isChain, ?_⟩
  · intro t member
    refine ⟨kind_of_mem_textTokens member, ?_⟩
    have listed : t ∈ scan text := scan_eq text ▸ List.mem_append_left _ member
    obtain ⟨s, u, _, place, _⟩ := exists_split_of_mem_scan listed
    have positive := Scan.bytes_pos (lexeme_ne_nil_of_mem_textTokens member)
    rw [place]
    dsimp only
    omega
  · cases found : (scan text).head? with
    | none => simp [scan_eq] at found
    | some first => exact congrArg some ((tiles_scan text).start_of_head? found)
  · intro t member
    have range := range_of_mem_scan member
    simp only [Token.range, Text.rangeOfSpan, Range.mk.injEq, true_and] at range
    obtain ⟨start, stop⟩ := range
    refine ⟨slice?_of_mem_scan member, start, stop, ?_, ?_⟩
    · rw [start, Text.positionAt_eq_locate]
    · rw [stop, Text.positionAt_eq_locate]

end Tunebook
