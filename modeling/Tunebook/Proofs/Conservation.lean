import Tunebook.Grammar

/-! A tree owns the tokens that it was read from. Every production conserves: what it built and what
it left are, one after the other, what it was given. The grammar is followed from the items up to
the whole text, for arbitrary tokens in arbitrary order. -/
namespace Tunebook

namespace Item

/-- Induction along a reading of items: no tokens, a parenthesis that ends the slur, a slur, any
other item. -/
@[elab_as_elim]
theorem readAll_induct {motive : Bool → List Token → Prop}
    (nil : ∀ inSlur, motive inSlur [])
    (stop : ∀ t ts, t.kind = .rightParen → motive true (t :: ts))
    (slur : ∀ inSlur t ts, t.kind = .leftParen → isClosed 0 ts = true → motive true ts →
      motive inSlur (Token.accept (· = .rightParen) (readAll true ts).rest).2 →
      motive inSlur (t :: ts))
    (item : ∀ inSlur t ts, (inSlur && t.kind = .rightParen) = false →
      (t.kind = .leftParen && isClosed 0 ts) = false → motive inSlur (read inSlur t ts).rest →
      motive inSlur (t :: ts))
    (inSlur : Bool) (ts : List Token) : motive inSlur ts := by
  induction hn : ts.length using Nat.strongRecOn generalizing inSlur ts with
  | ind n ih =>
    cases ts with
    | nil => exact nil inSlur
    | cons t ts =>
      have smaller : ∀ inSlur (us : List Token), us.length ≤ ts.length → motive inSlur us := by
        intro inSlur us hle
        refine ih us.length ?_ inSlur us rfl
        simp only [← hn, List.length_cons]
        omega
      by_cases hr : (inSlur && t.kind = .rightParen) = true
      · simp only [Bool.and_eq_true, decide_eq_true_eq] at hr
        obtain ⟨rfl, hr⟩ := hr
        exact stop t ts hr
      · by_cases hl : (t.kind = .leftParen && isClosed 0 ts) = true
        · simp only [Bool.and_eq_true, decide_eq_true_eq] at hl
          have hclose := Nat.le_trans (Token.length_accept_le (· = .rightParen) _)
            (length_readAll_le true ts)
          exact slur inSlur t ts hl.1 hl.2 (smaller true ts (Nat.le_refl _))
            (smaller inSlur _ hclose)
        · exact item inSlur t ts (Bool.not_eq_true _ ▸ hr) (Bool.not_eq_true _ ▸ hl)
            (smaller inSlur _ (length_read_le inSlur t ts))

theorem readAll_append (inSlur : Bool) (ts : List Token) :
    tokensOf (readAll inSlur ts).value ++ (readAll inSlur ts).rest = ts := by
  induction inSlur, ts using readAll_induct with
  | nil inSlur => simp [readAll_nil, tokensOf]
  | stop t ts hr => simp [readAll_stop hr, tokensOf]
  | slur inSlur t ts hl hc inner tail =>
    have hclose := Token.accept_append (· = .rightParen) (readAll true ts).rest
    rw [readAll_slur hl hc]
    simp only [tokensOf, tokens, List.cons_append, List.append_assoc, tail, hclose, inner]
  | item inSlur t ts hr hl tail =>
    rw [readAll_item hr hl]
    simp only [tokensOf, List.append_assoc, tail, read_append]

/-- Outside slurs nothing is left. -/
theorem rest_readAll (ts : List Token) : (readAll false ts).rest = [] := by
  suffices h : ∀ inSlur ts, inSlur = false → (readAll inSlur ts).rest = [] from h false ts rfl
  intro inSlur ts
  induction inSlur, ts using readAll_induct with
  | nil inSlur => simp [readAll_nil]
  | stop t ts hr => simp
  | slur inSlur t ts hl hc inner tail =>
    intro outside
    rw [readAll_slur hl hc]
    exact tail outside
  | item inSlur t ts hr hl tail =>
    intro outside
    rw [readAll_item hr hl]
    exact tail outside

theorem tokensOf_readAll (ts : List Token) : tokensOf (readAll false ts).value = ts := by
  have h := readAll_append false ts
  rwa [rest_readAll, List.append_nil] at h

end Item

theorem MusicLine.read_append (ts : List Token) :
    (read ts).value.tokens ++ (read ts).rest = ts := by
  simp only [read, tokens, Item.tokensOf_readAll, List.append_assoc, Token.accept_append,
    List.takeWhile_append_dropWhile]

theorem BodyLine.read_append (t : Token) (ts : List Token) :
    (read t ts).value.tokens ++ (read t ts).rest = t :: ts := by
  unfold read
  split
  · exact InfoLine.read_append t ts
  · split
    · exact CommentLine.read_append t ts
    · exact MusicLine.read_append (t :: ts)

namespace Tune

theorem readBody_append (atLineStart : Bool) (ts : List Token) :
    (readBody atLineStart ts).value.flatMap BodyLine.tokens ++ (readBody atLineStart ts).rest =
      ts := by
  fun_induction readBody atLineStart ts with
  | case1 | case2 => rfl
  | case3 _ t ts _ line tail ih =>
    simp only [List.flatMap_cons, List.append_assoc, tail, ih, line, BodyLine.read_append]

theorem readHeader_append (isFirst : Bool) (ts : List Token) :
    (readHeader isFirst ts).1.flatMap HeaderLine.tokens ++ (readHeader isFirst ts).2 = ts := by
  fun_induction readHeader isFirst ts with
  | case1 | case2 | case6 => rfl
  | case3 _ t ts _ _ line _ =>
    simp only [List.flatMap_cons, List.flatMap_nil, List.append_nil, HeaderLine.tokens, line,
      InfoLine.read_append]
  | case4 _ t ts _ _ line _ tail ih =>
    simp only [List.flatMap_cons, List.append_assoc, HeaderLine.tokens, tail, ih, line,
      InfoLine.read_append]
  | case5 _ t ts _ _ line tail ih =>
    simp only [List.flatMap_cons, List.append_assoc, HeaderLine.tokens, tail, ih, line,
      CommentLine.read_append]

theorem read_append (beyond : Bool) (ts : List Token) :
    (read beyond ts).value.tokens ++ (read beyond ts).rest = ts := by
  simp only [read, tokens, headerTokens, bodyTokens, List.append_assoc, splitApart_append,
    readBody_append, readHeader_append]

/-- Every line of a body is one that the grammar read. -/
theorem exists_read_of_mem_body (h : line ∈ (readBody atLineStart ts).value) :
    ∃ t us, line = (BodyLine.read t us).value := by
  fun_induction readBody atLineStart ts with
  | case1 | case2 => cases h
  | case3 _ t ts _ own tail ih =>
    rcases List.mem_cons.mp h with rfl | h
    · exact ⟨t, ts, rfl⟩
    · exact ih h

end Tune

namespace Tree

theorem tokens_readTunes (beyond : Bool) (ts : List Token) :
    (readTunes beyond ts).1.flatMap Tune.tokens = ts := by
  fun_induction readTunes beyond ts with
  | case1 => rfl
  | case2 t ts tune tail ih =>
    simp only [List.flatMap_cons, tail, ih, tune, Tune.read_append]

theorem tokens_ofTokens (ts : List Token) :
    (ofTokens ts).1.tokens = ts.takeWhile (·.kind ≠ .eof) := by
  simp only [ofTokens, tokens, tokens_readTunes, Tune.splitApart_append]

theorem exists_read_of_readTunes (h : (readTunes beyond ts).1 = front ++ tune :: back) :
    ∃ us, ts = front.flatMap Tune.tokens ++ us ∧ tune = (Tune.read beyond us).value := by
  revert front
  fun_induction readTunes beyond ts
  case case1 => simp
  case case2 t ts own tail ih =>
    intro front h
    cases front with
    | nil =>
      obtain ⟨same, _⟩ := List.cons.inj h
      exact ⟨t :: ts, rfl, same.symm⟩
    | cons other front =>
      obtain ⟨same, others⟩ := List.cons.inj h
      obtain ⟨us, cut, read⟩ := ih others
      refine ⟨us, ?_, read⟩
      rw [List.flatMap_cons, ← same, List.append_assoc, ← cut]
      exact (Tune.read_append beyond (t :: ts)).symm

/-- A tune is read from what the tunes before it leave. -/
theorem exists_read_of_tunes (h : (ofTokens ts).1.tunes = front ++ tune :: back) :
    ∃ beyond us, (ofTokens ts).1.tokens =
        (ofTokens ts).1.header ++ front.flatMap Tune.tokens ++ us ∧
      tune = (Tune.read beyond us).value := by
  obtain ⟨us, cut, read⟩ := exists_read_of_readTunes h
  refine ⟨_, us, ?_, read⟩
  rw [List.append_assoc, ← cut]
  exact congrArg _ (tokens_readTunes _ _)

/-- So is every line of a body. -/
theorem exists_read_of_mem_body (listed : tune ∈ (ofTokens ts).1.tunes) (member : line ∈ tune.body) :
    ∃ t us, line = (BodyLine.read t us).value := by
  obtain ⟨front, back, cut⟩ := List.append_of_mem listed
  obtain ⟨_, us, _, rfl⟩ := exists_read_of_tunes cut
  exact Tune.exists_read_of_mem_body member

theorem exists_read_of_mem_musicLines (listed : tune ∈ (ofTokens ts).1.tunes)
    (member : line ∈ tune.musicLines) : ∃ us, line = (MusicLine.read us).value := by
  obtain ⟨own, inside, same⟩ := List.mem_filterMap.mp member
  obtain ⟨t, us, rfl⟩ := exists_read_of_mem_body listed inside
  unfold BodyLine.read at same
  split at same
  · cases same
  · split at same
    · cases same
    · cases same
      exact ⟨t :: us, rfl⟩

/-- The tree of any tokens owns those ahead of the first end mark, each once and in order, and no
end mark. -/
theorem ofTokens_conserves (ts : List Token) :
    (ofTokens ts).1.tokens = ts.takeWhile (·.kind ≠ .eof) ∧
      .eof ∉ (ofTokens ts).1.tokens.map Token.kind := by
  refine ⟨tokens_ofTokens ts, ?_⟩
  rw [tokens_ofTokens]
  intro member
  obtain ⟨t, ht, hk⟩ := List.mem_map.mp member
  have text := List.all_eq_true.mp List.all_takeWhile t ht
  simp [hk] at text

end Tree
end Tunebook
