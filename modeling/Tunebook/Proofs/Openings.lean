import Tunebook.Proofs.Anchoring

/-! Where tunes begin. No token past the first of a tune opens another one, so a tune that is read
ahead of an `X:` line ends before that line, and the tunes from there on are read as if nothing had
stood before them. -/
namespace Tunebook

theorem Token.opensTune_eq_false {t : Token} (h : t.kind ≠ .infoKey) : t.opensTune = false := by
  simp [opensTune, h]

/-! Past the first token of a line there is no key. -/

theorem InfoLine.ne_infoKey_of_mem_tail (h : t ∈ (read u ts).1.tokens.tail) : t.kind ≠ .infoKey := by
  intro infoKey
  simp only [tokens, read, List.cons_append, List.tail_cons, List.mem_append] at h
  rcases h with (value | comment) | eol
  · have passes := List.all_eq_true.mp List.all_takeWhile t value
    simp [infoKey, isValue] at passes
  · have passes := Token.kind_of_mem_accept (Option.mem_toList.mp comment)
    simp [infoKey, Kind.isComment] at passes
  · have passes := Token.kind_of_mem_accept (Option.mem_toList.mp eol)
    simp [infoKey] at passes

theorem CommentLine.ne_infoKey_of_mem (hc : u.kind.isComment = true)
    (h : t ∈ (read u ts).1.tokens) : t.kind ≠ .infoKey := by
  intro infoKey
  rcases List.mem_cons.mp h with rfl | eol
  · simp [infoKey, Kind.isComment] at hc
  · have passes := Token.kind_of_mem_accept (Option.mem_toList.mp eol)
    simp [infoKey] at passes

theorem MusicLine.ne_infoKey_of_mem (h : t ∈ (read ts).value.tokens) : t.kind ≠ .infoKey := by
  intro infoKey
  rcases List.mem_append.mp h with items | eol
  · rw [read, Item.tokensOf_readAll] at items
    have passes := List.all_eq_true.mp List.all_takeWhile t items
    simp [infoKey, isBoundary] at passes
  · have passes := Token.kind_of_mem_accept (Option.mem_toList.mp eol)
    simp [infoKey] at passes

theorem InfoLine.opensTune_of_mem (h : t ∈ (read u ts).1.tokens.tail) : t.opensTune = false :=
  Token.opensTune_eq_false (ne_infoKey_of_mem_tail h)

theorem CommentLine.opensTune_of_mem (hc : u.kind.isComment = true)
    (h : t ∈ (read u ts).1.tokens) : t.opensTune = false :=
  Token.opensTune_eq_false (ne_infoKey_of_mem hc h)

theorem MusicLine.opensTune_of_mem (h : t ∈ (read ts).value.tokens) : t.opensTune = false :=
  Token.opensTune_eq_false (ne_infoKey_of_mem h)

theorem BodyLine.opensTune_of_mem (first : t.opensTune = false)
    (h : u ∈ (read t ts).value.tokens) : u.opensTune = false := by
  unfold read at h
  split at h
  · rcases List.mem_cons.mp (show u ∈ t :: (InfoLine.read t ts).1.tokens.tail from h) with rfl | h
    · exact first
    · exact InfoLine.opensTune_of_mem h
  · split at h
    next hc => exact CommentLine.opensTune_of_mem hc h
    · exact MusicLine.opensTune_of_mem h

namespace Tune

theorem opensTune_of_mem_body (h : t ∈ (readBody atLineStart ts).value.flatMap BodyLine.tokens) :
    t.opensTune = false := by
  fun_induction readBody atLineStart ts with
  | case1 | case2 => cases h
  | case3 _ u us goes line tail ih =>
    have first : u.opensTune = false := by
      cases hu : u.opensTune with
      | false => rfl
      | true => exact absurd (by simp [hu]) goes
    rw [List.flatMap_cons, List.mem_append] at h
    rcases h with h | h
    · exact BodyLine.opensTune_of_mem first h
    · exact ih h

/-- Past its first line a header has no key that opens a tune. -/
theorem opensTune_of_mem_header (h : t ∈ (readHeader false ts).1.flatMap HeaderLine.tokens) :
    t.opensTune = false := by
  suffices general : ∀ isFirst ts, isFirst = false →
      ∀ t ∈ (readHeader isFirst ts).1.flatMap HeaderLine.tokens, t.opensTune = false from
    general false ts rfl t h
  intro isFirst ts
  fun_induction readHeader isFirst ts with
  | case1 | case2 | case6 =>
    intro _ t h
    cases h
  | case3 isFirst u us _ stays line _ =>
    intro later t h
    have first : u.opensTune = false := by simpa [later] using stays
    rw [List.flatMap_cons, List.flatMap_nil, List.append_nil] at h
    rcases List.mem_cons.mp (show t ∈ u :: line.1.tokens.tail from h) with rfl | h
    · exact first
    · exact InfoLine.opensTune_of_mem h
  | case4 isFirst u us _ stays line _ tail ih =>
    intro later t h
    have first : u.opensTune = false := by simpa [later] using stays
    rw [List.flatMap_cons, List.mem_append] at h
    rcases h with h | h
    · rcases List.mem_cons.mp (show t ∈ u :: line.1.tokens.tail from h) with rfl | h
      · exact first
      · exact InfoLine.opensTune_of_mem h
    · exact ih rfl t h
  | case5 isFirst u us _ hc line tail ih =>
    intro later t h
    rw [List.flatMap_cons, List.mem_append] at h
    rcases h with h | h
    · exact CommentLine.opensTune_of_mem hc h
    · exact ih rfl t h

theorem opensTune_of_mem_splitApart (h : t ∈ (splitApart beyond ts).1) : t.opensTune = false := by
  unfold splitApart at h
  split at h
  · simpa using List.all_eq_true.mp List.all_takeWhile t h
  next none =>
    have member : t ∈ ts := by
      rw [← Token.splitBlankLines_append ts]
      exact List.mem_append_left _ h
    simp only [Bool.or_eq_true, not_or, List.any_eq_true, not_exists, not_and,
      Bool.not_eq_true] at none
    exact none.2 t member

theorem opensTune_of_mem_firstHeader
    (h : t ∈ ((readHeader true ts).1.flatMap HeaderLine.tokens).tail) : t.opensTune = false := by
  cases ts with
  | nil => simp [readHeader] at h
  | cons u us =>
    rw [readHeader] at h
    split at h
    · simp only [Bool.not_true, Bool.and_false, Bool.false_eq_true, if_false] at h
      split at h
      · rw [List.flatMap_cons, List.flatMap_nil, List.append_nil] at h
        exact InfoLine.opensTune_of_mem h
      · rcases List.mem_append.mp
          (show t ∈ (InfoLine.read u us).1.tokens.tail ++ _ from h) with h | h
        · exact InfoLine.opensTune_of_mem h
        · exact opensTune_of_mem_header h
    · split at h
      next hc =>
        rw [List.flatMap_cons] at h
        rcases List.mem_append.mp (List.mem_of_mem_tail h) with h | h
        · exact CommentLine.opensTune_of_mem hc h
        · exact opensTune_of_mem_header h
      · cases h

theorem opensTune_of_mem_tail (h : t ∈ (read beyond ts).value.tokens.tail) :
    t.opensTune = false := by
  have later : ∀ t ∈ (read beyond ts).value.bodyTokens ++ (read beyond ts).value.trailing,
      t.opensTune = false := by
    intro t h
    rcases List.mem_append.mp h with h | h
    · exact opensTune_of_mem_body h
    · exact opensTune_of_mem_splitApart h
  rw [tokens, List.append_assoc, List.tail_append] at h
  split at h
  · exact later t (List.mem_of_mem_tail h)
  · rcases List.mem_append.mp h with h | h
    · exact opensTune_of_mem_firstHeader h
    · exact later t h

/-- A tune that is read ahead of an opening key takes none of the tokens from that key on. -/
theorem rest_read_append (beyond : Bool) (hx : x.opensTune = true) (t : Token)
    (ts us : List Token) :
    ∃ own, (read beyond (t :: ts ++ x :: us)).value.tokens = t :: own ∧
      ∃ left, ts = own ++ left ∧ (read beyond (t :: ts ++ x :: us)).rest = left ++ x :: us := by
  have whole := read_append beyond (t :: ts ++ x :: us)
  have first := mem_tokens_read beyond t (ts ++ x :: us)
  have later : ∀ u ∈ (read beyond (t :: ts ++ x :: us)).value.tokens.tail, u.opensTune = false :=
    fun u hu => opensTune_of_mem_tail hu
  cases htokens : (read beyond (t :: ts ++ x :: us)).value.tokens with
  | nil =>
    rw [List.cons_append] at htokens
    simp [htokens] at first
  | cons u own =>
    rw [htokens, List.cons_append, List.cons_append, List.cons.injEq] at whole
    obtain ⟨rfl, whole⟩ := whole
    refine ⟨own, rfl, ?_⟩
    rw [htokens, List.tail_cons] at later
    rcases List.append_eq_append_iff.mp whole with ⟨left, hts, hrest⟩ | ⟨excess, hown, hus⟩
    · exact ⟨left, hts, hrest⟩
    · cases excess with
      | nil => exact ⟨[], by simpa using hown.symm, by simpa using hus.symm⟩
      | cons y excess =>
        rw [List.cons_append, List.cons.injEq] at hus
        have opens := later y (hown ▸ by simp)
        rw [← hus.1, hx] at opens
        cases opens

end Tune

/-- The tunes from an opening key on are those of the tokens from there on. What stands before it
makes up the tunes before, with their problems. -/
theorem Tree.readTunes_append (beyond : Bool) (hx : x.opensTune = true) (ts us : List Token) :
    ∃ tunes problems,
      readTunes beyond (ts ++ x :: us) =
        (tunes ++ (readTunes beyond (x :: us)).1, problems ++ (readTunes beyond (x :: us)).2) ∧
      tunes.flatMap Tune.tokens = ts ∧ ∀ p ∈ problems, p.token ∈ ts := by
  induction hn : ts.length using Nat.strongRecOn generalizing ts with
  | ind n ih =>
    cases ts with
    | nil => exact ⟨[], [], rfl, rfl, by simp⟩
    | cons t ts =>
      obtain ⟨own, htokens, left, rfl, hrest⟩ := Tune.rest_read_append beyond hx t ts us
      have shorter : left.length < n := by
        simp only [← hn, List.length_cons, List.length_append]
        omega
      obtain ⟨tunes, problems, tail, hown, found⟩ := ih left.length shorter left rfl
      have anchored := Tune.anchored_read beyond (t :: (own ++ left) ++ x :: us)
      rw [List.cons_append] at htokens hrest anchored
      refine ⟨(Tune.read beyond (t :: (own ++ left ++ x :: us))).value :: tunes,
        (Tune.read beyond (t :: (own ++ left ++ x :: us))).problems ++ problems, ?_, ?_, ?_⟩
      · rw [List.cons_append, readTunes, hrest, tail]
        simp only [List.cons_append, List.append_assoc]
      · rw [List.flatMap_cons, htokens, hown, List.cons_append]
      · intro p hp
        rcases List.mem_append.mp hp with hp | hp
        · have member := htokens ▸ anchored p hp
          exact List.mem_append_left left member
        · exact List.mem_cons_of_mem t (List.mem_append_right own (found p hp))

theorem Tune.splitApart_opening (beyond : Bool) (hx : x.opensTune = true) (ts us : List Token) :
    splitApart beyond (ts ++ x :: us) =
      (ts.takeWhile (!·.opensTune), ts.dropWhile (!·.opensTune) ++ x :: us) := by
  have opens : (beyond || (ts ++ x :: us).any Token.opensTune) = true := by simp [hx]
  rw [splitApart, if_pos opens]
  clear opens
  induction ts with
  | nil => simp [hx]
  | cons t ts ih =>
    obtain ⟨front, back⟩ := Prod.mk.inj ih
    cases ht : t.opensTune with
    | true => simp [ht]
    | false => simp [ht, front, back]

end Tunebook
