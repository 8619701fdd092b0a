import Tunebook.Document.Completion
import Tunebook.Proofs.Ranges
import Tunebook.Proofs.Text.Returning

/-! Where decorations are completed. The mark is looked for in the text up to the offset that the
position leads back to, and the body of a tune by the positions of its edges. Positions are in the
order of their offsets, so both tests look at the same place. But a body takes in the position before
its first character and not the one behind its last, while a mark stands before the position at which
it is completed: at the edges of a body the two disagree. -/
namespace Tunebook

/-- The character that ends at the offset stands in the body of the tune. -/
def Tune.BodyHolds (t : Tune) (offset : Nat) : Prop :=
  ∃ u ∈ t.bodyTokens, u.span.start < offset ∧ offset ≤ u.span.stop

instance (t : Tune) (offset : Nat) : Decidable (t.BodyHolds offset) :=
  inferInstanceAs (Decidable (∃ u ∈ t.bodyTokens, _))

/-- A body of the tree starts or stops at the offset. -/
def Tree.HasEdge (t : Tree) (offset : Nat) : Prop :=
  ∃ tune ∈ t.tunes, ∃ r ∈ tune.bodyRange, offset = r.span.start ∨ offset = r.span.stop

section

variable {text : Text} {tune : Tune}

theorem Tree.bodyTokens_isInfix (listed : tune ∈ (ofTokens (scan text)).1.tunes) :
    tune.bodyTokens <:+: textTokens text := by
  rw [← tokens_ofTokens_scan]
  exact infix_of_mem_tunes listed ⟨tune.headerTokens, tune.trailing, rfl⟩

theorem Tree.rangeOfSpan_bodyRange (listed : tune ∈ (ofTokens (scan text)).1.tunes)
    (h : tune.bodyRange = some r) :
    text.IsBoundary r.span.start ∧ text.IsBoundary r.span.stop ∧ r = text.rangeOfSpan r.span := by
  rw [tune.bodyRange_eq_cover] at h
  have nonempty : tune.bodyTokens ≠ [] := by
    intro none
    rw [none] at h
    cases h
  obtain ⟨own, cover, slice, place⟩ := Token.cover_infix (bodyTokens_isInfix listed) nonempty
  cases cover.symm.trans h
  obtain ⟨first, last⟩ := Text.isBoundary_of_slice? slice
  exact ⟨first, last, place⟩

theorem Tree.bodyHolds_iff (listed : tune ∈ (ofTokens (scan text)).1.tunes) (offset : Nat) :
    tune.BodyHolds offset ↔
      ∃ r ∈ tune.bodyRange, r.span.start < offset ∧ offset ≤ r.span.stop := by
  obtain ⟨front, back, whole⟩ := bodyTokens_isInfix listed
  rw [tune.bodyRange_eq_cover]
  constructor
  · rintro ⟨u, member, behind, within⟩
    obtain ⟨_, _, _, _, found⟩ := Token.exists_cover (List.ne_nil_of_mem member)
    obtain ⟨tiles, span⟩ := Token.tiles_of_cover whole found
    obtain ⟨above, _, below⟩ := tiles.span_of_mem member
    refine ⟨_, found, ?_⟩
    rw [span]
    exact ⟨Nat.lt_of_le_of_lt above behind, Nat.le_trans within below⟩
  · rintro ⟨r, found, behind, within⟩
    obtain ⟨tiles, span⟩ := Token.tiles_of_cover whole found
    rw [span] at behind within
    exact tiles.exists_mem behind within

end

namespace Document

theorem isInBody_positionAt (source : String) {text : Text} (cut : text.IsBoundary offset) :
    (analyze source text).isInBody (text.positionAt offset) = true ↔
      ∃ tune ∈ (analyze source text).tree.tunes, ∃ r ∈ tune.bodyRange,
        r.span.start ≤ offset ∧ offset < r.span.stop := by
  have edges {tune r} (listed : tune ∈ (analyze source text).tree.tunes)
      (h : tune.bodyRange = some r) :
      r.start ≤ text.positionAt offset ∧ text.positionAt offset < r.stop ↔
        r.span.start ≤ offset ∧ offset < r.span.stop := by
    obtain ⟨first, last, place⟩ := Tree.rangeOfSpan_bodyRange listed h
    have start : r.start = text.positionAt r.span.start := congrArg Range.start place
    have stop : r.stop = text.positionAt r.span.stop := congrArg Range.stop place
    rw [start, stop, Text.positionAt_le_iff first cut, Text.positionAt_lt_iff cut last]
  simp only [isInBody, List.any_eq_true, List.mem_filterMap, decide_eq_true_eq]
  constructor
  · rintro ⟨r, ⟨tune, listed, own⟩, inside⟩
    exact ⟨tune, listed, r, own, (edges listed own).mp inside⟩
  · rintro ⟨tune, listed, r, own, inside⟩
    exact ⟨r, ⟨tune, listed, own⟩, (edges listed own).mpr inside⟩

theorem completions_of_returns (source : String) {front rest : Text}
    (returns : (front ++ rest).Returns front.bytes) :
    (analyze source (front ++ rest)).completions ((front ++ rest).positionAt front.bytes) =
      if front.getLast? = some '!' && (analyze source (front ++ rest)).isInBody
        ((front ++ rest).positionAt front.bytes) then Decoration.all else [] := by
  have before : (front ++ rest).slice ⟨0, front.bytes⟩ = front := by
    simpa using Text.slice_middle [] front rest
  have own : (analyze source (front ++ rest)).text = front ++ rest := rfl
  have back : (front ++ rest).byteAt ((front ++ rest).positionAt front.bytes) = front.bytes := returns
  simp only [completions, own, back, before]

theorem isInBody_end (source : String) (text : Text) :
    (analyze source text).isInBody (text.positionAt text.bytes) = false := by
  have cut : text.IsBoundary text.bytes := ⟨text, [], (List.append_nil text).symm, rfl⟩
  rw [← Bool.not_eq_true, isInBody_positionAt source cut]
  rintro ⟨tune, listed, r, own, _, before⟩
  exact Nat.not_le_of_lt before (Tree.rangeOfSpan_bodyRange listed own).2.1.le

theorem isInBody_of_not_hasEdge (source : String) {text : Text} (cut : text.IsBoundary offset)
    (apart : ¬(analyze source text).tree.HasEdge offset) :
    (analyze source text).isInBody (text.positionAt offset) = true ↔
      ∃ tune ∈ (analyze source text).tree.tunes, tune.BodyHolds offset := by
  rw [isInBody_positionAt source cut]
  refine exists_congr fun tune => and_congr_right fun listed => ?_
  rw [Tree.bodyHolds_iff listed]
  refine exists_congr fun r => and_congr_right fun own => ?_
  have first : offset ≠ r.span.start := fun same => apart ⟨tune, listed, r, own, .inl same⟩
  have last : offset ≠ r.span.stop := fun same => apart ⟨tune, listed, r, own, .inr same⟩
  omega

/-- Between any two characters of a text that are not those of a line break, every decoration is
offered if the one before is an exclamation mark in the body of a tune, and none if it is not; unless
a body starts or stops there right behind the mark. -/
theorem completions_positionAt (source : String) (front rest : Text)
    (free : ¬Text.InBreak front rest)
    (apart : front.getLast? = some '!' →
      ¬(analyze source (front ++ rest)).tree.HasEdge front.bytes) :
    (analyze source (front ++ rest)).completions ((front ++ rest).positionAt front.bytes) =
      if front.getLast? = some '!' ∧
        ∃ tune ∈ (analyze source (front ++ rest)).tree.tunes, tune.BodyHolds front.bytes
      then Decoration.all else [] := by
  by_cases atEnd : front.getLast? = some '\r' ∧ rest = []
  · -- The way back ends before the carriage return, but no body goes on behind the text.
    obtain ⟨ret, rfl⟩ := atEnd
    have outside := isInBody_end source (front ++ [])
    rw [Text.bytes_append, Text.bytes_nil, Nat.add_zero] at outside
    rw [completions, outside, Bool.and_false]
    simp [ret]
  · have returns := Text.returns_of_not_inBreak free fun ret none => atEnd ⟨ret, none⟩
    have cut : (front ++ rest).IsBoundary front.bytes := ⟨front, rest, rfl, rfl⟩
    rw [completions_of_returns source returns]
    by_cases mark : front.getLast? = some '!'
    · simp [mark, isInBody_of_not_hasEdge source cut (apart mark)]
    · simp [mark]

/-- Behind a wide character, at the end of a line with a carriage return. -/
theorem completions_positionAt_wide :
    ¬Text.InBreak "X:1\nK:C\n\"𝄞\"A!".toList "\r\nB\n".toList ∧
      ¬(analyze "abc" "X:1\nK:C\n\"𝄞\"A!\r\nB\n".toList).tree.HasEdge 16 ∧
      (analyze "abc" "X:1\nK:C\n\"𝄞\"A!\r\nB\n".toList).completions ⟨2, 6⟩ = Decoration.all := by
  have free : ¬Text.InBreak "X:1\nK:C\n\"𝄞\"A!".toList "\r\nB\n".toList := by
    rintro ⟨ret, _⟩
    revert ret
    decide
  have apart : ¬(analyze "abc" "X:1\nK:C\n\"𝄞\"A!\r\nB\n".toList).tree.HasEdge 16 := by
    unfold Tree.HasEdge
    decide +kernel
  refine ⟨free, apart, ?_⟩
  have offered := completions_positionAt "abc" _ _ free fun _ => apart
  have held : "X:1\nK:C\n\"𝄞\"A!".toList.getLast? = some '!' ∧
      ∃ tune ∈ (analyze "abc" "X:1\nK:C\n\"𝄞\"A!\r\nB\n".toList).tree.tunes, tune.BodyHolds 16 := by
    decide +kernel
  exact offered.trans (if_pos held)

/-- At the end of a text a mark in a body has nothing behind it that the body could go on with. -/
theorem not_completions_positionAt :
    ¬∀ source front rest, ¬Text.InBreak front rest →
      (analyze source (front ++ rest)).completions ((front ++ rest).positionAt front.bytes) =
        if front.getLast? = some '!' ∧
          ∃ tune ∈ (analyze source (front ++ rest)).tree.tunes, tune.BodyHolds front.bytes
        then Decoration.all else [] := by
  intro every
  have offered := every "abc" "X:1\nK:C\nAB !".toList [] fun inside => inside.2.1 rfl
  revert offered
  decide +kernel

end Document
end Tunebook
