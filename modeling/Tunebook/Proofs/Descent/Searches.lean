import Tunebook.Proofs.Descent.Reads

/-! The searches ahead. Each looks at the tokens up to the first that stops it. The first end mark
stops every search but the one for a tune, which only the end of the list stops. -/
namespace Tunebook.Descent

variable {tokens : List Token} {depth : Nat}

/-- The kinds before which music ends. -/
def musicEnds : List Kind :=
  [.eof, .eol, .infoKey, .comment, .stylesheetDirective]

/-- The kinds before which a note ends, wherever it stands. -/
def noteEnds : List Kind :=
  .rightBracket :: .rightBrace :: musicEnds

theorem endsMusic_iff : endsMusic k = true ↔ k ∈ musicEnds := by
  cases k <;> simp [endsMusic, musicEnds, MusicLine.isBoundary, Kind.isComment]

theorem mem_noteEnds (h : k ∈ musicEnds) : k ∈ noteEnds :=
  List.mem_cons_of_mem _ (List.mem_cons_of_mem _ h)

theorem Sees.length_lt (h : Sees tokens i ts) (enough : tokens.length < n) : ts.length < n := by
  have total := h.add_length
  have inside : endMark tokens ≤ tokens.length := List.findIdx_le_length
  omega

theorem skipSpaces_eq (sees : Sees tokens i (ts ++ us)) (enough : ts.length < n)
    (stop : nextKind us ≠ .whitespace) :
    ∃ j, skipSpaces tokens n i = some j ∧ Sees tokens j (ts.dropWhile Token.isSpace ++ us) := by
  induction ts generalizing n i with
  | nil =>
    cases n with
    | zero => cases enough
    | succ n => exact ⟨i, by simp [skipSpaces, Sees.kindAt sees, stop], sees⟩
  | cons t ts ih =>
    cases n with
    | zero => cases enough
    | succ n =>
      rw [skipSpaces, sees.kindAt, List.cons_append, nextKind_cons, List.dropWhile_cons]
      by_cases space : t.kind = .whitespace
      · rw [if_pos space, if_pos (by simp [Token.isSpace, space])]
        exact ih sees.tail (Nat.lt_of_succ_lt_succ enough)
      · rw [if_neg space, if_neg (by simp [Token.isSpace, space])]
        exact ⟨i, rfl, sees⟩

theorem findClose_eq (sees : Sees tokens i (ts ++ us)) (enough : ts.length < n)
    (stop : nextKind us ≠ close ∧ admits (nextKind us) = false) :
    ∃ j, findClose close admits tokens n i = some ((Token.splitClose close admits ts).isSome, j) ∧
      j ≤ tokens.length := by
  induction ts generalizing n i with
  | nil =>
    cases n with
    | zero => cases enough
    | succ n =>
      exact ⟨i, by simp [findClose, Sees.kindAt sees, stop, Token.splitClose], sees.le_length⟩
  | cons t ts ih =>
    cases n with
    | zero => cases enough
    | succ n =>
      rw [findClose, sees.kindAt, List.cons_append, nextKind_cons, Token.splitClose]
      by_cases closes : t.kind = close
      · exact ⟨i, by simp [closes], sees.le_length⟩
      · cases admitted : admits t.kind with
        | false => exact ⟨i, by simp [closes], sees.le_length⟩
        | true =>
          obtain ⟨j, found, bound⟩ := ih sees.tail (Nat.lt_of_succ_lt_succ enough)
          exact ⟨j, by simp [closes, found], bound⟩

/-- Of the parentheses that are open the program counts one more than the grammar. -/
theorem findParenthesis_eq (sees : Sees tokens i (ts ++ us)) (enough : ts.length < n)
    (inner : ∀ t ∈ ts, endsMusic t.kind = false) (stop : nextKind us ∈ musicEnds) :
    ∃ j, findParenthesis tokens n (count + 1) i = some (Item.isClosed count ts, j) ∧
      j ≤ tokens.length := by
  -- the search counts the parenthesis it started at, hence one more than are open here
  induction ts generalizing n i count with
  | nil =>
    have ends : endsMusic (nextKind us) = true := endsMusic_iff.mpr stop
    have left : nextKind us ≠ .leftParen := by
      intro kind
      simp [kind, musicEnds] at stop
    have right : nextKind us ≠ .rightParen := by
      intro kind
      simp [kind, musicEnds] at stop
    cases n with
    | zero => cases enough
    | succ n =>
      refine ⟨i, ?_, sees.le_length⟩
      simp [findParenthesis, Sees.kindAt sees, left, right, ends, Item.isClosed]
  | cons t ts ih =>
    have goes : endsMusic t.kind = false := inner t List.mem_cons_self
    cases n with
    | zero => cases enough
    | succ n =>
      have tail (count : Nat) : ∃ j, findParenthesis tokens n (count + 1) (i + 1) =
          some (Item.isClosed count ts, j) ∧ j ≤ tokens.length :=
        ih sees.tail (Nat.lt_of_succ_lt_succ enough)
          fun u member => inner u (List.mem_cons_of_mem t member)
      rw [findParenthesis.eq_def, Item.isClosed.eq_def]
      dsimp only
      rw [sees.kindAt, List.cons_append, nextKind_cons]
      by_cases left : t.kind = .leftParen
      · simpa only [if_pos left] using tail (count + 1)
      · by_cases right : t.kind = .rightParen
        · simp only [if_neg left, if_pos right]
          cases count with
          | zero => exact ⟨i, rfl, sees.le_length⟩
          | succ count => exact tail count
        · simpa only [if_neg left, if_neg right, goes, Bool.false_eq_true, if_false] using tail count

namespace Reads

theorem atBlankLine : Reads tokens depth atBlankLine ts (Token.startsBlankLine ts) ts [] := by
  refine look fun n i enough sees => ?_
  have whole : Sees tokens i (ts ++ []) := by simpa using sees
  obtain ⟨j, found, sees'⟩ := skipSpaces_eq whole (sees.length_lt enough) (by simp)
  rw [List.append_nil] at sees'
  refine ⟨j, ?_, sees'.le_length⟩
  have same : (kindAt tokens j).isLineEnd = Token.startsBlankLine ts := by
    rw [sees'.kindAt, Token.startsBlankLine]
    cases behind : ts.dropWhile Token.isSpace with
    | nil => rfl
    | cons t us =>
      rw [behind] at sees'
      have text := sees'.ne_eof List.mem_cons_self
      cases hk : t.kind <;> simp_all [Kind.isLineEnd]
  simp [found, same]

theorem atInlineField (slurred : Bool) (stop : nextKind us ∈ musicEnds) :
    Reads tokens depth atInlineField (t :: (ts ++ us)) (InlineField.read? slurred t ts).isSome
      (t :: (ts ++ us)) [] := by
  refine look fun n i enough sees => ?_
  have room := sees.length_lt enough
  simp only [List.length_cons, List.length_append] at room
  have space : nextKind us ≠ .whitespace :=
    of_decide_eq_false (fails_of_mem (p := (· = .whitespace)) stop rfl)
  obtain ⟨j, found, sees'⟩ := skipSpaces_eq (n := n) sees.tail (by omega) space
  refine ⟨j, ?_, sees'.le_length⟩
  have same : (InlineField.isLetter (kindAt tokens j) && kindAt tokens (j + 1) = .colon) =
      (InlineField.read? slurred t ts).isSome := by
    rw [sees'.kindAt, InlineField.read?]
    cases behind : ts.dropWhile (·.kind = .whitespace) with
    | nil =>
      have cut : ts.dropWhile Token.isSpace = [] := behind
      have letter : InlineField.isLetter (nextKind us) = false := fails_of_mem stop rfl
      simp [cut, letter]
    | cons field rest =>
      have cut : ts.dropWhile Token.isSpace = field :: rest := behind
      rw [cut, List.cons_append] at sees'
      rw [cut, List.cons_append, nextKind_cons, sees'.tail.kindAt]
      cases rest with
      | nil =>
        have colon : nextKind us ≠ .colon :=
          of_decide_eq_false (fails_of_mem (p := (· = .colon)) stop rfl)
        simp [colon]
      | cons colon rest =>
        rw [List.cons_append, nextKind_cons]
        dsimp only
        split <;> simp_all
  simp [found, same]

theorem isClosed (stop : nextKind us ≠ close ∧ admits (nextKind us) = false) :
    Reads tokens depth (isClosed close admits) (t :: (ts ++ us))
      (Token.splitClose close admits ts).isSome (t :: (ts ++ us)) [] := by
  refine look fun n i enough sees => ?_
  have room := sees.length_lt enough
  simp only [List.length_cons, List.length_append] at room
  exact findClose_eq sees.tail (by omega) stop

theorem closesSlur (left : t.kind = .leftParen) (inner : ∀ t ∈ ts, endsMusic t.kind = false)
    (stop : nextKind us ∈ musicEnds) :
    Reads tokens depth closesSlur (t :: (ts ++ us)) (Item.isClosed 0 ts) (t :: (ts ++ us)) [] := by
  refine look fun n i enough sees => ?_
  cases n with
  | zero => cases enough
  | succ n =>
    have room := sees.length_lt enough
    simp only [List.length_cons, List.length_append] at room
    rw [findParenthesis, sees.kindAt, nextKind_cons]
    simp only [if_pos left]
    exact findParenthesis_eq sees.tail (by omega) inner stop

end Reads
end Tunebook.Descent
