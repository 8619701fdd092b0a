import Mathlib.Data.List.Chain
import Tunebook.Proofs.Grammar.Lines
import Tunebook.Proofs.Openings

/-! Where a tune ends, in its tokens alone. The header and the body of a tune, however their lines
are read, own a block of tokens: all up to a key that opens a tune or, where a line starts, up to a
blank line. -/
namespace Tunebook

/-- What stands before the first of two parts. -/
def before (front : List α) (parts : List α × List α) : List α × List α :=
  (front ++ parts.1, parts.2)

@[simp] theorem before_nil (parts : List α × List α) : before [] parts = parts := rfl

@[simp] theorem before_before (first second : List α) (parts : List α × List α) :
    before first (before second parts) = before (first ++ second) parts := by
  rw [before, before, before, List.append_assoc]

namespace Token

/-- Splits off a block. A key that opens a tune ends it, but where it comes first. -/
def splitBlock (isFirst atLineStart : Bool) : List Token → List Token × List Token
  | [] => ([], [])
  | t :: ts =>
    if (t.opensTune && !isFirst) || (atLineStart && startsBlankLine (t :: ts)) then ([], t :: ts)
    else before [t] (splitBlock false (t.kind = .eol) ts)

theorem startsBlankLine_cons (space : t.kind ≠ .whitespace) :
    startsBlankLine (t :: ts) = decide (t.kind = .eol) := by
  simp [startsBlankLine, isSpace, space]

theorem splitBlock_goes (opens : (t.opensTune && !isFirst) = false)
    (visible : (atLineStart && startsBlankLine (t :: ts)) = false) :
    splitBlock isFirst atLineStart (t :: ts) =
      before [t] (splitBlock false (t.kind = .eol) ts) := by
  rw [splitBlock, opens, visible]
  rfl

/-- Within a line nothing but a key ends a block. -/
theorem splitBlock_inside (inside : ∀ t ∈ ts, t.kind ≠ .eol ∧ t.opensTune = false)
    (us : List Token) :
    splitBlock false false (ts ++ us) = before ts (splitBlock false false us) := by
  induction ts with
  | nil => rfl
  | cons t ts ih =>
    obtain ⟨goes, opens⟩ := inside t List.mem_cons_self
    have tail := ih fun u member => inside u (List.mem_cons_of_mem t member)
    rw [List.cons_append, splitBlock_goes (by simp [opens]) rfl, decide_eq_false goes, tail,
      before_before, List.singleton_append]

/-- Where no blank line starts it is of no account whether a line does. -/
theorem splitBlock_visible (next : NextNot (fun k => k = .whitespace || k = .eol) ts)
    (isFirst atLineStart : Bool) :
    splitBlock isFirst atLineStart ts = splitBlock isFirst true ts := by
  cases ts with
  | nil => rfl
  | cons t ts =>
    have fails := nextNot_cons.mp next
    simp only [Bool.or_eq_false_iff, decide_eq_false_iff_not] at fails
    have visible : startsBlankLine (t :: ts) = false := by
      rw [startsBlankLine_cons fails.1, decide_eq_false fails.2]
    simp only [splitBlock, visible, Bool.and_false]

/-- A line as the grammar reads it: its line feed, if it has one, comes last, and no key but its first
token opens a tune. -/
structure IsLine (line : List Token) (eol : Option Token) : Prop where
  inside : ∃ inner, line = inner ++ eol.toList ∧ ∀ t ∈ inner, t.kind ≠ .eol
  ends : ∀ t ∈ eol, t.kind = .eol
  later : ∀ t ∈ line.tail, t.opensTune = false

/-- A line whose first token is taken is taken as a whole. -/
theorem IsLine.splitBlock (line : IsLine own eol) (whole : own ++ rest = t :: ts) (nonempty : own ≠ [])
    (opens : (t.opensTune && !isFirst) = false)
    (visible : (atLineStart && startsBlankLine (t :: ts)) = false) :
    splitBlock isFirst atLineStart (t :: ts) =
      before own (Token.splitBlock false eol.isSome rest) := by
  obtain ⟨first, own, rfl⟩ := List.exists_cons_of_ne_nil nonempty
  rw [List.cons_append, List.cons.injEq] at whole
  obtain ⟨rfl, rfl⟩ := whole
  obtain ⟨⟨inner, whole, inside⟩, ends, later⟩ := line
  rw [splitBlock_goes opens visible]
  cases inner with
  | nil =>
    cases eol with
    | none => cases whole
    | some e =>
      cases whole
      rw [decide_eq_true (ends first rfl)]
      rfl
  | cons u inner =>
    rw [List.cons_append, List.cons.injEq] at whole
    obtain ⟨rfl, rfl⟩ := whole
    have front : ∀ v ∈ inner, v.kind ≠ .eol ∧ v.opensTune = false := fun v member =>
      ⟨inside v (List.mem_cons_of_mem _ member), later v (List.mem_append_left _ member)⟩
    rw [decide_eq_false (inside first List.mem_cons_self), List.append_assoc, splitBlock_inside front]
    cases eol with
    | none => simp
    | some e =>
      have kind := ends e rfl
      have plain : e.opensTune = false := opensTune_eq_false (by simp [kind])
      rw [Option.toList_some, List.singleton_append, splitBlock_goes (by simp [plain]) rfl,
        decide_eq_true kind]
      simp

/-- Where no blank line starts behind it, a line of a header ends like any other. -/
theorem IsLine.splitBlock_header (line : IsLine own eol) (whole : own ++ rest = t :: ts)
    (nonempty : own ≠ []) (opens : (t.opensTune && !isFirst) = false)
    (visible : startsBlankLine (t :: ts) = false)
    (next : eol = none → NextNot (fun k => k = .whitespace || k = .eol) rest) :
    Token.splitBlock isFirst true (t :: ts) = before own (Token.splitBlock false true rest) := by
  rw [line.splitBlock whole nonempty opens (by rw [visible, Bool.and_false])]
  cases eol with
  | some e => rfl
  | none => rw [Option.isSome_none, splitBlock_visible (next rfl)]

/-- No space stands behind a comment on its line. -/
def IsTight (t u : Token) : Prop :=
  t.kind.isComment = true → u.kind ≠ .whitespace

theorem nextNot_accept_comment (tight : ts.IsChain IsTight) (h : NextNot (· = .whitespace) ts) :
    NextNot (· = .whitespace) (accept Kind.isComment ts).2 := by
  cases ts with
  | nil => exact h
  | cons t ts =>
    cases comment : t.kind.isComment with
    | false =>
      simp only [accept, comment, Bool.false_eq_true, if_false]
      exact h
    | true =>
      simp only [accept, comment, if_true]
      intro u next
      exact decide_eq_false ((List.isChain_cons.mp tight).1 u next comment)

/-- Behind a line without a line feed no blank line starts. -/
theorem nextNot_accept_eol (h : NextNot (· = .whitespace) ts)
    (missing : (accept (· = .eol) ts).1 = none) :
    NextNot (fun k => k = .whitespace || k = .eol) (accept (· = .eol) ts).2 := by
  have same := accept_append (· = .eol) ts
  rw [missing, Option.toList_none, List.nil_append] at same
  have feed : NextNot (· = .eol) (accept (· = .eol) ts).2 := nextNot_of_accept (Prod.ext missing rfl)
  intro t next
  rw [Bool.or_eq_false_iff]
  exact ⟨h t (same ▸ next), feed t next⟩

end Token

namespace InfoLine

theorem isLine_read (hk : t.kind = .infoKey) (ts : List Token) :
    Token.IsLine (read t ts).1.tokens (read t ts).1.eol := by
  refine ⟨⟨_, rfl, ?_⟩, ?_, fun u => opensTune_of_mem⟩
  · intro u member eol
    simp only [List.mem_append, List.mem_cons, Option.mem_toList] at member
    rcases member with (rfl | value) | comment
    · simp [hk] at eol
    · have passes := List.all_eq_true.mp List.all_takeWhile u value
      simp [eol, isValue] at passes
    · have passes := Token.kind_of_mem_accept comment
      simp [eol, Kind.isComment] at passes
  · intro u member
    exact of_decide_eq_true (Token.kind_of_mem_accept member)

theorem nextNot_read (tight : (t :: ts).IsChain Token.IsTight)
    (missing : (read t ts).1.eol = none) :
    Token.NextNot (fun k => k = .whitespace || k = .eol) (read t ts).2 := by
  refine Token.nextNot_accept_eol (Token.nextNot_accept_comment ?_ ?_) missing
  · rw [← List.takeWhile_append_dropWhile (p := (isValue ·.kind)) (l := ts)] at tight
    exact (List.isChain_append.mp (List.isChain_cons.mp tight).2).2.1
  · intro u next
    have stops := not_of_mem_head?_dropWhile _ next
    refine decide_eq_false fun space => ?_
    simp [space, isValue] at stops

theorem splitBlock_read (hk : t.kind = .infoKey) (opens : (t.opensTune && !isFirst) = false)
    (tight : (t :: ts).IsChain Token.IsTight) :
    Token.splitBlock isFirst true (t :: ts) =
      before (read t ts).1.tokens (Token.splitBlock false true (read t ts).2) := by
  have visible : Token.startsBlankLine (t :: ts) = false := by
    rw [Token.startsBlankLine_cons (by simp [hk]), hk]
    rfl
  exact (isLine_read hk ts).splitBlock_header (read_append t ts) (List.cons_ne_nil t _) opens visible
    (nextNot_read tight)

end InfoLine

namespace CommentLine

theorem isLine_read (hc : t.kind.isComment = true) (ts : List Token) :
    Token.IsLine (read t ts).1.tokens (read t ts).1.eol := by
  refine ⟨⟨[t], rfl, ?_⟩, ?_, fun u member => opensTune_of_mem hc (List.mem_of_mem_tail member)⟩
  · intro u member eol
    obtain rfl := List.mem_singleton.mp member
    simp [eol, Kind.isComment] at hc
  · intro u member
    exact of_decide_eq_true (Token.kind_of_mem_accept member)

theorem nextNot_read (hc : t.kind.isComment = true) (tight : (t :: ts).IsChain Token.IsTight)
    (missing : (read t ts).1.eol = none) :
    Token.NextNot (fun k => k = .whitespace || k = .eol) (read t ts).2 := by
  refine Token.nextNot_accept_eol ?_ missing
  intro u next
  exact decide_eq_false ((List.isChain_cons.mp tight).1 u next hc)

theorem splitBlock_read (hc : t.kind.isComment = true) (tight : (t :: ts).IsChain Token.IsTight) :
    Token.splitBlock isFirst true (t :: ts) =
      before (read t ts).1.tokens (Token.splitBlock false true (read t ts).2) := by
  have key : t.kind ≠ .infoKey ∧ t.kind ≠ .whitespace ∧ t.kind ≠ .eol := by
    refine ⟨?_, ?_, ?_⟩ <;> intro kind <;> simp [kind, Kind.isComment] at hc
  have opens : t.opensTune = false := Token.opensTune_eq_false key.1
  have visible : Token.startsBlankLine (t :: ts) = false := by
    rw [Token.startsBlankLine_cons key.2.1, decide_eq_false key.2.2]
  exact (isLine_read hc ts).splitBlock_header (read_append t ts) (List.cons_ne_nil t _)
    (by simp [opens]) visible (nextNot_read hc tight)

end CommentLine

theorem MusicLine.isLine_read (ts : List Token) :
    Token.IsLine (read ts).value.tokens (read ts).value.eol := by
  refine ⟨⟨_, rfl, ?_⟩, ?_, fun u member => opensTune_of_mem (List.mem_of_mem_tail member)⟩
  · intro u member eol
    rw [read, Item.tokensOf_readAll] at member
    have passes := List.all_eq_true.mp List.all_takeWhile u member
    simp [eol, isBoundary] at passes
  · intro u member
    exact of_decide_eq_true (Token.kind_of_mem_accept member)

theorem BodyLine.isLine_read (t : Token) (ts : List Token) :
    Token.IsLine (read t ts).value.tokens (read t ts).value.eol := by
  unfold read
  split
  next key => exact InfoLine.isLine_read key ts
  · split
    next comment => exact CommentLine.isLine_read comment ts
    · exact MusicLine.isLine_read (t :: ts)

theorem BodyLine.tokens_ne_nil (t : Token) (ts : List Token) : (read t ts).value.tokens ≠ [] := by
  intro none
  have whole := read_append t ts
  have shorter := length_read_le t ts
  rw [none, List.nil_append] at whole
  rw [whole, List.length_cons] at shorter
  omega

namespace Tune

/-- A body owns a block. -/
theorem readBody_eq_splitBlock (atLineStart : Bool) (ts : List Token) :
    ((readBody atLineStart ts).value.flatMap BodyLine.tokens, (readBody atLineStart ts).rest) =
      Token.splitBlock false atLineStart ts := by
  fun_induction readBody atLineStart ts with
  | case1 => rfl
  | case2 atLineStart t ts stops =>
    rw [Token.splitBlock, if_pos (by simpa using stops)]
    rfl
  | case3 atLineStart t ts goes line tail ih =>
    simp only [Bool.or_eq_true, not_or, Bool.not_eq_true] at goes
    have taken : Token.splitBlock false atLineStart (t :: ts) = _ :=
      (BodyLine.isLine_read t ts).splitBlock (BodyLine.read_append t ts)
        (BodyLine.tokens_ne_nil t ts) (by simpa using goes.1) goes.2
    rw [taken, ← ih]
    rfl

/-- So do a header and the body behind it. -/
theorem splitBlock_readHeader (isFirst : Bool) (ts : List Token)
    (tight : ts.IsChain Token.IsTight) :
    Token.splitBlock isFirst true ts =
      before ((readHeader isFirst ts).1.flatMap HeaderLine.tokens)
        (Token.splitBlock false true (readHeader isFirst ts).2) := by
  fun_induction readHeader isFirst ts with
  | case1 => rfl
  | case2 isFirst t ts hk hx =>
    rw [Bool.and_eq_true] at hx
    simp [Token.splitBlock, hx.1, hx.2]
  | case3 isFirst t ts hk hx line hc =>
    rw [InfoLine.splitBlock_read hk (Bool.not_eq_true _ ▸ hx) tight]
    simp [HeaderLine.tokens, line]
  | case4 isFirst t ts hk hx line hc tail ih =>
    have rest : line.2.IsChain Token.IsTight := by
      have whole := InfoLine.read_append t ts
      exact (List.isChain_append.mp (whole ▸ tight)).2.1
    rw [InfoLine.splitBlock_read hk (Bool.not_eq_true _ ▸ hx) tight, ih rest, before_before,
      List.flatMap_cons]
    rfl
  | case5 isFirst t ts hk hc line tail ih =>
    have rest : line.2.IsChain Token.IsTight := by
      have whole := CommentLine.read_append t ts
      exact (List.isChain_append.mp (whole ▸ tight)).2.1
    rw [CommentLine.splitBlock_read hc tight, ih rest, before_before, List.flatMap_cons]
    rfl
  | case6 isFirst t ts hk hc =>
    have opens : t.opensTune = false := Token.opensTune_eq_false hk
    simp [Token.splitBlock, opens]

/-- The header and the body of a tune together own a block, which its first token does not end. -/
theorem read_eq_splitBlock (beyond : Bool) (tight : ts.IsChain Token.IsTight) :
    (read beyond ts).value.headerTokens ++ (read beyond ts).value.bodyTokens =
        (Token.splitBlock true true ts).1 ∧
      ((read beyond ts).value.trailing, (read beyond ts).rest) =
        splitApart beyond (Token.splitBlock true true ts).2 := by
  rw [splitBlock_readHeader true ts tight, ← readBody_eq_splitBlock]
  exact ⟨rfl, rfl⟩

end Tune
end Tunebook
