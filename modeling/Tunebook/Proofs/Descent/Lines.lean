import Tunebook.Proofs.Descent.Items
import Tunebook.Proofs.Grammar.Blocks

/-! The descent through the lines of a tune: blank lines, the lines of its header and those of its
body. -/
namespace Tunebook

/-- Whether a line has a line feed is seen from its last token. -/
theorem Token.IsLine.kind_getLast? (h : IsLine own eol) :
    decide (own.getLast?.map Token.kind = some .eol) = eol.isSome := by
  obtain ⟨⟨inner, rfl, inside⟩, ends, -⟩ := h
  cases eol with
  | some e => simp [ends e rfl]
  | none =>
    rw [Option.toList_none, List.append_nil, Option.isSome_none, decide_eq_false_iff_not]
    intro kind
    obtain ⟨t, last, eol⟩ := Option.map_eq_some_iff.mp kind
    exact inside t (List.mem_of_getLast? last) eol

namespace Descent

variable {tokens : List Token} {depth : Nat}

namespace Reads

theorem atEnd : nextKind [] ∈ [Kind.eof] :=
  List.mem_cons_self

theorem acceptTop {p : Kind → Bool} (fails : p .eof = false) :
    Reads tokens depth (Descent.accept p) ts (Token.accept p ts).1 (Token.accept p ts).2 [] := by
  have top : Reads tokens depth (Descent.accept p) (ts ++ []) _ _ _ :=
    accept ts atEnd (by simp [fails])
  simpa using top

theorem acceptAllTop {p : Kind → Bool} (fails : p .eof = false) :
    Reads tokens depth (Descent.acceptAll l p) ts (ts.takeWhile (p ·.kind))
      (ts.dropWhile (p ·.kind)) [] := by
  have top : Reads tokens depth (Descent.acceptAll l p) (ts ++ []) _ _ _ :=
    acceptAll ts atEnd (by simp [fails])
  simpa using top

theorem infoLine (t : Token) (ts : List Token) :
    Reads tokens depth infoLine (t :: ts) (InfoLine.read t ts).1 (InfoLine.read t ts).2 [] := by
  refine step advance ?_
  refine step (acceptAllTop rfl) ?_
  refine step (acceptTop rfl) ?_
  exact step (acceptTop rfl) (pure _)

theorem commentLine (t : Token) (ts : List Token) :
    Reads tokens depth commentLine (t :: ts) (CommentLine.read t ts).1 (CommentLine.read t ts).2
      [] := by
  refine step advance ?_
  exact step (acceptTop rfl) (pure _)

theorem bodyLine (t : Token) (ts : List Token) :
    Reads tokens 0 bodyLine (t :: ts) (BodyLine.read t ts).value (BodyLine.read t ts).rest
      (BodyLine.read t ts).problems := by
  refine step peek ?_
  rw [nextKind_cons]
  unfold BodyLine.read
  split
  · exact step (infoLine t ts) (pure _)
  · split
    · exact step (commentLine t ts) (pure _)
    · exact last (musicLine (t :: ts)) (pure _)

/-- The token behind the cursor is the last that was taken. -/
theorem previous? (sees : Sees tokens i (own ++ ts)) (nonempty : own ≠ []) :
    Reads tokens depth previous? ts (own.getLast?.map Token.kind) ts [] := by
  obtain ⟨front, t, rfl⟩ := (List.eq_nil_or_concat own).resolve_left nonempty
  rw [List.concat_eq_append, List.append_assoc, List.singleton_append] at sees
  have taken : tokens[i + front.length]? = some t := sees.drop.getElem?
  intro limit j qs events _ sees'
  obtain rfl : j = i + front.length + 1 := by
    have total := sees.drop.add_length
    have total' := sees'.add_length
    rw [List.length_cons] at total
    omega
  exact ⟨_, [], by simp [Descent.previous?, taken], sees', by simp⟩

theorem endsBody (atLineStart : Bool) (t : Token) (ts : List Token) :
    Reads tokens depth (endsBody atLineStart) (t :: ts)
      (t.opensTune || (atLineStart && Token.startsBlankLine (t :: ts))) (t :: ts) [] := by
  refine of_sees fun i sees => step peek ?_
  rw [nextKind_cons, if_neg (sees.ne_eof List.mem_cons_self)]
  refine step atTune ?_
  rw [List.head?_cons, Option.any_some]
  cases t.opensTune with
  | true => exact pure true
  | false =>
    cases atLineStart with
    | true => exact atBlankLine
    | false => exact pure false

theorem endsBody_nil (atLineStart : Bool) :
    Reads tokens depth (Descent.endsBody atLineStart) [] true [] [] := by
  exact step peek (pure true)

theorem bodyUpTo (enough : ts.length ≤ n) :
    Reads tokens 0 (bodyUpTo (n + 1) atLineStart) ts (Tune.readBody atLineStart ts).value
      (Tune.readBody atLineStart ts).rest (Tune.readBody atLineStart ts).problems := by
  revert n
  fun_induction Tune.readBody atLineStart ts
  case case1 => exact fun _ => step (endsBody_nil _) (pure [])
  case case2 atLineStart t ts stops =>
    intro n _
    refine step (endsBody atLineStart t ts) ?_
    rw [if_pos stops]
    exact pure []
  case case3 atLineStart t ts goes line tail ih =>
    intro n enough
    have shorter := BodyLine.length_read_le t ts
    cases n with
    | zero => cases enough
    | succ n =>
      refine of_sees fun i sees => step (endsBody atLineStart t ts) ?_
      rw [if_neg goes]
      refine bind ((bodyLine t ts).turn (Nat.lt_succ_of_le shorter)) ?_
      rw [← BodyLine.read_append t ts] at sees
      refine step (previous? sees (BodyLine.tokens_ne_nil t ts)) ?_
      rw [(BodyLine.isLine_read t ts).kind_getLast?]
      exact last (ih (Nat.le_trans shorter (Nat.le_of_succ_le_succ enough))) (pure _)

theorem body (ts : List Token) :
    Reads tokens 0 body ts (Tune.readBody true ts).value (Tune.readBody true ts).rest
      (Tune.readBody true ts).problems := by
  have whole : Reads tokens 0 (do Descent.bodyUpTo (← get).limit true) ts
      (Tune.readBody true ts).value (Tune.readBody true ts).rest
      (Tune.readBody true ts).problems := by
    refine of_limit (m := fun n => Descent.bodyUpTo n true) fun n enough => ?_
    obtain ⟨n, rfl⟩ := Nat.exists_eq_add_of_lt enough
    exact bodyUpTo (Nat.le_add_right _ _)
  cases ts with
  | nil =>
    rw [Tune.readBody]
    exact step (endsBody_nil true) (pure [])
  | cons t ts =>
    refine step (endsBody true t ts) ?_
    split
    next ends =>
      rw [Tune.readBody, if_pos ends]
      exact pure []
    next => exact whole

/-- What a header does once it has read a field. -/
theorem headerUpTo_info (key : t.kind = .infoKey) (stays : ¬(t.opensTune && !isFirst) = true)
    (after : Reads tokens depth
      (if (InfoLine.read t ts).1.code = 'K' then Pure.pure [HeaderLine.info (InfoLine.read t ts).1]
        else do return .info (InfoLine.read t ts).1 :: (← Descent.headerUpTo n false))
      (InfoLine.read t ts).2 lines us []) :
    Reads tokens depth (Descent.headerUpTo (n + 1) isFirst) (t :: ts) lines us [] := by
  refine step peek ?_
  rw [nextKind_cons, if_pos key]
  refine step atTune ?_
  rw [List.head?_cons, Option.any_some, Bool.and_comm, if_neg stays]
  exact step ((infoLine t ts).turn (Nat.lt_succ_of_le (InfoLine.length_read_le t ts))) after

theorem headerUpTo (enough : ts.length ≤ n) :
    Reads tokens depth (headerUpTo (n + 1) isFirst) ts (Tune.readHeader isFirst ts).1
      (Tune.readHeader isFirst ts).2 [] := by
  revert n
  fun_induction Tune.readHeader isFirst ts
  case case1 => exact fun _ => step peek (pure [])
  case case2 isFirst t ts key opens =>
    intro n _
    refine step peek ?_
    rw [nextKind_cons, if_pos key]
    refine step atTune ?_
    rw [List.head?_cons, Option.any_some, Bool.and_comm, if_pos opens]
    exact pure []
  case case3 isFirst t ts key stays line code =>
    intro n _
    apply headerUpTo_info key stays
    rw [if_pos code]
    exact pure _
  case case4 isFirst t ts key stays line code tail ih =>
    intro n enough
    have shorter := InfoLine.length_read_le t ts
    apply headerUpTo_info key stays
    rw [if_neg code]
    cases n with
    | zero => cases enough
    | succ n => exact step (ih (Nat.le_trans shorter (Nat.le_of_succ_le_succ enough))) (pure _)
  case case5 isFirst t ts key comment line tail ih =>
    intro n enough
    have shorter := CommentLine.length_read_le t ts
    refine step peek ?_
    rw [nextKind_cons, if_neg key, if_pos comment]
    refine step ((commentLine t ts).turn (Nat.lt_succ_of_le shorter)) ?_
    cases n with
    | zero => cases enough
    | succ n => exact step (ih (Nat.le_trans shorter (Nat.le_of_succ_le_succ enough))) (pure _)
  case case6 isFirst t ts key comment =>
    intro n _
    refine step peek ?_
    rw [nextKind_cons, if_neg key, if_neg comment]
    exact pure []

theorem header (ts : List Token) :
    Reads tokens depth header ts (Tune.readHeader true ts).1 (Tune.readHeader true ts).2 [] := by
  refine of_limit (m := fun n => Descent.headerUpTo n true) fun n enough => ?_
  obtain ⟨n, rfl⟩ := Nat.exists_eq_add_of_lt enough
  exact headerUpTo (Nat.le_add_right _ _)

end Reads
end Descent
end Tunebook
