import Tunebook.Proofs.WellFormed
import Tunebook.Scan

/-! Slurs are the parentheses of a line that match. Matching takes a stack: what opens is put on it and
what closes takes off the last. The grammar has no stack. It looks ahead from each parenthesis that
opens and reads up to the first that closes, which comes to the same as long as no field takes
parentheses as text. -/
namespace Tunebook

/-- Tokens, some of them in pairs around others. -/
inductive Nest where
  | token (t : Token)
  | pair (left : Token) (inside : List Nest) (right : Option Token)

namespace Nest

/-- Opening parentheses that are left on the stack, in the order in which they came. With each stands
what came before it and after the one around it. -/
def unwind : List (List Nest × Token) → List Nest → List Nest
  | [], inside => inside
  | (front, left) :: stack, inside => unwind stack (front ++ token left :: inside)

/-- Matching with a stack. `inside` is what came since the last parenthesis on it. -/
def run (stack : List (List Nest × Token)) (inside : List Nest) : List Token → List Nest
  | [] => unwind stack inside
  | t :: ts =>
    if t.kind = .leftParen then run ((inside, t) :: stack) [] ts
    else if t.kind = .rightParen then
      match stack with
      | [] => run [] (inside ++ [token t]) ts
      | (front, left) :: stack => run stack (front ++ [pair left inside (some t)]) ts
    else run stack (inside ++ [token t]) ts

def ofTokens (ts : List Token) : List Nest :=
  run [] [] ts

end Nest

namespace Item

mutual

/-- The tokens of an item, with those of a slur in a pair. -/
def nests : Item → List Nest
  | .slur left contents right => [.pair left (nestsOf contents) right]
  | item => item.tokens.map Nest.token

def nestsOf : List Item → List Nest
  | [] => []
  | item :: items => item.nests ++ nestsOf items

end

mutual

/-- The item and, in a slur, all that is in it. -/
def deep : Item → List Item
  | .slur left contents right => .slur left contents right :: deepOf contents
  | item => [item]

def deepOf : List Item → List Item
  | [] => []
  | item :: items => item.deep ++ deepOf items

end

end Item

namespace Nest

theorem run_left (h : t.kind = .leftParen) :
    run stack inside (t :: ts) = run ((inside, t) :: stack) [] ts := by
  simp [run, h]

theorem run_right (h : t.kind = .rightParen) :
    run ((front, left) :: stack) inside (t :: ts) =
      run stack (front ++ [pair left inside (some t)]) ts := by
  simp [run, h]

theorem run_unmatched (h : t.kind = .rightParen) :
    run [] inside (t :: ts) = run [] (inside ++ [token t]) ts := by
  simp [run, h]

theorem run_plain (h : t.kind.isParen = false) :
    run stack inside (t :: ts) = run stack (inside ++ [token t]) ts := by
  obtain ⟨left, right⟩ := Kind.isParen_eq_false.mp h
  simp [run, left, right]

theorem run_append (h : ∀ t ∈ ts, t.kind.isParen = false) :
    run stack inside (ts ++ us) = run stack (inside ++ ts.map token) us := by
  induction ts generalizing inside with
  | nil => simp
  | cons t ts ih =>
    obtain ⟨own, others⟩ := List.forall_mem_cons.mp h
    rw [List.cons_append, run_plain own, ih others, List.append_assoc]
    rfl

/-- A stack and what came since, with `front` put ahead of it all. -/
def bury (front : List Nest) :
    List (List Nest × Token) → List Nest → List (List Nest × Token) × List Nest
  | [], inside => ([], front ++ inside)
  | (own, left) :: stack, inside =>
    (((bury front stack own).2, left) :: (bury front stack own).1, inside)

theorem bury_append (front : List Nest) (stack : List (List Nest × Token)) (a b : List Nest) :
    bury front stack (a ++ b) = ((bury front stack a).1, (bury front stack a).2 ++ b) := by
  cases stack <;> simp [bury]

theorem unwind_bury (above : List (List Nest × Token)) (inside : List Nest) :
    unwind (above ++ (front, left) :: stack) inside =
      unwind ((bury (front ++ [token left]) above inside).1 ++ stack)
        (bury (front ++ [token left]) above inside).2 := by
  induction above generalizing inside with
  | nil => simp [unwind, bury]
  | cons entry above ih =>
    obtain ⟨own, other⟩ := entry
    simp only [List.cons_append, unwind, ih, bury, bury_append]

/-- A parenthesis that is never closed might as well have been any token. -/
theorem run_bury (above : List (List Nest × Token)) (inside : List Nest)
    (unclosed : Item.isClosed above.length ts = false) :
    run (above ++ (front, left) :: stack) inside ts =
      run ((bury (front ++ [token left]) above inside).1 ++ stack)
        (bury (front ++ [token left]) above inside).2 ts := by
  induction ts generalizing above inside with
  | nil => exact unwind_bury above inside
  | cons t ts ih =>
    by_cases opens : t.kind = .leftParen
    · rw [Item.isClosed_left opens] at unclosed
      rw [run_left opens, run_left opens]
      exact ih ((inside, t) :: above) [] unclosed
    · by_cases closes : t.kind = .rightParen
      · cases above with
        | nil => simp [Item.isClosed, closes] at unclosed
        | cons entry above =>
          obtain ⟨own, other⟩ := entry
          have later : Item.isClosed above.length ts = false := by
            simpa [Item.isClosed, closes] using unclosed
          simp only [List.cons_append, bury, run_right closes]
          rw [ih above _ later, bury_append]
      · rw [Item.isClosed_other opens closes] at unclosed
        have plain := Kind.isParen_eq_false.mpr ⟨opens, closes⟩
        rw [run_plain plain, run_plain plain, ih above _ unclosed, bury_append]

end Nest

namespace Item

/-- No item that the grammar reads as one is a slur. -/
theorem read_ne_slur (inSlur : Bool) (t : Token) (ts : List Token) (left : Token)
    (contents : List Item) (right : Option Token) :
    (read inSlur t ts).value ≠ .slur left contents right := by
  unfold read readBracket readBrace readNote
  repeat' split
  all_goals simp [plain, bare]

theorem nests_read (inSlur : Bool) (t : Token) (ts : List Token) :
    (read inSlur t ts).value.nests = (read inSlur t ts).value.tokens.map Nest.token := by
  cases value : (read inSlur t ts).value with
  | slur left contents right => exact absurd value (read_ne_slur inSlur t ts left contents right)
  | _ => simp [nests]

theorem deep_read (inSlur : Bool) (t : Token) (ts : List Token) :
    (read inSlur t ts).value.deep = [(read inSlur t ts).value] := by
  cases value : (read inSlur t ts).value with
  | slur left contents right => exact absurd value (read_ne_slur inSlur t ts left contents right)
  | _ => simp [deep]

def isField : Item → Bool
  | inlineField _ => true
  | _ => false

/-- No inline field is among the items, at any depth. -/
def Fieldless (items : List Item) : Prop :=
  ∀ item ∈ deepOf items, item.isField = false

theorem fieldless_cons : Fieldless (item :: items) ↔ Fieldless [item] ∧ Fieldless items := by
  simp [Fieldless, deepOf, or_imp, forall_and]

theorem fieldless_slur (h : Fieldless [.slur left contents right]) : Fieldless contents :=
  fun item member => h item (by simp [deepOf, deep, member])

/-- Where no field is read, only a parenthesis is read as one. -/
theorem isParen_of_fieldless (plain : Fieldless [(read inSlur t ts).value])
    (first : t.kind.isParen = false) :
    ∀ u ∈ (read inSlur t ts).value.tokens, u.kind.isParen = false := by
  intro u member
  refine (isParen_of_mem_read first member).resolve_right ?_
  rintro ⟨_, r, _, field⟩
  have none := plain (read inSlur t ts).value (by simp [deepOf, deep_read])
  rw [field] at none
  cases none

/-- Matching passes over an item that is not a slur. -/
theorem run_read (plain : Fieldless [(read inSlur t ts).value]) (first : t.kind.isParen = false) :
    Nest.run stack inside (t :: ts) =
      Nest.run stack (inside ++ (read inSlur t ts).value.nests) (read inSlur t ts).rest := by
  rw [nests_read, ← Nest.run_append (isParen_of_fieldless plain first), read_append]

/-- Induction along a reading of items, with the parenthesis that each slur is read up to. -/
@[elab_as_elim]
theorem readAll_closed_induct {motive : Bool → List Token → Prop}
    (nil : ∀ inSlur, motive inSlur [])
    (stop : ∀ t ts, t.kind = .rightParen → motive true (t :: ts))
    (slur : ∀ inSlur t ts c us, t.kind = .leftParen → isClosed 0 ts = true →
      (readAll true ts).rest = c :: us → c.kind = .rightParen →
      readAll inSlur (t :: ts) = ⟨.slur t (readAll true ts).value (some c) ::
          (readAll inSlur us).value,
        (readAll true ts).problems ++ (readAll inSlur us).problems, (readAll inSlur us).rest⟩ →
      motive true ts → motive inSlur us → motive inSlur (t :: ts))
    (item : ∀ inSlur t ts, (inSlur && t.kind = .rightParen) = false →
      (t.kind = .leftParen && isClosed 0 ts) = false → motive inSlur (read inSlur t ts).rest →
      motive inSlur (t :: ts))
    (inSlur : Bool) (ts : List Token) : motive inSlur ts := by
  induction inSlur, ts using readAll_induct with
  | nil inSlur => exact nil inSlur
  | stop t ts right => exact stop t ts right
  | slur inSlur t ts left closed inner tail =>
    obtain ⟨c, us, rest, right, _⟩ := rest_readAll_of_isClosed closed
    have accepted : Token.accept (· = .rightParen) (readAll true ts).rest = (some c, us) := by
      simp [rest, Token.accept, right]
    rw [accepted] at tail
    refine slur inSlur t ts c us left closed rest right ?_ inner tail
    rw [readAll_slur left closed]
    simp only [accepted]
  | item inSlur t ts right left tail => exact item inSlur t ts right left tail

/-- A parenthesis that is read as an item is one that nothing matches. -/
theorem run_bare (paren : t.kind.isParen = true)
    (unclosed : (t.kind = .leftParen && isClosed 0 ts) = false) (inside : List Nest) :
    Nest.run [] inside (t :: ts) = Nest.run [] (inside ++ [.token t]) ts := by
  rcases Kind.isParen_iff.mp paren with opens | closes
  · have never : isClosed 0 ts = false := by simpa [opens] using unclosed
    have buried : Nest.run ([] ++ [(inside, t)]) [] ts = _ := Nest.run_bury [] [] never
    rw [Nest.run_left opens]
    simpa [Nest.bury] using buried
  · exact Nest.run_unmatched closes

/-- Matching goes on behind items as if it had read them whole: in a slur whatever is on the stack, as
the slur is closed, and outside slurs with nothing on it. -/
theorem run_readAll (inSlur : Bool) (ts : List Token) :
    ∀ depth stack inside, Fieldless (readAll inSlur ts).value →
      (inSlur = true → isClosed depth ts = true) → (inSlur = false → stack = []) →
      Nest.run stack inside ts =
        Nest.run stack (inside ++ nestsOf (readAll inSlur ts).value) (readAll inSlur ts).rest := by
  induction inSlur, ts using readAll_closed_induct with
  | nil inSlur => simp [readAll_nil, nestsOf]
  | stop t ts right => simp [readAll_stop right, nestsOf]
  | slur inSlur t ts c us left closed rest right whole inner tail =>
    intro depth stack inside plain around outside
    have behind : inSlur = true → isClosed depth us = true := by
      intro slur
      have ahead := around slur
      rw [isClosed_left left] at ahead
      obtain ⟨_, _, same, _, again⟩ := rest_readAll_of_isClosed ahead
      obtain ⟨rfl, rfl⟩ := List.cons.inj (rest.symm.trans same)
      exact again depth rfl
    rw [whole] at plain ⊢
    obtain ⟨own, others⟩ := fieldless_cons.mp plain
    have contents := inner 0 ((inside, t) :: stack) [] (fieldless_slur own) (fun _ => closed) (by simp)
    rw [Nest.run_left left, contents, rest, Nest.run_right right,
      tail depth stack _ others behind outside]
    simp [nestsOf, nests]
  | item inSlur t ts right left tail =>
    intro depth stack inside plain around outside
    rw [readAll_item right left] at plain ⊢
    obtain ⟨own, others⟩ := fieldless_cons.mp plain
    cases paren : t.kind.isParen with
    | false =>
      have behind : inSlur = true → isClosed depth (read inSlur t ts).rest = true := by
        rintro rfl
        have ahead := around rfl
        rw [← read_append true t ts] at ahead
        have closes := (Kind.isParen_eq_false.mp paren).2
        exact isClosed_of_append ahead fun u => ne_rightParen_of_mem_read closes
      rw [run_read own paren, tail depth stack _ others behind outside]
      simp [nestsOf]
    | true =>
      cases inSlur with
      | true =>
        -- A slur that is closed leaves no parenthesis bare.
        have closes : t.kind ≠ .rightParen := by simpa using right
        have opens := (Kind.isParen_iff.mp paren).resolve_right closes
        have ahead := around rfl
        rw [isClosed_left opens] at ahead
        simp [opens, isClosed_of_le (Nat.zero_le _) ahead] at left
      | false =>
        obtain rfl := outside rfl
        rw [read_paren paren false ts] at tail others ⊢
        rw [run_bare paren left]
        exact (tail depth [] _ others (by simp) outside).trans (by simp [nestsOf, nests, bare, tokens])

/-- An item takes no parentheses, unless it is a slur or one of them. -/
def TakesNoParen : Item → Prop
  | slur .. | token _ => True
  | item => ∀ t ∈ item.tokens, t.kind.isParen = false

theorem takesNoParen_read (plain : Fieldless [(read inSlur t ts).value]) :
    (read inSlur t ts).value.TakesNoParen := by
  cases paren : t.kind.isParen with
  | true =>
    rw [read_paren paren]
    trivial
  | false =>
    have free := isParen_of_fieldless plain paren
    cases value : (read inSlur t ts).value with
    | token | slur => trivial
    | _ =>
      rw [value] at free
      exact free

theorem takesNoParen_readAll (plain : Fieldless (readAll inSlur ts).value) :
    ∀ item ∈ deepOf (readAll inSlur ts).value, item.TakesNoParen := by
  induction inSlur, ts using readAll_closed_induct with
  | nil inSlur => simp [readAll_nil, deepOf]
  | stop t ts right => simp [readAll_stop right, deepOf]
  | slur inSlur t ts c us _ _ _ _ whole inner tail =>
    rw [whole] at plain ⊢
    obtain ⟨own, others⟩ := fieldless_cons.mp plain
    intro item member
    simp only [deepOf, deep, List.cons_append, List.mem_cons, List.mem_append] at member
    rcases member with rfl | member | member
    · trivial
    · exact inner (fieldless_slur own) item member
    · exact tail others item member
  | item inSlur t ts right left tail =>
    rw [readAll_item right left] at plain ⊢
    obtain ⟨own, others⟩ := fieldless_cons.mp plain
    intro item member
    simp only [deepOf, deep_read, List.singleton_append, List.mem_cons] at member
    rcases member with rfl | member
    · exact takesNoParen_read own
    · exact tail others item member

theorem nestsOf_eq_flatMap (items : List Item) : nestsOf items = items.flatMap nests := by
  induction items with
  | nil => simp [nestsOf]
  | cons item items ih => simp [nestsOf, ih]

theorem deepOf_eq_flatMap (items : List Item) : deepOf items = items.flatMap deep := by
  induction items with
  | nil => simp [deepOf]
  | cons item items ih => simp [deepOf, ih]

end Item

namespace Nest

theorem unwind_append (stack : List (List Nest × Token)) (inside more : List Nest) :
    unwind stack (inside ++ more) = unwind stack inside ++ more := by
  induction stack generalizing inside with
  | nil => rfl
  | cons entry stack ih =>
    rw [unwind, unwind, ← List.cons_append, ← List.append_assoc, ih]

/-- What ends a line matches nothing. -/
theorem run_concat (plain : e.kind.isParen = false) :
    run stack inside (ts ++ [e]) = run stack inside ts ++ [token e] := by
  induction ts generalizing stack inside with
  | nil => rw [List.nil_append, run_plain plain, run, run, unwind_append]
  | cons t ts ih =>
    rw [List.cons_append]
    by_cases opens : t.kind = .leftParen
    · rw [run_left opens, run_left opens, ih]
    · by_cases closes : t.kind = .rightParen
      · cases stack with
        | nil => rw [run_unmatched closes, run_unmatched closes, ih]
        | cons entry stack => rw [run_right closes, run_right closes, ih]
      · have own := Kind.isParen_eq_false.mpr ⟨opens, closes⟩
        rw [run_plain own, run_plain own, ih]

end Nest

namespace MusicLine

theorem nestsOf_read (plain : Item.Fieldless (read ts).value.items) :
    Item.nestsOf (read ts).value.contents = Nest.ofTokens (read ts).value.tokens := by
  have items : Nest.ofTokens (Item.tokensOf (read ts).value.items) =
      Item.nestsOf (read ts).value.items := by
    rw [read, Item.tokensOf_readAll, Nest.ofTokens,
      Item.run_readAll false _ 0 [] [] plain (by simp) (fun _ => rfl), Item.rest_readAll]
    rfl
  rw [contents, tokens, Item.nestsOf_eq_flatMap, List.flatMap_append, ← Item.nestsOf_eq_flatMap,
    ← items]
  cases ends : (read ts).value.eol with
  | none => simp
  | some e =>
    have kind : e.kind = .eol := of_decide_eq_true (Token.kind_of_mem_accept ends)
    have free : e.kind.isParen = false := by rw [kind]; rfl
    exact (Nest.run_concat free).symm.trans (by simp [Nest.ofTokens])

theorem takesNoParen_read (plain : Item.Fieldless (read ts).value.items) :
    ∀ item ∈ Item.deepOf (read ts).value.contents, item.TakesNoParen := by
  intro item member
  rw [contents, Item.deepOf_eq_flatMap, List.flatMap_append, ← Item.deepOf_eq_flatMap,
    List.mem_append] at member
  rcases member with member | member
  · exact Item.takesNoParen_readAll plain item member
  · cases ends : (read ts).value.eol with
    | none => simp [ends] at member
    | some e =>
      obtain rfl : item = .token e := by simpa [ends, Item.deep] using member
      trivial

end MusicLine

/-- In a music line without inline fields the slurs are the pairs of parentheses that a stack matches,
one in the other as the pairs are, and every other parenthesis is bare. -/
theorem Tree.slurs_match (listed : tune ∈ (ofTokens ts).1.tunes) (member : line ∈ tune.musicLines)
    (plain : Item.Fieldless line.items) :
    Item.nestsOf line.contents = Nest.ofTokens line.tokens ∧
      ∀ item ∈ Item.deepOf line.contents, item.TakesNoParen := by
  obtain ⟨us, rfl⟩ := exists_read_of_mem_musicLines listed member
  exact ⟨MusicLine.nestsOf_read plain, MusicLine.takesNoParen_read plain⟩

/-- Two slurs, one in the other, ahead of a parenthesis that closes nothing and one that nothing
closes. -/
theorem Tree.slurs_match_nested :
    ∃ tune ∈ (ofTokens (scan "X:1\nK:C\n((A)B)c)(d\n".toList)).1.tunes, ∃ line ∈ tune.musicLines,
      Token.join line.tokens = "((A)B)c)(d\n".toList ∧ Item.Fieldless line.items ∧
        Item.nestsOf line.contents = Nest.ofTokens line.tokens ∧
        ∀ item ∈ Item.deepOf line.contents, item.TakesNoParen := by
  have found : ∃ tune ∈ (ofTokens (scan "X:1\nK:C\n((A)B)c)(d\n".toList)).1.tunes,
      ∃ line ∈ tune.musicLines, Token.join line.tokens = "((A)B)c)(d\n".toList ∧
        ∀ item ∈ Item.deepOf line.items, item.isField = false := by
    decide +kernel
  obtain ⟨tune, listed, line, member, own, plain⟩ := found
  exact ⟨tune, listed, line, member, own, plain, slurs_match listed member plain⟩

end Tunebook
