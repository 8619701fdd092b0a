import Tunebook.Proofs.Rhythm.Rereading

/-! Whole rows of items are read back once their lengths are scaled, slurs within slurs included:
the parentheses ahead are the ones that were there. -/
namespace Tunebook

namespace Rewritten

/-- The parentheses among tokens, in order. -/
def parens (ts : List Token) : List Kind :=
  (ts.map Token.kind).filter fun k => k = .leftParen || k = .rightParen

theorem parens_append (ts us : List Token) : parens (ts ++ us) = parens ts ++ parens us := by
  simp [parens]

theorem parens_eq_nil (h : ∀ t ∈ ts, t.kind.isLength = true) : parens ts = [] := by
  refine List.filter_eq_nil_iff.mpr fun k member => ?_
  obtain ⟨t, ht, rfl⟩ := List.mem_map.mp member
  have length := h t ht
  cases hk : t.kind <;> rw [hk] at length <;> cases length <;> simp

theorem parens_eq (h : Rewritten k ts es us) : parens us = parens ts := by
  induction h with
  | nil => rfl
  | keep t _ ih => simp only [parens, List.map_cons, List.filter_cons] at ih ⊢; split <;> simp [ih]
  | sound _ fits _ _ _ ih =>
    simp only [parens_append, ih, parens_eq_nil fun t => Rhythm.isLength_of_mem fits,
      parens_eq_nil fun t => Rhythm.isLength_of_mem (fits.rescale _)]

end Rewritten

namespace Item

/-- Whether a parenthesis is closed depends on the parentheses ahead. -/
theorem isClosed_congr (h : Rewritten.parens us = Rewritten.parens ts) (depth : Nat) :
    isClosed depth us = isClosed depth ts := by
  have byKinds : ∀ (ts : List Token) (depth : Nat), isClosed depth ts =
      isClosed depth ((Rewritten.parens ts).map (Token.unplaced · [])) := by
    intro ts
    induction ts with
    | nil => intro depth; rfl
    | cons t ts ih =>
      intro depth
      by_cases hl : t.kind = .leftParen
      · simp [isClosed, Rewritten.parens, hl, Token.unplaced, ih]
      · by_cases hr : t.kind = .rightParen
        · cases depth <;> simp [isClosed, Rewritten.parens, hr, Token.unplaced, ih]
        · simp [isClosed, Rewritten.parens, hl, hr, ih]
  rw [byKinds us, byKinds ts, h]

theorem nextNot_of_noErrors (h : NoErrors (readAll inSlur ts).problems) :
    Token.NextNot Kind.isRhythm ts := by
  cases ts with
  | nil => exact Token.nextNot_nil _
  | cons t ts =>
    refine Token.nextNot_cons.mpr ?_
    cases ht : t.kind.isRhythm with
    | false => rfl
    | true =>
      have right : (inSlur && t.kind = .rightParen) = false := by
        cases hk : t.kind <;> simp [hk, Kind.isRhythm] at ht ⊢
      have left : (t.kind = .leftParen && isClosed 0 ts) = false := by
        cases hk : t.kind <;> simp [hk, Kind.isRhythm] at ht ⊢
      have read : (read inSlur t ts).problems = [⟨.detachedRhythm, t⟩] := by
        cases hk : t.kind <;> simp [hk, Kind.isRhythm] at ht <;> simp [Item.read, hk, bare]
      rw [readAll_item right left] at h
      have error := h ⟨.detachedRhythm, t⟩ (by simp [read])
      cases error

/-- Kinds that items of several tokens can start with. -/
def startsGroup (k : Kind) : Bool :=
  k.startsNote || k matches .leftBracket | .leftBrace | .multiMeasureRest | .spacerLetter

/-- Every other token is an item by itself, whatever stands behind it, and no length. -/
theorem read_single (h : startsGroup t.kind = false) : ∃ item problems,
    item.tokens = [t] ∧ item.sounds = [] ∧ (∀ k meets, item.rescale k meets = item) ∧
      ∀ inSlur ts, read inSlur t ts = ⟨item, problems, ts⟩ := by
  have silent : (read false t []).value.tokens = [t] ∧ (read false t []).value.sounds = [] ∧
      (∀ k meets, (read false t []).value.rescale k meets = (read false t []).value) ∧
      ∀ inSlur ts,
        read inSlur t ts = ⟨(read false t []).value, (read false t []).problems, ts⟩ := by
    cases hk : t.kind with
    | letter =>
      cases hd : t.isDecorationLetter <;> simp only [read, hk, hd] <;>
        exact ⟨rfl, rfl, fun _ _ => rfl, fun _ _ => rfl⟩
    | noteLetter | restLetter | sharp | sharpDbl | flat | flatDbl | natural | leftBracket | leftBrace
    | multiMeasureRest | spacerLetter => rw [hk] at h; cases h
    | _ => simp only [read, hk]; exact ⟨rfl, rfl, fun _ _ => rfl, fun _ _ => rfl⟩
  exact ⟨_, _, silent⟩

/-- What is shown of an item that `r` says was read at `t`: once scaled it still starts with `t`,
its tokens come from those it was read from by its edits, and it is read back if they join none. -/
def Rereads (k : Scaling) (meets : Sound → Bool) (all : List Token) (inSlur : Bool) (t : Token)
    (ts : List Token) (r : Reading Item) (es : List Edit) (us : List Token) : Prop :=
  ∃ more, (r.value.rescale k meets).tokens = t :: more ∧
    Rewritten k (t :: ts) (k.editsOf meets r.value.sounds ++ es) (t :: more ++ us) ∧
    (Unjoined all (t :: ts) (k.editsOf meets r.value.sounds) →
      read inSlur t (more ++ us) = ⟨r.value.rescale k meets, r.problems, us⟩)

/-- An item that no edit changes is read back if it is read from its tokens with anything behind
them that starts like what it left. -/
theorem rereads_of_fixed {k : Scaling} {meets : Sound → Bool} {item : Item} (more : List Token)
    (fixed : item.rescale k meets = item) (silent : item.sounds = []) (tokens : item.tokens = t :: more)
    (whole : item.tokens ++ rest = t :: ts) (again : read inSlur t (more ++ us) = ⟨item, problems, us⟩)
    (tail : Rewritten k rest es us) (all : List Token) :
    Rereads k meets all inSlur t ts ⟨item, problems, rest⟩ es us := by
  refine ⟨more, ?_, ?_, fun _ => ?_⟩
  · rw [fixed, tokens]
  · have kept := tail.keepAll item.tokens
    rw [whole, tokens] at kept
    rw [silent, Scaling.editsOf_nil]
    exact kept
  · rw [fixed, again]

/-- A letter that takes the number behind it is read back with that number. -/
theorem rereads_numbered {k : Scaling} {meets : Sound → Bool} (item : Option Token → Item)
    (reading : ∀ ts, read inSlur t ts =
      plain (item (Token.accept (· = .number) ts).1) (Token.accept (· = .number) ts).2)
    (fixed : ∀ number, (item number).rescale k meets = item number)
    (silent : ∀ number, (item number).sounds = [])
    (tokens : ∀ number, (item number).tokens = t :: number.toList)
    (tail : Rewritten k (read inSlur t ts).rest es us) (all : List Token) :
    Rereads k meets all inSlur t ts (read inSlur t ts) es us := by
  have whole := read_append inSlur t ts
  rw [reading] at whole tail ⊢
  refine rereads_of_fixed _ (fixed _) (silent _) (tokens _) whole ?_ tail all
  rw [reading, Token.accept_again _ _ tail.head?_eq]
  rfl

theorem read_note (h : t.kind.startsNote = true) (inSlur : Bool) (ts : List Token) :
    read inSlur t ts = readNote t ts := by
  cases hk : t.kind <;> rw [hk] at h <;> cases h <;> simp [read, hk] <;> rfl

theorem rereads_note {k : Scaling} {meets : Sound → Bool} (starts : t.kind.startsNote = true)
    (good : NoErrors (readNote t ts).problems)
    (next : Token.NextNot Kind.isRhythm (readNote t ts).rest)
    (tail : Rewritten k (readNote t ts).rest es us) (all : List Token) (inSlur : Bool) :
    Rereads k meets all inSlur t ts (readNote t ts) es us := by
  cases hr : Note.read? t ts with
  | none =>
    simp only [readNote, hr] at good
    have error := good ⟨.danglingAccidental, t⟩ (by simp [bare])
    cases error
  | some found =>
    obtain ⟨n, rest⟩ := found
    have reading : readNote t ts = plain (.note n) rest := by simp only [readNote, hr]
    rw [reading] at next tail ⊢
    simp only [plain] at next tail
    have note := Note.isReading_of_read? starts hr
    have fits := note.fits
    have bounded := note.bounded next
    have whole := Note.read?_append hr
    have first : n.head.first = t := Note.first_of_read? hr
    -- scaled or not, it fits, has its head and ends where it ended
    let scaled := if meets (.note n) then n.rescale k else n
    obtain ⟨fits', head, rewritten, bounded'⟩ : scaled.Fits ∧ scaled.head = n.head ∧
        Rewritten k (n.tokens ++ rest) (k.editsOf meets [.note n] ++ es) (scaled.tokens ++ us) ∧
        (Unjoined all (t :: ts) (k.editsOf meets [.note n]) → scaled.Bounded us) := by
      simp only [scaled, Scaling.editsOf, List.flatMap_cons, List.flatMap_nil, List.append_nil,
        Scaling.ofSound]
      rw [← whole]
      cases hm : meets (.note n) with
      | true =>
        simp only [if_true]
        exact ⟨fits.rescale k, rfl, Note.rewritten fits next tail,
          fun apart => bounded.rescale fits apart tail.head?_eq⟩
      | false => exact ⟨fits, rfl, tail.keepAll _, fun _ => bounded.congr tail.head?_eq⟩
    have tokens : scaled.tokens = t :: scaled.tokens.tail := by
      rw [Note.tokens_eq, head, first]
      rfl
    refine ⟨scaled.tokens.tail, tokens, ?_, fun apart => ?_⟩
    · rw [whole, tokens] at rewritten
      exact rewritten
    · have again := Note.read?_tokens fits' (bounded' apart)
      rw [head, first] at again
      rw [read_note starts, readNote, again]
      rfl

/-- Nothing in a field sounds, and it is read back whatever stands behind it, since it is closed. -/
theorem rereads_field {k : Scaling} {meets : Sound → Bool} (hk : t.kind = .leftBracket)
    (hf : InlineField.read? inSlur t ts = some r) (good : NoErrors r.problems)
    (tail : Rewritten k r.rest es us) (all : List Token) :
    Rereads k meets all inSlur t ts ⟨.inlineField r.value, r.problems, r.rest⟩ es us := by
  obtain ⟨left, fits, problems⟩ := InlineField.fits_of_read? hf
  have closed : r.value.right.isSome = true := by
    cases hr : r.value.right with
    | some right => rfl
    | none =>
      have error := good ⟨.unterminatedInlineField, t⟩ (by simp [problems, hr])
      cases error
  have none : r.problems = [] := by
    obtain ⟨right, found⟩ := Option.isSome_iff_exists.mp closed
    simp [problems, found]
  have tokens : (inlineField r.value).tokens = t :: r.value.tokens.tail := by
    rw [tokens, InlineField.tokens, left]
    rfl
  have again := InlineField.read?_tokens fits closed us
  rw [left] at again
  refine rereads_of_fixed r.value.tokens.tail rfl rfl tokens (InlineField.read?_append hf) ?_ tail all
  simp only [read, hk, readBracket, again, none]

theorem rereads_chord {k : Scaling} {meets : Sound → Bool} (hk : t.kind = .leftBracket)
    (hc : Chord.read? t ts = some r)
    (good : NoErrors r.problems) (next : Token.NextNot Kind.isRhythm r.rest)
    (tail : Rewritten k r.rest es us) (all : List Token) :
    Rereads k meets all inSlur t ts ⟨.chord r.value, r.problems, r.rest⟩ es us := by
  let scaled := if meets (.chord r.value) then r.value.rescale k else r.value
  obtain ⟨left, rewritten, again⟩ : scaled.left = t ∧
      Rewritten k (t :: ts) (k.editsOf meets [.chord r.value] ++ es) (scaled.tokens ++ us) ∧
      (Unjoined all (t :: ts) (k.editsOf meets [.chord r.value]) →
        Chord.read? t (scaled.tokens.tail ++ us) = some ⟨scaled, r.problems, us⟩ ∧
          InlineField.read? inSlur t (scaled.tokens.tail ++ us) = none) := by
    simp only [scaled, Scaling.editsOf, List.flatMap_cons, List.flatMap_nil, List.append_nil]
    cases hm : meets (.chord r.value) with
    | true =>
      simp only [if_true]
      exact ⟨(Chord.left_rescale k r.value).trans (Chord.isReading_of_read? hc).left,
        Chord.rewritten hc good next tail,
        fun apart => Chord.reread_rescale hc good next apart tail.head?_eq⟩
    | false =>
      have kept := tail.keepAll r.value.tokens
      rw [Chord.read?_append hc] at kept
      exact ⟨(Chord.isReading_of_read? hc).left, kept, fun _ => Chord.reread hc next tail.head?_eq⟩
  have tokens : scaled.tokens = t :: scaled.tokens.tail := by
    rw [Chord.tokens, left]
    rfl
  refine ⟨scaled.tokens.tail, tokens, ?_, fun apart => ?_⟩
  · rw [tokens] at rewritten
    exact rewritten
  · obtain ⟨back, noField⟩ := again apart
    simp only [read, hk, readBracket, back, noField]
    rfl

theorem rereads_bracket {k : Scaling} {meets : Sound → Bool} (hk : t.kind = .leftBracket)
    (good : NoErrors (readBracket inSlur t ts).problems)
    (next : Token.NextNot Kind.isRhythm (readBracket inSlur t ts).rest)
    (tail : Rewritten k (readBracket inSlur t ts).rest es us) (all : List Token) :
    Rereads k meets all inSlur t ts (readBracket inSlur t ts) es us := by
  cases hf : InlineField.read? inSlur t ts with
  | some r =>
    have reading : readBracket inSlur t ts = ⟨.inlineField r.value, r.problems, r.rest⟩ := by
      simp only [readBracket, hf]
    rw [reading] at good tail ⊢
    exact rereads_field hk hf good tail all
  | none =>
    cases hc : Chord.read? t ts with
    | none =>
      simp only [readBracket, hf, hc] at good
      have error := good ⟨.unterminatedChord, t⟩ (by simp [bare])
      cases error
    | some r =>
      have reading : readBracket inSlur t ts = ⟨.chord r.value, r.problems, r.rest⟩ := by
        simp only [readBracket, hf, hc]
      rw [reading] at good next tail ⊢
      exact rereads_chord hk hc good next tail all

theorem rereads_brace {k : Scaling} {meets : Sound → Bool} (hk : t.kind = .leftBrace)
    (good : NoErrors (readBrace t ts).problems) (tail : Rewritten k (readBrace t ts).rest es us)
    (all : List Token) (inSlur : Bool) : Rereads k meets all inSlur t ts (readBrace t ts) es us := by
  cases hg : GraceGroup.read? t ts with
  | none =>
    simp only [readBrace, hg] at good
    have error := good ⟨.unterminatedGraceGroup, t⟩ (by simp [bare])
    cases error
  | some r =>
    have reading : readBrace t ts = ⟨.grace r.value, r.problems, r.rest⟩ := by
      simp only [readBrace, hg]
    rw [reading] at tail ⊢
    have left : r.value.left = t := by
      obtain ⟨_, _, rfl⟩ := Option.map_eq_some_iff.1 hg
      rfl
    have tokens : (grace r.value).tokens = t :: r.value.tokens.tail := by
      rw [tokens, GraceGroup.tokens, left]
      rfl
    refine rereads_of_fixed r.value.tokens.tail rfl rfl tokens (GraceGroup.read?_append hg) ?_ tail
      all
    simp only [read, hk, readBrace, GraceGroup.read?_tokens hg us]

theorem reread (k : Scaling) (meets : Sound → Bool) (good : NoErrors (read inSlur t ts).problems)
    (next : Token.NextNot Kind.isRhythm (read inSlur t ts).rest)
    (tail : Rewritten k (read inSlur t ts).rest es us) (all : List Token) :
    Rereads k meets all inSlur t ts (read inSlur t ts) es us := by
  cases group : startsGroup t.kind with
  | false =>
    have whole := read_append inSlur t ts
    obtain ⟨item, problems, tokens, silent, fixed, reads⟩ := read_single group
    rw [reads] at whole tail ⊢
    exact rereads_of_fixed [] (fixed k meets) silent tokens whole (reads inSlur us) tail all
  | true =>
    cases starts : t.kind.startsNote with
    | true =>
      rw [read_note starts] at good next tail ⊢
      exact rereads_note starts good next tail all inSlur
    | false =>
      cases hk : t.kind with
      | leftBracket =>
        have reading : read inSlur t ts = readBracket inSlur t ts := by simp only [read, hk]
        rw [reading] at good next tail ⊢
        exact rereads_bracket hk good next tail all
      | leftBrace =>
        have reading : read inSlur t ts = readBrace t ts := by simp only [read, hk]
        rw [reading] at good tail ⊢
        exact rereads_brace hk good tail all inSlur
      | multiMeasureRest =>
        refine rereads_numbered (.multiMeasureRest t) (fun ts => ?_) (fun _ => rfl) (fun _ => rfl)
          (fun _ => rfl) tail all
        simp only [read, hk]
      | spacerLetter =>
        refine rereads_numbered (.spacer t) (fun ts => ?_) (fun _ => rfl) (fun _ => rfl)
          (fun _ => rfl) tail all
        simp only [read, hk]
      | _ =>
        rw [hk] at group starts
        simp [startsGroup, starts] at group

/-- Read without errors and scaled, the items of a line have tokens that come from those of the line
by the edits, and they are read back from them if the edits join none. -/
theorem rereadAll (k : Scaling) (meets : Sound → Bool) (inSlur : Bool) (ts : List Token)
    (good : NoErrors (readAll inSlur ts).problems)
    (tail : Rewritten k (readAll inSlur ts).rest es us) (all : List Token) :
    Rewritten k ts (k.editsOf meets (soundsOf (readAll inSlur ts).value) ++ es)
        (tokensOf (rescaleAll k meets (readAll inSlur ts).value) ++ us) ∧
      (Unjoined all ts (k.editsOf meets (soundsOf (readAll inSlur ts).value)) →
        readAll inSlur (tokensOf (rescaleAll k meets (readAll inSlur ts).value) ++ us) =
          ⟨rescaleAll k meets (readAll inSlur ts).value, (readAll inSlur ts).problems, us⟩) := by
  induction inSlur, ts using readAll_induct generalizing es us with
  | nil inSlur =>
    rw [readAll_nil] at tail ⊢
    obtain ⟨rfl, rfl⟩ := tail.nil_inv
    exact ⟨.nil, fun _ => readAll_nil inSlur⟩
  | stop t ts hr =>
    rw [readAll_stop hr] at tail ⊢
    refine ⟨tail, fun _ => ?_⟩
    obtain ⟨us, rfl⟩ : ∃ vs, us = t :: vs := List.head?_eq_some_iff.mp tail.head?_eq
    exact readAll_stop hr
  | slur inSlur t ts hl hc inner behind =>
    rw [readAll_slur hl hc] at good tail ⊢
    simp only [noErrors_append, soundsOf, sounds, rescaleAll, rescale, tokensOf, tokens,
      Scaling.editsOf_append, List.append_assoc, List.cons_append] at good tail ⊢
    generalize hin : readAll true ts = r at *
    generalize hcl : Token.accept (· = .rightParen) r.rest = close at *
    have whole : tokensOf r.value ++ r.rest = ts := by rw [← hin, readAll_append]
    have closing : close.1.toList ++ close.2 = r.rest := by rw [← hcl, Token.accept_append]
    -- From the back: what stands behind the slur, its parenthesis, what stands in it.
    obtain ⟨rest, again⟩ := behind good.2 tail
    have after := rest.keepAll close.1.toList
    rw [closing] at after
    obtain ⟨front, againInner⟩ := inner good.1 after
    have closed := isClosed_congr front.parens_eq 0
    rw [hc] at closed
    have closes := Token.accept_again (· = .rightParen) r.rest (hcl ▸ rest.head?_eq)
    rw [hcl] at closes
    refine ⟨front.keep t, fun apart => ?_⟩
    have apartInner : Unjoined all ts (k.editsOf meets (soundsOf r.value)) :=
      apart.tail.mono (List.subset_append_left _ _)
    have apartBehind : Unjoined all close.2
        (k.editsOf meets (soundsOf (readAll inSlur close.2).value)) := by
      rw [← whole, ← closing, ← List.append_assoc, ← List.cons_append] at apart
      exact apart.right _ (List.subset_append_right _ _)
    rw [readAll_slur hl closed, againInner apartInner]
    simp only [closes, again apartBehind]
  | item inSlur t ts hr hl ih =>
    rw [readAll_item hr hl] at good tail ⊢
    simp only [noErrors_append, soundsOf, rescaleAll, tokensOf, Scaling.editsOf_append,
      List.append_assoc] at good tail ⊢
    obtain ⟨rest, again⟩ := ih good.2 tail
    obtain ⟨more, tokens, front, back⟩ :=
      reread k meets good.1 (nextNot_of_noErrors good.2) rest all
    -- No edit takes a parenthesis away, so one that was bare does not become a slur.
    have closed : isClosed 0 (more ++
        (tokensOf (rescaleAll k meets (readAll inSlur (read inSlur t ts).rest).value) ++ us)) =
        isClosed 0 ts := by
      refine isClosed_congr (List.append_cancel_left (?_ : Rewritten.parens [t] ++ _ = _)) 0
      rw [← Rewritten.parens_append, ← Rewritten.parens_append]
      exact front.parens_eq
    rw [tokens]
    refine ⟨front, fun apart => ?_⟩
    have apartRest : Unjoined all (read inSlur t ts).rest
        (k.editsOf meets (soundsOf (readAll inSlur (read inSlur t ts).rest).value)) := by
      rw [← read_append inSlur t ts] at apart
      exact apart.right _ (List.subset_append_right _ _)
    rw [List.cons_append, readAll_item hr (by rw [closed]; exact hl),
      back (apart.mono (List.subset_append_left _ _))]
    simp only [again apartRest]

end Item
end Tunebook
