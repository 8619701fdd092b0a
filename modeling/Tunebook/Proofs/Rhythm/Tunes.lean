import Mathlib.Data.List.TakeWhile
import Tunebook.Proofs.Grammar.Lines
import Tunebook.Proofs.Rhythm.Items

/-! Whole tunes and texts are read back once their lengths are scaled: lines begin and end where they
did, blank lines stay blank, and no other line opens a tune. -/
namespace Tunebook

namespace Rewritten

/-- The next thing that is not a space is kept. -/
theorem head?_dropWhile_isSpace (h : Rewritten k ts es us) :
    (us.dropWhile Token.isSpace).head? = (ts.dropWhile Token.isSpace).head? := by
  induction h with
  | nil => rfl
  | keep t _ ih =>
    simp only [List.dropWhile_cons]
    split
    · exact ih
    · rfl
  | sound head =>
    cases head with
    | letter hk =>
      rcases hk with hk | hk <;> simp [Token.isSpace, hk]
    | octave hk | bracket hk => simp [Token.isSpace, hk]

theorem startsBlankLine_eq (h : Rewritten k ts es us) :
    Token.startsBlankLine us = Token.startsBlankLine ts := by
  have byHead : ∀ ts, Token.startsBlankLine ts =
      ((ts.dropWhile Token.isSpace).head?.map Token.kind).all (· = .eol) := by
    intro ts
    unfold Token.startsBlankLine
    split
    next none => simp [none]
    next some => simp [some]
  rw [byHead, byHead, h.head?_dropWhile_isSpace]

theorem any_opensTune (h : Rewritten k ts es us) :
    us.any Token.opensTune = ts.any Token.opensTune := by
  have silent {vs : List Token} (every : ∀ v ∈ vs, v.kind ≠ .infoKey) :
      vs.any Token.opensTune = false := by
    rw [List.any_eq_false]
    intro v member
    simp [Token.opensTune, every v member]
  have length {r : Rhythm} (fits : r.Fits) : r.lengthTokens.any Token.opensTune = false := by
    refine silent fun v member hk => ?_
    have kind := Rhythm.isLength_of_mem fits member
    rw [hk] at kind
    cases kind
  induction h with
  | nil => rfl
  | keep t _ ih => rw [List.any_cons, List.any_cons, ih]
  | sound _ fits _ _ _ ih =>
    simp only [List.any_append, length fits, length (fits.rescale _), ih]

end Rewritten

/-- Blank lines are split off again, if what comes next still is not blank. -/
theorem Token.splitBlankLines_again (ts : List Token)
    (same : us.head? = (splitBlankLines ts).2.head?)
    (visible : (us.dropWhile isSpace).head? = ((splitBlankLines ts).2.dropWhile isSpace).head?) :
    splitBlankLines ((splitBlankLines ts).1 ++ us) = ((splitBlankLines ts).1, us) := by
  fun_induction splitBlankLines ts with
  | case1 ts none =>
    obtain rfl : us = [] := List.head?_eq_none_iff.mp same
    rw [List.append_nil, splitBlankLines_of_nil none]
  | case2 ts t rest first hk lines rest' tail ih =>
    rw [tail] at ih
    have next : (t :: (lines ++ us)).head? = (ts.dropWhile isSpace).head? := by simp [first]
    obtain ⟨taken, dropped⟩ := span_again isSpace ts next
    rw [List.append_assoc, List.cons_append, splitBlankLines_of_eol dropped hk, taken,
      ih same visible]
  | case3 ts t rest first hk =>
    rw [first, List.head?_cons] at visible
    obtain ⟨others, dropped⟩ := List.head?_eq_some_iff.mp visible
    rw [List.nil_append, splitBlankLines_of_visible dropped hk]

theorem MusicLine.reread (k : Scaling) (meets : Sound → Bool) (good : NoErrors (read ts).problems)
    (tail : Rewritten k (read ts).rest es us) (all : List Token) :
    Rewritten k ts (k.editsOf meets (Item.soundsOf (read ts).value.items) ++ es)
        (((read ts).value.rescale k meets).tokens ++ us) ∧
      (Unjoined all ts (k.editsOf meets (Item.soundsOf (read ts).value.items)) →
        read (((read ts).value.rescale k meets).tokens ++ us) =
          ⟨(read ts).value.rescale k meets, (read ts).problems, us⟩) := by
  have parts : ts.takeWhile (!isBoundary ·.kind) ++ ts.dropWhile (!isBoundary ·.kind) = ts :=
    List.takeWhile_append_dropWhile
  have inside : ∀ t ∈ ts.takeWhile (!isBoundary ·.kind), (!isBoundary t.kind) = true :=
    List.all_eq_true.mp List.all_takeWhile
  simp only [read, rescale, tokens, List.append_assoc] at good tail ⊢
  generalize hfront : ts.takeWhile (!isBoundary ·.kind) = front at *
  generalize hback : ts.dropWhile (!isBoundary ·.kind) = back at *
  have rest : Rewritten k back es ((Token.accept (· = .eol) back).1.toList ++ us) := by
    have kept := tail.keepAll (Token.accept (· = .eol) back).1.toList
    rwa [Token.accept_append] at kept
  have none : Rewritten k (Item.readAll false front).rest [] [] := by
    rw [Item.rest_readAll]
    exact .nil
  obtain ⟨rewritten, again⟩ := Item.rereadAll k meets false front good none all
  simp only [List.append_nil] at again rewritten
  -- the items stand ahead of the first boundary, and no edit brings one in
  have ends : ∀ t ∈ ((Token.accept (· = .eol) back).1.toList ++ us).head?,
      (!isBoundary t.kind) = false := by
    intro t member
    rw [rest.head?_eq, ← hback] at member
    exact not_of_mem_head?_dropWhile (fun t : Token => !isBoundary t.kind) member
  have within : ∀ t ∈ Item.tokensOf (Item.rescaleAll k meets (Item.readAll false front).value),
      (!isBoundary t.kind) = true := by
    intro t member
    rcases rewritten.mem member with own | length
    · exact inside t own
    · cases hk : t.kind <;> rw [hk] at length <;> cases length <;> rfl
  obtain ⟨taken, dropped⟩ := span_append within ends
  refine ⟨?_, fun apart => ?_⟩
  · rw [← parts]
    refine rewritten.append ?_ rest
    intro t member
    rw [← hback] at member
    have boundary := not_of_mem_head?_dropWhile (fun t : Token => !isBoundary t.kind) member
    cases hk : t.kind <;> simp [hk, isBoundary, Kind.isComment] at boundary <;> rfl
  · rw [← parts] at apart
    rw [taken, dropped, again (apart.left (List.Subset.refl _)),
      Token.accept_again _ _ tail.head?_eq]

/-- A body line is read back, from its own first token on. -/
theorem BodyLine.reread (k : Scaling) (meets : Sound → Bool) (good : NoErrors (read t ts).problems)
    (tail : Rewritten k (read t ts).rest es us) (all : List Token) :
    ∃ more, ((read t ts).value.rescale k meets).tokens ++ us = t :: more ∧
      Rewritten k (t :: ts) (k.editsOf meets (read t ts).value.sounds ++ es) (t :: more) ∧
      (Unjoined all (t :: ts) (k.editsOf meets (read t ts).value.sounds) →
        read t more = ⟨(read t ts).value.rescale k meets, (read t ts).problems, us⟩) := by
  have whole := read_append t ts
  by_cases info : t.kind = .infoKey
  · have reading : ∀ ts, read t ts = ⟨.info (InfoLine.read t ts).1, [], (InfoLine.read t ts).2⟩ := by
      intro ts
      simp only [read, info, if_true]
    rw [reading] at whole tail ⊢
    refine ⟨(InfoLine.read t ts).1.tokens.tail ++ us, rfl, ?_, fun _ => ?_⟩
    · rw [← whole]
      exact tail.keepAll _
    · rw [reading, InfoLine.read_again t ts tail.head?_eq]
      rfl
  · by_cases comment : t.kind.isComment = true
    · have reading : ∀ ts,
          read t ts = ⟨.comment (CommentLine.read t ts).1, [], (CommentLine.read t ts).2⟩ := by
        intro ts
        simp only [read, info, comment, if_true, if_false]
      rw [reading] at whole tail ⊢
      refine ⟨(CommentLine.read t ts).1.tokens.tail ++ us, rfl, ?_, fun _ => ?_⟩
      · rw [← whole]
        exact tail.keepAll _
      · rw [reading, CommentLine.read_again t ts tail.head?_eq]
        rfl
    · have reading : ∀ ts, read t ts = ⟨.music (MusicLine.read (t :: ts)).value,
          (MusicLine.read (t :: ts)).problems, (MusicLine.read (t :: ts)).rest⟩ := by
        intro ts
        simp only [read, info, comment, if_false, Bool.false_eq_true]
      rw [reading] at good tail ⊢
      obtain ⟨rewritten, again⟩ := MusicLine.reread k meets good tail all
      obtain ⟨more, tokens⟩ := List.head?_eq_some_iff.mp rewritten.head?_eq
      refine ⟨more, tokens, ?_, fun apart => ?_⟩
      · rw [← tokens]
        exact rewritten
      · rw [reading, ← tokens, again apart]
        rfl

theorem BodyLine.eol_rescale (k : Scaling) (meets : Sound → Bool) (line : BodyLine) :
    (line.rescale k meets).eol = line.eol := by
  cases line <;> rfl

namespace Tune

theorem readBody_rescale (k : Scaling) (meets : Sound → Bool) (atLineStart : Bool)
    (ts : List Token) (good : NoErrors (readBody atLineStart ts).problems)
    (tail : Rewritten k (readBody atLineStart ts).rest es us) (all : List Token) :
    Rewritten k ts
        (k.editsOf meets ((readBody atLineStart ts).value.flatMap BodyLine.sounds) ++ es)
        (((readBody atLineStart ts).value.map (BodyLine.rescale k meets)).flatMap
          BodyLine.tokens ++ us) ∧
      (Unjoined all ts
          (k.editsOf meets ((readBody atLineStart ts).value.flatMap BodyLine.sounds)) →
        readBody atLineStart (((readBody atLineStart ts).value.map
            (BodyLine.rescale k meets)).flatMap BodyLine.tokens ++ us) =
          ⟨(readBody atLineStart ts).value.map (BodyLine.rescale k meets),
            (readBody atLineStart ts).problems, us⟩) := by
  fun_induction readBody atLineStart ts with
  | case1 =>
    obtain ⟨rfl, rfl⟩ := tail.nil_inv
    exact ⟨.nil, fun _ => by simp [readBody]⟩
  | case2 atLineStart t ts stops =>
    refine ⟨tail, fun _ => ?_⟩
    obtain ⟨us, rfl⟩ := List.head?_eq_some_iff.mp tail.head?_eq
    rw [← tail.startsBlankLine_eq] at stops
    simp [readBody, stops]
  | case3 atLineStart t ts stops line rest ih =>
    simp only [noErrors_append, List.flatMap_cons, List.map_cons, Scaling.editsOf_append,
      List.append_assoc] at good tail ⊢
    have whole := BodyLine.read_append t ts
    obtain ⟨behind, again⟩ := ih good.2 tail
    obtain ⟨more, tokens, rewritten, back⟩ := BodyLine.reread k meets good.1 behind all
    rw [tokens]
    refine ⟨rewritten, fun apart => ?_⟩
    have apartRest : Unjoined all line.rest (k.editsOf meets (rest.value.flatMap BodyLine.sounds)) := by
      rw [← whole] at apart
      exact apart.right _ (List.subset_append_right _ _)
    have goesOn := rewritten.startsBlankLine_eq
    rw [readBody, goesOn, if_neg stops, back (apart.mono (List.subset_append_left _ _))]
    simp only [BodyLine.eol_rescale]
    rw [again apartRest]

theorem splitApart_again (beyond : Bool) (ts : List Token)
    (tail : Rewritten k (splitApart beyond ts).2 es us) :
    splitApart beyond ((splitApart beyond ts).1 ++ us) = ((splitApart beyond ts).1, us) := by
  have opens : ((splitApart beyond ts).1 ++ us).any Token.opensTune = ts.any Token.opensTune := by
    rw [List.any_append, tail.any_opensTune, ← List.any_append, splitApart_append]
  rw [splitApart, opens]
  split
  next follows =>
    rw [splitApart, if_pos follows] at tail ⊢
    obtain ⟨taken, dropped⟩ := span_again (fun t : Token => !t.opensTune) ts tail.head?_eq
    rw [taken, dropped]
  next last =>
    rw [splitApart, if_neg last] at tail ⊢
    exact Token.splitBlankLines_again ts tail.head?_eq tail.head?_dropWhile_isSpace

theorem missingKey?_body (tune : Tune) (body : List BodyLine) (same : us.head? = ts.head?) :
    ({ tune with body } : Tune).missingKey? us = tune.missingKey? ts := by
  cases ts with
  | nil =>
    obtain rfl : us = [] := List.head?_eq_none_iff.mp same
    rfl
  | cons t ts =>
    obtain ⟨us, rfl⟩ := List.head?_eq_some_iff.mp same
    rfl

/-- The notes and chords of a tune. -/
def sounds (t : Tune) : List Sound :=
  t.musicLines.flatMap fun l => Item.soundsOf l.items

theorem reread (k : Scaling) (meets : Sound → Bool) (beyond : Bool) (ts : List Token)
    (good : NoErrors (read beyond ts).problems)
    (tail : Rewritten k (read beyond ts).rest es us) (all : List Token) :
    Rewritten k ts (k.editsOf meets (read beyond ts).value.sounds ++ es)
        (((read beyond ts).value.rescale k meets).tokens ++ us) ∧
      (Unjoined all ts (k.editsOf meets (read beyond ts).value.sounds) →
        read beyond (((read beyond ts).value.rescale k meets).tokens ++ us) =
          ⟨(read beyond ts).value.rescale k meets, (read beyond ts).problems, us⟩) := by
  simp only [read, sounds, musicLines, BodyLine.sounds_body, noErrors_append, rescale, tokens,
    headerTokens, bodyTokens, List.append_assoc] at good tail ⊢
  generalize hh : readHeader true ts = header at *
  generalize hb : readBody true header.2 = body at *
  have wholeHeader : header.1.flatMap HeaderLine.tokens ++ header.2 = ts := by
    rw [← hh, readHeader_append]
  have trailing : Rewritten k body.rest es ((splitApart beyond body.rest).1 ++ us) := by
    have kept := tail.keepAll (splitApart beyond body.rest).1
    rwa [splitApart_append] at kept
  rw [← hb] at good trailing
  obtain ⟨rewritten, againBody⟩ := readBody_rescale k meets true header.2 good.2 trailing all
  rw [hb] at againBody rewritten trailing
  have again := readHeader_again true ts (hh ▸ rewritten.head?_eq)
  rw [hh] at again
  have front := rewritten.keepAll (header.1.flatMap HeaderLine.tokens)
  rw [wholeHeader] at front
  refine ⟨front, fun apart => ?_⟩
  have apartBody : Unjoined all header.2 (k.editsOf meets (body.value.flatMap BodyLine.sounds)) := by
    rw [← wholeHeader] at apart
    exact apart.right _ (List.Subset.refl _)
  rw [again]
  simp only [againBody apartBody, splitApart_again beyond body.rest tail]
  rw [missingKey?_body ⟨header.1, body.value, _⟩ _ front.head?_eq]

end Tune

namespace Tree

theorem readTunes_rescale (k : Scaling) (meets : Sound → Bool) (beyond : Bool) (ts : List Token)
    (good : NoErrors (readTunes beyond ts).2) (all : List Token) :
    Rewritten k ts (k.editsOf meets ((readTunes beyond ts).1.flatMap Tune.sounds))
        (((readTunes beyond ts).1.map (Tune.rescale k meets)).flatMap Tune.tokens) ∧
      (Unjoined all ts (k.editsOf meets ((readTunes beyond ts).1.flatMap Tune.sounds)) →
        readTunes beyond (((readTunes beyond ts).1.map (Tune.rescale k meets)).flatMap
            Tune.tokens) =
          ((readTunes beyond ts).1.map (Tune.rescale k meets), (readTunes beyond ts).2)) := by
  fun_induction readTunes beyond ts with
  | case1 => exact ⟨.nil, fun _ => by simp [readTunes]⟩
  | case2 t ts tune tail ih =>
    simp only [noErrors_append, List.flatMap_cons, List.map_cons,
      Scaling.editsOf_append] at good ⊢
    have whole := Tune.read_append beyond (t :: ts)
    obtain ⟨behind, again⟩ := ih good.2
    obtain ⟨rewritten, back⟩ := Tune.reread k meets beyond (t :: ts) good.1 behind all
    obtain ⟨more, first⟩ := List.head?_eq_some_iff.mp rewritten.head?_eq
    refine ⟨rewritten, fun apart => ?_⟩
    have apartRest : Unjoined all tune.rest (k.editsOf meets (tail.1.flatMap Tune.sounds)) := by
      rw [← whole] at apart
      exact apart.right _ (List.subset_append_right _ _)
    have back := back (apart.mono (List.subset_append_left _ _))
    rw [first] at back ⊢
    rw [readTunes, back]
    simp only
    rw [again apartRest]

/-- Tokens without an end mark are all of the text. -/
theorem ofTokens_eq (text : ∀ t ∈ ts, t.kind ≠ .eof) : ofTokens ts =
    (⟨(Tune.splitApart false ts).1, (readTunes false (Tune.splitApart false ts).2).1⟩,
      (readTunes false (Tune.splitApart false ts).2).2) := by
  have passes : ∀ t ∈ ts, decide (t.kind ≠ .eof) = true := by simpa using text
  simp only [ofTokens, List.takeWhile_eq_self_iff.mpr passes, List.dropWhile_eq_nil_iff.mpr passes,
    List.any_nil]

/-- Read without errors and scaled, a tree has tokens that come from those of the text by the edits,
and it is read back from them with the same problems if the edits join none. -/
theorem reread (k : Scaling) (meets : Sound → Bool) {ts : List Token}
    (text : ∀ t ∈ ts, t.kind ≠ .eof) (good : NoErrors (ofTokens ts).2) :
    Rewritten k ts (k.editsOf meets (ofTokens ts).1.sounds)
        ((ofTokens ts).1.rescale k meets).tokens ∧
      (Unjoined ts ts (k.editsOf meets (ofTokens ts).1.sounds) →
        ofTokens ((ofTokens ts).1.rescale k meets).tokens =
          ((ofTokens ts).1.rescale k meets, (ofTokens ts).2)) := by
  rw [ofTokens_eq text] at good ⊢
  simp only [sounds, tokens, rescale] at good ⊢
  have whole := Tune.splitApart_append false ts
  generalize hs : Tune.splitApart false ts = front at *
  obtain ⟨rewritten, again⟩ := readTunes_rescale k meets false front.2 good ts
  have split := Tune.splitApart_again false ts (hs ▸ rewritten)
  rw [hs] at split
  have kept := rewritten.keepAll front.1
  rw [whole] at kept
  refine ⟨kept, fun apart => ?_⟩
  have apartTunes : Unjoined ts front.2
      (k.editsOf meets ((readTunes false front.2).1.flatMap Tune.sounds)) := by
    nth_rewrite 2 [← whole] at apart
    exact apart.right _ (List.Subset.refl _)
  rw [ofTokens_eq ?_, split]
  · simp only [again apartTunes]
  · intro u member
    rcases kept.mem member with own | length
    · exact text u own
    · intro hk
      rw [hk] at length
      cases length

end Tree
end Tunebook
