import Tunebook.Proofs.Descent.Lines

/-! The descent through a whole list of tokens. It ends, on any tokens, with the tree that the grammar
reads and with what is wrong with it. -/
namespace Tunebook

/-- Blank lines hold no key. -/
theorem Token.opensTune_of_mem_blankLines (h : t ∈ (splitBlankLines ts).1) :
    t.opensTune = false := by
  have space (ts : List Token) (inside : t ∈ ts.takeWhile isSpace) : t.opensTune = false := by
    have blank := List.all_eq_true.mp List.all_takeWhile t inside
    apply opensTune_eq_false
    intro key
    simp [isSpace, key] at blank
  fun_induction splitBlankLines ts
  case case1 ts spaces =>
    apply space ts
    rwa [← List.takeWhile_append_dropWhile (p := isSpace) (l := ts), spaces, List.append_nil] at h
  case case2 ts u rest visible eol lines rest' tail ih =>
    rw [tail] at ih
    rcases List.mem_append.mp h with inside | inside
    · exact space ts inside
    · rcases List.mem_cons.mp inside with rfl | inside
      · exact opensTune_eq_false (by simp [eol])
      · exact ih inside
  case case3 => cases h

namespace Descent

variable {tokens : List Token} {depth : Nat}

section Blank

theorem Reads.atBlank :
    Reads tokens depth atBlank ts (!ts.isEmpty && Token.startsBlankLine ts) ts [] := by
  refine of_sees fun i sees => step peek ?_
  cases ts with
  | nil => exact pure false
  | cons t ts =>
    rw [nextKind_cons, if_neg (sees.ne_eof List.mem_cons_self)]
    exact atBlankLine

theorem Reads.blankLine : Reads tokens depth blankLine ts
    (ts.takeWhile Token.isSpace ++ (Token.accept (· = .eol) (ts.dropWhile Token.isSpace)).1.toList)
    (Token.accept (· = .eol) (ts.dropWhile Token.isSpace)).2 [] := by
  refine step (acceptAllTop rfl) ?_
  exact step (acceptTop rfl) (pure _)

theorem Reads.blankLine_feed (spaces : ts.dropWhile Token.isSpace = t :: us) (eol : t.kind = .eol) :
    Reads tokens depth Descent.blankLine ts (ts.takeWhile Token.isSpace ++ [t]) us [] := by
  have own : Reads tokens depth Descent.blankLine ts _ _ [] := blankLine
  simpa [spaces, eol, Token.accept] using own

theorem Reads.blankLine_end (spaces : ts.dropWhile Token.isSpace = []) :
    Reads tokens depth Descent.blankLine ts ts [] [] := by
  have own : Reads tokens depth Descent.blankLine ts _ _ [] := blankLine
  have whole := List.takeWhile_append_dropWhile (p := Token.isSpace) (l := ts)
  rw [spaces, List.append_nil] at whole
  rw [spaces, whole] at own
  simpa [Token.accept] using own

theorem Turns.blankLines (ts : List Token) : ∃ lines,
    lines.flatten = (Token.splitBlankLines ts).1 ∧
      Turns tokens depth atBlank blankLine ts lines (Token.splitBlankLines ts).2 [] := by
  have stops (ts : List Token) (h : (!ts.isEmpty && Token.startsBlankLine ts) = false) :
      Turns tokens depth atBlank blankLine ts [] ts [] := .nil (h ▸ .atBlank)
  have goes (t : Token) (ts : List Token) (blank : Token.startsBlankLine (t :: ts) = true) :
      Reads tokens depth atBlank (t :: ts) true (t :: ts) [] := by
    have more : (!(t :: ts).isEmpty && Token.startsBlankLine (t :: ts)) = true := blank
    exact more ▸ .atBlank
  fun_induction Token.splitBlankLines ts
  case case1 ts spaces =>
    cases ts with
    | nil => exact ⟨[], rfl, stops [] rfl⟩
    | cons t ts =>
      have blank : Token.startsBlankLine (t :: ts) = true := by simp [Token.startsBlankLine, spaces]
      refine ⟨[t :: ts], by simp, ?_⟩
      exact .cons (goes t ts blank) (.blankLine_end spaces) (by simp) (stops [] rfl)
  case case2 ts u rest visible eol lines rest' tail ih =>
    obtain ⟨later, whole, turns⟩ := ih
    rw [tail] at whole turns
    refine ⟨(ts.takeWhile Token.isSpace ++ [u]) :: later, ?_, ?_⟩
    · rw [List.flatten_cons, whole, List.append_assoc, List.singleton_append]
    · have blank : Token.startsBlankLine ts = true := by simp [Token.startsBlankLine, visible, eol]
      have shorter : rest.length < ts.length := by
        have fewer := (List.dropWhile_sublist Token.isSpace (l := ts)).length_le
        rwa [visible, List.length_cons] at fewer
      cases ts with
      | nil => cases visible
      | cons t ts => exact .cons (goes t ts blank) (.blankLine_feed visible eol) shorter turns
  case case3 ts t rest visible eol =>
    refine ⟨[], rfl, stops ts ?_⟩
    simp [Token.startsBlankLine, visible, eol]

theorem Reads.blankLines (ts : List Token) : Reads tokens depth blankLines ts
    (Token.splitBlankLines ts).1 (Token.splitBlankLines ts).2 [] := by
  obtain ⟨lines, whole, turns⟩ := Turns.blankLines ts
  rw [← whole]
  exact step turns.repeated (pure _)

end Blank

section Ahead

theorem findTune_eq (ahead : tokens.drop i = us) (inside : i ≤ tokens.length)
    (enough : us.length < n) :
    ∃ stop, findTune tokens n i = some ((us.findIdx? Token.opensTune).map (i + ·), stop) ∧
      stop ≤ tokens.length := by
  induction us generalizing n i with
  | nil =>
    cases n with
    | zero => cases enough
    | succ n =>
      have none : tokens[i]? = none := List.getElem?_eq_none (List.drop_eq_nil_iff.mp ahead)
      exact ⟨i, by simp [findTune, none], inside⟩
  | cons t us ih =>
    cases n with
    | zero => cases enough
    | succ n =>
      have current : tokens[i]? = some t := by
        rw [← List.head?_drop, ahead, List.head?_cons]
      have later : tokens.drop (i + 1) = us := by
        rw [← List.tail_drop, ahead, List.tail_cons]
      rw [findTune, current, List.findIdx?_cons]
      cases opens : t.opensTune with
      | true => exact ⟨i, by simp [opens], inside⟩
      | false =>
        obtain ⟨stop, found, bound⟩ := ih later (List.getElem?_eq_some_iff.mp current).1
          (Nat.lt_of_succ_lt_succ enough)
        refine ⟨stop, ?_, bound⟩
        simp only [opens, Bool.false_eq_true, if_false, found, Option.map_map]
        congr 3
        funext k
        simp only [Function.comp_apply]
        omega

theorem Reads.nextTune (sees : Sees tokens i ts) : Reads tokens depth nextTune ts
    (((ts ++ beyond tokens).findIdx? Token.opensTune).map (i + ·)) ts [] := by
  refine look fun n j enough sees' => ?_
  obtain rfl : j = i := by
    have total := sees.add_length
    have total' := sees'.add_length
    omega
  refine findTune_eq sees.drop_eq sees.le_length ?_
  rw [← sees.drop_eq, List.length_drop]
  omega

/-- The tokens up to a place ahead, or up to the first end mark where that comes first. -/
theorem Reads.takeUntil (n : Nat) (sees : Sees tokens i ts) :
    Reads tokens depth (takeUntil (i + n)) ts (ts.take n) (ts.drop n) [] := by
  apply Turns.repeated
  generalize stop : i + n = last
  have goes {j : Nat} {us : List Token} (sees : Sees tokens j us) :
      Reads tokens depth (do return (← Descent.place) < last && (← Descent.peek) ≠ .eof) us
        (j < last && nextKind us ≠ .eof) us [] :=
    step (place sees) (step peek (pure _))
  induction ts generalizing i n with
  | nil =>
    rw [List.take_nil, List.drop_nil]
    have ended := goes sees
    simp only [nextKind_nil, ne_eq, not_true, decide_false, Bool.and_false] at ended
    exact .nil ended
  | cons t ts ih =>
    have more := goes sees
    have text : decide (t.kind ≠ .eof) = true := decide_eq_true (sees.ne_eof List.mem_cons_self)
    rw [nextKind_cons, text, Bool.and_true] at more
    cases n with
    | zero =>
      rw [decide_eq_false (by omega)] at more
      exact .nil more
    | succ n =>
      rw [decide_eq_true (by omega)] at more
      exact .cons more advance (by simp) (ih n sees.tail (by omega))

/-- A tune follows past the first end mark. -/
def tuneBeyond (tokens : List Token) : Bool :=
  (beyond tokens).any Token.opensTune

theorem take_eq_takeWhile {p : α → Bool} {us vs : List α}
    (found : (us ++ vs).findIdx? p = some n) :
    (us.takeWhile (!p ·), us.dropWhile (!p ·)) = (us.take n, us.drop n) := by
  induction us generalizing n with
  | nil => simp
  | cons a us ih =>
    rw [List.cons_append, List.findIdx?_cons] at found
    cases passes : p a with
    | true =>
      simp only [passes, if_true] at found
      cases found
      simp [passes]
    | false =>
      simp only [passes, Bool.false_eq_true, if_false] at found
      obtain ⟨n, later, rfl⟩ := Option.map_eq_some_iff.mp found
      obtain ⟨front, back⟩ := Prod.mk.inj (ih later)
      simp [passes, front, back]

theorem splitApart_of_some (found : (ts ++ beyond tokens).findIdx? Token.opensTune = some n) :
    Tune.splitApart (tuneBeyond tokens) ts = (ts.take n, ts.drop n) := by
  have opens : (tuneBeyond tokens || ts.any Token.opensTune) = true := by
    rw [Bool.or_comm, tuneBeyond, ← List.any_append, ← List.findIdx?_isSome, found]
    rfl
  rw [Tune.splitApart, if_pos opens]
  exact take_eq_takeWhile found

theorem splitApart_of_none (missing : (ts ++ beyond tokens).findIdx? Token.opensTune = none) :
    Tune.splitApart (tuneBeyond tokens) ts = Token.splitBlankLines ts := by
  have none : (tuneBeyond tokens || ts.any Token.opensTune) = false := by
    rw [Bool.or_comm, tuneBeyond, ← List.any_append, ← List.findIdx?_isSome, missing]
    rfl
  rw [Tune.splitApart, none]
  rfl

theorem Reads.lead (ts : List Token) : Reads tokens depth lead ts
    (Tune.splitApart (tuneBeyond tokens) ts).1 (Tune.splitApart (tuneBeyond tokens) ts).2 [] := by
  refine of_sees fun i sees => step (nextTune sees) ?_
  cases found : (ts ++ beyond tokens).findIdx? Token.opensTune with
  | some n =>
    rw [splitApart_of_some found]
    exact takeUntil n sees
  | none =>
    rw [splitApart_of_none found]
    exact blankLines ts

theorem Reads.trailing (ts : List Token) : Reads tokens depth trailing ts
    (Tune.splitApart (tuneBeyond tokens) ts).1 (Tune.splitApart (tuneBeyond tokens) ts).2 [] := by
  have whole := Token.splitBlankLines_append ts
  have plain : (Token.splitBlankLines ts).1.findIdx? Token.opensTune = none := by
    rw [List.findIdx?_eq_none_iff]
    exact fun t inside => Token.opensTune_of_mem_blankLines inside
  refine step (blankLines ts) (of_sees fun i sees => step (nextTune sees) ?_)
  -- the search behind the blank lines finds what one before them would
  have ahead : (ts ++ beyond tokens).findIdx? Token.opensTune =
      (((Token.splitBlankLines ts).2 ++ beyond tokens).findIdx? Token.opensTune).map
        (· + (Token.splitBlankLines ts).1.length) := by
    conv => lhs; rw [← whole]
    rw [List.append_assoc, List.findIdx?_append, plain, Option.none_or]
  cases found : ((Token.splitBlankLines ts).2 ++ beyond tokens).findIdx? Token.opensTune with
  | some n =>
    rw [found, Option.map_some] at ahead
    rw [splitApart_of_some ahead]
    generalize Token.splitBlankLines ts = parts at whole sees
    subst whole
    refine step (takeUntil n sees) ?_
    rw [Nat.add_comm, List.take_length_add_append, List.drop_length_add_append]
    exact pure _
  | none =>
    rw [found, Option.map_none] at ahead
    rw [splitApart_of_none ahead]
    exact pure _

end Ahead

section File

theorem head?_readHeader (opens : t.opensTune = true) (ts : List Token) :
    (Tune.readHeader true (t :: ts)).1.head? = some (.info (InfoLine.read t ts).1) := by
  simp only [Token.opensTune, Bool.and_eq_true, decide_eq_true_eq] at opens
  rw [Tune.readHeader, if_pos opens.1, if_neg (by simp)]
  dsimp only
  split <;> rfl

theorem Reads.warnMissingKey (own : Tune) (whole : own.header = (Tune.readHeader true ts).1) :
    Reads tokens depth (warnMissingKey (ts.head?.any Token.opensTune) (Tune.readHeader true ts).1)
      us () us (own.missingKey? ts).toList := by
  cases ts with
  | nil => exact pure ()
  | cons t ts =>
    rw [Descent.warnMissingKey, Tune.missingKey?, List.head?_cons, Option.any_some]
    have same : (⟨(Tune.readHeader true (t :: ts)).1, [], []⟩ : Tune).field? 'K' = own.field? 'K' := by
      rw [Tune.field?, Tune.field?, whole]
    rw [same]
    split
    next missing =>
      rw [Bool.and_eq_true] at missing
      rw [head?_readHeader missing.1]
      exact report _ t
    next => exact pure ()

theorem Reads.tune (ts : List Token) : Reads tokens 0 tune ts
    (Tune.read (tuneBeyond tokens) ts).value (Tune.read (tuneBeyond tokens) ts).rest
    (Tune.read (tuneBeyond tokens) ts).problems := by
  refine step atTune ?_
  refine step (header ts) ?_
  refine bind (warnMissingKey _ rfl) ?_
  refine last (body _) ?_
  exact step (trailing _) (pure _)

theorem Reads.wholeTune (t : Token) (ts : List Token) : Reads tokens 0 wholeTune (t :: ts)
    (Tune.read (tuneBeyond tokens) (t :: ts)).value (Tune.read (tuneBeyond tokens) (t :: ts)).rest
    (Tune.read (tuneBeyond tokens) (t :: ts)).problems := by
  have shorter := Tune.length_read_le (tuneBeyond tokens) t ts
  refine of_sees fun i sees => step (place sees) (last (tune (t :: ts)) ?_)
  refine of_sees fun j sees' => step (place sees') ?_
  -- so the recovery is not reached
  have moved : j ≠ i := by
    have start := sees.add_length
    have stop := sees'.add_length
    rw [List.length_cons] at start
    omega
  rw [if_neg moved]
  exact pure _

theorem Turns.tunes (ts : List Token) :
    Turns tokens 0 (follows fun k => k ≠ .eof) wholeTune ts
      (Tree.readTunes (tuneBeyond tokens) ts).1 [] (Tree.readTunes (tuneBeyond tokens) ts).2 := by
  fun_induction Tree.readTunes (tuneBeyond tokens) ts with
  | case1 => exact .nil (.follows rfl)
  | case2 t ts tune tail ih =>
    refine .cons ?_ (.wholeTune t ts) (Nat.lt_succ_of_le (Tune.length_read_le _ t ts)) ih
    exact .of_sees fun i sees => .follows (decide_eq_true (sees.ne_eof List.mem_cons_self))

theorem Reads.file (ts : List Token) : Reads tokens 0 file ts
    ⟨(Tune.splitApart (tuneBeyond tokens) ts).1,
      (Tree.readTunes (tuneBeyond tokens) (Tune.splitApart (tuneBeyond tokens) ts).2).1⟩ []
    (Tree.readTunes (tuneBeyond tokens) (Tune.splitApart (tuneBeyond tokens) ts).2).2 := by
  refine step (lead ts) ?_
  exact last (Turns.tunes _).repeated (pure _)

/-- What is put behind the tokens is nothing but end marks. -/
theorem closed_eq (tokens : List Token) :
    ∃ added, closed tokens = tokens ++ added ∧ ∀ t ∈ added, t.kind = .eof := by
  unfold closed
  split
  next empty =>
    rw [List.getLast?_eq_none_iff.mp empty]
    exact ⟨_, rfl, by simp⟩
  next =>
    split
    · exact ⟨[], (List.append_nil tokens).symm, by simp⟩
    · exact ⟨_, rfl, by simp⟩

theorem text_closed (tokens : List Token) :
    text (closed tokens) = tokens.takeWhile (·.kind ≠ .eof) := by
  obtain ⟨added, whole, marks⟩ := closed_eq tokens
  have none : added.takeWhile (·.kind ≠ .eof) = [] := by
    cases added with
    | nil => rfl
    | cons t added => simp [marks t List.mem_cons_self]
  rw [whole, text, List.takeWhile_append, none, List.append_nil]
  split
  next full => exact ((List.takeWhile_sublist _).eq_of_length full).symm
  next => rfl

theorem tuneBeyond_closed (tokens : List Token) :
    tuneBeyond (closed tokens) = (tokens.dropWhile (·.kind ≠ .eof)).any Token.opensTune := by
  obtain ⟨added, whole, marks⟩ := closed_eq tokens
  have plain : added.any Token.opensTune = false := by
    rw [List.any_eq_false]
    intro t inside
    simp [Token.opensTune, marks t inside]
  have kept : added.dropWhile (·.kind ≠ .eof) = added := by
    cases added with
    | nil => rfl
    | cons t added => simp [marks t List.mem_cons_self]
  rw [tuneBeyond, beyond, whole, List.dropWhile_append, kept]
  split
  next gone => rw [plain, List.isEmpty_iff.mp gone, List.any_nil]
  next => rw [List.any_append, plain, Bool.or_false]

/-- Every turn of a loop takes a token and none past the first end mark, every search stops by the
end of the tokens, and no tune has a token dropped behind it, so the descent ends. It gives the tree
of the tokens and what is wrong with it, under any limit above the number of tokens: the program
needs none. -/
theorem parse_progress (tokens : List Token) (enough : (closed tokens).length < limit) :
    ∃ c, parse limit tokens = some ((Tree.ofTokens tokens).1, c) ∧
      c.problems = (Tree.ofTokens tokens).2 ∧ c.index = endMark (closed tokens) ∧
      ∀ e ∈ c.events, e.Sound (closed tokens) := by
  have start : Sees (closed tokens) 0 (text (closed tokens)) := ⟨[], rfl, rfl⟩
  obtain ⟨j, events, run, sees, sound⟩ := Reads.file _ limit 0 [] [] enough start
  rw [text_closed, tuneBeyond_closed, List.nil_append, List.nil_append] at run
  exact ⟨_, run, rfl, sees.add_length, sound⟩

/-- A note, an end mark where none should be, and a key that nothing closes. -/
theorem parse_progress_past_end_mark :
    let tokens : List Token :=
      [⟨.noteLetter, ['A'], ⟨0, 0⟩, ⟨0, 1⟩⟩, ⟨.eof, [], ⟨0, 1⟩, ⟨1, 1⟩⟩,
        ⟨.infoKey, ['X', ':'], ⟨0, 1⟩, ⟨1, 3⟩⟩]
    (closed tokens).length < 5 ∧
      ∃ c, parse 5 tokens = some ((Tree.ofTokens tokens).1, c) ∧
        c.problems = (Tree.ofTokens tokens).2 ∧ c.index = endMark (closed tokens) ∧
        ∀ e ∈ c.events, e.Sound (closed tokens) := by
  intro tokens
  have enough : (closed tokens).length < 5 := by decide
  exact ⟨enough, parse_progress tokens enough⟩

end File
end Descent
end Tunebook
