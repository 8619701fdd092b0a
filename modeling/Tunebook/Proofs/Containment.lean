import Tunebook.Document
import Tunebook.Proofs.Openings
import Tunebook.Proofs.Relabelling.Tune
import Tunebook.Proofs.Scan.Placement

/-! Errors stay in their tune. What stands before an `X:` line, however malformed, changes nothing
in the tunes from there on but where they lie: the tree and the problems of the longer text end
with those of the shorter, moved. -/
namespace Tunebook

theorem Token.relabels_move (lines bytes : Nat) : Relabels (move lines bytes) :=
  ⟨fun _ => rfl, fun _ => rfl⟩

theorem Token.Relabels.lexicalProblems {f : Token → Token} (hf : Relabels f) (ts : List Token) :
    lexicalProblems (ts.map f) = (lexicalProblems ts).map (Problem.map f) := by
  have closed (c : Char) (t : Token) : (f t).isClosed c = t.isClosed c := by
    simp only [Token.isClosed, hf.lexeme]
  have fault (t : Token) : (f t).lexicalFault? = t.lexicalFault? := by
    simp only [lexicalFault?, hf.kind, closed]
  simp only [Tunebook.lexicalProblems, List.filterMap_map, List.map_filterMap]
  congr 1
  funext t
  simp only [Function.comp_def, fault, Option.map_map]
  rfl

theorem lexicalProblems_append (ts us : List Token) :
    lexicalProblems (ts ++ us) = lexicalProblems ts ++ lexicalProblems us :=
  List.filterMap_append

theorem mem_of_mem_lexicalProblems (h : p ∈ lexicalProblems ts) : p.token ∈ ts := by
  obtain ⟨t, member, found⟩ := List.mem_filterMap.mp h
  obtain ⟨fault, _, rfl⟩ := Option.map_eq_some_iff.mp found
  exact member

/-- Up to an opening key the tree owns the tokens before it, and from there on it is the tree of
the tokens from there on. -/
theorem Tree.ofTokens_append (hx : x.opensTune = true) {ts : List Token}
    (text : ∀ t ∈ ts, t.kind ≠ .eof) (us : List Token) :
    ∃ header tunes problems,
      ofTokens (ts ++ x :: us) =
        (⟨header, tunes ++ (ofTokens (x :: us)).1.tunes⟩,
          problems ++ (ofTokens (x :: us)).2) ∧
      header ++ tunes.flatMap Tune.tokens = ts ∧ ∀ p ∈ problems, p.token ∈ ts := by
  have key : (decide (x.kind ≠ .eof)) = true := by
    rw [decide_eq_true_eq]
    intro eof
    simp [Token.opensTune, eof] at hx
  have passes : ∀ t ∈ ts, (decide (t.kind ≠ .eof)) = true := by simpa using text
  obtain ⟨tunes, problems, read, owned, found⟩ :=
    readTunes_append ((us.dropWhile (·.kind ≠ .eof)).any Token.opensTune) hx
      (ts.dropWhile (!·.opensTune)) (us.takeWhile (·.kind ≠ .eof))
  refine ⟨ts.takeWhile (!·.opensTune), tunes, problems, ?_, ?_, ?_⟩
  · have alone (beyond : Bool) (us : List Token) :
        Tune.splitApart beyond (x :: us) = ([], x :: us) := by
      simpa using Tune.splitApart_opening beyond hx [] us
    have front : (x :: us).takeWhile (·.kind ≠ .eof) = x :: us.takeWhile (·.kind ≠ .eof) :=
      List.takeWhile_cons_of_pos key
    have back : (x :: us).dropWhile (·.kind ≠ .eof) = us.dropWhile (·.kind ≠ .eof) :=
      List.dropWhile_cons_of_pos key
    simp only [ofTokens, List.takeWhile_append_of_pos passes, List.dropWhile_append_of_pos passes,
      front, back, Tune.splitApart_opening _ hx, alone, read]
  · rw [owned, List.takeWhile_append_dropWhile]
  · intro p hp
    exact (List.dropWhile_sublist _).subset (found p hp)

theorem scan_opening (t : Text) : ∃ x us, scan ('X' :: ':' :: t) = x :: us ∧ x.opensTune = true := by
  obtain ⟨line, rest, cut⟩ : ∃ line rest,
      Text.lines ('X' :: ':' :: t) = ('X' :: ':' :: line) :: rest := by
    cases found : Text.lines t with
    | nil => exact ⟨[], [], by simp [Text.lines, found]⟩
    | cons line rest => exact ⟨line, rest, by simp [Text.lines, found]⟩
  have key : Scan.startsField 'X' = true := by decide
  rw [scan, Scan.pieces, cut, List.flatMap_cons, Scan.line, if_pos key, Scan.infoLine]
  simp only [List.cons_append, Scan.place]
  exact ⟨_, _, rfl, rfl⟩

/-- What is found ahead of a byte and what is found from it on, told apart by where it starts. -/
theorem filter_found (bytes : Nat) {earlier later : List Problem}
    (before : ∀ p ∈ earlier, p.token.span.start < bytes)
    (after : ∀ p ∈ later, bytes ≤ p.token.span.start) :
    (earlier ++ later).filter (bytes ≤ ·.token.span.start) = later := by
  have none : earlier.filter (bytes ≤ ·.token.span.start) = [] := by
    refine List.filter_eq_nil_iff.mpr fun p hp => ?_
    have := before p hp
    simp only [decide_eq_true_eq]
    omega
  have all : later.filter (bytes ≤ ·.token.span.start) = later := by
    refine List.filter_eq_self.mpr fun p hp => ?_
    simpa using after p hp
  rw [List.filter_append, none, all, List.nil_append]

namespace Document

/-- Whole lines ahead of an `X:` line, whatever they hold, leave the tunes from that line on as they
are. The tunes before and the header own the tokens of those lines, and the problems found from the
`X:` line on are the ones of the text from there on. -/
theorem errors_contained (source : String) (s t : Text)
    (whole : s = [] ∨ s.getLast? = some '\n') :
    let both := analyze source (s ++ 'X' :: ':' :: t)
    let own := analyze source ('X' :: ':' :: t)
    let move := Token.move s.lines.length s.bytes
    ∃ earlier,
      both.tree.tunes = earlier ++ own.tree.tunes.map (Tune.map move) ∧
      both.tree.header ++ earlier.flatMap Tune.tokens = textTokens s ∧
      both.problems.filter (s.bytes ≤ ·.token.span.start) =
        own.problems.map (Problem.map move) := by
  intro both own move
  have hmove : Token.Relabels move := Token.relabels_move _ _
  obtain ⟨x, us, hown, hx⟩ := scan_opening t
  have hboth : scan (s ++ 'X' :: ':' :: t) = textTokens s ++ move x :: us.map move := by
    rw [scan_append whole, hown]
    rfl
  have text : ∀ u ∈ textTokens s, u.kind ≠ .eof := fun _ member => kind_of_mem_textTokens member
  obtain ⟨header, tunes, earlier, tree, owned, found⟩ :=
    Tree.ofTokens_append ((hmove.opensTune x).trans hx) text (us.map move)
  rw [← List.map_cons, hmove.ofTokens, ← hown] at tree
  rw [← List.map_cons, ← hown] at hboth
  have before : ∀ u ∈ textTokens s, u.span.start < s.bytes := by
    intro u member
    have place := (Scan.span_of_mem_placed (fun _ h => Scan.isProper_of_mem_pieces h) member).2
    rwa [Scan.join_pieces, Nat.zero_add] at place
  have after (ps : List Problem) : ∀ p ∈ ps.map (Problem.map move), s.bytes ≤ p.token.span.start := by
    intro p member
    obtain ⟨q, _, rfl⟩ := List.mem_map.mp member
    exact Nat.le_add_left _ _
  have hlexical : both.lexical.filter (s.bytes ≤ ·.token.span.start) =
      own.lexical.map (Problem.map move) := by
    have cut : both.lexical =
        lexicalProblems (textTokens s) ++ own.lexical.map (Problem.map move) := by
      show lexicalProblems (scan _) = _
      rw [hboth, lexicalProblems_append, hmove.lexicalProblems]
      rfl
    rw [cut]
    exact filter_found _ (fun p hp => before _ (mem_of_mem_lexicalProblems hp)) (after _)
  have hgrammatical : both.grammatical.filter (s.bytes ≤ ·.token.span.start) =
      own.grammatical.map (Problem.map move) := by
    have cut : both.grammatical = earlier ++ own.grammatical.map (Problem.map move) := by
      show (Tree.ofTokens (scan _)).2 = _
      rw [hboth, tree]
      rfl
    rw [cut]
    exact filter_found _ (fun p hp => before _ (found p hp)) (after _)
  have htree : both.tree = ⟨header, tunes ++ own.tree.tunes.map (Tune.map move)⟩ := by
    show (Tree.ofTokens (scan _)).1 = _
    rw [hboth, tree]
    rfl
  refine ⟨tunes, ?_, ?_, ?_⟩
  · rw [htree]
  · rw [htree, owned]
  · rw [problems, problems, List.filter_append, hlexical, hgrammatical, List.map_append]

/-- A chord left open in the line before the `X:` line. -/
theorem errors_contained_bracket :
    let s : Text := ['[', 'c', '\n']
    let t : Text := ['1', '\n', 'K', ':', 'C', '\n', 'c', ')', '2', '\n']
    (s = [] ∨ s.getLast? = some '\n') ∧
      ∃ earlier,
        (analyze "abc" (s ++ 'X' :: ':' :: t)).tree.tunes =
          earlier ++ (analyze "abc" ('X' :: ':' :: t)).tree.tunes.map (Tune.map (Token.move 1 3)) ∧
        (analyze "abc" (s ++ 'X' :: ':' :: t)).tree.header ++ earlier.flatMap Tune.tokens =
          textTokens s ∧
        (analyze "abc" (s ++ 'X' :: ':' :: t)).problems.filter (3 ≤ ·.token.span.start) =
          (analyze "abc" ('X' :: ':' :: t)).problems.map (Problem.map (Token.move 1 3)) :=
  ⟨.inr rfl, errors_contained "abc" _ _ (.inr rfl)⟩

end Document
end Tunebook
