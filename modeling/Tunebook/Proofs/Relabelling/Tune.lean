import Tunebook.Proofs.Relabelling.Grammar

/-! Lines, tunes and whole texts of tokens with the same kinds and texts are read alike. -/
namespace Tunebook

variable {f : Token → Token}

namespace Token.Relabels

variable (hf : Token.Relabels f)
include hf

theorem readInfoLine (key : Token) (ts : List Token) :
    InfoLine.read (f key) (ts.map f) =
      ((InfoLine.read key ts).1.map f, (InfoLine.read key ts).2.map f) := by
  simp only [InfoLine.read, hf.takeWhile_kind InfoLine.isValue, hf.dropWhile_kind InfoLine.isValue,
    hf.accept, InfoLine.map]

theorem code (l : InfoLine) : (l.map f).code = l.code := by
  simp only [InfoLine.code, InfoLine.map, Token.fieldCode, hf.lexeme]

theorem readCommentLine (comment : Token) (ts : List Token) :
    CommentLine.read (f comment) (ts.map f) =
      ((CommentLine.read comment ts).1.map f, (CommentLine.read comment ts).2.map f) := by
  simp only [CommentLine.read, hf.accept, CommentLine.map]

theorem readMusicLine (ts : List Token) :
    MusicLine.read (ts.map f) = (MusicLine.read ts).map f (MusicLine.map f) := by
  simp only [MusicLine.read, hf.takeWhile_kind (!MusicLine.isBoundary ·),
    hf.dropWhile_kind (!MusicLine.isBoundary ·), hf.readAll, hf.accept, Reading.map, MusicLine.map]

theorem readBodyLine (t : Token) (ts : List Token) :
    BodyLine.read (f t) (ts.map f) = (BodyLine.read t ts).map f (BodyLine.map f) := by
  simp only [BodyLine.read, hf.kind, hf.readInfoLine, hf.readCommentLine]
  split
  · rfl
  · split
    · rfl
    · have line := hf.readMusicLine (t :: ts)
      rw [List.map_cons] at line
      rw [line]
      rfl

theorem takeWhile_isSpace (ts : List Token) :
    (ts.map f).takeWhile Token.isSpace = (ts.takeWhile Token.isSpace).map f :=
  hf.takeWhile_kind (· = .whitespace) ts

theorem dropWhile_isSpace (ts : List Token) :
    (ts.map f).dropWhile Token.isSpace = (ts.dropWhile Token.isSpace).map f :=
  hf.dropWhile_kind (· = .whitespace) ts

theorem startsBlankLine (ts : List Token) :
    Token.startsBlankLine (ts.map f) = Token.startsBlankLine ts := by
  simp only [Token.startsBlankLine, hf.dropWhile_isSpace]
  cases ts.dropWhile Token.isSpace with
  | nil => rfl
  | cons t rest => simp only [List.map_cons, hf.kind]

theorem splitBlankLines (ts : List Token) :
    Token.splitBlankLines (ts.map f) =
      ((Token.splitBlankLines ts).1.map f, (Token.splitBlankLines ts).2.map f) := by
  fun_induction Token.splitBlankLines ts with
  | case1 ts none =>
    have dropped : (ts.map f).dropWhile Token.isSpace = [] := by
      rw [hf.dropWhile_isSpace, none, List.map_nil]
    exact Token.splitBlankLines_of_nil dropped
  | case2 ts t rest first hk lines rest' tail ih =>
    rw [tail] at ih
    have dropped : (ts.map f).dropWhile Token.isSpace = f t :: rest.map f := by
      rw [hf.dropWhile_isSpace, first, List.map_cons]
    rw [Token.splitBlankLines_of_eol dropped (hf.kind t ▸ hk), ih, hf.takeWhile_isSpace]
    simp only [List.map_append, List.map_cons]
  | case3 ts t rest first hk =>
    have dropped : (ts.map f).dropWhile Token.isSpace = f t :: rest.map f := by
      rw [hf.dropWhile_isSpace, first, List.map_cons]
    exact Token.splitBlankLines_of_visible dropped (hf.kind t ▸ hk)

theorem readBody (atLineStart : Bool) (ts : List Token) :
    Tune.readBody atLineStart (ts.map f) =
      (Tune.readBody atLineStart ts).map f (List.map (BodyLine.map f)) := by
  have eol (l : BodyLine) : (l.map f).eol.isSome = l.eol.isSome := by
    cases l <;> exact Option.isSome_map
  fun_induction Tune.readBody atLineStart ts with
  | case1 => simp [Tune.readBody, Reading.map]
  | case2 atLineStart t ts stops =>
    rw [List.map_cons, Tune.readBody, hf.opensTune, ← List.map_cons, hf.startsBlankLine, if_pos stops]
    rfl
  | case3 atLineStart t ts stops line tail ih =>
    rw [List.map_cons, Tune.readBody, hf.opensTune, ← List.map_cons, hf.startsBlankLine, if_neg stops]
    simp only [hf.readBodyLine, Reading.map, eol]
    simp only [Reading.map] at ih
    simp only [line, tail, ih, List.map_cons, List.map_append]

theorem readHeader (isFirst : Bool) (ts : List Token) :
    Tune.readHeader isFirst (ts.map f) =
      ((Tune.readHeader isFirst ts).1.map (HeaderLine.map f),
        (Tune.readHeader isFirst ts).2.map f) := by
  fun_induction Tune.readHeader isFirst ts with
  | case1 => simp [Tune.readHeader]
  | case2 isFirst t ts hk hx =>
    simp only [List.map_cons, Tune.readHeader, hf.kind, hf.opensTune, hk, hx, if_true, List.map_nil]
  | case3 isFirst t ts hk hx line hc =>
    simp only [List.map_cons, Tune.readHeader, hf.kind, hf.opensTune, hk, hx, if_true,
      hf.readInfoLine, hf.code]
    rw [if_pos hc]
    rfl
  | case4 isFirst t ts hk hx line hc tail ih =>
    simp only [List.map_cons, Tune.readHeader, hf.kind, hf.opensTune, hk, hx, if_true,
      hf.readInfoLine, hf.code]
    rw [if_neg hc, ih]
    rfl
  | case5 isFirst t ts hk hc line tail ih =>
    simp only [List.map_cons, Tune.readHeader, hf.kind, hk, hc, if_true, if_false,
      hf.readCommentLine]
    rw [ih]
    rfl
  | case6 isFirst t ts hk hc =>
    simp only [List.map_cons, Tune.readHeader, hf.kind, hk, hc, if_false, List.map_nil]
    rfl

theorem splitApart (beyond : Bool) (ts : List Token) :
    Tune.splitApart beyond (ts.map f) =
      ((Tune.splitApart beyond ts).1.map f, (Tune.splitApart beyond ts).2.map f) := by
  have opens : (ts.map f).any Token.opensTune = ts.any Token.opensTune := by
    simp only [List.any_map, Function.comp_def, hf.opensTune]
  simp only [Tune.splitApart, opens]
  split
  · simp only [List.takeWhile_map, List.dropWhile_map, Function.comp_def, hf.opensTune]
  · exact hf.splitBlankLines ts

theorem field? (tune : Tune) (c : Char) :
    ((tune.map f).field? c).isNone = (tune.field? c).isNone := by
  have found (lines : List HeaderLine) :
      (((lines.map (HeaderLine.map f)).filterMap HeaderLine.info?).find? (·.code = c)).isNone =
        ((lines.filterMap HeaderLine.info?).find? (·.code = c)).isNone := by
    induction lines with
    | nil => rfl
    | cons line lines ih =>
      cases line with
      | info l =>
        simp only [List.map_cons, HeaderLine.map, HeaderLine.info?, List.filterMap_cons,
          List.find?_cons, hf.code]
        split
        · rfl
        · exact ih
      | comment l => exact ih
  exact found tune.header

theorem missingKey? (tune : Tune) (ts : List Token) :
    (tune.map f).missingKey? (ts.map f) = (tune.missingKey? ts).map (Problem.map f) := by
  cases ts with
  | nil => rfl
  | cons t ts =>
    simp only [Tune.missingKey?, List.map_cons, hf.opensTune, hf.field?]
    split <;> rfl

theorem readTune (beyond : Bool) (ts : List Token) :
    Tune.read beyond (ts.map f) = (Tune.read beyond ts).map f (Tune.map f) := by
  have missing := hf.missingKey? (Tune.read beyond ts).value ts
  simp only [Tune.read, Tune.map] at missing
  simp only [Tune.read, hf.readHeader, hf.readBody, hf.splitApart, Reading.map, missing, Tune.map,
    List.map_append, Option.toList_map]

theorem readTunes (beyond : Bool) (ts : List Token) :
    Tree.readTunes beyond (ts.map f) =
      ((Tree.readTunes beyond ts).1.map (Tune.map f),
        (Tree.readTunes beyond ts).2.map (Problem.map f)) := by
  fun_induction Tree.readTunes beyond ts with
  | case1 => simp [Tree.readTunes]
  | case2 t ts tune tail ih =>
    have mapped := hf.readTune beyond (t :: ts)
    rw [List.map_cons] at mapped
    rw [List.map_cons, Tree.readTunes, mapped]
    simp only [Reading.map, List.map_cons, List.map_append]
    rw [ih]

/-- Tokens with the same kinds and texts give the same tree and the same problems, up to the tokens
themselves. -/
theorem ofTokens (ts : List Token) :
    Tree.ofTokens (ts.map f) =
      ((Tree.ofTokens ts).1.map f, (Tree.ofTokens ts).2.map (Problem.map f)) := by
  have beyond : ((ts.map f).dropWhile (·.kind ≠ .eof)).any Token.opensTune =
      (ts.dropWhile (·.kind ≠ .eof)).any Token.opensTune := by
    rw [hf.dropWhile_kind (· ≠ .eof)]
    simp only [List.any_map, Function.comp_def, hf.opensTune]
  simp only [Tree.ofTokens, beyond, hf.takeWhile_kind (· ≠ .eof), hf.splitApart, hf.readTunes,
    Tree.map]

end Token.Relabels
end Tunebook
