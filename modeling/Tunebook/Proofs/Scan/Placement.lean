import Tunebook.Proofs.Scan.Pieces

/-! Where the pieces of a text are placed. The tokens of a text that goes on after another are its
own tokens moved, and the end mark comes after all of them. -/
namespace Tunebook

theorem Text.lines_ne_nil {t : Text} (h : t ≠ []) : lines t ≠ [] := by
  intro none
  have whole := flatten_lines t
  rw [none] at whole
  exact h whole.symm

theorem Text.length_lines_cons (c : Char) {cs : Text} (h : cs ≠ []) :
    (lines (c :: cs)).length = (if c = '\n' then 1 else 0) + (lines cs).length := by
  rw [lines]
  split
  · rw [List.length_cons, Nat.add_comm]
  · split
    next none => exact absurd none (lines_ne_nil h)
    next line rest found => simp [found]

theorem Text.lines_append {s : Text} (h : s = [] ∨ s.getLast? = some '\n') (t : Text) :
    lines (s ++ t) = lines s ++ lines t := by
  induction s with
  | nil => rfl
  | cons c cs ih =>
    by_cases feed : c = '\n'
    · have rest : cs = [] ∨ cs.getLast? = some '\n' := by
        cases cs with
        | nil => exact .inl rfl
        | cons d ds => simpa [List.getLast?_cons_cons] using h
      simp [lines, feed, ih rest]
    · have nonempty : cs ≠ [] := by
        rintro rfl
        simp [feed] at h
      obtain ⟨d, ds, rfl⟩ := List.exists_cons_of_ne_nil nonempty
      have rest : d :: ds = [] ∨ (d :: ds).getLast? = some '\n' := by
        simpa [List.getLast?_cons_cons] using h
      obtain ⟨line, others, found⟩ := List.exists_cons_of_ne_nil (lines_ne_nil nonempty)
      simp only [List.cons_append, lines.eq_2 c, feed, if_false]
      rw [← List.cons_append, ih rest, found]
      rfl

theorem Text.lines_content {content : Text} (h : '\n' ∉ content) (nonempty : content ≠ []) :
    lines content = [content] := by
  induction content with
  | nil => contradiction
  | cons c cs ih =>
    rw [List.mem_cons, not_or] at h
    rw [lines, if_neg (Ne.symm h.1)]
    cases cs with
    | nil => rfl
    | cons d ds => rw [ih h.2 (List.cons_ne_nil d ds)]

theorem Text.lines_line {content : Text} (h : '\n' ∉ content) :
    lines (content ++ ['\n']) = [content ++ ['\n']] := by
  induction content with
  | nil => rfl
  | cons c cs ih =>
    rw [List.mem_cons, not_or] at h
    rw [List.cons_append, lines, if_neg (Ne.symm h.1), ih h.2]

theorem Text.lines_cons {content : Text} (absent : '\n' ∉ content) (rest : Text) :
    lines (content ++ '\n' :: rest) = (content ++ ['\n']) :: lines rest := by
  rw [List.append_cons, lines_append (.inr (by simp)), lines_line absent]
  rfl

/-- A text is one line without a line feed, or a line with one and another text. -/
theorem Text.line_induct {motive : Text → Prop} (last : ∀ content, '\n' ∉ content → motive content)
    (more : ∀ content rest, '\n' ∉ content → motive rest → motive (content ++ '\n' :: rest))
    (text : Text) : motive text := by
  induction size : text.length using Nat.strong_induction_on generalizing text with
  | _ n ih =>
    by_cases feed : '\n' ∈ text
    · obtain ⟨content, rest, rfl, absent⟩ := List.eq_append_cons_of_mem feed
      refine more content rest absent (ih rest.length ?_ rest rfl)
      rw [← size]
      simp
      omega
    · exact last text feed

namespace Position

/-- The same column some lines further down. -/
def down (lines : Nat) (p : Position) : Position :=
  ⟨p.line + lines, p.column⟩

theorem next_down (n : Nat) (p : Position) (c : Char) :
    (p.down n).next c = (p.next c).down n := by
  unfold next
  split
  · simp only [down, Nat.add_right_comm]
  · rfl

theorem after_down (n : Nat) (p : Position) (t : Text) :
    (p.down n).after t = (p.after t).down n := by
  induction t generalizing p with
  | nil => rfl
  | cons c cs ih => rw [after_cons, after_cons, next_down, ih]

/-- Whole lines lead to the start of the line after them. -/
theorem after_lines (n : Nat) {t : Text} (h : t = [] ∨ t.getLast? = some '\n') :
    (⟨n, 0⟩ : Position).after t = ⟨n + t.lines.length, 0⟩ := by
  suffices general : ∀ (t : Text) (p : Position), t.getLast? = some '\n' →
      p.after t = ⟨p.line + t.lines.length, 0⟩ by
    rcases h with rfl | h
    · rfl
    · exact general t ⟨n, 0⟩ h
  intro t
  induction t with
  | nil => simp
  | cons c cs ih =>
    intro p h
    cases cs with
    | nil =>
      obtain rfl : c = '\n' := by simpa using h
      simp [next, Text.lines]
    | cons d cs =>
      rw [List.getLast?_cons_cons] at h
      rw [after_cons, ih _ h, Text.length_lines_cons c (List.cons_ne_nil d cs), next]
      split <;> simp [Nat.add_assoc]

end Position

/-- The token as it stands some lines and bytes further down. -/
def Token.move (lines bytes : Nat) (t : Token) : Token :=
  { t with
    start := t.start.down lines
    span := ⟨t.span.start + bytes, t.span.stop + bytes⟩ }

namespace Scan

/-- The tokens of the pieces, without an end mark. -/
def placed (start : Position) (offset : Nat) : List Piece → List Token
  | [] => []
  | p :: ps =>
    ⟨p.kind, p.text, start, ⟨offset, offset + p.text.bytes⟩⟩ ::
      placed (start.after p.text) (offset + p.text.bytes) ps

theorem place_append (start : Position) (offset : Nat) (ps qs : List Piece) :
    place start offset (ps ++ qs) =
      placed start offset ps ++
        place (start.after (Piece.join ps)) (offset + (Piece.join ps).bytes) qs := by
  induction ps generalizing start offset with
  | nil => rfl
  | cons p ps ih => simp [place, placed, ih, Nat.add_assoc]

theorem placed_append (start : Position) (offset : Nat) (ps qs : List Piece) :
    placed start offset (ps ++ qs) = placed start offset ps ++
      placed (start.after (Piece.join ps)) (offset + (Piece.join ps).bytes) qs := by
  induction ps generalizing start offset with
  | nil => rfl
  | cons p ps ih => simp [placed, ih, Nat.add_assoc]

theorem join_placed (start : Position) (offset : Nat) (ps : List Piece) :
    Token.join (placed start offset ps) = Piece.join ps := by
  induction ps generalizing start offset with
  | nil => rfl
  | cons p ps ih => simp [placed, ih]

/-- The end mark ends the tokens, and nothing else does. -/
theorem takeWhile_place (start : Position) (offset : Nat) (proper : ∀ p ∈ ps, IsProper p) :
    (place start offset ps).takeWhile (·.kind ≠ .eof) = placed start offset ps := by
  induction ps generalizing start offset with
  | nil => simp [place, placed]
  | cons p ps ih =>
    have text := (proper p List.mem_cons_self).2
    have tail := ih (start.after p.text) (offset + p.text.bytes)
      (fun q member => proper q (List.mem_cons_of_mem p member))
    simpa [place, placed, text] using tail

theorem dropWhile_place (start : Position) (offset : Nat) (proper : ∀ p ∈ ps, IsProper p) :
    ((place start offset ps).dropWhile (·.kind ≠ .eof)).any Token.opensTune = false := by
  induction ps generalizing start offset with
  | nil => simp [place, Token.opensTune]
  | cons p ps ih =>
    have text := (proper p List.mem_cons_self).2
    have tail := ih (start.after p.text) (offset + p.text.bytes)
      (fun q member => proper q (List.mem_cons_of_mem p member))
    simpa [place, text] using tail

theorem bytes_pos (h : t ≠ []) : 0 < Text.bytes t := by
  cases t with
  | nil => contradiction
  | cons c cs => exact Nat.add_pos_left c.utf8Size_pos _

/-- Every token starts in the text that was cut into the pieces. -/
theorem span_of_mem_placed (proper : ∀ p ∈ ps, IsProper p) (h : t ∈ placed start offset ps) :
    offset ≤ t.span.start ∧ t.span.start < offset + (Piece.join ps).bytes := by
  induction ps generalizing start offset with
  | nil => contradiction
  | cons p ps ih =>
    have nonempty := bytes_pos (proper p List.mem_cons_self).1
    simp only [Piece.join_cons, Text.bytes_append]
    rcases List.mem_cons.mp h with rfl | h
    · dsimp only
      omega
    · have := ih (fun q member => proper q (List.mem_cons_of_mem p member)) h
      omega

theorem place_down (lines bytes : Nat) (start : Position) (offset : Nat) (ps : List Piece) :
    place (start.down lines) (offset + bytes) ps =
      (place start offset ps).map (Token.move lines bytes) := by
  induction ps generalizing start offset with
  | nil => rfl
  | cons p ps ih =>
    have shifted : offset + bytes + p.text.bytes = offset + p.text.bytes + bytes := by omega
    simp [place, Token.move, ← ih, Position.after_down, shifted]

end Scan

/-- The tokens of a text, without the end mark. -/
def textTokens (text : Text) : List Token :=
  Scan.placed ⟨0, 0⟩ 0 (Scan.pieces text)

theorem takeWhile_scan (text : Text) :
    (scan text).takeWhile (·.kind ≠ .eof) = textTokens text :=
  Scan.takeWhile_place _ _ fun _ member => Scan.isProper_of_mem_pieces member

theorem kind_of_mem_textTokens (h : t ∈ textTokens text) : t.kind ≠ .eof := by
  rw [← takeWhile_scan] at h
  simpa using List.all_eq_true.mp List.all_takeWhile t h

/-- The tokens of a text that goes on after whole lines are those of the lines, and then its own
tokens moved. -/
theorem scan_append {s : Text} (h : s = [] ∨ s.getLast? = some '\n') (t : Text) :
    scan (s ++ t) =
      textTokens s ++ (scan t).map (Token.move s.lines.length s.bytes) := by
  have start : (⟨0, 0⟩ : Position).after s = (⟨0, 0⟩ : Position).down s.lines.length := by
    rw [Position.after_lines 0 h, Position.down, Nat.zero_add]
  have cut : Scan.pieces (s ++ t) = Scan.pieces s ++ Scan.pieces t := by
    rw [Scan.pieces, Text.lines_append h, List.flatMap_append]
    rfl
  rw [scan, cut, Scan.place_append, Scan.join_pieces, start, Scan.place_down]
  rfl

theorem join_textTokens (text : Text) : Token.join (textTokens text) = text :=
  (Scan.join_placed _ _ _).trans (Scan.join_pieces text)

end Tunebook
