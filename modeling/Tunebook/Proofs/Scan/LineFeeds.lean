import Tunebook.Proofs.Scan.Recognition
import Tunebook.Proofs.Scan.Tiling

/-! Where line feeds are: in tokens that end a line or say that it goes on, and in no others. -/
namespace Tunebook

/-- The kinds whose tokens hold a line feed. -/
def Kind.breaksLine (k : Kind) : Bool :=
  k matches .eol | .antislashEol

theorem mem_dropTrailing (h : a ∈ dropTrailing p as) : a ∈ as :=
  (dropTrailing_isPrefix p as).subset h

/-- The content of a line ends before its line feed. -/
theorem Text.not_mem_lineContent {line : Text} (h : '\n' ∉ line.dropLast) :
    '\n' ∉ lineContent line := by
  induction line with
  | nil => simp [lineContent, dropTrailing]
  | cons c cs ih =>
    cases cs with
    | nil =>
      intro feed
      have last := mem_dropTrailing feed
      rw [List.mem_singleton] at last
      subst last
      cases feed
    | cons d cs =>
      rw [List.dropLast_cons_of_ne_nil (List.cons_ne_nil d cs), List.mem_cons, not_or] at h
      have inner := ih h.2
      rw [lineContent, dropTrailing]
      split
      · split
        · exact List.not_mem_nil
        · rw [List.mem_singleton]
          exact h.1
      · rw [List.mem_cons, not_or]
        exact ⟨h.1, inner⟩

namespace Rule
open Pattern

theorem avoids_of_not_breaksLine (h : rule ∈ music) (line : rule.kind.breaksLine = false)
    (hc : Text.isLineBreak c = true) : rule.pattern.avoids c = true := by
  have every : music.all (fun rule => rule.kind.breaksLine ||
      (rule.pattern.avoids '\n' && rule.pattern.avoids '\r')) = true := by decide
  have row := List.all_eq_true.mp every rule h
  rw [line, Bool.false_or, Bool.and_eq_true] at row
  simp only [Text.isLineBreak, Bool.or_eq_true, decide_eq_true_eq] at hc
  rcases hc with rfl | rfl
  · exact row.1
  · exact row.2

/-- A line feed is always recognised. -/
theorem recognise_feed (us : Text) : ∃ kind n, recognise music ('\n' :: us) = .token kind (n + 1) := by
  have feed : Matches lineFeed ['\n'] :=
    .seq (s := []) (.right .empty) (.char rfl)
  have rule : (⟨.eol, lineFeed⟩ : Rule) ∈ music := by simp [music]
  have front : ['\n'] <+: '\n' :: us := ⟨us, rfl⟩
  obtain ⟨m, own, one⟩ := longest_of_matches feed front
  obtain ⟨kind, n, wins, most⟩ := exists_le_longest rule own
  have positive : n = n - 1 + 1 := by
    rw [List.length_singleton] at one
    omega
  exact ⟨kind, n - 1, recognise_eq_token_iff.mpr (positive ▸ wins)⟩

theorem recognise_ne_invalid (us : Text) (n : Nat) : recognise music us ≠ .token .invalid n := by
  intro recognised
  obtain ⟨rule, member, same, _⟩ := exists_of_longest (recognise_eq_token_iff.mp recognised)
  have every : music.all (·.kind ≠ .invalid) = true := by decide
  exact absurd same (by simpa using List.all_eq_true.mp every rule member)

end Rule

namespace Scan

/-- What no rule matches is a character that the recogniser refused. -/
theorem invalid_of_mem_music (refuses : ∀ us n, recognise us ≠ .token .invalid n)
    (h : p ∈ music recognise cs) (invalid : p.kind = .invalid) :
    ∃ c us, p.text = [c] ∧ ∀ kind n, recognise (c :: us) ≠ .token kind (n + 1) := by
  fun_induction music recognise cs with
  | case1 => cases h
  | case2 c cs kind n found ih =>
    rcases List.mem_cons.mp h with rfl | h
    · cases invalid
      exact absurd found (refuses _ _)
    · exact ih h
  | case3 c cs kind found ih | case4 c cs width found ih =>
    rcases List.mem_cons.mp h with rfl | h
    · exact ⟨c, cs, rfl, by simp [found]⟩
    · exact ih h

theorem breaksLine_of_mem_musicLine (h : p ∈ musicLine cs) (feed : '\n' ∈ p.text) :
    p.kind.breaksLine = true := by
  rcases exists_rule_of_mem_musicLine h with invalid | ⟨rule, member, same, us, n, longest, text⟩
  · obtain ⟨c, us, text, refused⟩ := invalid_of_mem_music Rule.recognise_ne_invalid h invalid
    rw [text, List.mem_singleton] at feed
    obtain ⟨kind, n, recognised⟩ := Rule.recognise_feed us
    exact absurd recognised (feed ▸ refused kind n)
  · cases line : p.kind.breaksLine with
    | true => rfl
    | false =>
      have avoided := Rule.avoids_of_not_breaksLine (c := '\n') member (same ▸ line) rfl
      have whole := (Pattern.matches_of_longest longest).2
      exact absurd (text ▸ feed) (Pattern.not_mem_of_avoids avoided whole)

theorem mem_join (h : p ∈ ps) (inside : c ∈ p.text) : c ∈ Piece.join ps :=
  List.mem_flatMap.mpr ⟨p, h, inside⟩

theorem breaksLine_of_mem_infoLine {key rest : Text} (inKey : '\n' ∉ key)
    (inRest : '\n' ∉ rest.dropLast) (h : p ∈ infoLine key rest) (feed : '\n' ∈ p.text) :
    p.kind.breaksLine = true := by
  have content := Text.not_mem_lineContent inRest
  rw [← splitComment_append false (Text.lineContent rest), List.mem_append, not_or] at content
  simp only [infoLine, List.cons_append, List.mem_cons, List.mem_append] at h
  rcases h with rfl | (h | h) | h
  · exact absurd feed inKey
  · have inside := mem_join h feed
    rw [join_proseRuns] at inside
    exact absurd inside content.1
  · have inside := mem_join h feed
    rw [join_commentPiece] at inside
    exact absurd inside content.2
  · exact breaksLine_of_mem_musicLine h feed

theorem breaksLine_of_mem_line {l : Text} (last : '\n' ∉ l.dropLast) (h : p ∈ line l)
    (feed : '\n' ∈ p.text) : p.kind.breaksLine = true := by
  obtain music | ⟨c, rest, starts, rfl, info⟩ := line_cases l
  · exact breaksLine_of_mem_musicLine (music ▸ h) feed
  · have letter : c ≠ '\n' := by
      rintro rfl
      cases starts
    refine breaksLine_of_mem_infoLine ?_ ?_ (info ▸ h) feed
    · simp [Ne.symm letter]
    · intro inside
      have nonempty : rest ≠ [] := by
        rintro rfl
        cases inside
      have cut : ([c, ':'] ++ rest).dropLast = [c, ':'] ++ rest.dropLast :=
        List.dropLast_append_of_ne_nil nonempty
      exact last (cut ▸ List.mem_append_right _ inside)

theorem breaksLine_of_mem_pieces (h : p ∈ pieces text) (feed : '\n' ∈ p.text) :
    p.kind.breaksLine = true := by
  obtain ⟨l, listed, member⟩ := List.mem_flatMap.mp h
  exact breaksLine_of_mem_line (Text.feed_of_mem_lines listed) member feed

end Scan

theorem breaksLine_of_mem_textTokens (h : t ∈ textTokens text) (feed : '\n' ∈ t.lexeme) :
    t.kind.breaksLine = true := by
  obtain ⟨front, p, back, cut, rfl⟩ := exists_of_mem_textTokens h
  have listed : p ∈ Scan.pieces text := cut ▸ List.mem_append_right front List.mem_cons_self
  exact Scan.breaksLine_of_mem_pieces listed feed

end Tunebook
