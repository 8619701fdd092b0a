import Tunebook.Proofs.Scan.Lines
import Tunebook.Proofs.Scan.Unambiguous
import Tunebook.Proofs.Text.Positions

/-! Scanning music with a lexer that may give up. Where no rule matches, the lexer stops as far on as
it likes; the scanner puts down one character as invalid, and drops a lexer that does not stand
behind that character for a new one that does. The tokens are those of the longest matches, whatever
the lexer had read. -/
namespace Tunebook

structure Answer where
  kind? : Option Kind
  stop : Nat

structure Lexer where
  answer : Text → Nat → Answer
  advances : ∀ text start, start < (answer text start).stop

/-- The lexer finds the longest match wherever a rule matches. Elsewhere it gives up, and nothing is
said of where it stops. -/
structure Lexer.Obeys (lexer : Lexer) : Prop where
  token : ∀ seen cs kind w, Rule.IsLongest kind w cs →
    lexer.answer (seen ++ cs) seen.bytes = ⟨some kind, seen.bytes + w.bytes⟩
  error : ∀ seen cs, cs ≠ [] → Rule.IsStuck cs →
    (lexer.answer (seen ++ cs) seen.bytes).kind? = none

/-- What a scanner has put down, the line that it is in and the offset at which that starts. -/
structure Scanner where
  tokens : List Token
  problems : List Problem
  line : Nat
  lineStart : Nat

namespace Scanner

/-- Puts a token down and notes what is wrong with it. There is no way on unless both the token and
the part of its line in front of it are slices of the source. -/
def push (source : Text) (kind : Kind) (span : Span) (s : Scanner) : Option Scanner := do
  let lexeme ← source.slice? span
  let lead ← source.slice? ⟨s.lineStart, span.start⟩
  let token : Token := ⟨kind, lexeme, ⟨s.line, lead.units⟩, span⟩
  let problems := s.problems ++ lexicalProblems [token]
  if lexeme.getLast? = some '\n' then
    some ⟨s.tokens ++ [token], problems, s.line + 1, span.stop⟩
  else
    some ⟨s.tokens ++ [token], problems, s.line, s.lineStart⟩

/-- Bytes of the character at an offset. -/
def widthAt (source : Text) (offset : Nat) : Nat :=
  match source.cutAt? offset with
  | some (_, c :: _) => c.utf8Size
  | _ => 1

theorem widthAt_pos (source : Text) (offset : Nat) : 0 < widthAt source offset := by
  unfold widthAt
  split
  next c _ _ => exact c.utf8Size_pos
  · exact Nat.one_pos

/-- Scans up to `stop` with a lexer of the text from `base` on that has read as far as `start`. -/
def scanMusic (lexer : Lexer) (source : Text) (stop base start : Nat) (s : Scanner) :
    Option Scanner :=
  if base + start < stop then
    match source.slice? ⟨base, stop⟩ with
    | none => none
    | some text =>
      let last := (lexer.answer text start).stop
      match (lexer.answer text start).kind? with
      | some kind => do
        let s ← s.push source kind ⟨base + start, base + last⟩
        scanMusic lexer source stop base last s
      | none => do
        let width := widthAt source (base + start)
        let s ← s.push source .invalid ⟨base + start, base + start + width⟩
        -- A lexer that stands anywhere else is of no more use.
        if last = start + width then scanMusic lexer source stop base last s
        else scanMusic lexer source stop (base + start + width) 0 s
  else some s
termination_by stop - (base + start)
decreasing_by
  · have := lexer.advances text start
    omega
  · have := lexer.advances text start
    omega
  · have := widthAt_pos source (base + start)
    omega

/-- The line of the scanner, and where it starts, are those in which the seen text stops. -/
def IsAfter (s : Scanner) (seen : Text) : Prop :=
  ∃ front tail, seen = front ++ tail ∧ (front = [] ∨ front.getLast? = some '\n') ∧ '\n' ∉ tail ∧
    s.line = front.lines.length ∧ s.lineStart = front.bytes

/-- The second scanner has put down these tokens more, each of them with its problem. -/
structure Adds (s s' : Scanner) (more : List Token) : Prop where
  tokens : s'.tokens = s.tokens ++ more
  problems : s'.problems = s.problems ++ lexicalProblems more

theorem Adds.refl (s : Scanner) : Adds s s [] :=
  ⟨(List.append_nil _).symm, (List.append_nil _).symm⟩

theorem Adds.trans (first : Adds s s' ts) (second : Adds s' s'' us) : Adds s s'' (ts ++ us) where
  tokens := by rw [second.tokens, first.tokens, List.append_assoc]
  problems := by
    rw [second.problems, first.problems, List.append_assoc]
    simp only [lexicalProblems, List.filterMap_append]

theorem Adds.cons {p : Piece}
    (one : Adds s s' (Scan.placed ((⟨0, 0⟩ : Position).after seen) seen.bytes [p]))
    (others : Adds s' s'' (Scan.placed ((⟨0, 0⟩ : Position).after (seen ++ p.text))
      (seen ++ p.text).bytes ps)) :
    Adds s s'' (Scan.placed ((⟨0, 0⟩ : Position).after seen) seen.bytes (p :: ps)) := by
  rw [Position.after_append, Text.bytes_append] at others
  exact one.trans others

/-- A token that ends with a line feed ends the line, and no other has one. -/
theorem exists_push (h : s.IsAfter seen) (feed : '\n' ∉ w.dropLast) (kind : Kind) (rest : Text) :
    ∃ s', s.push (seen ++ (w ++ rest)) kind ⟨seen.bytes, seen.bytes + w.bytes⟩ = some s' ∧
      Adds s s' (Scan.placed ((⟨0, 0⟩ : Position).after seen) seen.bytes [⟨kind, w⟩]) ∧
      s'.IsAfter (seen ++ w) := by
  obtain ⟨front, tail, rfl, whole, absent, line, start⟩ := h
  have lexeme := Text.slice?_middle (front ++ tail) w rest
  have lead := Text.slice?_middle front tail (w ++ rest)
  rw [← List.append_assoc, ← Text.bytes_append, ← start] at lead
  have place : (⟨0, 0⟩ : Position).after (front ++ tail) = ⟨s.line, tail.units⟩ := by
    rw [Position.after_append, Position.after_lines 0 whole, Position.after_line _ absent, line,
      Nat.zero_add, Nat.zero_add]
  simp only [push, lexeme, lead, Option.bind_eq_bind, Option.bind_some, place]
  -- only a token that ends its line moves the start of the line
  split
  next ends =>
    obtain ⟨v, rfl⟩ := List.getLast?_eq_some_iff.mp ends
    rw [List.dropLast_concat] at feed
    have own : '\n' ∉ tail ++ v := by simp [absent, feed]
    refine ⟨_, rfl, ⟨rfl, rfl⟩, front ++ tail ++ (v ++ ['\n']), [], ?_, .inr ?_, ?_, ?_, ?_⟩
    · rw [List.append_nil]
    · rw [← List.append_assoc, List.getLast?_concat]
    · exact List.not_mem_nil
    · rw [List.append_assoc, ← List.append_assoc tail, Text.lines_append whole,
        Text.lines_line own, List.length_append, line]
      rfl
    · exact (Text.bytes_append _ _).symm
  next goes =>
    refine ⟨_, rfl, ⟨rfl, rfl⟩, front, tail ++ w, List.append_assoc _ _ _, whole, ?_, line, start⟩
    rw [List.mem_append, not_or]
    refine ⟨absent, fun inside => ?_⟩
    have nonempty := List.ne_nil_of_mem inside
    rw [← List.dropLast_concat_getLast nonempty, List.mem_append, List.mem_singleton] at inside
    rcases inside with inside | last
    · exact feed inside
    · exact goes (last ▸ List.getLast?_eq_some_getLast nonempty)

theorem widthAt_bytes (s : Text) (c : Char) (rest : Text) :
    widthAt (s ++ c :: rest) s.bytes = c.utf8Size := by
  rw [widthAt, Text.cutAt?_bytes]

section Steps
variable {lexer : Lexer} {source t : Text} {stop base start : Nat}
variable (within : base + start < stop) (text : source.slice? ⟨base, stop⟩ = some t)
include within text

theorem scanMusic_token (found : lexer.answer t start = ⟨some kind, last⟩) (s : Scanner) :
    scanMusic lexer source stop base start s =
      (s.push source kind ⟨base + start, base + last⟩).bind
        (scanMusic lexer source stop base last) := by
  rw [scanMusic, if_pos within, text]
  simp only [found]
  rfl

theorem scanMusic_error (found : (lexer.answer t start).kind? = none)
    (width : widthAt source (base + start) = n) (s : Scanner) :
    scanMusic lexer source stop base start s =
      (s.push source .invalid ⟨base + start, base + start + n⟩).bind fun s =>
        if (lexer.answer t start).stop = start + n then
          scanMusic lexer source stop base (start + n) s
        else scanMusic lexer source stop (base + start + n) 0 s := by
  rw [scanMusic, if_pos within, text]
  simp only [found, width]
  refine Option.bind_congr fun s _ => ?_
  split
  next same => rw [same]
  · rfl

end Steps

section Run
variable {lexer : Lexer} {source before seen cs after : Text} {stop : Nat}
  {s : Scanner} (reached : s.IsAfter (before ++ seen))
  (whole : source = before ++ (seen ++ cs ++ after))
  (ends : stop = before.bytes + (seen ++ cs).bytes)
include whole ends

theorem slice?_rest : source.slice? ⟨before.bytes, stop⟩ = some (seen ++ cs) := by
  rw [whole, ends]
  exact Text.slice?_middle before _ after

include reached

theorem exists_step (obeys : lexer.Obeys) (longest : Rule.IsLongest kind w cs)
    (cut : cs = w ++ rest) : ∃ s',
      scanMusic lexer source stop before.bytes seen.bytes s =
        scanMusic lexer source stop before.bytes (seen ++ w).bytes s' ∧
      Adds s s' (Scan.placed ((⟨0, 0⟩ : Position).after (before ++ seen)) (before ++ seen).bytes
        [⟨kind, w⟩]) ∧ s'.IsAfter (before ++ (seen ++ w)) := by
  have within : before.bytes + seen.bytes < stop := by
    have positive := Scan.bytes_pos longest.nonempty
    simp only [ends, cut, Text.bytes_append]
    omega
  obtain ⟨s', pushed, one, reached'⟩ := exists_push reached longest.feed kind (rest ++ after)
  have again : before ++ seen ++ (w ++ (rest ++ after)) = source := by simp [whole, cut]
  rw [again, Text.bytes_append, Nat.add_assoc] at pushed
  refine ⟨s', ?_, one, List.append_assoc before seen w ▸ reached'⟩
  rw [scanMusic_token within (slice?_rest whole ends) (obeys.token seen cs kind w longest), pushed,
    Option.bind_some, ← Text.bytes_append]

/-- One step over a character that starts no token, after which the lexer goes on or another one
starts. -/
theorem exists_step_stuck (obeys : lexer.Obeys) (stuck : Rule.IsStuck cs) (cut : cs = c :: rest) :
    ∃ s',
      (scanMusic lexer source stop before.bytes seen.bytes s =
          scanMusic lexer source stop before.bytes (seen ++ [c]).bytes s' ∨
        scanMusic lexer source stop before.bytes seen.bytes s =
          scanMusic lexer source stop (before ++ (seen ++ [c])).bytes 0 s') ∧
      Adds s s' (Scan.placed ((⟨0, 0⟩ : Position).after (before ++ seen)) (before ++ seen).bytes
        [⟨.invalid, [c]⟩]) ∧ s'.IsAfter (before ++ (seen ++ [c])) := by
  have within : before.bytes + seen.bytes < stop := by
    have positive := c.utf8Size_pos
    simp only [ends, cut, Text.bytes_append, Text.bytes_cons]
    omega
  have again : before ++ seen ++ c :: (rest ++ after) = source := by simp [whole, cut]
  have width : widthAt source (before.bytes + seen.bytes) = c.utf8Size := by
    rw [← again, ← Text.bytes_append]
    exact widthAt_bytes (before ++ seen) c (rest ++ after)
  have refused := obeys.error seen cs (cut ▸ List.cons_ne_nil c rest) stuck
  obtain ⟨s', pushed, one, reached'⟩ :=
    exists_push (w := [c]) reached List.not_mem_nil .invalid (rest ++ after)
  rw [List.singleton_append, again, Text.bytes_append, Text.bytes_cons, Text.bytes_nil,
    Nat.add_zero] at pushed
  refine ⟨s', ?_, one, List.append_assoc before seen [c] ▸ reached'⟩
  rw [scanMusic_error within (slice?_rest whole ends) refused width, pushed, Option.bind_some]
  split
  · exact .inl (by simp)
  · exact .inr (by simp [Nat.add_assoc])

theorem exists_scanMusic (obeys : lexer.Obeys) (h : Greedy cs ps) : ∃ s',
      scanMusic lexer source stop before.bytes seen.bytes s = some s' ∧
      Adds s s' (Scan.placed ((⟨0, 0⟩ : Position).after (before ++ seen)) (before ++ seen).bytes
        ps) ∧ s'.IsAfter (before ++ (seen ++ cs)) := by
  induction h generalizing before seen s with
  | done =>
    refine ⟨s, ?_, .refl s, by rwa [List.append_nil]⟩
    rw [scanMusic, if_neg (by simp [ends])]
  | @token kind w rest ps longest _ ih =>
    obtain ⟨s₁, step, one, reached₁⟩ := exists_step reached whole ends obeys longest rfl
    obtain ⟨s₂, run, others, reached₂⟩ := ih reached₁ (by simp [whole]) (by simp [ends])
    rw [← List.append_assoc] at others
    exact ⟨s₂, step.trans run, one.cons others, by simpa using reached₂⟩
  | @invalid c rest ps stuck _ ih =>
    obtain ⟨s₁, step | step, one, reached₁⟩ := exists_step_stuck reached whole ends obeys stuck rfl
    · obtain ⟨s₂, run, others, reached₂⟩ := ih reached₁ (by simp [whole]) (by simp [ends])
      rw [← List.append_assoc] at others
      exact ⟨s₂, step.trans run, one.cons others, by simpa using reached₂⟩
    · have afresh : s₁.IsAfter (before ++ (seen ++ [c]) ++ []) := by rwa [List.append_nil]
      obtain ⟨s₂, run, others, reached₂⟩ :=
        ih afresh (by simp [whole]) (by simp [ends, Nat.add_assoc])
      rw [List.append_nil, ← List.append_assoc] at others
      exact ⟨s₂, step.trans run, one.cons others, by simpa using reached₂⟩

end Run
end Scanner

/-- The text stands between two of the character. -/
def Text.IsBetween (c : Char) (t : Text) : Prop :=
  ∃ w, t = c :: (w ++ [c])

theorem Text.isBetween_cons : IsBetween c (d :: t) ↔ d = c ∧ t.getLast? = some c := by
  simp [IsBetween, List.getLast?_eq_some_iff]

instance (c : Char) : (t : Text) → Decidable (t.IsBetween c)
  | [] => isFalse (by rintro ⟨_, none⟩; cases none)
  | _ :: _ => decidable_of_iff _ Text.isBetween_cons.symm

namespace Token

/-- A character that starts no token, or a quoted text or a symbol that lacks its closing mark. -/
def IsFaulty (t : Token) : Prop :=
  t.kind = .invalid ∨ (t.kind = .quotedText ∧ ¬t.lexeme.IsBetween '"') ∨
    (t.kind = .symbol ∧ ¬t.lexeme.IsBetween '!')

instance (t : Token) : Decidable t.IsFaulty :=
  inferInstanceAs (Decidable (_ ∨ _))

theorem isClosed_iff {t : Token} (opens : t.lexeme.head? = some c) :
    t.isClosed c = true ↔ t.lexeme.IsBetween c := by
  obtain ⟨w, whole⟩ := List.head?_eq_some_iff.mp opens
  rw [isClosed, whole, Text.isBetween_cons]
  cases w <;> simp

theorem isSome_lexicalFault? {t : Token} (quoted : t.kind = .quotedText → t.lexeme.head? = some '"')
    (symbol : t.kind = .symbol → t.lexeme.head? = some '!') :
    t.lexicalFault?.isSome = true ↔ t.IsFaulty := by
  unfold lexicalFault? IsFaulty
  split
  next invalid => simp [invalid]
  next kind =>
    rw [← isClosed_iff (quoted kind)]
    cases t.isClosed '"' <;> simp [kind]
  next kind =>
    rw [← isClosed_iff (symbol kind)]
    cases t.isClosed '!' <;> simp [kind]
  next valid quotes symbols =>
    refine iff_of_false Bool.false_ne_true ?_
    rintro (kind | ⟨kind, _⟩ | ⟨kind, _⟩)
    · exact valid kind
    · exact quotes kind
    · exact symbols kind

end Token

theorem tokens_lexicalProblems (h : ∀ t ∈ ts, t.lexicalFault?.isSome = true ↔ t.IsFaulty) :
    (lexicalProblems ts).map Problem.token = ts.filter (·.IsFaulty) := by
  induction ts with
  | nil => rfl
  | cons t ts ih =>
    rw [List.forall_mem_cons] at h
    have rest := ih h.2
    rw [lexicalProblems] at rest
    rw [lexicalProblems, List.filterMap_cons, List.filter_cons]
    cases fault : t.lexicalFault? <;> simp_all

namespace Scan
open Pattern

theorem head?_of_kind (rule : Rule) (h : p ∈ musicLine cs) (hk : p.kind = rule.kind)
    (found : Rule.music.find? (·.kind = rule.kind) = some rule)
    (opens : ∀ d, rule.pattern.begins d = true → d = c) : p.text.head? = some c := by
  have hw := matches_of_kind rule h hk found
  obtain ⟨d, w, text⟩ := List.exists_cons_of_ne_nil (isProper_of_mem_musicLine h).1
  rw [text] at hw ⊢
  rw [List.head?_cons, opens d (begins_of_matches hw)]

/-- The tokens of a line of music that stands behind other text. -/
def musicTokens (before line : Text) : List Token :=
  placed ((⟨0, 0⟩ : Position).after before) before.bytes (musicLine line)

theorem tokens_lexicalProblems_musicTokens (before line : Text) :
    (lexicalProblems (musicTokens before line)).map Problem.token =
      (musicTokens before line).filter (·.IsFaulty) := by
  refine tokens_lexicalProblems fun t member => ?_
  obtain ⟨front, p, back, cut, rfl⟩ := exists_of_mem_placed member
  have listed : p ∈ musicLine line := cut ▸ by simp
  refine Token.isSome_lexicalFault? (fun kind => ?_) fun kind => ?_
  · refine head?_of_kind ⟨.quotedText, seq (just '"') (seq (star (char fun c => c ≠ '"' &&
      !Text.isLineBreak c)) (opt (just '"')))⟩ listed kind rfl fun d first => ?_
    simpa [begins, just, nullable] using first
  · refine head?_of_kind ⟨.symbol, seq (just '!') (seq (star (char fun c => c ≠ '!' &&
      !Text.isBlank c)) (opt (just '!')))⟩ listed kind rfl fun d first => ?_
    simpa [begins, just, nullable] using first

end Scan

namespace Scanner

/-- However far a lexer has read where it gives up, the tokens that are put down are those of the
greedy cut of the line, and the problems those of the faulty tokens among them. -/
theorem scanMusic_greedy {lexer : Lexer} (obeys : lexer.Obeys) (before line after : Text)
    (s : Scanner) (reached : s.IsAfter before) :
    (∀ ps, Greedy line ps ↔ ps = Scan.musicLine line) ∧
    ∃ s', scanMusic lexer (before ++ (line ++ after)) (before.bytes + line.bytes) before.bytes 0 s =
        some s' ∧
      s'.tokens = s.tokens ++ Scan.musicTokens before line ∧
      s'.problems = s.problems ++ lexicalProblems (Scan.musicTokens before line) ∧
      (lexicalProblems (Scan.musicTokens before line)).map Problem.token =
        (Scan.musicTokens before line).filter (·.IsFaulty) ∧
      s'.IsAfter (before ++ line) := by
  refine ⟨fun ps => Greedy.iff_musicLine, ?_⟩
  have whole : before ++ (line ++ after) = before ++ ([] ++ line ++ after) := rfl
  have ends : before.bytes + line.bytes = before.bytes + Text.bytes ([] ++ line) := rfl
  rw [← List.append_nil before] at reached
  obtain ⟨s', run, adds, behind⟩ :=
    exists_scanMusic reached whole ends obeys (Greedy.musicLine line)
  rw [List.append_nil] at adds
  exact ⟨s', run, adds.tokens, adds.problems, Scan.tokens_lexicalProblems_musicTokens before line,
    behind⟩

end Scanner

namespace Lexer

def findOr (reach : Text → Nat → Nat) (text : Text) (start : Nat) : Answer :=
  match text.cutAt? start with
  | none => ⟨none, start + 1⟩
  | some (_, cs) =>
    match Rule.longest Rule.music cs with
    | some (kind, n) => ⟨some kind, start + max 1 (Text.bytes (cs.take n))⟩
    | none => ⟨none, start + max 1 (reach text start)⟩

theorem lt_stop_findOr (reach : Text → Nat → Nat) (text : Text) (start : Nat) :
    start < (findOr reach text start).stop := by
  unfold findOr
  split
  · exact Nat.lt_succ_self start
  · split <;> dsimp only <;> omega

/-- A lexer that reads as far as wanted where it gives up. -/
def reaching (reach : Text → Nat → Nat) : Lexer :=
  ⟨findOr reach, lt_stop_findOr reach⟩

theorem obeys_reaching (reach : Text → Nat → Nat) : (reaching reach).Obeys := by
  constructor
  · intro seen cs kind w longest
    have positive := Scan.bytes_pos longest.nonempty
    show findOr reach (seen ++ cs) seen.bytes = _
    simp only [findOr, Text.cutAt?_bytes, Rule.longest_of_isLongest longest]
    rw [← List.prefix_iff_eq_take.mp longest.front, Nat.max_eq_right positive]
  · intro seen cs _ stuck
    show (findOr reach (seen ++ cs) seen.bytes).kind? = none
    simp only [findOr, Text.cutAt?_bytes, Rule.longest_eq_none_iff_isStuck.mpr stuck]

end Lexer

/-- A lexer that reads two bytes where it gives up is dropped twice and goes on once. -/
theorem Scanner.scanMusic_greedy_wide : ∃ s',
    scanMusic (.reaching fun _ _ => 2) "X:1\nA\\\rB¤\n".toList 11 4 0 ⟨[], [], 1, 4⟩ = some s' ∧
      s'.tokens.map (fun t => (t.kind, String.ofList t.lexeme)) =
        [(.noteLetter, "A"), (.invalid, "\\"), (.invalid, "\r"), (.noteLetter, "B"),
          (.invalid, "¤"), (.eol, "\n")] ∧
      s'.problems.map (fun p => String.ofList p.token.lexeme) = ["\\", "\r", "¤"] := by
  have reached : IsAfter ⟨[], [], 1, 4⟩ "X:1\n".toList :=
    ⟨"X:1\n".toList, [], by decide, .inr (by decide), by decide, by decide, by decide⟩
  obtain ⟨_, s', run, tokens, problems, _⟩ :=
    scanMusic_greedy (Lexer.obeys_reaching fun _ _ => 2) "X:1\n".toList "A\\\rB¤\n".toList []
      ⟨[], [], 1, 4⟩ reached
  refine ⟨s', run, ?_, ?_⟩
  · rw [tokens]
    decide +kernel
  · rw [problems]
    decide +kernel

end Tunebook
