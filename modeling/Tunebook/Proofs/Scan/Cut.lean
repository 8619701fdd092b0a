import Tunebook.Proofs.Scan.Recognition

/-! Pieces as the scan of a music line cuts them. Which rule cut a piece shows in its first
character, and letters, brackets and runs are cut off whatever stands behind them. -/
namespace Tunebook
open Pattern

namespace Rule

theorem exists_of_longest_append {w us : Text} (wins : longest music (w ++ us) = some (k, w.length)) :
    ∃ rule ∈ music, rule.kind = k ∧ Matches rule.pattern w := by
  obtain ⟨rule, member, same, found⟩ := exists_of_longest wins
  have whole := (longest_eq_some_iff.mp found).2.1
  rw [List.take_left] at whole
  exact ⟨rule, member, same, whole⟩

theorem exists_candidate {w us : Text} (wins : longest music (w ++ us) = some (k, w.length))
    (hc : c ∈ w.head?) : ∃ rule ∈ candidates c, rule.kind = k ∧ Matches rule.pattern w := by
  obtain ⟨rule, member, same, whole⟩ := exists_of_longest_append wins
  obtain ⟨s, text⟩ := List.head?_eq_some_iff.mp hc
  refine ⟨rule, List.mem_filter.mpr ⟨member, ?_⟩, same, whole⟩
  rw [text] at whole
  exact begins_of_matches whole

theorem lineBreak_of_longest {w us : Text} (wins : longest music (w ++ us) = some (k, w.length))
    (first : '%' ∈ w.head?) : ∀ e ∈ us.head?, Text.isLineBreak e = true := by
  intro e next
  obtain ⟨ds, text⟩ := List.head?_eq_some_iff.mp first
  obtain ⟨winner, candidate, _, whole⟩ := exists_candidate wins first
  have avoid : (candidates '%').all
      (fun rule => rule.pattern.avoids '\n' && rule.pattern.avoids '\r') = true := by decide
  have avoided := List.all_eq_true.mp avoid winner candidate
  rw [Bool.and_eq_true] at avoided
  have inside : ∀ c ∈ w, (!Text.isLineBreak c) = true := by
    intro c member
    simp only [Text.isLineBreak, Bool.not_eq_true', Bool.or_eq_false_iff, decide_eq_false_iff_not]
    refine ⟨?_, ?_⟩
    · rintro rfl
      exact not_mem_of_avoids avoided.1 whole member
    · rintro rfl
      exact not_mem_of_avoids avoided.2 whole member
  cases breaks : Text.isLineBreak e with
  | true => rfl
  | false =>
    -- a comment would go on with the character behind it
    have rule : (⟨.comment, seq (just '%') restOfLine⟩ : Rule) ∈ music := by
      simp [music]
    have tail : Matches restOfLine (ds ++ [e]) :=
      matches_star_char_concat.mpr ⟨matches_star_char.mpr fun c member =>
        inside c (text ▸ List.mem_cons_of_mem _ member), by simp [breaks]⟩
    have longer : Matches (seq (just '%') restOfLine) (w ++ [e]) :=
      matches_seq.mpr ⟨['%'], ds ++ [e], by rw [text]; rfl, .char (by decide), tail⟩
    exact absurd longer (not_matches_concat wins rule next)

end Rule

namespace Scan

/-- Every piece is what the rules recognise at the front of it and all that follows. -/
def Cut : List Piece → Prop
  | [] => True
  | p :: ps =>
    p.text ≠ [] ∧
      Rule.longest Rule.music (p.text ++ Piece.join ps) = some (p.kind, p.text.length) ∧ Cut ps

/-- The first piece is what the rules recognise, if they do, and the others are cut from what is left. -/
theorem musicLine_cons (h : musicLine cs = p :: ps) : musicLine (Piece.join ps) = ps ∧
    (p.kind = .invalid ∨
      Rule.longest Rule.music (p.text ++ Piece.join ps) = some (p.kind, p.text.length)) := by
  have whole : Piece.join (musicLine cs) = cs := join_music _ cs
  rw [h, Piece.join_cons] at whole
  rw [whole]
  unfold musicLine at h
  cases cs with
  | nil => simp [music] at h
  | cons c cs =>
    rw [music] at h
    split at h
    next kind n recognised =>
      obtain ⟨rfl, rfl⟩ := List.cons.inj h
      refine ⟨by rw [join_music]; rfl, .inr ?_⟩
      have wins := Rule.recognise_eq_token_iff.mp recognised
      obtain ⟨rule, _, _, found⟩ := Rule.exists_of_longest wins
      have bound := (longest_eq_some_iff.mp found).1
      rw [List.length_cons] at bound
      rw [wins, List.length_cons, List.length_take, Nat.min_eq_left (by omega)]
    all_goals
      obtain ⟨rfl, rfl⟩ := List.cons.inj h
      exact ⟨by rw [join_music]; rfl, .inl rfl⟩

theorem cut_musicLine (h : ∀ p ∈ musicLine cs, p.kind ≠ .invalid) : Cut (musicLine cs) := by
  generalize cut : musicLine cs = ps at h
  induction ps generalizing cs with
  | nil => trivial
  | cons p ps ih =>
    obtain ⟨others, invalid | wins⟩ := musicLine_cons cut
    · exact absurd invalid (h p List.mem_cons_self)
    · have proper : IsProper p := isProper_of_mem_musicLine (cut ▸ List.mem_cons_self)
      exact ⟨proper.1, wins, ih others fun q member => h q (List.mem_cons_of_mem p member)⟩

/-- Every piece is what the rules recognise at the front of it, the others and a text behind them. -/
def CutBefore (us : Text) : List Piece → Prop
  | [] => True
  | p :: ps =>
    p.text ≠ [] ∧
      Rule.longest Rule.music (p.text ++ (Piece.join ps ++ us)) = some (p.kind, p.text.length) ∧
      CutBefore us ps

theorem musicLine_append (h : CutBefore us ps) :
    musicLine (Piece.join ps ++ us) = ps ++ musicLine us := by
  induction ps with
  | nil => rfl
  | cons p ps ih =>
    obtain ⟨nonempty, wins, rest⟩ := h
    obtain ⟨kind, text⟩ := p
    obtain ⟨c, cs, rfl⟩ := List.exists_cons_of_ne_nil nonempty
    have recognised : Rule.recognise Rule.music (c :: (cs ++ (Piece.join ps ++ us))) =
        .token kind (cs.length + 1) := by
      simpa only [List.cons_append, List.length_cons] using Rule.recognise_eq_token_iff.mpr wins
    have tail := ih rest
    rw [musicLine] at tail
    rw [Piece.join_cons, List.append_assoc, List.cons_append, musicLine, music, recognised]
    simp only [List.take_left, List.drop_left, tail]
    rfl

theorem CutBefore.append (h : CutBefore (Piece.join qs ++ us) ps) (behind : CutBefore us qs) :
    CutBefore us (ps ++ qs) := by
  induction ps with
  | nil => exact behind
  | cons p ps ih =>
    obtain ⟨nonempty, wins, rest⟩ := h
    rw [List.cons_append]
    refine ⟨nonempty, ?_, ih rest⟩
    rwa [Piece.join_append, List.append_assoc]

theorem CutBefore.cut (h : CutBefore (Piece.join qs) ps) (behind : Cut qs) : Cut (ps ++ qs) := by
  induction ps with
  | nil => exact behind
  | cons p ps ih =>
    obtain ⟨nonempty, wins, rest⟩ := h
    rw [List.cons_append]
    refine ⟨nonempty, ?_, ih rest⟩
    rwa [Piece.join_append]

theorem Cut.cutBefore (h : Cut ps) : CutBefore [] ps := by
  induction ps with
  | nil => trivial
  | cons p ps ih =>
    obtain ⟨nonempty, wins, rest⟩ := h
    refine ⟨nonempty, ?_, ih rest⟩
    rwa [List.append_nil]

theorem musicLine_of_cut (h : Cut ps) : musicLine (Piece.join ps) = ps := by
  have whole := musicLine_append h.cutBefore
  have none : musicLine [] = [] := by rw [musicLine, music]
  rwa [none, List.append_nil, List.append_nil] at whole

theorem Cut.right (ps : List Piece) (h : Cut (ps ++ qs)) : Cut qs := by
  induction ps with
  | nil => exact h
  | cons p ps ih => exact ih h.2.2

theorem Cut.exists_rule (h : Cut (p :: ps)) : ∃ rule ∈ Rule.music, rule.kind = p.kind ∧
    Matches rule.pattern p.text :=
  Rule.exists_of_longest_append h.2.1

theorem Cut.exists_rule_of_mem (h : Cut ps) (listed : p ∈ ps) : ∃ rule ∈ Rule.music,
    rule.kind = p.kind ∧ Matches rule.pattern p.text := by
  obtain ⟨front, back, rfl⟩ := List.mem_iff_append.mp listed
  exact (h.right front).exists_rule

theorem Cut.exists_candidate (h : Cut (p :: ps)) (hc : c ∈ p.text.head?) :
    ∃ rule ∈ Rule.candidates c, rule.kind = p.kind ∧ Matches rule.pattern p.text :=
  Rule.exists_candidate h.2.1 hc

theorem Cut.matches (h : Cut (p :: ps)) (hk : p.kind = k)
    (found : Rule.music.find? (·.kind = k) = some rule) : Matches rule.pattern p.text := by
  obtain ⟨winner, member, same, whole⟩ := h.exists_rule
  obtain rfl : rule = winner := Rule.eq_of_kind member (same.trans hk) found
  exact whole

end Scan

/-- The kinds of the letters of notes and rests and of the bracket that closes a chord. -/
def Kind.isStop (k : Kind) : Bool :=
  k matches .noteLetter | .restLetter | .rightBracket

namespace Scan

theorem Cut.stop (h : Cut (p :: ps)) (hk : p.kind.isStop = true) :
    ∃ c ∈ Rule.stops, p.text = [c] := by
  have letters : "ABCDEFGabcdefg".toList.all (· ∈ Rule.stops) = true := by decide
  have rests : "xz".toList.all (· ∈ Rule.stops) = true := by decide
  cases kind : p.kind with
  | noteLetter =>
    have found : Rule.music.find? (·.kind = .noteLetter) =
        some ⟨.noteLetter, oneOf "ABCDEFGabcdefg"⟩ := rfl
    obtain ⟨c, passes, text⟩ := matches_char.mp (h.matches kind found)
    have listed := List.all_eq_true.mp letters c (List.contains_iff_mem.mp passes)
    exact ⟨c, of_decide_eq_true listed, text⟩
  | restLetter =>
    have found : Rule.music.find? (·.kind = .restLetter) = some ⟨.restLetter, oneOf "xz"⟩ := rfl
    obtain ⟨c, passes, text⟩ := matches_char.mp (h.matches kind found)
    have listed := List.all_eq_true.mp rests c (List.contains_iff_mem.mp passes)
    exact ⟨c, of_decide_eq_true listed, text⟩
  | rightBracket =>
    have found : Rule.music.find? (·.kind = .rightBracket) =
        some ⟨.rightBracket, seq (just ']') empty⟩ := rfl
    obtain ⟨c, passes, text⟩ := matches_char.mp (matches_seq_empty.mp (h.matches kind found))
    obtain rfl := of_decide_eq_true passes
    exact ⟨']', by decide, text⟩
  | _ => rw [kind] at hk; cases hk

/-- What stands behind the letter of a note or a closing bracket is of no account for it. -/
theorem longest_stop (listed : c ∈ Rule.stops) (us vs : Text) :
    Rule.longest Rule.music (c :: us) = Rule.longest Rule.music (c :: vs) := by
  apply Rule.longest_congr
  intro rule member
  have settled : rule.pattern.Settled [c] := by
    cases free : rule.isFree with
    | false => exact settled_of_endsAt (Rule.endsAt_of_mem_music member free listed) []
    | true => exact settled_of_not_begins (Rule.begins_of_isFree member free listed) []
  exact longest_settled settled us vs

/-- A letter or bracket is cut off whatever stands behind it. -/
theorem Cut.stop_append (h : Cut (p :: ps)) (hk : p.kind.isStop = true) (rest : Cut qs) :
    Cut (p :: qs) := by
  obtain ⟨c, listed, text⟩ := h.stop hk
  refine ⟨h.1, ?_, rest⟩
  rw [← h.2.1, text]
  exact longest_stop listed _ _

/-- The pieces of a kind are runs of a class of characters, and such a character begins no other
piece. -/
structure IsRun (k : Kind) (f : Char → Bool) : Prop where
  rule : Rule.music.find? (·.kind = k) = some ⟨k, plus (char f)⟩
  candidates : ∀ c, f c = true → Rule.candidates c = [⟨k, plus (char f)⟩]

theorem isRun_apostrophe : IsRun .apostrophe (· = '\x27') := by
  refine ⟨rfl, fun c passes => ?_⟩
  obtain rfl := of_decide_eq_true passes
  rfl

theorem isRun_comma : IsRun .comma (· = ',') := by
  refine ⟨rfl, fun c passes => ?_⟩
  obtain rfl := of_decide_eq_true passes
  rfl

theorem isRun_slash : IsRun .slash (· = '/') := by
  refine ⟨rfl, fun c passes => ?_⟩
  obtain rfl := of_decide_eq_true passes
  rfl

theorem isRun_greater : IsRun .greater (· = '>') := by
  refine ⟨rfl, fun c passes => ?_⟩
  obtain rfl := of_decide_eq_true passes
  rfl

theorem isRun_less : IsRun .less (· = '<') := by
  refine ⟨rfl, fun c passes => ?_⟩
  obtain rfl := of_decide_eq_true passes
  rfl

theorem isRun_whitespace : IsRun .whitespace " \t".toList.contains := by
  refine ⟨rfl, fun c passes => ?_⟩
  rcases (by simpa using passes : c = ' ' ∨ c = '\t') with rfl | rfl <;> rfl

theorem isRun_number : IsRun .number Char.isDigit := by
  refine ⟨rfl, fun c passes => ?_⟩
  simp only [Char.isDigit, Bool.and_eq_true, decide_eq_true_eq] at passes
  have low : 48 ≤ c.toNat := passes.1
  have high : c.toNat ≤ 57 := passes.2
  have ten : c.toNat = 48 ∨ c.toNat = 49 ∨ c.toNat = 50 ∨ c.toNat = 51 ∨ c.toNat = 52 ∨
      c.toNat = 53 ∨ c.toNat = 54 ∨ c.toNat = 55 ∨ c.toNat = 56 ∨ c.toNat = 57 := by
    omega
  rw [← Char.ofNat_toNat c]
  rcases ten with h | h | h | h | h | h | h | h | h | h <;> rw [h] <;> rfl

/-- A piece is cut off if the rules that can begin like it say so of a text that ends with a
character behind which none of them goes on. -/
theorem Cut.ended {p : Piece} (first : d ∈ p.text.head?)
    (whole : p.text ++ Piece.join ps = u ++ c :: behind)
    (ends : (Rule.candidates d).all (·.pattern.endsAt c) = true)
    (wins : Rule.longest (Rule.candidates d) (u ++ [c]) = some (p.kind, p.text.length))
    (rest : Cut ps) : Cut (p :: ps) := by
  obtain ⟨ds, text⟩ := List.head?_eq_some_iff.mp first
  refine ⟨by simp [text], ?_, rest⟩
  rw [← wins]
  have own : Rule.longest Rule.music (p.text ++ Piece.join ps) =
      Rule.longest (Rule.candidates d) (p.text ++ Piece.join ps) := by
    rw [text, List.cons_append, Rule.longest_candidates]
  rw [own, whole]
  refine Rule.longest_congr fun rule member => ?_
  have settled := settled_of_endsAt (List.all_eq_true.mp ends rule member) u
  have same := longest_settled settled behind []
  rwa [List.append_assoc, List.singleton_append, List.append_nil] at same

theorem Cut.single (alone : (Rule.candidates c).all (·.pattern.endsAt c) = true ∧
    Rule.longest (Rule.candidates c) [c] = some (k, 1)) (rest : Cut ps) : Cut (⟨k, [c]⟩ :: ps) :=
  Cut.ended (u := []) rfl rfl alone.1 alone.2 rest

theorem IsRun.longest {w us : Text} (run : IsRun k f) (nonempty : w ≠ [])
    (every : ∀ c ∈ w, f c = true) (ends : ∀ c ∈ us.head?, f c = false) :
    Rule.longest Rule.music (w ++ us) = some (k, w.length) := by
  have longest := longest_plus_char nonempty every ends
  obtain ⟨c, cs, rfl⟩ := List.exists_cons_of_ne_nil nonempty
  rw [List.cons_append] at longest ⊢
  rw [Rule.longest_candidates, run.candidates c (every c List.mem_cons_self)]
  simp only [Rule.longest, longest]

theorem IsRun.cutBefore {p : Piece} (run : IsRun p.kind f) (nonempty : p.text ≠ [])
    (every : ∀ c ∈ p.text, f c = true) (ends : ∀ c ∈ us.head?, f c = false) : CutBefore us [p] :=
  ⟨nonempty, run.longest nonempty every ends, trivial⟩

theorem Cut.head?_join (h : Cut ps) (run : IsRun k f) (next : ∀ p ∈ ps.head?, p.kind ≠ k) :
    ∀ c ∈ (Piece.join ps).head?, f c = false := by
  intro c first
  cases ps with
  | nil => cases first
  | cons p ps =>
    rw [Bool.eq_false_iff]
    intro passes
    have start : c ∈ p.text.head? := by
      obtain ⟨d, ds, text⟩ := List.exists_cons_of_ne_nil h.1
      rw [Piece.join_cons, text] at first
      rw [text]
      exact first
    obtain ⟨rule, own, kind, _⟩ := h.exists_candidate start
    rw [run.candidates c passes] at own
    obtain rfl := List.mem_singleton.mp own
    exact next p rfl kind.symm

theorem Cut.run {p : Piece} (run : IsRun p.kind f) (nonempty : p.text ≠ [])
    (every : ∀ c ∈ p.text, f c = true) (next : ∀ q ∈ qs.head?, q.kind ≠ p.kind) (rest : Cut qs) :
    Cut (p :: qs) :=
  ⟨nonempty, run.longest nonempty every (rest.head?_join run next), rest⟩

theorem Cut.mem_run (h : Cut (p :: ps)) (run : IsRun p.kind f) : ∀ c ∈ p.text, f c = true :=
  (matches_plus_char.mp (h.matches rfl run.rule)).2

theorem Cut.run_ends (h : Cut (p :: ps)) (run : IsRun p.kind f) :
    ∀ q ∈ ps.head?, q.kind ≠ p.kind := by
  intro q member same
  obtain ⟨qs, rfl⟩ := List.head?_eq_some_iff.mp member
  obtain ⟨c, cs, text⟩ := List.exists_cons_of_ne_nil h.2.2.1
  have passes := h.2.2.mem_run (same ▸ run) c (text ▸ List.mem_cons_self)
  have longer : Matches (plus (char f)) (p.text ++ [c]) :=
    matches_plus_char.mpr ⟨by simp,
      List.forall_mem_append.mpr ⟨h.mem_run run, List.forall_mem_singleton.mpr passes⟩⟩
  have next : (Piece.join (q :: qs)).head? = some c := by
    rw [Piece.join_cons, text]
    rfl
  exact Rule.not_matches_concat h.2.1 (List.mem_of_find?_eq_some run.rule) next longer

/-- A text that opens with `c` and runs through the class of `f`, up to a `c` that closes it where
there is one. -/
def quoted (c : Char) (f : Char → Bool) : Pattern :=
  seq (just c) (seq (star (char f)) (opt (just c)))

theorem settled_closed (own : f c = false) (body : Text) :
    (quoted c f).Settled (c :: (body ++ [c])) := by
  have ends : (seq (star (char f)) (opt (just c))).endsAt c = true := by
    simp [endsAt, avoids, opt, just, own]
  rintro w hw ⟨v, rfl⟩
  obtain ⟨s, t, split, opened, others⟩ := matches_seq.mp hw
  obtain ⟨_, _, rfl⟩ := matches_char.mp opened
  have tail : body ++ c :: v = t := by simpa using (List.cons.inj split).2
  rw [← tail] at others
  rw [last_of_endsAt ends others, List.append_nil]

/-- What is left open ends at a character that can neither close it nor stand in it. -/
theorem settled_open (inner : Matches (star (char f)) body)
    (ends : ¬Matches (quoted c f) (c :: (body ++ [e]))) :
    (quoted c f).Settled (c :: (body ++ [e])) := by
  have opens : Matches (just c) [c] := .char (decide_eq_true rfl)
  have differs : e ≠ c := by
    rintro rfl
    exact ends (.seq opens (.seq inner (.left opens)))
  have outside : f e = false := by
    rw [Bool.eq_false_iff]
    intro goes
    have longer : Matches (star (char f)) (body ++ [e]) :=
      matches_star_char_concat.mpr ⟨inner, goes⟩
    exact ends (.seq opens (matches_seq.mpr ⟨body ++ [e], [], by simp, longer, .right .empty⟩))
  apply settled_of_avoids (u := c :: body)
  simp [quoted, avoids, opt, just, differs, outside]

/-- What a character opens runs up to the next such character or, where that is missing, up to one
that cannot be in it. Either settles it. -/
theorem settled_quoted {w us : Text} (own : f c = false) (rule : ⟨kind, quoted c f⟩ ∈ Rule.music)
    (wins : Rule.longest Rule.music (w ++ us) = some (k, w.length))
    (whole : Matches (quoted c f) w) (next : us.head? = some e) :
    (quoted c f).Settled (w ++ [e]) := by
  obtain ⟨s, t, rfl, first, second⟩ := matches_seq.mp whole
  obtain ⟨d, passes, rfl⟩ := matches_char.mp first
  obtain rfl : c = d := (of_decide_eq_true passes).symm
  obtain ⟨body, close, rfl, inner, last⟩ := matches_seq.mp second
  rcases matches_alt.mp last with closed | missing
  · obtain ⟨d, same, rfl⟩ := matches_char.mp closed
    obtain rfl : c = d := (of_decide_eq_true same).symm
    exact (settled_closed own body).append [e]
  · obtain rfl := matches_empty.mp missing
    rw [List.append_nil] at wins ⊢
    exact settled_open inner (Rule.not_matches_concat wins rule next)

/-- Two characters are all that a pattern of two classes matches. -/
theorem settled_pair (two : 2 ≤ u.length) : (seq (char f) (char g)).Settled u := by
  intro w hw beyond
  obtain ⟨s, t, rfl, first, second⟩ := matches_seq.mp hw
  obtain ⟨_, _, rfl⟩ := matches_char.mp first
  obtain ⟨_, _, rfl⟩ := matches_char.mp second
  exact (beyond.eq_of_length_le two).symm

/-- Behind a comment or a directive stands a line break, which settles what takes none. -/
theorem Cut.settled_percent {pattern : Pattern} (h : Cut (p :: ps)) (first : '%' ∈ p.text.head?)
    (behind : (Piece.join ps).head? = some e)
    (avoid : pattern.avoids '\n' && pattern.avoids '\r') : pattern.Settled (p.text ++ [e]) := by
  have breaks := Rule.lineBreak_of_longest h.2.1 first e behind
  rw [Bool.and_eq_true] at avoid
  simp only [Text.isLineBreak, Bool.or_eq_true, decide_eq_true_eq] at breaks
  rcases breaks with rfl | rfl
  · exact settled_of_avoids avoid.1 p.text
  · exact settled_of_avoids avoid.2 p.text

/-- A rule that takes nearly any character is settled where its text ends by itself. -/
theorem Cut.settled_free (h : Cut (p :: ps)) (member : rule ∈ Rule.music)
    (free : rule.isFree = true) (first : d ∈ p.text.head?) (begins : rule.pattern.begins d = true)
    (behind : (Piece.join ps).head? = some e) : rule.pattern.Settled (p.text ++ [e]) := by
  obtain ⟨winner, candidate, _, matched⟩ := h.exists_candidate first
  cases hk : rule.kind with
  | escapedChar =>
    obtain rfl : (⟨.escapedChar, seq (just '\\') (char fun c => !Text.isLineBreak c)⟩ : Rule) = rule :=
      Rule.eq_of_kind member hk rfl
    have nonempty := List.length_pos_of_ne_nil h.1
    exact settled_pair (by simp; omega)
  | stylesheetDirective =>
    obtain rfl : (⟨.stylesheetDirective, seq (Pattern.text "%%") Rule.restOfLine⟩ : Rule) = rule :=
      Rule.eq_of_kind member hk rfl
    obtain rfl : d = '%' := by simpa [Pattern.begins, Pattern.text, just, nullable] using begins
    exact h.settled_percent first behind (by decide)
  | comment =>
    obtain rfl : (⟨.comment, seq (just '%') Rule.restOfLine⟩ : Rule) = rule :=
      Rule.eq_of_kind member hk rfl
    obtain rfl : d = '%' := by simpa [Pattern.begins, just, nullable] using begins
    exact h.settled_percent first behind (by decide)
  | quotedText =>
    obtain rfl : (⟨.quotedText, quoted '"' fun c => c ≠ '"' && !Text.isLineBreak c⟩ : Rule) = rule :=
      Rule.eq_of_kind member hk rfl
    obtain rfl : d = '"' := by simpa [Pattern.begins, quoted, just, nullable] using begins
    obtain rfl : winner = _ := List.mem_singleton.mp candidate
    exact settled_quoted (by decide) member h.2.1 matched behind
  | symbol =>
    obtain rfl : (⟨.symbol, quoted '!' fun c => c ≠ '!' && !Text.isBlank c⟩ : Rule) = rule :=
      Rule.eq_of_kind member hk rfl
    obtain rfl : d = '!' := by simpa [Pattern.begins, quoted, just, nullable] using begins
    obtain rfl : winner = _ := List.mem_singleton.mp candidate
    exact settled_quoted (by decide) member h.2.1 matched behind
  | _ => simp [Rule.isFree, hk] at free

theorem Cut.settled (h : Cut (p :: (qs ++ q :: rs)))
    (hk : q.kind.isStop = true) (member : rule ∈ Rule.music) :
    rule.pattern.Settled (p.text ++ (Piece.join qs ++ q.text)) := by
  obtain ⟨c, listed, stop⟩ := (h.2.2.right qs).stop hk
  obtain ⟨d, ds, text⟩ := List.exists_cons_of_ne_nil h.1
  have first : d ∈ p.text.head? := by rw [text]; rfl
  -- most rules stop at the letter, the others where the piece does
  cases free : rule.isFree with
  | false =>
    rw [stop, ← List.append_assoc]
    exact settled_of_endsAt (Rule.endsAt_of_mem_music member free listed) _
  | true =>
    cases begins : rule.pattern.begins d with
    | false =>
      rw [text, List.cons_append]
      exact settled_of_not_begins begins _
    | true =>
      obtain ⟨e, es, behind⟩ : ∃ e es, Piece.join qs ++ q.text = e :: es := by
        cases hq : Piece.join qs with
        | nil => exact ⟨c, [], by rw [stop]; rfl⟩
        | cons e es => exact ⟨e, es ++ q.text, rfl⟩
      have next : (Piece.join (qs ++ q :: rs)).head? = some e := by
        rw [Piece.join_append, Piece.join_cons, ← List.append_assoc, behind]
        rfl
      have settled := (h.settled_free member free first begins next).append es
      rw [behind]
      simpa using settled

/-- Up to a letter or bracket the pieces are cut off whatever stands behind it. -/
theorem Cut.before (h : Cut (ps ++ q :: rs)) (hk : q.kind.isStop = true) (us : Text) :
    CutBefore us (ps ++ [q]) := by
  induction ps with
  | nil =>
    obtain ⟨c, listed, text⟩ := h.stop hk
    refine ⟨h.1, ?_, trivial⟩
    rw [← h.2.1, text]
    exact longest_stop listed _ _
  | cons p ps ih =>
    refine ⟨h.1, ?_, ih h.2.2⟩
    rw [← h.2.1]
    apply Rule.longest_congr
    intro rule member
    have same := longest_settled (h.settled hk member) us (Piece.join rs)
    simpa [List.append_assoc] using same

end Scan
end Tunebook
