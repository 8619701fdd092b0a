import Mathlib.Data.List.SplitBy
import Tunebook.Scan

/-! The pieces of a text: put together they are the text again, none of them is empty, and none is
an end mark. -/
namespace Tunebook

theorem dropTrailing_isPrefix (p : α → Bool) (as : List α) : dropTrailing p as <+: as := by
  induction as with
  | nil => exact List.nil_prefix
  | cons a as ih =>
    unfold dropTrailing
    split
    · split
      · exact List.nil_prefix
      · exact ⟨as, rfl⟩
    next rest h => exact List.cons_prefix_cons.mpr ⟨rfl, ih⟩

/-- Whatever is dropped at the end passes. -/
theorem mem_drop_dropTrailing (p : α → Bool) (as : List α) :
    ∀ a ∈ as.drop (dropTrailing p as).length, p a = true := by
  induction as with
  | nil => simp
  | cons a as ih =>
    unfold dropTrailing
    split
    next none =>
      rw [none, List.length_nil, List.drop_zero] at ih
      split
      next passes =>
        intro b member
        rcases List.mem_cons.mp member with rfl | member
        · exact passes
        · exact ih b member
      · simpa using ih
    · simpa using ih

theorem exists_dropTrailing_append (p : α → Bool) (as : List α) :
    ∃ tail, as = dropTrailing p as ++ tail ∧ ∀ a ∈ tail, p a = true :=
  ⟨_, (List.prefix_iff_eq_append.mp (dropTrailing_isPrefix p as)).symm, mem_drop_dropTrailing p as⟩

theorem not_of_mem_getLast?_dropTrailing {as : List α} (h : a ∈ (dropTrailing p as).getLast?) :
    p a = false := by
  induction as with
  | nil => cases h
  | cons b as ih =>
    unfold dropTrailing at h
    split at h
    · split at h
      · cases h
      next fails =>
        cases h
        exact Bool.not_eq_true _ ▸ fails
    next rest nonempty =>
      refine ih ?_
      rwa [List.getLast?_cons_of_ne_nil nonempty] at h

/-- The texts of the pieces, one after the other. -/
def Piece.join (ps : List Piece) : Text :=
  ps.flatMap Piece.text

@[simp] theorem Piece.join_nil : join [] = [] := rfl

@[simp] theorem Piece.join_cons (p : Piece) (ps : List Piece) :
    join (p :: ps) = p.text ++ join ps := rfl

@[simp] theorem Piece.join_append (ps qs : List Piece) : join (ps ++ qs) = join ps ++ join qs :=
  List.flatMap_append

/-- The rule that wins, and what it matches. -/
theorem Rule.exists_of_longest {rules : List Rule} (h : longest rules cs = some (k, n)) :
    ∃ rule ∈ rules, rule.kind = k ∧ rule.pattern.longest cs = some n := by
  induction rules with
  | nil => simp [longest] at h
  | cons rule rules ih =>
    have tail : longest rules cs = some (k, n) →
        ∃ r ∈ rule :: rules, r.kind = k ∧ r.pattern.longest cs = some n := by
      intro found
      obtain ⟨r, member, wins⟩ := ih found
      exact ⟨r, List.mem_cons_of_mem rule member, wins⟩
    simp only [longest] at h
    split at h
    next first second =>
      split at h
      · cases h
        exact ⟨rule, List.mem_cons_self, rfl, first⟩
      · cases h
        exact tail second
    next first _ =>
      cases h
      exact ⟨rule, List.mem_cons_self, rfl, first⟩
    · exact tail h

theorem Rule.recognise_eq_token_iff {rules : List Rule} :
    recognise rules cs = .token k n ↔ longest rules cs = some (k, n) := by
  unfold recognise
  split
  next wins => simp [wins]
  next none => simp [none]

theorem Rule.longest_of_recognise_eq_failure {rules : List Rule}
    (h : recognise rules cs = .failure width) : longest rules cs = none := by
  unfold recognise at h
  split at h
  · cases h
  next none => exact none

namespace Scan

/-- Pieces that a scan may yield: with text, and no end marks. -/
def IsProper (p : Piece) : Prop :=
  p.text ≠ [] ∧ p.kind ≠ .eof

theorem join_music (recognise : Text → Recognition) (cs : Text) :
    Piece.join (music recognise cs) = cs := by
  fun_induction music recognise cs with
  | case1 => rfl
  | case2 c cs kind n h ih => simp [ih]
  | case3 c cs kind h ih | case4 c cs width h ih => simp [ih]

theorem mem_music {recognise : Text → Recognition} (h : p ∈ music recognise cs) :
    p.text ≠ [] ∧ (p.kind = .invalid ∨
      ∃ us n, recognise us = .token p.kind n ∧ p.text = us.take n) := by
  fun_induction music recognise cs with
  | case1 => simp at h
  | case2 c cs kind n hr ih =>
    rcases List.mem_cons.mp h with rfl | h
    · exact ⟨by simp, .inr ⟨_, _, hr, rfl⟩⟩
    · exact ih h
  | case3 c cs kind hr ih | case4 c cs width hr ih =>
    rcases List.mem_cons.mp h with rfl | h
    · exact ⟨by simp, .inl rfl⟩
    · exact ih h

/-- The rule that cut a piece, if any did. -/
theorem exists_rule_of_mem_musicLine (h : p ∈ musicLine cs) : p.kind = .invalid ∨
    ∃ rule ∈ Rule.music, rule.kind = p.kind ∧
      ∃ us n, rule.pattern.longest us = some n ∧ p.text = us.take n := by
  obtain ⟨_, invalid | ⟨us, n, recognised, text⟩⟩ := mem_music h
  · exact .inl invalid
  · obtain ⟨rule, member, same, longest⟩ :=
      Rule.exists_of_longest (Rule.recognise_eq_token_iff.mp recognised)
    exact .inr ⟨rule, member, same, us, n, longest, text⟩

theorem kind_ne_eof_of_mem_music (rule : Rule) (h : rule ∈ Rule.music) : rule.kind ≠ .eof := by
  have every : (Rule.music.map Rule.kind).all (· ≠ .eof) = true := by decide
  simpa using List.all_eq_true.mp every rule.kind (List.mem_map_of_mem h)

theorem isProper_of_mem_musicLine (h : p ∈ musicLine cs) : IsProper p := by
  refine ⟨(mem_music h).1, ?_⟩
  rcases exists_rule_of_mem_musicLine h with invalid | ⟨rule, member, same, _⟩
  · simp [invalid]
  · exact same ▸ kind_ne_eof_of_mem_music rule member

theorem splitComment_append (escaped : Bool) (value : Text) :
    (splitComment escaped value).1 ++ (splitComment escaped value).2 = value := by
  induction value generalizing escaped with
  | nil => rfl
  | cons c cs ih =>
    unfold splitComment
    split
    · rfl
    · simp [ih]

theorem join_proseRuns (value : Text) : Piece.join (proseRuns value) = value := by
  simp only [proseRuns, Piece.join, List.flatMap_map]
  exact List.flatMap_id.trans (List.flatten_splitBy _ value)

theorem isProper_of_mem_proseRuns (h : p ∈ proseRuns value) : IsProper p := by
  obtain ⟨run, member, rfl⟩ := List.mem_map.mp h
  refine ⟨List.ne_nil_of_mem_splitBy member, ?_⟩
  dsimp only
  split <;> decide

theorem join_commentPiece (comment : Text) : Piece.join (commentPiece comment) = comment := by
  unfold commentPiece
  split <;> simp

theorem isProper_of_mem_commentPiece (h : p ∈ commentPiece comment) : IsProper p := by
  unfold commentPiece at h
  split at h
  · simp at h
  · obtain rfl := List.mem_singleton.mp h
    exact ⟨by simp, by simp⟩
  next nonempty _ =>
    obtain rfl := List.mem_singleton.mp h
    exact ⟨nonempty, by simp⟩

theorem join_infoLine (key rest : Text) : Piece.join (infoLine key rest) = key ++ rest := by
  have content := List.prefix_iff_eq_append.mp (dropTrailing_isPrefix Text.isLineBreak rest)
  simp only [infoLine, Piece.join_append, Piece.join_cons, join_proseRuns, join_commentPiece,
    musicLine, join_music, List.append_assoc, List.cons_append]
  rw [← List.append_assoc (splitComment _ _).1, splitComment_append, Text.lineContent, content]

theorem isProper_of_mem_infoLine (nonempty : key ≠ []) (h : p ∈ infoLine key rest) :
    IsProper p := by
  simp only [infoLine, List.cons_append, List.mem_cons, List.mem_append] at h
  rcases h with rfl | (h | h) | h
  · exact ⟨nonempty, by simp⟩
  · exact isProper_of_mem_proseRuns h
  · exact isProper_of_mem_commentPiece h
  · exact isProper_of_mem_musicLine h

/-- A line is an information line, by the field it starts with, or music. -/
theorem line_cases (cs : Text) : line cs = musicLine cs ∨
    ∃ c rest, startsField c = true ∧ cs = c :: ':' :: rest ∧ line cs = infoLine [c, ':'] rest := by
  unfold line
  split
  next c rest =>
    split
    next starts => exact .inr ⟨c, rest, starts, rfl, rfl⟩
    · exact .inl rfl
  · exact .inl rfl

theorem join_line (cs : Text) : Piece.join (line cs) = cs := by
  obtain music | ⟨c, rest, _, rfl, info⟩ := line_cases cs
  · rw [music]
    exact join_music _ cs
  · rw [info]
    exact join_infoLine [c, ':'] rest

theorem isProper_of_mem_line (h : p ∈ line cs) : IsProper p := by
  obtain music | ⟨c, rest, _, _, info⟩ := line_cases cs
  · exact isProper_of_mem_musicLine (music ▸ h)
  · exact isProper_of_mem_infoLine (by simp) (info ▸ h)

theorem join_pieces (text : Text) : Piece.join (pieces text) = text := by
  have lines : ∀ ls : List Text, Piece.join (ls.flatMap line) = ls.flatten := by
    intro ls
    induction ls with
    | nil => rfl
    | cons l ls ih => simp [ih, join_line]
  rw [pieces, lines, Text.flatten_lines]

theorem isProper_of_mem_pieces (h : p ∈ pieces text) : IsProper p := by
  obtain ⟨l, _, member⟩ := List.mem_flatMap.mp h
  exact isProper_of_mem_line member

end Scan
end Tunebook
