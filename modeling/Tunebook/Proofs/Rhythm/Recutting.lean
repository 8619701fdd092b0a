import Tunebook.Proofs.Rhythm.Rescaling
import Tunebook.Proofs.Scan.Lines

/-! Rewritten tokens of a music line are the ones that a scan cuts from their text, but that octave
marks side by side are cut as one. Up to the first letter or bracket behind which an edit is made, no
rule looks past it; behind it stands a length or what was there before. -/
namespace Tunebook
open Scan

namespace Token

/-- Puts a token before others. Octave marks of one kind side by side are one. -/
def attach (t : Token) : List Token → List Token
  | [] => [t]
  | u :: us =>
    if t.kind.isOctave && u.kind = t.kind then { t with lexeme := t.lexeme ++ u.lexeme } :: us
    else t :: u :: us

/-- Tokens as a scan cuts them, where octave marks of one kind stand side by side. -/
def fuse : List Token → List Token
  | [] => []
  | t :: ts => attach t (fuse ts)

theorem attach_cases (t : Token) (us : List Token) :
    (attach t us = t :: us ∧ ∀ u ∈ us.head?, t.kind.isOctave = true → u.kind ≠ t.kind) ∨
      ∃ u vs, us = u :: vs ∧ t.kind.isOctave = true ∧ u.kind = t.kind ∧
        attach t us = { t with lexeme := t.lexeme ++ u.lexeme } :: vs := by
  cases us with
  | nil => exact .inl ⟨rfl, by simp⟩
  | cons u vs =>
    by_cases same : t.kind.isOctave = true ∧ u.kind = t.kind
    · exact .inr ⟨u, vs, rfl, same.1, same.2, by simp [attach, same]⟩
    · refine .inl ⟨by simpa [attach] using same, ?_⟩
      rintro v ⟨⟩ octave kind
      exact same ⟨octave, kind⟩

theorem attach_eq (h : ∀ u ∈ us.head?, t.kind.isOctave = true → u.kind ≠ t.kind) :
    attach t us = t :: us := by
  rcases attach_cases t us with ⟨same, _⟩ | ⟨u, vs, rfl, octave, kind, _⟩
  · exact same
  · exact absurd kind (h u rfl octave)

theorem attach_of_not (h : t.kind.isOctave = false) (us : List Token) : attach t us = t :: us := by
  refine attach_eq fun u _ octave => ?_
  rw [h] at octave
  cases octave

@[simp] theorem join_attach (t : Token) (us : List Token) :
    join (attach t us) = t.lexeme ++ join us := by
  rcases attach_cases t us with ⟨same, _⟩ | ⟨u, vs, rfl, _, _, same⟩ <;> simp [same]

@[simp] theorem join_fuse (ts : List Token) : join (fuse ts) = join ts := by
  induction ts with
  | nil => rfl
  | cons t ts ih => rw [fuse, join_attach, ih, join_cons]

theorem kind_head?_fuse (ts : List Token) :
    (fuse ts).head?.map Token.kind = ts.head?.map Token.kind := by
  cases ts with
  | nil => rfl
  | cons t ts =>
    rcases attach_cases t (fuse ts) with ⟨same, _⟩ | ⟨u, vs, _, _, _, same⟩ <;> simp [fuse, same]

theorem NextNot.fuse {p : Kind → Bool} (h : NextNot p ts) : NextNot p (fuse ts) := by
  intro t member
  have kind := kind_head?_fuse ts
  rw [show (Token.fuse ts).head? = some t from member] at kind
  obtain ⟨u, first, same⟩ := Option.map_eq_some_iff.mp kind.symm
  rw [← same]
  exact h u first

theorem fuse_append_of_not {ts : List Token} (h : ∀ t ∈ ts, t.kind.isOctave = false)
    (us : List Token) : fuse (ts ++ us) = ts ++ fuse us := by
  induction ts with
  | nil => rfl
  | cons t ts ih =>
    have behind := ih fun u member => h u (List.mem_cons_of_mem t member)
    rw [List.cons_append, fuse, behind, attach_of_not (h t List.mem_cons_self)]
    rfl

end Token

@[simp] theorem Token.join_map_piece (ts : List Token) : Piece.join (ts.map piece) = join ts := by
  induction ts with
  | nil => rfl
  | cons t ts ih => simp [piece, ih]

/-- The tokens of a length are cut off before what does not go on with it. -/
theorem Length.cutBefore_rhythm (n : Length) (broken : Option Token) {us : Text}
    (next : ∀ c ∈ us.head?, c.isDigit = false ∧ c ≠ '/') :
    CutBefore us ((n.rhythm broken).lengthTokens.map Token.piece) := by
  have number (m : Nat) {vs : Text} (ends : ∀ c ∈ vs.head?, c.isDigit = false) :
      CutBefore vs [(Token.unplaced .number (Nat.toDigits 10 m)).piece] := by
    apply IsRun.cutBefore isRun_number Nat.toDigits_ne_nil _ ends
    intro c member
    exact Nat.isDigit_of_mem_toDigits (by decide) (by decide) member
  have slash {vs : Text} (ends : ∀ c ∈ vs.head?, c ≠ '/') :
      CutBefore vs [(Token.unplaced .slash ['/']).piece] := by
    apply IsRun.cutBefore isRun_slash (List.cons_ne_nil _ _)
    · simp [Token.unplaced, Token.piece]
    · intro c first
      exact decide_eq_false (ends c first)
  have digit (m : Nat) : ∀ c ∈ (Nat.toDigits 10 m ++ us).head?, c ≠ '/' := by
    obtain ⟨d, ds, digits⟩ := List.exists_cons_of_ne_nil (Nat.toDigits_ne_nil (b := 10) (n := m))
    have first : d.isDigit = true :=
      Nat.isDigit_of_mem_toDigits (by decide) (by decide) (digits ▸ List.mem_cons_self)
    rw [digits]
    rintro c ⟨⟩ rfl
    cases first
  -- from the back on: a part is cut off if what follows does not go on with it
  have fraction : CutBefore us (((n.rhythm broken).separator.toList ++
      (n.rhythm broken).denominator.toList).map Token.piece) ∧
      ∀ c ∈ (Token.join ((n.rhythm broken).separator.toList ++
        (n.rhythm broken).denominator.toList) ++ us).head?, c.isDigit = false := by
    by_cases one : n.denominator = 1
    · simpa [Length.rhythm, one, CutBefore] using fun c first => (next c first).1
    · by_cases two : n.denominator = 2
      · simpa [Length.rhythm, two, Token.unplaced] using slash fun c first => (next c first).2
      · have below := number n.denominator fun c first => (next c first).1
        have line := CutBefore.append (slash (by simpa [Token.unplaced, Token.piece] using digit _)) below
        simpa [Length.rhythm, one, two, Token.unplaced] using line
  rw [Rhythm.lengthTokens, List.append_assoc, List.map_append]
  apply CutBefore.append _ fraction.1
  rw [Token.join_map_piece]
  by_cases one : n.numerator = 1
  · simp [Length.rhythm, one, CutBefore]
  · simpa [Length.rhythm, one] using number n.numerator fraction.2

/-- The tokens of a new length are cut off behind what they follow. -/
theorem Length.cut_rhythm (n : Length) (broken : Option Token) (rest : Cut ps)
    (next : ∀ q ∈ ps.head?, q.kind.isLength = false) :
    Cut ((n.rhythm broken).lengthTokens.map Token.piece ++ ps) := by
  have differs {k : Kind} (length : k.isLength = true) : ∀ q ∈ ps.head?, q.kind ≠ k := by
    rintro q member rfl
    rw [next q member] at length
    cases length
  apply CutBefore.cut _ rest
  apply n.cutBefore_rhythm broken
  intro c first
  constructor
  · exact rest.head?_join isRun_number (differs rfl) c first
  · exact of_decide_eq_false (rest.head?_join isRun_slash (differs rfl) c first)

namespace Rewritten

/-- Up to the first letter or bracket behind which an edit is made, nothing changes. -/
theorem eq_or_stop (h : Rewritten k ts es us) : us = ts ∨
    ∃ vs s ts' us', ts = vs ++ s :: ts' ∧ us = vs ++ s :: us' ∧ s.kind.isStop = true := by
  induction h with
  | nil => exact .inl rfl
  | keep t _ ih =>
    rcases ih with rfl | ⟨vs, s, ts', us', rfl, rfl, stop⟩
    · exact .inl rfl
    · exact .inr ⟨t :: vs, s, ts', us', rfl, rfl, stop⟩
  | sound head =>
    cases head with
    | letter hk =>
      refine .inr ⟨[], _, _, _, rfl, rfl, ?_⟩
      rcases hk with hk | hk <;> rw [hk] <;> rfl
    | octave hk => exact .inr ⟨[], _, _, _, rfl, rfl, by rw [hk]; rfl⟩
    | bracket hk => exact .inr ⟨[], _, _, _, rfl, rfl, by rw [hk]; rfl⟩

/-- A kept token is cut off as before. -/
theorem cut_keep (h : Rewritten k ts es us) (cut : Cut ((t :: ts).map Token.piece))
    {ps : List Piece} (text : Piece.join ps = Token.join us)
    (rest : Cut ps) : Cut (t.piece :: ps) := by
  refine ⟨cut.1, ?_, rest⟩
  rw [text]
  rcases h.eq_or_stop with rfl | ⟨vs, s, ts', us', rfl, rfl, stop⟩
  · simpa [Token.piece] using cut.2.1
  · rw [← cut.2.1]
    refine Rule.longest_congr fun rule member => ?_
    simp only [List.map_cons, List.map_append] at cut
    have settled := cut.settled stop member
    have same := Pattern.longest_settled settled (Token.join us') (Token.join ts')
    simpa [Token.piece] using same

theorem isRun_octave {k : Kind} (h : k.isOctave = true) : ∃ d ∈ ['\x27', ','], IsRun k (· = d) := by
  cases k with
  | apostrophe => exact ⟨'\x27', by simp, isRun_apostrophe⟩
  | comma => exact ⟨',', by simp, isRun_comma⟩
  | _ => cases h

/-- No octave mark stands before another of its kind. -/
theorem octave_ends (cut : Cut ((t :: ts).map Token.piece)) :
    ∀ u ∈ ts.head?, t.kind.isOctave = true → u.kind ≠ t.kind := by
  intro u member octave
  obtain ⟨d, _, run⟩ := isRun_octave octave
  refine Cut.run_ends (p := t.piece) cut run u.piece ?_
  rw [List.head?_map, show ts.head? = some u from member]
  rfl

theorem isOctave_of_isLength {k : Kind} (h : k.isLength = true) : k.isOctave = false := by
  cases k <;> cases h <;> rfl

theorem fuse_length {r : Rhythm} (fits : r.Fits) (us : List Token) :
    Token.fuse (r.lengthTokens ++ us) = r.lengthTokens ++ Token.fuse us :=
  Token.fuse_append_of_not
    (fun _ member => isOctave_of_isLength (Rhythm.isLength_of_mem fits member)) us

/-- Kept, a token is not fused with what follows. -/
theorem attach_fuse (h : Rewritten k ts es us) (cut : Cut ((t :: ts).map Token.piece)) :
    Token.attach t (Token.fuse us) = t :: Token.fuse us := by
  refine Token.attach_eq fun u member octave same => ?_
  have kind := Token.kind_head?_fuse us
  rw [show (Token.fuse us).head? = some u from member, h.head?_eq] at kind
  obtain ⟨v, first, own⟩ := Option.map_eq_some_iff.mp kind.symm
  exact octave_ends cut v first octave (own.trans same)

/-- An octave mark is cut off behind its letter, together with one that it is left before. -/
theorem cut_octave {m : Token} (octave : m.kind.isOctave = true) (own : Cut (m.piece :: qs))
    (rest : Cut (vs.map Token.piece)) : Cut ((Token.attach m vs).map Token.piece) := by
  obtain ⟨d, _, run⟩ := isRun_octave octave
  have run : IsRun m.piece.kind (· = d) := run
  rcases Token.attach_cases m vs with ⟨same, ends⟩ | ⟨v, vs, rfl, _, kind, same⟩
  · rw [same]
    refine Cut.run run own.1 (own.mem_run run) ?_ rest
    intro q member
    obtain ⟨v, first, rfl⟩ := Option.map_eq_some_iff.mp (List.head?_map ▸ member)
    exact ends v first octave
  · rw [same]
    have run' : IsRun v.piece.kind (· = d) := by
      rw [show v.piece.kind = m.piece.kind from kind]
      exact run
    refine Cut.run (p := ⟨m.kind, m.lexeme ++ v.lexeme⟩) run ?_ ?_ ?_ rest.2.2
    · exact List.append_ne_nil_of_left_ne_nil own.1 v.lexeme
    · intro c member
      rcases List.mem_append.mp member with member | member
      · exact own.mem_run run c member
      · exact rest.mem_run run' c member
    · intro q member
      have ends := rest.run_ends run' q member
      rwa [show v.piece.kind = m.kind from kind] at ends

theorem cut (h : Rewritten k ts es us) (cut : Cut (ts.map Token.piece)) :
    Cut ((Token.fuse us).map Token.piece) := by
  induction h with
  | nil => trivial
  | @keep ts es us t h ih =>
    have rest := ih cut.2.2
    rw [Token.fuse, h.attach_fuse cut]
    exact h.cut_keep cut (by simp) rest
  | @sound head r e ts es us hd fits he bound h ih =>
    simp only [List.map_append] at cut
    have rest := ih ((cut.right _).right _)
    obtain ⟨n, given, text⟩ := Scaling.exists_of_ofRhythm he
    have rescaled : r.rescale k = n.rhythm r.broken := by rw [Rhythm.rescale, given]
    have next : ∀ q ∈ ((Token.fuse us).map Token.piece).head?, q.kind.isLength = false := by
      intro q member
      obtain ⟨u, first, rfl⟩ := Option.map_eq_some_iff.mp (List.head?_map ▸ member)
      exact (h.nextNot bound).fuse u first
    have behind := n.cut_rhythm r.broken rest next
    rw [← rescaled, ← List.map_append] at behind
    cases hd with
    | @letter t hk =>
      have silent : t.kind.isOctave = false := by rcases hk with hk | hk <;> rw [hk] <;> rfl
      rw [List.singleton_append, Token.fuse, fuse_length (fits.rescale k),
        Token.attach_of_not silent]
      refine cut.stop_append ?_ behind
      rcases hk with hk | hk <;> simp [Token.piece, hk, Kind.isStop]
    | @bracket t hk =>
      rw [List.singleton_append, Token.fuse, fuse_length (fits.rescale k),
        Token.attach_of_not (by rw [hk]; rfl)]
      exact cut.stop_append (by simp [Token.piece, hk, Kind.isStop]) behind
    | @octave t m hk hm =>
      rw [List.cons_append, List.singleton_append, Token.fuse, Token.fuse,
        fuse_length (fits.rescale k), Token.attach_of_not (by rw [hk]; rfl)]
      refine cut.stop_append (by simp [Token.piece, hk, Kind.isStop]) ?_
      exact cut_octave hm cut.2.2 behind

/-- If no edit joins what it leaves, there is nothing to fuse. -/
theorem fuse_eq (h : Rewritten k ts es us) (cut : Cut (ts.map Token.piece))
    (apart : Unjoined all ts es) : Token.fuse us = us := by
  induction h with
  | nil => rfl
  | @keep ts es us t h ih =>
    rw [Token.fuse, h.attach_fuse cut, ih cut.2.2 apart.tail]
  | @sound head r e ts es us hd fits he bound h ih =>
    have joins := apart.not_joins he List.mem_cons_self
    have rest := ih (by simp only [List.map_append] at cut; exact (cut.right _).right _)
      ((apart.right head (List.subset_cons_self e es)).right r.lengthTokens (List.Subset.refl _))
    have behind := fuse_length (fits.rescale k) us
    rw [rest] at behind
    cases hd with
    | @letter t hk =>
      have silent : t.kind.isOctave = false := by rcases hk with hk | hk <;> rw [hk] <;> rfl
      rw [List.singleton_append, Token.fuse, behind, Token.attach_of_not silent]
    | @bracket t hk =>
      rw [List.singleton_append, Token.fuse, behind, Token.attach_of_not (by rw [hk]; rfl)]
    | @octave t m hk hm =>
      rw [List.cons_append, List.singleton_append, Token.fuse, Token.fuse, behind,
        Token.attach_of_not (by rw [hk]; rfl), Token.attach_eq ?_]
      -- a length comes between octave marks, and without one the edit joins them
      intro u member octave same
      cases hl : (r.rescale k).lengthTokens with
      | nil =>
        obtain ⟨n, given, text⟩ := Scaling.exists_of_ofRhythm he
        have bare : e.text = [] := by
          rw [Rhythm.rescale, given] at hl
          rw [text, ← n.join_rhythm r.broken, hl]
          rfl
        rw [hl, List.nil_append, h.head?_eq] at member
        exact joins m rfl u member bare (.inr (.inl ⟨hm, same⟩))
      | cons first others =>
        rw [hl] at member
        cases member
        have length := Rhythm.isLength_of_mem (fits.rescale k) (hl ▸ List.mem_cons_self)
        rw [← same, isOctave_of_isLength length] at octave
        cases octave

end Rewritten
end Tunebook
