import Tunebook.Proofs.Rhythm.Recutting
import Tunebook.Proofs.Scan.Tiling

/-! Rewritten tokens are the ones that a scan finds in their text, line by line: information lines
have nothing to rewrite, and a music line becomes one only where an edit joins its first letter to a
colon. -/
namespace Tunebook

/-- The kinds of heads and lengths. -/
def Kind.isSounding (k : Kind) : Bool :=
  k.isStop || k.isOctave || k.isLength

namespace Scan

theorem not_mem_of_isSounding (h : p ∈ musicLine cs) (hk : p.kind.isSounding = true)
    (hc : Text.isLineBreak c = true) : c ∉ p.text := by
  have valid : p.kind ≠ .invalid := by
    rintro kind
    rw [kind] at hk
    cases hk
  obtain ⟨rule, member, same, whole⟩ := matches_of_mem_musicLine h valid
  have goesOn : rule.kind.breaksLine = false := by
    rw [same]
    cases kind : p.kind <;> rw [kind] at hk <;> first | rfl | cases hk
  exact Pattern.not_mem_of_avoids (Rule.avoids_of_not_breaksLine member goesOn hc) whole

theorem isSounding_of_mem_proseRuns (h : p ∈ proseRuns value) : p.kind.isSounding = false := by
  obtain ⟨run, _, rfl⟩ := List.mem_map.mp h
  dsimp only
  split <;> rfl

theorem isSounding_of_mem_commentPiece (h : p ∈ commentPiece comment) :
    p.kind.isSounding = false := by
  unfold commentPiece at h
  split at h
  · cases h
  · obtain rfl := List.mem_singleton.mp h
    rfl
  · obtain rfl := List.mem_singleton.mp h
    rfl

theorem isSounding_of_mem_infoLine (h : p ∈ infoLine key rest) : p.kind.isSounding = false := by
  simp only [infoLine, List.cons_append, List.mem_cons, List.mem_append] at h
  rcases h with rfl | (h | h) | h
  · rfl
  · exact isSounding_of_mem_proseRuns h
  · exact isSounding_of_mem_commentPiece h
  · cases hk : p.kind.isSounding with
    | false => rfl
    | true =>
      obtain ⟨c, cs, text⟩ := List.exists_cons_of_ne_nil (isProper_of_mem_musicLine h).1
      have inside : c ∈ rest.drop (Text.lineContent rest).length := by
        rw [← join_music (Rule.recognise Rule.music) (rest.drop (Text.lineContent rest).length)]
        exact List.mem_flatMap.mpr ⟨p, h, text ▸ List.mem_cons_self⟩
      have breaks := mem_drop_dropTrailing Text.isLineBreak rest c inside
      exact absurd (text ▸ List.mem_cons_self) (not_mem_of_isSounding h hk breaks)

theorem start_of_mem_head?_placed (h : t ∈ (placed start offset ps).head?) : t.start = start := by
  cases ps with
  | nil => cases h
  | cons p ps =>
    cases h
    rfl

theorem isSounding_of_mem_field (field : IsField cs) (h : p ∈ line cs) :
    p.kind.isSounding = false := by
  obtain ⟨c, rest, rfl, starts⟩ := field
  simp only [line, starts, if_true] at h
  exact isSounding_of_mem_infoLine h

theorem not_mem_of_mem_line (h : p ∈ line cs) (hk : p.kind.isSounding = true)
    (hc : Text.isLineBreak c = true) : c ∉ p.text := by
  by_cases field : IsField cs
  · rw [isSounding_of_mem_field field h] at hk
    cases hk
  · rw [line_of_not_field field] at h
    exact not_mem_of_isSounding h hk hc

theorem isSounding_of_newline (h : p ∈ line cs) (newline : '\n' ∈ p.text) :
    p.kind.isSounding = false := by
  cases hk : p.kind.isSounding with
  | false => rfl
  | true => exact absurd newline (not_mem_of_mem_line h hk rfl)

end Scan

theorem Length.mem_render {n : Length} (h : c ∈ n.render) : c.isDigit = true ∨ c = '/' := by
  have digits (m : Nat) (member : c ∈ Nat.toDigits 10 m) : c.isDigit = true :=
    Nat.isDigit_of_mem_toDigits (by decide) (by decide) member
  unfold render at h
  rcases List.mem_append.mp h with above | below
  · split at above
    · cases above
    · exact .inl (digits _ above)
  · split at below
    · cases below
    · exact .inr (List.mem_singleton.mp below)
    · rcases List.mem_cons.mp below with slash | below
      · exact .inr slash
      · exact .inl (digits _ below)

theorem Length.newline_not_mem_render (n : Length) : '\n' ∉ n.render := by
  intro member
  rcases mem_render member with digit | slash
  · exact absurd digit (by decide)
  · exact absurd slash (by decide)

theorem IsHead.isSounding (h : IsHead head) : ∀ t ∈ head, t.kind.isSounding = true := by
  intro t member
  cases h with
  | letter hk =>
    obtain rfl := List.mem_singleton.mp member
    rcases hk with hk | hk <;> rw [hk] <;> rfl
  | bracket hk =>
    obtain rfl := List.mem_singleton.mp member
    rw [hk]
    rfl
  | octave hk hm =>
    rcases List.mem_cons.mp member with rfl | member
    · rw [hk]
      rfl
    · obtain rfl := List.mem_singleton.mp member
      rw [Kind.isSounding, hm, Bool.or_true, Bool.true_or]

theorem IsHead.isSounding_append {r : Rhythm} (h : IsHead head) (fits : r.Fits) :
    ∀ t ∈ head ++ r.lengthTokens, t.kind.isSounding = true := by
  intro t member
  rcases List.mem_append.mp member with member | member
  · exact h.isSounding t member
  · rw [Kind.isSounding, Rhythm.isLength_of_mem fits member, Bool.or_true]

namespace Rewritten
open Scan

theorem eq_of_isSounding (h : Rewritten k ts es us) (silent : ∀ t ∈ ts, t.kind.isSounding = false) :
    us = ts := by
  rcases h.eq_or_stop with same | ⟨vs, s, ts', us', rfl, rfl, stop⟩
  · exact same
  · have sounding := silent s (by simp)
    rw [Kind.isSounding, stop] at sounding
    cases sounding

/-- Where a colon stands first, a token starts with it that is no length. -/
theorem exists_colon (cut : Cut (ts.map Token.piece)) (h : (Token.join ts).head? = some ':') :
    ∃ t ∈ ts.head?, t.lexeme.head? = some ':' ∧ t.kind.isLength = false := by
  cases ts with
  | nil => cases h
  | cons t ts =>
    obtain ⟨c, cs, text⟩ := List.exists_cons_of_ne_nil cut.1
    have text : t.lexeme = c :: cs := text
    rw [Token.join_cons, text] at h
    have first : t.lexeme.head? = some ':' := by
      rw [text]
      exact h
    obtain ⟨rule, member, same, _⟩ := cut.exists_candidate first
    have lengths : (Rule.candidates ':').all (!·.kind.isLength) = true := by decide
    have row := List.all_eq_true.mp lengths rule member
    rw [same] at row
    exact ⟨t, rfl, first, (Bool.not_eq_true' _).mp row⟩

theorem head?_join (h : Rewritten k ts es us) (cut : Cut (ts.map Token.piece)) :
    (Token.join us).head? = (Token.join ts).head? := by
  cases ts with
  | nil =>
    obtain ⟨_, rfl⟩ := h.nil_inv
    rfl
  | cons t ts =>
    obtain ⟨us, rfl⟩ := List.head?_eq_some_iff.mp h.head?_eq
    obtain ⟨c, cs, text⟩ := List.exists_cons_of_ne_nil cut.1
    rw [Token.join_cons, Token.join_cons, show t.lexeme = c :: cs from text]
    rfl

/-- Whether a line is an information line is told by its first two characters. -/
theorem isField_congr {w us : Text} (long : 2 ≤ w.length) (field : IsField (w ++ us)) (vs : Text) :
    IsField (w ++ vs) := by
  obtain ⟨c, rest, text, starts⟩ := field
  match w, long with
  | d :: e :: w, _ =>
    obtain ⟨rfl, behind⟩ := List.cons.inj text
    obtain ⟨rfl, _⟩ := List.cons.inj behind
    exact ⟨d, w ++ vs, rfl, starts⟩

/-- A line that starts with a kept token is an information line only if it was one. -/
theorem isField_of_keep (h : Rewritten k ts es us) (cut : Cut ((t :: ts).map Token.piece))
    (field : IsField (Token.join (t :: us))) : IsField (Token.join (t :: ts)) := by
  obtain ⟨d, ds, lexeme⟩ := List.exists_cons_of_ne_nil cut.1
  have lexeme : t.lexeme = d :: ds := lexeme
  rw [Token.join_cons, lexeme] at field ⊢
  cases ds with
  | nil =>
    obtain ⟨c, rest, text, starts⟩ := field
    obtain ⟨rfl, behind⟩ := List.cons.inj text
    have behind : Token.join us = ':' :: rest := behind
    have first := h.head?_join cut.2.2
    rw [behind] at first
    obtain ⟨more, old⟩ := List.head?_eq_some_iff.mp first.symm
    rw [old]
    exact ⟨d, more, rfl, starts⟩
  | cons e ds => exact isField_congr (by simp) field _

/-- Where a colon comes behind a letter, no length stands between them. -/
theorem lengthTokens_eq_nil {t : Token} {r : Rhythm} (silent : t.kind.isOctave = false)
    (fits : r.Fits) (recut : Cut ((Token.fuse (t :: (r.lengthTokens ++ us))).map Token.piece))
    (behind : (Token.join (r.lengthTokens ++ us)).head? = some ':') : r.lengthTokens = [] := by
  cases hl : r.lengthTokens with
  | nil => rfl
  | cons q others =>
    rw [Token.fuse, fuse_length fits, Token.attach_of_not silent] at recut
    have fused : Token.join (r.lengthTokens ++ Token.fuse us) = Token.join (r.lengthTokens ++ us) := by
      simp
    obtain ⟨u, hu, _, length⟩ := exists_colon recut.2.2 (by rw [fused]; exact behind)
    rw [hl] at hu
    cases hu
    have own := Rhythm.isLength_of_mem fits (hl ▸ List.mem_cons_self)
    rw [own] at length
    cases length

/-- A music line becomes an information line only where an edit leaves its first letter before a
colon. -/
theorem starts_of_isField (h : Rewritten k ts es us) (cut : Cut (ts.map Token.piece))
    (music : ¬IsField (Token.join ts))
    (field : IsField (Token.join us)) : ∃ t r e ss fs vs u, ts = t :: (r.lengthTokens ++ ss) ∧
      es = e :: fs ∧ us = t :: vs ∧ (t.kind = .noteLetter ∨ t.kind = .restLetter) ∧
      k.ofRhythm r (some t) = some e ∧ e.text = [] ∧ ss.head? = some u ∧ vs.head? = some u ∧
      u.lexeme.head? = some ':' := by
  have recut := h.cut cut
  cases h with
  | nil =>
    obtain ⟨c, rest, text, _⟩ := field
    cases text
  | keep t h => exact absurd (isField_of_keep h cut field) music
  | @sound head r e ts es us hd fits he bound h =>
    cases hd with
    | @letter t hk =>
      have stop : t.piece.kind.isStop = true := by
        rcases hk with hk | hk <;> simp [Token.piece, hk, Kind.isStop]
      have silent : t.kind.isOctave = false := by rcases hk with hk | hk <;> rw [hk] <;> rfl
      obtain ⟨d, _, lexeme⟩ := cut.stop stop
      have lexeme : t.lexeme = [d] := lexeme
      obtain ⟨c, rest, text, _⟩ := field
      simp only [List.singleton_append, Token.join_cons, lexeme, List.cons.injEq] at text
      have behind : (Token.join ((r.rescale k).lengthTokens ++ us)).head? = some ':' :=
        congrArg List.head? text.2
      have none := lengthTokens_eq_nil silent (fits.rescale k) recut behind
      have bare : e.text = [] := by
        rw [← Rhythm.join_rescale he, none]
        rfl
      have after : Cut (ts.map Token.piece) := by
        simp only [List.map_append] at cut
        exact (cut.right _).right _
      rw [none, List.nil_append, h.head?_join after] at behind
      obtain ⟨u, hu, colon, _⟩ := exists_colon after behind
      rw [none]
      exact ⟨t, r, e, ts, es, us, u, rfl, rfl, rfl, hk, he, bare, hu, h.head?_eq.trans hu, colon⟩
    | @octave t m hk hm =>
      have long : 2 ≤ (Token.join [t, m]).length := by
        have first := List.length_pos_iff.mpr cut.1
        have second := List.length_pos_iff.mpr cut.2.2.1
        simp only [Token.piece] at first second
        simp only [Token.join_cons, Token.join_nil, List.length_append, List.length_nil]
        omega
      rw [Token.join_append] at field music
      exact absurd (isField_congr long field _) music
    | @bracket t hk =>
      -- no field starts with a bracket
      have found : Rule.music.find? (·.kind = .rightBracket) =
          some ⟨.rightBracket, .seq (.just ']') .empty⟩ := rfl
      obtain ⟨d, passes, lexeme⟩ :=
        Pattern.matches_char.mp (Pattern.matches_seq_empty.mp (cut.matches hk found))
      have lexeme : t.lexeme = [d] := lexeme
      obtain rfl := of_decide_eq_true passes
      obtain ⟨c, rest, text, starts⟩ := field
      simp only [List.singleton_append, Token.join_cons, lexeme, List.cons.injEq] at text
      rw [← text.1] at starts
      exact absurd starts (by decide)

end Rewritten

namespace Scan

/-- The tokens of one line of a text. -/
structure IsLine (ts : List Token) (l : Text) : Prop where
  pieces : ts.map Token.piece = line l
  first : ∀ t ∈ ts.head?, t.start.column = 0
  later : ∀ t ∈ ts.tail, t.start.column ≠ 0

theorem IsLine.text (h : IsLine ts l) : Token.join ts = l := by
  rw [← Token.join_map_piece, h.pieces, join_line]

theorem IsLine.isSounding_of_field (h : IsLine ts l) (field : IsField l) :
    ∀ t ∈ ts, t.kind.isSounding = false := by
  intro t member
  have listed : t.piece ∈ line l := h.pieces ▸ List.mem_map_of_mem member
  exact isSounding_of_mem_field field listed

/-- The last token of a line holds its line feed, so it does not sound. -/
theorem IsLine.exists_stop (h : IsLine ts (content ++ ['\n'])) : ∃ front stop w,
    ts = front ++ [stop] ∧ stop.lexeme = w ++ ['\n'] ∧ stop.kind.isSounding = false := by
  have text := h.text
  rcases List.eq_nil_or_concat' ts with rfl | ⟨front, stop, rfl⟩
  · simp at text
  · have listed : stop.piece ∈ line (content ++ ['\n']) := by
      rw [← h.pieces]
      simp
    obtain ⟨w, c, lexeme⟩ : ∃ w c, stop.lexeme = w ++ [c] :=
      (List.eq_nil_or_concat' stop.lexeme).resolve_left (isProper_of_mem_line listed).1
    rw [Token.join_append, Token.join_cons, Token.join_nil, List.append_nil, lexeme,
      ← List.append_assoc] at text
    obtain rfl : c = '\n' := by simpa using (List.append_inj' text rfl).2
    exact ⟨front, stop, w, rfl, lexeme,
      isSounding_of_newline listed (by simp [Token.piece, lexeme])⟩

theorem IsLine.cut (h : IsLine ts l) (music : ¬IsField l)
    (sound : ∀ t ∈ ts, t.lexicalFault? = none) : Cut (ts.map Token.piece) := by
  have pieces := h.pieces
  rw [line_of_not_field music] at pieces
  rw [pieces]
  refine cut_musicLine fun p member invalid => ?_
  rw [← pieces] at member
  obtain ⟨t, listed, rfl⟩ := List.mem_map.mp member
  have kind : t.kind = .invalid := invalid
  have fault := sound t listed
  simp [Token.lexicalFault?, kind] at fault

end Scan

namespace Rewritten
open Scan

theorem fuse_silent (silent : ∀ t ∈ ts, t.kind.isSounding = false) : Token.fuse ts = ts := by
  have none : ∀ t ∈ ts, t.kind.isOctave = false := by
    intro t member
    have quiet := silent t member
    simp only [Kind.isSounding, Bool.or_eq_false_iff] at quiet
    exact quiet.1.2
  have whole := Token.fuse_append_of_not none []
  rwa [List.append_nil, Token.fuse, List.append_nil] at whole

/-- Rewritten, the tokens of a line are those of their text, fused, unless it is music and no music
any more. -/
theorem line_eq (h : Rewritten k ts es us) (own : IsLine ts l)
    (sound : ∀ t ∈ ts, t.lexicalFault? = none) (same : IsField (Token.join us) → IsField l) :
    Scan.line (Token.join us) = (Token.fuse us).map Token.piece := by
  by_cases field : IsField l
  · have silent := own.isSounding_of_field field
    rw [h.eq_of_isSounding silent, fuse_silent silent, own.text, own.pieces]
  · have music : ¬IsField (Token.join us) := fun now => field (same now)
    rw [line_of_not_field music, ← Token.join_fuse, ← Token.join_map_piece]
    exact musicLine_of_cut (h.cut (own.cut field sound))

/-- If no edit joins what it leaves, the rewritten tokens of a line are those of their text. -/
theorem line (h : Rewritten k ts es us) (own : IsLine ts l)
    (sound : ∀ t ∈ ts, t.lexicalFault? = none) (apart : Unjoined all ts es) :
    Scan.line (Token.join us) = us.map Token.piece := by
  by_cases field : IsField l
  · have silent := own.isSounding_of_field field
    rw [h.eq_of_isSounding silent, own.text, own.pieces]
  · have cut := own.cut field sound
    rw [h.line_eq own sound, h.fuse_eq cut apart]
    intro now
    obtain ⟨t, r, e, ss, fs, vs, u, rfl, rfl, rfl, hk, he, bare, hu, _, colon⟩ :=
      h.starts_of_isField cut (own.text ▸ field) now
    have joined : t.Joins u := .inr (.inr ⟨own.first t rfl, hk, colon⟩)
    have apart : Unjoined all ([t] ++ (r.lengthTokens ++ ss)) (e :: fs) := apart
    exact absurd joined (apart.not_joins he List.mem_cons_self t rfl u hu bare)

/-- Where a token stands that is no part of a head or a length, the tokens can be split. -/
theorem split (h : Rewritten k (front ++ t :: back) es us) (hk : t.kind.isSounding = false) :
    ∃ ds fs ws vs, es = ds ++ fs ∧ us = ws ++ t :: vs ∧ Rewritten k front ds ws ∧
      Rewritten k (front ++ [t]) ds (ws ++ [t]) ∧ Rewritten k back fs vs := by
  generalize whole : front ++ t :: back = ts at h
  induction h generalizing front with
  | nil => simp at whole
  | @keep ts es us u h ih =>
    cases front with
    | nil =>
      obtain ⟨rfl, rfl⟩ := List.cons.inj whole
      exact ⟨[], es, [], us, rfl, rfl, .nil, .keep t .nil, h⟩
    | cons v front =>
      obtain ⟨rfl, rfl⟩ := List.cons.inj whole
      obtain ⟨ds, fs, ws, vs, rfl, rfl, first, whole, behind⟩ := ih rfl
      exact ⟨ds, fs, v :: ws, vs, rfl, rfl, .keep v first, .keep v whole, behind⟩
  | @sound head r e ts es us hd fits he bound h ih =>
    have sounding := hd.isSounding_append fits
    have later (excess : List Token) (hf : front = head ++ r.lengthTokens ++ excess)
        (ht : excess ++ t :: back = ts) : ∃ ds fs ws vs, e :: es = ds ++ fs ∧
          head ++ ((r.rescale k).lengthTokens ++ us) = ws ++ t :: vs ∧ Rewritten k front ds ws ∧
          Rewritten k (front ++ [t]) ds (ws ++ [t]) ∧ Rewritten k back fs vs := by
      obtain ⟨ds, fs, ws, vs, rfl, rfl, first, through, behind⟩ := ih ht
      subst ht
      subst hf
      refine ⟨e :: ds, fs, head ++ ((r.rescale k).lengthTokens ++ ws), vs, rfl, by simp, ?_, ?_,
        behind⟩
      · rw [List.append_assoc]
        refine .sound hd fits he ?_ first
        intro u member
        exact bound u (by rw [List.head?_append, member]; rfl)
      · have same : (excess ++ t :: back).head? = (excess ++ [t]).head? := by cases excess <;> rfl
        simp only [List.append_assoc] at through ⊢
        refine .sound hd fits he ?_ through
        rw [Token.NextNot, ← same]
        exact bound
    -- all of a head and its length sounds, so `t` stands behind both
    rw [← List.append_assoc] at whole
    rcases List.append_eq_append_iff.mp whole with ⟨excess, block, tail⟩ | ⟨excess, hf, tail⟩
    · cases excess with
      | nil => exact later [] (by simpa using block.symm) (by simpa using tail)
      | cons u excess =>
        obtain ⟨rfl, _⟩ := List.cons.inj tail
        have own := sounding t (by rw [block]; simp)
        rw [own] at hk
        cases hk
    · exact later excess hf tail.symm

theorem newline_not_mem (h : Rewritten k ts es us) (old : '\n' ∉ Token.join ts) :
    '\n' ∉ Token.join us := by
  induction h with
  | nil => exact old
  | keep t _ ih =>
    rw [Token.join_cons, List.mem_append, not_or] at old ⊢
    exact ⟨old.1, ih old.2⟩
  | @sound head r e ts es us hd fits he bound h ih =>
    simp only [Token.join_append, List.mem_append, not_or] at old ⊢
    obtain ⟨n, given, _⟩ := Scaling.exists_of_ofRhythm he
    refine ⟨old.1, ?_, ih old.2.2⟩
    rw [Rhythm.rescale, given, Length.join_rhythm]
    exact n.newline_not_mem_render

end Rewritten

namespace Scan

theorem isLine_placed (n offset : Nat) {content : Text} (h : '\n' ∉ content) (ending : Text)
    (last : ending.length ≤ 1) :
    IsLine (placed ⟨n, 0⟩ offset (line (content ++ ending))) (content ++ ending) := by
  refine ⟨map_piece_placed _ _ _, fun t member => by rw [start_of_mem_head?_placed member], ?_⟩
  intro t member
  have whole := join_line (content ++ ending)
  have proper : ∀ p ∈ line (content ++ ending), IsProper p := fun p => isProper_of_mem_line
  cases hp : line (content ++ ending) with
  | nil =>
    rw [hp] at member
    cases member
  | cons q ps =>
    rw [hp] at member whole proper
    have member : t ∈ placed _ _ ps := member
    obtain ⟨front, p, back, rfl, rfl⟩ := exists_of_mem_placed member
    have first := (proper q List.mem_cons_self).1
    have own := (proper p (by simp)).1
    rw [Piece.join_cons, Piece.join_append, Piece.join_cons, ← List.append_assoc] at whole
    -- part of the line still follows, so its line feed is not ahead
    have absent : '\n' ∉ q.text ++ Piece.join front := by
      rcases List.append_eq_append_iff.mp whole with ⟨excess, rfl, _⟩ | ⟨excess, before, rest⟩
      · exact fun inside => h (List.mem_append_left excess inside)
      · have size := congrArg List.length rest
        have positive := List.length_pos_iff.mpr own
        simp only [List.length_append] at size
        have none : excess = [] := List.length_eq_zero_iff.mp (by omega)
        rwa [before, none, List.append_nil]
    obtain ⟨c, cs, text⟩ := List.exists_cons_of_ne_nil first
    have positive := Text.charUnits_pos c
    dsimp only
    rw [← Position.after_append, Position.after_line _ absent, text, List.cons_append,
      Text.units_cons]
    dsimp only
    omega

end Scan

/-- How the tokens of a text come from others by edits, line by line. -/
inductive RewrittenLines (k : Scaling) : List Token → List Edit → List Token → Prop where
  | last : Scan.IsLine ts content → '\n' ∉ content → Rewritten k ts es us → RewrittenLines k ts es us
  | more : Scan.IsLine (front ++ [stop]) (content ++ ['\n']) → '\n' ∉ content →
      stop.lexeme = w ++ ['\n'] → Rewritten k front ds ws →
      Rewritten k (front ++ [stop]) ds (ws ++ [stop]) → RewrittenLines k ts es us →
      RewrittenLines k (front ++ stop :: ts) (ds ++ es) (ws ++ stop :: us)

namespace Rewritten
open Scan

/-- Edits of the tokens of a text are made line by line. -/
theorem lines (h : Rewritten k (placed ⟨n, 0⟩ offset (Scan.pieces text)) es us) :
    RewrittenLines k (placed ⟨n, 0⟩ offset (Scan.pieces text)) es us := by
  induction text using Text.line_induct generalizing n offset es us with
  | last content absent =>
    have own := isLine_placed n offset absent [] (Nat.zero_le 1)
    rw [List.append_nil] at own
    rw [pieces_content absent] at h ⊢
    exact .last own absent h
  | more content rest absent ih =>
    have after : (⟨n, 0⟩ : Position).after (content ++ ['\n']) = ⟨n + 1, 0⟩ := by
      rw [Position.after_lines n (.inr (by simp)), Text.lines_line absent]
      rfl
    have own := isLine_placed n offset absent ['\n'] (Nat.le_refl 1)
    rw [pieces_line absent, placed_append, join_line, after] at h ⊢
    obtain ⟨front, stop, w, found, ends, silent⟩ := own.exists_stop
    rw [found] at h own ⊢
    rw [List.append_assoc] at h ⊢
    obtain ⟨ds, fs, ws, vs, rfl, rfl, before, through, behind⟩ := h.split silent
    exact .more own absent ends before through (ih behind)

end Rewritten

namespace RewrittenLines
open Scan

theorem line_end (own : IsLine (front ++ [stop]) (content ++ ['\n'])) (absent : '\n' ∉ content)
    (ends : stop.lexeme = w ++ ['\n']) (before : Rewritten k front ds ws) :
    Token.join (ws ++ [stop]) = (Token.join ws ++ w) ++ ['\n'] ∧ '\n' ∉ Token.join ws ++ w := by
  have text := own.text
  simp only [Token.join_append, Token.join_cons, Token.join_nil, List.append_nil, ends,
    ← List.append_assoc] at text ⊢
  have body := List.append_cancel_right text
  rw [← body, List.mem_append, not_or] at absent
  refine ⟨trivial, ?_⟩
  rw [List.mem_append, not_or]
  exact ⟨before.newline_not_mem absent.1, absent.2⟩

theorem pieces_more (own : IsLine (front ++ [stop]) (content ++ ['\n'])) (absent : '\n' ∉ content)
    (ends : stop.lexeme = w ++ ['\n']) (before : Rewritten k front ds ws) (us : List Token) :
    Scan.pieces (Token.join (ws ++ stop :: us)) =
      Scan.line (Token.join (ws ++ [stop])) ++ Scan.pieces (Token.join us) := by
  obtain ⟨text, clean⟩ := line_end own absent ends before
  rw [List.append_cons, Token.join_append, text, List.append_assoc, List.singleton_append,
    pieces_line clean]

/-- If no edit joins what it leaves, the rewritten tokens of a text are those that a scan finds in
theirs. -/
theorem pieces (h : RewrittenLines k ts es us) (sound : ∀ t ∈ ts, t.lexicalFault? = none)
    (apart : Unjoined all ts es) : Scan.pieces (Token.join us) = us.map Token.piece := by
  induction h with
  | last own absent rewritten =>
    rw [pieces_content (rewritten.newline_not_mem (own.text ▸ absent)),
      rewritten.line own sound apart]
  | @more front stop content w ds ws ts es us own absent ends before through _ ih =>
    rw [List.append_cons] at sound apart
    have here := through.line own (fun t member => sound t (List.mem_append_left _ member))
      (apart.left (List.subset_append_left ds es))
    have behind := ih (fun t member => sound t (List.mem_append_right _ member))
      (apart.right _ (List.subset_append_right ds es))
    rw [pieces_more own absent ends before, here, behind]
    simp

end RewrittenLines
end Tunebook
