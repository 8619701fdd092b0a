import Tunebook.Proofs.Covering
import Tunebook.Proofs.Lossless

/-! Highlights of a text. They cover its tokens, and their places come from these: each is a slice of
the text, one comes after the other, and each token with a colour lies in one of them. -/
namespace Tunebook

open Highlight

namespace Token

/-- Merged tokens are in place of the run that they came from. -/
theorem of_merge (h : merge run = some g) :
    ∃ first last, run.head? = some first ∧ run.getLast? = some last ∧ g.start = first.start ∧
      g.span = ⟨first.span.start, last.span.stop⟩ ∧ g.lexeme = join run := by
  cases run with
  | nil => cases h
  | cons t ts =>
    cases h
    exact ⟨t, _, rfl, List.getLast?_eq_some_getLast (by simp), rfl, rfl, rfl⟩

theorem Tiles.span_of_merge (h : Tiles n run) (merged : merge run = some g) :
    g.span = ⟨n, n + (join run).bytes⟩ := by
  obtain ⟨first, last, starts, ends, _, span, _⟩ := of_merge merged
  rw [span, h.start_of_head? starts, h.stop_of_getLast? ends]

end Token

namespace Highlight

/-- Highlights of tokens that tile a text lie in it, one after the other, and are not empty. -/
theorem Covers.spans (h : Covers ts hs) (tiles : Token.Tiles n ts)
    (full : ∀ t ∈ ts, t.lexeme ≠ []) :
    (∀ g ∈ hs, n ≤ g.span.start ∧ g.span.start < g.span.stop ∧
      g.span.stop ≤ n + (Token.join ts).bytes) ∧
      hs.Pairwise fun g h => g.span.stop ≤ h.span.start := by
  induction h generalizing n with
  | nil => exact ⟨by simp, .nil⟩
  | @space t ts hs _ _ ih =>
    obtain ⟨within, ordered⟩ := ih tiles.2 fun u member => full u (List.mem_cons_of_mem t member)
    refine ⟨?_, ordered⟩
    intro g member
    have := within g member
    rw [Token.join_cons, Text.bytes_append]
    omega
  | @run run ts hs g kind merged _ _ ih =>
    obtain ⟨front, back⟩ := Token.tiles_append.mp tiles
    obtain ⟨within, ordered⟩ := ih back fun u member => full u (List.mem_append_right run member)
    have span := front.span_of_merge merged
    have positive : 0 < (Token.join run).bytes := by
      obtain ⟨first, _, starts, _⟩ := Token.of_merge merged
      have listed := List.mem_of_head? starts
      have own := Scan.bytes_pos (full first (List.mem_append_left ts listed))
      have inside := front.span_of_mem listed
      omega
    rw [Token.join_append, Text.bytes_append]
    constructor
    · intro f member
      rcases List.mem_cons.mp member with rfl | member
      · rw [Token.retag, span]
        dsimp only
        omega
      · have := within f member
        omega
    · refine List.pairwise_cons.mpr ⟨?_, ordered⟩
      intro f member
      rw [Token.retag, span]
      exact (within f member).1

theorem Covers.exists_run (h : Covers ts hs) (member : g ∈ hs) :
    ∃ before run after kind, ∃ merged, ts = before ++ (run ++ after) ∧
      Token.merge run = some merged ∧ g = merged.retag kind := by
  induction h with
  | nil => cases member
  | @space t ts hs _ _ ih =>
    obtain ⟨before, run, after, kind, merged, whole, same⟩ := ih member
    exact ⟨t :: before, run, after, kind, merged, by rw [whole, List.cons_append], same⟩
  | @run run ts hs m kind merged _ _ ih =>
    rcases List.mem_cons.mp member with rfl | member
    · exact ⟨[], run, ts, kind, m, rfl, merged, rfl⟩
    · obtain ⟨before, later, after, kind, merged, whole, same⟩ := ih member
      exact ⟨run ++ before, later, after, kind, merged, by rw [whole, List.append_assoc], same⟩

theorem Covers.sublist_start (h : Covers ts hs) :
    (hs.map Token.start).Sublist (ts.map Token.start) := by
  induction h with
  | nil => exact .slnil
  | @space t ts hs _ _ ih => exact .cons t.start ih
  | @run run ts hs g kind merged _ _ ih =>
    obtain ⟨first, _, starts, _, place, _⟩ := Token.of_merge merged
    obtain ⟨more, rfl⟩ := List.head?_eq_some_iff.mp starts
    have same : (g.retag kind).start = first.start := place
    rw [List.map_cons, same, List.cons_append, List.map_cons, List.map_append]
    exact .cons_cons _ (ih.trans (List.sublist_append_right _ _))

theorem Covers.existsUnique (h : Covers ts hs) (tiles : Token.Tiles n ts)
    (full : ∀ t ∈ ts, t.lexeme ≠ []) (member : t ∈ ts) (coloured : t.kind.isUncoloured = false) :
    ∃! g, g ∈ hs ∧ g.span.start ≤ t.span.start ∧ t.span.stop ≤ g.span.stop := by
  have nonempty := Scan.bytes_pos (full t member)
  induction h generalizing n with
  | nil => cases member
  | @space u ts hs uncoloured _ ih =>
    rcases List.mem_cons.mp member with rfl | member
    · rw [coloured] at uncoloured
      cases uncoloured
    · exact ih tiles.2 (fun v listed => full v (List.mem_cons_of_mem u listed)) member
  | @run run ts hs m kind merged _ rest ih =>
    obtain ⟨front, back⟩ := Token.tiles_append.mp tiles
    have others : ∀ u ∈ ts, u.lexeme ≠ [] :=
      fun u listed => full u (List.mem_append_right run listed)
    -- the highlights of what is behind start where this run stops
    have later := (rest.spans back others).1
    have span := front.span_of_merge merged
    have own : (m.retag kind).span = ⟨n, n + (Token.join run).bytes⟩ := span
    rcases List.mem_append.mp member with inside | behind
    · have place := front.span_of_mem inside
      refine ⟨m.retag kind, ⟨List.mem_cons_self, ?_⟩, ?_⟩
      · rw [own]
        dsimp only
        omega
      · rintro g ⟨listed, covers⟩
        rcases List.mem_cons.mp listed with rfl | listed
        · rfl
        · have := later g listed
          omega
    · have place := back.span_of_mem behind
      obtain ⟨g, ⟨listed, covers⟩, unique⟩ := ih back others behind
      refine ⟨g, ⟨List.mem_cons_of_mem _ listed, covers⟩, ?_⟩
      rintro f ⟨listed, covers⟩
      rcases List.mem_cons.mp listed with rfl | listed
      · rw [own] at covers
        dsimp only at covers
        omega
      · exact unique f ⟨listed, covers⟩

end Highlight

namespace Tree

theorem covers_textTokens (text : Text) :
    Covers (textTokens text) (ofTokens (scan text)).1.inOrder := by
  have covers := covers_ofTokens (scan text)
  rwa [tokens_ofTokens, takeWhile_scan] at covers

theorem highlights_eq (text : Text) :
    (ofTokens (scan text)).1.highlights = (ofTokens (scan text)).1.inOrder := by
  have starts := (covers_textTokens text).sublist_start
  have sorted := (List.pairwise_map.mpr (pairwise_start_textTokens text)).sublist starts
  apply List.mergeSort_of_pairwise
  simpa only [decide_eq_true_eq, inOrder] using List.pairwise_map.mp sorted

theorem exists_run_of_mem_inOrder {text : Text} (h : g ∈ (ofTokens (scan text)).1.inOrder) :
    text.slice? g.span = some g.lexeme ∧
      ∃ before run after, scan text = before ++ (run ++ after) ∧
        Token.cover run = some g.range := by
  obtain ⟨before, run, after, kind, merged, whole, found, rfl⟩ :=
    (covers_textTokens text).exists_run h
  obtain ⟨first, last, starts, ends, place, span, lexeme⟩ := Token.of_merge found
  have cut : text = Token.join before ++ (Token.join run ++ Token.join after) := by
    rw [← Token.join_append, ← Token.join_append, ← whole, join_textTokens]
  have tiles : Token.Tiles (Token.join before).bytes run := by
    have all := tiles_textTokens text
    rw [whole, Token.tiles_append, Token.tiles_append, Nat.zero_add] at all
    exact all.2.1
  have own := tiles.span_of_merge found
  have scanned : scan text = before ++ (run ++ (after ++ [endMark text])) := by
    rw [scan_eq, whole, List.append_assoc, List.append_assoc]
  have listed : ∀ t ∈ run, t ∈ scan text := by
    intro t member
    rw [scanned]
    exact List.mem_append_right _ (List.mem_append_left _ member)
  -- Both ends of the run lie where reading the text leads, and so do those of the highlight.
  have start : first.start = (⟨0, 0⟩ : Position).after (Token.join before) := by
    have range := congrArg Range.start (range_of_mem_scan (listed first (List.mem_of_head? starts)))
    have walked := Text.positionAt_bytes (Token.join before) (Token.join run ++ Token.join after)
    rw [← cut, ← tiles.start_of_head? starts] at walked
    exact range.trans walked
  have stop : last.stop = first.start.after (Token.join run) := by
    have range := congrArg Range.stop (range_of_mem_scan (listed last (List.mem_of_getLast? ends)))
    have walked := Text.positionAt_bytes (Token.join before ++ Token.join run) (Token.join after)
    rw [List.append_assoc, ← cut, Text.bytes_append, ← tiles.stop_of_getLast? ends,
      Position.after_append, ← start] at walked
    exact range.trans walked
  constructor
  · rw [Token.retag, own, lexeme]
    exact Text.slice?_eq_some_iff.mpr ⟨_, _, cut, rfl, rfl⟩
  · refine ⟨before, run, after ++ [endMark text], scanned, ?_⟩
    simp only [Token.cover, starts, ends, Token.retag, Token.range, Token.stop, span, place, lexeme]
    rw [← stop]
    rfl

/-- The highlights of a text come sorted: their spans are not empty and follow one another, so that
each token with a colour lies in one of them, and each of them is a run of tokens. -/
theorem highlights_scan (text : Text) :
    (ofTokens (scan text)).1.highlights = (ofTokens (scan text)).1.inOrder ∧
    (ofTokens (scan text)).1.highlights.Pairwise (fun g h => g.span.stop ≤ h.span.start) ∧
    (∀ g ∈ (ofTokens (scan text)).1.highlights, g.span.start < g.span.stop ∧
      text.slice? g.span = some g.lexeme ∧
      ∃ before run after, scan text = before ++ (run ++ after) ∧ Token.cover run = some g.range) ∧
    ∀ t ∈ scan text, t.kind ≠ .whitespace → t.kind ≠ .eol → t.kind ≠ .eof →
      ∃! g, g ∈ (ofTokens (scan text)).1.highlights ∧
        g.span.start ≤ t.span.start ∧ t.span.stop ≤ g.span.stop := by
  have covers := covers_textTokens text
  have tiles := tiles_textTokens text
  have full : ∀ t ∈ textTokens text, t.lexeme ≠ [] := fun t => lexeme_ne_nil_of_mem_textTokens
  obtain ⟨within, ordered⟩ := covers.spans tiles full
  rw [highlights_eq]
  refine ⟨rfl, ordered, ?_, ?_⟩
  · intro g member
    exact ⟨(within g member).2.1, exists_run_of_mem_inOrder member⟩
  · intro t member noSpace noFeed noMark
    rw [scan_eq] at member
    have coloured : t.kind.isUncoloured = false := by
      cases hk : t.kind <;> simp_all [Kind.isUncoloured]
    rcases List.mem_append.mp member with member | member
    · exact covers.existsUnique tiles full member coloured
    · obtain rfl := List.mem_singleton.mp member
      exact absurd rfl noMark

end Tree
end Tunebook
