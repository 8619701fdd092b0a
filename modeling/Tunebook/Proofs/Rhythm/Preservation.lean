import Tunebook.Proofs.Containment
import Tunebook.Proofs.Lossless
import Tunebook.Proofs.Relabelling.Tune
import Tunebook.Proofs.Rhythm.Rescanning
import Tunebook.Proofs.Rhythm.Splicing
import Tunebook.Proofs.Rhythm.Tunes
import Tunebook.Proofs.Rhythm.Voices

/-! Scaling the lengths of a document keeps its music, if no edit leaves side by side what is then
read as one. -/
namespace Tunebook

/-- The token without its place. -/
def Token.forget (t : Token) : Token :=
  unplaced t.kind t.lexeme

theorem Token.relabels_forget : Relabels forget :=
  ⟨fun _ => rfl, fun _ => rfl⟩

theorem Token.lexicalFault?_forget (t : Token) : t.forget.lexicalFault? = t.lexicalFault? :=
  rfl

theorem noErrors_map {f : Token → Token} : NoErrors (ps.map (Problem.map f)) ↔ NoErrors ps := by
  simp only [NoErrors, List.forall_mem_map]
  rfl

theorem Document.hasErrors_eq_false {d : Document} :
    d.hasErrors = false ↔ NoErrors d.lexical ∧ NoErrors d.grammatical := by
  rw [← noErrors_append, hasErrors, List.any_eq_false]
  simp [NoErrors, problems]

/-- Every fault that a token shows by itself is an error. -/
theorem Token.isError_lexicalFault {t : Token} (h : t.lexicalFault? = some fault) :
    fault.severity = .error := by
  unfold lexicalFault? at h
  split at h
  · cases h
    rfl
  · split at h <;> cases h
    rfl
  · split at h <;> cases h
    rfl
  · cases h

theorem noErrors_lexicalProblems :
    NoErrors (lexicalProblems ts) ↔ ∀ t ∈ ts, t.lexicalFault? = none := by
  constructor
  · intro good t member
    cases found : t.lexicalFault? with
    | none => rfl
    | some fault =>
      have listed : ⟨fault, t⟩ ∈ lexicalProblems ts :=
        List.mem_filterMap.mpr ⟨t, member, by rw [found]; rfl⟩
      have harmless := good ⟨fault, t⟩ listed
      simp [Problem.isError, Problem.severity, Token.isError_lexicalFault found] at harmless
  · intro every p listed
    obtain ⟨t, member, found⟩ := List.mem_filterMap.mp listed
    rw [every t member] at found
    cases found

theorem noErrors_scan (text : Text) : NoErrors (lexicalProblems (scan text)) ↔
    ∀ t ∈ textTokens text, t.lexicalFault? = none := by
  have silent : (endMark text).lexicalFault? = none := rfl
  rw [noErrors_lexicalProblems, scan_eq]
  simp only [List.mem_append, List.mem_singleton]
  constructor
  · intro every t member
    exact every t (.inl member)
  · rintro every t (member | rfl)
    · exact every t member
    · exact silent

/-- Tokens that a scan finds again in their text, up to places. -/
theorem map_forget_textTokens (h : Scan.pieces (Token.join us) = us.map Token.piece) :
    (textTokens (Token.join us)).map Token.forget = us.map Token.forget := by
  have own := Scan.map_piece_placed ⟨0, 0⟩ 0 (Scan.pieces (Token.join us))
  rw [h] at own
  have forget : Token.forget = (fun p : Piece => Token.unplaced p.kind p.text) ∘ Token.piece := rfl
  rw [textTokens, h, forget, ← List.map_map, own, List.map_map]

theorem Rewritten.lexicalFault? (h : Rewritten k ts es us) (sound : ∀ t ∈ ts, t.lexicalFault? = none) :
    ∀ u ∈ us, u.lexicalFault? = none := by
  intro u member
  rcases h.mem member with own | length
  · exact sound u own
  · cases hk : u.kind <;> rw [hk] at length <;> cases length <;> simp [Token.lexicalFault?, hk]

theorem Tree.ofTokens_join (h : Scan.pieces (Token.join us) = us.map Token.piece) :
    (ofTokens (textTokens (Token.join us))).1.voices = (ofTokens us).1.voices ∧
      (NoErrors (ofTokens (textTokens (Token.join us))).2 ↔ NoErrors (ofTokens us).2) := by
  have found := Token.relabels_forget.ofTokens (textTokens (Token.join us))
  rw [map_forget_textTokens h, Token.relabels_forget.ofTokens us, Prod.mk.injEq] at found
  obtain ⟨trees, problems⟩ := found
  refine ⟨?_, ?_⟩
  · rw [← Token.relabels_forget.voices, ← trees, Token.relabels_forget.voices]
  · rw [← noErrors_map, ← problems, noErrors_map]

/-- If no edit leaves tokens side by side that join, the new text has no errors and sounds like the
old one, with the lengths scaled that the edits rewrite. -/
theorem Document.voices_scale? (source : String) (text : Text) (k : Scaling) (a b : Position)
    (h : (analyze source text).scale? k a b = some r)
    (apart : ∀ e ∈ k.edits (analyze source text).tree (Selection.between a b),
      ¬e.Joins (analyze source text).tokens) :
    (analyze source (r.apply text)).hasErrors = false ∧
      (analyze source (r.apply text)).tree.voices =
        k.voices (k.meets (analyze source text).tree (Selection.between a b))
          (analyze source text).tree := by
  unfold scale? at h
  split at h
  · cases h
  next good =>
    rw [Bool.not_eq_true, hasErrors_eq_false] at good
    cases h
    simp only [analyze, Tree.ofTokens_scan] at good apart ⊢
    obtain ⟨lexical, grammatical⟩ := good
    rw [noErrors_scan] at lexical
    generalize hm : k.meets (Tree.ofTokens (textTokens text)).1 (Selection.between a b) = meets
    rw [Scaling.edits_eq, hm] at apart
    have tiles := tiles_textTokens text
    have unjoined : Unjoined (textTokens text) (textTokens text)
        (k.editsOf meets (Tree.ofTokens (textTokens text)).1.sounds) := by
      refine ⟨tiles.isChain, List.Subset.refl _, ?_⟩
      rintro e listed ⟨bare, t, ht, u, hu, joined⟩
      refine apart e (List.mem_mergeSort.mpr listed) ⟨bare, t, ?_, u, ?_, joined⟩
      · exact scan_eq text ▸ List.mem_append_left _ ht
      · exact scan_eq text ▸ List.mem_append_left _ hu
    obtain ⟨rewritten, again⟩ := Tree.reread k meets (fun t => kind_of_mem_textTokens) grammatical
    have again := again unjoined
    have edits : k.edits (Tree.ofTokens (textTokens text)).1 (Selection.between a b) =
        k.editsOf meets (Tree.ofTokens (textTokens text)).1.sounds := by
      rw [Scaling.edits_eq, hm]
      refine List.mergeSort_of_pairwise ?_
      simpa using (rewritten.spliced.spans tiles).2
    have own : (Tree.ofTokens (textTokens text)).1.text = text := by
      rw [← Tree.ofTokens_scan, Tree.text_ofTokens_scan]
    have applied := Scaling.apply_eq a b own (edits ▸ rewritten.spliced)
    have pieces := rewritten.lines.pieces lexical unjoined
    obtain ⟨voices, errors⟩ := Tree.ofTokens_join pieces
    rw [applied]
    refine ⟨?_, ?_⟩
    · rw [hasErrors_eq_false]
      refine ⟨?_, ?_⟩
      · rw [noErrors_scan]
        intro t member
        have forgotten : t.forget ∈ ((Tree.ofTokens (textTokens text)).1.rescale k meets).tokens.map
            Token.forget := map_forget_textTokens pieces ▸ List.mem_map_of_mem member
        obtain ⟨u, listed, same⟩ := List.mem_map.mp forgotten
        have silent := rewritten.lexicalFault? lexical u listed
        rwa [← Token.lexicalFault?_forget, same, Token.lexicalFault?_forget] at silent
      · exact errors.mpr (again ▸ grammatical)
    · rw [voices, again, Tree.voices_rescale]

theorem Document.voices_scale?_halved :
    (analyze "abc" "X:1\nK:C\nA2 B|\n".toList).scale? ⟨.divide, ⟨64, 64⟩⟩ ⟨2, 0⟩ ⟨2, 2⟩ =
        some ⟨⟨⟨8, 10⟩, ⟨2, 0⟩, ⟨2, 2⟩⟩, ['A']⟩ ∧
      (analyze "abc" "X:1\nK:C\nA B|\n".toList).hasErrors = false := by
  have scaled : (analyze "abc" "X:1\nK:C\nA2 B|\n".toList).scale? ⟨.divide, ⟨64, 64⟩⟩ ⟨2, 0⟩ ⟨2, 2⟩ =
      some ⟨⟨⟨8, 10⟩, ⟨2, 0⟩, ⟨2, 2⟩⟩, ['A']⟩ := by decide +kernel
  exact ⟨scaled, (voices_scale? "abc" _ _ _ _ scaled (by decide +kernel)).1⟩

/-- A letter at the start of a line joins a colon, so that the line is no music any more. -/
theorem Document.not_voices_scale? :
    ¬∀ (text : Text) (k : Scaling) (a b : Position) (r : Replacement),
      (analyze "abc" text).scale? k a b = some r →
      (analyze "abc" (r.apply text)).hasErrors = false ∧
        (analyze "abc" (r.apply text)).tree.voices =
          k.voices (k.meets (analyze "abc" text).tree (Selection.between a b))
            (analyze "abc" text).tree := by
  intro every
  have same := (every "X:1\nK:C\nA2:|\n".toList ⟨.divide, ⟨64, 64⟩⟩ ⟨2, 0⟩ ⟨2, 2⟩
    ⟨⟨⟨8, 10⟩, ⟨2, 0⟩, ⟨2, 2⟩⟩, ['A']⟩ (by decide +kernel)).2
  exact absurd same (by decide +kernel)

end Tunebook
