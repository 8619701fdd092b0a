import Mathlib.Data.List.TakeWhile
import Tunebook.Document
import Tunebook.Proofs.Conservation
import Tunebook.Proofs.Scan.Placement

/-! Nothing of a text is lost on the way through the scanner, the grammar and the tree: written
back, the tree is the text, whatever is wrong with it. -/
namespace Tunebook

/-- The end mark says nothing to the grammar. -/
theorem Tree.ofTokens_scan_eq (text : Text) :
    ofTokens (scan text) =
      let header := Tune.splitApart false (textTokens text)
      let tunes := readTunes false header.2
      (⟨header.1, tunes.1⟩, tunes.2) := by
  have proper : ∀ p ∈ Scan.pieces text, Scan.IsProper p := fun _ => Scan.isProper_of_mem_pieces
  have own : (scan text).takeWhile (·.kind ≠ .eof) = textTokens text := takeWhile_scan text
  have none : ((scan text).dropWhile (·.kind ≠ .eof)).any Token.opensTune = false :=
    Scan.dropWhile_place _ _ proper
  simp only [ofTokens, own, none]

theorem Tree.ofTokens_scan (text : Text) : ofTokens (scan text) = ofTokens (textTokens text) := by
  have every : ∀ t ∈ textTokens text, decide (t.kind ≠ .eof) = true := by
    intro t member
    simpa using kind_of_mem_textTokens member
  rw [ofTokens_scan_eq]
  simp only [ofTokens, List.takeWhile_eq_self_iff.mpr every, List.dropWhile_eq_nil_iff.mpr every,
    List.any_nil]

theorem Tree.tokens_ofTokens_scan (text : Text) :
    (ofTokens (scan text)).1.tokens = textTokens text := by
  rw [tokens_ofTokens]
  exact takeWhile_scan text

theorem Tree.text_ofTokens_scan (text : Text) : (ofTokens (scan text)).1.text = text := by
  rw [Tree.text, tokens_ofTokens_scan, join_textTokens]

/-- Every text is written back as it was, and a document gives it out unless it has errors. -/
theorem Document.lossless (source : String) (text : Text) :
    (Tree.ofTokens (scan text)).1.text = text ∧
      (analyze source text).formatted? =
        if (analyze source text).hasErrors then none else some text := by
  refine ⟨Tree.text_ofTokens_scan text, ?_⟩
  have written : (analyze source text).tree.text = text := Tree.text_ofTokens_scan text
  rw [formatted?, written]

end Tunebook
