import Tunebook.Proofs.Decoding
import Tunebook.Proofs.Rhythm.Editing
import Tunebook.Proofs.Rhythm.Preservation
import Tunebook.Proofs.Server.Publishing
import Tunebook.Proofs.Text.Returning

/-! Edits as editors make them. Each goes out as two positions and comes down, in a text without
errors, on the bytes that it was made for: such a text ends with no carriage return, and no edit
starts or stops behind one. -/
namespace Tunebook

namespace Text

theorem Returns.isBoundary {t : Text} (h : t.Returns n) : t.IsBoundary n := by
  have lands := t.isBoundary_byteAt (t.positionAt n)
  rwa [h] at lands

/-- Words of 32 bits count where reading a part of a countable text leads. -/
theorem Countable.after_lt {s u : Text} (counted : Countable (s ++ u)) :
    ((⟨0, 0⟩ : Position).after s).line < Number.word32 ∧
      ((⟨0, 0⟩ : Position).after s).column < Number.word32 := by
  by_cases nonempty : u = []
  · subst nonempty
    rw [List.append_nil] at counted
    have positive : 0 < Number.word32 := by decide
    rcases List.eq_nil_or_concat' s with rfl | ⟨s, c, rfl⟩
    · exact ⟨positive, positive⟩
    · obtain ⟨above, line, listed, column⟩ := exists_line_of_append s (List.cons_ne_nil c [])
      have lines := counted.1
      have units := counted.2 line listed
      rw [Position.after_append, Position.after_cons, Position.after_nil, Position.next]
      split
      · exact ⟨by dsimp only; omega, positive⟩
      next goes =>
        rw [firstLine_cons goes, units_cons] at column
        exact ⟨by dsimp only; omega, by dsimp only; omega⟩
  · obtain ⟨above, line, listed, column⟩ := exists_line_of_append s nonempty
    have units := counted.2 line listed
    exact ⟨above.trans counted.1, by omega⟩

theorem low32_positionAt {t : Text} (counted : t.Countable) (h : t.IsBoundary n) :
    (t.positionAt n).low32 = t.positionAt n := by
  obtain ⟨s, u, rfl, rfl⟩ := h
  obtain ⟨line, column⟩ := counted.after_lt
  rw [positionAt_bytes, Position.low32, Highlight.low32_of_lt line, Highlight.low32_of_lt column]

end Text

namespace TextEdit

/-- The edit on the bytes that its positions name. -/
def resolve (e : TextEdit) (text : Text) : Replacement :=
  ⟨⟨⟨text.byteAt e.start, text.byteAt e.stop⟩, e.start, e.stop⟩, e.text⟩

theorem apply_eq (e : TextEdit) (text : Text) : e.apply text = (e.resolve text).apply text :=
  rfl

theorem resolve_ofReplacement {text : Text} (counted : text.Countable)
    (start : text.Returns span.start) (stop : text.Returns span.stop) (new : Text) :
    (ofReplacement ⟨text.rangeOfSpan span, new⟩).resolve text = ⟨text.rangeOfSpan span, new⟩ := by
  simp only [ofReplacement, resolve, Text.rangeOfSpan,
    Text.low32_positionAt counted start.isBoundary, Text.low32_positionAt counted stop.isBoundary]
  rw [start, stop]

theorem whole_eq (old new : Text) :
    whole old new = ofReplacement ⟨old.rangeOfSpan ⟨0, old.bytes⟩, new⟩ := by
  have first : old.positionAt 0 = ⟨0, 0⟩ := Text.positionAt_bytes [] old
  rw [whole, ofReplacement, Text.rangeOfSpan, first]
  rfl

end TextEdit

theorem Replacement.applied?_whole (old new : Text) :
    applied? ⟨old.rangeOfSpan ⟨0, old.bytes⟩, new⟩ old = some new := by
  have front : old.slice? ⟨0, 0⟩ = some [] := Text.slice?_middle [] [] old
  have back : old.slice? ⟨old.bytes, old.bytes⟩ = some [] := by
    simpa using Text.slice?_middle old [] []
  simp [applied?, Text.rangeOfSpan, front, back]

/-- A length starts behind its head and stops where it ends, neither behind a carriage return. -/
theorem IsHead.returns {r : Rhythm} (hd : IsHead head) (fits : r.Fits)
    (sound : ∀ t ∈ head ++ r.lengthTokens, t.kind.isSounding = true → t.lexeme ≠ [] ∧ '\r' ∉ t.lexeme)
    (before rest : Text) :
    let text := before ++ (Token.join head ++ (Token.join r.lengthTokens ++ rest))
    let start := before.bytes + (Token.join head).bytes
    text.Returns start ∧ text.Returns (start + (Token.join r.lengthTokens).bytes) := by
  have sound : ∀ t ∈ head ++ r.lengthTokens, t.lexeme ≠ [] ∧ '\r' ∉ t.lexeme := fun t member =>
    sound t member (hd.isSounding_append fits t member)
  have nonempty : Token.join head ≠ [] := by
    obtain ⟨t, member⟩ := List.exists_mem_of_ne_nil head hd.ne_nil
    intro none
    exact (sound t (List.mem_append_left _ member)).1 (List.flatMap_eq_nil_iff.mp none t member)
  have plain : '\r' ∉ Token.join head ++ Token.join r.lengthTokens := by
    rw [← Token.join_append]
    intro inside
    obtain ⟨t, listed, own⟩ := List.mem_flatMap.mp inside
    exact (sound t listed).2 own
  have start := Text.returns_behind before nonempty
    (fun inside => plain (List.mem_append_left _ inside)) (Token.join r.lengthTokens ++ rest)
  have stop := Text.returns_behind before (List.append_ne_nil_of_left_ne_nil nonempty _) plain rest
  rw [Text.bytes_append, List.append_assoc, ← Nat.add_assoc] at stop
  exact ⟨start, stop⟩

/-- Edits of the tokens of a text return: they replace lengths behind heads. -/
theorem Rewritten.returns (h : Rewritten k ts es us) (before : Text)
    (tiles : Token.Tiles before.bytes ts)
    (sound : ∀ t ∈ ts, t.kind.isSounding = true → t.lexeme ≠ [] ∧ '\r' ∉ t.lexeme) :
    ∀ e ∈ es, (before ++ Token.join ts).Returns e.span.start ∧
      (before ++ Token.join ts).Returns e.span.stop := by
  induction h generalizing before with
  | nil => simp
  | @keep ts es us t h ih =>
    have tail := ih (before ++ t.lexeme) (by rw [Text.bytes_append]; exact tiles.2)
      fun u member => sound u (.tail t member)
    rwa [List.append_assoc] at tail
  | @sound head r e ts es us hd fits he next h ih =>
    obtain ⟨front, tiles⟩ := Token.tiles_append.mp tiles
    obtain ⟨length, tiles⟩ := Token.tiles_append.mp tiles
    have span := Scaling.span_of_tiles he front length
    rw [← List.append_assoc] at sound
    intro f member
    simp only [Token.join_append]
    rcases List.mem_cons.mp member with rfl | member
    · rw [span]
      exact hd.returns fits (fun t listed => sound t (List.mem_append_left ts listed)) before _
    · have size : (before ++ (Token.join head ++ Token.join r.lengthTokens)).bytes =
          before.bytes + (Token.join head).bytes + (Token.join r.lengthTokens).bytes := by
        simp only [Text.bytes_append, Nat.add_assoc]
      have tail := ih (before ++ (Token.join head ++ Token.join r.lengthTokens)) (size ▸ tiles)
        (fun t listed => sound t (List.mem_append_right _ listed)) f member
      simpa only [List.append_assoc] using tail

/-- A text without errors does not end with a carriage return. -/
theorem getLast?_ne_return (lexical : ∀ t ∈ textTokens text, t.lexicalFault? = none) :
    text.getLast? ≠ some '\r' := by
  intro last
  obtain ⟨l, listed, ends⟩ := Scan.exists_line_of_return last
  exact Scan.not_isSuffix_of_mem_lines lexical listed (by decide) ends

theorem not_mem_of_mem_textTokens (h : t ∈ textTokens text) (hk : t.kind.isSounding = true) :
    t.lexeme ≠ [] ∧ '\r' ∉ t.lexeme := by
  refine ⟨lexeme_ne_nil_of_mem_textTokens h, ?_⟩
  obtain ⟨front, p, back, cut, rfl⟩ := exists_of_mem_textTokens h
  have listed : p ∈ Scan.pieces text := cut ▸ List.mem_append_right front List.mem_cons_self
  obtain ⟨l, _, member⟩ := List.mem_flatMap.mp listed
  exact Scan.not_mem_of_mem_line member hk rfl

namespace Scaling

theorem returns_of_mem_edits (k : Scaling) (selection : Selection)
    (good : NoErrors (Tree.ofTokens (scan text)).2)
    (listed : e ∈ k.edits (Tree.ofTokens (scan text)).1 selection) :
    text.Returns e.span.start ∧ text.Returns e.span.stop := by
  rw [Tree.ofTokens_scan] at good listed
  have rewritten := (Tree.reread k (k.meets (Tree.ofTokens (textTokens text)).1 selection)
    (fun t => kind_of_mem_textTokens) good).1
  have returns := rewritten.returns [] (tiles_textTokens text) fun t => not_mem_of_mem_textTokens
  rw [edits_eq, List.mem_mergeSort] at listed
  rw [List.nil_append, join_textTokens] at returns
  exact returns e listed

theorem exists_apply (k : Scaling) {text : Text} (plain : text.getLast? ≠ some '\r')
    (good : NoErrors (Tree.ofTokens (scan text)).2) (a b : Position) :
    ∃ span new, k.apply (Tree.ofTokens (scan text)).1 a b = ⟨text.rangeOfSpan span, new⟩ ∧
      text.Returns span.start ∧ text.Returns span.stop := by
  have ends : ∀ e ∈ k.edits (Tree.ofTokens (scan text)).1 (Selection.between a b),
      text.Returns e.span.start ∧ text.Returns e.span.stop := by
    intro e listed
    exact k.returns_of_mem_edits _ good listed
  simp only [apply, Tree.text_ofTokens_scan]
  generalize k.edits (Tree.ofTokens (scan text)).1 (Selection.between a b) = es at *
  have first := Text.returns_byteAt plain (Selection.between a b).start
  have last := first.max (Text.returns_byteAt plain (Selection.between a b).stop)
  refine ⟨_, _, rfl, ?_, ?_⟩
  · exact List.foldlRecOn es _ first fun n returns e listed => returns.min (ends e listed).1
  · exact List.foldlRecOn es _ last fun n returns e listed => returns.max (ends e listed).2

end Scaling

namespace Document

variable {source : String} {text : Text}

theorem resolve_ofReplacement (good : (analyze source text).hasErrors = false)
    (counted : text.Countable) (k : Scaling) (a b : Position) :
    let r := k.apply (analyze source text).tree a b
    r.applied? text = some (r.apply text) ∧ (TextEdit.ofReplacement r).resolve text = r := by
  intro r
  rw [hasErrors_eq_false] at good
  have lexical := (noErrors_scan text).mp good.1
  obtain ⟨span, new, same, start, stop⟩ :=
    k.exists_apply (getLast?_ne_return lexical) good.2 a b
  have applied := (Scaling.applied?_eq a b (Tree.text_ofTokens_scan text) (k.spliced_scan text _)).2
  refine ⟨applied.trans (congrArg some (Replacement.apply_of_applied? applied).symm), ?_⟩
  rw [show r = ⟨text.rangeOfSpan span, new⟩ from same]
  exact TextEdit.resolve_ofReplacement counted start stop new

theorem resolve_whole (good : (analyze source text).hasErrors = false) (counted : text.Countable)
    (new : Text) :
    (TextEdit.whole text new).resolve text = ⟨text.rangeOfSpan ⟨0, text.bytes⟩, new⟩ := by
  rw [hasErrors_eq_false] at good
  have plain := getLast?_ne_return ((noErrors_scan text).mp good.1)
  have start : text.Returns 0 := Text.returns_bytes [] text (by simp)
  rw [TextEdit.whole_eq, TextEdit.resolve_ofReplacement counted start (Text.returns_end plain)]

end Document

namespace Server

/-- One edit comes back that makes `new` of the old text, which it cuts between characters only, and
nothing else happens. -/
def Outcome.Edits (o : Outcome) (w : Workspace) (old new : Text) : Prop :=
  ∃ e : TextEdit, o = ⟨.edits [e], [], w⟩ ∧ e.apply old = new ∧
    (e.resolve old).applied? old = some new

theorem Outcome.edits_of_resolve {e : TextEdit} {r : Replacement} (lands : e.resolve old = r)
    (sound : r.applied? old = some new) : Outcome.Edits ⟨.edits [e], [], w⟩ w old new := by
  refine ⟨e, rfl, ?_, lands ▸ sound⟩
  rw [e.apply_eq, lands]
  exact Replacement.apply_of_applied? sound

/-- No edit comes back, one warning says why, and nothing else happens. -/
def Outcome.Refuses (o : Outcome) (w : Workspace) (refusal : Refusal) : Prop :=
  o = ⟨.edits [], [.warning refusal.message], w⟩

variable {w : Workspace} {uri : String} {d : Document}

theorem handle_formatting (found : w.get? uri = some d) : handle w (.formatting uri) =
    offer w (if d.hasErrors then .error (.hasErrors uri) else .ok (.whole d.text d.tree.text)) := by
  simp only [handle, found, Workspace.format, Workspace.formatted, Workspace.document,
    Document.formatted?, bind, Except.bind]
  cases d.hasErrors <;> rfl

theorem handle_rhythm (found : w.get? uri = some d) (operator : Operator) (a b : Position) :
    handle w (.rhythm operator uri a b) = offer w (if d.hasErrors then .error (.hasErrors uri)
      else .ok (.ofReplacement (Scaling.apply ⟨operator, w.config.limits⟩ d.tree a b))) := by
  simp only [handle, Workspace.scale, found, Workspace.document, Document.scale?, bind,
    Except.bind]
  cases d.hasErrors <;> rfl

theorem holds_handle (holds : w.Holds config texts) (r : Request) :
    ∃ config texts, (handle w r).workspace.Holds config texts := by
  cases r with
  | start options => exact ⟨_, _, holds_configure holds options⟩
  | opened name version text => exact ⟨_, _, holds.step (.call name (.analyze text))⟩
  | changed name version texts =>
    simp only [handle]
    split
    · exact ⟨_, _, holds.step (.call name (.analyze _))⟩
    · exact ⟨_, _, holds⟩
  | closed name => exact ⟨_, _, holds.step (.call name .close)⟩
  | started | shutdown | highlights | formatting | completion | rhythm =>
    rw [(isQuiet_query w rfl).1]
    exact ⟨_, _, holds⟩

theorem exists_holds_run (s : Session) (rs : List Request) (holds : s.workspace.Holds config texts) :
    ∃ config texts, (s.run rs).workspace.Holds config texts := by
  induction rs generalizing s config texts with
  | nil => exact ⟨config, texts, holds⟩
  | cons r rs ih =>
    obtain ⟨_, _, next⟩ := holds_handle holds r
    exact ih (s.step r) next

theorem eq_analyze_of_get? (config : Config) (rs : List Request)
    (found : ((Session.new config).run rs).workspace.get? uri = some d) :
    ∃ source, d = .analyze source d.text := by
  obtain ⟨current, texts, holds⟩ := exists_holds_run (.new config) rs (Workspace.holds_empty config)
  rw [holds.found uri] at found
  obtain ⟨text, _, rfl⟩ := Option.map_eq_some_iff.mp found
  exact ⟨current.source, rfl⟩

/-- At any point of a session, an open document without errors, whose lines and columns words of 32
bits count, is formatted by one edit that leaves its text as it is, and scaled by one that makes of
it what the replacement of bytes makes. One with errors gets no edit, and one warning is sent each
time; so it is, when lengths are to be scaled, for a document that is not open. -/
theorem edits_land (config : Config) (rs : List Request) (uri : String) :
    let w := ((Session.new config).run rs).workspace
    (∀ d, w.get? uri = some d → d.hasErrors = false → d.text.Countable →
      (handle w (.formatting uri)).Edits w d.text d.text ∧
        ∀ operator a b, ∃ r, d.scale? ⟨operator, w.config.limits⟩ a b = some r ∧
          r.applied? d.text = some (r.apply d.text) ∧
          (handle w (.rhythm operator uri a b)).Edits w d.text (r.apply d.text)) ∧
    (∀ d, w.get? uri = some d → d.hasErrors = true →
      (handle w (.formatting uri)).Refuses w (.hasErrors uri) ∧
        ∀ operator a b, (handle w (.rhythm operator uri a b)).Refuses w (.hasErrors uri)) ∧
    (w.get? uri = none →
      ∀ operator a b, (handle w (.rhythm operator uri a b)).Refuses w (.unknownDocument uri)) := by
  intro w
  refine ⟨?_, ?_, ?_⟩
  · intro d found clean counted
    obtain ⟨source, analysed⟩ := eq_analyze_of_get? config rs found
    have good : (Document.analyze source d.text).hasErrors = false := analysed ▸ clean
    refine ⟨?_, fun operator a b => ?_⟩
    · have own : d.tree.text = d.text := by
        rw [analysed]
        exact Tree.text_ofTokens_scan d.text
      rw [handle_formatting found, clean, if_neg Bool.false_ne_true, own]
      exact Outcome.edits_of_resolve (Document.resolve_whole good counted d.text)
        (Replacement.applied?_whole d.text d.text)
    · obtain ⟨sound, lands⟩ := Document.resolve_ofReplacement good counted
        ⟨operator, w.config.limits⟩ a b
      rw [← analysed] at sound lands
      refine ⟨_, by rw [Document.scale?, clean, if_neg Bool.false_ne_true], sound, ?_⟩
      rw [handle_rhythm found, clean, if_neg Bool.false_ne_true]
      exact Outcome.edits_of_resolve lands sound
  · intro d found errors
    have formatted := handle_formatting found
    rw [errors, if_pos rfl] at formatted
    refine ⟨formatted, fun operator a b => ?_⟩
    have scaled := handle_rhythm found operator a b
    rwa [errors, if_pos rfl] at scaled
  · intro closed operator a b
    simp only [Outcome.Refuses, handle, Workspace.scale, Workspace.document, closed]
    rfl

/-- From past the end of a line that ends with a carriage return and a line feed back into a letter
that counts twice, beside a document with an error. -/
theorem edits_land_wide :
    let text : Text := "X:1\nK:C\n\"𝄞\"A2 B\r\n".toList
    let w := ((Session.new .default).run
      [.opened "a" 1 text, .opened "b" 1 "C]\n".toList]).workspace
    (∃ d, w.get? "a" = some d ∧ d.hasErrors = false ∧ d.text.Countable ∧
      (handle w (.formatting "a")).Edits w d.text d.text ∧
      ∃ r, d.scale? ⟨.divide, w.config.limits⟩ ⟨2, 40⟩ ⟨2, 2⟩ = some r ∧
        (handle w (.rhythm .divide "a" ⟨2, 40⟩ ⟨2, 2⟩)).Edits w d.text (r.apply d.text)) ∧
    (handle w (.formatting "b")).Refuses w (.hasErrors "b") ∧
    (handle w (.rhythm .divide "c" ⟨0, 0⟩ ⟨0, 0⟩)).Refuses w (.unknownDocument "c") := by
  intro text w
  have opened : w = ((Workspace.empty .default).analyze "a" text).analyze "b" "C]\n".toList := rfl
  have first : w.get? "a" = some (.analyze Config.default.source text) := by
    rw [opened, Workspace.get?_analyze, if_neg (by decide), Workspace.get?_analyze, if_pos rfl]
    rfl
  have second : w.get? "b" = some (.analyze Config.default.source "C]\n".toList) := by
    rw [opened, Workspace.get?_analyze, if_pos rfl]
    rfl
  have third : w.get? "c" = none := by
    rw [opened, Workspace.get?_analyze, if_neg (by decide), Workspace.get?_analyze,
      if_neg (by decide), Workspace.get?_empty]
  have clean : (Document.analyze Config.default.source text).hasErrors = false := by decide +kernel
  have errors : (Document.analyze Config.default.source "C]\n".toList).hasErrors = true := by
    decide +kernel
  have counted : text.Countable := by decide +kernel
  obtain ⟨formatted, scaled⟩ := (edits_land .default _ "a").1 _ first clean counted
  obtain ⟨r, replaced, _, made⟩ := scaled .divide ⟨2, 40⟩ ⟨2, 2⟩
  refine ⟨⟨_, first, clean, counted, formatted, r, replaced, made⟩, ?_, ?_⟩
  · exact ((edits_land .default _ "b").2.1 _ second errors).1
  · exact (edits_land .default _ "c").2.2 third .divide ⟨0, 0⟩ ⟨0, 0⟩

end Server
end Tunebook
