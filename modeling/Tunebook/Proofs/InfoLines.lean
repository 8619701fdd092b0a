import Tunebook.Proofs.Leaves
import Tunebook.Proofs.Lossless
import Tunebook.Proofs.Rows
import Tunebook.Proofs.Text.Returning

/-! Information lines. A line that starts with a field is its key, runs of blanks and of other
characters in turn, a comment and a line break, whatever characters it holds, and nothing in it is at
fault. The grammar keeps it in one piece. Carriage returns at the end of a line that are no part of its
line break are the exception. -/
namespace Tunebook

/-- A run of blanks, or a run without any. -/
def Piece.IsRun (p : Piece) : Prop :=
  p.kind = .whitespace ∧ (∀ c ∈ p.text, Scan.isGap c = true) ∨
    p.kind = .freeText ∧ ∀ c ∈ p.text, Scan.isGap c = false

/-- A comment starts with a percent sign, a directive with two. -/
def Piece.IsComment (p : Piece) : Prop :=
  p.text.head? = some '%' ∧
    p.kind = if ['%', '%'].isPrefixOf p.text then .stylesheetDirective else .comment

/-- A backslash stands before whatever follows the characters. `escaped` says whether one stands
before them. -/
def endsEscaped (escaped : Bool) (front : Text) : Bool :=
  (front.getLast?.map fun c => decide (c = '\\')).getD escaped

theorem endsEscaped_cons (escaped : Bool) (c : Char) (front : Text) :
    endsEscaped escaped (c :: front) = endsEscaped (c = '\\') front := by
  rw [endsEscaped, endsEscaped, List.getLast?_cons]
  cases front.getLast? <;> rfl

theorem endsEscaped_iff {front : Text} :
    endsEscaped false front = true ↔ front.getLast? = some '\\' := by
  rw [endsEscaped]
  cases front.getLast? <;> simp

namespace Scan

theorem isGap_eq_of_isChain {run : Text} (same : run.IsChain fun a b => (isGap a == isGap b) = true)
    (first : a ∈ run.head?) : ∀ b ∈ run, isGap b = isGap a := by
  induction run generalizing a with
  | nil => simp
  | cons c run ih =>
    cases first
    obtain ⟨next, tail⟩ := List.isChain_cons.mp same
    intro b member
    rcases List.mem_cons.mp member with rfl | member
    · rfl
    · obtain ⟨d, run, rfl⟩ := List.exists_cons_of_ne_nil (List.ne_nil_of_mem member)
      exact (ih tail rfl b member).trans (beq_iff_eq.mp (next d rfl)).symm

theorem isRun_of_mem_proseRuns (h : p ∈ proseRuns value) : p.IsRun := by
  obtain ⟨run, member, rfl⟩ := List.mem_map.mp h
  have same := List.isChain_of_mem_splitBy member
  obtain ⟨a, run, rfl⟩ := List.exists_cons_of_ne_nil (List.ne_nil_of_mem_splitBy member)
  have every := isGap_eq_of_isChain same (a := a) rfl
  cases gap : isGap a with
  | true => exact .inl ⟨by simp [gap], fun c own => (every c own).trans gap⟩
  | false => exact .inr ⟨by simp [gap], fun c own => (every c own).trans gap⟩

/-- Two runs of one sort would have been one. -/
theorem isChain_proseRuns (value : Text) : (proseRuns value).IsChain fun p q => p.kind ≠ q.kind := by
  rw [proseRuns, List.isChain_map]
  refine (List.isChain_getLast_head_splitBy _ value).imp_of_mem_imp fun run next member _ => ?_
  rintro ⟨some, some', differ⟩
  have same := List.isChain_of_mem_splitBy member
  obtain ⟨a, run, rfl⟩ := List.exists_cons_of_ne_nil some
  obtain ⟨b, next, rfl⟩ := List.exists_cons_of_ne_nil some'
  rw [isGap_eq_of_isChain same (a := a) rfl _ (List.getLast_mem some), List.head_cons] at differ
  cases gap : isGap a <;> cases gap' : isGap b <;> simp [gap, gap'] at differ ⊢

/-- A value holds no percent sign but those with a backslash before them. -/
theorem escaped_of_splitComment (h : (splitComment escaped cs).1 = front ++ '%' :: back) :
    endsEscaped escaped front = true := by
  induction cs generalizing escaped front with
  | nil => simp [splitComment] at h
  | cons c cs ih =>
    unfold splitComment at h
    split at h
    · simp at h
    next goes =>
      cases front with
      | nil =>
        obtain ⟨rfl, _⟩ := List.cons.inj h
        simpa [endsEscaped] using goes
      | cons d front =>
        obtain ⟨rfl, later⟩ := List.cons.inj h
        rw [endsEscaped_cons]
        exact ih later

/-- A comment starts at a percent sign without a backslash before it. -/
theorem unescaped_of_splitComment (h : (splitComment escaped cs).2 = c :: rest) :
    c = '%' ∧ endsEscaped escaped (splitComment escaped cs).1 = false := by
  induction cs generalizing escaped with
  | nil => simp [splitComment] at h
  | cons d cs ih =>
    unfold splitComment at h ⊢
    split at h
    next stops =>
      cases h
      rw [if_pos stops]
      simpa [endsEscaped] using stops
    next goes =>
      rw [if_neg goes, endsEscaped_cons]
      exact ih h

theorem commentPiece_eq (starts : ∀ c rest, comment = c :: rest → c = '%') :
    ∃ p : Option Piece, commentPiece comment = p.toList ∧ ∀ q ∈ p, q.text = comment ∧ q.IsComment := by
  unfold commentPiece
  split
  · exact ⟨none, rfl, by simp⟩
  · exact ⟨some _, rfl, by simp [Piece.IsComment]⟩
  next nonempty single =>
    obtain ⟨c, rest, rfl⟩ := List.exists_cons_of_ne_nil nonempty
    obtain rfl := starts c rest rfl
    refine ⟨some _, rfl, ?_⟩
    intro q same
    cases same
    refine ⟨rfl, rfl, ?_⟩
    cases rest with
    | nil => rfl
    | cons d rest =>
      have other : d ≠ '%' := by
        rintro rfl
        exact single rest rfl
      simp [other.symm]

/-- The line breaks that a scan knows, and no line break at all. -/
def lineBreaks : List Text :=
  [[], ['\n'], ['\r', '\n']]

theorem musicLine_lineBreak (h : ends ∈ lineBreaks) :
    ∃ p : Option Piece, musicLine ends = p.toList ∧ ∀ q ∈ p, q.kind = .eol := by
  rcases List.mem_cons.mp h with rfl | h
  · exact ⟨none, by simp [musicLine, music], by simp⟩
  · have cut := musicLine_of_cut (cut_eol h)
    rw [Piece.join_cons, Piece.join_nil, List.append_nil] at cut
    exact ⟨some _, cut, by simp⟩

/-- How an information line is written: a key, a value of runs that differ from one to the next, a
comment from the first percent sign without a backslash before it, and a line break. -/
structure IsInfoLine (key : Piece) (value : List Piece) (comment eol : Option Piece) (cs : Text) :
    Prop where
  whole : Piece.join (key :: value ++ comment.toList ++ eol.toList) = cs
  key : key = ⟨.infoKey, cs.take 2⟩
  runs : ∀ p ∈ value, p.IsRun
  turns : value.IsChain fun p q => p.kind ≠ q.kind
  escaped : ∀ front back, Piece.join value = front ++ '%' :: back → front.getLast? = some '\\'
  comment : ∀ p ∈ comment, p.IsComment ∧ (Piece.join value).getLast? ≠ some '\\'
  eol : ∀ p ∈ eol, p.kind = .eol

theorem exists_isInfoLine (field : IsField cs)
    (plain : cs.drop (Text.lineContent cs).length ∈ lineBreaks) : ∃ key value, ∃ comment : Option Piece,
    ∃ eol : Option Piece, line cs = key :: value ++ comment.toList ++ eol.toList ∧
      IsInfoLine key value comment eol cs := by
  obtain ⟨c, rest, rfl, starts⟩ := field
  have content : Text.lineContent (c :: ':' :: rest) = c :: ':' :: Text.lineContent rest :=
    Text.lineContent_append (s := [c, ':']) (by simp [Text.isLineBreak]) rest
  have single : rest.drop (Text.lineContent rest).length ∈ lineBreaks := by
    rw [content] at plain
    simpa using plain
  have percent : ∀ d more, (splitComment false (Text.lineContent rest)).2 = d :: more → d = '%' :=
    fun _ _ h => (unescaped_of_splitComment h).1
  obtain ⟨eol, ends, isEol⟩ := musicLine_lineBreak single
  obtain ⟨comment, found, isComment⟩ := commentPiece_eq percent
  have cut : line (c :: ':' :: rest) = ⟨.infoKey, [c, ':']⟩ ::
      proseRuns (splitComment false (Text.lineContent rest)).1 ++ comment.toList ++ eol.toList := by
    rw [line, if_pos starts, infoLine, ends, ← found]
  refine ⟨_, _, comment, eol, cut, ?_, rfl, fun p => isRun_of_mem_proseRuns, isChain_proseRuns _,
    ?_, ?_, isEol⟩
  · rw [← cut, join_line]
  · intro front back h
    rw [join_proseRuns] at h
    exact endsEscaped_iff.mp (escaped_of_splitComment h)
  · intro p member
    obtain ⟨text, own⟩ := isComment p member
    refine ⟨own, ?_⟩
    obtain ⟨d, more, some⟩ : ∃ d more, p.text = d :: more :=
      List.exists_cons_of_ne_nil fun none => by simp [Piece.IsComment, none] at own
    have before := (unescaped_of_splitComment (text.symm.trans some)).2
    rwa [join_proseRuns, ne_eq, ← endsEscaped_iff, Bool.not_eq_true]

end Scan

/-- Behind the content of the line stands one line break or none. -/
def Row.EndsPlainly (r : Row) : Prop :=
  r.text.drop (Text.lineContent r.text).length ∈ Scan.lineBreaks

/-- The tokens of the line make it up as its pieces do. -/
def InfoLine.Spells (l : InfoLine) (text : Text) : Prop :=
  Scan.IsInfoLine l.key.piece (l.value.map Token.piece) (l.comment.map Token.piece)
    (l.eol.map Token.piece) text

/-- Tokens of one piece or none are one token or none. -/
theorem Token.exists_of_map_piece {ts : List Token} {p : Option Piece} (h : ts.map piece = p.toList) :
    ∃ t : Option Token, ts = t.toList ∧ t.map piece = p := by
  cases p with
  | none => exact ⟨none, List.map_eq_nil_iff.mp h, rfl⟩
  | some p =>
    obtain ⟨t, rfl, rfl⟩ := List.map_eq_singleton_iff.mp h
    exact ⟨some t, rfl, rfl⟩

theorem Row.IsLine.exists_infoLine (h : IsLine r) (field : Scan.IsField r.text)
    (plain : r.EndsPlainly) : ∃ l : InfoLine, r.tokens = l.tokens ∧ l.Spells r.text := by
  obtain ⟨key, value, comment, eol, cut, own⟩ := Scan.exists_isInfoLine field plain
  rw [← h.tokens] at cut
  obtain ⟨front, ends, whole, others, last⟩ := List.map_eq_append_iff.mp cut
  obtain ⟨first, remark, rfl, prose, middle⟩ := List.map_eq_append_iff.mp others
  obtain ⟨t, ts, rfl, rfl, rfl⟩ := List.map_eq_cons_iff.mp prose
  obtain ⟨remark, rfl, rfl⟩ := Token.exists_of_map_piece middle
  obtain ⟨ends, rfl, rfl⟩ := Token.exists_of_map_piece last
  exact ⟨⟨t, ts, remark, ends⟩, whole, own⟩

namespace InfoLine

variable {l : InfoLine} {cs : Text} (spells : l.Spells cs)
include spells

theorem Spells.kind_key : l.key.kind = .infoKey :=
  congrArg Piece.kind spells.key

theorem Spells.isValue_of_mem (member : t ∈ l.value) : isValue t.kind = true := by
  rcases spells.runs t.piece (List.mem_map_of_mem member) with ⟨kind, _⟩ | ⟨kind, _⟩ <;>
    simp [show t.kind = _ from kind, isValue]

theorem Spells.isComment_of_mem (member : t ∈ l.comment) : t.kind.isComment = true := by
  have own := spells.comment t.piece (Option.mem_map_of_mem Token.piece member)
  rw [show t.kind = _ from own.1.2]
  split <;> rfl

theorem Spells.kind_eol (member : t ∈ l.eol) : t.kind = .eol :=
  spells.eol t.piece (Option.mem_map_of_mem Token.piece member)

/-- A line written so is read back from its tokens, if it ends with a line break or with the text. -/
theorem Spells.read_tokens (ends : l.eol = none → us = []) :
    read l.key (l.tokens.tail ++ us) = (l, us) := by
  have last : ∀ t ∈ (l.eol.toList ++ us).head?, t.kind = .eol := by
    intro t first
    cases some : l.eol with
    | some e =>
      obtain rfl : e = t := by simpa [some] using first
      exact spells.kind_eol some
    | none => simp [some, ends some] at first
  have middle : ∀ t ∈ (l.comment.toList ++ (l.eol.toList ++ us)).head?, isValue t.kind = false := by
    intro t first
    cases some : l.comment with
    | some c =>
      obtain rfl : c = t := by simpa [some] using first
      have kind := spells.isComment_of_mem some
      cases own : c.kind <;> rw [own] at kind <;> first | rfl | cases kind
    | none =>
      rw [some] at first
      rw [last t first]
      rfl
  have value := span_append (fun t => spells.isValue_of_mem) middle
  have comment : Token.accept Kind.isComment (l.comment.toList ++ (l.eol.toList ++ us)) = _ :=
    Token.accept_toList (fun t => spells.isComment_of_mem) fun _ t first => by
      rw [last t first]
      rfl
  have eol : Token.accept (· = .eol) (l.eol.toList ++ us) = _ :=
    Token.accept_toList (fun t member => decide_eq_true (spells.kind_eol member)) fun none t first => by
      rw [ends none] at first
      cases first
  simp only [read, tokens, List.cons_append, List.tail_cons, List.append_assoc, value, comment, eol]

theorem Spells.kind_of_mem (member : t ∈ l.tokens) :
    t.kind = .infoKey ∨ t.kind.isProse = true ∨ t ∈ l.eol := by
  simp only [tokens, List.mem_append, List.mem_cons, Option.mem_toList] at member
  rcases member with ((rfl | value) | comment) | eol
  · exact .inl spells.kind_key
  · have kind := spells.isValue_of_mem value
    cases own : t.kind <;> rw [own] at kind <;> first | exact .inr (.inl rfl) | cases kind
  · have kind := spells.isComment_of_mem comment
    cases own : t.kind <;> rw [own] at kind <;> first | exact .inr (.inl rfl) | cases kind
  · exact .inr (.inr eol)

theorem Spells.lexicalFault?_of_mem (member : t ∈ l.tokens) : t.lexicalFault? = none := by
  unfold Token.lexicalFault?
  rcases spells.kind_of_mem member with key | prose | eol
  · rw [key]
  · cases own : t.kind <;> rw [own] at prose <;> first | rfl | cases prose
  · rw [spells.kind_eol eol]

theorem Spells.breaksLine_of_mem (unbroken : l.eol = none) (member : t ∈ l.tokens) :
    t.kind.breaksLine = false := by
  rcases spells.kind_of_mem member with key | prose | eol
  · rw [key]
    rfl
  · exact Kind.breaksLine_of_isProse prose
  · rw [unbroken] at eol
    cases eol

end InfoLine

theorem IsRows.eq_nil_of_spells {l : InfoLine} (h : IsRows (r :: rs)) (tokens : r.tokens = l.tokens)
    (spells : l.Spells cs) (unbroken : l.eol = none) : rs = [] := by
  refine h.eq_nil_of_ending ?_
  rw [Row.ending, Option.filter_eq_none_iff]
  intro k found
  obtain ⟨t, last, rfl⟩ := Option.map_eq_some_iff.mp found
  rw [tokens] at last
  simp [spells.breaksLine_of_mem unbroken (List.mem_of_getLast? last)]

/-! Where the grammar finds a key, it reads the information line that the key starts. -/

theorem BodyLine.info_of_mem (member : t ∈ (read u us).value.tokens) (key : t.kind = .infoKey) :
    u = t ∧ (read u us).value = .info (InfoLine.read t us).1 := by
  unfold read at member ⊢
  split at member
  next kind =>
    have first : u = t := by
      rcases List.mem_cons.mp member with same | tail
      · exact same.symm
      · exact absurd key (InfoLine.ne_infoKey_of_mem_tail tail)
    rw [if_pos kind, first]
    exact ⟨rfl, rfl⟩
  next plain =>
    split at member
    next comment => exact absurd key (CommentLine.ne_infoKey_of_mem comment member)
    · exact absurd key (MusicLine.ne_infoKey_of_mem member)

namespace Tune

theorem exists_info_of_mem_readHeader
    (member : t ∈ (readHeader isFirst ts).1.flatMap HeaderLine.tokens) (key : t.kind = .infoKey) :
    ∃ us, t :: us <:+ ts ∧ .info (InfoLine.read t us).1 ∈ (readHeader isFirst ts).1 := by
  fun_induction readHeader isFirst ts with
  | case1 | case2 | case6 => cases member
  | case3 _ u us _ _ line _ =>
    rw [List.flatMap_cons, List.flatMap_nil, List.append_nil] at member
    rcases List.mem_cons.mp member with rfl | tail
    · exact ⟨us, List.suffix_rfl, List.mem_cons_self⟩
    · exact absurd key (InfoLine.ne_infoKey_of_mem_tail tail)
  | case4 _ u us _ _ line _ tail ih =>
    rcases List.mem_append.mp member with own | later
    · rcases List.mem_cons.mp own with rfl | tail
      · exact ⟨us, List.suffix_rfl, List.mem_cons_self⟩
      · exact absurd key (InfoLine.ne_infoKey_of_mem_tail tail)
    · obtain ⟨vs, suffix, listed⟩ := ih later
      exact ⟨vs, suffix.trans ⟨_, InfoLine.read_append u us⟩, List.mem_cons_of_mem _ listed⟩
  | case5 _ u us _ comment line tail ih =>
    rcases List.mem_append.mp member with own | later
    · exact absurd key (CommentLine.ne_infoKey_of_mem comment own)
    · obtain ⟨vs, suffix, listed⟩ := ih later
      exact ⟨vs, suffix.trans ⟨_, CommentLine.read_append u us⟩, List.mem_cons_of_mem _ listed⟩

end Tune

namespace Tree

theorem exists_info_of_mem_headerTokens (listed : tune ∈ (ofTokens ts).1.tunes)
    (member : t ∈ tune.headerTokens) (key : t.kind = .infoKey) :
    ∃ us, t :: us <:+ (ofTokens ts).1.tokens ∧ .info (InfoLine.read t us).1 ∈ tune.header := by
  obtain ⟨beyond, u, us, place, rfl, _⟩ := isRead_of_mem_tunes listed
  obtain ⟨vs, suffix, found⟩ := Tune.exists_info_of_mem_readHeader member key
  exact ⟨vs, suffix.trans place, found⟩

theorem exists_info_of_mem_bodyTokens (listed : tune ∈ (ofTokens ts).1.tunes)
    (member : t ∈ tune.bodyTokens) (key : t.kind = .infoKey) :
    ∃ us, t :: us <:+ (ofTokens ts).1.tokens ∧ .info (InfoLine.read t us).1 ∈ tune.body := by
  obtain ⟨line, inside, own⟩ := List.mem_flatMap.mp member
  obtain ⟨u, us, place, rfl, _⟩ := isRead_of_mem_body listed inside
  obtain ⟨rfl, read⟩ := BodyLine.info_of_mem own key
  exact ⟨us, place, read ▸ inside⟩

/-- The grammar reads the line of a row where it finds the key of the row. -/
theorem read_of_suffix {text : Text} {l : InfoLine} (cut : rows text = front ++ r :: back)
    (tokens : r.tokens = l.tokens) (spells : l.Spells r.text)
    (place : l.key :: us <:+ (ofTokens (scan text)).1.tokens) : (InfoLine.read l.key us).1 = l := by
  obtain ⟨before, place⟩ := place
  rw [tokens_ofTokens_scan] at place
  have whole : scan text = Row.join front ++ l.key :: (l.tokens.tail ++ Row.join back ++ [endMark text]) := by
    rw [scan_eq, ← join_rows, cut, Row.join, List.flatMap_append, List.flatMap_cons, tokens]
    simp [InfoLine.tokens]
  have again : scan text = before ++ l.key :: (us ++ [endMark text]) := by
    rw [scan_eq, ← place]
    simp
  have behind := Token.behind_append (whole ▸ nodup_scan text)
  have behind' := Token.behind_append (again ▸ nodup_scan text)
  rw [← whole] at behind
  rw [← again, behind] at behind'
  rw [← List.append_cancel_right behind', spells.read_tokens]
  intro unbroken
  have every := isRows_rows text
  rw [cut] at every
  rw [(every.right front).eq_nil_of_spells tokens spells unbroken]
  rfl

end Tree

/-- A line that starts with a field and ends in one line break or none is written as an information
line should be, whatever is in it. Nothing in it is at fault, and in a header or a body the grammar
keeps it whole. -/
theorem Tree.infoLines_ofTokens (text : Text) (listed : r ∈ rows text) (field : Scan.IsField r.text)
    (plain : r.EndsPlainly) :
    r.tokens <:+: scan text ∧ ∃ l : InfoLine, r.tokens = l.tokens ∧ l.Spells r.text ∧
      (∀ p ∈ lexicalProblems (scan text), p.token ∉ r.tokens) ∧
      ∀ tune ∈ (ofTokens (scan text)).1.tunes,
        (l.key ∈ tune.headerTokens → .info l ∈ tune.header) ∧
        (l.key ∈ tune.bodyTokens → .info l ∈ tune.body) := by
  obtain ⟨front, back, cut⟩ := List.append_of_mem listed
  obtain ⟨l, tokens, spells⟩ := ((isRows_rows text).lines r listed).exists_infoLine field plain
  refine ⟨⟨Row.join front, Row.join back ++ [endMark text], ?_⟩, l, tokens, spells, ?_, ?_⟩
  · rw [scan_eq, ← join_rows, cut]
    simp
  · intro p found own
    obtain ⟨t, _, fault⟩ := List.mem_filterMap.mp found
    obtain ⟨f, shown, rfl⟩ := Option.map_eq_some_iff.mp fault
    rw [spells.lexicalFault?_of_mem (tokens ▸ own)] at shown
    cases shown
  · intro tune inside
    constructor
    · intro member
      obtain ⟨us, place, found⟩ := exists_info_of_mem_headerTokens inside member spells.kind_key
      rwa [read_of_suffix cut tokens spells place] at found
    · intro member
      obtain ⟨us, place, found⟩ := exists_info_of_mem_bodyTokens inside member spells.kind_key
      rwa [read_of_suffix cut tokens spells place] at found

/-- A title with an escaped percent sign, a carriage return inside and a comment behind it. -/
theorem Tree.infoLines_ofTokens_title : ∃ text, ∃ r ∈ rows text,
    ∃ tune ∈ (ofTokens (scan text)).1.tunes, ∃ l : InfoLine,
      r.tokens = l.tokens ∧ l.Spells "T:a\r 9\\%b %c\r\n".toList ∧ .info l ∈ tune.header := by
  have found : ∃ r ∈ rows "X:1\nT:a\r 9\\%b %c\r\nK:C\nA\n".toList,
      ∃ tune ∈ (ofTokens (scan "X:1\nT:a\r 9\\%b %c\r\nK:C\nA\n".toList)).1.tunes,
        r.text = "T:a\r 9\\%b %c\r\n".toList ∧ ∀ t ∈ r.tokens.head?, t ∈ tune.headerTokens := by
    decide +kernel
  obtain ⟨r, listed, tune, inside, own, first⟩ := found
  have field : Scan.IsField r.text := own ▸ ⟨'T', _, rfl, rfl⟩
  have plain : r.EndsPlainly := by
    rw [Row.EndsPlainly, own]
    decide +kernel
  obtain ⟨_, l, tokens, spells, _, kept⟩ := infoLines_ofTokens _ listed field plain
  refine ⟨_, r, listed, tune, inside, l, tokens, own ▸ spells, (kept tune inside).1 ?_⟩
  apply first
  rw [tokens]
  rfl

/-- A carriage return that belongs to no line break is invalid, though it stands in an information
line. -/
theorem not_infoLines_return :
    ¬∀ text, ∀ r ∈ rows text, Scan.IsField r.text →
      ∀ p ∈ lexicalProblems (scan text), p.token ∉ r.tokens := by
  intro every
  have found : ∃ r ∈ rows "T:a\r".toList, r.text = "T:a\r".toList ∧
      ∃ p ∈ lexicalProblems (scan "T:a\r".toList), p.token ∈ r.tokens := by
    decide +kernel
  obtain ⟨r, listed, own, p, problem, inside⟩ := found
  exact every _ r listed (own ▸ ⟨'T', _, rfl, rfl⟩) p problem inside

end Tunebook
