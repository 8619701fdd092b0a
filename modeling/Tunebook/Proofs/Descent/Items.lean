import Tunebook.Proofs.Descent.Notes

/-! The descent through the items of a line. -/
namespace Tunebook.Descent

variable {tokens : List Token} {depth : Nat}

/-- The tokens of a music line, its line feed apart. -/
def InLine (ts : List Token) : Prop :=
  ∀ t ∈ ts, endsMusic t.kind = false

theorem InLine.tail (h : InLine (t :: ts)) : InLine ts :=
  fun u member => h u (List.mem_cons_of_mem t member)

theorem InLine.rest {rest : List Token} (h : InLine ts) (whole : own ++ rest = ts) : InLine rest :=
  forall_mem_rest whole h

theorem span_text (slurred : Bool) (inner : InLine ts) :
    ts.takeWhile (fun t => !(endsMusic t.kind || InlineField.endsText slurred t.kind)) =
        ts.takeWhile (!InlineField.endsText slurred ·.kind) ∧
      ts.dropWhile (fun t => !(endsMusic t.kind || InlineField.endsText slurred t.kind)) =
        ts.dropWhile (!InlineField.endsText slurred ·.kind) := by
  induction ts with
  | nil => exact ⟨rfl, rfl⟩
  | cons t ts ih =>
    obtain ⟨front, back⟩ := ih inner.tail
    simp only [List.takeWhile_cons, List.dropWhile_cons, inner t List.mem_cons_self, Bool.false_or,
      front, back, and_self]

namespace Reads

theorem inlineField (inner : InLine ts) (stop : nextKind us ∈ musicEnds)
    (found : InlineField.read? (0 < depth) t ts = some r) :
    Reads tokens depth inlineField (t :: (ts ++ us)) r.value (r.rest ++ us) r.problems := by
  unfold InlineField.read? at found
  split at found
  next field colon rest behind =>
    split at found
    · cases found
      have own : InLine (field :: colon :: rest) :=
        fun u member => inner u ((List.dropWhile_sublist _).subset (behind ▸ member))
      obtain ⟨front, back⟩ := span_text (0 < depth) own.tail.tail
      refine step slurs ?_
      refine step advance ?_
      refine step (acceptAll ts stop rfl) ?_
      rw [behind]
      refine step advance ?_
      refine step advance ?_
      refine step (acceptAll rest stop rfl) ?_
      rw [front, back]
      exact step (accept _ stop rfl) (last (reportIf _ _ _) (pure _))
    · cases found
  · cases found

theorem bare (fault : Option Fault) (t : Token) :
    Reads tokens depth (bare fault) (t :: us) (.token t) us (fault.toList.map (⟨·, t⟩)) :=
  step advance (last (report fault t) (pure _))

theorem bracket (inner : InLine ts) (stop : nextKind us ∈ musicEnds) :
    Reads tokens depth bracket (t :: (ts ++ us)) (Item.readBracket (0 < depth) t ts).value
      ((Item.readBracket (0 < depth) t ts).rest ++ us)
      (Item.readBracket (0 < depth) t ts).problems := by
  refine step (atInlineField (0 < depth) stop) ?_
  unfold Item.readBracket
  cases field : InlineField.read? (0 < depth) t ts with
  | some r => exact last (inlineField inner stop field) (pure _)
  | none =>
    refine step (closesChord (List.mem_cons_of_mem _ stop)) ?_
    cases found : Chord.read? t ts with
    | some r => exact last (chord (mem_noteEnds stop) found) (pure _)
    | none => exact bare _ t

theorem brace (stop : nextKind us ∈ musicEnds) :
    Reads tokens depth brace (t :: (ts ++ us)) (Item.readBrace t ts).value
      ((Item.readBrace t ts).rest ++ us) (Item.readBrace t ts).problems := by
  refine step (closesGraceGroup stop) ?_
  unfold Item.readBrace
  cases found : GraceGroup.read? t ts with
  | some r => exact last (graceGroup found) (pure _)
  | none => exact bare _ t

theorem letter (t : Token) (ts : List Token) :
    let r := if t.isDecorationLetter then Item.plain (.decoration t) ts
      else Item.bare t ts (some .unknownLetter)
    Reads tokens depth letter (t :: (ts ++ us)) r.value (r.rest ++ us) r.problems := by
  refine step advance ?_
  split
  · exact pure _
  · exact last (report _ t) (pure _)

theorem noteItem (starts : t.kind.startsNote = true) (stop : nextKind us ∈ noteEnds) :
    Reads tokens depth noteItem (t :: (ts ++ us)) (Item.readNote t ts).value
      ((Item.readNote t ts).rest ++ us) (Item.readNote t ts).problems := by
  unfold Item.readNote
  split
  next n rest found => exact step (note starts stop found) (pure _)
  next missing => exact last (note_dangling stop missing) (pure _)

theorem single (inner : InLine ts) (stop : nextKind us ∈ musicEnds) :
    Reads tokens depth single (t :: (ts ++ us)) (Item.read (0 < depth) t ts).value
      ((Item.read (0 < depth) t ts).rest ++ us) (Item.read (0 < depth) t ts).problems := by
  refine step peek ?_
  rw [nextKind_cons, Item.read]
  cases kind : t.kind
  case letter => exact letter t ts
  case multiMeasureRest | spacerLetter =>
    exact step advance (step (accept ts stop rfl) (pure _))
  case leftBracket => exact bracket inner stop
  case leftBrace => exact brace stop
  case sharp | sharpDbl | flat | flatDbl | natural | noteLetter | restLetter =>
    exact noteItem (by rw [kind]; rfl) (mem_noteEnds stop)
  case number | slash | greater | less | minus | rightBracket | rightBrace => exact bare _ t
  case nthRepeat | quotedText | symbol | dot | tilde | barline | barDbl | barRightBracket
    | leftBracketBar | barColon | colonBar | colonDbl | barDigit | colonBarDigit =>
    exact step advance (pure _)
  all_goals exact bare none t

end Reads

/-- The first item, a slur with all its items. -/
def readNext (slurred : Bool) (t : Token) (ts : List Token) : Reading Item :=
  if t.kind = .leftParen && Item.isClosed 0 ts then
    let inner := Item.readAll true ts
    let close := Token.accept (· = .rightParen) inner.rest
    ⟨.slur t inner.value close.1, inner.problems, close.2⟩
  else Item.read slurred t ts

theorem readAll_next (goes : (slurred && t.kind = .rightParen) = false) :
    Item.readAll slurred (t :: ts) =
      let item := readNext slurred t ts
      let tail := Item.readAll slurred item.rest
      ⟨item.value :: tail.value, item.problems ++ tail.problems, tail.rest⟩ := by
  unfold readNext
  split
  next opens =>
    rw [Bool.and_eq_true, decide_eq_true_eq] at opens
    exact Item.readAll_slur opens.1 opens.2
  next opens => exact Item.readAll_item goes (Bool.eq_false_iff.mpr opens)

theorem readNext_append (slurred : Bool) (t : Token) (ts : List Token) :
    (readNext slurred t ts).value.tokens ++ (readNext slurred t ts).rest = t :: ts := by
  unfold readNext
  split
  · simp only [Item.tokens, List.cons_append, List.append_assoc, Token.accept_append,
      Item.readAll_append]
  · exact Item.read_append slurred t ts

theorem length_readNext_le (slurred : Bool) (t : Token) (ts : List Token) :
    (readNext slurred t ts).rest.length ≤ ts.length := by
  have whole := congrArg List.length (readNext_append slurred t ts)
  have own := List.length_pos_iff.2 (readNext slurred t ts).value.tokens_ne_nil
  simp only [List.length_append, List.length_cons] at whole
  omega

namespace Reads

theorem itemOver {m : Machine (List Item)} (inner : InLine (t :: ts))
    (stop : nextKind us ∈ musicEnds)
    (contents : Reads tokens (depth + 1) m (ts ++ us) (Item.readAll true ts).value
      ((Item.readAll true ts).rest ++ us) (Item.readAll true ts).problems) :
    Reads tokens depth (itemOver m) (t :: (ts ++ us)) (readNext (0 < depth) t ts).value
      ((readNext (0 < depth) t ts).rest ++ us) (readNext (0 < depth) t ts).problems := by
  refine step peek ?_
  rw [nextKind_cons]
  by_cases left : t.kind = .leftParen
  · rw [if_pos left]
    refine step (closesSlur left inner.tail stop) ?_
    cases closed : Item.isClosed 0 ts with
    | true =>
      have next : readNext (0 < depth) t ts = _ := if_pos (by simp [left, closed])
      rw [next]
      refine step advance ?_
      exact last contents.inSlur (step (accept _ stop rfl) (pure _))
    | false =>
      have next : readNext (0 < depth) t ts = Item.bare t ts none := by
        simp [readNext, closed, Item.read, left, Kind.isBarline, Kind.startsNote, Kind.isAccidental]
      rw [next]
      exact bare none t
  · have next : readNext (0 < depth) t ts = _ := if_neg (by simp [left])
    rw [if_neg left, next]
    exact single inner.tail stop

end Reads

/-- Items are read up to the end of the line or of the slur around them. -/
theorem Turns.items {m : Machine Item} (stop : nextKind us ∈ musicEnds)
    (first : ∀ t rest, InLine (t :: rest) → rest.length < ts.length →
      Reads tokens depth m (t :: (rest ++ us)) (readNext (0 < depth) t rest).value
        ((readNext (0 < depth) t rest).rest ++ us) (readNext (0 < depth) t rest).problems)
    (inner : InLine ts) :
    Turns tokens depth (atItem (0 < depth)) m (ts ++ us) (Item.readAll (0 < depth) ts).value
      ((Item.readAll (0 < depth) ts).rest ++ us) (Item.readAll (0 < depth) ts).problems := by
  -- by length, as an item may be a slur with many tokens
  induction size : ts.length using Nat.strongRecOn generalizing ts with
  | ind n ih =>
    cases ts with
    | nil =>
      rw [Item.readAll_nil]
      refine .nil (.follows ?_)
      have ends : endsMusic (nextKind us) = true := endsMusic_iff.mpr stop
      simp [ends]
    | cons t ts =>
      cases goes : decide (0 < depth) && decide (t.kind = .rightParen) with
      | true =>
        obtain ⟨slurred, right⟩ := Bool.and_eq_true_iff.mp goes
        rw [slurred, Item.readAll_stop (of_decide_eq_true right)]
        exact .nil (.follows (by simp [of_decide_eq_true right]))
      | false =>
        rw [readAll_next goes]
        have shorter := length_readNext_le (0 < depth) t ts
        have more : (!((decide (0 < depth) && decide (t.kind = .rightParen)) ||
            endsMusic t.kind)) = true := by
          rw [goes, inner t List.mem_cons_self]
          rfl
        have rest := inner.rest (readNext_append (0 < depth) t ts)
        rw [List.length_cons] at size
        refine .cons (.follows more) (first t ts inner (Nat.lt_succ_self _)) ?_
          (ih _ (by omega) ?_ rest rfl)
        · simp only [List.cons_append, List.length_cons, List.length_append]
          omega
        · intro u vs line bound
          apply first u vs line
          rw [List.length_cons]
          omega

theorem Reads.slurContents (enough : ts.length < n) (inner : InLine ts)
    (stop : nextKind us ∈ musicEnds) :
    Reads tokens (depth + 1) (slurContents n) (ts ++ us) (Item.readAll true ts).value
      ((Item.readAll true ts).rest ++ us) (Item.readAll true ts).problems := by
  induction n generalizing ts depth with
  | zero => cases enough
  | succ n ih =>
    have slurred : decide (0 < depth + 1) = true := decide_eq_true (Nat.succ_pos depth)
    have first (t : Token) (rest : List Token) (line : InLine (t :: rest))
        (bound : rest.length < ts.length) : Reads tokens (depth + 1) _ (t :: (rest ++ us)) _ _ _ :=
      itemOver line stop (ih (by omega) line.tail)
    -- slurs inside have fewer tokens, so one level less is enough for them
    have turns := Turns.items stop first inner
    rw [slurred] at turns
    exact turns.repeated

theorem Reads.item (inner : InLine (t :: ts)) (stop : nextKind us ∈ musicEnds) :
    Reads tokens depth item (t :: (ts ++ us)) (readNext (0 < depth) t ts).value
      ((readNext (0 < depth) t ts).rest ++ us) (readNext (0 < depth) t ts).problems := by
  refine of_limit (m := fun n => Descent.itemOver (Descent.slurContents n)) fun n enough => ?_
  refine itemOver inner stop (slurContents ?_ inner.tail stop)
  simp only [List.length_cons, List.length_append] at enough
  omega

theorem Reads.music (inner : InLine line) (stop : nextKind us ∈ musicEnds) :
    Reads tokens 0 musicLine (line ++ us)
      ⟨(Item.readAll false line).value, (Token.accept (· = .eol) us).1⟩
      (Token.accept (· = .eol) us).2 (Item.readAll false line).problems := by
  have items : Reads tokens 0 (repeated .musicLine (atItem false) Descent.item) (line ++ us)
      (Item.readAll false line).value ((Item.readAll false line).rest ++ us)
      (Item.readAll false line).problems := by
    apply Turns.repeated
    exact Turns.items stop (fun t rest own _ => item own stop) inner
  rw [Item.rest_readAll, List.nil_append] at items
  refine last items (step peek ?_)
  cases us with
  | nil => exact pure _
  | cons t us =>
    rw [nextKind_cons, Token.accept]
    by_cases eol : t.kind = .eol
    · rw [if_pos eol]
      simp only [eol, decide_true, if_true]
      exact step (advance.turn (by simp)) (pure _)
    · rw [if_neg eol]
      simp only [eol, decide_false, Bool.false_eq_true, if_false]
      exact pure _

theorem Reads.musicLine (ts : List Token) :
    Reads tokens 0 musicLine ts (MusicLine.read ts).value (MusicLine.read ts).rest
      (MusicLine.read ts).problems := by
  refine of_sees fun i sees => ?_
  have line : InLine (ts.takeWhile (!MusicLine.isBoundary ·.kind)) := by
    intro t member
    have text := sees.ne_eof ((List.takeWhile_sublist _).subset member)
    have goes := List.all_eq_true.mp List.all_takeWhile t member
    simpa [endsMusic, text] using goes
  have stop : nextKind (ts.dropWhile (!MusicLine.isBoundary ·.kind)) ∈ musicEnds := by
    rw [← endsMusic_iff, nextKind]
    cases found : (ts.dropWhile (!MusicLine.isBoundary ·.kind)).head? with
    | none => rfl
    | some t =>
      have ends : MusicLine.isBoundary t.kind = true := by
        simpa using not_of_mem_head?_dropWhile _ found
      simp [endsMusic, ends]
  have music : Reads tokens 0 _ _ _ _ _ := Reads.music line stop
  rwa [List.takeWhile_append_dropWhile] at music

end Tunebook.Descent
