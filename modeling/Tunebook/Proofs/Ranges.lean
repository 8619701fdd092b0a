import Tunebook.Proofs.Edges
import Tunebook.Proofs.Grammar.Blocks
import Tunebook.Proofs.Lossless
import Tunebook.Proofs.Scan.Tiling

/-! Where the nodes of a tree lie. Each node owns a stretch of the tokens of its text, so that its
range, told by its edges, cuts out of the text what the node is written as, and nodes that follow one
another leave no gap. -/
namespace Tunebook

/-- The nodes of a tree that have a range. -/
inductive Node where
  | header (t : Tree)
  | body (t : Tune)
  | line (l : BodyLine)
  | info (l : InfoLine)
  | comment (l : CommentLine)
  | music (l : MusicLine)
  | item (item : Item)
  | note (n : Note)
  | chord (c : Chord)
  | grace (g : GraceGroup)
  | token (t : Token)

def HeaderLine.node : HeaderLine → Node
  | info l => .info l
  | comment l => .comment l

def BodyLine.node : BodyLine → Node
  | music l => .music l
  | info l => .info l
  | comment l => .comment l

def ChordPart.node : ChordPart → Node
  | note n => .note n
  | quotedText t | token t => .token t

def GracePart.node : GracePart → Node
  | note n => .note n
  | chord c => .chord c
  | token t => .token t

namespace Node

def range : Node → Option Range
  | header t => t.headerRange
  | body t => t.bodyRange
  | line l => l.range
  | info l => l.range
  | comment l => l.range
  | music l => l.range
  | item i => i.range
  | note n => n.range
  | chord c => c.range
  | grace g => g.range
  | token t => some t.range

def tokens : Node → List Token
  | header t => t.header
  | body t => t.bodyTokens
  | line l => l.tokens
  | info l => l.tokens
  | comment l => l.tokens
  | music l => l.tokens
  | item i => i.tokens
  | note n => n.tokens
  | chord c => c.tokens
  | grace g => g.tokens
  | token t => [t]

/-- What is written for a node when its tree is. -/
def written (node : Node) : Text :=
  Token.join node.tokens

/-- The nodes that stand in a node one after the other. -/
def sequence : Node → List Node
  | header t => t.header.map token
  | body t => t.body.map line
  | line l => [l.node]
  | music l => l.contents.map item
  | item (.note n) => [note n]
  | item (.chord c) => [chord c]
  | item (.grace g) => [grace g]
  | item (.slur _ contents _) => contents.map item
  | chord c => c.parts.map ChordPart.node
  | grace g => g.parts.map GracePart.node
  | _ => []

/-- The second node starts where the first one stops. -/
def Abuts (a b : Node) : Prop :=
  ∃ r ∈ a.range, ∃ s ∈ b.range, r.span.stop = s.span.start

/-- The range cuts out of the text what the node is written as, and its positions are those of its
span. -/
structure LiesAt (text : Text) (node : Node) (r : Range) : Prop where
  range : node.range = some r
  slice : text.slice? r.span = some node.written
  start : r.start = text.positionAt r.span.start
  stop : r.stop = text.positionAt r.span.stop

end Node

/-- The tree has the node, at whatever depth. -/
inductive Tree.Has (t : Tree) : Node → Prop where
  | header : t.header ≠ [] → Has t (.header t)
  | headerLine : tune ∈ t.tunes → line ∈ tune.header → Has t line.node
  | body : tune ∈ t.tunes → tune.body ≠ [] → Has t (.body tune)
  | part : Has t node → child ∈ node.sequence → Has t child

namespace Node

theorem range_eq_cover (node : Node) : node.range = Token.cover node.tokens := by
  cases node with
  | header t | token t => rfl
  | body t => exact t.bodyRange_eq_cover
  | line l => exact l.range_eq_cover
  | info l => exact l.range_eq_cover
  | comment l => exact l.range_eq_cover
  | music l => exact l.range_eq_cover
  | item i => exact i.range_eq_cover
  | note n => exact n.range_eq_cover
  | chord c => exact c.range_eq_cover
  | grace g => exact g.range_eq_cover

theorem flatMap_item (items : List Item) : (items.map item).flatMap tokens = Item.tokensOf items := by
  rw [List.flatMap_map, Item.tokensOf_eq_flatMap]
  rfl

theorem flatMap_chordPart (parts : List ChordPart) :
    (parts.map ChordPart.node).flatMap tokens = parts.flatMap ChordPart.tokens := by
  rw [List.flatMap_map]
  congr 1
  funext part
  cases part <;> rfl

theorem flatMap_gracePart (parts : List GracePart) :
    (parts.map GracePart.node).flatMap tokens = parts.flatMap GracePart.tokens := by
  rw [List.flatMap_map]
  congr 1
  funext part
  cases part <;> rfl

/-- What stands in a node is a stretch of it. -/
theorem sequence_infix (node : Node) : node.sequence.flatMap tokens <:+: node.tokens := by
  have whole {ts us : List Token} (same : ts = us) : ts <:+: us := same ▸ List.infix_refl ts
  cases node with
  | header t =>
    refine whole ?_
    simp [sequence, tokens, List.flatMap_map]
  | body t =>
    refine whole ?_
    simp [sequence, tokens, List.flatMap_map, Tune.bodyTokens]
  | line l =>
    refine whole ?_
    cases l <;> simp [sequence, tokens, BodyLine.node, BodyLine.tokens]
  | music l =>
    refine whole ?_
    rw [sequence, flatMap_item, l.tokensOf_contents]
    rfl
  | chord c =>
    refine ⟨[c.left], c.right :: c.rhythm.tokens ++ c.tie.toList, ?_⟩
    rw [sequence, flatMap_chordPart]
    simp [tokens, Chord.tokens]
  | grace g =>
    refine ⟨g.left :: g.slash.toList, [g.right], ?_⟩
    rw [sequence, flatMap_gracePart]
    simp [tokens, GraceGroup.tokens]
  | item i =>
    cases i with
    | note n | chord c | grace g =>
      refine whole ?_
      simp [sequence, tokens, Item.tokens]
    | slur left contents right =>
      refine ⟨[left], right.toList, ?_⟩
      rw [sequence, flatMap_item]
      simp [tokens, Item.tokens]
    | _ => exact List.nil_infix
  | info l | comment l | note n | token t => exact List.nil_infix

end Node

/-- Every line of every body has a token. -/
def Tree.Full (t : Tree) : Prop :=
  ∀ tune ∈ t.tunes, ∀ line ∈ tune.body, line.tokens ≠ []

namespace Node

theorem note_tokens_ne_nil (n : Note) : n.tokens ≠ [] := by
  simp [Note.tokens, n.head.tokens_ne_nil]

/-- Parts of a node have tokens, those of a body apart. -/
theorem tokens_ne_nil_of_mem_sequence {node part : Node} (nonempty : node.tokens ≠ [])
    (apart : ∀ t, node ≠ .body t) (h : part ∈ node.sequence) : part.tokens ≠ [] := by
  cases node with
  | body t => exact absurd rfl (apart t)
  | header t =>
    obtain ⟨u, _, rfl⟩ := List.mem_map.mp h
    exact List.cons_ne_nil u []
  | line l =>
    obtain rfl := List.mem_singleton.mp h
    cases l <;> exact nonempty
  | music l =>
    obtain ⟨i, _, rfl⟩ := List.mem_map.mp h
    exact i.tokens_ne_nil
  | chord c =>
    obtain ⟨p, _, rfl⟩ := List.mem_map.mp h
    cases p with
    | note n => exact note_tokens_ne_nil n
    | quotedText u | token u => exact List.cons_ne_nil u []
  | grace g =>
    obtain ⟨p, _, rfl⟩ := List.mem_map.mp h
    cases p with
    | note n => exact note_tokens_ne_nil n
    | chord c => simp [GracePart.node, tokens, Chord.tokens]
    | token u => exact List.cons_ne_nil u []
  | item i =>
    cases i with
    | note n =>
      obtain rfl := List.mem_singleton.mp h
      exact note_tokens_ne_nil n
    | chord c =>
      obtain rfl := List.mem_singleton.mp h
      simp [tokens, Chord.tokens]
    | grace g =>
      obtain rfl := List.mem_singleton.mp h
      simp [tokens, GraceGroup.tokens]
    | slur left contents right =>
      obtain ⟨i, _, rfl⟩ := List.mem_map.mp h
      exact i.tokens_ne_nil
    | _ => cases h
  | info l | comment l | note n | token t => cases h

theorem ne_body_of_mem_sequence {node part : Node} (h : part ∈ node.sequence) (t : Tune) :
    part ≠ .body t := by
  rintro rfl
  cases node with
  | item i => cases i <;> simp [sequence] at h
  | line l => cases l <;> simp [sequence, BodyLine.node] at h
  | chord c =>
    obtain ⟨p, _, same⟩ := List.mem_map.mp h
    cases p <;> cases same
  | grace g =>
    obtain ⟨p, _, same⟩ := List.mem_map.mp h
    cases p <;> cases same
  | _ => simp [sequence] at h

end Node

namespace Tree

theorem full_ofTokens (ts : List Token) : (ofTokens ts).1.Full := by
  intro tune listed line member
  obtain ⟨t, us, rfl⟩ := exists_read_of_mem_body listed member
  exact BodyLine.tokens_ne_nil t us

namespace Has

theorem mem_tunes {t : Tree} (h : t.Has (.body tune)) : tune ∈ t.tunes := by
  generalize same : Node.body tune = node at h
  cases h with
  | header => cases same
  | @headerLine _ line _ _ => cases line <;> cases same
  | body listed _ =>
    cases same
    exact listed
  | part _ member => exact absurd same.symm (Node.ne_body_of_mem_sequence member tune)

/-- No part of a node of a tree is empty. -/
theorem part_ne_nil {t : Tree} (full : t.Full) (h : t.Has node) (nonempty : node.tokens ≠ [])
    (member : child ∈ node.sequence) : child.tokens ≠ [] := by
  cases node with
  | body tune =>
    obtain ⟨line, listed, rfl⟩ := List.mem_map.mp member
    exact full tune h.mem_tunes line listed
  | _ => exact Node.tokens_ne_nil_of_mem_sequence nonempty (by simp) member

theorem tokens_ne_nil {t : Tree} (full : t.Full) (h : t.Has node) : node.tokens ≠ [] := by
  induction h with
  | header some => exact some
  | @headerLine _ line _ _ => cases line <;> exact List.cons_ne_nil _ _
  | @body tune listed some =>
    obtain ⟨line, lines, body⟩ := List.exists_cons_of_ne_nil some
    have first := full tune listed line (body ▸ List.mem_cons_self)
    simp [Node.tokens, Tune.bodyTokens, body, first]
  | part h member ih => exact part_ne_nil full h ih member

end Has

theorem infix_of_mem_tunes {t : Tree} (h : tune ∈ t.tunes) (inside : ts <:+: tune.tokens) :
    ts <:+: t.tokens := by
  obtain ⟨front, back, cut⟩ := List.append_of_mem h
  refine inside.trans ⟨t.header ++ front.flatMap Tune.tokens, back.flatMap Tune.tokens, ?_⟩
  simp [tokens, cut]

theorem Has.tokens_infix {t : Tree} (h : t.Has node) : node.tokens <:+: t.tokens := by
  induction h with
  | header => exact (List.prefix_append _ _).isInfix
  | @headerLine tune line listed member =>
    refine infix_of_mem_tunes listed ?_
    obtain ⟨front, back, cut⟩ := List.append_of_mem member
    refine ⟨front.flatMap HeaderLine.tokens,
      back.flatMap HeaderLine.tokens ++ (tune.bodyTokens ++ tune.trailing), ?_⟩
    cases line <;> simp [Tune.tokens, Tune.headerTokens, cut, HeaderLine.node, Node.tokens,
      HeaderLine.tokens]
  | @body tune listed _ =>
    exact infix_of_mem_tunes listed ⟨tune.headerTokens, tune.trailing, rfl⟩
  | @part node child h member ih =>
    obtain ⟨front, back, cut⟩ := List.append_of_mem member
    have own : child.tokens <:+: node.sequence.flatMap Node.tokens :=
      ⟨front.flatMap Node.tokens, back.flatMap Node.tokens, by simp [cut]⟩
    exact (own.trans node.sequence_infix).trans ih

end Tree

def Sound.node : Sound → Node
  | note n => .note n
  | chord c => .chord c

namespace Tree.Has

mutual

theorem sound_of_item {t : Tree} (item : Item) (has : t.Has (.item item)) (h : s ∈ item.sounds) :
    t.Has s.node := by
  cases item with
  | note n =>
    obtain rfl := List.mem_singleton.mp (by simpa only [Item.sounds] using h)
    exact has.part List.mem_cons_self
  | chord c =>
    obtain rfl := List.mem_singleton.mp (by simpa only [Item.sounds] using h)
    exact has.part List.mem_cons_self
  | slur left contents right =>
    exact sound_of_items contents (fun inner member => has.part (List.mem_map_of_mem member))
      (by simpa only [Item.sounds] using h)
  | _ => simp [Item.sounds] at h

theorem sound_of_items {t : Tree} (items : List Item) (has : ∀ item ∈ items, t.Has (.item item))
    (h : s ∈ Item.soundsOf items) : t.Has s.node := by
  cases items with
  | nil => simp [Item.soundsOf] at h
  | cons item items =>
    rw [Item.soundsOf] at h
    rcases List.mem_append.mp h with own | others
    · exact sound_of_item item (has item List.mem_cons_self) own
    · exact sound_of_items items (fun other member => has other (List.mem_cons_of_mem item member))
        others

end

/-- What a selection may scale are nodes. -/
theorem sound {t : Tree} (h : s ∈ t.sounds) : t.Has s.node := by
  obtain ⟨tune, listed, h⟩ := List.mem_flatMap.mp h
  obtain ⟨music, member, h⟩ := List.mem_flatMap.mp h
  obtain ⟨line, inside, own⟩ := List.mem_filterMap.mp member
  have whole : t.Has (.line line) :=
    (body listed (List.ne_nil_of_mem inside)).part (List.mem_map_of_mem inside)
  cases line with
  | info | comment => cases own
  | music l =>
    cases own
    refine sound_of_items music.items (fun item stands => ?_) h
    exact (whole.part List.mem_cons_self).part
      (List.mem_map_of_mem (List.mem_append_left _ stands))

end Tree.Has

/-- A stretch of the tokens of a text tiles what its range covers, behind what is before it. -/
theorem Token.tiles_of_cover {text : Text} {ts : List Token} (cut : front ++ ts ++ back = textTokens text)
    (h : cover ts = some r) : Tiles (join front).bytes ts ∧
      r.span = ⟨(join front).bytes, (join front).bytes + (join ts).bytes⟩ := by
  have nonempty : ts ≠ [] := by
    rintro rfl
    cases h
  obtain ⟨first, last, starts, ends, own⟩ := exists_cover nonempty
  cases own.symm.trans h
  have tiles := tiles_textTokens text
  rw [← cut, List.append_assoc, tiles_append, tiles_append, Nat.zero_add] at tiles
  refine ⟨tiles.2.1, ?_⟩
  rw [between, tiles.2.1.start_of_head? starts, tiles.2.1.stop_of_getLast? ends]

/-- A stretch of the tokens of a text lies where its range says. -/
theorem Token.cover_infix {text : Text} {ts : List Token} (inside : ts <:+: textTokens text)
    (nonempty : ts ≠ []) : ∃ r, cover ts = some r ∧ text.slice? r.span = some (join ts) ∧
      r = text.rangeOfSpan r.span := by
  obtain ⟨front, back, cut⟩ := inside
  obtain ⟨first, last, starts, ends, cover⟩ := exists_cover nonempty
  have scanned : ∀ t ∈ ts, t ∈ scan text := by
    intro t member
    rw [scan_eq, ← cut]
    simp [member]
  have before := range_of_mem_scan (scanned first (List.mem_of_head? starts))
  have behind := range_of_mem_scan (scanned last (List.mem_of_getLast? ends))
  simp only [Token.range, Text.rangeOfSpan, Range.mk.injEq, true_and] at before behind
  refine ⟨_, cover, ?_, ?_⟩
  · have whole : text = join front ++ (join ts ++ join back) := by
      rw [← join_textTokens text, ← cut, List.append_assoc, join_append, join_append]
    rw [(tiles_of_cover cut cover).2]
    conv_lhs => rw [whole]
    exact Text.slice?_middle _ _ _
  · rw [between, Text.rangeOfSpan, before.1, behind.2]

namespace Node

theorem liesAt_of_infix {text : Text} {node : Node} (inside : node.tokens <:+: textTokens text)
    (nonempty : node.tokens ≠ []) : ∃ r, node.LiesAt text r := by
  obtain ⟨r, cover, slice, place⟩ := Token.cover_infix inside nonempty
  exact ⟨r, node.range_eq_cover.trans cover, slice, congrArg Range.start place,
    congrArg Range.stop place⟩

/-- Nodes whose tokens are one stretch of a text follow one another without a gap. -/
theorem isChain_abuts {nodes : List Node} (inside : nodes.flatMap tokens <:+: textTokens text)
    (nonempty : ∀ node ∈ nodes, node.tokens ≠ []) : nodes.IsChain Abuts := by
  have chain := List.IsChain.infix (tiles_textTokens text).isChain inside
  rw [List.flatMap_def, List.isChain_flatten (by simpa using nonempty), List.isChain_map] at chain
  refine chain.2.imp_of_mem_imp ?_
  intro a b first second meets
  obtain ⟨_, last, _, ends, front⟩ := Token.exists_cover (nonempty a first)
  obtain ⟨next, _, starts, _, back⟩ := Token.exists_cover (nonempty b second)
  refine ⟨_, a.range_eq_cover.trans front, _, b.range_eq_cover.trans back, ?_⟩
  exact meets last ends next starts

end Node

/-- In the tree of any text every node has a range, which cuts out what the node is written as and
agrees with its positions; and the nodes that stand in one, as well as the lines of a header, follow
one another without a gap. -/
theorem Tree.ranges_ofTokens (text : Text) :
    (∀ node, (ofTokens (scan text)).1.Has node →
      (∃ r, node.LiesAt text r) ∧ node.sequence.IsChain Node.Abuts) ∧
    ∀ tune ∈ (ofTokens (scan text)).1.tunes,
      (tune.header.map HeaderLine.node).IsChain Node.Abuts := by
  have full := full_ofTokens (scan text)
  have own := tokens_ofTokens_scan text
  constructor
  · intro node has
    have inside := own ▸ has.tokens_infix
    have nonempty := has.tokens_ne_nil full
    refine ⟨Node.liesAt_of_infix inside nonempty, ?_⟩
    exact Node.isChain_abuts (node.sequence_infix.trans inside)
      fun child member => has.part_ne_nil full nonempty member
  · intro tune listed
    have lines (line : HeaderLine) : line.node.tokens = line.tokens := by
      cases line <;> rfl
    have inside : (tune.header.map HeaderLine.node).flatMap Node.tokens <:+: textTokens text := by
      rw [← own]
      refine infix_of_mem_tunes listed ⟨[], tune.bodyTokens ++ tune.trailing, ?_⟩
      simp [Tune.tokens, Tune.headerTokens, List.flatMap_map, lines]
    refine Node.isChain_abuts inside fun node member => ?_
    obtain ⟨line, _, rfl⟩ := List.mem_map.mp member
    cases line <;> exact List.cons_ne_nil _ _

/-- A chord with a length and a tie, in a slur behind a wide character. -/
theorem Tree.ranges_ofTokens_chord : ∃ node,
    (ofTokens (scan "(\"é\"[Ec]2-)\n".toList)).1.Has node ∧ node.written = "[Ec]2-".toList ∧
      node.LiesAt "(\"é\"[Ec]2-)\n".toList ⟨⟨5, 11⟩, ⟨0, 4⟩, ⟨0, 10⟩⟩ := by
  obtain ⟨s, listed, written, range⟩ : ∃ s ∈ (ofTokens (scan "(\"é\"[Ec]2-)\n".toList)).1.sounds,
      s.node.written = "[Ec]2-".toList ∧ s.node.range = some ⟨⟨5, 11⟩, ⟨0, 4⟩, ⟨0, 10⟩⟩ := by
    decide +kernel
  have has := Has.sound listed
  obtain ⟨r, lies⟩ := ((ranges_ofTokens _).1 s.node has).1
  cases range.symm.trans lies.range
  exact ⟨s.node, has, written, lies⟩

end Tunebook
