import Tunebook.Proofs.Reporting
import Tunebook.Proofs.Slurs

/-! The leaves of a tree are the items of its music that are no slurs. All that is at fault in a tree
is at fault in a leaf, and every leaf is what the grammar makes of the tokens from some place of its
line on, with what it finds wrong there. -/
namespace Tunebook

/-- What stands behind a token among others. -/
def Token.behind (t : Token) (ts : List Token) : List Token :=
  (ts.dropWhile (· ≠ t)).tail

theorem Token.behind_append {t : Token} (once : (front ++ t :: back).Nodup) :
    t.behind (front ++ t :: back) = back := by
  have passes : ∀ u ∈ front, decide (u ≠ t) = true := fun u member =>
    decide_eq_true ((List.nodup_append.mp once).2.2 u member t List.mem_cons_self)
  rw [behind, List.dropWhile_append_of_pos passes]
  simp

/-- The value is what a production makes of the tokens from some place on, and the problems that it
finds are among those given. -/
def IsRead (production : Token → List Token → Reading α) (ahead : List Token) (problems : List Problem)
    (value : α) : Prop :=
  ∃ t us, t :: us <:+ ahead ∧ (production t us).value = value ∧
    (production t us).problems ⊆ problems

theorem IsRead.weaken (h : IsRead production ahead problems value) (longer : ahead <:+ ahead')
    (more : problems ⊆ problems') : IsRead production ahead' problems' value := by
  obtain ⟨t, us, suffix, same, found⟩ := h
  exact ⟨t, us, suffix.trans longer, same, List.Subset.trans found more⟩

/-- An item that is no slur, and whether it stands in one. -/
structure Leaf where
  item : Item
  inSlur : Bool

mutual

/-- The items in a slur, or the item itself. -/
def Item.leaves (inSlur : Bool) : Item → List Leaf
  | .slur _ contents _ => Item.leavesOf true contents
  | item => [⟨item, inSlur⟩]

def Item.leavesOf (inSlur : Bool) : List Item → List Leaf
  | [] => []
  | item :: items => item.leaves inSlur ++ Item.leavesOf inSlur items

end

def Tune.leaves (t : Tune) : List Leaf :=
  t.musicLines.flatMap fun line => Item.leavesOf false line.items

/-- The leaves of all tunes, in reading order. -/
def Tree.leaves (t : Tree) : List Leaf :=
  t.tunes.flatMap Tune.leaves

namespace Item

mutual

theorem faults_eq_leaves (inSlur : Bool) (item : Item) :
    item.faults = (item.leaves inSlur).flatMap (·.item.faults) := by
  cases item with
  | slur left contents right =>
    rw [faults, leaves]
    exact faultsOf_eq_leavesOf true contents
  | _ => simp [leaves]

theorem faultsOf_eq_leavesOf (inSlur : Bool) (items : List Item) :
    faultsOf items = (leavesOf inSlur items).flatMap (·.item.faults) := by
  cases items with
  | nil => rfl
  | cons item items =>
    rw [faultsOf, leavesOf, List.flatMap_append, faults_eq_leaves inSlur item,
      faultsOf_eq_leavesOf inSlur items]

end

theorem leaves_read (inSlur : Bool) (t : Token) (ts : List Token) :
    (read inSlur t ts).value.leaves inSlur = [⟨(read inSlur t ts).value, inSlur⟩] := by
  cases value : (read inSlur t ts).value with
  | slur left contents right => exact absurd value (read_ne_slur inSlur t ts left contents right)
  | _ => simp [leaves]

theorem isRead_of_mem_leavesOf (h : leaf ∈ leavesOf inSlur (readAll inSlur ts).value) :
    IsRead (read leaf.inSlur) ts (readAll inSlur ts).problems leaf.item := by
  induction inSlur, ts using readAll_induct with
  | nil inSlur => simp [readAll_nil, leavesOf] at h
  | stop t ts right => simp [readAll_stop right, leavesOf] at h
  | slur inSlur t ts left closed inner tail =>
    have behind : (Token.accept (· = .rightParen) (readAll true ts).rest).2 <:+ ts :=
      List.IsSuffix.trans ⟨_, Token.accept_append _ _⟩ ⟨_, readAll_append true ts⟩
    rw [readAll_slur left closed] at h ⊢
    rw [leavesOf, leaves] at h
    rcases List.mem_append.mp h with h | h
    · exact (inner h).weaken (List.suffix_cons t ts) (List.subset_append_left _ _)
    · exact (tail h).weaken (behind.trans (List.suffix_cons t ts)) (List.subset_append_right _ _)
  | item inSlur t ts right left tail =>
    rw [readAll_item right left] at h ⊢
    rw [leavesOf, leaves_read, List.singleton_append] at h
    rcases List.mem_cons.mp h with rfl | h
    · exact ⟨t, ts, List.suffix_rfl, rfl, List.subset_append_left _ _⟩
    · exact (tail h).weaken ⟨_, read_append inSlur t ts⟩
        (List.subset_append_right _ _)

end Item

theorem BodyLine.read_of_music? (h : (read t us).value.music? = some line) :
    line = (MusicLine.read (t :: us)).value ∧
      (read t us).problems = (MusicLine.read (t :: us)).problems := by
  by_cases key : t.kind = .infoKey
  · simp [read, key, music?] at h
  · by_cases comment : t.kind.isComment = true
    · simp [read, key, comment, music?] at h
    · simp only [read, key, comment, if_false, music?] at h ⊢
      exact ⟨(Option.some.inj h).symm, rfl⟩

namespace Tune

theorem isRead_of_mem_readBody (h : line ∈ (readBody atLineStart ts).value) :
    IsRead BodyLine.read ts (readBody atLineStart ts).problems line := by
  fun_induction readBody atLineStart ts with
  | case1 | case2 => cases h
  | case3 _ t ts _ own tail ih =>
    rcases List.mem_cons.mp h with rfl | h
    · exact ⟨t, ts, List.suffix_rfl, rfl, List.subset_append_left _ _⟩
    · exact (ih h).weaken ⟨_, BodyLine.read_append t ts⟩
        (List.subset_append_right _ _)

theorem isRead_of_mem_body (h : line ∈ (read beyond ts).value.body) :
    IsRead BodyLine.read ts (read beyond ts).problems line :=
  (isRead_of_mem_readBody h).weaken ⟨_, readHeader_append true ts⟩
    (List.subset_append_right _ _)

end Tune

theorem Tune.faults_eq_leaves (t : Tune) : t.faults = t.leaves.flatMap (·.item.faults) := by
  rw [faults, leaves, musicLines]
  induction t.body with
  | nil => rfl
  | cons line lines ih =>
    rw [List.flatMap_cons, ih]
    cases line with
    | info | comment => rfl
    | music l =>
      rw [BodyLine.faults, Item.faultsOf_eq_leavesOf false]
      simp [BodyLine.music?]

namespace Tree

theorem faults_eq_leaves (t : Tree) : t.faults = t.leaves.flatMap (·.item.faults) := by
  rw [faults, leaves, List.flatMap_assoc]
  exact congrArg (t.tunes.flatMap ·) (funext Tune.faults_eq_leaves)

/-- The errors that the grammar reports are what is at fault in the leaves. -/
theorem errors_eq_leaves (ts : List Token) :
    (ofTokens ts).2.filter Problem.isError =
      (ofTokens ts).1.leaves.flatMap (·.item.faults) := by
  rw [← faults_eq_leaves]
  exact errors_readTunes _ _

theorem isRead_of_mem_readTunes (h : tune ∈ (readTunes beyond ts).1) :
    IsRead (fun t us => Tune.read beyond (t :: us)) ts (readTunes beyond ts).2 tune := by
  fun_induction readTunes beyond ts with
  | case1 => cases h
  | case2 t ts own tail ih =>
    rcases List.mem_cons.mp h with rfl | h
    · exact ⟨t, ts, List.suffix_rfl, rfl, List.subset_append_left _ _⟩
    · exact (ih h).weaken ⟨_, Tune.read_append beyond (t :: ts)⟩
        (List.subset_append_right _ _)

theorem isRead_of_mem_tunes (h : tune ∈ (ofTokens ts).1.tunes) :
    ∃ beyond, IsRead (fun t us => Tune.read beyond (t :: us)) (ofTokens ts).1.tokens
      (ofTokens ts).2 tune := by
  refine ⟨_, (isRead_of_mem_readTunes h).weaken ?_ (List.Subset.refl _)⟩
  exact ⟨(ofTokens ts).1.header, congrArg _ (tokens_readTunes _ _).symm⟩

theorem isRead_of_mem_body (listed : tune ∈ (ofTokens ts).1.tunes) (member : line ∈ tune.body) :
    IsRead BodyLine.read (ofTokens ts).1.tokens (ofTokens ts).2 line := by
  obtain ⟨beyond, t, us, suffix, rfl, found⟩ := isRead_of_mem_tunes listed
  exact (Tune.isRead_of_mem_body member).weaken suffix found

/-- A leaf is read from its place in a line up to the end of the line. -/
theorem isRead_of_mem_leaves (h : leaf ∈ (ofTokens ts).1.leaves) :
    ∃ us, us <:+ (ofTokens ts).1.tokens ∧
      IsRead (Item.read leaf.inSlur) (us.takeWhile (!MusicLine.isBoundary ·.kind)) (ofTokens ts).2
        leaf.item := by
  obtain ⟨tune, listed, inside⟩ := List.mem_flatMap.mp h
  obtain ⟨music, member, own⟩ := List.mem_flatMap.mp inside
  obtain ⟨line, member, same⟩ := List.mem_filterMap.mp member
  obtain ⟨t, us, suffix, rfl, found⟩ := isRead_of_mem_body listed member
  obtain ⟨rfl, problems⟩ := BodyLine.read_of_music? same
  rw [problems] at found
  exact ⟨t :: us, suffix, (Item.isRead_of_mem_leavesOf own).weaken List.suffix_rfl found⟩

end Tree
end Tunebook
