import Tunebook.Document

/-! The open documents by their names. A new text replaces a document as a whole, and the cache keeps
the source for itself under which it analyses. What each operation does to the documents is said by
one equation on `get?`. -/
namespace Tunebook

structure Cache where
  source : String
  documents : List (String × Document)

namespace Cache

def empty (source : String) : Cache :=
  ⟨source, []⟩

def get? (c : Cache) (uri : String) : Option Document :=
  c.documents.lookup uri

def erase (uri : String) (documents : List (String × Document)) : List (String × Document) :=
  documents.filter (·.1 != uri)

/-- Takes a text in place of whatever was open under this name. -/
def update (c : Cache) (uri : String) (text : Text) : Cache :=
  { c with documents := (uri, .analyze c.source text) :: erase uri c.documents }

/-- Drops a document, and says whether there was one. -/
def remove (c : Cache) (uri : String) : Bool × Cache :=
  ((c.get? uri).isSome, { c with documents := erase uri c.documents })

/-- Analyses every open document anew under another source. -/
def setSource (c : Cache) (source : String) : Cache :=
  ⟨source, c.documents.map fun (uri, d) => (uri, .analyze source d.text)⟩

theorem lookup_erase (uri other : String) (documents : List (String × Document)) :
    (erase uri documents).lookup other = if other = uri then none else documents.lookup other := by
  induction documents with
  | nil => simp [erase]
  | cons entry documents ih =>
    obtain ⟨name, d⟩ := entry
    by_cases removed : name = uri
    · subst removed
      have rest : erase name ((name, d) :: documents) = erase name documents := by simp [erase]
      rw [rest, ih]
      by_cases same : other = name
      · simp [same]
      · have skipped : (other == name) = false := by simpa using same
        simp [List.lookup_cons, same, skipped]
    · have rest : erase uri ((name, d) :: documents) = (name, d) :: erase uri documents := by
        simp [erase, removed]
      rw [rest]
      by_cases same : other = name
      · subst same
        simp [removed]
      · have skipped : (other == name) = false := by simpa using same
        simp [List.lookup_cons, skipped, ih]

@[simp] theorem get?_empty (source uri : String) : (empty source).get? uri = none :=
  rfl

theorem get?_update (c : Cache) (uri other : String) (text : Text) :
    (c.update uri text).get? other =
      if other = uri then some (.analyze c.source text) else c.get? other := by
  by_cases same : other = uri
  · subst same
    simp [update, get?]
  · have skipped : (other == uri) = false := by simpa using same
    simp [update, get?, List.lookup_cons, skipped, lookup_erase, same]

theorem get?_remove (c : Cache) (uri other : String) :
    (c.remove uri).2.get? other = if other = uri then none else c.get? other :=
  lookup_erase uri other c.documents

theorem get?_setSource (c : Cache) (source uri : String) :
    (c.setSource source).get? uri = (c.get? uri).map fun d => .analyze source d.text := by
  unfold setSource get?
  induction c.documents with
  | nil => rfl
  | cons entry documents ih =>
    obtain ⟨name, d⟩ := entry
    by_cases same : uri = name
    · subst same
      simp
    · have skipped : (uri == name) = false := by simpa using same
      simpa [List.lookup_cons, skipped] using ih

end Cache
end Tunebook
