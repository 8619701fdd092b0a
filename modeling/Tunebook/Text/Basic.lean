/-! A text is its list of characters. This module measures it, in UTF-8 bytes and in UTF-16 code
units, and cuts it into lines; `flatten_lines` says that the cut loses nothing. -/
namespace Tunebook

/-- Drops the longest run at the end whose members all pass `p`. -/
def dropTrailing (p : α → Bool) : List α → List α
  | [] => []
  | a :: as =>
    match dropTrailing p as with
    | [] => if p a then [] else [a]
    | rest => a :: rest

abbrev Text := List Char

namespace Text

/-- Length in UTF-8. -/
def bytes : Text → Nat
  | [] => 0
  | c :: cs => c.utf8Size + bytes cs

/-- UTF-16 code units of one character. -/
def charUnits (c : Char) : Nat :=
  if c.toNat < 0x10000 then 1 else 2

/-- Length in UTF-16, the unit of editor columns. -/
def units : Text → Nat
  | [] => 0
  | c :: cs => charUnits c + units cs

@[simp] theorem bytes_nil : bytes [] = 0 := rfl

@[simp] theorem bytes_cons (c : Char) (cs : Text) : bytes (c :: cs) = c.utf8Size + bytes cs := rfl

@[simp] theorem bytes_append (s t : Text) : bytes (s ++ t) = bytes s + bytes t := by
  induction s with
  | nil => simp
  | cons c cs ih => simp [ih, Nat.add_assoc]

@[simp] theorem units_nil : units [] = 0 := rfl

@[simp] theorem units_cons (c : Char) (cs : Text) : units (c :: cs) = charUnits c + units cs := rfl

@[simp] theorem units_append (s t : Text) : units (s ++ t) = units s + units t := by
  induction s with
  | nil => simp
  | cons c cs ih => simp [ih, Nat.add_assoc]

theorem charUnits_pos (c : Char) : 0 < charUnits c := by
  unfold charUnits
  split <;> decide

/-- The lines of a text, each with the line feed that ends it; only the last can lack one. -/
def lines : Text → List Text
  | [] => []
  | c :: cs =>
    if c = '\n' then [c] :: lines cs
    else match lines cs with
      | [] => [[c]]
      | line :: rest => (c :: line) :: rest

theorem flatten_lines (t : Text) : (lines t).flatten = t := by
  induction t with
  | nil => rfl
  | cons c cs ih =>
    unfold lines
    split
    · simp [ih]
    · split
      next h => rw [h] at ih; simp [← ih]
      next h => rw [h] at ih; simp [← ih]

def isLineBreak (c : Char) : Bool :=
  c = '\n' || c = '\r'

/-- A line without the carriage returns and line feeds at its end. -/
def lineContent (line : Text) : Text :=
  dropTrailing isLineBreak line

end Text
end Tunebook
