import Tunebook.Number.Word

/-! The dates and times of TOML: a day, a time of day, or both, and then perhaps the distance from
universal time. Settings show them as text. -/
namespace Tunebook.Toml

structure Day where
  year : Nat
  month : Nat
  day : Nat

/-- A time of day, down to the nanosecond. A second of 60 is a leap second. -/
structure Clock where
  hour : Nat
  minute : Nat
  second : Nat
  nanosecond : Nat

inductive Offset where
  | utc
  | apart (west : Bool) (minutes : Nat)

inductive Moment where
  | date (d : Day)
  | time (c : Clock)
  | both (d : Day) (c : Clock) (offset : Option Offset)

/-- A number in decimal digits, with zeros ahead up to this many places. -/
def padded (places n : Nat) : String :=
  let digits := Nat.toDigits 10 n
  String.ofList (List.replicate (places - digits.length) '0' ++ digits)

def Day.display (d : Day) : String :=
  padded 4 d.year ++ "-" ++ padded 2 d.month ++ "-" ++ padded 2 d.day

/-- The fraction of a second has no zeros at its end. -/
def Clock.display (c : Clock) : String :=
  let fraction := dropTrailing (· = '0') (padded 9 c.nanosecond).toList
  padded 2 c.hour ++ ":" ++ padded 2 c.minute ++ ":" ++ padded 2 c.second ++
    (if fraction.isEmpty then "" else "." ++ String.ofList fraction)

def Offset.display : Offset → String
  | utc => "Z"
  | apart west minutes =>
    (if west && minutes ≠ 0 then "-" else "+") ++ padded 2 (minutes / 60) ++ ":" ++
      padded 2 (minutes % 60)

def Moment.display : Moment → String
  | date d => d.display
  | time c => c.display
  | both d c offset => d.display ++ "T" ++ c.display ++ (offset.map Offset.display).getD ""

namespace Day

def isLeap (year : Nat) : Bool :=
  year % 4 = 0 && (year % 100 ≠ 0 || year % 400 = 0)

def daysIn (year month : Nat) : Nat :=
  if month = 2 then if isLeap year then 29 else 28
  else if [4, 6, 9, 11].contains month then 30
  else 31

def isValid (d : Day) : Bool :=
  1 ≤ d.month && d.month ≤ 12 && 1 ≤ d.day && d.day ≤ daysIn d.year d.month

end Day

namespace Moment

/-- A number of exactly so many digits. -/
def digits (count : Nat) (cs : Text) : Option (Nat × Text) :=
  let run := cs.take count
  if run.length = count && run.all Char.isDigit then
    some (Number.ofDigits run, cs.drop count)
  else none

def mark (c : Char) : Text → Option Text
  | d :: cs => if c = d then some cs else none
  | [] => none

def readDay (cs : Text) : Option (Day × Text) := do
  let (year, cs) ← digits 4 cs
  let (month, cs) ← digits 2 (← mark '-' cs)
  let (day, cs) ← digits 2 (← mark '-' cs)
  if (Day.mk year month day).isValid then some (⟨year, month, day⟩, cs) else none

/-- The fraction of a second, cut after nine digits. -/
def readFraction (cs : Text) : Nat × Text :=
  match cs with
  | '.' :: rest =>
    match rest.takeWhile Char.isDigit with
    | [] => (0, cs)
    | run =>
      let places := run.take 9
      (Number.ofDigits (places ++ List.replicate (9 - places.length) '0'), rest.drop run.length)
  | _ => (0, cs)

def readHour (cs : Text) : Option (Nat × Text) :=
  (digits 2 cs).filter (·.1 < 24)

def readMinute (cs : Text) : Option (Nat × Text) :=
  (digits 2 cs).filter (·.1 < 60)

def readClock (cs : Text) : Option (Clock × Text) := do
  let (hour, cs) ← readHour cs
  let (minute, cs) ← readMinute (← mark ':' cs)
  let (second, cs) ← (digits 2 (← mark ':' cs)).filter (·.1 ≤ 60)
  let (nanosecond, cs) := readFraction cs
  some (⟨hour, minute, second, nanosecond⟩, cs)

def readApart (west : Bool) (cs : Text) : Option (Offset × Text) := do
  let (hours, cs) ← readHour cs
  let (minutes, cs) ← readMinute (← mark ':' cs)
  some (.apart west (60 * hours + minutes), cs)

def readOffset : Text → Option (Offset × Text)
  | 'Z' :: cs | 'z' :: cs => some (.utc, cs)
  | '+' :: cs => readApart false cs
  | '-' :: cs => readApart true cs
  | _ => none

/-- The time of day that may follow a day, after a letter or a space. -/
def readRest (d : Day) : Text → Option (Moment × Text)
  | c :: cs =>
    if c = 'T' || c = 't' || c = ' ' then do
      let (clock, cs) ← readClock cs
      match readOffset cs with
      | some (offset, cs) => some (.both d clock (some offset), cs)
      | none => some (.both d clock none, cs)
    else none
  | [] => none

def read? (cs : Text) : Option (Moment × Text) :=
  match readDay cs with
  | some (d, cs) => some ((readRest d cs).getD (.date d, cs))
  | none => (readClock cs).map fun (c, cs) => (.time c, cs)

end Moment
end Tunebook.Toml
