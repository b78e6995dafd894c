import StreamStats.Text.Digits

/-! Dates and times of day, together or alone. They are read in several spellings and written in
one. -/

namespace StreamStats
namespace Settings

structure Date where
  year : Nat
  month : Nat
  day : Nat
  deriving DecidableEq

structure DayTime where
  hour : Nat
  minute : Nat
  second : Nat
  /-- The decimal digits of the second, nine at most and no zero at their end. -/
  fraction : List Char
  deriving DecidableEq

inductive Offset where
  | universal
  | minutes (n : Int)
  deriving DecidableEq

structure Moment where
  date : Option Date
  time : Option DayTime
  offset : Option Offset
  deriving DecidableEq

namespace Moment

def isLeap (year : Nat) : Bool := year % 4 == 0 && (year % 100 != 0 || year % 400 == 0)

def daysIn (year month : Nat) : Nat :=
  if month = 2 then if isLeap year then 29 else 28
  else if month = 4 ∨ month = 6 ∨ month = 9 ∨ month = 11 then 30
  else 31

def digits (count : Nat) (cs : List Char) : Option (Nat × List Char) := do
  guard (count ≤ cs.length)
  return (← Text.digits? (cs.take count), cs.drop count)

def mark (c : Char) : List Char → Option (List Char)
  | [] => none
  | c' :: cs => if c' = c then some cs else none

def readDate (cs : List Char) : Option (Date × List Char) := do
  let (year, cs) ← digits 4 cs
  let (month, cs) ← digits 2 (← mark '-' cs)
  let (day, cs) ← digits 2 (← mark '-' cs)
  guard (1 ≤ month ∧ month ≤ 12 ∧ 1 ≤ day ∧ day ≤ daysIn year month)
  return (⟨year, month, day⟩, cs)

/-- The hour goes up to 24 and the second up to 60. -/
def readTime (cs : List Char) : Option (DayTime × List Char) := do
  let (hour, cs) ← digits 2 cs
  let (minute, cs) ← digits 2 (← mark ':' cs)
  let (second, cs) ← digits 2 (← mark ':' cs)
  guard (hour ≤ 24 ∧ minute ≤ 59 ∧ second ≤ 60)
  match cs with
  | '.' :: cs =>
    let read := cs.takeWhile Char.isDigit
    guard (read ≠ [])
    let fraction := ((read.take 9).reverse.dropWhile (· == '0')).reverse
    return (⟨hour, minute, second, fraction⟩, cs.dropWhile Char.isDigit)
  | cs => return (⟨hour, minute, second, []⟩, cs)

/-- At most a day to either side. -/
def readOffset (sign : Int) (cs : List Char) : Option (Offset × List Char) := do
  let (hours, cs) ← digits 2 cs
  let (minutes, cs) ← digits 2 (← mark ':' cs)
  guard (hours * 60 + minutes ≤ 24 * 60)
  return (.minutes (sign * (hours * 60 + minutes : Nat)), cs)

def readEnd : List Char → Option (Option Offset × List Char)
  | [] => some (none, [])
  | 'Z' :: cs | 'z' :: cs => some (some .universal, cs)
  | '+' :: cs => (readOffset 1 cs).map fun (offset, cs) => (some offset, cs)
  | '-' :: cs => (readOffset (-1) cs).map fun (offset, cs) => (some offset, cs)
  | _ => none

def ofText? (s : String) : Option Moment := do
  let cs := s.toList
  if cs[2]? = some ':' then
    let (time, rest) ← readTime cs
    guard (rest = [])
    return ⟨none, some time, none⟩
  let (date, rest) ← readDate cs
  match rest with
  | [] => return ⟨some date, none, none⟩
  | c :: rest => do
    guard (c = 'T' ∨ c = 't' ∨ c = ' ')
    let (time, rest) ← readTime rest
    let (offset, rest) ← readEnd rest
    guard (rest = [])
    return ⟨some date, some time, offset⟩

def padded (width n : Nat) : List Char :=
  let ds := Nat.toDigits 10 n
  List.replicate (width - ds.length) '0' ++ ds

def writeDate (d : Date) : List Char :=
  padded 4 d.year ++ '-' :: padded 2 d.month ++ '-' :: padded 2 d.day

def writeTime (t : DayTime) : List Char :=
  padded 2 t.hour ++ ':' :: padded 2 t.minute ++ ':' :: padded 2 t.second ++
    (if t.fraction = [] then [] else '.' :: t.fraction)

def writeOffset : Offset → List Char
  | .universal => ['Z']
  | .minutes n =>
    (if n < 0 then '-' else '+') :: padded 2 (n.natAbs / 60) ++ ':' :: padded 2 (n.natAbs % 60)

def write (m : Moment) : String :=
  let date := (m.date.map writeDate).getD []
  let time := (m.time.map writeTime).getD []
  let offset := (m.offset.map writeOffset).getD []
  String.ofList (date ++ (if m.date.isSome ∧ m.time.isSome then ['T'] else []) ++ time ++ offset)

end Moment
end Settings
end StreamStats
