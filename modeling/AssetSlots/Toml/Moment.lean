namespace AssetSlots.Toml

structure Date where
  year : Nat
  month : Nat
  day : Nat
  deriving DecidableEq, Repr

structure Time where
  hour : Nat
  minute : Nat
  second : Nat
  nanosecond : Nat
  deriving DecidableEq, Repr

inductive Offset where
  | utc
  | minutes (m : Int)
  deriving DecidableEq, Repr

inductive Moment where
  | date (d : Date)
  | time (t : Time)
  | dateTime (d : Date) (t : Time) (offset : Option Offset)
  deriving DecidableEq, Repr

def skip? (c : Char) : List Char → Option (List Char)
  | d :: t => if d = c then some t else none
  | [] => none

def decimal (digits : List Char) : Nat :=
  digits.foldl (fun n c => 10 * n + (c.toNat - '0'.toNat)) 0

def fixed? (n : Nat) (t : List Char) : Option (Nat × List Char) :=
  if (t.take n).length = n ∧ (t.take n).all Char.isDigit then some (decimal (t.take n), t.drop n)
  else none

def padded (width n : Nat) : String :=
  let digits := Nat.toDigits 10 n
  String.ofList (List.replicate (width - digits.length) '0' ++ digits)

namespace Date

def isLeap (year : Nat) : Bool := year % 4 == 0 && (year % 100 != 0 || year % 400 == 0)

def daysIn (year month : Nat) : Nat :=
  if month = 2 then (if isLeap year then 29 else 28)
  else if month = 4 ∨ month = 6 ∨ month = 9 ∨ month = 11 then 30
  else 31

def read? (t : List Char) : Option (Date × List Char) := do
  let (year, t) ← fixed? 4 t
  let t ← skip? '-' t
  let (month, t) ← fixed? 2 t
  let t ← skip? '-' t
  let (day, t) ← fixed? 2 t
  guard (1 ≤ month ∧ month ≤ 12 ∧ 1 ≤ day ∧ day ≤ daysIn year month)
  return (⟨year, month, day⟩, t)

def text (d : Date) : String :=
  padded 4 d.year ++ "-" ++ padded 2 d.month ++ "-" ++ padded 2 d.day

end Date

namespace Time

def fraction? : List Char → Option (Nat × List Char)
  | '.' :: t =>
    let digits := t.takeWhile Char.isDigit
    if digits = [] then none
    else some (decimal ((digits ++ List.replicate 9 '0').take 9), t.dropWhile Char.isDigit)
  | t => some (0, t)

def read? (t : List Char) : Option (Time × List Char) := do
  let (hour, t) ← fixed? 2 t
  let t ← skip? ':' t
  let (minute, t) ← fixed? 2 t
  guard (hour ≤ 23 ∧ minute ≤ 59)
  match t with
  | ':' :: t =>
    let (second, t) ← fixed? 2 t
    let (nanosecond, t) ← fraction? t
    guard (second ≤ 60)
    return (⟨hour, minute, second, nanosecond⟩, t)
  | t => return (⟨hour, minute, 0, 0⟩, t)

def text (t : Time) : String :=
  let whole := padded 2 t.hour ++ ":" ++ padded 2 t.minute ++ ":" ++ padded 2 t.second
  if t.nanosecond = 0 then whole
  else
    let digits := (padded 9 t.nanosecond).toList
    whole ++ "." ++ String.ofList (digits.reverse.dropWhile (· = '0')).reverse

end Time

namespace Offset

def shift? (sign : Int) (t : List Char) : Option (Option Offset × List Char) := do
  let (hour, t) ← fixed? 2 t
  let t ← skip? ':' t
  let (minute, t) ← fixed? 2 t
  guard (hour ≤ 23 ∧ minute ≤ 59)
  return (some (minutes (sign * (60 * hour + minute : Nat))), t)

def read? : List Char → Option (Option Offset × List Char)
  | 'Z' :: t => some (some utc, t)
  | 'z' :: t => some (some utc, t)
  | '+' :: t => shift? 1 t
  | '-' :: t => shift? (-1) t
  | t => some (none, t)

def text : Offset → String
  | utc => "Z"
  | minutes m =>
    (if m < 0 then "-" else "+") ++ padded 2 (m.natAbs / 60) ++ ":" ++ padded 2 (m.natAbs % 60)

end Offset

namespace Moment

def read? (t : List Char) : Option Moment :=
  match Date.read? t with
  | some (d, []) => some (date d)
  | some (d, c :: t) =>
    if c = 'T' ∨ c = 't' ∨ c = ' ' then do
      let (clock, t) ← Time.read? t
      let (offset, t) ← Offset.read? t
      guard (t = [])
      return dateTime d clock offset
    else none
  | none =>
    match Time.read? t with
    | some (t, []) => some (time t)
    | _ => none

def text : Moment → String
  | date d => d.text
  | time t => t.text
  | dateTime d t offset => d.text ++ "T" ++ t.text ++ (offset.map Offset.text).getD ""

end Moment

end AssetSlots.Toml
