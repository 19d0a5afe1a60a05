import SparqlAlgebra.Number.Decimal

/-!
# Dates with times

Points on the time line of the proleptic Gregorian calendar, with or without a
zone, and their lexical form `YYYY-MM-DDThh:mm:ss`.
-/

namespace SparqlAlgebra

/-- A date with a time of day. -/
structure DateTime where
  /-- Seconds on the time line, in units of 10⁻¹⁸. Without a zone, the local
  time counts as if it were universal time. -/
  instant : Int
  /-- The minutes by which local time is ahead of universal time. -/
  zone : Option Int
deriving DecidableEq, Inhabited

namespace DateTime

/-! ## Calendar -/

def isLeapYear (year : Int) : Bool :=
  year % 4 = 0 && (year % 100 ≠ 0 || year % 400 = 0)

def daysInMonth (year : Int) (month : Nat) : Nat :=
  match month with
  | 2 => if isLeapYear year then 29 else 28
  | 4 | 6 | 9 | 11 => 30
  | _ => 31

/-- The days from the first of January of the year one to that of `year`. -/
def daysBeforeYear (year : Int) : Int :=
  let y := year - 1
  365 * y + (Int.fdiv y 4 - Int.fdiv y 100 + Int.fdiv y 400)

/-- The days of `year` before the given month. -/
def daysBeforeMonth (year : Int) (month : Nat) : Nat :=
  (List.range (month - 1)).foldl (fun n m => n + daysInMonth year (m + 1)) 0

/-- The year that contains a day counted from the first of January of the year
one. A guess from the mean length of a year is off by one at most. -/
def yearOfDay (day : Int) : Int :=
  let guess := Int.fdiv (day * 400) 146097 + 1
  if day < daysBeforeYear guess then guess - 1
  else if daysBeforeYear (guess + 1) ≤ day then guess + 1
  else guess

/-- The month and the day of the month of a day of a year, both counted from
one; `rest` counts the days left from the given month on. -/
def monthAndDay (year : Int) : Nat → Nat → Nat → Nat × Nat
  | 0, month, rest => (month, rest + 1)
  | fuel + 1, month, rest =>
    let days := daysInMonth year month
    if rest < days then (month, rest + 1)
    else monthAndDay year fuel (month + 1) (rest - days)

/-- The seconds on the time line of a local date and time, if a decimal can
hold them. -/
def onTimeLine? (year : Int) (month day hour minute : Nat) (second : Decimal)
    (zone : Option Int) : Option Int :=
  let days := daysBeforeYear year + daysBeforeMonth year month + (day - 1 : Nat)
  let seconds := 86400 * days + 3600 * hour + 60 * (minute - zone.getD 0)
  do
    let whole ← Decimal.ofInt? seconds
    return (← whole.add? second).units

/-! ## Reading -/

/-- The number of exactly two digits, and what follows them. -/
private def twoDigits? (cs : List Char) : Option (Nat × List Char) :=
  let digits := cs.takeWhile Char.isDigit
  if digits.length = 2 then
    some (digitsValue digits, cs.dropWhile Char.isDigit)
  else none

private def expect? (c : Char) : List Char → Option (List Char)
  | d :: rest => if c = d then some rest else none
  | [] => none

/-- A year of at least four digits, without superfluous zeros before them. -/
private def year? (cs : List Char) : Option (Int × List Char) :=
  let (negative, body) := match cs with
    | '-' :: rest => (true, rest)
    | rest => (false, rest)
  let digits := body.takeWhile Char.isDigit
  if digits.length < 4 || (4 < digits.length && digits.head? = some '0') then
    none
  else do
    let n ← checkSigned 64 (digitsValue digits)
    return (if negative then -n else n, body.dropWhile Char.isDigit)

/-- Two digits of seconds with an optional fraction. -/
private def second? (cs : List Char) : Option (Decimal × List Char) :=
  let isPart (c : Char) : Bool := c.isDigit || c = '.'
  let text := cs.takeWhile isPart
  if (text.takeWhile (· ≠ '.')).length ≠ 2 || text.getLast? = some '.' then
    none
  else do
    let d ← Decimal.parse? (String.ofList text)
    if d.units < 60 * Decimal.one then some (d, cs.dropWhile isPart) else none

/-- The zone at the end of the text. -/
private def zone? : List Char → Option (Option Int)
  | [] => some none
  | ['Z'] => some (some 0)
  | cs => do
    let (negative, rest) := splitSign cs
    let (hours, rest) ← twoDigits? rest
    let rest ← expect? ':' rest
    let (minutes, rest) ← twoDigits? rest
    if !rest.isEmpty || 59 < minutes then none
    else if 13 < hours && !(hours = 14 && minutes = 0) then none
    else
      let offset : Int := hours * 60 + minutes
      return some (if negative then -offset else offset)

/-- Reads `-?YYYY-MM-DDThh:mm:ss(.s+)?(Z|[+-]hh:mm)?`. The hour 24 stands for
midnight at the end of the day. -/
def parse? (text : String) : Option DateTime := do
  let (year, rest) ← year? text.toList
  let (month, rest) ← twoDigits? (← expect? '-' rest)
  let (day, rest) ← twoDigits? (← expect? '-' rest)
  let (hour, rest) ← twoDigits? (← expect? 'T' rest)
  let (minute, rest) ← twoDigits? (← expect? ':' rest)
  let (second, rest) ← second? (← expect? ':' rest)
  if month < 1 || 12 < month || day < 1 || 24 < hour || 59 < minute then none
  else if hour = 24 && (minute ≠ 0 || second.units ≠ 0) then none
  else
    let zone ← zone? rest
    if daysInMonth year month < day then none
    else
      let instant ← onTimeLine? year month day hour minute second zone
      return ⟨instant, zone⟩

/-! ## Printing -/

private def renderZone : Option Int → String
  | none => ""
  | some offset =>
    if offset = 0 then "Z"
    else
      let n := offset.natAbs
      (if offset < 0 then "-" else "+") ++
        String.ofList (Decimal.paddedDigits 2 (n / 60) ++
          ':' :: Decimal.paddedDigits 2 (n % 60))

/-- The local time in its zone. -/
def render (t : DateTime) : String :=
  let localUnits := t.instant + t.zone.getD 0 * 60 * Decimal.one
  let seconds := Int.fdiv localUnits Decimal.one
  let fraction := (Int.fmod localUnits Decimal.one).toNat
  let day := Int.fdiv seconds 86400
  let time := (Int.fmod seconds 86400).toNat
  let year := yearOfDay day
  let (month, dayOfMonth) :=
    monthAndDay year 12 1 (day - daysBeforeYear year).toNat
  let two (n : Nat) : List Char := Decimal.paddedDigits 2 n
  let places := Decimal.dropTrailingZeros
    (Decimal.paddedDigits Decimal.places fraction)
  let sign := if year < 0 then "-" else ""
  sign ++ String.ofList (Decimal.paddedDigits 4 year.natAbs ++
    '-' :: two month ++ '-' :: two dayOfMonth ++ 'T' :: two (time / 3600) ++
    ':' :: two (time / 60 % 60) ++ ':' :: two (time % 60) ++
    (if places.isEmpty then [] else '.' :: places)) ++ renderZone t.zone

/-! ## Comparison -/

/-- Fourteen hours: the greatest distance of a zone from universal time. -/
def greatestOffset : Int := 14 * 3600 * Decimal.one

/-- The same instant, with a zone in both or in none. -/
def sameInstant (a b : DateTime) : Bool :=
  a.zone.isSome == b.zone.isSome && a.instant = b.instant

/-- The order of an instant without a zone relative to one with a zone, if it
is the same in all zones. -/
private def compareLocal? (a b : Int) : Option Ordering := do
  let late := compare (← checkSigned 128 (a + greatestOffset)) b
  let early := compare (← checkSigned 128 (a - greatestOffset)) b
  if late = early then some late else none

/-- The order on the time line. If one zone is missing, it must not matter
which one it is. -/
def compare? (a b : DateTime) : Option Ordering :=
  match a.zone, b.zone with
  | some _, some _ | none, none => some (compare a.instant b.instant)
  | none, some _ => compareLocal? a.instant b.instant
  | some _, none => (compareLocal? b.instant a.instant).map Ordering.swap

end DateTime

end SparqlAlgebra
