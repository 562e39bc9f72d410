/-!
# Dates and times

Calendar dates, times of day to the microsecond and offsets from universal
time, with the text under which each is shown.
-/

namespace ParserKit.Toml

structure Date where
  year : Nat
  month : Nat
  day : Nat
  deriving DecidableEq, Repr

structure Time where
  hour : Nat
  minute : Nat
  second : Nat
  microsecond : Nat
  deriving DecidableEq, Repr

/-- The minutes by which a local time is ahead of universal time. -/
structure Offset where
  minutes : Int
  deriving DecidableEq, Repr

def isLeap (year : Nat) : Bool := year % 4 = 0 && (year % 100 != 0 || year % 400 = 0)

def daysInMonth (year month : Nat) : Nat :=
  if month = 2 then (if isLeap year then 29 else 28)
  else if month = 4 ∨ month = 6 ∨ month = 9 ∨ month = 11 then 30
  else 31

/-- Whether the calendar has the date; years count from one. -/
def Date.exists (d : Date) : Bool :=
  1 ≤ d.year && 1 ≤ d.month && d.month ≤ 12 && 1 ≤ d.day && d.day ≤ daysInMonth d.year d.month

def commaList (ns : List Nat) : String := ", ".intercalate (ns.map toString)

/-- The numbers of a date. -/
def Date.fields (d : Date) : List Nat := [d.year, d.month, d.day]

/-- The numbers of a time; seconds and microseconds are left out from the right
while they are zero. -/
def Time.fields (t : Time) : List Nat :=
  if t.microsecond ≠ 0 then [t.hour, t.minute, t.second, t.microsecond]
  else if t.second ≠ 0 then [t.hour, t.minute, t.second]
  else [t.hour, t.minute]

def Date.text (d : Date) : String := "datetime.date(" ++ commaList d.fields ++ ")"

def Time.text (t : Time) : String := "datetime.time(" ++ commaList t.fields ++ ")"

/-- An offset is shown as a whole number of days, rounded down, and the seconds
beyond them. -/
def Offset.text (o : Offset) : String :=
  if o.minutes = 0 then
    "datetime.timezone.utc"
  else
    let span :=
      if o.minutes < 0 then "days=-1, seconds=" ++ toString (86400 + 60 * o.minutes)
      else "seconds=" ++ toString (60 * o.minutes)
    "datetime.timezone(datetime.timedelta(" ++ span ++ "))"

def dateTimeText (d : Date) (t : Time) (offset : Option Offset) : String :=
  let zone := match offset with
    | some o => ", tzinfo=" ++ o.text
    | none => ""
  "datetime.datetime(" ++ commaList (d.fields ++ t.fields) ++ zone ++ ")"

end ParserKit.Toml
