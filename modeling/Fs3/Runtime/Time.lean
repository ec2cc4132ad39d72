import Mathlib.Algebra.Group.Int.Defs
import Mathlib.Algebra.GroupWithZero.Nat
import Mathlib.Order.Basic

/-! # Instants

An instant is its distance from the Unix epoch in nanoseconds. Go leaves `UnixNano` undefined
outside the range of an `int64`, so the only instant outside that range which is kept apart is the
zero value, which the code uses as "no time" and compares with real ones. -/

namespace Fs3

def wrap64 (n : Int) : Int := n.bmod (2 ^ 64)

/-- What an `int` can hold. -/
def IsInt64 (n : Int) : Prop := -2 ^ 63 ≤ n ∧ n < 2 ^ 63

theorem wrap64_spec (n : Int) :
    ∃ turns, wrap64 n = n - turns * 2 ^ 64 ∧ -2 ^ 63 ≤ wrap64 n ∧ wrap64 n < 2 ^ 63 := by
  unfold wrap64
  rw [Int.bmod_def]
  split
  next => exact ⟨n / 2 ^ 64, by omega, by omega, by omega⟩
  next => exact ⟨n / 2 ^ 64 + 1, by omega, by omega, by omega⟩

theorem wrap64_of_fits {n : Int} (hlow : -2 ^ 63 ≤ n) (hhigh : n < 2 ^ 63) : wrap64 n = n := by
  obtain ⟨turns, hturns, _, _⟩ := wrap64_spec n
  omega

/-- `time.Time`, in nanoseconds since the Unix epoch. -/
abbrev Time := Int

namespace Time

/-- The zero value of `time.Time`: midnight of 1 January of the year 1. -/
def zero : Time := -62135596800000000000

/-- What the zero value's `UnixNano` wraps to. -/
def zeroUnixNano : Int := -6795364578871345152

/-- `Time.UnixNano`. -/
def unixNano (time : Time) : Int := if time = zero then zeroUnixNano else time

/-- `time.Unix(0, nano)`. -/
def ofUnixNano (nano : Int) : Time := nano

/-- `Time.IsZero`. -/
def isZero (time : Time) : Bool := time == zero

theorem isZero_iff {time : Time} : time.isZero = true ↔ time = zero := beq_iff_eq

/-- `time.Hour`, in nanoseconds. -/
def hour : Int := 3600000000000

def day : Int := 24 * hour

/-- `Time.Truncate` to days. -/
def truncateDay (time : Int) : Int := time - time % day

theorem unixNano_of_pos {time : Time} (hpos : 0 < time.unixNano) : time.unixNano = time := by
  unfold unixNano at *
  split at hpos
  · exact absurd hpos (by decide)
  · rw [if_neg ‹_›]

theorem unixNano_eq_zero {time : Time} : time.unixNano = 0 ↔ time = (0 : Int) := by
  unfold unixNano
  split
  next hzero =>
    subst time
    constructor <;> (intro h; exact absurd h (by decide))
  next => exact Iff.rfl

theorem unixNano_ne_zero_time (time : Time) : time.unixNano ≠ zero := by
  unfold unixNano
  split
  next => decide
  next hne => exact hne

end Time

end Fs3

/-! ## Numbers in texts

`strconv.Atoi` returns a number together with an error. Where the caller ignores
the error, the number is what it goes on with.
-/

namespace Fs3

/-- `strconv.NumError`. -/
inductive NumError where
  | errSyntax
  | errRange
  deriving DecidableEq

def digits (runes : List Char) : Nat :=
  runes.foldl (fun n rune => 10 * n + (rune.toNat - '0'.toNat)) 0

def splitSign : List Char → Bool × List Char
  | '-' :: runes => (true, runes)
  | '+' :: runes => (false, runes)
  | runes => (false, runes)

/-- `strconv.Atoi`: a number that does not fit is replaced by the closest one that does. -/
def atoi (text : String) : Int × Option NumError :=
  let (negative, runes) := splitSign text.toList
  if runes = [] ∨ ¬ runes.all Char.isDigit then (0, some .errSyntax)
  else
    let n : Int := if negative then -digits runes else digits runes
    if n < -2 ^ 63 then (-2 ^ 63, some .errRange)
    else if 2 ^ 63 ≤ n then (2 ^ 63 - 1, some .errRange)
    else (n, none)

end Fs3

/-! ## Instants as texts

`time.Parse` and `Time.Format` for the two layouts in which retention dates are
written: RFC 3339, which drops what is below a second, and ISO 8601 with
milliseconds. Both read back through RFC 3339, whose year has four digits.
-/

namespace Fs3

namespace Civil

/-- Year, month and day of a number of days since the Unix epoch, with years
that start in March while it counts. -/
def ofDays (days : Int) : Int × Int × Int :=
  let shifted := days + 719468
  let era := shifted / 146097
  let doe := shifted % 146097
  let yoe := (doe - doe / 1460 + doe / 36524 - doe / 146096) / 365
  let doy := doe - (365 * yoe + yoe / 4 - yoe / 100)
  let mp := (5 * doy + 2) / 153
  let month := if mp < 10 then mp + 3 else mp - 9
  (yoe + era * 400 + if month ≤ 2 then 1 else 0, month, doy - (153 * mp + 2) / 5 + 1)

def toDays (year month day : Int) : Int :=
  let year := if month ≤ 2 then year - 1 else year
  let era := year / 400
  let yoe := year % 400
  let doy := (153 * (if 2 < month then month - 3 else month + 9) + 2) / 5 + day - 1
  era * 146097 + (yoe * 365 + yoe / 4 - yoe / 100 + doy) - 719468

def isLeap (year : Int) : Bool := year % 4 == 0 && (year % 100 != 0 || year % 400 == 0)

/-- `daysIn`. -/
def daysIn (month year : Int) : Int :=
  if month = 2 then if isLeap year then 29 else 28
  else if month = 4 ∨ month = 6 ∨ month = 9 ∨ month = 11 then 30
  else 31

end Civil

namespace Time

def second : Int := 1000000000

def padLeft (width : Nat) (n : Int) : List Char :=
  let runes := (toString n.natAbs).toList
  (if n < 0 then ['-'] else []) ++ List.replicate (width - runes.length) '0' ++ runes

def formatSeconds (time : Int) : List Char :=
  let seconds := time / second
  let (year, month, day) := Civil.ofDays (seconds / 86400)
  let clock := seconds % 86400
  padLeft 4 year ++ '-' :: padLeft 2 month ++ '-' :: padLeft 2 day ++ 'T' ::
    padLeft 2 (clock / 3600) ++ ':' :: padLeft 2 (clock / 60 % 60) ++ ':' ::
    padLeft 2 (clock % 60)

/-- `Time.UTC().Format(time.RFC3339)`. -/
def formatRFC3339 (time : Time) : String := String.ofList (formatSeconds time ++ ['Z'])

/-- `Time.UTC().Format(iso8601TimeFormat)`. -/
def formatISO8601 (time : Int) : String :=
  String.ofList (formatSeconds time ++ '.' :: padLeft 3 (time % second / 1000000) ++ ['Z'])

def takeDigits (count : Nat) (runes : List Char) : Option (Int × List Char) :=
  if (runes.take count).length = count ∧ (runes.take count).all Char.isDigit = true then
    some (digits (runes.take count), runes.drop count)
  else none

def takeRune (rune : Char) : List Char → Option (List Char)
  | [] => none
  | first :: runes => if first = rune then some runes else none

def takeHour (runes : List Char) : Option (Int × List Char) :=
  (takeDigits 2 runes).or (takeDigits 1 runes)

def takeFraction (runes : List Char) : Int × List Char :=
  match runes with
  | point :: rest =>
    let fraction := rest.takeWhile Char.isDigit
    if (point = '.' ∨ point = ',') ∧ fraction ≠ [] then
      (digits ((fraction ++ List.replicate 9 '0').take 9), rest.dropWhile Char.isDigit)
    else (0, runes)
  | [] => (0, [])

def takeZone : List Char → Option Int
  | ['Z'] => some 0
  | sign :: runes =>
    match takeDigits 2 runes with
    | none => none
    | some (hour, runes) =>
      match (takeRune ':' runes).bind (takeDigits 2) with
      | some (minute, []) =>
        if sign = '+' then some (hour * 3600 + minute * 60)
        else if sign = '-' then some (-(hour * 3600 + minute * 60))
        else none
      | _ => none
  | [] => none

/-- `time.Parse(time.RFC3339, _)`. -/
def parseRFC3339 (text : String) : Option Time := do
  let (year, runes) ← takeDigits 4 text.toList
  let (month, runes) ← (takeRune '-' runes).bind (takeDigits 2)
  let (day, runes) ← (takeRune '-' runes).bind (takeDigits 2)
  let (hour, runes) ← (takeRune 'T' runes).bind takeHour
  let (minute, runes) ← (takeRune ':' runes).bind (takeDigits 2)
  let (seconds, runes) ← (takeRune ':' runes).bind (takeDigits 2)
  let (nanos, runes) := takeFraction runes
  let zone ← takeZone runes
  if 1 ≤ month ∧ month ≤ 12 ∧ 1 ≤ day ∧ day ≤ Civil.daysIn month year ∧ hour < 24 ∧
      minute < 60 ∧ seconds < 60 then
    let clock := hour * 3600 + minute * 60 + seconds - zone
    some ((Civil.toDays year month day * 86400 + clock) * second + nanos)
  else none

end Time

end Fs3
