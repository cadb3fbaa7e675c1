import MarketVerdict.Decimal.Layout
import MarketVerdict.Text.Number
import MarketVerdict.Time.Calendar
import MarketVerdict.Time.Instant

/-!
# Timestamps

`Instant.stamp` writes a date and a time of day in universal time, with as many groups of three
fraction digits as the part of the second needs. `Stamp.read?` accepts such texts and freer ones:
blanks between the parts, fields with fewer digits, an offset from universal time.
-/

namespace MarketVerdict

open Decimal Text

def padded (width n : Nat) : List Char :=
  let cs := numerals n
  zeros (width - cs.length) ++ cs

namespace Instant

def fractionText (nano : Nat) : List Char :=
  if nano = 0 then []
  else if nano % 1000000 = 0 then '.' :: padded 3 (nano / 1000000)
  else if nano % 1000 = 0 then '.' :: padded 6 (nano / 1000)
  else '.' :: padded 9 nano

/-- Years from 0 to 9999 have four digits, all others a sign and at least four. -/
def yearText (y : Int) : List Char :=
  if 0 ≤ y ∧ y ≤ 9999 then padded 4 y.toNat
  else (if y < 0 then '-' else '+') :: padded 4 y.natAbs

/-- The date in universal time. -/
def date (t : Instant) : Date := Date.ofDays (t.second / 86400)

def stamp (t : Instant) : String :=
  let date := t.date
  let clock := (t.second % 86400).toNat
  let second := clock % 60 + t.nano / nanosPerSecond
  String.ofList <|
    yearText date.year ++ '-' :: padded 2 date.month ++ '-' :: padded 2 date.day ++
      'T' :: padded 2 (clock / 3600) ++ ':' :: padded 2 (clock / 60 % 60) ++
      ':' :: padded 2 second ++ fractionText (t.nano % nanosPerSecond) ++ ['Z']

end Instant

namespace Stamp

/-- A part of a timestamp and the text behind it. -/
abbrev Part (β : Type) := List Char → Option (β × List Char)

/-- A number of one to `width` digits after blanks. -/
def number (width : Nat) : Part Nat := fun cs =>
  let cs := trimStart cs
  let digits := (cs.take width).takeWhile isDigit
  if digits.isEmpty then none else some (digitsValue 0 digits, cs.drop digits.length)

/-- A year has up to four digits, or a sign and any number of them. -/
def year : Part Int := fun cs =>
  match trimStart cs with
  | '-' :: rest =>
    let digits := rest.takeWhile isDigit
    if digits.isEmpty then none else some (-(digitsValue 0 digits : Int), rest.dropWhile isDigit)
  | '+' :: rest =>
    let digits := rest.takeWhile isDigit
    if digits.isEmpty then none else some ((digitsValue 0 digits : Int), rest.dropWhile isDigit)
  | rest => (number 4 rest).map fun (y, rest) => ((y : Int), rest)

/-- A mark between two numbers, after blanks. -/
def mark (c : Char) : Part Unit := fun cs =>
  match trimStart cs with
  | d :: rest => if d = c then some ((), rest) else none
  | [] => none

/-- A number between two bounds. -/
def field (lo hi : Nat) : Part Nat := fun cs => do
  let (n, rest) ← number 2 cs
  if lo ≤ n ∧ n ≤ hi then some (n, rest) else none

def date : Part Date := fun cs => do
  let (y, cs) ← year cs
  let (_, cs) ← mark '-' cs
  let (m, cs) ← field 1 12 cs
  let (_, cs) ← mark '-' cs
  let (d, cs) ← field 1 31 cs
  let date : Date := ⟨y, m, d⟩
  if date.isValid then some (date, cs) else none

/-- Up to nine digits behind a point count as nanoseconds; further digits are dropped. -/
def fraction : Part Nat := fun cs =>
  match cs with
  | '.' :: rest =>
    let digits := (rest.take 9).takeWhile isDigit
    if digits.isEmpty then none
    else some (digitsValue 0 digits * Nat.pow 10 (9 - digits.length), rest.dropWhile isDigit)
  | cs => some (0, cs)

/-- The second and the nanosecond of a day. Second sixty is a leap second. -/
def clock : Part (Nat × Nat) := fun cs => do
  let (h, cs) ← field 0 23 cs
  let (_, cs) ← mark ':' cs
  let (m, cs) ← field 0 59 cs
  let (_, cs) ← mark ':' cs
  let (s, cs) ← field 0 60 cs
  let (n, cs) ← fraction cs
  let minutes := (h * 60 + m) * 60
  if s = 60 then some ((minutes + 59, n + Instant.nanosPerSecond), cs)
  else some ((minutes + s, n), cs)

/-- A sign, two digits of hours and two of minutes, with colons or blanks between them. -/
def signedOffset (negative : Bool) : Part Int
  | h₁ :: h₂ :: cs => do
    let h₁ ← digitValue? h₁
    let h₂ ← digitValue? h₂
    match cs.dropWhile fun c => c = ':' || isBlank c with
    | m₁ :: m₂ :: rest => do
      let m₁ ← digitValue? m₁
      let m₂ ← digitValue? m₂
      let hours := h₁ * 10 + h₂
      if m₁ < 6 ∧ hours < 24 then
        let seconds : Int := (hours * 60 + m₁ * 10 + m₂) * 60
        some (if negative then -seconds else seconds, rest)
      else none
    | _ => none
  | _ => none

/-- Seconds to the east of universal time. -/
def offset : Part Int := fun cs =>
  let zone := trimStart cs
  if lowerLetters (String.ofList (zone.take 3)) = "utc" then some (0, zone.drop 3)
  else
    match zone with
    | 'Z' :: rest => some (0, rest)
    | 'z' :: rest => some (0, rest)
    | '+' :: rest => signedOffset false rest
    | '-' :: rest => signedOffset true rest
    | '−' :: rest => signedOffset true rest
    | _ => none

def separator : Part Unit
  | 'T' :: rest => some ((), rest)
  | 't' :: rest => some ((), rest)
  | ' ' :: rest => some ((), rest)
  | _ => none

/-- The date that is written and the date in universal time have both to be dates of the calendar. -/
def read? (s : String) : Option Instant := do
  let (d, cs) ← date s.toList
  let (_, cs) ← separator cs
  let ((second, nano), cs) ← clock cs
  let (east, cs) ← offset cs
  let t : Instant := ⟨d.toDays * 86400 + second - east, nano⟩
  if (trimStart cs).isEmpty ∧ Date.yearRange t.date.year then some t else none

end Stamp

end MarketVerdict
