import MarketVerdict.Json.Basic
import MarketVerdict.Decimal.Layout

/-!
# Writing JSON

Values are written without blanks. Strings escape the quote, the backslash and the control
characters; doubles have the fewest digits that read back.
-/

namespace MarketVerdict.Json

open Decimal

def hexDigit (n : Nat) : Char := if n < 10 then Char.ofNat (48 + n) else Char.ofNat (87 + n)

def escape (c : Char) : List Char :=
  if c = '"' then ['\\', '"']
  else if c = '\\' then ['\\', '\\']
  else if c = '\n' then ['\\', 'n']
  else if c = '\r' then ['\\', 'r']
  else if c = '\t' then ['\\', 't']
  else if c = '\x08' then ['\\', 'b']
  else if c = '\x0c' then ['\\', 'f']
  else if c.toNat < 0x20 then ['\\', 'u', '0', '0', hexDigit (c.toNat / 16), hexDigit (c.toNat % 16)]
  else [c]

def quoted (s : String) : String :=
  "\"" ++ String.ofList (s.toList.flatMap escape) ++ "\""

def Number.render : Number → String
  | natural n => natText n
  | negative n => "-" ++ natText n
  | real x => marked x

mutual

def render : Json → String
  | null => "null"
  | bool b => if b then "true" else "false"
  | number n => n.render
  | text s => quoted s
  | array items => "[" ++ renderItems items ++ "]"
  | object fields => "\x7b" ++ renderFields fields ++ "\x7d"
  | unreadable => "null"
  | broken => "null"

def renderItems : List Json → String
  | [] => ""
  | [j] => render j
  | j :: rest => render j ++ "," ++ renderItems rest

def renderFields : List (Option String × Json) → String
  | [] => ""
  | [(name, j)] => quoted (name.getD "") ++ ":" ++ render j
  | (name, j) :: rest => quoted (name.getD "") ++ ":" ++ render j ++ "," ++ renderFields rest

end

end MarketVerdict.Json
