import ChurchScript.Json.Number

/-!
# Tokens of JSON text

Control characters stand in no string, and an escaped surrogate must be the
first half of a pair that the second half follows.
-/
namespace ChurchScript.Json

inductive Token where
  | openBrace | closeBrace | openBracket | closeBracket | comma | colon
  | string (value : String)
  | number (value : Binary64)
  | true | false | null
  deriving DecidableEq, Repr

namespace Token

def punctuation? (c : Char) : Option Token :=
  if c.toNat == 0x7b then some openBrace
  else if c.toNat == 0x7d then some closeBrace
  else if c == '[' then some openBracket
  else if c == ']' then some closeBracket
  else if c == ',' then some comma
  else if c == ':' then some colon
  else none

def isSpace (c : Char) : Bool :=
  c == ' ' || c == '\t' || c == '\n' || c == '\r'

def isNumberChar (c : Char) : Bool :=
  c.isDigit || c == '-' || c == '+' || c == '.' || c == 'e' || c == 'E'

def keyword? (cs : List Char) : Option Token :=
  if cs == ['t', 'r', 'u', 'e'] then some true
  else if cs == ['f', 'a', 'l', 's', 'e'] then some false
  else if cs == ['n', 'u', 'l', 'l'] then some null
  else none

def hexDigit? (c : Char) : Option Nat :=
  if c.isDigit then some (c.toNat - 48)
  else if 'a' ≤ c && c ≤ 'f' then some (c.toNat - 87)
  else if 'A' ≤ c && c ≤ 'F' then some (c.toNat - 55)
  else none

def codeUnit? (a b c d : Char) : Option Nat := do
  return 4096 * (← hexDigit? a) + 256 * (← hexDigit? b) + 16 * (← hexDigit? c) + (← hexDigit? d)

def escaped? (c : Char) : Option Char :=
  if c == '"' || c == '\\' || c == '/' then some c
  else if c == 'b' then some (Char.ofNat 8)
  else if c == 'f' then some (Char.ofNat 12)
  else if c == 'n' then some '\n'
  else if c == 'r' then some '\r'
  else if c == 't' then some '\t'
  else none

/-- The character that two halves of a surrogate pair stand for. -/
def pair? (high low : Nat) : Option Char :=
  if 0xd800 ≤ high && high < 0xdc00 && 0xdc00 ≤ low && low < 0xe000 then
    some (Char.ofNat (0x10000 + 1024 * (high - 0xd800) + (low - 0xdc00)))
  else none

/-- The character that a code unit stands for by itself. -/
def single? (unit : Nat) : Option Char :=
  if 0xd800 ≤ unit && unit < 0xe000 then none else some (Char.ofNat unit)

/-- Reads a string to its closing quote, its characters so far in reverse, and
what follows it. -/
def stringBody (done : List Char) : List Char → Option (String × List Char)
  | '"' :: rest => some (String.ofList done.reverse, rest)
  | '\\' :: 'u' :: a :: b :: c :: d :: rest =>
    match codeUnit? a b c d with
    | none => none
    | some unit =>
      match single? unit with
      | some char => stringBody (char :: done) rest
      | none =>
        match rest with
        | '\\' :: 'u' :: a :: b :: c :: d :: rest =>
          match (codeUnit? a b c d).bind (pair? unit) with
          | some char => stringBody (char :: done) rest
          | none => none
        | _ => none
  | '\\' :: c :: rest =>
    match escaped? c with
    | some char => stringBody (char :: done) rest
    | none => none
  | c :: rest => if c.toNat < 0x20 || c == '\\' then none else stringBody (c :: done) rest
  | [] => none

theorem length_lt_of_stringBody {done cs rest : List Char} {value : String}
    (h : stringBody done cs = some (value, rest)) : rest.length < cs.length := by
  fun_induction stringBody done cs <;> simp_all <;> omega

/-- The tokens of a text behind those in `done`, which are in reverse. -/
def ofCharsFrom (done : List Token) (cs : List Char) : Option (List Token) :=
  match cs with
  | [] => some done.reverse
  | c :: rest =>
    if isSpace c then ofCharsFrom done rest
    else if c == '"' then
      match h : stringBody [] rest with
      | some (value, rest) =>
        have := length_lt_of_stringBody h
        ofCharsFrom (string value :: done) rest
      | none => none
    else if isNumberChar c then
      match Number.read? (c :: rest.takeWhile isNumberChar) with
      | some value =>
        have := (List.dropWhile_suffix isNumberChar (l := rest)).length_le
        ofCharsFrom (number value :: done) (rest.dropWhile isNumberChar)
      | none => none
    else
      match punctuation? c with
      | some token => ofCharsFrom (token :: done) rest
      | none =>
        match keyword? (c :: rest.takeWhile Char.isAlpha) with
        | some token =>
          have := (List.dropWhile_suffix Char.isAlpha (l := rest)).length_le
          ofCharsFrom (token :: done) (rest.dropWhile Char.isAlpha)
        | none => none
termination_by cs.length
decreasing_by all_goals simp_all <;> omega

end Token
end ChurchScript.Json
