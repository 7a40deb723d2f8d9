import TreeEvolution.Document.Datum

/-!
# Scalars of documents

A document writes truth values, numbers and moments of time as words without blanks, except that
a blank may separate the date and the time of a moment.  Numerals may have single underscores
between their digits, integers may be written in four bases, and the whole part of a decimal number
has no leading zeros.

No value of interest is a moment of time, so a moment is kept as the text it is written with, once
it is known to be one.
-/

namespace TreeEvolution.Document

open Text

/-! ### Numbers -/

/-- The digits of a numeral without the underscores between them. -/
def groupedDigits (isDigit : Char → Bool) : List Char → Option (List Char)
  | [] => none
  | [c] => if isDigit c then some [c] else none
  | c :: '_' :: rest =>
    if isDigit c then (groupedDigits isDigit rest).map (c :: ·) else none
  | c :: rest => if isDigit c then (groupedDigits isDigit rest).map (c :: ·) else none

/-- The decimal digits of a number without leading zeros. -/
def wholeDigits (text : List Char) : Option (List Char) := do
  let digits ← groupedDigits Char.isDigit text
  if digits.head? = some '0' && digits.length ≠ 1 then none else some digits

/-- A number that must be an integer of 64 bits. -/
def wordInteger (n : Int) : Option Datum :=
  if fitsWord n then some (.integer n) else none

/-- Whether a character is a digit in base sixteen. -/
def isHexDigit (c : Char) : Bool :=
  c.isDigit || ('a' ≤ c && c ≤ 'f') || ('A' ≤ c && c ≤ 'F')

/-- An integer, in one of four bases. -/
def integer? : List Char → Option Datum
  | '0' :: 'x' :: text => do
    wordInteger (ofDigits 16 (← groupedDigits isHexDigit text))
  | '0' :: 'o' :: text => do
    wordInteger (ofDigits 8 (← groupedDigits (fun c => '0' ≤ c && c ≤ '7') text))
  | '0' :: 'b' :: text => do
    wordInteger (ofDigits 2 (← groupedDigits (fun c => c = '0' || c = '1') text))
  | text => do
    let (negative, digits) := takeSign text
    wordInteger (withSign negative (ofDigits 10 (← wholeDigits digits)))

/-- The exponent at the end of a number, if there is one. -/
def exponent? : List Char → Option Int
  | [] => some 0
  | _ :: text => do
    let (negative, digits) := takeSign text
    let digits ← groupedDigits Char.isDigit digits
    some (withSign negative (ofDigits 10 digits))

/-- A decimal number with a point or an exponent.  It must not be beyond the finite numbers. -/
def decimal? (text : List Char) : Option Datum := do
  let (negative, magnitude) := takeSign text
  let (digits, mark) := magnitude.span fun c => !isExponentMark c
  let (whole, point) := digits.span (· ≠ '.')
  if point.isEmpty && mark.isEmpty then none
  else
    let whole ← wholeDigits whole
    let fraction ← match point with
      | [] => some []
      | _ :: fraction => groupedDigits Char.isDigit fraction
    let exponent ← exponent? mark
    let x := floatOfParts negative whole fraction exponent
    if x.isInf then none else some (.float x)

/-- A floating-point number. -/
def float? (text : List Char) : Option Datum :=
  let (negative, magnitude) := takeSign text
  if magnitude = ['i', 'n', 'f'] then some (.float (infinity negative))
  else if magnitude = ['n', 'a', 'n'] then some (.float notANumber)
  else decimal? text

/-! ### Moments of time -/

/-- The number with exactly the given number of digits. -/
def fixedDigits (count : Nat) (text : List Char) : Option Nat :=
  if text.length = count then natural? text else none

/-- The number of days of a month. -/
def daysIn (year month : Nat) : Nat :=
  if month = 2 then
    if year % 4 = 0 && (year % 100 ≠ 0 || year % 400 = 0) then 29 else 28
  else if month = 4 || month = 6 || month = 9 || month = 11 then 30
  else 31

/-- Whether a text is a date: year, month and day between dashes. -/
def isDate (text : List Char) : Bool :=
  let (year, rest) := text.span (· ≠ '-')
  let (month, rest) := (rest.drop 1).span (· ≠ '-')
  match fixedDigits 4 year, fixedDigits 2 month, fixedDigits 2 (rest.drop 1) with
  | some year, some month, some day =>
    1 ≤ month && month ≤ 12 && 1 ≤ day && day ≤ daysIn year month
  | _, _, _ => false

/-- Whether a text is a second of a minute, perhaps with a fraction.  A minute may have a leap
second. -/
def isSecond (text : List Char) : Bool :=
  let (second, fraction) := text.span (· ≠ '.')
  match fixedDigits 2 second with
  | some second =>
    second ≤ 60 && (fraction.isEmpty || (natural? (fraction.drop 1)).isSome)
  | none => false

/-- Whether a text is a time of the day: hour, minute and perhaps second, with colons between
them. -/
def isTime (text : List Char) : Bool :=
  let (hour, rest) := text.span (· ≠ ':')
  let (minute, rest) := (rest.drop 1).span (· ≠ ':')
  match fixedDigits 2 hour, fixedDigits 2 minute with
  | some hour, some minute =>
    hour < 24 && minute < 60 && (rest.isEmpty || isSecond (rest.drop 1))
  | _, _ => false

/-- Whether a text is the distance of a time from universal time. -/
def isOffset : List Char → Bool
  | [] => true
  | ['Z'] | ['z'] => true
  | sign :: text =>
    let (hour, rest) := text.span (· ≠ ':')
    match fixedDigits 2 hour, fixedDigits 2 (rest.drop 1) with
    | some hour, some minute => (sign = '+' || sign = '-') && hour < 24 && minute < 60
    | _, _ => false

/-- Whether a text is a time of the day, perhaps with its distance from universal time. -/
def isTimeWithOffset (text : List Char) : Bool :=
  let (time, offset) := text.span fun c => c.isDigit || c = ':' || c = '.'
  isTime time && isOffset offset

/-- Whether a text is a moment of time: a date, a time of the day, or both. -/
def isMoment (text : List Char) : Bool :=
  let (date, rest) := text.span fun c => c.isDigit || c = '-'
  isTime text || match rest with
    | [] => isDate date
    | separator :: time =>
      (separator = 'T' || separator = 't' || separator = ' ') && isDate date &&
        isTimeWithOffset time

/-! ### Words -/

/-- Whether a character may stand in a word. -/
def isWordChar (c : Char) : Bool :=
  c.isAlphanum || c = '_' || c = '-' || c = '+' || c = '.' || c = ':'

/-- The datum that a word stands for. -/
def scalar? (word : List Char) : Option Datum :=
  if word = ['t', 'r', 'u', 'e'] then some (.boolean true)
  else if word = ['f', 'a', 'l', 's', 'e'] then some (.boolean false)
  else if isMoment word then some (.text (String.ofList word))
  else (integer? word).or (float? word)

/-- Read a word, together with the time after a date. -/
def readScalar (text : List Char) : Option (Datum × List Char) :=
  let (word, rest) := text.span isWordChar
  let longer : Option (Datum × List Char) := match rest with
    | ' ' :: more =>
      let (time, rest) := more.span isWordChar
      let moment := word ++ ' ' :: time
      if isDate word && isMoment moment then some (.text (String.ofList moment), rest) else none
    | _ => none
  longer.or ((scalar? word).map (·, rest))

end TreeEvolution.Document
