import FsCore.AscReader
import FsCore.Captures
import FsCore.Replace
import FsCore.WholeDoubles

namespace FsCore

structure ParsedDateTime where
  year : Int
  month : Int
  day : Int
  hour : Int
  minute : Int
  second : Int
  fractionalSeconds : Binary64
deriving DecidableEq

/-- The `std::tm` that `mktime` gets; its `tm_isdst` is always -1. -/
structure Tm where
  tmYear : Int
  tmMon : Int
  tmMday : Int
  tmHour : Int
  tmMin : Int
  tmSec : Int
deriving DecidableEq

def iequals (a b : Text) : Bool := toLowerAscii a = toLowerAscii b

/-- Every round of the loop leaves less text behind the position. -/
def replaceAllCopy (text old new : Text) : Text :=
  if old = [] then text else replaceLoop old new (text.length + 1) text 0

/-- The names that are replaced, in this order, by the bytes of their source text. -/
def monthNames : List (Text × Text) :=
  [("Jan".toList, "01".toList), ("Feb".toList, "02".toList), ("Mar".toList, "03".toList),
    ("Apr".toList, "04".toList), ("May".toList, "05".toList), ("Jun".toList, "06".toList),
    ("Jul".toList, "07".toList), ("Aug".toList, "08".toList), ("Sep".toList, "09".toList),
    ("Oct".toList, "10".toList), ("Nov".toList, "11".toList), ("Dec".toList, "12".toList),
    ("M\xC3\xA4r".toList, "03".toList), ("Mai".toList, "05".toList), ("Okt".toList, "10".toList),
    ("Dez".toList, "12".toList)]

def replaceNames (names : List (Text × Text)) (text : Text) : Text :=
  names.foldl (fun text name => replaceAllCopy text name.1 name.2) text

def normalizeDate (datetimeString : Text) : Text := replaceNames monthNames datetimeString

/-- One round of the loop: the value and the scale. -/
def fractionalStep (acc : Binary64 × Binary64) (c : Char) : Binary64 × Binary64 :=
  ((acc.1.mul (Binary64.ofInt 10)).add (Binary64.ofInt ((c.toNat : Int) - '0'.toNat)),
    acc.2.mul (Binary64.ofInt 10))

def fractionalToSeconds (frac : Text) : Binary64 :=
  if frac = [] then Binary64.zero
  else
    let acc := frac.foldl fractionalStep (Binary64.zero, Binary64.ofInt 1)
    acc.1.div acc.2

section Patterns

/-- `\d{least,most}` -/
def digits (least most : Nat) : Piece Char := ⟨Char.isDigit, least, some most⟩

/-- `\s+` -/
def blanks : Piece Char := ⟨isSpace, 1, none⟩

/-- `[…]` -/
def oneOf (cs : String) : Piece Char := ⟨fun c => cs.toList.contains c, 1, some 1⟩

/-- The month, the day and the time, as all patterns begin. -/
def dateFront : List (Piece Char) :=
  [digits 1 2, blanks, digits 1 2, blanks, digits 1 2, oneOf ":", digits 2 2, oneOf ":", digits 2 2]

def dateFraction : List (Piece Char) := [oneOf ".", digits 1 6]

def dateHalf : List (Piece Char) := [blanks, oneOf "AaPp", oneOf "Mm"]

def dateYear : List (Piece Char) := [blanks, digits 4 4]

def pattern12hWithFrac : List (Piece Char) := dateFront ++ (dateFraction ++ (dateHalf ++ dateYear))

def pattern12hNoFrac : List (Piece Char) := dateFront ++ (dateHalf ++ dateYear)

def pattern24hWithFrac : List (Piece Char) := dateFront ++ (dateFraction ++ dateYear)

def pattern24hNoFrac : List (Piece Char) := dateFront ++ dateYear

end Patterns

/-- What the groups of a match give; `hourOf` is the pattern's reading of the hour. -/
def parsedDateTime (hourOf : Int → Int) (month day hour minute second year : Text)
    (fraction : Binary64) : Parse ParsedDateTime := do
  let hour ← convert "stoi" (stoi 10 hour)
  let month ← convert "stoi" (stoi 10 month)
  let day ← convert "stoi" (stoi 10 day)
  let minute ← convert "stoi" (stoi 10 minute)
  let second ← convert "stoi" (stoi 10 second)
  let year ← convert "stoi" (stoi 10 year)
  pure ⟨year, month, day, hourOf hour, minute, second, fraction⟩

def hour12h (ampm : Text) (hour : Int) : Int :=
  if iequals ampm "PM".toList ∧ hour < 12 then hour + 12
  else if iequals ampm "AM".toList ∧ hour = 12 then 0
  else hour

def parsePattern12hWithFrac (s : Text) : Parse (Option ParsedDateTime) :=
  match matchPieces pattern12hWithFrac s with
  | some [month, _, day, _, hour, _, minute, _, second, _, frac, _, half, m, _, year] =>
    some <$> parsedDateTime (hour12h (half ++ m)) month day hour minute second year
      (fractionalToSeconds frac)
  | _ => pure none

def parsePattern12hNoFrac (s : Text) : Parse (Option ParsedDateTime) :=
  match matchPieces pattern12hNoFrac s with
  | some [month, _, day, _, hour, _, minute, _, second, _, half, m, _, year] =>
    some <$> parsedDateTime (hour12h (half ++ m)) month day hour minute second year Binary64.zero
  | _ => pure none

def parsePattern24hWithFrac (s : Text) : Parse (Option ParsedDateTime) :=
  match matchPieces pattern24hWithFrac s with
  | some [month, _, day, _, hour, _, minute, _, second, _, frac, _, year] =>
    some <$> parsedDateTime id month day hour minute second year (fractionalToSeconds frac)
  | _ => pure none

def parsePattern24hNoFrac (s : Text) : Parse (Option ParsedDateTime) :=
  match matchPieces pattern24hNoFrac s with
  | some [month, _, day, _, hour, _, minute, _, second, _, year] =>
    some <$> parsedDateTime id month day hour minute second year Binary64.zero
  | _ => pure none

/-- `a || b`: the second pattern is tried only when the first does not match. -/
def orElsePattern (a b : Text → Parse (Option ParsedDateTime)) (s : Text) :
    Parse (Option ParsedDateTime) := do
  match ← a s with
  | some parsed => pure (some parsed)
  | none => b s

def parsePatterns : Text → Parse (Option ParsedDateTime) :=
  orElsePattern parsePattern12hWithFrac (orElsePattern parsePattern12hNoFrac
    (orElsePattern parsePattern24hWithFrac parsePattern24hNoFrac))

def ParsedDateTime.tm (dt : ParsedDateTime) : Tm where
  tmYear := dt.year - 1900
  tmMon := dt.month - 1
  tmMday := dt.day
  tmHour := dt.hour
  tmMin := dt.minute
  tmSec := dt.second

/-- `mktime` is the platform's: it knows the time zone. -/
def parsedDatetimeToTimestamp (mktime : Tm → Int) (dt : ParsedDateTime) : Parse Binary64 :=
  let t := mktime dt.tm
  if t = -1 then throwText "Incompatible datetime string".toList
  else pure ((Binary64.ofInt t).add dt.fractionalSeconds)

def datetimeToTimestamp (mktime : Tm → Int) (datetimeString : Text) : Parse Binary64 := do
  match ← parsePatterns (normalizeDate datetimeString) with
  | some parsed => parsedDatetimeToTimestamp mktime parsed
  | none => throwText ("Incompatible datetime string ".toList ++ datetimeString)

/-- A trigger line whose date cannot be read sets the start time to zero. -/
def platformReader (base : Base) (relativeTimestamp : Bool) (mktime : Tm → Int) : AscReader :=
  ⟨base, relativeTimestamp, fun s => (datetimeToTimestamp mktime s).toOption⟩

end FsCore
