import CryoNero.Core.Wallet
import CryoNero.Words.Decimal
import CryoNero.Words.Signed

/-!
# JSON values and their text

A value is written without blanks, and its text is read one character at a time. A string is written
between quotes, with escapes for what may not stand in it; reading it back replaces the escapes by the bytes
they stand for. Bytes from 0x80 on are no control characters.

Numbers with a fraction or an exponent are read and written by the library, which is a parameter here.
-/

namespace CryoNero

open Seria Store Words

namespace Common

/-- `JsonValue` -/
inductive JsonValue (ρ : Type)
  | nil
  | bool (value : Bool)
  | signedInteger (value : Int64)
  | unsignedInteger (value : UInt64)
  | double (value : ρ)
  | string (value : Bytes)
  | array (value : List (JsonValue ρ))
  /-- The members are in the order of their names. -/
  | object (value : List (Bytes × JsonValue ρ))

/-- How the library reads and writes numbers that are no integers. -/
structure RealText where
  Value : Type
  ofText : Bytes → Value
  toText : Value → Bytes

/-- The exceptions of the parser. -/
inductive JsonError
  | unableToParse
  | unexpectedEnd
  | controlCharacter
  | endInsideString
  | wrongControlCode (text : Bytes)
  | surrogatePairs (text : Bytes)
  | unknownEscape (c : UInt8)
  | extraCharacters
  /-- Not an exception of the code: the values are nested deeper than the text is long. -/
  | tooDeep
  deriving DecidableEq, Repr

/-- The bytes of the characters that have a meaning of their own. -/
def jsonQuote : UInt8 := 0x22

def backslash : UInt8 := 0x5c

def letter (c : Char) : UInt8 := UInt8.ofNat c.toNat

/-! ## Writing -/

def hexUpper (n : ℕ) : UInt8 := UInt8.ofNat (if n < 10 then 0x30 + n else 0x37 + n)

/-- `escape_table` -/
def escapeTable (c : UInt8) : Bytes :=
  if c = 8 then [backslash, letter 'b']
  else if c = 9 then [backslash, letter 't']
  else if c = 10 then [backslash, letter 'n']
  else if c = 12 then [backslash, letter 'f']
  else if c = 13 then [backslash, letter 'r']
  else [backslash, letter 'u', 0x30, 0x30, hexUpper (c.toNat / 16), hexUpper (c.toNat % 16)]

def escapeString (str : Bytes) : Bytes :=
  str.flatMap fun c ↦
    if c = backslash ∨ c = jsonQuote then [backslash, c]
    else if c < 0x20 then escapeTable c
    else [c]

def writeSigned (value : Int64) : Bytes :=
  if value < 0 then 0x2d :: decimal value.toInt.natAbs else decimal value.toInt.natAbs

variable (real : RealText)

mutual

/-- `operator<<` -/
def JsonValue.toText : JsonValue real.Value → Bytes
  | .nil => ascii "null"
  | .bool value => if value then ascii "true" else ascii "false"
  | .signedInteger value => writeSigned value
  | .unsignedInteger value => decimal value.toNat
  | .double value => real.toText value
  | .string value => jsonQuote :: escapeString value ++ [jsonQuote]
  | .array value => 0x5b :: JsonValue.itemsText value ++ [0x5d]
  | .object value => 0x7b :: JsonValue.membersText value ++ [0x7d]

def JsonValue.itemsText : List (JsonValue real.Value) → Bytes
  | [] => []
  | [item] => JsonValue.toText item
  | item :: items => JsonValue.toText item ++ 0x2c :: JsonValue.itemsText items

def JsonValue.membersText : List (Bytes × JsonValue real.Value) → Bytes
  | [] => []
  | [(name, value)] => jsonQuote :: escapeString name ++ jsonQuote :: 0x3a :: JsonValue.toText value
  | (name, value) :: members =>
    jsonQuote :: escapeString name ++ jsonQuote :: 0x3a :: JsonValue.toText value ++
      0x2c :: JsonValue.membersText members

end

/-! ## Reading -/

def isSpace (c : UInt8) : Bool := c = 0x20 ∨ (9 ≤ c ∧ c ≤ 13)

def isCntrl (c : UInt8) : Bool := c < 0x20 ∨ c = 0x7f

/-- `read_non_ws_char`: the first character that is no blank, and what is behind it. -/
def readNonWsChar (text : Bytes) : Except JsonError (UInt8 × Bytes) :=
  match text.dropWhile isSpace with
  | [] => .error .unexpectedEnd
  | c :: rest => .ok (c, rest)

/-- The escapes of one character. -/
def plainEscape (c : UInt8) : Option UInt8 :=
  if c = backslash then some backslash
  else if c = 0x2f then some 0x2f
  else if c = jsonQuote then some jsonQuote
  else if c = letter 'n' then some 10
  else if c = letter 'r' then some 13
  else if c = letter 't' then some 9
  else if c = letter 'b' then some 8
  else if c = letter 'f' then some 12
  else none

/-- What is added to the string for a code point. -/
def codePointBytes (cp : ℕ) : Bytes :=
  if cp < 0x80 then [UInt8.ofNat cp]
  else if cp < 0x800 then [UInt8.ofNat (0x80 ||| (cp &&& 0x3f)), UInt8.ofNat (0xc0 ||| cp >>> 6)]
  else
    [UInt8.ofNat (0x80 ||| (cp &&& 0x3f)), UInt8.ofNat (0x80 ||| (cp >>> 6 &&& 0x3f)),
      UInt8.ofNat (0xe0 ||| cp >>> 6 >>> 6)]

/-- The four digits behind the `u` of an escape. -/
def readCodePoint (c₀ c₁ c₂ c₃ : UInt8) : Except JsonError ℕ :=
  match fromHex c₀, fromHex c₁, fromHex c₂, fromHex c₃ with
  | some v₀, some v₁, some v₂, some v₃ =>
    let cp := v₀ * 4096 + v₁ * 256 + v₂ * 16 + v₃
    if (0xd800 ≤ cp ∧ cp ≤ 0xdfff) ∨ 0xfffe ≤ cp then .error (.surrogatePairs [c₀, c₁, c₂, c₃])
    else .ok cp
  | _, _, _, _ => .error (.wrongControlCode [c₀, c₁, c₂, c₃])

/-- `read_string_token`: the string, and what is behind the quote that ends it. -/
def readStringToken : Bytes → Except JsonError (Bytes × Bytes)
  | [] => .error .endInsideString
  | c :: rest =>
    if isCntrl c then .error .controlCharacter
    else if c = jsonQuote then .ok ([], rest)
    else if c = backslash then
      match rest with
      | [] => .error .unexpectedEnd
      | e :: rest =>
        match plainEscape e with
        | some b => do
          let p ← readStringToken rest
          return (b :: p.1, p.2)
        | none =>
          if e = letter 'u' then
            match rest with
            | c₀ :: c₁ :: c₂ :: c₃ :: rest => do
              let cp ← readCodePoint c₀ c₁ c₂ c₃
              let p ← readStringToken rest
              return (codePointBytes cp ++ p.1, p.2)
            | _ => .error .unexpectedEnd
          else .error (.unknownEscape e)
    else do
      let p ← readStringToken rest
      return (c :: p.1, p.2)

/-- The rest of a word whose first letter was read. What is compared when the text ends is not defined. -/
def readWord (word : Bytes) (text : Bytes) : Except JsonError Bytes :=
  if text.take word.length = word then .ok (text.drop word.length) else .error .unableToParse

def isDigit (c : UInt8) : Bool := 0x30 ≤ c ∧ c ≤ 0x39

/-- A number of 64 bits as the library reads it: what does not fit becomes the bound that it passes. -/
def readInteger (text : Bytes) : JsonValue real.Value :=
  if 1 < text.length ∧ text.head? = some 0x2d then
    .signedInteger (Int64.ofInt (max (-2 ^ 63) (-ofDecimal text.tail)))
  else .unsignedInteger (UInt64.ofNat (min (2 ^ 64 - 1) (ofDecimal (text.filter isDigit))))

/-- `read_number`, `c` being its first character. -/
def readNumber (c : UInt8) (text : Bytes) : Except JsonError (JsonValue real.Value × Bytes) :=
  let digits := text.takeWhile fun c ↦ isDigit c || c = 0x2e
  let rest := text.dropWhile fun c ↦ isDigit c || c = 0x2e
  let number := c :: digits
  let dots := digits.count 0x2e
  let hasExponent := rest.head? = some (letter 'e') ∨ rest.head? = some (letter 'E')
  if 0 < dots ∨ hasExponent then do
    ensure (dots ≤ 1) .unableToParse
    if hasExponent then do
      let mark := rest.take 1
      let sign := rest.tail.take 1 |>.filter fun c ↦ c = 0x2b ∨ c = 0x2d
      let exponent := rest.tail.drop sign.length |>.takeWhile isDigit
      ensure (exponent ≠ []) .unableToParse
      return (.double (real.ofText (number ++ mark ++ sign ++ exponent)),
        rest.tail.drop (sign.length + exponent.length))
    else return (.double (real.ofText number), rest)
  else do
    ensure (¬(1 < number.length ∧ (number.head? = some 0x30 ∨
      number.head? = some 0x2d ∧ number.tail.head? = some 0x30))) .unableToParse
    return (readInteger real number, rest)

/-- `value[name] = …` for an ordered map. -/
def setMember {α : Type} (name : Bytes) (value : α) : List (Bytes × α) → List (Bytes × α)
  | [] => [(name, value)]
  | (other, old) :: members =>
    if name = other then (name, value) :: members
    else if name < other then (name, value) :: (other, old) :: members
    else (other, old) :: setMember name value members

mutual

/-- `operator>>`. A character of the text takes three turns at most. -/
def readValue : ℕ → Bytes → Except JsonError (JsonValue real.Value × Bytes)
  | 0, _ => .error .tooDeep
  | turns + 1, text => do
    let (c, rest) ← readNonWsChar text
    if c = 0x5b then readArray turns rest
    else if c = letter 't' then do
      let rest ← readWord (ascii "rue") rest
      return (.bool true, rest)
    else if c = letter 'f' then do
      let rest ← readWord (ascii "alse") rest
      return (.bool false, rest)
    else if c = 0x2d ∨ isDigit c then readNumber real c rest
    else if c = letter 'n' then do
      let rest ← readWord (ascii "ull") rest
      return (.nil, rest)
    else if c = 0x7b then readObject turns rest
    else if c = jsonQuote then do
      let (value, rest) ← readStringToken rest
      return (.string value, rest)
    else .error .unableToParse

def readArray : ℕ → Bytes → Except JsonError (JsonValue real.Value × Bytes)
  | 0, _ => .error .tooDeep
  | turns + 1, text => do
    let (c, rest) ← readNonWsChar text
    if c = 0x5d then return (.array [], rest)
    else do
      let (items, rest) ← readItems turns (c :: rest)
      return (.array items, rest)

def readItems : ℕ → Bytes → Except JsonError (List (JsonValue real.Value) × Bytes)
  | 0, _ => .error .tooDeep
  | turns + 1, text => do
    let (item, rest) ← readValue turns text
    let (c, rest) ← readNonWsChar rest
    if c = 0x5d then return ([item], rest)
    else do
      ensure (c = 0x2c) .unableToParse
      let (items, rest) ← readItems turns rest
      return (item :: items, rest)

def readObject : ℕ → Bytes → Except JsonError (JsonValue real.Value × Bytes)
  | 0, _ => .error .tooDeep
  | turns + 1, text => do
    let (c, rest) ← readNonWsChar text
    if c = 0x7d then return (.object [], rest)
    else do
      let (members, rest) ← readMembers turns [] c rest
      return (.object members, rest)

/-- The members from a quote on, `c` being the character that was read. -/
def readMembers : ℕ → List (Bytes × JsonValue real.Value) → UInt8 → Bytes →
    Except JsonError (List (Bytes × JsonValue real.Value) × Bytes)
  | 0, _, _, _ => .error .tooDeep
  | turns + 1, members, c, text => do
    ensure (c = jsonQuote) .unableToParse
    let (name, rest) ← readStringToken text
    let (c, rest) ← readNonWsChar rest
    ensure (c = 0x3a) .unableToParse
    let (value, rest) ← readValue turns rest
    let members := setMember name value members
    let (c, rest) ← readNonWsChar rest
    if c = 0x7d then return (members, rest)
    else do
      ensure (c = 0x2c) .unableToParse
      let (c, rest) ← readNonWsChar rest
      readMembers turns members c rest

end

/-- `JsonValue::from_string`: nothing but blanks may follow the value. -/
def JsonValue.fromString (source : Bytes) : Except JsonError (JsonValue real.Value) := do
  let (value, rest) ← readValue real (3 * (source.length + 1)) source
  ensure (rest.dropWhile isSpace = []) .extraCharacters
  return value

end Common

end CryoNero
