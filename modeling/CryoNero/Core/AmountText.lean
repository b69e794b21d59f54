import CryoNero.CryptoNote
import CryoNero.Words.Decimal

/-!
# Amounts as text

An amount is written with a point and with a quote between groups of digits. The groups of the fraction are
those of an amount with eight decimal places. Reading drops the quotes, and zeros at the end of a fraction
that is too long.
-/

namespace CryoNero

open Seria Words

def cryptonoteDisplayDecimalPoint : UInt64 := 10

/-- `DECIMAL_PLACES` -/
def decimalPlaces : List Amount :=
  [1, 10, 100, 1000, 10000, 100000, 1000000, 10000000, 100000000, 1000000000, 10000000000, 100000000000,
    1000000000000, 10000000000000, 100000000000000, 1000000000000000, 10000000000000000,
    100000000000000000, 1000000000000000000, 10000000000000000000]

def quote : UInt8 := 0x27

def point : UInt8 := 0x2e

def zero : UInt8 := 0x30

def ffw (am : Amount) (digs : ℕ) : Bytes :=
  let result := decimal am.toNat
  if result.length < digs then List.replicate (digs - result.length) zero ++ result else result

/-- The loop of `format_amount`, and the digits that are left after it. -/
def formatWhole (ia : Amount) (result : Bytes) : Bytes :=
  if 1000 ≤ ia then formatWhole (ia / 1000) (quote :: ffw (ia % 1000) 3 ++ result)
  else decimal ia.toNat ++ result
termination_by ia.toNat
decreasing_by
  rename_i hle
  have hle := UInt64.le_iff_toNat_le.mp hle
  rw [UInt64.toNat_div]
  exact Nat.div_lt_self (lt_of_lt_of_le (by decide) hle) (by decide)

/-- `format_amount`. The table of places throws when the number of places is not in it. -/
def formatAmount (numberOfDecimalPlaces : UInt64) (amount : Amount) : Option Bytes := do
  let coin ← decimalPlaces[numberOfDecimalPlaces.toNat]?
  let ia := amount / coin
  let fa := amount - ia * coin
  let result := formatWhole ia []
  let (result, fa) ←
    if fa ≠ 0 then do
      let cent ← decimalPlaces[(numberOfDecimalPlaces - 2).toNat]?
      pure (result ++ point :: ffw (fa / cent) 2, fa % cent)
    else pure (result, fa)
  let (result, fa) :=
    if fa ≠ 0 then (result ++ quote :: ffw (fa / 1000) 3, fa % 1000) else (result, fa)
  return if fa ≠ 0 then result ++ quote :: ffw fa 3 else result

def isSpace (c : UInt8) : Bool := c = 0x20 ∨ 0x09 ≤ c ∧ c ≤ 0x0d

def isDigit (c : UInt8) : Bool := zero ≤ c ∧ c ≤ 0x39

def trim (s : Bytes) : Bytes := (s.dropWhile isSpace).rdropWhile isSpace

/-- The loop of `parse_amount`: the size of the fraction and the text, without zeros at the end. -/
def dropZeros (numberOfDecimalPlaces : UInt64) : ℕ → Bytes → ℕ × Bytes
  | 0, strAmount => (0, strAmount)
  | fractionSize + 1, strAmount =>
    if numberOfDecimalPlaces.toNat < fractionSize + 1 ∧ strAmount.getLast? = some zero then
      dropZeros numberOfDecimalPlaces fractionSize strAmount.dropLast
    else (fractionSize + 1, strAmount)

/-- An integer from a stream of digits, which fails when there are more than fit 64 bits. -/
def readAmount (digits : Bytes) : Option Amount :=
  if ofDecimal digits < 2 ^ 64 then some (UInt64.ofNat (ofDecimal digits)) else none

def parseAmount (numberOfDecimalPlaces : UInt64) (str : Bytes) : Option Amount := do
  let strAmount := (trim str).filter (· ≠ quote)
  let (fractionSize, strAmount) ←
    match strAmount.idxOf? point with
    | some pointIndex =>
      let (fractionSize, strAmount) :=
        dropZeros numberOfDecimalPlaces (strAmount.length - pointIndex - 1) strAmount
      if numberOfDecimalPlaces.toNat < fractionSize then none
      else some (fractionSize, strAmount.eraseIdx pointIndex)
    | none => some (0, strAmount)
  if strAmount = [] then none
  else if ¬strAmount.all isDigit then none
  else if fractionSize < numberOfDecimalPlaces.toNat then
    readAmount (strAmount ++ List.replicate (numberOfDecimalPlaces.toNat - fractionSize) zero)
  else readAmount strAmount

end CryoNero
