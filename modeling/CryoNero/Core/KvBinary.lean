import CryoNero.Core.Json
import CryoNero.Seria.Reading
import CryoNero.Store.Files

/-!
# Values in key-value binary

A value is written by a stream that is told of its parts one after the other: where an object or an array
begins and ends, the key of the next member, and the numbers and strings. The stream collects the members of
an object apart, since their number comes first. Sizes are written in one, two, four or eight bytes, and the
two lowest bits say which.

The bytes are read into a JSON value, from which a program takes the parts it expects. A number of any width
becomes a signed number of 64 bits on the way.

The reader adds up a size from bytes that are shifted as numbers of type `int`, of 32 bits. It calls itself
for what is nested; how deep it can go is a parameter.
-/

namespace CryoNero

open Seria Store Common

namespace KvBinary

/-- The exceptions, and two that are none: a shift that is not defined, and a nesting that is too deep. -/
inductive Error
  | emptyStream
  | undefinedShift
  | tooDeep
  | unknownType
  | arrayOfArray
  | signature
  | version
  | excessData
  | nameTooLong
  | tooBigAmount
  | unexpectedRoot
  | objectExpected
  | arrayExpected
  | notInteger
  | notBool
  | notString
  deriving DecidableEq, Repr

/-- The types of numbers that can be written or read. -/
inductive IntegerType
  | int64
  | int32
  | int16
  | int8
  | uint64
  | uint32
  | uint16
  | uint8
  deriving DecidableEq, Repr

namespace IntegerType

def code : IntegerType → UInt8
  | int64 => 1
  | int32 => 2
  | int16 => 3
  | int8 => 4
  | uint64 => 5
  | uint32 => 6
  | uint16 => 7
  | uint8 => 8

/-- The width in bytes. -/
def size : IntegerType → ℕ
  | int64 | uint64 => 8
  | int32 | uint32 => 4
  | int16 | uint16 => 2
  | int8 | uint8 => 1

def isSigned : IntegerType → Bool
  | int64 | int32 | int16 | int8 => true
  | _ => false

end IntegerType

def typeDouble : UInt8 := 9
def typeString : UInt8 := 10
def typeBool : UInt8 := 11
def typeObject : UInt8 := 12
def typeArray : UInt8 := 13
def flagArray : UInt8 := 0x80

/-- A value of a program. The members of an object are in the order in which they are written. -/
inductive Value
  | integer (type : IntegerType) (value : BitVec (8 * type.size))
  | bool (value : Bool)
  | string (value : Bytes)
  | array (items : List Value)
  | object (members : List (Bytes × Value))

/-- The type of a value in the program. -/
inductive ValueType
  | integer (type : IntegerType)
  | bool
  | string
  | array (item : ValueType)
  | object (members : List (Bytes × ValueType))

/-- A JSON value whose doubles are their bits. -/
abbrev Json := JsonValue (BitVec 64)

/-! ## Writing -/

/-- `pack_varint` -/
def packVarint (size : ℕ) (typeOr : ℕ) (pv : ℕ) : Bytes := leBytes size (pv * 4 ||| typeOr)

def writeArraySize (val : ℕ) : Except Error Bytes :=
  if val ≤ 63 then .ok (packVarint 1 0 val)
  else if val ≤ 16383 then .ok (packVarint 2 1 val)
  else if val ≤ 1073741823 then .ok (packVarint 4 2 val)
  else do
    ensure (val ≤ 4611686018427387903) .tooBigAmount
    return packVarint 8 3 val

def writeElementName (name : Bytes) : Except Error Bytes := do
  ensure (name.length ≤ 255) .nameTooLong
  return UInt8.ofNat name.length :: name

inductive LevelState
  | object
  | arrayPrefix
  | array
  deriving DecidableEq, Repr

/-- What the stream is in: an object with its members so far, or an array with its size. -/
structure Level where
  state : LevelState
  count : ℕ

/-- `KVBinaryOutputStream`, with the innermost object and the innermost level first. -/
structure OutputStream where
  expectingRoot : Bool := true
  nextKey : Bytes := []
  objectsStack : List Bytes := []
  stack : List Level := []
  target : Bytes

namespace OutputStream

/-- The constructor writes the header. -/
def new : OutputStream where
  target := leBytes 4 0x01011101 ++ leBytes 4 0x01020101 ++ [1]

variable (s : OutputStream)

/-- Write to the innermost object. -/
def write (bytes : Bytes) : OutputStream :=
  match s.objectsStack with
  | [] => s
  | out :: outs => { s with objectsStack := (out ++ bytes) :: outs }

def writeElementPrefix (type : UInt8) : Except Error OutputStream :=
  match s.stack with
  | [] => .error .unexpectedRoot
  | level :: levels =>
    match level.state with
    | .object => do
      let head ← if s.nextKey ≠ [] then do
          let name ← writeElementName s.nextKey
          pure (if type ≠ typeArray then name ++ [type] else name)
        else pure []
      let stack := { level with count := level.count + 1 } :: levels
      return { s.write head with nextKey := [], stack := stack }
    | .arrayPrefix => do
      let size ← writeArraySize level.count
      return { s.write ((flagArray ||| type) :: size) with stack := { level with state := .array } :: levels }
    | .array => return s

def objectKey (name : Bytes) : OutputStream := { s with nextKey := name }

def beginObject : Except Error OutputStream := do
  let s ← if s.stack = [] then do
      ensure (s.expectingRoot = true) .unexpectedRoot
      pure { s with expectingRoot := false }
    else s.writeElementPrefix typeObject
  return { s with stack := ⟨.object, 0⟩ :: s.stack, objectsStack := [] :: s.objectsStack }

def endObject : Except Error OutputStream :=
  match s.stack, s.objectsStack with
  | level :: levels, out :: outs => do
    let size ← writeArraySize level.count
    let s := { s with stack := levels, objectsStack := outs }
    return if outs = [] then { s with target := s.target ++ (size ++ out) } else s.write (size ++ out)
  | _, _ => .error .unexpectedRoot

def beginArray (size : ℕ) : Except Error OutputStream := do
  let s ← s.writeElementPrefix typeArray
  if size = 0 then do
    let bytes ← writeArraySize size
    return { s.write ((flagArray ||| typeString) :: bytes) with stack := ⟨.array, size⟩ :: s.stack }
  else return { s with stack := ⟨.arrayPrefix, size⟩ :: s.stack }

def endArray : OutputStream := { s with stack := s.stack.tail }

/-- `seria_v` of a number, whose bytes are written as they lie in memory. -/
def seriaInteger (type : IntegerType) (value : BitVec (8 * type.size)) : Except Error OutputStream := do
  let s ← s.writeElementPrefix type.code
  return s.write (leBytes type.size value.toNat)

def seriaBool (value : Bool) : Except Error OutputStream := do
  let s ← s.writeElementPrefix typeBool
  return s.write [if value then 1 else 0]

def seriaString (value : Bytes) : Except Error OutputStream := do
  let s ← s.writeElementPrefix typeString
  let size ← writeArraySize value.length
  return s.write (size ++ value)

end OutputStream

mutual

/-- `ser` for an output stream. -/
def ser : Value → OutputStream → Except Error OutputStream
  | .integer type value, s => s.seriaInteger type value
  | .bool value, s => s.seriaBool value
  | .string value, s => s.seriaString value
  | .array items, s => do
    let s ← s.beginArray items.length
    let s ← serItems items s
    return s.endArray
  | .object members, s => do
    let s ← s.beginObject
    let s ← serMembers members s
    s.endObject

def serItems : List Value → OutputStream → Except Error OutputStream
  | [], s => .ok s
  | item :: items, s => do
    let s ← ser item s
    serItems items s

def serMembers : List (Bytes × Value) → OutputStream → Except Error OutputStream
  | [], s => .ok s
  | (name, value) :: members, s => do
    let s ← ser value (s.objectKey name)
    serMembers members s

end

def toBinaryKeyValue (v : Value) : Except Error Bytes := do
  let s ← ser v .new
  return s.target

/-! ## Reading -/

abbrev KvReading := Reading Error

def readByte : KvReading UInt8 := Reading.byte .emptyStream

def readBytes (n : ℕ) : KvReading Bytes := Reading.bytes .emptyStream n

/-- `n << k` as a number of type `int`, turned to `size_t`: the sign fills the upper half. -/
def shiftInt (n : UInt8) (k : ℕ) : KvReading ℕ :=
  if k < 32 then
    let x := n.toNat <<< k % 2 ^ 32
    pure (if x < 2 ^ 31 then x else x + (2 ^ 64 - 2 ^ 32))
  else Reading.fail .undefinedShift

/-- The loop of `read_varint` over the bytes that are left. -/
def readVarintFrom (value : ℕ) (i : ℕ) : ℕ → KvReading ℕ
  | 0 => pure (value >>> 2)
  | left + 1 => do
    let n ← readByte
    let x ← shiftInt n (i * 8)
    readVarintFrom (value ||| x) (i + 1) left

/-- The bytes behind the first, by its two lowest bits. -/
def bytesLeft (b : UInt8) : ℕ :=
  match b.toNat % 4 with
  | 0 => 0
  | 1 => 1
  | 2 => 3
  | _ => 7

def readVarint : KvReading ℕ := do
  let b ← readByte
  readVarintFrom b.toNat 1 (bytesLeft b)

def readString : KvReading Bytes := do
  let size ← readVarint
  readBytes size

def readName : KvReading Bytes := do
  let len ← readByte
  readBytes len.toNat

/-- `read_integer_json` -/
def readIntegerJson (type : IntegerType) : KvReading Json := do
  let bytes ← readBytes type.size
  let value : BitVec (8 * type.size) := BitVec.ofNat _ (leNat bytes)
  return .signedInteger (Int64.ofBitVec (if type.isSigned then value.signExtend 64 else value.setWidth 64))

/-- `JsonValue::insert`: a member of the name that is there already stays. -/
def emplace {α : Type} (name : Bytes) (value : α) : List (Bytes × α) → List (Bytes × α)
  | [] => [(name, value)]
  | (other, old) :: members =>
    if name = other then (other, old) :: members
    else if name < other then (name, value) :: (other, old) :: members
    else (other, old) :: emplace name value members

/-- The types of numbers by their codes. -/
def integerTypes : List IntegerType := [.int64, .int32, .int16, .int8, .uint64, .uint32, .uint16, .uint8]

mutual

def loadObject : ℕ → KvReading Json
  | 0 => Reading.fail .tooDeep
  | stack + 1 => do
    let count ← readVarint
    let entries ← Reading.times (do
      let name ← readName
      let value ← loadEntry stack
      return (name, value)) count
    return .object (entries.foldl (fun members entry ↦ emplace entry.1 entry.2 members) [])

def loadValue : ℕ → UInt8 → KvReading Json
  | 0, _ => Reading.fail .tooDeep
  | stack + 1, type =>
    match integerTypes.find? fun t ↦ t.code = type with
    | some integerType => readIntegerJson integerType
    | none =>
      if type = typeDouble then do
        let bytes ← readBytes 8
        return .double (BitVec.ofNat 64 (leNat bytes))
      else if type = typeBool then do
        let b ← readByte
        return .bool (b ≠ 0)
      else if type = typeString then do
        let str ← readString
        return .string str
      else if type = typeObject then loadObject stack
      else if type = typeArray then loadArray stack type
      else Reading.fail .unknownType

def loadEntry : ℕ → KvReading Json
  | 0 => Reading.fail .tooDeep
  | stack + 1 => do
    let type ← readByte
    if type &&& flagArray ≠ 0 then loadArray stack (type &&& 0x7f) else loadValue stack type

def loadArray : ℕ → UInt8 → KvReading Json
  | 0, _ => Reading.fail .tooDeep
  | stack + 1, itemType => do
    let count ← readVarint
    let items ← Reading.times (loadItem stack itemType) count
    return .array items

/-- An item of an array. -/
def loadItem : ℕ → UInt8 → KvReading Json
  | 0, _ => Reading.fail .tooDeep
  | stack + 1, itemType =>
    if itemType = typeArray then do
      let type ← readByte
      Reading.demand (type &&& flagArray ≠ 0) .arrayOfArray
      loadArray stack (type &&& 0x7f)
    else loadValue stack itemType

end

def parseBinary (stack : ℕ) : KvReading Json := do
  let signatureA ← readBytes 4
  let signatureB ← readBytes 4
  let ver ← readByte
  Reading.demand (leNat signatureA = 0x01011101 ∧ leNat signatureB = 0x01020101) .signature
  Reading.demand (ver = 1) .version
  loadObject stack

/-! ## Taking a value from JSON -/

/-- What a number of 64 bits becomes in a narrower one. -/
def getInteger : Json → Except Error (BitVec 64)
  | .signedInteger value => .ok value.toBitVec
  | .unsignedInteger value => .ok value.toBitVec
  | _ => .error .notInteger

mutual

/-- `ser` for an input stream. A member that is not there leaves its variable as it was. -/
def readAs : ValueType → Option Json → Except Error Value
  | .integer type, none => .ok (.integer type 0)
  | .integer type, some j => do
    let value ← getInteger j
    return .integer type (value.setWidth _)
  | .bool, none => .ok (.bool false)
  | .bool, some (.bool value) => .ok (.bool value)
  | .bool, some _ => .error .notBool
  | .string, none => .ok (.string [])
  | .string, some (.string value) => .ok (.string value)
  | .string, some _ => .error .notString
  | .array _, none => .ok (.array [])
  | .array item, some (.array items) => do
    let items ← items.mapM fun j ↦ readAs item (some j)
    return .array items
  | .array _, some _ => .error .arrayExpected
  | .object fields, none => do
    let members ← readFields fields []
    return .object members
  | .object fields, some (.object found) => do
    let members ← readFields fields found
    return .object members
  | .object _, some _ => .error .objectExpected

def readFields : List (Bytes × ValueType) → List (Bytes × Json) → Except Error (List (Bytes × Value))
  | [], _ => .ok []
  | (name, type) :: fields, found => do
    let value ← readAs type (found.lookup name)
    let members ← readFields fields found
    return (name, value) :: members

end

/-- `from_binary_key_value` -/
def fromBinaryKeyValue (stack : ℕ) (type : ValueType) (buf : Bytes) : Except Error Value := do
  let (json, rest) ← parseBinary stack buf
  let value ← readAs type (some json)
  ensure (rest = []) .excessData
  return value

end KvBinary

end CryoNero
