import CryoNero.Json.Sizes

/-!
# Key-value binary gives back what was written

The stream that writes is told of the parts of a value, and its bytes depend on where it is: in an object it
writes the name and the type of a member in front, in an array the type and the number of the items in front
of the first. What it has written of a value in the end is `payload`, behind what belongs in front of it.

The reader takes a payload off its input when no size reaches `2 ^ 29` and no member has an empty name: of a
member with an empty name neither name nor type is written, while it counts as a member.
-/

namespace CryoNero

open Seria Store Common

namespace KvBinary

/-! ## Values and their types -/

def ValueType.code : ValueType → UInt8
  | .integer type => type.code
  | .bool => typeBool
  | .string => typeString
  | .array _ => typeArray
  | .object _ => typeObject

def Value.code : Value → UInt8
  | .integer type _ => type.code
  | .bool _ => typeBool
  | .string _ => typeString
  | .array _ => typeArray
  | .object _ => typeObject

/-- A value of a type. The members of an object stand in the order of its fields. -/
inductive HasType : ValueType → Value → Prop
  | integer (type : IntegerType) (value : BitVec (8 * type.size)) :
      HasType (.integer type) (.integer type value)
  | bool (value : Bool) : HasType .bool (.bool value)
  | string (value : Bytes) : HasType .string (.string value)
  | array {item : ValueType} {items : List Value} (h : ∀ v ∈ items, HasType item v) :
      HasType (.array item) (.array items)
  | object {fields : List (Bytes × ValueType)} {members : List (Bytes × Value)}
      (hnames : fields.map Prod.fst = members.map Prod.fst)
      (h : ∀ p ∈ fields.zip members, HasType p.1.2 p.2.2) : HasType (.object fields) (.object members)

private theorem HasType.code_eq {type : ValueType} {v : Value} (h : HasType type v) :
    v.code = type.code := by
  cases h <;> rfl

/-- Every string, array and object of a value has a size that meets a condition, the names of the members of
an object are different, and the length of every name meets another condition. -/
inductive Value.Within (size name : ℕ → Prop) : Value → Prop
  | integer (type : IntegerType) (value : BitVec (8 * type.size)) : Within size name (.integer type value)
  | bool (value : Bool) : Within size name (.bool value)
  | string {value : Bytes} (hsize : size value.length) : Within size name (.string value)
  | array {items : List Value} (hsize : size items.length) (h : ∀ v ∈ items, Within size name v) :
      Within size name (.array items)
  | object {members : List (Bytes × Value)} (hsize : size members.length)
      (hnodup : (members.map Prod.fst).Nodup) (hnames : ∀ m ∈ members, name m.1.length)
      (h : ∀ m ∈ members, Within size name m.2) : Within size name (.object members)

theorem Value.Within.mono {size name size' name' : ℕ → Prop} (hsize : ∀ n, size n → size' n)
    (hname : ∀ n, name n → name' n) {v : Value} (h : v.Within size name) : v.Within size' name' := by
  induction h with
  | integer type value => exact .integer type value
  | bool value => exact .bool value
  | string h => exact .string (hsize _ h)
  | array h _ ih => exact .array (hsize _ h) ih
  | object h hnodup hnames _ ih => exact .object (hsize _ h) hnodup (fun m hm ↦ hname _ (hnames m hm)) ih

/-- What can be written: the sizes and names that the format has room for, and no empty name. -/
abbrev Value.Writable (v : Value) : Prop := v.Within (· < 2 ^ 62) fun n ↦ 0 < n ∧ n ≤ 255

/-- What comes back: sizes below `2 ^ 29`, and no empty name. -/
abbrev Value.Short (v : Value) : Prop := v.Within (· < 2 ^ 29) fun n ↦ 0 < n ∧ n ≤ 255

private theorem Value.Within.writable {v : Value} (h : v.Short) : v.Writable :=
  h.mono (fun n hn ↦ hn.trans (by decide)) fun n hn ↦ hn

/-! ## The bytes of a value -/

/-- The type of the items that stands in front of an array. -/
def elementCode : List Value → UInt8
  | [] => typeString
  | item :: _ => item.code

/-- A name with its length. -/
def nameBytes (name : Bytes) : Bytes := UInt8.ofNat name.length :: name

/-- The type of a member, which an array does not need. -/
def memberType (v : Value) : Bytes := if v.code ≠ typeArray then [v.code] else []

mutual

def Value.payload : Value → Bytes
  | .integer type value => leBytes type.size value.toNat
  | .bool value => [if value then 1 else 0]
  | .string value => sizeBytes value.length ++ value
  | .array items => (flagArray ||| elementCode items) :: (sizeBytes items.length ++ payloads items)
  | .object members => sizeBytes members.length ++ memberPayloads members

def payloads : List Value → Bytes
  | [] => []
  | item :: items => item.payload ++ payloads items

def memberPayloads : List (Bytes × Value) → Bytes
  | [] => []
  | (name, v) :: members => (nameBytes name ++ memberType v) ++ v.payload ++ memberPayloads members

end

private theorem payloads_eq (items : List Value) : payloads items = items.flatMap Value.payload := by
  induction items with
  | nil => rfl
  | cons item items ih => rw [payloads, ih, List.flatMap_cons]

private theorem memberPayloads_eq (members : List (Bytes × Value)) :
    memberPayloads members = members.flatMap fun m ↦ (nameBytes m.1 ++ memberType m.2) ++ m.2.payload := by
  induction members with
  | nil => rfl
  | cons m members ih => rw [memberPayloads, ih, List.flatMap_cons]

/-! ## Writing -/

section Writing

variable {root : Bool} {key out target : Bytes} {outs : List Bytes} {stack levels : List Level} {n : ℕ}

private theorem writeElementPrefix_array (type : UInt8) :
    OutputStream.writeElementPrefix ⟨root, key, outs, ⟨.array, n⟩ :: levels, target⟩ type =
      .ok ⟨root, key, outs, ⟨.array, n⟩ :: levels, target⟩ := rfl

private theorem writeElementPrefix_arrayPrefix (hn : n < 2 ^ 62) (type : UInt8) :
    OutputStream.writeElementPrefix ⟨root, key, out :: outs, ⟨.arrayPrefix, n⟩ :: levels, target⟩ type =
      .ok ⟨root, key, (out ++ (flagArray ||| type) :: sizeBytes n) :: outs, ⟨.array, n⟩ :: levels,
        target⟩ := by
  rw [OutputStream.writeElementPrefix]
  simp only [writeArraySize_eq hn]
  rfl

private theorem writeElementPrefix_object (hkey : 0 < key.length ∧ key.length ≤ 255) (v : Value) :
    OutputStream.writeElementPrefix ⟨root, key, out :: outs, ⟨.object, n⟩ :: levels, target⟩ v.code =
      .ok ⟨root, [], (out ++ (nameBytes key ++ memberType v)) :: outs, ⟨.object, n + 1⟩ :: levels,
        target⟩ := by
  have hne : key ≠ [] := List.length_pos_iff.mp hkey.1
  have hname : writeElementName key = .ok (nameBytes key) := by
    rw [writeElementName, ensure_pos _ hkey.2]
    rfl
  rw [OutputStream.writeElementPrefix, memberType]
  simp only [hne, ne_eq, not_false_eq_true, if_true, hname]
  by_cases hcode : v.code = typeArray
  · simp only [hcode, not_true, if_false, List.append_nil]
    rfl
  · simp only [hcode, not_false_eq_true, if_true]
    rfl

/-- What is written of a value, once what belongs in front of it is. -/
def Writes (v : Value) : Prop :=
  ∀ {s : OutputStream} {root : Bool} {out : Bytes} {outs : List Bytes} {stack : List Level} {target : Bytes},
    s.writeElementPrefix v.code = .ok ⟨root, [], out :: outs, stack, target⟩ →
      ser v s = .ok ⟨root, [], (out ++ v.payload) :: outs, stack, target⟩

private theorem serItems_eq {items : List Value} (h : ∀ v ∈ items, Writes v) :
    serItems items ⟨root, [], out :: outs, ⟨.array, n⟩ :: levels, target⟩ =
      .ok ⟨root, [], (out ++ payloads items) :: outs, ⟨.array, n⟩ :: levels, target⟩ := by
  induction items generalizing out with
  | nil => rw [serItems, payloads, List.append_nil]
  | cons item items ih =>
    rw [List.forall_mem_cons] at h
    rw [serItems, h.1 (writeElementPrefix_array _), ok_bind, ih h.2, payloads, List.append_assoc]

private theorem serItems_first {item : Value} {items : List Value} (hn : n < 2 ^ 62)
    (h : ∀ v ∈ item :: items, Writes v) :
    serItems (item :: items) ⟨root, [], out :: outs, ⟨.arrayPrefix, n⟩ :: levels, target⟩ =
      .ok ⟨root, [], (out ++ (flagArray ||| item.code) :: (sizeBytes n ++ payloads (item :: items))) :: outs,
        ⟨.array, n⟩ :: levels, target⟩ := by
  rw [List.forall_mem_cons] at h
  rw [serItems, h.1 (writeElementPrefix_arrayPrefix hn _), ok_bind, serItems_eq h.2, payloads]
  simp only [List.append_assoc, List.cons_append]

private theorem serMembers_eq {members : List (Bytes × Value)}
    (hnames : ∀ m ∈ members, 0 < m.1.length ∧ m.1.length ≤ 255) (h : ∀ m ∈ members, Writes m.2) :
    serMembers members ⟨root, [], out :: outs, ⟨.object, n⟩ :: levels, target⟩ =
      .ok ⟨root, [], (out ++ memberPayloads members) :: outs, ⟨.object, n + members.length⟩ :: levels,
        target⟩ := by
  induction members generalizing out n with
  | nil => rw [serMembers, memberPayloads, List.append_nil, List.length_nil, Nat.add_zero]
  | cons m members ih =>
    obtain ⟨name, v⟩ := m
    rw [List.forall_mem_cons] at hnames h
    have hpre : OutputStream.writeElementPrefix ⟨root, name, out :: outs, ⟨.object, n⟩ :: levels, target⟩
        v.code = _ := writeElementPrefix_object hnames.1 v
    rw [serMembers, OutputStream.objectKey, h.1 hpre, ok_bind, ih hnames.2 h.2, memberPayloads,
      List.length_cons]
    simp only [List.append_assoc, Nat.add_assoc, Nat.add_comm 1]

private theorem serObject_eq {members : List (Bytes × Value)} (hsize : members.length < 2 ^ 62)
    (hnames : ∀ m ∈ members, 0 < m.1.length ∧ m.1.length ≤ 255) (h : ∀ m ∈ members, Writes m.2) :
    (serMembers members ⟨root, [], [] :: outs, ⟨.object, 0⟩ :: stack, target⟩ >>= OutputStream.endObject) =
      .ok (if outs = [] then ⟨root, [], [], stack, target ++ (Value.object members).payload⟩
        else OutputStream.write ⟨root, [], outs, stack, target⟩ (Value.object members).payload) := by
  rw [serMembers_eq hnames h, ok_bind, OutputStream.endObject]
  simp only [Nat.zero_add, writeArraySize_eq hsize, List.nil_append]
  rw [Value.payload]
  split_ifs with houts
  · rw [houts]
    rfl
  · rfl

/-- **Writing.** -/
private theorem writes_of_writable {v : Value} (hv : v.Writable) : Writes v := by
  induction hv with
  | integer type value =>
    intro s root out outs stack target hpre
    rw [ser, OutputStream.seriaInteger]
    rw [Value.code] at hpre
    rw [hpre]
    rfl
  | bool value =>
    intro s root out outs stack target hpre
    rw [ser, OutputStream.seriaBool]
    rw [Value.code] at hpre
    rw [hpre]
    rfl
  | string hsize =>
    intro s root out outs stack target hpre
    rw [ser, OutputStream.seriaString]
    rw [Value.code] at hpre
    rw [hpre, ok_bind, writeArraySize_eq hsize]
    rfl
  | @array items hsize _ ih =>
    intro s root out outs stack target hpre
    rw [Value.code] at hpre
    rw [ser, OutputStream.beginArray, hpre, ok_bind]
    rcases items with - | ⟨item, items⟩
    · rfl
    · rw [if_neg (by simp)]
      show (serItems (item :: items) ⟨root, [], out :: outs, ⟨.arrayPrefix, _⟩ :: stack, target⟩ >>=
        fun s ↦ Except.ok s.endArray) = _
      rw [serItems_first hsize ih, ok_bind, Value.payload, elementCode]
      rfl
  | @object members hsize hnodup hnames _ ih =>
    intro s root out outs stack target hpre
    rw [Value.code] at hpre
    have hinside : s.stack ≠ [] := by
      intro hnil
      rw [OutputStream.writeElementPrefix, hnil] at hpre
      cases hpre
    rw [ser, OutputStream.beginObject, if_neg hinside, hpre]
    exact serObject_eq hsize hnames ih

private theorem toBinaryKeyValue_eq {members : List (Bytes × Value)} (h : (Value.object members).Writable) :
    toBinaryKeyValue (.object members) =
      .ok (OutputStream.new.target ++ (Value.object members).payload) := by
  cases h with
  | object hsize hnodup hnames h =>
    have hser : ser (.object members) .new =
        .ok ⟨false, [], [], [], OutputStream.new.target ++ (Value.object members).payload⟩ :=
      serObject_eq hsize hnames fun m hm ↦ writes_of_writable (h m hm)
    rw [toBinaryKeyValue, hser]
    rfl

end Writing

/-! ## Reading -/

/-- A number with its sign, in 64 bits. -/
def extend (type : IntegerType) (value : BitVec (8 * type.size)) : BitVec 64 :=
  if type.isSigned then value.signExtend 64 else value.setWidth 64

mutual

/-- What the reader makes of a value. -/
def Value.json : Value → Json
  | .integer type value => .signedInteger (Int64.ofBitVec (extend type value))
  | .bool value => .bool value
  | .string value => .string value
  | .array items => .array (jsons items)
  | .object members =>
    .object ((memberJsons members).foldl (fun found entry ↦ emplace entry.1 entry.2 found) [])

def jsons : List Value → List Json
  | [] => []
  | item :: items => item.json :: jsons items

def memberJsons : List (Bytes × Value) → List (Bytes × Json)
  | [] => []
  | (name, v) :: members => (name, v.json) :: memberJsons members

end

private theorem jsons_eq (items : List Value) : jsons items = items.map Value.json := by
  induction items with
  | nil => rfl
  | cons item items ih => rw [jsons, ih, List.map_cons]

theorem memberJsons_eq (members : List (Bytes × Value)) :
    memberJsons members = members.map fun m ↦ (m.1, m.2.json) := by
  induction members with
  | nil => rfl
  | cons m members ih => rw [memberJsons, ih, List.map_cons]

mutual

/-- How deep arrays and objects are nested. -/
def Value.depth : Value → ℕ
  | .array items => depths items + 1
  | .object members => memberDepths members + 1
  | _ => 0

def depths : List Value → ℕ
  | [] => 0
  | item :: items => max item.depth (depths items)

def memberDepths : List (Bytes × Value) → ℕ
  | [] => 0
  | (_, v) :: members => max v.depth (memberDepths members)

end

private theorem depth_le_depths {items : List Value} {v : Value} (h : v ∈ items) :
    v.depth ≤ depths items := by
  induction items with
  | nil => cases h
  | cons item items ih =>
    rw [depths]
    rcases List.mem_cons.mp h with rfl | h
    · exact le_max_left _ _
    · exact (ih h).trans (le_max_right _ _)

private theorem depth_le_memberDepths {members : List (Bytes × Value)} {m : Bytes × Value}
    (h : m ∈ members) :
    m.2.depth ≤ memberDepths members := by
  induction members with
  | nil => cases h
  | cons other members ih =>
    rw [memberDepths]
    rcases List.mem_cons.mp h with rfl | h
    · exact le_max_left _ _
    · exact (ih h).trans (le_max_right _ _)

private theorem find_integerTypes (type : IntegerType) :
    (integerTypes.find? fun t ↦ t.code = type.code) = some type := by
  cases type <;> decide

private theorem code_ne_typeArray (type : IntegerType) : type.code ≠ typeArray := by
  cases type <;> decide

private theorem exists_code (v : Value) : ∃ n < 14, v.code = UInt8.ofNat n := by
  cases v with
  | integer type => cases type <;> exact ⟨_, by decide, rfl⟩
  | bool => exact ⟨11, by decide, rfl⟩
  | string => exact ⟨10, by decide, rfl⟩
  | array => exact ⟨13, by decide, rfl⟩
  | object => exact ⟨12, by decide, rfl⟩

private theorem flag_code (v : Value) :
    v.code &&& flagArray = 0 ∧ (flagArray ||| v.code) &&& flagArray ≠ 0 ∧
      (flagArray ||| v.code) &&& 0x7f = v.code := by
  have hall : ∀ n < 14, UInt8.ofNat n &&& flagArray = 0 ∧ (flagArray ||| UInt8.ofNat n) &&& flagArray ≠ 0 ∧
      (flagArray ||| UInt8.ofNat n) &&& 0x7f = UInt8.ofNat n := by decide
  obtain ⟨n, hn, hcode⟩ := exists_code v
  rw [hcode]
  exact hall n hn

theorem flag_elementCode (items : List Value) :
    (flagArray ||| elementCode items) &&& flagArray ≠ 0 ∧
      (flagArray ||| elementCode items) &&& 0x7f = elementCode items := by
  rcases items with - | ⟨item, items⟩
  · decide
  · exact (flag_code item).2

private theorem readName_nameBytes {name : Bytes} (h : name.length ≤ 255) (rest : Bytes) :
    readName (nameBytes name ++ rest) = .ok (name, rest) := by
  have hlen : (UInt8.ofNat name.length).toNat = name.length := by
    rw [UInt8.toNat_ofNat']
    omega
  rw [readName, nameBytes, List.cons_append, reading_bind (readByte_cons _ _), hlen]
  exact Reading.bytes_append _ rfl rest

private theorem readIntegerJson_leBytes (type : IntegerType) (value : BitVec (8 * type.size))
    (rest : Bytes) :
    readIntegerJson type (leBytes type.size value.toNat ++ rest) =
      .ok (.signedInteger (Int64.ofBitVec (extend type value)), rest) := by
  have hlt : value.toNat < 256 ^ type.size := by
    have := value.isLt
    rwa [pow_mul] at this
  have hread : readBytes type.size (leBytes type.size value.toNat ++ rest) =
      .ok (leBytes type.size value.toNat, rest) := Reading.bytes_append _ (length_leBytes ..) rest
  rw [readIntegerJson, reading_bind hread, leNat_leBytes hlt, BitVec.ofNat_toNat, BitVec.setWidth_eq]
  rfl

private theorem loadArray_payload {items : List Value} (hsize : items.length < 2 ^ 29) {stack : ℕ}
    (h : ∀ v ∈ items, ∀ rest, loadItem stack (elementCode items) (v.payload ++ rest) = .ok (v.json, rest))
    (rest : Bytes) :
    loadArray (stack + 1) (elementCode items) (sizeBytes items.length ++ payloads items ++ rest) =
      .ok ((Value.array items).json, rest) := by
  rw [loadArray, List.append_assoc, reading_bind (readVarint_sizeBytes hsize _), payloads_eq,
    reading_bind (Reading.times_flatMap h rest), Value.json, jsons_eq]
  rfl

private theorem loadObject_payload {members : List (Bytes × Value)} (hsize : members.length < 2 ^ 29)
    (hnames : ∀ m ∈ members, m.1.length ≤ 255) {stack : ℕ}
    (h : ∀ m ∈ members, ∀ rest,
      loadEntry stack (memberType m.2 ++ m.2.payload ++ rest) = .ok (m.2.json, rest))
    (rest : Bytes) :
    loadObject (stack + 1) (sizeBytes members.length ++ memberPayloads members ++ rest) =
      .ok ((Value.object members).json, rest) := by
  have hentry : ∀ m ∈ members, ∀ rest,
      (do
        let name ← readName
        let value ← loadEntry stack
        return (name, value) : KvReading (Bytes × Json))
          ((nameBytes m.1 ++ memberType m.2) ++ m.2.payload ++ rest) = .ok ((m.1, m.2.json), rest) := by
    intro m hm rest
    rw [List.append_assoc, List.append_assoc, reading_bind (readName_nameBytes (hnames m hm) _),
      ← List.append_assoc, reading_bind (h m hm rest)]
    rfl
  rw [loadObject, List.append_assoc, reading_bind (readVarint_sizeBytes hsize _), memberPayloads_eq,
    reading_bind (Reading.times_flatMap hentry rest), Value.json, memberJsons_eq]
  rfl

private theorem loadEntry_eq {v : Value} {stack : ℕ} {rest : Bytes}
    (h : loadItem (stack + 1) v.code (v.payload ++ rest) = .ok (v.json, rest)) :
    loadEntry (stack + 1) (memberType v ++ v.payload ++ rest) = .ok (v.json, rest) := by
  rw [memberType]
  by_cases hcode : v.code = typeArray
  · cases v with
    | array items =>
      rw [if_neg (not_not_intro hcode), List.nil_append, Value.payload, List.cons_append, loadEntry,
        reading_bind (readByte_cons _ _), if_pos (flag_elementCode items).1]
      rw [Value.payload, List.cons_append, loadItem, if_pos hcode, reading_bind (readByte_cons _ _),
        Reading.demand_pos (flag_elementCode items).1] at h
      exact h
    | integer type => exact absurd hcode (code_ne_typeArray type)
    | bool => exact absurd hcode (show typeBool ≠ typeArray by decide)
    | string => exact absurd hcode (show typeString ≠ typeArray by decide)
    | object => exact absurd hcode (show typeObject ≠ typeArray by decide)
  · rw [if_pos hcode, List.singleton_append, List.cons_append, loadEntry, reading_bind (readByte_cons _ _),
      if_neg (not_not_intro (flag_code v).1)]
    rw [loadItem, if_neg hcode] at h
    exact h

private theorem code_eq_elementCode {item : ValueType} {items : List Value}
    (h : ∀ v ∈ items, HasType item v)
    {v : Value} (hv : v ∈ items) : v.code = elementCode items := by
  rcases items with - | ⟨first, items⟩
  · cases hv
  · rw [elementCode, (h v hv).code_eq, (h first (List.mem_cons_self ..)).code_eq]

/-- **Reading.** The payload of a value is taken off the input and becomes the JSON of the value. -/
private theorem loadItem_payload {v : Value} (hv : v.Short) {type : ValueType} (htype : HasType type v)
    {stack : ℕ}
    (hstack : 4 * (v.depth + 1) ≤ stack) (rest : Bytes) :
    loadItem stack v.code (v.payload ++ rest) = .ok (v.json, rest) := by
  induction hv generalizing type stack rest with
  | integer integerType value =>
    obtain ⟨stack, rfl⟩ : ∃ k, stack = k + 2 := ⟨stack - 2, by omega⟩
    rw [Value.code, loadItem, if_neg (code_ne_typeArray integerType), loadValue, find_integerTypes]
    exact readIntegerJson_leBytes integerType value rest
  | bool value =>
    obtain ⟨stack, rfl⟩ : ∃ k, stack = k + 2 := ⟨stack - 2, by omega⟩
    cases value <;> rfl
  | @string value hsize =>
    obtain ⟨stack, rfl⟩ : ∃ k, stack = k + 2 := ⟨stack - 2, by omega⟩
    have hread : readString (sizeBytes value.length ++ value ++ rest) = .ok (value, rest) := by
      rw [readString, List.append_assoc, reading_bind (readVarint_sizeBytes hsize _)]
      exact Reading.bytes_append _ rfl rest
    show (readString >>= fun str ↦ pure (JsonValue.string str) : KvReading Json)
      (sizeBytes value.length ++ value ++ rest) = _
    rw [reading_bind hread]
    rfl
  | @array items hsize _ ih =>
    rw [Value.depth] at hstack
    obtain ⟨stack, rfl⟩ : ∃ k, stack = k + 2 := ⟨stack - 2, by omega⟩
    cases htype with
    | array htypes =>
      have hitems : ∀ v ∈ items, ∀ rest, loadItem stack (elementCode items) (v.payload ++ rest) =
          .ok (v.json, rest) := by
        intro v hv rest
        have hdepth := depth_le_depths hv
        rw [← code_eq_elementCode htypes hv]
        exact ih v hv (htypes v hv) (by omega) rest
      have hflag := flag_elementCode items
      rw [Value.code, Value.payload, List.cons_append, loadItem, if_pos rfl, reading_bind (readByte_cons _ _),
        Reading.demand_pos hflag.1, hflag.2]
      exact loadArray_payload hsize hitems rest
  | @object members hsize _ hnames _ ih =>
    rw [Value.depth] at hstack
    obtain ⟨stack, rfl⟩ : ∃ k, stack = k + 4 := ⟨stack - 4, by omega⟩
    cases htype with
    | @object fields _ hsame htypes =>
      have hmembers : ∀ m ∈ members, ∀ rest, loadEntry (stack + 1) (memberType m.2 ++ m.2.payload ++ rest) =
          .ok (m.2.json, rest) := by
        intro m hm rest
        have hdepth := depth_le_memberDepths hm
        obtain ⟨field, hfield⟩ : ∃ field, HasType field m.2 := by
          obtain ⟨i, hi⟩ := List.mem_iff_getElem?.mp hm
          have hlen : fields.length = members.length := by simpa using congrArg List.length hsame
          have hlt := (List.getElem?_eq_some_iff.mp hi).1
          refine ⟨_, htypes (fields[i], m) (List.mem_iff_getElem?.mpr ⟨i, ?_⟩)⟩
          rw [List.getElem?_zip_eq_some]
          exact ⟨List.getElem?_eq_getElem (by omega), hi⟩
        exact loadEntry_eq (ih m hm hfield (by omega) rest)
      exact loadObject_payload hsize (fun m hm ↦ (hnames m hm).2) hmembers rest

/-! ## Taking the value back -/

private theorem setWidth_extend (type : IntegerType) (value : BitVec (8 * type.size)) :
    (extend type value).setWidth (8 * type.size) = value := by
  have hwidth : 8 * type.size ≤ 64 := by cases type <;> decide
  rw [extend]
  ext i hi
  split
  · rw [BitVec.getElem_setWidth, BitVec.getLsbD_signExtend]
    simp [hi, show i < 64 by omega]
  · rw [BitVec.getElem_setWidth, BitVec.getLsbD_setWidth]
    simp [hi, show i < 64 by omega]

theorem lookup_cons_ite {α : Type} (other name : Bytes) (x : α) (found : List (Bytes × α)) :
    List.lookup other ((name, x) :: found) = if other = name then some x else found.lookup other := by
  rw [List.lookup_cons]
  by_cases h : other = name
  · simp [h]
  · simp [h, beq_eq_false_iff_ne.mpr h]

private theorem lookup_emplace {α : Type} {found : List (Bytes × α)} {name : Bytes}
    (h : found.lookup name = none)
    (x : α) (other : Bytes) :
    (emplace name x found).lookup other = if other = name then some x else found.lookup other := by
  induction found with
  | nil => exact lookup_cons_ite other name x []
  | cons p found ih =>
    obtain ⟨a, y⟩ := p
    rw [lookup_cons_ite] at h
    have hne : name ≠ a := by
      rintro rfl
      rw [if_pos rfl] at h
      cases h
    rw [if_neg hne] at h
    rw [emplace, if_neg hne]
    split_ifs with hlt hother hother
    · rw [lookup_cons_ite, if_pos hother]
    · rw [lookup_cons_ite, if_neg hother]
    · rw [lookup_cons_ite, if_neg (by rwa [hother]), ih h, if_pos hother]
    · rw [lookup_cons_ite, lookup_cons_ite, ih h, if_neg hother]

private theorem lookup_foldl_emplace {α : Type} (entries found : List (Bytes × α))
    (hnodup : (entries.map Prod.fst).Nodup) (hfresh : ∀ e ∈ entries, found.lookup e.1 = none) :
    (∀ e ∈ entries, (entries.foldl (fun found e ↦ emplace e.1 e.2 found) found).lookup e.1 = some e.2) ∧
      ∀ other, other ∉ entries.map Prod.fst →
        (entries.foldl (fun found e ↦ emplace e.1 e.2 found) found).lookup other = found.lookup other := by
  induction entries generalizing found with
  | nil => exact ⟨by simp, fun other _ ↦ rfl⟩
  | cons e entries ih =>
    rw [List.map_cons, List.nodup_cons] at hnodup
    rw [List.forall_mem_cons] at hfresh
    have hput := lookup_emplace hfresh.1 e.2
    have hlater : ∀ e' ∈ entries, e'.1 ≠ e.1 := fun e' he' heq ↦
      hnodup.1 (heq ▸ List.mem_map_of_mem he')
    have hfresh' : ∀ e' ∈ entries, (emplace e.1 e.2 found).lookup e'.1 = none := by
      intro e' he'
      rw [hput, if_neg (hlater e' he')]
      exact hfresh.2 e' he'
    obtain ⟨hfound, hother⟩ := ih _ hnodup.2 hfresh'
    rw [List.foldl_cons]
    refine ⟨List.forall_mem_cons.mpr ⟨?_, hfound⟩, fun other hnot ↦ ?_⟩
    · rw [hother e.1 hnodup.1, hput, if_pos rfl]
    · rw [List.map_cons, List.mem_cons, not_or] at hnot
      rw [hother other hnot.2, hput, if_neg hnot.1]

private theorem readFields_eq {found : List (Bytes × Json)} {fields : List (Bytes × ValueType)}
    {members : List (Bytes × Value)} (hsame : fields.map Prod.fst = members.map Prod.fst)
    (h : ∀ p ∈ fields.zip members, readAs p.1.2 (found.lookup p.2.1) = .ok p.2.2) :
    readFields fields found = .ok members := by
  induction fields generalizing members with
  | nil =>
    rcases members with - | ⟨m, members⟩
    · rfl
    · cases hsame
  | cons field fields ih =>
    rcases members with - | ⟨m, members⟩
    · cases hsame
    · obtain ⟨name, type⟩ := field
      obtain ⟨other, v⟩ := m
      rw [List.map_cons, List.map_cons, List.cons.injEq] at hsame
      obtain rfl : name = other := hsame.1
      rw [List.zip_cons_cons, List.forall_mem_cons] at h
      rw [readFields, h.1, ok_bind, ih hsame.2 h.2]
      rfl

/-- **Taking the value back.** -/
private theorem readAs_json {v : Value} {size name : ℕ → Prop} (hv : v.Within size name) {type : ValueType}
    (htype : HasType type v) : readAs type (some v.json) = .ok v := by
  induction htype with
  | integer integerType value =>
    have hvalue : (Int64.ofBitVec (extend integerType value)).toBitVec.setWidth (8 * integerType.size) =
        value := setWidth_extend integerType value
    rw [Value.json, readAs]
    show Except.ok (Value.integer integerType _) = _
    rw [hvalue]
  | bool value => rfl
  | string value => rfl
  | @array item items h ih =>
    cases hv with
    | array hsize hitems =>
      have hall : (items.map Value.json).mapM (fun j ↦ readAs item (some j)) = .ok items := by
        clear h hsize
        induction items with
        | nil => rfl
        | cons v items ihItems =>
          rw [List.forall_mem_cons] at ih hitems
          rw [List.map_cons, List.mapM_cons, ih.1 hitems.1, ok_bind, ihItems ih.2 hitems.2]
          rfl
      rw [Value.json, readAs, jsons_eq, hall]
      rfl
  | @object fields members hsame h ih =>
    cases hv with
    | object _ hnodup _ hmembers =>
      have hkeys : (memberJsons members).map Prod.fst = members.map Prod.fst := by
        rw [memberJsons_eq, List.map_map]
        rfl
      obtain ⟨hfound, -⟩ := lookup_foldl_emplace (memberJsons members) [] (by rwa [hkeys]) fun e _ ↦ rfl
      have hfields : readFields fields
          ((memberJsons members).foldl (fun found e ↦ emplace e.1 e.2 found) []) = .ok members := by
        refine readFields_eq hsame fun p hp ↦ ?_
        have hmember : p.2 ∈ members := (List.of_mem_zip (show (p.1, p.2) ∈ fields.zip members from hp)).2
        have hentry : (p.2.1, p.2.2.json) ∈ memberJsons members := by
          rw [memberJsons_eq]
          exact List.mem_map_of_mem (f := fun m : Bytes × Value ↦ (m.1, m.2.json)) hmember
        rw [hfound _ hentry]
        exact ih p hp (hmembers _ hmember)
      rw [Value.json, readAs, hfields]
      rfl

/-! ## What the reader looks at -/

theorem exact_readByte : Exact readByte := Reading.exact_byte _

theorem exact_readBytes (n : ℕ) : Exact (readBytes n) := Reading.exact_bytes _ n

private theorem exact_readVarintFrom (left : ℕ) : ∀ value i, Exact (readVarintFrom value i left) := by
  induction left with
  | zero => exact fun value i ↦ .pure _
  | succ left ih =>
    intro value i
    have hshift : ∀ n k, Exact (shiftInt n k) := fun n k ↦ .ite (.pure _) (Reading.exact_fail _)
    exact exact_readByte.bind fun n ↦ (hshift n _).bind fun x ↦ ih _ _

theorem exact_readVarint : Exact readVarint :=
  exact_readByte.bind fun _ ↦ exact_readVarintFrom _ _ _

private theorem exact_readIntegerJson (type : IntegerType) : Exact (readIntegerJson type) :=
  (exact_readBytes _).bind fun _ ↦ .pure _

private theorem exact_load (stack : ℕ) : Exact (loadObject stack) ∧ (∀ type, Exact (loadValue stack type)) ∧
    Exact (loadEntry stack) ∧ (∀ type, Exact (loadArray stack type)) ∧
      ∀ type, Exact (loadItem stack type) := by
  induction stack with
  | zero =>
    have hfail : Exact (Reading.fail .tooDeep : KvReading Json) := Reading.exact_fail _
    exact ⟨hfail, fun _ ↦ hfail, hfail, fun _ ↦ hfail, fun _ ↦ hfail⟩
  | succ stack ih =>
    obtain ⟨hobject, hvalue, hentry, harray, hitem⟩ := ih
    refine ⟨?_, fun type ↦ ?_, ?_, fun type ↦ ?_, fun type ↦ ?_⟩
    · rw [loadObject]
      have hname : Exact readName := exact_readByte.bind fun _ ↦ exact_readBytes _
      have hmember : Exact (do
          let name ← readName
          let value ← loadEntry stack
          return (name, value) : KvReading (Bytes × Json)) := hname.bind fun _ ↦ hentry.bind fun _ ↦ .pure _
      exact exact_readVarint.bind fun count ↦ (Reading.exact_times hmember count).bind fun _ ↦ .pure _
    · rw [loadValue]
      split
      · exact exact_readIntegerJson _
      · have hstring : Exact readString := exact_readVarint.bind fun _ ↦ exact_readBytes _
        refine .ite ((exact_readBytes 8).bind fun _ ↦ .pure _) ?_
        refine .ite (exact_readByte.bind fun _ ↦ .pure _) ?_
        refine .ite (hstring.bind fun _ ↦ .pure _) ?_
        exact .ite hobject (.ite (harray _) (Reading.exact_fail _))
    · rw [loadEntry]
      exact exact_readByte.bind fun _ ↦ .ite (harray _) (hvalue _)
    · rw [loadArray]
      exact exact_readVarint.bind fun count ↦ (Reading.exact_times (hitem type) count).bind fun _ ↦ .pure _
    · rw [loadItem]
      refine .ite (exact_readByte.bind fun _ ↦ ?_) (hvalue type)
      exact (Reading.exact_demand _ _).bind fun _ ↦ harray _

private theorem exact_parseBinary (stack : ℕ) : Exact (parseBinary stack) := by
  refine (exact_readBytes 4).bind fun _ ↦ (exact_readBytes 4).bind fun _ ↦ exact_readByte.bind fun _ ↦ ?_
  exact (Reading.exact_demand _ _).bind fun _ ↦ (Reading.exact_demand _ _).bind fun _ ↦ (exact_load stack).1

/-! ## There and back -/

private theorem parseBinary_header (stack : ℕ) (s : Bytes) :
    parseBinary stack (OutputStream.new.target ++ s) = loadObject stack s := by
  have hheader : OutputStream.new.target = [1, 17, 1, 1] ++ ([1, 1, 2, 1] ++ [1]) := by decide
  have hfirst : readBytes 4 ([1, 17, 1, 1] ++ ([1, 1, 2, 1] ++ 1 :: s)) =
      .ok ([1, 17, 1, 1], [1, 1, 2, 1] ++ 1 :: s) := Reading.bytes_append (l := [1, 17, 1, 1]) _ rfl _
  have hsecond : readBytes 4 ([1, 1, 2, 1] ++ 1 :: s) = .ok ([1, 1, 2, 1], 1 :: s) :=
    Reading.bytes_append (l := [1, 1, 2, 1]) _ rfl _
  rw [hheader, List.append_assoc, List.append_assoc, List.singleton_append, parseBinary, reading_bind hfirst,
    reading_bind hsecond, reading_bind (readByte_cons _ _), Reading.demand_pos (by decide),
    Reading.demand_pos rfl]
  rfl

private theorem parseBinary_payload {members : List (Bytes × Value)} (hv : (Value.object members).Short)
    {type : ValueType} (htype : HasType type (.object members)) {stack : ℕ}
    (hstack : 4 * ((Value.object members).depth + 1) ≤ stack) (rest : Bytes) :
    parseBinary stack (OutputStream.new.target ++ ((Value.object members).payload ++ rest)) =
      .ok ((Value.object members).json, rest) := by
  rw [parseBinary_header]
  have hdeep : 4 * ((Value.object members).depth + 1) ≤ stack + 2 := by omega
  have hload := loadItem_payload hv htype hdeep rest
  exact hload

/-- **Key-value binary, there and back.** A size is read as it was written exactly when it is below `2 ^ 29`.
A value whose sizes are below `2 ^ 29`, and of whose members none has an empty name, comes back from what is
written for it, and from nothing that is cut off. No text is read beyond the bytes that are taken. -/
theorem fromBinaryKeyValue_toBinaryKeyValue (val : ℕ) :
    (val < 2 ^ 62 → ∃ bytes, writeArraySize val = .ok bytes ∧
      ∀ rest, readVarint (bytes ++ rest) = .ok (val, rest) ↔ val < 2 ^ 29) ∧
    (∀ type members, HasType type (.object members) → (Value.object members).Short →
      ∀ stack, 4 * ((Value.object members).depth + 1) ≤ stack →
        ∃ buf, toBinaryKeyValue (.object members) = .ok buf ∧
          fromBinaryKeyValue stack type buf = .ok (.object members) ∧
          ∀ p q, buf = p ++ q → q ≠ [] → ∀ v, fromBinaryKeyValue stack type p ≠ .ok v) ∧
    ∀ stack s json rest, parseBinary stack s = .ok (json, rest) →
      ∃ used, s = used ++ rest ∧ ∀ rest', parseBinary stack (used ++ rest') = .ok (json, rest') := by
  refine ⟨?_, ?_, exact_parseBinary⟩
  · intro hval
    exact ⟨sizeBytes val, writeArraySize_eq hval, readVarint_sizeBytes_iff hval⟩
  · intro type members htype hv stack hstack
    have hparse := parseBinary_payload hv htype hstack []
    rw [List.append_nil] at hparse
    refine ⟨_, toBinaryKeyValue_eq hv.writable, ?_, ?_⟩
    · rw [fromBinaryKeyValue, hparse, ok_bind]
      simp only [readAs_json hv htype]
      rfl
    · intro p q hbuf hq v hcut
      rw [fromBinaryKeyValue] at hcut
      obtain ⟨⟨json, rest⟩, hload, -⟩ := bind_eq_ok.mp hcut
      rw [hbuf] at hparse
      exact (exact_parseBinary stack).refuses hparse hq json rest hload

/-! ## Samples -/

/-- An object with an array of arrays and an array of objects. -/
def sampleMembers : List (Bytes × Value) :=
  [([0x61], .array [.array [.integer .uint16 7, .integer .uint16 300], .array []]),
    ([0x62], .array [.object [([0x63], .bool true)], .object [([0x63], .bool false)]]),
    ([0x64], .integer .uint64 (BitVec.ofNat 64 (2 ^ 63))), ([0x65], .string [1, 2, 3])]

def sampleType : ValueType :=
  .object [([0x61], .array (.array (.integer .uint16))), ([0x62], .array (.object [([0x63], .bool)])),
    ([0x64], .integer .uint64), ([0x65], .string)]

theorem fromBinaryKeyValue_toBinaryKeyValue_sample :
    (∃ bytes, writeArraySize 70 = .ok bytes ∧
      ∀ rest, readVarint (bytes ++ rest) = .ok (70, rest) ↔ 70 < 2 ^ 29) ∧
    ∃ buf, toBinaryKeyValue (.object sampleMembers) = .ok buf ∧
      fromBinaryKeyValue 16 sampleType buf = .ok (.object sampleMembers) ∧
      ∀ p q, buf = p ++ q → q ≠ [] → ∀ v, fromBinaryKeyValue 16 sampleType p ≠ .ok v := by
  refine ⟨(fromBinaryKeyValue_toBinaryKeyValue 70).1 (by decide),
    (fromBinaryKeyValue_toBinaryKeyValue 70).2.1 sampleType sampleMembers ?_ ?_ 16 (by decide)⟩
  · refine .object rfl fun p hp ↦ ?_
    simp only [sampleMembers, List.zip_cons_cons, List.zip_nil_right, List.mem_cons, List.not_mem_nil,
      or_false] at hp
    rcases hp with rfl | rfl | rfl | rfl
    · refine .array fun v hv ↦ ?_
      rcases List.mem_pair.mp hv with rfl | rfl
      · refine .array fun v hv ↦ ?_
        rcases List.mem_pair.mp hv with rfl | rfl <;> exact .integer _ _
      · exact .array (by simp)
    · refine .array fun v hv ↦ ?_
      rcases List.mem_pair.mp hv with rfl | rfl <;> refine .object rfl fun p hp ↦ ?_ <;>
        obtain rfl := List.mem_singleton.mp hp <;> exact .bool _
    · exact .integer _ _
    · exact .string _
  · refine .object (by decide) (by decide) (by decide) fun m hm ↦ ?_
    simp only [sampleMembers, List.mem_cons, List.not_mem_nil, or_false] at hm
    rcases hm with rfl | rfl | rfl | rfl
    · refine .array (by decide) fun v hv ↦ ?_
      rcases List.mem_pair.mp hv with rfl | rfl
      · refine .array (by decide) fun v hv ↦ ?_
        rcases List.mem_pair.mp hv with rfl | rfl <;> exact .integer _ _
      · exact .array (by decide) (by simp)
    · refine .array (by decide) fun v hv ↦ ?_
      rcases List.mem_pair.mp hv with rfl | rfl <;>
        refine .object (by decide) (by decide) (by decide) fun m hm ↦ ?_ <;>
        obtain rfl := List.mem_singleton.mp hm <;> exact .bool _
    · exact .integer _ _
    · exact .string (by decide)

/-- A member with an empty name is written without name and type, and cannot be read. A size of `2 ^ 29`
is read as another one. -/
theorem fromBinaryKeyValue_not :
    (∃ buf, toBinaryKeyValue (.object [([], .bool true)]) = .ok buf ∧
      fromBinaryKeyValue 12 (.object [([], .bool)]) buf = .error .emptyStream) ∧
    ∃ bytes size, writeArraySize (2 ^ 29) = .ok bytes ∧ readVarint bytes = .ok (size, []) ∧
      size ≠ 2 ^ 29 := ⟨⟨_, rfl, rfl⟩, ⟨_, _, rfl, rfl, by decide⟩⟩

end KvBinary

end CryoNero
