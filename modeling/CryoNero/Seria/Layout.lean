import CryoNero.Seria.Containers

/-!
# Values as they lie in memory

A standard-layout type occupies a fixed number of bytes, and its bytes determine the value. A vector
of such values is one block of memory, the values one after the other, and can be sent as it is.

Packed structures are built from their fields by `Layout.pair` and `Layout.record`; nothing is put
between two fields.
-/

namespace Seria

/-- The bytes of a value of a fixed-width type. -/
structure Layout (α : Type) where
  size : ℕ
  toBytes : α → Bytes
  ofBytes : Bytes → α
  size_pos : 0 < size
  length_toBytes : ∀ x, (toBytes x).length = size
  ofBytes_toBytes : ∀ x, ofBytes (toBytes x) = x

namespace Layout

variable {α β : Type}

/-- Two fields, the second right after the first. -/
def pair (k : Layout α) (l : Layout β) : Layout (α × β) where
  size := k.size + l.size
  toBytes x := k.toBytes x.1 ++ l.toBytes x.2
  ofBytes s := (k.ofBytes (s.take k.size), l.ofBytes (s.drop k.size))
  size_pos := Nat.add_pos_left k.size_pos _
  length_toBytes x := by rw [List.length_append, k.length_toBytes, l.length_toBytes]
  ofBytes_toBytes x := by
    rw [List.take_left' (k.length_toBytes _), List.drop_left' (k.length_toBytes _),
      k.ofBytes_toBytes, l.ofBytes_toBytes]

/-- A structure that is laid out as its fields are. -/
def record (l : Layout α) (mk : α → β) (fields : β → α) (h : ∀ y, mk (fields y) = y) :
    Layout β where
  size := l.size
  toBytes y := l.toBytes (fields y)
  ofBytes s := mk (l.ofBytes s)
  size_pos := l.size_pos
  length_toBytes y := l.length_toBytes _
  ofBytes_toBytes y := by rw [l.ofBytes_toBytes, h]

/-- A blob of `w` bits. -/
def bits (w : ℕ) (hw : w % 8 = 0) (hpos : 0 < w) : Layout (BitVec w) where
  size := w / 8
  toBytes := blobBytes w
  ofBytes := blobOfBytes w
  size_pos := by omega
  length_toBytes := length_blobBytes w
  ofBytes_toBytes := blobOfBytes_blobBytes hw

/-- An unsigned integer of `n` bytes, lowest byte first. -/
def unsigned (n : ℕ) (hpos : 0 < n) : Layout (Fin (256 ^ n)) where
  size := n
  toBytes x := (beBytes n x).reverse
  ofBytes s := ⟨beNat s.reverse % 256 ^ n, Nat.mod_lt _ (by positivity)⟩
  size_pos := hpos
  length_toBytes x := by rw [List.length_reverse, length_beBytes]
  ofBytes_toBytes x := by
    apply Fin.ext
    show beNat (beBytes n x).reverse.reverse % 256 ^ n = x
    rw [List.reverse_reverse, beNat_beBytes, Nat.mod_mod, Nat.mod_eq_of_lt x.isLt]

def uint32 : Layout UInt32 :=
  (unsigned 4 (by omega)).record (fun n ↦ UInt32.ofNat n) (fun x ↦ ⟨x.toNat, x.toNat_lt⟩) fun x ↦
    UInt32.ofNat_toNat

def uint64 : Layout UInt64 :=
  (unsigned 8 (by omega)).record (fun n ↦ UInt64.ofNat n) (fun x ↦ ⟨x.toNat, x.toNat_lt⟩) fun x ↦
    UInt64.ofNat_toNat

/-! ## Blocks of values -/

/-- The memory of a vector. -/
def pack (l : Layout α) (v : List α) : Bytes := v.flatMap l.toBytes

/-- The first `n` values in a block of memory. -/
def unpack (l : Layout α) : ℕ → Bytes → List α
  | 0, _ => []
  | n + 1, s => l.ofBytes (s.take l.size) :: l.unpack n (s.drop l.size)

@[simp] theorem pack_nil (l : Layout α) : l.pack [] = [] := rfl

private theorem pack_cons (l : Layout α) (x : α) (v : List α) :
    l.pack (x :: v) = l.toBytes x ++ l.pack v := List.flatMap_cons

theorem length_pack (l : Layout α) (v : List α) : (l.pack v).length = v.length * l.size := by
  induction v with
  | nil => simp
  | cons x v ih =>
    rw [pack_cons, List.length_append, l.length_toBytes, ih, List.length_cons, Nat.succ_mul]
    omega

@[simp] theorem length_unpack (l : Layout α) (n : ℕ) (s : Bytes) :
    (l.unpack n s).length = n := by
  induction n generalizing s with
  | zero => rfl
  | succ n ih => rw [unpack, List.length_cons, ih]

theorem unpack_pack (l : Layout α) (v : List α) : l.unpack v.length (l.pack v) = v := by
  induction v with
  | nil => rfl
  | cons x v ih =>
    rw [List.length_cons, unpack, pack_cons, List.take_left' (l.length_toBytes x),
      List.drop_left' (l.length_toBytes x), l.ofBytes_toBytes, ih]

theorem length_pack_div (l : Layout α) (v : List α) : (l.pack v).length / l.size = v.length := by
  rw [length_pack, Nat.mul_div_cancel _ l.size_pos]

end Layout

end Seria
