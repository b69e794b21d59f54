import CryoNero.Seria.Stream

/-!
# Blobs, byte arrays and vectors

A blob has a fixed width and no length in front of it. A byte array and a vector start with their
length as a varint. The items of a vector are read into the objects that are already there: the
vector is first resized, which keeps the items it has.

An object that is read only to the middle keeps the bytes that were there to read; bytes of freshly
allocated memory that no read has reached are taken to be zero.
-/

namespace Seria

variable {σ α : Type}

namespace Reader

/-- Read a new object, which starts as `d`, and assign `f` of it once it has been read. -/
def fresh (d : α) (f : α → σ) (r : Reader α) : Reader σ := fun v s ↦
  match r d s with
  | (x, some t) => (f x, some t)
  | (_, none) => (v, none)

theorem fresh_eq_some {d : α} {f : α → σ} {r : Reader α} {v v' : σ} {s t : Bytes} :
    fresh d f r v s = (v', some t) ↔ ∃ x, r d s = (x, some t) ∧ v' = f x := by
  unfold fresh
  rcases h : r d s with ⟨x, _ | t'⟩
  · simp
  · constructor
    · intro h'
      obtain ⟨rfl, h₂⟩ := Prod.mk.inj h'
      exact ⟨x, by rw [Option.some.inj h₂], rfl⟩
    · rintro ⟨x', hx, rfl⟩
      obtain ⟨rfl, h₂⟩ := Prod.mk.inj hx
      rw [Option.some.inj h₂]

end Reader

/-- Read with `r` the whole of a byte array: `from_binary` throws when bytes are left over. -/
def fromBinary (r : Reader σ) (v : σ) (s : Bytes) : σ × Bool :=
  match r v s with
  | (x, some []) => (x, true)
  | (x, _) => (x, false)

theorem fromBinary_eq_true {r : Reader σ} {v x : σ} {s : Bytes} :
    fromBinary r v s = (x, true) ↔ r v s = (x, some []) := by
  unfold fromBinary
  rcases r v s with ⟨y, _ | (_ | ⟨b, t⟩)⟩ <;> simp

theorem fromBinary_fst (r : Reader σ) (v : σ) (s : Bytes) :
    (fromBinary r v s).1 = (r v s).1 := by
  unfold fromBinary
  rcases r v s with ⟨y, _ | (_ | ⟨b, t⟩)⟩ <;> rfl

/-! ## Blobs -/

/-- The `n` low bytes of a number, highest first. -/
def beBytes : ℕ → ℕ → Bytes
  | 0, _ => []
  | n + 1, x => beBytes n (x / 256) ++ [UInt8.ofNat (x % 256)]

/-- The number with the given bytes, highest first. -/
def beNat (l : Bytes) : ℕ := l.foldl (fun a b ↦ a * 256 + b.toNat) 0

@[simp] theorem length_beBytes (n x : ℕ) : (beBytes n x).length = n := by
  induction n generalizing x with
  | zero => rfl
  | succ n ih => simp [beBytes, ih]

theorem beNat_append_singleton (l : Bytes) (b : UInt8) :
    beNat (l ++ [b]) = beNat l * 256 + b.toNat := by
  simp [beNat, List.foldl_append]

theorem beNat_append (l m : Bytes) : beNat (l ++ m) = beNat l * 256 ^ m.length + beNat m := by
  induction m using List.reverseRecOn with
  | nil => simp [beNat]
  | append_singleton m b ih =>
    rw [← List.append_assoc, beNat_append_singleton, ih, beNat_append_singleton, List.length_append,
      List.length_singleton, pow_succ]
    ring

theorem beNat_lt (l : Bytes) : beNat l < 256 ^ l.length := by
  induction l using List.reverseRecOn with
  | nil => simp [beNat]
  | append_singleton l b ih =>
    rw [beNat_append_singleton, List.length_append, List.length_singleton, pow_succ]
    have hb : b.toNat < 256 := b.toNat_lt
    omega

theorem beNat_beBytes (n x : ℕ) : beNat (beBytes n x) = x % 256 ^ n := by
  induction n generalizing x with
  | zero => simp [beBytes, beNat, Nat.mod_one]
  | succ n ih =>
    have hb : (UInt8.ofNat (x % 256)).toNat = x % 256 := toNat_ofNat_uint8 (by omega)
    rw [beBytes, beNat_append_singleton, ih, hb, pow_succ', Nat.mod_mul]
    ring

theorem beBytes_beNat (l : Bytes) : beBytes l.length (beNat l) = l := by
  induction l using List.reverseRecOn with
  | nil => rfl
  | append_singleton l b ih =>
    have hb : b.toNat < 256 := b.toNat_lt
    have hdiv : (beNat l * 256 + b.toNat) / 256 = beNat l := by omega
    have hmod : (beNat l * 256 + b.toNat) % 256 = b.toNat := by omega
    rw [beNat_append_singleton, List.length_append, List.length_singleton, beBytes, hdiv, hmod, ih]
    simp

/-- A fixed number of bytes, copied over the object. When the stream is too short, the bytes that
it has are copied and the read throws. -/
def readBlob (n : ℕ) (toBytes : α → Bytes) (ofBytes : Bytes → α) : Reader α := fun v s ↦
  if n ≤ s.length then (ofBytes (s.take n), some (s.drop n))
  else (ofBytes (s ++ (toBytes v).drop s.length), none)

section Blob

variable {n : ℕ} {toBytes : α → Bytes} {ofBytes : Bytes → α}

private theorem canonical_readBlob (hto : ∀ l : Bytes, l.length = n → toBytes (ofBytes l) = l) :
    Canonical (readBlob n toBytes ofBytes) toBytes := by
  intro v s x rest h
  unfold readBlob at h
  split_ifs at h with hn
  · obtain ⟨rfl, h₂⟩ := Prod.mk.inj h
    obtain rfl := Option.some.inj h₂
    rw [hto _ (by rw [List.length_take, Nat.min_eq_left hn]), List.take_append_drop]
  · simp at h

end Blob

/-- A blob of `w` bits, its highest byte first. -/
def blobBytes (w : ℕ) (x : BitVec w) : Bytes := beBytes (w / 8) x.toNat

def blobOfBytes (w : ℕ) (l : Bytes) : BitVec w := BitVec.ofNat w (beNat l)

/-- The reader of a blob of `w` bits. -/
def readBits (w : ℕ) : Reader (BitVec w) := readBlob (w / 8) (blobBytes w) (blobOfBytes w)

theorem canonical_readBits {w : ℕ} (hw : w % 8 = 0) : Canonical (readBits w) (blobBytes w) := by
  refine canonical_readBlob fun l hl ↦ ?_
  have hlt : beNat l < 2 ^ w := by
    have h256 : 256 ^ l.length = 2 ^ w := by
      rw [hl, show 256 = 2 ^ 8 from rfl, ← pow_mul]
      congr 1
      omega
    exact h256 ▸ beNat_lt l
  rw [blobBytes, blobOfBytes, BitVec.toNat_ofNat, Nat.mod_eq_of_lt hlt, ← hl, beBytes_beNat]

@[simp] theorem length_blobBytes (w : ℕ) (x : BitVec w) : (blobBytes w x).length = w / 8 :=
  length_beBytes _ _

theorem blobOfBytes_blobBytes {w : ℕ} (hw : w % 8 = 0) (x : BitVec w) :
    blobOfBytes w (blobBytes w x) = x := by
  have h256 : 256 ^ (w / 8) = 2 ^ w := by
    rw [show 256 = 2 ^ 8 from rfl, ← pow_mul]
    congr 1
    omega
  rw [blobOfBytes, blobBytes, beNat_beBytes, h256, Nat.mod_eq_of_lt x.isLt, BitVec.ofNat_toNat,
    BitVec.setWidth_eq]

/-- A 32-bit integer as it lies in memory, lowest byte first. -/
def rawBytes32 (x : UInt32) : Bytes := (beBytes 4 x.toNat).reverse

def rawOfBytes32 (l : Bytes) : UInt32 := UInt32.ofNat (beNat l.reverse)

def readRaw32 : Reader UInt32 := readBlob 4 rawBytes32 rawOfBytes32

theorem canonical_readRaw32 : Canonical readRaw32 rawBytes32 := by
  refine canonical_readBlob fun l hl ↦ ?_
  have hlen : l.reverse.length = 4 := by rw [List.length_reverse, hl]
  have hlt : beNat l.reverse < 2 ^ 32 := by
    have h := beNat_lt l.reverse
    rwa [hlen] at h
  have hnat : (UInt32.ofNat (beNat l.reverse)).toNat = beNat l.reverse :=
    UInt32.toNat_ofNat_of_lt hlt
  have h := beBytes_beNat l.reverse
  rw [hlen] at h
  rw [rawBytes32, rawOfBytes32, hnat, h, List.reverse_reverse]

/-! ## Byte arrays -/

/-- Byte arrays are read in chunks, so that a forged length does not allocate more than a chunk. -/
def chunk : ℕ := 1024 * 1024

/-- The reader of a byte array: its length, then its bytes. When the stream ends in the middle of a
chunk, the array has been grown to hold that chunk. -/
def readBytes : Reader Bytes := fun v s ↦
  match readVarint 64 s with
  | none => (v, none)
  | some (size, t) =>
    if size ≤ t.length then (t.take size, some (t.drop size))
    else
      let grown := min size ((t.length / chunk + 1) * chunk)
      (t ++ List.replicate (grown - t.length) 0, none)

def writeBytes (x : Bytes) : Bytes := writeVarint x.length ++ x

theorem canonical_readBytes : Canonical readBytes writeBytes := by
  intro v s x rest h
  unfold readBytes at h
  rcases hv : readVarint 64 s with _ | ⟨size, t⟩
  · simp [hv] at h
  · simp only [hv] at h
    split_ifs at h with hle
    · obtain ⟨rfl, h₂⟩ := Prod.mk.inj h
      obtain rfl := Option.some.inj h₂
      obtain ⟨hs, -⟩ := eq_writeVarint_of_readVarint (le_refl 64) (by omega) hv
      rw [writeBytes, List.length_take, Nat.min_eq_left hle, List.append_assoc,
        List.take_append_drop]
      exact hs
    · simp at h

theorem reads_readBytes (v : Bytes) {x : Bytes} (hx : x.length < 2 ^ 64) :
    Reads readBytes writeBytes v x := by
  intro rest
  have hsize : readVarint 64 (writeVarint x.length ++ (x ++ rest)) = some (x.length, x ++ rest) :=
    readVarint_writeVarint (le_refl 64) hx (x ++ rest)
  unfold readBytes writeBytes
  rw [List.append_assoc, hsize]
  simp

/-! ## Vectors -/

/-- `std::vector::resize`: the items there are stay, new ones are `d`. -/
def resize (d : α) (v : List α) (n : ℕ) : List α := v.take n ++ List.replicate (n - v.length) d

@[simp] theorem length_resize (d : α) (v : List α) (n : ℕ) : (resize d v n).length = n := by
  simp only [resize, List.length_append, List.length_take, List.length_replicate]
  omega

/-- Read every item of a vector in place. -/
def readItems (r : Reader α) : Reader (List α)
  | [], s => ([], some s)
  | x :: xs, s =>
    match r x s with
    | (y, none) => (y :: xs, none)
    | (y, some t) =>
      let p := readItems r xs t
      (y :: p.1, p.2)

/-- The items of a vector, one after the other. -/
def writeItems (w : α → Bytes) (l : List α) : Bytes := l.flatMap w

theorem readItems_cons_eq_some {r : Reader α} {x : α} {xs ys : List α} {s rest : Bytes} :
    readItems r (x :: xs) s = (ys, some rest) ↔
      ∃ y t zs, r x s = (y, some t) ∧ readItems r xs t = (zs, some rest) ∧ ys = y :: zs := by
  rw [readItems]
  rcases h : r x s with ⟨y, _ | t⟩
  · simp
  · constructor
    · intro h'
      obtain ⟨h₁, h₂⟩ := Prod.mk.inj h'
      exact ⟨y, t, (readItems r xs t).1, rfl, by rw [← h₂], h₁.symm⟩
    · rintro ⟨y', t', zs, hy, hzs, rfl⟩
      obtain ⟨rfl, h₂⟩ := Prod.mk.inj hy
      obtain rfl := Option.some.inj h₂
      simp only [hzs]

theorem length_of_readItems {r : Reader α} : ∀ {xs ys : List α} {s rest : Bytes},
    readItems r xs s = (ys, some rest) → ys.length = xs.length := by
  intro xs
  induction xs with
  | nil =>
    intro ys s rest h
    rw [← (Prod.mk.inj h).1]
  | cons x xs ih =>
    intro ys s rest h
    obtain ⟨y, t, zs, -, hzs, rfl⟩ := readItems_cons_eq_some.mp h
    simp [ih hzs]

theorem canonical_readItems {r : Reader α} {w : α → Bytes} (hr : Canonical r w) :
    Canonical (readItems r) (writeItems w) := by
  intro xs
  induction xs with
  | nil =>
    intro s ys rest h
    obtain ⟨h₁, h₂⟩ := Prod.mk.inj h
    rw [← h₁, ← Option.some.inj h₂]
    rfl
  | cons x xs ih =>
    intro s ys rest h
    obtain ⟨y, t, zs, hy, hzs, rfl⟩ := readItems_cons_eq_some.mp h
    have hs := hr x s y t hy
    have ht := ih t zs rest hzs
    calc s = w y ++ t := hs
      _ = w y ++ (writeItems w zs ++ rest) := by rw [← ht]
      _ = writeItems w (y :: zs) ++ rest := by simp [writeItems]

theorem readItems_writeItems {r : Reader α} {w : α → Bytes} : ∀ (xs ys : List α) (rest : Bytes),
    xs.length = ys.length → (∀ v, ∀ y ∈ ys, Reads r w v y) →
    readItems r xs (writeItems w ys ++ rest) = (ys, some rest) := by
  intro xs
  induction xs with
  | nil =>
    intro ys rest hlen _
    rw [List.eq_nil_of_length_eq_zero hlen.symm]
    rfl
  | cons x xs ih =>
    rintro (_ | ⟨y, ys⟩) rest hlen h
    · simp at hlen
    · have hy : r x (writeItems w (y :: ys) ++ rest) = (y, some (writeItems w ys ++ rest)) := by
        have := h x y (by simp) (writeItems w ys ++ rest)
        simpa [writeItems] using this
      have hys := ih ys rest (by simpa using hlen) fun v z hz ↦ h v z (by simp [hz])
      exact readItems_cons_eq_some.mpr ⟨y, _, ys, hy, hys, rfl⟩

/-- The reader of a vector of items that start as `d`. `resize` throws for a length beyond the
largest that a vector of this type can have. -/
def readVector (max : ℕ) (d : α) (r : Reader α) : Reader (List α) := fun v s ↦
  match readVarint 64 s with
  | none => (v, none)
  | some (size, t) => if max < size then (v, none) else readItems r (resize d v size) t

def writeVector (w : α → Bytes) (l : List α) : Bytes := writeVarint l.length ++ writeItems w l

private theorem readVector_eq_some {max : ℕ} {d : α} {r : Reader α} {v ys : List α} {s rest : Bytes} :
    readVector max d r v s = (ys, some rest) ↔ ∃ size t, readVarint 64 s = some (size, t) ∧
      size ≤ max ∧ readItems r (resize d v size) t = (ys, some rest) := by
  unfold readVector
  rcases h : readVarint 64 s with _ | ⟨size, t⟩
  · simp
  · dsimp only
    split_ifs with hmax
    · constructor
      · intro h'
        simp at h'
      · rintro ⟨size', t', ht, hle, -⟩
        obtain ⟨rfl, rfl⟩ := Prod.mk.inj (Option.some.inj ht)
        omega
    · constructor
      · intro h'
        exact ⟨size, t, rfl, by omega, h'⟩
      · rintro ⟨size', t', ht, -, h'⟩
        obtain ⟨rfl, rfl⟩ := Prod.mk.inj (Option.some.inj ht)
        exact h'

theorem canonical_readVector {max : ℕ} {d : α} {r : Reader α} {w : α → Bytes}
    (hr : Canonical r w) : Canonical (readVector max d r) (writeVector w) := by
  intro v s ys rest h
  obtain ⟨size, t, hv, -, hitems⟩ := readVector_eq_some.mp h
  obtain ⟨hs, -⟩ := eq_writeVarint_of_readVarint (le_refl 64) (by omega) hv
  have ht := canonical_readItems hr _ _ _ _ hitems
  have hlen : ys.length = size := by rw [length_of_readItems hitems, length_resize]
  rw [writeVector, hlen, List.append_assoc, ← ht]
  exact hs

theorem reads_readVector (max : ℕ) {d : α} {r : Reader α} {w : α → Bytes} (v : List α)
    {l : List α} (hmax : l.length ≤ max) (hlen : l.length < 2 ^ 64)
    (hr : ∀ v, ∀ y ∈ l, Reads r w v y) : Reads (readVector max d r) (writeVector w) v l := by
  intro rest
  have hsize : readVarint 64 (writeVarint l.length ++ (writeItems w l ++ rest)) =
      some (l.length, writeItems w l ++ rest) := readVarint_writeVarint (le_refl 64) hlen _
  refine readVector_eq_some.mpr ⟨l.length, writeItems w l ++ rest, ?_, hmax, ?_⟩
  · rw [writeVector, List.append_assoc]
    exact hsize
  · exact readItems_writeItems _ _ _ (by rw [length_resize]) hr

end Seria
