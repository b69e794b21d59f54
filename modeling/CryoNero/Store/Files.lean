import CryoNero.Seria.Containers

/-!
# Files that are written in place

A file is a list of bytes with a position. A process that stops while it writes leaves the file as
it is after some of the bytes it meant to write, in the order in which it meant to write them, so a
stream also keeps its journal: every byte it has written, with the place it went to. `replay` writes
a journal to a file again, and the file after a stop is the replay of a part of the journal.

Numbers lie in such files lowest byte first. Where one number is overwritten with another, a stop
leaves the low bytes of the new one below the high bytes of the old one. That number is `splice`,
and it can be smaller than both.
-/

namespace Store

open Seria

/-! ## Numbers, lowest byte first -/

/-- The `n` lowest bytes of a number, lowest first. -/
def leBytes (n x : ℕ) : Bytes := (beBytes n x).reverse

/-- The number with the given bytes, lowest first. -/
def leNat (l : Bytes) : ℕ := beNat l.reverse

@[simp] theorem length_leBytes (n x : ℕ) : (leBytes n x).length = n := by simp [leBytes]

theorem leNat_lt (l : Bytes) : leNat l < 256 ^ l.length := by
  have h := beNat_lt l.reverse
  rwa [List.length_reverse] at h

theorem leNat_leBytes {n x : ℕ} (h : x < 256 ^ n) : leNat (leBytes n x) = x := by
  rw [leNat, leBytes, List.reverse_reverse, beNat_beBytes, Nat.mod_eq_of_lt h]

theorem leNat_cons (b : UInt8) (l : Bytes) : leNat (b :: l) = b.toNat + 256 * leNat l := by
  rw [leNat, List.reverse_cons, beNat_append_singleton, leNat]
  omega

theorem leNat_append (l l' : Bytes) : leNat (l ++ l') = leNat l + 256 ^ l.length * leNat l' := by
  induction l with
  | nil => simp [leNat, beNat]
  | cons b l ih =>
    rw [List.cons_append, leNat_cons, leNat_cons, ih, List.length_cons, pow_succ]
    ring

private theorem leNat_take {l : Bytes} {j : ℕ} (h : j ≤ l.length) :
    leNat (l.take j) = leNat l % 256 ^ j := by
  have hlen : (l.take j).length = j := by rw [List.length_take, Nat.min_eq_left h]
  have hlt := leNat_lt (l.take j)
  have happ := leNat_append (l.take j) (l.drop j)
  rw [List.take_append_drop, hlen] at happ
  rw [hlen] at hlt
  rw [happ, Nat.add_mul_mod_self_left, Nat.mod_eq_of_lt hlt]

private theorem leNat_drop {l : Bytes} {j : ℕ} (h : j ≤ l.length) :
    leNat (l.drop j) = leNat l / 256 ^ j := by
  have hlen : (l.take j).length = j := by rw [List.length_take, Nat.min_eq_left h]
  have hlt := leNat_lt (l.take j)
  have happ := leNat_append (l.take j) (l.drop j)
  rw [List.take_append_drop, hlen] at happ
  rw [hlen] at hlt
  rw [happ, Nat.add_mul_div_left _ _ (by positivity), Nat.div_eq_of_lt hlt, Nat.zero_add]

/-- The number whose `j` lowest bytes are those of `new` and whose other bytes are those of `old`. -/
def splice (j new old : ℕ) : ℕ := new % 256 ^ j + 256 ^ j * (old / 256 ^ j)

private theorem leNat_take_append_drop {l l' : Bytes} {j : ℕ} (h : j ≤ l.length) (h' : j ≤ l'.length) :
    leNat (l.take j ++ l'.drop j) = splice j (leNat l) (leNat l') := by
  rw [leNat_append, leNat_take h, leNat_drop h', List.length_take, Nat.min_eq_left h, splice]

@[simp] theorem splice_self (j x : ℕ) : splice j x x = x := Nat.mod_add_div x (256 ^ j)

theorem splice_le {j new old : ℕ} (h : old ≤ new) : splice j new old ≤ new := by
  have hdiv : old / 256 ^ j ≤ new / 256 ^ j := Nat.div_le_div_right h
  calc splice j new old ≤ new % 256 ^ j + 256 ^ j * (new / 256 ^ j) :=
        Nat.add_le_add_left (Nat.mul_le_mul_left _ hdiv) _
    _ = new := Nat.mod_add_div new (256 ^ j)

/-- The bytes of `old`, of which the first `j` are overwritten with those of `new`. -/
def overlay (j : ℕ) (new old : Bytes) : Bytes := new.take j ++ old.drop j

theorem length_overlay {j : ℕ} {new old : Bytes} (h : new.length = old.length) :
    (overlay j new old).length = old.length := by
  rw [overlay, List.length_append, List.length_take, List.length_drop]
  omega

private theorem overlay_min {j n : ℕ} {new old : Bytes} (hnew : new.length = n) (hold : old.length = n) :
    overlay j new old = overlay (min j n) new old := by
  rcases Nat.le_total j n with hj | hj
  · rw [Nat.min_eq_left hj]
  · rw [Nat.min_eq_right hj, overlay, overlay, List.take_of_length_le (by omega),
      List.take_of_length_le (by omega), List.drop_eq_nil_of_le (by omega),
      List.drop_eq_nil_of_le (by omega)]

/-- The number read from a counter that is partly overwritten. -/
theorem leNat_overlay {n : ℕ} (j x : ℕ) {old : Bytes} (h : old.length = n) :
    leNat (overlay j (leBytes n x) old) = splice (min j n) x (leNat old) := by
  have hdvd : 256 ^ min j n ∣ 256 ^ n := Nat.pow_dvd_pow 256 (Nat.min_le_right j n)
  have hj : min j n ≤ (leBytes n x).length := by
    rw [length_leBytes]
    exact Nat.min_le_right j n
  rw [overlay_min (length_leBytes n x) h, overlay,
    leNat_take_append_drop hj (h ▸ Nat.min_le_right j n), splice, splice, leNat, leBytes,
    List.reverse_reverse, beNat_beBytes, Nat.mod_mod_of_dvd _ hdvd]

/-! ## Writing in place -/

/-- Put a byte at a position of a file. Past the end, the file is filled up with zeros. -/
def putByte (content : Bytes) (p : ℕ) (b : UInt8) : Bytes :=
  if p < content.length then content.set p b
  else content ++ List.replicate (p - content.length) 0 ++ [b]

/-- Write a journal to a file. -/
def replay (content : Bytes) (journal : List (ℕ × UInt8)) : Bytes :=
  journal.foldl (fun c w ↦ putByte c w.1 w.2) content

/-- The journal of writing `bytes` from position `p` on. -/
def writesAt (p : ℕ) : Bytes → List (ℕ × UInt8)
  | [] => []
  | b :: bytes => (p, b) :: writesAt (p + 1) bytes

@[simp] theorem length_writesAt (p : ℕ) (bytes : Bytes) :
    (writesAt p bytes).length = bytes.length := by
  induction bytes generalizing p with
  | nil => rfl
  | cons b bytes ih => rw [writesAt, List.length_cons, List.length_cons, ih]

theorem take_writesAt (p t : ℕ) (bytes : Bytes) :
    (writesAt p bytes).take t = writesAt p (bytes.take t) := by
  induction bytes generalizing p t with
  | nil => simp [writesAt]
  | cons b bytes ih =>
    cases t with
    | zero => rfl
    | succ t => rw [writesAt, List.take_succ_cons, List.take_succ_cons, writesAt, ih]

theorem writesAt_append (p : ℕ) (bytes bytes' : Bytes) :
    writesAt p (bytes ++ bytes') = writesAt p bytes ++ writesAt (p + bytes.length) bytes' := by
  induction bytes generalizing p with
  | nil => simp [writesAt]
  | cons b bytes ih =>
    rw [List.cons_append, writesAt, ih, writesAt, List.cons_append, List.length_cons,
      show p + 1 + bytes.length = p + (bytes.length + 1) by omega]

theorem replay_append (content : Bytes) (journal journal' : List (ℕ × UInt8)) :
    replay content (journal ++ journal') = replay (replay content journal) journal' :=
  List.foldl_append

private theorem putByte_append (before rest : Bytes) (b : UInt8) :
    putByte (before ++ rest) before.length b = before ++ [b] ++ rest.drop 1 := by
  cases rest with
  | nil => simp [putByte]
  | cons c rest => simp [putByte]

/-- Bytes written after `before` replace as many of those that follow, or extend the file. -/
theorem replay_writesAt (before rest bytes : Bytes) :
    replay (before ++ rest) (writesAt before.length bytes) =
      before ++ bytes ++ rest.drop bytes.length := by
  induction bytes generalizing before rest with
  | nil => simp [replay, writesAt]
  | cons b bytes ih =>
    have hlen : before.length + 1 = (before ++ [b]).length := by simp
    change replay (putByte (before ++ rest) before.length b) (writesAt (before.length + 1) bytes) = _
    rw [putByte_append, hlen, ih, List.drop_drop]
    simp [Nat.add_comm]

/-! ## Streams -/

/-- A file opened for reading and writing. -/
structure FileStream where
  content : Bytes := []
  position : ℕ := 0
  /-- What was written so far: the places and the bytes, in their order. -/
  journal : List (ℕ × UInt8) := []
  deriving DecidableEq, Repr

namespace FileStream

def seek (f : FileStream) (p : ℕ) : FileStream := { f with position := p }

def writeByte (f : FileStream) (b : UInt8) : FileStream :=
  { content := putByte f.content f.position b
    position := f.position + 1
    journal := f.journal ++ [(f.position, b)] }

def write (f : FileStream) (bytes : Bytes) : FileStream := bytes.foldl writeByte f

/-- Read exactly `n` bytes, or nothing when the file has fewer. -/
def read (f : FileStream) (n : ℕ) : Option (Bytes × FileStream) :=
  if f.position + n ≤ f.content.length then
    some ((f.content.drop f.position).take n, { f with position := f.position + n })
  else none

def truncate (f : FileStream) (size : ℕ) : FileStream :=
  { f with content := f.content.take size, position := size }

theorem write_eq (f : FileStream) (bytes : Bytes) :
    f.write bytes =
      { content := replay f.content (writesAt f.position bytes)
        position := f.position + bytes.length
        journal := f.journal ++ writesAt f.position bytes } := by
  induction bytes generalizing f with
  | nil => simp [write, writesAt, replay]
  | cons b bytes ih =>
    change (f.writeByte b).write bytes = _
    rw [ih]
    simp [writeByte, writesAt, replay, Nat.add_assoc, Nat.add_comm 1]

/-- `write` in one piece, which takes far fewer steps to evaluate. -/
def writePiece (f : FileStream) (bytes : Bytes) : FileStream :=
  if f.position ≤ f.content.length then
    { content := f.content.take f.position ++ bytes ++ f.content.drop (f.position + bytes.length)
      position := f.position + bytes.length
      journal := f.journal ++ writesAt f.position bytes }
  else f.write bytes

theorem write_eq_piece (f : FileStream) (bytes : Bytes) : f.write bytes = f.writePiece bytes := by
  rw [writePiece]
  split_ifs with hposition
  · have hreplay := replay_writesAt (f.content.take f.position) (f.content.drop f.position) bytes
    rw [List.take_append_drop, List.length_take, Nat.min_eq_left hposition, List.drop_drop] at hreplay
    rw [write_eq, hreplay]
  · rfl

/-- Writing at the end of a file extends it. -/
theorem write_at_end {f : FileStream} (h : f.position = f.content.length) (bytes : Bytes) :
    (f.write bytes).content = f.content ++ bytes ∧
      (f.write bytes).position = (f.write bytes).content.length := by
  have hreplay := replay_writesAt f.content [] bytes
  rw [List.append_nil, List.drop_nil, List.append_nil] at hreplay
  rw [write_eq]
  dsimp only
  rw [h, hreplay]
  exact ⟨rfl, (List.length_append).symm⟩

theorem foldl_write_at_end {α : Type} (toBytes : α → Bytes) (l : List α) {f : FileStream}
    (h : f.position = f.content.length) :
    (l.foldl (fun f x ↦ f.write (toBytes x)) f).content = f.content ++ l.flatMap toBytes := by
  induction l generalizing f with
  | nil => simp
  | cons x l ih =>
    obtain ⟨hcontent, hposition⟩ := write_at_end h (toBytes x)
    rw [List.foldl_cons, ih hposition, hcontent, List.flatMap_cons, List.append_assoc]

@[simp] theorem seek_content (f : FileStream) (p : ℕ) : (f.seek p).content = f.content := rfl
@[simp] theorem seek_journal (f : FileStream) (p : ℕ) : (f.seek p).journal = f.journal := rfl
@[simp] theorem seek_position (f : FileStream) (p : ℕ) : (f.seek p).position = p := rfl

/-- `rest` is what has not been read yet. -/
structure Ahead (f : FileStream) (rest : Bytes) : Prop where
  position_le : f.position ≤ f.content.length
  drop_position : f.content.drop f.position = rest

theorem ahead_content (content : Bytes) : Ahead { content := content } content :=
  ⟨Nat.zero_le _, rfl⟩

theorem Ahead.read {f : FileStream} {bytes rest : Bytes} (h : f.Ahead (bytes ++ rest)) :
    f.read bytes.length = some (bytes, f.seek (f.position + bytes.length)) := by
  have hlen := congrArg List.length h.drop_position
  rw [List.length_drop, List.length_append] at hlen
  have hpos := h.position_le
  rw [FileStream.read, if_pos (by omega), h.drop_position, List.take_left]
  rfl

/-- What is ahead after a read. -/
theorem Ahead.seek {f : FileStream} {bytes rest : Bytes} (h : f.Ahead (bytes ++ rest)) :
    (f.seek (f.position + bytes.length)).Ahead rest := by
  have hlen := congrArg List.length h.drop_position
  rw [List.length_drop, List.length_append] at hlen
  have hpos := h.position_le
  refine ⟨?_, ?_⟩
  · rw [seek_position, seek_content]
    omega
  · rw [seek_position, seek_content, ← List.drop_drop, h.drop_position, List.drop_left]

end FileStream

end Store
