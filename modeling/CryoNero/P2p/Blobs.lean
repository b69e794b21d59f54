import CryoNero.P2p.Messages

/-!
# Vectors sent as blobs

The copy of `serializeAsBinaryInput` stays inside the vector exactly when the string holds a whole
number of values, since the room is the length of the string rounded down to a multiple of the size
of a value. Nothing that the receiver checks before the copy says so: a sender that appends one byte
to a list of hashes makes the receiver write past the end of the vector.

A message is decoded in bounds exactly when this holds of every blob that is reached, that is, of
every blob whose earlier members can be read.
-/

namespace CryoNero.P2p

open Seria

variable {σ α : Type}

/-! ## One blob -/

/-- The string of a blob: empty when the member is missing, `none` when it is not a string. -/
def blobOf : Option JsonValue → Option Bytes
  | none => some []
  | some value => value.getString

theorem serializeAsBinaryInput_eq (layout : Layout α) (value : Option JsonValue) :
    serializeAsBinaryInput layout value = (blobOf value).map fun blob ↦
      (layout.unpack (blob.length / layout.size) blob,
        { room := blob.length / layout.size * layout.size, copied := blob.length }) := by
  rcases value with _ | value
  · rfl
  · simp only [serializeAsBinaryInput, seriaString, blobOf, Option.map_map]
    rfl

private theorem inBounds_iff (n size : ℕ) :
    (BlobCopy.mk (n / size * size) n).InBounds ↔ size ∣ n := by
  constructor
  · intro h
    have hle : n / size * size ≤ n := Nat.div_mul_le_self n size
    exact Dvd.intro_left _ (le_antisymm hle h)
  · intro h
    exact (Nat.div_mul_cancel h).ge

private theorem serializeAsBinaryInput_output (layout : Layout α) (x : List α) :
    serializeAsBinaryInput layout (some (serializeAsBinaryOutput layout x)) =
      some (x, { room := x.length * layout.size, copied := x.length * layout.size }) := by
  have hblob : blobOf (some (serializeAsBinaryOutput layout x)) = some (layout.pack x) := by
    rcases x with _ | ⟨y, x⟩ <;> rfl
  rw [serializeAsBinaryInput_eq, hblob, Option.map_some, layout.length_pack_div,
    layout.unpack_pack, layout.length_pack]

/-! ## The members of a message -/

/-- The member can be read: the reader does not throw. -/
def Member.Readable (fields : Fields) : Member σ → Prop
  | .plain read => (read fields).isSome
  | .blob _ name _ => (blobOf (fields.value name)).isSome

/-- The blob, if the member is one, holds a whole number of values. -/
def Member.Whole (fields : Fields) : Member σ → Prop
  | .plain _ => True
  | .blob layout name _ => ∀ blob, blobOf (fields.value name) = some blob → layout.size ∣ blob.length

/-- Every blob that is reached holds a whole number of values. A member is reached when those before
it can be read. -/
def BlobsWhole (fields : Fields) : List (Member σ) → Prop
  | [] => True
  | m :: rest => m.Whole fields ∧ (m.Readable fields → BlobsWhole fields rest)

private theorem copies_inBounds_iff (fields : Fields) (members : List (Member σ)) (v : σ) :
    (∀ c ∈ (serMembers fields members v).copies, c.InBounds) ↔ BlobsWhole fields members := by
  induction members generalizing v with
  | nil => simp [serMembers, BlobsWhole]
  | cons m rest ih =>
    rcases m with read | ⟨layout, name, assign⟩
    · -- a plain member copies nothing, and ends the reading when it throws
      rcases h : read fields with _ | f
      · simp [serMembers, BlobsWhole, Member.Whole, Member.Readable, h]
      · simp only [serMembers, BlobsWhole, Member.Whole, Member.Readable, h, true_and,
          Option.isSome_some, forall_const]
        exact ih (f v)
    · rcases h : blobOf (fields.value name) with _ | blob
      · simp [serMembers, BlobsWhole, Member.Whole, Member.Readable, serializeAsBinaryInput_eq, h]
      · simp only [serMembers, BlobsWhole, Member.Whole, Member.Readable,
          serializeAsBinaryInput_eq, h, Option.map_some, List.forall_mem_cons, inBounds_iff,
          Option.some.injEq, forall_eq', Option.isSome_some, forall_const]
        exact and_congr_right fun _ ↦ ih _

/-- The copies made while a message is decoded stay inside their vectors exactly when each blob that
is reached holds a whole number of values; and reading what was written for a vector, hashes or
peers or any other, gives the vector back, by a copy that stays inside it. -/
theorem blobs_decoded_inBounds (m : Message) (body : List (String × JsonValue)) :
    ((∀ c ∈ (m.decode body).copies, c.InBounds) ↔ BlobsWhole (some body) m.members) ∧
      ∀ (α : Type) (layout : Layout α) (x : List α), ∃ c : BlobCopy, c.InBounds ∧
        serializeAsBinaryInput layout (some (serializeAsBinaryOutput layout x)) = some (x, c) :=
  ⟨copies_inBounds_iff _ _ _, fun _ layout x ↦
    ⟨_, le_refl _, serializeAsBinaryInput_output layout x⟩⟩

/-- A list of hashes with one byte too many, in a request for a chain: 33 bytes are copied into a
vector that has room for 32. -/
theorem notifyRequestChain_overrun :
    ¬ ∀ c ∈ (Message.notifyRequestChain.decode
      [("block_ids", .string (List.replicate 33 0))]).copies, c.InBounds := by
  intro h
  have h33 := (copies_inBounds_iff _ _ _).mp h
  exact absurd (h33.1 (List.replicate 33 0) rfl) (by decide)

end CryoNero.P2p
