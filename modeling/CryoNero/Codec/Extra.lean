import CryoNero.Core.Extra
import CryoNero.Core.InMemory

/-!
# The extra field

What is written field by field is read back, because every field but the padding tells its length, and the
padding is the last one. Reading at a position gives what reading the bytes that are left gives
(`parseTransactionExtraAt_eq`), so that it stays inside the array and ends.
-/

namespace CryoNero

open Seria Seria.Reader Seria.MemoryInputStream Store

/-! ## What readers accept -/

section Accepted

variable {σ α : Type}

/-- The object and the bytes that are left, unless the reader threw. -/
def accepted (p : σ × Option Bytes) : Option (σ × Bytes) := p.2.map fun t ↦ (p.1, t)

private theorem accepted_andThen (r q : Reader σ) (v : σ) (s : Bytes) :
    accepted (r.andThen q v s) = (accepted (r v s)).bind fun p ↦ accepted (q p.1 p.2) := by
  rw [andThen]
  rcases r v s with ⟨v', _ | t⟩
  · rfl
  · rfl

private theorem accepted_on (get : σ → α) (set : α → σ → σ) (r : Reader α) (v : σ) (s : Bytes) :
    accepted (on get set r v s) = (accepted (r (get v) s)).map fun p ↦ (set p.1 v, p.2) := by
  rw [on]
  rcases r (get v) s with ⟨x, _ | t⟩
  · rfl
  · rfl

private theorem accepted_readU64 (v : UInt64) (s : Bytes) :
    accepted (readU64 v s) = (readVarint 64 s).map fun p ↦ (UInt64.ofNat p.1, p.2) := by
  rw [readU64, readInt]
  rcases readVarint 64 s with _ | ⟨n, t⟩
  · rfl
  · rfl

theorem accepted_readHash (v : Hash) (s : Bytes) :
    accepted (readHash v s) =
      if 32 ≤ s.length then some (blobOfBytes 256 (s.take 32), s.drop 32) else none := by
  rw [readHash, readBits, readBlob]
  by_cases h : 32 ≤ s.length
  · rw [if_pos h, if_pos h]
    rfl
  · rw [if_neg h, if_neg h]
    rfl

private theorem accepted_readBytes (v : Bytes) (s : Bytes) :
    accepted (readBytes v s) = (readVarint 64 s).bind fun size ↦
      if size.1 ≤ size.2.length then some (size.2.take size.1, size.2.drop size.1) else none := by
  rw [readBytes]
  rcases readVarint 64 s with _ | ⟨size, t⟩
  · rfl
  · dsimp only [Option.bind]
    split_ifs
    · rfl
    · rfl

theorem accepted_readMergeMiningTag (s : Bytes) :
    accepted (readMergeMiningTag {} s) = (accepted (readBytes [] s)).bind fun field ↦
      (readVarint 64 field.1).bind fun depth ↦
        if 32 ≤ depth.2.length then
          some ({ depth := UInt64.ofNat depth.1, merkleRoot := blobOfBytes 256 (depth.2.take 32) }, field.2)
        else none := by
  rw [readMergeMiningTag]
  rcases readBytes [] s with ⟨field, _ | t⟩
  · rfl
  have hinner := accepted_andThen
    (on (·.depth) (fun x (v : TransactionExtraMergeMiningTag) ↦ { v with depth := x }) readU64)
    (on (·.merkleRoot) (fun x v ↦ { v with merkleRoot := x }) readHash) {} field
  have houter (q : TransactionExtraMergeMiningTag × Option Bytes) :
      accepted (q.1, q.2.map fun _ ↦ t) = (accepted q).map fun r ↦ (r.1, t) := by
    rcases q with ⟨tag, _ | u⟩
    · rfl
    · rfl
  dsimp only
  rw [houter, hinner, accepted_on, accepted_readU64]
  simp only [accepted_on, accepted_readHash]
  change _ = (readVarint 64 field).bind _
  rcases readVarint 64 field with _ | ⟨depth, u⟩
  · rfl
  dsimp only [Option.bind, Option.map]
  by_cases h : 32 ≤ u.length
  · rw [if_pos h, if_pos h]
  · rw [if_neg h, if_neg h]

end Accepted

/-! ## Reading the fields -/

/-- What a tag and the bytes after it are read as: a field, or nothing at a byte that is no tag. -/
def fieldAfter (c : UInt8) (s : Bytes) : Option (Option TransactionExtraField × Bytes) :=
  if c = 0x00 then
    if s.length < txExtraPaddingMaxCount ∧ s.all (· == 0) then some (some (.padding (s.length + 1)), [])
    else none
  else if c = 0x01 then (accepted (readHash 0 s)).map fun p ↦ (some (.publicKey p.1), p.2)
  else if c = 0x02 then
    match s with
    | [] => none
    | size :: t =>
      if size.toNat ≤ t.length then some (some (.nonce (t.take size.toNat)), t.drop size.toNat) else none
  else if c = 0x03 then
    (accepted (readMergeMiningTag {} s)).map fun p ↦ (some (.mergeMiningTag p.1), p.2)
  else some (none, s)

theorem parseTransactionExtra_nil (fuel : ℕ) : parseTransactionExtra fuel [] = ([], true) := by
  cases fuel with
  | zero => rfl
  | succ fuel => rfl

theorem parseTransactionExtra_cons (fuel : ℕ) (c : UInt8) (s : Bytes) :
    parseTransactionExtra (fuel + 1) (c :: s) =
      match fieldAfter c s with
      | none => ([], false)
      | some (field, t) =>
        (field.toList ++ (parseTransactionExtra fuel t).1, (parseTransactionExtra fuel t).2) := by
  rw [parseTransactionExtra.eq_def, fieldAfter.eq_def]
  dsimp only
  by_cases hpadding : c = 0x00
  · rw [if_pos hpadding, if_pos hpadding]
    split_ifs
    · dsimp only
      rw [parseTransactionExtra_nil]
      rfl
    · rfl
  rw [if_neg hpadding, if_neg hpadding]
  by_cases hkey : c = 0x01
  · rw [if_pos hkey, if_pos hkey]
    rcases readHash 0 s with ⟨key, _ | t⟩
    · rfl
    · rfl
  rw [if_neg hkey, if_neg hkey]
  by_cases hnonce : c = 0x02
  · rw [if_pos hnonce, if_pos hnonce]
    cases s with
    | nil => rfl
    | cons size t =>
      dsimp only
      split_ifs
      · rfl
      · rfl
  rw [if_neg hnonce, if_neg hnonce]
  by_cases htag : c = 0x03
  · rw [if_pos htag, if_pos htag]
    rcases readMergeMiningTag {} s with ⟨tag, _ | t⟩
    · rfl
    · rfl
  rw [if_neg htag, if_neg htag]
  rfl

private theorem length_of_accepted_readBytes {s field t : Bytes}
    (h : accepted (readBytes [] s) = some (field, t)) :
    t.length ≤ s.length := by
  rw [accepted_readBytes, Option.bind_eq_some_iff] at h
  obtain ⟨⟨size, u⟩, hvarint, h⟩ := h
  obtain ⟨rfl, -⟩ := eq_writeVarint_of_readVarint (le_refl 64) (by omega) hvarint
  rw [Option.ite_none_right_eq_some] at h
  obtain ⟨-, h⟩ := h
  obtain ⟨-, rfl⟩ := Prod.mk.inj (Option.some.inj h)
  rw [List.length_drop, List.length_append]
  exact (Nat.sub_le _ _).trans (Nat.le_add_left _ _)

private theorem length_of_fieldAfter {c : UInt8} {s t : Bytes} {field : Option TransactionExtraField}
    (h : fieldAfter c s = some (field, t)) : t.length ≤ s.length := by
  rw [fieldAfter.eq_def] at h
  split_ifs at h with hpadding hzeros hkey hnonce htag
  · obtain ⟨-, rfl⟩ := Prod.mk.inj (Option.some.inj h)
    exact Nat.zero_le _
  · rw [accepted_readHash, Option.map_eq_some_iff] at h
    obtain ⟨p, hp, h⟩ := h
    rw [Option.ite_none_right_eq_some] at hp
    obtain ⟨-, rfl⟩ := Prod.mk.inj h
    rw [← Option.some.inj hp.2, List.length_drop]
    exact Nat.sub_le _ _
  · cases s with
    | nil => cases h
    | cons size u =>
      dsimp only at h
      rw [Option.ite_none_right_eq_some] at h
      obtain ⟨-, rfl⟩ := Prod.mk.inj (Option.some.inj h.2)
      rw [List.length_drop, List.length_cons]
      omega
  · rw [accepted_readMergeMiningTag, Option.map_eq_some_iff] at h
    obtain ⟨p, hp, h⟩ := h
    obtain ⟨field, hfield, hp⟩ := Option.bind_eq_some_iff.mp hp
    obtain ⟨depth, -, hp⟩ := Option.bind_eq_some_iff.mp hp
    rw [Option.ite_none_right_eq_some] at hp
    obtain ⟨-, rfl⟩ := Prod.mk.inj h
    rw [← Option.some.inj hp.2]
    exact length_of_accepted_readBytes hfield
  · obtain ⟨-, rfl⟩ := Prod.mk.inj (Option.some.inj h)
    exact le_refl _

private theorem parseTransactionExtra_fuel {fuel fuel' : ℕ} {s : Bytes} (h : s.length ≤ fuel)
    (h' : s.length ≤ fuel') : parseTransactionExtra fuel s = parseTransactionExtra fuel' s := by
  induction fuel generalizing fuel' s with
  | zero =>
    obtain rfl := List.length_eq_zero_iff.mp (Nat.le_zero.mp h)
    rw [parseTransactionExtra_nil, parseTransactionExtra_nil]
  | succ fuel ih =>
    cases s with
    | nil => rw [parseTransactionExtra_nil, parseTransactionExtra_nil]
    | cons c s =>
      obtain ⟨n, rfl⟩ : ∃ n, fuel' = n + 1 := ⟨fuel' - 1, by rw [List.length_cons] at h'; omega⟩
      rw [List.length_cons] at h h'
      rw [parseTransactionExtra_cons, parseTransactionExtra_cons]
      rcases hfield : fieldAfter c s with _ | ⟨field, t⟩
      · rfl
      · have hle := length_of_fieldAfter hfield
        dsimp only
        rw [ih (by omega : t.length ≤ fuel) (by omega : t.length ≤ n)]

/-! ## Reading at a position -/

private theorem follows_readPadding (rounds size : ℕ) {m : MemoryInputStream} (hm : m.Valid) :
    Follows (readPadding rounds size m)
      (if (m.rest.take rounds).all (· == 0) then
        some (size + min rounds m.rest.length, m.rest.drop rounds) else none) := by
  induction rounds generalizing size m with
  | zero =>
    rw [readPadding, Nat.zero_min, List.take_zero, List.all_nil, if_pos rfl]
    exact .ok hm size
  | succ rounds ih =>
    rw [readPadding]
    by_cases hempty : m.size = 0
    · have hrest := (size_eq_zero_iff m).mp hempty
      rw [if_pos hempty, hrest, List.take_nil, List.all_nil, if_pos rfl, List.length_nil, Nat.min_zero,
        Nat.add_zero, List.drop_nil, ← hrest]
      exact .ok hm size
    · rw [if_neg hempty]
      have hbyte := (follows_readByte hm).bind (f := fun c ↦ do
        ensure (¬c.1 ≠ 0) .refused
        readPadding rounds (size + 1) c.2)
        (g := fun c ↦ if c.1 ≠ 0 then none else
          if (c.2.take rounds).all (· == 0) then
            some (size + 1 + min rounds c.2.length, c.2.drop rounds) else none)
        fun c m hm ↦ Follows.ensure_not fun _ ↦ ih (size + 1) hm
      rcases hrest : m.rest with _ | ⟨c, s⟩
      · exact absurd ((size_eq_zero_iff m).mpr hrest) hempty
      · rw [hrest] at hbyte
        dsimp only [Option.bind] at hbyte
        rw [List.take_succ_cons, List.all_cons, List.length_cons, List.drop_succ_cons, Nat.succ_min_succ]
        by_cases hc : c = 0
        · subst hc
          rw [if_neg (not_not.mpr rfl), Nat.add_assoc, Nat.add_comm 1] at hbyte
          exact hbyte
        · rw [if_pos hc] at hbyte
          rw [beq_eq_false_iff_ne.mpr hc, Bool.false_and, if_neg Bool.false_ne_true]
          exact hbyte

private theorem follows_padding {m : MemoryInputStream} (hm : m.Valid) :
    Follows (do
        let size ← readPadding txExtraPaddingMaxCount 1 m
        ensure (¬txExtraPaddingMaxCount < size.1) .refused
        return (some (TransactionExtraField.padding size.1), size.2))
      (if m.rest.length < txExtraPaddingMaxCount ∧ m.rest.all (· == 0) then
        some (some (.padding (m.rest.length + 1)), []) else none) := by
  have hread := (follows_readPadding txExtraPaddingMaxCount 1 hm).bind (f := fun size ↦ do
    ensure (¬txExtraPaddingMaxCount < size.1) .refused
    return (some (TransactionExtraField.padding size.1), size.2))
    (g := fun size ↦ if txExtraPaddingMaxCount < size.1 then none else
      some (some (.padding size.1), size.2))
    fun size m hm ↦ Follows.ensure_not fun _ ↦ .ok hm _
  by_cases hshort : m.rest.length < txExtraPaddingMaxCount
  · have hnot : ¬txExtraPaddingMaxCount < 1 + m.rest.length := by omega
    rw [List.take_of_length_le hshort.le, Nat.min_eq_right hshort.le, List.drop_of_length_le hshort.le]
      at hread
    simp only [hshort, true_and]
    by_cases hzeros : m.rest.all (· == 0)
    · rw [if_pos hzeros, Option.bind_some, if_neg hnot, Nat.add_comm] at hread
      rw [if_pos hzeros]
      exact hread
    · rw [if_neg hzeros] at hread ⊢
      exact hread
  · have hlong : txExtraPaddingMaxCount < 1 + txExtraPaddingMaxCount := by omega
    rw [Nat.min_eq_left (Nat.le_of_not_lt hshort)] at hread
    rw [if_neg fun h ↦ hshort h.1]
    by_cases hzeros : (m.rest.take txExtraPaddingMaxCount).all (· == 0)
    · rw [if_pos hzeros, Option.bind_some, if_pos hlong] at hread
      exact hread
    · rw [if_neg hzeros] at hread
      exact hread

private theorem follows_readHashAt {m : MemoryInputStream} (hm : m.Valid) (v : Hash) :
    Follows (readHashAt m) (accepted (readHash v m.rest)) := by
  have hread := (follows_read hm 32).map (blobOfBytes 256)
  rw [accepted_readHash]
  by_cases h : 32 ≤ m.rest.length
  · rw [if_pos h] at hread ⊢
    exact hread
  · rw [if_neg h] at hread ⊢
    exact hread

private theorem follows_readMergeMiningTagAt {m : MemoryInputStream} (hm : m.Valid) :
    Follows (readMergeMiningTagAt m) (accepted (readMergeMiningTag {} m.rest)) := by
  rw [accepted_readMergeMiningTag, accepted_readBytes]
  refine (follows_readString hm).bind fun field m hm ↦ ?_
  have hfield : MemoryInputStream.Valid ⟨field, 0⟩ := Nat.zero_le _
  have hrest : MemoryInputStream.rest ⟨field, 0⟩ = field := rfl
  have hvarint := follows_readVarint64 hfield
  rw [hrest] at hvarint
  dsimp only
  rcases hvarint with ⟨depth, u, hseria, hok, hu⟩ | ⟨hnone, herror⟩
  · rw [hseria, hok, ok_bind, Option.bind_some]
    have hroot := follows_readHashAt hu 0
    rw [accepted_readHash] at hroot
    rcases hroot with ⟨root, w, hseria, hok, -⟩ | ⟨hnone, herror⟩
    · obtain ⟨hle, heq⟩ := Option.ite_none_right_eq_some.mp hseria
      obtain ⟨rfl, -⟩ := Prod.mk.inj (Option.some.inj heq)
      rw [hok, ok_bind, if_pos hle]
      exact .ok hm _
    · have hshort : ¬32 ≤ u.rest.length := fun hle ↦ by
        rw [if_pos hle] at hnone
        cases hnone
      rw [herror, if_neg hshort]
      exact .refused
  · rw [hnone, herror]
    exact .refused

private theorem follows_nonce {m : MemoryInputStream} (hm : m.Valid) :
    Follows (do
        let size ← m.readByte
        if 0 < size.1.toNat then do
          let nonce ← size.2.read size.1.toNat
          return (some (TransactionExtraField.nonce nonce.1), nonce.2)
        else return (some (.nonce []), size.2))
      (match m.rest with
        | [] => none
        | size :: t =>
          if size.toNat ≤ t.length then some (some (.nonce (t.take size.toNat)), t.drop size.toNat)
          else none) := by
  have hnonce (size : UInt8) (m : MemoryInputStream) (hm : m.Valid) :
      Follows (if 0 < size.toNat then do
          let nonce ← m.read size.toNat
          return (some (TransactionExtraField.nonce nonce.1), nonce.2)
        else return (some (.nonce []), m))
        (if size.toNat ≤ m.rest.length then
          some (some (.nonce (m.rest.take size.toNat)), m.rest.drop size.toNat) else none) := by
    by_cases hpos : 0 < size.toNat
    · have hread := (follows_read hm size.toNat).map fun data ↦ some (TransactionExtraField.nonce data)
      rw [if_pos hpos]
      by_cases hfits : size.toNat ≤ m.rest.length
      · rw [if_pos hfits] at hread ⊢
        exact hread
      · rw [if_neg hfits] at hread ⊢
        exact hread
    · have hzero : size.toNat = 0 := Nat.eq_zero_of_not_pos hpos
      rw [if_neg hpos, hzero, if_pos (Nat.zero_le _)]
      exact .ok hm _
  rcases follows_readByte hm with ⟨size, m', hseria, hok, hm'⟩ | ⟨hnone, herror⟩
  · rcases hrest : m.rest with _ | ⟨c, t⟩
    · rw [hrest] at hseria
      cases hseria
    · rw [hrest] at hseria
      obtain ⟨rfl, rfl⟩ := Prod.mk.inj (Option.some.inj hseria)
      rw [hok]
      exact hnonce c m' hm'
  · rcases hrest : m.rest with _ | ⟨c, t⟩
    · rw [herror]
      exact .refused
    · rw [hrest] at hnone
      cases hnone

/-- **Spec of a round.** -/
private theorem follows_readTransactionExtraField {m : MemoryInputStream} (hm : m.Valid) {c : UInt8}
    {s : Bytes}
    (hrest : m.rest = c :: s) : Follows (readTransactionExtraField m) (fieldAfter c s) := by
  rcases follows_readByte hm with ⟨c', m', hseria, hok, hm'⟩ | ⟨hnone, -⟩
  swap
  · rw [hrest] at hnone
    cases hnone
  rw [hrest] at hseria
  obtain ⟨rfl, rfl⟩ := Prod.mk.inj (Option.some.inj hseria)
  rw [readTransactionExtraField, hok, ok_bind, fieldAfter.eq_def]
  dsimp only
  by_cases hpadding : c = 0x00
  · rw [if_pos hpadding, if_pos hpadding]
    exact follows_padding hm'
  rw [if_neg hpadding, if_neg hpadding]
  by_cases hkey : c = 0x01
  · rw [if_pos hkey, if_pos hkey]
    exact (follows_readHashAt hm' 0).map fun key ↦ some (TransactionExtraField.publicKey key)
  rw [if_neg hkey, if_neg hkey]
  by_cases hnonce : c = 0x02
  · rw [if_pos hnonce, if_pos hnonce]
    exact follows_nonce hm'
  rw [if_neg hnonce, if_neg hnonce]
  by_cases htag : c = 0x03
  · rw [if_pos htag, if_pos htag]
    exact (follows_readMergeMiningTagAt hm').map fun tag ↦ some (TransactionExtraField.mergeMiningTag tag)
  rw [if_neg htag, if_neg htag]
  exact .ok hm' none

/-- **Reading at a position is reading.** A round for every byte and one for the end are enough. -/
private theorem parseTransactionExtraAt_of_rest {fuel : ℕ} {m : MemoryInputStream} (hm : m.Valid)
    (h : m.rest.length < fuel) (extraFields : List TransactionExtraField) :
    parseTransactionExtraAt fuel m extraFields =
      .ok (extraFields ++ (parseTransactionExtra m.rest.length m.rest).1,
        (parseTransactionExtra m.rest.length m.rest).2) := by
  induction fuel generalizing m extraFields with
  | zero => cases h
  | succ fuel ih =>
    rw [parseTransactionExtraAt]
    by_cases hempty : m.size = 0
    · rw [if_pos hempty, (size_eq_zero_iff m).mp hempty, parseTransactionExtra_nil, List.append_nil]
    rw [if_neg hempty]
    rcases hrest : m.rest with _ | ⟨c, s⟩
    · exact absurd ((size_eq_zero_iff m).mpr hrest) hempty
    rw [hrest, List.length_cons] at h
    rw [List.length_cons, parseTransactionExtra_cons]
    rcases follows_readTransactionExtraField hm hrest with ⟨field, m', hseria, hok, hm'⟩ | ⟨hnone, herror⟩
    · have hle := length_of_fieldAfter hseria
      rw [hok, hseria]
      dsimp only
      rw [ih hm' (by omega), List.append_assoc, parseTransactionExtra_fuel hle (le_refl _)]
    · rw [herror, hnone, List.append_nil]

private theorem parseTransactionExtraAt_eq (extra : Bytes) :
    parseTransactionExtraAt (extra.length + 1) ⟨extra, 0⟩ [] =
      .ok (parseTransactionExtra extra.length extra) :=
  parseTransactionExtraAt_of_rest (Nat.zero_le _) (Nat.lt_succ_self _) []

/-! ## Writing -/

/-- The bytes of a field. -/
def fieldBytes : TransactionExtraField → Bytes
  | .padding size => List.replicate size 0
  | .publicKey key => 0x01 :: writeHash key
  | .nonce bytes => 0x02 :: UInt8.ofNat bytes.length :: bytes
  | .mergeMiningTag tag => 0x03 :: writeMergeMiningTag tag

/-- A field that can be written and read back. -/
def TransactionExtraField.WellFormed : TransactionExtraField → Prop
  | .padding size => 0 < size ∧ size ≤ 255
  | .publicKey _ => True
  | .nonce bytes => bytes.length ≤ 255
  | .mergeMiningTag _ => True

/-- Well-formed fields, with nothing after a padding. -/
structure ExtraFields (fields : List TransactionExtraField) : Prop where
  wellFormed : ∀ field ∈ fields, field.WellFormed
  padding_last : ∀ before size after, fields = before ++ .padding size :: after → after = []

theorem ExtraFields.tail {field : TransactionExtraField} {fields : List TransactionExtraField}
    (h : ExtraFields (field :: fields)) : ExtraFields fields where
  wellFormed := (List.forall_mem_cons.mp h.wellFormed).2
  padding_last before size after heq := h.padding_last (field :: before) size after (by rw [heq]; rfl)

private theorem writeTransactionExtraField_eq {field : TransactionExtraField} (h : field.WellFormed)
    (extra : Bytes) : writeTransactionExtraField extra field = some (extra ++ fieldBytes field) := by
  cases field with
  | padding size => exact if_neg (Nat.not_lt.mpr h.2)
  | publicKey key => rfl
  | nonce bytes => exact if_neg (Nat.not_lt.mpr h)
  | mergeMiningTag tag => rfl

private theorem writeTransactionExtra_eq {fields : List TransactionExtraField}
    (h : ∀ field ∈ fields, field.WellFormed) (extra : Bytes) :
    writeTransactionExtra extra fields = some (extra ++ fields.flatMap fieldBytes) := by
  induction fields generalizing extra with
  | nil =>
    rw [List.flatMap_nil, List.append_nil]
    rfl
  | cons field fields ih =>
    rw [List.forall_mem_cons] at h
    have hrest := ih h.2 (extra ++ fieldBytes field)
    rw [writeTransactionExtra, List.foldlM_cons, writeTransactionExtraField_eq h.1, Option.bind_eq_bind,
      Option.bind_some, List.flatMap_cons, ← List.append_assoc]
    exact hrest

/-! ## Round trips -/

private theorem accepted_writeMergeMiningTag (tag : TransactionExtraMergeMiningTag) (rest : Bytes) :
    accepted (readMergeMiningTag {} (writeMergeMiningTag tag ++ rest)) = some (tag, rest) := by
  have hlength : (writeU64 tag.depth ++ writeHash tag.merkleRoot).length < 2 ^ 64 := by
    have hvarint := length_varintBytes_le 9 tag.depth.toNat
    have hhash : (writeHash tag.merkleRoot).length = 32 := length_blobBytes 256 tag.merkleRoot
    rw [List.length_append, hhash, writeU64, writeVarint]
    omega
  have hroot : (writeHash tag.merkleRoot).length = 32 := length_blobBytes 256 tag.merkleRoot
  have hdepth : readVarint 64 (writeU64 tag.depth ++ writeHash tag.merkleRoot) =
      some (tag.depth.toNat, writeHash tag.merkleRoot) :=
    readVarint_writeVarint (le_refl 64) tag.depth.toNat_lt _
  rw [accepted_readMergeMiningTag, writeMergeMiningTag, reads_readBytes [] hlength rest]
  change ((readVarint 64 (writeU64 tag.depth ++ writeHash tag.merkleRoot)).bind _) = _
  rw [hdepth, Option.bind_some, if_pos hroot.ge, List.take_of_length_le hroot.le, writeHash,
    blobOfBytes_blobBytes (by omega), UInt64.ofNat_toNat]

private theorem fieldAfter_fieldBytes {field : TransactionExtraField} (h : field.WellFormed)
    (hnot : ∀ size, field ≠ .padding size) :
    ∃ c s, fieldBytes field = c :: s ∧ ∀ rest, fieldAfter c (s ++ rest) = some (some field, rest) := by
  cases field with
  | padding size => exact absurd rfl (hnot size)
  | publicKey key =>
    refine ⟨_, _, rfl, fun rest ↦ ?_⟩
    rw [fieldAfter.eq_def, if_neg (by decide), if_pos rfl, reads_readHash 0 key rest]
    rfl
  | nonce bytes =>
    have hsize : (UInt8.ofNat bytes.length).toNat = bytes.length :=
      toNat_ofNat_uint8 (Nat.lt_succ_of_le h)
    refine ⟨_, _, rfl, fun rest ↦ ?_⟩
    rw [fieldAfter.eq_def, if_neg (by decide), if_neg (by decide), if_pos rfl, List.cons_append]
    dsimp only
    rw [hsize, if_pos (by rw [List.length_append]; exact Nat.le_add_right _ _), List.take_left,
      List.drop_left]
  | mergeMiningTag tag =>
    refine ⟨_, _, rfl, fun rest ↦ ?_⟩
    rw [fieldAfter.eq_def, if_neg (by decide), if_neg (by decide), if_neg (by decide), if_pos rfl,
      accepted_writeMergeMiningTag]
    rfl

private theorem fieldAfter_padding {size : ℕ} (h : size + 1 ≤ 255) :
    fieldAfter 0x00 (List.replicate size 0) = some (some (.padding (size + 1)), []) := by
  have hzeros : (List.replicate size (0 : UInt8)).all (· == 0) = true :=
    List.all_eq_true.mpr fun c hc ↦ by rw [List.eq_of_mem_replicate hc]; rfl
  rw [fieldAfter.eq_def, if_pos rfl, List.length_replicate, if_pos ⟨h, hzeros⟩]

/-- **What was written is read back.** -/
private theorem parseTransactionExtra_flatMap {fields : List TransactionExtraField} (h : ExtraFields fields)
    {fuel : ℕ} (hfuel : (fields.flatMap fieldBytes).length ≤ fuel) :
    parseTransactionExtra fuel (fields.flatMap fieldBytes) = (fields, true) := by
  induction fields generalizing fuel with
  | nil => exact parseTransactionExtra_nil fuel
  | cons field fields ih =>
    have hfield := (List.forall_mem_cons.mp h.wellFormed).1
    by_cases hpadding : ∃ size, field = .padding size
    · obtain ⟨size, rfl⟩ := hpadding
      obtain rfl := h.padding_last [] size fields rfl
      obtain ⟨size, rfl⟩ : ∃ n, size = n + 1 := ⟨size - 1, by have := hfield.1; omega⟩
      have hbytes : [TransactionExtraField.padding (size + 1)].flatMap fieldBytes =
          0x00 :: List.replicate size 0 := List.append_nil _
      rw [hbytes] at hfuel ⊢
      obtain ⟨fuel, rfl⟩ : ∃ n, fuel = n + 1 := ⟨fuel - 1, by rw [List.length_cons] at hfuel; omega⟩
      rw [parseTransactionExtra_cons, fieldAfter_padding hfield.2]
      dsimp only
      rw [parseTransactionExtra_nil]
      rfl
    · obtain ⟨c, s, hbytes, hread⟩ := fieldAfter_fieldBytes hfield fun size heq ↦ hpadding ⟨size, heq⟩
      rw [List.flatMap_cons, hbytes, List.cons_append] at hfuel ⊢
      rw [List.length_cons, List.length_append] at hfuel
      obtain ⟨fuel, rfl⟩ : ∃ n, fuel = n + 1 := ⟨fuel - 1, by omega⟩
      rw [parseTransactionExtra_cons, hread]
      dsimp only
      rw [ih h.tail (by omega)]
      rfl

private theorem paymentId_eq_some {bytes : Bytes} {paymentId : Hash} :
    (match bytes with
      | tag :: id =>
        if id.length = 32 ∧ tag = txExtraNoncePaymentId then some (blobOfBytes 256 id) else none
      | [] => none) = some paymentId ↔ bytes = setPaymentIdToTransactionExtraNonce paymentId := by
  have hblob : blobOfBytes 256 (writeHash paymentId) = paymentId := blobOfBytes_blobBytes (by omega) _
  have hlength : (writeHash paymentId).length = 32 := length_blobBytes 256 paymentId
  cases bytes with
  | nil => exact iff_of_false (by simp) (List.cons_ne_nil _ _).symm
  | cons tag id =>
    dsimp only
    rw [Option.ite_none_right_eq_some, setPaymentIdToTransactionExtraNonce, List.cons.injEq]
    constructor
    · rintro ⟨⟨hid, rfl⟩, h⟩
      refine ⟨rfl, ?_⟩
      have hcanonical := canonical_readHash 0 id paymentId []
      rw [List.append_nil, readHash, readBits, readBlob] at hcanonical
      refine hcanonical ?_
      rw [if_pos hid.ge, List.take_of_length_le hid.le, List.drop_of_length_le hid.le, Option.some.inj h]
    · rintro ⟨htag, hid⟩
      rw [htag, hid]
      exact ⟨⟨hlength, rfl⟩, congrArg some hblob⟩

/-- What the getters give for an array that holds the fields: the first field of their kind. -/
structure GetsFirst (extra : Bytes) (fields : List TransactionExtraField) : Prop where
  publicKey : ∀ before key after, fields = before ++ .publicKey key :: after →
    (∀ key, .publicKey key ∉ before) → getTransactionPublicKeyFromExtra extra = key
  publicKey_none : (∀ key, .publicKey key ∉ fields) → getTransactionPublicKeyFromExtra extra = 0
  paymentId : ∀ before bytes after, fields = before ++ .nonce bytes :: after →
    (∀ bytes, .nonce bytes ∉ before) → ∀ paymentId, getPaymentIdFromTxExtra extra = some paymentId ↔
      bytes = setPaymentIdToTransactionExtraNonce paymentId
  paymentId_none : (∀ bytes, .nonce bytes ∉ fields) → getPaymentIdFromTxExtra extra = none
  mergeMiningTag : ∀ before tag after, fields = before ++ .mergeMiningTag tag :: after →
    (∀ tag, .mergeMiningTag tag ∉ before) → getMergeMiningTagFromExtra extra = some tag
  mergeMiningTag_none : (∀ tag, .mergeMiningTag tag ∉ fields) → getMergeMiningTagFromExtra extra = none

private theorem getsFirst_of_parse {extra : Bytes} {fields : List TransactionExtraField}
    (h : (parseTransactionExtra extra.length extra).1 = fields) : GetsFirst extra fields where
  publicKey before key after heq hbefore := by
    rw [getTransactionPublicKeyFromExtra, h, heq, List.findSome?_append, List.findSome?_eq_none_iff.mpr]
    · rfl
    rintro (_ | key | _ | _) hz
    · rfl
    · exact absurd hz (hbefore key)
    · rfl
    · rfl
  publicKey_none hnone := by
    rw [getTransactionPublicKeyFromExtra, h, List.findSome?_eq_none_iff.mpr, Option.getD_none]
    rintro (_ | key | _ | _) hz
    · rfl
    · exact absurd hz (hnone key)
    · rfl
    · rfl
  paymentId before bytes after heq hbefore paymentId := by
    rw [getPaymentIdFromTxExtra, h, heq, List.findSome?_append, List.findSome?_eq_none_iff.mpr]
    · exact paymentId_eq_some
    rintro (_ | _ | bytes | _) hz
    · rfl
    · rfl
    · exact absurd hz (hbefore bytes)
    · rfl
  paymentId_none hnone := by
    rw [getPaymentIdFromTxExtra, h, List.findSome?_eq_none_iff.mpr, Option.bind_none]
    rintro (_ | _ | bytes | _) hz
    · rfl
    · rfl
    · exact absurd hz (hnone bytes)
    · rfl
  mergeMiningTag before tag after heq hbefore := by
    rw [getMergeMiningTagFromExtra, h, heq, List.findSome?_append, List.findSome?_eq_none_iff.mpr]
    · rfl
    rintro (_ | _ | _ | tag) hz
    · rfl
    · rfl
    · rfl
    · exact absurd hz (hbefore tag)
  mergeMiningTag_none hnone := by
    rw [getMergeMiningTagFromExtra, h, List.findSome?_eq_none_iff.mpr]
    rintro (_ | _ | _ | tag) hz
    · rfl
    · rfl
    · rfl
    · exact absurd hz (hnone tag)

/-- **The extra field comes back.** Well-formed fields are written, read back, and found by the getters.
Whatever the bytes are, the reader ends after at most one round for every byte, and no access is outside the
array. -/
theorem parseTransactionExtra_writeTransactionExtra :
    (∀ fields, ExtraFields fields → ∃ extra, writeTransactionExtra [] fields = some extra ∧
      parseTransactionExtra extra.length extra = (fields, true) ∧ GetsFirst extra fields) ∧
    ∀ extra, parseTransactionExtraAt (extra.length + 1) ⟨extra, 0⟩ [] =
      .ok (parseTransactionExtra extra.length extra) := by
  refine ⟨fun fields h ↦ ?_, parseTransactionExtraAt_eq⟩
  have hparse := parseTransactionExtra_flatMap h (le_refl _)
  exact ⟨_, writeTransactionExtra_eq h.wellFormed [], hparse, getsFirst_of_parse (congrArg Prod.fst hparse)⟩

end CryoNero
