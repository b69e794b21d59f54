import CryoNero.Codec.Base58
import CryoNero.Core.Address
import CryoNero.Core.InMemory

/-!
# Texts with a tag and a checksum

The checksum is cut off before the tag is read, and the Base58 text determines its bytes. So a text comes
back from what was read as soon as the tag is written the way it was read. The reader of the tag refuses
integers that are too large and integers with superfluous zeros, but not an integer that the end of the
text cuts off (`readVarint64_cases`). Then no data are left, so that no address of an account is affected
(`parseAccountAddressString_eq_ok`).
-/

namespace CryoNero

open Seria Seria.Reader Store Words Base58

/-! ## Integers of variable length -/

private theorem and_bits (b : UInt8) :
    (b &&& 0x80 = 0 ↔ b.toNat < 128) ∧ (b &&& 0x7f).toUInt64.toNat = b.toNat % 128 := by
  have hall : ∀ n < 256, (UInt8.ofNat n &&& 0x80 = 0 ↔ n < 128) ∧
      (UInt8.ofNat n &&& 0x7f).toUInt64.toNat = n % 128 := by
    decide +kernel
  have hb := hall b.toNat b.toNat_lt
  rwa [UInt8.ofNat_toNat] at hb

private theorem toNat_or_shiftLeft {i x : UInt64} {shift : ℕ} (hshift : shift < 64)
    (hi : i.toNat < 2 ^ shift)
    (hx : x.toNat * 2 ^ shift < 2 ^ 64) :
    (i ||| x <<< UInt64.ofNat shift).toNat = i.toNat + x.toNat * 2 ^ shift := by
  have hmod : (UInt64.ofNat shift).toNat % 64 = shift := by
    rw [UInt64.toNat_ofNat']
    omega
  rw [UInt64.toNat_or, UInt64.toNat_shiftLeft, hmod, Nat.shiftLeft_eq, Nat.mod_eq_of_lt hx, Nat.or_comm,
    Nat.mul_comm, ← Nat.two_pow_add_eq_or_of_lt hi, Nat.add_comm]

private theorem readVarintFrom_eq_none {w shift temp : ℕ} {s : Bytes} (h : ∀ b ∈ s, 0x80 ≤ b) :
    Seria.readVarintFrom w shift temp s = none := by
  induction s generalizing shift temp with
  | nil => rfl
  | cons b s ih =>
    rw [List.forall_mem_cons] at h
    have hb : ¬b.toNat < 128 := Nat.not_lt.mpr (UInt8.le_iff_toNat_le.mp h.1)
    rw [Seria.readVarintFrom]
    dsimp only
    rw [if_neg hb, ih h.2, ite_self]

/-- **Spec of the loop.** It reads an integer, or refuses the text, or comes to its end: the other reader
of integers refuses the text then. -/
private theorem readVarintFrom_cases (s : Bytes) (read : ℕ) {shift : ℕ} {i : UInt64} (hshift : shift < 64)
    (hi : i.toNat < 2 ^ shift) :
    (∃ pre rest v, s = pre ++ rest ∧ Seria.readVarintFrom 64 shift i.toNat s = some (v, rest) ∧
        readVarintFrom shift read i s = (((read + pre.length : ℕ) : ℤ), UInt64.ofNat v)) ∨
      (readVarintFrom shift read i s).1 < 0 ∧ Seria.readVarintFrom 64 shift i.toNat s = none ∨
      (readVarintFrom shift read i s).1 = (read + s.length : ℕ) ∧ ∀ b ∈ s, 0x80 ≤ b := by
  induction s generalizing shift read i with
  | nil => exact .inr (.inr ⟨rfl, nofun⟩)
  | cons b s ih =>
    obtain ⟨hhigh, hlow⟩ := and_bits b
    have hzero : b = 0 ↔ b.toNat = 0 := UInt8.toNat_inj.symm
    have hover : 64 ≤ shift + 7 ↔ 64 - 7 ≤ shift := by omega
    rw [readVarintFrom, Seria.readVarintFrom]
    simp only [hover, hzero, hhigh]
    by_cases hlarge : 64 - 7 ≤ shift ∧ 2 ^ (64 - shift) ≤ b.toNat
    · rw [if_pos hlarge, if_pos hlarge]
      exact .inr (.inl ⟨Int.negSucc_lt_zero _, rfl⟩)
    rw [if_neg hlarge, if_neg hlarge]
    by_cases hz : b.toNat = 0 ∧ shift ≠ 0
    · have hlast : b.toNat < 128 := by omega
      rw [if_pos hz, if_pos hz, if_pos hlast]
      exact .inr (.inl ⟨Int.negSucc_lt_zero _, rfl⟩)
    rw [if_neg hz, if_neg hz]
    have hbits : b.toNat % 128 * 2 ^ shift < 2 ^ 64 := by
      by_cases hs : 64 - 7 ≤ shift
      · have hb : b.toNat % 128 < 2 ^ (64 - shift) :=
          (Nat.mod_le _ _).trans_lt (Nat.lt_of_not_le fun hle ↦ hlarge ⟨hs, hle⟩)
        calc b.toNat % 128 * 2 ^ shift < 2 ^ (64 - shift) * 2 ^ shift :=
              Nat.mul_lt_mul_of_pos_right hb (by positivity)
          _ = 2 ^ 64 := by rw [← pow_add, Nat.sub_add_cancel hshift.le]
      · calc b.toNat % 128 * 2 ^ shift ≤ 2 ^ 7 * 2 ^ shift :=
              Nat.mul_le_mul_right _ (Nat.mod_lt _ (by omega)).le
          _ = 2 ^ (7 + shift) := (pow_add 2 7 shift).symm
          _ < 2 ^ 64 := Nat.pow_lt_pow_right (by omega) (by omega)
    have hor := toNat_or_shiftLeft hshift hi (hlow.symm ▸ hbits)
    rw [hlow] at hor
    by_cases hlast : b.toNat < 128
    · rw [if_pos hlast, if_pos hlast]
      refine .inl ⟨[b], s, _, rfl, rfl, ?_⟩
      rw [← hor, UInt64.ofNat_toNat]
      rfl
    · -- a further byte: the last bits cannot have been reached
      have hnext : shift + 7 < 64 := by
        by_contra hge
        have hle : 2 ^ (64 - shift) ≤ 2 ^ 7 := Nat.pow_le_pow_right (by omega) (by omega)
        exact hlarge ⟨by omega, by omega⟩
      have hsmall : (i ||| (b &&& 0x7f).toUInt64 <<< UInt64.ofNat shift).toNat < 2 ^ (shift + 7) := by
        rw [hor, pow_add]
        have hmul : b.toNat % 128 * 2 ^ shift ≤ 127 * 2 ^ shift :=
          Nat.mul_le_mul_right _ (by omega)
        omega
      rw [if_neg hlast, if_neg hlast, ← hor]
      rcases ih (read + 1) hnext hsmall with ⟨pre, rest, v, rfl, hseria, hread⟩ | hfails |
        ⟨hread, hall⟩
      · refine .inl ⟨b :: pre, rest, v, rfl, hseria, ?_⟩
        rw [hread, List.length_cons, Nat.add_right_comm, Nat.add_assoc]
      · exact .inr (.inl hfails)
      · refine .inr (.inr ⟨?_, List.forall_mem_cons.mpr ⟨?_, hall⟩⟩)
        · rw [hread, List.length_cons, Nat.add_right_comm, Nat.add_assoc]
        · exact UInt8.le_iff_toNat_le.mpr (Nat.le_of_not_lt hlast)

private theorem readVarint64_cases (s : Bytes) :
    (∃ v d, s = getVarintData v ++ d ∧ readVarint64 s = (((getVarintData v).length : ℤ), v)) ∨
      (readVarint64 s).1 < 0 ∨ (readVarint64 s).1 = s.length ∧ ∀ b ∈ s, 0x80 ≤ b := by
  rcases readVarintFrom_cases s 0 (i := 0) (by omega : 0 < 64) Nat.one_pos with
    ⟨pre, rest, n, hs, hseria, hread⟩ | ⟨hneg, -⟩ | ⟨hread, hall⟩
  · obtain ⟨heq, hn⟩ := eq_writeVarint_of_readVarint (le_refl 64) (by omega) hseria
    have hv : (UInt64.ofNat n).toNat = n := by rw [UInt64.toNat_ofNat', Nat.mod_eq_of_lt hn]
    have hpre : pre = getVarintData (UInt64.ofNat n) := by
      rw [getVarintData, writeU64, hv]
      exact List.append_cancel_right (hs.symm.trans heq)
    refine .inl ⟨UInt64.ofNat n, rest, hpre ▸ hs, ?_⟩
    rw [← hpre, readVarint64, hread, Nat.zero_add]
  · exact .inr (.inl hneg)
  · exact .inr (.inr ⟨by rw [readVarint64, hread, Nat.zero_add], hall⟩)

private theorem readVarint_getVarintData (v : UInt64) (d : Bytes) :
    readVarint 64 (getVarintData v ++ d) = some (v.toNat, d) :=
  readVarint_writeVarint (le_refl 64) v.toNat_lt d

private theorem exists_mem_getVarintData_lt (v : UInt64) : ∃ b ∈ getVarintData v, b < 0x80 := by
  by_contra hnone
  have hall : ∀ b ∈ getVarintData v, 0x80 ≤ b := fun b hb ↦
    UInt8.not_lt.mp fun hlt ↦ hnone ⟨b, hb, hlt⟩
  have hread := readVarint_getVarintData v []
  rw [List.append_nil, readVarint, readVarintFrom_eq_none hall] at hread
  cases hread

private theorem getVarintData_ne_nil (v : UInt64) : getVarintData v ≠ [] := varintBytes_ne_nil 9 v.toNat

private theorem readVarint64_getVarintData (v : UInt64) (d : Bytes) :
    readVarint64 (getVarintData v ++ d) = (((getVarintData v).length : ℤ), v) := by
  have hread := readVarint_getVarintData v d
  rcases readVarintFrom_cases (getVarintData v ++ d) 0 (i := 0) (by omega : 0 < 64) Nat.one_pos
    with ⟨pre, rest, n, hs, hseria, hok⟩ | ⟨-, hnone⟩ | ⟨-, hall⟩
  · obtain ⟨rfl, rfl⟩ := Prod.mk.inj (Option.some.inj (hseria.symm.trans hread))
    rw [readVarint64, hok, List.append_cancel_right hs, Nat.zero_add, UInt64.ofNat_toNat]
  · cases hnone.symm.trans hread
  · cases (readVarintFrom_eq_none hall).symm.trans hread

/-! ## The checksum -/

namespace Base58

variable (c : Crypto)

def checksum (payload : Bytes) : Bytes := (writeHash (c.cnFastHash payload)).take addrChecksumSize

theorem length_checksum (payload : Bytes) : (checksum c payload).length = addrChecksumSize := by
  rw [checksum, List.length_take, writeHash, length_blobBytes]
  rfl

/-- **Spec of the decoder.** -/
private theorem decodeAddr_eq_ok {c : Crypto} {s : Bytes} {tag : UInt64} {data : Bytes} :
    decodeAddr c s = .ok (tag, data) ↔
      ∃ payload, payload ≠ [] ∧ encode (payload ++ checksum c payload) = .ok s ∧
        0 < (readVarint64 payload).1 ∧ tag = (readVarint64 payload).2 ∧
        data = payload.drop (readVarint64 payload).1.toNat := by
  constructor
  · intro h
    obtain ⟨x, hx, h⟩ := bind_eq_ok.mp h
    obtain ⟨_, hlength, h⟩ := bind_eq_ok.mp h
    obtain ⟨_, hsum, h⟩ := bind_eq_ok.mp h
    obtain ⟨_, hread, h⟩ := bind_eq_ok.mp h
    rw [ensure_eq_ok] at hlength hsum hread
    obtain ⟨rfl, rfl⟩ := Prod.mk.inj (Except.ok.inj h)
    have hparts := List.take_append_drop (x.length - addrChecksumSize) x
    rw [← not_not.mp hsum] at hparts
    refine ⟨x.take (x.length - addrChecksumSize), fun hnil ↦ ?_, ?_, Int.lt_of_not_ge hread, rfl, rfl⟩
    · have hzero := congrArg List.length hnil
      rw [List.length_take, List.length_nil] at hzero
      omega
    · rw [checksum, hparts]
      exact encode_of_decode hx
  · rintro ⟨payload, hne, henc, hread, rfl, rfl⟩
    have hpos : 0 < payload.length := List.length_pos_iff.mpr hne
    have hlength : (payload ++ checksum c payload).length - addrChecksumSize = payload.length := by
      rw [List.length_append, length_checksum, Nat.add_sub_cancel]
    have hlong : ¬(payload ++ checksum c payload).length ≤ addrChecksumSize := by
      rw [List.length_append, length_checksum]
      omega
    have hsum : ¬(writeHash (c.cnFastHash payload)).take addrChecksumSize ≠ checksum c payload :=
      fun h ↦ h rfl
    rw [decodeAddr, decode_eq_ok.mpr henc, ok_bind, ensure_pos _ hlong, ok_bind, hlength]
    dsimp only
    rw [List.take_left, List.drop_left, ensure_pos _ hsum, ok_bind, ensure_pos _ (by omega), ok_bind]
    rfl

private theorem decodeAddr_encodeAddr (tag : UInt64) (data : Bytes) :
    ∃ s, encodeAddr c tag data = .ok s ∧ decodeAddr c s = .ok (tag, data) := by
  obtain ⟨s, henc, -⟩ := exists_encode
    (getVarintData tag ++ data ++ checksum c (getVarintData tag ++ data))
  have hpos := List.length_pos_iff.mpr (getVarintData_ne_nil tag)
  refine ⟨s, henc, decodeAddr_eq_ok.mpr ⟨getVarintData tag ++ data, ?_, henc, ?_⟩⟩
  · exact List.append_ne_nil_of_left_ne_nil (getVarintData_ne_nil tag) data
  · rw [readVarint64_getVarintData]
    exact ⟨Int.natCast_pos.mpr hpos, rfl, List.drop_left.symm⟩

private theorem payload_inj {p q sum s : Bytes} (hp : encode (p ++ checksum c p) = .ok s)
    (hq : encode (q ++ sum) = .ok s) (hsum : sum.length = addrChecksumSize) : p = q :=
  (List.append_inj' (encode_inj hp hq) ((length_checksum c p).trans hsum.symm)).1

/-- What is accepted is written as the same text, or has no byte that could end the tag, and is not
written as the same text then. -/
private theorem decodeAddr_cases {s : Bytes} {tag : UInt64} {data : Bytes}
    (h : decodeAddr c s = .ok (tag, data)) :
    ∃ payload, encode (payload ++ checksum c payload) = .ok s ∧
      (encodeAddr c tag data = .ok s ∧ (∃ b ∈ payload, b < 0x80) ∨
        encodeAddr c tag data ≠ .ok s ∧ data = [] ∧ ∀ b ∈ payload, 0x80 ≤ b) := by
  obtain ⟨payload, -, henc, hpos, htag, hdata⟩ := decodeAddr_eq_ok.mp h
  refine ⟨payload, henc, ?_⟩
  rcases readVarint64_cases payload with ⟨v, d, rfl, hread⟩ | hneg | ⟨hread, hall⟩
  · left
    rw [hread, Int.toNat_natCast, List.drop_left] at hdata
    rw [hread] at htag
    subst htag hdata
    obtain ⟨b, hb, hlt⟩ := exists_mem_getVarintData_lt tag
    exact ⟨henc, b, List.mem_append_left _ hb, hlt⟩
  · omega
  · right
    rw [hread, Int.toNat_natCast, List.drop_length] at hdata
    refine ⟨fun hsame ↦ ?_, hdata, hall⟩
    have heq := payload_inj c hsame henc (length_checksum c payload)
    obtain ⟨b, hb, hlt⟩ := exists_mem_getVarintData_lt tag
    have hge := hall b (heq ▸ List.mem_append_left _ hb)
    exact absurd hlt (UInt8.not_lt.mpr hge)

/-- **The codec of addresses.** A tag and data come back from their text. A text that is accepted is the
text of what was read from it exactly if, apart from the checksum, it has a byte without the bit that
announces a further one. -/
theorem encodeAddr_decodeAddr :
    (∀ tag data, ∃ s, encodeAddr c tag data = .ok s ∧ decodeAddr c s = .ok (tag, data)) ∧
    ∀ s tag data, decodeAddr c s = .ok (tag, data) →
      (encodeAddr c tag data = .ok s ↔
        ∃ payload sum, sum.length = addrChecksumSize ∧ encode (payload ++ sum) = .ok s ∧
          ∃ b ∈ payload, b < 0x80) := by
  refine ⟨decodeAddr_encodeAddr c, fun s tag data h ↦ ?_⟩
  obtain ⟨payload, henc, hcases⟩ := decodeAddr_cases c h
  have hlength := length_checksum c payload
  rcases hcases with ⟨hsame, hlow⟩ | ⟨hother, -, hall⟩
  · exact ⟨fun _ ↦ ⟨payload, _, hlength, henc, hlow⟩, fun _ ↦ hsame⟩
  · refine ⟨fun h ↦ absurd h hother, ?_⟩
    rintro ⟨payload', sum, hsum, henc', b, hb, hlt⟩
    obtain rfl := payload_inj c henc henc' hsum
    exact absurd hlt (UInt8.not_lt.mpr (hall b hb))

/-- A tag that the end of the text cuts off is read as if it had ended. -/
theorem decodeAddr_truncated :
    ¬∀ (c : Crypto) (s : Bytes) (tag : UInt64) (data : Bytes), decodeAddr c s = .ok (tag, data) →
      encodeAddr c tag data = .ok s := by
  intro hall
  have hother := hall .lax (ascii "FSb3FGK") 0 [] (by decide +kernel)
  revert hother
  decide +kernel

end Base58

/-! ## Addresses of accounts -/

private theorem canonical_readAccountPublicAddress :
    Canonical readAccountPublicAddress writeAccountPublicAddress := by
  intro v s x rest h
  obtain ⟨_, t, h₁, h₂⟩ := andThen_eq_some.mp h
  obtain ⟨spend, hspend, rfl⟩ := on_eq_some.mp h₁
  obtain ⟨view, hview, rfl⟩ := on_eq_some.mp h₂
  rw [canonical_readHash _ _ _ _ hspend, canonical_readHash _ _ _ _ hview, ← List.append_assoc]
  rfl

private theorem reads_readAccountPublicAddress (v x : AccountPublicAddress) :
    Reads readAccountPublicAddress writeAccountPublicAddress v x := by
  intro rest
  rw [readAccountPublicAddress, writeAccountPublicAddress, List.append_assoc,
    andThen_of_some (on_of_some (reads_readHash _ x.spendPublicKey _))]
  exact on_of_some (reads_readHash _ x.viewPublicKey rest)

private theorem writeAccountPublicAddress_ne_nil (v : AccountPublicAddress) :
    writeAccountPublicAddress v ≠ [] := by
  rw [← List.length_pos_iff, writeAccountPublicAddress, List.length_append, writeHash, length_blobBytes]
  omega

/-- **Addresses have one text.** A text is that of an address exactly if it is what the address is written
as, and the keys of the address are valid: the keys are missing where the tag is cut off. -/
theorem parseAccountAddressString_eq_ok {c : Crypto} {s : Bytes} {tag : UInt64}
    {adr : AccountPublicAddress} :
    parseAccountAddressString c s = .ok (tag, adr) ↔
      getAccountAddressAsStr c tag adr = .ok s ∧ c.keyIsvalid adr.spendPublicKey ∧
        c.keyIsvalid adr.viewPublicKey := by
  constructor
  · intro h
    rw [parseAccountAddressString, bind_eq_ok] at h
    obtain ⟨⟨tag', data⟩, hdec, h⟩ := h
    dsimp only at h
    rcases hread : fromBinary readAccountPublicAddress ⟨0, 0⟩ data with ⟨adr', _ | _⟩
    · rw [hread] at h
      cases h
    rw [hread] at h
    dsimp only at h
    obtain ⟨_, hvalid, h⟩ := bind_eq_ok.mp h
    rw [ensure_eq_ok] at hvalid
    obtain ⟨rfl, rfl⟩ := Prod.mk.inj (Except.ok.inj h)
    have hdata := canonical_readAccountPublicAddress _ _ _ _ (fromBinary_eq_true.mp hread)
    rw [List.append_nil] at hdata
    obtain ⟨payload, -, ⟨hsame, -⟩ | ⟨-, hempty, -⟩⟩ := Base58.decodeAddr_cases c hdec
    · rw [hdata] at hsame
      exact ⟨hsame, hvalid⟩
    · exact absurd (hdata.symm.trans hempty) (writeAccountPublicAddress_ne_nil adr')
  · rintro ⟨henc, hvalid⟩
    obtain ⟨s', henc', hdec⟩ := Base58.decodeAddr_encodeAddr c tag (writeAccountPublicAddress adr)
    obtain rfl := Except.ok.inj (henc'.symm.trans henc)
    have hread : fromBinary readAccountPublicAddress ⟨0, 0⟩ (writeAccountPublicAddress adr) =
        (adr, true) := by
      have hreads := reads_readAccountPublicAddress ⟨0, 0⟩ adr []
      rw [List.append_nil] at hreads
      exact fromBinary_eq_true.mpr hreads
    rw [parseAccountAddressString, hdec, ok_bind, hread]
    dsimp only
    rw [ensure_pos _ hvalid]
    rfl

end CryoNero
