import CryoNero.Codec.Varint
import CryoNero.Core.Base58

/-!
# Base58 is a bijection onto its image

A block is the number that its bytes stand for, and its text is the digits of the number, in as many
places as the largest block of its size needs. So `encode` is a function of the blocks alone
(`encode_flatten`). `decode` accepts a text exactly if it is the text of some bytes, and gives these back
(`decode_cases`). No access to an array is out of range: the digits of a block fit the places that are
there for them, and no letter is read beyond the end of the text.
-/

namespace CryoNero

namespace Base58

open Seria Store Words

/-! ## Tables -/

/-- The letter of a digit. -/
def letter (d : ℕ) : UInt8 := alphabet.getD d 0

/-- The number of letters of a block. -/
def encodedSize (size : ℕ) : ℕ := encodedBlockSizes.getD size 0

/-- The tables fit together, and the letters of a block have room for its number. -/
theorem tables :
    (alphabet.length = 58 ∧ alphabet.Nodup) ∧
    ((∀ n < 256, reverseAlphabet (UInt8.ofNat n) = -1 ∨
        ∃ d ∈ (reverseAlphabet (UInt8.ofNat n)).toNat?, alphabet[d]? = some (UInt8.ofNat n)) ∧
      ∀ c ∈ alphabet, reverseAlphabet c ≠ -1) ∧
    (∀ n < 12, (∃ size < 9, n = encodedSize size ∧ decodedBlockSizesData[n]? = some (size : ℤ)) ∨
      decodedBlockSizesData[n]? = some (-1) ∧ ∀ size < 9, n ≠ encodedSize size) ∧
    (∀ size < 9, 256 ^ size ≤ 58 ^ encodedSize size) ∧
      ∀ size < 8, ((1 : UInt64) <<< UInt64.ofNat (8 * size)).toNat = 256 ^ size := by
  decide +kernel

theorem length_alphabet : alphabet.length = 58 := tables.1.1

private theorem nodup_alphabet : alphabet.Nodup := tables.1.2

private theorem read_alphabet {d : ℕ} (h : d < 58) : readAt alphabet d = .ok (letter d) := by
  rw [readAt, orFail_eq_ok, letter, List.getD_eq_getElem?_getD,
    List.getElem?_eq_getElem (length_alphabet.symm ▸ h), Option.getD_some]

private theorem letter_mem {d : ℕ} (h : d < 58) : letter d ∈ alphabet := by
  rw [letter, List.getD_eq_getElem _ _ (length_alphabet.symm ▸ h)]
  exact List.getElem_mem _

private theorem idxOf_letter {d : ℕ} (h : d < 58) : alphabet.idxOf (letter d) = d := by
  rw [letter, List.getD_eq_getElem _ _ (length_alphabet.symm ▸ h)]
  exact nodup_alphabet.idxOf_getElem d _

private theorem letter_idxOf {c : UInt8} (h : c ∈ alphabet) : letter (alphabet.idxOf c) = c := by
  rw [letter, List.getD_eq_getElem _ _ (List.idxOf_lt_length_iff.mpr h)]
  exact List.getElem_idxOf _

private theorem idxOf_lt {c : UInt8} (h : c ∈ alphabet) : alphabet.idxOf c < 58 :=
  length_alphabet ▸ List.idxOf_lt_length_iff.mpr h

private theorem reverseAlphabet_eq (c : UInt8) :
    reverseAlphabet c = if c ∈ alphabet then (alphabet.idxOf c : ℤ) else -1 := by
  -- an entry of the table is either no digit or the place of its letter
  obtain ⟨-, ⟨hall, hletters⟩, -⟩ := tables
  have hc := hall c.toNat c.toNat_lt
  rw [UInt8.ofNat_toNat] at hc
  rcases hc with hno | ⟨d, hd, hget⟩
  · rw [if_neg fun hmem ↦ hletters c hmem hno, hno]
  · obtain ⟨hlt, hletter⟩ := List.getElem?_eq_some_iff.mp hget
    rw [if_pos (hletter ▸ List.getElem_mem hlt), ← hletter, nodup_alphabet.idxOf_getElem d hlt, hletter]
    exact (Int.mem_toNat?.mp hd)

private theorem read_encodedBlockSizes {size : ℕ} (h : size ≤ 8) :
    readAt encodedBlockSizes size = .ok (encodedSize size) := by
  have hall : ∀ size < 9, encodedBlockSizes[size]? = some (encodedSize size) := by decide
  exact orFail_eq_ok.mpr (hall size (by omega))

private theorem encodedSize_le {size : ℕ} (h : size ≤ 8) : encodedSize size ≤ 11 := by
  have hall : ∀ size < 9, encodedSize size ≤ 11 := by decide
  exact hall size (by omega)

theorem encodedSize_lt {size : ℕ} (h : size < 8) : encodedSize size < 11 := by
  have hall : ∀ size < 8, encodedSize size < 11 := by decide
  exact hall size h

theorem encodedSize_inj {size size' : ℕ} (h : size ≤ 8) (h' : size' ≤ 8)
    (heq : encodedSize size = encodedSize size') : size = size' := by
  have hall : ∀ size < 9, ∀ size' < 9, encodedSize size = encodedSize size' → size = size' := by decide
  exact hall size (by omega) size' (by omega) heq

private theorem decodedBlockSizes_cases {n : ℕ} (h : n ≤ 11) :
    (∃ size, size ≤ 8 ∧ n = encodedSize size ∧ decodedBlockSizes n = .ok (size : ℤ)) ∨
      decodedBlockSizes n = .ok (-1) ∧ ∀ size ≤ 8, n ≠ encodedSize size := by
  obtain ⟨-, -, hall, -⟩ := tables
  rcases hall n (by omega) with ⟨size, hsize, hn, hget⟩ | ⟨hget, hnot⟩
  · exact .inl ⟨size, by omega, hn, orFail_eq_ok.mpr hget⟩
  · exact .inr ⟨orFail_eq_ok.mpr hget, fun size hsize ↦ hnot size (by omega)⟩

private theorem pow_le_pow_encodedSize {size : ℕ} (h : size ≤ 8) : 256 ^ size ≤ 58 ^ encodedSize size := by
  obtain ⟨-, -, -, hall, -⟩ := tables
  exact hall size (by omega)

/-! ## Numbers and their digits -/

private theorem digitsAppend_succ (i n : ℕ) :
    Nat.digitsAppend 58 (i + 1) n = n % 58 :: Nat.digitsAppend 58 i (n / 58) := by
  rcases Nat.eq_zero_or_pos n with rfl | hn
  · rw [Nat.zero_mod, Nat.zero_div, Nat.digitsAppend, Nat.digitsAppend, Nat.digits_zero]
    rfl
  · rw [Nat.digitsAppend, Nat.digits_def' (by omega) hn, List.length_cons, Nat.add_sub_add_right]
    rfl

/-- The number that letters stand for. -/
def value (text : Bytes) : ℕ := Nat.ofDigits 58 (text.reverse.map alphabet.idxOf)

private theorem value_append_singleton (text : Bytes) (c : UInt8) :
    value (text ++ [c]) = alphabet.idxOf c + 58 * value text := by
  rw [value, List.reverse_append, List.reverse_singleton, List.singleton_append, List.map_cons,
    Nat.ofDigits_cons]
  rfl

/-- The letters of a block of bytes. -/
def blockText (block : Bytes) : Bytes :=
  (Nat.digitsAppend 58 (encodedSize block.length) (beNat block)).reverse.map letter

theorem beNat_lt_pow {block : Bytes} (h : block.length ≤ 8) :
    beNat block < 58 ^ encodedSize block.length :=
  (beNat_lt block).trans_le (pow_le_pow_encodedSize h)

theorem length_blockText {block : Bytes} (h : block.length ≤ 8) :
    (blockText block).length = encodedSize block.length := by
  rw [blockText, List.length_map, List.length_reverse,
    Nat.length_digitsAppend (by omega) _ (beNat_lt_pow h)]

theorem mem_alphabet_of_mem_blockText {block : Bytes} {c : UInt8} (h : c ∈ blockText block) :
    c ∈ alphabet := by
  obtain ⟨d, hd, rfl⟩ := List.mem_map.mp h
  exact letter_mem (Nat.lt_of_mem_digitsAppend (by omega) _ d (List.mem_reverse.mp hd))

theorem value_blockText {block : Bytes} (h : block.length ≤ 8) :
    value (blockText block) = beNat block := by
  have hinv := Nat.setInvOn_digitsAppend_ofDigits (by omega : 1 < 58) (encodedSize block.length)
  have hdigits : (Nat.digitsAppend 58 (encodedSize block.length) (beNat block)).map
      (alphabet.idxOf ∘ letter) =
        Nat.digitsAppend 58 (encodedSize block.length) (beNat block) := by
    refine (List.map_congr_left fun d hd ↦ ?_).trans (List.map_id _)
    exact idxOf_letter (Nat.lt_of_mem_digitsAppend (by omega) _ d hd)
  rw [value, blockText, ← List.map_reverse, List.reverse_reverse, List.map_map, hdigits]
  exact hinv.2 (beNat_lt_pow h)

private theorem blockText_beBytes {text : Bytes} {size : ℕ} (hletters : ∀ c ∈ text, c ∈ alphabet)
    (hlength : text.length = encodedSize size) (hvalue : value text < 256 ^ size) :
    blockText (beBytes size (value text)) = text := by
  have hinv := Nat.setInvOn_digitsAppend_ofDigits (by omega : 1 < 58) text.length
  rw [blockText, length_beBytes, beNat_beBytes, Nat.mod_eq_of_lt hvalue, ← hlength, value]
  have hsame := hinv.1 (x := text.reverse.map alphabet.idxOf) ⟨by simp, fun d hd ↦ ?_⟩
  · rw [hsame, ← List.map_reverse, List.reverse_reverse, List.map_map]
    refine (List.map_congr_left fun c hc ↦ ?_).trans (List.map_id _)
    exact letter_idxOf (hletters c hc)
  · obtain ⟨c, hc, rfl⟩ := List.mem_map.mp hd
    exact idxOf_lt (hletters c (List.mem_reverse.mp hc))

private theorem blockText_inj {b b' : Bytes} (hb : b.length ≤ 8) (hb' : b'.length ≤ 8)
    (h : blockText b = blockText b') : b = b' := by
  have hlength : b.length = b'.length := by
    refine encodedSize_inj hb hb' ?_
    rw [← length_blockText hb, h, length_blockText hb']
  rw [← beBytes_beNat b, ← value_blockText hb, h, value_blockText hb', hlength, beBytes_beNat]

/-! ## Encoding -/

/-- **Spec of the digits.** The places that are left get the digits of the number, the lowest one first,
and the higher ones keep the first letter. -/
private theorem encodeDigits_ok (out tail : Bytes) {i : ℕ} {num : UInt64} (h : num.toNat < 58 ^ i) :
    encodeDigits out.length i num (out ++ (List.replicate i 0x31 ++ tail)) =
      .ok (out ++ ((Nat.digitsAppend 58 i num.toNat).reverse.map letter ++ tail)) := by
  induction i generalizing num tail with
  | zero =>
    obtain rfl : num = 0 := UInt64.toNat_inj.mp (Nat.lt_one_iff.mp h)
    rfl
  | succ i ih =>
    rw [encodeDigits]
    by_cases hzero : num = 0
    · subst hzero
      rw [if_pos rfl, UInt64.toNat_zero, Nat.digitsAppend, Nat.digits_zero, List.nil_append,
        List.length_nil, List.reverse_replicate, List.map_replicate]
      rfl
    · have hdiv : (num / 58).toNat = num.toNat / 58 := UInt64.toNat_div _ _
      have hmod : (num % 58).toNat = num.toNat % 58 := UInt64.toNat_mod _ _
      have hlt : (num / 58).toNat < 58 ^ i := by
        rw [hdiv]
        rw [pow_succ] at h
        omega
      have hplace : out ++ (List.replicate (i + 1) 0x31 ++ tail) =
          (out ++ List.replicate i 0x31) ++ 0x31 :: tail := by
        rw [List.replicate_succ', List.append_assoc, List.append_assoc]
        rfl
      have hlength : out.length + i = (out ++ List.replicate i (0x31 : UInt8)).length := by
        rw [List.length_append, List.length_replicate]
      rw [if_neg hzero]
      dsimp only
      rw [hmod, read_alphabet (Nat.mod_lt _ (by omega)), ok_bind, hplace, hlength,
        writeAt_append, ok_bind, List.append_assoc, ih _ hlt, hdiv, digitsAppend_succ, List.reverse_cons,
        List.map_append, List.append_assoc]
      rfl

private theorem toNat_uintBeFromBytes {block : Bytes} (h : block.length ≤ 8) :
    (uintBeFromBytes block).toNat = beNat block := by
  have hlt : beNat block < 256 ^ 8 := (beNat_lt block).trans_le (Nat.pow_le_pow_right (by omega) h)
  rw [uintBeFromBytes_eq, UInt64.toNat_ofNat']
  exact Nat.mod_eq_of_lt hlt

/-- **Spec of a block.** -/
private theorem encodeBlock_ok {block : Bytes} (h : block.length ≤ 8) (more out tail : Bytes) :
    encodeBlock (block ++ more) block.length
        (out ++ (List.replicate (encodedSize block.length) 0x31 ++ tail)) out.length =
      .ok (out ++ (blockText block ++ tail)) := by
  have hnum : (uintBeFromBytes block).toNat = beNat block := toNat_uintBeFromBytes h
  rw [encodeBlock, ensure_pos _ (by simp), ok_bind, read_encodedBlockSizes h, ok_bind,
    List.take_left, encodeDigits_ok _ _ (by rw [hnum]; exact beNat_lt_pow h), hnum]
  rfl

private theorem encodeBlocks_ok (blocks : List Bytes) (hblocks : ∀ b ∈ blocks, b.length = 8)
    (before more out tail : Bytes) {k : ℕ} (hbefore : before.length = k * 8)
    (hout : out.length = k * 11) :
    (List.range' k blocks.length).foldlM (fun res i ↦
        encodeBlock ((before ++ (blocks.flatten ++ more)).drop (i * fullBlockSize)) fullBlockSize res
          (i * fullEncodedBlockSize))
        (out ++ (List.replicate (blocks.length * 11) 0x31 ++ tail)) =
      .ok (out ++ (blocks.flatMap blockText ++ tail)) := by
  induction blocks generalizing before out k with
  | nil =>
    rw [List.length_nil, Nat.zero_mul]
    rfl
  | cons b blocks ih =>
    rw [List.forall_mem_cons] at hblocks
    obtain ⟨hb, hblocks⟩ := hblocks
    have hle : b.length ≤ 8 := hb.le
    have hroom : out ++ (List.replicate ((b :: blocks).length * 11) 0x31 ++ tail) =
        out ++ (List.replicate (encodedSize b.length) 0x31 ++
          (List.replicate (blocks.length * 11) 0x31 ++ tail)) := by
      rw [← List.append_assoc (List.replicate _ _), List.replicate_append_replicate, hb,
        List.length_cons, Nat.succ_mul, Nat.add_comm]
      rfl
    have hdrop : (before ++ ((b :: blocks).flatten ++ more)).drop (k * fullBlockSize) =
        b ++ (blocks.flatten ++ more) := by
      rw [List.drop_left' (by rw [hbefore]; rfl), List.flatten_cons, List.append_assoc]
    have hstep := encodeBlock_ok hle (blocks.flatten ++ more) out
      (List.replicate (blocks.length * 11) 0x31 ++ tail)
    rw [hb, hout] at hstep
    rw [hroom, hb, List.length_cons, List.range'_succ, List.foldlM_cons, hdrop]
    refine Eq.trans (congrArg (· >>= _) hstep) ?_
    rw [ok_bind, ← List.append_assoc out]
    have hnext := ih hblocks (before ++ b) (out ++ blockText b) (k := k + 1) ?_ ?_
    · rw [List.flatMap_cons, List.append_assoc (blockText b), ← List.append_assoc out]
      refine Eq.trans ?_ hnext
      rw [List.flatten_cons, List.append_assoc b, List.append_assoc before]
    · rw [List.length_append, hbefore, hb, Nat.succ_mul]
    · rw [List.length_append, hout, length_blockText hle, hb, Nat.succ_mul]
      rfl

/-! ## Blocks of a text -/

section Blocks

variable {α : Type} {n : ℕ}

theorem length_flatten_eq {blocks : List (List α)} (h : ∀ b ∈ blocks, b.length = n) :
    blocks.flatten.length = blocks.length * n := by
  induction blocks with
  | nil => rw [List.flatten_nil, List.length_nil, List.length_nil, Nat.zero_mul]
  | cons b blocks ih =>
    rw [List.forall_mem_cons] at h
    rw [List.flatten_cons, List.length_append, h.1, ih h.2, List.length_cons, Nat.succ_mul, Nat.add_comm]

private theorem exists_blocks (hn : 0 < n) (x : List α) :
    ∃ blocks last, x = List.flatten blocks ++ last ∧ (∀ b ∈ blocks, b.length = n) ∧
      last.length < n := by
  induction hlength : x.length using Nat.strong_induction_on generalizing x with
  | _ l ih =>
    rcases Nat.lt_or_ge x.length n with hlt | hge
    · exact ⟨[], x, rfl, nofun, hlt⟩
    · have hdrop : (x.drop n).length < l := by
        rw [List.length_drop]
        omega
      obtain ⟨blocks, last, hx, hblocks, hlast⟩ := ih _ hdrop (x.drop n) rfl
      refine ⟨x.take n :: blocks, last, ?_, ?_, hlast⟩
      · rw [List.flatten_cons, List.append_assoc, ← hx, List.take_append_drop]
      · exact List.forall_mem_cons.mpr ⟨List.length_take_of_le hge, hblocks⟩

private theorem blocks_div_mod {blocks : List (List α)} {last : List α} (h : ∀ b ∈ blocks, b.length = n)
    (hlast : last.length < n) : (blocks.flatten ++ last).length / n = blocks.length ∧
      (blocks.flatten ++ last).length % n = last.length := by
  rw [List.length_append, length_flatten_eq h]
  constructor
  · rw [Nat.add_comm, Nat.add_mul_div_right _ _ (by omega), Nat.div_eq_of_lt hlast, Nat.zero_add]
  · rw [Nat.add_comm, Nat.add_mul_mod_self_right, Nat.mod_eq_of_lt hlast]

/-- The blocks of a list are unique. -/
theorem exists_eq_append_of_flatten_append_eq {blocks blocks' : List (List α)} {last more : List α}
    (h : ∀ b ∈ blocks, b.length = n) (hlast : last.length < n) (h' : ∀ b ∈ blocks', b.length = n)
    (heq : blocks.flatten ++ last = blocks'.flatten ++ more) :
    ∃ rest, blocks = blocks' ++ rest ∧ more = rest.flatten ++ last := by
  induction blocks' generalizing blocks with
  | nil => exact ⟨blocks, rfl, heq.symm⟩
  | cons b' blocks' ih =>
    rw [List.forall_mem_cons] at h'
    rw [List.flatten_cons, List.append_assoc] at heq
    cases blocks with
    | nil =>
      have hlength := congrArg List.length heq
      rw [List.flatten_nil, List.nil_append, List.length_append, h'.1] at hlength
      omega
    | cons b blocks =>
      rw [List.forall_mem_cons] at h
      rw [List.flatten_cons, List.append_assoc] at heq
      obtain ⟨rfl, htail⟩ := List.append_inj heq (h.1.trans h'.1.symm)
      obtain ⟨rest, rfl, hmore⟩ := ih h.2 h'.2 htail
      exact ⟨rest, rfl, hmore⟩

end Blocks

theorem length_flatMap_blockText {blocks : List Bytes} (h : ∀ b ∈ blocks, b.length = 8) :
    (blocks.flatMap blockText).length = blocks.length * 11 := by
  rw [List.flatMap_def, length_flatten_eq (n := 11), List.length_map]
  intro t ht
  obtain ⟨b, hb, rfl⟩ := List.mem_map.mp ht
  rw [length_blockText (h b hb).le, h b hb]
  rfl

private theorem encode_flatten {blocks : List Bytes} {last : Bytes} (hblocks : ∀ b ∈ blocks, b.length = 8)
    (hlast : last.length < 8) :
    encode (blocks.flatten ++ last) = .ok (blocks.flatMap blockText ++ blockText last) := by
  obtain ⟨hdiv, hmod⟩ := blocks_div_mod hblocks hlast
  by_cases hempty : blocks.flatten ++ last = []
  · have hzero := congrArg List.length hempty
    rw [List.length_append, length_flatten_eq hblocks, List.length_nil] at hzero
    obtain rfl := List.length_eq_zero_iff.mp (by omega : blocks.length = 0)
    obtain rfl := List.length_eq_zero_iff.mp (by omega : last.length = 0)
    rfl
  · have hloop := encodeBlocks_ok blocks hblocks [] last []
      (List.replicate (encodedSize last.length) 0x31) (k := 0) rfl rfl
    rw [encode, if_neg hempty]
    simp only [fullBlockSize, fullEncodedBlockSize, hdiv, hmod] at hloop ⊢
    rw [read_encodedBlockSizes hlast.le, ok_bind, ← List.replicate_append_replicate, List.range_eq_range']
    refine Eq.trans (congrArg (· >>= _) hloop) ?_
    rw [ok_bind, List.nil_append]
    by_cases hpos : 0 < last.length
    · have hstep := encodeBlock_ok hlast.le [] (blocks.flatMap blockText) []
      rw [List.append_nil, List.append_nil, List.append_nil, length_flatMap_blockText hblocks] at hstep
      rw [if_pos hpos, List.drop_left' (length_flatten_eq hblocks)]
      exact hstep
    · obtain rfl := List.length_eq_zero_iff.mp (by omega : last.length = 0)
      rw [if_neg hpos]
      rfl

/-! ## Decoding -/

/-- **Spec of the letters.** They are refused when one of them is no letter or their number does not fit
64 bits. -/
private theorem decodeDigits_cases {block : Bytes} {i : ℕ} (hi : i ≤ block.length) (resNum order : UInt64)
    (horder : i ≠ 0 → order.toNat * 58 ^ (i - 1) < 2 ^ 64) :
    (∀ c ∈ block.take i, c ∈ alphabet) ∧
        resNum.toNat + order.toNat * value (block.take i) < 2 ^ 64 ∧
        decodeDigits block i resNum order =
          .ok (UInt64.ofNat (resNum.toNat + order.toNat * value (block.take i))) ∨
      ¬((∀ c ∈ block.take i, c ∈ alphabet) ∧
          resNum.toNat + order.toNat * value (block.take i) < 2 ^ 64) ∧
        decodeDigits block i resNum order = .error .refused := by
  induction i generalizing resNum order with
  | zero =>
    left
    refine ⟨by rw [List.take_zero]; exact nofun, resNum.toNat_lt, ?_⟩
    exact congrArg Except.ok UInt64.ofNat_toNat.symm
  | succ i ih =>
    have hget : block[i]? = some block[i] := List.getElem?_eq_getElem (by omega)
    have hread : readAt block i = .ok block[i] := orFail_eq_ok.mpr hget
    have htake : block.take (i + 1) = block.take i ++ [block[i]] := List.take_succ_eq_append_getElem _
    rw [decodeDigits, hread, ok_bind, htake, List.forall_mem_append, List.forall_mem_singleton,
      value_append_singleton, reverseAlphabet_eq]
    dsimp only
    by_cases hc : block[i] ∈ alphabet
    swap
    · exact .inr ⟨fun h ↦ hc h.1.2, by rw [if_neg hc]; rfl⟩
    rw [if_pos hc]
    set d := alphabet.idxOf block[i]
    have hd : d < 58 := idxOf_lt hc
    rw [ensure_pos _ (by omega), ok_bind, Int.toNat_natCast]
    have hdigit : (UInt64.ofNat d).toNat = d := by
      rw [UInt64.toNat_ofNat', Nat.mod_eq_of_lt (by omega)]
    have hwide := wide_mul128 order (UInt64.ofNat d)
    rw [hdigit, wide] at hwide
    set product := mul128 order (UInt64.ofNat d)
    have hlow := product.2.toNat_lt
    have hadd : (resNum + product.2).toNat = (resNum.toNat + product.2.toNat) % 2 ^ 64 :=
      UInt64.toNat_add _ _
    have hres := resNum.toNat_lt
    have horder := horder (Nat.succ_ne_zero i)
    rw [Nat.add_sub_cancel] at horder
    have hnext (h : i ≠ 0) : (order * 58).toNat = order.toNat * 58 := by
      have hle : 58 ^ 1 ≤ 58 ^ i := Nat.pow_le_pow_right (by omega) (by omega)
      rw [UInt64.toNat_mul]
      exact Nat.mod_eq_of_lt ((Nat.mul_le_mul_left _ hle).trans_lt horder)
    by_cases hfits : resNum.toNat + order.toNat * d < 2 ^ 64
    · have hhigh : product.1.toNat = 0 := by omega
      have htmp : (resNum + product.2).toNat = resNum.toNat + order.toNat * d := by
        rw [hadd]
        omega
      have hgoes : ¬(resNum + product.2 < resNum ∨ product.1 ≠ 0) := by
        rw [UInt64.lt_iff_toNat_lt, htmp]
        rintro (hlt | hne)
        · omega
        · exact hne (UInt64.toNat_inj.mp hhigh)
      rw [ensure_pos _ hgoes, ok_bind]
      have hsum : (resNum + product.2).toNat + (order * 58).toNat * value (block.take i) =
          resNum.toNat + order.toNat * (d + 58 * value (block.take i)) := by
        rw [htmp]
        by_cases hlast : i = 0
        · subst hlast
          rw [List.take_zero]
          rfl
        · rw [hnext hlast, Nat.mul_add, Nat.add_assoc, Nat.mul_assoc]
      have hrest := ih (by omega) (resNum + product.2) (order * 58) ?_
      · rw [hsum] at hrest
        rcases hrest with ⟨hletters, hlt, hok⟩ | ⟨hnot, herror⟩
        · exact .inl ⟨⟨hletters, hc⟩, hlt, hok⟩
        · exact .inr ⟨fun h ↦ hnot ⟨h.1.1, h.2⟩, herror⟩
      · intro hmore
        rw [hnext hmore, Nat.mul_assoc, ← pow_succ', Nat.sub_add_cancel (by omega)]
        exact horder
    · -- what is read so far does not fit, and the letters that are left only add to it
      right
      have hstops : resNum + product.2 < resNum ∨ product.1 ≠ 0 := by
        rcases Nat.eq_zero_or_pos product.1.toNat with hzero | hpos
        · left
          rw [UInt64.lt_iff_toNat_lt, hadd]
          omega
        · exact .inr fun h ↦ by rw [h] at hpos; exact absurd hpos (by decide)
      refine ⟨fun h ↦ hfits ?_, ?_⟩
      · have hmul : order.toNat * d ≤ order.toNat * (d + 58 * value (block.take i)) :=
          Nat.mul_le_mul_left _ (Nat.le_add_right _ _)
        omega
      · rw [ensure, if_neg fun h ↦ h hstops]
        rfl

private theorem toNat_one_shiftLeft {size : ℕ} (h : size < 8) :
    ((1 : UInt64) <<< UInt64.ofNat (8 * size)).toNat = 256 ^ size := by
  obtain ⟨-, -, -, -, hall⟩ := tables
  exact hall size h

/-- **Spec of a block.** It is the text of some bytes, which are written to their place, or it is
refused. -/
private theorem decodeBlock_cases {block : Bytes} {size : ℕ} (hpos : 0 < size) (hsize : size ≤ 8)
    (hlength : encodedSize size ≤ block.length) {room : Bytes} (hroom : room.length = size)
    (out tail : Bytes) :
    (∃ b, b.length = size ∧ block.take (encodedSize size) = blockText b ∧
        decodeBlock block (encodedSize size) (out ++ (room ++ tail)) out.length =
          .ok (out ++ (b ++ tail))) ∨
      (∀ b : Bytes, b.length = size → block.take (encodedSize size) ≠ blockText b) ∧
        decodeBlock block (encodedSize size) (out ++ (room ++ tail)) out.length = .error .refused := by
  have hsizes : decodedBlockSizes (encodedSize size) = .ok (size : ℤ) := by
    rcases decodedBlockSizes_cases (encodedSize_le hsize) with ⟨size', hsize', heq, hok⟩ | ⟨-, hnot⟩
    · rw [hok, encodedSize_inj hsize hsize' heq]
    · exact absurd rfl (hnot size hsize)
  have hletters := decodeDigits_cases hlength 0 1 fun hne ↦ by
    have hle := encodedSize_le hsize
    calc (1 : UInt64).toNat * 58 ^ (encodedSize size - 1)
        ≤ 1 * 58 ^ 10 := Nat.mul_le_mul_left _ (Nat.pow_le_pow_right (by omega) (by omega))
      _ < 2 ^ 64 := by norm_num
  rw [UInt64.toNat_zero, UInt64.toNat_one, Nat.zero_add, Nat.one_mul] at hletters
  rw [decodeBlock, hsizes, ok_bind, ensure_pos _ (by omega), ok_bind, Int.toNat_natCast]
  set text := block.take (encodedSize size)
  -- the text of bytes has letters only, and a number that fits its block
  have hnone (hbad : ¬((∀ c ∈ text, c ∈ alphabet) ∧ value text < 256 ^ size)) (b : Bytes)
      (hb : b.length = size) : text ≠ blockText b := by
    rintro heq
    refine hbad ⟨fun c hc ↦ mem_alphabet_of_mem_blockText (heq ▸ hc), ?_⟩
    rw [heq, value_blockText (hb.trans_le hsize), ← hb]
    exact beNat_lt b
  have hfull : 256 ^ size ≤ 2 ^ 64 := Nat.pow_le_pow_right (n := 256) (by omega) hsize
  rcases hletters with ⟨hletters, hlt, hok⟩ | ⟨hnot, herror⟩
  · have hvalue : (UInt64.ofNat (value text)).toNat = value text := by
      rw [UInt64.toNat_ofNat', Nat.mod_eq_of_lt hlt]
    rw [hok, ok_bind]
    by_cases hfits : value text < 256 ^ size
    · left
      have hgoes : ¬(size < fullBlockSize ∧
          (1 : UInt64) <<< UInt64.ofNat (8 * size) ≤ UInt64.ofNat (value text)) := by
        rintro ⟨hsmall, hle⟩
        rw [UInt64.le_iff_toNat_le, toNat_one_shiftLeft hsmall, hvalue] at hle
        omega
      refine ⟨beBytes size (value text), length_beBytes _ _, (blockText_beBytes hletters ?_ hfits).symm, ?_⟩
      · exact List.length_take_of_le hlength
      · rw [ensure_pos _ hgoes, ok_bind, uintBeToBytes, hvalue,
          copyTo_append _ _ _ _ (by rw [hroom, length_beBytes])]
    · right
      refine ⟨hnone fun h ↦ hfits h.2, ?_⟩
      have hsmall : size < 8 := by
        by_contra hge
        obtain rfl : size = 8 := by omega
        exact hfits hlt
      have hstops : size < fullBlockSize ∧
          (1 : UInt64) <<< UInt64.ofNat (8 * size) ≤ UInt64.ofNat (value text) := by
        rw [UInt64.le_iff_toNat_le, toNat_one_shiftLeft hsmall, hvalue]
        exact ⟨hsmall, Nat.le_of_not_lt hfits⟩
      rw [ensure, if_neg fun h ↦ h hstops]
      rfl
  · right
    refine ⟨hnone fun h ↦ hnot ⟨h.1, h.2.trans_le hfull⟩, ?_⟩
    rw [herror]
    rfl

private theorem decodeBlocks_cases (n : ℕ) (before rest out room tail : Bytes) {k : ℕ}
    (hbefore : before.length = k * 11) (hout : out.length = k * 8) (hrest : n * 11 ≤ rest.length)
    (hroom : room.length = n * 8) :
    (∃ (blocks : List Bytes) (more : Bytes), blocks.length = n ∧ (∀ b ∈ blocks, b.length = 8) ∧
        rest = blocks.flatMap blockText ++ more ∧
        (List.range' k n).foldlM (fun data i ↦ decodeBlock ((before ++ rest).drop (i * 11)) 11 data (i * 8))
          (out ++ (room ++ tail)) = .ok (out ++ (blocks.flatten ++ tail))) ∨
      (∀ (blocks : List Bytes) (more : Bytes), blocks.length = n → (∀ b ∈ blocks, b.length = 8) →
        rest ≠ blocks.flatMap blockText ++ more) ∧
        (List.range' k n).foldlM (fun data i ↦ decodeBlock ((before ++ rest).drop (i * 11)) 11 data (i * 8))
          (out ++ (room ++ tail)) = .error .refused := by
  induction n generalizing before rest out room k with
  | zero =>
    obtain rfl := List.length_eq_zero_iff.mp (hroom.trans (Nat.zero_mul 8))
    exact .inl ⟨[], rest, rfl, nofun, rfl, rfl⟩
  | succ n ih =>
    have hdrop : (before ++ rest).drop (k * 11) = rest := List.drop_left' hbefore
    have hfirst : out ++ (room ++ tail) = out ++ (room.take 8 ++ (room.drop 8 ++ tail)) := by
      rw [← List.append_assoc (room.take 8), List.take_append_drop]
    have hlength : (room.take 8).length = 8 := List.length_take_of_le (by omega)
    have hstart (b : Bytes) (bs : List Bytes) (more : Bytes) (hb : b.length = 8)
        (heq : rest = (b :: bs).flatMap blockText ++ more) :
        rest.take 11 = blockText b ∧ rest.drop 11 = bs.flatMap blockText ++ more := by
      have hb' : (blockText b).length = 11 := by rw [length_blockText hb.le, hb]; rfl
      rw [heq, List.flatMap_cons, List.append_assoc]
      exact ⟨List.take_left' hb', List.drop_left' hb'⟩
    have hfull : encodedSize 8 ≤ rest.length := by
      change 11 ≤ rest.length
      omega
    have hstep := decodeBlock_cases (Nat.succ_pos 7) (le_refl 8) hfull hlength out (room.drop 8 ++ tail)
    rw [show encodedSize 8 = 11 from rfl, ← hfirst, hout] at hstep
    rw [List.range'_succ, List.foldlM_cons, hdrop]
    rcases hstep with ⟨b, hb, htext, hok⟩ | ⟨hnone, herror⟩
    · have hb' : (blockText b).length = 11 := by rw [length_blockText hb.le, hb]; rfl
      have hmove : before ++ rest = before ++ blockText b ++ rest.drop 11 := by
        rw [← htext, List.append_assoc, List.take_append_drop]
      have hnext := ih (before ++ blockText b) (rest.drop 11) (out ++ b) (room.drop 8)
        (k := k + 1) (by rw [List.length_append]; omega)
        (by rw [List.length_append]; omega) (by rw [List.length_drop]; omega)
        (by rw [List.length_drop]; omega)
      rw [hok, ok_bind, ← List.append_assoc out, hmove]
      rcases hnext with ⟨blocks, more, hcount, hblocks, heq, hloop⟩ | ⟨hnone, hloop⟩
      · refine .inl ⟨b :: blocks, more, congrArg (· + 1) hcount,
          List.forall_mem_cons.mpr ⟨hb, hblocks⟩, ?_, ?_⟩
        · rw [List.flatMap_cons, List.append_assoc, ← heq, ← htext, List.take_append_drop]
        · rw [hloop, List.flatten_cons, List.append_assoc, List.append_assoc]
      · refine .inr ⟨fun blocks more hcount hblocks heq ↦ ?_, hloop⟩
        obtain ⟨b', bs, rfl⟩ := List.exists_cons_of_length_eq_add_one hcount
        rw [List.forall_mem_cons] at hblocks
        exact hnone bs more (Nat.succ.inj hcount) hblocks.2 (hstart b' bs more hblocks.1 heq).2
    · refine .inr ⟨fun blocks more hcount hblocks heq ↦ ?_, by rw [herror]; rfl⟩
      obtain ⟨b', bs, rfl⟩ := List.exists_cons_of_length_eq_add_one hcount
      rw [List.forall_mem_cons] at hblocks
      exact hnone b' hblocks.1 (hstart b' bs more hblocks.1 heq).1

/-- **Spec of the decoder.** A text is that of some bytes, which it gives back, or it is refused. -/
theorem decode_cases (enc : Bytes) :
    (∃ (blocks : List Bytes) (last : Bytes), (∀ b ∈ blocks, b.length = 8) ∧ last.length < 8 ∧
        enc = blocks.flatMap blockText ++ blockText last ∧
        decode enc = .ok (blocks.flatten ++ last)) ∨
      (∀ (blocks : List Bytes) (last : Bytes), (∀ b ∈ blocks, b.length = 8) → last.length < 8 →
        enc ≠ blocks.flatMap blockText ++ blockText last) ∧ decode enc = .error .refused := by
  by_cases hempty : enc = []
  · subst hempty
    exact .inl ⟨[], [], nofun, by decide, rfl, rfl⟩
  have hmod := Nat.mod_lt enc.length (by omega : 0 < 11)
  have hdiv := Nat.div_add_mod enc.length 11
  -- the lengths of the blocks of a text
  have hlengths (blocks : List Bytes) (last : Bytes) (hblocks : ∀ b ∈ blocks, b.length = 8)
      (hlast : last.length < 8) (heq : enc = blocks.flatMap blockText ++ blockText last) :
      enc.length / 11 = blocks.length ∧ enc.length % 11 = encodedSize last.length := by
    have hlt := encodedSize_lt hlast
    have hlength := congrArg List.length heq
    rw [List.length_append, length_flatMap_blockText hblocks, length_blockText hlast.le] at hlength
    omega
  rw [decode, if_neg hempty]
  simp only [fullBlockSize, fullEncodedBlockSize]
  rcases decodedBlockSizes_cases hmod.le with ⟨size, hsize, hn, hok⟩ | ⟨hok, hnot⟩
  swap
  · right
    refine ⟨fun blocks last hblocks hlast heq ↦ ?_, by rw [hok]; rfl⟩
    exact hnot last.length hlast.le (hlengths blocks last hblocks hlast heq).2
  have hsmall : size < 8 := by
    by_contra hge
    obtain rfl : size = 8 := by omega
    rw [show encodedSize 8 = 11 from rfl] at hn
    omega
  have hloop := decodeBlocks_cases (enc.length / 11) [] enc [] (List.replicate (enc.length / 11 * 8) 0)
    (List.replicate size 0) (k := 0) rfl rfl (by omega) List.length_replicate
  simp only [List.replicate_append_replicate, ← List.range_eq_range', List.nil_append] at hloop
  rw [hok, ok_bind, ensure_pos _ (by omega), ok_bind, Int.toNat_natCast]
  rcases hloop with ⟨blocks, more, hcount, hblocks, heq, hloop⟩ | ⟨hnone, hloop⟩
  swap
  · right
    refine ⟨fun blocks last hblocks hlast heq ↦ ?_, by rw [hloop]; rfl⟩
    exact hnone blocks _ (hlengths blocks last hblocks hlast heq).1.symm hblocks heq
  rw [hloop, ok_bind]
  have hmore (blocks' : List Bytes) (more' : Bytes) (hblocks' : ∀ b ∈ blocks', b.length = 8)
      (hcount' : enc.length / 11 = blocks'.length) (heq' : enc = blocks'.flatMap blockText ++ more') :
      enc.drop (enc.length / 11 * 11) = more' := by
    have hdrop : (blocks'.flatMap blockText ++ more').drop (enc.length / 11 * 11) = more' :=
      List.drop_left' (by rw [length_flatMap_blockText hblocks', hcount'])
    rwa [← heq'] at hdrop
  have hdrop := hmore blocks more hblocks hcount.symm heq
  have hlength : more.length = encodedSize size := by
    rw [← hdrop, List.length_drop, ← hn]
    omega
  by_cases hpos : 0 < enc.length % 11
  · have hsizePos : 0 < size := by
      rcases Nat.eq_zero_or_pos size with rfl | hsizePos
      · rw [show encodedSize 0 = 0 from rfl] at hn
        omega
      · exact hsizePos
    have hstep := decodeBlock_cases hsizePos hsize hlength.ge (List.length_replicate (a := (0 : UInt8)))
      blocks.flatten []
    rw [List.append_nil, List.take_of_length_le hlength.le, length_flatten_eq hblocks, hcount, ← hn]
      at hstep
    simp only [if_pos hpos, hdrop]
    rcases hstep with ⟨b, hb, htext, hstep⟩ | ⟨hnone, hstep⟩
    · refine .inl ⟨blocks, b, hblocks, hb.trans_lt hsmall, ?_, ?_⟩
      · rw [heq, htext]
      · rw [hstep, List.append_nil]
    · refine .inr ⟨fun blocks' last hblocks' hlast heq' ↦ ?_, hstep⟩
      obtain ⟨hcount', hn'⟩ := hlengths blocks' last hblocks' hlast heq'
      refine hnone last (encodedSize_inj hlast.le hsize (hn'.symm.trans hn)) ?_
      rw [← hdrop, hmore blocks' _ hblocks' hcount' heq']
  · have hnil : encodedSize size = encodedSize 0 := hn.symm.trans (by change _ = 0; omega)
    obtain rfl := encodedSize_inj hsize (Nat.zero_le 8) hnil
    obtain rfl := List.length_eq_zero_iff.mp (hlength.trans hnil)
    exact .inl ⟨blocks, [], hblocks, by decide, heq, if_neg hpos⟩

/-! ## Round trips -/

theorem length_of_mem_map_blockText {blocks : List Bytes} (h : ∀ b ∈ blocks, b.length = 8) :
    ∀ t ∈ blocks.map blockText, t.length = 11 := by
  intro t ht
  obtain ⟨b, hb, rfl⟩ := List.mem_map.mp ht
  rw [length_blockText (h b hb).le, h b hb]
  rfl

theorem length_blockText_lt {last : Bytes} (h : last.length < 8) : (blockText last).length < 11 :=
  (length_blockText h.le).trans_lt (encodedSize_lt h)

private theorem map_blockText_inj {blocks blocks' : List Bytes} (hblocks : ∀ b ∈ blocks, b.length = 8)
    (hblocks' : ∀ b ∈ blocks', b.length = 8) (h : blocks.map blockText = blocks'.map blockText) :
    blocks = blocks' := by
  induction blocks generalizing blocks' with
  | nil => exact (List.map_eq_nil_iff.mp h.symm).symm
  | cons b blocks ih =>
    obtain ⟨b', bs, rfl, htext, htexts⟩ := List.map_eq_cons_iff.mp h.symm
    rw [List.forall_mem_cons] at hblocks hblocks'
    rw [blockText_inj hblocks'.1.le hblocks.1.le htext, ih hblocks.2 hblocks'.2 htexts.symm]

private theorem flatMap_blockText_inj {blocks blocks' : List Bytes} {last last' : Bytes}
    (hblocks : ∀ b ∈ blocks, b.length = 8) (hlast : last.length < 8)
    (hblocks' : ∀ b ∈ blocks', b.length = 8) (hlast' : last'.length < 8)
    (h : blocks.flatMap blockText ++ blockText last = blocks'.flatMap blockText ++ blockText last') :
    blocks.flatten ++ last = blocks'.flatten ++ last' := by
  rw [List.flatMap_def, List.flatMap_def] at h
  have hfull := length_of_mem_map_blockText hblocks
  obtain ⟨rest, hmap, htext⟩ := exists_eq_append_of_flatten_append_eq hfull (length_blockText_lt hlast)
    (length_of_mem_map_blockText hblocks') h
  -- a further block would make the last one too long
  cases rest with
  | nil =>
    rw [List.append_nil] at hmap
    rw [map_blockText_inj hblocks hblocks' hmap, blockText_inj hlast'.le hlast.le htext]
  | cons t rest =>
    have hlt := length_blockText_lt hlast'
    have ht := hfull t (by rw [hmap]; exact List.mem_append_right _ List.mem_cons_self)
    rw [htext, List.flatten_cons, List.append_assoc, List.length_append, ht] at hlt
    omega

private theorem wellFormed_of_text {blocks : List Bytes} {last s : Bytes}
    (hblocks : ∀ b ∈ blocks, b.length = 8)
    (hlast : last.length < 8) (hs : s = blocks.flatMap blockText ++ blockText last) :
    (∀ c ∈ s, c ∈ alphabet) ∧ s.length % 11 ∈ encodedBlockSizes ∧
      (∀ (texts : List Bytes) (text more : Bytes), s = texts.flatten ++ (text ++ more) →
        (∀ t ∈ texts, t.length = 11) → text.length = 11 → value text < 256 ^ 8) ∧
      ∀ (texts : List Bytes) (text : Bytes) (size : ℕ), s = texts.flatten ++ text →
        (∀ t ∈ texts, t.length = 11) → size < 8 → text.length = encodedSize size →
          value text < 256 ^ size := by
  have hfull := length_of_mem_map_blockText hblocks
  have hshort := length_blockText_lt hlast
  rw [List.flatMap_def] at hs
  refine ⟨fun c hc ↦ ?_, ?_, fun texts text more heq htexts htext ↦ ?_,
    fun texts text size heq htexts hsize htext ↦ ?_⟩
  · rw [hs, List.mem_append, List.mem_flatten] at hc
    rcases hc with ⟨t, ht, hc⟩ | hc
    · obtain ⟨b, -, rfl⟩ := List.mem_map.mp ht
      exact mem_alphabet_of_mem_blockText hc
    · exact mem_alphabet_of_mem_blockText hc
  · have hall : ∀ size < 8, encodedSize size ∈ encodedBlockSizes := by decide
    rw [hs, (blocks_div_mod hfull hshort).2, length_blockText hlast.le]
    exact hall _ hlast
  · have hall : ∀ t ∈ texts ++ [text], t.length = 11 := by
      rw [List.forall_mem_append, List.forall_mem_singleton]
      exact ⟨htexts, htext⟩
    rw [← List.append_assoc, ← List.flatten_concat, hs] at heq
    obtain ⟨rest, hmap, -⟩ := exists_eq_append_of_flatten_append_eq hfull hshort hall heq
    have hmem : text ∈ blocks.map blockText := by
      rw [hmap]
      exact List.mem_append_left _ (List.mem_append_right _ (List.mem_singleton_self _))
    obtain ⟨b, hb, rfl⟩ := List.mem_map.mp hmem
    rw [value_blockText (hblocks b hb).le, ← hblocks b hb]
    exact beNat_lt b
  · obtain ⟨rest, hmap, hrest⟩ := exists_eq_append_of_flatten_append_eq hfull hshort htexts (hs ▸ heq)
    cases rest with
    | nil =>
      rw [List.flatten_nil, List.nil_append] at hrest
      rw [hrest, length_blockText hlast.le] at htext
      rw [hrest, value_blockText hlast.le, ← encodedSize_inj hlast.le hsize.le htext]
      exact beNat_lt last
    | cons t rest =>
      have ht := hfull t (by rw [hmap]; exact List.mem_append_right _ List.mem_cons_self)
      have hlt := encodedSize_lt hsize
      rw [← htext, hrest, List.flatten_cons, List.append_assoc, List.length_append, ht] at hlt
      omega

theorem exists_encode (x : Bytes) : ∃ s, encode x = .ok s ∧ decode s = .ok x := by
  obtain ⟨blocks, last, rfl, hblocks, hlast⟩ := exists_blocks (Nat.succ_pos 7) x
  refine ⟨_, encode_flatten hblocks hlast, ?_⟩
  rcases decode_cases (blocks.flatMap blockText ++ blockText last) with
    ⟨blocks', last', hblocks', hlast', heq, hok⟩ | ⟨hnone, -⟩
  · rw [hok, flatMap_blockText_inj hblocks' hlast' hblocks hlast heq.symm]
  · exact absurd rfl (hnone blocks last hblocks hlast)

theorem encode_of_decode {s x : Bytes} (h : decode s = .ok x) : encode x = .ok s := by
  rcases decode_cases s with ⟨blocks, last, hblocks, hlast, rfl, hok⟩ | ⟨-, herror⟩
  · obtain rfl := Except.ok.inj (hok.symm.trans h)
    exact encode_flatten hblocks hlast
  · rw [herror] at h
    cases h

theorem decode_eq_ok {s x : Bytes} : decode s = .ok x ↔ encode x = .ok s := by
  refine ⟨encode_of_decode, fun h ↦ ?_⟩
  obtain ⟨s', henc, hdec⟩ := exists_encode x
  obtain rfl := Except.ok.inj (henc.symm.trans h)
  exact hdec

theorem encode_inj {x y s : Bytes} (hx : encode x = .ok s) (hy : encode y = .ok s) : x = y :=
  Except.ok.inj ((decode_eq_ok.mpr hx).symm.trans (decode_eq_ok.mpr hy))

private theorem decode_ne_outOfRange (s : Bytes) : decode s ≠ .error .outOfRange := by
  rcases decode_cases s with ⟨blocks, last, -, -, -, hok⟩ | ⟨-, herror⟩
  · rw [hok]
    exact nofun
  · rw [herror]
    exact nofun

/-- **Base58 is a bijection onto its image.** Every array of bytes is read back from its text, and what
is read from a text is written as that text. No access is out of range, so that a text is refused as soon
as it is not the text of any bytes: when it has a character that is no letter, a length that no bytes
have, or a block whose number is too large for its size. -/
theorem decode_encode :
    (∀ x, ∃ s, encode x = .ok s ∧ decode s = .ok x) ∧
    (∀ s x, decode s = .ok x → encode x = .ok s) ∧
    (∀ s, decode s ≠ .error .outOfRange) ∧
    ∀ s : Bytes, (∃ c ∈ s, c ∉ alphabet) ∨ s.length % 11 ∉ encodedBlockSizes ∨
        (∃ (texts : List Bytes) (text more : Bytes), s = texts.flatten ++ (text ++ more) ∧
          (∀ t ∈ texts, t.length = 11) ∧ text.length = 11 ∧ 256 ^ 8 ≤ value text) ∨
        (∃ (texts : List Bytes) (text : Bytes) (size : ℕ), s = texts.flatten ++ text ∧
          (∀ t ∈ texts, t.length = 11) ∧ size < 8 ∧ text.length = encodedSize size ∧
            256 ^ size ≤ value text) →
      decode s = .error .refused := by
  refine ⟨exists_encode, fun s x ↦ encode_of_decode, decode_ne_outOfRange, fun s hbad ↦ ?_⟩
  rcases decode_cases s with ⟨blocks, last, hblocks, hlast, heq, -⟩ | ⟨-, herror⟩
  · obtain ⟨hletters, hlength, hfull, hshort⟩ := wellFormed_of_text hblocks hlast heq
    exfalso
    rcases hbad with ⟨c, hc, hnot⟩ | hnot | ⟨texts, text, more, hs, htexts, htext, hge⟩ |
      ⟨texts, text, size, hs, htexts, hsize, htext, hge⟩
    · exact hnot (hletters c hc)
    · exact hnot hlength
    · exact (hfull texts text more hs htexts htext).not_ge hge
    · exact (hshort texts text size hs htexts hsize htext).not_ge hge
  · exact herror

end Base58

end CryoNero
