import CryoNero.Core.BlockChainFileFormat
import CryoNero.Chain.Blocks
import CryoNero.Store.Offsets

/-!
# What is in the files

An export writes the blocks of the main chain, and the reader finds each of them again
(`LegacyBlockChainReader.getBlockDataByIndex_held`). It does so too where the two files were cut, for the
blocks that are whole in both. The table of offsets ends with the last of these, so that an access for
any other block is one beyond its end.
-/

namespace CryoNero

open Seria Store

/-! ## The index -/

theorem flatMap_leBytes_length (sizes : List ℕ) : (sizes.flatMap (leBytes 4)).length = 4 * sizes.length := by
  induction sizes with
  | nil => rfl
  | cons w sizes ih =>
    rw [List.flatMap_cons, List.length_append, ih, length_leBytes, List.length_cons]
    ring

namespace LegacyBlockChainReader

private theorem itemSizes_flatMap {sizes : List ℕ} (hsizes : ∀ w ∈ sizes, w < 2 ^ 32) (n : ℕ)
    (hn : n ≤ sizes.length) : itemSizes n ((sizes.flatMap (leBytes 4)).take (n * 4)) = sizes.take n := by
  induction n generalizing sizes with
  | zero => rfl
  | succ n ih =>
    rcases sizes with _ | ⟨w, sizes⟩
    · exact absurd hn (Nat.not_succ_le_zero n)
    · have hw := hsizes w List.mem_cons_self
      have hlen := length_leBytes 4 w
      have htake : ((w :: sizes).flatMap (leBytes 4)).take ((n + 1) * 4) =
          leBytes 4 w ++ (sizes.flatMap (leBytes 4)).take (n * 4) := by
        rw [List.flatMap_cons, List.take_append, List.take_of_length_le (by omega), hlen]
        congr 2
        omega
      rw [htake, itemSizes, List.take_left' hlen, List.drop_left' hlen, leNat_leBytes (by norm_num; exact hw),
        ih (fun w' hw' ↦ hsizes w' (List.mem_cons_of_mem w hw')) (Nat.succ_le_succ_iff.mp hn),
        List.take_succ_cons]

private theorem offsetsFrom_eq {size pos : ℕ} {sizes : List ℕ} (h : pos ≤ size) :
    offsetsFrom size pos sizes =
      (List.range (wholeItems (size - pos) sizes + 1)).map fun i ↦ pos + (sizes.take i).sum := by
  induction sizes generalizing pos with
  | nil => rfl
  | cons w sizes ih =>
    rw [offsetsFrom, wholeItems]
    by_cases hlt : size < pos + w
    · rw [if_pos hlt, if_pos (by omega)]
      rfl
    · have hrange (n : ℕ) : List.range (n + 1 + 1) = 0 :: (List.range (n + 1)).map Nat.succ :=
        List.range_succ_eq_map
      rw [if_neg hlt, if_neg (by omega), ih (not_lt.mp hlt), hrange, List.map_cons, List.map_map,
        Nat.sub_add_eq]
      refine congrArg₂ List.cons rfl (List.map_congr_left fun i _ ↦ ?_)
      rw [Function.comp, List.take_succ_cons, List.sum_cons, Nat.add_assoc]

end LegacyBlockChainReader

/-! ## Files of given blocks -/

/-- The two files with the given blocks. -/
def filesOf (blocks : List Bytes) : BlockFiles where
  index := leBytes 8 blocks.length ++ (blocks.map List.length).flatMap (leBytes 4)
  items := blocks.flatten

/-- How many blocks an index of `n` blocks announces when it is cut to a size. -/
def announced (n indexSize : ℕ) : ℕ := if indexSize < 8 then 0 else min n ((indexSize - 8) / 4)

/-- How many blocks are whole in both files when they are cut to sizes. -/
def wholeBlocks (blocks : List Bytes) (indexSize itemsSize : ℕ) : ℕ :=
  wholeItems itemsSize ((blocks.map List.length).take (announced blocks.length indexSize))

theorem announced_le (n indexSize : ℕ) : announced n indexSize ≤ n := by
  unfold announced
  split_ifs
  · exact Nat.zero_le _
  · exact Nat.min_le_left _ _

theorem wholeBlocks_le_announced (blocks : List Bytes) (indexSize itemsSize : ℕ) :
    wholeBlocks blocks indexSize itemsSize ≤ announced blocks.length indexSize :=
  (wholeItems_le_length _ _).trans (List.length_take_le _ _)

theorem cut_self (files : BlockFiles) : files.cut files.index.length files.items.length = files := by
  rw [BlockFiles.cut, List.take_length, List.take_length]

/-- Files that are not cut have all blocks. -/
theorem wholeBlocks_self (blocks : List Bytes) :
    wholeBlocks blocks (filesOf blocks).index.length (filesOf blocks).items.length = blocks.length := by
  have hindex : (filesOf blocks).index.length = 8 + 4 * blocks.length := by
    change (leBytes 8 blocks.length ++ (blocks.map List.length).flatMap (leBytes 4)).length = _
    rw [List.length_append, length_leBytes, flatMap_leBytes_length, List.length_map]
  have hannounced : announced blocks.length (filesOf blocks).index.length = blocks.length := by
    rw [hindex, announced, if_neg (by omega)]
    omega
  have hall : (blocks.map List.length).take blocks.length = blocks.map List.length :=
    List.take_of_length_le (List.length_map _).le
  rw [wholeBlocks, hannounced, hall, wholeItems_of_le, List.length_map]
  exact List.length_flatten.ge

private theorem toNat_min_announced {n indexSize : ℕ} (hn : n < 2 ^ 32) (hfull : 8 ≤ indexSize) :
    (min (UInt64.ofNat n) ((UInt64.ofNat (min indexSize (8 + 4 * n)) - 8) / 4)).toNat =
      announced n indexSize := by
  have hcount : (UInt64.ofNat n).toNat = n := UInt64.toNat_ofNat_of_lt' (show n < 2 ^ 64 by omega)
  have hsize : (UInt64.ofNat (min indexSize (8 + 4 * n))).toNat = min indexSize (8 + 4 * n) :=
    UInt64.toNat_ofNat_of_lt' (show min indexSize (8 + 4 * n) < 2 ^ 64 by omega)
  have hsub : (UInt64.ofNat (min indexSize (8 + 4 * n)) - 8).toNat = min indexSize (8 + 4 * n) - 8 := by
    rw [UInt64.toNat_sub_of_le _ _ (UInt64.le_iff_toNat_le.mpr (by rw [hsize]; change 8 ≤ _; omega)), hsize]
    rfl
  have hdiv : ((UInt64.ofNat (min indexSize (8 + 4 * n)) - 8) / 4).toNat =
      (min indexSize (8 + 4 * n) - 8) / 4 := by
    rw [UInt64.toNat_div, hsub]
    rfl
  rw [announced, if_neg (by omega)]
  change (if UInt64.ofNat n ≤ (UInt64.ofNat (min indexSize (8 + 4 * n)) - 8) / 4 then UInt64.ofNat n
    else (UInt64.ofNat (min indexSize (8 + 4 * n)) - 8) / 4).toNat = _
  split_ifs with hle
  · rw [UInt64.le_iff_toNat_le, hcount, hdiv] at hle
    omega
  · rw [UInt64.le_iff_toNat_le, hcount, hdiv] at hle
    omega

namespace LegacyBlockChainReader

variable {blocks : List Bytes} {indexSize itemsSize : ℕ} {r : LegacyBlockChainReader}

/-- **What opening files comes to**: the number of blocks that the index announces, and the table. -/
structure Opened (r : LegacyBlockChainReader) (blocks : List Bytes) (indexSize itemsSize : ℕ) : Prop where
  count : r.count.toNat = announced blocks.length indexSize
  items : r.itemsFile.content = blocks.flatten.take itemsSize
  offsets : r.loadOffsets.offsets = if r.count = 0 then [] else
    (List.range (wholeBlocks blocks indexSize itemsSize + 1)).map fun i ↦
      ((blocks.map List.length).take i).sum

private theorem loadOffsets_offsets (hsizes : ∀ b ∈ blocks, b.length < 2 ^ 32) {n : ℕ} (hn : n < 2 ^ 32)
    (hle : n ≤ blocks.length) {room : ℕ} (hroom : n * 4 ≤ room) {file : FileStream}
    (hahead : file.Ahead (((blocks.map List.length).flatMap (leBytes 4)).take room)) :
    (loadOffsets
      { itemsFile := { content := blocks.flatten.take itemsSize }
        indexesFile := file
        count := UInt32.ofNat n }).offsets =
      if UInt32.ofNat n = 0 then [] else
        (List.range (wholeItems itemsSize ((blocks.map List.length).take n) + 1)).map fun i ↦
          ((blocks.map List.length).take i).sum := by
  set sizes := blocks.map List.length with hsizes'
  have hcount := toNat_ofNat_of_lt hn
  by_cases hzero : UInt32.ofNat n = 0
  · rw [if_pos hzero, loadOffsets, if_pos (.inl hzero)]
  · have hlen : (sizes.flatMap (leBytes 4)).length = 4 * blocks.length := by
      rw [flatMap_leBytes_length, hsizes', List.length_map]
    have hsplit : (sizes.flatMap (leBytes 4)).take room = (sizes.flatMap (leBytes 4)).take (n * 4) ++
        ((sizes.flatMap (leBytes 4)).take room).drop (n * 4) := by
      conv_lhs => rw [← List.take_append_drop (n * 4) ((sizes.flatMap (leBytes 4)).take room)]
      rw [List.take_take, Nat.min_eq_left hroom]
    rw [hsplit] at hahead
    have hread := hahead.read
    rw [List.length_take, Nat.min_eq_left (by omega)] at hread
    have hmem : ∀ w ∈ sizes, w < 2 ^ 32 := by
      intro w hw
      obtain ⟨b, hb, rfl⟩ := List.mem_map.mp hw
      exact hsizes b hb
    rw [if_neg hzero, loadOffsets, if_neg (by rintro (h | h); exacts [hzero h, h rfl])]
    dsimp only
    rw [hcount, hread]
    dsimp only
    rw [itemSizes_flatMap hmem n (by rw [hsizes', List.length_map]; exact hle),
      offsetsFrom_eq (Nat.zero_le _), Nat.sub_zero, List.length_take,
      wholeItems_min ?_]
    · refine List.map_congr_left fun i hi ↦ ?_
      have hi' := (Nat.lt_succ_iff.mp (List.mem_range.mp hi)).trans (wholeItems_le_length _ _)
      rw [Nat.zero_add, List.take_take, Nat.min_eq_left (hi'.trans (List.length_take_le _ _))]
    · rw [List.length_flatten]
      exact List.Sublist.sum_le_sum (List.take_sublist n sizes) fun _ _ ↦ Nat.zero_le _

theorem exists_opened (blocks : List Bytes) (indexSize itemsSize : ℕ) (hblocks : blocks.length < 2 ^ 32)
    (hsizes : ∀ b ∈ blocks, b.length < 2 ^ 32) :
    ∃ r, openFiles ((filesOf blocks).cut indexSize itemsSize) = .ok r ∧
      r.Opened blocks indexSize itemsSize := by
  set sizes := blocks.map List.length with hsizes'
  have hlen : (sizes.flatMap (leBytes 4)).length = 4 * blocks.length := by
    rw [flatMap_leBytes_length, hsizes', List.length_map]
  have hlong : (leBytes 8 blocks.length).length = 8 := length_leBytes 8 _
  have hitems : ((filesOf blocks).cut indexSize itemsSize).items = blocks.flatten.take itemsSize := rfl
  set index := ((filesOf blocks).cut indexSize itemsSize).index with hindex
  have hindexLen : index.length = min indexSize (8 + 4 * blocks.length) := by
    change ((leBytes 8 blocks.length ++ sizes.flatMap (leBytes 4)).take indexSize).length = _
    rw [List.length_take, List.length_append, hlong, hlen]
  unfold openFiles
  dsimp only
  rcases Nat.lt_or_ge indexSize 8 with hshort | hfull
  · -- not even the number of blocks is there
    have hread : ({ content := index } : FileStream).read 8 = none := if_neg (by
      change ¬0 + 8 ≤ index.length
      omega)
    rw [← hindex, hread]
    refine ⟨_, rfl, ?_, hitems, rfl⟩
    rw [announced, if_pos hshort]
    rfl
  · have hsplit : index = leBytes 8 blocks.length ++ (sizes.flatMap (leBytes 4)).take (indexSize - 8) := by
      change (leBytes 8 blocks.length ++ sizes.flatMap (leBytes 4)).take indexSize = _
      rw [List.take_append, List.take_of_length_le (by omega), hlong]
    have hahead : ({ content := index } : FileStream).Ahead
        (leBytes 8 blocks.length ++ (sizes.flatMap (leBytes 4)).take (indexSize - 8)) := by
      rw [← hsplit]
      exact FileStream.ahead_content index
    have hread := hahead.read
    have hrest := hahead.seek
    rw [hlong] at hread hrest
    change ({ content := index } : FileStream).read 8 = some (_, ({ content := index } : FileStream).seek 8)
      at hread
    change (({ content := index } : FileStream).seek 8).Ahead _ at hrest
    have hcount := toNat_min_announced hblocks hfull
    have hle := announced_le blocks.length indexSize
    have hnumber : leNat (leBytes 8 blocks.length) = blocks.length := leNat_leBytes (by norm_num; omega)
    rw [← hindex, hread]
    dsimp only
    rw [hnumber, hindexLen, ensure_pos _ (by rw [hcount]; omega), ok_bind]
    refine ⟨_, rfl, ?_, hitems, ?_⟩
    · rw [hcount]
      exact toNat_ofNat_of_lt (by omega)
    · rw [hcount]
      exact loadOffsets_offsets hsizes (by omega) hle (by rw [announced, if_neg (by omega)]; omega) hrest

private theorem Opened.length_offsets (h : r.Opened blocks indexSize itemsSize) (hcount : r.count ≠ 0) :
    r.loadOffsets.offsets.length = wholeBlocks blocks indexSize itemsSize + 1 := by
  rw [h.offsets, if_neg hcount, List.length_map, List.length_range]

private theorem Opened.getElem?_offsets (h : r.Opened blocks indexSize itemsSize) (hcount : r.count ≠ 0)
    {i : ℕ}
    (hi : i ≤ wholeBlocks blocks indexSize itemsSize) :
    r.loadOffsets.offsets[i]? = some ((blocks.map List.length).take i).sum := by
  rw [h.offsets, if_neg hcount, List.getElem?_map, List.getElem?_range (Nat.lt_succ_of_le hi)]
  rfl

/-- **A whole block is read back.** -/
theorem Opened.getBlockDataByIndex (h : r.Opened blocks indexSize itemsSize) {i : ℕ} {b : Bytes}
    (hi : i < wholeBlocks blocks indexSize itemsSize) (hb : blocks[i]? = some b) :
    r.getBlockDataByIndex (UInt32.ofNat i) = .ok b := by
  obtain ⟨hlt, rfl⟩ := List.getElem?_eq_some_iff.mp hb
  have hannounced := wholeBlocks_le_announced blocks indexSize itemsSize
  have hle := announced_le blocks.length indexSize
  have hcount := r.count.toNat_lt
  rw [h.count] at hcount
  have hne : r.count ≠ 0 := by
    intro hzero
    have := h.count
    rw [hzero] at this
    change 0 = _ at this
    omega
  have hheight : (UInt32.ofNat i).toNat = i := toNat_ofNat_of_lt (by omega)
  have hnext : (UInt32.ofNat i + 1).toNat = i + 1 := by
    rw [UInt32.toNat_add, hheight]
    exact Nat.mod_eq_of_lt (by change i + 1 < _; omega)
  have hend := sum_take_le (show i + 1 ≤ wholeBlocks blocks indexSize itemsSize from hi)
  rw [List.take_take, Nat.min_eq_left (by omega)] at hend
  have hsum := sum_take_succ hlt
  have htotal : ((blocks.map List.length).take (i + 1)).sum ≤ blocks.flatten.length := by
    rw [List.length_flatten]
    exact List.Sublist.sum_le_sum (List.take_sublist _ _) fun _ _ ↦ Nat.zero_le _
  obtain ⟨file, hread⟩ : ∃ file, (r.itemsFile.seek ((blocks.map List.length).take i).sum).read
      blocks[i].length = some (blocks[i], file) := by
    rw [FileStream.read, if_pos ?_, FileStream.seek_content, FileStream.seek_position, h.items,
      take_drop_take_flatten hlt hend]
    · exact ⟨_, rfl⟩
    · rw [FileStream.seek_content, FileStream.seek_position, h.items, List.length_take]
      omega
  rw [LegacyBlockChainReader.getBlockDataByIndex, hnext, hheight, readAt_eq_ok.mpr (h.getElem?_offsets hne hi),
    ok_bind, readAt_eq_ok.mpr (h.getElem?_offsets hne hi.le), ok_bind, hsum, Nat.add_sub_cancel_left, hread]
  rfl

/-- **Any other access is one beyond the table.** -/
theorem Opened.getBlockDataByIndex_beyond (h : r.Opened blocks indexSize itemsSize) {i : ℕ}
    (hi : wholeBlocks blocks indexSize itemsSize ≤ i) (hlt : i < 2 ^ 32)
    (hsmall : wholeBlocks blocks indexSize itemsSize < 2 ^ 32 - 1) :
    r.getBlockDataByIndex (UInt32.ofNat i) = .error .outOfRange := by
  have hheight : (UInt32.ofNat i).toNat = i := toNat_ofNat_of_lt hlt
  have hshort : r.loadOffsets.offsets.length ≤ wholeBlocks blocks indexSize itemsSize + 1 := by
    by_cases hzero : r.count = 0
    · rw [h.offsets, if_pos hzero]
      exact Nat.zero_le _
    · exact (h.length_offsets hzero).le
  rw [LegacyBlockChainReader.getBlockDataByIndex]
  rcases Nat.lt_or_ge (UInt32.ofNat i + 1).toNat r.loadOffsets.offsets.length with hin | hout
  · -- the index of the entry after it has wrapped around, and the one of the entry itself is too large
    have hwrap : 2 ^ 32 ≤ i + 1 := by
      by_contra hsmall'
      rw [UInt32.toNat_add, hheight] at hin
      change (i + 1) % 2 ^ 32 < _ at hin
      rw [Nat.mod_eq_of_lt (by omega)] at hin
      omega
    rw [readAt_eq_ok.mpr (List.getElem?_eq_getElem hin), ok_bind, hheight, readAt_of_le (by omega)]
    rfl
  · rw [readAt_of_le hout]
    rfl

end LegacyBlockChainReader

end CryoNero
