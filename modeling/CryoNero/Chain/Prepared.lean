import CryoNero.Core.Node

/-!
# Prepared blocks

What a prepared block has to do with the bytes it was made of. A block that came from a peer was
written down and reads again; a block that came from a file was read.
-/

namespace CryoNero

open Seria Seria.Reader Store

/-! ## Lengths -/

private theorem length_le_writeBytes (b : Bytes) : b.length ≤ (writeBytes b).length := by
  rw [writeBytes, List.length_append]
  exact Nat.le_add_left _ _

private theorem writeBytes_ne_nil (b : Bytes) : writeBytes b ≠ [] := by
  rw [writeBytes]
  exact List.append_ne_nil_of_left_ne_nil (varintBytes_ne_nil _ _) _

private theorem length_le_writeItems (bs : List Bytes) :
    bs.length ≤ (writeItems writeBytes bs).length ∧
      ∀ b ∈ bs, b.length ≤ (writeItems writeBytes bs).length := by
  induction bs with
  | nil => exact ⟨Nat.zero_le _, fun _ h ↦ by cases h⟩
  | cons b bs ih =>
    have hcons : (writeItems writeBytes (b :: bs)).length =
        (writeBytes b).length + (writeItems writeBytes bs).length := by
      rw [writeItems, List.flatMap_cons, List.length_append]
      rfl
    have hpos : 0 < (writeBytes b).length := List.length_pos_iff.mpr (writeBytes_ne_nil b)
    rw [hcons]
    refine ⟨by rw [List.length_cons]; omega, fun b' hb' ↦ ?_⟩
    rcases List.mem_cons.mp hb' with rfl | hb'
    · exact (length_le_writeBytes b').trans (Nat.le_add_right _ _)
    · exact (ih.2 b' hb').trans (Nat.le_add_left _ _)

theorem length_le_writeRawBlock (v : RawBlock) : v.block.length ≤ (writeRawBlock v).length ∧
    v.transactions.length ≤ (writeRawBlock v).length ∧
    ∀ b ∈ v.transactions, b.length ≤ (writeRawBlock v).length := by
  have hblock := length_le_writeBytes v.block
  have hitems := length_le_writeItems v.transactions
  rw [writeRawBlock, writeVector, List.length_append, List.length_append]
  exact ⟨by omega, by omega, fun b hb ↦ by have := hitems.2 b hb; omega⟩

theorem canonical_readRawBlock : Canonical readRawBlock writeRawBlock := by
  intro v s x rest h
  obtain ⟨_, t, h₁, h₂⟩ := andThen_eq_some.mp h
  obtain ⟨block, hblock, rfl⟩ := on_eq_some.mp h₁
  obtain ⟨transactions, htransactions, rfl⟩ := on_eq_some.mp h₂
  rw [canonical_readBytes _ _ _ _ hblock,
    canonical_readVector canonical_readBytes _ _ _ _ htransactions, writeRawBlock,
    List.append_assoc]

/-! ## Faithful blocks -/

/-- A prepared block is what its bytes make of it. A block that does not decode has a `bid` of
zeros. -/
structure PreparedBlock.Faithful (env : Env) (pb : PreparedBlock) : Prop where
  sized : pb.blockData.length < 2 ^ 32
  data : fromBinary readRawBlock {} pb.blockData = (pb.rawBlock, true)
  block : (Block.fromRawBlock pb.rawBlock).1 = pb.block
  bid : (Block.fromRawBlock pb.rawBlock).2 = true →
    getBlockHash env.crypto pb.block.header = some pb.bid
  bid_zero : (Block.fromRawBlock pb.rawBlock).2 = false → pb.bid = 0
  coinbase : ∃ coinbaseTx, writeTransaction pb.block.header.baseTransaction = some coinbaseTx ∧
    pb.baseTransactionHash = env.crypto.cnFastHash coinbaseTx ∧
    pb.coinbaseTxSize = coinbaseTx.length
  longBlockHash : pb.longBlockHash = 0 ∨
    getBlockLongHash env.crypto pb.block.header = some pb.longBlockHash

private theorem PreparedBlock.faithful_prepare {env : Env} {context : Bool} {blockData : Bytes}
    {rawBlock : RawBlock} {pb : PreparedBlock} (hsized : blockData.length < 2 ^ 32)
    (hdata : fromBinary readRawBlock {} blockData = (rawBlock, true))
    (h : PreparedBlock.prepare env context blockData rawBlock = .ok pb) :
    pb.Faithful env ∧ pb.rawBlock = rawBlock ∧ pb.blockData = blockData := by
  unfold prepare at h
  dsimp only at h
  have hbid : ∃ bid, (if (Block.fromRawBlock rawBlock).2 = true then
      orFail Fault.notWritable (getBlockHash env.crypto (Block.fromRawBlock rawBlock).1.header)
      else .ok 0) = .ok bid ∧ ∃ coinbaseTx longHash,
      writeTransaction (Block.fromRawBlock rawBlock).1.header.baseTransaction = some coinbaseTx ∧
      (if context = true then
        orFail Fault.notWritable (getBlockLongHash env.crypto (Block.fromRawBlock rawBlock).1.header)
        else .ok 0) = .ok longHash ∧
      pb.rawBlock = rawBlock ∧ pb.blockData = blockData ∧ pb.block = (Block.fromRawBlock rawBlock).1 ∧
      pb.bid = bid ∧ pb.baseTransactionHash = env.crypto.cnFastHash coinbaseTx ∧
      pb.coinbaseTxSize = coinbaseTx.length ∧ pb.longBlockHash = longHash := by
    split_ifs at h ⊢ <;>
    · obtain ⟨bid, hbid, h⟩ := bind_eq_ok.mp h
      obtain ⟨coinbaseTx, hcoinbase, h⟩ := bind_eq_ok.mp h
      obtain ⟨longHash, hlong, h⟩ := bind_eq_ok.mp h
      cases h
      exact ⟨bid, hbid, coinbaseTx, longHash, orFail_eq_ok.mp hcoinbase, hlong, rfl, rfl, rfl, rfl,
        rfl, rfl, rfl⟩
  obtain ⟨bid, hbid, coinbaseTx, longHash, hcoinbase, hlong, hraw, hdata', hblock, hpbid, hbase, hsize,
    hlongpb⟩ := hbid
  refine ⟨⟨by rw [hdata']; exact hsized, by rw [hdata', hraw]; exact hdata, by rw [hraw, hblock], fun hok ↦ ?_, fun hok ↦ ?_,
    ⟨coinbaseTx, by rw [hblock]; exact hcoinbase, hbase, hsize⟩, ?_⟩, hraw, hdata'⟩
  · rw [hraw] at hok
    rw [if_pos hok, orFail_eq_ok] at hbid
    rw [hblock, hpbid]
    exact hbid
  · rw [hraw] at hok
    rw [if_neg (by rw [hok]; simp)] at hbid
    cases hbid
    exact hpbid
  · rw [hlongpb, hblock]
    split_ifs at hlong
    · exact .inr (orFail_eq_ok.mp hlong)
    · cases hlong
      exact .inl rfl

theorem PreparedBlock.faithful_ofRawBlock {env : Env} {context : Bool} {rawBlock : RawBlock}
    {pb : PreparedBlock} (hsized : rawBlock.Sized)
    (h : PreparedBlock.ofRawBlock env context rawBlock = .ok pb) :
    pb.Faithful env ∧ pb.rawBlock = rawBlock := by
  obtain ⟨hblock, hcount, htransactions⟩ := length_le_writeRawBlock rawBlock
  have hlt : (writeRawBlock rawBlock).length < 2 ^ 32 := hsized
  have hread := reads_readRawBlock (x := rawBlock) (by omega) (by unfold maxLength; omega)
    (fun b hb ↦ by have := htransactions b hb; omega) {} []
  rw [List.append_nil] at hread
  have hpb := faithful_prepare hlt (fromBinary_eq_true.mpr hread) h
  exact ⟨hpb.1, hpb.2.1⟩

theorem PreparedBlock.faithful_ofData {env : Env} {context : Bool} {blockData : Bytes}
    {pb : PreparedBlock} (hsized : blockData.length < 2 ^ 32)
    (h : PreparedBlock.ofData env context blockData = .ok pb) :
    pb.Faithful env ∧ pb.blockData = blockData := by
  unfold ofData at h
  rcases hread : fromBinary readRawBlock {} blockData with ⟨rawBlock, _ | _⟩
  · rw [hread] at h
    cases h
  · rw [hread] at h
    have hpb := faithful_prepare hsized hread h
    exact ⟨hpb.1, hpb.2.2⟩

theorem length_le_of_readRawBlock {blockData : Bytes} {rawBlock : RawBlock}
    (h : fromBinary readRawBlock {} blockData = (rawBlock, true)) :
    rawBlock.block.length ≤ blockData.length ∧
      ∀ b ∈ rawBlock.transactions, b.length ≤ blockData.length := by
  have hcanonical := canonical_readRawBlock _ _ _ _ (fromBinary_eq_true.mp h)
  rw [List.append_nil] at hcanonical
  rw [hcanonical]
  exact ⟨(length_le_writeRawBlock rawBlock).1, (length_le_writeRawBlock rawBlock).2.2⟩

end CryoNero
