import CryoNero.Build.Size
import CryoNero.Chain.Steps
import CryoNero.Codec.Extra
import CryoNero.Core.Canonical
import CryoNero.Core.LegacyApi
import CryoNero.Core.Node

/-!
# The bytes that a miner may fill

In the coinbase transaction of a template the public key is followed by the tag of the nonce and its size,
then by the nonce. So the nonce begins two bytes after the end of the key, and the offset in the response
says three. The bytes that a miner fills begin one byte late, and the last of them is the byte after the
nonce, in the padding or in the number of transactions.

The offset is right only when the search ends one byte before the key. There the tag of the key stands, so
that this takes a key all of whose bytes are equal to the tag.
-/

namespace CryoNero

open Seria Store

/-! ## The first occurrence -/

namespace LegacyApi

def Occurs (pat data : Bytes) (i : ℕ) : Prop := (data.drop i).take pat.length = pat

instance (pat data : Bytes) (i : ℕ) : Decidable (Occurs pat data i) :=
  inferInstanceAs (Decidable ((data.drop i).take pat.length = pat))

theorem Occurs.length_le {pat data : Bytes} {i : ℕ} (h : Occurs pat data i) (hpat : pat ≠ []) :
    i + pat.length ≤ data.length := by
  have hlength := congrArg List.length h
  have := List.length_pos_of_ne_nil hpat
  rw [List.length_take, List.length_drop] at hlength
  omega

theorem Occurs.head {c : UInt8} {pat data : Bytes} {i : ℕ} (h : Occurs (c :: pat) data i) :
    data[i]? = some c := by
  have hget := congrArg (·[0]?) h
  simpa [List.getElem?_take, List.getElem?_drop] using hget

private theorem memchr_of_getElem? {data : Bytes} {c : UInt8} {p : ℕ} (hp : data[p]? = some c) (count : ℕ)
    {buf : ℕ} (hle : buf ≤ p) (hlt : p < buf + count) :
    ∃ i, memchr data c count buf = .ok (some i) ∧ buf ≤ i ∧ i ≤ p ∧
      ∀ k, buf ≤ k → k < i → data[k]? ≠ some c := by
  induction count generalizing buf with
  | zero => omega
  | succ count ih =>
    obtain ⟨hsize, -⟩ := List.getElem?_eq_some_iff.mp hp
    obtain ⟨x, hx⟩ : ∃ x, data[buf]? = some x := ⟨_, List.getElem?_eq_getElem (hle.trans_lt hsize)⟩
    rw [memchr, readAt_eq_ok.mpr hx, ok_bind]
    by_cases hc : x = c
    · rw [if_pos hc]
      exact ⟨buf, rfl, le_refl _, hle, fun k hk hk' ↦ absurd hk' (Nat.not_lt.mpr hk)⟩
    · rw [if_neg hc]
      have hne : buf ≠ p := by
        rintro rfl
        exact hc (Option.some.inj (hx.symm.trans hp))
      obtain ⟨i, hi, hbuf, hip, hnone⟩ := ih (Nat.succ_le_of_lt (Nat.lt_of_le_of_ne hle hne)) (by omega)
      refine ⟨i, hi, by omega, hip, fun k hk hk' ↦ ?_⟩
      rcases Nat.eq_or_lt_of_le hk with rfl | hk
      · rw [hx]
        exact fun h ↦ hc (Option.some.inj h)
      · exact hnone k hk hk'

/-- **The search finds the first occurrence**, when there is one. It does not read beyond it then. -/
private theorem slowMemmemFrom_of_occurs {c : UInt8} {pat data : Bytes} {p : ℕ}
    (hp : Occurs (c :: pat) data p)
    {turns buf : ℕ} (hle : buf ≤ p) (hturns : p < buf + turns) :
    ∃ i, slowMemmemFrom data (c :: pat) turns buf = .ok i ∧ Occurs (c :: pat) data i ∧ i ≤ p ∧
      ∀ k, buf ≤ k → k < i → ¬Occurs (c :: pat) data k := by
  have hfits := hp.length_le (List.cons_ne_nil c pat)
  induction turns generalizing buf with
  | zero => omega
  | succ turns ih =>
    have hread : readAt (c :: pat) 0 = .ok c := rfl
    rw [List.length_cons] at hfits
    obtain ⟨i, hi, hbuf, hip, hnone⟩ := memchr_of_getElem? hp.head data.length hle (by omega)
    rw [slowMemmemFrom, hread, ok_bind, hi, ok_bind]
    dsimp only
    rw [List.length_cons, if_neg (by omega)]
    by_cases hocc : (data.drop i).take (pat.length + 1) = c :: pat
    · rw [if_pos hocc]
      exact ⟨i, rfl, hocc, hip, fun k hk hk' hoccurs ↦ hnone k hk hk' hoccurs.head⟩
    · rw [if_neg hocc]
      have hne : i ≠ p := by
        rintro rfl
        exact hocc hp
      obtain ⟨j, hj, hoccurs, hjp, hnone'⟩ := ih (Nat.succ_le_of_lt (Nat.lt_of_le_of_ne hip hne)) (by omega)
      refine ⟨j, hj, hoccurs, hjp, fun k hk hk' hk'' ↦ ?_⟩
      rcases Nat.lt_trichotomy k i with hlt | rfl | hgt
      · exact hnone k hk hlt hk''.head
      · exact hocc hk''
      · exact hnone' k hgt hk' hk''

private theorem slowMemmem_of_occurs {pat data : Bytes} {p : ℕ} (hpat : pat ≠ []) (hp : Occurs pat data p) :
    ∃ i, slowMemmem data pat = .ok i ∧ Occurs pat data i ∧ i ≤ p ∧ ∀ k < i, ¬Occurs pat data k := by
  have hfits := hp.length_le hpat
  obtain ⟨c, pat, rfl⟩ := List.exists_cons_of_ne_nil hpat
  obtain ⟨i, hi, hoccurs, hle, hnone⟩ := slowMemmemFrom_of_occurs hp (Nat.zero_le p)
    (show p < 0 + (data.length + 1) by omega)
  exact ⟨i, hi, hoccurs, hle, fun k hk ↦ hnone k (Nat.zero_le k) hk⟩

/-- The first occurrence, in one pass. -/
def firstOccurrence (pat : Bytes) : Bytes → ℕ → Option ℕ
  | [], _ => none
  | a :: data, i =>
    if (a :: data).take pat.length = pat then some i else firstOccurrence pat data (i + 1)

private theorem firstOccurrence_eq_some {pat data : Bytes} {i k : ℕ}
    (h : firstOccurrence pat data i = some k) :
    ∃ j, k = i + j ∧ Occurs pat data j ∧ ∀ j' < j, ¬Occurs pat data j' := by
  induction data generalizing i with
  | nil => cases h
  | cons a data ih =>
    rw [firstOccurrence] at h
    split_ifs at h with hhere
    · obtain rfl := Option.some.inj h
      exact ⟨0, rfl, hhere, fun j' hj' ↦ absurd hj' (Nat.not_lt_zero j')⟩
    · obtain ⟨j, rfl, hoccurs, hnone⟩ := ih h
      refine ⟨j + 1, by omega, hoccurs, fun j' hj' ↦ ?_⟩
      cases j' with
      | zero => exact hhere
      | succ j' => exact hnone j' (Nat.lt_of_succ_lt_succ hj')

/-- `slow_memmem` in one pass, which takes far fewer steps to evaluate. -/
def slowMemmemPass (data pat : Bytes) : Except Failure ℕ :=
  if pat = [] then slowMemmem data pat
  else match firstOccurrence pat data 0 with
    | some i => .ok i
    | none => slowMemmem data pat

private theorem slowMemmem_eq_pass (data pat : Bytes) : slowMemmem data pat = slowMemmemPass data pat := by
  rw [slowMemmemPass]
  split_ifs with hpat
  · rfl
  · split
    · next i hi =>
      obtain ⟨j, rfl, hoccurs, hnone⟩ := firstOccurrence_eq_some hi
      obtain ⟨k, hk, hoccurs', hle, -⟩ := slowMemmem_of_occurs hpat hoccurs
      rcases Nat.eq_or_lt_of_le hle with rfl | hlt
      · rw [hk, Nat.zero_add]
      · exact absurd hoccurs' (hnone k hlt)
    · rfl

end LegacyApi

/-! ## Templates -/

/-- The extra field of a template, with the nonce that was asked for and what pads the transaction. -/
def reservedExtra (key : PublicKey) (nonce padding : Bytes) : Bytes :=
  addTransactionPublicKeyToExtra [] key ++ (0x02 :: UInt8.ofNat nonce.length :: (nonce ++ padding))

/-- What a template is as far as its bytes depend on the nonce. -/
structure BlockTemplate.Reserves (template : BlockTemplate) (key : PublicKey) (nonce padding : Bytes) :
    Prop where
  inputs : ∃ input, template.baseTransaction.inputs = [.coinbaseInput input]
  signatures : template.baseTransaction.signatures = []
  extra : template.baseTransaction.extra = reservedExtra key nonce padding
  parent : template.majorVersion = 1 → template.parentBlock = {}
  merged : template.majorVersion ≠ 1 → template.parentBlock.transactionCount = 1 ∧
    template.parentBlock.baseTransaction.version < 2

private theorem constructMinerTx_shape {env : Env} {version : UInt8} {height : Height} {median size : ℕ}
    {coins fee : Amount} {adr : AccountPublicAddress} {nonce : Bytes} {maxOuts : ℕ} {txkey : KeyPair}
    {tx : Transaction} (hne : nonce ≠ [])
    (h : env.constructMinerTx version height median coins size fee adr nonce maxOuts txkey = some tx) :
    (∃ input, tx.inputs = [.coinbaseInput input]) ∧ tx.signatures = [] ∧
      tx.extra = reservedExtra txkey.publicKey nonce [] := by
  rw [Env.constructMinerTx, if_neg hne] at h
  obtain ⟨extra, hextra, h⟩ := Option.bind_eq_some_iff.mp h
  obtain ⟨outputs, -, h⟩ := Option.bind_eq_some_iff.mp h
  split_ifs at h
  cases h
  refine ⟨⟨_, rfl⟩, rfl, ?_⟩
  rw [addExtraNonceToTransactionExtra] at hextra
  split_ifs at hextra
  cases hextra
  rw [reservedExtra, List.append_nil]

private theorem searchMinerTx_eq_some {construct : ℕ → ℕ → Option Transaction}
    {txsSize tries n cumulativeSize : ℕ}
    {tx : Transaction} (h : searchMinerTx construct txsSize tries n cumulativeSize = some tx) :
    ∃ n size first padding, construct n size = some first ∧
      tx = first.withExtra (first.extra ++ padding) := by
  induction tries generalizing n cumulativeSize with
  | zero => cases h
  | succ tries ih =>
    rw [searchMinerTx] at h
    obtain ⟨first, hfirst, h⟩ := Option.bind_eq_some_iff.mp h
    split at h
    · rename_i done hfit
      obtain rfl := Option.some.inj h
      refine ⟨n, cumulativeSize, first, ?_⟩
      rw [fitMinerTx] at hfit
      dsimp only at hfit
      split_ifs at hfit
      · cases hfit
        exact ⟨_, hfirst, rfl⟩
      · cases hfit
        exact ⟨_, hfirst, rfl⟩
      · cases hfit
        refine ⟨[], hfirst, ?_⟩
        rw [List.append_nil]
        rfl
    · cases h
    · exact ih h

/-- **Spec of `create_mining_block_template`**, as far as the nonce is concerned. -/
private theorem State.createMiningBlockTemplate_reserves {env : Env} {s s' : State} {now : Timestamp}
    {adr : AccountPublicAddress} {nonce : Bytes} {keys : ℕ → KeyPair} {template : BlockTemplate}
    {difficulty : Difficulty} {height : Height} (hne : nonce ≠ [])
    (h : s.createMiningBlockTemplate env now adr nonce keys =
      .ok (s', some (template, difficulty, height))) :
    ∃ key padding, template.Reserves key nonce padding := by
  unfold createMiningBlockTemplate at h
  obtain ⟨tip, -, h⟩ := bind_eq_ok.mp h
  obtain ⟨window, -, h⟩ := bind_eq_ok.mp h
  obtain ⟨_, -, h⟩ := bind_eq_ok.mp h
  split_ifs at h
  · cases h
  obtain ⟨sel, -, h⟩ := bind_eq_ok.mp h
  obtain ⟨-, htx⟩ := Prod.mk.inj (Except.ok.inj h)
  obtain ⟨tx, htx, hresult⟩ := Option.map_eq_some_iff.mp htx
  obtain ⟨first, hfirst, htx⟩ := Option.bind_eq_some_iff.mp htx
  obtain ⟨n, size, built, padding, hbuilt, rfl⟩ := searchMinerTx_eq_some htx
  obtain ⟨hinputs, hsignatures, hextra⟩ := constructMinerTx_shape hne hbuilt
  obtain ⟨rfl, -⟩ := Prod.mk.inj hresult
  refine ⟨(keys n).publicKey, padding, hinputs, hsignatures, ?_, ?_, ?_⟩
  · show built.extra ++ padding = _
    rw [hextra, reservedExtra, reservedExtra]
    simp
  · intro hone
    exact if_pos hone
  · intro hone
    have hparent : (templateHeader env s.clearMiningTransactions
        (s.clearMiningTransactions.chain.tip.tipHeight + 1)
        (max now s.clearMiningTransactions.chain.tip.nextMedianTimestamp)).parentBlock =
        { majorVersion := 1, minorVersion := 0, transactionCount := 1,
          baseTransaction := { extra := appendMergeMiningTagToExtra [] {} } } := if_neg hone
    exact ⟨congrArg ParentBlock.transactionCount hparent,
      (congrArg (fun p ↦ p.baseTransaction.version) hparent).trans_lt (by decide)⟩

/-! ## Where the extra field is -/

def BlockTemplate.withExtra (template : BlockTemplate) (extra : Bytes) : BlockTemplate :=
  { template with baseTransaction := template.baseTransaction.withExtra extra }

/-- What is written before the content of the extra field, when it has the given size. -/
def BlockTemplate.beforeExtra (template : BlockTemplate) (count : UInt64) (head : Bytes) (size : ℕ) : Bytes :=
  let tx := template.baseTransaction
  head ++ (if template.majorVersion < 2 then [] else writeParentBlockWith count 0 template) ++
    (writeU8 tx.version ++ writeU64 tx.unlockTime ++ writeVector writeTransactionInput tx.inputs ++
      writeVector writeTransactionOutput tx.outputs ++ writeVarint size)

private theorem writeBlockTemplateWith_withExtra {template : BlockTemplate} {input : CoinbaseInput}
    (hinputs : template.baseTransaction.inputs = [.coinbaseInput input]) (count : UInt64) (extra : Bytes) :
    writeBlockTemplateWith count 0 (template.withExtra extra) =
      (writeBlockHeader template.toBlockHeader).bind fun head ↦
        if template.majorVersion < 2 ∨ template.parentBlock.Branched then
          some (template.beforeExtra count head extra.length ++
            (extra ++ writeVector writeHash template.transactionHashes))
        else none := by
  have hsizes : (template.withExtra extra).baseTransaction.signatureSizes = [] := by
    have hbase : (template.withExtra extra).baseTransaction.inputs = [.coinbaseInput input] := hinputs
    show TransactionPrefix.signatureSizes _ = []
    rw [TransactionPrefix.signatureSizes, hbase]
  have hprefix : writeTransactionPrefix (template.withExtra extra).baseTransaction.toTransactionPrefix =
      writeU8 template.baseTransaction.version ++ writeU64 template.baseTransaction.unlockTime ++
        writeVector writeTransactionInput template.baseTransaction.inputs ++
        writeVector writeTransactionOutput template.baseTransaction.outputs ++
        (writeVarint extra.length ++ extra) := rfl
  rw [writeBlockTemplateWith, writeTransaction, if_pos hsizes, hprefix]
  show ((writeBlockHeader template.toBlockHeader).bind fun head ↦
    if template.majorVersion < 2 then some (head ++ _ ++ writeVector writeHash template.transactionHashes)
    else if template.parentBlock.Branched then
      some (head ++ writeParentBlockWith count 0 template ++ _ ++
        writeVector writeHash template.transactionHashes)
    else none) = _
  congr 1
  funext head
  by_cases hversion : template.majorVersion < 2
  · rw [if_pos hversion, if_pos (.inl hversion), BlockTemplate.beforeExtra, if_pos hversion]
    simp only [List.append_assoc, List.nil_append]
  · rw [if_neg hversion, BlockTemplate.beforeExtra, if_neg hversion]
    by_cases hbranched : template.parentBlock.Branched
    · rw [if_pos hbranched, if_pos (.inr hbranched)]
      simp only [List.append_assoc]
    · rw [if_neg hbranched, if_neg (not_or.mpr ⟨hversion, hbranched⟩)]

private theorem length_beforeExtra {template : BlockTemplate} (hversion : ¬template.majorVersion < 2)
    (head : Bytes)
    (size : ℕ) : ∃ n, ∀ count,
      (template.beforeExtra count head size).length = n + varintSize count.toNat := by
  refine ⟨(template.beforeExtra 0 head size).length - 1, fun count ↦ ?_⟩
  have hzero : varintSize (0 : UInt64).toNat = 1 := rfl
  simp only [BlockTemplate.beforeExtra, if_neg hversion, writeParentBlockWith, List.length_append,
    length_writeU64, hzero]
  omega

/-- The number of transactions of a parent block is read as 64 bits. One that takes a single byte has no
more than the 16 bits that are kept. -/
private theorem eq_one_of_varintSize {count : UInt64}
    (hsize : varintSize count.toNat = varintSize (1 : UInt64).toNat)
    (hcount : (1 : UInt16) = count.toUInt16) : count = 1 := by
  have hone : varintSize (1 : UInt64).toNat = 1 := rfl
  rw [hone, varintSize, Nat.add_eq_right, Nat.log_eq_zero_iff] at hsize
  have hnat := congrArg UInt16.toNat hcount
  rw [UInt64.toNat_toUInt16, Nat.mod_eq_of_lt (by omega)] at hnat
  exact UInt64.toNat_inj.mp hnat.symm

/-- **The bytes of a template around its extra field.** They are the same for every content of its size,
and nothing else of that length is read as the template with another content. -/
theorem BlockTemplate.Reserves.layout {c : Crypto} {template : BlockTemplate} {key : PublicKey}
    {nonce padding blob : Bytes} (h : template.Reserves key nonce padding)
    (hblob : writeBlockTemplate c template = some blob) :
    ∃ before, blob = before ++ (template.baseTransaction.extra ++ writeVector writeHash template.transactionHashes) ∧
      ∀ extra, extra.length = template.baseTransaction.extra.length →
        writeBlockTemplate c (template.withExtra extra) =
            some (before ++ (extra ++ writeVector writeHash template.transactionHashes)) ∧
          ∀ b, b.length = blob.length → fromBinary readBlockTemplate {} b = (template.withExtra extra, true) →
            b = before ++ (extra ++ writeVector writeHash template.transactionHashes) := by
  obtain ⟨input, hinputs⟩ := h.inputs
  have hwith := writeBlockTemplateWith_withExtra hinputs
  have hself : template.withExtra template.baseTransaction.extra = template := rfl
  rw [writeBlockTemplate_eq, ← hself, hwith, Option.bind_eq_some_iff] at hblob
  obtain ⟨head, hhead, hblob⟩ := hblob
  split_ifs at hblob with hbranched
  obtain rfl := Option.some.inj hblob
  refine ⟨_, rfl, fun extra hextra ↦ ?_⟩
  rw [← hextra]
  refine ⟨?_, fun b hb hread ↦ ?_⟩
  · rw [writeBlockTemplate_eq]
    show writeBlockTemplateWith template.parentBlock.transactionCount.toUInt64 0 (template.withExtra extra) = _
    rw [hwith, hhead, Option.bind_some, if_pos hbranched]
    rfl
  · obtain ⟨count, ignored, b', hwrite, hs, hcount, hsmall, hignored⟩ :=
      eq_of_readBlockTemplate (fromBinary_eq_true.mp hread)
    rw [List.append_nil] at hs
    rw [← hs] at hwrite
    have hmerged : ¬template.majorVersion < 2 → _ := fun hversion ↦ h.merged fun hone ↦
      hversion (hone ▸ by decide)
    have hignored : ignored = 0 := by
      apply hignored
      by_cases hversion : template.majorVersion < 2
      · exact .inl hversion
      · exact .inr (hmerged hversion).2
    rw [hignored, hwith, hhead, Option.bind_some, if_pos hbranched, Option.some.injEq] at hwrite
    have hsame : count = template.parentBlock.transactionCount.toUInt64 := by
      by_cases hversion : template.majorVersion < 2
      · exact hsmall hversion
      · have hone := (hmerged hversion).1
        obtain ⟨n, hn⟩ := length_beforeExtra hversion head extra.length
        have hword : (1 : UInt16).toUInt64 = 1 := rfl
        have hcount' : template.parentBlock.transactionCount = count.toUInt16 := hcount
        rw [hone] at hcount' ⊢
        rw [hword]
        apply eq_one_of_varintSize _ hcount'
        rw [← hwrite, hself, hone, hword] at hb
        simp only [List.length_append, hn] at hb
        omega
    rw [← hwrite, hsame]
    rfl

/-! ## The offset -/

private theorem eq_replicate_of_take {x : UInt8} {xs : Bytes} (h : (x :: xs).take xs.length = xs) :
    xs = List.replicate xs.length x := by
  induction xs with
  | nil => rfl
  | cons y ys ih =>
    rw [List.length_cons, List.take_succ_cons] at h
    obtain ⟨rfl, h⟩ := List.cons.inj h
    rw [List.length_cons, List.replicate_succ, ← ih h]

theorem reservedExtra_eq (key : PublicKey) (nonce padding : Bytes) :
    reservedExtra key nonce padding =
      (0x01 :: (writeHash key ++ [0x02, UInt8.ofNat nonce.length])) ++ (nonce ++ padding) := by
  simp [reservedExtra, addTransactionPublicKeyToExtra]

private theorem length_reservedExtra (key : PublicKey) (nonce padding : Bytes) :
    (reservedExtra key nonce padding).length = 35 + nonce.length + padding.length := by
  rw [reservedExtra_eq]
  simp only [List.length_append, List.length_cons, List.length_nil, length_writeHash]
  omega

private theorem reservedExtra_inj {key key' : PublicKey} {nonce nonce' padding padding' : Bytes}
    (hlength : nonce.length = nonce'.length)
    (h : reservedExtra key nonce padding = reservedExtra key' nonce' padding') :
    key = key' ∧ nonce = nonce' ∧ padding = padding' := by
  rw [reservedExtra_eq, reservedExtra_eq] at h
  have hkeys : (writeHash key).length = (writeHash key').length := by
    rw [length_writeHash, length_writeHash]
  obtain ⟨hhead, htail⟩ := List.append_inj h (by simp [hkeys])
  obtain ⟨hkey, -⟩ := List.append_inj (List.cons.inj hhead).2 hkeys
  obtain ⟨hnonce, hpadding⟩ := List.append_inj htail hlength
  refine ⟨?_, hnonce, hpadding⟩
  rw [← blobOfBytes_blobBytes (by decide) key, ← blobOfBytes_blobBytes (by decide) key']
  exact congrArg _ hkey

private theorem getTransactionPublicKeyFromExtra_reservedExtra (key : PublicKey) (nonce padding : Bytes) :
    getTransactionPublicKeyFromExtra (reservedExtra key nonce padding) = key := by
  have hfield : ∀ rest, fieldAfter 0x01 (writeHash key ++ rest) = some (some (.publicKey key), rest) := by
    intro rest
    rw [fieldAfter.eq_def, if_neg (by decide), if_pos rfl, accepted, reads_readHash 0 key rest]
    rfl
  rw [getTransactionPublicKeyFromExtra, reservedExtra_eq, List.cons_append, List.append_assoc,
    List.length_cons, parseTransactionExtra_cons, hfield]
  rfl

/-- What the response promises: overwriting the reserved bytes changes nothing but the nonce. -/
def ReservedHitsNonce (template : BlockTemplate) (size : ℕ) (blob : Bytes) (offset : ℕ) : Prop :=
  ∃ key nonce padding, template.baseTransaction.extra = reservedExtra key nonce padding ∧
    nonce.length = size ∧ ∀ bytes, bytes.length = size → ∃ b nonce', copyTo blob offset bytes = .ok b ∧
      nonce'.length = size ∧
      fromBinary readBlockTemplate {} b = (template.withExtra (reservedExtra key nonce' padding), true)

/-- The key of the coinbase transaction consists of bytes that are equal to its tag, and occurs in the
bytes of the template nowhere before its tag. The offset of the nonce has 32 bits. -/
def BlockTemplate.KeyFoundEarly (template : BlockTemplate) (blob : Bytes) : Prop :=
  let key := writeHash (getTransactionPublicKeyFromExtra template.baseTransaction.extra)
  let start := blob.length - (writeVector writeHash template.transactionHashes).length -
    template.baseTransaction.extra.length
  key = List.replicate 32 0x01 ∧ (∀ i < start, ¬LegacyApi.Occurs key blob i) ∧ start + 35 < 2 ^ 32

instance (template : BlockTemplate) (blob : Bytes) : Decidable (template.KeyFoundEarly blob) :=
  inferInstanceAs (Decidable (_ ∧ (∀ i < _, ¬LegacyApi.Occurs _ blob i) ∧ _ < _))

/-- The search ends at the key or before it. It ends one byte before it exactly when the key is found
early. -/
private theorem offset_eq_iff {key : PublicKey} {before rest : Bytes} {first : ℕ}
    (hfirst : LegacyApi.Occurs (writeHash key) (before ++ 0x01 :: (writeHash key ++ rest)) first)
    (hle : first ≤ before.length + 1)
    (hnone : ∀ i < first, ¬LegacyApi.Occurs (writeHash key) (before ++ 0x01 :: (writeHash key ++ rest)) i) :
    (UInt32.ofNat first + 32 + 3).toNat = before.length + 35 ↔ writeHash key = List.replicate 32 0x01 ∧
      (∀ i < before.length, ¬LegacyApi.Occurs (writeHash key) (before ++ 0x01 :: (writeHash key ++ rest)) i) ∧
        before.length + 35 < 2 ^ 32 := by
  have hkey : (writeHash key).length = 32 := length_writeHash key
  have hdrop : (before ++ 0x01 :: (writeHash key ++ rest)).drop before.length =
      0x01 :: (writeHash key ++ rest) := List.drop_left
  have hstart : LegacyApi.Occurs (writeHash key) (before ++ 0x01 :: (writeHash key ++ rest)) before.length ↔
      (0x01 :: writeHash key).take (writeHash key).length = writeHash key := by
    rw [LegacyApi.Occurs, hdrop, ← List.cons_append, List.take_append_of_le_length (by simp)]
  have hoffset : (UInt32.ofNat first + 32 + 3).toNat = (first + 35) % 2 ^ 32 := by
    rw [UInt32.toNat_add, UInt32.toNat_add, UInt32.toNat_ofNat']
    show ((first % 2 ^ 32 + 32) % 2 ^ 32 + 3) % 2 ^ 32 = _
    omega
  rw [hoffset]
  constructor
  · intro h
    obtain rfl : first = before.length := by omega
    refine ⟨?_, hnone, by omega⟩
    have hones := eq_replicate_of_take (hstart.mp hfirst)
    rwa [hkey] at hones
  · rintro ⟨hones, hearlier, hsmall⟩
    have hoccurs : LegacyApi.Occurs (writeHash key) (before ++ 0x01 :: (writeHash key ++ rest)) before.length := by
      rw [hstart, hkey, hones]
      rfl
    have hfound : first = before.length := by
      rcases Nat.lt_trichotomy first before.length with hlt | heq | hgt
      · exact absurd hfirst (hearlier first hlt)
      · exact heq
      · exact absurd hoccurs (hnone _ hgt)
    omega

private theorem BlockTemplate.Reserves.read_withExtra {c : Crypto} {template : BlockTemplate}
    {key : PublicKey}
    {nonce padding extra blob : Bytes} (h : template.Reserves key nonce padding) (hmem : template.InMemory)
    (hextra : extra.length = template.baseTransaction.extra.length)
    (hblob : writeBlockTemplate c (template.withExtra extra) = some blob) :
    fromBinary readBlockTemplate {} blob = (template.withExtra extra, true) := by
  have hmem' : (template.withExtra extra).InMemory := by
    refine ⟨?_, hmem.parent, hmem.hashes⟩
    exact ⟨hmem.baseTransaction.inputs, hmem.baseTransaction.rings, hmem.baseTransaction.outputs,
      hextra.trans_le hmem.baseTransaction.extra⟩
  rw [writeBlockTemplate_eq] at hblob
  have htidy : (template.withExtra extra).Tidy := by
    refine ⟨fun _ ↦ h.signatures, fun hversion ↦ ?_⟩
    -- A block of version 0 has no header to write.
    apply h.parent
    by_contra hone
    rw [writeBlockTemplateWith] at hblob
    obtain ⟨head, hhead, -⟩ := Option.bind_eq_some_iff.mp hblob
    have hother : ¬(template.withExtra extra).majorVersion = 1 := hone
    have hnone : writeBlockHeader (template.withExtra extra).toBlockHeader = none := by
      rw [writeBlockHeader, if_neg hother, if_neg (UInt8.not_le.mpr hversion)]
    rw [hnone] at hhead
    cases hhead
  have hread := reads_readBlockTemplate hmem' htidy hblob []
  rw [List.append_nil] at hread
  exact fromBinary_eq_true.mpr hread

/-- **Spec of the reserved bytes of a template**, from where the search for its key ends. -/
private theorem BlockTemplate.Reserves.hits_iff {c : Crypto} {template : BlockTemplate} {key : PublicKey}
    {nonce padding blob : Bytes} {first : ℕ} (h : template.Reserves key nonce padding) (hnonce : nonce ≠ [])
    (hmem : template.InMemory) (hblob : writeBlockTemplate c template = some blob)
    (hfirst : LegacyApi.slowMemmem blob (writeHash key) = .ok first) :
    ReservedHitsNonce template nonce.length blob (UInt32.ofNat first + 32 + 3).toNat ↔
      template.KeyFoundEarly blob := by
  obtain ⟨before, hlayout, hothers⟩ := h.layout hblob
  generalize hhashes : writeVector writeHash template.transactionHashes = hashes at *
  rw [h.extra] at hlayout hothers
  have hfront : (before ++ 0x01 :: (writeHash key ++ [0x02, UInt8.ofNat nonce.length])).length =
      before.length + 35 := by
    simp only [List.length_append, List.length_cons, List.length_nil, length_writeHash]
  have hwindow : ∀ nonce' : Bytes, nonce'.length = nonce.length →
      before ++ (reservedExtra key nonce' padding ++ hashes) =
        before ++ 0x01 :: (writeHash key ++ [0x02, UInt8.ofNat nonce.length]) ++
          (nonce' ++ (padding ++ hashes)) := by
    intro nonce' hlength
    rw [reservedExtra_eq, hlength]
    simp only [List.append_assoc, List.cons_append]
  have hits : ReservedHitsNonce template nonce.length blob (UInt32.ofNat first + 32 + 3).toNat ↔
      (UInt32.ofNat first + 32 + 3).toNat = before.length + 35 := by
    generalize (UInt32.ofNat first + 32 + 3).toNat = offset
    have hbytes : Nontrivial UInt8 := ⟨⟨0, 1, by decide⟩⟩
    have hlengths : ∀ nonce' : Bytes, nonce'.length = nonce.length →
        (reservedExtra key nonce' padding).length = (reservedExtra key nonce padding).length := by
      intro nonce' hlength
      rw [length_reservedExtra, length_reservedExtra, hlength]
    rw [← hfront, ← copyTo_within_window_iff (padding ++ hashes) (List.length_pos_of_ne_nil hnonce),
      ← hwindow nonce rfl, ← hlayout]
    constructor
    · rintro ⟨key', nonce₀, padding', hextra, hlength, hall⟩ bytes hsize
      obtain ⟨rfl, -, rfl⟩ := reservedExtra_inj hlength.symm (h.extra.symm.trans hextra)
      obtain ⟨b, nonce', hcopy, hnonce', hread⟩ := hall bytes hsize
      refine ⟨nonce', hnonce', ?_⟩
      rw [hcopy, (hothers _ (hlengths nonce' hnonce')).2 b (length_of_copyTo hcopy) hread, hwindow nonce' hnonce']
    · intro hall
      refine ⟨key, nonce, padding, h.extra, rfl, fun bytes hsize ↦ ?_⟩
      obtain ⟨nonce', hnonce', hcopy⟩ := hall bytes hsize
      refine ⟨_, nonce', hcopy, hnonce', ?_⟩
      rw [← hwindow nonce' hnonce']
      apply h.read_withExtra hmem _ (hothers _ (hlengths nonce' hnonce')).1
      rw [h.extra, hlengths nonce' hnonce']
  rw [hits, BlockTemplate.KeyFoundEarly, h.extra, getTransactionPublicKeyFromExtra_reservedExtra, hhashes]
  have hkeyed : blob = before ++ 0x01 :: (writeHash key ++
      (0x02 :: UInt8.ofNat nonce.length :: (nonce ++ (padding ++ hashes)))) := by
    rw [hlayout, reservedExtra]
    simp [addTransactionPublicKeyToExtra]
  have hstart : blob.length - hashes.length - (reservedExtra key nonce padding).length = before.length := by
    rw [hlayout, List.length_append, List.length_append]
    omega
  have hoccurs : LegacyApi.Occurs (writeHash key) blob (before.length + 1) := by
    rw [hkeyed, LegacyApi.Occurs, ← List.singleton_append, ← List.append_assoc, List.drop_left' (by simp),
      List.take_left]
  have hne : writeHash key ≠ [] := by
    rw [← List.length_pos_iff, length_writeHash]
    decide
  obtain ⟨i, hi, hfound, hle, hnone⟩ := LegacyApi.slowMemmem_of_occurs hne hoccurs
  obtain rfl : i = first := Except.ok.inj (hi.symm.trans hfirst)
  rw [hstart]
  rw [hkeyed] at hfound hnone ⊢
  exact offset_eq_iff hfound hle hnone

private theorem State.getblocktemplate_eq_ok {env : Env} {s s' s₁ : State} {now : Timestamp}
    {keys : ℕ → KeyPair}
    {req : Api.GetBlockTemplate.Request} {res : Api.GetBlockTemplate.Response} {acc : AccountPublicAddress}
    {template : BlockTemplate} {difficulty : Difficulty} {height : Height}
    (hacc : Currency.parseAccountAddress env.crypto req.walletAddress = .ok acc)
    (hcreate : s.createMiningBlockTemplate env now acc (List.replicate req.reserveSize.toNat 0) keys =
      .ok (s₁, some (template, difficulty, height)))
    (h : s.getblocktemplate env now keys req = .ok (s', res)) :
    writeBlockTemplate env.crypto template = some res.blocktemplateBlob ∧
      findReserved res.blocktemplateBlob
        (getTransactionPublicKeyFromExtra template.baseTransaction.extra) req.reserveSize =
          .ok res.reservedOffset := by
  rw [getblocktemplate, hacc] at h
  obtain ⟨_, -, h⟩ := bind_eq_ok.mp h
  obtain ⟨_, -, h⟩ := bind_eq_ok.mp h
  obtain ⟨acc', hacc', h⟩ := bind_eq_ok.mp h
  cases hacc'
  obtain ⟨p, hp, h⟩ := bind_eq_ok.mp h
  rw [mapError_eq_ok, hcreate] at hp
  cases hp
  obtain ⟨template', htemplate, h⟩ := bind_eq_ok.mp h
  cases orFail_eq_ok.mp htemplate
  obtain ⟨blob, hblob, h⟩ := bind_eq_ok.mp h
  obtain ⟨_, -, h⟩ := bind_eq_ok.mp h
  obtain ⟨offset, hoffset, h⟩ := bind_eq_ok.mp h
  obtain ⟨tip, -, h⟩ := bind_eq_ok.mp h
  cases h
  exact ⟨orFail_eq_ok.mp hblob, hoffset⟩

private theorem State.findReserved_eq_ok {blob : Bytes} {key : PublicKey} {size offset : UInt32}
    (hsize : 0 < size)
    (h : findReserved blob key size = .ok offset) :
    ∃ first, LegacyApi.slowMemmem blob (writeHash key) = .ok first ∧
      offset = UInt32.ofNat first + 32 + 3 := by
  rw [findReserved, if_pos hsize] at h
  obtain ⟨first, hfirst, h⟩ := bind_eq_ok.mp h
  obtain ⟨_, -, h⟩ := bind_eq_ok.mp h
  obtain ⟨_, -, h⟩ := bind_eq_ok.mp h
  cases h
  exact ⟨first, mapError_eq_ok.mp hfirst, rfl⟩

/-- **When the reserved bytes are those of the nonce.** In the response to a successful request they are
exactly when the key is found early: its bytes have to be equal to the tag of the key. -/
theorem State.getblocktemplate_hits_iff (env : Env) (s s' s₁ : State) (now : Timestamp) (keys : ℕ → KeyPair)
    (req : Api.GetBlockTemplate.Request) (res : Api.GetBlockTemplate.Response) (acc : AccountPublicAddress)
    (template : BlockTemplate) (difficulty : Difficulty) (height : Height)
    (hacc : Currency.parseAccountAddress env.crypto req.walletAddress = .ok acc)
    (hcreate : s.createMiningBlockTemplate env now acc (List.replicate req.reserveSize.toNat 0) keys =
      .ok (s₁, some (template, difficulty, height)))
    (hmem : template.InMemory) (hsize : 0 < req.reserveSize)
    (h : s.getblocktemplate env now keys req = .ok (s', res)) :
    ReservedHitsNonce template req.reserveSize.toNat res.blocktemplateBlob res.reservedOffset.toNat ↔
      template.KeyFoundEarly res.blocktemplateBlob := by
  have hne : List.replicate req.reserveSize.toNat (0 : UInt8) ≠ [] := by
    rw [Ne, List.replicate_eq_nil_iff]
    exact (UInt32.lt_iff_toNat_lt.mp hsize).ne'
  obtain ⟨hblob, hreserved⟩ := getblocktemplate_eq_ok hacc hcreate h
  obtain ⟨key, padding, hreserves⟩ := createMiningBlockTemplate_reserves hne hcreate
  rw [hreserves.extra, getTransactionPublicKeyFromExtra_reservedExtra] at hreserved
  obtain ⟨first, hfirst, hoffset⟩ := findReserved_eq_ok hsize hreserved
  have hiff := hreserves.hits_iff hne hmem hblob hfirst
  rwa [List.length_replicate, ← hoffset] at hiff

/-- An address of the main network. -/
def sampleAddress : Bytes :=
  match getAccountAddressAsStr .lax Currency.publicAddressBase58Prefix ⟨1, 2⟩ with
  | .ok text => text
  | .error _ => []

def sampleTemplateRequest : Api.GetBlockTemplate.Request := { reserveSize := 1, walletAddress := sampleAddress }

/-- The template and the response of a node that has only its first block, when `key` is drawn. -/
def sampleAnswer (key : PublicKey) : Option (BlockTemplate × Api.GetBlockTemplate.Response) := do
  let s ← (State.openEmpty (.lax 5) 0).toOption
  let acc ← (Currency.parseAccountAddress .lax sampleAddress).toOption
  let p ← (s.createMiningBlockTemplate (.lax 5) 0 acc [0] fun _ ↦ ⟨key, 0⟩).toOption
  let template ← p.2
  let answer ← (s.getblocktemplate (.lax 5) 0 (fun _ ↦ ⟨key, 0⟩) sampleTemplateRequest).toOption
  return (template.1, answer.2)

private theorem sampleAnswer_eq_some {key : PublicKey} {template : BlockTemplate}
    {res : Api.GetBlockTemplate.Response} (h : sampleAnswer key = some (template, res)) :
    ∃ s s' s₁ acc difficulty height, State.openEmpty (.lax 5) 0 = .ok s ∧
      Currency.parseAccountAddress .lax sampleAddress = .ok acc ∧
      s.createMiningBlockTemplate (.lax 5) 0 acc [0] (fun _ ↦ ⟨key, 0⟩) =
        .ok (s₁, some (template, difficulty, height)) ∧
      s.getblocktemplate (.lax 5) 0 (fun _ ↦ ⟨key, 0⟩) sampleTemplateRequest = .ok (s', res) := by
  rw [sampleAnswer] at h
  obtain ⟨s, hs, h⟩ := Option.bind_eq_some_iff.mp h
  obtain ⟨acc, hacc, h⟩ := Option.bind_eq_some_iff.mp h
  obtain ⟨⟨s₁, found⟩, hcreate, h⟩ := Option.bind_eq_some_iff.mp h
  obtain ⟨⟨template', difficulty, height⟩, hfound, h⟩ := Option.bind_eq_some_iff.mp h
  obtain ⟨⟨s', res'⟩, hres, h⟩ := Option.bind_eq_some_iff.mp h
  obtain ⟨rfl, rfl⟩ := Prod.mk.inj (Option.some.inj h)
  rw [show found = some (template', difficulty, height) from hfound] at hcreate
  exact ⟨s, s', s₁, acc, difficulty, height, toOption_eq_some.mp hs, toOption_eq_some.mp hacc,
    toOption_eq_some.mp hcreate, toOption_eq_some.mp hres⟩

/-- The key all of whose bytes are 1. -/
def sampleKeyOfOnes : PublicKey := BitVec.ofNat 256 ((2 ^ 256 - 1) / 255)

/-- Whether a template keeps its vectors within their bounds. -/
def BlockTemplate.isInMemory (template : BlockTemplate) : Bool :=
  decide (template.baseTransaction.inputs.length ≤ 1 ∧ template.baseTransaction.outputs.length ≤ 20 ∧
    template.baseTransaction.extra.length ≤ 100 ∧ template.parentBlock = {} ∧ template.transactionHashes = [])

private theorem BlockTemplate.Reserves.inMemory {template : BlockTemplate} {key : PublicKey}
    {nonce padding : Bytes}
    (h : template.Reserves key nonce padding) (hsmall : template.isInMemory = true) : template.InMemory := by
  obtain ⟨hinputs, houtputs, hextra, hparent, hhashes⟩ := of_decide_eq_true hsmall
  obtain ⟨input, hcoinbase⟩ := h.inputs
  refine ⟨⟨hinputs.trans (by decide), ?_, houtputs.trans (by decide), hextra.trans (by decide)⟩, ?_, ?_⟩
  · intro input' hmem
    rw [hcoinbase, List.mem_singleton] at hmem
    rw [hmem]
    trivial
  · rw [hparent]
    exact ⟨by decide, nofun, by decide, by decide⟩
  · rw [hhashes]
    exact Nat.zero_le _

/-- Whether a key is found early, in one pass. -/
def BlockTemplate.isKeyFoundEarly (template : BlockTemplate) (blob : Bytes) : Bool :=
  let key := writeHash (getTransactionPublicKeyFromExtra template.baseTransaction.extra)
  let start := blob.length - (writeVector writeHash template.transactionHashes).length -
    template.baseTransaction.extra.length
  decide (key = List.replicate 32 0x01) && (LegacyApi.firstOccurrence key blob 0).any (start ≤ ·) &&
    decide (start + 35 < 2 ^ 32)

private theorem BlockTemplate.keyFoundEarly_of_pass {template : BlockTemplate} {blob : Bytes}
    (h : template.isKeyFoundEarly blob = true) : template.KeyFoundEarly blob := by
  simp only [isKeyFoundEarly, Bool.and_eq_true, decide_eq_true_eq, Option.any_eq_true] at h
  obtain ⟨⟨hkey, k, hk, hstart⟩, hroom⟩ := h
  obtain ⟨j, rfl, -, hnone⟩ := LegacyApi.firstOccurrence_eq_some hk
  refine ⟨hkey, fun i hi ↦ hnone i ?_, hroom⟩
  rw [Nat.zero_add] at hstart
  exact hi.trans_le hstart

/-- A key of ones is found early, and the reserved byte is that of the nonce. -/
theorem State.getblocktemplate_hits_iff_ones : ∃ template res,
    sampleAnswer sampleKeyOfOnes = some (template, res) ∧
      ReservedHitsNonce template 1 res.blocktemplateBlob res.reservedOffset.toNat := by
  have heval : ((sampleAnswer sampleKeyOfOnes).any fun p ↦
      p.1.isInMemory && p.1.isKeyFoundEarly p.2.blocktemplateBlob) = true := by
    simp only [sampleAnswer, State.getblocktemplate, findReserved, LegacyApi.slowMemmem_eq_pass]
    decide +kernel
  obtain ⟨⟨template, res⟩, hanswer, hp⟩ := (Option.any_eq_true _ _).mp heval
  obtain ⟨hsmall, hearly⟩ := Bool.and_eq_true_iff.mp hp
  obtain ⟨s, s', s₁, acc, difficulty, height, -, hacc, hcreate, hres⟩ := sampleAnswer_eq_some hanswer
  obtain ⟨key, padding, hreserves⟩ := createMiningBlockTemplate_reserves (by decide) hcreate
  exact ⟨template, res, hanswer, (State.getblocktemplate_hits_iff (.lax 5) s s' s₁ 0 _ sampleTemplateRequest res acc
    template difficulty height hacc hcreate (hreserves.inMemory hsmall) (by decide) hres).mpr
      (BlockTemplate.keyFoundEarly_of_pass hearly)⟩

/-- With another key the reserved byte is the number of transactions, and a miner that fills it leaves no
block. -/
theorem State.getblocktemplate_misses : ∃ s s' s₁ template res acc difficulty height,
    State.openEmpty (.lax 5) 0 = .ok s ∧
      Currency.parseAccountAddress .lax sampleTemplateRequest.walletAddress = .ok acc ∧
      s.createMiningBlockTemplate (.lax 5) 0 acc [0] (fun _ ↦ ⟨5, 0⟩) =
        .ok (s₁, some (template, difficulty, height)) ∧
      s.getblocktemplate (.lax 5) 0 (fun _ ↦ ⟨5, 0⟩) sampleTemplateRequest = .ok (s', res) ∧
      ¬ReservedHitsNonce template 1 res.blocktemplateBlob res.reservedOffset.toNat := by
  have heval : ((sampleAnswer 5).any fun p ↦
      (copyTo p.2.blocktemplateBlob p.2.reservedOffset.toNat [0xff]).toOption.all fun b ↦
        !(fromBinary readBlockTemplate {} b).2) = true := by
    simp only [sampleAnswer, State.getblocktemplate, findReserved, LegacyApi.slowMemmem_eq_pass]
    decide +kernel
  obtain ⟨⟨template, res⟩, hanswer, hall⟩ := (Option.any_eq_true _ _).mp heval
  obtain ⟨s, s', s₁, acc, difficulty, height, hs, hacc, hcreate, hres⟩ := sampleAnswer_eq_some hanswer
  refine ⟨s, s', s₁, template, res, acc, difficulty, height, hs, hacc, hcreate, hres, ?_⟩
  rintro ⟨key, nonce, padding, -, -, hits⟩
  obtain ⟨b, nonce', hcopy, -, hread⟩ := hits [0xff] rfl
  rw [hcopy, show (Except.ok b : Except Failure Bytes).toOption = some b from rfl, Option.all_some, hread] at hall
  exact Bool.false_ne_true hall

end CryoNero
