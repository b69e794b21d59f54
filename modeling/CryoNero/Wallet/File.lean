import CryoNero.Core.Wallet

/-!
# What a wallet file holds

A `WalletFile` is a wallet file in the form in which the wallet writes it: the version, the view
keys, the two counters, and records with keys that fit. The counters are not tied to the number of
records, since a file that is written in place goes through states in which they are not.
`load_walletFile` says what is loaded from such a file: exactly as many of its first records as the
smaller counter says.
-/

namespace CryoNero

open Store Seria Std

/-! ## Encryption -/

namespace WalletCrypto

variable (crypto : WalletCrypto)

@[simp] theorem length_chacha8 (data : Bytes) (key : WalletKey) (iv : Chacha8Iv) :
    (crypto.chacha8 data key iv).length = data.length := List.length_mapIdx

/-- The cipher undoes itself. -/
@[simp] theorem chacha8_chacha8 (data : Bytes) (key : WalletKey) (iv : Chacha8Iv) :
    crypto.chacha8 (crypto.chacha8 data key iv) key iv = data := by
  refine List.ext_getElem? fun i ↦ ?_
  simp only [chacha8, List.getElem?_mapIdx, Option.map_map]
  cases data[i]? with
  | none => rfl
  | some b =>
    simp only [Option.map_some, Function.comp_apply]
    rw [UInt8.xor_assoc, UInt8.xor_self, UInt8.xor_zero]

end WalletCrypto

namespace ContainerStorageWalletRecord

@[simp] theorem length_toBytes (r : ContainerStorageWalletRecord) : r.toBytes.length = 72 := by
  simp [toBytes]

theorem ofBytes_toBytes (r : ContainerStorageWalletRecord) : ofBytes r.toBytes = r := by
  have hpk : r.toBytes.take 32 = blobBytes 256 r.pk :=
    List.take_left' (length_blobBytes 256 r.pk)
  have hdrop : r.toBytes.drop 32 = blobBytes 256 r.sk ++ leBytes 8 r.ct.toNat :=
    List.drop_left' (length_blobBytes 256 r.pk)
  have hsk : (r.toBytes.drop 32).take 32 = blobBytes 256 r.sk := by
    rw [hdrop]
    exact List.take_left' (length_blobBytes 256 r.sk)
  have hct : r.toBytes.drop 64 = leBytes 8 r.ct.toNat := by
    have hsplit : r.toBytes.drop 64 = (r.toBytes.drop 32).drop 32 := by rw [List.drop_drop]
    rw [hsplit, hdrop]
    exact List.drop_left' (length_blobBytes 256 r.sk)
  rw [ofBytes, hpk, hsk, hct, blobOfBytes_blobBytes (by omega), blobOfBytes_blobBytes (by omega),
    leNat_leBytes r.ct.toNat_lt, UInt64.ofNat_toNat]

end ContainerStorageWalletRecord

theorem EncryptedWalletRecord.ofBytes_toBytes (e : EncryptedWalletRecord) :
    ofBytes e.toBytes = e := by
  have hiv : e.toBytes.take 8 = blobBytes 64 e.iv := List.take_left' (length_blobBytes 64 e.iv)
  have hdata : e.toBytes.drop 8 = e.data := List.drop_left' (length_blobBytes 64 e.iv)
  rw [ofBytes, hiv, hdata, blobOfBytes_blobBytes (by omega)]

section Records

variable {crypto : WalletCrypto}

theorem decryptKeyPair_encryptKeyPair (iv : Chacha8Iv) (record : WalletRecord) (key : WalletKey) :
    decryptKeyPair crypto (encryptKeyPair crypto iv record key) key = record := by
  simp [decryptKeyPair, encryptKeyPair, ContainerStorageWalletRecord.ofBytes_toBytes]

theorem length_data_encryptKeyPair (iv : Chacha8Iv) (record : WalletRecord) (key : WalletKey) :
    (encryptKeyPair crypto iv record key).data.length = 72 := by
  simp [encryptKeyPair]

theorem EncryptedWalletRecord.length_toBytes {e : EncryptedWalletRecord} (h : e.data.length = 72) :
    e.toBytes.length = encryptedWalletRecordSize := by
  simp [toBytes, h, encryptedWalletRecordSize]

/-- The records of a wallet are alike: either all have a secret key that fits their public key, or
none has a secret key and all public keys are points of the curve. -/
structure WalletRecord.Valid (crypto : WalletCrypto) (viewOnly : Bool) (r : WalletRecord) : Prop where
  mode : r.spendSecretKey = 0 ↔ viewOnly = true
  keysMatch : r.spendSecretKey ≠ 0 → crypto.keysMatch r.spendSecretKey r.spendPublicKey = true
  keyIsvalid : r.spendSecretKey = 0 → crypto.keyIsvalid r.spendPublicKey = true

theorem WalletRecord.Valid.checkSpendKeys {viewOnly : Bool} {r : WalletRecord}
    (h : r.Valid crypto viewOnly) : checkSpendKeys crypto r = .ok () := by
  unfold CryoNero.checkSpendKeys
  by_cases hsk : r.spendSecretKey = 0
  · rw [if_neg (not_not.mpr hsk), ensure_eq_ok]
    exact h.keyIsvalid hsk
  · rw [if_pos hsk, ensure_eq_ok]
    exact h.keysMatch hsk

/-! ## The loop that loads the records -/

/-- The wallet that has taken in the given records, one after the other. -/
def Wallet.hold (w : Wallet) (records : List WalletRecord) : Wallet :=
  { w with
    firstRecord := records.head?.getD w.firstRecord
    walletRecords := records.foldl (fun t r ↦ t.insertIfNew r.spendPublicKey r) w.walletRecords
    oldestTimestamp := records.foldl (fun t r ↦ min t r.creationTimestamp) w.oldestTimestamp }

private theorem Wallet.hold_append_singleton (w : Wallet) {records : List WalletRecord} (r : WalletRecord)
    (h : records ≠ []) :
    w.hold (records ++ [r]) =
      { w.hold records with
        oldestTimestamp := min (w.hold records).oldestTimestamp r.creationTimestamp
        walletRecords := (w.hold records).walletRecords.insertIfNew r.spendPublicKey r } := by
  obtain ⟨r₀, rest, rfl⟩ := List.exists_cons_of_ne_nil h
  simp [hold]

/-- Of several records with one key the first is held, and a record that is there stays. -/
theorem Wallet.get_hold (w : Wallet) (records : List WalletRecord) (pk : PublicKey) :
    (w.hold records).walletRecords[pk]? =
      w.walletRecords[pk]?.or (records.find? fun r ↦ r.spendPublicKey = pk) := by
  change (records.foldl (fun t r ↦ t.insertIfNew r.spendPublicKey r) w.walletRecords)[pk]? = _
  generalize w.walletRecords = t
  induction records generalizing t with
  | nil => simp
  | cons r records ih =>
    rw [List.foldl_cons, ih, ExtTreeMap.getElem?_insertIfNew, List.find?_cons]
    simp only [LawfulEqCmp.compare_eq_iff_eq, ExtTreeMap.mem_iff_isSome_getElem?]
    by_cases hpk : r.spendPublicKey = pk
    · subst hpk
      cases t[r.spendPublicKey]? <;> simp
    · simp [hpk]

/-- Records with different keys are all held. -/
theorem Wallet.size_hold {w : Wallet} {records : List WalletRecord} (hempty : w.walletRecords = ∅)
    (hnodup : (records.map (·.spendPublicKey)).Nodup) :
    (w.hold records).walletRecords.size = records.length := by
  induction records using List.reverseRecOn with
  | nil =>
    change w.walletRecords.size = 0
    rw [hempty]
    exact ExtTreeMap.size_empty
  | append_singleton records r ih =>
    rw [List.map_append, List.nodup_append] at hnodup
    have hnew : (w.hold records).walletRecords[r.spendPublicKey]? = none := by
      rw [get_hold, hempty, ExtTreeMap.getElem?_empty, Option.none_or, List.find?_eq_none]
      intro r' hr' heq
      exact hnodup.2.2 _ (List.mem_map_of_mem hr') _ (by simp) (of_decide_eq_true heq)
    have hrecords : (w.hold (records ++ [r])).walletRecords =
        (w.hold records).walletRecords.insertIfNew r.spendPublicKey r := by
      simp [hold]
    have hmem : ¬r.spendPublicKey ∈ (w.hold records).walletRecords := by
      rw [ExtTreeMap.mem_iff_isSome_getElem?, hnew]
      exact Bool.false_ne_true
    rw [hrecords, ExtTreeMap.size_insertIfNew, if_neg hmem, ih hnodup.1, List.length_append,
      List.length_singleton]

private theorem loadRecord_hold {viewOnly : Bool} {w : Wallet} {itemCount : ℕ}
    {done : List EncryptedWalletRecord} {e : EncryptedWalletRecord}
    (hvalid : (decryptKeyPair crypto e w.walletKey).Valid crypto viewOnly) :
    loadRecord crypto itemCount
        ⟨if done = [] then false else viewOnly,
          w.hold (done.map fun e ↦ decryptKeyPair crypto e w.walletKey)⟩ (e, done.length) =
      .ok ⟨viewOnly, w.hold ((done ++ [e]).map fun e ↦ decryptKeyPair crypto e w.walletKey)⟩ := by
  set record := decryptKeyPair crypto e w.walletKey with hrecord
  have hkeys := hvalid.checkSpendKeys
  have hmode : decide (record.spendSecretKey = 0) = viewOnly := by
    rw [Bool.eq_iff_iff, decide_eq_true_iff]
    exact hvalid.mode
  have hif (p : Prop) [Decidable p] (s : Loading) :
      (if p then checkSpendKeys crypto record >>= fun _ ↦ pure s else pure s) =
        (.ok s : Except WalletError Loading) := by
    split_ifs
    · rw [hkeys]
      rfl
    · rfl
  by_cases hdone : done = []
  · subst hdone
    simp only [loadRecord, Loading.checkMode, List.length_nil, if_pos, Wallet.hold, ← hrecord,
      hmode, pure_bind, List.nil_append, List.map_cons, List.map_nil, List.foldl_cons,
      List.foldl_nil, List.head?_cons, Option.getD_some]
    exact hif _ _
  · have hens : ensure (¬((viewOnly = true ∧ record.spendSecretKey ≠ 0) ∨
        (¬viewOnly = true ∧ record.spendSecretKey = 0)))
        (WalletError.exception Api.walletFileDecryptError
          "All addresses must be either tracking or not") = .ok () := by
      rw [ensure_eq_ok, ← hvalid.mode]
      tauto
    have hlen : done.length ≠ 0 := fun h ↦ hdone (List.length_eq_zero_iff.mp h)
    have hkey : ∀ l, (w.hold l).walletKey = w.walletKey := fun _ ↦ rfl
    rw [List.map_append, List.map_cons, List.map_nil,
      Wallet.hold_append_singleton _ _ (by simpa using hdone), if_neg hdone]
    simp only [loadRecord, Loading.checkMode, if_neg hlen, hkey, ← hrecord, hens, ok_bind,
      pure_bind]
    exact hif _ _

private theorem foldlM_loadRecord {viewOnly : Bool} {w : Wallet} {itemCount : ℕ}
    {encrypted : List EncryptedWalletRecord}
    (hvalid : ∀ e ∈ encrypted, (decryptKeyPair crypto e w.walletKey).Valid crypto viewOnly) :
    encrypted.zipIdx.foldlM (loadRecord crypto itemCount) { wallet := w } =
      .ok ⟨if encrypted = [] then false else viewOnly,
        w.hold (encrypted.map fun e ↦ decryptKeyPair crypto e w.walletKey)⟩ := by
  induction encrypted using List.reverseRecOn with
  | nil => rfl
  | append_singleton done e ih =>
    have hdone := ih fun e' he' ↦ hvalid e' (List.mem_append_left _ he')
    rw [List.zipIdx_append, List.foldlM_append, hdone, ok_bind]
    simp only [List.zipIdx_singleton, List.foldlM_cons, List.foldlM_nil, bind_pure]
    rw [Nat.zero_add, loadRecord_hold (hvalid e (by simp))]
    simp

end Records

/-! ## The file -/

/-- The parts of a wallet file, with view keys that are readable with `key`. -/
structure WalletImage (crypto : WalletCrypto) (key : WalletKey) where
  /-- The prefix of the file: eight bytes that are not used, and the encrypted view keys. -/
  start : Bytes
  itemCapacity : Bytes
  itemCount : Bytes
  encrypted : List EncryptedWalletRecord
  length_start : start.length = containerStoragePrefixSize
  length_itemCapacity : itemCapacity.length = 8
  length_itemCount : itemCount.length = 8
  length_data : ∀ e ∈ encrypted, e.data.length = 72
  viewKeysMatch : crypto.keysMatch
    (decryptKeyPair crypto (.ofBytes (start.drop 8)) key).spendSecretKey
    (decryptKeyPair crypto (.ofBytes (start.drop 8)) key).spendPublicKey = true

/-- A wallet file as the wallet writes it: all its records are as they should be. -/
structure WalletFile (crypto : WalletCrypto) (key : WalletKey) extends WalletImage crypto key where
  viewOnly : Bool
  valid : ∀ e ∈ encrypted, (decryptKeyPair crypto e key).Valid crypto viewOnly

namespace WalletImage

variable {crypto : WalletCrypto} {key : WalletKey}

/-- The part of the file before the records. -/
def header (f : WalletImage crypto key) : Bytes :=
  leBytes 1 serializationVersionV2 ++ f.start ++ f.itemCapacity ++ f.itemCount

/-- The bytes of the file. -/
def bytes (f : WalletImage crypto key) : Bytes := f.header ++ f.encrypted.flatMap (·.toBytes)

/-- How many records the counters say that the file holds. -/
def count (f : WalletImage crypto key) : ℕ := min (leNat f.itemCount) (leNat f.itemCapacity)

def records (f : WalletImage crypto key) : List WalletRecord :=
  f.encrypted.map fun e ↦ decryptKeyPair crypto e key

/-- The file cut off after `n` records. -/
def cut (f : WalletImage crypto key) (n : ℕ) : WalletImage crypto key :=
  { f with
    encrypted := f.encrypted.take n
    length_data := fun e he ↦ f.length_data e (List.mem_of_mem_take he) }

@[simp] theorem length_records (f : WalletImage crypto key) :
    f.records.length = f.encrypted.length := List.length_map _

private theorem records_cut (f : WalletImage crypto key) (n : ℕ) :
    (f.cut n).records = f.records.take n := List.map_take.symm ▸ rfl

theorem encrypted_cut (f : WalletImage crypto key) (n : ℕ) :
    (f.cut n).encrypted = f.encrypted.take n := rfl

@[simp] theorem header_cut (f : WalletImage crypto key) (n : ℕ) : (f.cut n).header = f.header := rfl

private theorem length_header (f : WalletImage crypto key) :
    f.header.length = walletFileSize 0 := by
  simp [header, f.length_start, f.length_itemCapacity, f.length_itemCount, walletFileSize,
    Nat.add_assoc]

theorem length_flatMap_toBytes {l : List EncryptedWalletRecord} (h : ∀ e ∈ l, e.data.length = 72) :
    (l.flatMap (·.toBytes)).length = encryptedWalletRecordSize * l.length := by
  induction l with
  | nil => rfl
  | cons e l ih =>
    rw [List.flatMap_cons, List.length_append, ih fun e' he' ↦ h e' (List.mem_cons_of_mem _ he'),
      EncryptedWalletRecord.length_toBytes (h e List.mem_cons_self), List.length_cons]
    ring

theorem length_bytes (f : WalletImage crypto key) :
    f.bytes.length = walletFileSize f.encrypted.length := by
  rw [bytes, List.length_append, f.length_header, length_flatMap_toBytes f.length_data]
  simp [walletFileSize]

theorem drop_bytes (f : WalletImage crypto key) :
    f.bytes.drop (walletFileSize 0) = f.encrypted.flatMap (·.toBytes) :=
  List.drop_left' f.length_header

private theorem splitRecords_flatMap {l : List EncryptedWalletRecord} (h : ∀ e ∈ l, e.data.length = 72) :
    splitRecords l.length (l.flatMap (·.toBytes)) = l := by
  induction l with
  | nil => rfl
  | cons e l ih =>
    have hlen := EncryptedWalletRecord.length_toBytes (h e List.mem_cons_self)
    have ih := ih fun e' he' ↦ h e' (List.mem_cons_of_mem _ he')
    rw [splitRecords, List.length_cons, List.range_succ_eq_map, List.map_cons, List.map_map,
      List.flatMap_cons, Nat.mul_zero, List.drop_zero, List.take_left' hlen,
      EncryptedWalletRecord.ofBytes_toBytes]
    conv_rhs => rw [← ih]
    refine congrArg _ (List.map_congr_left fun i _ ↦ ?_)
    have hdrop : encryptedWalletRecordSize * (i + 1) =
        e.toBytes.length + encryptedWalletRecordSize * i := by
      rw [hlen]
      ring
    simp only [Function.comp_apply, Nat.succ_eq_add_one, hdrop, List.drop_length_add_append]

/-! ## Loading -/

theorem readFile_ahead {f : FileStream} {bytes rest : Bytes} {n : ℕ} (hn : bytes.length = n)
    (h : f.Ahead (bytes ++ rest)) :
    ∃ f' : FileStream, readFile f n = .ok (bytes, f') ∧ f'.Ahead rest ∧ f'.content = f.content ∧
      f'.journal = f.journal := by
  refine ⟨f.seek (f.position + bytes.length), ?_, h.seek, rfl, rfl⟩
  rw [readFile, ← hn, h.read]
  rfl

/-- The wallet that a file is loaded into: its file is the given one, and it has its view keys. -/
def into (f : WalletImage crypto key) (w : Wallet) (file : FileStream) : Wallet :=
  { w with
    file := file
    viewPublicKey := (decryptKeyPair crypto (.ofBytes (f.start.drop 8)) key).spendPublicKey
    viewSecretKey := (decryptKeyPair crypto (.ofBytes (f.start.drop 8)) key).spendSecretKey }

theorem bytes_cut_append (f : WalletImage crypto key) (n : ℕ) :
    f.bytes = (f.cut n).bytes ++ (f.encrypted.drop n).flatMap (·.toBytes) := by
  rw [bytes, bytes, header_cut, List.append_assoc, ← List.flatMap_append]
  congr 2
  exact (List.take_append_drop n f.encrypted).symm

theorem length_cut {f : WalletImage crypto key} {n : ℕ} (h : n ≤ f.encrypted.length) :
    (f.cut n).encrypted.length = n := by
  rw [cut, List.length_take, Nat.min_eq_left h]

private theorem truncate_bytes {f : WalletImage crypto key} {n : ℕ} (hn : n ≤ f.encrypted.length)
    {s : FileStream} {rest : Bytes} (hs : s.content = (f.cut n).bytes ++ rest)
    (hjournal : s.journal = []) :
    ∃ p, (if walletFileSize n < s.content.length then s.truncate (walletFileSize n) else s) =
      { content := (f.cut n).bytes, position := p } := by
  have hlen : (f.cut n).bytes.length = walletFileSize n := by rw [length_bytes, length_cut hn]
  split_ifs with hlong
  · refine ⟨walletFileSize n, ?_⟩
    rw [FileStream.truncate, hs, hjournal, List.take_left' hlen]
  · have hnil : rest = [] := by
      rw [hs, List.length_append, hlen] at hlong
      exact List.length_eq_zero_iff.mp (by omega)
    refine ⟨s.position, ?_⟩
    rw [← List.append_nil (f.cut n).bytes, ← hnil, ← hs, ← hjournal]

private theorem readFile_version (f : WalletImage crypto key) (junk : Bytes) :
    ∃ s, readFile { content := f.bytes ++ junk } 1 = .ok (leBytes 1 serializationVersionV2, s) := by
  have h : FileStream.Ahead { content := f.bytes ++ junk } (leBytes 1 serializationVersionV2 ++
      (f.start ++ (f.itemCapacity ++ (f.itemCount ++
        (f.encrypted.flatMap (·.toBytes) ++ junk))))) := by
    refine ⟨Nat.zero_le _, ?_⟩
    change f.bytes ++ junk = _
    simp only [bytes, header, List.append_assoc]
  obtain ⟨s, hs, -⟩ := readFile_ahead (length_leBytes 1 _) h
  exact ⟨s, hs⟩

/-- Loading reads as many records as the counters say, one after the other, and cuts off what follows
them. -/
private theorem loadContainerStorage_bytes (f : WalletImage crypto key) {w : Wallet} (junk : Bytes)
    (hkey : w.walletKey = key) (hcount : f.count ≤ f.encrypted.length) :
    ∃ p, ({ w with file := { content := f.bytes ++ junk } } : Wallet).loadContainerStorage crypto =
      (f.cut f.count).encrypted.zipIdx.foldlM (loadRecord crypto f.count)
          { wallet := f.into w { content := f.bytes ++ junk } } >>= fun s ↦
        .ok { s.wallet with file := { content := (f.cut f.count).bytes, position := p } } := by
  set file : FileStream := { content := f.bytes ++ junk } with hfile
  set read := (f.cut f.count).encrypted.flatMap (·.toBytes) with hread
  set rest := (f.encrypted.drop f.count).flatMap (·.toBytes) ++ junk with hrest
  have hlenRead : read.length = encryptedWalletRecordSize * f.count := by
    rw [hread, length_flatMap_toBytes (f.cut f.count).length_data, length_cut hcount]
  -- the file in the order in which it is read
  have h₀ : file.Ahead (leBytes 1 serializationVersionV2 ++
      (f.start ++ (f.itemCapacity ++ (f.itemCount ++ (read ++ rest))))) := by
    refine ⟨Nat.zero_le _, ?_⟩
    change f.bytes ++ junk = _
    rw [f.bytes_cut_append f.count, bytes, header_cut, header]
    simp only [List.append_assoc, hread, hrest]
  obtain ⟨s₁, r₁, h₁, c₁, j₁⟩ := readFile_ahead (length_leBytes 1 _) h₀
  obtain ⟨s₂, r₂, h₂, c₂, j₂⟩ := readFile_ahead f.length_start h₁
  obtain ⟨s₃, r₃, h₃, c₃, j₃⟩ := readFile_ahead f.length_itemCapacity h₂
  obtain ⟨s₄, r₄, h₄, c₄, j₄⟩ := readFile_ahead f.length_itemCount h₃
  obtain ⟨s₅, r₅, -, c₅, j₅⟩ := readFile_ahead hlenRead h₄
  have hversion : leNat (leBytes 1 serializationVersionV2) = serializationVersionV2 :=
    leNat_leBytes (by decide)
  have hsplit : splitRecords f.count read = (f.cut f.count).encrypted := by
    have h := splitRecords_flatMap (f.cut f.count).length_data
    rwa [length_cut hcount] at h
  obtain ⟨p, hp⟩ : ∃ p, (if walletFileSize f.count < s₅.content.length then
      s₅.truncate (walletFileSize f.count) else s₅) =
      { content := (f.cut f.count).bytes, position := p } := by
    have hcontent : s₅.content = (f.cut f.count).bytes ++ rest := by
      rw [c₅, c₄, c₃, c₂, c₁, hrest, ← List.append_assoc, ← f.bytes_cut_append]
    exact truncate_bytes hcount hcontent (by rw [j₅, j₄, j₃, j₂, j₁])
  refine ⟨p, ?_⟩
  subst hkey
  rw [← hp, ← hsplit]
  unfold Wallet.loadContainerStorage
  rw [r₁, ok_bind]
  dsimp only
  rw [r₂, ok_bind]
  dsimp only
  rw [r₃, ok_bind]
  dsimp only
  rw [r₄, ok_bind]
  dsimp only
  rw [ensure_pos _ hversion.ge, ok_bind, ensure_pos _ f.viewKeysMatch, ok_bind,
    show min (leNat f.itemCount) (leNat f.itemCapacity) = f.count from rfl, r₅, ok_bind]
  rfl

/-- Opening a file loads it and refuses it when it has no records. -/
theorem load_bytes_eq {env : WalletEnv} (f : WalletImage env.toWalletCrypto key) {w : Wallet}
    (junk : Bytes) (hkey : w.walletKey = key) (hcount : f.count ≤ f.encrypted.length) :
    ∃ p, w.load env (f.bytes ++ junk) =
      (f.cut f.count).encrypted.zipIdx.foldlM (loadRecord env.toWalletCrypto f.count)
          { wallet := f.into w { content := f.bytes ++ junk } } >>= fun s ↦
        (ensure (s.wallet.walletRecords.isEmpty = false)
          (.exception Api.walletFileDecryptError "Error reading wallet file")).map fun _ ↦
            { s.wallet with file := { content := (f.cut f.count).bytes, position := p } } := by
  obtain ⟨p, hp⟩ := f.loadContainerStorage_bytes (w := w) junk hkey hcount
  obtain ⟨s, hs⟩ := f.readFile_version junk
  refine ⟨p, ?_⟩
  have hversion : leNat (leBytes 1 serializationVersionV2) = serializationVersionV2 :=
    leNat_leBytes (by decide)
  unfold Wallet.load
  simp only [hs, ok_bind, hversion, ensure_pos _ (Nat.le_refl serializationVersionV2),
    Nat.lt_irrefl, if_false, hp]
  cases (f.cut f.count).encrypted.zipIdx.foldlM (loadRecord env.toWalletCrypto f.count)
      { wallet := f.into w { content := f.bytes ++ junk } } with
  | error e => rfl
  | ok s => rfl

/-! ## Files that are written -/

/-- The file with the given view keys and records and with both counters equal to `size`. -/
def ofRecords (key : WalletKey) (viewIv : Chacha8Iv) (viewKeys : WalletRecord)
    (hview : crypto.keysMatch viewKeys.spendSecretKey viewKeys.spendPublicKey = true) (size : ℕ)
    (records : List (WalletRecord × Chacha8Iv)) : WalletImage crypto key where
  start := blobBytes 64 0 ++ (encryptKeyPair crypto viewIv viewKeys key).toBytes
  itemCapacity := leBytes 8 size
  itemCount := leBytes 8 size
  encrypted := records.map fun r ↦ encryptKeyPair crypto r.2 r.1 key
  length_start := by
    rw [List.length_append, length_blobBytes,
      EncryptedWalletRecord.length_toBytes (length_data_encryptKeyPair _ _ _)]
    rfl
  length_itemCapacity := length_leBytes 8 size
  length_itemCount := length_leBytes 8 size
  length_data := by
    intro e he
    obtain ⟨r, -, rfl⟩ := List.mem_map.mp he
    exact length_data_encryptKeyPair r.2 r.1 key
  viewKeysMatch := by
    rw [List.drop_left' (length_blobBytes 64 0), EncryptedWalletRecord.ofBytes_toBytes,
      decryptKeyPair_encryptKeyPair]
    exact hview

section OfRecords

variable {viewIv : Chacha8Iv} {viewKeys : WalletRecord} {size : ℕ}
variable {hview : crypto.keysMatch viewKeys.spendSecretKey viewKeys.spendPublicKey = true}
variable {records : List (WalletRecord × Chacha8Iv)}

theorem records_ofRecords :
    (ofRecords key viewIv viewKeys hview size records).records =
      records.map Prod.fst := by
  rw [WalletImage.records, ofRecords, List.map_map]
  exact List.map_congr_left fun r _ ↦ decryptKeyPair_encryptKeyPair r.2 r.1 key

theorem count_ofRecords (hsize : size < 2 ^ 64) :
    (ofRecords key viewIv viewKeys hview size records).count = size := by
  rw [count, ofRecords, leNat_leBytes (by simpa using hsize), Nat.min_self]

theorem into_ofRecords (w : Wallet) (file : FileStream) :
    (ofRecords key viewIv viewKeys hview size records).into w file =
      { w with
        file := file
        viewPublicKey := viewKeys.spendPublicKey
        viewSecretKey := viewKeys.spendSecretKey } := by
  have hview : decryptKeyPair crypto (.ofBytes ((blobBytes 64 0 ++
      (encryptKeyPair crypto viewIv viewKeys key).toBytes).drop 8)) key = viewKeys := by
    rw [List.drop_left' (length_blobBytes 64 0), EncryptedWalletRecord.ofBytes_toBytes,
      decryptKeyPair_encryptKeyPair]
  rw [into, ofRecords]
  simp only [hview]

end OfRecords

end WalletImage

namespace WalletFile

variable {crypto : WalletCrypto} {key : WalletKey}

private theorem foldlM_encrypted (f : WalletFile crypto key) {w : Wallet} (file : FileStream)
    (hkey : w.walletKey = key) (n : ℕ) :
    ∃ mode, (f.cut n).encrypted.zipIdx.foldlM (loadRecord crypto n) { wallet := f.into w file } =
      .ok ⟨mode, (f.into w file).hold (f.records.take n)⟩ := by
  subst hkey
  rw [← WalletImage.records_cut]
  exact ⟨_, foldlM_loadRecord fun e he ↦ f.valid e (List.mem_of_mem_take he)⟩

/-- Opening a file: as many of its records as the counters say are loaded, the first of which
becomes the first record. -/
theorem load_bytes {env : WalletEnv} (f : WalletFile env.toWalletCrypto key) {w : Wallet}
    (junk : Bytes) (hkey : w.walletKey = key) (hpos : f.count ≠ 0)
    (hcount : f.count ≤ f.encrypted.length) :
    ∃ p, w.load env (f.bytes ++ junk) =
      .ok ((f.into w { content := (f.cut f.count).bytes, position := p }).hold
        (f.records.take f.count)) := by
  obtain ⟨p, hp⟩ := f.load_bytes_eq (w := w) junk hkey hcount
  obtain ⟨mode, hloop⟩ := f.foldlM_encrypted { content := f.bytes ++ junk } hkey f.count
  refine ⟨p, ?_⟩
  rw [hp, hloop, ok_bind, ensure_pos]
  · rfl
  · rw [ExtTreeMap.isEmpty_eq_false_iff]
    intro hempty
    obtain ⟨r, hr⟩ : ∃ r, r ∈ f.records.take f.count := by
      refine List.exists_mem_of_ne_nil _ (List.ne_nil_of_length_pos ?_)
      rw [List.length_take, WalletImage.length_records]
      omega
    have hget := (f.into w { content := f.bytes ++ junk }).get_hold
      (f.records.take f.count) r.spendPublicKey
    rw [hempty, ExtTreeMap.getElem?_empty, eq_comm, Option.or_eq_none_iff, List.find?_eq_none] at hget
    exact hget.2 r hr (by simp)

/-- A file whose counters say that it has no records is refused. -/
theorem load_bytes_of_count_eq_zero {env : WalletEnv} (f : WalletFile env.toWalletCrypto key)
    {w : Wallet} (junk : Bytes) (hkey : w.walletKey = key) (hempty : w.walletRecords = ∅)
    (hzero : f.count = 0) :
    w.load env (f.bytes ++ junk) =
      .error (.exception Api.walletFileDecryptError "Error reading wallet file") := by
  obtain ⟨p, hp⟩ := f.load_bytes_eq (w := w) junk hkey (by omega)
  obtain ⟨mode, hloop⟩ := f.foldlM_encrypted { content := f.bytes ++ junk } hkey f.count
  rw [hp, hloop, ok_bind, hzero, List.take_zero]
  change (ensure (w.walletRecords.isEmpty = false) _).map _ = _
  rw [hempty]
  rfl

/-- The file with the given view keys and records and with both counters equal to `size`. -/
def ofRecords (key : WalletKey) (viewIv : Chacha8Iv) (viewKeys : WalletRecord)
    (hview : crypto.keysMatch viewKeys.spendSecretKey viewKeys.spendPublicKey = true) (size : ℕ)
    (records : List (WalletRecord × Chacha8Iv)) (viewOnly : Bool)
    (hvalid : ∀ r ∈ records, r.1.Valid crypto viewOnly) : WalletFile crypto key where
  toWalletImage := .ofRecords key viewIv viewKeys hview size records
  viewOnly := viewOnly
  valid := by
    intro e he
    obtain ⟨r, hr, rfl⟩ := List.mem_map.mp he
    rw [decryptKeyPair_encryptKeyPair]
    exact hvalid r hr

theorem ofRecords_toWalletImage {viewIv : Chacha8Iv} {viewKeys : WalletRecord}
    {hview : crypto.keysMatch viewKeys.spendSecretKey viewKeys.spendPublicKey = true} {size : ℕ}
    {records : List (WalletRecord × Chacha8Iv)} {viewOnly : Bool}
    {hvalid : ∀ r ∈ records, r.1.Valid crypto viewOnly} :
    (ofRecords key viewIv viewKeys hview size records viewOnly hvalid).toWalletImage =
      .ofRecords key viewIv viewKeys hview size records := rfl

end WalletFile

end CryoNero
