import CryoNero.Wallet.Append

/-!
# A wallet file after a torn write

A process that stops while it appends addresses leaves one of finitely many files: the old file with
a part of the new records behind it, or the file with all new records and one of its counters partly
overwritten. The new records do no harm, since nothing counts them. The counters do: a counter whose
low bytes are already those of the new value and whose high bytes are still those of the old one can
be smaller than both. From 255 records to 256 the first byte that is written makes it zero.

`survives_iff` says for which files and batches every such file can be opened with all its old
records: when no counter falls below the old number of records on its way.
-/

namespace CryoNero

open Store Seria Std WalletImage

namespace WalletFile

variable {crypto : WalletCrypto} {key : WalletKey}

/-- A file that holds as many records as its counters say, with different keys. -/
structure Complete (f : WalletFile crypto key) : Prop where
  count : f.count = f.encrypted.length
  nodup : (f.records.map (·.spendPublicKey)).Nodup

/-- The file with more records behind the old ones and the first `u` of the sixteen bytes of its
counters overwritten with the counter `size`. -/
def overwritten (f : WalletFile crypto key) (hmode : f.viewOnly = false)
    (more : List EncryptedWalletRecord) (hlength : ∀ e ∈ more, e.data.length = 72)
    (hvalid : ∀ e ∈ more, (decryptKeyPair crypto e key).Valid crypto false) (size u : ℕ) :
    WalletFile crypto key :=
  { f with
    itemCapacity := overlay u (leBytes 8 size) f.itemCapacity
    itemCount := overlay (u - 8) (leBytes 8 size) f.itemCount
    encrypted := f.encrypted ++ more
    length_itemCapacity := by rw [length_overlay] <;> simp [f.length_itemCapacity]
    length_itemCount := by rw [length_overlay] <;> simp [f.length_itemCount]
    length_data := List.forall_mem_append.mpr ⟨f.length_data, hlength⟩
    valid := List.forall_mem_append.mpr ⟨f.valid, hmode ▸ hvalid⟩ }

section Overwritten

variable {f : WalletFile crypto key} {hmode : f.viewOnly = false}
variable {more : List EncryptedWalletRecord} {hlength : ∀ e ∈ more, e.data.length = 72}
variable {hvalid : ∀ e ∈ more, (decryptKeyPair crypto e key).Valid crypto false}

theorem count_overwritten (size u : ℕ) :
    (f.overwritten hmode more hlength hvalid size u).count =
      min (splice (min (u - 8) 8) size (leNat f.itemCount))
        (splice (min u 8) size (leNat f.itemCapacity)) := by
  rw [count]
  simp only [overwritten]
  rw [leNat_overlay _ _ f.length_itemCount, leNat_overlay _ _ f.length_itemCapacity]

/-- Overwriting the counters in place. -/
theorem bytes_overwritten (size u : ℕ) :
    replay (f.bytes ++ more.flatMap (·.toBytes)) (writesAt (1 + containerStoragePrefixSize)
        ((leBytes 8 size ++ leBytes 8 size).take u)) =
      (f.overwritten hmode more hlength hvalid size u).bytes := by
  set before := leBytes 1 serializationVersionV2 ++ f.start with hbefore
  set body := (f.encrypted ++ more).flatMap (·.toBytes) with hbody
  have hlen : 1 + containerStoragePrefixSize = before.length := by
    rw [hbefore, List.length_append, length_leBytes, f.length_start]
  have hfile : f.bytes ++ more.flatMap (·.toBytes) =
      before ++ (f.itemCapacity ++ (f.itemCount ++ body)) := by
    simp only [bytes, header, hbefore, hbody, List.flatMap_append, List.append_assoc]
  have hcap := f.length_itemCapacity
  have hcnt := f.length_itemCount
  rw [hfile, hlen, replay_writesAt]
  simp only [bytes, header, overwritten, overlay, ← hbefore, ← hbody, List.append_assoc]
  congr 1
  rw [List.take_append, length_leBytes, List.length_append, List.length_take, List.length_take,
    length_leBytes, List.append_assoc]
  rcases Nat.le_total u 8 with hu | hu
  · rw [Nat.sub_eq_zero_of_le hu, List.take_zero, List.nil_append, List.drop_zero, Nat.zero_min,
      Nat.add_zero, Nat.min_eq_left hu, List.drop_append_of_le_length (by omega), List.nil_append]
  · have hdrop : min u 8 + min (u - 8) 8 = f.itemCapacity.length + min (u - 8) 8 := by omega
    rw [hdrop, List.drop_length_add_append, List.drop_append_of_le_length (by omega),
      List.drop_eq_nil_of_le (show f.itemCapacity.length ≤ u by omega), List.nil_append]
    congr 3
    rcases Nat.le_total (u - 8) 8 with hu' | hu'
    · rw [Nat.min_eq_left hu']
    · rw [Nat.min_eq_right hu', List.drop_eq_nil_of_le (by omega), List.drop_eq_nil_of_le (by omega)]

end Overwritten

/-! ## What is loaded -/

/-- The wallet that is read from a file: it holds as many of its records as the counters say, and the
file is cut off behind them. -/
structure Opened (f : WalletFile crypto key) (w : Wallet) : Prop where
  walletKey : w.walletKey = key
  journal : w.file.journal = []
  content : w.file.content = (f.cut f.count).bytes
  firstRecord : w.firstRecord = (f.records.take f.count).head?.getD {}
  size : (f.records.map (·.spendPublicKey)).Nodup → w.walletRecords.size = f.count
  get : ∀ pk : PublicKey, w.walletRecords[pk]? =
    (f.records.take f.count).find? fun r ↦ r.spendPublicKey = pk

theorem openFile_bytes {env : WalletEnv} (path : String) {password : Bytes}
    (f : WalletFile env.toWalletCrypto (env.generateChacha8Key password)) (hpos : f.count ≠ 0)
    (hcount : f.count ≤ f.encrypted.length) (junk : Bytes) :
    ∃ w, Wallet.openFile env path password (f.bytes ++ junk) = .ok w ∧ f.Opened w := by
  obtain ⟨p, hp⟩ := f.load_bytes (w := Wallet.blank env.toWalletCrypto path password) junk rfl hpos
    hcount
  refine ⟨_, hp, rfl, rfl, rfl, rfl, fun hnodup ↦ ?_, fun pk ↦ ?_⟩
  · have hsub := (List.take_sublist f.count f.records).map (·.spendPublicKey)
    rw [Wallet.size_hold rfl (hnodup.sublist hsub), List.length_take, length_records,
      Nat.min_eq_left hcount]
  · rw [Wallet.get_hold]
    change (∅ : Table PublicKey WalletRecord)[pk]?.or _ = _
    rw [ExtTreeMap.getElem?_empty, Option.none_or]

theorem openFile_of_count_eq_zero {env : WalletEnv} {path : String} {password : Bytes}
    (f : WalletFile env.toWalletCrypto (env.generateChacha8Key password)) (hzero : f.count = 0)
    (junk : Bytes) : Wallet.openFile env path password (f.bytes ++ junk) =
      .error (.exception Api.walletFileDecryptError "Error reading wallet file") :=
  f.load_bytes_of_count_eq_zero junk rfl rfl hzero

theorem Complete.take_records {f : WalletFile crypto key} (h : f.Complete) :
    f.records.take f.count = f.records := by
  rw [h.count, ← f.length_records, List.take_length]

theorem Complete.content_eq {f : WalletFile crypto key} (h : f.Complete) {w : Wallet}
    (hw : f.Opened w) : w.file.content = f.bytes := by
  rw [hw.content, h.count, f.bytes_cut_append f.encrypted.length, List.drop_length,
    List.flatMap_nil, List.append_nil]

/-- The first record says whether the records of a file have secret keys. -/
theorem Complete.isViewOnly {f : WalletFile crypto key} (h : f.Complete) (hpos : f.count ≠ 0)
    {w : Wallet} (hw : f.Opened w) : w.isViewOnly = f.viewOnly := by
  obtain ⟨e, rest, hencrypted⟩ : ∃ e rest, f.encrypted = e :: rest := by
    refine List.exists_cons_of_ne_nil fun hnil ↦ hpos ?_
    rw [h.count, hnil, List.length_nil]
  have hfirst : w.firstRecord = decryptKeyPair crypto e key := by
    rw [hw.firstRecord, h.take_records, records, hencrypted]
    rfl
  have hmode := (f.valid e (by rw [hencrypted]; exact List.mem_cons_self)).mode
  rw [Wallet.isViewOnly, hfirst, Bool.eq_iff_iff, decide_eq_true_iff]
  exact hmode

end WalletFile

/-! ## Which files survive -/

/-- A file can be opened after a stop: all records that `w` has loaded are loaded again, what else is
loaded is one of the new records, and the bytes of the old records are still in place. -/
def Survives (env : WalletEnv) (path : String) (password : Bytes) (w : Wallet) (g : Generating)
    (content : Bytes) : Prop :=
  ∃ w', Wallet.openFile env path password content = .ok w' ∧
    (∀ (pk : PublicKey) r, w.walletRecords[pk]? = some r → w'.walletRecords[pk]? = some r) ∧
    (∀ pk : PublicKey, g.wallet.walletRecords[pk]? = none → w'.walletRecords[pk]? = none) ∧
    w.file.content.drop (walletFileSize 0) <+: w'.file.content.drop (walletFileSize 0)

section Torn

variable {env : WalletEnv} {path : String} {password : Bytes}
variable {f : WalletFile env.toWalletCrypto (env.generateChacha8Key password)}
variable {w : Wallet} {g : Generating} {more : List EncryptedWalletRecord}

private theorem tornFile_records {n size : ℕ} (hcontent : w.file.content = f.bytes)
    (hn : n = f.encrypted.length)
    (hjournal : g.wallet.file.journal = w.file.journal ++ appendJournal n more size) {t : ℕ}
    (ht : t ≤ (more.flatMap (·.toBytes)).length) :
    tornFile w g t = f.bytes ++ (more.flatMap (·.toBytes)).take t := by
  have hlen : walletFileSize n = f.bytes.length := by rw [f.length_bytes, hn]
  have happend := replay_writesAt f.bytes [] ((more.flatMap (·.toBytes)).take t)
  rw [tornFile, hjournal, List.drop_left, appendJournal,
    List.take_append_of_le_length (by rwa [length_writesAt]), take_writesAt, hcontent, hlen]
  simpa using happend

/-- A stop while the counters are written leaves all records and counters that are partly
overwritten. -/
private theorem tornFile_counters {n size : ℕ} (hcontent : w.file.content = f.bytes)
    (hn : n = f.encrypted.length)
    (hjournal : g.wallet.file.journal = w.file.journal ++ appendJournal n more size)
    (hmode : f.viewOnly = false) (hlength : ∀ e ∈ more, e.data.length = 72)
    (hvalid : ∀ e ∈ more, (decryptKeyPair env.toWalletCrypto e
      (env.generateChacha8Key password)).Valid env.toWalletCrypto false) (u : ℕ) :
    tornFile w g ((more.flatMap (·.toBytes)).length + u) =
      (f.overwritten hmode more hlength hvalid size u).bytes := by
  have hlen : walletFileSize n = f.bytes.length := by rw [f.length_bytes, hn]
  have happend := replay_writesAt f.bytes [] (more.flatMap (·.toBytes))
  rw [List.append_nil, List.drop_nil, List.append_nil] at happend
  have hall (counters : List (ℕ × UInt8)) :
      (writesAt (walletFileSize n) (more.flatMap (·.toBytes)) ++ counters).take
        ((more.flatMap (·.toBytes)).length + u) =
      writesAt (walletFileSize n) (more.flatMap (·.toBytes)) ++ counters.take u := by
    rw [← length_writesAt (walletFileSize n) (more.flatMap (·.toBytes))]
    exact List.take_length_add_append u
  rw [tornFile, hjournal, List.drop_left, appendJournal, hall, replay_append, hcontent, hlen,
    happend, take_writesAt]
  exact WalletFile.bytes_overwritten size u

/-- A file with the old records in front is opened with all of them when its counters reach that
far. -/
private theorem survives_of_le {f' : WalletFile env.toWalletCrypto (env.generateChacha8Key password)}
    (hf : f.Complete) (hw : f.Opened w) (hpos : f.count ≠ 0)
    (hencrypted : f'.encrypted = f.encrypted ++ more)
    (hold : ∀ pk : PublicKey, g.wallet.walletRecords[pk]? = none → w.walletRecords[pk]? = none ∧
      ∀ e ∈ more, (decryptKeyPair env.toWalletCrypto e
        (env.generateChacha8Key password)).spendPublicKey ≠ pk)
    (hle : f.count ≤ f'.count) (hcount : f'.count ≤ f'.encrypted.length) (junk : Bytes) :
    Survives env path password w g (f'.bytes ++ junk) := by
  obtain ⟨w', hopen, hw'⟩ := f'.openFile_bytes path (by omega) hcount junk
  have hrecords : f'.records = f.records ++
      more.map fun e ↦ decryptKeyPair env.toWalletCrypto e (env.generateChacha8Key password) := by
    rw [WalletImage.records, hencrypted, List.map_append]
    rfl
  have hlen : f.records.length = f.count := by rw [f.length_records, hf.count]
  have htake : ∃ loaded, f'.records.take f'.count = f.records ++ loaded ∧
      ∀ r ∈ loaded, ∃ e ∈ more, decryptKeyPair env.toWalletCrypto e
        (env.generateChacha8Key password) = r := by
    refine ⟨_, by rw [hrecords, List.take_append, List.take_of_length_le (by omega)], ?_⟩
    intro r hr
    exact List.mem_map.mp (List.mem_of_mem_take hr)
  obtain ⟨loaded, htake, hloaded⟩ := htake
  refine ⟨w', hopen, fun pk r hr ↦ ?_, fun pk hnone ↦ ?_, ?_⟩
  · rw [hw.get, hf.take_records] at hr
    rw [hw'.get, htake, List.find?_append, hr, Option.some_or]
  · obtain ⟨hwnone, hmore⟩ := hold pk hnone
    rw [hw.get, hf.take_records] at hwnone
    rw [hw'.get, htake, List.find?_append, hwnone, Option.none_or, List.find?_eq_none]
    intro r hr hpk
    obtain ⟨e, he, rfl⟩ := hloaded r hr
    exact hmore e he (of_decide_eq_true hpk)
  · rw [hf.content_eq hw, hw'.content, drop_bytes, drop_bytes,
      WalletImage.encrypted_cut, hencrypted, List.take_append,
      List.take_of_length_le (by rw [← hf.count]; exact hle), List.flatMap_append]
    exact List.prefix_append _ _

private theorem Survives.le_count {f' : WalletFile env.toWalletCrypto (env.generateChacha8Key password)}
    (hf : f.Complete) (hw : f.Opened w) (hencrypted : f'.encrypted = f.encrypted ++ more)
    (h : Survives env path password w g f'.bytes) : f.count ≤ f'.count := by
  by_contra hlt
  rw [Nat.not_le] at hlt
  obtain ⟨w', hopen, hall, -⟩ := h
  rw [← List.append_nil f'.bytes] at hopen
  have hlen : f.records.length = f.count := by rw [f.length_records, hf.count]
  have hcount : f'.count ≤ f'.encrypted.length := by
    rw [hencrypted, List.length_append, ← hf.count]
    omega
  have hpos : f'.count ≠ 0 := fun hzero ↦ by
    rw [f'.openFile_of_count_eq_zero hzero] at hopen
    cases hopen
  obtain ⟨w'', hopen', hw'⟩ := f'.openFile_bytes path hpos hcount []
  obtain rfl := Except.ok.inj (hopen.symm.trans hopen')
  have htake : f'.records.take f'.count = f.records.take f'.count := by
    rw [WalletImage.records, hencrypted, List.map_append, List.take_append_of_le_length]
    · rfl
    · rw [List.length_map, ← hf.count]
      omega
  -- the first old record that is not counted any more
  have hr : f'.count < f.records.length := by omega
  set r := f.records[f'.count] with hrdef
  have hmem : r ∈ f.records := List.getElem_mem hr
  obtain ⟨r₀, hr₀⟩ : ∃ r₀, w.walletRecords[r.spendPublicKey]? = some r₀ := by
    rw [hw.get, hf.take_records]
    exact Option.isSome_iff_exists.mp (List.find?_isSome.mpr ⟨r, hmem, by simp⟩)
  have hfound := hall _ _ hr₀
  rw [hw'.get, htake] at hfound
  have hin := List.mem_of_find?_eq_some hfound
  have hpk := List.find?_some hfound
  rw [decide_eq_true_eq] at hpk
  have hdrop : r ∈ f.records.drop f'.count := by
    rw [List.drop_eq_getElem_cons hr]
    exact List.mem_cons_self
  have hnodup := hf.nodup
  rw [← List.take_append_drop f'.count f.records, List.map_append, List.nodup_append] at hnodup
  exact hnodup.2.2 _ (List.mem_map_of_mem hin) _ (List.mem_map_of_mem hdrop) hpk

end Torn

/-! ## Files with few keys -/

/-- Cryptography in which every secret key is its own public key and nothing is encrypted. -/
def sampleWalletEnv : WalletEnv where
  keystream _ _ _ := 0
  generateChacha8Key _ := 0
  secretKeyToPublicKey sk := some sk
  keyIsvalid _ := true
  loadLegacyWalletFile _ := .error (.streamError "")

/-- The record of the `i`-th key. -/
def sampleRecord (i : ℕ) : WalletRecord := ⟨BitVec.ofNat 256 (i + 1), BitVec.ofNat 256 (i + 1), 0⟩

private theorem sampleRecord_ne {i j : ℕ} (hi : i < 2 ^ 64) (hj : j < 2 ^ 64) (h : i ≠ j) :
    (sampleRecord i).spendPublicKey ≠ (sampleRecord j).spendPublicKey := by
  intro heq
  have hnat := congrArg BitVec.toNat heq
  simp only [sampleRecord, BitVec.toNat_ofNat] at hnat
  omega

private theorem keysMatch_iff {crypto : WalletCrypto} {sk : SecretKey} {pk : PublicKey} :
    crypto.keysMatch sk pk = true ↔ crypto.secretKeyToPublicKey sk = some pk := decide_eq_true_iff

theorem keysMatch_sampleRecord (i : ℕ) : sampleWalletEnv.keysMatch (sampleRecord i).spendSecretKey
    (sampleRecord i).spendPublicKey = true := decide_eq_true rfl

private theorem valid_sampleRecord {i : ℕ} (hi : i < 2 ^ 64) :
    (sampleRecord i).Valid sampleWalletEnv.toWalletCrypto false := by
  have hne : (sampleRecord i).spendSecretKey ≠ 0 := by
    intro heq
    have hnat := congrArg BitVec.toNat heq
    rw [sampleRecord, BitVec.toNat_ofNat, Nat.mod_eq_of_lt (by omega)] at hnat
    exact absurd hnat (Nat.succ_ne_zero i)
  exact ⟨⟨fun h ↦ absurd h hne, fun h ↦ absurd h Bool.false_ne_true⟩,
    fun _ ↦ keysMatch_sampleRecord i, fun h ↦ absurd h hne⟩

/-- A file with the first `n` keys. -/
def sampleWalletFile (n : ℕ) (hn : n < 2 ^ 64) :
    WalletFile sampleWalletEnv.toWalletCrypto (sampleWalletEnv.generateChacha8Key []) :=
  .ofRecords _ 0 (sampleRecord 0) (keysMatch_sampleRecord 0) n
    ((List.range n).map fun i ↦ (sampleRecord i, 0)) false <| by
      intro r hr
      obtain ⟨i, hi, rfl⟩ := List.mem_map.mp hr
      exact valid_sampleRecord (by have := List.mem_range.mp hi; omega)

theorem records_sampleWalletFile {n : ℕ} (hn : n < 2 ^ 64) :
    (sampleWalletFile n hn).records = (List.range n).map sampleRecord := by
  rw [sampleWalletFile, WalletFile.ofRecords_toWalletImage, records_ofRecords, List.map_map]
  rfl

theorem complete_sampleWalletFile {n : ℕ} (hn : n < 2 ^ 64) : (sampleWalletFile n hn).Complete where
  count := by
    rw [sampleWalletFile, WalletFile.ofRecords_toWalletImage, count_ofRecords hn, ofRecords,
      List.length_map, List.length_map, List.length_range]
  nodup := by
    rw [records_sampleWalletFile, List.map_map]
    refine List.nodup_range.map_on fun i hi j hj heq ↦ ?_
    rw [List.mem_range] at hi hj
    by_contra hne
    exact sampleRecord_ne (by omega) (by omega) hne heq

private theorem exists_append_sample {n : ℕ} (hpos : n ≠ 0) (hn : n + 1 < 2 ^ 64) :
    ∃ w g, Wallet.openFile sampleWalletEnv "" [] ((sampleWalletFile n (by omega)).bytes ++ []) =
        .ok w ∧ (sampleWalletFile n (by omega)).Opened w ∧
      w.appendNewAddresses [(⟨(sampleRecord n).spendSecretKey, [], 0⟩ :
        AddressRequest sampleWalletEnv.toWalletCrypto)] 0 0 = (g, none) ∧
      g.wallet.walletRecords.size = n + 1 := by
  have hlt : n < 2 ^ 64 := by omega
  have hcomplete := complete_sampleWalletFile hlt
  have hcount : (sampleWalletFile n hlt).count = n := by
    rw [hcomplete.count, ← length_records, records_sampleWalletFile, List.length_map,
      List.length_range]
  obtain ⟨w, hopen, hw⟩ := (sampleWalletFile n hlt).openFile_bytes "" (by omega)
    hcomplete.count.le []
  have hvalid := valid_sampleRecord (i := n) hlt
  have hne : (sampleRecord n).spendSecretKey ≠ 0 := fun h ↦
    absurd (hvalid.mode.mp h) Bool.false_ne_true
  have hnew : w.walletRecords[(sampleRecord n).spendPublicKey]? = none := by
    rw [hw.get, hcomplete.take_records, records_sampleWalletFile, List.find?_eq_none]
    intro r hr heq
    obtain ⟨i, hi, rfl⟩ := List.mem_map.mp hr
    rw [List.mem_range] at hi
    exact sampleRecord_ne (by omega) hlt (by omega) (of_decide_eq_true heq)
  have hview : w.isViewOnly = false := hcomplete.isViewOnly (by omega) hw
  obtain ⟨g, hg, hsize⟩ := appendNewAddresses_import 0 0 0 hview hne
    (keysMatch_iff.mp (keysMatch_sampleRecord n)) hnew
  rw [hw.size hcomplete.nodup, hcount] at hsize
  exact ⟨w, g, hopen, hw, hg, hsize⟩

section Runs

variable {env : WalletEnv} {path : String} {password : Bytes}
variable {f : WalletFile env.toWalletCrypto (env.generateChacha8Key password)} {junk : Bytes}
variable {w : Wallet} {requests : List (AddressRequest env.toWalletCrypto)} {ct now : Timestamp}
variable {g : Generating} {k : ℕ}

/-- What a stop can leave on disk: the old file with a part of the `k` new records, or all records
and the first `u` bytes of the new counters. -/
private theorem exists_tornFile (hf : f.Complete)
    (hw : Wallet.openFile env path password (f.bytes ++ junk) = .ok w)
    (hg : w.appendNewAddresses requests ct now = (g, none))
    (hk : g.wallet.walletRecords.size = f.records.length + k) :
    f.count ≠ 0 ∧ f.Opened w ∧ ∃ more hmode hlength hvalid, more.length = k ∧
      (∀ pk : PublicKey, g.wallet.walletRecords[pk]? = none → w.walletRecords[pk]? = none ∧
        ∀ e ∈ more, (decryptKeyPair env.toWalletCrypto e
          (env.generateChacha8Key password)).spendPublicKey ≠ pk) ∧
      (∀ t ≤ (more.flatMap (·.toBytes)).length,
        tornFile w g t = f.bytes ++ (more.flatMap (·.toBytes)).take t) ∧
      ∀ u, tornFile w g ((more.flatMap (·.toBytes)).length + u) =
        (f.overwritten hmode more hlength hvalid (f.records.length + k) u).bytes := by
  have hpos : f.count ≠ 0 := fun hzero ↦ by
    rw [f.openFile_of_count_eq_zero hzero] at hw
    cases hw
  obtain ⟨w', hw', hopened⟩ := f.openFile_bytes path hpos hf.count.le junk
  obtain rfl := Except.ok.inj (hw.symm.trans hw')
  obtain ⟨more, hjournal, hsize, hkeys, hlength, hvalid, hview⟩ := appendNewAddresses_journal hg
  rw [hopened.walletKey] at hkeys hvalid
  have hcontent := hf.content_eq hopened
  have hn : w.walletRecords.size = f.encrypted.length := by rw [hopened.size hf.nodup, hf.count]
  have hmode : f.viewOnly = false := (hf.isViewOnly hpos hopened).symm.trans hview
  have hcounters := tornFile_counters hcontent hn hjournal hmode hlength hvalid
  rw [hk] at hcounters
  refine ⟨hpos, hopened, more, hmode, hlength, hvalid, ?_, fun pk ↦ (hkeys pk).mp,
    fun t ht ↦ tornFile_records hcontent hn hjournal ht, hcounters⟩
  rw [hk, hn, f.length_records] at hsize
  omega

/-- **Torn writes.** A wallet is opened from a file that holds `n` records, and `k` new records are
appended. The file can be opened with all old records, whenever the process stops in between, exactly
when neither counter falls below `n` while its bytes are overwritten one by one. -/
theorem survives_iff (hf : f.Complete)
    (hw : Wallet.openFile env path password (f.bytes ++ junk) = .ok w)
    (hg : w.appendNewAddresses requests ct now = (g, none))
    (hk : g.wallet.walletRecords.size = f.records.length + k) :
    (∀ t, Survives env path password w g (tornFile w g t)) ↔
      ∀ j ≤ 8, f.records.length ≤ splice j (f.records.length + k) (leNat f.itemCapacity) ∧
        f.records.length ≤ splice j (f.records.length + k) (leNat f.itemCount) := by
  obtain ⟨hpos, hopened, more, hmode, hlength, hvalid, hmore, hold, hrecords, hcounters⟩ :=
    exists_tornFile hf hw hg hk
  have hlen : f.records.length = f.count := by rw [f.length_records, hf.count]
  constructor
  · intro h j hj
    have hcap := Survives.le_count hf hopened rfl (hcounters j ▸ h _)
    have hcnt := Survives.le_count hf hopened rfl (hcounters (8 + j) ▸ h _)
    rw [WalletFile.count_overwritten, Nat.min_eq_left hj, ← hlen] at hcap
    rw [WalletFile.count_overwritten, Nat.add_sub_cancel_left, Nat.min_eq_left hj, ← hlen] at hcnt
    exact ⟨hcap.trans (Nat.min_le_right _ _), hcnt.trans (Nat.min_le_left _ _)⟩
  · intro h t
    rcases Nat.le_total t (more.flatMap (·.toBytes)).length with ht | ht
    · rw [hrecords t ht]
      exact survives_of_le hf hopened hpos (List.append_nil _).symm
        (fun pk hnone ↦ ⟨(hold pk hnone).1, by simp⟩) le_rfl hf.count.le _
    · obtain ⟨u, rfl⟩ := Nat.exists_eq_add_of_le ht
      rw [hcounters u, ← List.append_nil (WalletImage.bytes _)]
      refine survives_of_le hf hopened hpos rfl hold ?_ ?_ []
      · rw [WalletFile.count_overwritten, ← hlen]
        exact Nat.le_min.mpr ⟨(h _ (Nat.min_le_right _ _)).2, (h _ (Nat.min_le_right _ _)).1⟩
      · -- one of the counters was the number of old records, so it does not overshoot the new one
        have hlast : (f.overwritten hmode more hlength hvalid (f.records.length + k)
            u).encrypted.length = f.records.length + k := by
          rw [WalletFile.overwritten, List.length_append, hmore, f.length_records]
        rw [WalletFile.count_overwritten, hlast]
        have hmin : min (leNat f.itemCount) (leNat f.itemCapacity) = f.records.length := hlen.symm
        rcases Nat.le_total (leNat f.itemCount) (leNat f.itemCapacity) with hle | hle
        · exact (Nat.min_le_left _ _).trans (splice_le (by omega))
        · exact (Nat.min_le_right _ _).trans (splice_le (by omega))

end Runs

private theorem length_records_sampleWalletFile {n : ℕ} (hn : n < 2 ^ 64) :
    (sampleWalletFile n hn).records.length = n := by
  rw [records_sampleWalletFile, List.length_map, List.length_range]

/-- From one key to two no counter falls. -/
theorem survives_sample : ∃ w g,
    Wallet.openFile sampleWalletEnv "" [] ((sampleWalletFile 1 (by omega)).bytes ++ []) = .ok w ∧
      w.appendNewAddresses [(⟨(sampleRecord 1).spendSecretKey, [], 0⟩ :
        AddressRequest sampleWalletEnv.toWalletCrypto)] 0 0 = (g, none) ∧
      ∀ t, Survives sampleWalletEnv "" [] w g (tornFile w g t) := by
  obtain ⟨w, g, hopen, -, hg, hsize⟩ := exists_append_sample (n := 1) (by omega) (by omega)
  have hlen := length_records_sampleWalletFile (n := 1) (by omega)
  refine ⟨w, g, hopen, hg, ?_⟩
  rw [survives_iff (k := 1) (complete_sampleWalletFile _) hopen hg (by rw [hsize, hlen]), hlen]
  have hcounter : leNat (leBytes 8 1) = 1 := leNat_leBytes (by omega)
  change ∀ j ≤ 8, 1 ≤ splice j (1 + 1) (leNat (leBytes 8 1)) ∧
    1 ≤ splice j (1 + 1) (leNat (leBytes 8 1))
  rw [hcounter]
  decide

/-- From 255 keys to 256 the first byte that is written to a counter makes it zero. A process that
stops there, 81 bytes after it began, leaves a file that cannot be opened. -/
theorem torn_file_refused : ∃ w g,
    Wallet.openFile sampleWalletEnv "" [] ((sampleWalletFile 255 (by omega)).bytes ++ []) = .ok w ∧
      w.appendNewAddresses [(⟨(sampleRecord 255).spendSecretKey, [], 0⟩ :
        AddressRequest sampleWalletEnv.toWalletCrypto)] 0 0 = (g, none) ∧
      ¬Survives sampleWalletEnv "" [] w g (tornFile w g 81) ∧
      Wallet.openFile sampleWalletEnv "" [] (tornFile w g 81) =
        .error (.exception Api.walletFileDecryptError "Error reading wallet file") := by
  obtain ⟨w, g, hopen, -, hg, hsize⟩ := exists_append_sample (n := 255) (by omega) (by omega)
  have hcomplete := complete_sampleWalletFile (n := 255) (by omega)
  have hlen := length_records_sampleWalletFile (n := 255) (by omega)
  obtain ⟨-, -, more, hmode, hlength, hvalid, hmore, -, -, hcounters⟩ :=
    exists_tornFile (k := 1) hcomplete hopen hg (by rw [hsize, hlen])
  have htorn := hcounters 1
  rw [WalletImage.length_flatMap_toBytes hlength, hmore] at htorn
  have hzero : ((sampleWalletFile 255 (by omega)).overwritten hmode more hlength hvalid
      ((sampleWalletFile 255 (by omega)).records.length + 1) 1).count = 0 := by
    have hcounter : leNat (leBytes 8 255) = 255 := leNat_leBytes (by omega)
    rw [WalletFile.count_overwritten, hlen]
    change min (splice 0 256 (leNat (leBytes 8 255))) (splice 1 256 (leNat (leBytes 8 255))) = 0
    rw [hcounter]
    decide
  have herror : Wallet.openFile sampleWalletEnv "" [] (tornFile w g 81) =
      .error (.exception Api.walletFileDecryptError "Error reading wallet file") := by
    rw [show 81 = encryptedWalletRecordSize * 1 + 1 from rfl, htorn,
      ← List.append_nil (WalletImage.bytes _)]
    exact WalletFile.openFile_of_count_eq_zero _ hzero []
  refine ⟨w, g, hopen, hg, ?_, herror⟩
  rintro ⟨w', hw', -⟩
  rw [herror] at hw'
  cases hw'

end CryoNero
