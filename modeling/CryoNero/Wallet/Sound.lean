import CryoNero.Wallet.Torn

/-!
# Sound wallets

A wallet is sound when its records are filed under their own keys and fit them, the first record is
one of them, and the oldest timestamp is the least of their timestamps. A sound wallet that is saved
and loaded again is the same (`openFile_save`), so `saveAndCheck` succeeds on it. Loading computes
the oldest timestamp from the records, which is why it has to be the least of them before as well.
-/

namespace CryoNero

open Store Seria Std WalletImage

/-- The timestamps of the records in a table. -/
def timestamps (t : Table PublicKey WalletRecord) : Set Timestamp :=
  {a | ∃ (pk : PublicKey) (r : WalletRecord), t[pk]? = some r ∧ r.creationTimestamp = a}

theorem min_eq_left_of_le {a b : Timestamp} (h : a ≤ b) : min a b = a := if_pos h

theorem min_eq_right_of_le {a b : Timestamp} (h : b ≤ a) : min a b = b :=
  Std.le_antisymm Std.min_le_right (Std.le_min_iff.mpr ⟨h, Std.le_refl b⟩)

/-- The oldest timestamp after a record was put in, new or in place of one that is not older. -/
theorem isLeast_insert {t : Table PublicKey WalletRecord} {a : Timestamp} {pk : PublicKey}
    {r : WalletRecord} (h : IsLeast (timestamps t) a)
    (hold : ∀ old, t[pk]? = some old → r.creationTimestamp ≤ old.creationTimestamp) :
    IsLeast (timestamps (t.insert pk r)) (min a r.creationTimestamp) := by
  obtain ⟨⟨pk₀, r₀, hr₀, rfl⟩, hlower⟩ := h
  constructor
  · rcases Std.le_total (a := r.creationTimestamp) (b := r₀.creationTimestamp) with hle | hle
    · exact ⟨pk, r, Table.get_insert_self t pk r, (min_eq_right_of_le hle).symm⟩
    · by_cases hpk : pk = pk₀
      · subst hpk
        exact ⟨pk, r, Table.get_insert_self t pk r, (min_eq_right_of_le (hold r₀ hr₀)).symm⟩
      · exact ⟨pk₀, r₀, by rw [Table.get_insert_of_ne t r hpk, hr₀], (min_eq_left_of_le hle).symm⟩
  · rintro _ ⟨pk', r', hr', rfl⟩
    rw [Table.get_insert] at hr'
    split_ifs at hr' with hpk
    · cases hr'
      exact Std.min_le_right
    · exact Std.le_trans Std.min_le_left (hlower ⟨pk', r', hr', rfl⟩)

/-- The oldest timestamp of a list of records that are in a table, among them a record with the
least timestamp of the table. -/
private theorem foldl_min_of_isLeast {l : List WalletRecord} {a b : Timestamp}
    (hlower : ∀ r ∈ l, a ≤ r.creationTimestamp) (hb : a ≤ b)
    (hleast : a = b ∨ ∃ r ∈ l, r.creationTimestamp = a) :
    l.foldl (fun t r ↦ min t r.creationTimestamp) b = a := by
  induction l generalizing b with
  | nil =>
    rcases hleast with rfl | ⟨r, hr, -⟩
    · rfl
    · cases hr
  | cons r l ih =>
    rw [List.foldl_cons]
    have hr := hlower r List.mem_cons_self
    refine ih (fun r' hr' ↦ hlower r' (List.mem_cons_of_mem _ hr')) (Std.le_min_iff.mpr ⟨hb, hr⟩) ?_
    rcases hleast with rfl | ⟨r', hr', hr'a⟩
    · exact .inl (min_eq_left_of_le hr).symm
    · rcases List.mem_cons.mp hr' with rfl | hr'
      · exact .inl (by rw [hr'a, min_eq_right_of_le hb])
      · exact .inr ⟨r', hr', hr'a⟩

namespace Wallet

/-- What holds of the records of a wallet whether or not its oldest timestamp is right. -/
structure Regular (crypto : WalletCrypto) (w : Wallet) : Prop where
  walletKey : w.walletKey = crypto.generateChacha8Key w.password
  viewKeysMatch : crypto.keysMatch w.viewSecretKey w.viewPublicKey = true
  filed : ∀ (pk : PublicKey) r, w.walletRecords[pk]? = some r → r.spendPublicKey = pk
  valid : ∀ (pk : PublicKey) r, w.walletRecords[pk]? = some r → r.Valid crypto w.isViewOnly
  first : w.walletRecords[w.firstRecord.spendPublicKey]? = some w.firstRecord

/-- What holds of a wallet between two calls. -/
structure Sound (crypto : WalletCrypto) (w : Wallet) : Prop extends Regular crypto w where
  oldest : IsLeast (timestamps w.walletRecords) w.oldestTimestamp

variable {crypto : WalletCrypto} {w : Wallet}

theorem Regular.sound (h : w.Regular crypto) :
    ∃ t, Sound crypto { w with oldestTimestamp := t } := by
  have hne : (timestamps w.walletRecords).Nonempty := ⟨_, _, _, h.first, rfl⟩
  obtain ⟨t, ht, hleast⟩ := (measure UInt32.toNat).wf.has_min (timestamps w.walletRecords) hne
  refine ⟨t, ⟨h.walletKey, h.viewKeysMatch, h.filed, h.valid, h.first⟩, ht, fun t' ht' ↦ ?_⟩
  exact UInt32.le_iff_toNat_le.mpr (Nat.not_lt.mp (hleast t' ht'))

/-- Raising the timestamps of all records keeps a wallet regular. -/
theorem Regular.raise (h : w.Regular crypto) {raise : WalletRecord → WalletRecord}
    (hpk : ∀ r, (raise r).spendPublicKey = r.spendPublicKey)
    (hsk : ∀ r, (raise r).spendSecretKey = r.spendSecretKey) (t : Timestamp) :
    Regular crypto { w with
      oldestTimestamp := t
      firstRecord := raise w.firstRecord
      walletRecords := w.walletRecords.map fun _ r ↦ raise r } := by
  have hview : decide ((raise w.firstRecord).spendSecretKey = 0) = w.isViewOnly := by
    rw [hsk, isViewOnly]
  refine ⟨h.walletKey, h.viewKeysMatch, fun pk r hr ↦ ?_, fun pk r hr ↦ ?_, ?_⟩
  · rw [ExtTreeMap.getElem?_map, Option.map_eq_some_iff] at hr
    obtain ⟨r, hr, rfl⟩ := hr
    rw [hpk]
    exact h.filed pk r hr
  · rw [ExtTreeMap.getElem?_map, Option.map_eq_some_iff] at hr
    obtain ⟨r, hr, rfl⟩ := hr
    have hv := h.valid pk r hr
    rw [isViewOnly, hview]
    exact ⟨by rw [hsk]; exact hv.mode, by rw [hsk, hpk]; exact hv.keysMatch,
      by rw [hsk, hpk]; exact hv.keyIsvalid⟩
  · change (w.walletRecords.map _)[(raise w.firstRecord).spendPublicKey]? = _
    rw [hpk, ExtTreeMap.getElem?_map, h.first, Option.map_some]

theorem mem_recordsToSave (h : w.Sound crypto) {r : WalletRecord} :
    r ∈ w.recordsToSave ↔ w.walletRecords[r.spendPublicKey]? = some r := by
  rw [recordsToSave, List.mem_cons, List.mem_filter, List.mem_map]
  constructor
  · rintro (rfl | ⟨⟨⟨pk, r'⟩, hmem, rfl⟩, -⟩)
    · exact h.first
    · have hget := Table.mem_toList.mp hmem
      rw [h.filed pk r' hget]
      exact hget
  · intro hget
    by_cases hfirst : r.spendPublicKey = w.firstRecord.spendPublicKey
    · rw [hfirst, h.first] at hget
      exact .inl (Option.some.inj hget).symm
    · exact .inr ⟨⟨_, Table.mem_toList.mpr hget, rfl⟩, decide_eq_true hfirst⟩

/-- Every record is saved once. -/
theorem nodup_recordsToSave (h : w.Sound crypto) :
    (w.recordsToSave.map (·.spendPublicKey)).Nodup := by
  rw [recordsToSave, List.map_cons, List.nodup_cons]
  constructor
  · intro hmem
    obtain ⟨r, hr, hpk⟩ := List.mem_map.mp hmem
    exact absurd hpk (of_decide_eq_true (List.mem_filter.mp hr).2)
  · refine List.Nodup.sublist (List.Sublist.map _ List.filter_sublist) ?_
    have hkeys : (w.walletRecords.toList.map Prod.snd).map (·.spendPublicKey) =
        w.walletRecords.toList.map Prod.fst := by
      rw [List.map_map]
      exact List.map_congr_left fun ⟨pk, r⟩ hr ↦ h.filed pk r (Table.mem_toList.mp hr)
    rw [hkeys]
    exact Table.nodup_keys_toList _

/-- A key is found among the saved records exactly as in the table. -/
theorem find?_recordsToSave (h : w.Sound crypto) (pk : PublicKey) :
    (w.recordsToSave.find? fun r ↦ r.spendPublicKey = pk) = w.walletRecords[pk]? := by
  cases hget : w.walletRecords[pk]? with
  | none =>
    rw [List.find?_eq_none]
    intro r hr hpk
    have hsaved := (mem_recordsToSave h).mp hr
    rw [of_decide_eq_true hpk, hget] at hsaved
    cases hsaved
  | some r =>
    have hpk := h.filed pk r hget
    have hmem : r ∈ w.recordsToSave := (mem_recordsToSave h).mpr (by rw [hpk, hget])
    obtain ⟨r', hr'⟩ : ∃ r', (w.recordsToSave.find? fun r ↦ r.spendPublicKey = pk) = some r' :=
      Option.isSome_iff_exists.mp (List.find?_isSome.mpr ⟨r, hmem, by simp [hpk]⟩)
    have hsaved := (mem_recordsToSave h).mp (List.mem_of_find?_eq_some hr')
    have hpk' := List.find?_some hr'
    rw [decide_eq_true_eq] at hpk'
    rw [hpk', hget] at hsaved
    rw [hr', ← hsaved]

private theorem hold_recordsToSave (h : w.Sound crypto) {w' : Wallet}
    (hw' : w'.walletRecords = ∅ ∨ w'.walletRecords = w.walletRecords) :
    (w'.hold w.recordsToSave).walletRecords = w.walletRecords := by
  refine Table.ext_get fun pk ↦ ?_
  rw [get_hold, find?_recordsToSave h]
  rcases hw' with hw' | hw'
  · rw [hw', ExtTreeMap.getElem?_empty, Option.none_or]
  · rw [hw', Option.or_self]

theorem length_recordsToSave (h : w.Sound crypto) :
    w.recordsToSave.length = w.walletRecords.size := by
  have hsize := size_hold (w := blank crypto "" []) rfl (nodup_recordsToSave h)
  rwa [hold_recordsToSave h (.inl rfl), eq_comm] at hsize

private theorem oldest_hold_recordsToSave (h : w.Sound crypto) {w' : Wallet}
    (hw' : w.oldestTimestamp ≤ w'.oldestTimestamp) :
    (w'.hold w.recordsToSave).oldestTimestamp = w.oldestTimestamp := by
  obtain ⟨⟨pk, r, hr, hoverall⟩, hlower⟩ := h.oldest
  refine foldl_min_of_isLeast (fun r hr ↦ ?_) hw' (.inr ⟨r, ?_, hoverall⟩)
  · exact hlower ⟨_, r, (mem_recordsToSave h).mp hr, rfl⟩
  · rw [mem_recordsToSave h, h.filed pk r hr]
    exact hr

/-! ## Saving and loading -/

/-- The file that a wallet saves. -/
def savedImage (w : Wallet) (hview : crypto.keysMatch w.viewSecretKey w.viewPublicKey = true)
    (ivs : ℕ → Chacha8Iv) : WalletImage crypto w.walletKey :=
  .ofRecords w.walletKey (ivs 0)
    { spendPublicKey := w.viewPublicKey, spendSecretKey := w.viewSecretKey
      creationTimestamp := w.oldestTimestamp }
    hview w.walletRecords.size (w.recordsToSave.zipIdx.map fun r ↦ (r.1, ivs (r.2 + 1)))

theorem save_content (hview : crypto.keysMatch w.viewSecretKey w.viewPublicKey = true)
    (ivs : ℕ → Chacha8Iv) :
    (w.save crypto ivs false).content = (w.savedImage hview ivs).bytes := by
  obtain ⟨c₁, p₁⟩ := FileStream.write_at_end (f := {}) rfl (leBytes 1 serializationVersionV2)
  obtain ⟨c₂, p₂⟩ := FileStream.write_at_end p₁ (w.savedImage hview ivs).start
  obtain ⟨c₃, p₃⟩ := FileStream.write_at_end p₂ (leBytes 8 w.walletRecords.size)
  obtain ⟨c₄, p₄⟩ := FileStream.write_at_end p₃ (leBytes 8 w.walletRecords.size)
  have hrecords := FileStream.foldl_write_at_end
    (fun r : WalletRecord × ℕ ↦ (encryptKeyPair crypto (ivs (r.2 + 1)) r.1 w.walletKey).toBytes)
    w.recordsToSave.zipIdx p₄
  rw [c₄, c₃, c₂, c₁] at hrecords
  refine hrecords.trans ?_
  simp only [WalletImage.bytes, WalletImage.header, savedImage, ofRecords, List.map_map,
    List.flatMap_map, List.nil_append]
  rfl

/-- `saveAndCheck` with a file that is made in one piece, which takes far fewer steps to evaluate. -/
def saveAndCheckImage (env : WalletEnv) (w : Wallet) (ivs : ℕ → Chacha8Iv) : Except WalletError Wallet :=
  if hview : env.keysMatch w.viewSecretKey w.viewPublicKey = true then do
    let other ← openFile env (w.path ++ ".tmp") w.password (w.savedImage hview ivs).bytes
    ensure (w.same other = true) recordsDoNotMatch
    pure { w with file := other.file }
  else w.saveAndCheck env ivs

theorem saveAndCheck_eq_image (env : WalletEnv) (w : Wallet) (ivs : ℕ → Chacha8Iv) :
    w.saveAndCheck env ivs = w.saveAndCheckImage env ivs := by
  rw [saveAndCheckImage]
  split_ifs with hview
  · rw [saveAndCheck, save_content hview]
  · rfl

/-- The file that a sound wallet saves. -/
def savedFile (h : w.Sound crypto) (ivs : ℕ → Chacha8Iv) : WalletFile crypto w.walletKey where
  toWalletImage := w.savedImage h.viewKeysMatch ivs
  viewOnly := w.isViewOnly
  valid := by
    intro e he
    obtain ⟨r, hr, rfl⟩ := List.mem_map.mp he
    obtain ⟨⟨r', i⟩, hr', rfl⟩ := List.mem_map.mp hr
    rw [decryptKeyPair_encryptKeyPair]
    exact h.valid _ _ ((mem_recordsToSave h).mp (List.fst_mem_of_mem_zipIdx hr'))

theorem savedFile_toWalletImage (h : w.Sound crypto) (ivs : ℕ → Chacha8Iv) :
    (savedFile h ivs).toWalletImage = w.savedImage h.viewKeysMatch ivs := rfl

theorem records_savedFile (h : w.Sound crypto) (ivs : ℕ → Chacha8Iv) :
    (savedFile h ivs).records = w.recordsToSave := by
  rw [savedFile_toWalletImage, savedImage, records_ofRecords, List.map_map]
  exact List.zipIdx_map_fst 0 w.recordsToSave

theorem complete_savedFile (h : w.Sound crypto) (ivs : ℕ → Chacha8Iv)
    (hsize : w.walletRecords.size < 2 ^ 64) : (savedFile h ivs).Complete where
  count := by
    rw [← WalletImage.length_records, records_savedFile, length_recordsToSave h,
      savedFile_toWalletImage, savedImage, count_ofRecords hsize]
  nodup := by
    rw [records_savedFile]
    exact nodup_recordsToSave h

variable {env : WalletEnv}

/-- Loading what a sound wallet has saved gives what the wallet holds. -/
theorem load_save (h : w.Sound env.toWalletCrypto) (hsize : w.walletRecords.size < 2 ^ 64)
    (ivs : ℕ → Chacha8Iv) {w' : Wallet} (hkey : w'.walletKey = w.walletKey)
    (hrecords : w'.walletRecords = ∅ ∨ w'.walletRecords = w.walletRecords)
    (hold : w.oldestTimestamp ≤ w'.oldestTimestamp) :
    ∃ file, file.content = (w.save env.toWalletCrypto ivs false).content ∧
      w'.load env (w.save env.toWalletCrypto ivs false).content = .ok
        { w' with
          file := file
          viewPublicKey := w.viewPublicKey
          viewSecretKey := w.viewSecretKey
          firstRecord := w.firstRecord
          walletRecords := w.walletRecords
          oldestTimestamp := w.oldestTimestamp } := by
  have hcomplete := complete_savedFile h ivs hsize
  have hpos : (savedFile h ivs).count ≠ 0 := by
    rw [hcomplete.count, ← WalletImage.length_records, records_savedFile]
    exact Nat.succ_ne_zero _
  obtain ⟨p, hp⟩ := (savedFile h ivs).load_bytes [] hkey hpos hcomplete.count.le
  have hbytes : ((savedFile h ivs).cut (savedFile h ivs).count).bytes = (savedFile h ivs).bytes := by
    rw [hcomplete.count, (savedFile h ivs).bytes_cut_append (savedFile h ivs).encrypted.length,
      List.drop_length, List.flatMap_nil, List.append_nil]
  have hcontent : (savedFile h ivs).bytes = (w.save env.toWalletCrypto ivs false).content :=
    (save_content h.viewKeysMatch ivs).symm
  rw [List.append_nil, hcomplete.take_records, records_savedFile, hbytes, hcontent] at hp
  refine ⟨⟨(w.save env.toWalletCrypto ivs false).content, p, []⟩, rfl, hp.trans ?_⟩
  set w₁ := (savedFile h ivs).into w' ⟨(w.save env.toWalletCrypto ivs false).content, p, []⟩ with hw₁
  have htable : (w₁.hold w.recordsToSave).walletRecords = w.walletRecords :=
    hold_recordsToSave h hrecords
  have holdest : (w₁.hold w.recordsToSave).oldestTimestamp = w.oldestTimestamp :=
    oldest_hold_recordsToSave h hold
  have hfirst : (w₁.hold w.recordsToSave).firstRecord = w.firstRecord := rfl
  have hinto : w₁ = { w' with
      file := ⟨(w.save env.toWalletCrypto ivs false).content, p, []⟩
      viewPublicKey := w.viewPublicKey
      viewSecretKey := w.viewSecretKey } := by
    rw [hw₁, savedFile_toWalletImage, savedImage, into_ofRecords]
  have hsplit : w₁.hold w.recordsToSave = { w₁ with
      firstRecord := (w₁.hold w.recordsToSave).firstRecord
      walletRecords := (w₁.hold w.recordsToSave).walletRecords
      oldestTimestamp := (w₁.hold w.recordsToSave).oldestTimestamp } := rfl
  rw [hsplit, htable, holdest, hfirst, hinto]

/-- **Round trip.** A sound wallet that is saved is read back as it was. -/
theorem openFile_save (h : w.Sound env.toWalletCrypto) (hsize : w.walletRecords.size < 2 ^ 64)
    (path : String) (ivs : ℕ → Chacha8Iv) :
    ∃ file, file.content = (w.save env.toWalletCrypto ivs false).content ∧
      openFile env path w.password (w.save env.toWalletCrypto ivs false).content =
        .ok { w with file := file, path := path } := by
  have hoverall : w.oldestTimestamp ≤ 0xFFFFFFFF := by
    rw [UInt32.le_iff_toNat_le]
    have := w.oldestTimestamp.toNat_lt
    change w.oldestTimestamp.toNat ≤ 2 ^ 32 - 1
    omega
  have hempty : (blank env.toWalletCrypto path w.password).walletRecords = ∅ ∨
      (blank env.toWalletCrypto path w.password).walletRecords = w.walletRecords := .inl rfl
  obtain ⟨file, hcontent, hload⟩ := load_save h hsize ivs h.walletKey.symm hempty hoverall
  refine ⟨file, hcontent, hload.trans ?_⟩
  rw [blank, ← h.walletKey]

/-- A sound wallet passes the check that follows a save. -/
theorem saveAndCheck_eq_ok (h : w.Sound env.toWalletCrypto) (hsize : w.walletRecords.size < 2 ^ 64)
    (ivs : ℕ → Chacha8Iv) :
    ∃ file, file.content = (w.save env.toWalletCrypto ivs false).content ∧
      w.saveAndCheck env ivs = .ok { w with file := file } := by
  obtain ⟨file, hcontent, hopen⟩ := openFile_save h hsize (w.path ++ ".tmp") ivs
  refine ⟨file, hcontent, ?_⟩
  rw [saveAndCheck, hopen, ok_bind, ensure_pos]
  · rfl
  · simp [same]

/-! ## New wallets -/

private theorem sound_single {record : WalletRecord}
    (hkey : w.walletKey = crypto.generateChacha8Key w.password)
    (hview : crypto.keysMatch w.viewSecretKey w.viewPublicKey = true)
    (hfirst : w.firstRecord = record)
    (hrecords : w.walletRecords = (∅ : Table PublicKey WalletRecord).insertIfNew
      record.spendPublicKey record)
    (hvalid : record.Valid crypto w.isViewOnly) (hoverall : w.oldestTimestamp = record.creationTimestamp) :
    w.Sound crypto := by
  have hget (pk : PublicKey) : w.walletRecords[pk]? =
      if record.spendPublicKey = pk then some record else none := by
    rw [hrecords, ExtTreeMap.getElem?_insertIfNew]
    simp [LawfulEqCmp.compare_eq_iff_eq]
  have honly {pk : PublicKey} {r : WalletRecord} (hr : w.walletRecords[pk]? = some r) :
      record.spendPublicKey = pk ∧ record = r := by
    rw [hget] at hr
    split_ifs at hr with hpk
    exact ⟨hpk, Option.some.inj hr⟩
  refine ⟨⟨hkey, hview, fun pk r hr ↦ ?_, fun pk r hr ↦ ?_, ?_⟩, ?_, ?_⟩
  · obtain ⟨hpk, rfl⟩ := honly hr
    exact hpk
  · obtain ⟨-, rfl⟩ := honly hr
    exact hvalid
  · rw [hfirst, hget, if_pos rfl]
  · exact ⟨record.spendPublicKey, record, by rw [hget, if_pos rfl], hoverall.symm⟩
  · rintro _ ⟨pk, r, hr, rfl⟩
    obtain ⟨-, rfl⟩ := honly hr
    rw [hoverall]
    exact Std.le_refl _

private theorem checkSpendKeys_of_saveAndCheck {record : WalletRecord} {ivs : ℕ → Chacha8Iv}
    (hkey : w.walletKey = env.generateChacha8Key w.password)
    (hview : env.keysMatch w.viewSecretKey w.viewPublicKey = true)
    (hsave : w.recordsToSave = [record]) (hsize : w.walletRecords.size = 1) {w' : Wallet}
    (h : w.saveAndCheck env ivs = .ok w') : checkSpendKeys env.toWalletCrypto record = .ok () := by
  obtain ⟨other, hopen, -⟩ := bind_eq_ok.mp h
  have hcount : (w.savedImage hview ivs).count = 1 := by
    rw [savedImage, count_ofRecords (by rw [hsize]; omega), hsize]
  have hencrypted : (w.savedImage hview ivs).encrypted =
      [encryptKeyPair env.toWalletCrypto (ivs 1) record w.walletKey] := by
    rw [savedImage, ofRecords, hsave]
    rfl
  obtain ⟨p, hp⟩ := (w.savedImage hview ivs).load_bytes_eq
    (w := blank env.toWalletCrypto (w.path ++ ".tmp") w.password) [] hkey.symm
    (by rw [hcount, hencrypted]; rfl)
  rw [List.append_nil, ← save_content hview ivs] at hp
  obtain ⟨s, hs, -⟩ := bind_eq_ok.mp (hp.symm.trans hopen)
  rw [encrypted_cut, hcount, hencrypted] at hs
  obtain ⟨s', hs', -⟩ := bind_eq_ok.mp hs
  obtain ⟨s₁, -, hcheck⟩ := bind_eq_ok.mp hs'
  have hdecrypt : decryptKeyPair env.toWalletCrypto (encryptKeyPair env.toWalletCrypto (ivs 1) record
      w.walletKey) (env.generateChacha8Key w.password) = record := by
    rw [← hkey]
    exact decryptKeyPair_encryptKeyPair _ _ _
  change (do
    checkSpendKeys env.toWalletCrypto (decryptKeyPair env.toWalletCrypto
      (encryptKeyPair env.toWalletCrypto (ivs 1) record w.walletKey)
      (env.generateChacha8Key w.password))
    _) = _ at hcheck
  rw [hdecrypt] at hcheck
  obtain ⟨u, hu, -⟩ := bind_eq_ok.mp hcheck
  exact hu

private theorem sound_of_save_load (h : w.Sound env.toWalletCrypto) (hsize : w.walletRecords.size < 2 ^ 64)
    {ivs : ℕ → Chacha8Iv} {w' : Wallet}
    (hw' : (do
      let w₁ ← w.saveAndCheck env ivs
      w₁.load env w₁.file.content) = .ok w') :
    w'.Sound env.toWalletCrypto ∧ w'.walletRecords.size < 2 ^ 64 := by
  obtain ⟨file, hfile, hsave⟩ := saveAndCheck_eq_ok h hsize ivs
  rw [hsave, ok_bind] at hw'
  dsimp only at hw'
  have hsame : ({ w with file := file } : Wallet).walletRecords = ∅ ∨
      ({ w with file := file } : Wallet).walletRecords = w.walletRecords := .inr rfl
  obtain ⟨file', -, hload⟩ := load_save h hsize ivs (show ({ w with file := file } : Wallet).walletKey =
    w.walletKey from rfl) hsame (Std.le_refl _)
  rw [hfile, hload] at hw'
  obtain rfl := Except.ok.inj hw'
  exact ⟨⟨⟨h.walletKey, h.viewKeysMatch, h.filed, h.valid, h.first⟩, h.oldest⟩, hsize⟩

private theorem size_single (record : WalletRecord) :
    ((∅ : Table PublicKey WalletRecord).insertIfNew record.spendPublicKey record).size = 1 := by
  rw [ExtTreeMap.size_insertIfNew, if_neg ExtTreeMap.not_mem_empty, ExtTreeMap.size_empty]

private theorem recordsToSave_single {record : WalletRecord} (hfirst : w.firstRecord = record)
    (hrecords : w.walletRecords = (∅ : Table PublicKey WalletRecord).insertIfNew
      record.spendPublicKey record) : w.recordsToSave = [record] := by
  rw [recordsToSave, hfirst, List.cons.injEq]
  refine ⟨rfl, List.filter_eq_nil_iff.mpr fun r hr ↦ ?_⟩
  obtain ⟨⟨pk, r'⟩, hmem, rfl⟩ := List.mem_map.mp hr
  have hget := Table.mem_toList.mp hmem
  rw [hrecords, ExtTreeMap.getElem?_insertIfNew] at hget
  split_ifs at hget
  · obtain rfl := Option.some.inj hget
    simp
  · rw [ExtTreeMap.getElem?_empty] at hget
    cases hget

/-- Every constructor makes a sound wallet, writes it and loads it into itself. -/
theorem Created.saved (h : Created env w) :
    ∃ w₀ : Wallet, ∃ ivs, w₀.Sound env.toWalletCrypto ∧ w₀.walletRecords.size < 2 ^ 64 ∧
      (do
        let w₁ ← w₀.saveAndCheck env ivs
        w₁.load env w₁.file.content) = .ok w := by
  have hsize (record : WalletRecord) : ((∅ : Table PublicKey WalletRecord).insertIfNew
      record.spendPublicKey record).size < 2 ^ 64 := by
    rw [size_single]
    omega
  rcases h with ⟨path, password, fileExists, now, viewKeys, spendKeys, ivs, h⟩ |
    ⟨path, password, fileExists, importKeys, ivs, h⟩
  · obtain ⟨-, -, h⟩ := bind_eq_ok.mp h
    refine ⟨_, ivs, sound_single rfl (decide_eq_true viewKeys.keys) rfl rfl ?_ rfl, hsize _, h⟩
    exact ⟨⟨fun h ↦ absurd h spendKeys.nonzero, fun h ↦ of_decide_eq_true h⟩,
      fun _ ↦ decide_eq_true spendKeys.keys, fun h ↦ absurd h spendKeys.nonzero⟩
  · obtain ⟨-, -, h⟩ := bind_eq_ok.mp h
    obtain ⟨keys, -, h⟩ := bind_eq_ok.mp h
    obtain ⟨_, hview, h⟩ := bind_eq_ok.mp h
    obtain ⟨_, hspend, h⟩ := bind_eq_ok.mp h
    rw [ensure_eq_ok] at hview hspend
    obtain ⟨w₁, hsave, -⟩ := bind_eq_ok.mp h
    have hcheck := checkSpendKeys_of_saveAndCheck rfl hview (recordsToSave_single rfl rfl)
      (size_single _) hsave
    refine ⟨_, ivs, sound_single rfl hview rfl rfl ?_ rfl, hsize _, h⟩
    refine ⟨⟨fun h ↦ decide_eq_true h, fun h ↦ of_decide_eq_true h⟩, fun hsk ↦ ?_, fun hsk ↦ ?_⟩
    · by_contra hno
      exact hspend ⟨hsk, hno⟩
    · rw [checkSpendKeys, if_neg (not_not.mpr hsk), ensure_eq_ok] at hcheck
      exact hcheck

theorem Created.sound (h : Created env w) :
    w.Sound env.toWalletCrypto ∧ w.walletRecords.size < 2 ^ 64 := by
  obtain ⟨w₀, ivs, hsound, hsize, hsave⟩ := h.saved
  exact sound_of_save_load hsound hsize hsave

end Wallet

end CryoNero
