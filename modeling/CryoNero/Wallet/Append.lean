import CryoNero.Wallet.File

/-!
# What new addresses do to the file

`Appended w w' encrypted` says that the wallet went from `w` to `w'` by appending the given records
to its file. Every turn of the loop of `generate_new_addresses` appends one record or none, and the
turns compose, so a whole run is one sequence of records written behind the old ones, followed by the
two counters. The file that a process leaves when it stops in the middle is the replay of a part of
that sequence (`tornFile`).
-/

namespace CryoNero

open Store Seria Std

/-- The wallet has appended the given records, whose keys it did not have. -/
structure Appended (crypto : WalletCrypto) (w w' : Wallet) (encrypted : List EncryptedWalletRecord) :
    Prop where
  walletKey : w'.walletKey = w.walletKey
  file : w'.file = w.file.write (encrypted.flatMap (·.toBytes))
  size : w'.walletRecords.size = w.walletRecords.size + encrypted.length
  keys : ∀ pk, w'.walletRecords[pk]? = none ↔ w.walletRecords[pk]? = none ∧
    ∀ e ∈ encrypted, (decryptKeyPair crypto e w.walletKey).spendPublicKey ≠ pk
  length_data : ∀ e ∈ encrypted, e.data.length = 72
  valid : ∀ e ∈ encrypted, (decryptKeyPair crypto e w.walletKey).Valid crypto false

namespace Appended

variable {crypto : WalletCrypto} {w w' w'' : Wallet}
variable {encrypted encrypted' : List EncryptedWalletRecord}

/-- A wallet that has the same records in the same file has appended nothing. -/
theorem of_same (hkey : w'.walletKey = w.walletKey) (hfile : w'.file = w.file)
    (hrecords : w'.walletRecords = w.walletRecords) : Appended crypto w w' [] where
  walletKey := hkey
  file := by
    rw [hfile]
    rfl
  size := by rw [hrecords, List.length_nil, Nat.add_zero]
  keys pk := by simp [hrecords]
  length_data := by simp
  valid := by simp

theorem trans (h : Appended crypto w w' encrypted) (h' : Appended crypto w' w'' encrypted') :
    Appended crypto w w'' (encrypted ++ encrypted') where
  walletKey := h'.walletKey.trans h.walletKey
  file := by
    rw [h'.file, h.file, FileStream.write, FileStream.write, FileStream.write, List.flatMap_append,
      List.foldl_append]
  size := by rw [h'.size, h.size, List.length_append, Nat.add_assoc]
  keys pk := by
    rw [h'.keys, h.keys, h.walletKey, List.forall_mem_append, and_assoc]
  length_data := List.forall_mem_append.mpr ⟨h.length_data, h'.length_data⟩
  valid := List.forall_mem_append.mpr ⟨h.valid, h.walletKey ▸ h'.valid⟩

end Appended

namespace Generating

variable {crypto : WalletCrypto} {ct now : Timestamp} {g g' : Generating}

/-- What is requested is a record with a secret key that fits its public key: a key that is drawn
until it is new, or the key that is imported. -/
theorem requested_cases {w w' : Wallet} {request : AddressRequest crypto} {record : WalletRecord}
    (h : requested w ct now request = .ok (record, w')) :
    record.Valid crypto false ∧
      ((request.secretKey = 0 ∧ w.walletRecords[record.spendPublicKey]? = none ∧
          record.creationTimestamp = now ∧
          w' = { w with oldestTimestamp := min w.oldestTimestamp now }) ∨
        (request.secretKey ≠ 0 ∧
          crypto.secretKeyToPublicKey request.secretKey = some record.spendPublicKey ∧
          record.creationTimestamp = ct ∧ w' = w)) := by
  unfold requested at h
  have hvalid {pk : PublicKey} {sk : SecretKey} {t : Timestamp} (hsk : sk ≠ 0)
      (hpk : crypto.secretKeyToPublicKey sk = some pk) : (WalletRecord.mk pk sk t).Valid crypto false :=
    ⟨⟨fun h ↦ absurd h hsk, fun h ↦ absurd h Bool.false_ne_true⟩,
      fun _ ↦ decide_eq_true hpk, fun h ↦ absurd h hsk⟩
  split_ifs at h with hzero
  · obtain ⟨keys, hdraw, h⟩ := bind_eq_ok.mp h
    cases h
    rw [drawKeypair, orFail_eq_ok] at hdraw
    refine ⟨hvalid keys.nonzero keys.keys, .inl ⟨hzero, ?_, rfl, rfl⟩⟩
    have hnew := List.find?_some hdraw
    simpa using hnew
  · cases hpk : crypto.secretKeyToPublicKey request.secretKey with
    | none =>
      rw [hpk] at h
      cases h
    | some pk =>
      rw [hpk] at h
      cases h
      exact ⟨hvalid hzero hpk, .inr ⟨hzero, rfl, rfl, rfl⟩⟩

private theorem requested_appended {w w' : Wallet} {request : AddressRequest crypto} {record : WalletRecord}
    (h : requested w ct now request = .ok (record, w')) : Appended crypto w w' [] := by
  obtain ⟨-, ⟨-, -, -, rfl⟩ | ⟨-, -, -, rfl⟩⟩ := requested_cases h
  · exact .of_same rfl rfl rfl
  · exact .of_same rfl rfl rfl

private theorem lowerFirst_appended (w : Wallet) (record : WalletRecord) :
    Appended crypto w (lowerFirst w record) [] := by
  unfold lowerFirst
  split_ifs
  · exact .of_same rfl rfl rfl
  · exact .of_same rfl rfl rfl

private theorem known_appended {old record : WalletRecord}
    (hold : g.wallet.walletRecords[record.spendPublicKey]? = some old) :
    Appended crypto g.wallet (g.known old record).wallet [] := by
  unfold known
  split_ifs with hlt
  · refine ⟨rfl, rfl, ?_, fun pk ↦ ?_, by simp, by simp⟩
    · have hmem : record.spendPublicKey ∈ g.wallet.walletRecords := by
        rw [ExtTreeMap.mem_iff_isSome_getElem?, hold]
        rfl
      rw [ExtTreeMap.size_insert, if_pos (ExtTreeMap.mem_iff_contains.mp hmem), List.length_nil,
        Nat.add_zero]
    · rw [Table.get_insert]
      split_ifs with hpk
      · simp [← hpk, hold]
      · simp
  · exact .of_same rfl rfl rfl

/-- A record of a new key is encrypted and written. -/
theorem append_appended {record : WalletRecord} (iv : Chacha8Iv)
    (hnew : g.wallet.walletRecords[record.spendPublicKey]? = none)
    (hvalid : record.Valid crypto false) :
    Appended crypto g.wallet (g.append crypto iv record).wallet
      [encryptKeyPair crypto iv record g.wallet.walletKey] := by
  set encrypted := encryptKeyPair crypto iv record g.wallet.walletKey with hencrypted
  have hdecrypt : decryptKeyPair crypto encrypted g.wallet.walletKey = record :=
    decryptKeyPair_encryptKeyPair iv record g.wallet.walletKey
  have hrecords : (g.append crypto iv record).wallet.walletRecords =
      g.wallet.walletRecords.insert record.spendPublicKey record := by rw [append]
  refine ⟨by rw [append], ?_, ?_, fun pk ↦ ?_, ?_, ?_⟩
  · rw [append, List.flatMap_singleton]
  · rw [hrecords, Table.size_insert_of_none _ hnew, List.length_singleton]
  · rw [hrecords, Table.get_insert, List.forall_mem_singleton, hdecrypt]
    split_ifs with hpk
    · simp [hpk]
    · simp [hpk]
  · exact List.forall_mem_singleton.mpr (length_data_encryptKeyPair iv record g.wallet.walletKey)
  · rw [List.forall_mem_singleton, hdecrypt]
    exact hvalid

private theorem step_appended {request : AddressRequest crypto} (h : g.step ct now request = .ok g') :
    ∃ encrypted, Appended crypto g.wallet g'.wallet encrypted := by
  unfold step at h
  obtain ⟨⟨record, w⟩, hrequested, h⟩ := bind_eq_ok.mp h
  have hvalid := (requested_cases hrequested).1
  have hfirst := (requested_appended hrequested).trans (lowerFirst_appended w record)
  set g₁ : Generating := { g with wallet := lowerFirst w record } with hg₁
  dsimp only at h
  split at h
  · next old hget =>
    obtain rfl := Except.ok.inj h
    exact ⟨_, hfirst.trans (known_appended (g := g₁) hget)⟩
  · next hget =>
    obtain rfl := Except.ok.inj h
    exact ⟨_, hfirst.trans (append_appended (g := g₁) request.iv hget hvalid)⟩

private theorem run_appended {requests : List (AddressRequest crypto)} {e : Option WalletError}
    (h : run ct now requests g = (g', e)) :
    ∃ encrypted, Appended crypto g.wallet g'.wallet encrypted := by
  induction requests generalizing g with
  | nil =>
    cases h
    exact ⟨[], .of_same rfl rfl rfl⟩
  | cons request requests ih =>
    unfold run at h
    cases hstep : g.step ct now request with
    | error e =>
      rw [hstep] at h
      cases h
      exact ⟨[], .of_same rfl rfl rfl⟩
    | ok g₁ =>
      rw [hstep] at h
      obtain ⟨encrypted, hs⟩ := step_appended hstep
      obtain ⟨encrypted', hr⟩ := ih h
      exact ⟨_, hs.trans hr⟩

@[simp] theorem writeCounters_walletRecords (g : Generating) :
    g.writeCounters.wallet.walletRecords = g.wallet.walletRecords := by rw [writeCounters]

private theorem writeCounters_journal (g : Generating) :
    g.writeCounters.wallet.file.journal = g.wallet.file.journal ++
      writesAt (1 + containerStoragePrefixSize)
        (leBytes 8 g.wallet.walletRecords.size ++ leBytes 8 g.wallet.walletRecords.size) := by
  simp only [writeCounters, FileStream.write_eq]
  rw [writesAt_append, length_leBytes]
  simp

end Generating

/-! ## The writes of a call -/

/-- The bytes that a call writes to the file of `w`: the records behind the old ones, then the two
counters. -/
def appendJournal (n : ℕ) (encrypted : List EncryptedWalletRecord) (size : ℕ) : List (ℕ × UInt8) :=
  writesAt (walletFileSize n) (encrypted.flatMap (·.toBytes)) ++
    writesAt (1 + containerStoragePrefixSize) (leBytes 8 size ++ leBytes 8 size)

/-- A call is refused for a wallet without secret keys; else it is a run of the loop, and the counters
are written when the run has come to its end. -/
theorem appendNewAddresses_cases {crypto : WalletCrypto} {w : Wallet}
    {requests : List (AddressRequest crypto)} {ct now : Timestamp} {g : Generating}
    {e : Option WalletError} (h : w.appendNewAddresses requests ct now = (g, e)) :
    (w.isViewOnly = true ∧ g = { wallet := w } ∧
        e = some (.exception 101 "Generate new addresses impossible for view-only wallet")) ∨
      w.isViewOnly = false ∧ ∃ g₁, Generating.run ct now requests { wallet :=
          { w with file := w.file.seek (walletFileSize w.walletRecords.size) } } = (g₁, e) ∧
        (e = none ∧ g = g₁.writeCounters ∨ (∃ e', e = some e') ∧ g = g₁) := by
  unfold Wallet.appendNewAddresses at h
  by_cases hview : w.isViewOnly = true
  · rw [if_pos hview] at h
    obtain ⟨rfl, rfl⟩ := Prod.mk.inj h
    exact .inl ⟨hview, rfl, rfl⟩
  · rw [if_neg hview] at h
    dsimp only at h
    refine .inr ⟨by simpa using hview, ?_⟩
    rcases hrun : Generating.run ct now requests { wallet :=
      { w with file := w.file.seek (walletFileSize w.walletRecords.size) } } with ⟨g₁, _ | e'⟩
    · rw [hrun] at h
      obtain ⟨rfl, rfl⟩ := Prod.mk.inj h
      exact ⟨g₁, rfl, .inl ⟨rfl, rfl⟩⟩
    · rw [hrun] at h
      obtain ⟨rfl, rfl⟩ := Prod.mk.inj h
      exact ⟨g₁, rfl, .inr ⟨⟨e', rfl⟩, rfl⟩⟩

theorem appendNewAddresses_journal {crypto : WalletCrypto} {w : Wallet}
    {requests : List (AddressRequest crypto)} {ct now : Timestamp} {g : Generating}
    (h : w.appendNewAddresses requests ct now = (g, none)) :
    ∃ encrypted, g.wallet.file.journal = w.file.journal ++
        appendJournal w.walletRecords.size encrypted g.wallet.walletRecords.size ∧
      g.wallet.walletRecords.size = w.walletRecords.size + encrypted.length ∧
      (∀ pk, g.wallet.walletRecords[pk]? = none ↔ w.walletRecords[pk]? = none ∧
        ∀ e ∈ encrypted, (decryptKeyPair crypto e w.walletKey).spendPublicKey ≠ pk) ∧
      (∀ e ∈ encrypted, e.data.length = 72) ∧
      (∀ e ∈ encrypted, (decryptKeyPair crypto e w.walletKey).Valid crypto false) ∧
      w.isViewOnly = false := by
  obtain ⟨-, -, hno⟩ | ⟨hview, g₁, hrun, ⟨-, rfl⟩ | ⟨⟨e, he⟩, -⟩⟩ := appendNewAddresses_cases h
  · cases hno
  · set start : Wallet := { w with file := w.file.seek (walletFileSize w.walletRecords.size) }
    obtain ⟨encrypted, ha⟩ := Generating.run_appended hrun
    have hsize : g₁.wallet.walletRecords.size = w.walletRecords.size + encrypted.length := ha.size
    have hfile : g₁.wallet.file = start.file.write (encrypted.flatMap (·.toBytes)) := ha.file
    rw [Generating.writeCounters_walletRecords, Generating.writeCounters_journal]
    refine ⟨encrypted, ?_, hsize, ha.keys, ha.length_data, ha.valid, hview⟩
    rw [hfile, FileStream.write_eq, appendJournal, ← List.append_assoc]
    rfl
  · cases he

/-- Importing one key that the wallet does not have appends one record. -/
theorem appendNewAddresses_import {crypto : WalletCrypto} {w : Wallet} {sk : SecretKey}
    {pk : PublicKey} (iv : Chacha8Iv) (ct now : Timestamp) (hview : w.isViewOnly = false)
    (hsk : sk ≠ 0) (hpk : crypto.secretKeyToPublicKey sk = some pk)
    (hnew : w.walletRecords[pk]? = none) :
    ∃ g, w.appendNewAddresses [(⟨sk, [], iv⟩ : AddressRequest crypto)] ct now = (g, none) ∧
      g.wallet.walletRecords.size = w.walletRecords.size + 1 := by
  set start : Wallet := { w with file := w.file.seek (walletFileSize w.walletRecords.size) }
  set record : WalletRecord := ⟨pk, sk, ct⟩
  have hrequested : Generating.requested start ct now (⟨sk, [], iv⟩ : AddressRequest crypto) =
      .ok (record, start) := by
    rw [Generating.requested, if_neg hsk, hpk]
    rfl
  have hrecords : (Generating.lowerFirst start record).walletRecords = w.walletRecords := by
    rw [Generating.lowerFirst]
    split_ifs
    · rfl
    · rfl
  have hstep : Generating.step ct now { wallet := start } (⟨sk, [], iv⟩ : AddressRequest crypto) =
      .ok (Generating.append crypto { wallet := Generating.lowerFirst start record } iv record) := by
    rw [Generating.step, hrequested, ok_bind]
    simp only [hrecords, record, hnew]
    rfl
  refine ⟨(Generating.append crypto { wallet := Generating.lowerFirst start record } iv
    record).writeCounters, ?_, ?_⟩
  · unfold Wallet.appendNewAddresses
    rw [if_neg (by rw [hview]; exact Bool.false_ne_true)]
    simp only [Generating.run]
    rw [hstep]
  · rw [Generating.writeCounters_walletRecords, Generating.append, hrecords]
    exact Table.size_insert_of_none record hnew

/-- The file of `w` when the process stops after `t` of the bytes that the call leading to `g` has
written. -/
def tornFile (w : Wallet) (g : Generating) (t : ℕ) : Bytes :=
  replay w.file.content ((g.wallet.file.journal.drop w.file.journal.length).take t)

end CryoNero
