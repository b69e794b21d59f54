import CryoNero.Wallet.Oldest

/-!
# Calls that fail

A call of `generate_new_addresses` that throws in the middle has already done what the keys before
the invalid one asked for: records were put in and appended to the file, timestamps were lowered.
Nothing takes that back. `Idle` says of a call that there was nothing to do before it failed, and a
failed call leaves everything as it was just if it is idle.

As long as no call fails with something done, the file holds the records that the wallet has in memory
(`Filed`), so that the next call appends behind them.
-/

namespace CryoNero

open Store Seria Std WalletImage

namespace Wallet

variable {crypto : WalletCrypto} {w w' : Wallet}

/-- Everything that a wallet knows of its records in memory. -/
structure SameMemory (w w' : Wallet) : Prop where
  walletRecords : w'.walletRecords = w.walletRecords
  firstRecord : w'.firstRecord = w.firstRecord
  oldestTimestamp : w'.oldestTimestamp = w.oldestTimestamp

/-- A request that throws. -/
def Refuses (w : Wallet) (request : AddressRequest crypto) : Bool :=
  if request.secretKey = 0 then
    (request.draws.find? fun k ↦ w.walletRecords[k.publicKey]?.isNone).isNone
  else (crypto.secretKeyToPublicKey request.secretKey).isNone

/-- A request with nothing to do: its key is known, with a timestamp that is as old. -/
def Harmless (w : Wallet) (ct : Timestamp) (request : AddressRequest crypto) : Prop :=
  request.secretKey ≠ 0 ∧ ∃ pk old, crypto.secretKeyToPublicKey request.secretKey = some pk ∧
    w.walletRecords[pk]? = some old ∧ old.creationTimestamp ≤ ct

/-- There is nothing to do before the first request that throws. -/
def Idle (w : Wallet) (requests : List (AddressRequest crypto)) (ct : Timestamp) : Prop :=
  w.isViewOnly = true ∨
    ∀ request ∈ requests.takeWhile fun request ↦ !w.Refuses request, w.Harmless ct request

/-- Keys stay known, and timestamps are only lowered. -/
def Below (w w' : Wallet) : Prop :=
  ∀ (pk : PublicKey) r, w.walletRecords[pk]? = some r →
    ∃ r', w'.walletRecords[pk]? = some r' ∧ r'.creationTimestamp ≤ r.creationTimestamp

theorem Below.refl (w : Wallet) : Below w w := fun _ r hr ↦ ⟨r, hr, Std.le_refl _⟩

theorem Below.trans {w'' : Wallet} (h : Below w w') (h' : Below w' w'') : Below w w'' := by
  intro pk r hr
  obtain ⟨r', hr', hle⟩ := h pk r hr
  obtain ⟨r'', hr'', hle'⟩ := h' pk r' hr'
  exact ⟨r'', hr'', Std.le_trans hle' hle⟩

end Wallet

namespace Generating

variable {crypto : WalletCrypto} {ct now : Timestamp} {g g' : Generating}
variable {request : AddressRequest crypto}

private theorem step_error_iff (ct now : Timestamp) : (∃ e, g.step ct now request = .error e) ↔
    g.wallet.Refuses request = true := by
  rw [step, Wallet.Refuses, requested]
  by_cases hsk : request.secretKey = 0
  · rw [if_pos hsk, if_pos hsk, drawKeypair]
    cases hfind : request.draws.find? fun k ↦ g.wallet.walletRecords[k.publicKey]?.isNone with
    | none => exact iff_of_true ⟨_, rfl⟩ rfl
    | some keys =>
      refine iff_of_false ?_ Bool.false_ne_true
      rintro ⟨e, he⟩
      simp only [orFail, ok_bind, pure, Except.pure] at he
      split at he <;> cases he
  · rw [if_neg hsk, if_neg hsk]
    cases hpk : crypto.secretKeyToPublicKey request.secretKey with
    | none => exact iff_of_true ⟨_, rfl⟩ rfl
    | some pk =>
      refine iff_of_false ?_ Bool.false_ne_true
      rintro ⟨e, he⟩
      simp only [ok_bind, pure, Except.pure] at he
      split at he <;> cases he

private theorem lowerFirst_withOldest (w : Wallet) (record : WalletRecord) (t : Timestamp) :
    lowerFirst { w with oldestTimestamp := t } record =
      { lowerFirst w record with oldestTimestamp := t } := by
  rw [lowerFirst, lowerFirst]
  split_ifs <;> rfl

private theorem Turn.regular (h : Turn crypto ct now g request g') (hg : g.wallet.Regular crypto)
    (hview : g.wallet.isViewOnly = false) :
    g'.wallet.Regular crypto ∧ g'.wallet.isViewOnly = false := by
  obtain ⟨t, hsound⟩ := hg.sound
  cases h with
  | drawn record file hsk hvalid hnew hct hrescan hwallet =>
    have h := (sound_append hsound hview hvalid hnew rfl).toRegular
    rw [hwallet]
    exact ⟨⟨h.walletKey, h.viewKeysMatch, h.filed, h.valid, h.first⟩, hview⟩
  | imported record file hsk hpk hvalid hnew hct hrescan hwallet =>
    have h := (sound_append hsound hview hvalid hnew rfl).toRegular
    rw [hwallet]
    exact ⟨⟨h.walletKey, h.viewKeysMatch, h.filed, h.valid, h.first⟩, hview⟩
  | lowered record old hsk hold hct hlt hrescan hwallet =>
    obtain ⟨hlowered, hkept⟩ := sound_known hsound hold (hct ▸ hlt) rfl
    rw [lowerFirst_withOldest] at hlowered hkept
    have h := hlowered.toRegular
    rw [hwallet, ← hct]
    exact ⟨⟨h.walletKey, h.viewKeysMatch, h.filed, h.valid, h.first⟩, hkept.trans hview⟩
  | unchanged pk old hsk hpk hold hle hrescan hwallet =>
    rw [hwallet]
    exact ⟨hg, hview⟩

/-- What a turn does to the records: nothing if there is nothing to do, and else it puts in a record
that is new or lowered. -/
private theorem Turn.harmless_or_puts (h : Turn crypto ct now g request g') :
    (g.wallet.Harmless ct request ∧ g'.wallet = g.wallet ∧ g'.rescanFromCt = g.rescanFromCt) ∨
      ∃ pk r, g'.wallet.walletRecords = g.wallet.walletRecords.insert pk r ∧
        ∀ old, g.wallet.walletRecords[pk]? = some old →
          r.creationTimestamp < old.creationTimestamp := by
  cases h with
  | drawn record file hsk hvalid hnew hct hrescan hwallet =>
    refine .inr ⟨record.spendPublicKey, record, by rw [hwallet], fun old hold ↦ ?_⟩
    rw [hnew] at hold
    cases hold
  | imported record file hsk hpk hvalid hnew hct hrescan hwallet =>
    refine .inr ⟨record.spendPublicKey, record, by rw [hwallet], fun old hold ↦ ?_⟩
    rw [hnew] at hold
    cases hold
  | lowered record old hsk hold hct hlt hrescan hwallet =>
    refine .inr ⟨record.spendPublicKey, _, by rw [hwallet], fun old' hold' ↦ ?_⟩
    obtain rfl := Option.some.inj (hold.symm.trans hold')
    exact hlt
  | unchanged pk old hsk hpk hold hle hrescan hwallet =>
    exact .inl ⟨⟨hsk, pk, old, hpk, hold, Std.not_lt.mp hle⟩, hwallet, hrescan⟩

theorem Turn.below (h : Turn crypto ct now g request g') : Wallet.Below g.wallet g'.wallet := by
  rcases h.harmless_or_puts with ⟨-, hsame, -⟩ | ⟨pk, r, hputs, hlow⟩
  · rw [hsame]
    exact .refl _
  · intro pk' old hold
    rw [hputs, Table.get_insert]
    split_ifs with hpk
    · subst hpk
      exact ⟨r, rfl, Std.le_of_lt (hlow old hold)⟩
    · exact ⟨old, hold, Std.le_refl _⟩

private theorem Turn.harmless (h : Turn crypto ct now g request g') {w : Wallet}
    (hbelow : Wallet.Below g'.wallet w) (hsame : w.walletRecords = g.wallet.walletRecords) :
    g.wallet.Harmless ct request ∧ g'.wallet = g.wallet ∧ g'.rescanFromCt = g.rescanFromCt := by
  rcases h.harmless_or_puts with hharmless | ⟨pk, r, hputs, hlow⟩
  · exact hharmless
  · obtain ⟨r', hr', hle⟩ := hbelow pk r (by rw [hputs, Table.get_insert_self])
    rw [hsame] at hr'
    exact absurd (hlow r' hr') (Std.not_lt.mpr hle)

private theorem step_of_harmless (now : Timestamp) (hg : g.wallet.Regular crypto)
    (h : g.wallet.Harmless ct request) :
    ∃ g', g.step ct now request = .ok g' ∧ g'.wallet = g.wallet ∧
      g'.rescanFromCt = g.rescanFromCt := by
  obtain ⟨hsk, pk, old, hpk, hold, hle⟩ := h
  set record : WalletRecord := ⟨pk, request.secretKey, ct⟩
  have hlt : ¬record.creationTimestamp < old.creationTimestamp := Std.not_lt.mpr hle
  have hfirst : lowerFirst g.wallet record = g.wallet := lowerFirst_of_le hg hold hlt
  have hknown : g.known old record = { g with result := g.result ++ [old] } := if_neg hlt
  refine ⟨g.known old record, ?_, by rw [hknown], by rw [hknown]⟩
  rw [step, requested, if_neg hsk, hpk]
  simp only [pure_bind]
  rw [hfirst]
  simp only [hold]
  rfl

private theorem run_same_iff {requests : List (AddressRequest crypto)} {e : Option WalletError}
    (hg : g.wallet.Regular crypto) (hview : g.wallet.isViewOnly = false)
    (h : run ct now requests g = (g', e)) :
    (Wallet.Below g.wallet g'.wallet ∧ g'.wallet.Regular crypto ∧ g'.wallet.isViewOnly = false) ∧
      (g'.wallet.walletRecords = g.wallet.walletRecords ↔
        ∀ request ∈ requests.takeWhile fun request ↦ !g.wallet.Refuses request,
          g.wallet.Harmless ct request) ∧
      (g'.wallet.walletRecords = g.wallet.walletRecords →
        g'.wallet = g.wallet ∧ g'.rescanFromCt = g.rescanFromCt) := by
  induction requests generalizing g with
  | nil =>
    obtain ⟨rfl, rfl⟩ := Prod.mk.inj h
    exact ⟨⟨.refl _, hg, hview⟩, iff_of_true rfl (List.forall_mem_nil _), fun _ ↦ ⟨rfl, rfl⟩⟩
  | cons request requests ih =>
    rw [run] at h
    rw [List.takeWhile_cons]
    cases hstep : g.step ct now request with
    | error e' =>
      rw [hstep] at h
      obtain ⟨rfl, rfl⟩ := Prod.mk.inj h
      rw [(step_error_iff ct now).mp ⟨e', hstep⟩]
      exact ⟨⟨.refl _, hg, hview⟩, iff_of_true rfl (List.forall_mem_nil _), fun _ ↦ ⟨rfl, rfl⟩⟩
    | ok g₁ =>
      rw [hstep] at h
      have hrefuses : g.wallet.Refuses request = false := by
        rw [← Bool.not_eq_true, ← step_error_iff ct now, hstep]
        rintro ⟨e', he⟩
        cases he
      have hturn := (turn_of_step hg hstep).1
      obtain ⟨hg₁, hview₁⟩ := hturn.regular hg hview
      obtain ⟨⟨hbelow, hkept⟩, hiff, hsame⟩ := ih hg₁ hview₁ h
      refine ⟨⟨hturn.below.trans hbelow, hkept⟩, ?_, ?_⟩
      · rw [hrefuses]
        change _ ↔ ∀ r ∈ request :: _, _
        rw [List.forall_mem_cons]
        constructor
        · intro hrecords
          obtain ⟨hharmless, hwallet, -⟩ := hturn.harmless hbelow hrecords
          rw [hwallet] at hiff
          exact ⟨hharmless, hiff.mp hrecords⟩
        · rintro ⟨hharmless, hrest⟩
          obtain ⟨g₁', hstep', hwallet, -⟩ := step_of_harmless now hg hharmless
          obtain rfl := Except.ok.inj (hstep.symm.trans hstep')
          rw [hwallet] at hiff
          exact hiff.mpr hrest
      · intro hrecords
        obtain ⟨-, hwallet, hrescan⟩ := hturn.harmless hbelow hrecords
        rw [hwallet, hrescan] at hsame
        exact hsame hrecords

end Generating

/-! ## What a call writes -/

/-- The wallet has appended the given records to its file, and has just these in memory beside the
ones it had. -/
structure Wrote (crypto : WalletCrypto) (w w' : Wallet) (encrypted : List EncryptedWalletRecord) :
    Prop extends Appended crypto w w' encrypted where
  get : ∀ pk, w'.walletRecords[pk]? = (w.walletRecords[pk]?).or
    ((encrypted.map fun e ↦ decryptKeyPair crypto e w.walletKey).find? fun r ↦
      r.spendPublicKey = pk)
  nodup : (encrypted.map fun e ↦ (decryptKeyPair crypto e w.walletKey).spendPublicKey).Nodup
  fresh : ∀ e ∈ encrypted,
    w.walletRecords[(decryptKeyPair crypto e w.walletKey).spendPublicKey]? = none

namespace Wrote

variable {crypto : WalletCrypto} {w w' w'' : Wallet}
variable {encrypted encrypted' : List EncryptedWalletRecord}

theorem of_same (hkey : w'.walletKey = w.walletKey) (hfile : w'.file = w.file)
    (hrecords : w'.walletRecords = w.walletRecords) : Wrote crypto w w' [] where
  toAppended := .of_same hkey hfile hrecords
  get pk := by rw [hrecords, List.map_nil, List.find?_nil, Option.or_none]
  nodup := List.nodup_nil
  fresh := nofun

theorem trans (h : Wrote crypto w w' encrypted) (h' : Wrote crypto w' w'' encrypted') :
    Wrote crypto w w'' (encrypted ++ encrypted') where
  toAppended := h.toAppended.trans h'.toAppended
  get pk := by
    rw [h'.get, h.get, h.walletKey, Option.or_assoc, List.map_append, List.find?_append]
  nodup := by
    rw [List.map_append, List.nodup_append]
    refine ⟨h.nodup, h.walletKey ▸ h'.nodup, fun pk hpk pk' hpk' heq ↦ ?_⟩
    obtain ⟨e, he, rfl⟩ := List.mem_map.mp hpk
    obtain ⟨e', he', rfl⟩ := List.mem_map.mp hpk'
    have hnew := h'.fresh e' he'
    rw [h.walletKey, ← heq, h.keys] at hnew
    exact hnew.2 e he rfl
  fresh := by
    refine List.forall_mem_append.mpr ⟨h.fresh, fun e he ↦ ?_⟩
    have hnew := h'.fresh e he
    rw [h.walletKey, h.keys] at hnew
    exact hnew.1

end Wrote

namespace Generating

variable {crypto : WalletCrypto} {ct now : Timestamp} {g g' : Generating}
variable {request : AddressRequest crypto}

private theorem append_wrote {record : WalletRecord} (iv : Chacha8Iv)
    (hnew : g.wallet.walletRecords[record.spendPublicKey]? = none)
    (hvalid : record.Valid crypto false) :
    Wrote crypto g.wallet (g.append crypto iv record).wallet
      [encryptKeyPair crypto iv record g.wallet.walletKey] where
  toAppended := append_appended iv hnew hvalid
  get pk := by
    have hrecords : (g.append crypto iv record).wallet.walletRecords =
        g.wallet.walletRecords.insert record.spendPublicKey record := by rw [append]
    rw [hrecords, Table.get_insert, List.map_singleton, decryptKeyPair_encryptKeyPair,
      List.find?_singleton]
    by_cases hpk : record.spendPublicKey = pk
    · subst hpk
      simp [hnew]
    · simp [hpk]
  nodup := List.nodup_singleton _
  fresh := by
    rw [List.forall_mem_singleton, decryptKeyPair_encryptKeyPair]
    exact hnew

private theorem step_wrote (h : g.step ct now request = .ok g') (hno : g'.rescanFromCt = false) :
    g.rescanFromCt = false ∧ ∃ encrypted, Wrote crypto g.wallet g'.wallet encrypted := by
  rw [step] at h
  obtain ⟨⟨record, w⟩, hrequested, h⟩ := bind_eq_ok.mp h
  obtain ⟨hvalid, hcases⟩ := requested_cases hrequested
  have hsame : w.walletKey = g.wallet.walletKey ∧ w.file = g.wallet.file ∧
      w.walletRecords = g.wallet.walletRecords := by
    obtain ⟨-, -, -, rfl⟩ | ⟨-, -, -, rfl⟩ := hcases <;> exact ⟨rfl, rfl, rfl⟩
  have hlow : (lowerFirst w record).walletKey = w.walletKey ∧ (lowerFirst w record).file = w.file := by
    rw [lowerFirst]
    split_ifs <;> exact ⟨rfl, rfl⟩
  set g₁ : Generating := { g with wallet := lowerFirst w record } with hg₁
  have hfirst : Wrote crypto g.wallet g₁.wallet [] :=
    .of_same (hlow.1.trans hsame.1) (hlow.2.trans hsame.2.1)
      ((lowerFirst_walletRecords w record).trans hsame.2.2)
  dsimp only at h
  split at h
  · obtain rfl := Except.ok.inj h
    rw [known] at hno ⊢
    split_ifs at hno ⊢
    exact ⟨hno, _, hfirst⟩
  · next hget =>
    obtain rfl := Except.ok.inj h
    have hrescan : (g₁.append crypto request.iv record).rescanFromCt = g.rescanFromCt := by
      rw [append]
    have happend := hfirst.trans (append_wrote request.iv hget hvalid)
    exact ⟨hrescan ▸ hno, _, happend⟩

private theorem run_wrote {requests : List (AddressRequest crypto)} {e : Option WalletError}
    (h : run ct now requests g = (g', e)) (hno : g'.rescanFromCt = false) :
    g.rescanFromCt = false ∧ ∃ encrypted, Wrote crypto g.wallet g'.wallet encrypted := by
  induction requests generalizing g with
  | nil =>
    obtain ⟨rfl, rfl⟩ := Prod.mk.inj h
    exact ⟨hno, [], .of_same rfl rfl rfl⟩
  | cons request requests ih =>
    rw [run] at h
    cases hstep : g.step ct now request with
    | error e' =>
      rw [hstep] at h
      obtain ⟨rfl, rfl⟩ := Prod.mk.inj h
      exact ⟨hno, [], .of_same rfl rfl rfl⟩
    | ok g₁ =>
      rw [hstep] at h
      obtain ⟨hno₁, encrypted', hr⟩ := ih h
      obtain ⟨hno₀, encrypted, hs⟩ := step_wrote hstep hno₁
      exact ⟨hno₀, _, hs.trans hr⟩

end Generating

@[simp] theorem Generating.writeCounters_rescanFromCt (g : Generating) :
    g.writeCounters.rescanFromCt = g.rescanFromCt := by rw [writeCounters]

theorem Generating.writeCounters_wallet (g : Generating) :
    g.writeCounters.wallet = { g.wallet with file := g.writeCounters.wallet.file } := by
  simp only [writeCounters]

private theorem Generating.content_writeCounters (g : Generating) :
    g.writeCounters.wallet.file.content =
      replay g.wallet.file.content (writesAt (1 + containerStoragePrefixSize)
        (leBytes 8 g.wallet.walletRecords.size ++ leBytes 8 g.wallet.walletRecords.size)) := by
  simp only [writeCounters, FileStream.write_eq]
  rw [writesAt_append, length_leBytes, replay_append]
  simp

/-! ## The file and the memory -/

namespace Wallet

/-- The file holds the records that the wallet has in memory, and nothing behind them. -/
structure Filed (crypto : WalletCrypto) (w : Wallet) : Prop extends Regular crypto w where
  file : ∃ key, ∃ f : WalletFile crypto key, key = w.walletKey ∧ f.Complete ∧
    f.viewOnly = w.isViewOnly ∧ w.file.content = f.bytes ∧
    ∀ pk : PublicKey, w.walletRecords[pk]? = f.records.find? fun r ↦ r.spendPublicKey = pk

/-- Every record in memory is on disk: a later load reads just these, and the file ends behind
them. -/
structure Stored (env : WalletEnv) (w : Wallet) : Prop where
  length : w.file.content.length = walletFileSize w.walletRecords.size
  loads : ∃ w', openFile env w.path w.password w.file.content = .ok w' ∧
    w'.walletRecords = w.walletRecords

variable {crypto : WalletCrypto} {key : WalletKey} {w w' : Wallet}

theorem Regular.withFile (h : w.Regular crypto) (file : FileStream) :
    Regular crypto { w with file := file } :=
  ⟨h.walletKey, h.viewKeysMatch, h.filed, h.valid, h.first⟩

private theorem isViewOnly_withFile (w : Wallet) (file : FileStream) :
    isViewOnly { w with file := file } = w.isViewOnly := rfl

private theorem size_of_find? {f : WalletFile crypto key} (hf : f.Complete)
    (hget : ∀ pk : PublicKey, w.walletRecords[pk]? = f.records.find? fun r ↦ r.spendPublicKey = pk) :
    w.walletRecords.size = f.encrypted.length := by
  have htable : w.walletRecords = ((blank crypto "" []).hold f.records).walletRecords := by
    refine Table.ext_get fun pk ↦ ?_
    rw [hget, get_hold]
    change _ = (∅ : Table PublicKey WalletRecord)[pk]?.or _
    rw [ExtTreeMap.getElem?_empty, Option.none_or]
  rw [htable, size_hold rfl hf.nodup, WalletImage.length_records]

private theorem count_ne_zero {f : WalletFile crypto key} (hf : f.Complete) (hw : w.Regular crypto)
    (hget : ∀ pk : PublicKey, w.walletRecords[pk]? = f.records.find? fun r ↦ r.spendPublicKey = pk) :
    f.count ≠ 0 := by
  intro hzero
  have hfirst := hw.first
  rw [hf.count] at hzero
  rw [hget, WalletImage.records, List.length_eq_zero_iff.mp hzero] at hfirst
  cases hfirst

theorem Filed.stored {env : WalletEnv} (h : w.Filed env.toWalletCrypto) : w.Stored env := by
  obtain ⟨key, f, hkey, hf, -, hcontent, hget⟩ := h.file
  rw [h.walletKey] at hkey
  subst hkey
  refine ⟨?_, ?_⟩
  · rw [hcontent, f.length_bytes, size_of_find? hf hget]
  · obtain ⟨w', hopen, hw'⟩ := f.openFile_bytes w.path (count_ne_zero hf h.toRegular hget)
      hf.count.le []
    rw [List.append_nil] at hopen
    refine ⟨w', by rw [hcontent, hopen], Table.ext_get fun pk ↦ ?_⟩
    rw [hw'.get, hf.take_records, hget]

theorem Filed.withFile (h : w.Filed crypto) (file : FileStream)
    (hfile : file.content = w.file.content) : Filed crypto { w with file := file } := by
  obtain ⟨key, f, hkey, hf, hmode, hcontent, hget⟩ := h.file
  exact ⟨h.toRegular.withFile file, key, f, hkey, hf, hmode, hfile.trans hcontent, hget⟩

private theorem complete_overwritten {f : WalletFile crypto key} (hf : f.Complete)
    (hmode : f.viewOnly = false) {more : List EncryptedWalletRecord}
    (hlength : ∀ e ∈ more, e.data.length = 72)
    (hvalid : ∀ e ∈ more, (decryptKeyPair crypto e key).Valid crypto false)
    (hnodup : (more.map fun e ↦ (decryptKeyPair crypto e key).spendPublicKey).Nodup)
    (hfresh : ∀ e ∈ more, (f.records.find? fun r ↦
      r.spendPublicKey = (decryptKeyPair crypto e key).spendPublicKey) = none) {size : ℕ}
    (hsize : size = f.encrypted.length + more.length) (hlt : size < 2 ^ 64) :
    (f.overwritten hmode more hlength hvalid size 16).Complete := by
  have hsplice {old : Bytes} (hold : old.length = 8) : splice 8 size (leNat old) = size := by
    have hlt' := leNat_lt old
    rw [hold] at hlt'
    rw [splice, Nat.div_eq_of_lt hlt', Nat.mul_zero, Nat.add_zero, Nat.mod_eq_of_lt (by omega)]
  constructor
  · rw [WalletFile.count_overwritten, show min (16 - 8) 8 = 8 from rfl, show min 16 8 = 8 from rfl,
      hsplice f.length_itemCount, hsplice f.length_itemCapacity, Nat.min_self, hsize]
    exact List.length_append.symm
  · have hrecords : (f.overwritten hmode more hlength hvalid size 16).records =
        f.records ++ more.map fun e ↦ decryptKeyPair crypto e key := List.map_append
    rw [hrecords, List.map_append, List.map_map, List.nodup_append]
    refine ⟨hf.nodup, hnodup, fun pk hpk pk' hpk' heq ↦ ?_⟩
    obtain ⟨r, hr, rfl⟩ := List.mem_map.mp hpk
    obtain ⟨e, he, rfl⟩ := List.mem_map.mp hpk'
    exact List.find?_eq_none.mp (hfresh e he) r hr (decide_eq_true heq)

/-- The records of a call that lowers nothing are appended behind the ones that the file holds, and
the counters take them in. -/
private theorem Filed.appended (h : w.Filed crypto) {requests : List (AddressRequest crypto)}
    {ct now : Timestamp} {g : Generating}
    (hcall : w.appendNewAddresses requests ct now = (g, none)) (hno : g.rescanFromCt = false)
    (hsize : g.wallet.walletRecords.size < 2 ^ 64) : g.wallet.Filed crypto := by
  obtain ⟨-, -, hnone⟩ | ⟨hview, g₁, hrun, ⟨-, rfl⟩ | ⟨⟨e, he⟩, -⟩⟩ := appendNewAddresses_cases hcall
  · cases hnone
  · rw [Generating.writeCounters_walletRecords] at hsize
    set start : Wallet := { w with file := w.file.seek (walletFileSize w.walletRecords.size) }
    have hstart : start.Regular crypto := h.toRegular.withFile _
    have hview' : start.isViewOnly = false := hview
    obtain ⟨⟨-, hregular, hview₁⟩, -⟩ := Generating.run_same_iff hstart hview' hrun
    rw [Generating.writeCounters_rescanFromCt] at hno
    obtain ⟨-, encrypted, hw⟩ := Generating.run_wrote hrun hno
    obtain ⟨key, f, hkey, hf, hmode, hcontent, hget⟩ := h.file
    subst hkey
    have hlength := size_of_find? hf hget
    have hsize₁ : g₁.wallet.walletRecords.size = f.encrypted.length + encrypted.length :=
      hlength ▸ hw.size
    have hfresh (e : EncryptedWalletRecord) (he : e ∈ encrypted) : (f.records.find? fun r ↦
        r.spendPublicKey = (decryptKeyPair crypto e w.walletKey).spendPublicKey) = none := by
      rw [← hget]
      exact hw.fresh e he
    -- the records are written behind the old ones, then the counters in front of them
    have hend : start.file.position = start.file.content.length := by
      change walletFileSize w.walletRecords.size = w.file.content.length
      rw [hcontent, f.length_bytes, hlength]
    have hbytes : g₁.wallet.file.content = f.bytes ++ encrypted.flatMap (·.toBytes) := by
      rw [hw.file, (FileStream.write_at_end hend _).1]
      exact congrArg (· ++ _) hcontent
    set f' := f.overwritten (hmode.trans hview) encrypted hw.length_data hw.valid
      g₁.wallet.walletRecords.size 16 with hf'
    have hall : (leBytes 8 g₁.wallet.walletRecords.size ++ leBytes 8 g₁.wallet.walletRecords.size).take
        16 = leBytes 8 g₁.wallet.walletRecords.size ++ leBytes 8 g₁.wallet.walletRecords.size :=
      List.take_of_length_le (by rw [List.length_append, length_leBytes])
    have hoverwritten : g₁.writeCounters.wallet.file.content = f'.bytes := by
      rw [Generating.content_writeCounters, hbytes, hf', ← WalletFile.bytes_overwritten, hall]
    have hcomplete : f'.Complete := by
      rw [hf']
      exact complete_overwritten hf (hmode.trans hview) hw.length_data hw.valid hw.nodup hfresh
        hsize₁ hsize
    have hget' (pk : PublicKey) : g₁.wallet.walletRecords[pk]? =
        f'.records.find? fun r ↦ r.spendPublicKey = pk := by
      rw [hw.get]
      change (w.walletRecords[pk]?).or _ = _
      rw [hget, ← List.find?_append]
      exact congrArg _ List.map_append.symm
    have hregular' : g₁.writeCounters.wallet.Regular crypto := by
      rw [Generating.writeCounters_wallet]
      exact hregular.withFile _
    have hkey' : w.walletKey = g₁.writeCounters.wallet.walletKey := by
      rw [Generating.writeCounters_wallet]
      exact hw.walletKey.symm
    have hmode' : f'.viewOnly = g₁.writeCounters.wallet.isViewOnly := by
      rw [Generating.writeCounters_wallet, isViewOnly_withFile, hview₁]
      exact hmode.trans hview
    rw [← Generating.writeCounters_walletRecords] at hget'
    exact ⟨hregular', w.walletKey, f', hkey', hcomplete, hmode', hoverwritten, hget'⟩
  · cases he

/-- The file that a wallet saves. -/
def Regular.savedFile (h : w.Regular crypto) (ivs : ℕ → Chacha8Iv) :
    WalletFile crypto w.walletKey where
  toWalletImage := w.savedImage h.viewKeysMatch ivs
  viewOnly := w.isViewOnly
  valid := by
    intro e he
    obtain ⟨t, hsound⟩ := h.sound
    obtain ⟨r, hr, rfl⟩ := List.mem_map.mp he
    obtain ⟨⟨r', i⟩, hr', rfl⟩ := List.mem_map.mp hr
    rw [decryptKeyPair_encryptKeyPair]
    exact h.valid _ _ ((mem_recordsToSave hsound).mp (List.fst_mem_of_mem_zipIdx hr'))

theorem Regular.records_savedFile (h : w.Regular crypto) (ivs : ℕ → Chacha8Iv) :
    (h.savedFile ivs).records = w.recordsToSave := by
  change (w.savedImage h.viewKeysMatch ivs).records = _
  rw [savedImage, records_ofRecords, List.map_map]
  exact List.zipIdx_map_fst 0 w.recordsToSave

theorem Regular.complete_savedFile (h : w.Regular crypto) (ivs : ℕ → Chacha8Iv)
    (hsize : w.walletRecords.size < 2 ^ 64) : (h.savedFile ivs).Complete := by
  obtain ⟨t, hsound⟩ := h.sound
  constructor
  · have hlength : w.recordsToSave.length = w.walletRecords.size := (length_recordsToSave hsound :)
    rw [← WalletImage.length_records, h.records_savedFile, hlength]
    change (w.savedImage h.viewKeysMatch ivs).count = _
    rw [savedImage, count_ofRecords hsize]
  · rw [h.records_savedFile]
    exact (nodup_recordsToSave hsound :)

private theorem Regular.filed_of_content (h : w.Regular crypto) (hsize : w.walletRecords.size < 2 ^ 64)
    (ivs : ℕ → Chacha8Iv) (hfile : w.file.content = (h.savedFile ivs).bytes) : w.Filed crypto := by
  obtain ⟨t, hsound⟩ := h.sound
  refine ⟨h, w.walletKey, h.savedFile ivs, rfl, h.complete_savedFile ivs hsize, rfl, hfile, ?_⟩
  intro pk
  rw [h.records_savedFile]
  exact (find?_recordsToSave hsound pk :).symm

private theorem Regular.filed_of_saveAndCheck {env : WalletEnv} (h : w.Regular env.toWalletCrypto)
    (hsize : w.walletRecords.size < 2 ^ 64) {ivs : ℕ → Chacha8Iv}
    (hsave : w.saveAndCheck env ivs = .ok w') : w'.Filed env.toWalletCrypto := by
  have hcomplete := h.complete_savedFile ivs hsize
  have hpos : (h.savedFile ivs).count ≠ 0 := by
    rw [hcomplete.count, ← WalletImage.length_records, h.records_savedFile]
    exact Nat.succ_ne_zero _
  obtain ⟨p, hload⟩ := (h.savedFile ivs).load_bytes
    (w := blank env.toWalletCrypto (w.path ++ ".tmp") w.password) [] h.walletKey.symm hpos
    hcomplete.count.le
  have hcontent : (w.save env.toWalletCrypto ivs false).content = (h.savedFile ivs).bytes :=
    save_content h.viewKeysMatch ivs
  obtain ⟨other, hopen, hrest⟩ := bind_eq_ok.mp hsave
  obtain ⟨_, -, hok⟩ := bind_eq_ok.mp hrest
  obtain rfl := Except.ok.inj hok
  rw [openFile, hcontent, ← List.append_nil (h.savedFile ivs).bytes] at hopen
  obtain rfl := Except.ok.inj (hload.symm.trans hopen)
  have hbytes : ((h.savedFile ivs).cut (h.savedFile ivs).count).bytes = (h.savedFile ivs).bytes := by
    rw [hcomplete.count, (h.savedFile ivs).bytes_cut_append (h.savedFile ivs).encrypted.length,
      List.drop_length, List.flatMap_nil, List.append_nil]
  exact (h.withFile _).filed_of_content hsize ivs hbytes

variable {env : WalletEnv}

/-- A call of `saveAndCheck` at the end of another one. -/
theorem Regular.filed_of_saved (h : w.Regular env.toWalletCrypto)
    (hsize : w.walletRecords.size < 2 ^ 64) {ivs : ℕ → Chacha8Iv}
    (hsaved : w.saved env ivs = (w', none)) : w'.Filed env.toWalletCrypto := by
  rw [saved] at hsaved
  cases hsave : w.saveAndCheck env ivs with
  | error e =>
    rw [hsave] at hsaved
    cases hsaved
  | ok w₁ =>
    rw [hsave] at hsaved
    obtain rfl := (Prod.mk.inj hsaved).1
    exact h.filed_of_saveAndCheck hsize hsave

private theorem filed_of_save_load (h : w.Sound env.toWalletCrypto) (hsize : w.walletRecords.size < 2 ^ 64)
    {ivs : ℕ → Chacha8Iv}
    (hw' : (do
      let w₁ ← w.saveAndCheck env ivs
      w₁.load env w₁.file.content) = .ok w') : w'.Filed env.toWalletCrypto := by
  obtain ⟨file, hfile, hsave⟩ := saveAndCheck_eq_ok h hsize ivs
  rw [hsave, ok_bind] at hw'
  dsimp only at hw'
  have hsame : ({ w with file := file } : Wallet).walletRecords = ∅ ∨
      ({ w with file := file } : Wallet).walletRecords = w.walletRecords := .inr rfl
  obtain ⟨file', hfile', hload⟩ := load_save h hsize ivs (show ({ w with file := file } : Wallet).walletKey =
    w.walletKey from rfl) hsame (Std.le_refl _)
  rw [hfile, hload] at hw'
  obtain rfl := Except.ok.inj hw'
  exact (h.toRegular.withFile file').filed_of_content hsize ivs
    (hfile'.trans (save_content h.viewKeysMatch ivs))

theorem Created.filed (h : Created env w) : w.Filed env.toWalletCrypto := by
  obtain ⟨w₀, ivs, hsound, hsize, hsave⟩ := h.saved
  exact filed_of_save_load hsound hsize hsave

/-! ## Calls -/

/-- `generate_new_addresses` up to its last write to the file leaves the records as they are just if
it is idle. -/
theorem Regular.appendNewAddresses_same_iff {crypto : WalletCrypto} (h : w.Regular crypto)
    {requests : List (AddressRequest crypto)} {ct now : Timestamp} {g : Generating}
    {e : Option WalletError} (hcall : w.appendNewAddresses requests ct now = (g, e)) :
    g.wallet.Regular crypto ∧ (g.wallet.walletRecords = w.walletRecords ↔ w.Idle requests ct) ∧
      (w.Idle requests ct → g.rescanFromCt = false ∧ (e ≠ none → ∃ file : FileStream,
        file.content = w.file.content ∧ g.wallet = { w with file := file })) := by
  obtain ⟨hview, rfl, rfl⟩ | ⟨hview, g₁, hrun, hend⟩ := appendNewAddresses_cases hcall
  · exact ⟨h, iff_of_true rfl (.inl hview), fun _ ↦ ⟨rfl, fun _ ↦ ⟨w.file, rfl, rfl⟩⟩⟩
  · set start : Wallet := { w with file := w.file.seek (walletFileSize w.walletRecords.size) }
    have hstart : start.Regular crypto := h.withFile _
    have hview' : start.isViewOnly = false := hview
    obtain ⟨⟨-, hregular, -⟩, hiff, hsame⟩ := Generating.run_same_iff hstart hview' hrun
    have hidle : g₁.wallet.walletRecords = w.walletRecords ↔ w.Idle requests ct := by
      refine hiff.trans ⟨.inr, ?_⟩
      rintro (hyes | hall)
      · rw [hview] at hyes
        cases hyes
      · exact hall
    rcases hend with ⟨rfl, rfl⟩ | ⟨⟨e', rfl⟩, rfl⟩
    · rw [Generating.writeCounters_walletRecords, Generating.writeCounters_rescanFromCt,
        Generating.writeCounters_wallet]
      refine ⟨hregular.withFile _, hidle, fun hi ↦ ⟨(hsame (hidle.mpr hi)).2, fun hne ↦ ?_⟩⟩
      exact absurd rfl hne
    · refine ⟨hregular, hidle, fun hi ↦ ?_⟩
      obtain ⟨hwallet, hrescan⟩ := hsame (hidle.mpr hi)
      exact ⟨hrescan, fun _ ↦ ⟨start.file, rfl, hwallet⟩⟩

/-- A call that returns leaves its records in the file. -/
theorem Filed.generated (h : w.Filed env.toWalletCrypto)
    {requests : List (AddressRequest env.toWalletCrypto)} {ct now : Timestamp}
    {ivs : ℕ → Chacha8Iv} {g : Generating}
    (hcall : w.generateNewAddresses env requests ct now ivs = (g, none))
    (hsize : g.wallet.walletRecords.size < 2 ^ 64) : g.wallet.Filed env.toWalletCrypto := by
  rw [generateNewAddresses] at hcall
  rcases happend : w.appendNewAddresses requests ct now with ⟨g₁, _ | e⟩
  · rw [happend] at hcall
    dsimp only at hcall
    by_cases hrescan : g₁.rescanFromCt = true
    · rw [if_pos hrescan] at hcall
      obtain ⟨hregular, -⟩ := h.toRegular.appendNewAddresses_same_iff happend
      obtain ⟨rfl, hnone⟩ := Prod.mk.inj hcall
      rw [saved_walletRecords] at hsize
      exact hregular.filed_of_saved hsize (Prod.ext rfl hnone)
    · rw [if_neg hrescan] at hcall
      obtain rfl := (Prod.mk.inj hcall).1
      exact h.appended happend (Bool.eq_false_iff.mpr hrescan) hsize
  · rw [happend] at hcall
    cases hcall

/-- A call that throws changes nothing: neither what the wallet has in memory nor what a later load
reads from the file. -/
structure Unchanged (env : WalletEnv) (w w' : Wallet) : Prop extends SameMemory w w' where
  loads : (openFile env w.path w.password w'.file.content).map (·.walletRecords) =
    (openFile env w.path w.password w.file.content).map (·.walletRecords)

private theorem unchanged_withFile {file : FileStream} (h : file.content = w.file.content) :
    w.Unchanged env { w with file := file } where
  walletRecords := rfl
  firstRecord := rfl
  oldestTimestamp := rfl
  loads := by rw [h]

/-- A call that throws leaves the records as they are just if it was idle, and then it has moved
nothing but the position in the file. -/
private theorem Regular.failed_iff (h : w.Regular env.toWalletCrypto)
    {requests : List (AddressRequest env.toWalletCrypto)} {ct now : Timestamp}
    {ivs : ℕ → Chacha8Iv} {g : Generating} {e : WalletError}
    (hcall : w.generateNewAddresses env requests ct now ivs = (g, some e)) :
    (g.wallet.walletRecords = w.walletRecords ↔ w.Idle requests ct) ∧
      (w.Idle requests ct → ∃ file : FileStream, file.content = w.file.content ∧
        g.wallet = { w with file := file }) := by
  rw [generateNewAddresses] at hcall
  rcases happend : w.appendNewAddresses requests ct now with ⟨g₁, _ | e₁⟩
  · obtain ⟨-, hiff, hidle⟩ := h.appendNewAddresses_same_iff happend
    rw [happend] at hcall
    dsimp only at hcall
    by_cases hrescan : g₁.rescanFromCt = true
    · -- the call has come to its last save, so a known record was lowered
      rw [if_pos hrescan] at hcall
      obtain ⟨rfl, -⟩ := Prod.mk.inj hcall
      rw [saved_walletRecords]
      refine ⟨hiff, fun hi ↦ ?_⟩
      rw [(hidle hi).1] at hrescan
      cases hrescan
    · rw [if_neg hrescan] at hcall
      cases hcall
  · obtain ⟨-, hiff, hidle⟩ := h.appendNewAddresses_same_iff happend
    rw [happend] at hcall
    obtain ⟨rfl, -⟩ := Prod.mk.inj hcall
    exact ⟨hiff, fun hi ↦ (hidle hi).2 (Option.some_ne_none _)⟩

/-! ## Runs -/

/-- A wallet that is opened from a file with all its records, whatever stands behind them. -/
def Reopened (env : WalletEnv) (w : Wallet) : Prop :=
  ∃ path password, ∃ f : WalletFile env.toWalletCrypto (env.generateChacha8Key password), ∃ junk,
    f.Complete ∧ openFile env path password (f.bytes ++ junk) = .ok w

/-- A call that returns, or that had nothing to do before it threw. -/
def Undisturbed (env : WalletEnv) (w : Wallet) (op : WalletOp env) : Prop :=
  (w.perform env op).1.walletRecords.size < 2 ^ 64 ∧ ((w.perform env op).2 = none ∨
    ∃ requests ct now ivs, op = .generateNewAddresses requests ct now ivs ∧ w.Idle requests ct)

/-- The wallets in which no call has failed halfway. -/
abbrev UndisturbedWallet (env : WalletEnv) : Wallet → Prop :=
  Reaches (Wallet.step env) (Undisturbed env) fun w ↦ Created env w ∨ Reopened env w

theorem Reopened.filed (h : Reopened env w) : w.Filed env.toWalletCrypto := by
  obtain ⟨path, password, f, junk, hf, hopen⟩ := h
  have hpos : f.count ≠ 0 := by
    intro hzero
    rw [f.openFile_of_count_eq_zero hzero] at hopen
    cases hopen
  obtain ⟨w', hopen', hw⟩ := f.openFile_bytes path hpos hf.count.le junk
  obtain rfl := Except.ok.inj (hopen'.symm.trans hopen)
  obtain ⟨p, hload⟩ := f.load_bytes (w := blank env.toWalletCrypto path password) junk rfl hpos
    hf.count.le
  have hblank := Except.ok.inj (hopen'.symm.trans hload)
  have hmode := hf.isViewOnly hpos hw
  have hget (pk : PublicKey) := hw.get pk
  rw [hf.take_records] at hget
  have hmem {pk : PublicKey} {r : WalletRecord} (hr : w'.walletRecords[pk]? = some r) :
      r ∈ f.records ∧ r.spendPublicKey = pk := by
    rw [hget] at hr
    exact ⟨List.mem_of_find?_eq_some hr, of_decide_eq_true (List.find?_some hr :)⟩
  refine ⟨⟨?_, ?_, fun pk r hr ↦ (hmem hr).2, fun pk r hr ↦ ?_, ?_⟩, _, f, hw.walletKey.symm, hf,
    hmode.symm, hf.content_eq hw, hget⟩
  · rw [hblank]
    rfl
  · rw [hblank]
    exact f.viewKeysMatch
  · obtain ⟨e, he, rfl⟩ := List.mem_map.mp (hmem hr).1
    rw [hmode]
    exact f.valid e he
  · obtain ⟨r, hr⟩ : ∃ r, f.records.head? = some r := by
      rw [← Option.isSome_iff_exists, List.isSome_head?, ← List.length_pos_iff, f.length_records,
        ← hf.count]
      exact Nat.pos_of_ne_zero hpos
    have hfirst : w'.firstRecord = r := by
      rw [hw.firstRecord, hf.take_records, hr, Option.getD_some]
    obtain ⟨rest, hrest⟩ := List.head?_eq_some_iff.mp hr
    rw [hget, hfirst, hrest]
    exact List.find?_cons_of_pos (decide_eq_true rfl)

/-- **Step lemma.** -/
theorem Filed.perform (h : w.Filed env.toWalletCrypto) {op : WalletOp env}
    (hop : Undisturbed env w op) : (w.perform env op).1.Filed env.toWalletCrypto := by
  obtain ⟨hsize, hnone⟩ := hop
  cases op with
  | generateNewAddresses requests ct now ivs =>
    rcases hcall : w.generateNewAddresses env requests ct now ivs with ⟨g, _ | e⟩
    · rw [Wallet.perform, hcall] at hsize ⊢
      exact h.generated hcall hsize
    · rw [Wallet.perform, hcall] at hnone ⊢
      rcases hnone with hnone | ⟨_, _, _, _, heq, hidle⟩
      · cases hnone
      · cases heq
        obtain ⟨file, hfile, hwallet⟩ := (h.toRegular.failed_iff hcall).2 hidle
        dsimp only
        rw [hwallet]
        exact h.withFile file hfile
  | onFirstOutputFound ts ivs =>
    have hnone : (w.onFirstOutputFound env ts ivs).2 = none := by
      rcases hnone with hnone | ⟨_, _, _, _, heq, -⟩
      · exact hnone
      · cases heq
    change (w.onFirstOutputFound env ts ivs).1.Filed env.toWalletCrypto
    change (w.onFirstOutputFound env ts ivs).1.walletRecords.size < 2 ^ 64 at hsize
    rw [onFirstOutputFound] at hnone hsize ⊢
    split_ifs with hts
    · exact h
    · rw [if_neg hts] at hnone hsize
      dsimp only at hnone hsize ⊢
      rw [saved_walletRecords] at hsize
      refine Regular.filed_of_saved (h.toRegular.raise (fun r ↦ ?_) (fun r ↦ ?_) ts) hsize
        (Prod.ext rfl hnone)
      · split_ifs <;> rfl
      · split_ifs <;> rfl
  | setPassword password ivs =>
    have hnone : (w.setPassword env password ivs).2 = none := by
      rcases hnone with hnone | ⟨_, _, _, _, heq, -⟩
      · exact hnone
      · cases heq
    change (w.setPassword env password ivs).1.Filed env.toWalletCrypto
    change (w.setPassword env password ivs).1.walletRecords.size < 2 ^ 64 at hsize
    rw [setPassword] at hnone hsize ⊢
    rw [saved_walletRecords] at hsize
    have hregular : Regular env.toWalletCrypto { w with
        password := password
        walletKey := env.generateChacha8Key password } :=
      ⟨rfl, h.viewKeysMatch, h.filed, h.valid, h.first⟩
    exact hregular.filed_of_saved hsize (Prod.ext rfl hnone)

/-- **Run lemma.** As long as no call fails halfway, the file holds what the wallet has in memory. -/
private theorem filed_of_undisturbed (h : UndisturbedWallet env w) : w.Filed env.toWalletCrypto := by
  refine h.invariant ?_ ?_
  · rintro w (hcreated | hreopened)
    · exact hcreated.filed
    · exact hreopened.filed
  · rintro w op w' - hfiled hop hstep
    obtain rfl := Except.ok.inj hstep
    exact hfiled.perform hop

end Wallet

/-- **Calls that fail.** A call that throws leaves the records in memory and those that a later load
reads from the file as they were, and the next call that returns leaves every record in memory on
disk, if and only if the call had nothing to do before it threw. -/
theorem generateNewAddresses_unchanged_iff {env : WalletEnv} {w : Wallet}
    (h : Wallet.UndisturbedWallet env w) {requests : List (AddressRequest env.toWalletCrypto)}
    {ct now : Timestamp} {ivs : ℕ → Chacha8Iv} {g : Generating} {e : WalletError}
    (hcall : w.generateNewAddresses env requests ct now ivs = (g, some e)) :
    (w.Unchanged env g.wallet ∧ ∀ requests' ct' now' ivs' g',
        g.wallet.generateNewAddresses env requests' ct' now' ivs' = (g', none) →
          g'.wallet.walletRecords.size < 2 ^ 64 → g'.wallet.Stored env) ↔
      w.Idle requests ct := by
  have hfiled := Wallet.filed_of_undisturbed h
  obtain ⟨hiff, hidle⟩ := hfiled.toRegular.failed_iff hcall
  constructor
  · rintro ⟨hsame, -⟩
    exact hiff.mp hsame.walletRecords
  · intro hi
    obtain ⟨file, hfile, hwallet⟩ := hidle hi
    rw [hwallet]
    refine ⟨Wallet.unchanged_withFile hfile, fun requests' ct' now' ivs' g' hcall' hsize ↦ ?_⟩
    exact ((hfiled.withFile file hfile).generated hcall' hsize).stored

/-! ## A sample -/

/-- Cryptography in which a secret key is its own public key, and the key 7 is not valid. -/
def refusingWalletEnv : WalletEnv :=
  { sampleWalletEnv with secretKeyToPublicKey := fun sk ↦ if sk = 7 then none else some sk }

/-- A new wallet with the key 2 that was made at time 100. -/
def refusingCreate : Except WalletError Wallet :=
  Wallet.create refusingWalletEnv "" [] false 100 ⟨1, 1, by decide, by decide⟩
    ⟨2, 2, by decide, by decide⟩ fun _ ↦ 0

/-- The key of the wallet is imported again with its own timestamp, and then an invalid key. -/
theorem generateNewAddresses_unchanged_iff_sample : ∃ w, ∃ g : Generating,
    Wallet.UndisturbedWallet refusingWalletEnv w ∧ w.Unchanged refusingWalletEnv g.wallet ∧
      (w.generateNewAddresses refusingWalletEnv [⟨2, [], 0⟩, ⟨7, [], 0⟩] 100 200 fun _ ↦ 0).1 = g := by
  obtain ⟨w, hcreate, hthrows, hknown⟩ : ∃ w ∈ refusingCreate.toOption,
      (w.generateNewAddresses refusingWalletEnv [⟨2, [], 0⟩, ⟨7, [], 0⟩] 100 200 fun _ ↦ 0).2 ≠
        none ∧
      w.walletRecords[(2 : PublicKey)]? = some ⟨2, 2, 100⟩ := by
    simp only [refusingCreate, Wallet.create, Wallet.generateNewAddresses, Wallet.saved,
      Wallet.saveAndCheck_eq_image]
    decide +kernel
  have hreach : Wallet.UndisturbedWallet refusingWalletEnv w :=
    .start (.inl (.inl ⟨_, _, _, _, _, _, _, toOption_eq_some.mp hcreate⟩))
  rcases hcall : w.generateNewAddresses refusingWalletEnv [⟨2, [], 0⟩, ⟨7, [], 0⟩] 100 200
    fun _ ↦ 0 with ⟨g, _ | e⟩
  · rw [hcall] at hthrows
    exact absurd rfl hthrows
  · have hidle : w.Idle ([⟨2, [], 0⟩, ⟨7, [], 0⟩] :
        List (AddressRequest refusingWalletEnv.toWalletCrypto)) 100 := by
      refine .inr fun request hr ↦ ?_
      have hhead : request = ⟨2, [], 0⟩ := List.mem_singleton.mp hr
      rw [hhead]
      exact ⟨by decide, 2, _, rfl, hknown, by decide⟩
    exact ⟨w, g, hreach, ((generateNewAddresses_unchanged_iff hreach hcall).mpr hidle).1,
      congrArg Prod.fst hcall⟩

/-- The key of the wallet is imported again with the timestamp 20, then a new key, and then an invalid
one. The call throws and leaves the first two in memory: the wallet is older, and it has one record
more than a later load reads. A later call returns, and the older timestamp is still not on disk. -/
theorem failed_call_changes_wallet : ∃ w ∈ refusingCreate.toOption,
    let r := w.generateNewAddresses refusingWalletEnv [⟨2, [], 0⟩, ⟨3, [], 0⟩, ⟨7, [], 0⟩] 20 200
      fun _ ↦ 0
    let r' := r.1.wallet.generateNewAddresses refusingWalletEnv [⟨4, [], 0⟩] 20 200 fun _ ↦ 0
    let loaded (w : Wallet) := (Wallet.openFile refusingWalletEnv w.path w.password
      w.file.content).toOption.map (·.walletRecords.toList)
    r.2 ≠ none ∧ r.1.wallet.oldestTimestamp ≠ w.oldestTimestamp ∧
      r.1.wallet.firstRecord ≠ w.firstRecord ∧
      r.1.wallet.walletRecords.toList ≠ w.walletRecords.toList ∧
      loaded r.1.wallet ≠ some r.1.wallet.walletRecords.toList ∧
      r'.2 = none ∧ loaded r'.1.wallet ≠ some r'.1.wallet.walletRecords.toList := by
  simp only [refusingCreate, Wallet.create, Wallet.saveAndCheck_eq_image, Wallet.generateNewAddresses,
    Wallet.appendNewAddresses, Generating.run, Generating.step, Generating.append, Generating.writeCounters,
    FileStream.write_eq_piece]
  decide +kernel

end CryoNero
