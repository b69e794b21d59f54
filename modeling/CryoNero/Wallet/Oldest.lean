import CryoNero.Wallet.Sound

/-!
# The oldest timestamp of a wallet

A wallet remembers the least timestamp of its records, because the chain is searched from there. It
is kept up to date by every call on its own: by the constructors, when a key is drawn, when a known
key is imported with an older timestamp, and when the first output is found. The import of a new key
forgets it. As long as no new key is imported that is older than the wallet, the wallet stays sound
(`sound_of_reachable`), and a timestamp that is older than the wallet is reported for a rescan.
-/

namespace CryoNero

open Store Seria Std

/-- No key that is new to the wallet is imported with a timestamp older than the wallet. -/
def Wallet.NoOlderImport {crypto : WalletCrypto} (w : Wallet)
    (requests : List (AddressRequest crypto)) (ct : Timestamp) : Prop :=
  ∀ request ∈ requests, request.secretKey ≠ 0 → ∀ pk,
    crypto.secretKeyToPublicKey request.secretKey = some pk → w.walletRecords[pk]? = none →
      w.oldestTimestamp ≤ ct

namespace Wallet.Sound

variable {crypto : WalletCrypto} {w : Wallet}

theorem withFile (h : w.Sound crypto) (file : FileStream) : Sound crypto { w with file := file } :=
  ⟨⟨h.walletKey, h.viewKeysMatch, h.filed, h.valid, h.first⟩, h.oldest⟩

private theorem oldest_le (h : w.Sound crypto) {pk : PublicKey} {r : WalletRecord}
    (hr : w.walletRecords[pk]? = some r) : w.oldestTimestamp ≤ r.creationTimestamp :=
  h.oldest.2 ⟨pk, r, hr, rfl⟩

end Wallet.Sound

namespace Generating

variable {crypto : WalletCrypto} {w₀ : Wallet} {ct now : Timestamp} {g g' : Generating}
variable {done requests : List (AddressRequest crypto)}

/-- What holds in the loop of `generate_new_addresses` on the wallet `w₀` after the requests
`done`. As long as no rescan is due the old records are as they were. -/
structure Tracks (crypto : WalletCrypto) (w₀ : Wallet) (ct : Timestamp) (g : Generating)
    (done : List (AddressRequest crypto)) : Prop where
  sound : g.wallet.Sound crypto
  viewOnly : g.wallet.isViewOnly = false
  grows : ∀ pk : PublicKey, g.wallet.walletRecords[pk]? = none → w₀.walletRecords[pk]? = none
  older : g.wallet.oldestTimestamp ≤ w₀.oldestTimestamp
  kept : g.rescanFromCt = false → ∀ (pk : PublicKey) r, w₀.walletRecords[pk]? = some r →
    g.wallet.walletRecords[pk]? = some r
  rescanned : ∀ request ∈ done, request.secretKey ≠ 0 → ct < w₀.oldestTimestamp →
    g.rescanFromCt = true
  length_result : g.result.length = done.length

theorem lowerFirst_of_ne {w : Wallet} {record : WalletRecord}
    (h : w.firstRecord.spendPublicKey ≠ record.spendPublicKey) : lowerFirst w record = w := by
  rw [lowerFirst, if_neg fun hfirst ↦ h hfirst.1]

/-- A new record keeps the wallet sound when the oldest timestamp takes it into account. -/
theorem sound_append {w : Wallet} {record : WalletRecord} {a : Timestamp} (hw : w.Sound crypto)
    (hview : w.isViewOnly = false) (hvalid : record.Valid crypto false)
    (hnew : w.walletRecords[record.spendPublicKey]? = none)
    (ha : a = min w.oldestTimestamp record.creationTimestamp) :
    Wallet.Sound crypto { w with
      walletRecords := w.walletRecords.insert record.spendPublicKey record
      oldestTimestamp := a } := by
  have hview' : Wallet.isViewOnly { w with
      walletRecords := w.walletRecords.insert record.spendPublicKey record
      oldestTimestamp := a } = false := hview
  refine ⟨⟨hw.walletKey, hw.viewKeysMatch, fun pk r hr ↦ ?_, fun pk r hr ↦ ?_, ?_⟩, ?_⟩
  · change (w.walletRecords.insert _ _)[pk]? = some r at hr
    rw [Table.get_insert] at hr
    split_ifs at hr with hpk
    · cases hr
      exact hpk
    · exact hw.filed pk r hr
  · change (w.walletRecords.insert _ _)[pk]? = some r at hr
    rw [hview']
    rw [Table.get_insert] at hr
    split_ifs at hr with hpk
    · cases hr
      exact hvalid
    · exact hview ▸ hw.valid pk r hr
  · change (w.walletRecords.insert _ _)[w.firstRecord.spendPublicKey]? = some w.firstRecord
    rw [Table.get_insert_of_ne]
    · exact hw.first
    · intro hpk
      rw [hpk, hw.first] at hnew
      cases hnew
  · subst ha
    refine isLeast_insert hw.oldest fun old hold ↦ ?_
    rw [hnew] at hold
    cases hold

/-- The first record after a record of the table was lowered: it is the lowered one when it has its
key. -/
private theorem lowerFirst_firstRecord {w : Wallet} {old record : WalletRecord} (hw : w.Regular crypto)
    (hold : w.walletRecords[record.spendPublicKey]? = some old)
    (hlt : record.creationTimestamp < old.creationTimestamp) :
    (lowerFirst w record).firstRecord =
      if w.firstRecord.spendPublicKey = record.spendPublicKey then
        { old with creationTimestamp := record.creationTimestamp }
      else w.firstRecord := by
  split_ifs with hpk
  · have hfirst := hw.first
    rw [hpk, hold] at hfirst
    obtain rfl := Option.some.inj hfirst
    rw [lowerFirst, if_pos ⟨hpk, hlt⟩]
  · rw [lowerFirst_of_ne hpk]

/-- A record that is lowered keeps the wallet sound when the first record and the oldest timestamp
follow it. -/
theorem sound_known {w : Wallet} {old record : WalletRecord} (hw : w.Sound crypto)
    (hold : w.walletRecords[record.spendPublicKey]? = some old)
    (hlt : record.creationTimestamp < old.creationTimestamp) {w' : Wallet}
    (hw' : w' = { lowerFirst w record with
      walletRecords := w.walletRecords.insert record.spendPublicKey
        { old with creationTimestamp := record.creationTimestamp }
      oldestTimestamp := min w.oldestTimestamp record.creationTimestamp }) :
    w'.Sound crypto ∧ w'.isViewOnly = w.isViewOnly := by
  set lowered : WalletRecord := { old with creationTimestamp := record.creationTimestamp }
  have hpkOld : old.spendPublicKey = record.spendPublicKey := hw.filed _ _ hold
  have hrecords : w'.walletRecords = w.walletRecords.insert record.spendPublicKey lowered := by
    rw [hw']
  have hfirst : w'.firstRecord = if w.firstRecord.spendPublicKey = record.spendPublicKey then lowered
      else w.firstRecord := by
    rw [hw']
    exact lowerFirst_firstRecord hw.toRegular hold hlt
  have hrest : w'.walletKey = w.walletKey ∧ w'.password = w.password ∧
      w'.viewPublicKey = w.viewPublicKey ∧ w'.viewSecretKey = w.viewSecretKey := by
    rw [hw', lowerFirst]
    split_ifs <;> exact ⟨rfl, rfl, rfl, rfl⟩
  obtain ⟨hkey, hpassword, hviewPublic, hviewSecret⟩ := hrest
  have hview : w'.isViewOnly = w.isViewOnly := by
    rw [Wallet.isViewOnly, hfirst, Wallet.isViewOnly]
    split_ifs with hpk
    · have hsame := hw.first
      rw [hpk, hold] at hsame
      rw [← Option.some.inj hsame]
    · rfl
  refine ⟨⟨⟨?_, ?_, fun pk r hr ↦ ?_, fun pk r hr ↦ ?_, ?_⟩, ?_⟩, hview⟩
  · rw [hkey, hpassword]
    exact hw.walletKey
  · rw [hviewPublic, hviewSecret]
    exact hw.viewKeysMatch
  · rw [hrecords, Table.get_insert] at hr
    split_ifs at hr with hpk
    · cases hr
      exact hpkOld.trans hpk
    · exact hw.filed pk r hr
  · rw [hview]
    rw [hrecords, Table.get_insert] at hr
    split_ifs at hr with hpk
    · cases hr
      exact ⟨(hw.valid _ _ hold).mode, (hw.valid _ _ hold).keysMatch, (hw.valid _ _ hold).keyIsvalid⟩
    · exact hw.valid pk r hr
  · rw [hfirst, hrecords]
    split_ifs with hpk
    · rw [show lowered.spendPublicKey = record.spendPublicKey from hpkOld]
      exact Table.get_insert_self _ _ _
    · rw [Table.get_insert_of_ne _ _ (Ne.symm hpk)]
      exact hw.first
  · rw [hrecords, hw']
    refine isLeast_insert hw.oldest fun r hr ↦ ?_
    rw [hold] at hr
    obtain rfl := Option.some.inj hr
    exact Std.le_of_lt hlt

theorem lowerFirst_of_le {w : Wallet} {old record : WalletRecord} (hw : w.Regular crypto)
    (hold : w.walletRecords[record.spendPublicKey]? = some old)
    (hle : ¬record.creationTimestamp < old.creationTimestamp) : lowerFirst w record = w := by
  rw [lowerFirst, if_neg]
  rintro ⟨hpk, hlt⟩
  have hfirst := hw.first
  rw [hpk, hold] at hfirst
  exact hle (Option.some.inj hfirst ▸ hlt)

/-- What one turn of the loop can do to a wallet. -/
inductive Turn (crypto : WalletCrypto) (ct now : Timestamp) (g : Generating)
    (request : AddressRequest crypto) (g' : Generating) : Prop
  | drawn (record : WalletRecord) (file : FileStream) : request.secretKey = 0 →
      record.Valid crypto false → g.wallet.walletRecords[record.spendPublicKey]? = none →
      record.creationTimestamp = now → g'.rescanFromCt = g.rescanFromCt →
      g'.wallet = { g.wallet with
        file := file
        walletRecords := g.wallet.walletRecords.insert record.spendPublicKey record
        oldestTimestamp := min g.wallet.oldestTimestamp now } →
      Turn crypto ct now g request g'
  | imported (record : WalletRecord) (file : FileStream) : request.secretKey ≠ 0 →
      crypto.secretKeyToPublicKey request.secretKey = some record.spendPublicKey →
      record.Valid crypto false → g.wallet.walletRecords[record.spendPublicKey]? = none →
      record.creationTimestamp = ct → g'.rescanFromCt = g.rescanFromCt →
      g'.wallet = { g.wallet with
        file := file
        walletRecords := g.wallet.walletRecords.insert record.spendPublicKey record } →
      Turn crypto ct now g request g'
  | lowered (record old : WalletRecord) : request.secretKey ≠ 0 →
      g.wallet.walletRecords[record.spendPublicKey]? = some old →
      record.creationTimestamp = ct → ct < old.creationTimestamp → g'.rescanFromCt = true →
      g'.wallet = { lowerFirst g.wallet record with
        walletRecords := g.wallet.walletRecords.insert record.spendPublicKey
          { old with creationTimestamp := ct }
        oldestTimestamp := min g.wallet.oldestTimestamp ct } →
      Turn crypto ct now g request g'
  | unchanged (pk : PublicKey) (old : WalletRecord) : request.secretKey ≠ 0 →
      crypto.secretKeyToPublicKey request.secretKey = some pk →
      g.wallet.walletRecords[pk]? = some old → ¬ct < old.creationTimestamp →
      g'.rescanFromCt = g.rescanFromCt → g'.wallet = g.wallet → Turn crypto ct now g request g'

private theorem first_ne_of_new {w : Wallet} {record : WalletRecord} (hw : w.Regular crypto)
    (hnew : w.walletRecords[record.spendPublicKey]? = none) :
    w.firstRecord.spendPublicKey ≠ record.spendPublicKey := fun hpk ↦ by
  rw [← hpk, hw.first] at hnew
  cases hnew

@[simp] theorem lowerFirst_walletRecords (w : Wallet) (record : WalletRecord) :
    (lowerFirst w record).walletRecords = w.walletRecords := by
  rw [lowerFirst]
  split_ifs <;> rfl

@[simp] theorem lowerFirst_oldestTimestamp (w : Wallet) (record : WalletRecord) :
    (lowerFirst w record).oldestTimestamp = w.oldestTimestamp := by
  rw [lowerFirst]
  split_ifs <;> rfl

theorem turn_of_step {request : AddressRequest crypto} (hg : g.wallet.Regular crypto)
    (h : g.step ct now request = .ok g') :
    Turn crypto ct now g request g' ∧ g'.result.length = g.result.length + 1 := by
  unfold step at h
  obtain ⟨⟨record, w⟩, hrequested, h⟩ := bind_eq_ok.mp h
  obtain ⟨hvalid, ⟨hsk, hnew, hct, rfl⟩ | ⟨hsk, hpk, hct, rfl⟩⟩ := requested_cases hrequested
  · have hne := first_ne_of_new hg hnew
    have hfirst : lowerFirst { g.wallet with oldestTimestamp := min g.wallet.oldestTimestamp now }
        record = { g.wallet with oldestTimestamp := min g.wallet.oldestTimestamp now } :=
      lowerFirst_of_ne hne
    simp only [hfirst, hnew] at h
    obtain rfl := Except.ok.inj h
    rw [append, List.length_append, List.length_singleton]
    exact ⟨.drawn record _ hsk hvalid hnew hct rfl rfl, rfl⟩
  · simp only [lowerFirst_walletRecords] at h
    cases hget : g.wallet.walletRecords[record.spendPublicKey]? with
    | none =>
      rw [hget, lowerFirst_of_ne (first_ne_of_new hg hget)] at h
      obtain rfl := Except.ok.inj h
      rw [append, List.length_append, List.length_singleton]
      exact ⟨.imported record _ hsk hpk hvalid hget hct rfl rfl, rfl⟩
    | some old =>
      rw [hget] at h
      obtain rfl := Except.ok.inj h
      rw [known]
      split_ifs with hlt
      · rw [List.length_append, List.length_singleton]
        refine ⟨.lowered record old hsk hget hct (hct ▸ hlt) rfl ?_, rfl⟩
        simp only [lowerFirst_walletRecords, lowerFirst_oldestTimestamp, hct]
      · rw [List.length_append, List.length_singleton]
        exact ⟨.unchanged _ old hsk hpk hget (hct ▸ hlt) rfl (lowerFirst_of_le hg hget hlt), rfl⟩

/-- One turn of the loop. -/
theorem Tracks.step {request : AddressRequest crypto} (h₀ : w₀.Sound crypto)
    (h : Tracks crypto w₀ ct g done) (himport : w₀.NoOlderImport [request] ct)
    (hstep : g.step ct now request = .ok g') : Tracks crypto w₀ ct g' (done ++ [request]) := by
  obtain ⟨hturn, hlength⟩ := turn_of_step h.sound.toRegular hstep
  have hresult : g'.result.length = (done ++ [request]).length := by
    rw [hlength, h.length_result, List.length_append, List.length_singleton]
  -- the requests before this one, and this one
  have hrescanned (hmono : g.rescanFromCt = true → g'.rescanFromCt = true)
      (hlast : request.secretKey ≠ 0 → ct < w₀.oldestTimestamp → g'.rescanFromCt = true) :
      ∀ r ∈ done ++ [request], r.secretKey ≠ 0 → ct < w₀.oldestTimestamp →
        g'.rescanFromCt = true := by
    intro r hr hsk hct
    rcases List.mem_append.mp hr with hr | hr
    · exact hmono (h.rescanned r hr hsk hct)
    · obtain rfl := List.mem_singleton.mp hr
      exact hlast hsk hct
  -- a key that was put in was not among the old ones, unless it replaces an entry of its own
  have hgrows {pk' : PublicKey} {r : WalletRecord} (pk : PublicKey)
      (hpk : (g.wallet.walletRecords.insert pk' r)[pk]? = none) :
      w₀.walletRecords[pk]? = none := by
    rw [Table.get_insert] at hpk
    split_ifs at hpk
    exact h.grows pk hpk
  have hkept {record : WalletRecord}
      (hnew : g.wallet.walletRecords[record.spendPublicKey]? = none) (hno : g.rescanFromCt = false)
      (pk : PublicKey) (r : WalletRecord) (hr : w₀.walletRecords[pk]? = some r) :
      (g.wallet.walletRecords.insert record.spendPublicKey record)[pk]? = some r := by
    have hold := h.kept hno pk r hr
    rw [Table.get_insert_of_ne]
    · exact hold
    · rintro rfl
      rw [hnew] at hold
      cases hold
  cases hturn with
  | drawn record file hsk hvalid hnew hct hrescan hwallet =>
    have hsound := sound_append h.sound h.viewOnly hvalid hnew
      (show min g.wallet.oldestTimestamp now = _ by rw [hct])
    refine ⟨?_, ?_, fun pk hpk ↦ ?_, ?_, fun hno pk r hr ↦ ?_, ?_, hresult⟩
    · rw [hwallet]
      exact hsound.withFile file
    · rw [hwallet]
      exact h.viewOnly
    · rw [hwallet] at hpk
      exact hgrows pk hpk
    · rw [hwallet]
      exact Std.le_trans Std.min_le_left h.older
    · rw [hwallet]
      exact hkept hnew (hrescan ▸ hno) pk r hr
    · exact hrescanned (fun hyes ↦ hrescan ▸ hyes) fun hne ↦ absurd hsk hne
  | imported record file hsk hpk hvalid hnew hct hrescan hwallet =>
    have hle : w₀.oldestTimestamp ≤ ct :=
      himport request List.mem_cons_self hsk _ hpk (h.grows _ hnew)
    have hmin : g.wallet.oldestTimestamp =
        min g.wallet.oldestTimestamp record.creationTimestamp := by
      rw [hct, min_eq_left_of_le (Std.le_trans h.older hle)]
    have hsound := sound_append h.sound h.viewOnly hvalid hnew hmin
    refine ⟨?_, ?_, fun pk hpk ↦ ?_, ?_, fun hno pk r hr ↦ ?_, ?_, hresult⟩
    · rw [hwallet]
      exact hsound.withFile file
    · rw [hwallet]
      exact h.viewOnly
    · rw [hwallet] at hpk
      exact hgrows pk hpk
    · rw [hwallet]
      exact h.older
    · rw [hwallet]
      exact hkept hnew (hrescan ▸ hno) pk r hr
    · exact hrescanned (fun hyes ↦ hrescan ▸ hyes) fun _ hlt ↦ absurd hlt (Std.not_lt.mpr hle)
  | lowered record old hsk hold hct hlt hrescan hwallet =>
    have hwallet' : g'.wallet = { lowerFirst g.wallet record with
        walletRecords := g.wallet.walletRecords.insert record.spendPublicKey
          { old with creationTimestamp := record.creationTimestamp }
        oldestTimestamp := min g.wallet.oldestTimestamp record.creationTimestamp } := by
      rw [hwallet, hct]
    obtain ⟨hsound, hview⟩ := sound_known h.sound hold (hct ▸ hlt) hwallet'
    refine ⟨hsound, hview.trans h.viewOnly, fun pk hpk ↦ ?_, ?_, fun hno ↦ ?_, ?_, hresult⟩
    · rw [hwallet] at hpk
      exact hgrows pk hpk
    · rw [hwallet]
      exact Std.le_trans Std.min_le_left h.older
    · rw [hrescan] at hno
      cases hno
    · exact fun _ _ _ _ ↦ hrescan
  | unchanged pk old hsk hpk hold hle hrescan hwallet =>
    refine ⟨hwallet ▸ h.sound, hwallet ▸ h.viewOnly, hwallet ▸ h.grows, hwallet ▸ h.older,
      fun hno ↦ hwallet ▸ h.kept (hrescan ▸ hno), hrescanned (fun hyes ↦ hrescan ▸ hyes) ?_, hresult⟩
    intro hne hlt
    by_contra hno
    rw [Bool.not_eq_true, hrescan] at hno
    -- the key is an old one, and its record is still as old as it was
    cases hget : w₀.walletRecords[pk]? with
    | none => exact absurd hlt (Std.not_lt.mpr (himport request List.mem_cons_self hsk pk hpk hget))
    | some r =>
      have hsame := h.kept hno pk r hget
      rw [hold] at hsame
      obtain rfl := Option.some.inj hsame
      exact hle (Std.lt_of_lt_of_le hlt (h₀.oldest_le hget))

/-- The loop up to its end or to the request that it throws at. -/
theorem Tracks.run (h₀ : w₀.Sound crypto) (h : Tracks crypto w₀ ct g done)
    (himport : w₀.NoOlderImport requests ct) {e : Option WalletError}
    (hrun : run ct now requests g = (g', e)) :
    ∃ n, Tracks crypto w₀ ct g' (done ++ requests.take n) ∧ n ≤ requests.length := by
  induction requests generalizing g done with
  | nil =>
    cases hrun
    exact ⟨0, by simpa using h, le_rfl⟩
  | cons request requests ih =>
    unfold Generating.run at hrun
    cases hstep : g.step ct now request with
    | error e' =>
      rw [hstep] at hrun
      cases hrun
      exact ⟨0, by simpa using h, Nat.zero_le _⟩
    | ok g₁ =>
      rw [hstep] at hrun
      have himport₁ : w₀.NoOlderImport [request] ct := fun r hr ↦
        himport r (List.mem_cons.mpr (.inl (List.mem_singleton.mp hr)))
      have himport₂ : w₀.NoOlderImport requests ct := fun r hr ↦
        himport r (List.mem_cons_of_mem _ hr)
      obtain ⟨n, hn, hle⟩ := ih (h.step h₀ himport₁ hstep) himport₂ hrun
      refine ⟨n + 1, ?_, by simpa using hle⟩
      rwa [List.append_assoc] at hn

private theorem run_error {e : WalletError} (hrun : run ct now requests g = (g', some e)) :
    e ≠ recordsDoNotMatch := by
  induction requests generalizing g with
  | nil => cases hrun
  | cons request requests ih =>
    unfold Generating.run at hrun
    cases hstep : g.step ct now request with
    | ok g₁ =>
      rw [hstep] at hrun
      exact ih hrun
    | error e' =>
      rw [hstep] at hrun
      obtain rfl := Option.some.inj (Prod.mk.inj hrun).2
      rw [step, bind_eq_error] at hstep
      rcases hstep with hrequested | ⟨⟨record, w⟩, -, hmatch⟩
      · unfold requested at hrequested
        split_ifs at hrequested with hzero
        · rcases bind_eq_error.mp hrequested with hdraw | ⟨keys, -, hpure⟩
          · unfold drawKeypair orFail at hdraw
            split at hdraw
            · cases hdraw
            · cases hdraw
              exact fun h ↦ by cases h
          · cases hpure
        · split at hrequested
          · cases hrequested
          · cases hrequested
            exact fun h ↦ by injection h with hcode; cases hcode
      · dsimp only at hmatch
        split at hmatch <;> cases hmatch

end Generating

namespace Wallet

variable {env : WalletEnv} {w : Wallet}

theorem saved_eq (h : w.Sound env.toWalletCrypto) (hsize : w.walletRecords.size < 2 ^ 64)
    (ivs : ℕ → Chacha8Iv) : ∃ file, w.saved env ivs = ({ w with file := file }, none) := by
  obtain ⟨file, -, hsave⟩ := saveAndCheck_eq_ok h hsize ivs
  exact ⟨file, by rw [saved, hsave]⟩

/-- A save leaves the records as they are. -/
theorem saved_walletRecords (env : WalletEnv) (w : Wallet) (ivs : ℕ → Chacha8Iv) :
    (w.saved env ivs).1.walletRecords = w.walletRecords := by
  rw [saved]
  split
  · next w' hw' =>
    obtain ⟨other, -, hsave⟩ := bind_eq_ok.mp hw'
    obtain ⟨-, -, hpure⟩ := bind_eq_ok.mp hsave
    cases hpure
    rfl
  · rfl

/-- The loop of `generate_new_addresses` and its last writes keep a wallet sound, and report every
imported key that is older than the wallet was. -/
private theorem appendNewAddresses_spec {crypto : WalletCrypto} (h : w.Sound crypto)
    {requests : List (AddressRequest crypto)} {ct now : Timestamp}
    (himport : w.NoOlderImport requests ct) {g : Generating} {e : Option WalletError}
    (hg : w.appendNewAddresses requests ct now = (g, e)) :
    g.wallet.Sound crypto ∧ e ≠ some recordsDoNotMatch ∧
      ∀ request ∈ requests.take g.result.length, request.secretKey ≠ 0 →
        ct < w.oldestTimestamp → g.rescanFromCt = true := by
  obtain ⟨-, rfl, rfl⟩ | ⟨hview, g₁, hrun, hend⟩ := appendNewAddresses_cases hg
  · refine ⟨h, ?_, by simp⟩
    intro hsame
    injection Option.some.inj hsame with hcode
    cases hcode
  · have hstart : Generating.Tracks crypto w ct { wallet :=
        { w with file := w.file.seek (walletFileSize w.walletRecords.size) } }
        ([] : List (AddressRequest crypto)) :=
      ⟨h.withFile _, hview, fun _ hpk ↦ hpk, Std.le_refl _, fun _ _ _ hr ↦ hr, by simp, rfl⟩
    obtain ⟨n, htracks, hn⟩ := hstart.run h himport hrun
    have hlength : g₁.result.length = n := by
      rw [htracks.length_result, List.nil_append, List.length_take, Nat.min_eq_left hn]
    have hrescanned := htracks.rescanned
    rw [List.nil_append, ← hlength] at hrescanned
    rcases hend with ⟨rfl, rfl⟩ | ⟨⟨e', rfl⟩, rfl⟩
    · rw [Generating.writeCounters]
      exact ⟨htracks.sound.withFile _, (Option.some_ne_none _).symm, hrescanned⟩
    · refine ⟨htracks.sound, fun hsame ↦ ?_, hrescanned⟩
      exact Generating.run_error hrun (Option.some.inj hsame)

private theorem generateNewAddresses_spec (h : w.Sound env.toWalletCrypto)
    {requests : List (AddressRequest env.toWalletCrypto)} {ct now : Timestamp}
    {ivs : ℕ → Chacha8Iv} (himport : w.NoOlderImport requests ct) {g : Generating}
    {e : Option WalletError} (hg : w.generateNewAddresses env requests ct now ivs = (g, e))
    (hsize : g.wallet.walletRecords.size < 2 ^ 64) :
    g.wallet.Sound env.toWalletCrypto ∧ e ≠ some recordsDoNotMatch ∧
      ∀ request ∈ requests.take g.result.length, request.secretKey ≠ 0 →
        ct < w.oldestTimestamp → g.rescanFromCt = true := by
  unfold generateNewAddresses at hg
  rcases happend : w.appendNewAddresses requests ct now with ⟨g₁, _ | e₁⟩
  · obtain ⟨hsound, -, hrescanned⟩ := appendNewAddresses_spec h himport happend
    rw [happend] at hg
    dsimp only at hg
    split_ifs at hg with hrescan
    · obtain ⟨rfl, rfl⟩ := Prod.mk.inj hg
      rw [saved_walletRecords] at hsize
      obtain ⟨file, hsaved⟩ := saved_eq hsound hsize ivs
      rw [hsaved]
      exact ⟨hsound.withFile file, (Option.some_ne_none _).symm, hrescanned⟩
    · obtain ⟨rfl, rfl⟩ := Prod.mk.inj hg
      exact ⟨hsound, (Option.some_ne_none _).symm, hrescanned⟩
  · obtain ⟨hsound, hne, hrescanned⟩ := appendNewAddresses_spec h himport happend
    rw [happend] at hg
    obtain ⟨rfl, rfl⟩ := Prod.mk.inj hg
    exact ⟨hsound, hne, hrescanned⟩

/-! ## Runs -/

/-- A call that imports no new key older than the wallet. -/
def NoOlderImports (w : Wallet) : WalletOp env → Prop
  | .generateNewAddresses requests ct _ _ => w.NoOlderImport requests ct
  | _ => True

/-- The calls of the runs that are considered: no new key that is imported is older than the wallet,
and the number of records fits the counters. -/
def Careful (env : WalletEnv) (w : Wallet) (op : WalletOp env) : Prop :=
  w.NoOlderImports op ∧ (w.perform env op).1.walletRecords.size < 2 ^ 64

/-- The wallets between two calls of such a run. -/
abbrev ReachableWallet (env : WalletEnv) : Wallet → Prop :=
  Reaches (Wallet.step env) (Careful env) (Created env)

private theorem isLeast_raise {t : Table PublicKey WalletRecord} {a ts : Timestamp}
    (h : IsLeast (timestamps t) a) (hlt : a < ts) :
    IsLeast (timestamps (t.map fun _ r ↦
      if r.creationTimestamp < ts then { r with creationTimestamp := ts } else r)) ts := by
  constructor
  · obtain ⟨⟨pk, r, hr, rfl⟩, -⟩ := h
    refine ⟨pk, _, by rw [ExtTreeMap.getElem?_map, hr, Option.map_some], ?_⟩
    rw [if_pos hlt]
  · rintro _ ⟨pk, r, hr, rfl⟩
    rw [ExtTreeMap.getElem?_map, Option.map_eq_some_iff] at hr
    obtain ⟨r, -, rfl⟩ := hr
    split_ifs with hlow
    · exact Std.le_refl _
    · exact Std.not_lt.mp hlow

private theorem onFirstOutputFound_spec (h : w.Sound env.toWalletCrypto)
    (hsize : w.walletRecords.size < 2 ^ 64) (ts : Timestamp) (ivs : ℕ → Chacha8Iv) :
    (w.onFirstOutputFound env ts ivs).1.Sound env.toWalletCrypto ∧
      (w.onFirstOutputFound env ts ivs).2 = none := by
  unfold onFirstOutputFound
  split_ifs with hts
  · exact ⟨h, rfl⟩
  · rw [not_or] at hts
    have hlt : w.oldestTimestamp < ts := Std.not_le.mp hts.2
    set raise : WalletRecord → WalletRecord := fun r ↦
      if r.creationTimestamp < ts then { r with creationTimestamp := ts } else r with hraise
    have hpk (r : WalletRecord) : (raise r).spendPublicKey = r.spendPublicKey := by
      rw [hraise]
      dsimp only
      split_ifs <;> rfl
    have hsk (r : WalletRecord) : (raise r).spendSecretKey = r.spendSecretKey := by
      rw [hraise]
      dsimp only
      split_ifs <;> rfl
    have hregular := h.toRegular.raise hpk hsk ts
    have hsound : Sound env.toWalletCrypto { w with
        oldestTimestamp := ts
        firstRecord := raise w.firstRecord
        walletRecords := w.walletRecords.map fun _ r ↦ raise r } :=
      ⟨hregular, isLeast_raise h.oldest hlt⟩
    obtain ⟨file, hsaved⟩ := saved_eq hsound (by rw [ExtTreeMap.size_map]; exact hsize) ivs
    rw [hsaved]
    exact ⟨hsound.withFile file, rfl⟩

private theorem setPassword_spec (h : w.Sound env.toWalletCrypto) (hsize : w.walletRecords.size < 2 ^ 64)
    (password : Bytes) (ivs : ℕ → Chacha8Iv) :
    (w.setPassword env password ivs).1.Sound env.toWalletCrypto ∧
      (w.setPassword env password ivs).2 = none := by
  have hsound : Sound env.toWalletCrypto { w with
      password := password
      walletKey := env.generateChacha8Key password } :=
    ⟨⟨rfl, h.viewKeysMatch, h.filed, h.valid, h.first⟩, h.oldest⟩
  obtain ⟨file, hsaved⟩ := saved_eq hsound hsize ivs
  rw [setPassword, hsaved]
  exact ⟨hsound.withFile file, rfl⟩

/-- **Step lemma.** -/
private theorem perform_spec (h : w.Sound env.toWalletCrypto) (hsize : w.walletRecords.size < 2 ^ 64)
    {op : WalletOp env} (hop : Careful env w op) :
    (w.perform env op).1.Sound env.toWalletCrypto ∧
      (w.perform env op).2 ≠ some recordsDoNotMatch := by
  cases op with
  | generateNewAddresses requests ct now ivs =>
    obtain ⟨hsound, hne, -⟩ := generateNewAddresses_spec h hop.1 rfl hop.2
    exact ⟨hsound, hne⟩
  | onFirstOutputFound ts ivs =>
    obtain ⟨hsound, hnone⟩ := onFirstOutputFound_spec h hsize ts ivs
    exact ⟨hsound, hnone ▸ (Option.some_ne_none _).symm⟩
  | setPassword password ivs =>
    obtain ⟨hsound, hnone⟩ := setPassword_spec h hsize password ivs
    exact ⟨hsound, hnone ▸ (Option.some_ne_none _).symm⟩

/-- **Run lemma.** Every reachable wallet is sound. -/
theorem sound_of_reachable (h : ReachableWallet env w) :
    w.Sound env.toWalletCrypto ∧ w.walletRecords.size < 2 ^ 64 := by
  refine h.invariant (I := fun w ↦ w.Sound env.toWalletCrypto ∧ w.walletRecords.size < 2 ^ 64)
    (fun w hw ↦ hw.sound) ?_
  rintro w op w' - ⟨hsound, hsize⟩ hop hstep
  obtain rfl := Except.ok.inj hstep
  exact ⟨(perform_spec hsound hsize hop).1, hop.2⟩

end Wallet

/-- **The wallet file and the oldest timestamp.** In every run in which no new key is imported that
is older than the wallet, the oldest timestamp is the least timestamp of the records, a wallet that
is saved is read back as it was, no call fails because of records that do not match, and a key that
is imported with a timestamp older than the wallet is reported for a rescan. -/
theorem oldestTimestamp_kept {env : WalletEnv} {w : Wallet} (h : Wallet.ReachableWallet env w) :
    IsLeast (timestamps w.walletRecords) w.oldestTimestamp ∧
      (∀ path ivs, ∃ file, Wallet.openFile env path w.password
        (w.save env.toWalletCrypto ivs false).content = .ok { w with file := file, path := path }) ∧
      (∀ op, Wallet.Careful env w op → (w.perform env op).2 ≠ some recordsDoNotMatch) ∧
      ∀ requests ct now ivs, Wallet.Careful env w (.generateNewAddresses requests ct now ivs) →
        ∀ request ∈ requests.take (w.generateNewAddresses env requests ct now ivs).1.result.length,
          request.secretKey ≠ 0 → ct < w.oldestTimestamp →
            (w.generateNewAddresses env requests ct now ivs).1.rescanFromCt = true := by
  obtain ⟨hsound, hsize⟩ := Wallet.sound_of_reachable h
  refine ⟨hsound.oldest, fun path ivs ↦ ?_, fun op hop ↦ (Wallet.perform_spec hsound hsize hop).2,
    fun requests ct now ivs hop ↦ ?_⟩
  · obtain ⟨file, -, hopen⟩ := Wallet.openFile_save hsound hsize path ivs
    exact ⟨file, hopen⟩
  · exact (Wallet.generateNewAddresses_spec hsound hop.1 rfl hop.2).2.2

/-! ## A sample -/

/-- The `i`-th key pair of the sample cryptography. -/
def sampleKeypair (i : ℕ) (h : BitVec.ofNat 256 (i + 1) ≠ 0) :
    RandomKeypair sampleWalletEnv.toWalletCrypto :=
  ⟨BitVec.ofNat 256 (i + 1), BitVec.ofNat 256 (i + 1), rfl, h⟩

/-- A new wallet that was made at time 100. -/
def sampleCreate : Except WalletError Wallet :=
  Wallet.create sampleWalletEnv "" [] false 100 (sampleKeypair 0 (by decide))
    (sampleKeypair 1 (by decide)) fun _ ↦ 0

/-- The import of a key with a timestamp. -/
def sampleImport (sk : SecretKey) (ct : Timestamp) : WalletOp sampleWalletEnv :=
  .generateNewAddresses [⟨sk, [], 0⟩] ct 200 fun _ ↦ 0

/-- The key of the wallet is imported again with the timestamp 20, which becomes the oldest one. -/
theorem oldestTimestamp_kept_sample : ∃ w, Wallet.ReachableWallet sampleWalletEnv w ∧
    w.oldestTimestamp = 20 ∧ IsLeast (timestamps w.walletRecords) 20 := by
  obtain ⟨w₀, hcreate, hknown, hsize, hoverall⟩ : ∃ w₀ ∈ sampleCreate.toOption,
      w₀.walletRecords[(2 : PublicKey)]? ≠ none ∧
      (w₀.perform sampleWalletEnv (sampleImport 2 20)).1.walletRecords.size < 2 ^ 64 ∧
      (w₀.perform sampleWalletEnv (sampleImport 2 20)).1.oldestTimestamp = 20 := by
    simp only [sampleCreate, sampleImport, Wallet.create, Wallet.perform, Wallet.generateNewAddresses,
      Wallet.saved, Wallet.saveAndCheck_eq_image]
    decide +kernel
  have hcreated : Wallet.Created sampleWalletEnv w₀ :=
    .inl ⟨_, _, _, _, _, _, _, toOption_eq_some.mp hcreate⟩
  have hcareful : Wallet.Careful sampleWalletEnv w₀ (sampleImport 2 20) := by
    refine ⟨fun request hr _ pk hpk hnew ↦ ?_, hsize⟩
    obtain rfl := List.mem_singleton.mp hr
    obtain rfl := Option.some.inj hpk
    exact absurd hnew hknown
  have hreach : Wallet.ReachableWallet sampleWalletEnv
      (w₀.perform sampleWalletEnv (sampleImport 2 20)).1 := .next (.start hcreated) hcareful rfl
  have hleast := (oldestTimestamp_kept hreach).1
  rw [hoverall] at hleast
  exact ⟨_, hreach, hoverall, hleast⟩

/-- A new key is imported with the timestamp 50. The oldest timestamp stays 100, nothing is reported
for a rescan, and the next call that saves the wallet fails. -/
theorem older_import_is_forgotten : ∃ w ∈ sampleCreate.toOption,
    let w' := (w.perform sampleWalletEnv (sampleImport 3 50)).1
    w'.oldestTimestamp = 100 ∧
      (w'.walletRecords[(3 : PublicKey)]?).map (·.creationTimestamp) = some 50 ∧
      (w.generateNewAddresses sampleWalletEnv [⟨3, [], 0⟩] 50 200 fun _ ↦ 0).1.rescanFromCt = false ∧
      (w'.perform sampleWalletEnv (.setPassword [] fun _ ↦ 0)).2 = some recordsDoNotMatch := by
  simp only [sampleCreate, Wallet.create, Wallet.perform, Wallet.setPassword, Wallet.saved,
    Wallet.saveAndCheck_eq_image]
  decide +kernel

end CryoNero
