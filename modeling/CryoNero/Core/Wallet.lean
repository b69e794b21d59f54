import CryoNero.CryptoNote
import CryoNero.Store.Files
import CryoNero.Store.Outcome

/-!
# The wallet file

A wallet keeps its view keys and a table of spend keys, each with the time from which the chain may
hold outputs for it. On disk it is a version byte, the encrypted view keys, two counters and one
encrypted record for each spend key. The first counter is called the capacity and the second one
the item count. Loading believes the smaller of the two and cuts the file off after as many records.

New addresses are appended to the file in place; everything else that changes a record writes the
whole file anew beside the old one, reads it back, compares, and only then replaces the old file
(`saveAndCheck`).

What a call throws, it throws out of the middle of its work, so the operations give the wallet as
they leave it together with the error. What the random generator yields is an argument.
-/

namespace CryoNero

open Store Seria

abbrev WalletKey := BitVec 256
abbrev Chacha8Iv := BitVec 64

/-- The cryptography of the wallet file: a stream cipher, given by the bytes it combines with the
plaintext, and the relation between secret and public keys. -/
structure WalletCrypto where
  keystream : WalletKey → Chacha8Iv → ℕ → UInt8
  generateChacha8Key : Bytes → WalletKey
  secretKeyToPublicKey : SecretKey → Option PublicKey
  keyIsvalid : PublicKey → Bool

/-- `random_keypair`: a reduced scalar with its public key. That the generator does not draw zero,
the secret key that stands for "none", is taken for granted by its callers. -/
structure RandomKeypair (crypto : WalletCrypto) where
  publicKey : PublicKey
  secretKey : SecretKey
  keys : crypto.secretKeyToPublicKey secretKey = some publicKey
  nonzero : secretKey ≠ 0

inductive WalletError
  | exception (returnCode : ℕ) (what : String)
  | streamError (what : String)
  deriving DecidableEq, Repr

namespace Api

def walletFileUnknownVersion : ℕ := 206
def walletFileDecryptError : ℕ := 207
def walletFileWriteError : ℕ := 208
def walletFileExists : ℕ := 209

end Api

/-- What `save_and_check` throws when the wallet it reads back is another one. -/
def recordsDoNotMatch : WalletError :=
  .exception Api.walletFileWriteError "Error writing wallet file - records do not match"

structure WalletRecord where
  spendPublicKey : PublicKey := 0
  spendSecretKey : SecretKey := 0
  creationTimestamp : Timestamp := 0
  deriving DecidableEq, Repr

def serializationVersionV2 : ℕ := 6
def checkKeysCount : ℕ := 100

/-! ## Encryption -/

namespace WalletCrypto

variable (crypto : WalletCrypto)

def keysMatch (sk : SecretKey) (pk : PublicKey) : Bool :=
  crypto.secretKeyToPublicKey sk = some pk

def chacha8 (data : Bytes) (key : WalletKey) (iv : Chacha8Iv) : Bytes :=
  data.mapIdx fun i b ↦ b ^^^ crypto.keystream key iv i

end WalletCrypto

/-- A record of the file in plain form. -/
structure ContainerStorageWalletRecord where
  pk : PublicKey := 0
  sk : SecretKey := 0
  ct : UInt64 := 0
  deriving DecidableEq, Repr

namespace ContainerStorageWalletRecord

def toBytes (r : ContainerStorageWalletRecord) : Bytes :=
  blobBytes 256 r.pk ++ (blobBytes 256 r.sk ++ leBytes 8 r.ct.toNat)

def ofBytes (l : Bytes) : ContainerStorageWalletRecord where
  pk := blobOfBytes 256 (l.take 32)
  sk := blobOfBytes 256 ((l.drop 32).take 32)
  ct := UInt64.ofNat (leNat (l.drop 64))

end ContainerStorageWalletRecord

structure EncryptedWalletRecord where
  iv : Chacha8Iv := 0
  data : Bytes := []
  deriving DecidableEq, Repr

/-- `sizeof(EncryptedWalletRecord)` -/
def encryptedWalletRecordSize : ℕ := 80

/-- `sizeof(ContainerStoragePrefix)`: an initialization vector that is not used any more, and the
encrypted view keys. -/
def containerStoragePrefixSize : ℕ := 88

namespace EncryptedWalletRecord

def toBytes (r : EncryptedWalletRecord) : Bytes := blobBytes 64 r.iv ++ r.data

def ofBytes (l : Bytes) : EncryptedWalletRecord := ⟨blobOfBytes 64 (l.take 8), l.drop 8⟩

end EncryptedWalletRecord

def decryptKeyPair (crypto : WalletCrypto) (r : EncryptedWalletRecord) (key : WalletKey) :
    WalletRecord :=
  let rec_ := ContainerStorageWalletRecord.ofBytes (crypto.chacha8 r.data key r.iv)
  { spendPublicKey := rec_.pk, spendSecretKey := rec_.sk, creationTimestamp := rec_.ct.toUInt32 }

def encryptKeyPair (crypto : WalletCrypto) (iv : Chacha8Iv) (record : WalletRecord)
    (key : WalletKey) : EncryptedWalletRecord :=
  let rec_ : ContainerStorageWalletRecord :=
    { pk := record.spendPublicKey, sk := record.spendSecretKey
      ct := record.creationTimestamp.toUInt64 }
  ⟨iv, crypto.chacha8 rec_.toBytes key iv⟩

/-! ## Loading -/

structure Wallet where
  file : FileStream := {}
  path : String := ""
  password : Bytes := []
  walletKey : WalletKey := 0
  viewPublicKey : PublicKey := 0
  viewSecretKey : SecretKey := 0
  firstRecord : WalletRecord := {}
  walletRecords : Table PublicKey WalletRecord := ∅
  oldestTimestamp : Timestamp := 0xFFFFFFFF

def walletFileSize (records : ℕ) : ℕ :=
  1 + containerStoragePrefixSize + 8 * 2 + encryptedWalletRecordSize * records

/-- A read from the file, which throws when the file is too short. -/
def readFile (f : FileStream) (n : ℕ) : Except WalletError (Bytes × FileStream) :=
  orFail (.streamError "IInputStream reading from empty stream") (f.read n)

def checkSpendKeys (crypto : WalletCrypto) (record : WalletRecord) : Except WalletError Unit :=
  if record.spendSecretKey ≠ 0 then
    ensure (crypto.keysMatch record.spendSecretKey record.spendPublicKey = true)
      (.exception Api.walletFileDecryptError
        "Restored spend public key doesn't correspond to secret key")
  else
    ensure (crypto.keyIsvalid record.spendPublicKey = true)
      (.exception Api.walletFileDecryptError "Public spend key is incorrect")

/-- What loading knows so far: whether the records hold no secret keys, and the wallet. -/
structure Loading where
  trackingMode : Bool := false
  wallet : Wallet

/-- The tracking mode and the first record are those of the first record of the file; all others
must be alike. -/
def Loading.checkMode (s : Loading) (i : ℕ) (record : WalletRecord) : Except WalletError Loading :=
  if i = 0 then
    pure ⟨record.spendSecretKey = 0, { s.wallet with firstRecord := record }⟩
  else do
    ensure (¬((s.trackingMode = true ∧ record.spendSecretKey ≠ 0) ∨
        (¬s.trackingMode = true ∧ record.spendSecretKey = 0)))
      (.exception Api.walletFileDecryptError "All addresses must be either tracking or not")
    pure s

/-- One turn of the loop that loads the records. Only the keys of the first and of the last records
are checked. -/
def loadRecord (crypto : WalletCrypto) (itemCount : ℕ) (s : Loading)
    (e : EncryptedWalletRecord × ℕ) : Except WalletError Loading := do
  let record := decryptKeyPair crypto e.1 s.wallet.walletKey
  let s ← s.checkMode e.2 record
  if e.2 < checkKeysCount ∨ itemCount - checkKeysCount ≤ e.2 then
    checkSpendKeys crypto record
  pure { s with wallet :=
    { s.wallet with
      oldestTimestamp := min s.wallet.oldestTimestamp record.creationTimestamp
      walletRecords := s.wallet.walletRecords.insertIfNew record.spendPublicKey record } }

/-- The bytes of the records, cut into records. -/
def splitRecords (itemCount : ℕ) (data : Bytes) : List EncryptedWalletRecord :=
  (List.range itemCount).map fun i ↦
    .ofBytes ((data.drop (encryptedWalletRecordSize * i)).take encryptedWalletRecordSize)

def Wallet.loadContainerStorage (crypto : WalletCrypto) (w : Wallet) :
    Except WalletError Wallet := do
  let (version, f) ← readFile w.file 1
  let (start, f) ← readFile f containerStoragePrefixSize
  let (itemCapacity, f) ← readFile f 8
  let (itemCount, f) ← readFile f 8
  ensure (serializationVersionV2 ≤ leNat version)
    (.exception Api.walletFileDecryptError "Wallet version too old")
  -- the timestamp that is stored with the view keys is ignored
  let viewKeys := decryptKeyPair crypto (.ofBytes (start.drop 8)) w.walletKey
  let w := { w with viewPublicKey := viewKeys.spendPublicKey, viewSecretKey := viewKeys.spendSecretKey }
  ensure (crypto.keysMatch w.viewSecretKey w.viewPublicKey = true)
    (.exception Api.walletFileDecryptError
      "Restored view public key doesn't correspond to secret key")
  -- protection against write shredding
  let itemCount := min (leNat itemCount) (leNat itemCapacity)
  let (allEncrypted, f) ← readFile f (encryptedWalletRecordSize * itemCount)
  let s ← (splitRecords itemCount allEncrypted).zipIdx.foldlM (loadRecord crypto itemCount)
    { wallet := w }
  let shouldBeFileSize := walletFileSize itemCount
  pure { s.wallet with
    file := if shouldBeFileSize < f.content.length then f.truncate shouldBeFileSize else f }

/-- A wallet with the reader of the formats before version 6, which is not looked into. -/
structure WalletEnv extends WalletCrypto where
  loadLegacyWalletFile : Wallet → Except WalletError Wallet

/-- The end of the constructor: open the file and load what it holds. -/
def Wallet.load (env : WalletEnv) (w : Wallet) (content : Bytes) : Except WalletError Wallet := do
  let w := { w with file := { content := content } }
  let (version, _) ← readFile w.file 1
  ensure (leNat version ≤ serializationVersionV2)
    (.exception Api.walletFileUnknownVersion "Unknown version")
  let w ←
    if leNat version < serializationVersionV2 then env.loadLegacyWalletFile w
    else w.loadContainerStorage env.toWalletCrypto
  ensure (w.walletRecords.isEmpty = false)
    (.exception Api.walletFileDecryptError "Error reading wallet file")
  pure w

/-- A wallet before anything is loaded or created. -/
def Wallet.blank (crypto : WalletCrypto) (path : String) (password : Bytes) : Wallet :=
  { path := path, password := password, walletKey := crypto.generateChacha8Key password }

/-- `Wallet(path, password)` for a file that exists. -/
def Wallet.openFile (env : WalletEnv) (path : String) (password : Bytes) (content : Bytes) :
    Except WalletError Wallet :=
  (Wallet.blank env.toWalletCrypto path password).load env content

/-! ## Saving -/

namespace Wallet

def isViewOnly (w : Wallet) : Bool := w.firstRecord.spendSecretKey = 0

/-- The records in the order in which they are written: the first record, then the others. -/
def recordsToSave (w : Wallet) : List WalletRecord :=
  w.firstRecord :: (w.walletRecords.toList.map Prod.snd).filter fun r ↦
    r.spendPublicKey ≠ w.firstRecord.spendPublicKey

/-- The initialization vectors that encryption draws are `ivs 0`, `ivs 1`, and so on. -/
def save (crypto : WalletCrypto) (w : Wallet) (ivs : ℕ → Chacha8Iv) (viewOnly : Bool) :
    FileStream :=
  let viewKeys : WalletRecord :=
    { spendPublicKey := w.viewPublicKey, spendSecretKey := w.viewSecretKey
      creationTimestamp := w.oldestTimestamp }
  let f := ({} : FileStream)
    |>.write (leBytes 1 serializationVersionV2)
    |>.write (blobBytes 64 0 ++ (encryptKeyPair crypto (ivs 0) viewKeys w.walletKey).toBytes)
    |>.write (leBytes 8 w.walletRecords.size)
    |>.write (leBytes 8 w.walletRecords.size)
  w.recordsToSave.zipIdx.foldl (fun f r ↦
    let record := { r.1 with spendSecretKey := if viewOnly then 0 else r.1.spendSecretKey }
    f.write (encryptKeyPair crypto (ivs (r.2 + 1)) record w.walletKey).toBytes) f

/-- `operator==`. The first record is not compared. -/
def same (w other : Wallet) : Bool :=
  w.viewPublicKey = other.viewPublicKey ∧ w.viewSecretKey = other.viewSecretKey ∧
    w.oldestTimestamp = other.oldestTimestamp ∧ w.walletRecords.toList = other.walletRecords.toList

/-- Write the whole wallet beside its file, read it back, and replace the file when both agree. -/
def saveAndCheck (env : WalletEnv) (w : Wallet) (ivs : ℕ → Chacha8Iv) :
    Except WalletError Wallet := do
  let tmpPath := w.path ++ ".tmp"
  let other ← openFile env tmpPath w.password (w.save env.toWalletCrypto ivs false).content
  ensure (w.same other = true)
    recordsDoNotMatch
  pure { w with file := other.file }

/-- A call of `saveAndCheck` at the end of another one, which leaves the wallet as it is when it
throws. -/
def saved (env : WalletEnv) (w : Wallet) (ivs : ℕ → Chacha8Iv) : Wallet × Option WalletError :=
  match w.saveAndCheck env ivs with
  | .ok w' => (w', none)
  | .error e => (w, some e)

/-! ## Creating -/

/-- The constructor for a new wallet, with the two key pairs it draws. -/
def create (env : WalletEnv) (path : String) (password : Bytes) (fileExists : Bool)
    (now : Timestamp) (viewKeys spendKeys : RandomKeypair env.toWalletCrypto)
    (ivs : ℕ → Chacha8Iv) : Except WalletError Wallet := do
  ensure (fileExists = false)
    (.exception Api.walletFileExists
      ("Will not overwrite existing wallet - delete it first or specify another file " ++ path))
  let record : WalletRecord :=
    { spendPublicKey := spendKeys.publicKey, spendSecretKey := spendKeys.secretKey
      creationTimestamp := now }
  let w := { blank env.toWalletCrypto path password with
    oldestTimestamp := now
    viewPublicKey := viewKeys.publicKey
    viewSecretKey := viewKeys.secretKey
    firstRecord := record
    walletRecords := (∅ : Table PublicKey WalletRecord).insertIfNew record.spendPublicKey record }
  let w ← w.saveAndCheck env ivs
  w.load env w.file.content

end Wallet

/-- The value of a hexadecimal digit. -/
def fromHex (character : UInt8) : Option ℕ :=
  let c := character.toNat
  if 48 ≤ c ∧ c ≤ 57 then some (c - 48)
  else if 65 ≤ c ∧ c ≤ 70 then some (c - 55)
  else if 97 ≤ c ∧ c ≤ 102 then some (c - 87)
  else none

def bytesFromHex : Bytes → Option Bytes
  | [] => some []
  | [_] => none
  | a :: b :: text => do
    let value₁ ← fromHex a
    let value₂ ← fromHex b
    let rest ← bytesFromHex text
    pure (UInt8.ofNat (16 * value₁ + value₂) :: rest)

/-- `pod_from_hex` for a key. -/
def keyFromHex (text : Bytes) : Option (BitVec 256) := do
  let bytes ← bytesFromHex text
  if bytes.length = 32 then some (blobOfBytes 256 bytes) else none

def hexDigit (n : ℕ) : Char := if n < 10 then Char.ofNat (48 + n) else Char.ofNat (87 + n)

/-- `pod_to_hex` for a key. -/
def keyToHex (key : BitVec 256) : String :=
  String.ofList ((blobBytes 256 key).flatMap fun b ↦ [hexDigit (b.toNat / 16), hexDigit (b.toNat % 16)])

/-- The view keys and the spend keys of an imported wallet. -/
structure ImportedKeys where
  viewPublicKey : PublicKey
  viewSecretKey : SecretKey
  spendPublicKey : PublicKey
  spendSecretKey : SecretKey

/-- The secret keys alone, or all four keys. A public key that cannot be computed is zero. -/
def parseImportKeys (crypto : WalletCrypto) (importKeys : Bytes) :
    Except WalletError ImportedKeys := do
  ensure (importKeys.length = 256 ∨ importKeys.length = 128)
    (.exception Api.walletFileDecryptError "Imported keys should be exactly 128 or 256 hex bytes")
  let part (i : ℕ) : Except WalletError (BitVec 256) :=
    orFail (.exception Api.walletFileDecryptError "Imported keys should contain only hex bytes")
      (keyFromHex ((importKeys.drop i).take 64))
  if importKeys.length = 128 then
    let spendSecretKey ← part 0
    let viewSecretKey ← part 64
    pure { viewPublicKey := (crypto.secretKeyToPublicKey viewSecretKey).getD 0
           viewSecretKey := viewSecretKey
           spendPublicKey := (crypto.secretKeyToPublicKey spendSecretKey).getD 0
           spendSecretKey := spendSecretKey }
  else
    let spendPublicKey ← part 0
    let viewPublicKey ← part 64
    let spendSecretKey ← part 128
    let viewSecretKey ← part 192
    pure ⟨viewPublicKey, viewSecretKey, spendPublicKey, spendSecretKey⟩

namespace Wallet

/-- The constructor for a wallet that is imported from its keys. -/
def importFrom (env : WalletEnv) (path : String) (password : Bytes) (fileExists : Bool)
    (importKeys : Bytes) (ivs : ℕ → Chacha8Iv) : Except WalletError Wallet := do
  ensure (fileExists = false)
    (.exception Api.walletFileExists
      ("Will not overwrite existing wallet - delete it first or specify another file " ++ path))
  let keys ← parseImportKeys env.toWalletCrypto importKeys
  ensure (env.keysMatch keys.viewSecretKey keys.viewPublicKey = true)
    (.exception Api.walletFileDecryptError
      "Imported secret view key does not match corresponding public key")
  ensure (¬(keys.spendSecretKey ≠ 0 ∧
      ¬env.keysMatch keys.spendSecretKey keys.spendPublicKey = true))
    (.exception Api.walletFileDecryptError
      "Imported secret spend key does not match corresponding public key")
  let record : WalletRecord :=
    { spendPublicKey := keys.spendPublicKey, spendSecretKey := keys.spendSecretKey }
  -- the record has no timestamp, so the whole chain will be scanned
  let w := { blank env.toWalletCrypto path password with
    oldestTimestamp := 0
    viewPublicKey := keys.viewPublicKey
    viewSecretKey := keys.viewSecretKey
    firstRecord := record
    walletRecords := (∅ : Table PublicKey WalletRecord).insertIfNew record.spendPublicKey record }
  let w ← w.saveAndCheck env ivs
  w.load env w.file.content

end Wallet

/-! ## New addresses -/

/-- A requested address: a secret key to import, or zero for a key to be drawn, with what the random
generator yields while it is made. -/
structure AddressRequest (crypto : WalletCrypto) where
  secretKey : SecretKey
  draws : List (RandomKeypair crypto) := []
  iv : Chacha8Iv := 0

/-- The loop of `generate_new_addresses` so far. -/
structure Generating where
  wallet : Wallet
  result : List WalletRecord := []
  rescanFromCt : Bool := false

namespace Generating

/-- Keys are drawn until one is new; a run that never sees a new one does not go on. -/
def drawKeypair {crypto : WalletCrypto} (records : Table PublicKey WalletRecord)
    (draws : List (RandomKeypair crypto)) : Except WalletError (RandomKeypair crypto) :=
  orFail (.streamError "no more random bytes") (draws.find? fun k ↦ records[k.publicKey]?.isNone)

/-- The record that a request asks for. A key that is drawn makes the wallet as old as it. -/
def requested {crypto : WalletCrypto} (w : Wallet) (ct now : Timestamp)
    (request : AddressRequest crypto) : Except WalletError (WalletRecord × Wallet) :=
  if request.secretKey = 0 then do
    let keys ← drawKeypair w.walletRecords request.draws
    pure (⟨keys.publicKey, keys.secretKey, now⟩,
      { w with oldestTimestamp := min w.oldestTimestamp now })
  else
    match crypto.secretKeyToPublicKey request.secretKey with
    | some pk => pure (⟨pk, request.secretKey, ct⟩, w)
    | none => throw (.exception 101
        ("Imported keypair is invalid - sk=" ++ keyToHex request.secretKey))

/-- The first record follows a record of the same key that is older. -/
def lowerFirst (w : Wallet) (record : WalletRecord) : Wallet :=
  if w.firstRecord.spendPublicKey = record.spendPublicKey ∧
      record.creationTimestamp < w.firstRecord.creationTimestamp then
    { w with firstRecord := { w.firstRecord with creationTimestamp := record.creationTimestamp } }
  else w

/-- A record whose key the wallet has already. -/
def known (g : Generating) (old record : WalletRecord) : Generating :=
  if record.creationTimestamp < old.creationTimestamp then
    let lowered := { old with creationTimestamp := record.creationTimestamp }
    { wallet := { g.wallet with
        walletRecords := g.wallet.walletRecords.insert record.spendPublicKey lowered
        oldestTimestamp := min g.wallet.oldestTimestamp record.creationTimestamp }
      rescanFromCt := true
      result := g.result ++ [lowered] }
  else { g with result := g.result ++ [old] }

/-- A record whose key is new is appended to the file. -/
def append (crypto : WalletCrypto) (g : Generating) (iv : Chacha8Iv) (record : WalletRecord) :
    Generating :=
  { g with
    wallet := { g.wallet with
      walletRecords := g.wallet.walletRecords.insert record.spendPublicKey record
      file := g.wallet.file.write (encryptKeyPair crypto iv record g.wallet.walletKey).toBytes }
    result := g.result ++ [record] }

/-- One turn of the loop of `generate_new_addresses`. -/
def step {crypto : WalletCrypto} (ct now : Timestamp) (g : Generating)
    (request : AddressRequest crypto) : Except WalletError Generating := do
  let (record, w) ← requested g.wallet ct now request
  let g := { g with wallet := lowerFirst w record }
  match g.wallet.walletRecords[record.spendPublicKey]? with
  | some old => pure (g.known old record)
  | none => pure (g.append crypto request.iv record)

/-- The loop, which leaves what was done so far when a request throws. -/
def run {crypto : WalletCrypto} (ct now : Timestamp) :
    List (AddressRequest crypto) → Generating → Generating × Option WalletError
  | [], g => (g, none)
  | request :: requests, g =>
    match g.step ct now request with
    | .ok g' => run ct now requests g'
    | .error e => (g, some e)

/-- Both counters are overwritten with the number of records. -/
def writeCounters (g : Generating) : Generating :=
  let size := leBytes 8 g.wallet.walletRecords.size
  { g with wallet := { g.wallet with
      file := ((g.wallet.file.seek (1 + containerStoragePrefixSize)).write size).write size } }

end Generating

namespace Wallet

/-- `generate_new_addresses` up to its last write to the file: the records are appended one after
the other, and then the counters are overwritten. -/
def appendNewAddresses {crypto : WalletCrypto} (w : Wallet)
    (requests : List (AddressRequest crypto)) (ct now : Timestamp) :
    Generating × Option WalletError :=
  if w.isViewOnly then
    ({ wallet := w }, some (.exception 101 "Generate new addresses impossible for view-only wallet"))
  else
    let start : Wallet := { w with file := w.file.seek (walletFileSize w.walletRecords.size) }
    match Generating.run ct now requests { wallet := start } with
    | (g, none) => (g.writeCounters, none)
    | (g, some e) => (g, some e)

/-- `generate_new_addresses`, with the vectors that a save at its end draws. -/
def generateNewAddresses (env : WalletEnv) (w : Wallet)
    (requests : List (AddressRequest env.toWalletCrypto)) (ct now : Timestamp)
    (ivs : ℕ → Chacha8Iv) : Generating × Option WalletError :=
  match w.appendNewAddresses requests ct now with
  | (g, some e) => (g, some e)
  | (g, none) =>
    if g.rescanFromCt then
      let (w', e) := g.wallet.saved env ivs
      ({ g with wallet := w' }, e)
    else (g, none)

/-- A wallet that was imported from its keys learns how old it is from its first output. -/
def onFirstOutputFound (env : WalletEnv) (w : Wallet) (ts : Timestamp) (ivs : ℕ → Chacha8Iv) :
    Wallet × Option WalletError :=
  if ts = 0 ∨ ts ≤ w.oldestTimestamp then (w, none)
  else
    let raise (r : WalletRecord) : WalletRecord :=
      if r.creationTimestamp < ts then { r with creationTimestamp := ts } else r
    saved env { w with
      oldestTimestamp := ts
      firstRecord := raise w.firstRecord
      walletRecords := w.walletRecords.map fun _ r ↦ raise r } ivs

def setPassword (env : WalletEnv) (w : Wallet) (password : Bytes) (ivs : ℕ → Chacha8Iv) :
    Wallet × Option WalletError :=
  saved env { w with
    password := password
    walletKey := env.generateChacha8Key password } ivs

end Wallet

/-! ## Calls -/

/-- A call on a wallet, with what the random generator yields during it. -/
inductive WalletOp (env : WalletEnv)
  | generateNewAddresses (requests : List (AddressRequest env.toWalletCrypto)) (ct now : Timestamp)
      (ivs : ℕ → Chacha8Iv)
  | onFirstOutputFound (ts : Timestamp) (ivs : ℕ → Chacha8Iv)
  | setPassword (password : Bytes) (ivs : ℕ → Chacha8Iv)

/-- The wallet after a call, and what the call has thrown. -/
def Wallet.perform (env : WalletEnv) (w : Wallet) : WalletOp env → Wallet × Option WalletError
  | .generateNewAddresses requests ct now ivs =>
    let (g, e) := w.generateNewAddresses env requests ct now ivs
    (g.wallet, e)
  | .onFirstOutputFound ts ivs => w.onFirstOutputFound env ts ivs
  | .setPassword password ivs => w.setPassword env password ivs

/-- A wallet that one of the constructors has made. -/
def Wallet.Created (env : WalletEnv) (w : Wallet) : Prop :=
  (∃ path password fileExists now viewKeys spendKeys ivs,
    create env path password fileExists now viewKeys spendKeys ivs = .ok w) ∨
  ∃ path password fileExists importKeys ivs,
    importFrom env path password fileExists importKeys ivs = .ok w

/-- Runs go on after a call that throws, with the wallet as the call has left it. -/
def Wallet.step (env : WalletEnv) (w : Wallet) (op : WalletOp env) : Except WalletError Wallet :=
  .ok (w.perform env op).1

end CryoNero
