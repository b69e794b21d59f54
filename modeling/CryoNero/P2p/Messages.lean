import CryoNero.CryptoNote
import CryoNero.Seria.Layout

/-!
# Messages of the peer protocol

The body of a message is a tree of values. A reader looks the members of an object up by name. A
member that is missing leaves what it would have filled in as it is; a member of another kind makes
the reader throw, and the message is refused.

Vectors of hashes and of peers are sent as one string that holds the memory of the vector, so the
receiver copies a string whose length the sender chose into a vector that it has sized itself.
`Decoded.copies` lists these copies, each with the room it had.
-/

namespace CryoNero.P2p

open Seria

/-! ## Values -/

inductive JsonValue
  | array (items : List JsonValue)
  | bool (b : Bool)
  | signedInteger (i : Int64)
  | unsignedInteger (n : UInt64)
  | nil
  | object (members : List (String × JsonValue))
  | double (bits : UInt64)
  | string (s : Bytes)

namespace JsonValue

def getUnsigned : JsonValue → Option UInt64
  | signedInteger i => some i.toUInt64
  | unsignedInteger n => some n
  | _ => none

def getString : JsonValue → Option Bytes
  | string s => some s
  | _ => none

def getObject : JsonValue → Option (List (String × JsonValue))
  | object members => some members
  | _ => none

def getArray : JsonValue → Option (List JsonValue)
  | array items => some items
  | _ => none

end JsonValue

/-- The object that is being read, `none` when it is itself missing. When a name was sent twice the
first one counts. -/
abbrev Fields := Option (List (String × JsonValue))

def Fields.value (fields : Fields) (name : String) : Option JsonValue :=
  fields.bind (·.lookup name)

/-! ## Readers

What a reader does to the object it fills in, or `none` when it throws. Whether it throws depends
on the message alone. -/

/-- The reader of a value that may be missing. -/
abbrev Input (σ : Type) := Option JsonValue → Option (σ → σ)

variable {σ α : Type}

def seriaUnsigned (ofUInt64 : UInt64 → α) : Input α
  | none => some id
  | some value => value.getUnsigned.map fun n _ ↦ ofUInt64 n

def seriaString : Input Bytes
  | none => some id
  | some value => value.getString.map fun s _ ↦ s

/-- A block of fixed size. It is read as a string, which is empty when it is missing. -/
def seriaBinary (size : ℕ) (ofBytes : Bytes → α) : Input α := fun value ↦
  match seriaString value with
  | none => none
  | some f => if (f []).length = size then some fun _ ↦ ofBytes (f []) else none

def seriaHash : Input Hash := seriaBinary 32 (blobOfBytes 256)

/-- The items of an array are read into new objects. -/
def seriaVector (new : α) (item : Input α) : Input (List α)
  | none => some fun _ ↦ []
  | some value =>
    match value.getArray with
    | none => none
    | some items =>
      (items.mapM fun i ↦ item (some i)).map fun fs _ ↦ fs.map fun f ↦ f new

def seriaObject (members : Fields → Option (σ → σ)) : Input σ
  | none => members none
  | some value =>
    match value.getObject with
    | none => none
    | some fields => members (some fields)

/-- `seria_kv`: read the member of this name into a part of the object. -/
def seriaKv (name : String) (input : Input α) (update : (α → α) → σ → σ) (fields : Fields) :
    Option (σ → σ) :=
  (input (fields.value name)).map update

/-- Read one member after the other. -/
def inTurn : List (Fields → Option (σ → σ)) → Fields → Option (σ → σ)
  | [], _ => some id
  | read :: rest, fields =>
    match read fields, inTurn rest fields with
    | some f, some g => some fun v ↦ g (f v)
    | _, _ => none

/-! ## Vectors sent as blobs -/

/-- A copy of `copied` bytes into a vector whose memory has `room` bytes. -/
structure BlobCopy where
  room : ℕ
  copied : ℕ
  deriving DecidableEq, Repr

def BlobCopy.InBounds (c : BlobCopy) : Prop := c.copied ≤ c.room

instance (c : BlobCopy) : Decidable c.InBounds := inferInstanceAs (Decidable (_ ≤ _))

/-- `serialize_as_binary` for input. The vector gets as many values as the string holds whole ones,
then all bytes of the string are copied into it. What lies beyond the vector is not its value. -/
def serializeAsBinaryInput (layout : Layout α) (value : Option JsonValue) :
    Option (List α × BlobCopy) :=
  (seriaString value).map fun f ↦
    let blob := f []
    let size := blob.length / layout.size
    (layout.unpack size blob, { room := size * layout.size, copied := blob.length })

/-- `serialize_as_binary` for output. -/
def serializeAsBinaryOutput (layout : Layout α) (value : List α) : JsonValue :=
  .string (if value.isEmpty then [] else layout.pack value)

/-- A line of `ser_members`. -/
inductive Member (σ : Type) : Type 1
  | plain (read : Fields → Option (σ → σ))
  | blob {α : Type} (layout : Layout α) (name : String) (assign : List α → σ → σ)

/-- The object that was read, `none` when the reader threw, and the copies that were made. -/
structure Decoded (σ : Type) where
  copies : List BlobCopy
  value : Option σ

/-- `ser_members`, line after line. -/
def serMembers (fields : Fields) : List (Member σ) → σ → Decoded σ
  | [], v => ⟨[], some v⟩
  | .plain read :: rest, v =>
    match read fields with
    | none => ⟨[], none⟩
    | some f => serMembers fields rest (f v)
  | .blob layout name assign :: rest, v =>
    match serializeAsBinaryInput layout (fields.value name) with
    | none => ⟨[], none⟩
    | some (x, copy) =>
      let d := serMembers fields rest (assign x v)
      ⟨copy :: d.copies, d.value⟩

/-! ## The data of the messages -/

structure NetworkAddress where
  ip : UInt32 := 0
  port : UInt32 := 0
  deriving DecidableEq, Repr

structure PeerlistEntry where
  adr : NetworkAddress := {}
  id : UInt64 := 0
  lastSeen : UInt32 := 0
  /-- The high part of a former 64-bit `lastSeen`. -/
  reserved : UInt32 := 0
  deriving DecidableEq, Repr

structure BasicNodeData where
  networkId : BitVec 128 := 0
  version : UInt8 := 0
  localTime : UInt64 := 0
  myPort : UInt32 := 0
  peerId : UInt64 := 0
  deriving DecidableEq, Repr

structure CoreSyncData where
  /-- The height of the top block; what is sent is one more. -/
  currentHeight : UInt32 := 0
  topId : Hash := 0
  deriving DecidableEq, Repr

structure CommandHandshake.Response where
  nodeData : BasicNodeData := {}
  payloadData : CoreSyncData := {}
  localPeerlist : List PeerlistEntry := []

structure CommandTimedSync.Response where
  localTime : UInt64 := 0
  payloadData : CoreSyncData := {}
  localPeerlist : List PeerlistEntry := []

structure RawBlockLegacy where
  block : Bytes := []
  transactions : List Bytes := []
  deriving DecidableEq, Repr

structure NotifyRequestGetObjects.Request where
  txs : List Hash := []
  blocks : List Hash := []

structure NotifyResponseGetObjects.Request where
  txs : List Bytes := []
  blocks : List RawBlockLegacy := []
  missedIds : List Hash := []
  currentBlockchainHeight : UInt32 := 0

structure NotifyRequestChain.Request where
  blockIds : List Hash := []

structure NotifyResponseChainEntry.Request where
  startHeight : UInt32 := 0
  totalHeight : UInt32 := 0
  blockIds : List Hash := []

structure NotifyRequestTxPool.Request where
  txs : List Hash := []

/-! ## The members of each message -/

def hashLayout : Layout Hash := .bits 256 (by omega) (by omega)

def networkAddressLayout : Layout NetworkAddress :=
  (Layout.uint32.pair .uint32).record (fun x ↦ ⟨x.1, x.2⟩) (fun v ↦ (v.ip, v.port)) fun _ ↦ rfl

def peerlistEntryLayout : Layout PeerlistEntry :=
  (networkAddressLayout.pair (Layout.uint64.pair (Layout.uint32.pair .uint32))).record
    (fun x ↦ ⟨x.1, x.2.1, x.2.2.1, x.2.2.2⟩)
    (fun v ↦ (v.adr, v.id, v.lastSeen, v.reserved)) fun _ ↦ rfl

def BasicNodeData.serMembers : Fields → Option (BasicNodeData → BasicNodeData) :=
  inTurn [
    seriaKv "network_id" (seriaBinary 16 (blobOfBytes 128))
      fun f v ↦ { v with networkId := f v.networkId },
    fun _ ↦ some fun v ↦ { v with version := 0 },
    seriaKv "version" (seriaUnsigned UInt64.toUInt8) fun f v ↦ { v with version := f v.version },
    seriaKv "peer_id" (seriaUnsigned id) fun f v ↦ { v with peerId := f v.peerId },
    seriaKv "local_time" (seriaUnsigned id) fun f v ↦ { v with localTime := f v.localTime },
    seriaKv "my_port" (seriaUnsigned UInt64.toUInt32) fun f v ↦ { v with myPort := f v.myPort }]

def CoreSyncData.serMembers : Fields → Option (CoreSyncData → CoreSyncData) :=
  inTurn [
    -- the height on the wire starts as zero, whatever the object holds
    seriaKv "current_height" (seriaUnsigned UInt64.toUInt32)
      fun f v ↦ { v with currentHeight := f 0 - 1 },
    seriaKv "top_id" seriaHash fun f v ↦ { v with topId := f v.topId }]

def RawBlockLegacy.serMembers : Fields → Option (RawBlockLegacy → RawBlockLegacy) :=
  inTurn [
    -- both members are read into new strings and appended to what is there
    seriaKv "block" seriaString fun f v ↦ { v with block := v.block ++ f [] },
    seriaKv "txs" (seriaVector [] seriaString)
      fun f v ↦ { v with transactions := v.transactions ++ f [] }]

def CommandHandshake.Response.members : List (Member CommandHandshake.Response) := [
  .plain (seriaKv "node_data" (seriaObject BasicNodeData.serMembers)
    fun f v ↦ { v with nodeData := f v.nodeData }),
  .plain (seriaKv "payload_data" (seriaObject CoreSyncData.serMembers)
    fun f v ↦ { v with payloadData := f v.payloadData }),
  .blob peerlistEntryLayout "local_peerlist" fun x v ↦ { v with localPeerlist := x }]

def CommandTimedSync.Response.members : List (Member CommandTimedSync.Response) := [
  .plain (seriaKv "local_time" (seriaUnsigned id) fun f v ↦ { v with localTime := f v.localTime }),
  .plain (seriaKv "payload_data" (seriaObject CoreSyncData.serMembers)
    fun f v ↦ { v with payloadData := f v.payloadData }),
  .blob peerlistEntryLayout "local_peerlist" fun x v ↦ { v with localPeerlist := x }]

def NotifyRequestGetObjects.Request.members : List (Member NotifyRequestGetObjects.Request) := [
  .blob hashLayout "txs" fun x v ↦ { v with txs := x },
  .blob hashLayout "blocks" fun x v ↦ { v with blocks := x }]

def NotifyResponseGetObjects.Request.members : List (Member NotifyResponseGetObjects.Request) := [
  .plain (seriaKv "txs" (seriaVector [] seriaString) fun f v ↦ { v with txs := f v.txs }),
  .plain (seriaKv "blocks" (seriaVector {} (seriaObject RawBlockLegacy.serMembers))
    fun f v ↦ { v with blocks := f v.blocks }),
  .blob hashLayout "missed_ids" fun x v ↦ { v with missedIds := x },
  .plain (seriaKv "current_blockchain_height" (seriaUnsigned UInt64.toUInt32)
    fun f v ↦ { v with currentBlockchainHeight := f v.currentBlockchainHeight })]

def NotifyRequestChain.Request.members : List (Member NotifyRequestChain.Request) := [
  .blob hashLayout "block_ids" fun x v ↦ { v with blockIds := x }]

def NotifyResponseChainEntry.Request.members : List (Member NotifyResponseChainEntry.Request) := [
  .plain (seriaKv "start_height" (seriaUnsigned UInt64.toUInt32)
    fun f v ↦ { v with startHeight := f v.startHeight }),
  .plain (seriaKv "total_height" (seriaUnsigned UInt64.toUInt32)
    fun f v ↦ { v with totalHeight := f v.totalHeight }),
  .blob hashLayout "m_block_ids" fun x v ↦ { v with blockIds := x }]

def NotifyRequestTxPool.Request.members : List (Member NotifyRequestTxPool.Request) := [
  .blob hashLayout "txs" fun x v ↦ { v with txs := x }]

/-- The messages with a vector that is sent as a blob. -/
inductive Message
  | commandHandshakeResponse
  | commandTimedSyncResponse
  | notifyRequestGetObjects
  | notifyResponseGetObjects
  | notifyRequestChain
  | notifyResponseChainEntry
  | notifyRequestTxPool
  deriving DecidableEq, Repr

namespace Message

def Data : Message → Type
  | commandHandshakeResponse => CommandHandshake.Response
  | commandTimedSyncResponse => CommandTimedSync.Response
  | notifyRequestGetObjects => NotifyRequestGetObjects.Request
  | notifyResponseGetObjects => NotifyResponseGetObjects.Request
  | notifyRequestChain => NotifyRequestChain.Request
  | notifyResponseChainEntry => NotifyResponseChainEntry.Request
  | notifyRequestTxPool => NotifyRequestTxPool.Request

def members : (m : Message) → List (Member m.Data)
  | commandHandshakeResponse => CommandHandshake.Response.members
  | commandTimedSyncResponse => CommandTimedSync.Response.members
  | notifyRequestGetObjects => NotifyRequestGetObjects.Request.members
  | notifyResponseGetObjects => NotifyResponseGetObjects.Request.members
  | notifyRequestChain => NotifyRequestChain.Request.members
  | notifyResponseChainEntry => NotifyResponseChainEntry.Request.members
  | notifyRequestTxPool => NotifyRequestTxPool.Request.members

/-- A message starts as a new object. -/
def new : (m : Message) → m.Data
  | commandHandshakeResponse => {}
  | commandTimedSyncResponse => {}
  | notifyRequestGetObjects => {}
  | notifyResponseGetObjects => {}
  | notifyRequestChain => {}
  | notifyResponseChainEntry => {}
  | notifyRequestTxPool => {}

/-- Read the body of a message; it is an object. -/
def decode (m : Message) (body : List (String × JsonValue)) : Decoded m.Data :=
  P2p.serMembers (some body) m.members m.new

end Message

end CryoNero.P2p
