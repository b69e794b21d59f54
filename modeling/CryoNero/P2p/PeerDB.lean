import CryoNero.P2p.Messages
import CryoNero.Seria.Containers
import CryoNero.Store.Keyed
import CryoNero.Store.Outcome
import CryoNero.Words.Decimal

/-!
# The peer database

The peers that are known to have answered are in the white list, those that were only heard of are
in the gray list. Both are kept in a database as well, from which they are read when the program
starts. The exclusive nodes of the configuration are in a list of their own, which is not kept.

The database is written within a transaction. When the program starts again it finds what was there
at the last commit, so a run is a sequence of sessions, each with its own configuration.
-/

namespace CryoNero.P2p

open Seria Seria.Reader Store Store.Keyed Words

/-! ## Entries -/

/-- `PeerDB::Entry`. -/
structure Entry extends PeerlistEntry where
  banUntil : Timestamp := 0
  nextConnectionAttempt : Timestamp := 0
  /-- For an order among entries that are equal otherwise. -/
  shuffleRandom : UInt64 := 0
  error : Bytes := []
  deriving DecidableEq, Repr

namespace Entry

def write (e : Entry) : Bytes :=
  writeU32 e.adr.ip ++ (writeU32 e.adr.port ++ (writeU64 e.id ++ (writeU32 e.lastSeen ++
    (writeU32 e.banUntil ++ (writeU64 e.shuffleRandom ++ (writeU32 e.nextConnectionAttempt ++
      writeBytes e.error))))))

def read : Reader Entry :=
  (on (·.adr.ip) (fun x v ↦ { v with adr := { v.adr with ip := x } }) readU32).andThen <|
  (on (·.adr.port) (fun x v ↦ { v with adr := { v.adr with port := x } }) readU32).andThen <|
  (on (·.id) (fun x v ↦ { v with id := x }) readU64).andThen <|
  (on (·.lastSeen) (fun x v ↦ { v with lastSeen := x }) readU32).andThen <|
  (on (·.banUntil) (fun x v ↦ { v with banUntil := x }) readU32).andThen <|
  (on (·.shuffleRandom) (fun x v ↦ { v with shuffleRandom := x }) readU64).andThen <|
  (on (·.nextConnectionAttempt) (fun x v ↦ { v with nextConnectionAttempt := x }) readU32).andThen <|
  on (·.error) (fun x v ↦ { v with error := x }) readBytes

/-- The entry without its ban. -/
def lifted (e : Entry) : Entry := { e with banUntil := 0, nextConnectionAttempt := 0 }

/-- The key of an order: a time, then the time at which the peer was seen, the latest first, then a
random number. -/
abbrev OrderKey := Timestamp × Timestamp × UInt64

def OrderKey.before (a b : OrderKey) : Bool :=
  a.1 < b.1 || a.1 == b.1 && (b.2.1 < a.2.1 || a.2.1 == b.2.1 && a.2.2 < b.2.2)

def byBanUntil (e : Entry) : OrderKey := (e.banUntil, e.lastSeen, e.shuffleRandom)

def byNextConnectionAttempt (e : Entry) : OrderKey :=
  (e.nextConnectionAttempt, e.lastSeen, e.shuffleRandom)

end Entry

open Entry (OrderKey)

/-- `peers_indexed`, whose unique index is the address. -/
abbrev PeersIndexed := Keyed fun e : Entry ↦ e.adr

namespace PeersIndexed

def inOrder (list : PeersIndexed) (order : Entry → OrderKey) : List Entry :=
  list.sorted fun a b ↦ (order a).before (order b)

/-- The entries below `lower_bound`. -/
def below (list : PeersIndexed) (order : Entry → OrderKey) (bound : OrderKey) : List Entry :=
  (list.inOrder order).takeWhile fun e ↦ (order e).before bound

end PeersIndexed

/-! ## The database -/

/-- The lists that are kept. -/
inductive ListKind
  | white
  | gray
  deriving DecidableEq, Repr

def ListKind.prefixBytes : ListKind → Bytes
  | .white => ascii "whitelist/"
  | .gray => ascii "graylist/"

def dbKey (kind : ListKind) (adr : NetworkAddress) : Bytes :=
  kind.prefixBytes ++ (decimal adr.ip.toNat ++ 0x3a :: decimal adr.port.toNat)

/-- A record that does not read is skipped. -/
def readPeer (value : Bytes) : Option Entry :=
  match fromBinary Entry.read {} value with
  | (peer, true) => some peer
  | (_, false) => none

/-- The entries of the records of a list, in the order of the keys. -/
def readPeers (kind : ListKind) (db : Table Bytes Bytes) : List Entry :=
  (db.toList.filter fun record ↦ kind.prefixBytes.isPrefixOf record.1).filterMap fun record ↦
    readPeer record.2

def readDb (kind : ListKind) (db : Table Bytes Bytes) : PeersIndexed :=
  insertAll (readPeers kind db) {}

/-- What the program is started with. The lists of nodes are sorted, so that the binary search for
an address finds it when it is there. -/
structure PeerConfig where
  exclusiveNodes : List NetworkAddress := []
  seedNodes : List NetworkAddress := []
  priorityNodes : List NetworkAddress := []
  p2pLocalGrayListLimit : ℕ := 5000
  p2pLocalWhiteListLimit : ℕ := 1000
  p2pWhitelistConnectionsPercent : ℕ := 70

structure PeerDB where
  config : PeerConfig := {}
  exclusivelist : PeersIndexed := {}
  whitelist : PeersIndexed := {}
  graylist : PeersIndexed := {}
  db : Table Bytes Bytes := ∅
  /-- The database as of the last commit. -/
  committed : Table Bytes Bytes := ∅
  /-- The latest time that was passed to an operation. It is not in the code. -/
  clock : Timestamp := 0

inductive PeerFault
  /-- The behaviour of the program is not defined: a range ends before it begins. -/
  | undefined
  /-- The clock went backwards. -/
  | clock
  deriving DecidableEq, Repr

namespace PeerDB

def banPeriod : Timestamp := 600
def reconnectPeriod : Timestamp := 300
def priorityReconnectPeriod : Timestamp := 30

variable (d : PeerDB)

def list : ListKind → PeersIndexed
  | .white => d.whitelist
  | .gray => d.graylist

def setList (kind : ListKind) (list : PeersIndexed) : PeerDB :=
  match kind with
  | .white => { d with whitelist := list }
  | .gray => { d with graylist := list }

def isPriority (addr : NetworkAddress) : Bool := d.config.priorityNodes.contains addr
def isSeed (addr : NetworkAddress) : Bool := d.config.seedNodes.contains addr

def updateDb (kind : ListKind) (entry : Entry) : PeerDB :=
  { d with db := d.db.insert (dbKey kind entry.adr) entry.write }

def delDb (kind : ListKind) (addr : NetworkAddress) : PeerDB :=
  { d with db := d.db.erase (dbKey kind addr) }

/-- Erase the entry with this address from its list and insert this one, and write its record. -/
def put (kind : ListKind) (entry : Entry) : PeerDB :=
  (d.setList kind ((d.list kind).replace entry)).updateDb kind entry

/-- Erase an entry from its list, and its record. -/
def erase (kind : ListKind) (addr : NetworkAddress) : PeerDB :=
  (d.setList kind ((d.list kind).erase addr)).delDb kind addr

/-! ## Trimming and unbanning -/

/-- Erase the entries that are banned for longest, up to `n` of them, as long as there are more than
`count`. -/
def trimList (kind : ListKind) (count : ℕ) : ℕ → PeerDB → PeerDB
  | 0, d => d
  | n + 1, d =>
    if count < (d.list kind).entries.length then
      match ((d.list kind).inOrder Entry.byBanUntil).getLast? with
      | some entry => trimList kind count n (d.erase kind entry.adr)
      | none => d
    else d

def trimOne (kind : ListKind) (count : ℕ) : PeerDB :=
  trimList kind count (d.list kind).entries.length d

def trim : PeerDB :=
  (d.trimOne .gray d.config.p2pLocalGrayListLimit).trimOne .white d.config.p2pLocalWhiteListLimit

/-- The bound of the entries that are not banned. -/
def bannedBound : OrderKey := (1, 0, 0)

def timeBound (now : Timestamp) : OrderKey := (now, 0, 0)

/-- Lift the bans of a list that are over. -/
def unbanList (now : Timestamp) (kind : ListKind) (d : PeerDB) : Except PeerFault PeerDB :=
  let entries := (d.list kind).inOrder Entry.byBanUntil
  -- the range from the first ban to the first that is not over
  if entries.any fun e ↦ !e.byBanUntil.before (timeBound now) && e.byBanUntil.before bannedBound then
    .error .undefined
  else
    let unbanned := entries.filter fun e ↦
      !e.byBanUntil.before bannedBound && e.byBanUntil.before (timeBound now)
    .ok <| unbanned.foldl (fun d e ↦
      d.put kind e.lifted) d

def unban (now : Timestamp) : Except PeerFault PeerDB :=
  (unbanList now .gray d).bind (unbanList now .white)

/-! ## Operations

A random number is drawn for a new entry, of which there is at most one for an address. -/

variable (rand : NetworkAddress → UInt64)

def addIncomingPeerImpl (addr : NetworkAddress) (peerId : UInt64) : PeerDB :=
  if addr.port = 0 then d
  else if (d.whitelist.find addr).isSome then d
  else if (d.graylist.find addr).isSome then d
  else d.put .gray { adr := addr, id := peerId, shuffleRandom := rand addr }

def mergePeerlistFromP2p (outerBs : List PeerlistEntry) (now : Timestamp) :
    Except PeerFault PeerDB := do
  let d ← d.unban now
  return (outerBs.foldl (fun d pp ↦ d.addIncomingPeerImpl rand pp.adr pp.id) d).trim

def addIncomingPeer (addr : NetworkAddress) (peerId : UInt64) (now : Timestamp) :
    Except PeerFault PeerDB := do
  let d ← d.unban now
  return (d.addIncomingPeerImpl rand addr peerId).trim

/-- `get_private_network_prefix`, for an address whose first byte is its lowest one. -/
def getPrivateNetworkPrefix (ip : UInt32) : ℕ :=
  let first := ip &&& 0xFF
  let second := ip >>> 8 &&& 0xFF
  if first = 127 then 127
  else if first = 10 then 10
  else if first = 192 ∧ second = 168 then 192
  else if first = 172 ∧ second &&& 0xF0 = 16 then 172
  else 0

/-- The first peers that may be passed on, at least one if there is any. They are sent in random
order. -/
def getPeerlistToP2p (forAddr : NetworkAddress) (now : Timestamp) (depth : ℕ) :
    Except PeerFault (PeerDB × List PeerlistEntry) := do
  let d ← d.unban now
  let unbanned := d.whitelist.below Entry.byBanUntil bannedBound
  let shared := unbanned.filter fun e ↦
    let networkId := getPrivateNetworkPrefix e.adr.ip
    getPrivateNetworkPrefix forAddr.ip = networkId ∨ networkId = 0
  return (d, (shared.take (max 1 depth)).map fun e ↦ { e.toPeerlistEntry with lastSeen := 0 })

def setPeerJustSeen (peerId : UInt64) (addr : NetworkAddress) (now : Timestamp)
    (resetNextConnectionAttempt : Bool) : PeerDB :=
  let d := if (d.graylist.find addr).isSome then d.erase .gray addr else d
  let entry := (d.whitelist.find addr).getD { adr := addr, shuffleRandom := rand addr }
  d.put .white { entry with
    id := peerId
    banUntil := 0
    nextConnectionAttempt :=
      if resetNextConnectionAttempt && !d.isSeed addr then 0 else entry.nextConnectionAttempt
    lastSeen := now }

def delayConnectionAttempt (addr : NetworkAddress) (now : Timestamp) : PeerDB :=
  match d.whitelist.find addr with
  | none => d
  | some entry =>
    d.put .white { entry with
      nextConnectionAttempt :=
        now + if !d.isPriority addr then banPeriod else priorityReconnectPeriod }

/-- The entry with a ban. -/
def banned (error : Bytes) (until_ : Timestamp) (entry : Entry) : Entry :=
  { entry with error := error, banUntil := until_, nextConnectionAttempt := until_ }

def banGray (addr : NetworkAddress) (error : Bytes) (now : Timestamp) : PeerDB :=
  match d.graylist.find addr with
  | none => d
  | some entry =>
    d.put .gray (banned error
      (now + if d.isPriority addr then priorityReconnectPeriod else banPeriod) entry)

def banWhite (addr : NetworkAddress) (error : Bytes) (now : Timestamp) : PeerDB :=
  match d.whitelist.find addr with
  | none => d
  | some entry =>
    d.put .white (banned error
      (now + if d.isSeed addr then priorityReconnectPeriod
        else if d.isPriority addr then priorityReconnectPeriod else banPeriod) entry)

def setPeerBanned (addr : NetworkAddress) (error : Bytes) (now : Timestamp) : PeerDB :=
  match d.exclusivelist.find addr with
  | some entry =>
    { d with exclusivelist :=
        d.exclusivelist.replace (banned error (now + priorityReconnectPeriod) entry) }
  | none => (d.banGray addr error now).banWhite addr error now

def isPeerBanned (addr : NetworkAddress) (now : Timestamp) : Bool :=
  (d.graylist.find addr).any (now < ·.banUntil) || (d.whitelist.find addr).any (now < ·.banUntil)

/-- The first entry that may be connected to now, with those that are skipped left out. -/
def firstToConnect (list : PeersIndexed) (now : Timestamp) (skip : Entry → Bool) : Option Entry :=
  (list.below Entry.byNextConnectionAttempt (timeBound now)).find? fun e ↦ !skip e

/-- Connect to an entry of a list. -/
def connectTo (kind : ListKind) (now : Timestamp) (entry : Entry) : PeerDB :=
  d.put kind { entry with
    nextConnectionAttempt :=
      now + if d.isPriority entry.adr then priorityReconnectPeriod else reconnectPeriod }

def connectToExclusive (now : Timestamp) (entry : Entry) : PeerDB :=
  let entry := { entry with nextConnectionAttempt := now + priorityReconnectPeriod }
  { d with exclusivelist := d.exclusivelist.replace entry }

/-- `draw` is the random number that decides between the lists. -/
def getPeerToConnect (connected : List NetworkAddress) (now : Timestamp) (draw : UInt32) :
    Except PeerFault (PeerDB × Option NetworkAddress) :=
  if d.exclusivelist.entries ≠ [] then
    match firstToConnect d.exclusivelist now fun e ↦ connected.contains e.adr with
    | none => .ok (d, none)
    | some entry => .ok (d.connectToExclusive now entry, some entry.adr)
  else do
    let d ← d.unban now
    let enoughConnectedSeeds := 2 ≤ (d.config.seedNodes.filter (connected.contains ·)).length
    let skip := fun e : Entry ↦ connected.contains e.adr || enoughConnectedSeeds && d.isSeed e.adr
    let white := (firstToConnect d.whitelist now skip).filter (·.nextConnectionAttempt ≤ now)
    let gray := (firstToConnect d.graylist now skip).filter (·.nextConnectionAttempt ≤ now)
    let useWhite := (draw % 100).toNat < d.config.p2pWhitelistConnectionsPercent
    match if useWhite then white else none, gray with
    | some entry, _ => .ok (d.connectTo .white now entry, some entry.adr)
    | none, some entry => .ok (d.connectTo .gray now entry, some entry.adr)
    | none, none => .ok (d, none)

/-! ## Sessions -/

/-- The constructor. The nodes of the configuration are entered into their lists without a record;
a seed that is in the white list already is left alone. -/
def start (config : PeerConfig) (randExclusive randSeed : NetworkAddress → UInt64) : PeerDB :=
  { d with
    config := config
    exclusivelist := insertAll (config.exclusiveNodes.map fun addr ↦
      { adr := addr, shuffleRandom := randExclusive addr }) {}
    -- a seed that is in the white list is not put into it again
    whitelist := insertAll (config.seedNodes.map fun addr ↦
      { adr := addr, shuffleRandom := randSeed addr }) (readDb .white d.committed)
    graylist := readDb .gray d.committed
    db := d.committed }

/-- An operation that is told the time. Texts fit into memory. -/
inductive PeerOp
  | mergePeerlistFromP2p (outerBs : List PeerlistEntry)
  | addIncomingPeer (addr : NetworkAddress) (peerId : UInt64)
  | getPeerlistToP2p (forAddr : NetworkAddress) (depth : ℕ)
  | setPeerJustSeen (peerId : UInt64) (addr : NetworkAddress) (resetNextConnectionAttempt : Bool)
  | delayConnectionAttempt (addr : NetworkAddress)
  | setPeerBanned (addr : NetworkAddress) (error : { b : Bytes // b.length < 2 ^ 64 })
  | getPeerToConnect (connected : List NetworkAddress) (draw : UInt32)
  | trim
  | unban

def perform (now : Timestamp) : PeerOp → Except PeerFault PeerDB
  | .mergePeerlistFromP2p outerBs => d.mergePeerlistFromP2p rand outerBs now
  | .addIncomingPeer addr peerId => d.addIncomingPeer rand addr peerId now
  | .getPeerlistToP2p forAddr depth => Prod.fst <$> d.getPeerlistToP2p forAddr now depth
  | .setPeerJustSeen peerId addr reset => .ok (d.setPeerJustSeen rand peerId addr now reset)
  | .delayConnectionAttempt addr => .ok (d.delayConnectionAttempt addr now)
  | .setPeerBanned addr error => .ok (d.setPeerBanned addr error now)
  | .getPeerToConnect connected draw => Prod.fst <$> d.getPeerToConnect connected now draw
  | .trim => .ok d.trim
  | .unban => d.unban now

inductive PeerStep
  /-- The program starts, after whatever ended the session before. -/
  | start (config : PeerConfig) (randExclusive randSeed : NetworkAddress → UInt64)
  | commit
  | perform (op : PeerOp) (now : Timestamp) (rand : NetworkAddress → UInt64)

def step (d : PeerDB) : PeerStep → Except PeerFault PeerDB
  | .start config randExclusive randSeed => .ok (d.start config randExclusive randSeed)
  | .commit => .ok { d with committed := d.db }
  | .perform op now rand =>
    if now < d.clock then .error .clock else perform { d with clock := now } rand now op

end PeerDB

end CryoNero.P2p
