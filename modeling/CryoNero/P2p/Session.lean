import CryoNero.P2p.Client
import CryoNero.P2p.Messages

/-!
# Sessions

What a client does with a message depends on whether there was a handshake. Before it only handshakes
and pings are handled, after it everything else. The first message after the handshake is reported to
the node, which lists the peer among the good ones then.

The node is a parameter. It is called back with every message, and it may send, disconnect or throw.
What it does is a list of acts, which it chooses by what it finds. A handler that disconnects returns to
the loop over the messages. The readers of bodies and the texts of answers are parameters too.

The log of a connection lists the handlers that were run and the reports, in their order.
-/

namespace CryoNero.P2p

open Seria

/-! ## Commands -/

def CommandHandshake.id : UInt32 := 1001
def CommandTimedSync.id : UInt32 := 1002
def CommandPing.id : UInt32 := 1003
def CommandRequestStatInfo.id : UInt32 := 1004
def CommandRequestNetworkState.id : UInt32 := 1005
def NotifyNewBlock.id : UInt32 := 2001
def NotifyNewTransactions.id : UInt32 := 2002
def NotifyRequestGetObjects.id : UInt32 := 2003
def NotifyResponseGetObjects.id : UInt32 := 2004
def NotifyRequestChain.id : UInt32 := 2006
def NotifyResponseChainEntry.id : UInt32 := 2007
def NotifyRequestTxPool.id : UInt32 := 2008

inductive LevinHandler
  | pingRequest
  | pingResponse
  | handshakeRequest
  | handshakeResponse
  | timedSyncRequest
  | timedSyncResponse
  | networkStateRequest
  | networkStateResponse
  | statInfoRequest
  | statInfoResponse
  | notifyNewBlock
  | notifyNewTransactions
  | notifyRequestTxPool
  | notifyRequestChain
  | notifyResponseChainEntry
  | notifyRequestGetObjects
  | notifyResponseGetObjects
  deriving DecidableEq, Repr

def beforeHandshakeHandlers : List ((UInt32 × Bool) × LevinHandler) := [
  ((CommandPing.id, false), .pingRequest),
  ((CommandPing.id, true), .pingResponse),
  ((CommandHandshake.id, false), .handshakeRequest),
  ((CommandHandshake.id, true), .handshakeResponse)]

def afterHandshakeHandlers : List ((UInt32 × Bool) × LevinHandler) := [
  ((CommandTimedSync.id, false), .timedSyncRequest),
  ((CommandTimedSync.id, true), .timedSyncResponse),
  ((CommandRequestNetworkState.id, false), .networkStateRequest),
  ((CommandRequestNetworkState.id, true), .networkStateResponse),
  ((CommandRequestStatInfo.id, false), .statInfoRequest),
  ((CommandRequestStatInfo.id, true), .statInfoResponse),
  ((NotifyNewBlock.id, false), .notifyNewBlock),
  ((NotifyNewTransactions.id, false), .notifyNewTransactions),
  ((NotifyRequestTxPool.id, false), .notifyRequestTxPool),
  ((NotifyRequestChain.id, false), .notifyRequestChain),
  ((NotifyResponseChainEntry.id, false), .notifyResponseChainEntry),
  ((NotifyRequestGetObjects.id, false), .notifyRequestGetObjects),
  ((NotifyResponseGetObjects.id, false), .notifyResponseGetObjects)]

/-- A handler that runs only after a handshake. -/
def LevinHandler.AfterHandshake (h : LevinHandler) : Prop := ∃ cmd, (cmd, h) ∈ afterHandshakeHandlers

namespace LevinProtocol

def packetRequest : ℕ := 0x00000001
def protocolVer1 : ℕ := 1

/-- A number in `n` bytes, lowest byte first. -/
def leBytes (n x : ℕ) : Bytes := (beBytes n x).reverse

def sendMessage (command : UInt32) (out : Bytes) (needResponse : Bool) : Bytes :=
  leBytes 8 signature ++ leBytes 8 out.length ++ leBytes 1 needResponse.toNat ++
    leBytes 4 command.toNat ++ leBytes 4 0 ++ leBytes 4 packetRequest ++ leBytes 4 protocolVer1 ++ out

def sendReply (command : UInt32) (out : Bytes) : Bytes :=
  leBytes 8 signature ++ leBytes 8 out.length ++ leBytes 1 0 ++ leBytes 4 command.toNat ++
    leBytes 4 0 ++ leBytes 4 packetResponse ++ leBytes 4 protocolVer1 ++ out

end LevinProtocol

/-! ## The node -/

/-- `P2PClientBasic` -/
structure P2PClientBasic where
  client : P2PClient := {}
  incoming : Bool
  address : NetworkAddress := {}
  /-- Zero means no handshake yet. -/
  version : UInt8 := 0
  firstMessageAfterHandshakeProcessed : Bool := false
  lastReceivedSyncData : CoreSyncData := {}
  lastReceivedUniqueNumber : UInt64 := 0

def P2PClientBasic.handshakeOk (c : P2PClientBasic) : Bool := c.version ≠ 0

/-- What a node does to the connection that it is called back for. -/
inductive Act
  | send (body : Bytes)
  | sendShutdown
  | disconnect (banReason : String)
  | setLastReceivedSyncData (data : CoreSyncData)
  deriving DecidableEq, Repr

structure Reaction (σ : Type) where
  user : σ
  acts : List Act := []
  throws : Option String := none

/-- What the client itself looks at in the body of a message. -/
structure Payload where
  nodeData : BasicNodeData := {}
  payloadData : CoreSyncData := {}

/-- The bodies that the client sends on its own account. -/
inductive Outgoing
  | handshake
  | handshakeReply
  | pingReply
  | timedSyncReply

structure SessionEnv (σ : Type) where
  networkId : BitVec 128
  uniqueNumber : UInt64
  decode : LevinHandler → Bytes → Option Payload
  encode : σ → Outgoing → Bytes
  onMsg : P2PClientBasic → σ → LevinHandler → Bytes → Reaction σ
  onFirstMessageAfterHandshake : P2PClientBasic → σ → Reaction σ
  onDisconnect : P2PClientBasic → σ → σ

inductive LogEntry
  | handler (h : LevinHandler)
  | handshake (nodeData : BasicNodeData)
  | firstMessageAfterHandshake (uniqueNumber : UInt64) (address : NetworkAddress)
  | disconnected (banReason : String)
  deriving DecidableEq, Repr

structure Session (σ : Type) extends P2PClientBasic where
  user : σ
  log : List LogEntry := []

namespace Session

variable {σ : Type} (env : SessionEnv σ) (s : Session σ)

def note (e : LogEntry) : Session σ := { s with log := s.log ++ [e] }

/-! ## Acts -/

/-- `on_disconnect`, of the node and of the client. -/
def onDisconnect (banReason : String) : Session σ :=
  { s with
    user := env.onDisconnect s.toP2PClientBasic s.user
    version := 0
    firstMessageAfterHandshakeProcessed := false
    lastReceivedSyncData := {}
    lastReceivedUniqueNumber := 0 }.note (.disconnected banReason)

def disconnect (banReason : String) : Session σ :=
  { s with client := s.client.disconnect }.onDisconnect env banReason

def send (body : Bytes) : Session σ := { s with client := s.client.send body }

def sendShutdown : Session σ := { s with client := s.client.sendShutdown }

def perform (s : Session σ) : Act → Session σ
  | .send body => s.send body
  | .sendShutdown => s.sendShutdown
  | .disconnect banReason => s.disconnect env banReason
  | .setLastReceivedSyncData data => { s with lastReceivedSyncData := data }

/-- The node is called back. The result says what was thrown, if something was. -/
def react (r : Reaction σ) : Session σ × Option String :=
  (r.acts.foldl (perform env) { s with user := r.user }, r.throws)

def onMsg (h : LevinHandler) (body : Bytes) : Session σ × Option String :=
  s.react env (env.onMsg s.toP2PClientBasic s.user h body)

/-! ## Handlers -/

/-- Take over what a handshake says of the peer. -/
def shake (req : Payload) : Session σ :=
  { s with
    version := req.nodeData.version
    lastReceivedSyncData := req.payloadData
    lastReceivedUniqueNumber := req.nodeData.peerId }.note (.handshake req.nodeData)

def updateMyPort (port : UInt32) : Session σ :=
  { s with address := { s.address with port := port.toUInt16.toUInt32 } }

def msgHandshakeRequest (req : Payload) (body : Bytes) : Session σ × Option String :=
  if s.incoming = false then (s.disconnect env "COMMAND_HANDSHAKE from outgoing node", none)
  else if req.nodeData.networkId ≠ env.networkId then (s.disconnect env "202 wrong network", none)
  else
    let s := s.send (LevinProtocol.sendReply CommandHandshake.id (env.encode s.user .handshakeReply))
    ((s.shake req).updateMyPort req.nodeData.myPort).onMsg env .handshakeRequest body

def msgHandshakeResponse (req : Payload) (body : Bytes) : Session σ × Option String :=
  if s.incoming then (s.disconnect env "COMMAND_HANDSHAKE response from incoming node", none)
  else if req.nodeData.networkId ≠ env.networkId then (s.disconnect env "202 wrong network", none)
  else if req.nodeData.peerId = env.uniqueNumber then (s.disconnect env "203 self-connect", none)
  else (s.shake req).onMsg env .handshakeResponse body

def msgPingRequest (body : Bytes) : Session σ × Option String :=
  if s.incoming = false then (s.disconnect env "COMMAND_PING from outgoing node", none)
  else
    let s := s.send (LevinProtocol.sendReply CommandPing.id (env.encode s.user .pingReply))
    s.sendShutdown.onMsg env .pingRequest body

def msgPingResponse (body : Bytes) : Session σ × Option String :=
  if s.incoming then (s.disconnect env "COMMAND_PING response from incoming node", none)
  else s.onMsg env .pingResponse body

/-- What a handler that runs after a handshake does before the node is called back. -/
def prepare (h : LevinHandler) (req : Payload) : Session σ :=
  match h with
  | .timedSyncRequest =>
    { s with lastReceivedSyncData := req.payloadData }.send
      (LevinProtocol.sendReply CommandTimedSync.id (env.encode s.user .timedSyncReply))
  | .timedSyncResponse => { s with lastReceivedSyncData := req.payloadData }
  | _ => s

/-- A handler of the tables: the body is read, and then the message is handled. -/
def run (h : LevinHandler) (body : Bytes) : Session σ × Option String :=
  let s := s.note (.handler h)
  match env.decode h body with
  | none => (s.disconnect env "Request failed to parse", none)
  | some req =>
    match h with
    | .handshakeRequest => s.msgHandshakeRequest env req body
    | .handshakeResponse => s.msgHandshakeResponse env req body
    | .pingRequest => s.msgPingRequest env body
    | .pingResponse => s.msgPingResponse env body
    | h => (s.prepare env h req).onMsg env h body

/-! ## Messages -/

/-- The end of a turn that went through or threw. The loop goes on if nothing was thrown. -/
def finish (p : Session σ × Option String) : Session σ × Bool :=
  match p.2 with
  | none => (p.1, true)
  | some what => (p.1.disconnect env ("299 Exception processing p2p message what=" ++ what), false)

/-- The node learns of the first message after the handshake. -/
def reportFirstMessage : Session σ × Option String :=
  if s.firstMessageAfterHandshakeProcessed then (s, none)
  else
    let s := { s with firstMessageAfterHandshakeProcessed := true }
    (s.note (.firstMessageAfterHandshake s.lastReceivedUniqueNumber s.address)).react env
      (env.onFirstMessageAfterHandshake s.toP2PClientBasic s.user)

def runAfterHandshake (h : LevinHandler) (body : Bytes) : Session σ × Option String :=
  match s.run env h body with
  | (s, some what) => (s, some what)
  | (s, none) => s.reportFirstMessage env

/-- The body of the loop of `on_request_ready`. -/
def onMessage (header body : Bytes) : Session σ × Bool :=
  match LevinProtocol.readCommandHeader header with
  | .error banReason => (s.disconnect env banReason, false)
  | .ok (cmd, _) =>
    if s.handshakeOk = false then
      match beforeHandshakeHandlers.lookup (cmd.command, cmd.isResponse) with
      | some h => finish env (s.run env h body)
      | none => (s.disconnect env "202 Expecting handshake or ping", false)
    else
      match afterHandshakeHandlers.lookup (cmd.command, cmd.isResponse) with
      | some h => finish env (s.runAfterHandshake env h body)
      | none => (s, true)

/-- Why the header that a client starts with is refused. -/
def refusal (c : P2PClient) : String :=
  match LevinProtocol.framing.onRequestHeader
      ((c.buffer.toFifo.queue ++ c.sock.incoming.flatten).take LevinProtocol.headerSize) with
  | .error banReason => banReason
  | .ok _ => ""

/-- The client has read. If it met a header that is refused, it is disconnected now. -/
def received (client : P2PClient) : Session σ :=
  if s.client.sock.isOpen && !client.sock.isOpen then
    { s with client := client }.onDisconnect env (refusal s.client)
  else { s with client := client }

/-- One turn of the loop of `on_request_ready`, and whether another one follows. -/
def turn : Option (Session σ × Bool) :=
  match s.client.readNextRequest LevinProtocol.framing with
  | none => none
  | some (client, none) => some (s.received env client, false)
  | some (client, some (header, body)) => some ((s.received env client).onMessage env header body)

/-- `on_request_ready` -/
def onRequestReady : ℕ → Session σ → Option (Session σ)
  | 0, _ => none
  | fuel + 1, s =>
    match s.turn env with
    | none => none
    | some (s, false) => some s
    | some (s, true) => onRequestReady fuel s

/-! ## Steps -/

/-- `on_connect`: the outgoing side starts the handshake. -/
def onConnect : Session σ :=
  if s.incoming then s
  else s.send (LevinProtocol.sendMessage CommandHandshake.id (env.encode s.user .handshake) true)

/-- What happens to a session: bytes arrive, the client reads, a message is handled, others act on the
connection, or the client is connected again. -/
inductive Event
  | arrive (pieces : List Bytes) (accepts : List ℕ)
  | advance
  | turn
  | act (a : Act)
  | connect (address : NetworkAddress)

/-- A closed client can be connected anew. The log is that of the new connection. -/
def step (s : Session σ) : Event → Except Unit (Session σ)
  | .arrive pieces accepts =>
    .ok { s with client := { s.client with sock := s.client.sock.arrive pieces accepts } }
  | .advance =>
    match s.client.advanceState LevinProtocol.framing with
    | none => .error ()
    | some (client, _) => .ok (s.received env client)
  | .turn =>
    match s.turn env with
    | none => .error ()
    | some (s, _) => .ok s
  | .act a => .ok (s.perform env a)
  | .connect address =>
    if s.client.sock.isOpen then .error ()
    else
      .ok ({ s with
        client := { s.client with sock := {} }
        address := address
        log := [] }.onConnect env)

/-- A session at the start of its first connection. -/
def start (incoming : Bool) (address : NetworkAddress) (user : σ) : Session σ :=
  onConnect env { incoming := incoming, address := address, user := user }

/-- The socket calls its handler: `advance_state` from the run loop, with as many turns as there are
bytes. -/
def ready : Option (Session σ) :=
  match s.client.advanceState LevinProtocol.framing with
  | none => none
  | some (client, false) => some (s.received env client)
  | some (client, true) =>
    onRequestReady env (s.client.request.length + s.client.receivingBodyStream.length +
      s.client.buffer.size + s.client.sock.incoming.flatten.length + 2) (s.received env client)

end Session

end CryoNero.P2p
