import CryoNero.P2p.CircularBuffer
import CryoNero.Seria.Containers

/-!
# A connection to a peer

`P2PClient` takes a stream of bytes apart into messages. It reads from the socket into a circular
buffer, takes a header of fixed size from there, learns from the header how long the body is, and
collects the body; a finished message waits until `readNextRequest` fetches it. While more than one
response waits to be sent, nothing is read.

The network is the pieces in which the bytes arrive: a read returns at most what is left of the
first piece, and an empty piece makes a read return nothing even though more has arrived. So every
way of splitting a stream into reads is an order of arrivals. In the same way `accepts` says how many
bytes each write to the socket takes.

What a client does with a message is a parameter, `Handler`. `none` in a result means that an
invariant of the buffer or of the client failed, or that a loop ran out of its fuel.
-/

namespace CryoNero.P2p

open Seria

/-! ## The socket -/

structure Socket where
  isOpen : Bool := true
  askedShutdown : Bool := false
  /-- The pieces that have arrived and were not read. -/
  incoming : List Bytes := []
  /-- How many bytes the next writes take; none after these. -/
  accepts : List ℕ := []
  /-- What was written. -/
  sent : Bytes := []

namespace Socket

def readSome (s : Socket) (size : ℕ) : Bytes × Socket :=
  match s.incoming with
  | [] => ([], s)
  | piece :: rest =>
    if piece.length ≤ size then (piece, { s with incoming := rest })
    else (piece.take size, { s with incoming := piece.drop size :: rest })

theorem readSome_append (s : Socket) (size : ℕ) :
    (s.readSome size).1 ++ (s.readSome size).2.incoming.flatten = s.incoming.flatten := by
  rw [readSome]
  split
  · simp_all
  · next piece rest h =>
    split_ifs with hle
    · rw [h, List.flatten_cons]
    · rw [h, List.flatten_cons, List.flatten_cons, ← List.append_assoc, List.take_append_drop]

theorem length_readSome_le (s : Socket) (size : ℕ) : (s.readSome size).1.length ≤ size := by
  rw [readSome]
  split
  · exact Nat.zero_le _
  · split_ifs with hle
    · exact hle
    · exact List.length_take_le _ _

theorem readSome_snd (s : Socket) (size : ℕ) :
    (s.readSome size).2 = { s with incoming := (s.readSome size).2.incoming } := by
  rw [readSome]
  split
  · rfl
  · split_ifs <;> rfl

/-- No piece that has arrived is empty. -/
def Solid (s : Socket) : Prop := [] ∉ s.incoming

theorem solid_readSome {s : Socket} (h : s.Solid) (size : ℕ) : (s.readSome size).2.Solid := by
  rw [readSome]
  split
  · exact h
  · next piece rest hpieces =>
    rw [Solid, hpieces, List.mem_cons, not_or] at h
    split_ifs with hle
    · exact h.2
    · refine fun hmem ↦ (List.mem_cons.mp hmem).elim (fun hnil ↦ hle ?_) h.2
      exact List.drop_eq_nil_iff.mp hnil.symm

/-- A read that returns nothing has found nothing. -/
theorem incoming_eq_nil_of_readSome {s : Socket} (h : s.Solid) {size : ℕ} (hsize : size ≠ 0)
    (hnil : (s.readSome size).1 = []) : (s.readSome size).2.incoming = [] := by
  rw [readSome] at hnil ⊢
  split at hnil
  · assumption
  · next piece rest hpieces =>
    rw [Solid, hpieces, List.mem_cons, not_or] at h
    split_ifs at hnil with hle
    · exact absurd hnil.symm h.1
    · rcases List.take_eq_nil_iff.mp hnil with hzero | hempty
      · exact absurd hzero hsize
      · exact absurd hempty.symm h.1

/-- `copy_to` of a response: write until nothing is left or a write takes nothing. -/
def writeAll : Bytes → List ℕ → Bytes × List ℕ
  | data, [] => (data, [])
  | data, a :: accepts =>
    if data = [] then (data, a :: accepts)
    else if a = 0 then (data, accepts)
    else writeAll (data.drop a) accepts

def close (s : Socket) : Socket := { s with isOpen := false, incoming := [], accepts := [] }

/-- `shutdown_both`: what has arrived and was not read is dropped. -/
def shutdownBoth (s : Socket) : Socket :=
  if s.askedShutdown then s else { s with askedShutdown := true, incoming := [] }

/-- Bytes arrive, and the network has room for more. -/
def arrive (s : Socket) (pieces : List Bytes) (accepts : List ℕ) : Socket :=
  if s.isOpen then
    { s with
      incoming := if s.askedShutdown then s.incoming else s.incoming ++ pieces
      accepts := s.accepts ++ accepts }
  else s

end Socket

/-! ## Loops over the circular buffer -/

namespace CircularBuffer

/-- Place bytes in the room for writing and announce them. -/
def receive (b : CircularBuffer) (s : Bytes) : Option CircularBuffer :=
  if h : s.length ≤ b.capacity then (b.fill s h).didWrite s.length else none

/-- `copy_from`: read from the socket until the buffer is full or a read returns nothing. -/
def copyFrom (b : CircularBuffer) (s : Socket) : Option (CircularBuffer × Socket) :=
  if b.writeCount = 0 then some (b, s)
  else
    match b.receive (s.readSome b.writeCount).1 with
    | none => none
    | some b' =>
      if (s.readSome b.writeCount).1 = [] then some (b', (s.readSome b.writeCount).2)
      else copyFrom b' (s.readSome b.writeCount).2
termination_by s.incoming.flatten.length
decreasing_by
  have hpos := List.length_pos_of_ne_nil (by assumption)
  rw [← s.readSome_append b.writeCount, List.length_append]
  omega

/-- `copy_to` into a stream that takes everything: at most `maxCount` bytes. The fuel is `maxCount`
itself, since every round moves a byte. -/
def copyTo : ℕ → CircularBuffer → ℕ → Option (Bytes × CircularBuffer)
  | 0, b, _ => some ([], b)
  | fuel + 1, b, maxCount =>
    if min b.readCount maxCount = 0 then some ([], b)
    else
      match b.readSome maxCount with
      | none => none
      | some (data, b') => (copyTo fuel b' (maxCount - data.length)).map fun p ↦ (data ++ p.1, p.2)

/-- `IInputStream::read`: exactly `count` bytes, and it throws when a read returns nothing. The fuel
is `count` itself. -/
def read : ℕ → CircularBuffer → ℕ → Option (Bytes × CircularBuffer)
  | 0, b, _ => some ([], b)
  | fuel + 1, b, count =>
    if count = 0 then some ([], b)
    else
      match b.readSome count with
      | none => none
      | some (data, b') =>
        if data = [] then none
        else (read fuel b' (count - data.length)).map fun p ↦ (data ++ p.1, p.2)

end CircularBuffer

/-! ## The client -/

def recommendedBufferSize : ℕ := 8192

/-- How a stream is framed: the size of a header, and the size of the body as `on_request_header`
reads it off the header, or the reason why the peer is to be banned. -/
structure Framing where
  headerSize : ℕ
  onRequestHeader : Bytes → Except String ℕ
  headerSize_pos : 0 < headerSize
  headerSize_le : headerSize ≤ recommendedBufferSize

structure P2PClient where
  request : Bytes := []
  requestBodyLength : ℕ := 0
  receivingBody : Bool := false
  receivingBodyStream : Bytes := []
  buffer : CircularBuffer := .new recommendedBufferSize
  responses : List Bytes := []
  waitingShutdown : Bool := false
  sock : Socket := {}

namespace P2PClient

/-- Write the responses in order; one that was written only in part stays in front. -/
def writeResponses : List Bytes → List ℕ → List Bytes × List ℕ
  | [], accepts => ([], accepts)
  | r :: rest, accepts =>
    match Socket.writeAll r accepts with
    | ([], accepts') => writeResponses rest accepts'
    | (left, accepts') => (left :: rest, accepts')

def write (c : P2PClient) : P2PClient :=
  let p := writeResponses c.responses c.sock.accepts
  let written := c.responses.flatten.take (c.responses.flatten.length - p.1.flatten.length)
  let c := { c with
    responses := p.1
    sock := { c.sock with accepts := p.2, sent := c.sock.sent ++ written } }
  if c.responses.isEmpty && c.waitingShutdown then { c with sock := c.sock.shutdownBoth } else c

/-- `disconnect`. What the client's user does on a disconnect is not modelled. -/
def disconnect (c : P2PClient) : P2PClient :=
  { c with
    buffer := c.buffer.clear
    receivingBody := false
    request := []
    receivingBodyStream := []
    responses := []
    sock := c.sock.close }

def send (c : P2PClient) (body : Bytes) : P2PClient :=
  { c with responses := c.responses ++ [body] }.write

def sendShutdown (c : P2PClient) : P2PClient := { c with waitingShutdown := true }.write

/-- The loop of `read` that collects the body. The result says whether the body is complete, which
is where `on_request_ready` is called when `read` was called from the run loop. Every round but the
last moves a byte of the body. -/
def readBody : ℕ → P2PClient → Option (P2PClient × Bool)
  | 0, _ => none
  | fuel + 1, c =>
    if c.requestBodyLength < c.receivingBodyStream.length then none
    else
      let maxCount := c.requestBodyLength - c.receivingBodyStream.length
      match c.buffer.copyTo maxCount maxCount with
      | none => none
      | some (data, buffer) =>
        let c := { c with
          buffer := buffer
          receivingBodyStream := c.receivingBodyStream ++ data }
        if c.receivingBodyStream.length = c.requestBodyLength then some (c, true)
        else
          match c.buffer.copyFrom c.sock with
          | none => none
          | some (buffer, sock) =>
            let c := { c with buffer := buffer, sock := sock }
            if c.buffer.empty then some (c, false) else readBody fuel c

/-- `read`, up to the call of `on_request_ready`. -/
def read (p : Framing) (c : P2PClient) : Option (P2PClient × Bool) :=
  if c.receivingBody then
    readBody (c.requestBodyLength - c.receivingBodyStream.length + 2) c
  else
    match c.buffer.copyFrom c.sock with
    | none => none
    | some (buffer, sock) =>
      let c := { c with buffer := buffer, sock := sock }
      if c.buffer.size < p.headerSize then some (c, false)
      else
        match c.buffer.read p.headerSize p.headerSize with
        | none => none
        | some (header, buffer) =>
          let c := { c with request := header, buffer := buffer }
          match p.onRequestHeader header with
          | .error _ => some (c.disconnect, false)
          | .ok length =>
            let c := { c with
              requestBodyLength := length
              receivingBody := true
              receivingBodyStream := [] }
            readBody (length + 2) c

/-- `advance_state`. One response keeps the outward queue busy; with more, nothing is read. -/
def advanceState (p : Framing) (c : P2PClient) : Option (P2PClient × Bool) :=
  if 1 < c.write.responses.length then some (c.write, false) else read p c.write

/-- `read_next_request`: the header and the body of a message, once it is complete. When the client
waits for its shutdown the message is dropped. -/
def readNextRequest (p : Framing) (c : P2PClient) :
    Option (P2PClient × Option (Bytes × Bytes)) :=
  match c.advanceState p with
  | none => none
  | some (c, _) =>
    if !c.receivingBody || c.receivingBodyStream.length != c.requestBodyLength then some (c, none)
    else
      let message := (c.request, c.receivingBodyStream)
      let c := { c with
        request := []
        receivingBodyStream := []
        receivingBody := false
        requestBodyLength := 0 }
      some (c, if c.waitingShutdown then none else some message)

end P2PClient

/-! ## The client in its surroundings -/

/-- What the user of a client asks it to do. -/
inductive Action
  | send (body : Bytes)
  | sendShutdown
  | disconnect

def P2PClient.act (c : P2PClient) : Action → P2PClient
  | .send body => c.send body
  | .sendShutdown => c.sendShutdown
  | .disconnect => c.disconnect

/-- What the user of a client does with a message: its own state afterwards, and what it asks of the
client. -/
abbrev Handler (σ : Type) := σ → Bytes → Bytes → σ × List Action

/-- A client, the state of its user, the messages that the user was given and what it has asked of
the client. -/
structure Connection (σ : Type) where
  client : P2PClient := {}
  user : σ
  delivered : List (Bytes × Bytes) := []
  asked : List Action := []

namespace Connection

variable {σ : Type}

/-- `on_request_ready`: handle messages as long as there are complete ones. -/
def onRequestReady (p : Framing) (handle : Handler σ) : ℕ → Connection σ → Option (Connection σ)
  | 0, _ => none
  | fuel + 1, c =>
    match c.client.readNextRequest p with
    | none => none
    | some (client, none) => some { c with client := client }
    | some (client, some (header, body)) =>
      let r := handle c.user header body
      onRequestReady p handle fuel {
        client := r.2.foldl P2PClient.act client
        user := r.1
        delivered := c.delivered ++ [(header, body)]
        asked := c.asked ++ r.2 }

/-- The number of bytes that were received and not delivered. -/
def undelivered (c : Connection σ) : ℕ :=
  c.client.request.length + c.client.receivingBodyStream.length + c.client.buffer.size
    + c.client.sock.incoming.flatten.length

/-- The socket calls its handler: `advance_state` from the run loop. A message takes at least one
byte, so that many rounds are enough. -/
def ready (p : Framing) (handle : Handler σ) (c : Connection σ) : Option (Connection σ) :=
  match c.client.advanceState p with
  | none => none
  | some (client, false) => some { c with client := client }
  | some (client, true) =>
    onRequestReady p handle (c.undelivered + 2) { c with client := client }

/-- What happens to a connection: bytes arrive, the socket reports it, or the user acts. -/
inductive Event
  | arrive (pieces : List Bytes) (accepts : List ℕ)
  | ready
  | act (action : Action)

def step (p : Framing) (handle : Handler σ) (c : Connection σ) : Event → Option (Connection σ)
  | .arrive pieces accepts =>
    some { c with client := { c.client with sock := c.client.sock.arrive pieces accepts } }
  | .ready => c.ready p handle
  | .act action => some { c with client := c.client.act action, asked := c.asked ++ [action] }

def run (p : Framing) (handle : Handler σ) : List Event → Connection σ → Option (Connection σ)
  | [], c => some c
  | e :: events, c =>
    match c.step p handle e with
    | none => none
    | some c' => run p handle events c'

end Connection

/-! ## The Levin protocol -/

namespace LevinProtocol

def signature : ℕ := 0x0101010101012101
def packetResponse : ℕ := 0x00000002
def defaultMaxPacketSize : ℕ := 100000000

structure Command where
  command : UInt32 := 0
  isNotify : Bool := false
  isResponse : Bool := false
  deriving DecidableEq, Repr

/-- The number in the `n` bytes at an offset, lowest byte first. -/
def field (raw : Bytes) (offset n : ℕ) : ℕ := beNat ((raw.drop offset).take n).reverse

/-- `HEADER_SIZE`, the size of `bucket_head2`: signature, size of the body, whether an answer is
wanted, command, return code, flags and version. -/
def headerSize : ℕ := 8 + 8 + 1 + 4 + 4 + 4 + 4

def readCommandHeader (raw : Bytes) : Except String (Command × ℕ) :=
  if raw.length ≠ headerSize then .error "Levin wrong header size"
  else if field raw 0 8 ≠ signature then .error "Levin signature mismatch"
  else if defaultMaxPacketSize < field raw 8 8 then .error "Levin packet size is too big"
  else .ok ({
    command := UInt32.ofNat (field raw 17 4)
    isNotify := field raw 16 1 == 0
    isResponse := field raw 25 4 &&& packetResponse == packetResponse }, field raw 8 8)

def framing : Framing where
  headerSize := headerSize
  onRequestHeader raw := (readCommandHeader raw).map (·.2)
  headerSize_pos := by decide
  headerSize_le := by decide

end LevinProtocol

end CryoNero.P2p
