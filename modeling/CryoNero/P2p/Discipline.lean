import CryoNero.P2p.Framing
import CryoNero.P2p.Session
import CryoNero.Store.Outcome

/-!
# Who is called back when

The log of a connection is judged entry by entry, each by those before it (`Each`). A handler that runs
only after a handshake has the handshake of a peer before it, whatever the node does: the version of a
session is not zero only while the handshake is in the log (`Kept`).

Nothing is to be called back once the connection was given up. A closed client delivers nothing, so
this can fail within one message only: a handler has disconnected, the session was reset, and the loop
reports the first message after a handshake. The runs in which no handler returns so stay silent.
-/

namespace CryoNero.P2p

open Seria Store

/-! ## Judging a log -/

/-- Every entry is judged by those before it. -/
def Each {α : Type} (Q : List α → α → Prop) (l : List α) : Prop :=
  ∀ before e after, l = before ++ e :: after → Q before e

theorem each_nil {α : Type} (Q : List α → α → Prop) : Each Q [] := by
  intro before e after h
  exact absurd h.symm (List.append_ne_nil_of_right_ne_nil _ (List.cons_ne_nil _ _))

theorem Each.concat {α : Type} {Q : List α → α → Prop} {l : List α} {e : α} (h : Each Q l)
    (he : Q l e) : Each Q (l ++ [e]) := by
  intro before e' after heq
  rcases List.eq_nil_or_concat after with rfl | ⟨init, last, rfl⟩
  · obtain ⟨rfl, hlast⟩ := List.append_inj' heq rfl
    rw [← List.cons.inj hlast |>.1]
    exact he
  · rw [List.concat_eq_append, ← List.cons_append, ← List.append_assoc] at heq
    obtain ⟨rfl, -⟩ := List.append_inj' heq rfl
    exact h before e' init rfl

/-! ## Clients -/

namespace P2PClient

/-- A client that is closed holds nothing. -/
structure Tidy (p : Framing) (c : P2PClient) : Prop where
  sound : c.Sound p
  dead : c.sock.isOpen = false → c.held = []

variable {p : Framing} {c : P2PClient}

theorem Tidy.write (h : c.Tidy p) : c.write.Tidy p := by
  obtain ⟨-, -, -, -, -, -, hopen, -⟩ := c.write_spec
  refine ⟨sound_write h.sound, fun hclosed ↦ ?_⟩
  have hle := c.length_held_write
  rw [h.dead (hopen.symm.trans hclosed)] at hle
  exact List.eq_nil_of_length_eq_zero (Nat.le_zero.mp hle)

theorem Tidy.send (h : c.Tidy p) (body : Bytes) : (c.send body).Tidy p :=
  Tidy.write ⟨⟨h.sound.length_impl, h.sound.idle, h.sound.busy⟩, h.dead⟩

theorem Tidy.sendShutdown (h : c.Tidy p) : c.sendShutdown.Tidy p :=
  Tidy.write ⟨⟨h.sound.length_impl, h.sound.idle, h.sound.busy⟩, h.dead⟩

theorem Tidy.disconnect (h : c.Tidy p) : c.disconnect.Tidy p :=
  ⟨sound_disconnect h.sound, fun _ ↦ rfl⟩

theorem isOpen_send (c : P2PClient) (body : Bytes) : (c.send body).sock.isOpen = c.sock.isOpen :=
  (write_spec _).2.2.2.2.2.2.1

private theorem isOpen_sendShutdown (c : P2PClient) : c.sendShutdown.sock.isOpen = c.sock.isOpen :=
  (write_spec _).2.2.2.2.2.2.1

/-- Reading keeps a client tidy, and does not open it. -/
theorem Tidy.advanceState (h : c.Tidy p) :
    ∃ c' flag, c.advanceState p = some (c', flag) ∧ c'.Tidy p ∧
      (c'.sock.isOpen = true → c.sock.isOpen = true) := by
  have hwrite := h.write
  have hopen : c.write.sock.isOpen = c.sock.isOpen := c.write_spec.2.2.2.2.2.2.1
  rw [P2PClient.advanceState]
  split_ifs with hbusy
  · exact ⟨_, _, rfl, hwrite, hopen ▸ id⟩
  · obtain ⟨c', flag, hread, hsound, -, -, -, houtcome⟩ := read_spec hwrite.sound
    refine ⟨c', flag, hread, ?_⟩
    rcases houtcome with ⟨hsame, hheld⟩ | ⟨hclosed, -⟩
    · refine ⟨⟨hsound, fun hshut ↦ ?_⟩, fun hopen' ↦ ?_⟩
      · rw [hheld]
        exact hwrite.dead (hsame.isOpen.symm.trans hshut)
      · rw [← hopen, ← hsame.isOpen, hopen']
    · refine ⟨⟨hsound, fun _ ↦ ?_⟩, fun hopen' ↦ ?_⟩
      · rw [hclosed]
        rfl
      · rw [hclosed] at hopen'
        cases hopen'

/-- A message is delivered by an open client only, which stays open. -/
theorem Tidy.readNextRequest (h : c.Tidy p) :
    ∃ c' next, c.readNextRequest p = some (c', next) ∧ c'.Tidy p ∧
      (c'.sock.isOpen = true → c.sock.isOpen = true) ∧
      ∀ m, next = some m → c'.sock.isOpen = true := by
  obtain ⟨c₁, flag, hadvance, htidy, hopen⟩ := h.advanceState
  rw [P2PClient.readNextRequest, hadvance]
  dsimp only
  by_cases hwait : (!c₁.receivingBody || c₁.receivingBodyStream.length != c₁.requestBodyLength) = true
  · rw [if_pos hwait]
    exact ⟨c₁, none, rfl, htidy, hopen, by rintro _ ⟨⟩⟩
  · rw [if_neg hwait]
    obtain ⟨hbody, -⟩ : c₁.Complete := by simpa [Complete] using hwait
    have hreq := (htidy.sound.busy hbody).1
    -- a closed client holds no header
    have hlive : c₁.sock.isOpen = true := by
      by_contra hclosed
      have hnil := htidy.dead (Bool.not_eq_true _ ▸ hclosed)
      rw [held, List.append_assoc, List.append_assoc] at hnil
      rw [(List.append_eq_nil_iff.mp hnil).1] at hreq
      exact absurd hreq.symm p.headerSize_pos.ne'
    refine ⟨_, _, rfl, ⟨⟨htidy.sound.length_impl, fun _ ↦ ⟨rfl, rfl⟩, fun hb ↦ by cases hb⟩,
      fun hclosed ↦ ?_⟩, hopen, fun _ _ ↦ hlive⟩
    exact Bool.noConfusion (hlive.symm.trans hclosed)

end P2PClient

/-! ## Handshakes -/

/-- There was a handshake of a peer of the same network; on the outgoing side it was not the node
itself. -/
def Shaken {σ : Type} (env : SessionEnv σ) (incoming : Bool) (log : List LogEntry) : Prop :=
  ∃ d, LogEntry.handshake d ∈ log ∧ d.networkId = env.networkId ∧
    (incoming = false → d.peerId ≠ env.uniqueNumber)

/-- A handler that runs only after a handshake has one before it. -/
def AfterShaken {σ : Type} (env : SessionEnv σ) (incoming : Bool) (before : List LogEntry) :
    LogEntry → Prop
  | .handler h => h.AfterHandshake → Shaken env incoming before
  | _ => True

/-- Handlers run and the first message is reported only while the connection was not given up. -/
def Silent (before : List LogEntry) : LogEntry → Prop
  | .handler _ => ∀ r, LogEntry.disconnected r ∉ before
  | .firstMessageAfterHandshake _ _ => ∀ r, LogEntry.disconnected r ∉ before
  | _ => True

theorem Shaken.mono {σ : Type} {env : SessionEnv σ} {incoming : Bool} {log : List LogEntry}
    (h : Shaken env incoming log) (e : LogEntry) : Shaken env incoming (log ++ [e]) := by
  obtain ⟨d, hd, hnetwork, hpeer⟩ := h
  exact ⟨d, List.mem_append_left _ hd, hnetwork, hpeer⟩

namespace Session

variable {σ : Type} {env : SessionEnv σ} {s s' : Session σ}

/-- What holds of a session between any two acts: a version that is not zero comes from a handshake on
this connection, and whoever was disconnected is closed. -/
structure Kept (env : SessionEnv σ) (s : Session σ) : Prop where
  tidy : s.client.Tidy LevinProtocol.framing
  reset : s.client.sock.isOpen = false → s.version = 0
  closed : ∀ r, LogEntry.disconnected r ∈ s.log → s.client.sock.isOpen = false
  shaken : s.version ≠ 0 → Shaken env s.incoming s.log
  after : Each (AfterShaken env s.incoming) s.log

/-! ## Acts -/

theorem Kept.note (h : Kept env s) {e : LogEntry} (he : AfterShaken env s.incoming s.log e)
    (hopen : ∀ r, e ≠ .disconnected r) : Kept env (s.note e) := by
  refine ⟨h.tidy, h.reset, fun r hr ↦ ?_, fun hv ↦ (h.shaken hv).mono e, h.after.concat he⟩
  rcases List.mem_append.mp hr with hold | hnew
  · exact h.closed r hold
  · exact absurd (List.mem_singleton.mp hnew).symm (hopen r)

theorem Kept.onDisconnect (h : Kept env s) (hclosed : s.client.sock.isOpen = false)
    (banReason : String) : Kept env (s.onDisconnect env banReason) :=
  ⟨h.tidy, fun _ ↦ rfl, fun _ _ ↦ hclosed, fun hv ↦ absurd rfl hv, h.after.concat trivial⟩

theorem Kept.disconnect (h : Kept env s) (banReason : String) :
    Kept env (s.disconnect env banReason) :=
  ⟨h.tidy.disconnect, fun _ ↦ rfl, fun _ _ ↦ rfl, fun hv ↦ absurd rfl hv, h.after.concat trivial⟩

theorem Kept.send (h : Kept env s) (body : Bytes) : Kept env (s.send body) := by
  have hopen : (s.send body).client.sock.isOpen = s.client.sock.isOpen :=
    P2PClient.isOpen_send s.client body
  exact ⟨h.tidy.send body, fun hclosed ↦ h.reset (hopen ▸ hclosed), fun r hr ↦ hopen ▸ h.closed r hr,
    h.shaken, h.after⟩

theorem Kept.sendShutdown (h : Kept env s) : Kept env s.sendShutdown := by
  have hopen : s.sendShutdown.client.sock.isOpen = s.client.sock.isOpen :=
    P2PClient.isOpen_sendShutdown s.client
  exact ⟨h.tidy.sendShutdown, fun hclosed ↦ h.reset (hopen ▸ hclosed), fun r hr ↦ hopen ▸ h.closed r hr,
    h.shaken, h.after⟩

theorem Kept.perform (h : Kept env s) (a : Act) : Kept env (s.perform env a) := by
  rcases a with body | _ | banReason | data
  · exact h.send body
  · exact h.sendShutdown
  · exact h.disconnect banReason
  · exact ⟨h.tidy, h.reset, h.closed, h.shaken, h.after⟩

private theorem Kept.foldl_perform (h : Kept env s) (acts : List Act) :
    Kept env (acts.foldl (Session.perform env) s) := by
  induction acts generalizing s with
  | nil => exact h
  | cons a acts ih => exact ih (h.perform a)

theorem Kept.react (h : Kept env s) (r : Reaction σ) : Kept env (s.react env r).1 :=
  Kept.foldl_perform (s := { s with user := r.user })
    ⟨h.tidy, h.reset, h.closed, h.shaken, h.after⟩ r.acts

/-! ## Handlers -/

/-- A handshake is taken over while the client is open. -/
theorem Kept.shake (h : Kept env s) (hopen : s.client.sock.isOpen = true) {req : Payload}
    (hnetwork : req.nodeData.networkId = env.networkId)
    (hpeer : s.incoming = false → req.nodeData.peerId ≠ env.uniqueNumber) :
    Kept env (s.shake req) := by
  have hshaken : Shaken env s.incoming (s.log ++ [.handshake req.nodeData]) :=
    ⟨_, List.mem_append_right _ (List.mem_singleton_self _), hnetwork, hpeer⟩
  refine ⟨h.tidy, fun hclosed ↦ Bool.noConfusion (hopen.symm.trans hclosed), fun r hr ↦ ?_,
    fun _ ↦ hshaken, h.after.concat trivial⟩
  rcases List.mem_append.mp hr with hold | hnew
  · exact h.closed r hold
  · cases List.mem_singleton.mp hnew

theorem Kept.msgHandshakeRequest (h : Kept env s) (hopen : s.client.sock.isOpen = true)
    (req : Payload) (body : Bytes) : Kept env (s.msgHandshakeRequest env req body).1 := by
  rw [Session.msgHandshakeRequest]
  split_ifs with hincoming hnetwork
  · exact h.disconnect _
  · exact h.disconnect _
  · have hsend := h.send
      (LevinProtocol.sendReply CommandHandshake.id (env.encode s.user .handshakeReply))
    have hshake := Kept.shake hsend ((P2PClient.isOpen_send _ _).trans hopen) (not_not.mp hnetwork)
      fun hf ↦ absurd hf hincoming
    have hport : Kept env (((s.send (LevinProtocol.sendReply CommandHandshake.id
        (env.encode s.user .handshakeReply))).shake req).updateMyPort req.nodeData.myPort) :=
      ⟨hshake.tidy, hshake.reset, hshake.closed, hshake.shaken, hshake.after⟩
    exact hport.react _

theorem Kept.msgHandshakeResponse (h : Kept env s) (hopen : s.client.sock.isOpen = true)
    (req : Payload) (body : Bytes) : Kept env (s.msgHandshakeResponse env req body).1 := by
  rw [Session.msgHandshakeResponse]
  split_ifs with hincoming hnetwork hself
  · exact h.disconnect _
  · exact h.disconnect _
  · exact h.disconnect _
  · exact (h.shake hopen (not_not.mp hnetwork) fun _ ↦ hself).react _

theorem Kept.msgPingRequest (h : Kept env s) (body : Bytes) :
    Kept env (s.msgPingRequest env body).1 := by
  rw [Session.msgPingRequest]
  split_ifs
  · exact h.disconnect _
  · exact (h.send _).sendShutdown.react _

theorem Kept.msgPingResponse (h : Kept env s) (body : Bytes) :
    Kept env (s.msgPingResponse env body).1 := by
  rw [Session.msgPingResponse]
  split_ifs
  · exact h.disconnect _
  · exact h.react _

theorem Kept.prepare (h : Kept env s) (handler : LevinHandler) (req : Payload) :
    Kept env (s.prepare env handler req) := by
  have hsync : Kept env { s with lastReceivedSyncData := req.payloadData } :=
    ⟨h.tidy, h.reset, h.closed, h.shaken, h.after⟩
  rw [Session.prepare.eq_def]
  split
  · exact hsync.send _
  · exact hsync
  · exact h

theorem Kept.run (h : Kept env s) (hopen : s.client.sock.isOpen = true) {handler : LevinHandler}
    (hshaken : handler.AfterHandshake → Shaken env s.incoming s.log) (body : Bytes) :
    Kept env (s.run env handler body).1 := by
  have hnote : Kept env (s.note (.handler handler)) := h.note hshaken nofun
  rw [Session.run]
  cases env.decode handler body with
  | none => exact hnote.disconnect _
  | some req =>
    dsimp only
    split
    · exact hnote.msgHandshakeRequest hopen req body
    · exact hnote.msgHandshakeResponse hopen req body
    · exact hnote.msgPingRequest body
    · exact hnote.msgPingResponse body
    · exact (hnote.prepare _ req).react _

/-! ## Messages -/

theorem Kept.finish {q : Session σ × Option String} (h : Kept env q.1) :
    Kept env (Session.finish env q).1 := by
  rw [Session.finish]
  split
  · exact h
  · exact h.disconnect _

theorem Kept.reportFirstMessage (h : Kept env s) : Kept env (s.reportFirstMessage env).1 := by
  rw [Session.reportFirstMessage]
  split_ifs
  · exact h
  · have hflag : Kept env { s with firstMessageAfterHandshakeProcessed := true } :=
      ⟨h.tidy, h.reset, h.closed, h.shaken, h.after⟩
    have hnote : Kept env ({ s with firstMessageAfterHandshakeProcessed := true }.note
        (.firstMessageAfterHandshake s.lastReceivedUniqueNumber s.address)) :=
      hflag.note trivial fun _ he ↦ LogEntry.noConfusion he
    exact hnote.react _

private theorem not_afterHandshake_of_lookup {cmd : UInt32 × Bool} {handler : LevinHandler}
    (h : beforeHandshakeHandlers.lookup cmd = some handler) : ¬handler.AfterHandshake := by
  obtain ⟨l₁, l₂, hlist, -⟩ := List.lookup_eq_some_iff.mp h
  have hmem : (cmd, handler) ∈ beforeHandshakeHandlers := by
    rw [hlist]
    exact List.mem_append_right _ List.mem_cons_self
  simp only [beforeHandshakeHandlers, List.mem_cons, Prod.mk.injEq, List.not_mem_nil, or_false] at hmem
  rw [LevinHandler.AfterHandshake]
  rcases hmem with ⟨-, rfl⟩ | ⟨-, rfl⟩ | ⟨-, rfl⟩ | ⟨-, rfl⟩ <;> simp [afterHandshakeHandlers]

theorem Kept.onMessage (h : Kept env s) (hopen : s.client.sock.isOpen = true)
    (header body : Bytes) : Kept env (s.onMessage env header body).1 := by
  rw [Session.onMessage]
  cases LevinProtocol.readCommandHeader header with
  | error banReason => exact h.disconnect _
  | ok p =>
    obtain ⟨cmd, n⟩ := p
    dsimp only
    split_ifs with hshake
    · cases hlookup : beforeHandshakeHandlers.lookup (cmd.command, cmd.isResponse) with
      | none => exact h.disconnect _
      | some handler =>
        exact (h.run hopen (fun hafter ↦ absurd hafter (not_afterHandshake_of_lookup hlookup)) body).finish
    · cases hlookup : afterHandshakeHandlers.lookup (cmd.command, cmd.isResponse) with
      | none => exact h
      | some handler =>
        have hversion : s.version ≠ 0 := by simpa [P2PClientBasic.handshakeOk] using hshake
        have hrun : Kept env (s.run env handler body).1 := h.run hopen (fun _ ↦ h.shaken hversion) body
        refine Kept.finish ?_
        rw [runAfterHandshake]
        split
        · rename_i s₁ what hs₁
          rw [hs₁] at hrun
          exact hrun
        · rename_i s₁ hs₁
          rw [hs₁] at hrun
          exact hrun.reportFirstMessage

theorem Kept.received (h : Kept env s) {client : P2PClient}
    (hclient : client.Tidy LevinProtocol.framing)
    (hopen : client.sock.isOpen = true → s.client.sock.isOpen = true) :
    Kept env (s.received env client) := by
  rw [Session.received]
  split_ifs with hgone
  · rw [Bool.and_eq_true, Bool.not_eq_true'] at hgone
    exact ⟨hclient, fun _ ↦ rfl, fun _ _ ↦ hgone.2, fun hv ↦ absurd rfl hv, h.after.concat trivial⟩
  · rw [Bool.and_eq_true, Bool.not_eq_true', not_and] at hgone
    refine ⟨hclient, fun hclosed ↦ h.reset ?_, fun r hr ↦ ?_, h.shaken, h.after⟩
    · by_contra hlive
      exact hgone (Bool.not_eq_false _ ▸ hlive) hclosed
    · by_contra hlive
      have hlive := hopen (Bool.not_eq_false _ ▸ hlive)
      exact Bool.noConfusion (hlive.symm.trans (h.closed r hr))

theorem Kept.turn (h : Kept env s) : ∃ s' more, s.turn env = some (s', more) ∧ Kept env s' := by
  obtain ⟨client, next, hread, htidy, hopen, hnext⟩ := h.tidy.readNextRequest
  have hreceived := h.received htidy hopen
  rw [Session.turn, hread]
  rcases next with _ | ⟨header, body⟩
  · exact ⟨_, _, rfl, hreceived⟩
  · have hlive : (s.received env client).client.sock.isOpen = true := by
      rw [Session.received]
      split_ifs <;> exact hnext _ rfl
    exact ⟨_, _, rfl, hreceived.onMessage hlive header body⟩

/-! ## Runs -/

theorem Kept.onConnect (h : Kept env s) : Kept env (s.onConnect env) := by
  rw [Session.onConnect]
  split_ifs
  · exact h
  · exact h.send _

private theorem kept_start (incoming : Bool) (address : NetworkAddress) (user : σ) :
    Kept env (start env incoming address user) := by
  refine Kept.onConnect ⟨⟨⟨List.length_replicate, fun _ ↦ ⟨rfl, rfl⟩, nofun⟩, nofun⟩, nofun, nofun, ?_,
    each_nil _⟩
  exact fun hv ↦ absurd rfl hv

theorem Kept.step (h : Kept env s) {e : Event} (hs : s.step env e = .ok s') : Kept env s' := by
  rcases e with ⟨pieces, accepts⟩ | _ | _ | a | address
  · obtain rfl := Except.ok.inj hs
    have hopen : (s.client.sock.arrive pieces accepts).isOpen = s.client.sock.isOpen := by
      rw [Socket.arrive]
      split_ifs <;> rfl
    refine ⟨⟨⟨h.tidy.sound.length_impl, h.tidy.sound.idle, h.tidy.sound.busy⟩, fun hclosed ↦ ?_⟩,
      fun hclosed ↦ h.reset (hopen ▸ hclosed), fun r hr ↦ hopen ▸ h.closed r hr, h.shaken, h.after⟩
    have hclosed : s.client.sock.isOpen = false := hopen ▸ hclosed
    have hsame : s.client.sock.arrive pieces accepts = s.client.sock := by
      rw [Socket.arrive, hclosed]
      rfl
    dsimp only
    rw [hsame]
    exact h.tidy.dead hclosed
  · obtain ⟨client, flag, hread, htidy, hopen⟩ := h.tidy.advanceState
    rw [Session.step, hread] at hs
    obtain rfl := Except.ok.inj hs
    exact h.received htidy hopen
  · obtain ⟨s₁, more, hturn, hkept⟩ := h.turn
    rw [Session.step, hturn] at hs
    obtain rfl := Except.ok.inj hs
    exact hkept
  · obtain rfl := Except.ok.inj hs
    exact h.perform a
  · rw [Session.step] at hs
    split_ifs at hs with hopen
    obtain rfl := Except.ok.inj hs
    have hversion := h.reset (Bool.not_eq_true _ ▸ hopen)
    refine Kept.onConnect ⟨⟨⟨h.tidy.sound.length_impl, h.tidy.sound.idle, h.tidy.sound.busy⟩, by rintro ⟨⟩⟩,
      by rintro ⟨⟩, by rintro _ ⟨⟩, fun hv ↦ absurd hversion hv, each_nil _⟩

/-- How a session starts. -/
def Started (env : SessionEnv σ) (s : Session σ) : Prop :=
  ∃ incoming address user, s = start env incoming address user

theorem kept_of_reaches {guard : Session σ → Event → Prop}
    (h : Reaches (step env) guard (Started env) s) : Kept env s := by
  refine h.invariant ?_ fun s e s' _ hkept _ hs ↦ hkept.step hs
  rintro s ⟨incoming, address, user, rfl⟩
  exact kept_start incoming address user

/-! ## Silence -/

private theorem silent_perform (h : Each Silent s.log) (a : Act) : Each Silent (s.perform env a).log := by
  rcases a with body | _ | banReason | data
  · exact h
  · exact h
  · exact h.concat trivial
  · exact h

theorem silent_react (h : Each Silent s.log) (r : Reaction σ) :
    Each Silent (s.react env r).1.log := by
  refine List.foldlRecOn r.acts _ (motive := fun s : Session σ ↦ Each Silent s.log) h ?_
  exact fun s hs a _ ↦ silent_perform hs a

theorem silent_onMsg (h : Each Silent s.log) (handler : LevinHandler) (body : Bytes) :
    Each Silent (s.onMsg env handler body).1.log := silent_react h _

private theorem Kept.silent_note (h : Kept env s) (hs : Each Silent s.log)
    (hopen : s.client.sock.isOpen = true) (e : LogEntry) : Each Silent (s.note e).log := by
  have hnone (r : String) : LogEntry.disconnected r ∉ s.log :=
    fun hr ↦ Bool.noConfusion (hopen.symm.trans (h.closed r hr))
  refine hs.concat ?_
  cases e with
  | handler _ => exact hnone
  | firstMessageAfterHandshake _ _ => exact hnone
  | handshake _ => exact trivial
  | disconnected _ => exact trivial

private theorem Kept.silent_run (h : Kept env s) (hs : Each Silent s.log)
    (hopen : s.client.sock.isOpen = true) (handler : LevinHandler) (body : Bytes) :
    Each Silent (s.run env handler body).1.log := by
  have hnote := h.silent_note hs hopen (.handler handler)
  rw [Session.run]
  cases env.decode handler body with
  | none => exact hnote.concat trivial
  | some req =>
    dsimp only
    split
    · rw [Session.msgHandshakeRequest]
      split_ifs
      · exact hnote.concat trivial
      · exact hnote.concat trivial
      · refine silent_onMsg ?_ _ _
        exact hnote.concat (e := LogEntry.handshake req.nodeData) trivial
    · rw [Session.msgHandshakeResponse]
      split_ifs
      · exact hnote.concat trivial
      · exact hnote.concat trivial
      · exact hnote.concat trivial
      · refine silent_onMsg ?_ _ _
        exact hnote.concat (e := LogEntry.handshake req.nodeData) trivial
    · rw [Session.msgPingRequest]
      split_ifs
      · exact hnote.concat trivial
      · refine silent_onMsg ?_ _ _
        exact hnote
    · rw [Session.msgPingResponse]
      split_ifs
      · exact hnote.concat trivial
      · exact silent_react hnote _
    · refine silent_react ?_ _
      rw [prepare.eq_def]
      split <;> exact hnote

/-- The handler of a message returns with the connection as it was, or it throws: the body can be read,
and the node does not disconnect. -/
def Returns (env : SessionEnv σ) (s : Session σ) (handler : LevinHandler) (body : Bytes) : Prop :=
  ∃ req, env.decode handler body = some req ∧
    ((∀ r, Act.disconnect r ∉ (env.onMsg (s.prepare env handler req).toP2PClientBasic s.user handler
      body).acts) ∨
      (env.onMsg (s.prepare env handler req).toP2PClientBasic s.user handler body).throws ≠ none)

private theorem prepare_note (e : LogEntry) (handler : LevinHandler) (req : Payload) :
    (s.note e).prepare env handler req = (s.prepare env handler req).note e := by
  cases handler <;> rfl

private theorem user_prepare (handler : LevinHandler) (req : Payload) :
    (s.prepare env handler req).user = s.user := by
  cases handler <;> rfl

private theorem run_of_afterHandshake {handler : LevinHandler} (hafter : handler.AfterHandshake)
    {body : Bytes} {req : Payload} (hreq : env.decode handler body = some req) :
    s.run env handler body = ((s.prepare env handler req).note (.handler handler)).react env
      (env.onMsg (s.prepare env handler req).toP2PClientBasic s.user handler body) := by
  have hrun : s.run env handler body =
      ((s.note (.handler handler)).prepare env handler req).onMsg env handler body := by
    rw [Session.run, hreq]
    rw [LevinHandler.AfterHandshake] at hafter
    cases handler <;> first | rfl | simp [afterHandshakeHandlers] at hafter
  have huser : (s.prepare env handler req).user = s.user := user_prepare handler req
  rw [hrun, prepare_note, ← huser]
  rfl

private theorem isOpen_foldl_perform {acts : List Act} (h : ∀ r, Act.disconnect r ∉ acts) :
    (acts.foldl (Session.perform env) s).client.sock.isOpen = s.client.sock.isOpen := by
  induction acts generalizing s with
  | nil => rfl
  | cons a acts ih =>
    have hrest := ih (s := s.perform env a) fun r hr ↦ h r (List.mem_cons_of_mem _ hr)
    refine hrest.trans ?_
    rcases a with body | _ | banReason | data
    · exact P2PClient.isOpen_send _ _
    · exact P2PClient.isOpen_sendShutdown _
    · exact absurd List.mem_cons_self (h banReason)
    · rfl

private theorem isOpen_prepare (handler : LevinHandler) (req : Payload) :
    (s.prepare env handler req).client.sock.isOpen = s.client.sock.isOpen := by
  rw [prepare.eq_def]
  split
  · exact P2PClient.isOpen_send _ _
  · rfl
  · rfl

private theorem Kept.silent_runAfterHandshake (h : Kept env s) (hs : Each Silent s.log)
    (hopen : s.client.sock.isOpen = true) {handler : LevinHandler}
    (hafter : handler.AfterHandshake) (hshaken : Shaken env s.incoming s.log) {body : Bytes}
    (hreturns : Returns env s handler body) :
    Each Silent (s.runAfterHandshake env handler body).1.log := by
  have hkept : Kept env (s.run env handler body).1 := h.run hopen (fun _ ↦ hshaken) body
  have hsilent := h.silent_run hs hopen handler body
  rw [runAfterHandshake]
  split
  · rename_i s₁ what hs₁
    rw [hs₁] at hsilent
    exact hsilent
  · rename_i s₁ hs₁
    rw [hs₁] at hkept hsilent
    rw [Session.reportFirstMessage]
    split_ifs
    · exact hsilent
    · obtain ⟨req, hreq, hquiet | hthrows⟩ := hreturns
      · have hlive : s₁.client.sock.isOpen = true := by
          rw [run_of_afterHandshake hafter hreq] at hs₁
          rw [← (Prod.mk.inj hs₁).1, isOpen_foldl_perform hquiet]
          exact (isOpen_prepare _ _).trans hopen
        have hflag : Kept env { s₁ with firstMessageAfterHandshakeProcessed := true } :=
          ⟨hkept.tidy, hkept.reset, hkept.closed, hkept.shaken, hkept.after⟩
        exact silent_react (hflag.silent_note hsilent hlive _) _
      · rw [run_of_afterHandshake hafter hreq] at hs₁
        exact absurd (Prod.mk.inj hs₁).2 hthrows

/-- Meets the condition: the handler of a message that comes after a handshake returns. -/
def Guarded (env : SessionEnv σ) (s : Session σ) : Event → Prop
  | .turn => ∀ client header body cmd n handler,
      s.client.readNextRequest LevinProtocol.framing = some (client, some (header, body)) →
      LevinProtocol.readCommandHeader header = .ok (cmd, n) → s.handshakeOk = true →
      afterHandshakeHandlers.lookup (cmd.command, cmd.isResponse) = some handler →
      Returns env { s with client := client } handler body
  | _ => True

private theorem silent_finish {q : Session σ × Option String} (h : Each Silent q.1.log) :
    Each Silent (finish env q).1.log := by
  rw [Session.finish]
  split
  · exact h
  · exact h.concat trivial

private theorem silent_received (h : Each Silent s.log) (client : P2PClient) :
    Each Silent (s.received env client).log := by
  rw [Session.received]
  split_ifs
  · exact h.concat trivial
  · exact h

private theorem Kept.silent_turn (h : Kept env s) (hs : Each Silent s.log) (hguard : Guarded env s .turn)
    {q : Session σ × Bool} (hturn : s.turn env = some q) : Each Silent q.1.log := by
  obtain ⟨client, next, hread, htidy, hopen, hnext⟩ := h.tidy.readNextRequest
  rw [Session.turn, hread] at hturn
  rcases next with _ | ⟨header, body⟩
  · obtain rfl := Option.some.inj hturn
    exact silent_received hs client
  obtain rfl := Option.some.inj hturn
  have hlive := hnext _ rfl
  -- the client that delivers a message is not disconnected by a header
  have hreceived : s.received env client = { s with client := client } := by
    rw [Session.received, hlive, Bool.not_true, Bool.and_false]
    rfl
  have hkept := h.received htidy hopen
  rw [hreceived] at hkept ⊢
  rw [Session.onMessage]
  cases hheader : LevinProtocol.readCommandHeader header with
  | error banReason => exact hs.concat trivial
  | ok p =>
    obtain ⟨cmd, n⟩ := p
    dsimp only
    split_ifs with hshake
    · cases beforeHandshakeHandlers.lookup (cmd.command, cmd.isResponse) with
      | none => exact hs.concat trivial
      | some handler => exact silent_finish (hkept.silent_run hs hlive handler body)
    · cases hlookup : afterHandshakeHandlers.lookup (cmd.command, cmd.isResponse) with
      | none => exact hs
      | some handler =>
        have hversion : s.version ≠ 0 := by simpa [P2PClientBasic.handshakeOk] using hshake
        have hmem : ∃ cmd, (cmd, handler) ∈ afterHandshakeHandlers := by
          obtain ⟨l₁, l₂, hlist, -⟩ := List.lookup_eq_some_iff.mp hlookup
          exact ⟨_, hlist ▸ List.mem_append_right _ List.mem_cons_self⟩
        exact silent_finish (hkept.silent_runAfterHandshake hs hlive hmem (hkept.shaken hversion)
          (hguard _ _ _ _ _ _ hread hheader (Bool.not_eq_false _ ▸ hshake) hlookup))

private theorem silent_of_reaches (h : Reaches (step env) (Guarded env) (Started env) s) :
    Each Silent s.log := by
  refine h.invariant (I := fun s ↦ Each Silent s.log) ?_ ?_
  · rintro s ⟨incoming, address, user, rfl⟩
    rw [start, Session.onConnect]
    split_ifs <;> exact each_nil _
  · intro s e s' hreach hsilent hguard hs
    have hkept := kept_of_reaches hreach
    rcases e with ⟨pieces, accepts⟩ | _ | _ | a | address
    · obtain rfl := Except.ok.inj hs
      exact hsilent
    · obtain ⟨client, flag, hread, -⟩ := hkept.tidy.advanceState
      rw [Session.step, hread] at hs
      obtain rfl := Except.ok.inj hs
      exact silent_received hsilent client
    · obtain ⟨s₁, more, hturn, -⟩ := hkept.turn
      rw [Session.step, hturn] at hs
      obtain rfl := Except.ok.inj hs
      exact hkept.silent_turn hsilent hguard hturn
    · obtain rfl := Except.ok.inj hs
      exact silent_perform hsilent a
    · rw [Session.step] at hs
      split_ifs at hs
      obtain rfl := Except.ok.inj hs
      rw [Session.onConnect]
      split_ifs <;> exact each_nil _

/-- What the socket's handler does is a read and turns one after the other. -/
theorem ready_eq_steps (h : s.ready env = some s') :
    ∃ n, (Event.advance :: List.replicate n Event.turn).foldlM (step env) s = .ok s' := by
  have hloop (fuel : ℕ) : ∀ s : Session σ, onRequestReady env fuel s = some s' →
      ∃ n, (List.replicate n Event.turn).foldlM (step env) s = .ok s' := by
    induction fuel with
    | zero => exact fun s h ↦ by cases h
    | succ fuel ih =>
      intro s h
      rw [onRequestReady] at h
      cases hturn : s.turn env with
      | none =>
        rw [hturn] at h
        cases h
      | some p =>
        obtain ⟨s₁, more⟩ := p
        rw [hturn] at h
        have hstep : s.step env .turn = .ok s₁ := by rw [Session.step, hturn]
        cases more with
        | false =>
          obtain rfl := Option.some.inj h
          exact ⟨1, by rw [List.replicate_one, List.foldlM_cons, hstep]; rfl⟩
        | true =>
          obtain ⟨n, hn⟩ := ih s₁ h
          exact ⟨n + 1, by rw [List.replicate_succ, List.foldlM_cons, hstep]; exact hn⟩
  rw [ready] at h
  cases hread : s.client.advanceState LevinProtocol.framing with
  | none =>
    rw [hread] at h
    cases h
  | some p =>
    obtain ⟨client, flag⟩ := p
    rw [hread] at h
    have hstep : s.step env .advance = .ok (s.received env client) := by rw [Session.step, hread]
    cases flag with
    | false =>
      obtain rfl := Option.some.inj h
      exact ⟨0, by rw [List.replicate_zero, List.foldlM_cons, hstep]; rfl⟩
    | true =>
      obtain ⟨n, hn⟩ := hloop _ _ h
      exact ⟨n, by rw [List.foldlM_cons, hstep]; exact hn⟩

/-- **The discipline of a session.** In every run a handler that runs only after a handshake has the
handshake of a peer before it on the same connection. Where no handler of such a message disconnects
and returns, nothing is called back after a connection was given up. -/
theorem session_discipline (env : SessionEnv σ) :
    (∀ s, Reaches (step env) (fun _ _ ↦ True) (Started env) s →
      Each (AfterShaken env s.incoming) s.log) ∧
    ∀ s, Reaches (step env) (Guarded env) (Started env) s →
      Each (AfterShaken env s.incoming) s.log ∧ Each Silent s.log :=
  ⟨fun _ h ↦ (kept_of_reaches h).after, fun _ h ↦ ⟨(kept_of_reaches h).after, silent_of_reaches h⟩⟩

end Session

/-! ## A sample -/

/-- A node that reads a handshake of the network from everything, and gives up a peer for some
messages. -/
def sampleNode (refused : LevinHandler → Bool) : SessionEnv Unit where
  networkId := 7
  uniqueNumber := 5
  decode _ _ := some { nodeData := { networkId := 7, version := 1, peerId := 9 } }
  encode _ _ := []
  onMsg _ _ h _ :=
    { user := (), acts := if refused h then [.disconnect "NOTIFY_NEW_BLOCK add_block BAN"] else [] }
  onFirstMessageAfterHandshake _ _ := { user := () }
  onDisconnect _ _ := ()

/-- A peer shakes hands and sends a block. -/
def sampleEvents : List Session.Event := [
  .arrive [LevinProtocol.sendMessage CommandHandshake.id [] true ++
    LevinProtocol.sendMessage NotifyNewBlock.id [] false] [], .turn, .turn]

def sampleRun (refused : LevinHandler → Bool) : Except Unit (Session Unit) :=
  sampleEvents.foldlM (Session.step (sampleNode refused))
    (Session.start (sampleNode refused) true {} ())

/-- A peer whose block is not refused is reported. -/
theorem session_discipline_sample : ∃ s ∈ (sampleRun fun _ ↦ false).toOption,
    s.log = [.handler .handshakeRequest, .handshake { networkId := 7, version := 1, peerId := 9 },
      .handler .notifyNewBlock, .firstMessageAfterHandshake 9 {}] ∧
      Each (AfterShaken (sampleNode fun _ ↦ false) s.incoming) s.log ∧ Each Silent s.log := by
  obtain ⟨s, hs, hlog⟩ : ∃ s ∈ (sampleRun fun _ ↦ false).toOption,
      s.log = [.handler .handshakeRequest, .handshake { networkId := 7, version := 1, peerId := 9 },
        .handler .notifyNewBlock, .firstMessageAfterHandshake 9 {}] := by decide +kernel
  have hguard (e : Session.Event) (s : Session Unit) :
      Session.Guarded (sampleNode fun _ ↦ false) s e := by
    rcases e with ⟨_, _⟩ | _ | _ | _ | _
    · exact trivial
    · exact trivial
    · exact fun _ _ _ _ _ _ _ _ _ _ ↦ ⟨_, rfl, .inl fun _ ↦ List.not_mem_nil⟩
    · exact trivial
    · exact trivial
  exact ⟨s, hs, hlog, (Session.session_discipline _).2 s
    ((Reaches.start ⟨true, {}, (), rfl⟩).steps (fun e _ ↦ hguard e) (toOption_eq_some.mp hs))⟩

/-- A peer that is given up for its first message is reported as a good one after that, with the
number of a session that was reset. -/
theorem first_message_after_disconnect : ∃ s ∈ (sampleRun (· = .notifyNewBlock)).toOption,
    s.log = [.handler .handshakeRequest, .handshake { networkId := 7, version := 1, peerId := 9 },
      .handler .notifyNewBlock, .disconnected "NOTIFY_NEW_BLOCK add_block BAN",
      .firstMessageAfterHandshake 0 {}] ∧ ¬Each Silent s.log := by
  obtain ⟨s, hs, hlog⟩ : ∃ s ∈ (sampleRun (· = .notifyNewBlock)).toOption,
      s.log = [.handler .handshakeRequest, .handshake { networkId := 7, version := 1, peerId := 9 },
        .handler .notifyNewBlock, .disconnected "NOTIFY_NEW_BLOCK add_block BAN",
        .firstMessageAfterHandshake 0 {}] := by decide +kernel
  refine ⟨s, hs, hlog, fun h ↦ ?_⟩
  have hlast := h [.handler .handshakeRequest,
    .handshake { networkId := 7, version := 1, peerId := 9 }, .handler .notifyNewBlock,
    .disconnected "NOTIFY_NEW_BLOCK add_block BAN"] (.firstMessageAfterHandshake 0 {}) [] hlog
  exact hlast "NOTIFY_NEW_BLOCK add_block BAN" (by decide)

end CryoNero.P2p
