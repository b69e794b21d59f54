import CryoNero.P2p.Loops

/-!
# Framing does not depend on how the stream is cut

A stream is the messages that the peer sent, each a header and the body that its header announces.
Whatever pieces the stream arrives in, the user is given the messages of the stream, in order: what
was delivered, followed by what the client holds and by what has not arrived yet, is the stream.

The invariant is `Follows`. It is about the messages that were not delivered yet, because a message
that is delivered is taken off the front of them: the header fixes where the body ends, so the bytes
have only one reading. It covers clients that are closed or are shutting down as well; those deliver
nothing any more.
-/

namespace CryoNero.P2p

open Seria Store

/-- A message whose header announces its body. -/
def Framing.Valid (p : Framing) (m : Bytes × Bytes) : Prop :=
  m.1.length = p.headerSize ∧ p.onRequestHeader m.1 = .ok m.2.length

/-- The stream of messages. -/
def stream (messages : List (Bytes × Bytes)) : Bytes := messages.flatMap fun m ↦ m.1 ++ m.2

@[simp] theorem stream_nil : stream [] = [] := rfl

theorem stream_cons (m : Bytes × Bytes) (l : List (Bytes × Bytes)) :
    stream (m :: l) = m.1 ++ (m.2 ++ stream l) := by
  rw [stream, List.flatMap_cons, List.append_assoc]
  rfl

private theorem stream_append (k l : List (Bytes × Bytes)) : stream (k ++ l) = stream k ++ stream l :=
  List.flatMap_append

private theorem exists_cons_of_stream_eq {p : Framing} {l : List (Bytes × Bytes)}
    (hvalid : ∀ m ∈ l, p.Valid m) {header body rest : Bytes} (hm : p.Valid (header, body))
    (h : stream l = header ++ (body ++ rest)) :
    ∃ l', l = (header, body) :: l' ∧ stream l' = rest := by
  have hpos := p.headerSize_pos
  obtain ⟨hlen, hbody⟩ := hm
  rcases l with _ | ⟨m, l'⟩
  · have hnil : header = [] := (List.append_eq_nil_iff.mp h.symm).1
    rw [hnil] at hlen
    exact absurd hlen (by simpa using hpos.ne)
  · obtain ⟨hlen', hbody'⟩ := hvalid m (List.mem_cons_self ..)
    rw [stream_cons] at h
    obtain ⟨hheader, h⟩ := List.append_inj h (hlen'.trans hlen.symm)
    rw [hheader, hbody] at hbody'
    obtain ⟨hb, hrest⟩ := List.append_inj h (Except.ok.inj hbody').symm
    exact ⟨l', by rw [← hheader, ← hb], hrest⟩

namespace P2PClient

/-- The client is open and not about to be shut down. -/
def Live (c : P2PClient) : Prop := c.sock.isOpen = true ∧ c.waitingShutdown = false

/-- A client that reads `rest` followed by nothing else, of which `future` has not arrived. -/
structure Follows (p : Framing) (rest future : Bytes) (c : P2PClient) : Prop where
  sound : c.Sound p
  dead : c.sock.isOpen = false → c.held = []
  live : c.Live → c.sock.askedShutdown = false ∧ c.held ++ future = rest

/-! ## Writing -/

private theorem write_of_not_waiting {c : P2PClient} (h : c.waitingShutdown = false) :
    c.write.held = c.held ∧ c.write.sock.askedShutdown = c.sock.askedShutdown := by
  rw [write]
  simp [h, held]

theorem write_spec (c : P2PClient) :
    c.write.request = c.request ∧ c.write.requestBodyLength = c.requestBodyLength ∧
      c.write.receivingBody = c.receivingBody ∧
      c.write.receivingBodyStream = c.receivingBodyStream ∧ c.write.buffer = c.buffer ∧
      c.write.waitingShutdown = c.waitingShutdown ∧ c.write.sock.isOpen = c.sock.isOpen ∧
      (c.write.sock.incoming = c.sock.incoming ∨ c.write.sock.incoming = []) := by
  rw [write]
  split_ifs
  · refine ⟨rfl, rfl, rfl, rfl, rfl, rfl, ?_, ?_⟩ <;>
    · rw [Socket.shutdownBoth]
      split_ifs <;> simp
  · exact ⟨rfl, rfl, rfl, rfl, rfl, rfl, rfl, .inl rfl⟩

theorem sound_write {p : Framing} {c : P2PClient} (h : c.Sound p) : c.write.Sound p := by
  obtain ⟨hreq, hlen, hbody, hstream, hbuffer, -⟩ := c.write_spec
  refine ⟨?_, ?_, ?_⟩
  · rw [hbuffer]
    exact h.length_impl
  · rw [hbody, hreq, hstream]
    exact h.idle
  · rw [hbody, hreq, hstream, hlen]
    exact h.busy

theorem solid_write {c : P2PClient} (h : c.sock.Solid) : c.write.sock.Solid := by
  obtain ⟨-, -, -, -, -, -, -, hincoming | hincoming⟩ := c.write_spec
  · rwa [Socket.Solid, hincoming]
  · rw [Socket.Solid, hincoming]
    exact List.not_mem_nil

private theorem length_writeResponses_le (responses : List Bytes) (accepts : List ℕ) :
    (writeResponses responses accepts).1.length ≤ responses.length := by
  induction responses generalizing accepts with
  | nil => exact Nat.zero_le _
  | cons r rest ih =>
    rw [writeResponses]
    split
    · exact (ih _).trans (Nat.le_succ _)
    · exact le_rfl

theorem length_responses_write (c : P2PClient) :
    c.write.responses.length ≤ c.responses.length := by
  rw [write]
  split_ifs <;> exact length_writeResponses_le _ _

theorem length_held_write (c : P2PClient) : c.write.held.length ≤ c.held.length := by
  obtain ⟨hreq, -, -, hstream, hbuffer, -, -, hincoming⟩ := c.write_spec
  rw [held, held, hreq, hstream, hbuffer]
  rcases hincoming with h | h <;> simp [h]

theorem follows_write {p : Framing} {rest future : Bytes} {c : P2PClient}
    (h : c.Follows p rest future) : c.write.Follows p rest future := by
  obtain ⟨-, -, -, -, -, hwaiting, hopen, -⟩ := c.write_spec
  refine ⟨sound_write h.sound, fun hclosed ↦ ?_, fun hlive ↦ ?_⟩
  · have hle := c.length_held_write
    rw [h.dead (hopen.symm.trans hclosed)] at hle
    exact List.eq_nil_of_length_eq_zero (Nat.le_zero.mp hle)
  · have hlive' : c.Live := ⟨hopen.symm.trans hlive.1, hwaiting.symm.trans hlive.2⟩
    obtain ⟨hheld, hasked⟩ := write_of_not_waiting hlive'.2
    rw [hheld, hasked]
    exact h.live hlive'

private theorem live_write {c : P2PClient} : c.write.Live ↔ c.Live := by
  obtain ⟨-, -, -, -, -, hwaiting, hopen, -⟩ := c.write_spec
  rw [Live, Live, hwaiting, hopen]

/-! ## Reading -/

/-- The client goes on reading the stream: it stays live if it was, holds no more bytes, and no more
responses wait. -/
structure Goes (c c' : P2PClient) : Prop where
  live : c.Live → c'.Live
  length_held : c'.held.length ≤ c.held.length
  responses : c'.responses.length ≤ c.responses.length
  solid : c.sock.Solid → c'.sock.Solid

private theorem read_follows {p : Framing} {l : List (Bytes × Bytes)} (hvalid : ∀ m ∈ l, p.Valid m)
    {future : Bytes} {c : P2PClient} (h : c.Follows p (stream l) future) :
    ∃ c' flag, c.read p = some (c', flag) ∧ c'.Follows p (stream l) future ∧ Goes c c' ∧
      c'.waitingShutdown = c.waitingShutdown ∧
      (flag = true ↔ c'.Complete) ∧ (flag = false → c'.Starved p c.sock) := by
  obtain ⟨c', flag, hread, hsound, hwaiting, hflag, hstarved, houtcome⟩ := read_spec h.sound
  rcases houtcome with ⟨hsame, hheld⟩ | ⟨hclosed, hlong, reason, hrefused⟩
  · have hlive : c'.Live ↔ c.Live := by rw [Live, Live, hsame.isOpen, hsame.waitingShutdown]
    refine ⟨c', flag, hread, ⟨hsound, ?_, ?_⟩,
      ⟨hlive.mpr, by rw [hheld], by rw [hsame.responses], hsame.solid⟩, hwaiting, hflag, hstarved⟩
    · rw [hsame.isOpen, hheld]
      exact h.dead
    · rw [hlive, hsame.askedShutdown, hheld]
      exact h.live
  · -- only a client that is about to close can meet a header that is not one of the stream
    have hnotLive : ¬c.Live := fun hlive ↦ by
      obtain ⟨-, hstream⟩ := h.live hlive
      rcases l with _ | ⟨m, l⟩
      · have hpos := p.headerSize_pos
        rw [(List.append_eq_nil_iff.mp hstream).1] at hlong
        exact absurd hlong (by simpa using hpos.ne')
      · obtain ⟨hlen, hbody⟩ := hvalid m (List.mem_cons_self ..)
        have hheader : c.held.take p.headerSize = m.1 := by
          have htake := congrArg (List.take p.headerSize) hstream
          rwa [List.take_append_of_le_length hlong, stream_cons, List.take_left' hlen] at htake
        rw [hheader, hbody] at hrefused
        cases hrefused
    have hnil : c'.held = [] := congrArg held hclosed
    have hnotLive' : ¬c'.Live := fun hlive ↦ by
      rw [Live, hclosed] at hlive
      exact Bool.false_ne_true hlive.1
    refine ⟨c', flag, hread, ⟨hsound, fun _ ↦ hnil, fun hlive ↦ absurd hlive hnotLive'⟩,
      ⟨fun hlive ↦ absurd hlive hnotLive, by rw [hnil]; exact Nat.zero_le _, ?_, fun _ ↦ ?_⟩,
      hwaiting, hflag, hstarved⟩
    · rw [hclosed]
      exact Nat.zero_le _
    · rw [hclosed]
      exact List.not_mem_nil

theorem Goes.trans {c c₁ c₂ : P2PClient} (h : Goes c c₁) (h' : Goes c₁ c₂) : Goes c c₂ :=
  ⟨fun hlive ↦ h'.live (h.live hlive), h'.length_held.trans h.length_held,
    h'.responses.trans h.responses, fun hsolid ↦ h'.solid (h.solid hsolid)⟩

private theorem goes_write (c : P2PClient) : Goes c c.write :=
  ⟨live_write.mpr, c.length_held_write, c.length_responses_write, solid_write⟩

private theorem advanceState_follows {p : Framing} {l : List (Bytes × Bytes)}
    (hvalid : ∀ m ∈ l, p.Valid m) {future : Bytes} {c : P2PClient}
    (h : c.Follows p (stream l) future) :
    ∃ c' flag, c.advanceState p = some (c', flag) ∧ c'.Follows p (stream l) future ∧ Goes c c' ∧
      (flag = true → c'.Complete) ∧
      (flag = false → c'.responses.length ≤ 1 → c'.Starved p c.sock) := by
  rw [advanceState]
  have hgoes := c.goes_write
  by_cases hbusy : 1 < c.write.responses.length
  · rw [if_pos hbusy]
    exact ⟨c.write, false, rfl, follows_write h, hgoes, fun hf ↦ by simp at hf,
      fun _ hle ↦ absurd hbusy (by omega)⟩
  · rw [if_neg hbusy]
    obtain ⟨c', flag, hread, hfollows, hgoes', -, hflag, hstarved⟩ :=
      read_follows hvalid (follows_write h)
    exact ⟨c', flag, hread, hfollows, hgoes.trans hgoes', hflag.mp,
      fun hf _ ↦ (hstarved hf).mono hgoes.solid⟩

private theorem readNextRequest_follows {p : Framing} {l : List (Bytes × Bytes)}
    (hvalid : ∀ m ∈ l, p.Valid m) {future : Bytes} {c : P2PClient}
    (h : c.Follows p (stream l) future) :
    ∃ c' next, c.readNextRequest p = some (c', next) ∧ Goes c c' ∧
      (next = none → c'.Follows p (stream l) future ∧
        (c'.Live → c'.responses.length ≤ 1 → c'.Starved p c.sock)) ∧
      ∀ m, next = some m → ∃ l', l = m :: l' ∧ c'.Follows p (stream l') future ∧
        c'.held.length < c.held.length := by
  obtain ⟨c₁, flag, hadvance, hfollows, hgoes, hcomplete, hstarved⟩ := advanceState_follows hvalid h
  rw [readNextRequest, hadvance]
  dsimp only
  by_cases hwait : (!c₁.receivingBody || c₁.receivingBodyStream.length != c₁.requestBodyLength)
      = true
  · rw [if_pos hwait]
    refine ⟨c₁, none, rfl, hgoes, fun _ ↦ ⟨hfollows, fun _ hle ↦ ?_⟩, fun m hm ↦ by simp at hm⟩
    apply hstarved _ hle
    -- the message is not complete
    by_contra hflag
    obtain ⟨hbody, hlen⟩ := hcomplete (by simpa using hflag)
    simp [hbody, hlen] at hwait
  · rw [if_neg hwait]
    obtain ⟨hbody, hlen⟩ : c₁.Complete := by simpa [Complete] using hwait
    obtain ⟨hreq, hheader, -⟩ := hfollows.sound.busy hbody
    set c₂ : P2PClient := { c₁ with
      request := []
      receivingBodyStream := []
      receivingBody := false
      requestBodyLength := 0 } with hc₂
    have hheld : c₁.held = c₁.request ++ (c₁.receivingBodyStream ++ c₂.held) := by
      simp only [held, hc₂, List.nil_append, List.append_assoc]
    have hshorter : c₂.held.length < c₁.held.length := by
      have hpos := p.headerSize_pos
      rw [hheld, List.length_append, List.length_append, hreq]
      omega
    have hsound : c₂.Sound p := ⟨hfollows.sound.length_impl, fun _ ↦ ⟨rfl, rfl⟩, fun h ↦ by cases h⟩
    have hgoes₂ : Goes c c₂ :=
      ⟨hgoes.live, hshorter.le.trans hgoes.length_held, hgoes.responses, hgoes.solid⟩
    -- a closed client holds nothing, so it has no message
    have hopen : c₁.sock.isOpen = true := by
      by_contra hclosed
      rw [hfollows.dead (by simpa using hclosed)] at hshorter
      exact absurd hshorter (Nat.not_lt_zero _)
    have hdead : c₂.sock.isOpen = false → c₂.held = [] := fun hclosed ↦
      absurd (hopen.symm.trans hclosed) (by simp)
    by_cases hwaiting : c₁.waitingShutdown = true
    · have hnotLive : ¬c₂.Live := fun hlive ↦ absurd (hwaiting.symm.trans hlive.2) (by simp)
      rw [if_pos hwaiting]
      exact ⟨c₂, none, rfl, hgoes₂, fun _ ↦ ⟨⟨hsound, hdead, fun hlive ↦ absurd hlive hnotLive⟩,
        fun hlive ↦ absurd hlive hnotLive⟩, fun m hm ↦ by cases hm⟩
    · have hlive : c₁.Live := ⟨hopen, by simpa using hwaiting⟩
      obtain ⟨hasked, hstream⟩ := hfollows.live hlive
      rw [hheld, List.append_assoc, List.append_assoc] at hstream
      obtain ⟨l', rfl, hrest⟩ := exists_cons_of_stream_eq hvalid
        ⟨hreq, by rw [hheader, hlen]⟩ hstream.symm
      rw [if_neg hwaiting]
      refine ⟨c₂, _, rfl, hgoes₂, fun hm ↦ by simp at hm, fun m hm ↦ ?_⟩
      obtain rfl := Option.some.inj hm
      exact ⟨l', rfl, ⟨hsound, hdead, fun _ ↦ ⟨hasked, hrest.symm⟩⟩,
        hshorter.trans_le hgoes.length_held⟩

/-! ## What the user asks for -/

private theorem act_follows {p : Framing} {rest future : Bytes} {c : P2PClient} (a : Action)
    (h : c.Follows p rest future) :
    (c.act a).Follows p rest future ∧ (c.act a).held.length ≤ c.held.length := by
  rcases a with body | _ | _
  · have hsend : Follows p rest future { c with responses := c.responses ++ [body] } :=
      ⟨⟨h.sound.length_impl, h.sound.idle, h.sound.busy⟩, h.dead, h.live⟩
    exact ⟨follows_write hsend, length_held_write { c with responses := c.responses ++ [body] }⟩
  · have hwait : Follows p rest future { c with waitingShutdown := true } :=
      ⟨⟨h.sound.length_impl, h.sound.idle, h.sound.busy⟩, h.dead,
        fun hlive ↦ absurd hlive.2 (by simp)⟩
    exact ⟨follows_write hwait, length_held_write { c with waitingShutdown := true }⟩
  · exact ⟨⟨sound_disconnect h.sound, fun _ ↦ rfl, fun hlive ↦ absurd hlive.1 Bool.false_ne_true⟩,
      Nat.zero_le _⟩

private theorem live_send {c : P2PClient} (body : Bytes) (h : c.Live) : (c.act (.send body)).Live :=
  live_write.mpr h

end P2PClient

/-! ## Whole connections -/

def Action.IsSend : Action → Prop
  | .send _ => True
  | .sendShutdown => False
  | .disconnect => False

namespace P2PClient

private theorem act_live {c : P2PClient} {a : Action} (ha : a.IsSend) (h : c.Live) : (c.act a).Live := by
  rcases a with body | _ | _
  · exact live_send body h
  · exact ha.elim
  · exact ha.elim

private theorem act_grows (a : Action) (c : P2PClient) :
    (c.act a).responses.length ≤ c.responses.length + 1 ∧
      (c.sock.Solid → (c.act a).sock.Solid) := by
  rcases a with body | _ | _
  · refine ⟨(length_responses_write _).trans ?_, fun h ↦ solid_write h⟩
    rw [List.length_append, List.length_singleton]
  · exact ⟨(length_responses_write _).trans (Nat.le_succ _), fun h ↦ solid_write h⟩
  · exact ⟨Nat.zero_le _, fun _ ↦ List.not_mem_nil⟩

private theorem acts_grow (acts : List Action) (c : P2PClient) :
    (acts.foldl act c).responses.length ≤ c.responses.length + acts.length ∧
      (c.sock.Solid → (acts.foldl act c).sock.Solid) := by
  induction acts generalizing c with
  | nil => exact ⟨le_rfl, id⟩
  | cons a acts ih =>
    obtain ⟨hle, hsolid⟩ := act_grows a c
    obtain ⟨hle', hsolid'⟩ := ih (c.act a)
    refine ⟨?_, fun h ↦ hsolid' (hsolid h)⟩
    rw [List.foldl_cons, List.length_cons]
    omega

private theorem acts_follow {p : Framing} {rest future : Bytes} (acts : List Action) {c : P2PClient}
    (h : c.Follows p rest future) :
    (acts.foldl act c).Follows p rest future ∧ (acts.foldl act c).held.length ≤ c.held.length ∧
      ((∀ a ∈ acts, a.IsSend) → c.Live → (acts.foldl act c).Live) := by
  induction acts generalizing c with
  | nil => exact ⟨h, le_refl _, fun _ hlive ↦ hlive⟩
  | cons a acts ih =>
    obtain ⟨hfollows, hle⟩ := act_follows a h
    obtain ⟨hfollows', hle', hlive'⟩ := ih hfollows
    refine ⟨hfollows', hle'.trans hle, fun hsend hlive ↦ ?_⟩
    exact hlive' (fun b hb ↦ hsend b (List.mem_cons_of_mem _ hb))
      (act_live (hsend a (List.mem_cons_self ..)) hlive)

end P2PClient

namespace Connection

variable {σ : Type}

/-- What was delivered is what the stream starts with, and the client follows the rest of it. A user
that only sends keeps the client alive, and the responses that wait are among those that it sent. -/
structure Tracks (p : Framing) (messages : List (Bytes × Bytes)) (future : Bytes)
    (c : Connection σ) : Prop where
  split : ∃ l, messages = c.delivered ++ l ∧ c.client.Follows p (stream l) future
  live : (∀ a ∈ c.asked, a.IsSend) → c.client.Live
  responses : c.client.responses.length ≤ c.asked.length

/-- There is nothing left that could be delivered. -/
def Settled (p : Framing) (before : Socket) (c : Connection σ) : Prop :=
  c.client.Live → c.client.responses.length ≤ 1 → c.client.Starved p before

private theorem undelivered_eq (c : Connection σ) : c.undelivered = c.client.held.length := by
  rw [undelivered, P2PClient.held, List.length_append, List.length_append, List.length_append,
    CircularBuffer.length_queue]

private theorem onRequestReady_tracks {p : Framing} {handle : Handler σ} {messages : List (Bytes × Bytes)}
    (hvalid : ∀ m ∈ messages, p.Valid m) {future : Bytes} (fuel : ℕ) (c : Connection σ)
    (h : c.Tracks p messages future) (hfuel : c.client.held.length < fuel) :
    ∃ c', onRequestReady p handle fuel c = some c' ∧ c'.Tracks p messages future ∧
      c'.Settled p c.client.sock ∧ (c.client.sock.Solid → c'.client.sock.Solid) := by
  induction fuel generalizing c with
  | zero => exact absurd hfuel (Nat.not_lt_zero _)
  | succ fuel ih =>
    obtain ⟨l, hsplit, hfollows⟩ := h.split
    have hvalid' : ∀ m ∈ l, p.Valid m := fun m hm ↦
      hvalid m (hsplit ▸ List.mem_append_right _ hm)
    obtain ⟨client, next, hnext, hgoes, hnone, hsome⟩ :=
      P2PClient.readNextRequest_follows hvalid' hfollows
    rw [onRequestReady, hnext]
    rcases next with _ | ⟨header, body⟩
    · obtain ⟨hfollows', hsettled⟩ := hnone rfl
      exact ⟨_, rfl, ⟨⟨l, hsplit, hfollows'⟩, fun hsend ↦ hgoes.live (h.live hsend),
        hgoes.responses.trans h.responses⟩, hsettled, hgoes.solid⟩
    · obtain ⟨l', rfl, hfollows', hlt⟩ := hsome _ rfl
      obtain ⟨hacts, hle, hlive⟩ := P2PClient.acts_follow (handle c.user header body).2 hfollows'
      obtain ⟨hmore, hsolid⟩ := P2PClient.acts_grow (handle c.user header body).2 client
      have htracks : Tracks p messages future
          { client := (handle c.user header body).2.foldl P2PClient.act client
            user := (handle c.user header body).1
            delivered := c.delivered ++ [(header, body)]
            asked := c.asked ++ (handle c.user header body).2 } := by
        refine ⟨⟨l', ?_, hacts⟩, fun hsend ↦ ?_, ?_⟩
        · rw [hsplit]
          simp
        · have hearlier : ∀ a ∈ c.asked, a.IsSend := fun a ha ↦
            hsend a (List.mem_append_left _ ha)
          exact hlive (fun a ha ↦ hsend a (List.mem_append_right _ ha))
            (hgoes.live (h.live hearlier))
        · rw [List.length_append]
          have hfew := hgoes.responses.trans h.responses
          exact hmore.trans (Nat.add_le_add_right hfew _)
      obtain ⟨c', hrun, htracks', hsettled, hsolid'⟩ :=
        ih _ htracks ((hle.trans_lt hlt).trans_le (Nat.lt_succ_iff.mp hfuel))
      exact ⟨c', hrun, htracks',
        fun hc hone ↦ (hsettled hc hone).mono fun hbefore ↦ hsolid (hgoes.solid hbefore),
        fun hbefore ↦ hsolid' (hsolid (hgoes.solid hbefore))⟩

private theorem ready_tracks {p : Framing} (handle : Handler σ) {messages : List (Bytes × Bytes)}
    (hvalid : ∀ m ∈ messages, p.Valid m) {future : Bytes} {c : Connection σ}
    (h : c.Tracks p messages future) :
    ∃ c', c.ready p handle = some c' ∧ c'.Tracks p messages future ∧
      c'.Settled p c.client.sock ∧ (c.client.sock.Solid → c'.client.sock.Solid) := by
  obtain ⟨l, hsplit, hfollows⟩ := h.split
  have hvalid' : ∀ m ∈ l, p.Valid m := fun m hm ↦ hvalid m (hsplit ▸ List.mem_append_right _ hm)
  obtain ⟨client, flag, hadvance, hfollows', hgoes, hcomplete, hstarved⟩ :=
    P2PClient.advanceState_follows hvalid' hfollows
  have htracks : Tracks p messages future { c with client := client } :=
    ⟨⟨l, hsplit, hfollows'⟩, fun hsend ↦ hgoes.live (h.live hsend),
      hgoes.responses.trans h.responses⟩
  rw [ready, hadvance]
  rcases flag with _ | _
  · exact ⟨_, rfl, htracks, fun _ ↦ hstarved rfl, hgoes.solid⟩
  · have hfuel : client.held.length < c.undelivered + 2 := by
      rw [undelivered_eq]
      exact (hgoes.length_held.trans_lt (Nat.lt_succ_self _)).trans (Nat.lt_succ_self _)
    obtain ⟨c', hrun, htracks', hsettled, hsolid⟩ := onRequestReady_tracks hvalid _ _ htracks hfuel
    exact ⟨c', hrun, htracks', fun hc hone ↦ (hsettled hc hone).mono hgoes.solid,
      fun hbefore ↦ hsolid (hgoes.solid hbefore)⟩

/-- The bytes that arrive in a run. -/
def arrived (events : List Event) : Bytes :=
  events.flatMap fun
    | .arrive pieces _ => pieces.flatten
    | _ => []

/-- No piece that arrives in a run is empty. -/
def NoEmptyPiece (events : List Event) : Prop :=
  ∀ pieces accepts, .arrive pieces accepts ∈ events → [] ∉ pieces

private theorem solid_arrive {s : Socket} {pieces : List Bytes} (h : s.Solid) (hpieces : [] ∉ pieces)
    (accepts : List ℕ) : (s.arrive pieces accepts).Solid := by
  rw [Socket.arrive]
  split_ifs
  · exact h
  · exact fun hmem ↦ (List.mem_append.mp hmem).elim h hpieces
  · exact h

private theorem arrive_follows {p : Framing} {rest future : Bytes} {c : P2PClient} (pieces : List Bytes)
    (accepts : List ℕ) (h : c.Follows p rest (pieces.flatten ++ future)) :
    P2PClient.Follows p rest future { c with sock := c.sock.arrive pieces accepts } := by
  have hopen : (c.sock.arrive pieces accepts).isOpen = c.sock.isOpen := by
    rw [Socket.arrive]
    split_ifs <;> rfl
  refine ⟨⟨h.sound.length_impl, h.sound.idle, h.sound.busy⟩, fun hclosed ↦ ?_, fun hlive ↦ ?_⟩
  · have hclosed' : c.sock.isOpen = false := hopen.symm.trans hclosed
    have hsame : c.sock.arrive pieces accepts = c.sock := if_neg (by simp [hclosed'])
    rw [hsame]
    exact h.dead hclosed'
  · have hlive' : c.Live := ⟨hopen.symm.trans hlive.1, hlive.2⟩
    obtain ⟨hasked, hstream⟩ := h.live hlive'
    have harrive : c.sock.arrive pieces accepts = { c.sock with
        incoming := c.sock.incoming ++ pieces
        accepts := c.sock.accepts ++ accepts } := by
      rw [Socket.arrive, if_pos hlive'.1]
      simp only [hasked, Bool.false_eq_true, if_false]
    refine ⟨by rw [harrive]; exact hasked, ?_⟩
    rw [← hstream, harrive]
    simp only [P2PClient.held, List.flatten_append, List.append_assoc]

private theorem step_tracks {p : Framing} (handle : Handler σ) {messages : List (Bytes × Bytes)}
    (hvalid : ∀ m ∈ messages, p.Valid m) {future : Bytes} {c : Connection σ} (e : Event)
    (h : c.Tracks p messages (arrived [e] ++ future)) :
    ∃ c', c.step p handle e = some c' ∧ c'.Tracks p messages future ∧
      (e = .ready → c'.Settled p c.client.sock) ∧
      (NoEmptyPiece [e] → c.client.sock.Solid → c'.client.sock.Solid) := by
  rcases e with ⟨pieces, accepts⟩ | _ | action
  · obtain ⟨l, hsplit, hfollows⟩ := h.split
    rw [arrived, List.flatMap_singleton] at hfollows
    refine ⟨_, rfl,
      ⟨⟨l, hsplit, arrive_follows pieces accepts hfollows⟩, fun hsend ↦ ?_, h.responses⟩, nofun,
      fun hpieces hsolid ↦ solid_arrive hsolid (hpieces _ _ (List.mem_singleton_self _)) accepts⟩
    have hlive := h.live hsend
    refine ⟨?_, hlive.2⟩
    show (c.client.sock.arrive pieces accepts).isOpen = true
    rw [Socket.arrive, if_pos hlive.1]
    exact hlive.1
  · obtain ⟨c', hstep, htracks, hsettled, hsolid⟩ := ready_tracks handle hvalid h
    exact ⟨c', hstep, htracks, fun _ ↦ hsettled, fun _ ↦ hsolid⟩
  · obtain ⟨l, hsplit, hfollows⟩ := h.split
    obtain ⟨hmore, hsolid⟩ := P2PClient.act_grows action c.client
    refine ⟨_, rfl, ⟨⟨l, hsplit, (P2PClient.act_follows action hfollows).1⟩, fun hsend ↦ ?_, ?_⟩, nofun,
      fun _ ↦ hsolid⟩
    · have hearlier : ∀ a ∈ c.asked, a.IsSend := fun a ha ↦ hsend a (List.mem_append_left _ ha)
      exact P2PClient.act_live (hsend action (List.mem_append_right _ (List.mem_singleton_self _)))
        (h.live hearlier)
    · rw [List.length_append, List.length_singleton]
      exact hmore.trans (Nat.add_le_add_right h.responses 1)

private theorem run_tracks {p : Framing} (handle : Handler σ) {messages : List (Bytes × Bytes)}
    (hvalid : ∀ m ∈ messages, p.Valid m) {future : Bytes} (events : List Event) {c : Connection σ}
    (h : c.Tracks p messages (arrived events ++ future)) :
    ∃ c', run p handle events c = some c' ∧ c'.Tracks p messages future ∧
      (events.getLast? = some .ready → NoEmptyPiece events → c'.Settled p c.client.sock) := by
  induction events generalizing c with
  | nil => exact ⟨c, rfl, h, nofun⟩
  | cons e events ih =>
    have hsplit : arrived (e :: events) ++ future
        = arrived [e] ++ (arrived events ++ future) := by
      simp only [arrived, List.flatMap_cons, List.flatMap_nil, List.append_nil, List.append_assoc]
    rw [hsplit] at h
    obtain ⟨c₁, hstep, htracks, hsettled, hsolid⟩ := step_tracks handle hvalid e h
    obtain ⟨c', hrun, htracks', hsettled'⟩ := ih htracks
    refine ⟨c', by rw [run, hstep]; exact hrun, htracks', fun hlast hpieces ↦ ?_⟩
    have hfirst : NoEmptyPiece [e] := fun pieces accepts hmem ↦
      hpieces pieces accepts (List.mem_cons.mpr (.inl (List.mem_singleton.mp hmem)))
    have hrest : NoEmptyPiece events := fun pieces accepts hmem ↦
      hpieces pieces accepts (List.mem_cons_of_mem _ hmem)
    rcases events with _ | ⟨e', events⟩
    · obtain rfl : c₁ = c' := Option.some.inj hrun
      exact hsettled (Option.some.inj hlast)
    · exact fun hlive hone ↦ (hsettled' (by simpa using hlast) hrest hlive hone).mono (hsolid hfirst)

private theorem tracks_new {p : Framing} {messages : List (Bytes × Bytes)} {future : Bytes} (user : σ)
    (h : future = stream messages) : Tracks p messages future { user := user } := by
  refine ⟨⟨messages, rfl, ⟨?_, ?_, ?_⟩, fun hopen ↦ ?_, fun _ ↦ ⟨rfl, ?_⟩⟩, fun _ ↦ ⟨rfl, rfl⟩,
    Nat.le_refl _⟩
  · exact List.length_replicate
  · exact fun _ ↦ ⟨rfl, rfl⟩
  · exact fun hbody ↦ absurd hbody Bool.false_ne_true
  · exact absurd hopen.symm Bool.false_ne_true
  · rw [← h]
    rfl

private theorem asked_of_onRequestReady {p : Framing} {handle : Handler σ} {P : Action → Prop}
    (hhandle : ∀ user header body, ∀ a ∈ (handle user header body).2, P a) {fuel : ℕ}
    {c c' : Connection σ} (h : onRequestReady p handle fuel c = some c') (hc : ∀ a ∈ c.asked, P a) :
    ∀ a ∈ c'.asked, P a := by
  induction fuel generalizing c with
  | zero => cases h
  | succ fuel ih =>
    rw [onRequestReady] at h
    split at h
    · cases h
    · obtain rfl := Option.some.inj h
      exact hc
    · exact ih h fun a ha ↦ (List.mem_append.mp ha).elim (hc a) (hhandle _ _ _ a)

private theorem asked_of_run {p : Framing} {handle : Handler σ} {P : Action → Prop}
    (hhandle : ∀ user header body, ∀ a ∈ (handle user header body).2, P a) {events : List Event}
    (hact : ∀ a, .act a ∈ events → P a) {c c' : Connection σ} (h : run p handle events c = some c')
    (hc : ∀ a ∈ c.asked, P a) : ∀ a ∈ c'.asked, P a := by
  induction events generalizing c with
  | nil => rwa [← Option.some.inj h]
  | cons e events ih =>
    rw [run] at h
    split at h
    · cases h
    · next c₁ hstep =>
      refine ih (fun a ha ↦ hact a (List.mem_cons_of_mem _ ha)) h ?_
      rcases e with ⟨pieces, accepts⟩ | _ | action
      · rwa [← Option.some.inj hstep]
      · rw [step, ready] at hstep
        split at hstep
        · cases hstep
        · rwa [← Option.some.inj hstep]
        · exact asked_of_onRequestReady hhandle hstep hc
      · rw [← Option.some.inj hstep]
        intro a ha
        rcases List.mem_append.mp ha with ha | ha
        · exact hc a ha
        · rw [List.mem_singleton.mp ha]
          exact hact action List.mem_cons_self

private theorem lt_of_starved {p : Framing} {l : List (Bytes × Bytes)} {future : Bytes} {c : P2PClient}
    {before : Socket} (hvalid : ∀ m ∈ l, p.Valid m) (h : c.Follows p (stream l) future)
    (hlive : c.Live) (hstarved : c.Starved p before) (hsolid : before.Solid) {m : Bytes × Bytes}
    (hm : l.head? = some m) : c.held.length < (m.1 ++ m.2).length := by
  obtain ⟨l', rfl⟩ : ∃ l', l = m :: l' := by
    rcases l with _ | ⟨m', l'⟩
    · cases hm
    · exact ⟨l', by rw [Option.some.inj hm]⟩
  obtain ⟨hlen, hbody⟩ := hvalid m (List.mem_cons_self ..)
  obtain ⟨-, hstream⟩ := h.live hlive
  have hbuffer := hstarved.buffer
  rw [List.length_append, P2PClient.held, hstarved.incoming hsolid, List.flatten_nil, List.append_nil,
    List.length_append, List.length_append]
  split_ifs at hbuffer with hreceiving
  · -- the header that was read is the header of the next message
    obtain ⟨hreq, hheader, -⟩ := h.sound.busy hreceiving
    rw [P2PClient.held, stream_cons] at hstream
    simp only [List.append_assoc] at hstream
    obtain ⟨hsame, -⟩ := List.append_inj hstream (hreq.trans hlen.symm)
    rw [hsame, hbody] at hheader
    rw [hbuffer.1, hreq, hlen, Except.ok.inj hheader]
    simpa using hbuffer.2
  · obtain ⟨hreq, hbody'⟩ := h.sound.idle (by simpa using hreceiving)
    rw [hreq, hbody', hlen]
    simp only [List.length_nil]
    omega

private theorem prefix_delivered {p : Framing} {messages : List (Bytes × Bytes)} {future : Bytes}
    (hvalid : ∀ m ∈ messages, p.Valid m) {c : Connection σ} (h : c.Tracks p messages future)
    (hlive : c.client.Live) {before : Socket} (hstarved : c.client.Starved p before)
    (hsolid : before.Solid) {l : List (Bytes × Bytes)}
    (hl : l <+: messages) (hlen : (stream l).length ≤ (stream c.delivered ++ c.client.held).length) :
    l <+: c.delivered := by
  obtain ⟨rest, hsplit, hfollows⟩ := h.split
  have hvalid' : ∀ m ∈ rest, p.Valid m := fun m hm ↦
    hvalid m (hsplit ▸ List.mem_append_right _ hm)
  rcases List.prefix_or_prefix_of_prefix hl ⟨rest, hsplit.symm⟩ with hshort | ⟨more, rfl⟩
  · exact hshort
  · -- what goes beyond the delivered messages starts with one that is not held in full
    rcases more with _ | ⟨m, more⟩
    · rw [List.append_nil]
    · obtain ⟨t, ht⟩ := hl
      have hhead : rest.head? = some m := by
        rw [hsplit, List.append_assoc] at ht
        rw [← List.append_cancel_left ht]
        rfl
      have hlt := lt_of_starved hvalid' hfollows hlive hstarved hsolid hhead
      rw [stream_append, stream_cons, List.length_append, List.length_append, List.length_append]
        at hlen
      rw [List.length_append] at hlt
      rw [List.length_append] at hlen
      omega

end Connection

/-- Framing is independent of chunking. Take any valid messages, any way in which their stream, or a
part of it, arrives in pieces between any calls of the user, any user and any handler. No invariant
fails; the messages that are delivered are the first of the stream, in order. As long as the user
only sends, what was delivered, followed by what the client holds, is all that has arrived; and after
the socket has reported, if no piece was empty and at most one response waits, every message that has
arrived in full was delivered. The circular buffer is a bounded queue of bytes under every
sequence of operations; it refuses only what does not fit, and reads and writes something whenever they
can. -/
theorem framing_independent_of_chunking {σ : Type} (p : Framing) (handle : Handler σ)
    (messages : List (Bytes × Bytes)) (hvalid : ∀ m ∈ messages, p.Valid m)
    (events : List Connection.Event) (future : Bytes)
    (hstream : Connection.arrived events ++ future = stream messages) (user : σ) :
    (∃ c, Connection.run p handle events { user := user } = some c ∧ c.delivered <+: messages ∧
      ((∀ a ∈ c.asked, a.IsSend) →
        stream c.delivered ++ c.client.held = Connection.arrived events ∧
        (events.getLast? = some .ready → Connection.NoEmptyPiece events →
          c.client.responses.length ≤ 1 →
            ∀ l, l <+: messages → (stream l).length ≤ (Connection.arrived events).length →
              l <+: c.delivered))) ∧
    (∀ (si : ℕ) (ops : List CircularBuffer.Operation) (added taken : Bytes) (b : CircularBuffer),
      CircularBuffer.performAll ops (.new si) = some (added, taken, b) →
        taken ++ b.unread = added ∧ b.unread.length = b.size ∧ b.size + b.capacity = si) ∧
    ∀ b : CircularBuffer, (∀ op, (b.perform op).isSome ↔ op.Fits b) ∧
      (∀ data, ∃ n b', b.writeSome data = some (n, b') ∧ n ≤ data.length ∧
        (n = 0 → data = [] ∨ b.capacity = 0)) ∧
      ∀ size, ∃ data b', b.readSome size = some (data, b') ∧ data.length ≤ size ∧
        (data = [] → size = 0 ∨ b.size = 0) := by
  refine ⟨?_, fun si ops added taken b h ↦ CircularBuffer.performAll_fifo h, fun b ↦ ⟨?_, ?_, ?_⟩⟩
  · obtain ⟨c, hrun, htracks, hsettled⟩ := Connection.run_tracks handle hvalid events
      (Connection.tracks_new user hstream)
    obtain ⟨l, hsplit, hfollows⟩ := htracks.split
    refine ⟨c, hrun, ⟨l, hsplit.symm⟩, fun hsend ↦ ?_⟩
    have hlive := htracks.live hsend
    have hexact : stream c.delivered ++ c.client.held = Connection.arrived events := by
      have hall := (hfollows.live hlive).2
      rw [hsplit, stream_append, ← hall, ← List.append_assoc] at hstream
      exact (List.append_cancel_right hstream).symm
    refine ⟨hexact, fun hlast hpieces hone l hl hle ↦ ?_⟩
    exact Connection.prefix_delivered hvalid htracks hlive (hsettled hlast hpieces hlive hone)
      List.not_mem_nil hl (by rwa [hexact])
  · exact b.perform_isSome_iff
  · intro data
    obtain ⟨b', hwrite, -⟩ := b.writeSome_spec data
    refine ⟨_, b', hwrite, Nat.min_le_left _ _, fun hzero ↦ ?_⟩
    rcases Nat.min_eq_zero_iff.mp hzero with h | h
    · exact .inl (List.eq_nil_of_length_eq_zero h)
    · exact .inr (b.writeCount_eq_zero.mp h)
  · intro size
    obtain ⟨b', k, hread, hk, hlen, -⟩ := b.exists_readSome size
    refine ⟨_, b', hread, by omega, fun hnil ↦ ?_⟩
    rw [hnil, List.length_nil] at hlen
    rcases Nat.min_eq_zero_iff.mp (hk.symm.trans hlen.symm) with h | h
    · exact .inl h
    · exact .inr (b.readCount_eq_zero.mp h)

/-- A ping as it is sent, with a body of one byte. -/
def LevinProtocol.ping : Bytes × Bytes :=
  ([1, 0x21, 1, 1, 1, 1, 1, 1, 1, 0, 0, 0, 0, 0, 0, 0, 1, 0xeb, 3, 0, 0, 0, 0, 0, 0, 1, 0, 0, 0,
    1, 0, 0, 0], [7])

private theorem LevinProtocol.readCommandHeader_ping :
    readCommandHeader ping.1 = .ok ({ command := 1003, isNotify := false, isResponse := false }, 1)
    := by
  rw [readCommandHeader, if_neg (by decide), if_neg (by decide), if_neg (by decide)]
  congr 1

/-- Two pings and the first bytes of a third one arrive, in pieces that are cut within headers. -/
def samplePieces : List Connection.Event :=
  [.arrive [LevinProtocol.ping.1.take 20] [], .ready,
    .arrive [LevinProtocol.ping.1.drop 20 ++ [7] ++ LevinProtocol.ping.1.take 5,
      LevinProtocol.ping.1.drop 5 ++ [7], LevinProtocol.ping.1.take 9] [], .ready]

/-- The two pings are delivered, and the third one is not. -/
theorem framing_independent_of_chunking_sample :
    ∃ c, Connection.run LevinProtocol.framing (fun (u : Unit) _ _ ↦ (u, [])) samplePieces
      { user := () } = some c ∧ c.delivered = [LevinProtocol.ping, LevinProtocol.ping] := by
  have hvalid : LevinProtocol.framing.Valid LevinProtocol.ping :=
    ⟨rfl, congrArg (Except.map Prod.snd) LevinProtocol.readCommandHeader_ping⟩
  have hmessages : ∀ m ∈ List.replicate 3 LevinProtocol.ping, LevinProtocol.framing.Valid m :=
    fun m hm ↦ List.eq_of_mem_replicate hm ▸ hvalid
  have hstream : Connection.arrived samplePieces ++ (LevinProtocol.ping.1.drop 9 ++ [7])
      = stream (List.replicate 3 LevinProtocol.ping) := by decide
  obtain ⟨⟨c, hrun, hdelivered, hsends⟩, -⟩ := framing_independent_of_chunking LevinProtocol.framing
    (fun (u : Unit) _ _ ↦ (u, [])) _ hmessages samplePieces _ hstream ()
  -- the user never asks for anything
  have hasked : ∀ a ∈ c.asked, False := Connection.asked_of_run (fun _ _ _ _ ha ↦ by cases ha)
    (fun a ha ↦ by simp [samplePieces] at ha) hrun fun _ ha ↦ by cases ha
  have hnothing : c.asked = [] := List.eq_nil_iff_forall_not_mem.mpr hasked
  obtain ⟨c', hrun', htracks, -⟩ := Connection.run_tracks (fun (u : Unit) _ _ ↦ (u, [])) hmessages
    samplePieces (Connection.tracks_new () hstream)
  obtain rfl := Option.some.inj (hrun.symm.trans hrun')
  have hresponses : c.client.responses.length ≤ 1 := by
    have hle := htracks.responses
    rw [hnothing] at hle
    exact hle.trans (Nat.zero_le 1)
  have hpieces : Connection.NoEmptyPiece samplePieces := by
    intro pieces accepts hmem
    simp only [samplePieces, List.mem_cons, Connection.Event.arrive.injEq, reduceCtorEq, false_or,
      List.not_mem_nil, or_false] at hmem
    rcases hmem with ⟨rfl, -⟩ | ⟨rfl, -⟩ <;> decide
  obtain ⟨hexact, hall⟩ := hsends fun a ha ↦ (hasked a ha).elim
  have htwo : [LevinProtocol.ping, LevinProtocol.ping] <+: c.delivered :=
    hall rfl hpieces hresponses _ ⟨[LevinProtocol.ping], rfl⟩ (by decide)
  refine ⟨c, hrun, (htwo.eq_of_length_le (Nat.le_of_lt_succ ?_)).symm⟩
  -- the third one has not arrived in full
  by_contra hlong
  have hthree := hdelivered.eq_of_length_le (by simpa using not_lt.mp hlong)
  rw [hthree] at hexact
  have hlength := congrArg List.length hexact
  rw [List.length_append] at hlength
  have harrived : (Connection.arrived samplePieces).length
    < (stream (List.replicate 3 LevinProtocol.ping)).length := by decide
  omega

end CryoNero.P2p
