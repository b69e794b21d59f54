import CryoNero.P2p.Client

/-!
# What the receive loops move

The loops of a client move bytes from the socket to the circular buffer, from there to the header
and the body, and never change their order. `P2PClient.held` is all of these bytes in the order in
which they came; `read` leaves it as it is, however many rounds its loops take and wherever the
reads are cut. When `read` stops without a complete message it is out of bytes, `Starved`.
-/

namespace CryoNero.P2p

open Seria Store

/-! ## Loops over the circular buffer -/

namespace CircularBuffer

theorem bound_toFifo (b : CircularBuffer) : b.toFifo.bound = b.impl.length := by
  rw [Fifo.bound, length_queue, length_spare, size_add_capacity]

theorem receive_spec {b : CircularBuffer} {s : Bytes} (h : s.length ≤ b.capacity) :
    ∃ b', b.receive s = some b' ∧ b'.toFifo.queue = b.toFifo.queue ++ s ∧
      b'.impl.length = b.impl.length := by
  have hdid := toFifo_didWrite (b.fill s h) s.length
  rw [toFifo_fill, Fifo.publish_fill (by rwa [length_spare])] at hdid
  obtain ⟨b', hb', hfifo⟩ := exists_of_map_toFifo hdid
  refine ⟨b', by rw [receive, dif_pos h, hb'], by rw [hfifo], ?_⟩
  rw [← bound_toFifo b', hfifo, Fifo.bound, List.length_append, List.length_drop, length_queue,
    length_spare, ← size_add_capacity]
  omega

private theorem length_readSome_spec {b b' : CircularBuffer} {n : ℕ}
    (hq : b'.toFifo.queue = b.toFifo.queue.drop n)
    (hs : b'.toFifo.spare = b.toFifo.spare ++ b.toFifo.queue.take n) :
    b'.impl.length = b.impl.length := by
  rw [← bound_toFifo b', Fifo.bound, hq, hs, ← bound_toFifo b, Fifo.bound, List.length_append,
    List.length_drop, List.length_take]
  omega

theorem fits_readSome (b : CircularBuffer) (s : Socket) :
    (s.readSome b.writeCount).1.length ≤ b.capacity := by
  have h := s.length_readSome_le b.writeCount
  rw [capacity]
  omega

/-- `copyFrom` moves bytes from the front of the socket to the end of the queue. It leaves something in
the socket only if the buffer is full, or an empty piece was in the way. -/
private theorem copyFrom_spec (b : CircularBuffer) (s : Socket) :
    ∃ b' incoming got, b.copyFrom s = some (b', { s with incoming := incoming }) ∧
      b'.toFifo.queue = b.toFifo.queue ++ got ∧
      got ++ incoming.flatten = s.incoming.flatten ∧ b'.impl.length = b.impl.length ∧
      (s.Solid → [] ∉ incoming ∧ (b'.capacity ≠ 0 → incoming = [])) := by
  induction b, s using copyFrom.induct with
  | case1 b s h =>
    exact ⟨b, s.incoming, [], by rw [copyFrom, if_pos h], by simp, by simp, rfl,
      fun hsolid ↦ ⟨hsolid, fun hroom ↦ absurd (b.writeCount_eq_zero.mp h) hroom⟩⟩
  | case2 b s h hreceive =>
    obtain ⟨b', hb', -⟩ := receive_spec (fits_readSome b s)
    rw [hreceive] at hb'
    cases hb'
  | case3 b s h b₁ hreceive hnil =>
    obtain ⟨b', hb', hqueue, hlen⟩ := receive_spec (fits_readSome b s)
    obtain rfl : b₁ = b' := Option.some.inj (hreceive.symm.trans hb')
    refine ⟨b₁, (s.readSome b.writeCount).2.incoming, [], ?_, ?_, ?_, hlen, fun hsolid ↦
      ⟨s.solid_readSome hsolid _, fun _ ↦ s.incoming_eq_nil_of_readSome hsolid h hnil⟩⟩
    · rw [copyFrom, if_neg h, hreceive]
      simp only [hnil, if_true, ← s.readSome_snd]
    · rw [hqueue, hnil]
    · rw [← s.readSome_append b.writeCount, hnil]
  | case4 b s h b₁ hreceive hnil ih =>
    obtain ⟨b', hb', hqueue, hlen⟩ := receive_spec (fits_readSome b s)
    obtain rfl : b₁ = b' := Option.some.inj (hreceive.symm.trans hb')
    obtain ⟨b₂, incoming, got, hcopy, hqueue₂, hgot, hlen₂, hleft⟩ := ih
    refine ⟨b₂, incoming, (s.readSome b.writeCount).1 ++ got, ?_, ?_, ?_, hlen₂.trans hlen,
      fun hsolid ↦ hleft (s.solid_readSome hsolid _)⟩
    · rw [copyFrom, if_neg h, hreceive]
      simp only [hnil, if_false, hcopy]
      rw [s.readSome_snd]
    · rw [hqueue₂, hqueue, List.append_assoc]
    · rw [List.append_assoc, hgot, s.readSome_append]

private theorem take_append_take_drop {k n : ℕ} (l : Bytes) (h : k ≤ n) :
    l.take k ++ (l.drop k).take (n - k) = l.take n := by
  conv_rhs => rw [← Nat.add_sub_cancel' h, List.take_add]

private theorem drop_drop_sub {k n : ℕ} (l : Bytes) (h : k ≤ n) : (l.drop k).drop (n - k) = l.drop n := by
  rw [List.drop_drop, Nat.add_sub_cancel' h]

private theorem queue_eq_nil {b : CircularBuffer} (h : b.readCount = 0) : b.toFifo.queue = [] := by
  apply List.eq_nil_of_length_eq_zero
  rw [length_queue]
  exact b.readCount_eq_zero.mp h

theorem exists_readSome (b : CircularBuffer) (n : ℕ) :
    ∃ b' k, b.readSome n = some (b.toFifo.queue.take k, b') ∧ k = min n b.readCount ∧
      (b.toFifo.queue.take k).length = k ∧ b'.toFifo.queue = b.toFifo.queue.drop k ∧
      b'.impl.length = b.impl.length := by
  obtain ⟨b', hread, hqueue, hspare⟩ := b.readSome_spec n
  refine ⟨b', _, hread, rfl, ?_, hqueue, length_readSome_spec hqueue hspare⟩
  rw [List.length_take, length_queue, size]
  omega

private theorem copyTo_spec (fuel : ℕ) (b : CircularBuffer) (maxCount : ℕ) (h : maxCount ≤ fuel) :
    ∃ b', b.copyTo fuel maxCount = some (b.toFifo.queue.take maxCount, b') ∧
      b'.toFifo.queue = b.toFifo.queue.drop maxCount ∧ b'.impl.length = b.impl.length := by
  induction fuel generalizing b maxCount with
  | zero =>
    obtain rfl : maxCount = 0 := Nat.le_zero.mp h
    exact ⟨b, rfl, rfl, rfl⟩
  | succ fuel ih =>
    rw [copyTo]
    by_cases hzero : min b.readCount maxCount = 0
    · rw [if_pos hzero]
      rcases Nat.min_eq_zero_iff.mp hzero with hempty | rfl
      · have hnil := queue_eq_nil hempty
        exact ⟨b, by rw [hnil, List.take_nil], by rw [hnil, List.drop_nil], rfl⟩
      · exact ⟨b, rfl, rfl, rfl⟩
    · rw [if_neg hzero]
      obtain ⟨b₁, k, hread, hk, hlen, hqueue, himpl⟩ := b.exists_readSome maxCount
      have hle : k ≤ maxCount := by omega
      obtain ⟨b₂, hrest, hqueue₂, himpl₂⟩ := ih b₁ (maxCount - k) (by omega)
      refine ⟨b₂, ?_, ?_, himpl₂.trans himpl⟩
      · simp only [hread, hlen, hrest, Option.map_some, hqueue, take_append_take_drop _ hle]
      · rw [hqueue₂, hqueue, drop_drop_sub _ hle]

/-- `read` moves exactly `count` bytes, if the queue holds so many. -/
theorem read_spec (fuel : ℕ) (b : CircularBuffer) (count : ℕ) (h : count ≤ fuel)
    (hsize : count ≤ b.size) :
    ∃ b', b.read fuel count = some (b.toFifo.queue.take count, b') ∧
      b'.toFifo.queue = b.toFifo.queue.drop count ∧ b'.impl.length = b.impl.length := by
  induction fuel generalizing b count with
  | zero =>
    obtain rfl : count = 0 := Nat.le_zero.mp h
    exact ⟨b, rfl, rfl, rfl⟩
  | succ fuel ih =>
    rw [read]
    by_cases hzero : count = 0
    · subst hzero
      exact ⟨b, rfl, rfl, rfl⟩
    · rw [if_neg hzero]
      obtain ⟨b₁, k, hread, hk, hlen, hqueue, himpl⟩ := b.exists_readSome count
      have hle : k ≤ count := by omega
      -- the buffer is not empty, so this read returns something
      have hcount : b.readCount ≠ 0 := fun h0 ↦ by
        have := b.readCount_eq_zero.mp h0
        omega
      have hdata : b.toFifo.queue.take k ≠ [] := by
        apply List.ne_nil_of_length_pos
        omega
      have hsize₁ : count - k ≤ b₁.size := by
        rw [← length_queue b₁, hqueue, List.length_drop, length_queue]
        omega
      obtain ⟨b₂, hrest, hqueue₂, himpl₂⟩ := ih b₁ (count - k) (by omega) hsize₁
      refine ⟨b₂, ?_, ?_, himpl₂.trans himpl⟩
      · simp only [hread, hdata, if_false, hlen, hrest, Option.map_some, hqueue,
          take_append_take_drop _ hle]
      · rw [hqueue₂, hqueue, drop_drop_sub _ hle]

end CircularBuffer

/-! ## Reading a message -/

namespace P2PClient

/-- All bytes that were received and not delivered, in the order in which they came. -/
def held (c : P2PClient) : Bytes :=
  c.request ++ c.receivingBodyStream ++ c.buffer.toFifo.queue ++ c.sock.incoming.flatten

/-- What a client keeps to between any two calls. -/
structure Sound (p : Framing) (c : P2PClient) : Prop where
  length_impl : c.buffer.impl.length = recommendedBufferSize
  idle : c.receivingBody = false → c.request = [] ∧ c.receivingBodyStream = []
  busy : c.receivingBody = true → c.request.length = p.headerSize ∧
    p.onRequestHeader c.request = .ok c.requestBodyLength ∧
    c.receivingBodyStream.length ≤ c.requestBodyLength

/-- A message waits to be fetched. -/
def Complete (c : P2PClient) : Prop :=
  c.receivingBody = true ∧ c.receivingBodyStream.length = c.requestBodyLength

/-- The client needs bytes that the buffer does not have. Neither has the socket, if no piece was empty
in it as it was `before`. -/
structure Starved (p : Framing) (before : Socket) (c : P2PClient) : Prop where
  buffer : if c.receivingBody then
      c.buffer.toFifo.queue = [] ∧ c.receivingBodyStream.length < c.requestBodyLength
    else c.buffer.toFifo.queue.length < p.headerSize
  incoming : before.Solid → c.sock.incoming = []

theorem Starved.mono {p : Framing} {before before' : Socket} {c : P2PClient}
    (h : c.Starved p before') (hsolid : before.Solid → before'.Solid) : c.Starved p before :=
  ⟨h.buffer, fun hbefore ↦ h.incoming (hsolid hbefore)⟩

/-- Only the part of the client that receives has changed. -/
structure Received (c c' : P2PClient) : Prop where
  responses : c'.responses = c.responses
  waitingShutdown : c'.waitingShutdown = c.waitingShutdown
  isOpen : c'.sock.isOpen = c.sock.isOpen
  askedShutdown : c'.sock.askedShutdown = c.sock.askedShutdown
  solid : c.sock.Solid → c'.sock.Solid

theorem Received.trans {c c₁ c₂ : P2PClient} (h : Received c c₁) (h' : Received c₁ c₂) :
    Received c c₂ :=
  ⟨h'.responses.trans h.responses, h'.waitingShutdown.trans h.waitingShutdown,
    h'.isOpen.trans h.isOpen, h'.askedShutdown.trans h.askedShutdown,
    fun hsolid ↦ h'.solid (h.solid hsolid)⟩


private theorem Sound.capacity_ne_zero {p : Framing} {c : P2PClient} (h : c.Sound p)
    (hlen : c.buffer.toFifo.queue.length < recommendedBufferSize) : c.buffer.capacity ≠ 0 := by
  have hsum := c.buffer.size_add_capacity
  rw [CircularBuffer.length_queue] at hlen
  rw [h.length_impl] at hsum
  omega

/-- The loop that collects a body: bytes move, none is lost, and it stops when the body is complete
or the buffer is empty. -/
private theorem readBody_spec {p : Framing} (fuel : ℕ) (c : P2PClient) (hc : c.Sound p)
    (hbody : c.receivingBody = true)
    (hfuel : c.requestBodyLength - c.receivingBodyStream.length
      + (if c.buffer.toFifo.queue = [] then 2 else 1) ≤ fuel) :
    ∃ c' flag, readBody fuel c = some (c', flag) ∧ c'.Sound p ∧ Received c c' ∧
      c'.held = c.held ∧ c'.receivingBody = true ∧ (flag = true ↔ c'.Complete) ∧
      (flag = false → c'.Starved p c.sock) := by
  induction fuel generalizing c with
  | zero => split_ifs at hfuel <;> omega
  | succ fuel ih =>
    obtain ⟨hreq, hheader, hle⟩ := hc.busy hbody
    rw [readBody, if_neg (by omega)]
    obtain ⟨b₁, hcopy, hqueue, himpl⟩ := CircularBuffer.copyTo_spec
      (c.requestBodyLength - c.receivingBodyStream.length) c.buffer _ (le_refl _)
    simp only [hcopy]
    -- the state after the bytes of the buffer have joined the body
    set c₁ : P2PClient := { c with
      buffer := b₁
      receivingBodyStream := c.receivingBodyStream
        ++ c.buffer.toFifo.queue.take (c.requestBodyLength - c.receivingBodyStream.length) } with hc₁
    have hlen₁ : c₁.receivingBodyStream.length = c.receivingBodyStream.length
        + min (c.requestBodyLength - c.receivingBodyStream.length) c.buffer.toFifo.queue.length := by
      rw [hc₁, List.length_append, List.length_take]
    have hsound₁ : c₁.Sound p :=
      ⟨himpl.trans hc.length_impl, fun h ↦ absurd (hbody.symm.trans h) (by simp),
        fun _ ↦ ⟨hreq, hheader, by rw [hlen₁]; show _ ≤ c.requestBodyLength; omega⟩⟩
    have hheld₁ : c₁.held = c.held := by
      simp only [held, hc₁, hqueue, List.append_assoc]
      rw [← List.append_assoc (List.take _ _), List.take_append_drop]
    by_cases hdone : c₁.receivingBodyStream.length = c.requestBodyLength
    · rw [if_pos hdone]
      exact ⟨c₁, true, rfl, hsound₁, ⟨rfl, rfl, rfl, rfl, id⟩, hheld₁, hbody,
        iff_of_true rfl ⟨hbody, hdone⟩, fun h ↦ by simp at h⟩
    · rw [if_neg hdone]
      -- the body was not complete, so the buffer is empty
      have hempty : b₁.toFifo.queue = [] := by
        rw [hqueue]
        apply List.drop_eq_nil_of_le
        omega
      obtain ⟨b₂, incoming, got, hfrom, hqueue₂, hgot, himpl₂, hleft⟩ := b₁.copyFrom_spec c.sock
      simp only [hfrom]
      set c₂ : P2PClient :=
        { c₁ with buffer := b₂, sock := { c.sock with incoming := incoming } } with hc₂
      have hsound₂ : c₂.Sound p :=
        ⟨himpl₂.trans (himpl.trans hc.length_impl), hsound₁.idle, hsound₁.busy⟩
      have hheld₂ : c₂.held = c.held := by
        rw [← hheld₁]
        simp only [held, hc₂, hqueue₂, List.append_assoc, hgot, hc₁]
      have hreceived : Received c c₂ := ⟨rfl, rfl, rfl, rfl, fun hsolid ↦ (hleft hsolid).1⟩
      by_cases hnone : b₂.empty = true
      · rw [if_pos hnone]
        have hnil : c₂.buffer.toFifo.queue = [] := by
          apply List.eq_nil_of_length_eq_zero
          rw [CircularBuffer.length_queue]
          exact beq_iff_eq.mp hnone
        refine ⟨c₂, false, rfl, hsound₂, hreceived, hheld₂, hbody, ?_,
          fun _ ↦ ⟨?_, fun hsolid ↦ (hleft hsolid).2 ?_⟩⟩
        · exact iff_of_false (by simp) fun h ↦ hdone h.2
        · rw [if_pos hbody]
          exact ⟨hnil, lt_of_le_of_ne (hsound₁.busy hbody).2.2 hdone⟩
        · exact hsound₂.capacity_ne_zero (by rw [hnil]; exact Nat.zero_lt_succ _)
      · rw [if_neg hnone]
        have hsome : c₂.buffer.toFifo.queue ≠ [] := fun hnil ↦ by
          apply hnone
          rw [CircularBuffer.empty, ← CircularBuffer.length_queue, beq_iff_eq]
          exact List.length_eq_zero_iff.mpr hnil
        obtain ⟨c', flag, hrun, hs, hr, hh, hb, hflag, hst⟩ := ih c₂ hsound₂ hbody (by
          rw [if_neg hsome]
          show c.requestBodyLength - c₁.receivingBodyStream.length + 1 ≤ fuel
          rw [hlen₁]
          split_ifs at hfuel with hq
          · omega
          · have := List.length_pos_of_ne_nil hq
            omega)
        exact ⟨c', flag, hrun, hs, hreceived.trans hr, hh.trans hheld₂, hb, hflag,
          fun hf ↦ (hst hf).mono hreceived.solid⟩

theorem sound_disconnect {p : Framing} {c : P2PClient} (hc : c.Sound p) : c.disconnect.Sound p :=
  ⟨hc.length_impl, fun _ ↦ ⟨rfl, rfl⟩, fun h ↦ by simp [disconnect] at h⟩

private theorem starved_disconnect (p : Framing) (before : Socket) (c : P2PClient) :
    c.disconnect.Starved p before :=
  ⟨p.headerSize_pos, fun _ ↦ rfl⟩

/-- `read` moves bytes and loses none, unless it meets a header that is refused. Then the header is
what the held bytes start with, and the client is disconnected. -/
theorem read_spec {p : Framing} {c : P2PClient} (hc : c.Sound p) :
    ∃ c' flag, c.read p = some (c', flag) ∧ c'.Sound p ∧ c'.waitingShutdown = c.waitingShutdown ∧
      (flag = true ↔ c'.Complete) ∧ (flag = false → c'.Starved p c.sock) ∧
      (Received c c' ∧ c'.held = c.held ∨
        c' = c'.disconnect ∧ p.headerSize ≤ c.held.length ∧
          ∃ reason, p.onRequestHeader (c.held.take p.headerSize) = .error reason) := by
  rw [read]
  by_cases hbody : c.receivingBody = true
  · rw [if_pos hbody]
    obtain ⟨c', flag, hrun, hs, hr, hh, -, hflag, hst⟩ :=
      readBody_spec (c.requestBodyLength - c.receivingBodyStream.length + 2) c hc hbody
        (by split_ifs <;> omega)
    exact ⟨c', flag, hrun, hs, hr.waitingShutdown, hflag, hst, .inl ⟨hr, hh⟩⟩
  · rw [if_neg hbody]
    obtain ⟨hreq, hstream⟩ := hc.idle (Bool.eq_false_iff.mpr hbody)
    obtain ⟨b₁, incoming, got, hfrom, hqueue, hgot, himpl, hleft⟩ := c.buffer.copyFrom_spec c.sock
    simp only [hfrom]
    set c₁ : P2PClient :=
      { c with buffer := b₁, sock := { c.sock with incoming := incoming } } with hc₁
    have hsound₁ : c₁.Sound p := ⟨himpl.trans hc.length_impl, hc.idle, hc.busy⟩
    have hheld₁ : c₁.held = c.held := by
      simp only [held, hc₁, hqueue, List.append_assoc, hgot]
    have hreceived : Received c c₁ := ⟨rfl, rfl, rfl, rfl, fun hsolid ↦ (hleft hsolid).1⟩
    by_cases hshort : b₁.size < p.headerSize
    · rw [if_pos hshort]
      have hqueue₁ : c₁.buffer.toFifo.queue.length < p.headerSize := by
        rw [CircularBuffer.length_queue]
        exact hshort
      refine ⟨c₁, false, rfl, hsound₁, rfl, ?_, fun _ ↦ ⟨?_, fun hsolid ↦ (hleft hsolid).2 ?_⟩,
        .inl ⟨hreceived, hheld₁⟩⟩
      · exact iff_of_false (by simp) fun h ↦ hbody h.1
      · rw [if_neg hbody]
        exact hqueue₁
      · exact hsound₁.capacity_ne_zero (hqueue₁.trans_le p.headerSize_le)
    · rw [if_neg hshort]
      obtain ⟨b₂, hread, hqueue₂, himpl₂⟩ :=
        CircularBuffer.read_spec p.headerSize b₁ p.headerSize (le_refl _) (by omega)
      simp only [hread]
      -- the header is what the held bytes start with
      have hlen : (b₁.toFifo.queue.take p.headerSize).length = p.headerSize := by
        rw [List.length_take, CircularBuffer.length_queue]
        omega
      have hheader : c.held.take p.headerSize = b₁.toFifo.queue.take p.headerSize := by
        rw [← hheld₁]
        simp only [held, hc₁, hreq, hstream, List.nil_append]
        apply List.take_append_of_le_length
        rw [CircularBuffer.length_queue]
        omega
      rcases hparse : p.onRequestHeader (b₁.toFifo.queue.take p.headerSize) with reason | length
      · refine ⟨_, false, rfl, ?_, rfl, ?_, fun _ ↦ starved_disconnect p _ _,
          .inr ⟨rfl, ?_, reason, by rw [hheader, hparse]⟩⟩
        · exact ⟨(himpl₂.trans himpl).trans hc.length_impl, fun _ ↦ ⟨rfl, rfl⟩,
            fun h ↦ by simp [disconnect] at h⟩
        · exact iff_of_false (by simp) fun h ↦ by simp [Complete, disconnect] at h
        · rw [← hlen, ← hheader]
          exact List.length_take_le' _ _
      · set c₂ : P2PClient := { c₁ with
          request := b₁.toFifo.queue.take p.headerSize
          buffer := b₂
          requestBodyLength := length
          receivingBody := true
          receivingBodyStream := [] } with hc₂
        have hsound₂ : c₂.Sound p :=
          ⟨(himpl₂.trans himpl).trans hc.length_impl, fun h ↦ by simp [hc₂] at h,
            fun _ ↦ ⟨hlen, hparse, Nat.zero_le _⟩⟩
        have hheld₂ : c₂.held = c.held := by
          rw [← hheld₁]
          simp only [held, hc₂, hc₁, hqueue₂, hreq, hstream, List.append_nil, List.nil_append]
          rw [List.take_append_drop]
        obtain ⟨c', flag, hrun, hs, hr, hh, -, hflag, hst⟩ :=
          readBody_spec (length + 2) c₂ hsound₂ rfl (by
            show length - 0 + _ ≤ length + 2
            split_ifs <;> omega)
        have hreceived₂ : Received c c₂ :=
          ⟨hreceived.responses, hreceived.waitingShutdown, hreceived.isOpen, hreceived.askedShutdown,
            hreceived.solid⟩
        exact ⟨c', flag, hrun, hs, hr.waitingShutdown, hflag, fun hf ↦ (hst hf).mono hreceived₂.solid,
          .inl ⟨hreceived₂.trans hr, hh.trans hheld₂⟩⟩

end P2PClient

end CryoNero.P2p
