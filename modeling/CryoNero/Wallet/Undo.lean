import CryoNero.Codec.Varint
import CryoNero.Core.WalletChain
import CryoNero.Core.Written

/-!
# Blocks of a wallet are undone exactly

The undo map of a block holds the first old record of every key the block has written, and popping
the block replays it. This restores the whole state, the tip with it, as long as the operations of
the block leave the headers and the undo maps themselves alone and the chain does not grow so long
that its length wraps around.

The argument is `pop_of_process`: what a block does to the database is remembered
(`Processing`), the header and the undo map are written beside the other records, and the pop takes
both away before anything else. `undo_restores` follows by induction on the blocks.
-/

namespace CryoNero.WalletStateBasic

open Store Seria Seria.Reader Std

/-! ## What headers and undo maps read as -/

theorem andThen_on {σ α : Type} {get : σ → α} {set : α → σ → σ} {r : Reader α} {w : α → Bytes}
    (hr : ∀ v x, Reads r w v x) (q : Reader σ) (v : σ) (x : α) (s : Bytes) :
    (on get set r).andThen q v (w x ++ s) = q (set x v) s :=
  andThen_of_some (on_of_some (hr _ x s))

private theorem reads_readApiBlockHeader (v x : Api.BlockHeader) :
    Reads readApiBlockHeader writeApiBlockHeader v x := by
  intro rest
  unfold readApiBlockHeader writeApiBlockHeader
  simp only [List.append_assoc, andThen_on reads_readU8, andThen_on reads_readU32,
    andThen_on reads_readU64, andThen_on reads_readHash]
  exact on_of_some (reads_readU64 _ _ _)

theorem fromBinary_of_reads {σ : Type} {r : Reader σ} {w : σ → Bytes} {v x : σ}
    (h : Reads r w v x) : fromBinary r v (w x) = (x, true) := by
  have hread := h []
  rw [List.append_nil] at hread
  rw [fromBinary, hread]

/-- The length of a byte string fits 64 bits. -/
def Sized (b : Bytes) : Prop := b.length < 2 ^ 64

private theorem reads_readUndoValue (v : Option Bytes) {o : Option Bytes} (ho : ∀ b, o = some b → Sized b) :
    Reads readUndoValue writeUndoValue v o := by
  intro rest
  cases o with
  | none =>
    rw [writeUndoValue, List.cons_append]
    unfold readUndoValue
    dsimp only
    rw [reads_readBytes [] (by simp) rest]
    rfl
  | some b =>
    rw [writeUndoValue, List.cons_append]
    unfold readUndoValue
    dsimp only
    rw [reads_readBytes [] (ho b rfl) rest]
    rfl

/-! ## Keys -/

/-- The keys of the indexes and of everything else that is neither a header nor an undo map. -/
def IsIndexKey (key : Bytes) : Prop :=
  key.head? ≠ some indexHeightToHeader ∧ key.head? ≠ some indexUidToState

theorem not_isIndexKey_headerKey (h : Height) : ¬IsIndexKey (headerKey h) := fun hkey ↦ hkey.1 rfl

theorem not_isIndexKey_stateKey (h : UInt32) : ¬IsIndexKey (stateKey h) := fun hkey ↦ hkey.2 rfl

theorem headerKey_ne_stateKey (h h' : UInt32) : headerKey h ≠ stateKey h' := fun heq ↦ by
  have hhead : indexHeightToHeader = indexUidToState := (List.cons.inj heq).1
  exact absurd hhead (by decide)

theorem headerKey_inj {h h' : Height} (heq : headerKey h = headerKey h') : h = h' :=
  UInt32.toUInt64_inj.mp (writeVarintSqlite4_injective (List.cons.inj heq).2)

private theorem stateKey_inj {h h' : Height} (heq : stateKey h = stateKey h') : h = h' :=
  UInt32.toUInt64_inj.mp (writeVarintSqlite4_injective (List.cons.inj heq).2)

/-! ## Sound states -/

/-- An undo map whose keys and values can be written and that leaves headers and undo maps alone. -/
structure PlainUndo (m : UndoMap) : Prop where
  size : m.size < 2 ^ 64
  keys : ∀ (k : Bytes) o, m[k]? = some o → IsIndexKey k ∧ Sized k
  values : ∀ (k : Bytes) v, m[k]? = some (some v) → Sized v

/-- A number of blocks, modulo `2 ^ 32`. -/
def length (s : WalletStateBasic) : ℕ := (s.tipHeight + 1 - s.tailHeight).toNat

/-- Where a height stands in the chain. -/
def position (s : WalletStateBasic) (h : Height) : ℕ := (h - s.tailHeight).toNat

/-- The state between two blocks: nothing is remembered, exactly the blocks of the chain have
headers, undo maps belong to blocks of the chain, and the tip is the header of the last one. -/
structure Sound (s : WalletStateBasic) : Prop where
  clear : s.db.undo = ∅
  tipEmpty : s.emptyChain = true → s.tip = {}
  headers : ∀ h, s.position h < s.length →
    ∃ header, s.db.records[headerKey h]? = some (writeApiBlockHeader header)
  tipStored : s.emptyChain = false →
    s.db.records[headerKey s.tipHeight]? = some (writeApiBlockHeader s.tip)
  noHeader : ∀ h, s.length ≤ s.position h → s.db.records[headerKey h]? = none
  noState : ∀ h, s.length ≤ s.position h → s.db.records[stateKey h]? = none
  states : ∀ (h : UInt32) value, s.db.records[stateKey h]? = some value →
    ∃ m, PlainUndo m ∧ value = writeMap writeUndoValue m
  sizes : ∀ k v, IsIndexKey k → s.db.records[k]? = some v → Sized k ∧ Sized v

theorem emptyChain_iff (s : WalletStateBasic) : s.emptyChain = true ↔ s.length = 0 := by
  rw [emptyChain, length, decide_eq_true_eq, ← UInt32.toNat_zero, UInt32.toNat_inj]
  exact sub_eq_zero.symm

theorem PlainUndo.reads {m : UndoMap} (h : PlainUndo m) :
    fromBinary (readMap readUndoValue none) ∅ (writeMap writeUndoValue m) = (m, true) :=
  fromBinary_of_reads (reads_readMap h.size (fun k _ hk ↦ (h.keys k _ hk).2) fun k _ hk ↦
    reads_readUndoValue none fun v hv ↦ h.values k v (hv ▸ hk))

/-! ## The operations of a block -/

/-- An operation on an index key, whose key and value fit. -/
def PlainOp : DbOp → Prop
  | .putWithUndo key value _ => IsIndexKey key ∧ Sized key ∧ Sized value
  | .delWithUndo key _ => IsIndexKey key ∧ Sized key

/-- What holds after `n` operations of a block that began in `s₀`. -/
structure Processing (s₀ s : WalletStateBasic) (n : ℕ) : Prop where
  rest : s = { s₀ with db := s.db }
  restores : s.db.Restores s₀.db.records
  size : s.db.undo.size ≤ n
  keys : ∀ (k : Bytes) o, s.db.undo[k]? = some o → IsIndexKey k ∧ Sized k
  sizes : ∀ k v, IsIndexKey k → s.db.records[k]? = some v → Sized k ∧ Sized v

theorem Processing.start {s : WalletStateBasic} (h : s.Sound) : Processing s s 0 where
  rest := rfl
  restores := by
    have hclear := Journal.restores_clear s.db.records
    rwa [← h.clear] at hclear
  size := by rw [h.clear]; exact Nat.le_of_eq rfl
  keys k o hk := by
    rw [h.clear] at hk
    cases (ExtTreeMap.getElem?_empty).symm.trans hk
  sizes := h.sizes

theorem Processing.step {s₀ s s' : WalletStateBasic} {n : ℕ} {op : DbOp} (h : Processing s₀ s n)
    (hop : PlainOp op) (hstep : s.perform op = .ok s') : Processing s₀ s' (n + 1) := by
  -- both kinds of operations remember the key
  have hkeys {key : Bytes} (hkey : IsIndexKey key ∧ Sized key) (k : Bytes) (o : Option Bytes)
      (hk : (s.db.remember key).undo[k]? = some o) : IsIndexKey k ∧ Sized k := by
    rw [Journal.get_undo_remember] at hk
    split_ifs at hk with heq
    · exact heq.1 ▸ hkey
    · exact h.keys k o hk
  have hsize (key : Bytes) : (s.db.remember key).undo.size ≤ n + 1 :=
    (s.db.size_undo_remember_le key).trans (Nat.succ_le_succ h.size)
  cases op with
  | putWithUndo key value nooverwrite =>
    unfold perform at hstep
    dsimp only at hstep
    split_ifs at hstep
    obtain rfl := Except.ok.inj hstep
    refine ⟨by rw [h.rest], h.restores.put key value, hsize key, hkeys ⟨hop.1, hop.2.1⟩,
      fun k v hindex hk ↦ ?_⟩
    rw [Journal.put_records, Table.get_insert] at hk
    split_ifs at hk with hkey
    · cases hk
      exact ⟨hkey ▸ hop.2.1, hop.2.2⟩
    · exact h.sizes k v hindex hk
  | delWithUndo key mustexist =>
    unfold perform at hstep
    dsimp only at hstep
    split_ifs at hstep
    obtain rfl := Except.ok.inj hstep
    refine ⟨by rw [h.rest], h.restores.del key, hsize key, hkeys hop, fun k v hindex hk ↦ ?_⟩
    rw [Journal.del_records, Table.get_erase] at hk
    split_ifs at hk
    exact h.sizes k v hindex hk

theorem Processing.run {s₀ s s' : WalletStateBasic} {ops : List DbOp} {n : ℕ}
    (h : Processing s₀ s n) (hops : ∀ op ∈ ops, PlainOp op) (hrun : ops.foldlM perform s = .ok s') :
    Processing s₀ s' (n + ops.length) := by
  induction ops generalizing s n with
  | nil =>
    obtain rfl := Except.ok.inj hrun
    exact h
  | cons op ops ih =>
    obtain ⟨s₁, hstep, hrun⟩ := bind_eq_ok.mp hrun
    have hnext := ih (h.step (hops op List.mem_cons_self) hstep)
      (fun op' hop' ↦ hops op' (List.mem_cons_of_mem _ hop')) hrun
    rwa [Nat.add_assoc, Nat.add_comm 1] at hnext

theorem Processing.get_of_not_isIndexKey {s₀ s : WalletStateBasic} {n : ℕ} (h : Processing s₀ s n)
    {k : Bytes} (hk : ¬IsIndexKey k) : s.db.records[k]? = s₀.db.records[k]? := by
  refine h.restores.untouched k ?_
  cases hundo : s.db.undo[k]? with
  | none => rfl
  | some o => exact absurd (h.keys k o hundo).1 hk

/-! ## Pushing and popping -/

/-- The same state with other records. -/
def withRecords (s : WalletStateBasic) (records : Table Bytes Bytes) : WalletStateBasic :=
  { s with db := { s.db with records := records } }

private theorem put_eq_ok {s s' : WalletStateBasic} {key value : Bytes}
    (h : s.put key value true = .ok s') :
    s.db.records[key]? = none ∧ s' = s.withRecords (s.db.records.insert key value) := by
  unfold put at h
  split_ifs at h with hkey
  refine ⟨?_, (Except.ok.inj h).symm⟩
  simpa using hkey

private theorem del_of_get {s : WalletStateBasic} {key value : Bytes}
    (h : s.db.records[key]? = some value) :
    s.del key true = .ok (s.withRecords (s.db.records.erase key)) := by
  rw [del, if_neg (by simp [h])]
  rfl

/-- What pushing a block does to the records: its header is put in, and its undo map when there is
anything to undo. -/
theorem pushChain_cases {s s' : WalletStateBasic} {header : Api.BlockHeader}
    (h : s.pushChain header = .ok s') :
    s.db.records[headerKey (s.tipHeight + 1)]? = none ∧ ∃ records : Table Bytes Bytes,
      s' = ⟨⟨records, ∅⟩, s.tipHeight + 1, s.tailHeight, header⟩ ∧
      (s.db.undo = ∅ ∧ records = s.db.records.insert (headerKey (s.tipHeight + 1))
          (writeApiBlockHeader header) ∨
        s.db.records[stateKey (s.tipHeight + 1)]? = none ∧
          records = (s.db.records.insert (headerKey (s.tipHeight + 1))
            (writeApiBlockHeader header)).insert (stateKey (s.tipHeight + 1))
              (writeMap writeUndoValue s.db.undo)) := by
  obtain ⟨s₁, hput, h⟩ := bind_eq_ok.mp h
  obtain ⟨hnone, rfl⟩ := put_eq_ok hput
  obtain ⟨s₂, hsave, h⟩ := bind_eq_ok.mp h
  obtain rfl := Except.ok.inj h
  refine ⟨hnone, s₂.db.records, ?_⟩
  unfold saveDbState at hsave
  split_ifs at hsave with hempty
  · obtain rfl := Except.ok.inj hsave
    exact ⟨rfl, .inl ⟨ExtTreeMap.isEmpty_iff.mp hempty, rfl⟩⟩
  · obtain ⟨hstate, rfl⟩ := put_eq_ok hsave
    refine ⟨rfl, .inr ⟨?_, rfl⟩⟩
    change (s.db.records.insert _ _)[_]? = none at hstate
    rwa [Table.get_insert_of_ne _ _ (headerKey_ne_stateKey _ _)] at hstate

private theorem undoDbState_of_none {s : WalletStateBasic} {state : UInt32}
    (h : s.db.records[stateKey state]? = none) : s.undoDbState state = .ok s := by
  unfold undoDbState
  rw [h]

private theorem undoDbState_of_some {s : WalletStateBasic} {state : UInt32} {m : UndoMap}
    (hm : PlainUndo m) (h : s.db.records[stateKey state]? = some (writeMap writeUndoValue m)) :
    s.undoDbState state =
      .ok (s.withRecords (Journal.replay m (s.db.records.erase (stateKey state)))) := by
  unfold undoDbState
  rw [h]
  dsimp only
  rw [hm.reads]
  dsimp only
  rw [del_of_get h]
  rfl

/-- The tip that a pop reads. -/
def lastHeader (s : WalletStateBasic) : Except DbError Api.BlockHeader :=
  if s.emptyChain then .ok {} else s.readChain s.tipHeight

private theorem lastHeader_eq {s : WalletStateBasic} (htip : s.emptyChain = true → s.tip = {})
    (hstored : s.emptyChain = false →
      s.db.records[headerKey s.tipHeight]? = some (writeApiBlockHeader s.tip)) :
    s.lastHeader = .ok s.tip := by
  cases hempty : s.emptyChain with
  | true => rw [lastHeader, if_pos hempty, htip hempty]
  | false =>
    rw [lastHeader, if_neg (by simp [hempty]), readChain, hstored hempty]
    dsimp only
    rw [fromBinary_of_reads (reads_readApiBlockHeader _ _)]

private theorem bind_ite {ε α β : Type} {p : Prop} [Decidable p] (x y : Except ε α) (f : α → Except ε β) :
    (if p then x >>= f else y >>= f) = (if p then x else y) >>= f := by
  split_ifs <;> rfl

private theorem popChain_eq {s t : WalletStateBasic} {records : Table Bytes Bytes} {value : Bytes}
    (hempty : s.emptyChain = false)
    (hundo : s.undoDbState s.tipHeight = .ok (s.withRecords records))
    (hget : records[headerKey s.tipHeight]? = some value)
    (ht : t = ⟨⟨records.erase (headerKey s.tipHeight), s.db.undo⟩, s.tipHeight - 1, s.tailHeight,
      s.tip⟩) :
    s.popChain = t.lastHeader >>= fun tip ↦ .ok { t with tip := tip } := by
  subst ht
  have hdel : (s.withRecords records).del (headerKey s.tipHeight) true =
      .ok (s.withRecords (records.erase (headerKey s.tipHeight))) := del_of_get hget
  unfold popChain
  rw [ensure_pos _ hempty, ok_bind, hundo, ok_bind]
  change ((s.withRecords records).del (headerKey s.tipHeight) true >>= fun s₁ ↦ _) = _
  rw [hdel, ok_bind]
  exact bind_ite _ _ _

/-! ## A block keeps a state sound -/

theorem position_succ_tip {s : WalletStateBasic} : s.position (s.tipHeight + 1) = s.length := rfl

private theorem length_succ {s s' : WalletStateBasic} (hroom : s.length + 1 < 2 ^ 32)
    (htip : s'.tipHeight = s.tipHeight + 1) (htail : s'.tailHeight = s.tailHeight) :
    s'.length = s.length + 1 := by
  have hsub : s'.tipHeight + 1 - s'.tailHeight = (s.tipHeight + 1 - s.tailHeight) + 1 := by
    rw [htip, htail]
    exact add_sub_right_comm _ _ _
  rw [length, hsub, UInt32.toNat_add]
  exact Nat.mod_eq_of_lt hroom

theorem eq_of_position_eq {s : WalletStateBasic} {h h' : Height}
    (hpos : s.position h = s.position h') : h = h' :=
  sub_left_inj.mp (UInt32.toNat.inj hpos)

private theorem Processing.plainUndo {s₀ s : WalletStateBasic} {n : ℕ} (h : Processing s₀ s n)
    (hs₀ : s₀.Sound) (hn : n < 2 ^ 64) : PlainUndo s.db.undo where
  size := Nat.lt_of_le_of_lt h.size hn
  keys := h.keys
  values k v hk := (hs₀.sizes k v (h.keys k _ hk).1 (h.restores.remembered k _ hk)).2

/-- The records after a block of which the other records are `old`. -/
structure Written (old records : Table Bytes Bytes) (tip : Height) (header : Api.BlockHeader)
    (undo : UndoMap) : Prop where
  header : ∀ h, records[headerKey h]? =
    if h = tip then some (writeApiBlockHeader header) else old[headerKey h]?
  state : ∀ h value, records[stateKey h]? = some value →
    old[stateKey h]? = some value ∨ h = tip ∧ value = writeMap writeUndoValue undo
  index : ∀ k, IsIndexKey k → records[k]? = old[k]?

private theorem written_insert_header {old : Table Bytes Bytes} {tip : Height} {header : Api.BlockHeader}
    {undo : UndoMap} :
    Written old (old.insert (headerKey tip) (writeApiBlockHeader header)) tip header undo where
  header h := by
    rw [Table.get_insert]
    by_cases heq : h = tip
    · rw [heq, if_pos rfl, if_pos rfl]
    · rw [if_neg fun hkey ↦ heq (headerKey_inj hkey).symm, if_neg heq]
  state h value hvalue := by
    rw [Table.get_insert_of_ne _ _ (headerKey_ne_stateKey _ _)] at hvalue
    exact .inl hvalue
  index k hk := Table.get_insert_of_ne _ _ fun heq ↦ not_isIndexKey_headerKey _ (heq ▸ hk)

private theorem Written.insert_state {old records : Table Bytes Bytes} {tip : Height}
    {header : Api.BlockHeader} {undo : UndoMap} (h : Written old records tip header undo) :
    Written old (records.insert (stateKey tip) (writeMap writeUndoValue undo)) tip header undo where
  header h' := by
    rw [Table.get_insert_of_ne _ _ (headerKey_ne_stateKey _ _).symm]
    exact h.header h'
  state h' value hvalue := by
    rw [Table.get_insert] at hvalue
    split_ifs at hvalue with heq
    · exact .inr ⟨(stateKey_inj heq).symm, (Option.some.inj hvalue).symm⟩
    · exact h.state h' value hvalue
  index k hk := by
    rw [Table.get_insert_of_ne _ _ fun heq ↦ not_isIndexKey_stateKey _ (heq ▸ hk)]
    exact h.index k hk

private theorem pushChain_written {s s' : WalletStateBasic} {header : Api.BlockHeader}
    (h : s.pushChain header = .ok s') :
    Written s.db.records s'.db.records (s.tipHeight + 1) header s.db.undo ∧
      s' = ⟨⟨s'.db.records, ∅⟩, s.tipHeight + 1, s.tailHeight, header⟩ := by
  obtain ⟨-, records, rfl, ⟨-, rfl⟩ | ⟨-, rfl⟩⟩ := pushChain_cases h
  · exact ⟨written_insert_header, rfl⟩
  · exact ⟨written_insert_header.insert_state, rfl⟩

/-- A block that leaves headers and undo maps alone, on a chain that does not wrap around. -/
structure PlainBlock (block : List DbOp × Api.BlockHeader) : Prop where
  ops : ∀ op ∈ block.1, PlainOp op
  size : block.1.length < 2 ^ 64

private theorem processBlock_eq_ok {s s' : WalletStateBasic} {block : List DbOp × Api.BlockHeader}
    (hs : s.Sound) (hblock : PlainBlock block) (h : s.processBlock block = .ok s') :
    ∃ s₁, Processing s s₁ block.1.length ∧ s₁.pushChain block.2 = .ok s' := by
  obtain ⟨s₁, hrun, hpush⟩ := bind_eq_ok.mp h
  have hprocessing := (Processing.start hs).run hblock.ops hrun
  rw [Nat.zero_add] at hprocessing
  exact ⟨s₁, hprocessing, hpush⟩

theorem Sound.processBlock {s s' : WalletStateBasic} {block : List DbOp × Api.BlockHeader}
    (hs : s.Sound) (hblock : PlainBlock block) (hroom : s.length + 1 < 2 ^ 32)
    (h : s.processBlock block = .ok s') : s'.Sound ∧ s'.length = s.length + 1 := by
  obtain ⟨s₁, hprocessing, hpush⟩ := processBlock_eq_ok hs hblock h
  obtain ⟨hwritten, hs'⟩ := pushChain_written hpush
  have hdb₁ : s₁ = { s with db := s₁.db } := hprocessing.rest
  have htip : s'.tipHeight = s.tipHeight + 1 := by rw [hs', hdb₁]
  have htail : s'.tailHeight = s.tailHeight := by rw [hs', hdb₁]
  have hheader : s'.tip = block.2 := by rw [hs']
  have htip₁ : s₁.tipHeight + 1 = s'.tipHeight := by rw [hs']
  rw [htip₁] at hwritten
  have hlength := length_succ hroom htip htail
  have hpos (h : Height) : s'.position h = s.position h := by rw [position, htail, position]
  have hpostip : s.position s'.tipHeight = s.length := by rw [htip, position_succ_tip]
  refine ⟨⟨by rw [hs'], fun hempty ↦ ?_, fun h hh ↦ ?_, fun _ ↦ ?_, fun h hh ↦ ?_, fun h hh ↦ ?_,
    fun h value hvalue ↦ ?_, fun k v hk hv ↦ ?_⟩, hlength⟩
  · rw [emptyChain_iff, hlength] at hempty
    omega
  · rw [hwritten.header]
    split_ifs with heq
    · exact ⟨_, rfl⟩
    · rw [hprocessing.get_of_not_isIndexKey (not_isIndexKey_headerKey h)]
      refine hs.headers h (Nat.lt_of_le_of_ne ?_ fun hlast ↦ heq ?_)
      · rw [hpos, hlength] at hh
        omega
      · exact eq_of_position_eq (hlast.trans hpostip.symm)
  · rw [hwritten.header, if_pos rfl, hheader]
  · rw [hpos, hlength] at hh
    have hne : h ≠ s'.tipHeight := by
      rintro rfl
      omega
    rw [hwritten.header, if_neg hne,
      hprocessing.get_of_not_isIndexKey (not_isIndexKey_headerKey h)]
    exact hs.noHeader h (by omega)
  · rw [hpos, hlength] at hh
    cases hget : s'.db.records[stateKey h]? with
    | none => rfl
    | some value =>
      rcases hwritten.state h value hget with hold | ⟨rfl, -⟩
      · rw [hprocessing.get_of_not_isIndexKey (not_isIndexKey_stateKey h),
          hs.noState h (by omega)] at hold
        cases hold
      · omega
  · rcases hwritten.state h value hvalue with hold | ⟨-, rfl⟩
    · rw [hprocessing.get_of_not_isIndexKey (not_isIndexKey_stateKey h)] at hold
      exact hs.states h value hold
    · exact ⟨_, hprocessing.plainUndo hs hblock.size, rfl⟩
  · rw [hwritten.index k hk] at hv
    exact hprocessing.sizes k v hk hv

/-! ## Popping the block -/

private theorem popChain_of_undoDbState {s s' : WalletStateBasic} {value : Bytes} (hs : s.Sound)
    (hempty : s'.emptyChain = false) (htip : s'.tipHeight = s.tipHeight + 1)
    (htail : s'.tailHeight = s.tailHeight) (hclear : s'.db.undo = ∅)
    (hundo : s'.undoDbState s'.tipHeight =
      .ok (s'.withRecords (s.db.records.insert (headerKey s'.tipHeight) value))) :
    s'.popChain = .ok s := by
  have hnone : s.db.records[headerKey s'.tipHeight]? = none :=
    hs.noHeader _ (by rw [htip, position_succ_tip])
  have hlast : lastHeader { s with tip := s'.tip } = .ok s.tip :=
    lastHeader_eq hs.tipEmpty hs.tipStored
  rw [popChain_eq hempty hundo (Table.get_insert_self _ _ _) (t := { s with tip := s'.tip }),
    hlast]
  · rfl
  · rw [Table.erase_insert _ _ hnone, hclear, ← hs.clear, htip, htail,
      add_sub_cancel_right]

/-- **Popping a block that was just processed gives the state before it.** -/
private theorem popChain_of_processBlock {s s' : WalletStateBasic} {block : List DbOp × Api.BlockHeader}
    (hs : s.Sound) (hblock : PlainBlock block) (hroom : s.length + 1 < 2 ^ 32)
    (h : s.processBlock block = .ok s') : s'.popChain = .ok s := by
  have hlength := (hs.processBlock hblock hroom h).2
  have hempty : s'.emptyChain = false := by
    rw [← Bool.not_eq_true, emptyChain_iff, hlength]
    omega
  obtain ⟨s₁, hprocessing, hpush⟩ := processBlock_eq_ok hs hblock h
  have hdb₁ : s₁ = { s with db := s₁.db } := hprocessing.rest
  obtain ⟨-, records, hs', hrecords⟩ := pushChain_cases hpush
  have htip₁ : s₁.tipHeight + 1 = s'.tipHeight := by rw [hs']
  have htip : s'.tipHeight = s.tipHeight + 1 := by rw [hs', hdb₁]
  have htail : s'.tailHeight = s.tailHeight := by rw [hs', hdb₁]
  have hdb : s'.db.records = records := by rw [hs']
  have hnone : s.db.records[stateKey s'.tipHeight]? = none :=
    hs.noState _ (by rw [htip, position_succ_tip])
  rw [htip₁, ← hdb] at hrecords
  suffices hundo : s'.undoDbState s'.tipHeight = .ok (s'.withRecords
      (s.db.records.insert (headerKey s'.tipHeight) (writeApiBlockHeader block.2))) from
    popChain_of_undoDbState hs hempty htip htail (by rw [hs']) hundo
  rcases hrecords with ⟨hundo, hrecords⟩ | ⟨-, hrecords⟩
  · -- nothing was remembered, so nothing was changed
    have hsame : s₁.db.records = s.db.records := Table.ext_get fun k ↦
      hprocessing.restores.untouched k (by rw [hundo]; exact ExtTreeMap.getElem?_empty)
    rw [hsame] at hrecords
    rw [← hrecords]
    refine undoDbState_of_none ?_
    rw [hrecords, Table.get_insert_of_ne _ _ (headerKey_ne_stateKey _ _), hnone]
  · have hplain := hprocessing.plainUndo hs hblock.size
    rw [undoDbState_of_some hplain (hrecords ▸ Table.get_insert_self _ _ _), hrecords,
      Table.erase_insert]
    · -- beside the records of the indexes there is now the header, which the replay leaves alone
      have hrestores : Journal.Restores ⟨s₁.db.records.insert (headerKey s'.tipHeight)
          (writeApiBlockHeader block.2), s₁.db.undo⟩ (s.db.records.insert (headerKey s'.tipHeight)
          (writeApiBlockHeader block.2)) := by
        refine ⟨fun k o hk ↦ ?_, fun k hk ↦ ?_⟩
        · rw [Table.get_insert_of_ne _ _ fun heq ↦
            not_isIndexKey_headerKey _ (heq ▸ (hprocessing.keys k o hk).1)]
          exact hprocessing.restores.remembered k o hk
        · rw [Table.get_insert, Table.get_insert, hprocessing.restores.untouched k hk]
      rw [hrestores.replay]
    · rw [Table.get_insert_of_ne _ _ (headerKey_ne_stateKey _ _),
        hprocessing.get_of_not_isIndexKey (not_isIndexKey_stateKey _), hnone]

/-! ## A pop keeps a state sound -/

private theorem position_tip_succ {s : WalletStateBasic} (hempty : s.emptyChain = false) :
    s.position s.tipHeight + 1 = s.length := by
  have hne : s.length ≠ 0 := fun h ↦ by simp [(emptyChain_iff s).mpr h] at hempty
  have hsub : s.tipHeight + 1 - s.tailHeight = (s.tipHeight - s.tailHeight) + 1 :=
    add_sub_right_comm _ _ _
  rw [length, hsub, UInt32.toNat_add] at hne ⊢
  have hlt := (s.tipHeight - s.tailHeight).toNat_lt
  change ((s.tipHeight - s.tailHeight).toNat + 1) % 2 ^ 32 ≠ 0 at hne
  change (s.tipHeight - s.tailHeight).toNat + 1 = ((s.tipHeight - s.tailHeight).toNat + 1) % 2 ^ 32
  omega

/-- What undoing the last block does to the records. -/
theorem Sound.undoDbState {s : WalletStateBasic} (hs : s.Sound) (state : UInt32) :
    ∃ records, s.undoDbState state = .ok (s.withRecords records) ∧
      (∀ h, records[headerKey h]? = s.db.records[headerKey h]?) ∧
      (∀ h, records[stateKey h]? = if stateKey state = stateKey h then none
        else s.db.records[stateKey h]?) ∧
      ∀ k v, IsIndexKey k → records[k]? = some v → Sized k ∧ Sized v := by
  cases hget : s.db.records[stateKey state]? with
  | none =>
    refine ⟨_, undoDbState_of_none hget, fun _ ↦ rfl, fun h ↦ ?_, hs.sizes⟩
    split_ifs with heq
    · rw [← heq, hget]
    · rfl
  | some value =>
    obtain ⟨m, hm, rfl⟩ := hs.states state value hget
    -- the undo map says nothing of headers and undo maps
    have hnone {k : Bytes} (hk : ¬IsIndexKey k) : m[k]? = none := by
      cases hmk : m[k]? with
      | none => rfl
      | some o => exact absurd (hm.keys k o hmk).1 hk
    refine ⟨_, undoDbState_of_some hm hget, fun h ↦ ?_, fun h ↦ ?_, fun k v hk hv ↦ ?_⟩
    · rw [Journal.get_replay, hnone (not_isIndexKey_headerKey h), Option.getD_none,
        Table.get_erase_of_ne _ (headerKey_ne_stateKey _ _).symm]
    · rw [Journal.get_replay, hnone (not_isIndexKey_stateKey h), Option.getD_none, Table.get_erase]
    · rw [Journal.get_replay] at hv
      cases hmk : m[k]? with
      | some o =>
        rw [hmk, Option.getD_some] at hv
        exact ⟨(hm.keys k o hmk).2, hm.values k v (hv ▸ hmk)⟩
      | none =>
        rw [hmk, Option.getD_none, Table.get_erase] at hv
        split_ifs at hv
        exact hs.sizes k v hk hv

theorem Sound.popChain {s s' : WalletStateBasic} (hs : s.Sound) (h : s.popChain = .ok s') :
    s'.Sound := by
  have hempty : s.emptyChain = false := by
    obtain ⟨u, hguard, -⟩ := bind_eq_ok.mp h
    exact ensure_eq_ok.mp hguard
  obtain ⟨records, hundo, hheaders, hstates, hsizes⟩ := hs.undoDbState s.tipHeight
  have hlength := position_tip_succ hempty
  obtain ⟨header, hheader⟩ := hs.headers s.tipHeight (by omega)
  rw [popChain_eq hempty hundo ((hheaders _).trans hheader) rfl] at h
  obtain ⟨tip, hlast, h⟩ := bind_eq_ok.mp h
  obtain rfl := Except.ok.inj h
  set s₁ : WalletStateBasic := ⟨⟨records.erase (headerKey s.tipHeight), s.db.undo⟩, s.tipHeight - 1,
    s.tailHeight, s.tip⟩ with hs₁
  -- the chain is one shorter
  have hpos (h : Height) : position { s₁ with tip := tip } h = s.position h := rfl
  have hlength₁ : length { s₁ with tip := tip } = s.position s.tipHeight := by
    change (s.tipHeight - 1 + 1 - s.tailHeight).toNat = _
    rw [sub_add_cancel, position]
  have hget (h : Height) (hh : s.position h < s.position s.tipHeight) :
      ∃ header, s₁.db.records[headerKey h]? = some (writeApiBlockHeader header) := by
    have hne : headerKey s.tipHeight ≠ headerKey h := fun heq ↦ by
      rw [headerKey_inj heq] at hh
      exact Nat.lt_irrefl _ hh
    obtain ⟨header, hheader⟩ := hs.headers h (by omega)
    exact ⟨header, by rw [hs₁, Table.get_erase_of_ne _ hne, hheaders, hheader]⟩
  refine ⟨hs.clear, fun hempty₁ ↦ ?_, fun h hh ↦ hget h (by rwa [hpos, hlength₁] at hh),
    fun hempty₁ ↦ ?_, fun h hh ↦ ?_, fun h hh ↦ ?_, fun h value hvalue ↦ ?_, fun k v hk hv ↦ ?_⟩
  · have hempty₁ : s₁.emptyChain = true := hempty₁
    rw [lastHeader, if_pos hempty₁] at hlast
    exact (Except.ok.inj hlast).symm
  · -- the header of the block before can be read
    have hlast₁ := position_tip_succ hempty₁
    rw [hlength₁, hpos] at hlast₁
    obtain ⟨header₁, hheader₁⟩ := hget (s.tipHeight - 1) (Nat.lt_of_succ_le (Nat.le_of_eq hlast₁))
    have hread : lastHeader s₁ = .ok header₁ := by
      have hempty₁ : s₁.emptyChain = false := hempty₁
      have hheader₁ : s₁.db.records[headerKey s₁.tipHeight]? = some _ := hheader₁
      rw [lastHeader, if_neg (by simp [hempty₁]), readChain, hheader₁]
      dsimp only
      rw [fromBinary_of_reads (reads_readApiBlockHeader _ _)]
    obtain rfl := Except.ok.inj (hlast.symm.trans hread)
    exact hheader₁
  · rw [hpos, hlength₁] at hh
    change (records.erase _)[_]? = none
    rw [Table.get_erase]
    split_ifs with heq
    · rfl
    · rw [hheaders]
      refine hs.noHeader h (hlength ▸ Nat.lt_of_le_of_ne hh fun hlast ↦ heq ?_)
      rw [eq_of_position_eq hlast]
  · rw [hpos, hlength₁] at hh
    change (records.erase _)[_]? = none
    rw [Table.get_erase_of_ne _ (headerKey_ne_stateKey _ _), hstates]
    split_ifs with heq
    · rfl
    · refine hs.noState h (hlength ▸ Nat.lt_of_le_of_ne hh fun hlast ↦ heq ?_)
      rw [eq_of_position_eq hlast]
  · change (records.erase _)[_]? = _ at hvalue
    rw [Table.get_erase_of_ne _ (headerKey_ne_stateKey _ _), hstates] at hvalue
    split_ifs at hvalue
    exact hs.states h value hvalue
  · change (records.erase _)[_]? = _ at hv
    rw [Table.get_erase_of_ne _ fun heq ↦ not_isIndexKey_headerKey _ (heq ▸ hk)] at hv
    exact hsizes k v hk hv

/-! ## Runs -/

/-- What happens to the database of a wallet: blocks come and go, records outside of the blocks are
written, and an empty chain is given its genesis block or another tail. -/
inductive Step : WalletStateBasic → WalletStateBasic → Prop
  | processBlock {s s' : WalletStateBasic} {block : List DbOp × Api.BlockHeader}
      (hblock : PlainBlock block) (hroom : s.length + 1 < 2 ^ 32)
      (h : s.processBlock block = .ok s') : Step s s'
  | popChain {s s' : WalletStateBasic} (h : s.popChain = .ok s') : Step s s'
  | put {s s' : WalletStateBasic} {key value : Bytes} {nooverwrite : Bool} (hkey : IsIndexKey key)
      (hsize : Sized key ∧ Sized value) (h : s.put key value nooverwrite = .ok s') : Step s s'
  | fixEmptyChain {s s' : WalletStateBasic} {genesis : Api.BlockHeader}
      (h : s.fixEmptyChain genesis = .ok s') : Step s s'
  | resetChain {s s' : WalletStateBasic} {newTailHeight : Height}
      (h : s.resetChain newTailHeight = .ok s') : Step s s'

/-- The states of a wallet whose database at first held neither headers nor undo maps. -/
inductive Reachable : WalletStateBasic → Prop
  | fresh {records : Table Bytes Bytes}
      (h : ∀ k v, records[k]? = some v → IsIndexKey k ∧ Sized k ∧ Sized v) :
      Reachable { db := { records := records } }
  | step {s s' : WalletStateBasic} (hs : Reachable s) (h : Step s s') : Reachable s'

/-- An empty chain may be moved to any height. -/
theorem Sound.move {s : WalletStateBasic} (hs : s.Sound) (hempty : s.emptyChain = true)
    (newTailHeight : Height) :
    Sound { s with tailHeight := newTailHeight, tipHeight := newTailHeight - 1 } := by
  have hlength := (emptyChain_iff s).mp hempty
  have hempty' : emptyChain { s with tailHeight := newTailHeight, tipHeight := newTailHeight - 1 } =
      true := decide_eq_true (sub_add_cancel _ _)
  have hlength' := (emptyChain_iff _).mp hempty'
  refine ⟨hs.clear, fun _ ↦ hs.tipEmpty hempty, fun h hh ↦ ?_, fun h ↦ ?_,
    fun h _ ↦ hs.noHeader h (hlength ▸ Nat.zero_le _),
    fun h _ ↦ hs.noState h (hlength ▸ Nat.zero_le _), hs.states, hs.sizes⟩
  · rw [hlength'] at hh
    exact absurd hh (Nat.not_lt_zero _)
  · rw [hempty'] at h
    cases h

theorem Sound.put {s s' : WalletStateBasic} {key value : Bytes} {nooverwrite : Bool} (hs : s.Sound)
    (hkey : IsIndexKey key) (hsize : Sized key ∧ Sized value)
    (h : s.put key value nooverwrite = .ok s') : s'.Sound := by
  unfold WalletStateBasic.put at h
  split_ifs at h
  obtain rfl := Except.ok.inj h
  have hother {k : Bytes} (hk : ¬IsIndexKey k) :
      (s.db.records.insert key value)[k]? = s.db.records[k]? :=
    Table.get_insert_of_ne _ _ fun heq ↦ hk (heq ▸ hkey)
  refine ⟨hs.clear, hs.tipEmpty, fun h hh ↦ ?_, fun hempty ↦ ?_, fun h hh ↦ ?_, fun h hh ↦ ?_,
    fun h v hv ↦ ?_, fun k v hk hv ↦ ?_⟩
  · exact (hs.headers h hh).imp fun _ ↦ (hother (not_isIndexKey_headerKey h)).trans
  · exact (hother (not_isIndexKey_headerKey _)).trans (hs.tipStored hempty)
  · exact (hother (not_isIndexKey_headerKey h)).trans (hs.noHeader h hh)
  · exact (hother (not_isIndexKey_stateKey h)).trans (hs.noState h hh)
  · exact hs.states h v ((hother (not_isIndexKey_stateKey h)).symm.trans hv)
  · change (s.db.records.insert key value)[k]? = some v at hv
    rw [Table.get_insert] at hv
    split_ifs at hv with heq
    · cases hv
      exact ⟨heq ▸ hsize.1, hsize.2⟩
    · exact hs.sizes k v hk hv

private theorem sound_fresh {records : Table Bytes Bytes}
    (h : ∀ k v, records[k]? = some v → IsIndexKey k ∧ Sized k ∧ Sized v) :
    Sound { db := { records := records } } := by
  have hnone {k : Bytes} (hk : ¬IsIndexKey k) : records[k]? = none := by
    cases hget : records[k]? with
    | none => rfl
    | some v => exact absurd (h k v hget).1 hk
  have hlength : length { db := { records := records } } = 0 :=
    (emptyChain_iff _).mp (decide_eq_true (by decide : (0xFFFFFFFF : UInt32) + 1 = 0))
  refine ⟨rfl, fun _ ↦ rfl, fun h hh ↦ ?_, fun hempty ↦ ?_, fun h _ ↦ hnone (not_isIndexKey_headerKey h), fun h _ ↦ hnone (not_isIndexKey_stateKey h),
    fun h v hv ↦ ?_, fun k v _ hv ↦ (h k v hv).2⟩
  · rw [hlength] at hh
    exact absurd hh (Nat.not_lt_zero _)
  · rw [(emptyChain_iff _).mpr hlength] at hempty
    cases hempty
  · exact absurd (hv.symm.trans (hnone (not_isIndexKey_stateKey h))) (by simp)

theorem Sound.step {s s' : WalletStateBasic} (hs : s.Sound) (h : Step s s') : s'.Sound := by
  cases h with
  | processBlock hblock hroom h => exact (hs.processBlock hblock hroom h).1
  | popChain h => exact hs.popChain h
  | put hkey hsize h => exact hs.put hkey hsize h
  | @fixEmptyChain genesis h =>
    -- the genesis block is a block without operations
    unfold WalletStateBasic.fixEmptyChain at h
    split_ifs at h with hempty
    · have hmoved := hs.move hempty 0
      have hzero : length { s with tailHeight := 0, tipHeight := 0 - 1 } = 0 :=
        (emptyChain_iff _).mp (decide_eq_true (by decide : (0 : UInt32) - 1 + 1 = 0))
      have hroom : length { s with tailHeight := 0, tipHeight := 0 - 1 } + 1 < 2 ^ 32 := by
        rw [hzero]
        decide
      have hplain : PlainBlock ([], genesis) := ⟨by simp, by simp⟩
      exact (hmoved.processBlock hplain hroom h).1
    · exact Except.ok.inj h ▸ hs
  | resetChain h =>
    obtain ⟨u, hguard, h⟩ := bind_eq_ok.mp h
    obtain rfl := Except.ok.inj h
    exact hs.move (ensure_eq_ok.mp hguard) _

theorem Reachable.sound {s : WalletStateBasic} (h : Reachable s) : s.Sound := by
  induction h with
  | fresh h => exact sound_fresh h
  | step _ h ih => exact ih.step h

/-! ## Undoing blocks -/

private theorem popChains_succ (n : ℕ) (s : WalletStateBasic) :
    popChains (n + 1) s = popChains n s >>= popChain := by
  induction n generalizing s with
  | zero => exact (bind_pure _).trans (ok_bind (a := s) (f := popChain)).symm
  | succ n ih =>
    rw [popChains]
    cases hpop : s.popChain with
    | error e =>
      rw [popChains, hpop]
      rfl
    | ok s₁ =>
      rw [ok_bind, ih, popChains, hpop]
      rfl

theorem Sound.popChains {s s' : WalletStateBasic} {blocks : List (List DbOp × Api.BlockHeader)}
    (hs : s.Sound) (hblocks : ∀ block ∈ blocks, PlainBlock block)
    (hroom : s.length + blocks.length < 2 ^ 32)
    (h : blocks.foldlM WalletStateBasic.processBlock s = .ok s') :
    popChains blocks.length s' = .ok s := by
  induction blocks generalizing s with
  | nil => rw [Except.ok.inj h]; rfl
  | cons block blocks ih =>
    obtain ⟨s₁, hblock, h⟩ := bind_eq_ok.mp h
    rw [List.length_cons] at hroom
    have hplain := hblocks block List.mem_cons_self
    obtain ⟨hs₁, hlength⟩ := hs.processBlock hplain (by omega) hblock
    have hpops := ih hs₁ (fun b hb ↦ hblocks b (List.mem_cons_of_mem _ hb)) (by omega) h
    rw [List.length_cons, popChains_succ, hpops, ok_bind]
    exact popChain_of_processBlock hs hplain (by omega) hblock

/-- The prefixes of the keys that the blocks of a wallet write under. -/
def indexes : List Bytes :=
  -- tx, th, ba, ki, un, uh, ul, li, lh, lt
  [[0x74, 0x78], [0x74, 0x68], [0x62, 0x61], [0x6b, 0x69], [0x75, 0x6e], [0x75, 0x68],
    [0x75, 0x6c], [0x6c, 0x69], [0x6c, 0x68], [0x6c, 0x74]]

private theorem isIndexKey_of_mem_indexes {index : Bytes} (h : index ∈ indexes) (suffix : Bytes) :
    IsIndexKey (index ++ suffix) := by
  simp only [indexes, List.mem_cons, List.not_mem_nil, or_false] at h
  rcases h with rfl | rfl | rfl | rfl | rfl | rfl | rfl | rfl | rfl | rfl <;>
    exact ⟨by simp [indexHeightToHeader], by simp [indexUidToState]⟩

/-- **Blocks are undone exactly.** In every state that a wallet reaches, popping as many blocks as
were processed gives back the whole state, with every record of the database, the tip height and the
tip. The keys of the indexes may be written, deleted and written again as the blocks like. -/
theorem undo_restores :
    (∀ index ∈ indexes, ∀ suffix, IsIndexKey (index ++ suffix)) ∧
      ∀ (s s' : WalletStateBasic) (blocks : List (List DbOp × Api.BlockHeader)), Reachable s →
        (∀ block ∈ blocks, PlainBlock block) → s.length + blocks.length < 2 ^ 32 →
          blocks.foldlM WalletStateBasic.processBlock s = .ok s' →
            popChains blocks.length s' = .ok s :=
  ⟨fun _ h ↦ isIndexKey_of_mem_indexes h, fun _ _ _ hs hblocks hroom h ↦
    hs.sound.popChains hblocks hroom h⟩

/-- A record that is put, deleted and put again in one block, and deleted in the next. -/
def sampleBlocks : List (List DbOp × Api.BlockHeader) :=
  [([.putWithUndo [0x75, 0x6e] [1] true, .delWithUndo [0x75, 0x6e] true,
      .putWithUndo [0x75, 0x6e] [2] false], { height := 1 }),
    ([.delWithUndo [0x75, 0x6e] true], { height := 2 })]

theorem undo_restores_sample :
    ∃ s s', fixEmptyChain {} {} = .ok s ∧ sampleBlocks.foldlM processBlock s = .ok s' ∧
      popChains 2 s' = .ok s := by
  obtain ⟨s, hs, s', hs', hlength⟩ : ∃ s ∈ (fixEmptyChain {} {}).toOption,
      ∃ s' ∈ (sampleBlocks.foldlM processBlock s).toOption, s.length = 1 := by decide +kernel
  rw [Option.mem_def, toOption_eq_some] at hs hs'
  refine ⟨s, s', hs, hs', undo_restores.2 s s' sampleBlocks ?_ ?_ ?_ hs'⟩
  · exact (Reachable.fresh fun k v h ↦ absurd h (by simp)).step (.fixEmptyChain hs)
  · intro block hblock
    simp only [sampleBlocks, List.mem_cons, List.not_mem_nil, or_false] at hblock
    rcases hblock with rfl | rfl
    · exact ⟨by simp [PlainOp, IsIndexKey, Sized, indexHeightToHeader, indexUidToState], by simp⟩
    · exact ⟨by simp [PlainOp, IsIndexKey, Sized, indexHeightToHeader, indexUidToState], by simp⟩
  · rw [hlength]
    decide

private theorem exists_blank_blocks {n : ℕ} (hn : n ≤ 2 ^ 32) :
    ∃ s, (List.replicate n ([], {})).foldlM processBlock {} = .ok s ∧
      s.tipHeight + 1 = UInt32.ofNat n ∧ s.tailHeight = 0 ∧ s.db.undo = ∅ ∧
      ∀ h : Height, n ≤ h.toNat → s.db.records[headerKey h]? = none := by
  induction n with
  | zero => exact ⟨{}, rfl, by decide, rfl, rfl, fun h _ ↦ ExtTreeMap.getElem?_empty⟩
  | succ n ih =>
    obtain ⟨s, hrun, htip, htail, hclear, hnone⟩ := ih (by omega)
    have hheight : (s.tipHeight + 1).toNat = n := by
      rw [htip, UInt32.toNat_ofNat_of_lt' (by simpa using hn)]
    refine ⟨⟨⟨s.db.records.insert (headerKey (s.tipHeight + 1)) (writeApiBlockHeader {}), ∅⟩,
      s.tipHeight + 1, s.tailHeight, {}⟩, ?_, ?_, htail, rfl, fun h hh ↦ ?_⟩
    · rw [List.replicate_succ', List.foldlM_append, hrun, ok_bind]
      change (s.pushChain {} >>= fun s ↦ .ok s) = _
      have hput : put { s with tipHeight := s.tipHeight + 1 } (headerKey (s.tipHeight + 1))
          (writeApiBlockHeader {}) true = .ok (withRecords { s with tipHeight := s.tipHeight + 1 }
            (s.db.records.insert (headerKey (s.tipHeight + 1)) (writeApiBlockHeader {}))) := by
        unfold put
        rw [if_neg (by simp [hnone _ hheight.ge])]
        rfl
      unfold pushChain
      dsimp only
      rw [hput, ok_bind, saveDbState, withRecords]
      dsimp only
      rw [hclear]
      rfl
    · change s.tipHeight + 1 + 1 = _
      rw [htip, UInt32.ofNat_add]
      rfl
    · change (s.db.records.insert _ _)[_]? = none
      rw [Table.get_insert_of_ne]
      · exact hnone h (by omega)
      · intro heq
        rw [← headerKey_inj heq, hheight] at hh
        omega

/-- A block that puts a header where its own will stand and deletes it again cannot be popped: the
undo takes the header away that the pop must find. Nor can the last of `2 ^ 32` blocks, where the
chain looks empty. -/
theorem popChain_fails :
    (∃ s ∈ (fixEmptyChain {} {}).toOption, ∃ s' ∈ (s.processBlock
      ([.putWithUndo (headerKey 1) [] true, .delWithUndo (headerKey 1) true], {})).toOption,
      ∃ e, s'.popChain = .error e) ∧
    ∃ s, (List.replicate (2 ^ 32) ([], {})).foldlM processBlock {} = .ok s ∧
      ∃ e, s.popChain = .error e := by
  refine ⟨?_, ?_⟩
  · have hfails : ∃ s ∈ (fixEmptyChain {} {}).toOption, ∃ s' ∈ (s.processBlock
        ([.putWithUndo (headerKey 1) [] true, .delWithUndo (headerKey 1) true], {})).toOption,
        s'.popChain.toOption.isNone = true := by decide +kernel
    obtain ⟨s, hs, s', hs', hnone⟩ := hfails
    refine ⟨s, hs, s', hs', ?_⟩
    cases hpop : s'.popChain with
    | error e => exact ⟨e, rfl⟩
    | ok s'' =>
      rw [hpop] at hnone
      cases hnone
  · obtain ⟨s, hrun, htip, htail, -⟩ := exists_blank_blocks (Nat.le_refl (2 ^ 32))
    have hempty : s.emptyChain = true := by
      rw [emptyChain, htip, htail]
      rfl
    refine ⟨s, hrun, .invariantViolated, ?_⟩
    unfold popChain
    rw [ensure, if_neg (by simp [hempty])]
    rfl

end CryoNero.WalletStateBasic
