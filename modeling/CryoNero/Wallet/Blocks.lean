import CryoNero.Wallet.Filing
import CryoNero.Wallet.Parsed

/-!
# Blocks in the indexes of a wallet

A block changes the indexes by the operations of `Filed`, and everything it changes is remembered. What
is unspent after it was never locked, or one of the blocks of the chain has opened it (`Ready`). When the
block is popped, the indexes are as they were, with fewer blocks that can have opened something. So the
invariant of a run has one level for each block of the chain (`Stacked`): the indexes as they are now, and
what is left when what is saved for each block is put back, block by block.
-/

namespace CryoNero

open Store

/-! ## The chain -/

namespace WalletDb

open WalletIndexes (Filed Opens)

abbrev Records := Indexed.Records WalletIndex.Key WalletIndex.Value
abbrev UndoStates := Table Height (Indexed.Undo WalletIndex.Key WalletIndex.Value)

/-- The blocks of a chain with their heights, the last one first. -/
abbrev Blocks := List (Height × Api.BlockHeader)

/-- What can be unspent after some blocks: what was never locked, and what a block has opened. -/
def Ready (blocks : Blocks) (o : Api.Output) : Prop :=
  o.unlockTime = 0 ∨ ∃ b ∈ blocks, Opens b.1 b.2.timestampMedian o

theorem Ready.cons {blocks : Blocks} {o : Api.Output} (h : Ready blocks o)
    (b : Height × Api.BlockHeader) : Ready (b :: blocks) o :=
  h.imp_right fun ⟨b', hb', hopen⟩ ↦ ⟨b', List.mem_cons_of_mem _ hb', hopen⟩

/-- The records before a block. -/
def before (undoStates : UndoStates) (height : Height) (r : Records) : Records :=
  match undoStates[height]? with
  | none => r
  | some undoMap => Indexed.replay undoMap r

/-- The records are in order, and so are those before each block. -/
def Stacked (tail : Height) (undoStates : UndoStates) : Blocks → Records → Prop
  | [], r => Filed (Ready []) (Indexed.ofRecords r)
  | b :: blocks, r => b.1.toNat = tail.toNat + blocks.length ∧
      Filed (Ready (b :: blocks)) (Indexed.ofRecords r) ∧
      Stacked tail undoStates blocks (before undoStates b.1 r)

theorem Stacked.filed {tail : Height} {undoStates : UndoStates} {blocks : Blocks} {r : Records}
    (h : Stacked tail undoStates blocks r) : Filed (Ready blocks) (Indexed.ofRecords r) := by
  cases blocks with
  | nil => exact h
  | cons b blocks => exact h.2.1

theorem Stacked.height_lt {tail : Height} {undoStates : UndoStates} {blocks : Blocks} {r : Records}
    (h : Stacked tail undoStates blocks r) {b : Height × Api.BlockHeader} (hb : b ∈ blocks) :
    b.1.toNat < tail.toNat + blocks.length := by
  induction blocks generalizing r with
  | nil => cases hb
  | cons b' blocks ih =>
    rw [List.length_cons]
    rcases List.mem_cons.mp hb with rfl | hb
    · rw [h.1]
      omega
    · have hlt := ih h.2.2 hb
      omega

/-- Only what is saved for the blocks themselves matters. -/
theorem Stacked.congr {tail : Height} {undoStates undoStates' : UndoStates} {blocks : Blocks}
    {r : Records} (h : Stacked tail undoStates blocks r)
    (hsame : ∀ b ∈ blocks, undoStates'[b.1]? = undoStates[b.1]?) : Stacked tail undoStates' blocks r := by
  induction blocks generalizing r with
  | nil => exact h
  | cons b blocks ih =>
    rw [List.forall_mem_cons] at hsame
    refine ⟨h.1, h.2.1, ?_⟩
    rw [before, hsame.1, ← before]
    exact ih h.2.2 hsame.2

/-- Between two blocks the database has the records of a chain, and what undoes each of its blocks. -/
structure Synced (s : WalletDb) (blocks : Blocks) : Prop where
  clean : s.indexes = Indexed.ofRecords s.indexes.records
  tip : s.tipHeight + 1 = s.tailHeight + UInt32.ofNat blocks.length
  room : s.tailHeight.toNat + blocks.length < 2 ^ 32
  headers : ∀ b ∈ blocks, s.headers[b.1]? = some b.2
  saved : ∀ h : Height, s.headers[h]? = none → s.undoStates[h]? = none
  stacked : Stacked s.tailHeight s.undoStates blocks s.indexes.records

variable {s s' : WalletDb} {blocks : Blocks}

theorem Synced.toNat_next (h : s.Synced blocks) :
    (s.tipHeight + 1).toNat = s.tailHeight.toNat + blocks.length := by
  have hroom := h.room
  rw [h.tip, UInt32.toNat_add, UInt32.toNat_ofNat']
  omega

theorem Synced.emptyChain_iff (h : s.Synced blocks) : s.emptyChain = true ↔ blocks = [] := by
  have hnext := h.toNat_next
  rw [emptyChain, decide_eq_true_iff, ← UInt32.toNat_inj, hnext, ← List.length_eq_zero_iff]
  omega

theorem pushChain_cases {header : Api.BlockHeader} (hs' : s.pushChain header = .ok s') :
    ∃ undoStates : UndoStates, s.headers[s.tipHeight + 1]? = none ∧
      s' = { s with
        tipHeight := s.tipHeight + 1
        headers := s.headers.insert (s.tipHeight + 1) header
        tip := header
        undoStates := undoStates
        indexes := Indexed.ofRecords s.indexes.records } ∧
      (undoStates = s.undoStates ∧ (∀ i, (s.indexes.undo i).isEmpty = true) ∨
        undoStates = s.undoStates.insert (s.tipHeight + 1) s.indexes.undo) := by
  rw [pushChain] at hs'
  obtain ⟨_, hfree, hs'⟩ := bind_eq_ok.mp hs'
  obtain ⟨s₁, hs₁, hs'⟩ := bind_eq_ok.mp hs'
  cases hs'
  rw [saveDbState] at hs₁
  split_ifs at hs₁ with hempty
  · cases hs₁
    exact ⟨_, ensure_eq_ok.mp hfree, rfl, .inl ⟨rfl, hempty⟩⟩
  · obtain ⟨_, -, hs₁⟩ := bind_eq_ok.mp hs₁
    cases hs₁
    exact ⟨_, ensure_eq_ok.mp hfree, rfl, .inr rfl⟩

theorem Synced.next_ne (h : s.Synced blocks) {b : Height × Api.BlockHeader} (hb : b ∈ blocks) :
    s.tipHeight + 1 ≠ b.1 := by
  intro heq
  have hlt := h.stacked.height_lt hb
  rw [← heq, h.toNat_next] at hlt
  exact lt_irrefl _ hlt

/-- What is saved for a new block leads back to the records before it, and leaves what is saved for the
others. -/
theorem Synced.before_pushChain (h : s.Synced blocks) {indexes : WalletIndexes} {header : Api.BlockHeader}
    (hrestores : indexes.Restores s.indexes.records)
    (hs' : { s with indexes := indexes }.pushChain header = .ok s') :
    (∀ a, s.tipHeight + 1 ≠ a → s'.undoStates[a]? = s.undoStates[a]?) ∧
      before s'.undoStates (s.tipHeight + 1) indexes.records = s.indexes.records := by
  classical
  obtain ⟨undoStates, hfree, rfl, hsave⟩ := pushChain_cases hs'
  dsimp only at hfree hsave ⊢
  rw [before]
  rcases hsave with ⟨rfl, hempty⟩ | rfl
  · rw [h.saved _ hfree]
    exact ⟨fun _ _ ↦ rfl, (Indexed.replay_of_isEmpty hempty _).symm.trans hrestores.replay⟩
  · rw [Table.get_insert_self]
    exact ⟨fun a ha ↦ Table.get_insert_of_ne _ _ ha, hrestores.replay⟩

/-- **Step lemma for a block.** When everything it changed is remembered, a block becomes a level. -/
theorem Synced.pushChain (h : s.Synced blocks) {indexes : WalletIndexes} {header : Api.BlockHeader}
    (hrestores : indexes.Restores s.indexes.records)
    (hfiled : Filed (Ready ((s.tipHeight + 1, header) :: blocks)) indexes)
    (hroom : s.tipHeight + 1 < 0xFFFFFFFF)
    (hs' : { s with indexes := indexes }.pushChain header = .ok s') :
    s'.Synced ((s.tipHeight + 1, header) :: blocks) := by
  classical
  obtain ⟨hget, hbefore⟩ := h.before_pushChain hrestores hs'
  obtain ⟨undoStates, -, rfl, -⟩ := pushChain_cases hs'
  dsimp only at hget hbefore
  have hnext := h.toNat_next
  refine ⟨rfl, ?_, ?_, ?_, ?_, hnext, ?_, ?_⟩
  · dsimp only
    rw [h.tip, List.length_cons, UInt32.ofNat_add, add_assoc]
    rfl
  · have hlt := UInt32.lt_iff_toNat_lt.mp hroom
    rw [hnext] at hlt
    change _ < 4294967295 at hlt
    rw [List.length_cons]
    dsimp only
    omega
  · refine List.forall_mem_cons.mpr ⟨Table.get_insert_self _ _ _, fun b hb ↦ ?_⟩
    dsimp only
    rw [Table.get_insert_of_ne _ _ (h.next_ne hb)]
    exact h.headers b hb
  · intro a ha
    dsimp only at ha ⊢
    rw [Table.get_insert] at ha
    split_ifs at ha with htip
    rw [hget a htip]
    exact h.saved a ha
  · exact hfiled.congr fun _ _ _ _ _ _ ↦ rfl
  · dsimp only
    rw [Indexed.records_ofRecords, hbefore]
    exact h.stacked.congr fun b hb ↦ hget b.1 (h.next_ne hb)

private theorem undoDbState_eq (s : WalletDb) (state : Height)
    (hclean : s.indexes = Indexed.ofRecords s.indexes.records) :
    s.undoDbState state = { s with
      undoStates := s.undoStates.erase state
      indexes := Indexed.ofRecords (before s.undoStates state s.indexes.records) } := by
  rw [undoDbState, before]
  cases hget : s.undoStates[state]? with
  | some undoMap => rfl
  | none =>
    classical
    have herase : s.undoStates.erase state = s.undoStates := by
      refine Table.ext_get fun a ↦ ?_
      rw [Table.get_erase]
      split_ifs with ha
      · rw [← ha, hget]
      · rfl
    dsimp only
    rw [herase, ← hclean]

/-- The last block is the one at the tip, and the records before it come back. -/
theorem Synced.popChain_cases (h : s.Synced blocks) (hs' : s.popChain = .ok s') :
    ∃ b blocks' tip, blocks = b :: blocks' ∧ b.1 = s.tipHeight ∧
      (∀ b' ∈ blocks', s.tipHeight ≠ b'.1) ∧
      s' = { s with
        undoStates := s.undoStates.erase s.tipHeight
        indexes := Indexed.ofRecords (before s.undoStates s.tipHeight s.indexes.records)
        headers := s.headers.erase s.tipHeight
        tipHeight := s.tipHeight - 1
        tip := tip } := by
  rw [WalletDb.popChain] at hs'
  obtain ⟨_, hsome, hs'⟩ := bind_eq_ok.mp hs'
  obtain ⟨_, -, hs'⟩ := bind_eq_ok.mp hs'
  obtain ⟨tip, -, hs'⟩ := bind_eq_ok.mp hs'
  cases hs'
  have hne : blocks ≠ [] := by
    rw [ne_eq, ← h.emptyChain_iff, ensure_eq_ok.mp hsome]
    exact Bool.false_ne_true
  obtain ⟨b, blocks', rfl⟩ := List.exists_cons_of_ne_nil hne
  have hheight : b.1 = s.tipHeight := by
    have hnext := h.toNat_next
    have hb := h.stacked.1
    have hroom := h.room
    rw [List.length_cons] at hnext hroom
    rw [← UInt32.toNat_inj, hb]
    rw [UInt32.toNat_add] at hnext
    change (s.tipHeight.toNat + 1) % 2 ^ 32 = _ at hnext
    have hlt := s.tipHeight.toNat_lt
    omega
  refine ⟨b, blocks', tip, rfl, hheight, fun b' hb' heq ↦ ?_, ?_⟩
  · have hlt := h.stacked.2.2.height_lt hb'
    rw [← heq, ← hheight, h.stacked.1] at hlt
    exact lt_irrefl _ hlt
  · rw [undoDbState_eq s s.tipHeight h.clean]

/-- A pop takes the last block off. -/
theorem Synced.popChain (h : s.Synced blocks) (hs' : s.popChain = .ok s') :
    ∃ b blocks', blocks = b :: blocks' ∧ s'.Synced blocks' := by
  classical
  obtain ⟨b, blocks', tip, rfl, hheight, hother, rfl⟩ := h.popChain_cases hs'
  refine ⟨b, blocks', rfl, rfl, ?_, ?_, ?_, ?_, ?_⟩
  · have htip := h.tip
    rw [List.length_cons, UInt32.ofNat_add] at htip
    change s.tipHeight - 1 + 1 = s.tailHeight + UInt32.ofNat blocks'.length
    rw [UInt32.sub_add_cancel, ← UInt32.add_left_inj 1, htip, add_assoc]
    rfl
  · have hroom := h.room
    rw [List.length_cons] at hroom
    exact (Nat.lt_succ_self _).trans (by omega)
  · intro b' hb'
    dsimp only
    rw [Table.get_erase_of_ne _ (hother b' hb')]
    exact h.headers b' (List.mem_cons_of_mem _ hb')
  · intro a ha
    dsimp only at ha ⊢
    rw [Table.get_erase] at ha ⊢
    split_ifs at ha ⊢
    · rfl
    · exact h.saved a ha
  · dsimp only
    rw [Indexed.records_ofRecords, ← hheight]
    refine h.stacked.2.2.congr fun b' hb' ↦ ?_
    rw [hheight, Table.get_erase_of_ne _ (hother b' hb')]

theorem Synced.move (h : s.Synced []) (tail tip : Height) (htip : tip + 1 = tail) :
    { s with tailHeight := tail, tipHeight := tip }.Synced [] where
  clean := h.clean
  tip := htip.trans (add_zero _).symm
  room := tail.toNat_lt
  headers := nofun
  saved := h.saved
  stacked := h.stacked

/-! ## A block -/

section Block

variable (env : WalletStateEnv) (keys : WalletKeys)

/-- The indexes while a block is processed. -/
structure Processing (blocks : Blocks) (r : Records) (indexes : WalletIndexes) : Prop where
  restores : indexes.Restores r
  filed : Filed (Ready blocks) indexes

theorem Processing.redoTransaction {r : Records} {indexes : WalletIndexes}
    (h : Processing blocks r indexes) {view : WalletStateView} {pwtx : PreparedWalletTransaction}
    {globalIndices : List UInt32} {isBase : Bool} {tid bid : Hash} {blockHeight : Height}
    {txTimestamp : Timestamp} {p : WalletIndexes × Bool}
    (hp : CryoNero.redoTransaction WalletIndexes.walletState env keys view indexes pwtx globalIndices
      isBase tid blockHeight bid txTimestamp = .ok p) : Processing blocks r p.1 := by
  refine (redoTransaction_keeps (M := fun todo indexes ↦ (∀ out ∈ todo, Flagged out) ∧
    Processing blocks r indexes) ?_ ?_ ?_ ?_ ⟨nofun, h⟩ hp).2
  · rintro s output todo s' n ⟨hflag, hs⟩ hs'
    rw [List.forall_mem_cons] at hflag
    have hs' : s.addIncomingOutput output false = .ok (s', n) := hs'
    refine ⟨hflag.2, (WalletIndexes.changes_addIncomingOutput hs').restores hs.restores, ?_⟩
    exact hs.filed.addIncomingOutput hflag.1 (fun hopen ↦ .inl (hopen.resolve_right Bool.false_ne_true)) hs'
  · rintro s ki s' n ⟨-, hs⟩ hs'
    exact ⟨nofun, (WalletIndexes.changes_addIncomingKeyimage hs').restores hs.restores,
      hs.filed.addIncomingKeyimage hs'⟩
  · rintro s ptx s' ⟨-, hs⟩ - hs'
    exact ⟨nofun, (WalletIndexes.changes_addTransaction hs').restores hs.restores,
      hs.filed.addTransaction hs'⟩
  · exact fun parsed hparsed hours ↦ ⟨flagged_ownOutputs hparsed hours, h⟩

theorem Processing.unlock {r : Records} {indexes indexes' : WalletIndexes}
    (h : Processing blocks r indexes) {height : Height} {header : Api.BlockHeader}
    (hb : (height, header) ∈ blocks)
    (hs' : indexes.unlock height header.timestampMedian = .ok indexes') :
    Processing blocks r indexes' :=
  ⟨(WalletIndexes.changes_unlock hs').restores h.restores,
    h.filed.unlock (fun _ hopen ↦ .inr ⟨(height, header), hb, hopen⟩) hs'⟩

/-- The amounts and global indices that a block brings. -/
def blockNumbers (pb : PreparedWalletBlock) (globalIndices : List (List UInt32)) :
    List (Amount ×ₗ UInt32) :=
  ((pb.baseTransaction :: pb.transactions).zip globalIndices).flatMap fun x ↦ numbered x.1.tx.outputs x.2

/-- **Block rule.** What transactions keep, and what is kept when outputs open, is kept by a block. The
numbers that its other transactions bring may matter. -/
theorem redoBlock_keeps {M : List (Amount ×ₗ UInt32) → WalletIndexes → Prop} {header : Api.BlockHeader}
    {pb : PreparedWalletBlock} {globalIndices : List (List UInt32)}
    (htx : ∀ indexes view pwtx gis isBase tid p todo, M (numbered pwtx.tx.outputs gis ++ todo) indexes →
      redoTransaction WalletIndexes.walletState env keys view indexes pwtx gis isBase tid
        (s.tipHeight + 1) header.hash pb.timestamp = .ok p → M todo p.1)
    (hunlock : ∀ indexes indexes', M [] indexes →
      indexes.unlock (s.tipHeight + 1) header.timestampMedian = .ok indexes' → M [] indexes')
    (hstart : M (blockNumbers pb globalIndices) s.indexes) (hskip : M [] s.indexes)
    (hs' : s.redoBlock env keys header pb globalIndices = .ok s') :
    ∃ indexes, s' = { s with indexes := indexes } ∧ M [] indexes := by
  rw [WalletDb.redoBlock.eq_def] at hs'
  split at hs'
  · cases hs'
    exact ⟨s.indexes, rfl, hskip⟩
  · next base rest =>
    by_cases hlength : rest.length ≠ pb.transactions.length
    · rw [if_pos hlength] at hs'
      cases hs'
      exact ⟨s.indexes, rfl, hskip⟩
    · rw [if_neg hlength] at hs'
      obtain ⟨p, hp, hs'⟩ := bind_eq_ok.mp hs'
      obtain ⟨indexes₁, h₁, hs'⟩ := bind_eq_ok.mp hs'
      obtain ⟨indexes₂, h₂, hs'⟩ := bind_eq_ok.mp hs'
      cases hs'
      refine ⟨indexes₂, rfl, hunlock indexes₁ indexes₂ ?_ h₂⟩
      have hbase : M ((pb.transactions.zip rest).flatMap fun x ↦ numbered x.1.tx.outputs x.2) p.1 :=
        htx _ _ _ _ _ _ p _ hstart hp
      generalize pb.transactions.zip rest = l, 0 = n at h₁ hbase
      generalize p.1 = t at h₁ hbase
      induction l generalizing n t with
      | nil =>
        cases h₁
        exact hbase
      | cons x l ih =>
        rw [List.zipIdx_cons, List.foldlM_cons] at h₁
        obtain ⟨t', hstep, h₁⟩ := bind_eq_ok.mp h₁
        rw [redoBlockTransaction] at hstep
        obtain ⟨tid, -, hstep⟩ := bind_eq_ok.mp hstep
        obtain ⟨p', hp', hstep⟩ := bind_eq_ok.mp hstep
        cases hstep
        exact ih _ _ h₁ (htx _ _ _ _ _ _ p' _ hbase hp')

/-- What a block does to the indexes is remembered and leaves them in order. -/
theorem Synced.redoBlock (h : s.Synced blocks) {header : Api.BlockHeader} {pb : PreparedWalletBlock}
    {globalIndices : List (List UInt32)} (hs' : s.redoBlock env keys header pb globalIndices = .ok s') :
    ∃ indexes, s' = { s with indexes := indexes } ∧
      Processing ((s.tipHeight + 1, header) :: blocks) s.indexes.records indexes := by
  have hstart : Processing ((s.tipHeight + 1, header) :: blocks) s.indexes.records s.indexes := by
    refine ⟨?_, ?_⟩
    · rw [h.clean]
      exact Indexed.restores_ofRecords _
    · rw [h.clean]
      exact h.stacked.filed.imp fun _ _ _ ho ↦ ho.cons _
  refine redoBlock_keeps env keys (M := fun _ indexes ↦ Processing _ s.indexes.records indexes)
    ?_ ?_ hstart hstart hs'
  · exact fun indexes view pwtx gis isBase tid p _ ht hp ↦ ht.redoTransaction env keys hp
  · exact fun indexes indexes' ht hu ↦ ht.unlock List.mem_cons_self hu

/-! ## Runs -/

theorem Synced.unchanged (h : s.Synced blocks) : s.indexes.Restores s.indexes.records ∧
    ∀ b : Height × Api.BlockHeader, Filed (Ready (b :: blocks)) s.indexes := by
  refine ⟨?_, fun b ↦ ?_⟩
  · rw [h.clean]
    exact Indexed.restores_ofRecords _
  · rw [h.clean]
    exact h.stacked.filed.imp fun _ _ _ ho ↦ ho.cons _

theorem synced_empty : ({} : WalletDb).Synced [] := by
  have hnone (i : WalletIndex) (k : i.Key) : Indexed.get ({} : WalletIndexes) i k = none :=
    Std.ExtTreeMap.getElem?_empty
  refine ⟨rfl, rfl, by decide, nofun, fun _ _ ↦ Std.ExtTreeMap.getElem?_empty, ?_⟩
  refine ⟨fun k o ho ↦ ?_, fun k ↦ ?_, fun k o ho ↦ ?_, fun b k o ho ↦ ?_, fun k u hu ↦ ?_⟩
  · cases (hnone .unspents k).symm.trans ho
  · refine ⟨fun hk ↦ ?_, fun ⟨o, ho, _⟩ ↦ ?_⟩
    · cases (hnone .addressUnspents k).symm.trans hk
    · cases (hnone .unspents _).symm.trans ho
  · cases (hnone .unspents k).symm.trans ho
  · cases (hnone (.locked b) k).symm.trans ho
  · cases (hnone .lockedKeyimages k).symm.trans hu

/-- A new block gets a height below the last one. -/
def Room (s : WalletDb) : Event → Prop
  | .block _ _ => s.tipHeight + 1 < 0xFFFFFFFF
  | _ => True

/-- **Step lemma.** -/
theorem Synced.step (h : s.Synced blocks) {genesis : Api.BlockHeader} {e : Event} (hroom : s.Room e)
    (hs' : s.step env keys genesis e = .ok s') : ∃ blocks', s'.Synced blocks' := by
  obtain ⟨hsame, hfiled⟩ := h.unchanged
  rcases e with _ | _ | tail | ⟨header, _ | ⟨pb, globalIndices⟩⟩
  · obtain ⟨b, blocks', -, hs'⟩ := h.popChain hs'
    exact ⟨blocks', hs'⟩
  · change s.fixEmptyChain genesis = .ok s' at hs'
    rw [fixEmptyChain] at hs'
    split_ifs at hs' with hempty
    · rw [h.emptyChain_iff] at hempty
      subst hempty
      have hroom : (0xFFFFFFFF + 1 : Height) < 0xFFFFFFFF := by decide
      exact ⟨_, (h.move 0 0xFFFFFFFF rfl).pushChain hsame (hfiled _) hroom hs'⟩
    · cases hs'
      exact ⟨blocks, h⟩
  · change s.resetChain tail = .ok s' at hs'
    rw [resetChain] at hs'
    obtain ⟨_, hempty, hs'⟩ := bind_eq_ok.mp hs'
    cases hs'
    have hnil := h.emptyChain_iff.mp (ensure_eq_ok.mp hempty)
    subst hnil
    exact ⟨[], h.move tail (tail - 1) (UInt32.sub_add_cancel _ _)⟩
  · exact ⟨_, h.pushChain hsame (hfiled _) hroom hs'⟩
  · obtain ⟨s₁, hs₁, hs'⟩ := bind_eq_ok.mp hs'
    obtain ⟨indexes, rfl, hprocessed⟩ := h.redoBlock env keys hs₁
    exact ⟨_, h.pushChain hprocessed.restores hprocessed.filed hroom hs'⟩

/-- **Run lemma.** However a wallet follows its node, its indexes stay in order. -/
theorem synced_of_reaches {genesis : Api.BlockHeader}
    (h : Reaches (step env keys genesis) Room (· = {}) s) : ∃ blocks, s.Synced blocks := by
  refine h.invariant (I := fun s ↦ ∃ blocks, s.Synced blocks) ?_ ?_
  · rintro s rfl
    exact ⟨[], synced_empty⟩
  · rintro s e s' - ⟨blocks, hsynced⟩ hroom hs'
    exact hsynced.step env keys hroom hs'

end Block

end WalletDb

end CryoNero
