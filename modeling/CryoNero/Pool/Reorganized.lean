import CryoNero.Pool.Mined

/-!
# Transactions in a reorganization

The transactions of the blocks that are undone are kept, those of the blocks that are redone are
forgotten again, and a transaction of the pool goes when one of its key images enters the chain. What
is left is added to an empty pool in the end. No two of these transactions have a key image in
common: those of the pool spend nothing that is spent in the chain, and those of the chain spend
nothing twice. So none of them is in the way of another one, and one that is not in the pool
afterwards was turned away or pushed out for a reason that holds of it in the state reached.

Transactions are told apart by their hashes here, as they are in the code.
-/

namespace CryoNero

open Seria Store

namespace State

variable {env : Env} {s s' : State} {tid : Hash} {tx : Transaction} {binaryTx : Bytes}
  {block : Block} {rawBlock : RawBlock}

/-! ## Blocks are undone -/

/-- **Keeping the transactions of a block**: all of them, and nothing else. -/
private theorem keepUndone_spec {undone undone' : UndoneTransactions}
    (h : keepUndone undone rawBlock block = .ok undone') :
    (∀ (tid : Hash) p, undone[tid]? = some p → undone'[tid]? = some p) ∧
    (∀ i tid tx binaryTx, Lists block rawBlock i tid tx binaryTx → ∃ p, undone'[tid]? = some p) ∧
    ∀ (tid : Hash) p, undone'[tid]? = some p →
      undone[tid]? = some p ∨ ∃ i, Lists block rawBlock i tid p.1 p.2 := by
  have hall := foldlM_ok (fun (done : List (Transaction × ℕ)) (t : UndoneTransactions) ↦
    (∀ (tid : Hash) p, undone[tid]? = some p → t[tid]? = some p) ∧
    (∀ tx i tid, (tx, i) ∈ done → block.header.transactionHashes[i]? = some tid →
      ∃ p, t[tid]? = some p) ∧
    ∀ (tid : Hash) p, t[tid]? = some p →
      undone[tid]? = some p ∨ ∃ i, Lists block rawBlock i tid p.1 p.2) h
    ⟨fun _ _ hp ↦ hp, fun _ _ _ hmem ↦ absurd hmem List.not_mem_nil, fun _ _ hp ↦ .inl hp⟩ ?_
  · obtain ⟨hkept, hthere, hfrom⟩ := hall
    refine ⟨hkept, fun i tid tx binaryTx hlists ↦ hthere tx i tid ?_ hlists.hash, hfrom⟩
    exact (List.mem_zipIdx_iff_getElem?).mpr hlists.tx
  · rintro done ⟨tx, i⟩ rest t t' hl ⟨hkept, hthere, hfrom⟩ hx
    obtain ⟨tid, htid, hx⟩ := bind_eq_ok.mp hx
    obtain ⟨binaryTx, hbinary, hx⟩ := bind_eq_ok.mp hx
    rw [orFail_eq_ok] at htid hbinary
    have hin : (tx, i) ∈ block.transactions.zipIdx := by
      rw [hl]
      simp
    have htx : block.transactions[i]? = some tx := (List.mem_zipIdx_iff_getElem?).mp hin
    cases hx
    split_ifs with hsome
    · -- a transaction under this hash is kept already
      refine ⟨hkept, fun tx' j tid' hmem htid' ↦ ?_, hfrom⟩
      rcases List.mem_append.mp hmem with hmem | hmem
      · exact hthere tx' j tid' hmem htid'
      · cases List.mem_singleton.mp hmem
        cases htid.symm.trans htid'
        exact Option.isSome_iff_exists.mp hsome
    · have hnone : t[tid]? = none := by simpa using hsome
      refine ⟨fun a p ha ↦ ?_, fun tx' j tid' hmem htid' ↦ ?_, fun a p ha ↦ ?_⟩
      · rw [Table.get_insert_of_ne]
        · exact hkept a p ha
        · rintro rfl
          cases hnone.symm.trans (hkept _ p ha)
      · rw [Table.get_insert]
        split_ifs with heq
        · exact ⟨_, rfl⟩
        · rcases List.mem_append.mp hmem with hmem | hmem
          · exact hthere tx' j tid' hmem htid'
          · cases List.mem_singleton.mp hmem
            exact absurd (Option.some.inj (htid.symm.trans htid')) heq
      · rw [Table.get_insert] at ha
        split_ifs at ha with heq
        · subst heq
          cases ha
          exact .inr ⟨i, htid, htx, hbinary⟩
        · exact hfrom a p ha

/-- What is undone so far, from one state to another: the pool stays, and what is no longer in the
main chain is kept. -/
structure Undoing (s s' : State) (undone : UndoneTransactions) : Prop where
  pool : s'.ledger.pool = s.ledger.pool
  kept : ∀ (tid : Hash) tx binaryTx, s.Mined tid tx binaryTx →
    s'.Mined tid tx binaryTx ∨ ∃ p, undone[tid]? = some p
  origin : ∀ (tid : Hash) p, undone[tid]? = some p → s.Mined tid p.1 p.2
  mined : ∀ (tid : Hash) tx binaryTx, s'.Mined tid tx binaryTx → s.Mined tid tx binaryTx

theorem Undoing.start : Undoing s s ∅ where
  pool := rfl
  kept _ _ _ hmined := .inl hmined
  origin _ _ hp := by cases (Std.ExtTreeMap.getElem?_empty).symm.trans hp
  mined _ _ _ hmined := hmined

theorem Undoing.undoTip {s₀ : State} {undone undone' : UndoneTransactions} (h : Undoing s₀ s undone)
    (hs : s.Running env) (hundo : s.undoTip env undone = .ok (s', undone')) :
    Undoing s₀ s' undone' := by
  obtain ⟨block', hpop⟩ := hs.ready.popped hs.tree hundo
  obtain ⟨_, _, hholds', -⟩ := hpop.checked
  obtain ⟨_, rawBlock, block, _, _, _, hholds, -, -, hkeep, -, -, rfl⟩ := undoTip_eq_ok.mp hundo
  obtain ⟨rfl, rfl, rfl⟩ := hholds.unique hholds'
  obtain ⟨hkept, hthere, hfrom⟩ := keepUndone_spec hkeep
  refine ⟨h.pool, fun tid tx binaryTx hmined ↦ ?_, fun tid p hp ↦ ?_, fun tid tx binaryTx hmined ↦ ?_⟩
  · rcases h.kept tid tx binaryTx hmined with hmined | ⟨p, hp⟩
    · rcases (hpop.mined hholds).mp hmined with hmined | ⟨i, hlists⟩
      · exact .inl hmined
      · exact .inr (hthere i tid tx binaryTx hlists)
    · exact .inr ⟨p, hkept tid p hp⟩
  · rcases hfrom tid p hp with hp | hlists
    · exact h.origin tid p hp
    · exact h.mined tid p.1 p.2 ((hpop.mined hholds).mpr (.inr hlists))
  · exact h.mined tid tx binaryTx ((hpop.mined hholds).mpr (.inl hmined))

theorem Undoing.undoTo {s₀ : State} {common : Hash} {fuel : ℕ} {undone undone' : UndoneTransactions}
    (h : Undoing s₀ s undone) (hs : s.Running env)
    (hundo : undoTo env common fuel s undone = .ok (s', undone')) :
    Undoing s₀ s' undone' ∧ s'.Running env := by
  induction fuel generalizing s undone with
  | zero => cases hundo
  | succ fuel ih =>
    rw [State.undoTo] at hundo
    split_ifs at hundo
    · cases hundo
      exact ⟨h, hs⟩
    · obtain ⟨⟨s₁, undone₁⟩, htip, hundo⟩ := bind_eq_ok.mp hundo
      exact ih (h.undoTip hs htip) (hs.move (.undo htip)) hundo

/-! ## Blocks are redone -/

private theorem get_forgetUndone {undone : UndoneTransactions} (tid : Hash) :
    (forgetUndone undone block)[tid]? =
      if tid ∈ block.header.transactionHashes then none else undone[tid]? := by
  rw [forgetUndone]
  generalize block.header.transactionHashes = tids
  induction tids generalizing undone with
  | nil => simp
  | cons a tids ih =>
    rw [List.foldl_cons, ih, Table.get_erase]
    by_cases hmem : tid ∈ tids
    · simp [hmem]
    · by_cases heq : a = tid
      · simp [heq]
      · simp [hmem, heq, Ne.symm heq]

/-- What is redone so far, from one state to another: the chain grows, and what is forgotten is in
it. -/
structure Redoing (s s' : State) (undone undone' : UndoneTransactions) : Prop where
  advances : s.ledger.Advances s'.ledger
  mined : ∀ (tid : Hash) tx binaryTx, s.Mined tid tx binaryTx → s'.Mined tid tx binaryTx
  within : ∀ (tid : Hash) p, undone'[tid]? = some p → undone[tid]? = some p
  kept : ∀ (tid : Hash) p, undone[tid]? = some p →
    undone'[tid]? = some p ∨ ∃ tx binaryTx, s'.Mined tid tx binaryTx

theorem Redoing.start {undone : UndoneTransactions} : Redoing s s undone undone where
  advances := .refl
  mined _ _ _ hmined := hmined
  within _ _ hp := hp
  kept _ _ hp := .inl hp

theorem Redoing.redo {s₀ : State} {undone₀ undone : UndoneTransactions}
    (h : Redoing s₀ s undone₀ undone) (hs : s.Running env) {recentPb : PreparedBlock}
    {recentInfo : Api.BlockHeader} {chha : Hash}
    (hstored : Stored env s.chain.tree recentPb recentInfo)
    (hredo : s.redoBranchBlock env recentPb recentInfo chha = .ok (some (s', block))) :
    Redoing s₀ s' undone₀ (forgetUndone undone block) ∧ s'.Running env ∧
      s'.chain.tree = s.chain.tree := by
  obtain ⟨_, rawBlock, info, tid, hholds, hinfo, htid, hprev, hredo⟩ :=
    redoBranchBlock_eq_some hs.proper.coherent hstored hredo
  have hpush := hs.ready.pushed hs.tree hholds hinfo htid hprev hredo
  refine ⟨⟨?_, fun tid tx binaryTx hmined ↦ ?_, fun tid p hp ↦ ?_, fun tid p hp ↦ ?_⟩,
    hs.move (.redo hholds hinfo htid hprev hredo), hpush.tree⟩
  · exact h.advances.trans (hs.proper.ledger.advances_redoBlock hpush.redone)
  · exact hpush.mined.mpr (.inl (h.mined tid tx binaryTx hmined))
  · rw [get_forgetUndone] at hp
    split_ifs at hp
    exact h.within tid p hp
  · rcases h.kept tid p hp with hp | ⟨tx, binaryTx, hmined⟩
    · rw [get_forgetUndone]
      split_ifs with hmem
      · -- the block that is redone has it
        obtain ⟨i, hi⟩ := List.getElem?_of_mem hmem
        obtain ⟨tx, binaryTx, hlists⟩ := lists_of_checked hpush.checked hi
        exact .inr ⟨tx, binaryTx, hpush.mined.mpr (.inr ⟨i, hlists⟩)⟩
      · exact .inl hp
    · exact .inr ⟨tx, binaryTx, hpush.mined.mpr (.inl hmined)⟩

theorem Redoing.redoBranch {s₀ : State} {undone₀ undone undone' : UndoneTransactions}
    (h : Redoing s₀ s undone₀ undone) (hs : s.Running env) {recentPb : PreparedBlock}
    {recentInfo : Api.BlockHeader} {branch : List Hash} {all : Bool}
    (hstored : Stored env s.chain.tree recentPb recentInfo)
    (hredo : redoBranch env recentPb recentInfo branch s undone = .ok (s', undone', all)) :
    Redoing s₀ s' undone₀ undone' ∧ s'.Running env := by
  induction branch generalizing s undone with
  | nil =>
    cases hredo
    exact ⟨h, hs⟩
  | cons chha rest ih =>
    rw [State.redoBranch] at hredo
    obtain ⟨p, hp, hredo⟩ := bind_eq_ok.mp hredo
    cases p with
    | none =>
      cases hredo
      exact ⟨h, hs⟩
    | some p =>
      obtain ⟨h₁, hs₁, htree⟩ := h.redo hs hstored hp
      exact ih h₁ hs₁ (by rw [htree]; exact hstored) hredo

/-! ## Transactions are added again -/

/-- A transaction cannot be in the pool: it cannot be redone on top of the tip, or the pool is full
of transactions that have a higher priority. -/
inductive Refused (env : Env) (s : State) (tid : Hash) (tx : Transaction) (binaryTx : Bytes) : Prop
  | unfit {header : Api.BlockHeader} (hheader : s.chain.getTip = .ok header)
      (hunfit : s.ledger.index.Unfit env tx (s.chain.tip.tipHeight + 1) header.timestamp)
  | crowded (hcrowded : s.ledger.pool.Crowded (poolEntry tx binaryTx).feePerByte tid)

/-- What is added so far to an empty pool: it is all that the pool has, and what the pool does not
have was refused. -/
structure Readding (env : Env) (s : State) (done : List (Hash × Transaction × Bytes)) (s' : State) :
    Prop where
  chain : s'.chain = s.chain
  index : s'.ledger.index = s.ledger.index
  sound : s'.ledger.Sound env
  origin : ∀ (tid : Hash) entry, s'.ledger.pool.stateTx[tid]? = some entry →
    ∃ x ∈ done, x.1 = tid ∧ entry = poolEntry x.2.1 x.2.2
  settled : ∀ x ∈ done, (∃ entry, s'.ledger.pool.stateTx[x.1]? = some entry) ∨
    ∃ x' ∈ done, x'.1 = x.1 ∧ s'.Refused env x'.1 x'.2.1 x'.2.2

/-- Transactions under different hashes have no key image in common. -/
def Apart (txs : List (Hash × Transaction × Bytes)) : Prop :=
  ∀ x ∈ txs, ∀ x' ∈ txs, ∀ ki ∈ x.2.1.keyImages, ki ∈ x'.2.1.keyImages → x.1 = x'.1

theorem Readding.add {t t' : State} {done : List (Hash × Transaction × Bytes)}
    {x : Hash × Transaction × Bytes} {r : AddTransactionResult × Height} (h : Readding env s done t)
    (hgoes : x.2.1.Goes env x.1 x.2.2) (hapart : Apart (done ++ [x]))
    (hadd : t.addTransaction env x.1 x.2.1 x.2.2 = .ok (t', r)) : Readding env s (done ++ [x]) t' := by
  obtain ⟨header, hheader, hadd⟩ := bind_eq_ok.mp hadd
  obtain ⟨⟨l, result, height⟩, hl, hadd⟩ := bind_eq_ok.mp hadd
  cases hadd
  have hmem : x ∈ done ++ [x] := List.mem_append_right _ (List.mem_singleton.mpr rfl)
  have hold {y : Hash × Transaction × Bytes} (hy : y ∈ done) : y ∈ done ++ [x] :=
    List.mem_append_left _ hy
  obtain ⟨pool, version, hframe⟩ := Ledger.addTransactionAt_frame hl
  have hindex : l.index = t.ledger.index := by rw [hframe]
  -- nothing changes, and there is a reason for it
  have hsame (heq : l = t.ledger)
      (hreason : (∃ entry, t.ledger.pool.stateTx[x.1]? = some entry) ∨
        t.Refused env x.1 x.2.1 x.2.2) :
      Readding env s (done ++ [x]) { t with ledger := l } := by
    subst heq
    refine ⟨h.chain, h.index, h.sound, fun tid entry hentry ↦ ?_, fun y hy ↦ ?_⟩
    · obtain ⟨y, hy, hyx⟩ := h.origin tid entry hentry
      exact ⟨y, hold hy, hyx⟩
    · rcases List.mem_append.mp hy with hy | hy
      · rcases h.settled y hy with hthere | ⟨x', hx', hrefused⟩
        · exact .inl hthere
        · exact .inr ⟨x', hold hx', hrefused⟩
      · cases List.mem_singleton.mp hy
        rcases hreason with hthere | hrefused
        · exact .inl hthere
        · exact .inr ⟨x, hmem, rfl, hrefused⟩
  cases hat : t.ledger.pool.stateTx[x.1]? with
  | some entry =>
    refine hsame ?_ (.inl ⟨entry, hat⟩)
    rcases Ledger.addTransactionAt_cases hl with ⟨heq, -, -⟩ | ⟨_, _, ha, -⟩
    · exact heq
    · cases hat.symm.trans ha.absent
  | none =>
    -- what is in the pool was added before, so it has no key image of this one
    have hfree : ∀ ki ∈ x.2.1.keyImages, t.ledger.pool.stateKiTx[ki]? = none := by
      intro ki hki
      cases hother : t.ledger.pool.stateKiTx[ki]? with
      | none => rfl
      | some other =>
        obtain ⟨entry, hentry, hin⟩ := h.sound.pool.keyImage.mp hother
        obtain ⟨y, hy, rfl, rfl⟩ := h.origin other entry hentry
        rw [hapart y (hold hy) x hmem ki hin hki] at hentry
        cases hat.symm.trans hentry
    rcases h.sound.addTransactionAt_free hgoes hfree hl with ⟨heq, hreason⟩ | hentered
    · refine hsame heq ?_
      rcases hreason with hthere | hcrowded | hunfit
      · exact .inl hthere
      · exact .inr (.crowded hcrowded)
      · exact .inr (.unfit hheader hunfit)
    · refine ⟨h.chain, hindex.trans h.index, (h.sound.addTransactionAt hgoes hl).1,
        fun tid entry hentry ↦ ?_, fun y hy ↦ ?_⟩
      · rcases hentered.within tid entry hentry with hentry | ⟨rfl, rfl⟩
        · obtain ⟨y, hy, hyx⟩ := h.origin tid entry hentry
          exact ⟨y, hold hy, hyx⟩
        · exact ⟨x, hmem, rfl, rfl⟩
      · rcases List.mem_append.mp hy with hy | hy
        · rcases h.settled y hy with ⟨entry, hentry⟩ | ⟨x', hx', heq, hrefused⟩
          · rcases hentered.kept y.1 entry hentry with hthere | hcrowded
            · exact .inl ⟨entry, hthere⟩
            · -- it was pushed out
              obtain ⟨x', hx', heq, rfl⟩ := h.origin y.1 entry hentry
              exact .inr ⟨x', hold hx', heq, .crowded (by rw [heq]; exact hcrowded)⟩
          · refine .inr ⟨x', hold hx', heq, ?_⟩
            rcases hrefused with ⟨hheader', hunfit⟩ | hcrowded
            · refine .unfit hheader' ?_
              change l.index.Unfit env _ _ _
              rwa [hindex]
            · exact .crowded (hentered.crowded _ _ hcrowded)
        · cases List.mem_singleton.mp hy
          exact .inl ⟨_, hentered.mem⟩

/-- **Adding transactions that have no key image in common** to an empty pool. -/
private theorem readding_of_readdTransactions {txs : List (Hash × Transaction × Bytes)}
    (hgoes : ∀ x ∈ txs, x.2.1.Goes env x.1 x.2.2) (hapart : Apart txs)
    (hok : readdTransactions env { s with ledger := { s.ledger with pool := {} } } txs = .ok s') :
    Readding env s txs s' := by
  refine foldlM_ok (fun done t ↦ Readding env s done t) hok
    ⟨rfl, rfl, .emptyPool, fun tid entry hentry ↦ ?_, fun x hx ↦ absurd hx List.not_mem_nil⟩ ?_
  · cases (Std.ExtTreeMap.getElem?_empty).symm.trans hentry
  · intro done x rest t t' hl ht hx
    obtain ⟨⟨t₁, r⟩, hadd, hx⟩ := bind_eq_ok.mp hx
    cases hx
    have hsub : ∀ y ∈ done ++ [x], y ∈ txs := by
      intro y hy
      rw [hl, List.append_cons]
      exact List.mem_append_left _ hy
    have hx : x ∈ txs := hsub x (List.mem_append_right _ (List.mem_singleton.mpr rfl))
    exact ht.add (hgoes x hx)
      (fun y hy y' hy' ↦ hapart y (hsub y hy) y' (hsub y' hy')) hadd

/-! ## Reorganizations -/

/-- A transaction is in a block of the main chain, or it waits in the pool. -/
def Has (s : State) (tid : Hash) (tx : Transaction) (binaryTx : Bytes) : Prop :=
  s.Mined tid tx binaryTx ∨ ∃ entry, s.ledger.pool.stateTx[tid]? = some entry ∧ entry.tx = tx ∧
    entry.binaryTx = binaryTx

/-- What was there before is there afterwards under its hash, or what was there under its hash is
refused. -/
def LosesNothing (env : Env) (s s' : State) : Prop :=
  ∀ (tid : Hash) tx binaryTx, s.Has tid tx binaryTx →
    (∃ tx' binaryTx', s'.Has tid tx' binaryTx') ∨
    ∃ tx' binaryTx', s.Has tid tx' binaryTx' ∧ s'.Refused env tid tx' binaryTx'

/-- The transactions that are added again. -/
def waiting (s : State) (undone : UndoneTransactions) : List (Hash × Transaction × Bytes) :=
  (s.ledger.pool.stateTx.toList.map fun p ↦ (p.1, p.2.tx, p.2.binaryTx)) ++ undone.toList

theorem mem_waiting {undone : UndoneTransactions} {x : Hash × Transaction × Bytes} :
    x ∈ s.waiting undone ↔
      (∃ entry, s.ledger.pool.stateTx[x.1]? = some entry ∧ entry.tx = x.2.1 ∧
        entry.binaryTx = x.2.2) ∨ undone[x.1]? = some x.2 := by
  obtain ⟨tid, tx, binaryTx⟩ := x
  rw [waiting, List.mem_append, List.mem_map]
  refine or_congr ⟨?_, ?_⟩ Table.mem_toList
  · rintro ⟨⟨tid', entry⟩, hentry, heq⟩
    cases heq
    exact ⟨entry, Table.mem_toList.mp hentry, rfl, rfl⟩
  · rintro ⟨entry, hentry, rfl, rfl⟩
    exact ⟨(tid, entry), Table.mem_toList.mpr hentry, rfl⟩

private theorem Running.refused_of_spent (h : s.Running env) {ki : KeyImage} {height : Height}
    (hki : ki ∈ tx.keyImages) (hspent : s.ledger.index.keyimages[ki]? = some height) :
    s.Refused env tid tx binaryTx := by
  obtain ⟨header, hheader⟩ := h.ready.getTip h.proper.coherent
  exact .unfit hheader (.spent hki hspent)

private theorem Running.apart_of_pool (h : s.Running env) {tid' : Hash} {tx' : Transaction}
    {binaryTx' : Bytes} {entry : PoolTransaction}
    (hentry : s.ledger.pool.stateTx[tid]? = some entry) (hmined : s.Mined tid' tx' binaryTx')
    {ki : KeyImage} (hki : ki ∈ entry.tx.keyImages) : ki ∉ tx'.keyImages := by
  intro hki'
  obtain ⟨height, hspent⟩ := h.spent_of_mined hmined hki'
  have hfree := h.proper.ledger.unspent (h.proper.ledger.pool.keyImage.mpr ⟨entry, hentry, hki⟩)
  cases hfree.symm.trans hspent

/-- What is added again was there before the reorganization, and nothing in it is in the way of
anything else. -/
private theorem Running.waiting_apart {s₂ s₃ : State} {undone₂ undone₃ : UndoneTransactions}
    (h : s.Running env)
    (hundoing : Undoing s s₂ undone₂) (hredoing : Redoing s₂ s₃ undone₂ undone₃) :
    (∀ x ∈ s₃.waiting undone₃, s.Has x.1 x.2.1 x.2.2) ∧
    (∀ x ∈ s₃.waiting undone₃, x.2.1.Goes env x.1 x.2.2) ∧ Apart (s₃.waiting undone₃) := by
  have hpool (tid : Hash) (entry : PoolTransaction)
      (hentry : s₃.ledger.pool.stateTx[tid]? = some entry) :
      s.ledger.pool.stateTx[tid]? = some entry := by
    rw [← hundoing.pool]
    exact hredoing.advances.within tid entry hentry
  have hmined (tid : Hash) (p : Transaction × Bytes) (hp : undone₃[tid]? = some p) :
      s.Mined tid p.1 p.2 := hundoing.origin tid p (hredoing.within tid p hp)
  refine ⟨fun x hx ↦ ?_, fun x hx ↦ ?_, fun x hx x' hx' ki hki hki' ↦ ?_⟩
  · rcases mem_waiting.mp hx with ⟨entry, hentry, heq⟩ | hp
    · exact .inr ⟨entry, hpool _ _ hentry, heq⟩
    · exact .inl (hmined _ _ hp)
  · rcases mem_waiting.mp hx with ⟨entry, hentry, htx, hbinary⟩ | hp
    · rw [← htx, ← hbinary]
      exact h.proper.ledger.pool.goes (hpool _ _ hentry)
    · exact h.goes_of_mined (hmined _ _ hp)
  · rcases mem_waiting.mp hx with ⟨entry, hentry, htx, -⟩ | hp
    · rw [← htx] at hki
      rcases mem_waiting.mp hx' with ⟨entry', hentry', htx', -⟩ | hp'
      · rw [← htx'] at hki'
        exact h.proper.ledger.pool.disjoint (hpool _ _ hentry) (hpool _ _ hentry') hki hki'
      · exact absurd hki' (h.apart_of_pool (hpool _ _ hentry) (hmined _ _ hp') hki)
    · rcases mem_waiting.mp hx' with ⟨entry', hentry', htx', -⟩ | hp'
      · rw [← htx'] at hki'
        exact absurd hki (h.apart_of_pool (hpool _ _ hentry') (hmined _ _ hp) hki')
      · exact h.mined_unique (hmined _ _ hp) (hmined _ _ hp') hki hki'

private theorem mined_congr {t t' : State} (h : t'.chain = t.chain) (hmined : t.Mined tid tx binaryTx) :
    t'.Mined tid tx binaryTx := by
  rw [Mined, h]
  exact hmined

private theorem Running.losesNothing_of_redoing {undone undone' : UndoneTransactions} (hs' : s'.Running env)
    (h : Redoing s s' undone undone') : LosesNothing env s s' := by
  rintro tid tx binaryTx (hmined | ⟨entry, hentry, rfl, rfl⟩)
  · exact .inl ⟨tx, binaryTx, .inl (h.mined tid tx binaryTx hmined)⟩
  · rcases h.advances.lost tid entry hentry with hentry' | ⟨ki, hki, height, hspent⟩
    · exact .inl ⟨_, _, .inr ⟨entry, hentry', rfl, rfl⟩⟩
    · exact .inr ⟨_, _, .inr ⟨entry, hentry, rfl, rfl⟩, hs'.refused_of_spent hki hspent⟩

private theorem Running.losesNothing_of_readding {s₂ s₃ : State} {undone₂ undone₃ : UndoneTransactions}
    (h : s.Running env) (hs' : s'.Running env) (hundoing : Undoing s s₂ undone₂)
    (hredoing : Redoing s₂ s₃ undone₂ undone₃)
    (hreadding : Readding env s₃ (s₃.waiting undone₃) s') : LosesNothing env s s' := by
  have hsettled {x : Hash × Transaction × Bytes} (hx : x ∈ s₃.waiting undone₃) :
      (∃ tx' binaryTx', s'.Has x.1 tx' binaryTx') ∨
        ∃ tx' binaryTx', s.Has x.1 tx' binaryTx' ∧ s'.Refused env x.1 tx' binaryTx' := by
    rcases hreadding.settled x hx with ⟨entry, hentry⟩ | ⟨x', hx', heq, hrefused⟩
    · exact .inl ⟨_, _, .inr ⟨entry, hentry, rfl, rfl⟩⟩
    · rw [← heq]
      exact .inr ⟨_, _, (h.waiting_apart hundoing hredoing).1 x' hx', hrefused⟩
  have hthere {tid : Hash} {tx : Transaction} {binaryTx : Bytes}
      (hmined : s₃.Mined tid tx binaryTx) : s'.Has tid tx binaryTx :=
    .inl (mined_congr hreadding.chain hmined)
  rintro tid tx binaryTx (hmined | ⟨entry, hentry, rfl, rfl⟩)
  · rcases hundoing.kept tid tx binaryTx hmined with hmined | ⟨p, hp⟩
    · exact .inl ⟨tx, binaryTx, hthere (hredoing.mined tid tx binaryTx hmined)⟩
    · rcases hredoing.kept tid p hp with hp | ⟨tx', binaryTx', hmined'⟩
      · exact hsettled (x := (tid, p)) (mem_waiting.mpr (.inr hp))
      · exact .inl ⟨tx', binaryTx', hthere hmined'⟩
  · rw [← hundoing.pool] at hentry
    rcases hredoing.advances.lost tid entry hentry with hentry' | ⟨ki, hki, height, hspent⟩
    · exact hsettled (x := (tid, entry.tx, entry.binaryTx))
        (mem_waiting.mpr (.inl ⟨entry, hentry', rfl, rfl⟩))
    · -- the chain spends what it spends
      rw [hundoing.pool] at hentry
      refine .inr ⟨_, _, .inr ⟨entry, hentry, rfl, rfl⟩, hs'.refused_of_spent hki (?_ : _ = some height)⟩
      rw [hreadding.index]
      exact hspent

theorem Running.reorganizeBlocks (h : s.Running env) {switchToChain : Hash}
    {recentPb : PreparedBlock} {recentInfo : Api.BlockHeader} {all : Bool}
    (hstored : Stored env s.chain.tree recentPb recentInfo)
    (hok : s.reorganizeBlocks env switchToChain recentPb recentInfo = .ok (s', all)) :
    s'.Running env ∧ LosesNothing env s s' := by
  have hs' := h.moves (reorganizeBlocks_moves _ h.proper hstored hok).1
  refine ⟨hs', ?_⟩
  rw [State.reorganizeBlocks] at hok
  obtain ⟨⟨common, chain1, chain2⟩, -, hok⟩ := bind_eq_ok.mp hok
  split_ifs at hok
  · cases hok
    exact fun tid tx binaryTx hhas ↦ .inl ⟨tx, binaryTx, hhas⟩
  · obtain ⟨⟨s₂, undone₂⟩, hundo, hok⟩ := bind_eq_ok.mp hok
    obtain ⟨⟨s₃, undone₃, all'⟩, hredo, hok⟩ := bind_eq_ok.mp hok
    obtain ⟨s₄, hpool, hok⟩ := bind_eq_ok.mp hok
    cases hok
    have htree : s₂.chain.tree = s.chain.tree :=
      (undoTo_moves (fun _ ↦ True) h.proper (fun _ _ hp ↦ by
        cases (Std.ExtTreeMap.getElem?_empty).symm.trans hp) hundo).2.1
    obtain ⟨hundoing, hs₂⟩ := Undoing.start.undoTo h hundo
    obtain ⟨hredoing, hs₃⟩ := Redoing.start.redoBranch hs₂ (by rw [htree]; exact hstored) hredo
    rw [onReorganization] at hpool
    by_cases htip : s.chain.tip.tipBid = common
    · -- the new blocks extend the tip, and the pool is left as it is
      rw [State.undoTo, if_pos htip] at hundo
      cases hundo
      have hnone : undone₃ = ∅ := Table.ext_get fun a ↦ by
        cases ha : undone₃[a]? with
        | none => exact (Std.ExtTreeMap.getElem?_empty).symm
        | some p => exact (hredoing.within a p ha).symm
      rw [if_neg (by simp [htip]), hnone] at hpool
      obtain ⟨t, ht, hpool⟩ := bind_eq_ok.mp hpool
      cases ht
      obtain ⟨t', ht', hpool⟩ := bind_eq_ok.mp hpool
      cases ht'
      cases hpool
      exact hs'.losesNothing_of_redoing ⟨hredoing.advances.trans (.of_eq rfl rfl), hredoing.mined,
        hredoing.within, hredoing.kept⟩
    · rw [if_pos (by simp [htip])] at hpool
      obtain ⟨t, ht, hpool⟩ := bind_eq_ok.mp hpool
      obtain ⟨t', ht', hpool⟩ := bind_eq_ok.mp hpool
      cases hpool
      obtain ⟨-, hgoes, hapart⟩ := h.waiting_apart hundoing hredoing
      have hall : readdTransactions env { s₃ with ledger := { s₃.ledger with pool := {} } }
          (s₃.waiting undone₃) = .ok t' := by
        rw [readdTransactions, waiting, List.foldlM_append]
        exact bind_eq_ok.mpr ⟨t, ht, ht'⟩
      have hreadding := readding_of_readdTransactions hgoes hapart hall
      refine h.losesNothing_of_readding hs' hundoing hredoing ?_
      refine ⟨hreadding.chain, hreadding.index, hs'.proper.ledger, hreadding.origin,
        fun x hx ↦ (hreadding.settled x hx).imp_right ?_⟩
      rintro ⟨x', hx', heq, hrefused⟩
      refine ⟨x', hx', heq, ?_⟩
      rcases hrefused with ⟨hheader, hunfit⟩ | hcrowded
      · exact .unfit hheader hunfit
      · exact .crowded hcrowded

/-- **A reorganization loses no valid transaction**, and no transaction is in the pool and in the
main chain. -/
theorem Reachable.reorganization_keeps {guard : State → Op → Prop} {s₁ : State}
    (h : s.Reachable env guard) (hmoves : Moves env (fun _ ↦ True) s s₁) {switchToChain : Hash}
    {recentPb : PreparedBlock} {recentInfo : Api.BlockHeader} {all : Bool}
    (hstored : Stored env s₁.chain.tree recentPb recentInfo)
    (hok : s₁.reorganizeBlocks env switchToChain recentPb recentInfo = .ok (s', all)) :
    LosesNothing env s₁ s' ∧ ∀ (tid : Hash) entry height block,
      s'.ledger.pool.stateTx[tid]? = some entry → s'.mainBlock height = some block →
      entry.tx ∉ block.allTransactions := by
  obtain ⟨hs', hloses⟩ := (h.running.moves hmoves).reorganizeBlocks hstored hok
  exact ⟨hloses, fun tid entry height block hentry hblock ↦ hs'.not_mem_of_pool hentry hblock⟩

/-- The reward of the third block after the genesis block. -/
def sampleReward₃ : Amount := 281462092005375

/-- A third block, which spends an output of the second one, and another one beside it. -/
def sampleTop (env : Env) : RawBlock :=
  sampleBlock env 3 0x902 sampleReward₃ 10 [samplePayment [⟨sampleReward, [1], 9⟩] sampleReward 11]
def sampleBeside (env : Env) : RawBlock := sampleBlock env 3 0x902 sampleReward₃ 12 []

/-- The payment of the third block goes to the pool when the block makes way for the one beside it. -/
theorem reorganization_keeps_sample : ∃ s s' : State, s.chain.tip.tipBid ≠ s'.chain.tip.tipBid ∧
    (s'.ledger.pool.stateTx[(11 : Hash)]?).isSome ∧ LosesNothing (.lax 5) s s' ∧
    ∀ (tid : Hash) entry height block, s'.ledger.pool.stateTx[tid]? = some entry →
      s'.mainBlock height = some block → entry.tx ∉ block.allTransactions := by
  obtain ⟨s, hs, hp⟩ := exists_reachable 0
    (sampleBlocks (.lax 5) ++
      [.addBlock (sampleTop (.lax 5)) false 0, .addBlock (sampleBeside (.lax 5)) false 0])
    (fun s ↦ decide (∃ pb ∈ (PreparedBlock.ofRawBlock (.lax 5) false
        (sampleBeside (.lax 5))).toOption,
      ∃ info ∈ s.chain.tree.headers[pb.bid]?, s.chain.tree.blocks[pb.bid]? = some pb.blockData ∧
      ∃ r ∈ (s.reorganizeBlocks (.lax 5) pb.bid pb info).toOption,
        s.chain.tip.tipBid ≠ r.1.chain.tip.tipBid ∧
          (r.1.ledger.pool.stateTx[(11 : Hash)]?).isSome))
    (show endsIn (.lax 5) _ _ _ = true by decide +kernel)
  obtain ⟨pb, hpb, info, hinfo, hblock, r, hr, hne, hthere⟩ := of_decide_eq_true hp
  have hsized : (sampleBeside (.lax 5)).Sized := by
    rw [RawBlock.Sized]
    decide +kernel
  obtain ⟨hfaithful, -⟩ := PreparedBlock.faithful_ofRawBlock hsized (toOption_eq_some.mp hpb)
  obtain ⟨coinbaseTx, hwritten, htid, -⟩ := hfaithful.coinbase
  have hstored : Stored (.lax 5) s.chain.tree pb info := by
    refine ⟨⟨hblock, hfaithful.data, hfaithful.block⟩, hinfo, ?_⟩
    rw [getTransactionHash, hwritten, htid]
    rfl
  exact ⟨s, r.1, hne, hthere,
    Reachable.reorganization_keeps hs .refl hstored (toOption_eq_some.mp hr)⟩

end State

end CryoNero
