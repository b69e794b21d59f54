import CryoNero.Store.Totals
import CryoNero.Wallet.Chronicle
import CryoNero.Wallet.Ledger
import CryoNero.Wallet.Spendable

/-!
# Balances and outputs

The balance of an address is stored, and changed output by output beside the indexes of the outputs. It
is never counted anew. All the same it stays what the outputs of the address are worth: through all
blocks that come, through outputs that open, take the place of others or are spent, and through blocks
that are taken back, in any order (`balances_of_reaches`).
-/

namespace CryoNero

open Store

namespace WalletIndexes

variable {s s' : WalletIndexes} {P : Api.Output → Prop} {output : Api.Output}

/-! ## What the outputs of an address are worth -/

/-- What an output is worth to an address. -/
def worthTo (address : String) (o : Api.Output) : ℕ :=
  if o.address = address then o.amount.toNat else 0

def unspentWorth (s : WalletIndexes) (address : String) : ℕ :=
  Table.total (worthTo address) (s.records .unspents)

def lockedWorth (s : WalletIndexes) (address : String) : ℕ :=
  Table.total (worthTo address) (s.records (.locked true)) +
    Table.total (worthTo address) (s.records (.locked false))

/-- What the outputs of an address are worth, those that can be spent and those that are locked. -/
def outputsWorth (s : WalletIndexes) (address : String) : ℕ :=
  s.unspentWorth address + s.lockedWorth address

/-- The three parts of each balance add up to what the outputs of its address are worth. -/
def Balanced (s : WalletIndexes) : Prop :=
  ∀ address : String, address ≠ "" →
    (s.balanceOf address).total = BitVec.ofNat 128 (s.outputsWorth address)

private theorem credit_coins_eq {address : String} (hne : address ≠ "") (o : Api.Output) :
    credit o.address (coins o.amount) address = BitVec.ofNat 128 (worthTo address o) := by
  rw [credit, worthTo]
  by_cases hsame : o.address = address
  · rw [if_pos ⟨hsame.symm, hsame ▸ hne⟩, if_pos hsame, coins]
    exact (BitVec.ofNat_toNat 128 o.amount.toBitVec).symm
  · rw [if_neg fun hand ↦ hsame hand.1.symm, if_neg hsame]
    rfl

theorem Balanced.holdings (h : Balanced s) {address : String} (hne : address ≠ "") :
    s.holdings address = BitVec.ofNat 128 (s.outputsWorth address) := by
  rw [WalletIndexes.holdings, if_neg hne]
  exact h address hne

theorem balanced_of_holdings (h : ∀ address : String, address ≠ "" →
    s.holdings address = BitVec.ofNat 128 (s.outputsWorth address)) : Balanced s := by
  intro address hne
  have hheld := h address hne
  rwa [WalletIndexes.holdings, if_neg hne] at hheld

theorem Balanced.grown (h : Balanced s)
    (hheld : s'.holdings = s.holdings + credit output.address (coins output.amount))
    (hworth : ∀ address, s'.outputsWorth address = worthTo address output + s.outputsWorth address) :
    Balanced s' := by
  refine balanced_of_holdings fun address hne ↦ ?_
  rw [hheld, Pi.add_apply, h.holdings hne, credit_coins_eq hne, hworth, BitVec.ofNat_add, add_comm]

private theorem Balanced.shrunk (h : Balanced s)
    (hheld : s'.holdings = s.holdings - credit output.address (coins output.amount))
    (hworth : ∀ address, s.outputsWorth address = worthTo address output + s'.outputsWorth address) :
    Balanced s' := by
  refine balanced_of_holdings fun address hne ↦ ?_
  rw [hheld, Pi.sub_apply, h.holdings hne, credit_coins_eq hne, hworth, BitVec.ofNat_add,
    add_sub_cancel_left]

theorem Balanced.congr (h : Balanced s) (hheld : s'.holdings = s.holdings)
    (hunspents : s'.records .unspents = s.records .unspents)
    (hlocked : ∀ b, s'.records (.locked b) = s.records (.locked b)) : Balanced s' := by
  refine balanced_of_holdings fun address hne ↦ ?_
  rw [hheld, h.holdings hne, outputsWorth, outputsWorth, unspentWorth, unspentWorth, lockedWorth,
    lockedWorth, hunspents, hlocked, hlocked]

/-! ## Single outputs -/

private theorem records_unspents_of_locks (h : Indexed.Changes (·.ofLocks = true) s s') :
    s'.records .unspents = s.records .unspents := h.records_eq Bool.false_ne_true

theorem records_locked_of_unspents (h : Indexed.Changes (·.ofUnspents = true) s s') (b : Bool) :
    s'.records (.locked b) = s.records (.locked b) := h.records_eq Bool.false_ne_true

private theorem lockedWorth_insert {b : Bool} {k : HeAmGi} (hfree : (s.records (.locked b))[k]? = none)
    (hsame : s'.records (.locked b) = (s.records (.locked b)).insert k output)
    (hother : s'.records (.locked !b) = s.records (.locked !b)) (address : String) :
    s'.lockedWorth address = worthTo address output + s.lockedWorth address := by
  have htotal := Table.total_insert (worthTo address) output hfree
  cases b with
  | true =>
    rw [lockedWorth, lockedWorth, hsame, htotal, Nat.add_assoc]
    exact congrArg (fun t ↦ _ + (_ + Table.total (worthTo address) t)) hother
  | false =>
    rw [lockedWorth, lockedWorth, hsame, htotal, Nat.add_left_comm]
    exact congrArg (fun t ↦ _ + (Table.total (worthTo address) t + _)) hother

theorem Balanced.addToLockIndex (h : Balanced s) (hs' : s.addToLockIndex output = .ok s') :
    Balanced s' := by
  classical
  obtain ⟨_, hfree, -, -⟩ := addToLockIndex_cases hs'
  refine h.grown (holdings_addToLockIndex hs') fun address ↦ ?_
  have hworth : s'.lockedWorth address = worthTo address output + s.lockedWorth address := by
    refine lockedWorth_insert hfree (Table.ext_get fun k ↦ ?_) (Table.ext_get fun k ↦ ?_) address
    · refine (get_locked_addToLockIndex hs' _ k).trans ?_
      rw [Table.get_insert]
      exact if_congr (and_iff_right rfl) rfl rfl
    · refine (get_locked_addToLockIndex hs' _ k).trans (if_neg fun hand ↦ ?_)
      exact Bool.not_ne_self _ hand.1
  rw [outputsWorth, outputsWorth, hworth, unspentWorth, unspentWorth,
    records_unspents_of_locks (changes_addToLockIndex hs')]
  exact Nat.add_left_comm _ _ _

/-- What is removed is the output that is filed there. -/
theorem Balanced.removeFromLockIndex (h : Balanced s)
    (hget : s.get (lockIndex output) (lockKeyOf output) = some output)
    (hs' : s.removeFromLockIndex output = .ok s') : Balanced s' := by
  classical
  refine h.shrunk (holdings_removeFromLockIndex hs') fun address ↦ ?_
  have hworth : s.lockedWorth address = worthTo address output + s'.lockedWorth address := by
    have hgone : (s'.records (lockIndex output))[lockKeyOf output]? = none :=
      (get_locked_removeFromLockIndex hs' _ _).trans (if_pos ⟨rfl, rfl⟩)
    refine lockedWorth_insert hgone (Table.ext_get fun k ↦ ?_) (Table.ext_get fun k ↦ ?_) address
    · rw [Table.get_insert]
      split_ifs with hk
      · rw [← hk]
        exact hget
      · refine Eq.symm ((get_locked_removeFromLockIndex hs' _ k).trans (if_neg fun hand ↦ ?_))
        exact hk hand.2
    · refine Eq.symm ((get_locked_removeFromLockIndex hs' _ k).trans (if_neg fun hand ↦ ?_))
      exact Bool.not_ne_self _ hand.1
  rw [outputsWorth, outputsWorth, hworth, unspentWorth, unspentWorth,
    records_unspents_of_locks (changes_removeFromLockIndex hs')]
  exact Nat.add_left_comm _ _ _

theorem Balanced.addUnspent (h : Balanced s) {nooverwrite : Bool}
    (hs' : s.addUnspent output nooverwrite = .ok s') : Balanced s' := by
  classical
  obtain ⟨_, hfree, -, -⟩ := addUnspent_cases hs'
  refine h.grown (holdings_addUnspent hs') fun address ↦ ?_
  have hrecords : s'.records .unspents =
      (s.records .unspents).insert output.heightAmounGi.key output := by
    refine Table.ext_get fun k ↦ (get_addUnspent hs' k).trans ?_
    rw [Table.get_insert]
    rfl
  rw [outputsWorth, outputsWorth, unspentWorth, hrecords, Table.total_insert _ _ hfree, lockedWorth,
    lockedWorth, records_locked_of_unspents (changes_addUnspent hs'),
    records_locked_of_unspents (changes_addUnspent hs')]
  exact Nat.add_assoc _ _ _

theorem Balanced.removeFromUnspentIndex (h : Balanced s)
    (hget : s.get .unspents output.heightAmounGi.key = some output)
    (hs' : s.removeFromUnspentIndex output = .ok s') : Balanced s' := by
  classical
  refine h.shrunk (holdings_removeFromUnspentIndex hs') fun address ↦ ?_
  have hrecords : s'.records .unspents = (s.records .unspents).erase output.heightAmounGi.key := by
    refine Table.ext_get fun k ↦ (get_removeFromUnspentIndex hs' k).trans ?_
    rw [Table.get_erase]
    rfl
  rw [outputsWorth, outputsWorth, unspentWorth, Table.total_of_get _ hget, unspentWorth, hrecords,
    lockedWorth, lockedWorth, records_locked_of_unspents (changes_removeFromUnspentIndex hs'),
    records_locked_of_unspents (changes_removeFromUnspentIndex hs')]
  exact Nat.add_assoc _ _ _

/-! ## Outputs and key images of a block -/

theorem Balanced.addIncomingOutput (h : Balanced s) (hfiled : Filed P s) {justUnlocked : Bool} {n : Amount}
    (hs' : s.addIncomingOutput output justUnlocked = .ok (s', n)) : Balanced s' := by
  rcases addIncomingOutput_cases hs' with ⟨-, -, -, -, hs'⟩ | ⟨-, -, -, hs'⟩ |
    ⟨heamgi, existing, s₁, -, hex, -, -, -, -, hs₁, hs'⟩ | ⟨-, -, -, rfl, -⟩
  · exact h.addToLockIndex hs'
  · exact h.addUnspent hs'
  · exact (h.removeFromUnspentIndex (hfiled.get_existing hex).2 hs₁).addUnspent hs'
  · exact h

theorem Balanced.unlockOutput (h : Balanced s) (hfiled : Filed P s) {nowHeight : Height}
    (hget : s.get (lockIndex output) (lockKeyOf output) = some output)
    (hs' : s.unlockOutput nowHeight output = .ok s') : Balanced s' := by
  obtain ⟨s₁, s₂, n, hs₁, hs₂, hput⟩ := unlockOutput_cases hs'
  have hfiled₁ := (hfiled.removeFromLockIndex hget hs₁).1
  have h₂ := (h.removeFromLockIndex hget hs₁).addIncomingOutput hfiled₁ hs₂
  have hopened : Indexed.Changes (· = .unlocked) s₂ s' := by
    rw [hput]
    exact .of_put rfl
  exact h₂.congr (holdings_congr fun _ ↦ hopened.get_eq (by simp) _) (hopened.records_eq (by simp))
    fun _ ↦ hopened.records_eq (by simp)

theorem Balanced.unlockOutputs (h : Balanced s) (hfiled : Filed P s) {nowHeight : Height}
    {outputs : List Api.Output}
    (hget : ∀ o ∈ outputs, s.get (lockIndex o) (lockKeyOf o) = some o ∧ P o)
    (hdistinct : outputs.Pairwise fun a b ↦ lockKeyOf a ≠ lockKeyOf b)
    (hs' : outputs.foldlM (fun s o ↦ WalletIndexes.unlockOutput s nowHeight o) s = .ok s') :
    Balanced s' := by
  induction outputs generalizing s with
  | nil =>
    cases hs'
    exact h
  | cons o outputs ih =>
    rw [List.foldlM_cons] at hs'
    obtain ⟨s₁, hs₁, hs'⟩ := bind_eq_ok.mp hs'
    rw [List.pairwise_cons] at hdistinct
    rw [List.forall_mem_cons] at hget
    obtain ⟨hfiled₁, hlocked⟩ := hfiled.unlockOutput hget.1.1 hget.1.2 hs₁
    refine ih (h.unlockOutput hfiled hget.1.1 hs₁) hfiled₁ (fun o' ho' ↦ ?_) hdistinct.2 hs'
    rw [hlocked _ _ (hdistinct.1 o' ho')]
    exact hget.2 o' ho'

theorem Balanced.addIncomingKeyimage (h : Balanced s) (hfiled : Filed (fun _ ↦ True) s)
    {blockHeight : Height} {keyImage : KeyImage} {n : Amount}
    (hs' : s.addIncomingKeyimage blockHeight keyImage = .ok (s', n)) : Balanced s' := by
  rw [WalletIndexes.addIncomingKeyimage] at hs'
  obtain ⟨found, hfound, hs'⟩ := bind_eq_ok.mp hs'
  obtain ⟨s₁, hs₁, hs'⟩ := bind_eq_ok.mp hs'
  obtain ⟨hmem, hdistinct⟩ := hfiled.foundInLocked hfound
  have hget (o : Api.Output) (ho : o ∈ found) := (hmem o ho).1
  have h₁ := h.unlockOutputs hfiled (fun o ho ↦ ⟨hget o ho, trivial⟩) hdistinct hs₁
  have hfiled₁ := hfiled.unlockOutputs hget hdistinct (fun _ _ ↦ trivial) hs₁
  split at hs'
  · cases hs'
    exact h₁
  · next existing hsome =>
    obtain ⟨s₂, hs₂, hs'⟩ := bind_eq_ok.mp hs'
    cases hs'
    obtain ⟨heamgi, -, hex⟩ := Option.bind_eq_some_iff.mp hsome
    exact h₁.removeFromUnspentIndex (hfiled₁.get_existing hex).2 hs₂

theorem Balanced.unlock (h : Balanced s) (hfiled : Filed (fun _ ↦ True) s) {nowHeight : Height}
    {now : Timestamp} (hs' : s.unlock nowHeight now = .ok s') : Balanced s' := by
  obtain ⟨add₁, add₂, hadd₁, hadd₂, hs'⟩ := unlock_cases hs'
  obtain ⟨hget, hdistinct⟩ := hfiled.opening (fun _ _ ↦ trivial) hadd₁ hadd₂
  exact h.unlockOutputs hfiled hget hdistinct hs'

theorem Balanced.addTransaction (h : Balanced s) {height : Height} {tid : Hash} {tx : TransactionPrefix}
    {ptx : Api.Transaction} (hs' : s.addTransaction height tid tx ptx = .ok s') : Balanced s' :=
  h.congr (holdings_addTransaction hs') ((changes_addTransaction hs').records_eq Bool.false_ne_true)
    fun _ ↦ (changes_addTransaction hs').records_eq Bool.false_ne_true

/-- **Transaction rule.** -/
theorem Balanced.redoTransaction {env : WalletStateEnv} {keys : WalletKeys} {view : WalletStateView}
    {pwtx : PreparedWalletTransaction} {globalIndices : List UInt32} {isBase : Bool} {tid bid : Hash}
    {blockHeight : Height} {txTimestamp : Timestamp} {p : WalletIndexes × Bool}
    (h : Filed (fun _ ↦ True) s ∧ Balanced s)
    (hp : redoTransaction walletState env keys view s pwtx globalIndices isBase tid blockHeight bid
      txTimestamp = .ok p) : Filed (fun _ ↦ True) p.1 ∧ Balanced p.1 := by
  refine (redoTransaction_keeps (M := fun todo s ↦ (∀ out ∈ todo, Flagged out) ∧
    Filed (fun _ ↦ True) s ∧ Balanced s) ?_ ?_ ?_ ?_ ⟨List.forall_mem_nil _, h⟩ hp).2
  · rintro s out todo s' n ⟨hflag, hfiled, hbalanced⟩ hs'
    rw [List.forall_mem_cons] at hflag
    have hs' : s.addIncomingOutput out false = .ok (s', n) := hs'
    exact ⟨hflag.2, hfiled.addIncomingOutput hflag.1 (fun _ ↦ trivial) hs',
      hbalanced.addIncomingOutput hfiled hs'⟩
  · rintro s ki s' n ⟨-, hfiled, hbalanced⟩ hs'
    exact ⟨List.forall_mem_nil _, hfiled.addIncomingKeyimage hs',
      hbalanced.addIncomingKeyimage hfiled hs'⟩
  · rintro s ptx s' ⟨-, hfiled, hbalanced⟩ - hs'
    exact ⟨List.forall_mem_nil _, hfiled.addTransaction hs', hbalanced.addTransaction hs'⟩
  · exact fun parsed hparsed hours ↦ ⟨flagged_ownOutputs hparsed hours, h⟩

private theorem balanced_ofRecords (h : Balanced s) : Balanced (Indexed.ofRecords s.records) :=
  h.congr rfl rfl fun _ ↦ rfl

end WalletIndexes

/-! ## Runs -/

namespace WalletDb

open WalletIndexes (Filed Balanced)

variable {s s' : WalletDb} {blocks : Blocks}

/-- The balances at the tip, and before each block, are those of the outputs. -/
structure Accounted (s : WalletDb) (blocks : Blocks) : Prop where
  synced : s.Synced blocks
  levels : Levels (fun _ ↦ Balanced) s.undoStates blocks s.indexes.records

theorem Accounted.balanced (h : s.Accounted blocks) : Balanced s.indexes := by
  have hhere := h.levels.here
  rwa [← h.synced.clean] at hhere

section Block

variable (env : WalletStateEnv) (keys : WalletKeys)

theorem Accounted.redoBlock (h : s.Accounted blocks) {header : Api.BlockHeader} {pb : PreparedWalletBlock}
    {globalIndices : List (List UInt32)}
    (hs' : s.redoBlock env keys header pb globalIndices = .ok s') : Balanced s'.indexes := by
  have hstart : Filed (fun _ ↦ True) s.indexes ∧ Balanced s.indexes :=
    ⟨(h.synced.unchanged.2 (s.tipHeight + 1, header)).imp fun _ _ _ _ ↦ trivial, h.balanced⟩
  obtain ⟨indexes, rfl, -, hindexes⟩ := redoBlock_keeps env keys
    (M := fun _ indexes ↦ Filed (fun _ ↦ True) indexes ∧ Balanced indexes)
    (fun indexes view pwtx gis isBase tid p todo ht hp ↦ Balanced.redoTransaction ht hp)
    (fun indexes indexes' ht hu ↦ ⟨ht.1.unlock (fun _ _ ↦ trivial) hu, ht.2.unlock ht.1 hu⟩)
    hstart hstart hs'
  exact hindexes

theorem Accounted.pushChain (h : s.Accounted blocks) {indexes : WalletIndexes} {header : Api.BlockHeader}
    (hrestores : indexes.Restores s.indexes.records)
    (hfiled : Filed (Ready ((s.tipHeight + 1, header) :: blocks)) indexes) (hbalanced : Balanced indexes)
    (hroom : s.tipHeight + 1 < 0xFFFFFFFF)
    (hs' : { s with indexes := indexes }.pushChain header = .ok s') :
    s'.Accounted ((s.tipHeight + 1, header) :: blocks) where
  synced := h.synced.pushChain hrestores hfiled hroom hs'
  levels := h.levels.pushChain h.synced hrestores (WalletIndexes.balanced_ofRecords hbalanced) hs'

/-- **Step lemma.** -/
theorem Accounted.step (h : s.Accounted blocks) {genesis : Api.BlockHeader} {e : Event} (hroom : s.Room e)
    (hs' : s.step env keys genesis e = .ok s') : ∃ blocks', s'.Accounted blocks' := by
  obtain ⟨hsame, hfiled⟩ := h.synced.unchanged
  rcases e with _ | _ | tail | ⟨header, _ | ⟨pb, globalIndices⟩⟩
  · obtain ⟨b, blocks', rfl, hsynced⟩ := h.synced.popChain hs'
    obtain ⟨_, _, heq, hlevels⟩ := h.levels.popChain h.synced hs'
    cases heq
    exact ⟨blocks', hsynced, hlevels⟩
  · change s.fixEmptyChain genesis = .ok s' at hs'
    rw [fixEmptyChain] at hs'
    split_ifs at hs' with hempty
    · rw [h.synced.emptyChain_iff] at hempty
      subst hempty
      have hmoved : { s with tailHeight := 0, tipHeight := 0xFFFFFFFF }.Accounted [] :=
        ⟨h.synced.move 0 0xFFFFFFFF rfl, h.levels⟩
      have hlow : (0xFFFFFFFF + 1 : Height) < 0xFFFFFFFF := by decide
      exact ⟨_, hmoved.pushChain hsame (hfiled _) h.balanced hlow hs'⟩
    · cases hs'
      exact ⟨blocks, h⟩
  · change s.resetChain tail = .ok s' at hs'
    rw [resetChain] at hs'
    obtain ⟨_, hempty, hs'⟩ := bind_eq_ok.mp hs'
    cases hs'
    have hnil := h.synced.emptyChain_iff.mp (ensure_eq_ok.mp hempty)
    subst hnil
    exact ⟨[], h.synced.move tail (tail - 1) (UInt32.sub_add_cancel _ _), h.levels⟩
  · exact ⟨_, h.pushChain hsame (hfiled _) h.balanced hroom hs'⟩
  · obtain ⟨s₁, hs₁, hs'⟩ := bind_eq_ok.mp hs'
    have hbalanced := h.redoBlock env keys hs₁
    obtain ⟨indexes, rfl, hprocessed⟩ := h.synced.redoBlock env keys hs₁
    exact ⟨_, h.pushChain hprocessed.restores hprocessed.filed hbalanced hroom hs'⟩

private theorem accounted_empty : ({} : WalletDb).Accounted [] := by
  refine ⟨synced_empty, fun address _ ↦ ?_⟩
  change _ = BitVec.ofNat 128 (Table.total _ ∅ + (Table.total _ ∅ + Table.total _ ∅))
  rw [Table.total_empty, WalletIndexes.balanceOf]
  rw [show Indexed.get (Indexed.ofRecords ({} : WalletDb).indexes.records) .balances address = none from
    Std.ExtTreeMap.getElem?_empty]
  rfl

/-- **The balance of an address is what its outputs are worth.** However a wallet follows its node, which
blocks it processes and which of them it takes back: what is stored as the balance of an address adds up,
in 128 bits, to the outputs of the address on file that can be spent and those that are locked. -/
theorem balances_of_reaches {genesis : Api.BlockHeader}
    (h : Reaches (step env keys genesis) Room (· = {}) s) {address : String} (hne : address ≠ "") :
    (s.indexes.balanceOf address).total = BitVec.ofNat 128
      (s.indexes.unspentWorth address + s.indexes.lockedWorth address) := by
  obtain ⟨blocks, haccounted⟩ : ∃ blocks, s.Accounted blocks := by
    refine h.invariant (I := fun s ↦ ∃ blocks, s.Accounted blocks) ?_ ?_
    · rintro s rfl
      exact ⟨[], accounted_empty⟩
    · rintro s e s' - ⟨blocks, haccounted⟩ hroom hs'
      exact haccounted.step env keys hroom hs'
  exact haccounted.balanced address hne

end Block

open WalletState (sampleStateEnv sampleKeys)

/-- The sample wallet has what the first block paid to it. -/
theorem balances_of_reaches_sample : ∃ (s : WalletDb) (address : String), address ≠ "" ∧
    Reaches (step sampleStateEnv sampleKeys {}) Room (· = {}) s ∧
    (s.indexes.balanceOf address).total = 5000000 ∧
    (s.indexes.balanceOf address).total = BitVec.ofNat 128
      (s.indexes.unspentWorth address + s.indexes.lockedWorth address) := by
  obtain ⟨s, hs, e, -, hne, htotal⟩ := reaches_of_sampleSynced
    (P := fun s ↦ ∃ e ∈ (s.indexes.records .balances).toList, e.1 ≠ "" ∧
      (s.indexes.balanceOf e.1).total = 5000000) (by decide +kernel)
  exact ⟨s, e.1, hne, hs, htotal, balances_of_reaches sampleStateEnv sampleKeys hs hne⟩

end WalletDb

end CryoNero
