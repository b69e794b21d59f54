import CryoNero.Core.WalletIndexes

/-!
# What the operations of a wallet do to its indexes

An operation on outputs that went well has put and removed certain records. Which indexes these belong to
depends on the operation alone (`Indexed.Changes`): outputs that can be spent, outputs that are locked, and
the history of transactions are kept apart, up to the balances. All changes are remembered for the block
that makes them, whatever they are.
-/

namespace CryoNero

open Store

/-! ## Groups of indexes -/

namespace WalletIndex

def ofUnspents : WalletIndex → Bool
  | balances | unspents | addressUnspents | keyimages => true
  | _ => false

def ofLocks : WalletIndex → Bool
  | balances | locked _ | lockedKeyimages => true
  | _ => false

def ofHistory : WalletIndex → Bool
  | transactions | addressTransactions => true
  | _ => false

/-- Everything about outputs. -/
def OfOutputs (i : WalletIndex) : Prop := i.ofHistory = false

private theorem OfOutputs.of_unspents {i : WalletIndex} (h : i.ofUnspents = true) : i.OfOutputs := by
  cases i <;> first | rfl | cases h

theorem OfOutputs.of_locks {i : WalletIndex} (h : i.ofLocks = true) : i.OfOutputs := by
  cases i <;> first | rfl | cases h

end WalletIndex

namespace WalletIndexes

variable {s s' : WalletIndexes}

/-! ## Changes of records -/

theorem putWithUndo_eq_ok {i : WalletIndex} {k : i.Key} {v : i.Value} {nooverwrite : Bool} :
    s.putWithUndo i k v nooverwrite = .ok s' ↔
      (nooverwrite = true → s.get i k = none) ∧ s' = s.put i k v := by
  rw [putWithUndo]
  split_ifs with h
  · refine ⟨nofun, fun h' ↦ ?_⟩
    rw [h'.1 h.1] at h
    exact absurd h.2 Bool.false_ne_true
  · rw [Except.ok.injEq, eq_comm]
    refine ⟨fun h' ↦ ⟨fun hno ↦ ?_, h'⟩, And.right⟩
    exact Option.not_isSome_iff_eq_none.mp fun hsome ↦ h ⟨hno, hsome⟩

theorem delWithUndo_eq_ok {i : WalletIndex} {k : i.Key} {mustexist : Bool} :
    s.delWithUndo i k mustexist = .ok s' ↔
      (mustexist = true → s.get i k ≠ none) ∧ s' = s.del i k := by
  rw [delWithUndo]
  split_ifs with h
  · exact ⟨nofun, fun h' ↦ absurd h.2 (h'.1 h.1)⟩
  · rw [Except.ok.injEq, eq_comm]
    exact ⟨fun h' ↦ ⟨fun hmust hnone ↦ h ⟨hmust, hnone⟩, h'⟩, And.right⟩

private theorem get_writeBalance (address : String) (balance : Api.Balance) {i : WalletIndex}
    (hi : i ≠ .balances) (k : i.Key) : (s.writeBalance address balance).get i k = s.get i k := by
  rw [writeBalance]
  split_ifs
  · exact Indexed.get_del_of_ne hi k
  · exact Indexed.get_put_of_ne hi k

@[simp] theorem get_modifyBalance (output : Api.Output) (lockedOp spendableOp : ℤ) {i : WalletIndex}
    (hi : i ≠ .balances) (k : i.Key) :
    (s.modifyBalance output lockedOp spendableOp).get i k = s.get i k := by
  rw [modifyBalance, get_writeBalance _ _ hi, get_writeBalance _ _ hi]

private theorem changes_writeBalance (address : String) (balance : Api.Balance) :
    Indexed.Changes (· = .balances) s (s.writeBalance address balance) := by
  rw [writeBalance]
  split_ifs
  · exact .of_del rfl
  · exact .of_put rfl

theorem changes_modifyBalance (output : Api.Output) (lockedOp spendableOp : ℤ) :
    Indexed.Changes (· = .balances) s (s.modifyBalance output lockedOp spendableOp) :=
  (changes_writeBalance _ _).trans (changes_writeBalance _ _)

/-! ## What an operation did -/

/-- The index that an output is locked in, and its key there. -/
abbrev lockIndex (output : Api.Output) : WalletIndex :=
  .locked (Currency.isTransactionSpendTimeBlock output.unlockTime)

abbrev lockKeyOf (output : Api.Output) : HeAmGi :=
  lockKey output.unlockTime output.amount output.globalIndex

theorem addToLockIndex_cases {output : Api.Output} (h : s.addToLockIndex output = .ok s') :
    ∃ s₁, s.get (lockIndex output) (lockKeyOf output) = none ∧
      s₁ = (s.modifyBalance output 1 0).put (lockIndex output) (lockKeyOf output) output ∧
      s' = if output.keyImage ≠ 0 then
        s₁.put .lockedKeyimages (lockKeyimageKey output) output.unlockTime else s₁ := by
  rw [addToLockIndex] at h
  obtain ⟨s₁, h₁, h⟩ := bind_eq_ok.mp h
  obtain ⟨hfree, rfl⟩ := putWithUndo_eq_ok.mp h₁
  refine ⟨_, ?_, rfl, ?_⟩
  · rw [← hfree rfl]
    exact (get_modifyBalance (i := lockIndex output) _ _ _ nofun _).symm
  · split_ifs at h ⊢ with hki
    · exact (putWithUndo_eq_ok.mp h).2
    · exact (Except.ok.inj h).symm

theorem removeFromLockIndex_cases {output : Api.Output} (h : s.removeFromLockIndex output = .ok s') :
    ∃ s₁, s.get (lockIndex output) (lockKeyOf output) ≠ none ∧
      s₁ = (s.modifyBalance output (-1) 0).del (lockIndex output) (lockKeyOf output) ∧
      s' = if output.keyImage ≠ 0 then s₁.del .lockedKeyimages (lockKeyimageKey output) else s₁ := by
  rw [removeFromLockIndex] at h
  obtain ⟨s₁, h₁, h⟩ := bind_eq_ok.mp h
  obtain ⟨hthere, rfl⟩ := delWithUndo_eq_ok.mp h₁
  refine ⟨_, ?_, rfl, ?_⟩
  · have hthere := hthere rfl
    rwa [get_modifyBalance (i := lockIndex output) _ _ _ nofun] at hthere
  · split_ifs at h ⊢ with hki
    · exact (delWithUndo_eq_ok.mp h).2
    · exact (Except.ok.inj h).symm

theorem addUnspent_cases {output : Api.Output} {nooverwrite : Bool}
    (h : s.addUnspent output nooverwrite = .ok s') :
    ∃ s₁, s.get .unspents output.heightAmounGi.key = none ∧
      s₁ = ((s.modifyBalance output 0 1).put .unspents output.heightAmounGi.key output).put
        .addressUnspents (addressKey output) () ∧
      s' = if output.keyImage = 0 then s₁ else
        s₁.put .keyimages output.keyImage output.heightAmounGi := by
  rw [addUnspent, addToUnspentIndex] at h
  obtain ⟨s₂, h₂, h⟩ := bind_eq_ok.mp h
  obtain ⟨s₁, h₁, h₂⟩ := bind_eq_ok.mp h₂
  obtain ⟨hfree, rfl⟩ := putWithUndo_eq_ok.mp h₁
  obtain ⟨-, rfl⟩ := putWithUndo_eq_ok.mp h₂
  refine ⟨_, ?_, rfl, ?_⟩
  · rw [← hfree rfl]
    exact (get_modifyBalance (i := .unspents) _ _ _ nofun _).symm
  · rw [updateKeyimage] at h
    split_ifs at h ⊢ with hki
    · exact (Except.ok.inj h).symm
    · exact (putWithUndo_eq_ok.mp h).2

theorem removeFromUnspentIndex_cases {output : Api.Output}
    (h : s.removeFromUnspentIndex output = .ok s') :
    s' = ((s.modifyBalance output 0 (-1)).del .unspents output.heightAmounGi.key).del
      .addressUnspents (addressKey output) := by
  rw [removeFromUnspentIndex] at h
  obtain ⟨s₁, h₁, h⟩ := bind_eq_ok.mp h
  obtain ⟨-, rfl⟩ := delWithUndo_eq_ok.mp h₁
  exact (delWithUndo_eq_ok.mp h).2

/-! ## Which indexes an operation touches -/

theorem changes_addToLockIndex {output : Api.Output} (h : s.addToLockIndex output = .ok s') :
    Indexed.Changes (·.ofLocks = true) s s' := by
  obtain ⟨s₁, -, rfl, rfl⟩ := addToLockIndex_cases h
  have h₁ := (changes_modifyBalance (s := s) output 1 0).mono
    (J := (·.ofLocks = true)) fun _ hi ↦ by rw [hi]; rfl
  have h₂ := h₁.put (i := lockIndex output) rfl (lockKeyOf output) output
  split_ifs
  · exact h₂.put (i := .lockedKeyimages) rfl (lockKeyimageKey output) output.unlockTime
  · exact h₂

theorem changes_removeFromLockIndex {output : Api.Output} (h : s.removeFromLockIndex output = .ok s') :
    Indexed.Changes (·.ofLocks = true) s s' := by
  obtain ⟨s₁, -, rfl, rfl⟩ := removeFromLockIndex_cases h
  have h₁ := (changes_modifyBalance (s := s) output (-1) 0).mono
    (J := (·.ofLocks = true)) fun _ hi ↦ by rw [hi]; rfl
  have h₂ := h₁.del (i := lockIndex output) rfl (lockKeyOf output)
  split_ifs
  · exact h₂.del (i := .lockedKeyimages) rfl (lockKeyimageKey output)
  · exact h₂

theorem changes_addUnspent {output : Api.Output} {nooverwrite : Bool}
    (h : s.addUnspent output nooverwrite = .ok s') : Indexed.Changes (·.ofUnspents = true) s s' := by
  obtain ⟨s₁, -, rfl, rfl⟩ := addUnspent_cases h
  have h₁ := (changes_modifyBalance (s := s) output 0 1).mono
    (J := (·.ofUnspents = true)) fun _ hi ↦ by rw [hi]; rfl
  have h₂ := (h₁.put (i := .unspents) rfl output.heightAmounGi.key output).put
    (i := .addressUnspents) rfl (addressKey output) ()
  split_ifs
  · exact h₂
  · exact h₂.put (i := .keyimages) rfl output.keyImage output.heightAmounGi

theorem changes_removeFromUnspentIndex {output : Api.Output}
    (h : s.removeFromUnspentIndex output = .ok s') : Indexed.Changes (·.ofUnspents = true) s s' := by
  rw [removeFromUnspentIndex_cases h]
  have h₁ := (changes_modifyBalance (s := s) output 0 (-1)).mono
    (J := (·.ofUnspents = true)) fun _ hi ↦ by rw [hi]; rfl
  exact (h₁.del (i := .unspents) rfl output.heightAmounGi.key).del
    (i := .addressUnspents) rfl (addressKey output)

/-- What becomes of an incoming output: it is locked, it becomes one that can be spent, it takes the place
of a smaller one with its key image, or nothing happens. -/
theorem addIncomingOutput_cases {output : Api.Output} {justUnlocked : Bool} {n : Amount}
    (h : s.addIncomingOutput output justUnlocked = .ok (s', n)) :
    (output.unlockTime ≠ 0 ∧ justUnlocked = false ∧ n = output.amount ∧
        (∀ heamgi, s.readByKeyimage output.keyImage = some heamgi →
          s.readFromUnspentIndex heamgi ≠ none) ∧ s.addToLockIndex output = .ok s') ∨
      (s.readByKeyimage output.keyImage = none ∧ (output.unlockTime = 0 ∨ justUnlocked = true) ∧
        n = output.amount ∧ s.addUnspent output true = .ok s') ∨
      (∃ heamgi existing s₁, s.readByKeyimage output.keyImage = some heamgi ∧
        s.readFromUnspentIndex heamgi = some existing ∧ (output.unlockTime = 0 ∨ justUnlocked = true) ∧
        heamgi.amount < output.amount ∧ output.address = existing.address ∧
        n = output.amount - heamgi.amount ∧ s.removeFromUnspentIndex existing = .ok s₁ ∧
        s₁.addUnspent output false = .ok s') ∨
      (∃ heamgi, s.readByKeyimage output.keyImage = some heamgi ∧ n = 0 ∧ s' = s ∧
        ∀ existing, s.readFromUnspentIndex heamgi = some existing →
          (output.unlockTime = 0 ∨ justUnlocked = true) ∧
            (output.amount ≤ heamgi.amount ∨ output.address ≠ existing.address)) := by
  have hopen (hlocks : ¬decide (output.unlockTime ≠ 0 ∧ justUnlocked = false) = true) :
      output.unlockTime = 0 ∨ justUnlocked = true := by
    rw [decide_eq_true_iff, not_and_or, not_not, Bool.not_eq_false] at hlocks
    exact hlocks
  rw [addIncomingOutput] at h
  split at h
  · next hnone =>
    split_ifs at h with hlocks <;> obtain ⟨s₁, hs₁, h⟩ := bind_eq_ok.mp h <;> cases h
    · have hlocks := of_decide_eq_true hlocks
      refine .inl ⟨hlocks.1, hlocks.2, rfl, fun heamgi hki ↦ ?_, hs₁⟩
      cases hnone.symm.trans hki
    · exact .inr (.inl ⟨hnone, hopen hlocks, rfl, hs₁⟩)
  · next heamgi hki =>
    split at h
    · next hnone =>
      cases h
      refine .inr (.inr (.inr ⟨heamgi, hki, rfl, rfl, fun existing hex ↦ ?_⟩))
      cases hnone.symm.trans hex
    · next existing hex =>
      split_ifs at h with hlocks hsmaller
      · obtain ⟨s₁, hs₁, h⟩ := bind_eq_ok.mp h
        cases h
        have hlocks := of_decide_eq_true hlocks
        refine .inl ⟨hlocks.1, hlocks.2, rfl, fun heamgi' hki' ↦ ?_, hs₁⟩
        rw [← Option.some.inj (hki.symm.trans hki'), hex]
        exact nofun
      · cases h
        refine .inr (.inr (.inr ⟨heamgi, hki, rfl, rfl, fun existing' hex' ↦ ⟨hopen hlocks, ?_⟩⟩))
        rwa [← Option.some.inj (hex.symm.trans hex')]
      · obtain ⟨s₁, hs₁, h⟩ := bind_eq_ok.mp h
        obtain ⟨s₂, hs₂, h⟩ := bind_eq_ok.mp h
        cases h
        rw [not_or, UInt64.not_le, not_not] at hsmaller
        exact .inr (.inr (.inl ⟨heamgi, existing, s₁, hki, hex, hopen hlocks, hsmaller.1, hsmaller.2, rfl,
          hs₁, hs₂⟩))

/-- What is not locked touches the outputs that can be spent only. -/
theorem changes_addIncomingOutput_unspents {output : Api.Output} {justUnlocked : Bool} {n : Amount}
    (hopen : output.unlockTime = 0 ∨ justUnlocked = true)
    (h : s.addIncomingOutput output justUnlocked = .ok (s', n)) :
    Indexed.Changes (·.ofUnspents = true) s s' := by
  obtain ⟨hlock, hnot, -⟩ | ⟨-, -, -, hs'⟩ | ⟨heamgi, existing, s₁, -, -, -, -, -, -, hs₁, hs'⟩ |
    ⟨heamgi, -, -, rfl, -⟩ := addIncomingOutput_cases h
  · rcases hopen with hzero | htrue
    · exact absurd hzero hlock
    · cases hnot.symm.trans htrue
  · exact changes_addUnspent hs'
  · exact (changes_removeFromUnspentIndex hs₁).trans (changes_addUnspent hs')
  · exact .refl

theorem changes_addIncomingOutput {output : Api.Output} {justUnlocked : Bool} {n : Amount}
    (h : s.addIncomingOutput output justUnlocked = .ok (s', n)) :
    Indexed.Changes (fun i ↦ i.OfOutputs ∧ i ≠ .unlocked) s s' := by
  have hunspents (i : WalletIndex) (hi : i.ofUnspents = true) : i.OfOutputs ∧ i ≠ .unlocked :=
    ⟨.of_unspents hi, by rintro rfl; cases hi⟩
  have hlocks (i : WalletIndex) (hi : i.ofLocks = true) : i.OfOutputs ∧ i ≠ .unlocked :=
    ⟨.of_locks hi, by rintro rfl; cases hi⟩
  by_cases hopen : output.unlockTime = 0 ∨ justUnlocked = true
  · exact (changes_addIncomingOutput_unspents hopen h).mono hunspents
  · obtain ⟨-, -, -, -, hs'⟩ | ⟨-, hopen', -⟩ | ⟨_, _, _, -, -, hopen', -⟩ | ⟨_, -, -, rfl, -⟩ :=
      addIncomingOutput_cases h
    · exact (changes_addToLockIndex hs').mono hlocks
    · exact absurd hopen' hopen
    · exact absurd hopen' hopen
    · exact .refl

/-- An output that opens leaves the index of locked outputs and is noted under its height. -/
theorem unlockOutput_cases {nowHeight : Height} {output : Api.Output}
    (h : s.unlockOutput nowHeight output = .ok s') : ∃ s₁ s₂ n,
      s.removeFromLockIndex output = .ok s₁ ∧ s₁.addIncomingOutput output true = .ok (s₂, n) ∧
      s' = s₂.put .unlocked (toLex (nowHeight, toLex (output.amount, output.globalIndex)))
        { output with amount := n } := by
  rw [unlockOutput] at h
  obtain ⟨s₁, hs₁, h⟩ := bind_eq_ok.mp h
  obtain ⟨⟨s₂, n⟩, hs₂, h⟩ := bind_eq_ok.mp h
  exact ⟨s₁, s₂, n, hs₁, hs₂, (putWithUndo_eq_ok.mp h).2⟩

private theorem changes_unlockOutput {nowHeight : Height} {output : Api.Output}
    (h : s.unlockOutput nowHeight output = .ok s') : Indexed.Changes WalletIndex.OfOutputs s s' := by
  obtain ⟨s₁, s₂, n, hs₁, hs₂, rfl⟩ := unlockOutput_cases h
  have h₁ := (changes_removeFromLockIndex hs₁).mono fun _ ↦ WalletIndex.OfOutputs.of_locks
  have h₂ := (changes_addIncomingOutput hs₂).mono fun _ ↦ And.left
  exact (h₁.trans h₂).put (i := .unlocked) rfl _ _

private theorem changes_unlockOutputs {nowHeight : Height} {outputs : List Api.Output}
    (h : outputs.foldlM (fun s output ↦ unlockOutput s nowHeight output) s = .ok s') :
    Indexed.Changes WalletIndex.OfOutputs s s' :=
  foldlM_ok (fun _ s₁ ↦ Indexed.Changes WalletIndex.OfOutputs s s₁) h .refl
    fun _ _ _ _ _ _ hs₁ hu ↦ hs₁.trans (changes_unlockOutput hu)

theorem changes_addIncomingKeyimage {blockHeight : Height} {keyImage : KeyImage} {n : Amount}
    (h : s.addIncomingKeyimage blockHeight keyImage = .ok (s', n)) :
    Indexed.Changes WalletIndex.OfOutputs s s' := by
  rw [addIncomingKeyimage] at h
  obtain ⟨found, -, h⟩ := bind_eq_ok.mp h
  obtain ⟨s₁, hs₁, h⟩ := bind_eq_ok.mp h
  have h₁ := changes_unlockOutputs hs₁
  split at h
  · cases h
    exact h₁
  · obtain ⟨s₂, hs₂, h⟩ := bind_eq_ok.mp h
    cases h
    exact h₁.trans ((changes_removeFromUnspentIndex hs₂).mono fun _ ↦ WalletIndex.OfOutputs.of_unspents)

theorem unlock_cases {nowHeight : Height} {now : Timestamp} (h : s.unlock nowHeight now = .ok s') :
    ∃ add₁ add₂, readUnlockIndex ∅ (s.records (.locked true)) "" 0xFFFFFFFF nowHeight = .ok add₁ ∧
      readUnlockIndex add₁ (s.records (.locked false)) "" 0xFFFFFFFF now = .ok add₂ ∧
      (add₂.toList.map Prod.snd).foldlM (fun s output ↦ unlockOutput s nowHeight output) s = .ok s' := by
  rw [unlock] at h
  obtain ⟨add₁, hadd₁, h⟩ := bind_eq_ok.mp h
  obtain ⟨add₂, hadd₂, h⟩ := bind_eq_ok.mp h
  exact ⟨add₁, add₂, hadd₁, hadd₂, by rwa [List.foldlM_map]⟩

theorem changes_unlock {nowHeight : Height} {now : Timestamp} (h : s.unlock nowHeight now = .ok s') :
    Indexed.Changes WalletIndex.OfOutputs s s' := by
  obtain ⟨_, _, -, -, h⟩ := unlock_cases h
  exact changes_unlockOutputs h

theorem changes_addTransaction {height : Height} {tid : Hash} {tx : TransactionPrefix}
    {ptx : Api.Transaction} (h : s.addTransaction height tid tx ptx = .ok s') :
    Indexed.Changes (·.ofHistory = true) s s' := by
  rw [addTransaction] at h
  obtain ⟨s₁, hs₁, h⟩ := bind_eq_ok.mp h
  obtain ⟨-, rfl⟩ := putWithUndo_eq_ok.mp hs₁
  refine foldlM_ok (fun _ s₁ ↦ Indexed.Changes (fun i ↦ i.ofHistory = true) s s₁) h
    (.of_put rfl) fun _ addr _ s₂ s₃ _ hs₂ hput ↦ ?_
  obtain ⟨-, rfl⟩ := putWithUndo_eq_ok.mp hput
  exact hs₂.put (i := .addressTransactions) rfl _ _

end WalletIndexes

end CryoNero
