import CryoNero.Wallet.Chronicle

/-!
# Wallets in the middle of a block

Between two transactions of a block the indexes belong together as well, and the key image zero, by which an
output says that it has none, stands for no output (`Underway.filed`). The latter holds of the records before
each block too, so that it comes back with them (`Levels`).
-/

namespace CryoNero

open Store

namespace WalletIndexes

variable {s s' : WalletIndexes} {keyImage : KeyImage}

/-- Any output. -/
abbrev Anything (_ : Api.Output) : Prop := True

/-! ## The key image that is none -/

/-- The key image zero stands for none, and is filed nowhere. -/
def NoneFiled (s : WalletIndexes) : Prop := s.get .keyimages 0 = none

theorem NoneFiled.congr (h : NoneFiled s) (hs' : Indexed.Changes (· ≠ .keyimages) s s') : NoneFiled s' :=
  (hs'.get_eq (i := .keyimages) (fun hne ↦ hne rfl) 0).trans h

theorem NoneFiled.of_locks (h : NoneFiled s) (hs' : Indexed.Changes (·.ofLocks = true) s s') : NoneFiled s' :=
  h.congr (hs'.mono fun i hi ↦ by rintro rfl; cases hi)

theorem NoneFiled.addUnspent (h : NoneFiled s) {output : Api.Output} {nooverwrite : Bool}
    (hs' : s.addUnspent output nooverwrite = .ok s') : NoneFiled s' := by
  classical
  rw [NoneFiled, get_keyimages_addUnspent hs', if_neg fun hand ↦ hand.1 hand.2]
  exact h

theorem NoneFiled.removeFromUnspentIndex (h : NoneFiled s) {output : Api.Output}
    (hs' : s.removeFromUnspentIndex output = .ok s') : NoneFiled s' := by
  rw [NoneFiled, removeFromUnspentIndex_cases hs']
  simpa [NoneFiled] using h

theorem NoneFiled.addIncomingOutput (h : NoneFiled s) {output : Api.Output} {justUnlocked : Bool} {n : Amount}
    (hs' : s.addIncomingOutput output justUnlocked = .ok (s', n)) : NoneFiled s' := by
  obtain ⟨-, -, -, -, hlock⟩ | ⟨-, -, -, hadd⟩ | ⟨_, _, s₁, -, -, -, -, -, -, hs₁, hadd⟩ | ⟨_, -, -, rfl, -⟩ :=
    addIncomingOutput_cases hs'
  · exact h.of_locks (changes_addToLockIndex hlock)
  · exact h.addUnspent hadd
  · exact (h.removeFromUnspentIndex hs₁).addUnspent hadd
  · exact h

theorem NoneFiled.unlockOutputs (h : NoneFiled s) {nowHeight : Height} {outputs : List Api.Output}
    (hs' : outputs.foldlM (fun s output ↦ unlockOutput s nowHeight output) s = .ok s') : NoneFiled s' := by
  refine foldlM_ok (fun _ s ↦ NoneFiled s) hs' h fun _ output _ s₁ s₂ _ hs₁ hu ↦ ?_
  obtain ⟨t₁, t₂, n, ht₁, ht₂, rfl⟩ := unlockOutput_cases hu
  have hadded := (hs₁.of_locks (changes_removeFromLockIndex ht₁)).addIncomingOutput ht₂
  exact hadded.congr (.of_put (by simp))

theorem NoneFiled.addIncomingKeyimage (h : NoneFiled s) {blockHeight : Height} {n : Amount}
    (hs' : s.addIncomingKeyimage blockHeight keyImage = .ok (s', n)) : NoneFiled s' := by
  rw [WalletIndexes.addIncomingKeyimage] at hs'
  obtain ⟨found, -, hs'⟩ := bind_eq_ok.mp hs'
  obtain ⟨s₁, hs₁, hs'⟩ := bind_eq_ok.mp hs'
  have h₁ := h.unlockOutputs hs₁
  split at hs'
  · cases hs'
    exact h₁
  · obtain ⟨s₂, hs₂, hs'⟩ := bind_eq_ok.mp hs'
    cases hs'
    exact h₁.removeFromUnspentIndex hs₂

theorem NoneFiled.redoTransaction {env : WalletStateEnv} {keys : WalletKeys} {view : WalletStateView}
    {pwtx : PreparedWalletTransaction} {globalIndices : List UInt32} {isBase : Bool} {tid bid : Hash}
    {blockHeight : Height} {txTimestamp : Timestamp} {p : WalletIndexes × Bool} (h : NoneFiled s)
    (hp : redoTransaction walletState env keys view s pwtx globalIndices isBase tid blockHeight bid
      txTimestamp = .ok p) : NoneFiled p.1 := by
  refine redoTransaction_keeps (M := fun _ s ↦ NoneFiled s) ?_ ?_ ?_ (fun _ _ _ ↦ h) h hp
  · exact fun s output _ s' n hs hs' ↦ hs.addIncomingOutput hs'
  · exact fun s ki s' n hs hs' ↦ hs.addIncomingKeyimage hs'
  · exact fun s ptx s' hs _ hs' ↦ hs.congr
      ((changes_addTransaction hs').mono fun i hi ↦ by rintro rfl; cases hi)

theorem NoneFiled.unlock (h : NoneFiled s) {nowHeight : Height} {now : Timestamp}
    (hs' : s.unlock nowHeight now = .ok s') : NoneFiled s' := by
  obtain ⟨_, _, -, -, hs'⟩ := unlock_cases hs'
  exact h.unlockOutputs hs'

end WalletIndexes

/-! ## Reachable states -/

namespace WalletDb

open WalletIndexes (Filed NoneFiled Anything)

variable {s s' : WalletDb} {blocks : Blocks}

section Block

variable (env : WalletStateEnv) (keys : WalletKeys)

/-- Between two blocks nothing is filed under no key image, nor was it before a block of the chain. -/
def Clean (s : WalletDb) (blocks : Blocks) : Prop :=
  s.Synced blocks ∧ Levels (fun _ indexes ↦ NoneFiled indexes) s.undoStates blocks s.indexes.records

theorem Clean.noneFiled (h : s.Clean blocks) : NoneFiled s.indexes := by
  have hhere := h.2.here
  rwa [← h.1.clean] at hhere

theorem Clean.pushChain (h : s.Clean blocks) {indexes : WalletIndexes} {header : Api.BlockHeader}
    (hrestores : indexes.Restores s.indexes.records)
    (hfiled : Filed (Ready ((s.tipHeight + 1, header) :: blocks)) indexes) (hnone : NoneFiled indexes)
    (hroom : s.tipHeight + 1 < 0xFFFFFFFF)
    (hs' : { s with indexes := indexes }.pushChain header = .ok s') :
    s'.Clean ((s.tipHeight + 1, header) :: blocks) :=
  ⟨h.1.pushChain hrestores hfiled hroom hs', h.2.pushChain h.1 hrestores hnone hs'⟩

theorem Clean.redoBlock (h : s.Clean blocks) {header : Api.BlockHeader} {pb : PreparedWalletBlock}
    {globalIndices : List (List UInt32)} (hs' : s.redoBlock env keys header pb globalIndices = .ok s') :
    NoneFiled s'.indexes := by
  obtain ⟨indexes, rfl, hindexes⟩ := redoBlock_keeps env keys (M := fun _ indexes ↦ NoneFiled indexes)
    (fun _ _ _ _ _ _ _ _ ht hp ↦ ht.redoTransaction hp) (fun _ _ ht hu ↦ ht.unlock hu) h.noneFiled
    h.noneFiled hs'
  exact hindexes

/-- **Step lemma.** -/
theorem Clean.step (h : s.Clean blocks) {genesis : Api.BlockHeader} {e : Event} (hroom : s.Room e)
    (hs' : s.step env keys genesis e = .ok s') : ∃ blocks', s'.Clean blocks' := by
  obtain ⟨hsame, hfiled⟩ := h.1.unchanged
  rcases e with _ | _ | tail | ⟨header, _ | ⟨pb, globalIndices⟩⟩
  · obtain ⟨b, blocks', rfl, hsynced⟩ := h.1.popChain hs'
    obtain ⟨_, _, heq, hlevels⟩ := h.2.popChain h.1 hs'
    cases heq
    exact ⟨blocks', hsynced, hlevels⟩
  · change s.fixEmptyChain genesis = .ok s' at hs'
    rw [fixEmptyChain] at hs'
    split_ifs at hs' with hempty
    · rw [h.1.emptyChain_iff] at hempty
      subst hempty
      have hmoved : { s with tailHeight := 0, tipHeight := 0xFFFFFFFF }.Clean [] :=
        ⟨h.1.move 0 0xFFFFFFFF rfl, h.2⟩
      have hroom : (0xFFFFFFFF + 1 : Height) < 0xFFFFFFFF := by decide
      exact ⟨_, hmoved.pushChain hsame (hfiled _) h.noneFiled hroom hs'⟩
    · cases hs'
      exact ⟨blocks, h⟩
  · change s.resetChain tail = .ok s' at hs'
    rw [resetChain] at hs'
    obtain ⟨_, hempty, hs'⟩ := bind_eq_ok.mp hs'
    cases hs'
    have hnil := h.1.emptyChain_iff.mp (ensure_eq_ok.mp hempty)
    subst hnil
    exact ⟨[], h.1.move tail (tail - 1) (UInt32.sub_add_cancel _ _), h.2⟩
  · exact ⟨_, h.pushChain hsame (hfiled _) h.noneFiled hroom hs'⟩
  · obtain ⟨s₁, hs₁, hs'⟩ := bind_eq_ok.mp hs'
    have hnone := h.redoBlock env keys hs₁
    obtain ⟨indexes, rfl, hprocessed⟩ := h.1.redoBlock env keys hs₁
    exact ⟨_, h.pushChain hprocessed.restores hprocessed.filed hnone hroom hs'⟩

private theorem clean_of_reaches {genesis : Api.BlockHeader}
    (h : Reaches (step env keys genesis) Room (· = {}) s) : ∃ blocks, s.Clean blocks := by
  refine h.invariant (I := fun s ↦ ∃ blocks, s.Clean blocks) ?_ ?_
  · rintro s rfl
    exact ⟨[], synced_empty, (Std.ExtTreeMap.getElem?_empty :
      (∅ : Table KeyImage HeightAmounGi)[(0 : KeyImage)]? = none)⟩
  · rintro s e s' - ⟨blocks, hclean⟩ hroom hs'
    exact hclean.step env keys hroom hs'

/-- The indexes while the transactions of a block are processed, after any of them. -/
inductive Underway (height : Height) (bid : Hash) (txTimestamp : Timestamp) (s : WalletIndexes) :
    WalletIndexes → Prop
  | start : Underway height bid txTimestamp s s
  | redo {indexes : WalletIndexes} {pwtx : PreparedWalletTransaction} {globalIndices : List UInt32}
      {isBase : Bool} {tid : Hash} {p : WalletIndexes × Bool} : Underway height bid txTimestamp s indexes →
      redoTransaction WalletIndexes.walletState env keys indexes.view indexes pwtx globalIndices isBase tid
        height bid txTimestamp = .ok p → Underway height bid txTimestamp s p.1

theorem Underway.filed {genesis : Api.BlockHeader} (h : Reaches (step env keys genesis) Room (· = {}) s)
    {header : Api.BlockHeader} {txTimestamp : Timestamp} {indexes : WalletIndexes}
    (hu : Underway env keys (s.tipHeight + 1) header.hash txTimestamp s.indexes indexes) :
    Filed Anything indexes ∧ NoneFiled indexes := by
  obtain ⟨blocks, hclean⟩ := clean_of_reaches env keys h
  suffices hall : Processing ((s.tipHeight + 1, header) :: blocks) s.indexes.records indexes ∧
      NoneFiled indexes from ⟨hall.1.filed.imp fun _ _ _ _ ↦ trivial, hall.2⟩
  induction hu with
  | start =>
    obtain ⟨hsame, hfiled⟩ := hclean.1.unchanged
    exact ⟨⟨hsame, hfiled _⟩, hclean.noneFiled⟩
  | redo _ hp ih => exact ⟨ih.1.redoTransaction env keys hp, ih.2.redoTransaction hp⟩

end Block

end WalletDb

end CryoNero
