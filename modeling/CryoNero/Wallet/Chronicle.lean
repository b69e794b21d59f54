import CryoNero.Core.WalletHistory
import CryoNero.Wallet.Blocks

/-!
# What the history of a wallet is made of

A transaction that a wallet has recorded is listed under each address that it mentions, at the height of a
block of the chain (`Recorded`). An output that was locked is in one place, among the locked outputs or among
those that were opened, as long as the blocks bring no numbers twice (`OpenedOnce`).

Both are properties of the records at the tip and of those before each block, because a block that is popped
brings the records before it back (`Levels`).
-/

namespace CryoNero

open Store

/-- A transaction has to do with an address; every one has to do with the empty one. -/
def Api.Transaction.Mentions (tx : Api.Transaction) (address : String) : Prop :=
  address = "" ∨ ∃ tr ∈ tx.transfers, tr.address = address

instance (tx : Api.Transaction) (address : String) : Decidable (tx.Mentions address) :=
  inferInstanceAs (Decidable (_ ∨ _))

namespace WalletIndexes

variable {s s' : WalletIndexes} {H : Height → Prop}

/-! ## Recorded transactions -/

structure Recorded (H : Height → Prop) (s : WalletIndexes) : Prop where
  listed : ∀ (address : String) (height : Height) (tid : Hash),
    s.get .addressTransactions (toLex (address, toLex (height, tid))) ≠ none ↔
      ∃ tx ptx, s.get .transactions tid = some (tx, ptx) ∧ ptx.blockHeight = height ∧ ptx.Mentions address
  height : ∀ (tid : Hash) tx ptx, s.get .transactions tid = some (tx, ptx) → H ptx.blockHeight

theorem Recorded.mono {K : Height → Prop} (h : Recorded H s) (hHK : ∀ n, H n → K n) : Recorded K s :=
  ⟨h.listed, fun tid tx ptx hget ↦ hHK _ (h.height tid tx ptx hget)⟩

theorem Recorded.congr (h : Recorded H s) (hs' : Indexed.Changes WalletIndex.OfOutputs s s') :
    Recorded H s' := by
  have htx (tid : Hash) : s'.get .transactions tid = s.get .transactions tid :=
    hs'.get_eq (i := .transactions) nofun tid
  refine ⟨fun address height tid ↦ ?_, fun tid tx ptx hget ↦ ?_⟩
  · rw [hs'.get_eq (i := .addressTransactions) nofun, htx]
    exact h.listed address height tid
  · rw [htx] at hget
    exact h.height tid tx ptx hget

private theorem get_addresses (trs : List Api.Transfer) (t : Table String Unit) (address : String) :
    (trs.foldl (fun t tr ↦ t.insert tr.address ()) t)[address]? ≠ none ↔
      t[address]? ≠ none ∨ ∃ tr ∈ trs, tr.address = address := by
  induction trs generalizing t with
  | nil => simp
  | cons tr trs ih =>
    rw [List.foldl_cons, ih, Table.get_insert, List.exists_mem_cons_iff]
    split_ifs with haddress <;> simp [haddress]

theorem addTransaction_cases {height : Height} {tid : Hash} {tx : TransactionPrefix}
    {ptx : Api.Transaction} (h : s.addTransaction height tid tx ptx = .ok s') :
    s.get .transactions tid = none ∧
      (∀ k, s'.get .transactions k = if tid = k then some (tx, ptx) else s.get .transactions k) ∧
      ∀ (address : String) (n : Height) (k : Hash),
        s'.get .addressTransactions (toLex (address, toLex (n, k))) ≠ none ↔
          s.get .addressTransactions (toLex (address, toLex (n, k))) ≠ none ∨
            n = height ∧ k = tid ∧ ptx.Mentions address := by
  rw [addTransaction] at h
  obtain ⟨s₁, hs₁, h⟩ := bind_eq_ok.mp h
  obtain ⟨hfree, rfl⟩ := putWithUndo_eq_ok.mp hs₁
  dsimp only at h
  set addresses : Table String Unit :=
    ptx.transfers.foldl (fun t tr ↦ t.insert tr.address ()) ((∅ : Table String Unit).insert "" ())
  have hmentions (address : String) : (∃ u, (address, u) ∈ addresses.toList) ↔ ptx.Mentions address := by
    simp only [Table.mem_toList]
    rw [← Option.ne_none_iff_exists', get_addresses, Api.Transaction.Mentions, Table.get_insert]
    split_ifs with hempty
    · simp [hempty]
    · simp [Ne.symm hempty]
  simp only [← hmentions]
  refine ⟨hfree rfl, ?_⟩
  refine foldlM_ok (fun done (s₁ : WalletIndexes) ↦
    (∀ k, s₁.get .transactions k = if tid = k then some (tx, ptx) else s.get .transactions k) ∧
      ∀ (address : String) (n : Height) (k : Hash),
        s₁.get .addressTransactions (toLex (address, toLex (n, k))) ≠ none ↔
          s.get .addressTransactions (toLex (address, toLex (n, k))) ≠ none ∨
            n = height ∧ k = tid ∧ ∃ u, (address, u) ∈ done) h ⟨fun k ↦ Indexed.get_put k, ?_⟩ ?_
  · intro address n k
    rw [Indexed.get_put_of_ne (by decide)]
    simp
  · rintro done addr rest s₁ s₂ - ⟨htx, hlisted⟩ hput
    obtain ⟨-, rfl⟩ := putWithUndo_eq_ok.mp hput
    refine ⟨fun k ↦ by rw [Indexed.get_put_of_ne (by decide), htx], fun address n k ↦ ?_⟩
    rw [Indexed.get_put]
    split_ifs with hkey
    · cases hkey
      simp
    · rw [hlisted]
      refine or_congr_right (and_congr_right fun hn ↦ and_congr_right fun hk ↦ ?_)
      subst hn hk
      refine exists_congr fun u ↦ ?_
      rw [List.mem_append, List.mem_singleton]
      refine ⟨.inl, fun hmem ↦ hmem.resolve_right ?_⟩
      rintro rfl
      exact hkey rfl

/-- A block records a transaction at its height. -/
theorem Recorded.addTransaction (h : Recorded H s) {height : Height} (hH : H height) {tid : Hash}
    {tx : TransactionPrefix} {ptx : Api.Transaction} (hheight : ptx.blockHeight = height)
    (hs' : s.addTransaction height tid tx ptx = .ok s') : Recorded H s' := by
  obtain ⟨hfree, htx, hlisted⟩ := addTransaction_cases hs'
  refine ⟨fun address n k ↦ ?_, fun k tx' ptx' hget ↦ ?_⟩
  · rw [hlisted, h.listed, htx]
    split_ifs with hk
    · subst hk
      rw [hfree]
      constructor
      · rintro (⟨_, _, hnone, -⟩ | ⟨rfl, -, hmentions⟩)
        · cases hnone
        · exact ⟨tx, ptx, rfl, hheight, hmentions⟩
      · rintro ⟨tx', ptx', heq, rfl, hmentions⟩
        cases heq
        exact .inr ⟨hheight, rfl, hmentions⟩
    · exact ⟨fun hor ↦ hor.resolve_right fun hnew ↦ hk hnew.2.1.symm, .inl⟩
  · rw [htx] at hget
    split_ifs at hget with hk
    · cases hget
      rwa [hheight]
    · exact h.height k tx' ptx' hget

/-! ## Outputs that were locked -/

/-- Where an output may be that was locked: among those that were opened, or among those that will open at
a height or at a time. -/
def keptAt (s : WalletIndexes) : Option Bool → HeAmGi → Option Api.Output
  | none, k => s.get .unlocked k
  | some b, k => s.get (.locked b) k

/-- Numbers under which an output was locked. -/
def Knows (s : WalletIndexes) (p : Amount ×ₗ UInt32) : Prop := ∃ x t, s.keptAt x (toLex (t, p)) ≠ none

structure OpenedOnce (s : WalletIndexes) : Prop where
  place : ∀ (p : Amount ×ₗ UInt32) x x' t t', s.keptAt x (toLex (t, p)) ≠ none →
    s.keptAt x' (toLex (t', p)) ≠ none → x = x' ∧ t = t'
  globalIndex : ∀ k o, s.keptAt none k = some o → o.globalIndex = (ofLex (ofLex k).2).2

theorem OpenedOnce.congr (h : OpenedOnce s) (hsame : ∀ x k, s'.keptAt x k = s.keptAt x k) :
    OpenedOnce s' := by
  refine ⟨fun p x x' t t' ↦ ?_, fun k o ↦ ?_⟩
  · rw [hsame, hsame]
    exact h.place p x x' t t'
  · rw [hsame]
    exact h.globalIndex k o

/-- Numbers that get a place and had no other one, or leave it, are in one place. -/
theorem OpenedOnce.move (h : OpenedOnce s) {q : Amount ×ₗ UInt32} (x₀ : Option Bool) (t₀ : UInt32)
    (hplace : ∀ x t p, s'.keptAt x (toLex (t, p)) ≠ none →
      p ≠ q ∧ s.keptAt x (toLex (t, p)) ≠ none ∨ p = q ∧ x = x₀ ∧ t = t₀)
    (hindex : ∀ k o, s'.keptAt none k = some o → o.globalIndex = (ofLex (ofLex k).2).2) :
    OpenedOnce s' ∧ ∀ p, s'.Knows p → s.Knows p ∨ p = q := by
  refine ⟨⟨fun p x x' t t' hx hx' ↦ ?_, hindex⟩, ?_⟩
  · rcases hplace x t p hx with ⟨hne, hx⟩ | ⟨heq, rfl, rfl⟩ <;>
      rcases hplace x' t' p hx' with ⟨hne', hx'⟩ | ⟨heq', rfl, rfl⟩
    · exact h.place p x x' t t' hx hx'
    · exact absurd heq' hne
    · exact absurd heq hne'
    · exact ⟨rfl, rfl⟩
  · rintro p ⟨x, t, hx⟩
    rcases hplace x t p hx with ⟨-, hx⟩ | ⟨heq, -⟩
    · exact .inl ⟨x, t, hx⟩
    · exact .inr heq

private theorem keptAt_addToLockIndex {output : Api.Output} (h : s.addToLockIndex output = .ok s')
    (x : Option Bool) (k : HeAmGi) : s'.keptAt x k =
      if x = some (Currency.isTransactionSpendTimeBlock output.unlockTime) ∧ lockKeyOf output = k then
        some output else s.keptAt x k := by
  obtain ⟨s₁, -, hs₁, hs'⟩ := addToLockIndex_cases h
  have hget (i : WalletIndex) (hi : i ≠ .lockedKeyimages) (k : i.Key) : s'.get i k = s₁.get i k := by
    rw [hs']
    split_ifs
    · exact Indexed.get_put_of_ne hi k
    · rfl
  rcases x with _ | b
  · rw [if_neg (by simp), keptAt, hget .unlocked (by decide), hs₁,
      Indexed.get_put_of_ne (by simp), get_modifyBalance _ _ _ (by decide), keptAt]
  · rw [keptAt, hget (.locked b) (by simp), hs₁]
    by_cases hb : b = Currency.isTransactionSpendTimeBlock output.unlockTime
    · subst hb
      rw [Indexed.get_put, get_modifyBalance _ _ _ (by simp)]
      simp [keptAt]
    · rw [Indexed.get_put_of_ne (by simpa using hb), get_modifyBalance _ _ _ (by simp),
        if_neg (by simp [hb]), keptAt]

private theorem keptAt_removeFromLockIndex {output : Api.Output} (h : s.removeFromLockIndex output = .ok s')
    (x : Option Bool) (k : HeAmGi) : s'.keptAt x k =
      if x = some (Currency.isTransactionSpendTimeBlock output.unlockTime) ∧ lockKeyOf output = k then
        none else s.keptAt x k := by
  obtain ⟨s₁, -, hs₁, hs'⟩ := removeFromLockIndex_cases h
  have hget (i : WalletIndex) (hi : i ≠ .lockedKeyimages) (k : i.Key) : s'.get i k = s₁.get i k := by
    rw [hs']
    split_ifs
    · exact Indexed.get_del_of_ne hi k
    · rfl
  rcases x with _ | b
  · rw [if_neg (by simp), keptAt, hget .unlocked (by decide), hs₁,
      Indexed.get_del_of_ne (by simp), get_modifyBalance _ _ _ (by decide), keptAt]
  · rw [keptAt, hget (.locked b) (by simp), hs₁]
    by_cases hb : b = Currency.isTransactionSpendTimeBlock output.unlockTime
    · subst hb
      rw [Indexed.get_del, get_modifyBalance _ _ _ (by simp)]
      simp [keptAt]
    · rw [Indexed.get_del_of_ne (by simpa using hb), get_modifyBalance _ _ _ (by simp),
        if_neg (by simp [hb]), keptAt]

theorem keptAt_of_changes {I : WalletIndex → Prop} (h : Indexed.Changes I s s') (hun : ¬I .unlocked)
    (hlo : ∀ b, ¬I (.locked b)) (x : Option Bool) (k : HeAmGi) : s'.keptAt x k = s.keptAt x k := by
  rcases x with _ | b
  · exact h.get_eq hun k
  · exact h.get_eq (hlo b) k

theorem OpenedOnce.addIncomingOutput (h : OpenedOnce s) {output : Api.Output}
    (hnew : ¬s.Knows output.numbers) {n : Amount}
    (hs' : s.addIncomingOutput output false = .ok (s', n)) :
    OpenedOnce s' ∧ ∀ p, s'.Knows p → s.Knows p ∨ p = output.numbers := by
  by_cases hopen : output.unlockTime = 0 ∨ false = true
  · have hsame := keptAt_of_changes (changes_addIncomingOutput_unspents hopen hs') nofun nofun
    refine ⟨h.congr hsame, fun p ⟨x, t, hx⟩ ↦ .inl ⟨x, t, ?_⟩⟩
    rwa [← hsame]
  · obtain ⟨-, -, -, -, hs'⟩ | ⟨-, hopen', -⟩ | ⟨_, _, _, -, -, hopen', -⟩ | ⟨_, -, -, rfl, -⟩ :=
      addIncomingOutput_cases hs'
    · have hkept := keptAt_addToLockIndex hs'
      refine h.move (some (Currency.isTransactionSpendTimeBlock output.unlockTime))
        (clampedUnlockTime output.unlockTime) (fun x t p hx ↦ ?_) fun k o ho ↦ ?_
      · by_cases hp : p = output.numbers
        · refine .inr ⟨hp, ?_⟩
          rw [hkept] at hx
          split_ifs at hx with hx₀
          · exact ⟨hx₀.1, (congrArg (fun k : HeAmGi ↦ (ofLex k).1) hx₀.2).symm⟩
          · exact absurd ⟨x, t, hp ▸ hx⟩ hnew
        · refine .inl ⟨hp, ?_⟩
          rwa [hkept, if_neg] at hx
          rintro ⟨-, heq⟩
          exact hp (congrArg (fun k : HeAmGi ↦ (ofLex k).2) heq).symm
      · rw [hkept, if_neg (by simp)] at ho
        exact h.globalIndex k o ho
    · exact absurd hopen' hopen
    · exact absurd hopen' hopen
    · exact ⟨h, fun p hp ↦ .inl hp⟩

/-- An output that opens leaves its place for another one. -/
theorem OpenedOnce.unlockOutput (h : OpenedOnce s) {nowHeight : Height} {output : Api.Output}
    (hs' : s.unlockOutput nowHeight output = .ok s') :
    OpenedOnce s' ∧ ∀ p, s'.Knows p → s.Knows p := by
  obtain ⟨s₁, s₂, n, hs₁, hs₂, hput⟩ := unlockOutput_cases hs'
  obtain ⟨_, hthere, -, -⟩ := removeFromLockIndex_cases hs₁
  have hknown : s.keptAt (some (Currency.isTransactionSpendTimeBlock output.unlockTime))
      (toLex (clampedUnlockTime output.unlockTime, output.numbers)) ≠ none := hthere
  have hkept (x : Option Bool) (k : HeAmGi) : s'.keptAt x k =
      if x = none ∧ toLex (nowHeight, output.numbers) = k then some { output with amount := n }
      else if x = some (Currency.isTransactionSpendTimeBlock output.unlockTime) ∧ lockKeyOf output = k then
        none else s.keptAt x k := by
    rw [← keptAt_removeFromLockIndex hs₁, ← keptAt_of_changes
      (changes_addIncomingOutput_unspents (.inr rfl) hs₂) (by rintro ⟨⟩) (by rintro _ ⟨⟩), hput]
    rcases x with _ | b
    · rw [keptAt, Indexed.get_put]
      simp only [true_and]
      rfl
    · rw [keptAt, Indexed.get_put_of_ne (by simp), if_neg (fun hx ↦ Option.some_ne_none b hx.1), keptAt]
  have hplace (x : Option Bool) (t : UInt32) (p : Amount ×ₗ UInt32)
      (hx : s'.keptAt x (toLex (t, p)) ≠ none) : p ≠ output.numbers ∧ s.keptAt x (toLex (t, p)) ≠ none ∨
        p = output.numbers ∧ x = none ∧ t = nowHeight := by
    rw [hkept] at hx
    split_ifs at hx with hnew hold
    · exact .inr ⟨(congrArg (fun k : HeAmGi ↦ (ofLex k).2) hnew.2).symm, hnew.1,
        (congrArg (fun k : HeAmGi ↦ (ofLex k).1) hnew.2).symm⟩
    · exact absurd rfl hx
    · refine .inl ⟨?_, hx⟩
      rintro rfl
      obtain ⟨rfl, rfl⟩ := h.place _ _ _ _ _ hx hknown
      exact hold ⟨rfl, rfl⟩
  have hindex (k : HeAmGi) (o : Api.Output) (ho : s'.keptAt none k = some o) :
      o.globalIndex = (ofLex (ofLex k).2).2 := by
    rw [hkept] at ho
    split_ifs at ho with hnew hold
    · cases ho
      rw [← hnew.2]
      rfl
    · exact h.globalIndex k o ho
  obtain ⟨honce, hknows⟩ := h.move none nowHeight hplace hindex
  refine ⟨honce, fun p hp ↦ (hknows p hp).elim id ?_⟩
  rintro rfl
  exact ⟨_, _, hknown⟩

theorem OpenedOnce.unlockOutputs (h : OpenedOnce s) {nowHeight : Height} {outputs : List Api.Output}
    (hs' : outputs.foldlM (fun s output ↦ WalletIndexes.unlockOutput s nowHeight output) s = .ok s') :
    OpenedOnce s' ∧ ∀ p, s'.Knows p → s.Knows p := by
  refine foldlM_ok (fun _ s₁ ↦ OpenedOnce s₁ ∧ ∀ p, s₁.Knows p → s.Knows p) hs' ⟨h, fun _ ↦ id⟩ ?_
  rintro _ _ _ s₁ s₂ - ⟨hs₁, hknows⟩ hu
  obtain ⟨hs₂, hknows'⟩ := hs₁.unlockOutput hu
  exact ⟨hs₂, fun p hp ↦ hknows p (hknows' p hp)⟩

theorem OpenedOnce.addIncomingKeyimage (h : OpenedOnce s) {blockHeight : Height} {keyImage : KeyImage}
    {n : Amount} (hs' : s.addIncomingKeyimage blockHeight keyImage = .ok (s', n)) :
    OpenedOnce s' ∧ ∀ p, s'.Knows p → s.Knows p := by
  rw [WalletIndexes.addIncomingKeyimage] at hs'
  obtain ⟨found, -, hs'⟩ := bind_eq_ok.mp hs'
  obtain ⟨s₁, hs₁, hs'⟩ := bind_eq_ok.mp hs'
  have h₁ := h.unlockOutputs hs₁
  split at hs'
  · cases hs'
    exact h₁
  · obtain ⟨s₂, hs₂, hs'⟩ := bind_eq_ok.mp hs'
    cases hs'
    have hsame := keptAt_of_changes (changes_removeFromUnspentIndex hs₂) (by rintro ⟨⟩) (by rintro _ ⟨⟩)
    refine ⟨h₁.1.congr hsame, ?_⟩
    rintro p ⟨x, t, hx⟩
    refine h₁.2 p ⟨x, t, ?_⟩
    rwa [← hsame]

theorem OpenedOnce.unlock (h : OpenedOnce s) {nowHeight : Height} {now : Timestamp}
    (hs' : s.unlock nowHeight now = .ok s') : OpenedOnce s' ∧ ∀ p, s'.Knows p → s.Knows p := by
  obtain ⟨_, _, -, -, hs'⟩ := unlock_cases hs'
  exact h.unlockOutputs hs'

/-- Numbers that a block may still bring: none of them occurs twice, and none is known. -/
structure Fresh (numbers : List (Amount ×ₗ UInt32)) (s : WalletIndexes) : Prop where
  nodup : numbers.Nodup
  unknown : ∀ p ∈ numbers, ¬s.Knows p

theorem Fresh.mono {numbers : List (Amount ×ₗ UInt32)} (h : Fresh numbers s)
    (hknows : ∀ p, s'.Knows p → s.Knows p) : Fresh numbers s' :=
  ⟨h.nodup, fun p hp hk ↦ h.unknown p hp (hknows p hk)⟩

/-- The history while a block is processed that may still bring some numbers. -/
structure Chronicled (H : Height → Prop) (todo : List (Amount ×ₗ UInt32)) (s : WalletIndexes) : Prop where
  recorded : Recorded H s
  once : OpenedOnce s
  fresh : Fresh todo s

theorem Chronicled.addIncomingOutput {todo : List (Amount ×ₗ UInt32)} {output : Api.Output}
    (h : Chronicled H (output.numbers :: todo) s) {n : Amount}
    (hs' : s.addIncomingOutput output false = .ok (s', n)) : Chronicled H todo s' := by
  obtain ⟨hnodup, hunknown⟩ := h.fresh
  rw [List.nodup_cons] at hnodup
  rw [List.forall_mem_cons] at hunknown
  obtain ⟨honce, hknows⟩ := h.once.addIncomingOutput hunknown.1 hs'
  refine ⟨h.recorded.congr ((changes_addIncomingOutput hs').mono fun _ ↦ And.left), honce, hnodup.2, ?_⟩
  intro p hp hk
  rcases hknows p hk with hk | rfl
  · exact hunknown.2 p hp hk
  · exact hnodup.1 hp

/-- **Transaction rule.** -/
theorem Chronicled.redoTransaction {env : WalletStateEnv} {keys : WalletKeys} {view : WalletStateView}
    {pwtx : PreparedWalletTransaction} {globalIndices : List UInt32} {isBase : Bool} {tid bid : Hash}
    {blockHeight : Height} {txTimestamp : Timestamp} {p : WalletIndexes × Bool}
    {todo : List (Amount ×ₗ UInt32)}
    (h : Chronicled H (numbered pwtx.tx.outputs globalIndices ++ todo) s) (hH : H blockHeight)
    (hp : redoTransaction walletState env keys view s pwtx globalIndices isBase tid blockHeight bid
      txTimestamp = .ok p) : Chronicled H todo p.1 := by
  have hless {numbers : List (Amount ×ₗ UInt32)}
      (hsub : numbers.Subperm (numbered pwtx.tx.outputs globalIndices)) :
      Chronicled H (numbers ++ todo) s := by
    obtain ⟨l, hperm, hsub⟩ := hsub
    have hperm := hperm.append_right todo
    have hsub := hsub.append_right todo
    exact ⟨h.recorded, h.once, hperm.nodup_iff.mp (hsub.nodup h.fresh.nodup),
      fun p hp ↦ h.fresh.unknown p (hsub.subset (hperm.mem_iff.mpr hp))⟩
  refine redoTransaction_keeps (M := fun outs s ↦ Chronicled H (outs.map (·.numbers) ++ todo) s)
    ?_ ?_ ?_ ?_ (hless List.nil_subperm) hp
  · exact fun s output _ s' n hs hs' ↦ hs.addIncomingOutput hs'
  · rintro s ki s' n hs hs'
    obtain ⟨honce, hknows⟩ := hs.once.addIncomingKeyimage hs'
    exact ⟨hs.recorded.congr (changes_addIncomingKeyimage hs'), honce, hs.fresh.mono hknows⟩
  · rintro s ptx s' hs hheight hs'
    have hsame := keptAt_of_changes (changes_addTransaction hs') nofun nofun
    refine ⟨hs.recorded.addTransaction hH hheight hs', hs.once.congr hsame, hs.fresh.mono ?_⟩
    rintro p ⟨x, t, hx⟩
    exact ⟨x, t, by rwa [← hsame]⟩
  · exact fun parsed hparsed hours ↦ hless (numbers_ownOutputs_subperm hparsed hours)

end WalletIndexes

/-! ## Runs -/

namespace WalletDb

open WalletIndexes (Filed Recorded OpenedOnce Fresh Chronicled)

variable {s s' : WalletDb} {blocks : Blocks}

/-- A property of the records at the tip, and of those before each block. -/
def Levels (P : Blocks → WalletIndexes → Prop) (undoStates : UndoStates) : Blocks → Records → Prop
  | [], r => P [] (Indexed.ofRecords r)
  | b :: blocks, r =>
    P (b :: blocks) (Indexed.ofRecords r) ∧ Levels P undoStates blocks (before undoStates b.1 r)

variable {P : Blocks → WalletIndexes → Prop}

theorem Levels.here {undoStates : UndoStates} {r : Records} (h : Levels P undoStates blocks r) :
    P blocks (Indexed.ofRecords r) := by
  cases blocks with
  | nil => exact h
  | cons b blocks => exact h.1

theorem Levels.congr {undoStates undoStates' : UndoStates} {r : Records}
    (h : Levels P undoStates blocks r) (hsame : ∀ b ∈ blocks, undoStates'[b.1]? = undoStates[b.1]?) :
    Levels P undoStates' blocks r := by
  induction blocks generalizing r with
  | nil => exact h
  | cons b blocks ih =>
    rw [List.forall_mem_cons] at hsame
    refine ⟨h.1, ?_⟩
    rw [before, hsame.1, ← before]
    exact ih h.2 hsame.2

theorem Levels.pushChain (h : Levels P s.undoStates blocks s.indexes.records) (hs : s.Synced blocks)
    {indexes : WalletIndexes} {header : Api.BlockHeader} (hrestores : indexes.Restores s.indexes.records)
    (hP : P ((s.tipHeight + 1, header) :: blocks) (Indexed.ofRecords indexes.records))
    (hs' : { s with indexes := indexes }.pushChain header = .ok s') :
    Levels P s'.undoStates ((s.tipHeight + 1, header) :: blocks) s'.indexes.records := by
  obtain ⟨hget, hbefore⟩ := hs.before_pushChain hrestores hs'
  obtain ⟨undoStates, -, rfl, -⟩ := pushChain_cases hs'
  refine ⟨hP, ?_⟩
  rw [Indexed.records_ofRecords, hbefore]
  exact h.congr fun b hb ↦ hget b.1 (hs.next_ne hb)

theorem Levels.popChain (h : Levels P s.undoStates blocks s.indexes.records) (hs : s.Synced blocks)
    (hs' : s.popChain = .ok s') :
    ∃ b blocks', blocks = b :: blocks' ∧ Levels P s'.undoStates blocks' s'.indexes.records := by
  classical
  obtain ⟨b, blocks', tip, rfl, hheight, hother, rfl⟩ := hs.popChain_cases hs'
  refine ⟨b, blocks', rfl, ?_⟩
  rw [Indexed.records_ofRecords, ← hheight]
  refine h.2.congr fun b' hb' ↦ ?_
  rw [hheight, Table.get_erase_of_ne _ (hother b' hb')]

/-- Heights of blocks. -/
def HeightIn (blocks : Blocks) (height : Height) : Prop := ∃ b ∈ blocks, b.1 = height

/-- The history that a chain leaves behind. -/
def Chronicle (blocks : Blocks) (indexes : WalletIndexes) : Prop := Chronicled (HeightIn blocks) [] indexes

/-- Between two blocks, the history of the chain and of each part of it that is below some block. The
headers have the heights that they are stored under. -/
structure Filled (s : WalletDb) (blocks : Blocks) : Prop where
  synced : s.Synced blocks
  heights : ∀ b ∈ blocks, b.2.height = b.1
  levels : Levels Chronicle s.undoStates blocks s.indexes.records

theorem Filled.chronicle (h : s.Filled blocks) : Chronicle blocks s.indexes := by
  have hhere := h.levels.here
  rwa [← h.synced.clean] at hhere

private theorem chronicled_cons {todo : List (Amount ×ₗ UInt32)} {indexes : WalletIndexes}
    (h : Chronicled (HeightIn blocks) todo indexes) (b : Height × Api.BlockHeader) :
    Chronicled (HeightIn (b :: blocks)) todo indexes :=
  ⟨h.recorded.mono fun _ ⟨b', hb', heq⟩ ↦ ⟨b', List.mem_cons_of_mem _ hb', heq⟩, h.once, h.fresh⟩

private theorem chronicled_ofRecords {H : Height → Prop} {todo : List (Amount ×ₗ UInt32)}
    {indexes : WalletIndexes}
    (h : Chronicled H todo indexes) : Chronicled H todo (Indexed.ofRecords indexes.records) := by
  have hsame (x : Option Bool) (k : HeAmGi) :
      WalletIndexes.keptAt (Indexed.ofRecords indexes.records) x k = indexes.keptAt x k := by
    rcases x with _ | b <;> rfl
  exact ⟨⟨h.recorded.listed, h.recorded.height⟩, h.once.congr hsame, h.fresh.mono fun p ⟨x, t, hx⟩ ↦
    ⟨x, t, by rwa [← hsame]⟩⟩

/-- What a node promises about a block: its header has its height, and the numbers of its outputs are
new. -/
def Honest (s : WalletDb) : Event → Prop
  | .block header transactions => s.tipHeight + 1 < 0xFFFFFFFF ∧ header.height = s.tipHeight + 1 ∧
      ∀ p ∈ transactions, Fresh (blockNumbers p.1 p.2) s.indexes
  | _ => True

theorem Honest.room {e : Event} (h : s.Honest e) : s.Room e := by
  cases e with
  | block header transactions => exact h.1
  | _ => trivial

section Block

variable (env : WalletStateEnv) (keys : WalletKeys)

theorem Filled.redoBlock (h : s.Filled blocks) {header : Api.BlockHeader} {pb : PreparedWalletBlock}
    {globalIndices : List (List UInt32)} (hfresh : Fresh (blockNumbers pb globalIndices) s.indexes)
    (hs' : s.redoBlock env keys header pb globalIndices = .ok s') :
    Chronicle ((s.tipHeight + 1, header) :: blocks) s'.indexes := by
  have hstart := chronicled_cons h.chronicle (s.tipHeight + 1, header)
  have hnew : HeightIn ((s.tipHeight + 1, header) :: blocks) (s.tipHeight + 1) :=
    ⟨_, List.mem_cons_self, rfl⟩
  have hunlock (indexes indexes' : WalletIndexes)
      (ht : Chronicled (HeightIn ((s.tipHeight + 1, header) :: blocks)) [] indexes)
      (hu : indexes.unlock (s.tipHeight + 1) header.timestampMedian = .ok indexes') :
      Chronicled (HeightIn ((s.tipHeight + 1, header) :: blocks)) [] indexes' := by
    obtain ⟨honce, hknows⟩ := ht.once.unlock hu
    exact ⟨ht.recorded.congr (WalletIndexes.changes_unlock hu), honce, ht.fresh.mono hknows⟩
  obtain ⟨indexes, rfl, hindexes⟩ := redoBlock_keeps env keys
    (fun indexes view pwtx gis isBase tid p todo ht hp ↦ ht.redoTransaction hnew hp) hunlock
    ⟨hstart.recorded, hstart.once, hfresh⟩ hstart hs'
  exact hindexes

theorem Filled.pushChain (h : s.Filled blocks) {indexes : WalletIndexes} {header : Api.BlockHeader}
    (hrestores : indexes.Restores s.indexes.records)
    (hfiled : Filed (Ready ((s.tipHeight + 1, header) :: blocks)) indexes)
    (hchronicle : Chronicle ((s.tipHeight + 1, header) :: blocks) indexes)
    (hroom : s.tipHeight + 1 < 0xFFFFFFFF) (hheight : header.height = s.tipHeight + 1)
    (hs' : { s with indexes := indexes }.pushChain header = .ok s') :
    s'.Filled ((s.tipHeight + 1, header) :: blocks) where
  synced := h.synced.pushChain hrestores hfiled hroom hs'
  heights := List.forall_mem_cons.mpr ⟨hheight, h.heights⟩
  levels := h.levels.pushChain h.synced hrestores (chronicled_ofRecords hchronicle) hs'

/-- **Step lemma.** -/
theorem Filled.step (h : s.Filled blocks) {genesis : Api.BlockHeader} (hgenesis : genesis.height = 0)
    {e : Event} (hhonest : s.Honest e) (hs' : s.step env keys genesis e = .ok s') :
    ∃ blocks', s'.Filled blocks' := by
  obtain ⟨hsame, hfiled⟩ := h.synced.unchanged
  have hold (b : Height × Api.BlockHeader) : Chronicle (b :: blocks) s.indexes :=
    chronicled_cons h.chronicle b
  rcases e with _ | _ | tail | ⟨header, _ | ⟨pb, globalIndices⟩⟩
  · obtain ⟨b, blocks', rfl, hsynced⟩ := h.synced.popChain hs'
    obtain ⟨_, _, heq, hlevels⟩ := h.levels.popChain h.synced hs'
    cases heq
    exact ⟨blocks', hsynced, fun b' hb' ↦ h.heights b' (List.mem_cons_of_mem _ hb'), hlevels⟩
  · change s.fixEmptyChain genesis = .ok s' at hs'
    rw [fixEmptyChain] at hs'
    split_ifs at hs' with hempty
    · rw [h.synced.emptyChain_iff] at hempty
      subst hempty
      have hmoved : { s with tailHeight := 0, tipHeight := 0xFFFFFFFF }.Filled [] :=
        ⟨h.synced.move 0 0xFFFFFFFF rfl, List.forall_mem_nil _, h.levels⟩
      have hroom : (0xFFFFFFFF + 1 : Height) < 0xFFFFFFFF := by decide
      have hheight : genesis.height = (0xFFFFFFFF + 1 : Height) := hgenesis
      exact ⟨_, hmoved.pushChain hsame (hfiled _) (hold _) hroom hheight hs'⟩
    · cases hs'
      exact ⟨blocks, h⟩
  · change s.resetChain tail = .ok s' at hs'
    rw [resetChain] at hs'
    obtain ⟨_, hempty, hs'⟩ := bind_eq_ok.mp hs'
    cases hs'
    have hnil := h.synced.emptyChain_iff.mp (ensure_eq_ok.mp hempty)
    subst hnil
    exact ⟨[], h.synced.move tail (tail - 1) (UInt32.sub_add_cancel _ _), List.forall_mem_nil _, h.levels⟩
  · exact ⟨_, h.pushChain hsame (hfiled _) (hold _) hhonest.1 hhonest.2.1 hs'⟩
  · obtain ⟨s₁, hs₁, hs'⟩ := bind_eq_ok.mp hs'
    have hchronicle := h.redoBlock env keys (hhonest.2.2 _ rfl) hs₁
    obtain ⟨indexes, rfl, hprocessed⟩ := h.synced.redoBlock env keys hs₁
    exact ⟨_, h.pushChain hprocessed.restores hprocessed.filed hchronicle hhonest.1 hhonest.2.1 hs'⟩

/-- **Run lemma.** A wallet that follows an honest node has the history of a chain. -/
theorem filled_of_reaches {genesis : Api.BlockHeader} (hgenesis : genesis.height = 0)
    (h : Reaches (step env keys genesis) Honest (· = {}) s) : ∃ blocks, s.Filled blocks := by
  refine h.invariant (I := fun s ↦ ∃ blocks, s.Filled blocks) ?_ ?_
  · rintro s rfl
    have hnone (i : WalletIndex) (k : i.Key) : Indexed.get ({} : WalletIndexes) i k = none :=
      Std.ExtTreeMap.getElem?_empty
    have hkept (x : Option Bool) (k : HeAmGi) : WalletIndexes.keptAt {} x k = none := by
      rcases x with _ | b
      · exact hnone .unlocked k
      · exact hnone (.locked b) k
    refine ⟨[], synced_empty, nofun, ⟨fun address n tid ↦ ?_, fun tid tx ptx hget ↦ ?_⟩,
      ⟨fun p x x' t t' hx ↦ absurd (hkept x _) hx, fun k o ho ↦ ?_⟩, List.nodup_nil, nofun⟩
    · refine ⟨fun hne ↦ absurd (hnone .addressTransactions _) hne, fun ⟨_, _, hget, _⟩ ↦ ?_⟩
      cases (hnone .transactions tid).symm.trans hget
    · cases (hnone .transactions tid).symm.trans hget
    · cases (hkept none k).symm.trans ho
  · rintro s e s' - ⟨blocks, hfilled⟩ hhonest hs'
    exact hfilled.step env keys hgenesis hhonest hs'

end Block

end WalletDb

end CryoNero
