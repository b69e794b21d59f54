import CryoNero.Wallet.Changes

/-!
# The indexes of a wallet belong together

Every output is filed under its own numbers, the index by address has the same outputs as the index of
unspent outputs, a key image stands for the unspent output that has it, and the index of locked key
images leads to the locked outputs. This is `Filed`, and every operation keeps it.

A property of all unspent outputs is carried along. An output gets among them in three ways: it was
never locked, it was opened by its lock, or a key image that spends it has opened it. In the last case
it is gone before the operation ends, because its key image stands for it (`Filed.addIncomingKeyimage`).
-/

namespace CryoNero.WalletIndexes

open Store

variable {s s' : WalletIndexes}

/-! ## Order in the indexes -/

/-- The indexes belong together, and all unspent outputs have a property. -/
structure Filed (P : Api.Output → Prop) (s : WalletIndexes) : Prop where
  unspents : ∀ k o, s.get .unspents k = some o →
    k = o.heightAmounGi.key ∧ o.dust = Currency.isDust o.amount ∧ P o
  addressUnspents : ∀ k, s.get .addressUnspents k = some () ↔
    ∃ o, s.get .unspents (ofLex k).2 = some o ∧ o.address = (ofLex k).1
  keyimages : ∀ k o, s.get .unspents k = some o → o.keyImage ≠ 0 →
    s.get .keyimages o.keyImage = some o.heightAmounGi
  locked : ∀ b k o, s.get (.locked b) k = some o →
    Currency.isTransactionSpendTimeBlock o.unlockTime = b ∧ k = lockKeyOf o ∧
      o.dust = Currency.isDust o.amount
  lockedKeyimages : ∀ k u, s.get .lockedKeyimages k = some u → (ofLex k).1 ≠ 0 ∧
    ∃ o, s.get (.locked (Currency.isTransactionSpendTimeBlock u))
      (toLex (clampedUnlockTime u, (ofLex k).2)) = some o ∧ o.keyImage = (ofLex k).1

variable {P Q : Api.Output → Prop}

theorem Filed.imp (h : Filed P s) (hPQ : ∀ k o, s.get .unspents k = some o → P o → Q o) : Filed Q s where
  unspents k o ho := ⟨(h.unspents k o ho).1, (h.unspents k o ho).2.1, hPQ k o ho (h.unspents k o ho).2.2⟩
  addressUnspents := h.addressUnspents
  keyimages := h.keyimages
  locked := h.locked
  lockedKeyimages := h.lockedKeyimages

/-- The indexes that `Filed` speaks about. -/
theorem Filed.congr (h : Filed P s) (hsame : ∀ i : WalletIndex, i ≠ .balances → i ≠ .unlocked →
    i ≠ .transactions → i ≠ .addressTransactions → ∀ k, s'.get i k = s.get i k) : Filed P s' := by
  have hun := hsame .unspents nofun nofun nofun nofun
  have had := hsame .addressUnspents nofun nofun nofun nofun
  have hki := hsame .keyimages nofun nofun nofun nofun
  have hlo (b : Bool) := hsame (.locked b) nofun nofun nofun nofun
  have hli := hsame .lockedKeyimages nofun nofun nofun nofun
  refine ⟨fun k o ↦ ?_, fun k ↦ ?_, fun k o ↦ ?_, fun b k o ↦ ?_, fun k u ↦ ?_⟩
  · rw [hun]
    exact h.unspents k o
  · rw [had]
    simp only [hun]
    exact h.addressUnspents k
  · rw [hun, hki]
    exact h.keyimages k o
  · rw [hlo]
    exact h.locked b k o
  · rw [hli, hlo]
    exact h.lockedKeyimages k u

/-- Among the locked outputs only the new one is different. -/
theorem get_locked_addToLockIndex {output : Api.Output} (hs' : s.addToLockIndex output = .ok s') (b : Bool)
    (k : HeAmGi) [Decidable (lockKeyOf output = k)] : s'.get (.locked b) k =
      if b = Currency.isTransactionSpendTimeBlock output.unlockTime ∧ lockKeyOf output = k then some output
      else s.get (.locked b) k := by
  classical
  obtain ⟨s₁, -, hs₁, hs'⟩ := addToLockIndex_cases hs'
  have hs₁lo : s'.get (.locked b) k = s₁.get (.locked b) k := by
    rw [hs']
    split_ifs <;> simp
  rw [hs₁lo, hs₁]
  by_cases hb : b = Currency.isTransactionSpendTimeBlock output.unlockTime
  · subst hb
    rw [Indexed.get_put]
    simp
  · simp [hb]

theorem get_lockedKeyimages_addToLockIndex {output : Api.Output} (hs' : s.addToLockIndex output = .ok s')
    (k : KeyImage ×ₗ Amount ×ₗ UInt32) [Decidable (lockKeyimageKey output = k)] :
    s'.get .lockedKeyimages k =
      if output.keyImage ≠ 0 ∧ lockKeyimageKey output = k then some output.unlockTime
      else s.get .lockedKeyimages k := by
  classical
  obtain ⟨s₁, -, hs₁, hs'⟩ := addToLockIndex_cases hs'
  have hs₁li : s₁.get .lockedKeyimages k = s.get .lockedKeyimages k := by simp [hs₁]
  rw [hs']
  by_cases hki : output.keyImage ≠ 0
  · rw [if_pos hki, Indexed.get_put, hs₁li]
    simp only [hki, ne_eq, not_false_eq_true, true_and]
    congr
  · rw [if_neg hki, hs₁li, if_neg fun hand ↦ hki hand.1]

theorem get_of_changes_locks (h : Indexed.Changes (·.ofLocks = true) s s') {i : WalletIndex}
    (hi : i = .unspents ∨ i = .addressUnspents ∨ i = .keyimages) (k : i.Key) : s'.get i k = s.get i k := by
  refine h.get_eq ?_ k
  rcases hi with rfl | rfl | rfl <;> exact Bool.false_ne_true

theorem get_of_changes_unspents (h : Indexed.Changes (·.ofUnspents = true) s s') {i : WalletIndex}
    (hi : i = .lockedKeyimages ∨ ∃ b, i = .locked b) (k : i.Key) : s'.get i k = s.get i k := by
  refine h.get_eq ?_ k
  rcases hi with rfl | ⟨b, rfl⟩ <;> exact Bool.false_ne_true

theorem Filed.addToLockIndex (h : Filed P s) {output : Api.Output}
    (hflag : output.dust = Currency.isDust output.amount) (hs' : s.addToLockIndex output = .ok s') :
    Filed P s' := by
  classical
  have hlo (b : Bool) (k : HeAmGi) := get_locked_addToLockIndex hs' b k
  have hli (k : KeyImage ×ₗ Amount ×ₗ UInt32) := get_lockedKeyimages_addToLockIndex hs' k
  have hrest (i : WalletIndex) (hi : i = .unspents ∨ i = .addressUnspents ∨ i = .keyimages) (k : i.Key) :
      s'.get i k = s.get i k := get_of_changes_locks (changes_addToLockIndex hs') hi k
  have hfree (b : Bool) (k : HeAmGi) (hb : b = Currency.isTransactionSpendTimeBlock output.unlockTime)
      (hk : lockKeyOf output = k) : s.get (.locked b) k = none := by
    subst hb hk
    obtain ⟨_, hfree, -⟩ := addToLockIndex_cases hs'
    exact hfree
  refine ⟨fun k o ↦ ?_, fun k ↦ ?_, fun k o ↦ ?_, fun b k o ↦ ?_, fun k u ↦ ?_⟩
  · rw [hrest .unspents (by simp)]
    exact h.unspents k o
  · rw [hrest .addressUnspents (by simp)]
    simp only [hrest .unspents (by simp)]
    exact h.addressUnspents k
  · rw [hrest .unspents (by simp), hrest .keyimages (by simp)]
    exact h.keyimages k o
  · rw [hlo]
    split_ifs with hnew
    · rintro ⟨⟩
      exact ⟨hnew.1.symm, hnew.2.symm, hflag⟩
    · exact h.locked b k o
  · rw [hli, hlo]
    split_ifs with hnew hkey hkey
    · rintro ⟨⟩
      rw [← hnew.2]
      exact ⟨hnew.1, output, rfl, rfl⟩
    · rintro ⟨⟩
      refine absurd ⟨rfl, ?_⟩ hkey
      rw [← hnew.2]
      rfl
    · intro hu
      obtain ⟨-, o, ho, -⟩ := h.lockedKeyimages k u hu
      rw [hfree _ _ hkey.1 hkey.2] at ho
      cases ho
    · exact h.lockedKeyimages k u

theorem get_locked_removeFromLockIndex {output : Api.Output} (hs' : s.removeFromLockIndex output = .ok s')
    (b : Bool) (k : HeAmGi) [Decidable (lockKeyOf output = k)] : s'.get (.locked b) k =
      if b = Currency.isTransactionSpendTimeBlock output.unlockTime ∧ lockKeyOf output = k then none
      else s.get (.locked b) k := by
  classical
  obtain ⟨s₁, -, hs₁, hs'⟩ := removeFromLockIndex_cases hs'
  have hs₁lo : s'.get (.locked b) k = s₁.get (.locked b) k := by
    rw [hs']
    split_ifs <;> simp
  rw [hs₁lo, hs₁]
  by_cases hb : b = Currency.isTransactionSpendTimeBlock output.unlockTime
  · subst hb
    rw [Indexed.get_del]
    simp
  · simp [hb]

theorem get_lockedKeyimages_removeFromLockIndex {output : Api.Output}
    (hs' : s.removeFromLockIndex output = .ok s') (k : KeyImage ×ₗ Amount ×ₗ UInt32)
    [Decidable (lockKeyimageKey output = k)] : s'.get .lockedKeyimages k =
      if output.keyImage ≠ 0 ∧ lockKeyimageKey output = k then none else s.get .lockedKeyimages k := by
  classical
  obtain ⟨s₁, -, hs₁, hs'⟩ := removeFromLockIndex_cases hs'
  have hs₁li : s₁.get .lockedKeyimages k = s.get .lockedKeyimages k := by simp [hs₁]
  rw [hs']
  by_cases hki : output.keyImage ≠ 0
  · rw [if_pos hki, Indexed.get_del, hs₁li]
    simp only [hki, ne_eq, not_false_eq_true, true_and]
    congr
  · rw [if_neg hki, hs₁li, if_neg fun hand ↦ hki hand.1]

/-- What is taken out of a lock index is what is filed there. -/
theorem Filed.removeFromLockIndex (h : Filed P s) {output : Api.Output}
    (hget : s.get (lockIndex output) (lockKeyOf output) = some output)
    (hs' : s.removeFromLockIndex output = .ok s') :
    Filed P s' ∧ ∀ b k, lockKeyOf output ≠ k → s'.get (.locked b) k = s.get (.locked b) k := by
  classical
  have hlo (b : Bool) (k : HeAmGi) := get_locked_removeFromLockIndex hs' b k
  have hli (k : KeyImage ×ₗ Amount ×ₗ UInt32) := get_lockedKeyimages_removeFromLockIndex hs' k
  have hrest (i : WalletIndex) (hi : i = .unspents ∨ i = .addressUnspents ∨ i = .keyimages) (k : i.Key) :
      s'.get i k = s.get i k := get_of_changes_locks (changes_removeFromLockIndex hs') hi k
  have hget' (b : Bool) (k : HeAmGi) (hb : b = Currency.isTransactionSpendTimeBlock output.unlockTime)
      (hk : lockKeyOf output = k) : s.get (.locked b) k = some output := by
    subst hb hk
    exact hget
  refine ⟨⟨fun k o ↦ ?_, fun k ↦ ?_, fun k o ↦ ?_, fun b k o ↦ ?_, fun k u ↦ ?_⟩, fun b k hk ↦ ?_⟩
  · rw [hrest .unspents (by simp)]
    exact h.unspents k o
  · rw [hrest .addressUnspents (by simp)]
    simp only [hrest .unspents (by simp)]
    exact h.addressUnspents k
  · rw [hrest .unspents (by simp), hrest .keyimages (by simp)]
    exact h.keyimages k o
  · rw [hlo]
    split_ifs
    · rintro ⟨⟩
    · exact h.locked b k o
  · rw [hli, hlo]
    split_ifs with hold hkey hkey
    · rintro ⟨⟩
    · rintro ⟨⟩
    · -- an entry that leads to the output is the one that was removed
      intro hu
      obtain ⟨hki, o, ho, hoki⟩ := h.lockedKeyimages k u hu
      rw [hget' _ _ hkey.1 hkey.2, Option.some.injEq] at ho
      subst ho
      refine absurd ⟨hoki ▸ hki, ?_⟩ hold
      exact Prod.ext hoki (congrArg (fun x : HeAmGi ↦ (ofLex x).2) hkey.2)
    · exact h.lockedKeyimages k u
  · rw [hlo, if_neg fun hand ↦ hk hand.2]

theorem get_addUnspent {output : Api.Output} {nooverwrite : Bool}
    (hs' : s.addUnspent output nooverwrite = .ok s') (k : HeAmGi) [Decidable (output.heightAmounGi.key = k)] :
    s'.get .unspents k = if output.heightAmounGi.key = k then some output else s.get .unspents k := by
  classical
  obtain ⟨s₁, -, hs₁, hs'⟩ := addUnspent_cases hs'
  have hun : s'.get .unspents k = s₁.get .unspents k := by
    rw [hs']
    split_ifs <;> simp
  rw [hun, hs₁, Indexed.get_put_of_ne (by simp), Indexed.get_put, get_modifyBalance _ _ _ (by simp)]
  congr

theorem get_keyimages_addUnspent {output : Api.Output} {nooverwrite : Bool}
    (hs' : s.addUnspent output nooverwrite = .ok s') (k : KeyImage) [Decidable (output.keyImage = k)] :
    s'.get .keyimages k =
      if output.keyImage ≠ 0 ∧ output.keyImage = k then some output.heightAmounGi
      else s.get .keyimages k := by
  classical
  obtain ⟨s₁, -, hs₁, hs'⟩ := addUnspent_cases hs'
  have hs₁ki : s₁.get .keyimages k = s.get .keyimages k := by simp [hs₁]
  rw [hs']
  by_cases hzero : output.keyImage = 0
  · rw [if_pos hzero, hs₁ki, if_neg fun hand ↦ hand.1 hzero]
  · rw [if_neg hzero, Indexed.get_put, hs₁ki]
    simp only [ne_eq, hzero, not_false_eq_true, true_and]
    congr

/-- An output that can be spent, when no other unspent output has its key image. -/
theorem Filed.addUnspent (h : Filed P s) {output : Api.Output} {nooverwrite : Bool}
    (hflag : output.dust = Currency.isDust output.amount) (hP : P output)
    (halone : output.keyImage ≠ 0 → ∀ k o, s.get .unspents k = some o → o.keyImage ≠ output.keyImage)
    (hs' : s.addUnspent output nooverwrite = .ok s') : Filed P s' := by
  classical
  have hun := get_addUnspent hs'
  have hki (ki : KeyImage) := get_keyimages_addUnspent hs' ki
  have hrest (i : WalletIndex) (hi : i = .lockedKeyimages ∨ ∃ b, i = .locked b) (k : i.Key) :
      s'.get i k = s.get i k := get_of_changes_unspents (changes_addUnspent hs') hi k
  obtain ⟨s₁, hfree, hs₁, hs'⟩ := addUnspent_cases hs'
  have had (k : String ×ₗ HeAmGi) : s'.get .addressUnspents k =
      if addressKey output = k then some () else s.get .addressUnspents k := by
    have hs₁ad : s'.get .addressUnspents k = s₁.get .addressUnspents k := by
      rw [hs']
      split_ifs <;> simp
    rw [hs₁ad, hs₁, Indexed.get_put]
    simp
  refine ⟨fun k o ↦ ?_, fun k ↦ ?_, fun k o ↦ ?_, fun b k o ↦ ?_, fun k u ↦ ?_⟩
  · rw [hun]
    split_ifs with hk
    · rintro ⟨⟩
      exact ⟨hk.symm, hflag, hP⟩
    · exact h.unspents k o
  · rw [had]
    split_ifs with hk
    · refine ⟨fun _ ↦ ⟨output, ?_, ?_⟩, fun _ ↦ rfl⟩
      · rw [hun, ← hk]
        exact if_pos rfl
      · rw [← hk]
        rfl
    · rw [h.addressUnspents]
      refine exists_congr fun o ↦ ?_
      rw [hun]
      split_ifs with hkey
      · -- the place was free, and the address is another one
        rw [← hkey, hfree]
        refine ⟨fun ho ↦ absurd ho.1 (by simp), fun ho ↦ absurd ?_ hk⟩
        rw [← Option.some.inj ho.1] at ho
        exact Prod.ext ho.2 hkey
      · exact Iff.rfl
  · rw [hun, hki]
    split_ifs with hk hkimage hkimage
    · rintro ⟨⟩ -
      rfl
    · rintro ⟨⟩ hzero
      exact absurd ⟨hzero, rfl⟩ hkimage
    · intro ho
      exact absurd hkimage.2.symm (halone hkimage.1 k o ho)
    · exact h.keyimages k o
  · rw [hrest (.locked b) (.inr ⟨b, rfl⟩)]
    exact h.locked b k o
  · rw [hrest .lockedKeyimages (.inl rfl)]
    simp only [hrest (.locked _) (.inr ⟨_, rfl⟩)]
    exact h.lockedKeyimages k u

theorem get_removeFromUnspentIndex {output : Api.Output} (hs' : s.removeFromUnspentIndex output = .ok s')
    (k : HeAmGi) [Decidable (output.heightAmounGi.key = k)] :
    s'.get .unspents k = if output.heightAmounGi.key = k then none else s.get .unspents k := by
  classical
  rw [removeFromUnspentIndex_cases hs', Indexed.get_del_of_ne (by simp), Indexed.get_del]
  simp

theorem Filed.removeFromUnspentIndex (h : Filed P s) {output : Api.Output}
    (hget : s.get .unspents output.heightAmounGi.key = some output)
    (hs' : s.removeFromUnspentIndex output = .ok s') :
    Filed P s' ∧ ∀ k o, s'.get .unspents k = some o →
      output.heightAmounGi.key ≠ k ∧ s.get .unspents k = some o := by
  classical
  have hun (k : HeAmGi) := get_removeFromUnspentIndex hs' k
  have hrest (i : WalletIndex) (hi : i = .keyimages ∨ i = .lockedKeyimages ∨ ∃ b, i = .locked b)
      (k : i.Key) : s'.get i k = s.get i k := by
    rw [removeFromUnspentIndex_cases hs']
    rcases hi with rfl | rfl | ⟨b, rfl⟩ <;> simp
  have hs' := removeFromUnspentIndex_cases hs'
  have had (k : String ×ₗ HeAmGi) : s'.get .addressUnspents k =
      if addressKey output = k then none else s.get .addressUnspents k := by
    rw [hs', Indexed.get_del]
    simp
  refine ⟨⟨fun k o ↦ ?_, fun k ↦ ?_, fun k o ↦ ?_, fun b k o ↦ ?_, fun k u ↦ ?_⟩, fun k o ↦ ?_⟩
  · rw [hun]
    split_ifs
    · rintro ⟨⟩
    · exact h.unspents k o
  · rw [had]
    split_ifs with hk
    · refine ⟨fun hnone ↦ by simp at hnone, ?_⟩
      rintro ⟨o, ho, -⟩
      rw [hun, ← hk] at ho
      exact absurd (ho.symm.trans (if_pos rfl)) (by simp)
    · rw [h.addressUnspents]
      refine exists_congr fun o ↦ ?_
      rw [hun]
      split_ifs with hkey
      · rw [← hkey, hget]
        refine ⟨fun ho ↦ absurd ?_ hk, fun ho ↦ absurd ho.1 (by simp)⟩
        rw [← Option.some.inj ho.1] at ho
        exact Prod.ext ho.2 hkey
      · exact Iff.rfl
  · rw [hun, hrest .keyimages (by simp)]
    split_ifs
    · rintro ⟨⟩
    · exact h.keyimages k o
  · rw [hrest (.locked b) (by simp)]
    exact h.locked b k o
  · rw [hrest .lockedKeyimages (by simp)]
    simp only [hrest (.locked _) (by simp)]
    exact h.lockedKeyimages k u
  · rw [hun]
    split_ifs with hk
    · rintro ⟨⟩
    · exact fun ho ↦ ⟨hk, ho⟩

/-! ## Incoming outputs -/

theorem Filed.get_existing (h : Filed P s) {heamgi : HeightAmounGi} {existing : Api.Output}
    (hex : s.readFromUnspentIndex heamgi = some existing) :
    heamgi.key = existing.heightAmounGi.key ∧
      s.get .unspents existing.heightAmounGi.key = some existing := by
  have hkey := (h.unspents _ _ hex).1
  exact ⟨hkey, hkey ▸ hex⟩

private theorem Filed.alone (h : Filed P s) {keyImage : KeyImage} {heamgi : HeightAmounGi}
    {existing : Api.Output} (hki : s.readByKeyimage keyImage = some heamgi)
    (hex : s.readFromUnspentIndex heamgi = some existing)
    (hs' : s.removeFromUnspentIndex existing = .ok s') (hzero : keyImage ≠ 0) (k : HeAmGi)
    (o : Api.Output) (ho : s'.get .unspents k = some o) : o.keyImage ≠ keyImage := by
  intro hsame
  obtain ⟨hkey, hget⟩ := h.get_existing hex
  obtain ⟨hne, ho⟩ := (h.removeFromUnspentIndex hget hs').2 k o ho
  have hstands := h.keyimages k o ho (hsame ▸ hzero)
  rw [hsame] at hstands
  have hheamgi := Option.some.inj (hki.symm.trans hstands)
  refine hne ?_
  rw [(h.unspents k o ho).1, ← hheamgi, hkey]

theorem Filed.addIncomingOutput (h : Filed P s) {output : Api.Output} {justUnlocked : Bool} {n : Amount}
    (hflag : output.dust = Currency.isDust output.amount)
    (hP : output.unlockTime = 0 ∨ justUnlocked = true → P output)
    (hs' : s.addIncomingOutput output justUnlocked = .ok (s', n)) : Filed P s' := by
  obtain ⟨-, -, -, -, hs'⟩ | ⟨hki, hopen, -, hs'⟩ |
    ⟨heamgi, existing, s₁, hki, hex, hopen, -, -, -, hs₁, hs'⟩ | ⟨_, -, -, rfl, -⟩ :=
    addIncomingOutput_cases hs'
  · exact h.addToLockIndex hflag hs'
  · refine h.addUnspent hflag (hP hopen) (fun hzero k o ho hsame ↦ ?_) hs'
    have hstands := h.keyimages k o ho (hsame ▸ hzero)
    rw [hsame] at hstands
    cases hki.symm.trans hstands
  · have hfiled := (h.removeFromUnspentIndex (h.get_existing hex).2 hs₁).1
    exact hfiled.addUnspent hflag (hP hopen) (fun hzero ↦ h.alone hki hex hs₁ hzero) hs'
  · exact h

private theorem get_locked_addIncomingOutput {output : Api.Output} {n : Amount}
    (hs' : s.addIncomingOutput output true = .ok (s', n)) (b : Bool) (k : HeAmGi) :
    s'.get (.locked b) k = s.get (.locked b) k :=
  (changes_addIncomingOutput_unspents (.inr rfl) hs').get_eq (i := .locked b) Bool.false_ne_true k

theorem Filed.unlockOutput (h : Filed P s) {nowHeight : Height} {output : Api.Output}
    (hget : s.get (lockIndex output) (lockKeyOf output) = some output) (hP : P output)
    (hs' : s.unlockOutput nowHeight output = .ok s') :
    Filed P s' ∧ ∀ b k, lockKeyOf output ≠ k → s'.get (.locked b) k = s.get (.locked b) k := by
  obtain ⟨s₁, s₂, n, hs₁, hs₂, rfl⟩ := unlockOutput_cases hs'
  obtain ⟨hfiled₁, hlocked⟩ := h.removeFromLockIndex hget hs₁
  have hfiled₂ := hfiled₁.addIncomingOutput (h.locked _ _ _ hget).2.2 (fun _ ↦ hP) hs₂
  refine ⟨hfiled₂.congr fun i _ hi _ _ k ↦ Indexed.get_put_of_ne hi k, fun b k hk ↦ ?_⟩
  rw [Indexed.get_put_of_ne (by simp), get_locked_addIncomingOutput hs₂, hlocked b k hk]

/-- Locked outputs are unlocked one after the other. -/
theorem Filed.unlockOutputs (h : Filed P s) {nowHeight : Height} {outputs : List Api.Output}
    (hget : ∀ output ∈ outputs, s.get (lockIndex output) (lockKeyOf output) = some output)
    (hdistinct : outputs.Pairwise fun a b ↦ lockKeyOf a ≠ lockKeyOf b) (hP : ∀ output ∈ outputs, P output)
    (hs' : outputs.foldlM (fun s output ↦ WalletIndexes.unlockOutput s nowHeight output) s = .ok s') :
    Filed P s' := by
  induction outputs generalizing s with
  | nil =>
    cases hs'
    exact h
  | cons output outputs ih =>
    rw [List.foldlM_cons] at hs'
    obtain ⟨s₁, hs₁, hs'⟩ := bind_eq_ok.mp hs'
    rw [List.pairwise_cons] at hdistinct
    rw [List.forall_mem_cons] at hget hP
    obtain ⟨hfiled, hlocked⟩ := h.unlockOutput hget.1 hP.1 hs₁
    refine ih hfiled (fun o ho ↦ ?_) hdistinct.2 hP.2 hs'
    rw [hlocked _ _ (hdistinct.1 o ho)]
    exact hget.2 o ho

/-! ## Key images -/

private theorem pairwise_of_mapM_eq_ok {ε α β : Type} {S : α → α → Prop} {T : β → β → Prop}
    {f : α → Except ε β} {l : List α} {r : List β} (h : l.mapM f = .ok r) (hl : l.Pairwise S)
    (hST : ∀ a b a' b', f a = .ok b → f a' = .ok b' → S a a' → T b b') : r.Pairwise T := by
  induction l generalizing r with
  | nil =>
    cases h
    exact .nil
  | cons a l ih =>
    rw [List.mapM_cons] at h
    obtain ⟨b, hb, h⟩ := bind_eq_ok.mp h
    obtain ⟨r', hr', h⟩ := bind_eq_ok.mp h
    cases h
    rw [List.pairwise_cons] at hl
    refine List.pairwise_cons.mpr ⟨fun b' hb' ↦ ?_, ih hr' hl.2⟩
    obtain ⟨a', ha', hfa'⟩ := (mem_of_mapM_eq_ok hr').mp hb'
    exact hST a b a' b' hb hfa' (hl.1 a' ha')

theorem Filed.foundInLocked (h : Filed P s) {keyImage : KeyImage} {found : List Api.Output}
    (hfound : s.foundInLocked keyImage = .ok found) :
    (∀ lo ∈ found, s.get (lockIndex lo) (lockKeyOf lo) = some lo ∧ lo.keyImage = keyImage ∧
      keyImage ≠ 0) ∧ found.Pairwise fun a b ↦ lockKeyOf a ≠ lockKeyOf b := by
  have hread (e : (KeyImage ×ₗ Amount ×ₗ UInt32) × UnlockMoment) (lo : Api.Output)
      (hlo : orFail Fault.invariantViolated (s.get (.locked (Currency.isTransactionSpendTimeBlock e.2))
        (toLex (clampedUnlockTime e.2, (ofLex e.1).2))) = .ok lo) :
      s.get (lockIndex lo) (lockKeyOf lo) = some lo ∧ (ofLex e.1).2 = (ofLex (lockKeyOf lo)).2 := by
    rw [orFail_eq_ok] at hlo
    obtain ⟨hkind, hkey, -⟩ := h.locked _ _ _ hlo
    rw [← hkind, hkey] at hlo
    exact ⟨hlo, congrArg (fun x : HeAmGi ↦ (ofLex x).2) hkey⟩
  constructor
  · intro lo hlo
    obtain ⟨e, he, helo⟩ := (mem_of_mapM_eq_ok hfound).mp hlo
    obtain ⟨he, hsame⟩ := List.mem_filter.mp he
    have hsame := of_decide_eq_true hsame
    obtain ⟨hzero, o, ho, hki⟩ := h.lockedKeyimages e.1 e.2 (Table.mem_toList.mp he)
    have heq : o = lo := Option.some.inj (ho.symm.trans (orFail_eq_ok.mp helo))
    exact ⟨(hread e lo helo).1, by rw [← heq, hki, hsame], hsame ▸ hzero⟩
  · refine pairwise_of_mapM_eq_ok hfound
      (S := fun a b ↦ (ofLex a.1).1 = keyImage ∧ (ofLex b.1).1 = keyImage ∧ a.1 ≠ b.1) ?_ ?_
    · have hnodup := (List.pairwise_map.mp (Table.nodup_keys_toList (s.records .lockedKeyimages))).filter
        fun e ↦ (ofLex e.1).1 = keyImage
      refine hnodup.imp_of_mem fun ha hb hne ↦ ?_
      exact ⟨of_decide_eq_true (List.mem_filter.mp ha).2, of_decide_eq_true (List.mem_filter.mp hb).2, hne⟩
    · -- entries with one key image differ in the amount or the global index
      rintro a lo a' lo' hlo hlo' ⟨ha, ha', hne⟩ hsame
      have hsecond : (ofLex a.1).2 = (ofLex a'.1).2 := by
        rw [(hread a lo hlo).2, (hread a' lo' hlo').2, hsame]
      exact hne (Prod.ext (ha.trans ha'.symm) hsecond)

/-- **A spent key image leaves nothing opened behind.** The locked outputs with the key image are
unlocked, and the one that is unspent then is taken out. -/
theorem Filed.addIncomingKeyimage (h : Filed P s) {blockHeight : Height} {keyImage : KeyImage}
    {n : Amount} (hs' : s.addIncomingKeyimage blockHeight keyImage = .ok (s', n)) : Filed P s' := by
  rw [WalletIndexes.addIncomingKeyimage] at hs'
  obtain ⟨found, hfound, hs'⟩ := bind_eq_ok.mp hs'
  obtain ⟨s₁, hs₁, hs'⟩ := bind_eq_ok.mp hs'
  obtain ⟨hmem, hdistinct⟩ := h.foundInLocked hfound
  have hweak : Filed (fun o ↦ P o ∨ o.keyImage = keyImage ∧ keyImage ≠ 0) s :=
    h.imp fun _ _ _ ho ↦ .inl ho
  have hfiled := hweak.unlockOutputs (fun lo hlo ↦ (hmem lo hlo).1) hdistinct
    (fun lo hlo ↦ .inr (hmem lo hlo).2) hs₁
  split at hs'
  · next hnone =>
    cases hs'
    refine hfiled.imp fun k o ho hor ↦ hor.resolve_right ?_
    rintro ⟨hki, hzero⟩
    have hstands := hfiled.keyimages k o ho (hki ▸ hzero)
    rw [hki] at hstands
    rw [readByKeyimage, hstands, Option.bind_some, readFromUnspentIndex,
      ← (hfiled.unspents k o ho).1, ho] at hnone
    cases hnone
  · next existing hsome =>
    obtain ⟨s₂, hs₂, hs'⟩ := bind_eq_ok.mp hs'
    cases hs'
    obtain ⟨heamgi, hki, hex⟩ := Option.bind_eq_some_iff.mp hsome
    refine (hfiled.removeFromUnspentIndex (hfiled.get_existing hex).2 hs₂).1.imp fun k o ho hor ↦ ?_
    exact hor.resolve_right fun hsame ↦ hfiled.alone hki hex hs₂ hsame.2 k o ho hsame.1

/-! ## What opens with a block -/

/-- The lock of an output opens at a height or at a time. -/
def Opens (height : Height) (time : Timestamp) (o : Api.Output) : Prop :=
  clampedUnlockTime o.unlockTime ≤
    if Currency.isTransactionSpendTimeBlock o.unlockTime then height else time

theorem mem_between {t : Table HeAmGi Api.Output} {begin_ end_ : UInt32} {e : HeAmGi × Api.Output}
    (he : e ∈ between t begin_ end_) :
    t[e.1]? = some e.2 ∧ begin_ + 1 ≤ (ofLex e.1).1 ∧ (ofLex e.1).1 ≤ end_ := by
  rw [between] at he
  have hmem := List.mem_filter.mp ((List.takeWhile_sublist _).subset he)
  have hend := List.mem_takeWhile_imp he
  exact ⟨Table.mem_toList.mp hmem.1, of_decide_eq_true hmem.2, of_decide_eq_true hend⟩

/-- Outputs that are about to be unlocked are filed by their amounts and global indices. -/
def Collected (P : Api.Output → Prop) (s : WalletIndexes) (add : OutputMap) : Prop :=
  ∀ k o, add[k]? = some o → k = toLex (o.amount, o.globalIndex) ∧
    s.get (lockIndex o) (lockKeyOf o) = some o ∧ P o

theorem Collected.readUnlockIndex {add add' : OutputMap} (hadd : Collected Q s add) (h : Filed P s)
    {b : Bool} {end_ : UInt32} (hQ : ∀ o, Currency.isTransactionSpendTimeBlock o.unlockTime = b →
      clampedUnlockTime o.unlockTime ≤ end_ → Q o)
    (hread : readUnlockIndex add (s.records (.locked b)) "" 0xFFFFFFFF end_ = .ok add') :
    Collected Q s add' := by
  classical
  rw [WalletIndexes.readUnlockIndex, if_neg (by simp)] at hread
  refine foldlM_ok (fun _ add ↦ Collected Q s add) hread hadd ?_
  rintro done e rest add₁ add₂ hsplit hadd₁ he
  obtain ⟨hget, -, hend⟩ := mem_between (hsplit ▸ List.mem_append_right _ List.mem_cons_self)
  obtain ⟨hkind, hkey, -⟩ := h.locked b e.1 e.2 hget
  rw [addUnlocked] at he
  obtain ⟨-, -, he⟩ := bind_eq_ok.mp he
  rw [if_pos (.inl rfl)] at he
  obtain ⟨-, -, he⟩ := bind_eq_ok.mp he
  cases he
  intro k o ho
  rw [Table.get_insert] at ho
  split_ifs at ho with hk
  · cases ho
    refine ⟨?_, ?_, hQ _ hkind ?_⟩
    · rw [← hk, hkey]
      rfl
    · subst hkind
      rw [← hkey]
      exact hget
    · rw [hkey] at hend
      exact hend
  · exact hadd₁ k o ho

/-- What opens with a block is filed, each output under a key of its own. -/
theorem Filed.opening (h : Filed P s) {nowHeight : Height} {now : Timestamp} {add₁ add₂ : OutputMap}
    (hP : ∀ o, Opens nowHeight now o → P o)
    (hadd₁ : WalletIndexes.readUnlockIndex ∅ (s.records (.locked true)) "" 0xFFFFFFFF nowHeight = .ok add₁)
    (hadd₂ : WalletIndexes.readUnlockIndex add₁ (s.records (.locked false)) "" 0xFFFFFFFF now = .ok add₂) :
    (∀ o ∈ add₂.toList.map Prod.snd, s.get (lockIndex o) (lockKeyOf o) = some o ∧ P o) ∧
      (add₂.toList.map Prod.snd).Pairwise fun a b ↦ lockKeyOf a ≠ lockKeyOf b := by
  have hempty : Collected P s ∅ := fun k o ho ↦ by cases (Std.ExtTreeMap.getElem?_empty).symm.trans ho
  have hcollected : Collected P s add₂ := by
    refine Collected.readUnlockIndex ?_ h (fun o hkind hend ↦ hP o ?_) hadd₂
    · refine hempty.readUnlockIndex h (fun o hkind hend ↦ hP o ?_) hadd₁
      rw [Opens, hkind]
      exact hend
    · rw [Opens, hkind]
      exact hend
  have hmem (e : (Amount ×ₗ UInt32) × Api.Output) (he : e ∈ add₂.toList) :=
    hcollected e.1 e.2 (Table.mem_toList.mp he)
  refine ⟨List.forall_mem_map.mpr fun e he ↦ (hmem e he).2, ?_⟩
  refine List.pairwise_map.mpr ((List.pairwise_map.mp (Table.nodup_keys_toList add₂)).imp_of_mem ?_)
  intro a b ha hb hne hsame
  refine hne ?_
  rw [(hmem a ha).1, (hmem b hb).1]
  exact congrArg (fun x : HeAmGi ↦ (ofLex x).2) hsame

theorem Filed.unlock (h : Filed P s) {nowHeight : Height} {now : Timestamp}
    (hP : ∀ o, Opens nowHeight now o → P o) (hs' : s.unlock nowHeight now = .ok s') : Filed P s' := by
  obtain ⟨add₁, add₂, hadd₁, hadd₂, hs'⟩ := unlock_cases hs'
  obtain ⟨hget, hdistinct⟩ := h.opening hP hadd₁ hadd₂
  exact h.unlockOutputs (fun o ho ↦ (hget o ho).1) hdistinct (fun o ho ↦ (hget o ho).2) hs'

/-! ## Transactions -/

theorem Filed.addTransaction (h : Filed P s) {height : Height} {tid : Hash} {tx : TransactionPrefix}
    {ptx : Api.Transaction} (hs' : s.addTransaction height tid tx ptx = .ok s') : Filed P s' :=
  h.congr fun i _ _ hi hi' k ↦ (changes_addTransaction hs').get_eq (i := i)
    (by cases i <;> first | exact Bool.false_ne_true | exact absurd rfl hi | exact absurd rfl hi') k

end CryoNero.WalletIndexes
