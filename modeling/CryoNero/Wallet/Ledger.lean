import CryoNero.Wallet.Blocks

/-!
# Balances and what is added to them

The balance of an address is stored, and changed together with the indexes. So what an operation adds to
it does not depend on what the indexes hold, but on the outputs that the operation moves. An incoming
output adds what its caller is told (`Filed.holdings_addIncomingOutput`), an output that opens adds what
it is worth more than the one it replaces, and takes away what was locked.

The balances are taken as one function of the address, so that the changes of several operations are
added up as functions.
-/

namespace CryoNero

open Store

namespace WalletIndexes

variable {s s' : WalletIndexes}

/-! ## Holdings -/

def balanceOf (s : WalletIndexes) (address : String) : Api.Balance := (s.get .balances address).getD {}

/-- What each address has. The empty text, under which the sum over all addresses is kept, is none. -/
def holdings (s : WalletIndexes) (address : String) : BitVec 128 :=
  if address = "" then 0 else (s.balanceOf address).total

/-- An amount as it is added to a balance. -/
def coins (amount : Amount) : BitVec 128 := amount.toBitVec.setWidth 128

/-- Coins of a single address. -/
def credit (address : String) (n : BitVec 128) (other : String) : BitVec 128 :=
  if other = address ∧ address ≠ "" then n else 0

private theorem credit_add (address : String) (m n : BitVec 128) :
    credit address (m + n) = credit address m + credit address n := by
  funext other
  simp only [credit, Pi.add_apply]
  split_ifs
  · rfl
  · exact (add_zero _).symm

@[simp] theorem credit_zero (address : String) : credit address 0 = 0 := by
  funext other
  exact ite_self _

theorem credit_neg (address : String) (n : BitVec 128) : credit address (-n) = -credit address n := by
  rw [eq_neg_iff_add_eq_zero, ← credit_add, neg_add_cancel, credit_zero]

private theorem credit_sub (address : String) (m n : BitVec 128) :
    credit address (m - n) = credit address m - credit address n := by
  rw [sub_eq_add_neg, credit_add, credit_neg, ← sub_eq_add_neg]

private theorem coins_sub {m n : Amount} (h : n ≤ m) : coins (m - n) = coins m - coins n := by
  have hle := UInt64.le_iff_toNat_le.mp h
  rw [coins, coins, coins, UInt64.toBitVec_sub, eq_sub_iff_add_eq]
  apply BitVec.eq_of_toNat_eq
  rw [BitVec.toNat_add, BitVec.toNat_setWidth, BitVec.toNat_setWidth, BitVec.toNat_setWidth, BitVec.toNat_sub]
  change n.toNat ≤ m.toNat at hle
  have hm : m.toBitVec.toNat < 2 ^ 64 := m.toBitVec.isLt
  have hn : n.toBitVec.toNat ≤ m.toBitVec.toNat := hle
  omega

@[simp] theorem coins_zero : coins 0 = 0 := rfl

/-! ## Changes of a balance -/

/-- Coins that are added, taken away or left alone. -/
def signed (op : ℤ) (n : BitVec 128) : BitVec 128 := if 0 < op then n else if op < 0 then -n else 0

private theorem total_combineBalance (balance : Api.Balance) (output : Api.Output)
    (lockedOp spendableOp : ℤ) :
    (combineBalance balance output lockedOp spendableOp).total =
      balance.total + (signed lockedOp (coins output.amount) + signed spendableOp (coins output.amount)) := by
  have hchange (op : ℤ) (sum : BitVec 128) : (if 0 < op then sum + coins output.amount
      else if op < 0 then sum - coins output.amount else sum) = sum + signed op (coins output.amount) := by
    rw [signed]
    split_ifs
    · rfl
    · exact sub_eq_add_neg _ _
    · exact (add_zero _).symm
  rw [combineBalance, ← coins]
  simp only [hchange]
  cases output.dust with
  | true =>
    rw [if_pos rfl, Api.Balance.total, Api.Balance.total]
    dsimp only
    ring
  | false =>
    rw [if_neg Bool.false_ne_true, Api.Balance.total, Api.Balance.total]
    dsimp only
    ring

private theorem total_writeBalance (s : WalletIndexes) (address : String) (balance : Api.Balance)
    (other : String) :
    ((s.writeBalance address balance).balanceOf other).total =
      if other = address then balance.total else (s.balanceOf other).total := by
  rw [writeBalance, balanceOf, balanceOf]
  split_ifs with hnothing hother hother
  · rw [hother, Indexed.get_del, if_pos rfl, hnothing.1]
    rfl
  · rw [Indexed.get_del, if_neg (Ne.symm hother)]
  · rw [hother, Indexed.get_put, if_pos rfl]
    rfl
  · rw [Indexed.get_put, if_neg (Ne.symm hother)]

/-- **Balances change by the amount of the output.** -/
theorem holdings_modifyBalance (s : WalletIndexes) (output : Api.Output) (lockedOp spendableOp : ℤ) :
    (s.modifyBalance output lockedOp spendableOp).holdings = s.holdings + credit output.address
      (signed lockedOp (coins output.amount) + signed spendableOp (coins output.amount)) := by
  funext other
  rw [modifyBalance, Pi.add_apply, holdings, holdings, credit]
  by_cases hother : other = ""
  · rw [if_pos hother, if_pos hother, if_neg fun hand ↦ hand.2 (hand.1.symm.trans hother)]
    rfl
  · rw [if_neg hother, if_neg hother, total_writeBalance, if_neg hother, total_writeBalance]
    by_cases hsame : other = output.address
    · rw [if_pos hsame, if_pos ⟨hsame, hsame ▸ hother⟩, total_combineBalance, hsame]
      rfl
    · rw [if_neg hsame, if_neg fun hand ↦ hsame hand.1, add_zero]

theorem holdings_congr (h : ∀ address, s'.get .balances address = s.get .balances address) :
    s'.holdings = s.holdings := by
  funext address
  rw [holdings, holdings, balanceOf, balanceOf, h]

theorem holdings_put {i : WalletIndex} (hi : WalletIndex.balances ≠ i) (k : i.Key) (v : i.Value) :
    WalletIndexes.holdings (s.put i k v) = s.holdings := holdings_congr fun _ ↦ Indexed.get_put_of_ne hi _

theorem holdings_del {i : WalletIndex} (hi : WalletIndex.balances ≠ i) (k : i.Key) :
    WalletIndexes.holdings (s.del i k) = s.holdings := holdings_congr fun _ ↦ Indexed.get_del_of_ne hi _

/-! ## What an operation adds -/

theorem holdings_addToLockIndex {output : Api.Output} (h : s.addToLockIndex output = .ok s') :
    s'.holdings = s.holdings + credit output.address (coins output.amount) := by
  obtain ⟨s₁, -, rfl, rfl⟩ := addToLockIndex_cases h
  have hadd : signed 1 (coins output.amount) + signed 0 (coins output.amount) = coins output.amount :=
    add_zero _
  split_ifs
  · rw [holdings_put, holdings_put, holdings_modifyBalance, hadd] <;> simp
  · rw [holdings_put, holdings_modifyBalance, hadd]
    simp

theorem holdings_removeFromLockIndex {output : Api.Output} (h : s.removeFromLockIndex output = .ok s') :
    s'.holdings = s.holdings - credit output.address (coins output.amount) := by
  obtain ⟨s₁, -, rfl, rfl⟩ := removeFromLockIndex_cases h
  have hsub : signed (-1) (coins output.amount) + signed 0 (coins output.amount) = -coins output.amount :=
    add_zero _
  rw [sub_eq_add_neg, ← credit_neg, ← hsub]
  split_ifs
  · rw [holdings_del, holdings_del, holdings_modifyBalance] <;> simp
  · rw [holdings_del, holdings_modifyBalance]
    simp

theorem holdings_addUnspent {output : Api.Output} {nooverwrite : Bool}
    (h : s.addUnspent output nooverwrite = .ok s') :
    s'.holdings = s.holdings + credit output.address (coins output.amount) := by
  obtain ⟨s₁, -, rfl, rfl⟩ := addUnspent_cases h
  have hadd : signed 0 (coins output.amount) + signed 1 (coins output.amount) = coins output.amount :=
    zero_add _
  split_ifs
  · rw [holdings_put, holdings_put, holdings_modifyBalance, hadd] <;> simp
  · rw [holdings_put, holdings_put, holdings_put, holdings_modifyBalance, hadd] <;> simp

theorem holdings_removeFromUnspentIndex {output : Api.Output}
    (h : s.removeFromUnspentIndex output = .ok s') :
    s'.holdings = s.holdings - credit output.address (coins output.amount) := by
  have hsub : signed 0 (coins output.amount) + signed (-1) (coins output.amount) = -coins output.amount :=
    zero_add _
  rw [removeFromUnspentIndex_cases h, holdings_del, holdings_del, holdings_modifyBalance, hsub, credit_neg,
    ← sub_eq_add_neg] <;> exact nofun

variable {P : Api.Output → Prop}

/-- **An incoming output adds what its caller is told.** -/
theorem Filed.holdings_addIncomingOutput (h : Filed P s) {output : Api.Output} {justUnlocked : Bool}
    {n : Amount} (hs' : s.addIncomingOutput output justUnlocked = .ok (s', n)) :
    s'.holdings = s.holdings + credit output.address (coins n) := by
  obtain ⟨-, -, rfl, -, hlock⟩ | ⟨-, -, rfl, hadd⟩ |
    ⟨heamgi, existing, s₁, -, hex, -, hless, hsame, rfl, hs₁, hadd⟩ | ⟨_, -, rfl, rfl, -⟩ :=
    addIncomingOutput_cases hs'
  · exact holdings_addToLockIndex hlock
  · exact holdings_addUnspent hadd
  · -- the output takes the place of one that is filed with the amount its key image stands for
    have hamount : heamgi.amount = existing.amount :=
      congrArg (fun k : HeAmGi ↦ (ofLex (ofLex k).2).1) (h.get_existing hex).1
    rw [holdings_addUnspent hadd, holdings_removeFromUnspentIndex hs₁, coins_sub (UInt64.le_of_lt hless),
      credit_sub, hsame, hamount]
    abel
  · rw [coins_zero, credit_zero, add_zero]

theorem Filed.holdings_unlockOutput (h : Filed P s) {nowHeight : Height} {output : Api.Output}
    (hget : s.get (lockIndex output) (lockKeyOf output) = some output)
    (hs' : s.unlockOutput nowHeight output = .ok s') : ∃ s₁ s₂ n,
      s.removeFromLockIndex output = .ok s₁ ∧ s₁.addIncomingOutput output true = .ok (s₂, n) ∧
      s'.holdings = s.holdings - credit output.address (coins output.amount) +
        credit output.address (coins n) := by
  obtain ⟨s₁, s₂, n, hs₁, hs₂, rfl⟩ := unlockOutput_cases hs'
  refine ⟨s₁, s₂, n, hs₁, hs₂, ?_⟩
  rw [holdings_put, (h.removeFromLockIndex hget hs₁).1.holdings_addIncomingOutput hs₂,
    holdings_removeFromLockIndex hs₁]
  exact nofun

theorem holdings_addTransaction {height : Height} {tid : Hash} {tx : TransactionPrefix}
    {ptx : Api.Transaction} (h : s.addTransaction height tid tx ptx = .ok s') : s'.holdings = s.holdings :=
  holdings_congr fun _ ↦ (changes_addTransaction h).get_eq (i := .balances) Bool.false_ne_true _

end WalletIndexes

end CryoNero
