import CryoNero.Wallet.Underway
import CryoNero.Wallet.Tallies

/-!
# Recorded transfers and balances

A wallet predicts what a transaction will do to its balances, records that, and then does it, output by
output and key image by key image. Each recorded output has the amount that was really added. The sums are
right as well, as long as the transaction meets no coin twice (`Undoubled`): then an output that is handed
over finds what was looked up for it before, and a spent key image takes out the one output that was named
for it.

Otherwise they are not. A key image may belong to several locked outputs, all of which are gone when it is
spent, but only one of which is recorded as spent (`recorded_not_agrees`).
-/

namespace CryoNero

open Store
open WalletState (ownOutputs)

namespace WalletIndexes

variable {s s' : WalletIndexes} {P : Api.Output → Prop} {keyImage ki : KeyImage}

/-! ## Handing outputs over -/

/-- Outputs that are handed over one after the other, none of which touches what was looked up for the others,
nor what certain key images stand for. -/
structure Handing (K : KeyImage → Prop) (unlockTime : UnlockMoment) (outputs : List Api.Output)
    (s : WalletIndexes) : Prop where
  flagged : ∀ o ∈ outputs, Flagged o ∧ o.unlockTime = unlockTime
  counted : ∀ o ∈ outputs, s.tryAddIncomingOutput o ≠ none
  different : unlockTime = 0 → outputs.Pairwise fun a b ↦ a.keyImage ≠ 0 → a.keyImage ≠ b.keyImage
  apart : ∀ k, K k → ∀ o ∈ outputs, o.keyImage ≠ k
  own : unlockTime = 0 → ∀ o ∈ outputs, s.Own o.keyImage
  vacant : unlockTime = 0 → ∀ k, K k → ∀ o ∈ outputs, s.Vacant k o
  spent : ∀ k, K k → s.Own k

private theorem vacant_of_counted {o : Api.Output} (h : s.tryAddIncomingOutput o ≠ none)
    (output : Api.Output) :
    s.Vacant o.keyImage output := by
  intro heamgi hki hnone
  rw [tryAddIncomingOutput, hki] at h
  dsimp only at h
  rw [hnone] at h
  exact absurd rfl h

private theorem addIncomingOutput_predicted {o : Api.Output} {n : Amount}
    (h : s.tryAddIncomingOutput o ≠ none)
    (hs' : s.addIncomingOutput o false = .ok (s', n)) : (n.toNat : ℤ) = predicted s.view o := by
  have hview : s.view.tryAddIncomingOutput o = s.tryAddIncomingOutput o := rfl
  rw [tryAddIncomingOutput] at h
  rw [predicted, hview, tryAddIncomingOutput]
  obtain ⟨hlock, -, rfl, hthere, -⟩ | ⟨hki, -, rfl, -⟩ |
    ⟨heamgi, existing, _, hki, hex, hopen, hless, hsame, rfl, -, -⟩ | ⟨heamgi, hki, rfl, -, hsmaller⟩ :=
    addIncomingOutput_cases hs'
  · cases hki : s.readByKeyimage o.keyImage with
    | none => rfl
    | some heamgi =>
      obtain ⟨existing, hex⟩ := Option.ne_none_iff_exists'.mp (hthere heamgi hki)
      dsimp only
      rw [hex]
      dsimp only
      rw [if_pos hlock]
      rfl
  · rw [hki]
    rfl
  · have hzero : ¬o.unlockTime ≠ 0 := not_not.mpr (hopen.resolve_right Bool.false_ne_true)
    have hlarger : ¬(o.amount ≤ heamgi.amount ∨ o.address ≠ existing.address) := by
      rw [not_or, not_not, UInt64.not_le]
      exact ⟨hless, hsame⟩
    rw [hki]
    dsimp only
    rw [hex]
    dsimp only
    rw [if_neg hzero, if_neg hlarger]
    rfl
  · -- an output that is ignored did not count
    rw [hki] at h
    dsimp only at h
    cases hex : s.readFromUnspentIndex heamgi with
    | none =>
      rw [hex] at h
      exact absurd rfl h
    | some existing =>
      obtain ⟨hopen, hor⟩ := hsmaller existing hex
      rw [hex] at h
      dsimp only at h
      rw [if_neg (not_not.mpr (hopen.resolve_right Bool.false_ne_true)), if_pos hor] at h
      exact absurd rfl h

variable {K : KeyImage → Prop} {unlockTime : UnlockMoment} {o : Api.Output} {outputs : List Api.Output}
  {n : Amount}

/-- An output that is handed over does not touch another key image. -/
theorem Handing.alike (h : Handing K unlockTime (o :: outputs) s) (hs : Filed Anything s) (hnone : NoneFiled s)
    (hs' : s.addIncomingOutput o false = .ok (s', n))
    (hother : unlockTime = 0 → (o.keyImage ≠ 0 → o.keyImage ≠ ki) ∧ s.Own ki ∧ s.Vacant ki o) :
    Alike ki s s' := by
  obtain ⟨hflagged, -⟩ := List.forall_mem_cons.mp h.flagged
  by_cases hopen : unlockTime = 0
  · obtain ⟨hne, hown, hvacant⟩ := hother hopen
    exact hs.alike_addIncomingOutput hnone hne (h.own hopen o List.mem_cons_self) hown hvacant hs'
  · have hnot : ¬(o.unlockTime = 0 ∨ false = true) := by
      rw [hflagged.2, or_iff_left Bool.false_ne_true]
      exact hopen
    obtain ⟨-, -, -, -, hlock⟩ | ⟨-, hopen', -⟩ | ⟨_, _, _, -, -, hopen', -⟩ | ⟨_, -, -, rfl, -⟩ :=
      addIncomingOutput_cases hs'
    · exact alike_of_changes_locks (changes_addToLockIndex hlock)
    · exact absurd hopen' hnot
    · exact absurd hopen' hnot
    · exact .refl

/-- **Step lemma for handing over.** -/
theorem Handing.step (h : Handing K unlockTime (o :: outputs) s) (hs : Filed Anything s)
    (hnone : NoneFiled s) (hs' : s.addIncomingOutput o false = .ok (s', n)) :
    Handing K unlockTime outputs s' ∧ (∀ o' ∈ outputs, predicted s'.view o' = predicted s.view o') ∧
      ∀ k, K k → Alike k s s' ∧ AlikeLocked k s s' := by
  obtain ⟨-, hflagged⟩ := List.forall_mem_cons.mp h.flagged
  obtain ⟨-, hcounted⟩ := List.forall_mem_cons.mp h.counted
  have hlater (o' : Api.Output) (ho' : o' ∈ outputs) : Alike o'.keyImage s s' := by
    refine h.alike hs hnone hs' fun hopen ↦ ⟨?_, h.own hopen o' (List.mem_cons_of_mem _ ho'), ?_⟩
    · exact (List.pairwise_cons.mp (h.different hopen)).1 o' ho'
    · exact vacant_of_counted (hcounted o' ho') o
  have hspent (k : KeyImage) (hk : K k) : Alike k s s' :=
    h.alike hs hnone hs' fun hopen ↦ ⟨fun _ ↦ h.apart k hk o List.mem_cons_self, h.spent k hk,
      h.vacant hopen k hk o List.mem_cons_self⟩
  have hlocked (k : KeyImage) (hk : K k) : AlikeLocked k s s' := by
    obtain ⟨-, -, -, -, hlock⟩ | ⟨-, -, -, hadd⟩ | ⟨_, _, s₁, -, -, -, -, -, -, hs₁, hadd⟩ |
      ⟨_, -, -, rfl, -⟩ := addIncomingOutput_cases hs'
    · exact hs.alikeLocked_addToLockIndex (h.apart k hk o List.mem_cons_self) hlock
    · exact alikeLocked_of_changes_unspents (changes_addUnspent hadd)
    · exact alikeLocked_of_changes_unspents
        ((changes_removeFromUnspentIndex hs₁).trans (changes_addUnspent hadd))
    · exact .of_get (fun _ ↦ rfl) fun _ _ ↦ rfl
  refine ⟨⟨hflagged, fun o' ho' ↦ ?_, fun hopen ↦ (List.pairwise_cons.mp (h.different hopen)).2,
    fun k hk o' ho' ↦ h.apart k hk o' (List.mem_cons_of_mem _ ho'), fun hopen o' ho' ↦ ?_,
    fun hopen k hk o' ho' ↦ ?_, fun k hk ↦ (hspent k hk).own (h.spent k hk)⟩, fun o' ho' ↦ ?_,
    fun k hk ↦ ⟨hspent k hk, hlocked k hk⟩⟩
  · rw [(hlater o' ho').tryAddIncomingOutput]
    exact hcounted o' ho'
  · exact (hlater o' ho').own (h.own hopen o' (List.mem_cons_of_mem _ ho'))
  · exact (hspent k hk).vacant (h.vacant hopen k hk o' (List.mem_cons_of_mem _ ho'))
  · rw [predicted, predicted]
    exact congrArg (fun d : Option Amount ↦ ((d.getD 0).toNat : ℤ)) (hlater o' ho').tryAddIncomingOutput

private theorem credit_coins {address : String} (h : address ≠ "") (owner : String) (n : Amount) :
    credit owner (coins n) address = BitVec.ofInt 128 (if owner = address then (n.toNat : ℤ) else 0) := by
  rw [credit]
  by_cases hsame : owner = address
  · rw [if_pos hsame, if_pos ⟨hsame.symm, hsame ▸ h⟩, BitVec.ofInt_natCast, coins]
    exact (BitVec.ofNat_toNat 128 n.toBitVec).symm
  · rw [if_neg hsame, if_neg fun hand ↦ hsame hand.1.symm]
    rfl

/-- **Run lemma for handing over.** The balances grow by what was predicted. -/
theorem Handing.run (h : Handing K unlockTime outputs s) (hs : Filed Anything s) (hnone : NoneFiled s)
    {recorded : List Api.Output} (hs' : addOutputs walletState s outputs = .ok (s', recorded)) :
    Filed Anything s' ∧ (∀ k, K k → Alike k s s' ∧ AlikeLocked k s s') ∧
      ∀ address, address ≠ "" → s'.holdings address =
        s.holdings address + BitVec.ofInt 128 (sumAt (predicted s.view) outputs address) := by
  induction outputs generalizing s recorded with
  | nil =>
    cases hs'
    refine ⟨hs, fun k _ ↦ ⟨.refl, .of_get (fun _ ↦ rfl) fun _ _ ↦ rfl⟩, fun address _ ↦ ?_⟩
    exact (add_zero _).symm
  | cons o outputs ih =>
    rw [addOutputs] at hs'
    obtain ⟨⟨s₁, n⟩, hs₁, hs'⟩ := bind_eq_ok.mp hs'
    obtain ⟨⟨s₂, recorded₁⟩, hs₂, hs'⟩ := bind_eq_ok.mp hs'
    cases hs'
    have hs₁ : s.addIncomingOutput o false = .ok (s₁, n) := hs₁
    obtain ⟨hhanding, hsame, halike⟩ := h.step hs hnone hs₁
    have hflagged := (h.flagged o List.mem_cons_self).1
    obtain ⟨hfiled, hkeeps, hgrows⟩ := ih hhanding (hs.addIncomingOutput hflagged (fun _ ↦ trivial) hs₁)
      (hnone.addIncomingOutput hs₁) hs₂
    refine ⟨hfiled, fun k hk ↦ ?_, fun address haddress ↦ ?_⟩
    · exact ⟨(halike k hk).1.trans (hkeeps k hk).1, (halike k hk).2.trans (hkeeps k hk).2⟩
    · rw [hgrows address haddress, hs.holdings_addIncomingOutput hs₁, Pi.add_apply, credit_coins haddress,
        sumAt_congr hsame, sumAt_cons, addIncomingOutput_predicted (h.counted o List.mem_cons_self) hs₁,
        BitVec.ofInt_add, add_assoc]

/-- Outputs as they are handed over and recorded: each one with the amount that was added to the balance of
its address. -/
inductive Credited : WalletIndexes → List Api.Output → List Api.Output → WalletIndexes → Prop
  | nil {s : WalletIndexes} : Credited s [] [] s
  | cons {s s₁ s' : WalletIndexes} {o : Api.Output} {n : Amount} {outputs recorded : List Api.Output} :
      s.addIncomingOutput o false = .ok (s₁, n) → s₁.holdings = s.holdings + credit o.address (coins n) →
      Credited s₁ outputs recorded s' → Credited s (o :: outputs) ({ o with amount := n } :: recorded) s'

private theorem Filed.credited (hs : Filed Anything s) (hflagged : ∀ o ∈ outputs, Flagged o)
    {recorded : List Api.Output} (hs' : addOutputs walletState s outputs = .ok (s', recorded)) :
    Credited s outputs recorded s' := by
  induction outputs generalizing s recorded with
  | nil =>
    cases hs'
    exact .nil
  | cons o outputs ih =>
    rw [List.forall_mem_cons] at hflagged
    rw [addOutputs] at hs'
    obtain ⟨⟨s₁, n⟩, hs₁, hs'⟩ := bind_eq_ok.mp hs'
    obtain ⟨⟨s₂, recorded₁⟩, hs₂, hs'⟩ := bind_eq_ok.mp hs'
    cases hs'
    have hs₁ : s.addIncomingOutput o false = .ok (s₁, n) := hs₁
    exact .cons hs₁ (hs.holdings_addIncomingOutput hs₁)
      (ih (hs.addIncomingOutput hflagged.1 (fun _ ↦ trivial) hs₁) hflagged.2 hs₂)

/-! ## Spending -/

private theorem Sole.keyImage_eq (h : s.Sole keyImage o) (hs : Filed P s) (hown : s.Own keyImage) :
    o.keyImage = keyImage := by
  rcases h with ⟨hstanding, -⟩ | ⟨-, hk, hget, ho, -⟩
  · exact hown o hstanding
  · obtain ⟨o', ho', hki, -⟩ := hs.lockedAt (e := (_, _)) hget
    obtain rfl : o' = o := Option.some.inj (ho'.symm.trans ho)
    exact hki.trans hk

/-- **Run lemma for spending.** The balances shrink by what the spent outputs are worth. -/
theorem Filed.spend (hs : Filed Anything s)
    (hsole : ∀ o ∈ outputs, s.Sole o.keyImage o ∧ s.Own o.keyImage)
    (hdifferent : outputs.Pairwise fun a b ↦ a.keyImage ≠ b.keyImage) {height : Height}
    (hs' : addKeyimages walletState s height outputs = .ok s') (address : String) (haddress : address ≠ "") :
    s'.holdings address = s.holdings address + BitVec.ofInt 128 (sumAt spentAmount outputs address) := by
  induction outputs generalizing s with
  | nil =>
    cases hs'
    exact (add_zero _).symm
  | cons o outputs ih =>
    rw [List.forall_mem_cons] at hsole
    rw [List.pairwise_cons] at hdifferent
    rw [addKeyimages, List.foldlM_cons] at hs'
    obtain ⟨s₁, hs₁, hs'⟩ := bind_eq_ok.mp hs'
    obtain ⟨⟨t, n⟩, ht, rfl⟩ := map_eq_ok.mp hs₁
    have ht : s.addIncomingKeyimage height o.keyImage = .ok (t, n) := ht
    have hloses := hsole.1.1.addIncomingKeyimage hs hsole.1.2 ht
    have hrest (o' : Api.Output) (ho' : o' ∈ outputs) : t.Sole o'.keyImage o' ∧ t.Own o'.keyImage := by
      have hne := (hdifferent.1 o' ho').symm
      have halike := hloses.alike _ hne (hsole.2 o' ho').2
      exact ⟨(hsole.2 o' ho').1.alike halike (hloses.locked _ hne), halike.own (hsole.2 o' ho').2⟩
    have hspent : -credit o.address (coins o.amount) address =
        BitVec.ofInt 128 (if o.address = address then spentAmount o else 0) := by
      rw [credit_coins haddress, ← BitVec.ofInt_neg, spentAmount]
      split_ifs <;> rfl
    rw [ih (hs.addIncomingKeyimage ht) hrest hdifferent.2 hs', hloses.holdings, Pi.sub_apply, sumAt_cons,
      BitVec.ofInt_add, ← hspent, sub_eq_add_neg, add_assoc]

/-! ## A transaction -/

section Transaction

variable (env : WalletStateEnv) (keys : WalletKeys) (s : WalletIndexes) (pwtx : PreparedWalletTransaction)
  (globalIndices : List UInt32) (blockHeight : Height)

/-- The outputs of a transaction that are recognised and that the database would take. -/
def taken : List Api.Output :=
  ((pwtx.placed globalIndices).filterMap (counted env keys s.view pwtx blockHeight)).map Prod.fst

/-- What the inputs spend. -/
def spends : List Api.Output := pwtx.tx.keyInputs.filterMap fun input ↦ (s.bearers input.keyImage).head?

/-- **No coin is met twice.** The outputs that can be spent at once have different key images, and so have the
inputs that spend something. What an input spends is the only output of the wallet that has its key image, and
none of the outputs has it again. Key images stand for outputs that have them, and no output comes under the
numbers of one that was spent before. No address gets or spends more than a transfer can say. -/
structure Undoubled : Prop where
  outputs : pwtx.tx.unlockTime = 0 → (taken env keys s pwtx globalIndices blockHeight).Pairwise
    fun a b ↦ a.keyImage ≠ 0 → a.keyImage ≠ b.keyImage
  inputs : pwtx.tx.keyInputs.Pairwise fun a b ↦ s.bearers a.keyImage ≠ [] → a.keyImage ≠ b.keyImage
  sole : ∀ input ∈ pwtx.tx.keyInputs, (s.bearers input.keyImage).length ≤ 1
  apart : ∀ input ∈ pwtx.tx.keyInputs, s.bearers input.keyImage ≠ [] →
    ∀ o ∈ taken env keys s pwtx globalIndices blockHeight, o.keyImage ≠ input.keyImage
  own : pwtx.tx.unlockTime = 0 → ∀ o ∈ taken env keys s pwtx globalIndices blockHeight, s.Own o.keyImage
  spent : ∀ input ∈ pwtx.tx.keyInputs, s.Own input.keyImage
  vacant : pwtx.tx.unlockTime = 0 → ∀ input ∈ pwtx.tx.keyInputs, s.bearers input.keyImage ≠ [] →
    ∀ o ∈ taken env keys s pwtx globalIndices blockHeight, s.Vacant input.keyImage o
  gets : ∀ address, sumAt (predicted s.view) (taken env keys s pwtx globalIndices blockHeight) address < 2 ^ 63
  pays : ∀ address, -2 ^ 63 ≤ sumAt spentAmount (spends s pwtx) address

/-- The incoming transfers are recorded with the amounts that were added. -/
def RecordsAdded (tid : Hash) (ptx : Api.Transaction) : Prop :=
  ∃ parsed incoming s₁,
    parseRawTransaction env keys s.view pwtx tid globalIndices blockHeight = .ok parsed ∧
      ptx.transfers = incoming ++ parsed.inputTransfers ∧
      Credited s (ownOutputs parsed.ptx.transfers) (ownOutputs incoming) s₁

variable {env keys s pwtx globalIndices blockHeight}

private theorem mem_taken {o : Api.Output} (h : o ∈ taken env keys s pwtx globalIndices blockHeight) :
    s.tryAddIncomingOutput o ≠ none ∧ Flagged o ∧ o.unlockTime = pwtx.tx.unlockTime := by
  obtain ⟨⟨o', delta⟩, hc, rfl⟩ := List.mem_map.mp h
  obtain ⟨x, -, hx⟩ := List.mem_filterMap.mp hc
  obtain ⟨hrecognised, htry⟩ := counted_eq_some hx
  obtain ⟨-, -, -, hunlock, hflag⟩ := recognised_numbers hrecognised
  refine ⟨?_, hflag, hunlock⟩
  have htry : s.tryAddIncomingOutput o' = some delta := htry
  rw [htry]
  exact Option.some_ne_none _

private theorem Undoubled.handing (h : Undoubled env keys s pwtx globalIndices blockHeight)
    {outs : List Api.Output}
    (hsub : outs.Subperm (taken env keys s pwtx globalIndices blockHeight)) :
    Handing (fun k ↦ ∃ input ∈ pwtx.tx.keyInputs, input.keyImage = k ∧ s.bearers k ≠ [])
      pwtx.tx.unlockTime outs s := by
  refine ⟨fun o ho ↦ (mem_taken (hsub.subset ho)).2, fun o ho ↦ (mem_taken (hsub.subset ho)).1,
    fun hopen ↦ ?_, ?_, fun hopen o ho ↦ h.own hopen o (hsub.subset ho), ?_, ?_⟩
  · obtain ⟨l, hperm, hl⟩ := hsub
    refine (hperm.pairwise_iff ?_).mp ((h.outputs hopen).sublist hl)
    intro a b hab hzero hsame
    exact hab (hsame ▸ hzero) hsame.symm
  · rintro _ ⟨input, hinput, rfl, hbears⟩ o ho
    exact h.apart input hinput hbears o (hsub.subset ho)
  · rintro hopen _ ⟨input, hinput, rfl, hbears⟩ o ho
    exact h.vacant hopen input hinput hbears o (hsub.subset ho)
  · rintro _ ⟨input, hinput, rfl, -⟩
    exact h.spent input hinput

/-- What an input spends is named, and is the only output with its key image. -/
theorem Undoubled.named (h : Undoubled env keys s pwtx globalIndices blockHeight) (hs : Filed Anything s)
    {input : KeyInput} (hinput : input ∈ pwtx.tx.keyInputs) :
    s.view.tryAddingIncomingKeyimage input.keyImage = .ok (s.bearers input.keyImage).head? ∧
      ∀ o, (s.bearers input.keyImage).head? = some o →
        s.bearers input.keyImage ≠ [] ∧ s.Sole input.keyImage o ∧ o.keyImage = input.keyImage := by
  rcases hs.bearers_cases (h.sole input hinput) with ⟨hnil, hstanding, hentries⟩ | ⟨o, hone, hsole⟩
  · rw [hnil]
    exact ⟨tryAddingIncomingKeyimage_of_nil hstanding hentries, nofun⟩
  · rw [hone]
    refine ⟨hsole.tryAddingIncomingKeyimage hs, fun o' ho' ↦ ?_⟩
    obtain rfl : o = o' := Option.some.inj ho'
    exact ⟨List.cons_ne_nil _ _, hsole, hsole.keyImage_eq hs (h.spent input hinput)⟩

/-- What is spent comes from different inputs. -/
theorem Undoubled.spends (h : Undoubled env keys s pwtx globalIndices blockHeight) (hs : Filed Anything s) :
    (∀ o ∈ spends s pwtx, s.Sole o.keyImage o ∧
        ∃ input ∈ pwtx.tx.keyInputs, input.keyImage = o.keyImage ∧ s.bearers o.keyImage ≠ []) ∧
      (WalletIndexes.spends s pwtx).Pairwise fun a b ↦ a.keyImage ≠ b.keyImage := by
  constructor
  · intro o ho
    obtain ⟨input, hinput, hhead⟩ := List.mem_filterMap.mp ho
    obtain ⟨hbears, hsole, hsame⟩ := (h.named hs hinput).2 o hhead
    rw [hsame]
    exact ⟨hsole, input, hinput, rfl, hbears⟩
  · refine List.pairwise_filterMap.mpr (h.inputs.imp_of_mem fun {a b} ha hb hne o ho o' ho' ↦ ?_)
    obtain ⟨hbears, -, hsame⟩ := (h.named hs ha).2 o ho
    obtain ⟨-, -, hsame'⟩ := (h.named hs hb).2 o' ho'
    rw [hsame, hsame']
    exact hne hbears

/-- **Transaction rule.** What is recorded has the amounts that were added, and agrees with the balances when
no coin is met twice. -/
theorem Filed.redoTransaction (hs : Filed Anything s) (hnone : NoneFiled s) {isBase : Bool} {tid bid : Hash}
    {txTimestamp : Timestamp} {s' : WalletIndexes}
    (hr : CryoNero.redoTransaction walletState env keys s.view s pwtx globalIndices isBase tid blockHeight bid
      txTimestamp = .ok (s', true)) :
    ∃ ptx, s'.get .transactions tid = some (pwtx.tx, ptx) ∧
      RecordsAdded env keys s pwtx globalIndices blockHeight tid ptx ∧
      (Undoubled env keys s pwtx globalIndices blockHeight → ∀ address, address ≠ "" →
        s'.holdings address =
          s.holdings address + BitVec.ofInt 128 (recordedAmount ptx.transfers address)) := by
  obtain ⟨parsed, hparsed, ⟨-, hfalse⟩ | ⟨hours, -, s₁, incoming, s₂, ptx, hs₁, hs₂, htransfers, -, hlast⟩⟩ :=
    redoTransaction_cases hr
  · cases hfalse
  have hlast : s₂.addTransaction blockHeight tid pwtx.tx ptx = .ok s' := hlast
  have hgiven := addTransfers_eq_ok hs₁
  refine ⟨ptx, ?_, ⟨parsed, incoming, s₁, hparsed, htransfers, ?_⟩, fun hu address haddress ↦ ?_⟩
  · rw [(addTransaction_cases hlast).2.1, if_pos rfl]
  · exact hs.credited (flagged_ownOutputs hparsed hours) hgiven
  · have hsub := ownOutputs_subperm hparsed hours
    obtain ⟨hfiled₁, halike, hgrows⟩ := (hu.handing hsub).run hs hnone hgiven
    obtain ⟨hperm, hspent⟩ := recordedAmount_inputs hparsed hours (fun k ↦ (s.bearers k).head?)
      (fun input hinput ↦ (hu.named hs hinput).1) hu.pays
    obtain ⟨hsole, hdifferent⟩ := hu.spends hs
    -- the outputs that are spent are still there, each of them alone
    have hsole₁ : ∀ o ∈ parsed.inputTransfers.flatMap (·.outputs), s₁.Sole o.keyImage o ∧ s₁.Own o.keyImage := by
      intro o ho
      obtain ⟨hsole, input, hinput, hsame, hbears⟩ := hsole o (hperm.mem_iff.mp ho)
      obtain ⟨hki, hlocked⟩ := halike o.keyImage ⟨input, hinput, hsame, hbears⟩
      exact ⟨hsole.alike hki hlocked, hki.own (hsame ▸ hu.spent input hinput)⟩
    have hdifferent₁ := (hperm.pairwise_iff fun {a b} hab ↦ Ne.symm hab).mpr hdifferent
    rw [holdings_addTransaction hlast, hfiled₁.spend hsole₁ hdifferent₁ hs₂ address haddress,
      hgrows address haddress, htransfers, recordedAmount_append, recordedAmount_addTransfers hs₁,
      recordedAmount_outputs hparsed hours hu.gets, hspent, BitVec.ofInt_add, add_assoc]

end Transaction

end WalletIndexes

/-! ## Every state of a wallet -/

namespace WalletDb

open WalletIndexes (Undoubled RecordsAdded taken spends)

/-- The recorded transfers of each address are what its balance has changed by. -/
def Agrees (indexes indexes' : WalletIndexes) (ptx : Api.Transaction) : Prop :=
  ∀ address, address ≠ "" → (indexes'.balanceOf address).total =
    (indexes.balanceOf address).total + BitVec.ofInt 128 (recordedAmount ptx.transfers address)

/-- **Recorded transfers and balances.** In every state of a wallet, before any transaction of a block: a
transaction that is recognised is recorded with the amounts that were added to the balances, and its transfers
are what the balances have changed by, if it meets no coin twice. -/
theorem recorded_agrees {env : WalletStateEnv} {keys : WalletKeys} {genesis : Api.BlockHeader} {s : WalletDb}
    (h : Reaches (step env keys genesis) Room (· = {}) s) {header : Api.BlockHeader} {txTimestamp : Timestamp}
    {indexes : WalletIndexes}
    (hu : Underway env keys (s.tipHeight + 1) header.hash txTimestamp s.indexes indexes)
    {pwtx : PreparedWalletTransaction} {globalIndices : List UInt32} {isBase : Bool} {tid : Hash}
    {indexes' : WalletIndexes}
    (hr : redoTransaction WalletIndexes.walletState env keys indexes.view indexes pwtx globalIndices isBase tid
      (s.tipHeight + 1) header.hash txTimestamp = .ok (indexes', true)) :
    ∃ ptx, indexes'.get .transactions tid = some (pwtx.tx, ptx) ∧
      RecordsAdded env keys indexes pwtx globalIndices (s.tipHeight + 1) tid ptx ∧
      (Undoubled env keys indexes pwtx globalIndices (s.tipHeight + 1) → Agrees indexes indexes' ptx) := by
  obtain ⟨hfiled, hnone⟩ := hu.filed env keys h
  obtain ⟨ptx, hrecorded, hadded, hagrees⟩ := hfiled.redoTransaction hnone hr
  refine ⟨ptx, hrecorded, hadded, fun hundoubled address haddress ↦ ?_⟩
  have hholdings := hagrees hundoubled address haddress
  rw [WalletIndexes.holdings, WalletIndexes.holdings, if_neg haddress, if_neg haddress] at hholdings
  exact hholdings

/-! ## Samples -/

section Sample

open WalletState (sampleSpendCrypto sampleStateEnv sampleKeys sampleReceipt)

/-- A payment of some coins to the sample wallet. -/
def samplePayment (amount : Amount) (unlockTime : UnlockMoment) : TransactionPrefix :=
  { sampleReceipt 1 unlockTime with
    inputs := []
    outputs := [{ amount := amount, target := .keyOutput { key := 108 } }] }

/-- The sample wallet spends what came to it under the transaction key 1, and gets 4 back. -/
def sampleSpending : TransactionPrefix :=
  { sampleReceipt 2 0 with
    inputs := [.keyInput { amount := 5, outputIndexes := [0], keyImage := 216 }]
    outputs := [{ amount := 4, target := .keyOutput { key := 109 } }] }

/-- The height of the first block. -/
def sampleHeight : Height := ({} : WalletDb).tipHeight + 1

/-- A transaction in the first block of the sample wallet. -/
def sampleRedo (tid : Hash) (globalIndices : List UInt32) (tx : TransactionPrefix) (indexes : WalletIndexes) :
    Except Fault (WalletIndexes × Bool) :=
  redoTransaction WalletIndexes.walletState sampleStateEnv sampleKeys indexes.view indexes
    (.prepare sampleSpendCrypto tx 100) globalIndices false tid sampleHeight ({} : Api.BlockHeader).hash 0

/-- The indexes of the sample wallet after some transactions. -/
def SampleUnderway (indexes : WalletIndexes) : Prop :=
  Underway sampleStateEnv sampleKeys sampleHeight ({} : Api.BlockHeader).hash 0 ({} : WalletDb).indexes indexes

private theorem sampleReaches : Reaches (step sampleStateEnv sampleKeys {}) Room (· = {}) {} := .start rfl

theorem SampleUnderway.redo {indexes : WalletIndexes} (h : SampleUnderway indexes) {tid : Hash}
    {globalIndices : List UInt32} {tx : TransactionPrefix} {p : WalletIndexes × Bool}
    (hp : p ∈ (sampleRedo tid globalIndices tx indexes).toOption) : SampleUnderway p.1 :=
  Underway.redo h (toOption_eq_some.mp hp)

/-- The sample spending, as the wallet sees it. -/
def samplePrepared : PreparedWalletTransaction := .prepare sampleSpendCrypto sampleSpending 100

/-- What comes back from the sample spending. -/
def sampleTaken (indexes : WalletIndexes) : List Api.Output :=
  taken sampleStateEnv sampleKeys indexes samplePrepared [1] sampleHeight

/-- The sample spending has one input, and it gives back outputs of one address. -/
def SampleUndoubled (s : WalletIndexes) : Prop :=
  ((sampleTaken s).Pairwise (fun a b ↦ a.keyImage ≠ 0 → a.keyImage ≠ b.keyImage) ∧
    (∀ o ∈ sampleTaken s, o.keyImage ≠ 216 ∧ s.Own o.keyImage ∧ s.Vacant 216 o)) ∧
  ((s.bearers 216).length ≤ 1 ∧ s.Own 216) ∧
  ((∀ o ∈ sampleTaken s, o.address = "address") ∧
    ((sampleTaken s).map (predicted s.view)).sum < 2 ^ 63) ∧
  (∀ o ∈ spends s samplePrepared, o.address = "address") ∧
    -2 ^ 63 ≤ ((spends s samplePrepared).map spentAmount).sum

instance (s : WalletIndexes) : Decidable (SampleUndoubled s) :=
  inferInstanceAs (Decidable ((_ ∧ _) ∧ _ ∧ _ ∧ _ ∧ _))

private theorem SampleUndoubled.undoubled {s : WalletIndexes} (h : SampleUndoubled s) :
    Undoubled sampleStateEnv sampleKeys s samplePrepared [1] sampleHeight := by
  obtain ⟨⟨hdifferent, htaken⟩, ⟨hone, hown⟩, ⟨hhere, hgets⟩, hhere', hpays⟩ := h
  have hinputs : samplePrepared.tx.keyInputs = [{ amount := 5, outputIndexes := [0], keyImage := 216 }] := rfl
  refine ⟨fun _ ↦ hdifferent, ?_, ?_, ?_, fun _ o ho ↦ (htaken o ho).2.1, ?_, ?_, fun other ↦ ?_,
    fun other ↦ ?_⟩
  · rw [hinputs]
    exact List.pairwise_singleton _ _
  · rw [hinputs]
    exact List.forall_mem_singleton.mpr hone
  · rw [hinputs]
    exact List.forall_mem_singleton.mpr fun _ o ho ↦ (htaken o ho).1
  · rw [hinputs]
    exact List.forall_mem_singleton.mpr hown
  · rw [hinputs]
    exact fun _ ↦ List.forall_mem_singleton.mpr fun _ o ho ↦ (htaken o ho).2.2
  · have hhere : ∀ o ∈ taken sampleStateEnv sampleKeys s samplePrepared [1] sampleHeight, o.address = "address" :=
      hhere
    rw [sumAt_of_address hhere]
    split_ifs
    · exact hgets
    · decide
  · rw [sumAt_of_address hhere']
    split_ifs
    · exact hpays
    · decide

/-- A payment is spent, and what is left comes back. -/
theorem recorded_agrees_sample : ∃ p ∈ (sampleRedo 1 [0] (samplePayment 5 0) {}).toOption,
    ∃ q ∈ (sampleRedo 2 [1] sampleSpending p.1).toOption,
      ∃ ptx, q.1.get .transactions 2 = some (sampleSpending, ptx) ∧
        (p.1.balanceOf "address").total = 5 ∧ (q.1.balanceOf "address").total = 4 ∧ Agrees p.1 q.1 ptx := by
  obtain ⟨p, hp, q, hq, hrecognised, hbefore, hafter, hu⟩ :
      ∃ p ∈ (sampleRedo 1 [0] (samplePayment 5 0) {}).toOption,
        ∃ q ∈ (sampleRedo 2 [1] sampleSpending p.1).toOption, q.2 = true ∧
          (p.1.balanceOf "address").total = 5 ∧ (q.1.balanceOf "address").total = 4 ∧ SampleUndoubled p.1 := by
    decide +kernel
  have hok : sampleRedo 2 [1] sampleSpending p.1 = .ok (q.1, true) :=
    (toOption_eq_some.mp hq).trans (congrArg (fun b ↦ Except.ok (q.1, b)) hrecognised)
  obtain ⟨ptx, hptx, -, hagrees⟩ := recorded_agrees sampleReaches (SampleUnderway.redo .start hp) hok
  exact ⟨p, hp, q, hq, ptx, hptx, hbefore, hafter, hagrees hu.undoubled⟩

/-- Two payments to one one-time key are both locked. The wallet spends one of them and loses both, which the
recorded transfers do not say. -/
theorem recorded_not_agrees : ∃ p ∈ (sampleRedo 1 [0] (samplePayment 5 10) {}).toOption,
    ∃ p' ∈ (sampleRedo 3 [1] (samplePayment 7 10) p.1).toOption, SampleUnderway p'.1 ∧
      ∃ q ∈ (sampleRedo 2 [2] sampleSpending p'.1).toOption,
        ∃ t ∈ q.1.get .transactions (2 : Hash), recordedAmount t.2.transfers "address" = 4 - 7 ∧
          (p'.1.balanceOf "address").total = 5 + 7 ∧ (q.1.balanceOf "address").total = 4 ∧
            ¬Agrees p'.1 q.1 t.2 := by
  obtain ⟨p, hp, p', hp', q, hq, t, ht, hrecorded, hbefore, hafter⟩ :
      ∃ p ∈ (sampleRedo 1 [0] (samplePayment 5 10) {}).toOption,
        ∃ p' ∈ (sampleRedo 3 [1] (samplePayment 7 10) p.1).toOption,
          ∃ q ∈ (sampleRedo 2 [2] sampleSpending p'.1).toOption,
            ∃ t ∈ q.1.get .transactions (2 : Hash), recordedAmount t.2.transfers "address" = 4 - 7 ∧
              (p'.1.balanceOf "address").total = 5 + 7 ∧ (q.1.balanceOf "address").total = 4 := by
    decide +kernel
  refine ⟨p, hp, p', hp', (SampleUnderway.redo .start hp).redo hp', q, hq, t, ht, hrecorded, hbefore, hafter, ?_⟩
  intro hagrees
  have hsame := hagrees "address" (by decide)
  rw [hafter, hbefore, hrecorded] at hsame
  exact absurd hsame (by decide)

end Sample

end WalletDb

end CryoNero
