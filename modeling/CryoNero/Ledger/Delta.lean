import CryoNero.Core.Redo

/-!
# What a delta records

Whatever the layers in between, redoing a transaction or a block comes down to three lists: the key
images it spends, the outputs it creates, and the outputs of rings of one member, which it marks as
spent. `DeltaState.Records` says that a delta stands for three such lists, and carrying a delta over
to the state below it amounts to carrying over the lists (`DeltaState.Records.apply_eq`). The tables
of a delta forget the order of the key images, and the order of outputs of different amounts; nothing
depends on those.
-/

namespace CryoNero

open Seria Store

/-- An output without its height: the amount, the unlock time and the key. -/
abbrev Push := Amount × UnlockMoment × PublicKey

/-- An output by its amount and its global index. -/
abbrev Spend := Amount × UInt32

/-- The output that a ring of one member spends for certain. -/
def KeyInput.spend? (input : KeyInput) : Option Spend :=
  match input.outputIndexes with
  | [globalIndex] => some (input.amount, globalIndex)
  | _ => none

def TransactionOutput.push (unlockTime : UnlockMoment) (output : TransactionOutput) : Push :=
  match output.target with
  | .keyOutput o => (output.amount, unlockTime, o.key)

namespace TransactionPrefix

variable (tx : TransactionPrefix)

def keyImages : List KeyImage := tx.keyInputs.map (·.keyImage)

def pushes : List Push := tx.outputs.map (·.push tx.unlockTime)

def spends : List Spend := tx.keyInputs.filterMap (·.spend?)

end TransactionPrefix

namespace Block

variable (block : Block)

/-- The coinbase transaction and the others. -/
def allTransactions : List Transaction := block.header.baseTransaction :: block.transactions

def keyImages : List KeyImage := block.allTransactions.flatMap (·.keyImages)

def pushes : List Push := block.allTransactions.flatMap (·.pushes)

def spends : List Spend := block.allTransactions.flatMap (·.spends)

end Block

/-- The pushes of one amount, in their order. -/
def pushesOf (ps : List Push) (amount : Amount) : List (UnlockMoment × PublicKey) :=
  (ps.filter (·.1 = amount)).map Prod.snd

@[simp] theorem pushesOf_append (ps qs : List Push) (amount : Amount) :
    pushesOf (ps ++ qs) amount = pushesOf ps amount ++ pushesOf qs amount := by
  simp [pushesOf]

/-- A delta over `view` at some height stands for three lists. -/
structure DeltaState.Records (height : Height) (timestamp : Timestamp) (view : StateView)
    (ks : List KeyImage) (ps : List Push) (ss : List Spend) (d : DeltaState) : Prop where
  blockHeight : d.blockHeight = height
  unlockTimestamp : d.unlockTimestamp = timestamp
  parentState : d.parentState = view
  nodup : ks.Nodup
  keyimages : ∀ (ki : KeyImage) (h : Height), d.keyimages[ki]? = some h ↔ ki ∈ ks ∧ h = height
  pushed : ∀ amount, d.pushed amount = pushesOf ps amount
  spent : d.spentOutputs = ss

/-- Carry three lists over to a state. -/
def applyLists {σ : Type} [IBlockChainState σ] (height : Height) (ks : List KeyImage)
    (ps : List Push) (ss : List Spend) (parent : σ) : Except Fault σ := do
  let parent ← ks.foldlM (fun s ki ↦ IBlockChainState.storeKeyimage ki height s) parent
  let parent ← ps.foldlM
    (fun s p ↦ IBlockChainState.pushAmountOutput p.1 p.2.1 height p.2.2 s) parent
  ss.foldlM (fun s mo ↦ IBlockChainState.spendOutput mo.1 mo.2 s) parent

namespace DeltaState

variable {height : Height} {timestamp : Timestamp} {view : StateView} {ks ks' : List KeyImage}
  {ps ps' : List Push} {ss ss' : List Spend} {d d' : DeltaState} {ki : KeyImage}

theorem Records.empty : Records height timestamp view [] [] []
    { blockHeight := height, unlockTimestamp := timestamp, parentState := view } where
  blockHeight := rfl
  unlockTimestamp := rfl
  parentState := rfl
  nodup := List.nodup_nil
  keyimages ki h := by
    change (∅ : Table KeyImage Height)[ki]? = some h ↔ _
    rw [Std.ExtTreeMap.getElem?_empty]
    simp
  pushed amount := by
    change ((∅ : Table Amount _)[amount]?).getD [] = []
    rw [Std.ExtTreeMap.getElem?_empty]
    rfl
  spent := rfl

theorem Records.congr (hd : Records height timestamp view ks ps ss d) (hks : ks.Perm ks')
    (hps : ∀ amount, pushesOf ps amount = pushesOf ps' amount) :
    Records height timestamp view ks' ps' ss d :=
  { hd with
    nodup := hks.nodup_iff.mp hd.nodup
    keyimages := fun ki h ↦ by rw [hd.keyimages, hks.mem_iff]
    pushed := fun amount ↦ (hd.pushed amount).trans (hps amount) }

theorem Records.get_eq_none (hd : Records height timestamp view ks ps ss d) :
    d.keyimages[ki]? = none ↔ ki ∉ ks := by
  rw [Option.eq_none_iff_forall_ne_some]
  constructor
  · intro h hki
    exact h height ((hd.keyimages ki height).mpr ⟨hki, rfl⟩)
  · intro hki h hh
    exact hki ((hd.keyimages ki h).mp hh).1

theorem storeKeyimage_eq_ok {h : Height} : d.storeKeyimage ki h = .ok d' ↔
    d.keyimages[ki]? = none ∧ d' = { d with keyimages := d.keyimages.insert ki h } := by
  unfold storeKeyimage
  constructor
  · intro hok
    obtain ⟨t, ht, hok⟩ := bind_eq_ok.mp hok
    cases hok
    rw [orFail_eq_ok, Table.putNew_eq_some] at ht
    exact ⟨ht.1, by rw [ht.2]⟩
  · rintro ⟨hnone, rfl⟩
    exact bind_eq_ok.mpr ⟨_, orFail_eq_ok.mpr (Table.putNew_of_none h hnone), rfl⟩

theorem Records.storeKeyimage_iff (hd : Records height timestamp view ks ps ss d) :
    d.storeKeyimage ki height = .ok d' ↔
      ki ∉ ks ∧ d' = { d with keyimages := d.keyimages.insert ki height } := by
  rw [storeKeyimage_eq_ok, hd.get_eq_none]

theorem Records.insertKeyimage (hd : Records height timestamp view ks ps ss d) (hki : ki ∉ ks) :
    Records height timestamp view (ks ++ [ki]) ps ss
      { d with keyimages := d.keyimages.insert ki height } where
  blockHeight := hd.blockHeight
  unlockTimestamp := hd.unlockTimestamp
  parentState := hd.parentState
  nodup := by
    rw [List.nodup_append]
    exact ⟨hd.nodup, List.nodup_singleton ki, fun a ha b hb hab ↦
      hki (by rw [← List.mem_singleton.mp hb, ← hab]; exact ha)⟩
  keyimages a h := by
    rw [Table.get_insert, List.mem_append, List.mem_singleton]
    split_ifs with hka
    · subst hka
      simp [eq_comm]
    · rw [hd.keyimages]
      constructor
      · exact fun ⟨ha, hh⟩ ↦ ⟨.inl ha, hh⟩
      · rintro ⟨ha | ha, hh⟩
        · exact ⟨ha, hh⟩
        · exact absurd ha.symm hka
  pushed := hd.pushed
  spent := hd.spent

theorem Records.pushAmountOutput (hd : Records height timestamp view ks ps ss d) (p : Push) :
    Records height timestamp view ks (ps ++ [p]) ss (d.pushAmountOutput p.1 p.2.1 p.2.2).1 where
  blockHeight := hd.blockHeight
  unlockTimestamp := hd.unlockTimestamp
  parentState := hd.parentState
  nodup := hd.nodup
  keyimages := hd.keyimages
  pushed amount := by
    have hpushed : (d.pushAmountOutput p.1 p.2.1 p.2.2).1.pushed amount =
      ((d.globalAmounts.insert p.1 (d.pushed p.1 ++ [(p.2.1, p.2.2)]))[amount]?).getD [] := rfl
    rw [hpushed, Table.get_insert, pushesOf_append]
    by_cases ha : p.1 = amount
    · subst ha
      rw [if_pos rfl, hd.pushed]
      simp [pushesOf]
    · rw [if_neg ha]
      change d.pushed amount = _
      rw [hd.pushed]
      simp [pushesOf, ha]
  spent := hd.spent

theorem Records.spendOutput (hd : Records height timestamp view ks ps ss d) (mo : Spend) :
    Records height timestamp view ks ps (ss ++ [mo]) (d.spendOutput mo.1 mo.2) :=
  { hd with spent := by rw [DeltaState.spendOutput, hd.spent] }

/-! ## Redoing the inputs and the outputs of a transaction -/

/-- The delta with more outputs marked as spent. -/
def withSpends (d : DeltaState) (ss : List Spend) : DeltaState :=
  { d with spentOutputs := d.spentOutputs ++ ss }

theorem Records.withSpends (hd : Records height timestamp view ks ps ss d) :
    Records height timestamp view ks ps (ss ++ ss') (d.withSpends ss') :=
  { hd with spent := by rw [DeltaState.withSpends, hd.spent] }

private theorem redoKeyInput_eq (d : DeltaState) (input : KeyInput) : redoKeyInput d input =
    (d.withSpends input.spend?.toList).storeKeyimage input.keyImage d.blockHeight := by
  have hnil : d.withSpends [] = d := by simp [DeltaState.withSpends]
  obtain ⟨amount, outputIndexes, keyImage⟩ := input
  rcases outputIndexes with _ | ⟨g, _ | ⟨g', rest⟩⟩
  · rw [KeyInput.spend?, Option.toList_none, hnil]
    rfl
  · rfl
  · rw [KeyInput.spend?, Option.toList_none, hnil]
    rfl

theorem Records.redoKeyInput_eq_ok {input : KeyInput}
    (hd : Records height timestamp view ks ps ss d) : redoKeyInput d input = .ok d' ↔
      input.keyImage ∉ ks ∧ d' = { d.withSpends input.spend?.toList with
        keyimages := d.keyimages.insert input.keyImage height } := by
  rw [redoKeyInput_eq, hd.blockHeight, hd.withSpends.storeKeyimage_iff]
  rfl

theorem Records.redoKeyInput {input : KeyInput} (hd : Records height timestamp view ks ps ss d)
    (hki : input.keyImage ∉ ks) : Records height timestamp view (ks ++ [input.keyImage]) ps
      (ss ++ input.spend?.toList) { d.withSpends input.spend?.toList with
        keyimages := d.keyimages.insert input.keyImage height } :=
  hd.withSpends.insertKeyimage hki

/-- The key inputs among some inputs. -/
def keyInputsOf (inputs : List TransactionInput) : List KeyInput :=
  ({ inputs := inputs } : TransactionPrefix).keyInputs

theorem keyInputsOf_append (l l' : List TransactionInput) :
    keyInputsOf (l ++ l') = keyInputsOf l ++ keyInputsOf l' := List.filterMap_append

theorem Records.redoInput {env : Env} {tx : Transaction} {checkSigs : Bool}
    {input : TransactionInput × ℕ} {conflict conflict' : Height}
    (hd : Records height timestamp view ks ps ss d)
    (h : redoInput env tx checkSigs (d, conflict) input = .ok (d', conflict')) :
    Records height timestamp view (ks ++ (keyInputsOf [input.1]).map (·.keyImage)) ps
      (ss ++ (keyInputsOf [input.1]).filterMap (·.spend?)) d' := by
  obtain ⟨input, i⟩ := input
  cases input with
  | coinbaseInput c =>
    cases h
    simpa [keyInputsOf, TransactionPrefix.keyInputs] using hd
  | keyInput input =>
    unfold CryoNero.redoInput at h
    dsimp only at h
    have hredo : ∃ d₁, CryoNero.redoKeyInput d input = .ok d₁ ∧ d₁ = d' := by
      split_ifs at h <;>
      · obtain ⟨c, _, h⟩ := bind_eq_ok.mp h
        obtain ⟨d₁, hd₁, h⟩ := bind_eq_ok.mp h
        cases h
        cases hkey : CryoNero.redoKeyInput d input with
        | error f =>
          rw [hkey] at hd₁
          cases hd₁
        | ok d₂ =>
          rw [hkey] at hd₁
          cases hd₁
          exact ⟨_, rfl, rfl⟩
    obtain ⟨d₁, hd₁, rfl⟩ := hredo
    obtain ⟨hki, rfl⟩ := hd.redoKeyInput_eq_ok.mp hd₁
    have hsum := hd.redoKeyInput hki
    have hspend : (keyInputsOf [.keyInput input]).filterMap (·.spend?) = input.spend?.toList := by
      simp only [keyInputsOf, TransactionPrefix.keyInputs, List.filterMap_cons, List.filterMap_nil]
      cases input.spend? <;> rfl
    rw [hspend]
    exact hsum

/-- **The inputs of a transaction** are recorded one after another. -/
theorem Records.redoInputs {env : Env} {tx : Transaction} {checkSigs : Bool} {conflict : Height}
    {acc : DeltaState × Height} (hd : Records height timestamp view [] ps [] d)
    (h : tx.inputs.zipIdx.foldlM (CryoNero.redoInput env tx checkSigs) (d, conflict) = .ok acc) :
    Records height timestamp view tx.keyImages ps tx.spends acc.1 := by
  have hall := foldlM_ok (fun (done : List (TransactionInput × ℕ)) (acc : DeltaState × Height) ↦
    Records height timestamp view ((keyInputsOf (done.map Prod.fst)).map (·.keyImage)) ps
    ((keyInputsOf (done.map Prod.fst)).filterMap (·.spend?)) acc.1) h hd ?_
  · rw [List.zipIdx_map_fst] at hall
    exact hall
  · intro done x rest acc acc' _ hacc hx
    rw [List.map_append, List.map_singleton, keyInputsOf_append, List.map_append,
      List.filterMap_append]
    exact hacc.redoInput hx

theorem Records.redoOutputs {unlockTime : UnlockMoment} : ∀ {outputs : List TransactionOutput}
    {ps : List Push} {d : DeltaState}, Records height timestamp view ks ps ss d →
    Records height timestamp view ks (ps ++ outputs.map (·.push unlockTime)) ss
      (redoOutputs d unlockTime outputs).1 := by
  intro outputs
  induction outputs with
  | nil =>
    intro ps d hd
    simpa [CryoNero.redoOutputs] using hd
  | cons output outputs ih =>
    intro ps d hd
    obtain ⟨amount, ⟨o⟩⟩ := output
    have hone := ih (hd.pushAmountOutput (amount, unlockTime, o.key))
    rw [List.append_assoc] at hone
    exact hone

end DeltaState

/-! ## Carrying a delta over -/

section Apply

variable {κ β : Type} [DecidableEq κ]

private theorem filter_flatMap_of_nodup : ∀ {l : List (κ × List β)} (a : κ), (l.map Prod.fst).Nodup →
    ((l.flatMap fun p ↦ p.2.map fun x ↦ (p.1, x)).filter (·.1 = a)).map Prod.snd =
      ((l.find? (·.1 = a)).map Prod.snd).getD [] := by
  intro l
  induction l with
  | nil => intro a _; rfl
  | cons p l ih =>
    intro a hnodup
    rw [List.map_cons, List.nodup_cons] at hnodup
    rw [List.flatMap_cons, List.filter_append, List.map_append, ih a hnodup.2, List.find?_cons]
    by_cases hp : p.1 = a
    · have hrest : l.find? (·.1 = a) = none := by
        rw [List.find?_eq_none]
        rintro q hq
        simp only [decide_eq_true_eq]
        rintro rfl
        exact hnodup.1 (by rw [hp]; exact List.mem_map_of_mem hq)
      rw [hrest]
      simp [hp, List.filter_map, Function.comp_def]
    · simp [hp, List.filter_map, Function.comp_def]

end Apply

namespace DeltaState

variable {height : Height} {timestamp : Timestamp} {view : StateView} {ks ks' : List KeyImage}
  {ps ps' : List Push} {ss ss' : List Spend} {d d' delta delta' : DeltaState}

private theorem find?_toList {κ ν : Type} [Ord κ] [Std.TransOrd κ] [Std.LawfulEqOrd κ] [DecidableEq κ]
    (t : Table κ ν) (a : κ) : (t.toList.find? (·.1 = a)).map Prod.snd = t[a]? := by
  cases hfind : t.toList.find? (·.1 = a) with
  | none =>
    rw [List.find?_eq_none] at hfind
    cases ha : t[a]? with
    | none => rfl
    | some v => exact absurd (by simp) (hfind _ (Table.mem_toList.mpr ha))
  | some p =>
    have hp := List.find?_some hfind
    simp only [decide_eq_true_eq] at hp
    have hmem := Table.mem_toList.mp (List.mem_of_find?_eq_some (a := (p.1, p.2)) hfind)
    rw [← hp]
    exact hmem.symm

/-- **A delta is carried over as its lists are**, in the order of its tables. -/
theorem Records.apply_eq {σ : Type} [IBlockChainState σ]
    (hd : Records height timestamp view ks ps ss d) (parent : σ) :
    ∃ ks' ps', ks.Perm ks' ∧ (∀ amount, pushesOf ps amount = pushesOf ps' amount) ∧
      d.apply parent = applyLists height ks' ps' ss parent := by
  refine ⟨d.keyimages.toList.map Prod.fst,
    d.globalAmounts.toList.flatMap fun p ↦ p.2.map fun x ↦ (p.1, x), ?_, ?_, ?_⟩
  · rw [List.perm_ext_iff_of_nodup hd.nodup (Table.nodup_keys_toList _)]
    intro ki
    rw [List.mem_map]
    constructor
    · intro hki
      exact ⟨(ki, height), Table.mem_toList.mpr ((hd.keyimages ki height).mpr ⟨hki, rfl⟩), rfl⟩
    · rintro ⟨⟨k, h⟩, hmem, rfl⟩
      exact ((hd.keyimages k h).mp (Table.mem_toList.mp hmem)).1
  · intro amount
    rw [← hd.pushed, pushesOf, filter_flatMap_of_nodup amount (Table.nodup_keys_toList _),
      find?_toList]
    rfl
  · have hkeys (s : σ) : d.keyimages.toList.foldlM
        (fun s ki ↦ IBlockChainState.storeKeyimage ki.1 ki.2 s) s =
        (d.keyimages.toList.map Prod.fst).foldlM
          (fun s ki ↦ (IBlockChainState.storeKeyimage ki height s : Except Fault σ)) s := by
      rw [List.foldlM_map]
      have hvals : ∀ p ∈ d.keyimages.toList, p.2 = height := fun p hp ↦
        ((hd.keyimages p.1 p.2).mp (Table.mem_toList.mp hp)).2
      generalize d.keyimages.toList = l at hvals
      induction l generalizing s with
      | nil => rfl
      | cons p l ih =>
        rw [List.foldlM_cons, List.foldlM_cons, hvals p List.mem_cons_self]
        exact bind_congr fun s' ↦ ih s' fun q hq ↦ hvals q (List.mem_cons_of_mem p hq)
    have hpushes (s : σ) : d.globalAmounts.toList.foldlM (fun s amp ↦
        amp.2.foldlM (fun s el ↦
          IBlockChainState.pushAmountOutput amp.1 el.1 d.blockHeight el.2 s) s) s =
        (d.globalAmounts.toList.flatMap fun p ↦ p.2.map fun x ↦ (p.1, x)).foldlM
          (fun s p ↦ (IBlockChainState.pushAmountOutput p.1 p.2.1 height p.2.2 s :
            Except Fault σ)) s := by
      rw [hd.blockHeight]
      generalize d.globalAmounts.toList = l
      induction l generalizing s with
      | nil => rfl
      | cons p l ih =>
        rw [List.foldlM_cons, List.flatMap_cons, List.foldlM_append, List.foldlM_map]
        exact bind_congr fun s' ↦ ih s'
    unfold DeltaState.apply applyLists
    rw [hkeys, hd.spent]
    refine bind_congr fun s ↦ ?_
    rw [hpushes]

private theorem Records.applyLists_delta {ks₀ : List KeyImage} {ps₀ : List Push}
    {ss₀ : List Spend} (hdelta : Records height timestamp view ks₀ ps₀ ss₀ delta) :
    applyLists height ks ps ss delta = .ok delta' →
      (ks₀ ++ ks).Nodup ∧ Records height timestamp view (ks₀ ++ ks) (ps₀ ++ ps) (ss₀ ++ ss) delta' := by
  intro h
  unfold applyLists at h
  obtain ⟨d₁, h₁, h⟩ := bind_eq_ok.mp h
  obtain ⟨d₂, h₂, h₃⟩ := bind_eq_ok.mp h
  have hd₁ := foldlM_ok (fun done d ↦ Records height timestamp view (ks₀ ++ done) ps₀ ss₀ d) h₁
    (by simpa using hdelta) (fun done x rest t t' _ ht hx ↦ by
      obtain ⟨hfresh, rfl⟩ := ht.storeKeyimage_iff.mp hx
      rw [← List.append_assoc]
      exact ht.insertKeyimage hfresh)
  have hd₂ := foldlM_ok (fun done d ↦ Records height timestamp view (ks₀ ++ ks) (ps₀ ++ done) ss₀ d)
    h₂ (by simpa using hd₁) (fun done x rest t t' _ ht hx ↦ by
      cases hx
      rw [← List.append_assoc]
      exact ht.pushAmountOutput x)
  have hd₃ := foldlM_ok (fun done d ↦ Records height timestamp view (ks₀ ++ ks) (ps₀ ++ ps)
    (ss₀ ++ done) d) h₃ (by simpa using hd₂) (fun done x rest t t' _ ht hx ↦ by
      cases hx
      rw [← List.append_assoc]
      exact ht.spendOutput x)
  exact ⟨hd₃.nodup, hd₃⟩

/-- Fresh key images are all that carrying lists over to a delta needs. -/
theorem Records.applyLists_delta_completes {ks₀ : List KeyImage} {ps₀ : List Push}
    {ss₀ : List Spend} (hdelta : Records height timestamp view ks₀ ps₀ ss₀ delta)
    (ps : List Push) (ss : List Spend) (hnodup : (ks₀ ++ ks).Nodup) :
    ∃ delta', applyLists height ks ps ss delta = .ok delta' := by
  obtain ⟨d₁, h₁, -⟩ := foldlM_completes
    (f := fun s ki ↦ IBlockChainState.storeKeyimage (σ := DeltaState) ki height s) (l := ks)
    (fun done d ↦ Records height timestamp view (ks₀ ++ done) ps₀ ss₀ d) (s := delta)
    (by simpa using hdelta) (fun done x rest t hl ht ↦ by
      have hfresh : x ∉ ks₀ ++ done := by
        rw [hl, ← List.append_assoc, List.nodup_middle, List.nodup_cons] at hnodup
        exact fun hx ↦ hnodup.1 (List.mem_append_left _ hx)
      refine ⟨_, ht.storeKeyimage_iff.mpr ⟨hfresh, rfl⟩, ?_⟩
      rw [← List.append_assoc]
      exact ht.insertKeyimage hfresh)
  obtain ⟨d₂, h₂, -⟩ := foldlM_completes
    (f := fun (s : DeltaState) (p : Push) ↦
      IBlockChainState.pushAmountOutput p.1 p.2.1 height p.2.2 s) (l := ps)
    (fun _ _ ↦ True) (s := d₁) trivial (fun _ x _ t _ _ ↦ ⟨_, rfl, trivial⟩)
  obtain ⟨d₃, h₃, -⟩ := foldlM_completes
    (f := fun (s : DeltaState) (mo : Spend) ↦ IBlockChainState.spendOutput mo.1 mo.2 s) (l := ss)
    (fun _ _ ↦ True) (s := d₂) trivial (fun _ x _ t _ _ ↦ ⟨_, rfl, trivial⟩)
  exact ⟨d₃, bind_eq_ok.mpr ⟨d₁, h₁, bind_eq_ok.mpr ⟨d₂, h₂, h₃⟩⟩⟩

end DeltaState

/-! ## Transactions and blocks -/

@[simp] theorem liftFault_eq_ok {α : Type} {x : Except Fault α} {a : α} :
    liftFault x = .ok a ↔ x = .ok a := by
  cases x <;> simp [liftFault]

namespace DeltaState

variable {env : Env} {height : Height} {timestamp : Timestamp} {view : StateView}
  {ks : List KeyImage} {ps : List Push} {ss : List Spend} {delta delta' : DeltaState}

/-- **A transaction that was redone** is recorded, and spends no key image twice. -/
theorem Records.redoTransaction {tx : Transaction} {checkSigs : Bool} {gis : List UInt32}
    {conflict : Height} (hdelta : Records height timestamp view ks ps ss delta)
    (h : redoTransactionGetError env tx delta checkSigs = .ok (delta', gis, conflict)) :
    Records height timestamp view (ks ++ tx.keyImages) (ps ++ tx.pushes) (ss ++ tx.spends)
      delta' := by
  unfold redoTransactionGetError at h
  obtain ⟨acc, hacc, h⟩ := bind_eq_ok.mp h
  obtain ⟨d, hd, h⟩ := bind_eq_ok.mp h
  cases h
  rw [liftFault_eq_ok] at hd
  have hout : Records delta.blockHeight delta.unlockTimestamp delta.view tx.keyImages tx.pushes
    tx.spends (CryoNero.redoOutputs acc.1 tx.unlockTime tx.outputs).1 :=
    (Records.empty.redoInputs hacc).redoOutputs
  rw [hdelta.blockHeight] at hout
  obtain ⟨ks', ps', hks, hps, happly⟩ := hout.apply_eq delta
  rw [happly] at hd
  obtain ⟨-, hrecords⟩ := hdelta.applyLists_delta hd
  refine hrecords.congr (hks.symm.append_left ks) fun amount ↦ ?_
  rw [pushesOf_append, pushesOf_append, ← hps]

/-- **A block that was redone** is recorded. -/
theorem Records.redoBlockDelta {block : Block} {gis : List (List UInt32)}
    (hdelta : Records height timestamp view [] [] [] delta)
    (h : redoBlockDelta env block delta = .ok (delta', gis)) :
    Records height timestamp view block.keyImages block.pushes block.spends delta' := by
  unfold CryoNero.redoBlockDelta at h
  have hall := foldlM_ok (fun (done : List Transaction) (acc : DeltaState × List (List UInt32)) ↦
    Records height timestamp view (done.flatMap (·.keyImages)) (done.flatMap (·.pushes))
      (done.flatMap (·.spends)) acc.1) h hdelta ?_
  · exact hall
  · intro done x rest acc acc' _ hacc hx
    obtain ⟨⟨d, gis, conflict⟩, hd, hx⟩ := bind_eq_ok.mp hx
    cases hx
    rw [List.flatMap_append, List.flatMap_append, List.flatMap_append, List.flatMap_singleton,
      List.flatMap_singleton, List.flatMap_singleton]
    exact hacc.redoTransaction hd

end DeltaState

end CryoNero
