import CryoNero.Chain.Spends
import CryoNero.Ledger.Created

/-!
# Transactions on the database itself

A delta collects what transactions do, and is carried over to the database in the end. Here the same
transactions are executed one after another on the indexes of the database, without a delta: each input
marks its output and stores its key image, each output is pushed. What comes of that is what comes of
the delta, unless an input refers to an output that its own transaction or a later one creates: without
a delta there is nothing to mark yet.

While the delta is pending, it reads as the indexes will read, apart from the flags of spent outputs.
-/

namespace CryoNero

open Seria Store

/-! ## Execution -/

namespace Index

def executeInput (height : Height) (idx : Index) (input : TransactionInput) : Except Fault Index :=
  match input with
  | .coinbaseInput _ => .ok idx
  | .keyInput i =>
    let idx :=
      match i.outputIndexes with
      | [globalIndex] => idx.spendOutput i.amount globalIndex true
      | _ => idx
    idx.storeKeyimage i.keyImage height

/-- Push an output and append its global index to those before it. -/
def executeOutput (height : Height) (unlockTime : UnlockMoment) (acc : Index × List UInt32)
    (output : TransactionOutput) : Except Fault (Index × List UInt32) :=
  match output.target with
  | .keyOutput o => do
    let idx ← acc.1.pushAmountOutput output.amount unlockTime height o.key
    return (idx, acc.2 ++ [acc.1.nextGlobalIndexForAmount output.amount])

def executeTransaction (height : Height) (idx : Index) (tx : Transaction) :
    Except Fault (Index × List UInt32) := do
  let idx ← tx.inputs.foldlM (executeInput height) idx
  tx.outputs.foldlM (executeOutput height tx.unlockTime) (idx, [])

/-- Execute transactions in a block of some height: the indexes afterwards, and the global indices of
the outputs. -/
def executeTransactions (height : Height) (idx : Index) (txs : List Transaction) :
    Except Fault (Index × List (List UInt32)) :=
  txs.foldlM (fun acc tx ↦ do
    let p ← acc.1.executeTransaction height tx
    return (p.1, acc.2 ++ [p.2])) (idx, [])

/-- The same key images, outputs and next global indices. -/
structure SameState (idx idx' : Index) : Prop where
  keyimages : idx.keyimages = idx'.keyimages
  amountOutputs : idx.amountOutputs = idx'.amountOutputs
  nextGlobalIndexForAmount : ∀ amount,
    idx.nextGlobalIndexForAmount amount = idx'.nextGlobalIndexForAmount amount

end Index

/-- Redo transactions one after another into a delta, some of them with their signatures checked. -/
def redoTransactions (env : Env) (delta : DeltaState) (txs : List (Transaction × Bool)) :
    Except Stop (DeltaState × List (List UInt32)) :=
  txs.foldlM (fun acc tx ↦ do
    let p ← redoTransactionGetError env tx.1 acc.1 tx.2
    .ok (p.1, acc.2 ++ [p.2.1])) (delta, [])

/-! ## Spends that do not refer ahead -/

/-- The number of outputs of an amount, of `n` and of some pushes. -/
def countWith (n : Amount → ℕ) (ps : List Push) (amount : Amount) : ℕ :=
  n amount + (pushesOf ps amount).length

/-- None of the spends refers to an output that is pushed after the first `ps`, of `total` in all. -/
def NotAhead (n total : Amount → ℕ) (ps : List Push) (ss : List Spend) : Prop :=
  ∀ mo ∈ ss, ∀ g, countWith n ps mo.1 ≤ g → g < total mo.1 → g < 2 ^ 32 → mo.2 ≠ UInt32.ofNat g

variable {n total : Amount → ℕ} {ps qs : List Push} {ss ss' : List Spend}

theorem countWith_append (n : Amount → ℕ) (ps qs : List Push) (amount : Amount) :
    countWith n (ps ++ qs) amount = countWith n ps amount + (pushesOf qs amount).length := by
  rw [countWith, countWith, pushesOf_append, List.length_append, Nat.add_assoc]

theorem NotAhead.later (h : NotAhead n total ps ss) (qs : List Push) :
    NotAhead n total (ps ++ qs) ss := by
  intro mo hmo g hle
  rw [countWith_append] at hle
  exact h mo hmo g (by omega)

theorem NotAhead.append (h : NotAhead n total ps ss) (h' : NotAhead n total ps ss') :
    NotAhead n total ps (ss ++ ss') := by
  intro mo hmo
  rcases List.mem_append.mp hmo with hmo | hmo
  · exact h mo hmo
  · exact h' mo hmo

private theorem indicesAfter_concat (n : Amount → ℕ) (done ps : List Push) (p : Push) :
    indicesAfter n done (ps ++ [p]) =
      indicesAfter n done ps ++ [UInt32.ofNat (countWith n (done ++ ps) p.1)] := by
  induction ps generalizing done with
  | nil => simp [indicesAfter, countWith]
  | cons q ps ih =>
    rw [List.cons_append, indicesAfter, ih, indicesAfter, List.append_assoc, List.singleton_append,
      List.cons_append]

namespace Index

variable {idx idx₀ idx' : Index} {f : OutputStacks} {height : Height} {ks : List KeyImage}

theorem length_pushAll (f : OutputStacks) (height : Height) (ps : List Push) (amount : Amount) :
    (f.pushAll height ps amount).length = countWith (fun a ↦ (f a).length) ps amount := by
  rw [OutputStacks.pushAll, List.length_append, List.length_map, countWith]

theorem Redone.nextGlobalIndexForAmount (h : Redone height ks ps ss idx₀ idx)
    (hf : idx₀.Outputs f) (amount : Amount) : idx.nextGlobalIndexForAmount amount =
      UInt32.ofNat (countWith (fun a ↦ (f a).length) ps amount) := by
  rw [(h.outputs hf).2.nextGlobalIndexForAmount, OutputStacks.length_markSpent, length_pushAll]

/-- The spends of an input, as they are marked. -/
def markSpend (idx : Index) (input : KeyInput) : Index :=
  match input.outputIndexes with
  | [globalIndex] => idx.spendOutput input.amount globalIndex true
  | _ => idx

theorem Redone.markSpend (h : Redone height ks ps ss idx₀ idx) (input : KeyInput) :
    Redone height ks ps (ss ++ input.spend?.toList) idx₀ (idx.markSpend input) := by
  obtain ⟨amount, outputIndexes, keyImage⟩ := input
  rcases outputIndexes with _ | ⟨g, _ | ⟨g', rest⟩⟩
  · rw [KeyInput.spend?, Option.toList_none, List.append_nil]
    exact h
  · exact h.spend (amount, g)
  · rw [KeyInput.spend?, Option.toList_none, List.append_nil]
    exact h

private theorem executeInput_eq_ok {i : KeyInput} : idx.executeInput height (.keyInput i) = .ok idx' ↔
    (idx.markSpend i).keyimages[i.keyImage]? = none ∧ idx' = { idx.markSpend i with
      keyimages := (idx.markSpend i).keyimages.insert i.keyImage height } :=
  storeKeyimage_eq_ok

/-- An input is executed. -/
theorem Redone.executeInput {input : TransactionInput} (h : Redone height ks ps ss idx₀ idx)
    (hok : idx.executeInput height input = .ok idx') :
    Redone height (ks ++ (DeltaState.keyInputsOf [input]).map (·.keyImage)) ps
      (ss ++ (DeltaState.keyInputsOf [input]).filterMap (·.spend?)) idx₀ idx' := by
  cases input with
  | coinbaseInput c =>
    cases hok
    simpa [DeltaState.keyInputsOf, TransactionPrefix.keyInputs] using h
  | keyInput i =>
    obtain ⟨hfresh, rfl⟩ := executeInput_eq_ok.mp hok
    have hspend : (DeltaState.keyInputsOf [.keyInput i]).filterMap (·.spend?) = i.spend?.toList := by
      simp only [DeltaState.keyInputsOf, TransactionPrefix.keyInputs, List.filterMap_cons,
        List.filterMap_nil]
      cases i.spend? <;> rfl
    rw [hspend]
    exact (h.markSpend i).keyimage hfresh

private theorem Redone.executeInputs {inputs : List TransactionInput} (h : Redone height ks ps ss idx₀ idx)
    (hok : inputs.foldlM (Index.executeInput height) idx = .ok idx') :
    Redone height (ks ++ (DeltaState.keyInputsOf inputs).map (·.keyImage)) ps
      (ss ++ (DeltaState.keyInputsOf inputs).filterMap (·.spend?)) idx₀ idx' := by
  refine foldlM_ok (fun done t ↦ Redone height
    (ks ++ (DeltaState.keyInputsOf done).map (·.keyImage)) ps
    (ss ++ (DeltaState.keyInputsOf done).filterMap (·.spend?)) idx₀ t) hok ?_ ?_
  · simpa [DeltaState.keyInputsOf, TransactionPrefix.keyInputs] using h
  · intro done x rest t t' _ ht hx
    rw [DeltaState.keyInputsOf_append, List.map_append, List.filterMap_append, ← List.append_assoc,
      ← List.append_assoc]
    exact ht.executeInput hx

private theorem Redone.executeInputs_completes {inputs : List TransactionInput}
    (h : Redone height ks ps ss idx₀ idx)
    (hnodup : (ks ++ (DeltaState.keyInputsOf inputs).map (·.keyImage)).Nodup)
    (hfresh : ∀ ki ∈ (DeltaState.keyInputsOf inputs).map (·.keyImage), idx₀.keyimages[ki]? = none) :
    ∃ idx', inputs.foldlM (Index.executeInput height) idx = .ok idx' := by
  have hloop := foldlM_completes (f := Index.executeInput height) (l := inputs)
    (fun done t ↦ Redone height
      (ks ++ (DeltaState.keyInputsOf done).map (·.keyImage)) ps
      (ss ++ (DeltaState.keyInputsOf done).filterMap (·.spend?)) idx₀ t) (s := idx) ?_ ?_
  · obtain ⟨idx', hok, -⟩ := hloop
    exact ⟨idx', hok⟩
  · simpa [DeltaState.keyInputsOf, TransactionPrefix.keyInputs] using h
  · intro done x rest t hl ht
    have hstep : ∃ t', Index.executeInput height t x = .ok t' := by
      cases x with
      | coinbaseInput c => exact ⟨_, rfl⟩
      | keyInput i =>
        refine ⟨_, executeInput_eq_ok.mpr ⟨?_, rfl⟩⟩
        have hkeys : (DeltaState.keyInputsOf inputs).map (·.keyImage) =
            (DeltaState.keyInputsOf done).map (·.keyImage) ++
              i.keyImage :: (DeltaState.keyInputsOf rest).map (·.keyImage) := by
          rw [hl, DeltaState.keyInputsOf_append, List.map_append]
          rfl
        rw [hkeys] at hnodup hfresh
        rw [← List.append_assoc, List.nodup_middle, List.nodup_cons] at hnodup
        rw [(ht.markSpend i).keyimages, if_neg fun hmem ↦ hnodup.1 (List.mem_append_left _ hmem)]
        exact hfresh _ (List.mem_append_right _ List.mem_cons_self)
    obtain ⟨t', ht'⟩ := hstep
    refine ⟨t', ht', ?_⟩
    rw [DeltaState.keyInputsOf_append, List.map_append, List.filterMap_append, ← List.append_assoc,
      ← List.append_assoc]
    exact ht.executeInput ht'

private theorem executeOutput_eq_ok {unlockTime : UnlockMoment} {acc acc' : Index × List UInt32}
    {output : TransactionOutput} :
    Index.executeOutput height unlockTime acc output = .ok acc' ↔
      acc.1.pushAmountOutput (output.push unlockTime).1 (output.push unlockTime).2.1 height
        (output.push unlockTime).2.2 = .ok acc'.1 ∧
      acc'.2 = acc.2 ++ [acc.1.nextGlobalIndexForAmount (output.push unlockTime).1] := by
  obtain ⟨amount, ⟨o⟩⟩ := output
  constructor
  · intro h
    obtain ⟨t, ht, h⟩ := bind_eq_ok.mp h
    cases h
    exact ⟨ht, rfl⟩
  · rintro ⟨ht, hgis⟩
    exact bind_eq_ok.mpr ⟨acc'.1, ht, congrArg Except.ok (Prod.ext rfl hgis.symm)⟩

theorem countWith_mono (n : Amount → ℕ) {ps qs : List Push} (h : ps <+: qs) (amount : Amount) :
    countWith n ps amount ≤ countWith n qs amount := by
  obtain ⟨rest, rfl⟩ := h
  rw [countWith_append]
  exact Nat.le_add_right _ _

private theorem Redone.pushNotAhead {p : Push} (h : Redone height ks ps ss idx₀ idx) (hf : idx₀.Outputs f)
    (hok : idx.pushAmountOutput p.1 p.2.1 height p.2.2 = .ok idx')
    (hahead : NotAhead (fun a ↦ (f a).length) total ps ss)
    (htotal : countWith (fun a ↦ (f a).length) ps p.1 < total p.1) :
    Redone height ks (ps ++ [p]) ss idx₀ idx' := by
  refine h.push hok fun {f'} hf' hlt hmem ↦ ?_
  obtain rfl := hf'.stacked.unique hf.stacked
  rw [length_pushAll] at hlt hmem
  exact hahead _ hmem _ le_rfl htotal hlt rfl

private theorem countWith_lt_total {unlockTime : UnlockMoment} {outputs done rest : List TransactionOutput}
    {x : TransactionOutput} (hl : outputs = done ++ x :: rest)
    (htotal : ∀ amount, countWith n (ps ++ outputs.map (·.push unlockTime)) amount ≤ total amount) :
    countWith n (ps ++ done.map (·.push unlockTime)) (x.push unlockTime).1 <
      total (x.push unlockTime).1 := by
  have hone : countWith n (ps ++ done.map (·.push unlockTime)) (x.push unlockTime).1 <
      countWith n (ps ++ done.map (·.push unlockTime) ++ [x.push unlockTime])
        (x.push unlockTime).1 := by
    rw [countWith_append _ _ [x.push unlockTime]]
    simp [pushesOf]
  refine hone.trans_le ((countWith_mono _ ?_ _).trans (htotal _))
  exact ⟨rest.map (·.push unlockTime), by rw [hl]; simp⟩

private theorem Redone.executeOutputs {unlockTime : UnlockMoment} {outputs : List TransactionOutput}
    {acc : Index × List UInt32} (h : Redone height ks ps ss idx₀ idx) (hf : idx₀.Outputs f)
    (hahead : NotAhead (fun a ↦ (f a).length) total ps ss)
    (htotal : ∀ amount, countWith (fun a ↦ (f a).length)
      (ps ++ outputs.map (·.push unlockTime)) amount ≤ total amount)
    (hok : outputs.foldlM (Index.executeOutput height unlockTime) (idx, []) = .ok acc) :
    Redone height ks (ps ++ outputs.map (·.push unlockTime)) ss idx₀ acc.1 ∧
      acc.2 = indicesAfter (fun a ↦ (f a).length) ps (outputs.map (·.push unlockTime)) := by
  refine foldlM_ok (fun done (acc : Index × List UInt32) ↦
    Redone height ks (ps ++ done.map (·.push unlockTime)) ss idx₀ acc.1 ∧
      acc.2 = indicesAfter (fun a ↦ (f a).length) ps (done.map (·.push unlockTime))) hok ?_ ?_
  · rw [List.map_nil, List.append_nil]
    exact ⟨h, rfl⟩
  · rintro done x rest acc acc' hl ⟨hacc, hgis⟩ hx
    obtain ⟨hpush, hgis'⟩ := executeOutput_eq_ok.mp hx
    have hlt := countWith_lt_total hl htotal
    refine ⟨?_, ?_⟩
    · rw [List.map_append, List.map_singleton, ← List.append_assoc]
      exact hacc.pushNotAhead hf hpush (hahead.later _) hlt
    · rw [hgis', hgis, List.map_append, List.map_singleton, indicesAfter_concat,
        hacc.nextGlobalIndexForAmount hf]

private theorem Redone.executeOutputs_completes {unlockTime : UnlockMoment}
    {outputs : List TransactionOutput} (h : Redone height ks ps ss idx₀ idx) (hf : idx₀.Outputs f)
    (hahead : NotAhead (fun a ↦ (f a).length) total ps ss)
    (htotal : ∀ amount, countWith (fun a ↦ (f a).length)
      (ps ++ outputs.map (·.push unlockTime)) amount ≤ total amount)
    (hroom : ∀ amount, total amount ≤ 2 ^ 32) :
    ∃ acc, outputs.foldlM (Index.executeOutput height unlockTime) (idx, []) = .ok acc := by
  have hloop := foldlM_completes (f := Index.executeOutput height unlockTime) (l := outputs)
    (fun done (acc : Index × List UInt32) ↦
      Redone height ks (ps ++ done.map (·.push unlockTime)) ss idx₀ acc.1) (s := (idx, [])) ?_ ?_
  · obtain ⟨acc, hok, -⟩ := hloop
    exact ⟨acc, hok⟩
  · rw [List.map_nil, List.append_nil]
    exact h
  · rintro done x rest acc hl hacc
    have hlt := countWith_lt_total hl htotal
    have hspace : (((f.pushAll height (ps ++ done.map (·.push unlockTime))).markSpent true ss)
        (x.push unlockTime).1).length < 2 ^ 32 := by
      rw [OutputStacks.length_markSpent, length_pushAll]
      exact hlt.trans_le (hroom _)
    obtain ⟨idx', hpush⟩ := (hacc.outputs hf).2.pushAmountOutput_completes hspace
      (x.push unlockTime).2.1 height (x.push unlockTime).2.2
    refine ⟨(idx', _), executeOutput_eq_ok.mpr ⟨hpush, rfl⟩, ?_⟩
    rw [List.map_append, List.map_singleton, ← List.append_assoc]
    exact hacc.pushNotAhead hf hpush (hahead.later _) hlt

/-! ## Transactions -/

/-- A transaction is executed. -/
theorem Redone.executeTransaction {tx : Transaction} {r : Index × List UInt32}
    (h : Redone height ks ps ss idx₀ idx) (hf : idx₀.Outputs f)
    (hahead : NotAhead (fun a ↦ (f a).length) total ps (ss ++ tx.spends))
    (htotal : ∀ amount, countWith (fun a ↦ (f a).length) (ps ++ tx.pushes) amount ≤ total amount)
    (hok : idx.executeTransaction height tx = .ok r) :
    Redone height (ks ++ tx.keyImages) (ps ++ tx.pushes) (ss ++ tx.spends) idx₀ r.1 ∧
      r.2 = indicesAfter (fun a ↦ (f a).length) ps tx.pushes := by
  obtain ⟨idx₁, hinputs, houtputs⟩ := bind_eq_ok.mp hok
  have hspent : Redone height (ks ++ tx.keyImages) ps (ss ++ tx.spends) idx₀ idx₁ :=
    h.executeInputs hinputs
  exact hspent.executeOutputs hf hahead htotal houtputs

private theorem Redone.executeTransaction_completes {tx : Transaction}
    (h : Redone height ks ps ss idx₀ idx) (hf : idx₀.Outputs f)
    (hahead : NotAhead (fun a ↦ (f a).length) total ps (ss ++ tx.spends))
    (htotal : ∀ amount, countWith (fun a ↦ (f a).length) (ps ++ tx.pushes) amount ≤ total amount)
    (hroom : ∀ amount, total amount ≤ 2 ^ 32) (hnodup : (ks ++ tx.keyImages).Nodup)
    (hfresh : ∀ ki ∈ tx.keyImages, idx₀.keyimages[ki]? = none) :
    ∃ r, idx.executeTransaction height tx = .ok r := by
  obtain ⟨idx₁, hinputs⟩ := h.executeInputs_completes hnodup hfresh
  have hspent : Redone height (ks ++ tx.keyImages) ps (ss ++ tx.spends) idx₀ idx₁ :=
    h.executeInputs hinputs
  obtain ⟨acc, houtputs⟩ := hspent.executeOutputs_completes hf hahead htotal hroom
  exact ⟨acc, bind_eq_ok.mpr ⟨idx₁, hinputs, houtputs⟩⟩

/-- No transaction of a list marks an output that it or a later one creates. -/
def NoneAhead (f : OutputStacks) (txs : List Transaction) : Prop :=
  ∀ done tx rest, txs = done ++ tx :: rest →
    NotAhead (fun a ↦ (f a).length) (countWith (fun a ↦ (f a).length) (txs.flatMap (·.pushes)))
      (done.flatMap (·.pushes)) tx.spends

/-- What the spends of the first transactions of a list, and of the next one, refer to. -/
theorem NoneAhead.spends {txs done rest : List Transaction} {tx : Transaction}
    (h : NoneAhead f txs) (hl : txs = done ++ tx :: rest) :
    NotAhead (fun a ↦ (f a).length) (countWith (fun a ↦ (f a).length) (txs.flatMap (·.pushes)))
      (done.flatMap (·.pushes)) (done.flatMap (·.spends) ++ tx.spends) := by
  refine .append ?_ (h done tx rest hl)
  intro mo hmo
  obtain ⟨tx', htx', hmo'⟩ := List.mem_flatMap.mp hmo
  obtain ⟨before, after, rfl⟩ := List.append_of_mem htx'
  have hbefore := h before tx' (after ++ tx :: rest) (by rw [hl, List.append_assoc, List.cons_append])
  rw [List.flatMap_append]
  exact hbefore.later _ mo hmo'

private theorem pushes_start {txs done rest : List Transaction} {tx : Transaction}
    (hl : txs = done ++ tx :: rest) :
    done.flatMap (·.pushes) ++ tx.pushes <+: txs.flatMap (·.pushes) := by
  rw [hl, List.flatMap_append, List.flatMap_cons, ← List.append_assoc]
  exact List.prefix_append _ _

/-- **Transactions are executed.** -/
private theorem executeTransactions_redone {txs : List Transaction} {r : Index × List (List UInt32)}
    (hf : idx.Outputs f) (hahead : NoneAhead f txs)
    (hok : idx.executeTransactions height txs = .ok r) :
    Redone height (txs.flatMap (·.keyImages)) (txs.flatMap (·.pushes)) (txs.flatMap (·.spends)) idx
      r.1 ∧ r.2 = transactionIndicesAfter (fun a ↦ (f a).length) [] txs := by
  refine foldlM_ok (fun done (acc : Index × List (List UInt32)) ↦
    Redone height (done.flatMap (·.keyImages)) (done.flatMap (·.pushes)) (done.flatMap (·.spends))
      idx acc.1 ∧ acc.2 = transactionIndicesAfter (fun a ↦ (f a).length) [] done) hok ⟨.nil, rfl⟩ ?_
  rintro done tx rest acc acc' hl ⟨hacc, hgis⟩ hx
  obtain ⟨p, hp, hx⟩ := bind_eq_ok.mp hx
  cases hx
  obtain ⟨hstep, hindices⟩ := hacc.executeTransaction hf (hahead.spends hl) (fun amount ↦
    countWith_mono _ (pushes_start hl) amount) hp
  rw [List.flatMap_append, List.flatMap_append, List.flatMap_append, List.flatMap_singleton,
    List.flatMap_singleton, List.flatMap_singleton]
  refine ⟨hstep, ?_⟩
  rw [transactionIndicesAfter_concat, ← hgis, List.nil_append, ← hindices]

private theorem executeTransactions_completes {txs : List Transaction} (hf : idx.Outputs f)
    (hahead : NoneAhead f txs) (hnodup : (txs.flatMap (·.keyImages)).Nodup)
    (hfresh : ∀ ki ∈ txs.flatMap (·.keyImages), idx.keyimages[ki]? = none)
    (hroom : ∀ amount, (f amount).length + (pushesOf (txs.flatMap (·.pushes)) amount).length ≤ 2 ^ 32) :
    ∃ r, idx.executeTransactions height txs = .ok r := by
  have hloop := foldlM_completes
    (f := fun (acc : Index × List (List UInt32)) (tx : Transaction) ↦ do
      let p ← acc.1.executeTransaction height tx
      return (p.1, acc.2 ++ [p.2])) (l := txs)
    (fun done (acc : Index × List (List UInt32)) ↦
      Redone height (done.flatMap (·.keyImages)) (done.flatMap (·.pushes)) (done.flatMap (·.spends))
        idx acc.1) (s := (idx, [])) .nil ?_
  · obtain ⟨r, hok, -⟩ := hloop
    exact ⟨r, hok⟩
  · intro done tx rest acc hl hacc
    have htotal (amount : Amount) : countWith (fun a ↦ (f a).length)
        (done.flatMap (·.pushes) ++ tx.pushes) amount ≤
          countWith (fun a ↦ (f a).length) (txs.flatMap (·.pushes)) amount :=
      countWith_mono _ (pushes_start hl) amount
    have hkeys : txs.flatMap (·.keyImages) =
        done.flatMap (·.keyImages) ++ tx.keyImages ++ rest.flatMap (·.keyImages) := by
      rw [hl, List.flatMap_append, List.flatMap_cons, List.append_assoc]
    rw [hkeys] at hnodup hfresh
    obtain ⟨p, hp⟩ := hacc.executeTransaction_completes hf (hahead.spends hl) htotal hroom
      hnodup.of_append_left fun ki hki ↦
        hfresh ki (List.mem_append_left _ (List.mem_append_right _ hki))
    refine ⟨(p.1, acc.2 ++ [p.2]), bind_eq_ok.mpr ⟨p, hp, rfl⟩, ?_⟩
    rw [List.flatMap_append, List.flatMap_append, List.flatMap_append, List.flatMap_singleton,
      List.flatMap_singleton, List.flatMap_singleton]
    exact (hacc.executeTransaction hf (hahead.spends hl) htotal hp).1

private theorem applyLists_completes (hf : idx.Outputs f) (hnodup : ks.Nodup)
    (hfresh : ∀ ki ∈ ks, idx.keyimages[ki]? = none)
    (hroom : ∀ amount, countWith (fun a ↦ (f a).length) ps amount ≤ 2 ^ 32) (ss : List Spend) :
    ∃ idx', applyLists height ks ps ss idx = .ok idx' := by
  obtain ⟨idx₁, h₁, hr₁⟩ := foldlM_completes
    (f := fun (t : Index) ki ↦ IBlockChainState.storeKeyimage ki height t) (l := ks)
    (fun done t ↦ Redone height done [] [] idx t) (s := idx) .nil (fun done x rest t hl ht ↦ by
      rw [hl] at hnodup hfresh
      rw [List.nodup_middle, List.nodup_cons] at hnodup
      have hnone : t.keyimages[x]? = none := by
        rw [ht.keyimages, if_neg fun hmem ↦ hnodup.1 (List.mem_append_left _ hmem)]
        exact hfresh x (List.mem_append_right _ List.mem_cons_self)
      exact ⟨_, storeKeyimage_eq_ok.mpr ⟨hnone, rfl⟩, ht.keyimage hnone⟩)
  obtain ⟨idx₂, h₂, hr₂⟩ := foldlM_completes
    (f := fun (t : Index) (p : Push) ↦ IBlockChainState.pushAmountOutput p.1 p.2.1 height p.2.2 t)
    (l := ps) (fun done t ↦ Redone height ks done [] idx t) (s := idx₁) hr₁
    (fun done x rest t hl ht ↦ by
      have hlt : countWith (fun a ↦ (f a).length) done x.1 < 2 ^ 32 := by
        have hprefix : done ++ [x] <+: ps := ⟨rest, by rw [hl]; simp⟩
        have hle := (countWith_mono (fun a ↦ (f a).length) hprefix x.1).trans (hroom x.1)
        rw [countWith_append] at hle
        simp only [pushesOf, List.filter_cons_of_pos, decide_true, List.filter_nil, List.map_cons,
          List.map_nil, List.length_cons, List.length_nil] at hle
        omega
      have hspace : (((f.pushAll height done).markSpent true []) x.1).length < 2 ^ 32 := by
        rw [OutputStacks.length_markSpent, length_pushAll]
        exact hlt
      obtain ⟨t', hpush⟩ := (ht.outputs hf).2.pushAmountOutput_completes hspace x.2.1 height x.2.2
      exact ⟨t', hpush, ht.push hpush fun _ _ ↦ List.not_mem_nil⟩)
  obtain ⟨idx₃, h₃, -⟩ := foldlM_completes
    (f := fun (t : Index) (mo : Spend) ↦ IBlockChainState.spendOutput mo.1 mo.2 t) (l := ss)
    (fun _ _ ↦ True) (s := idx₂) trivial (fun _ x _ t _ _ ↦ ⟨_, rfl, trivial⟩)
  exact ⟨idx₃, bind_eq_ok.mpr ⟨idx₁, h₁, bind_eq_ok.mpr ⟨idx₂, h₂, h₃⟩⟩⟩

private theorem Redone.sameState {idx₁ idx₂ : Index} (h₁ : Redone height ks ps ss idx idx₁)
    (h₂ : Redone height ks ps ss idx idx₂) (hf : idx.Outputs f) : idx₁.SameState idx₂ where
  keyimages := Std.ExtTreeMap.ext_getElem? fun ki ↦ by rw [h₁.keyimages, h₂.keyimages]
  amountOutputs := (h₁.outputs hf).2.stacked.table_unique (h₂.outputs hf).2.stacked
  nextGlobalIndexForAmount amount := by
    rw [h₁.nextGlobalIndexForAmount hf, h₂.nextGlobalIndexForAmount hf]

end Index

/-! ## The delta -/

namespace DeltaState

variable {env : Env} {height : Height} {timestamp : Timestamp} {view : StateView}
  {ks : List KeyImage} {d d' delta delta' : DeltaState} {f : OutputStacks}

private theorem Records.lt_of_read {amount : Amount} {globalIndex : UInt32}
    {unp : UnlockTimePublickKeyHeightSpent} (hd : Records height timestamp view ks [] ss d)
    (h : d.readAmountOutput amount globalIndex = some unp) :
    globalIndex < view.nextGlobalIndexForAmount amount := by
  unfold DeltaState.readAmountOutput at h
  rw [hd.parentState, hd.pushed] at h
  dsimp only at h
  split_ifs at h with hlt
  · exact hlt
  · cases h

private theorem readRing_mem {view : StateView} {unlockHeight : Height} {unlockTimestamp : Timestamp}
    {amount : Amount} {indexes : List UInt32} {conflict : Height} {r : List PublicKey × Height}
    (h : readRing env view unlockHeight unlockTimestamp amount indexes conflict = .ok r) :
    ∀ g ∈ indexes, ∃ unp, view.readAmountOutput amount g = some unp := by
  refine foldlM_ok (fun done _ ↦ ∀ g ∈ done, ∃ unp, view.readAmountOutput amount g = some unp) h
    (fun _ hg ↦ by cases hg) fun done x rest acc acc' _ hdone hx g hg ↦ ?_
  rcases List.mem_append.mp hg with hg | hg
  · exact hdone g hg
  · rw [List.mem_singleton.mp hg]
    cases hread : view.readAmountOutput amount x with
    | none =>
      rw [hread] at hx
      cases hx
    | some unp => exact ⟨unp, rfl⟩

private theorem Records.spend_lt {tx : Transaction} {i : KeyInput} {j : ℕ} {c c' : Height}
    {ks' : List KeyImage} {ss' : List Spend}
    (hd : Records delta.blockHeight delta.unlockTimestamp delta.view ks' [] ss' d)
    (hdelta : Records height timestamp view ks ps ss delta)
    (hn : ∀ amount, view.nextGlobalIndexForAmount amount = UInt32.ofNat (n amount))
    (h : CryoNero.redoInput env tx true (d, c) (.keyInput i, j) = .ok (d', c')) :
    ∀ mo ∈ (keyInputsOf [.keyInput i]).filterMap (·.spend?), mo.2.toNat < countWith n ps mo.1 := by
  intro mo hmo
  obtain ⟨i', hi', hspend⟩ := List.mem_filterMap.mp hmo
  obtain rfl := List.mem_singleton.mp hi'
  obtain ⟨conflict, hcheck, -⟩ := bind_eq_ok.mp h
  change checkKeyInput _ _ _ _ _ _ = _ at hcheck
  unfold checkKeyInput at hcheck
  split at hcheck
  · cases hcheck
  split_ifs at hcheck with hnil
  obtain ⟨ring, hring, -⟩ := bind_eq_ok.mp hcheck
  have hread := readRing_mem hring
  obtain ⟨amount, outputIndexes, keyImage⟩ := i'
  rcases outputIndexes with _ | ⟨g, _ | ⟨g', rest⟩⟩
  · cases hspend
  · cases hspend
    obtain ⟨unp, hunp⟩ := hread (0 + g) List.mem_cons_self
    rw [UInt32.zero_add] at hunp
    have hlt := hd.lt_of_read hunp
    change g < delta.nextGlobalIndexForAmount amount at hlt
    rw [hdelta.nextGlobalIndexForAmount hn, UInt32.lt_iff_toNat_lt, UInt32.toNat_ofNat'] at hlt
    exact hlt.trans_le (Nat.mod_le _ _)
  · cases hspend

/-- **The only member of a ring that was checked** is an output that was there before. -/
private theorem Records.spends_lt {tx : Transaction} {gis : List UInt32} {conflict : Height}
    (hdelta : Records height timestamp view ks ps ss delta)
    (hn : ∀ amount, view.nextGlobalIndexForAmount amount = UInt32.ofNat (n amount))
    (h : redoTransactionGetError env tx delta true = .ok (delta', gis, conflict)) :
    ∀ mo ∈ tx.spends, mo.2.toNat < countWith n ps mo.1 := by
  unfold redoTransactionGetError at h
  obtain ⟨acc, hacc, -⟩ := bind_eq_ok.mp h
  have hall := foldlM_ok (fun (done : List (TransactionInput × ℕ)) (acc : DeltaState × Height) ↦
    Records delta.blockHeight delta.unlockTimestamp delta.view
      ((keyInputsOf (done.map Prod.fst)).map (·.keyImage)) []
      ((keyInputsOf (done.map Prod.fst)).filterMap (·.spend?)) acc.1 ∧
    ∀ mo ∈ (keyInputsOf (done.map Prod.fst)).filterMap (·.spend?), mo.2.toNat < countWith n ps mo.1)
    hacc ⟨Records.empty, fun _ hmo ↦ by cases hmo⟩ ?_
  · rw [List.zipIdx_map_fst] at hall
    exact hall.2
  · rintro done ⟨input, i⟩ rest ⟨d, c⟩ ⟨d', c'⟩ _ ⟨hd, hdone⟩ hx
    rw [List.map_append, List.map_singleton, keyInputsOf_append, List.map_append,
      List.filterMap_append]
    refine ⟨hd.redoInput hx, fun mo hmo ↦ ?_⟩
    rcases List.mem_append.mp hmo with hmo | hmo
    · exact hdone mo hmo
    · cases input with
      | coinbaseInput c => cases hmo
      | keyInput i =>
        exact hd.spend_lt hdelta hn hx mo hmo

variable {txs : List (Transaction × Bool)} {gis : List (List UInt32)}

/-- **Transactions that were redone** are recorded, and their outputs are numbered behind those of the
state below. Where signatures were checked, rings of one member do not refer ahead. -/
theorem Records.redoTransactions (hdelta : Records height timestamp view [] [] [] delta)
    (hn : ∀ amount, view.nextGlobalIndexForAmount amount = UInt32.ofNat (n amount))
    (h : CryoNero.redoTransactions env delta txs = .ok (delta', gis)) :
    Records height timestamp view ((txs.map Prod.fst).flatMap (·.keyImages))
        ((txs.map Prod.fst).flatMap (·.pushes)) ((txs.map Prod.fst).flatMap (·.spends)) delta' ∧
      gis = transactionIndicesAfter n [] (txs.map Prod.fst) ∧
      ∀ done tx rest, txs = done ++ (tx, true) :: rest → ∀ mo ∈ tx.spends,
        mo.2.toNat < countWith n ((done.map Prod.fst).flatMap (·.pushes)) mo.1 := by
  have hall := foldlM_ok
    (fun (before : List (Transaction × Bool)) (acc : DeltaState × List (List UInt32)) ↦
      Records height timestamp view ((before.map Prod.fst).flatMap (·.keyImages))
        ((before.map Prod.fst).flatMap (·.pushes)) ((before.map Prod.fst).flatMap (·.spends)) acc.1 ∧
      acc.2 = transactionIndicesAfter n [] (before.map Prod.fst) ∧
      ∀ done tx rest, before = done ++ (tx, true) :: rest → ∀ mo ∈ tx.spends,
        mo.2.toNat < countWith n ((done.map Prod.fst).flatMap (·.pushes)) mo.1) h
    ⟨hdelta, rfl, fun done tx rest hnil ↦ by simp at hnil⟩ ?_
  · exact hall
  · rintro before ⟨tx, checkSigs⟩ rest acc acc' _ ⟨hacc, hgis, hspends⟩ hx
    obtain ⟨⟨d, gi, conflict⟩, hd, hx⟩ := bind_eq_ok.mp hx
    cases hx
    refine ⟨?_, ?_, fun done tx' after hsplit mo hmo ↦ ?_⟩
    · rw [List.map_append, List.map_singleton, List.flatMap_append, List.flatMap_append,
        List.flatMap_append, List.flatMap_singleton, List.flatMap_singleton, List.flatMap_singleton]
      exact hacc.redoTransaction hd
    · rw [List.map_append, List.map_singleton, transactionIndicesAfter_concat, ← hgis, List.nil_append]
      exact congrArg (fun g ↦ acc.2 ++ [g]) (hacc.redoTransaction_indices hn hd)
    · -- the transaction is the new one, or one of those before it
      rcases List.eq_nil_or_concat after with rfl | ⟨after, last, rfl⟩
      · obtain ⟨rfl, hlast⟩ := List.append_inj' hsplit rfl
        cases hlast
        exact hacc.spends_lt hn hd mo hmo
      · rw [List.concat_eq_append, ← List.cons_append, ← List.append_assoc] at hsplit
        obtain ⟨hbefore, -⟩ := List.append_inj' hsplit rfl
        exact hspends done tx' after hbefore mo hmo

end DeltaState

namespace Index

variable {env : Env} {idx idx₂ : Index} {f : OutputStacks} {height : Height} {timestamp : Timestamp}
  {txs : List (Transaction × Bool)} {delta : DeltaState} {gis : List (List UInt32)}
  {ks : List KeyImage}

/-- No transaction that is redone unchecked marks an output that it or a later one creates. -/
def UncheckedNoneAhead (f : OutputStacks) (txs : List (Transaction × Bool)) : Prop :=
  ∀ done tx rest, txs = done ++ (tx, false) :: rest →
    NotAhead (fun a ↦ (f a).length)
      (countWith (fun a ↦ (f a).length) ((txs.map Prod.fst).flatMap (·.pushes)))
      ((done.map Prod.fst).flatMap (·.pushes)) tx.spends

private theorem UncheckedNoneAhead.noneAhead (h : UncheckedNoneAhead f txs)
    (hchecked : ∀ done tx rest, txs = done ++ (tx, true) :: rest → ∀ mo ∈ tx.spends,
      mo.2.toNat < countWith (fun a ↦ (f a).length) ((done.map Prod.fst).flatMap (·.pushes)) mo.1) :
    NoneAhead f (txs.map Prod.fst) := by
  intro done tx rest hl
  obtain ⟨done', rest', rfl, rfl, hrest⟩ := List.map_eq_append_iff.mp hl
  obtain ⟨⟨tx', checkSigs⟩, rest', rfl, rfl, rfl⟩ := List.map_eq_cons_iff.mp hrest
  cases checkSigs with
  | false => exact h done' tx' rest' rfl
  | true =>
    intro mo hmo g hle _ hlt hspend
    have hbelow := hchecked done' tx' rest' rfl mo hmo
    rw [hspend, toNat_ofNat_of_lt hlt] at hbelow
    omega

private theorem Redone.read_pending {d : DeltaState} (h : Redone height ks ps ss idx idx₂)
    (hd : DeltaState.Records height timestamp idx.view ks ps ss d) (hf : idx.Outputs f)
    (amount : Amount) (hroom : (f amount).length < 2 ^ 32) (globalIndex : UInt32) :
    (d.readAmountOutput amount globalIndex).map (·.created) =
      (idx₂.readAmountOutput amount globalIndex).map (·.created) := by
  have hnext : idx.view.nextGlobalIndexForAmount amount = UInt32.ofNat (f amount).length :=
    hf.nextGlobalIndexForAmount amount
  rw [(h.outputs hf).2.readAmountOutput, ← List.getElem?_map, OutputStacks.created_markSpent,
    OutputStacks.created_pushAll]
  unfold DeltaState.readAmountOutput
  rw [hd.parentState, hd.pushed, hd.blockHeight, hnext]
  dsimp only
  have hlt : globalIndex < UInt32.ofNat (f amount).length ↔ globalIndex.toNat < (f amount).length := by
    rw [UInt32.lt_iff_toNat_lt, toNat_ofNat_of_lt hroom]
  split_ifs with hbelow
  · have hread : idx.view.readAmountOutput amount globalIndex = (f amount)[globalIndex.toNat]? :=
      hf.readAmountOutput amount globalIndex
    rw [hread, List.getElem?_append_left (by rw [List.length_map]; exact hlt.mp hbelow),
      List.getElem?_map]
  · have hle : UInt32.ofNat (f amount).length ≤ globalIndex := UInt32.not_lt.mp hbelow
    rw [UInt32.toNat_sub_of_le _ _ hle, toNat_ofNat_of_lt hroom,
      List.getElem?_append_right (by rw [List.length_map]; exact Nat.not_lt.mp (mt hlt.mpr hbelow)),
      List.length_map, List.getElem?_map, Option.map_map]
    rfl

private theorem Redone.height_of_new (h : Redone height ks ps ss idx idx₂) (hf : idx.Outputs f)
    {amount : Amount} {globalIndex : UInt32} {unp : UnlockTimePublickKeyHeightSpent}
    (hnew : idx₂.readAmountOutput amount globalIndex = some unp)
    (hold : idx.readAmountOutput amount globalIndex = none) : unp.height = height := by
  rw [(h.outputs hf).2.readAmountOutput] at hnew
  rw [hf.readAmountOutput] at hold
  have hcreated := congrArg (Option.map (·.created)) hnew
  rw [← List.getElem?_map, OutputStacks.created_markSpent, OutputStacks.created_pushAll,
    List.getElem?_append_right (by rw [List.length_map]; exact List.getElem?_eq_none_iff.mp hold),
    List.getElem?_map] at hcreated
  obtain ⟨p, -, hp⟩ := Option.map_eq_some_iff.mp hcreated
  exact (congrArg (fun c : Created ↦ c.2.2) hp).symm

private theorem Redone.readKeyimage_pending {d : DeltaState} (h : Redone height ks ps ss idx idx₂)
    (hd : DeltaState.Records height timestamp idx.view ks ps ss d) (ki : KeyImage) :
    d.readKeyimage ki = idx₂.readKeyimage ki := by
  unfold DeltaState.readKeyimage Index.readKeyimage
  rw [h.keyimages, hd.parentState, hd.blockHeight]
  by_cases hki : ki ∈ ks
  · rw [(hd.keyimages ki height).mpr ⟨hki, rfl⟩, if_pos hki]
  · rw [hd.get_eq_none.mpr hki, if_neg hki]
    rfl

/-- **A delta refines direct execution.** Transactions that were redone into a delta over a database
can be carried over just when they can be executed one after another on the database itself. Both end
in the same state with the same global indices, new outputs have the height of the block, and the
pending delta reads as that state, up to the flags of spent outputs. -/
theorem delta_refines_direct (hf : idx.Outputs f) (hahead : UncheckedNoneAhead f txs)
    (hredo : redoTransactions env
      { blockHeight := height, unlockTimestamp := timestamp, parentState := idx.view } txs =
        .ok (delta, gis)) :
    ((∃ idx₁, delta.apply idx = .ok idx₁) ↔
      ∃ r, idx.executeTransactions height (txs.map Prod.fst) = .ok r) ∧
    ∀ idx₂ gis₂, idx.executeTransactions height (txs.map Prod.fst) = .ok (idx₂, gis₂) →
      gis₂ = gis ∧
      (∀ idx₁, delta.apply idx = .ok idx₁ → idx₁.SameState idx₂) ∧
      (∀ l l₁ : Ledger, l.index = idx → delta.apply l = .ok l₁ → l₁.index.SameState idx₂) ∧
      (∀ amount globalIndex unp, idx₂.readAmountOutput amount globalIndex = some unp →
        idx.readAmountOutput amount globalIndex = none → unp.height = height) ∧
      (∀ keyImage, delta.readKeyimage keyImage = idx₂.readKeyimage keyImage) ∧
      (∀ amount, delta.nextGlobalIndexForAmount amount = idx₂.nextGlobalIndexForAmount amount) ∧
      ∀ amount globalIndex, (f amount).length < 2 ^ 32 →
        (delta.readAmountOutput amount globalIndex).map (·.created) =
          (idx₂.readAmountOutput amount globalIndex).map (·.created) := by
  obtain ⟨hrecords, hgis, hchecked⟩ := DeltaState.Records.redoTransactions .empty
    (n := fun a ↦ (f a).length) hf.nextGlobalIndexForAmount hredo
  have hnone := hahead.noneAhead hchecked
  have hdirect {r : Index × List (List UInt32)}
      (h : idx.executeTransactions height (txs.map Prod.fst) = .ok r) :=
    executeTransactions_redone hf hnone h
  have happlied {idx₁ : Index} (h : delta.apply idx = .ok idx₁) := apply_redone hrecords h
  refine ⟨⟨fun ⟨idx₁, h₁⟩ ↦ ?_, fun ⟨r, h₂⟩ ↦ ?_⟩, fun idx₂ gis₂ h₂ ↦ ?_⟩
  · have hredone := happlied h₁
    exact executeTransactions_completes hf hnone hredone.nodup hredone.fresh (hredone.outputs hf).1
  · have hredone := (hdirect h₂).1
    obtain ⟨ks', ps', hks, hps, happly⟩ := hrecords.apply_eq idx
    rw [happly]
    refine applyLists_completes hf (hks.nodup_iff.mp hredone.nodup)
      (fun ki hki ↦ hredone.fresh ki (hks.mem_iff.mpr hki)) (fun amount ↦ ?_) _
    rw [countWith, ← hps]
    exact (hredone.outputs hf).1 amount
  · obtain ⟨hredone, hindices⟩ := hdirect h₂
    refine ⟨hindices.trans hgis.symm, fun idx₁ h₁ ↦ (happlied h₁).sameState hredone hf,
      fun l l₁ hl h₁ ↦ ?_, fun amount globalIndex unp ↦ hredone.height_of_new hf,
      hredone.readKeyimage_pending hrecords, fun amount ↦ ?_, fun amount globalIndex hroom ↦
      hredone.read_pending hrecords hf amount hroom globalIndex⟩
    · have hledger := Ledger.apply_redone hrecords h₁
      rw [hl] at hledger
      exact hledger.sameState hredone hf
    · rw [hrecords.nextGlobalIndexForAmount hf.nextGlobalIndexForAmount,
        hredone.nextGlobalIndexForAmount hf]
      rfl

private theorem outputs_empty : ({} : Index).Outputs fun _ ↦ [] :=
  ⟨Stacked.empty, fun hn ↦ by cases (Std.ExtTreeMap.getElem?_empty).symm.trans hn⟩

end Index

/-! ## Examples -/

/-- The delta of a block at height 1 into which nothing was redone. -/
def sampleDelta (idx : Index) : DeltaState where
  blockHeight := 1
  unlockTimestamp := 0
  parentState := idx.view

/-- An index with an output of the amount 5. -/
def sampleIndex : Index := ((({} : Index).pushAmountOutput 5 0 0 7).toOption).getD {}

/-- A payment that is certain to spend the first output of the amount 5, and one that does not say which
output it spends. -/
def sampleTransactions : List (Transaction × Bool) :=
  [(samplePayment [⟨5, [0], 1⟩] 5 9, false), (samplePayment [⟨5, [0, 1], 2⟩] 6 9, false)]

namespace Index

theorem delta_refines_direct_sample : ∃ delta idx₁ idx₂,
    redoTransactions (.lax 5) (sampleDelta sampleIndex) sampleTransactions = .ok (delta, [[1], [0]]) ∧
    delta.apply sampleIndex = .ok idx₁ ∧
    sampleIndex.executeTransactions 1 (sampleTransactions.map Prod.fst) = .ok (idx₂, [[1], [0]]) ∧
    idx₁.SameState idx₂ := by
  obtain ⟨sample, hpush⟩ : ∃ idx, ({} : Index).pushAmountOutput 5 0 0 7 = .ok idx := ⟨_, rfl⟩
  have hsample : sampleIndex = sample := by
    rw [sampleIndex, hpush]
    rfl
  have houtputs := (outputs_empty.pushAmountOutput hpush).2.1
  rw [← hsample] at houtputs
  obtain ⟨⟨delta, gis⟩, hredo, hgis, ⟨idx₂, gis₂⟩, h₂, hgis₂⟩ :
      ∃ p ∈ (redoTransactions (.lax 5) (sampleDelta sampleIndex) sampleTransactions).toOption,
        p.2 = [[1], [0]] ∧
        ∃ r ∈ (sampleIndex.executeTransactions 1 (sampleTransactions.map Prod.fst)).toOption,
          r.2 = [[1], [0]] := by
    decide +kernel
  obtain rfl : gis = [[1], [0]] := hgis
  obtain rfl : gis₂ = [[1], [0]] := hgis₂
  have hredo := toOption_eq_some.mp hredo
  have h₂ := toOption_eq_some.mp h₂
  have hahead : UncheckedNoneAhead (OutputStacks.pushAll (fun _ ↦ []) 0 [(5, 0, 7)]) sampleTransactions := by
    intro done tx rest hl mo hmo g hfrom hto _
    rcases done with _ | ⟨first, _ | ⟨second, done⟩⟩
    · cases hl
      obtain rfl : mo = (5, 0) := List.mem_singleton.mp hmo
      have hge : 1 ≤ g := hfrom
      have hlt : g < 2 := hto
      obtain rfl : g = 1 := by omega
      decide
    · cases hl
      cases hmo
    · have := congrArg List.length hl
      simp [sampleTransactions] at this
  obtain ⟨hiff, hall⟩ := delta_refines_direct houtputs hahead hredo
  obtain ⟨idx₁, h₁⟩ := hiff.mpr ⟨_, h₂⟩
  exact ⟨delta, idx₁, idx₂, hredo, h₁, h₂, (hall idx₂ _ h₂).2.1 idx₁ h₁⟩

/-- A transaction that is redone unchecked and refers to the output that it creates itself marks it as
spent by way of a delta, and leaves it alone when it is executed. A pending delta does not show that an
output of the database is spent. -/
theorem delta_differs_from_direct :
    (∃ delta gis idx₁ idx₂,
      redoTransactions (.lax 5) (sampleDelta {}) [(samplePayment [⟨5, [0], 1⟩] 5 9, false)] =
        .ok (delta, gis) ∧ delta.apply ({} : Index) = .ok idx₁ ∧
      ({} : Index).executeTransactions 1 [samplePayment [⟨5, [0], 1⟩] 5 9] = .ok (idx₂, gis) ∧
      idx₁.readAmountOutput 5 0 ≠ idx₂.readAmountOutput 5 0) ∧
    ∃ delta gis idx₂,
      redoTransactions (.lax 5) (sampleDelta sampleIndex)
        [(samplePayment [⟨5, [0], 1⟩] 6 9, false)] = .ok (delta, gis) ∧
      sampleIndex.executeTransactions 1 [samplePayment [⟨5, [0], 1⟩] 6 9] = .ok (idx₂, gis) ∧
      delta.readAmountOutput 5 0 ≠ idx₂.readAmountOutput 5 0 := by
  constructor
  · obtain ⟨⟨delta, gis⟩, hredo, idx₁, h₁, ⟨idx₂, gis₂⟩, h₂, hgis, hne⟩ :
        ∃ p ∈ (redoTransactions (.lax 5) (sampleDelta {})
          [(samplePayment [⟨5, [0], 1⟩] 5 9, false)]).toOption,
        ∃ idx₁ ∈ (p.1.apply ({} : Index)).toOption,
        ∃ r ∈ (({} : Index).executeTransactions 1 [samplePayment [⟨5, [0], 1⟩] 5 9]).toOption,
          p.2 = r.2 ∧ idx₁.readAmountOutput 5 0 ≠ r.1.readAmountOutput 5 0 := by
      decide +kernel
    obtain rfl : gis = gis₂ := hgis
    exact ⟨delta, gis, idx₁, idx₂, toOption_eq_some.mp hredo, toOption_eq_some.mp h₁,
      toOption_eq_some.mp h₂, hne⟩
  · obtain ⟨⟨delta, gis⟩, hredo, ⟨idx₂, gis₂⟩, h₂, hgis, hne⟩ :
        ∃ p ∈ (redoTransactions (.lax 5) (sampleDelta sampleIndex)
          [(samplePayment [⟨5, [0], 1⟩] 6 9, false)]).toOption,
        ∃ r ∈ (sampleIndex.executeTransactions 1 [samplePayment [⟨5, [0], 1⟩] 6 9]).toOption,
          p.2 = r.2 ∧ p.1.readAmountOutput 5 0 ≠ r.1.readAmountOutput 5 0 := by
      decide +kernel
    obtain rfl : gis = gis₂ := hgis
    exact ⟨delta, gis, idx₂, toOption_eq_some.mp hredo, toOption_eq_some.mp h₂, hne⟩

end Index

end CryoNero
