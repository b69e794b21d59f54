import CryoNero.Ledger.Delta
import CryoNero.Store.Stacks

/-!
# The outputs in the indexes

The outputs of each amount form a stack. `Index.Outputs` says which stacks the database holds, with
a cache of their heights that agrees; pushing, popping and marking outputs are then operations on
stacks. Two operations on whole lists are all that blocks need: `pushAll` puts new outputs on the
stacks, `markSpent` sets the flags of those that are listed.
-/

namespace CryoNero

open Seria Store

/-- The outputs of every amount, by their global indices. -/
abbrev OutputStacks := Amount → List UnlockTimePublickKeyHeightSpent

namespace OutputStacks

variable (f : OutputStacks)

/-- The stacks with new outputs on top. -/
def pushAll (height : Height) (ps : List Push) : OutputStacks := fun amount ↦
  f amount ++ (pushesOf ps amount).map fun p ↦
    { unlockTime := p.1, publicKey := p.2, height := height }

/-- The stacks with the flags of the listed outputs set. -/
def markSpent (spent : Bool) (ss : List Spend) : OutputStacks := fun amount ↦
  (f amount).mapIdx fun i unp ↦
    if (amount, UInt32.ofNat i) ∈ ss then { unp with spent := spent } else unp

variable {f}

@[simp] theorem pushAll_nil {height : Height} : f.pushAll height [] = f := by
  funext amount
  simp [pushAll, pushesOf]

theorem pushAll_append {height : Height} (ps qs : List Push) :
    f.pushAll height (ps ++ qs) = (f.pushAll height ps).pushAll height qs := by
  funext amount
  simp [pushAll]

theorem pushAll_congr {height : Height} {ps qs : List Push}
    (h : ∀ amount, pushesOf ps amount = pushesOf qs amount) :
    f.pushAll height ps = f.pushAll height qs := by
  funext amount
  rw [pushAll, pushAll, h]

private theorem pushAll_singleton {height : Height} (p : Push) : f.pushAll height [p] =
    Function.update f p.1
      (f p.1 ++ [{ unlockTime := p.2.1, publicKey := p.2.2, height := height }]) := by
  funext amount
  by_cases h : amount = p.1
  · subst h
    simp [pushAll, pushesOf]
  · rw [Function.update_of_ne h]
    simp [pushAll, pushesOf, Ne.symm h]

@[simp] theorem length_markSpent {spent : Bool} {ss : List Spend} (amount : Amount) :
    (f.markSpent spent ss amount).length = (f amount).length := List.length_mapIdx

theorem getElem?_markSpent {spent : Bool} {ss : List Spend} (amount : Amount) (i : ℕ) :
    (f.markSpent spent ss amount)[i]? = (f amount)[i]?.map fun unp ↦
      if (amount, UInt32.ofNat i) ∈ ss then { unp with spent := spent } else unp :=
  List.getElem?_mapIdx

@[simp] theorem markSpent_nil {spent : Bool} : f.markSpent spent [] = f := by
  funext amount
  refine List.ext_getElem? fun i ↦ ?_
  rw [getElem?_markSpent]
  simp

theorem markSpent_markSpent {spent : Bool} (ss ss' : List Spend) :
    (f.markSpent spent ss).markSpent spent ss' = f.markSpent spent (ss ++ ss') := by
  funext amount
  refine List.ext_getElem? fun i ↦ ?_
  rw [getElem?_markSpent, getElem?_markSpent, getElem?_markSpent, Option.map_map]
  congr 1
  funext unp
  simp only [Function.comp_apply, List.mem_append]
  split_ifs <;> simp_all

/-- An output that is put on its stack after others were marked is not marked. -/
theorem markSpent_pushAll {spent : Bool} {height : Height} {ss : List Spend} (p : Push)
    (hp : (p.1, UInt32.ofNat (f p.1).length) ∉ ss) :
    (f.pushAll height [p]).markSpent spent ss = (f.markSpent spent ss).pushAll height [p] := by
  funext amount
  refine List.ext_getElem? fun i ↦ ?_
  rw [getElem?_markSpent, pushAll, pushAll]
  by_cases hi : i < (f amount).length
  · rw [List.getElem?_append_left hi, List.getElem?_append_left (by rwa [length_markSpent]),
      getElem?_markSpent]
  · rw [List.getElem?_append_right (by omega),
      List.getElem?_append_right (by rw [length_markSpent]; omega), length_markSpent]
    by_cases ha : p.1 = amount
    · subst ha
      by_cases hzero : i = (f p.1).length
      · subst hzero
        simp [pushesOf, hp]
      · have hpos : i - (f p.1).length ≠ 0 := by omega
        simp [pushesOf, hpos]
    · simp [pushesOf, ha]

private theorem markSpent_singleton {spent : Bool} {amount : Amount} {globalIndex : UInt32}
    {was : UnlockTimePublickKeyHeightSpent} (hle : (f amount).length ≤ 2 ^ 32)
    (hwas : (f amount)[globalIndex.toNat]? = some was) :
    f.markSpent spent [(amount, globalIndex)] = Function.update f amount
      ((f amount).set globalIndex.toNat { was with spent := spent }) := by
  funext b
  by_cases hb : b = amount
  · subst hb
    rw [Function.update_self]
    refine List.ext_getElem? fun i ↦ ?_
    rw [getElem?_markSpent, List.getElem?_set]
    by_cases hi : globalIndex.toNat = i
    · rw [if_pos hi, if_pos (List.getElem?_eq_some_iff.mp hwas).1, ← hi, hwas]
      simp
    · rw [if_neg hi]
      cases hget : (f b)[i]? with
      | none => rfl
      | some unp =>
        have hlt := (List.getElem?_eq_some_iff.mp hget).1
        have hne : UInt32.ofNat i ≠ globalIndex := by
          rintro rfl
          exact hi (toNat_ofNat_of_lt (by omega))
        simp [hne]
  · rw [Function.update_of_ne hb]
    refine List.ext_getElem? fun i ↦ ?_
    rw [getElem?_markSpent]
    simp [hb]

private theorem markSpent_singleton_of_none {spent : Bool} {amount : Amount} {globalIndex : UInt32}
    (hle : (f amount).length ≤ 2 ^ 32) (hnone : (f amount)[globalIndex.toNat]? = none) :
    f.markSpent spent [(amount, globalIndex)] = f := by
  funext b
  refine List.ext_getElem? fun i ↦ ?_
  rw [getElem?_markSpent]
  cases hget : (f b)[i]? with
  | none => rfl
  | some unp =>
    have hne : ¬(b = amount ∧ UInt32.ofNat i = globalIndex) := by
      rintro ⟨rfl, rfl⟩
      have hlt := (List.getElem?_eq_some_iff.mp hget).1
      rw [toNat_ofNat_of_lt (by omega), hget] at hnone
      cases hnone
    simp [hne]

end OutputStacks

namespace Index

/-- The database holds the stacks `f`, and the cached heights are theirs. -/
structure Outputs (idx : Index) (f : OutputStacks) : Prop where
  stacked : Stacked idx.amountOutputs f
  cached : ∀ {a : Amount} {n : UInt32}, idx.nextGiForAmount[a]? = some n →
    n = UInt32.ofNat (f a).length

variable {idx idx' : Index} {f : OutputStacks} {amount : Amount} {globalIndex : UInt32}

theorem Outputs.readAmountOutput (h : idx.Outputs f) (amount : Amount) (globalIndex : UInt32) :
    idx.readAmountOutput amount globalIndex = (f amount)[globalIndex.toNat]? :=
  h.stacked.get amount globalIndex

theorem Outputs.nextGlobalIndexForAmount (h : idx.Outputs f) (amount : Amount) :
    idx.nextGlobalIndexForAmount amount = UInt32.ofNat (f amount).length := by
  unfold Index.nextGlobalIndexForAmount
  cases hcache : idx.nextGiForAmount[amount]? with
  | some n => exact h.cached hcache
  | none => exact h.stacked.next_eq amount

private theorem cached_insert {t : Table Amount UInt32} {f : OutputStacks}
    {l : List UnlockTimePublickKeyHeightSpent} {n : UInt32}
    (h : ∀ {a : Amount} {n : UInt32}, t[a]? = some n → n = UInt32.ofNat (f a).length)
    (hn : n = UInt32.ofNat l.length) {a : Amount} {m : UInt32}
    (hm : (t.insert amount n)[a]? = some m) :
    m = UInt32.ofNat (Function.update f amount l a).length := by
  rw [Table.get_insert] at hm
  split_ifs at hm with ha
  · subst ha
    cases hm
    rw [Function.update_self]
    exact hn
  · rw [Function.update_of_ne (Ne.symm ha)]
    exact h hm

/-- **A push** succeeds unless the stack is full. -/
theorem Outputs.pushAmountOutput (h : idx.Outputs f) {unlockTime : UnlockMoment} {height : Height}
    {pk : PublicKey} (hok : idx.pushAmountOutput amount unlockTime height pk = .ok idx') :
    (f amount).length < 2 ^ 32 ∧ idx'.Outputs (f.pushAll height [(amount, unlockTime, pk)]) ∧
      idx' = { idx with
        amountOutputs := idx'.amountOutputs, nextGiForAmount := idx'.nextGiForAmount } := by
  unfold Index.pushAmountOutput at hok
  rw [h.nextGlobalIndexForAmount] at hok
  obtain ⟨t, ht, hok⟩ := bind_eq_ok.mp hok
  cases hok
  obtain ⟨hfree, rfl⟩ := putNew_eq_ok.mp ht
  have hlt := (h.stacked.get_next_eq_none amount).mp hfree
  refine ⟨hlt, ?_, rfl⟩
  rw [OutputStacks.pushAll_singleton]
  refine ⟨h.stacked.push hlt _, fun hm ↦ cached_insert h.cached ?_ hm⟩
  rw [List.length_append, List.length_singleton, UInt32.ofNat_add]
  rfl

theorem Outputs.pushAmountOutput_completes (h : idx.Outputs f) (hlt : (f amount).length < 2 ^ 32)
    (unlockTime : UnlockMoment) (height : Height) (pk : PublicKey) :
    ∃ idx', idx.pushAmountOutput amount unlockTime height pk = .ok idx' := by
  unfold Index.pushAmountOutput
  rw [h.nextGlobalIndexForAmount]
  exact ⟨_, bind_eq_ok.mpr
    ⟨_, putNew_eq_ok.mpr ⟨(h.stacked.get_next_eq_none amount).mpr hlt, rfl⟩, rfl⟩⟩

/-- Setting a flag. -/
theorem Outputs.spendOutput (h : idx.Outputs f) (amount : Amount) (globalIndex : UInt32)
    (spent : Bool) :
    (idx.spendOutput amount globalIndex spent).Outputs (f.markSpent spent [(amount, globalIndex)]) ∧
      idx.spendOutput amount globalIndex spent = { idx with
        amountOutputs := (idx.spendOutput amount globalIndex spent).amountOutputs } := by
  have hle := h.stacked.length_le amount
  unfold Index.spendOutput
  rw [h.readAmountOutput]
  cases hwas : (f amount)[globalIndex.toNat]? with
  | none =>
    rw [OutputStacks.markSpent_singleton_of_none hle hwas]
    exact ⟨h, rfl⟩
  | some was =>
    rw [OutputStacks.markSpent_singleton hle hwas]
    refine ⟨⟨h.stacked.set (List.getElem?_eq_some_iff.mp hwas).1 _, fun {a n} hn ↦ ?_⟩, rfl⟩
    rw [h.cached hn]
    by_cases ha : a = amount
    · subst ha
      rw [Function.update_self, List.length_set]
    · rw [Function.update_of_ne ha]

private theorem ofNat_sub_one {n : ℕ} (hpos : 0 < n) : UInt32.ofNat n - 1 = UInt32.ofNat (n - 1) := by
  obtain ⟨m, rfl⟩ := Nat.exists_eq_succ_of_ne_zero hpos.ne'
  rw [Nat.succ_eq_add_one, UInt32.ofNat_add, Nat.add_sub_cancel]
  exact UInt32.add_sub_cancel _ _

private theorem ofNat_eq_zero_iff {n : ℕ} (hle : n ≤ 2 ^ 32) :
    UInt32.ofNat n = 0 ↔ n = 0 ∨ n = 2 ^ 32 := by
  rw [← UInt32.toNat_inj, UInt32.toNat_ofNat']
  simp only [UInt32.reduceToNat]
  omega

/-- **A pop** takes the last output off, which has to be the given one and unspent. Of a full stack
the number of outputs is taken for zero. -/
theorem Outputs.popAmountOutput (h : idx.Outputs f) {unlockTime : UnlockMoment}
    {pk : PublicKey} (hok : idx.popAmountOutput amount unlockTime pk = .ok idx') :
    (f amount).length < 2 ^ 32 ∧ ∃ l height, f amount = l ++
        [{ unlockTime := unlockTime, publicKey := pk, height := height, spent := false }] ∧
      idx'.Outputs (Function.update f amount l) ∧
      idx' = { idx with
        amountOutputs := idx'.amountOutputs, nextGiForAmount := idx'.nextGiForAmount } := by
  have hle := h.stacked.length_le amount
  unfold Index.popAmountOutput at hok
  rw [h.nextGlobalIndexForAmount] at hok
  obtain ⟨_, hne, hok⟩ := bind_eq_ok.mp hok
  rw [ensure_eq_ok, ne_eq, ofNat_eq_zero_iff hle, not_or] at hne
  have hpos : 0 < (f amount).length := Nat.pos_of_ne_zero hne.1
  rw [ofNat_sub_one hpos] at hok
  obtain ⟨unp, hunp, hok⟩ := bind_eq_ok.mp hok
  rw [orFail_eq_ok, h.readAmountOutput, toNat_ofNat_of_lt (by omega)] at hunp
  obtain ⟨_, hsame, hok⟩ := bind_eq_ok.mp hok
  rw [ensure_eq_ok] at hsame
  obtain ⟨t, ht, hok⟩ := bind_eq_ok.mp hok
  cases hok
  obtain ⟨-, rfl⟩ := delOld_eq_ok.mp ht
  have hdrop : f amount = (f amount).dropLast ++ [unp] := by
    have hlast : (f amount).getLast? = some unp := by rw [List.getLast?_eq_getElem?, hunp]
    exact (List.dropLast_append_getLast? unp hlast).symm
  have hlen : (f amount).dropLast.length = (f amount).length - 1 := List.length_dropLast
  obtain ⟨unlockTime', pk', height, spent⟩ := unp
  obtain ⟨rfl, rfl, rfl⟩ := hsame
  refine ⟨by omega, (f amount).dropLast, height, hdrop, ⟨?_, fun hm ↦ ?_⟩, rfl⟩
  · have hpop := h.stacked.pop hdrop
    rw [hlen] at hpop
    exact hpop
  · exact cached_insert h.cached (by rw [hlen]) hm

end Index

end CryoNero
