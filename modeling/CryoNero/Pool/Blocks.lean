import CryoNero.Pool.Admit
import CryoNero.Ledger.Undo

/-!
# Blocks and the pool

A key image that enters the main chain takes with it the transaction of the pool that spends it, so
that a sound pool stays sound while a block is redone. When a block is undone, key images only
disappear.
-/

namespace CryoNero

open Seria Store

namespace Ledger

variable {env : Env} {l l' : Ledger} {height : Height}

theorem Sound.empty : Sound env {} where
  pool := Pool.consistent_empty
  bounded := .inl (by
    change Table.total PoolTransaction.size (∅ : Table Hash PoolTransaction) ≤ _
    rw [Table.total_empty]
    exact Nat.zero_le _)
  unspent h := by cases (Std.ExtTreeMap.getElem?_empty).symm.trans h

/-- Nothing but the pool and the key images matters, and fewer key images are as good. -/
theorem Sound.congr (h : l.Sound env) (hpool : l'.pool = l.pool)
    (hkeys : ∀ (ki : KeyImage) (height : Height), l'.index.keyimages[ki]? = some height →
      l.index.keyimages[ki]? = some height) : l'.Sound env where
  pool := by rw [hpool]; exact h.pool
  bounded := by rw [hpool]; exact h.bounded
  unspent {ki tid} hki := by
    rw [hpool] at hki
    cases hget : l'.index.keyimages[ki]? with
    | none => rfl
    | some height =>
      have hold := hkeys ki height hget
      rw [h.unspent hki] at hold
      cases hold

theorem Sound.emptyPool : Sound env { l with pool := {} } where
  pool := Pool.consistent_empty
  bounded := (@Sound.empty env).bounded
  unspent h := by cases (Std.ExtTreeMap.getElem?_empty).symm.trans h

/-- **A key image enters the chain** and its transaction leaves the pool. -/
theorem Sound.storeKeyimage (h : l.Sound env) {ki : KeyImage}
    (hok : l.storeKeyimage ki height = .ok l') : l'.Sound env := by
  obtain ⟨-, hindex⟩ := storeKeyimage_index hok
  unfold Ledger.storeKeyimage at hok
  obtain ⟨index, _, hok⟩ := bind_eq_ok.mp hok
  cases hki : l.pool.stateKiTx[ki]? with
  | none =>
    rw [hki] at hok
    cases hok
    refine ⟨h.pool, h.bounded, fun {a tid} ha ↦ ?_⟩
    rw [hindex, Table.get_insert_of_ne]
    · exact h.unspent ha
    · rintro rfl
      rw [hki] at ha
      cases ha
  | some tid =>
    rw [hki] at hok
    obtain ⟨pool, hpool, hok⟩ := bind_eq_ok.mp hok
    cases hok
    obtain ⟨pool', hpool', hconsistent, herase⟩ := h.pool.removeFromPool tid
    cases hpool.symm.trans hpool'
    refine ⟨hconsistent, h.bounded.erase herase, fun {a t} ha ↦ ?_⟩
    rw [hindex, Table.get_insert_of_ne]
    · cases hold : l.pool.stateKiTx[a]? with
      | some t' => exact h.unspent hold
      | none =>
        rw [h.pool.free_of_within hconsistent (Pool.within_of_erase herase) hold] at ha
        cases ha
    · rintro rfl
      rw [h.pool.free_of_erase hconsistent herase hki] at ha
      cases ha

theorem Sound.applyLists (h : l.Sound env) {ks : List KeyImage} {ps : List Push} {ss : List Spend}
    (hok : applyLists height ks ps ss l = .ok l') : l'.Sound env := by
  unfold CryoNero.applyLists at hok
  obtain ⟨l₁, h₁, hok⟩ := bind_eq_ok.mp hok
  obtain ⟨l₂, h₂, h₃⟩ := bind_eq_ok.mp hok
  have hs₁ := foldlM_ok (fun _ t ↦ Sound env t) h₁ h fun _ _ _ _ _ _ ht hx ↦ ht.storeKeyimage hx
  have hs₂ := foldlM_ok (fun _ t ↦ Sound env t) h₂ hs₁ fun _ _ _ _ _ _ ht hx ↦ by
    obtain ⟨index, hindex, hx⟩ := bind_eq_ok.mp hx
    cases hx
    have hkeys := (Index.pushAmountOutput_frame hindex).1
    exact ht.congr rfl fun ki height hki ↦ by
      rw [← hkeys]
      exact hki
  refine foldlM_ok (fun _ t ↦ Sound env t) h₃ hs₂ fun _ x _ t _ _ ht hx ↦ ?_
  cases hx
  have hkeys := (Index.spendOutput_frame t.index x.1 x.2 true).1
  exact ht.congr rfl fun ki height hki ↦ by
    rw [← hkeys]
    exact hki

/-- **Redoing a block** keeps the pool sound. -/
theorem Sound.redoBlock (h : l.Sound env) {bhash : Hash} {blockData : Bytes} {rawBlock : RawBlock}
    {block : Block} {info : Api.BlockHeader} {baseTransactionHash : Hash}
    (hok : l.redoBlock env bhash blockData rawBlock block info baseTransactionHash = .ok l') :
    l'.Sound env := by
  obtain ⟨delta, gis, l₁, hdelta, happly, -, hindex, hpool⟩ := redoBlock_parts hok
  have hrecords := DeltaState.Records.empty.redoBlockDelta hdelta
  obtain ⟨ks', ps', -, -, hlists⟩ := hrecords.apply_eq l
  rw [hlists] at happly
  refine (h.applyLists happly).congr hpool fun ki height hki ↦ ?_
  obtain ⟨-, hplaced⟩ := Index.indexBlock_eq_ok hindex
  rw [hplaced.rest] at hki
  exact hki

/-- **Undoing a block** keeps the pool sound. -/
theorem Sound.undoBlock (h : l.Sound env) {c : Crypto} {bhash : Hash} {block : Block}
    {index : Index} (hok : l.index.undoBlock c bhash block height = .ok index) :
    Sound env { l with index := index } := by
  obtain ⟨idx₁, _, hundone, -, -, hkeys⟩ := Index.undoBlock_eq_ok hok
  refine h.congr rfl fun ki height hki ↦ ?_
  change index.keyimages[ki]? = some height at hki
  rw [hkeys, hundone.keyimages] at hki
  split_ifs at hki
  exact hki

end Ledger

end CryoNero
