import CryoNero.Core.Checkpoints

/-!
# What the functions over the checkpoints agree on

The zone is meant to end at the last checkpoint, and a block of the zone at the height of a checkpoint has
to be the block of the checkpoint. With a sorted table that has an entry, every access is inside it. What is
left of the main network when the table is empty is an access in front of it: the function that gives the
last checkpoint has a case for the empty table, and the function that asks for the zone has none.
-/

namespace CryoNero

open Seria Store

namespace CheckpointTable

variable {t : CheckpointTable}

/-- Every access is inside the table, the zone ends at the last checkpoint, and at the height of a
checkpoint the zone has only blocks with the hash of a checkpoint. -/
structure Consistent (t : CheckpointTable) : Prop where
  isInSwCheckpointZone_isOk (index : Height) : ∃ b, t.isInSwCheckpointZone index = .ok b
  checkSwCheckpoint_isOk (index : Height) (h : Hash) : ∃ res, t.checkSwCheckpoint index h = .ok res
  lastSwCheckpoint_isOk : ∃ last, t.lastSwCheckpoint = .ok last
  zone_iff {height : Height} {hash : Hash} (h : t.lastSwCheckpoint = .ok (height, hash)) (index : Height) :
    t.isInSwCheckpointZone index = .ok true ↔ index ≤ height
  hash_of_accepted {index : Height} {h : Hash} {isSwCheckpoint : Bool}
    (hzone : t.isInSwCheckpointZone index = .ok true) (hlisted : ∃ cp ∈ t.checkpoints, cp.height = index)
    (haccepted : t.checkSwCheckpoint index h = .ok (true, isSwCheckpoint)) :
    ∃ cp ∈ t.checkpoints, cp.height = index ∧ cp.hash = keyToHex h

/-! ## The accesses -/

section Accesses

variable (hmain : t.isTestnet = false)

include hmain

theorem toNat_swCheckpointCount : t.swCheckpointCount.toNat = t.checkpoints.length := by
  have := t.fits
  rw [swCheckpointCount, hmain]
  simp only [Bool.false_eq_true, if_false, UInt64.toNat_ofNat']
  omega

private theorem swCheckpointCount_eq_zero_iff : t.swCheckpointCount = 0 ↔ t.checkpoints = [] := by
  rw [← UInt64.toNat_inj, toNat_swCheckpointCount hmain]
  exact List.length_eq_zero_iff

private theorem readAt_last (hne : t.checkpoints ≠ []) :
    readAt t.checkpoints (t.swCheckpointCount - 1).toNat = .ok (t.checkpoints.getLast hne) := by
  have hcount := toNat_swCheckpointCount hmain
  have hpos : 0 < t.checkpoints.length := List.length_pos_iff.mpr hne
  have hone : (1 : UInt64) ≤ t.swCheckpointCount := by
    rw [UInt64.le_iff_toNat_le, hcount]
    exact hpos
  rw [UInt64.toNat_sub_of_le _ _ hone, hcount, readAt_eq_ok, List.getLast_eq_getElem]
  exact List.getElem?_eq_getElem _

end Accesses

private theorem sortedFor (t : CheckpointTable) (index : Height) :
    SortedFor (fun da : Entry ↦ da.height < index) t.checkpoints := by
  apply t.sorted.imp
  intro a b hab hb
  simp only [decide_eq_true_eq] at hb ⊢
  exact UInt32.lt_of_le_of_lt hab hb

/-! ## What the functions answer -/

theorem isInSwCheckpointZone_testnet (htest : t.isTestnet = true) (index : Height) :
    t.isInSwCheckpointZone index = .ok (index = 0) := by
  rw [isInSwCheckpointZone, if_pos htest]

private theorem isInSwCheckpointZone_main (hmain : t.isTestnet = false) (hne : t.checkpoints ≠ [])
    (index : Height) :
    t.isInSwCheckpointZone index = .ok (index ≤ (t.checkpoints.getLast hne).height) := by
  rw [isInSwCheckpointZone, if_neg (by rw [hmain]; exact Bool.false_ne_true), readAt_last hmain hne]
  rfl

private theorem isInSwCheckpointZone_nil (hmain : t.isTestnet = false) (hnil : t.checkpoints = [])
    (index : Height) : t.isInSwCheckpointZone index = .error .outOfRange := by
  rw [isInSwCheckpointZone, if_neg (by rw [hmain]; exact Bool.false_ne_true), hnil]
  rfl

private theorem lastSwCheckpoint_main (hmain : t.isTestnet = false) (hne : t.checkpoints ≠ []) :
    t.lastSwCheckpoint =
      .ok ((t.checkpoints.getLast hne).height, hashFromHex (t.checkpoints.getLast hne).hash) := by
  have hcount : ¬(t.isTestnet ∨ t.swCheckpointCount = 0) := by
    rw [swCheckpointCount_eq_zero_iff hmain, hmain]
    simpa using hne
  rw [lastSwCheckpoint, if_neg hcount, readAt_last hmain hne]
  rfl

private theorem lastSwCheckpoint_genesis (h : t.isTestnet = true ∨ t.checkpoints = []) :
    t.lastSwCheckpoint = .ok (0, t.genesisBlockHash) := by
  rw [lastSwCheckpoint, if_pos]
  rcases htest : t.isTestnet with - | -
  · right
    rw [swCheckpointCount_eq_zero_iff htest]
    simpa [htest] using h
  · left
    rfl

theorem checkSwCheckpoint_genesis {index : Height} (h : t.isTestnet = true ∨ index = 0) (hash : Hash) :
    t.checkSwCheckpoint index hash =
      .ok (if index = 0 then hash = t.genesisBlockHash else true, index = 0) := by
  rw [checkSwCheckpoint, if_pos h]

private theorem checkSwCheckpoint_main (hmain : t.isTestnet = false) {index : Height} (hindex : index ≠ 0)
    (hash : Hash) :
    t.checkSwCheckpoint index hash =
      match t.checkpoints.find? fun da ↦ index ≤ da.height with
      | none => .ok (true, false)
      | some da => .ok (if da.height ≠ index then (true, false) else (keyToHex hash = da.hash, true)) := by
  have hfind : (t.checkpoints.find? fun da ↦ !decide (da.height < index)) =
      t.checkpoints.find? fun da ↦ index ≤ da.height := by
    congr 1
    ext da
    rw [← decide_not, decide_eq_decide, UInt32.not_lt]
  have hno : ¬(t.isTestnet = true ∨ index = 0) := by simp [hmain, hindex]
  rw [checkSwCheckpoint, if_neg hno, lowerBound_eq (t.sortedFor index), ok_bind,
    toNat_swCheckpointCount hmain, ← hfind, ← getElem?_rank]
  rcases hplace : t.checkpoints[rank (fun da ↦ decide (da.height < index)) t.checkpoints]? with - | da
  · have hend := List.getElem?_eq_none_iff.mp hplace
    rw [if_pos (le_antisymm rank_le_length hend)]
    simp only [hplace]
    rfl
  · have hlt := (List.getElem?_eq_some_iff.mp hplace).1
    rw [if_neg hlt.ne, readAt_eq_ok.mpr hplace, ok_bind]
    simp only [hplace]
    split <;> rfl

/-! ## When they agree -/

private theorem hash_of_checkSwCheckpoint (hmain : t.isTestnet = false) {index : Height}
    (hindex : index ≠ 0)
    {hash : Hash} {isSwCheckpoint : Bool} (hlisted : ∃ cp ∈ t.checkpoints, cp.height = index)
    (haccepted : t.checkSwCheckpoint index hash = .ok (true, isSwCheckpoint)) :
    ∃ cp ∈ t.checkpoints, cp.height = index ∧ cp.hash = keyToHex hash := by
  obtain ⟨cp, hcp, rfl⟩ := hlisted
  rw [checkSwCheckpoint_main hmain hindex] at haccepted
  split at haccepted
  next hnone =>
    have := List.find?_eq_none.mp hnone cp hcp
    simp at this
  next da hsome =>
    have hle : cp.height ≤ da.height := by simpa using List.find?_some hsome
    obtain ⟨-, before, after, hsplit, hbefore⟩ := List.find?_eq_some_iff_append.mp hsome
    -- The entry of the height is not before the one that is found.
    have hge : da.height ≤ cp.height := by
      have hsorted := t.sorted
      rw [hsplit] at hcp hsorted
      rcases List.mem_append.mp hcp with hcp | hcp
      · have := hbefore cp hcp
        simp at this
      · rcases List.mem_cons.mp hcp with rfl | hcp
        · exact UInt32.le_refl _
        · exact (List.pairwise_cons.mp (List.pairwise_append.mp hsorted).2.1).1 cp hcp
    have heq : da.height = cp.height := UInt32.le_antisymm hge hle
    rw [if_neg (not_not_intro heq), Except.ok.injEq, Prod.mk.injEq, decide_eq_true_eq] at haccepted
    exact ⟨da, List.mem_of_find?_eq_some hsome, heq, haccepted.1.symm⟩

private theorem consistent_of_testnet (htest : t.isTestnet = true)
    (hgenesis : (∃ cp ∈ t.checkpoints, cp.height = 0) →
      ∃ cp ∈ t.checkpoints, cp.height = 0 ∧ cp.hash = keyToHex t.genesisBlockHash) : t.Consistent where
  isInSwCheckpointZone_isOk index := ⟨_, isInSwCheckpointZone_testnet htest index⟩
  checkSwCheckpoint_isOk index h := ⟨_, checkSwCheckpoint_genesis (.inl htest) h⟩
  lastSwCheckpoint_isOk := ⟨_, lastSwCheckpoint_genesis (.inl htest)⟩
  zone_iff h index := by
    rw [lastSwCheckpoint_genesis (.inl htest)] at h
    cases h
    rw [isInSwCheckpointZone_testnet htest]
    simp
  hash_of_accepted {index h isSwCheckpoint} hzone hlisted haccepted := by
    rw [isInSwCheckpointZone_testnet htest] at hzone
    obtain rfl : index = 0 := by simpa using hzone
    rw [checkSwCheckpoint_genesis (.inl htest)] at haccepted
    obtain rfl : h = t.genesisBlockHash := by simpa using congrArg Prod.fst (Except.ok.inj haccepted)
    exact hgenesis hlisted

private theorem consistent_of_main (hmain : t.isTestnet = false) (hne : t.checkpoints ≠ [])
    (hgenesis : (∃ cp ∈ t.checkpoints, cp.height = 0) →
      ∃ cp ∈ t.checkpoints, cp.height = 0 ∧ cp.hash = keyToHex t.genesisBlockHash) : t.Consistent where
  isInSwCheckpointZone_isOk index := ⟨_, isInSwCheckpointZone_main hmain hne index⟩
  checkSwCheckpoint_isOk index h := by
    by_cases hindex : index = 0
    · exact ⟨_, checkSwCheckpoint_genesis (.inr hindex) h⟩
    · rw [checkSwCheckpoint_main hmain hindex]
      split <;> exact ⟨_, rfl⟩
  lastSwCheckpoint_isOk := ⟨_, lastSwCheckpoint_main hmain hne⟩
  zone_iff h index := by
    rw [lastSwCheckpoint_main hmain hne] at h
    cases h
    rw [isInSwCheckpointZone_main hmain hne]
    simp
  hash_of_accepted {index h isSwCheckpoint} hzone hlisted haccepted := by
    by_cases hindex : index = 0
    · subst hindex
      rw [checkSwCheckpoint_genesis (.inr rfl)] at haccepted
      obtain rfl : h = t.genesisBlockHash := by simpa using congrArg Prod.fst (Except.ok.inj haccepted)
      exact hgenesis hlisted
    · exact hash_of_checkSwCheckpoint hmain hindex hlisted haccepted

/-- The first block is in the zone, and only its own hash is accepted. -/
theorem Consistent.genesis (h : t.Consistent) (hlisted : ∃ cp ∈ t.checkpoints, cp.height = 0) :
    ∃ cp ∈ t.checkpoints, cp.height = 0 ∧ cp.hash = keyToHex t.genesisBlockHash := by
  obtain ⟨⟨height, hash⟩, hlast⟩ := h.lastSwCheckpoint_isOk
  have hzone : t.isInSwCheckpointZone 0 = .ok true := by
    apply (h.zone_iff hlast 0).mpr
    exact UInt32.le_iff_toNat_le.mpr (Nat.zero_le _)
  have haccepted : t.checkSwCheckpoint 0 t.genesisBlockHash = .ok (true, true) := by
    rw [checkSwCheckpoint_genesis (.inr rfl)]
    simp only [if_true, decide_true]
  exact h.hash_of_accepted hzone hlisted haccepted

/-- **The answers over the checkpoints.** -/
theorem consistent_iff (t : CheckpointTable) :
    t.Consistent ↔
      (t.isTestnet = true ∨ t.checkpoints ≠ []) ∧
        ((∃ cp ∈ t.checkpoints, cp.height = 0) →
          ∃ cp ∈ t.checkpoints, cp.height = 0 ∧ cp.hash = keyToHex t.genesisBlockHash) := by
  constructor
  · intro h
    refine ⟨?_, h.genesis⟩
    by_contra hnot
    obtain ⟨hmain, hnil⟩ : t.isTestnet = false ∧ t.checkpoints = [] := by simpa using hnot
    obtain ⟨b, hb⟩ := h.isInSwCheckpointZone_isOk 0
    rw [isInSwCheckpointZone_nil hmain hnil] at hb
    cases hb
  · rintro ⟨htable, hgenesis⟩
    rcases htest : t.isTestnet with - | -
    · apply consistent_of_main htest _ hgenesis
      simpa [htest] using htable
    · exact consistent_of_testnet htest hgenesis

/-- The main network as it is shipped: a table without entries. -/
def shipped (genesisBlockHash : Hash) : CheckpointTable where
  isTestnet := false
  genesisBlockHash := genesisBlockHash
  checkpoints := []
  sorted := .nil
  fits := by decide

/-- For the shipped table the zone is read from in front of the array, while the last checkpoint is the
first block. -/
theorem shipped_not_consistent :
    (shipped 0).isInSwCheckpointZone 0 = .error .outOfRange ∧
      (shipped 0).lastSwCheckpoint = .ok (0, 0) ∧ ¬(shipped 0).Consistent := by
  refine ⟨by rfl, by rfl, fun h ↦ ?_⟩
  obtain ⟨b, hb⟩ := h.isInSwCheckpointZone_isOk 0
  cases hb

end CheckpointTable

end CryoNero
