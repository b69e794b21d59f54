import CryoNero.Core.TransactionBuilder
import CryoNero.Wallet.Unconfirmed

/-!
# Decoys

The decoys of an input are taken off the end of the list for its amount, in a chunk of one more than
were asked for. Decoys with the same index are merged after the chunk was counted, and the closest
one to the real output gives way to it. `Spread` says of a chunk that nothing goes wrong in that: its
indexes are distinct, and the real output is not kept from giving way to itself by an index at the
one distance that the machine takes for a negative number.
-/

namespace CryoNero

open Store

namespace UnspentSelector

/-! ## Taking decoys -/

/-- What is taken are the last decoys of the list, and they are gone from it. -/
theorem takeDecoys_eq_some {n : ℕ} {taken ours : List Api.Output} {p : List Api.Output × List Api.Output}
    (h : takeDecoys n taken ours = some p) :
    n ≤ ours.length ∧ p.1 = taken ++ ours.reverse.take n ∧ p.2.reverse = ours.reverse.drop n := by
  induction n generalizing taken ours with
  | zero =>
    obtain rfl := Option.some.inj h
    simp
  | succ n ih =>
    rcases ours.eq_nil_or_concat with rfl | ⟨init, o, rfl⟩
    · cases h
    · rw [takeDecoys, List.concat_eq_append, List.getLast?_concat, List.dropLast_concat] at h
      obtain ⟨hle, htaken, hrest⟩ := ih h
      simp only [List.concat_eq_append, List.length_append, List.length_singleton,
        List.reverse_append, List.reverse_singleton, List.singleton_append, List.take_succ_cons,
        List.drop_succ_cons]
      exact ⟨by omega, by rw [htaken, List.append_assoc, List.singleton_append], hrest⟩

/-! ## Merging -/

/-- The indexes of some outputs. -/
abbrev indexes (outputs : List Api.Output) : List UInt32 := outputs.map (·.globalIndex)

private theorem uniqueFrom_sublist (o : Api.Output) (rest : List Api.Output) :
    (uniqueFrom o rest).Sublist (o :: rest) := by
  induction rest generalizing o with
  | nil => exact List.Sublist.refl _
  | cons p rest ih =>
    rw [uniqueFrom]
    split
    · exact (ih o).trans ((List.sublist_cons_self p rest).cons_cons o)
    · exact (ih p).cons_cons o

private theorem mem_indexes_uniqueFrom {o : Api.Output} {rest : List Api.Output} {i : UInt32} :
    i ∈ indexes (uniqueFrom o rest) ↔ i ∈ indexes (o :: rest) := by
  induction rest generalizing o with
  | nil => rfl
  | cons p rest ih =>
    rw [uniqueFrom]
    split
    · rename_i heq
      simp only [ih, List.map_cons, List.mem_cons, heq]
      tauto
    · simp only [List.map_cons, List.mem_cons, ih]

private theorem uniqueFrom_nodup {o : Api.Output} {rest : List Api.Output}
    (h : (o :: rest).Pairwise fun a b ↦ a.globalIndex ≤ b.globalIndex) :
    (indexes (uniqueFrom o rest)).Nodup := by
  induction rest generalizing o with
  | nil => exact List.nodup_singleton _
  | cons p rest ih =>
    rw [uniqueFrom]
    split
    · exact ih (h.sublist ((List.sublist_cons_self p rest).cons_cons o))
    · rename_i hne
      refine List.nodup_cons.mpr ⟨fun hmem ↦ ?_, ih h.of_cons⟩
      -- every later index is at least that of the neighbour
      obtain ⟨q, hq, heq⟩ := List.mem_map.mp (mem_indexes_uniqueFrom.mp hmem)
      have hop := List.rel_of_pairwise_cons h List.mem_cons_self
      have hpq : p.globalIndex ≤ q.globalIndex := by
        rcases List.mem_cons.mp hq with rfl | hq
        · exact UInt32.le_refl _
        · exact List.rel_of_pairwise_cons h.of_cons hq
      rw [heq] at hpq
      exact hne (UInt32.le_antisymm hop hpq)

/-- A chunk without its duplicates, sorted. -/
def merged (chunk : List Api.Output) : List Api.Output :=
  uniqueGlobalIndex (Api.sortByGlobalIndex chunk)

private theorem sorted_sortByGlobalIndex (chunk : List Api.Output) :
    (Api.sortByGlobalIndex chunk).Pairwise fun a b ↦ a.globalIndex ≤ b.globalIndex := by
  have : Std.Total fun a b : Api.Output ↦ a.globalIndex ≤ b.globalIndex :=
    ⟨fun a b ↦ UInt32.le_total a.globalIndex b.globalIndex⟩
  have : IsTrans Api.Output fun a b ↦ a.globalIndex ≤ b.globalIndex :=
    ⟨fun _ _ _ ↦ UInt32.le_trans⟩
  exact List.pairwise_insertionSort _ chunk

private theorem sortByGlobalIndex_perm (chunk : List Api.Output) :
    (Api.sortByGlobalIndex chunk).Perm chunk :=
  List.perm_insertionSort _ chunk

theorem mem_indexes_merged {chunk : List Api.Output} {i : UInt32} :
    i ∈ indexes (merged chunk) ↔ i ∈ indexes chunk := by
  rw [← ((sortByGlobalIndex_perm chunk).map (·.globalIndex)).mem_iff, merged]
  cases Api.sortByGlobalIndex chunk with
  | nil => rfl
  | cons o rest => exact mem_indexes_uniqueFrom

private theorem nodup_merged (chunk : List Api.Output) : (indexes (merged chunk)).Nodup := by
  have hsorted := sorted_sortByGlobalIndex chunk
  rw [merged]
  cases hlist : Api.sortByGlobalIndex chunk with
  | nil => exact List.nodup_nil
  | cons o rest => exact uniqueFrom_nodup (hlist ▸ hsorted)

theorem length_merged_le (chunk : List Api.Output) : (merged chunk).length ≤ chunk.length := by
  rw [← (sortByGlobalIndex_perm chunk).length_eq, merged]
  cases Api.sortByGlobalIndex chunk with
  | nil => exact le_rfl
  | cons o rest => exact (uniqueFrom_sublist o rest).length_le

private theorem length_merged_iff {chunk : List Api.Output} :
    (merged chunk).length = chunk.length ↔ (indexes chunk).Nodup := by
  have hset : (indexes (merged chunk)).toFinset = (indexes chunk).toFinset := by
    ext i
    rw [List.mem_toFinset, List.mem_toFinset, mem_indexes_merged]
  have hcard := List.toFinset_card_of_nodup (nodup_merged chunk)
  rw [hset, List.length_map] at hcard
  constructor
  · intro hlength
    rw [← hcard, List.card_toFinset, ← List.length_map Api.Output.globalIndex] at hlength
    exact List.dedup_eq_self.mp ((List.dedup_sublist _).eq_of_length hlength)
  · intro hnodup
    rw [← hcard, List.toFinset_card_of_nodup hnodup, List.length_map]

/-! ## The closest decoy -/

private theorem toInt_distance (a b : UInt32) : (distance a b).toInt =
    if a - b = 2 ^ 31 then -2 ^ 31 else ((a - b).toInt32.toInt.natAbs : ℤ) := by
  have hmin : (a - b).toBitVec = BitVec.intMin 32 ↔ a - b = 2 ^ 31 :=
    (UInt32.toBitVec_inj (b := 2 ^ 31)).symm.symm
  have habs := BitVec.toInt_abs_eq_natAbs (x := (a - b).toBitVec)
  simp only [hmin] at habs
  exact habs

theorem distance_eq_zero_iff {a b : UInt32} : (distance a b).toInt = 0 ↔ a = b := by
  rw [toInt_distance]
  split
  · rename_i hfar
    refine iff_of_false (by omega) fun h ↦ ?_
    rw [h, UInt32.sub_self] at hfar
    exact absurd hfar (by decide)
  · rw [Nat.cast_eq_zero, Int.natAbs_eq_zero]
    constructor
    · intro h
      have hzero : (a - b).toInt32 = 0 := Int32.toInt_inj.mp h
      exact sub_eq_zero.mp (congrArg Int32.toUInt32 hzero)
    · rintro rfl
      rw [UInt32.sub_self]
      rfl

private theorem distance_neg_iff {a b : UInt32} : (distance a b).toInt < 0 ↔ a - b = 2 ^ 31 := by
  rw [toInt_distance]
  split
  · rename_i hfar
    exact iff_of_true (by omega) hfar
  · rename_i hnear
    exact iff_of_false (by omega) hnear

/-- What the search for the closest output finds: the best so far or an output of the list, and
nothing is closer. -/
private theorem closest_spec {real : UInt32} {outputs : List Api.Output} {i : ℕ}
    {best : Option (ℕ × Int32)} {p : ℕ × Int32} (h : closest real outputs i best = some p) :
    (best = some p ∨ i ≤ p.1 ∧ ∃ o, outputs[p.1 - i]? = some o ∧ p.2 = distance real o.globalIndex) ∧
      (∀ o ∈ outputs, p.2 ≤ distance real o.globalIndex) ∧ ∀ q, best = some q → p.2 ≤ q.2 := by
  induction outputs generalizing i best with
  | nil =>
    have hbest : best = some p := h
    refine ⟨.inl hbest, by simp, fun q hq ↦ ?_⟩
    obtain rfl := Option.some.inj (hbest.symm.trans hq)
    exact Int32.le_refl _
  | cons o rest ih =>
    -- the search goes on with the closer one of this output and the best so far
    obtain ⟨next, hrest, hnext, hcloser, hkept⟩ : ∃ next,
        closest real rest (i + 1) (some next) = some p ∧
        (next = (i, distance real o.globalIndex) ∨ best = some next) ∧
        next.2 ≤ distance real o.globalIndex ∧ ∀ q, best = some q → next.2 ≤ q.2 := by
      rcases best with _ | ⟨j, bestDistance⟩
      · exact ⟨_, h, .inl rfl, Int32.le_refl _, nofun⟩
      · have hstep : closest real rest (i + 1) (if distance real o.globalIndex < bestDistance then
            some (i, distance real o.globalIndex) else some (j, bestDistance)) = some p := h
        by_cases hlt : distance real o.globalIndex < bestDistance
        · rw [if_pos hlt] at hstep
          refine ⟨_, hstep, .inl rfl, Int32.le_refl _, ?_⟩
          rintro _ ⟨⟩
          exact Int32.le_of_lt hlt
        · rw [if_neg hlt] at hstep
          refine ⟨_, hstep, .inr rfl, Int32.not_lt.mp hlt, ?_⟩
          rintro _ ⟨⟩
          exact Int32.le_refl _
    obtain ⟨hwhere, hleast, hbest⟩ := ih hrest
    have hp := hbest next rfl
    refine ⟨?_, ?_, fun q hq ↦ Int32.le_trans hp (hkept q hq)⟩
    · rcases hwhere with hsame | ⟨hi, hget⟩
      · obtain rfl := Option.some.inj hsame
        rcases hnext with rfl | hbefore
        · exact .inr ⟨le_rfl, o, by simp, rfl⟩
        · exact .inl hbefore
      · refine .inr ⟨by omega, ?_⟩
        rwa [show p.1 - i = p.1 - (i + 1) + 1 by omega]
    · intro q hq
      rcases List.mem_cons.mp hq with rfl | hq
      · exact Int32.le_trans hp hcloser
      · exact hleast q hq

theorem closest_mem {real : UInt32} {outputs : List Api.Output} {p : ℕ × Int32}
    (h : closest real outputs 0 none = some p) :
    ∃ o, outputs[p.1]? = some o ∧ p.2 = distance real o.globalIndex :=
  ((closest_spec h).1.resolve_left nofun).2

/-- The output that gives way is the real one, if it is there, unless an output that is `2 ^ 31`
away is closer in signed numbers. -/
private theorem mem_indexes_eraseIdx_iff {real : UInt32} {outputs : List Api.Output} {p : ℕ × Int32}
    (hnodup : (indexes outputs).Nodup) (h : closest real outputs 0 none = some p) :
    real ∈ indexes (outputs.eraseIdx p.1) ↔
      real ∈ indexes outputs ∧ real + 2 ^ 31 ∈ indexes outputs := by
  obtain ⟨-, hleast, -⟩ := closest_spec h
  obtain ⟨o, hget, hdistance⟩ := closest_mem h
  obtain ⟨hlt, rfl⟩ := List.getElem?_eq_some_iff.mp hget
  have herase : indexes (outputs.eraseIdx p.1) =
      (indexes outputs).erase (outputs[p.1].globalIndex) := by
    have hlt' : p.1 < (indexes outputs).length := by simpa using hlt
    have hget := hnodup.erase_getElem p.1 hlt'
    simpa [List.eraseIdx_map] using hget.symm
  rw [herase, hnodup.mem_erase_iff, and_comm]
  refine and_congr_right fun hreal ↦ ?_
  have hfar (i : UInt32) : real - i = 2 ^ 31 ↔ i = real + 2 ^ 31 := by
    rw [sub_eq_iff_eq_add, ← sub_eq_iff_eq_add', eq_comm, sub_eq_add_neg]
    rfl
  constructor
  · intro hne
    -- an output other than the real one is the closest only with a negative distance
    obtain ⟨r, hr, hindex⟩ := List.mem_map.mp hreal
    have hle := hleast r hr
    have hzero : (distance real r.globalIndex).toInt = 0 := distance_eq_zero_iff.mpr hindex.symm
    have hnonzero : p.2.toInt ≠ 0 := by
      rw [hdistance]
      exact fun h ↦ hne (distance_eq_zero_iff.mp h)
    have hneg : (distance real outputs[p.1].globalIndex).toInt < 0 := by
      rw [← hdistance]
      rw [Int32.le_iff_toInt_le, hzero] at hle
      omega
    rw [← (hfar _).mp (distance_neg_iff.mp hneg)]
    exact List.mem_map_of_mem (List.getElem_mem hlt)
  · intro hmem heq
    obtain ⟨f, hf, hindex⟩ := List.mem_map.mp hmem
    have hle := hleast f hf
    have hneg : (distance real f.globalIndex).toInt < 0 :=
      distance_neg_iff.mpr ((hfar _).mpr hindex)
    have hzero : p.2.toInt = 0 := by
      rw [hdistance]
      exact distance_eq_zero_iff.mpr heq
    rw [Int32.le_iff_toInt_le, hzero] at hle
    omega

/-! ## Rings -/

/-- What was asked for: a ring of the right size, of outputs of one amount with distinct indexes,
that has the real output in its place. -/
structure Delivered (anonymity : UInt32) (real : Api.Output) (desc : InputDesc) : Prop where
  size : desc.outputs.length = anonymity.toNat + 1
  amounts : ∀ o ∈ desc.outputs, o.amount = real.amount
  distinct : (indexes desc.outputs).Nodup
  placed : desc.outputs[desc.realOutputIndex]? = some real
  listed : desc.input.amount = real.amount ∧
    desc.input.outputIndexes = absoluteOutputOffsetsToRelative (indexes desc.outputs)

/-- A chunk from which a ring can be made: its indexes are distinct, and it does not have both the
real output and the one that is `2 ^ 31` away from it. -/
def Spread (real : UInt32) (chunk : List Api.Output) : Prop :=
  (indexes chunk).Nodup ∧ ¬(real ∈ indexes chunk ∧ real + 2 ^ 31 ∈ indexes chunk)

instance (real : UInt32) (chunk : List Api.Output) : Decidable (Spread real chunk) :=
  inferInstanceAs (Decidable (_ ∧ _))

/-- The chunk for an input, after as many inputs of the same amount. -/
def chunk (anonymity : UInt32) (before : ℕ) (ours : List Api.Output) : List Api.Output :=
  (ours.reverse.drop (before * (anonymity + 1).toNat)).take (anonymity + 1).toNat

/-- The ring of the real output and a chunk, by its indexes: the closest decoy has given way. -/
def ring (real : Api.Output) (chunk : List Api.Output) : List UInt32 :=
  let position := ((closest real.globalIndex (merged chunk) 0 none).map Prod.fst).getD 0
  let outputs := Api.sortByGlobalIndex ((merged chunk).eraseIdx position)
  indexes (outputs.insertIdx (Api.lowerBound outputs real.globalIndex) real)

private theorem mixOutputs_spec {anonymity : UInt32} {real : Api.Output} {ours : List Api.Output}
    {p : List Api.Output × List Api.Output} (h : mixOutputs anonymity real ours = .ok p) :
    p.2.reverse = ours.reverse.drop (anonymity + 1).toNat ∧
      (indexes p.1).Nodup ∧
      (p.1.length = anonymity.toNat ↔ (indexes (chunk anonymity 0 ours)).Nodup) ∧
      (real.globalIndex ∈ indexes p.1 ↔
        real.globalIndex ∈ indexes (chunk anonymity 0 ours) ∧
          real.globalIndex + 2 ^ 31 ∈ indexes (chunk anonymity 0 ours)) := by
  rw [mixOutputs] at h
  obtain ⟨q, hq, h⟩ := bind_eq_ok.mp h
  obtain ⟨best, hbest, h⟩ := bind_eq_ok.mp h
  obtain rfl := Except.ok.inj h
  obtain ⟨hle, htaken, hrest⟩ := takeDecoys_eq_some (orFail_eq_ok.mp hq)
  have hchunk : q.1 = chunk anonymity 0 ours := by
    rw [htaken, chunk, Nat.zero_mul, List.drop_zero, List.nil_append]
  rw [hchunk] at hbest
  have hbest := orFail_eq_ok.mp hbest
  have hnodup := nodup_merged (chunk anonymity 0 ours)
  refine ⟨hrest, ?_, ?_, ?_⟩
  · rw [hchunk]
    exact hnodup.sublist ((List.eraseIdx_sublist _ _).map _)
  · rw [hchunk]
    obtain ⟨o, hget, -⟩ := closest_mem hbest
    obtain ⟨hlt, -⟩ := List.getElem?_eq_some_iff.mp hget
    have hlt : best.1 < (merged (chunk anonymity 0 ours)).length := hlt
    have hlength : (chunk anonymity 0 ours).length = (anonymity + 1).toNat := by
      rw [chunk, Nat.zero_mul, List.drop_zero, List.length_take, List.length_reverse]
      omega
    have hsub := length_merged_le (chunk anonymity 0 ours)
    -- a chunk that has an output has not been made empty by wrapping around
    have hsucc : (anonymity + 1).toNat = anonymity.toNat + 1 := by
      have hadd : (anonymity + 1).toNat = (anonymity.toNat + 1) % 2 ^ 32 := UInt32.toNat_add _ _
      have := anonymity.toNat_lt
      omega
    rw [← length_merged_iff]
    change ((merged (chunk anonymity 0 ours)).eraseIdx best.1).length = _ ↔ _
    rw [List.length_eraseIdx_of_lt hlt]
    omega
  · rw [hchunk]
    have herase := mem_indexes_eraseIdx_iff hnodup hbest
    rw [mem_indexes_merged, mem_indexes_merged] at herase
    exact herase

end UnspentSelector

/-- The ring is the decoys and the real output, which is where the input says. -/
theorem TransactionBuilder.addInput_spec {crypto : SpendCrypto} {b b' : TransactionBuilder}
    {senderKeys : AccountKeys} {real : Api.Output} {mix : List Api.Output}
    (h : addInput crypto b senderKeys real mix = .ok b') :
    ∃ desc, b'.inputDescs = b.inputDescs ++ [desc] ∧ desc.outputs.Perm (real :: mix) ∧
      (∀ o ∈ desc.outputs, o.amount = real.amount) ∧
      desc.outputs[desc.realOutputIndex]? = some real ∧
      desc.input.amount = real.amount ∧
      desc.input.outputIndexes =
        absoluteOutputOffsetsToRelative (desc.outputs.map (·.globalIndex)) := by
  rw [addInput] at h
  obtain ⟨q, -, h⟩ := bind_eq_ok.mp h
  obtain ⟨_, -, h⟩ := bind_eq_ok.mp h
  obtain ⟨_, hamounts, h⟩ := bind_eq_ok.mp h
  obtain rfl := Except.ok.inj h
  rw [ensure_eq_ok] at hamounts
  have hplace : Api.lowerBound (Api.sortByGlobalIndex mix) real.globalIndex ≤
      (Api.sortByGlobalIndex mix).length :=
    (List.takeWhile_sublist _).length_le
  refine ⟨_, rfl, ?_, hamounts, ?_, rfl, rfl⟩
  · exact (List.perm_insertIdx real _ hplace).trans ((List.perm_insertionSort _ mix).cons real)
  · dsimp only
    rw [List.getElem?_insertIdx_self, if_pos hplace]

namespace UnspentSelector

variable {env : BuildEnv} {viewSecretKey : SecretKey} {walletRecords : Table PublicKey WalletRecord}
variable {anonymity : UInt32}

/-- One input: the ring is what was asked for just if the chunk at the end of its list allows it,
and the chunk is gone from the list. -/
private theorem addMixedInput_spec {s s' : TransactionBuilder × RandomOutputs} {real : Api.Output}
    (h : addMixedInput env viewSecretKey walletRecords anonymity s real = .ok s') :
    ∃ desc, s'.1.inputDescs = s.1.inputDescs ++ [desc] ∧
      (Delivered anonymity real desc ↔
        Spread real.globalIndex (chunk anonymity 0 ((s.2[real.amount]?).getD []))) ∧
      ∀ amount, ((s'.2[amount]?).getD []).reverse =
        ((s.2[amount]?).getD []).reverse.drop
          (if real.amount = amount then (anonymity + 1).toNat else 0) := by
  rw [addMixedInput] at h
  obtain ⟨p, hmix, h⟩ := bind_eq_ok.mp h
  obtain ⟨keys, -, h⟩ := bind_eq_ok.mp h
  obtain ⟨builder, hadd, h⟩ := bind_eq_ok.mp h
  obtain rfl := Except.ok.inj h
  obtain ⟨hrest, hnodup, hsize, hreal⟩ := mixOutputs_spec hmix
  obtain ⟨desc, hdescs, hperm, hamounts, hplaced, hlisted⟩ := TransactionBuilder.addInput_spec hadd
  have hlength : desc.outputs.length = p.1.length + 1 := hperm.length_eq
  have hdistinct : (indexes desc.outputs).Nodup ↔ real.globalIndex ∉ indexes p.1 := by
    rw [(hperm.map Api.Output.globalIndex).nodup_iff, List.map_cons, List.nodup_cons]
    exact and_iff_left hnodup
  refine ⟨desc, hdescs, ?_, fun amount ↦ ?_⟩
  · rw [Spread, ← hsize, ← hreal, ← hdistinct]
    constructor
    · intro hdelivered
      have hcount := hdelivered.size
      exact ⟨by omega, hdelivered.distinct⟩
    · rintro ⟨hcount, hdistinct⟩
      exact ⟨by omega, hamounts, hdistinct, hplaced, hlisted⟩
  · rw [Table.get_insert]
    split
    · rename_i heq
      rw [← heq]
      exact hrest
    · rfl

/-- The inputs of an amount among some outputs. -/
def inputsOf (amount : Amount) (outputs : List Api.Output) : ℕ :=
  outputs.countP fun u ↦ u.amount = amount

/-- What holds once the inputs of `done` are added: each of their rings is what was asked for just
if its chunk allows it, and the chunks are gone from the lists. -/
structure Mixed (anonymity : UInt32) (builder : TransactionBuilder) (raResponse : RandomOutputs)
    (done : List Api.Output) (s : TransactionBuilder × RandomOutputs) : Prop where
  rings : ∃ descs, s.1.inputDescs = builder.inputDescs ++ descs ∧ descs.length = done.length ∧
    ∀ i real desc, done[i]? = some real → descs[i]? = some desc →
      (Delivered anonymity real desc ↔
        Spread real.globalIndex (chunk anonymity (inputsOf real.amount (done.take i))
          ((raResponse[real.amount]?).getD [])))
  left : ∀ amount, ((s.2[amount]?).getD []).reverse =
    ((raResponse[amount]?).getD []).reverse.drop (inputsOf amount done * (anonymity + 1).toNat)

private theorem Mixed.chunk_eq {builder : TransactionBuilder} {raResponse : RandomOutputs}
    {done : List Api.Output} {s : TransactionBuilder × RandomOutputs}
    (hs : Mixed anonymity builder raResponse done s) (amount : Amount) :
    chunk anonymity 0 ((s.2[amount]?).getD []) =
      chunk anonymity (inputsOf amount done) ((raResponse[amount]?).getD []) := by
  rw [chunk, hs.left, Nat.zero_mul, List.drop_zero, chunk]

theorem Mixed.step {builder : TransactionBuilder} {raResponse : RandomOutputs}
    {done : List Api.Output} {real : Api.Output} {s s' : TransactionBuilder × RandomOutputs}
    (hs : Mixed anonymity builder raResponse done s)
    (h : addMixedInput env viewSecretKey walletRecords anonymity s real = .ok s') :
    Mixed anonymity builder raResponse (done ++ [real]) s' := by
  obtain ⟨desc, hdesc, hdelivered, hrest⟩ := addMixedInput_spec h
  obtain ⟨descs, hdescs, hlength, hrings⟩ := hs.rings
  have hchunk := hs.chunk_eq real.amount
  refine ⟨⟨descs ++ [desc], by rw [hdesc, hdescs, List.append_assoc], by simp [hlength], ?_⟩, ?_⟩
  · intro i u d hu hd
    rcases Nat.lt_trichotomy i done.length with hlt | rfl | hgt
    · rw [List.getElem?_append_left hlt] at hu
      rw [List.getElem?_append_left (hlength ▸ hlt)] at hd
      rw [List.take_append_of_le_length hlt.le]
      exact hrings i u d hu hd
    · rw [List.getElem?_concat_length] at hu
      rw [← hlength, List.getElem?_concat_length] at hd
      obtain rfl := Option.some.inj hu
      obtain rfl := Option.some.inj hd
      rw [List.take_left', ← hchunk]
      · exact hdelivered
      · rfl
    · rw [List.getElem?_eq_none (by simp; omega)] at hu
      cases hu
  · intro amount
    rw [hrest, hs.left, List.drop_drop, inputsOf, inputsOf, List.countP_append, Nat.add_mul]
    congr 2
    by_cases heq : real.amount = amount <;> simp [heq]

private theorem mixed_start (builder : TransactionBuilder) (raResponse : RandomOutputs) :
    Mixed anonymity builder raResponse [] (builder, raResponse) :=
  ⟨⟨[], by simp, rfl, nofun⟩, fun amount ↦ by simp [inputsOf]⟩

/-- Each input names the ring of its real output and of the chunk that is left for it. -/
def NamesRing (anonymity : UInt32) (raResponse : RandomOutputs) (done : List Api.Output)
    (desc : InputDesc) : Prop :=
  ∃ i real, done[i]? = some real ∧
    indexes desc.outputs = ring real (chunk anonymity (inputsOf real.amount (done.take i))
      ((raResponse[real.amount]?).getD [])) ∧
    desc.input.outputIndexes = absoluteOutputOffsetsToRelative (indexes desc.outputs)

/-- **The anonymity that was asked for.** When all inputs are added, each has the ring that was asked
for just if its chunk allows it: the one that the inputs of its amount before it have left at the
end of the list. -/
theorem addMixedInputs_delivered_iff {builder builder' : TransactionBuilder}
    {raResponse : RandomOutputs} {usedUnspents : List Api.Output}
    (h : addMixedInputs env viewSecretKey walletRecords builder anonymity raResponse usedUnspents =
      .ok builder') :
    ∃ descs, builder'.inputDescs = builder.inputDescs ++ descs ∧
      descs.length = usedUnspents.length ∧
      ∀ i real desc, usedUnspents[i]? = some real → descs[i]? = some desc →
        (Delivered anonymity real desc ↔
          Spread real.globalIndex (chunk anonymity (inputsOf real.amount (usedUnspents.take i))
            ((raResponse[real.amount]?).getD []))) := by
  rw [addMixedInputs] at h
  obtain ⟨s, hfold, h⟩ := bind_eq_ok.mp h
  obtain rfl := Except.ok.inj h
  exact (foldlM_ok (Mixed anonymity builder raResponse) hfold (mixed_start builder raResponse)
    fun _ _ _ _ _ _ hs hstep ↦ hs.step hstep).rings

/-- The surroundings of a wallet with the view key 100 and the spend key 7. -/
def sampleBuildEnv : BuildEnv where
  crypto := { WalletState.sampleSpendCrypto with
    generateRingSignature := fun _ _ _ _ _ ↦ some fun _ ↦ 0
    secretKeyToPublicKey := id }
  currency := WalletState.sampleStateEnv.currency
  parseAccountAddressString _ := some ⟨7, 100⟩

/-- An output of the wallet, and decoys of the same amount. -/
def sampleReal : Api.Output :=
  { amount := 5, globalIndex := 3, transactionPublicKey := 1, keyImage := 216 }

def sampleDecoy (globalIndex : UInt32) : Api.Output := { amount := 5, globalIndex := globalIndex }

def sampleMixed (decoys : List Api.Output) : Except BuildError TransactionBuilder :=
  addMixedInputs sampleBuildEnv 100 WalletState.sampleKeys.walletRecords {} 1
    ((∅ : RandomOutputs).insert 5 decoys) [sampleReal]

/-- The rings, by their indexes. -/
def ringIndexes (r : Except BuildError TransactionBuilder) : Option (List (List UInt32)) :=
  r.toOption.map fun b ↦ b.inputDescs.map fun desc ↦ indexes desc.outputs

theorem of_ringIndexes {r : Except BuildError TransactionBuilder} {ring : List UInt32}
    (h : ringIndexes r = some [ring]) :
    ∃ b desc, r = .ok b ∧ b.inputDescs = [desc] ∧ indexes desc.outputs = ring := by
  obtain ⟨b, hb, hrings⟩ := Option.map_eq_some_iff.mp h
  obtain ⟨desc, hdescs, hring⟩ := List.map_eq_singleton_iff.mp hrings
  exact ⟨b, desc, toOption_eq_some.mp hb, hdescs, hring⟩

theorem addMixedInputs_delivered_iff_sample :
    ∃ desc, indexes desc.outputs = [3, 8] ∧
      (Delivered 1 sampleReal desc ↔ Spread 3 [sampleDecoy 4, sampleDecoy 8]) := by
  have hrings : ringIndexes (sampleMixed [sampleDecoy 8, sampleDecoy 4]) = some [[3, 8]] := by
    decide +kernel
  obtain ⟨b, desc, hok, hdescs, hring⟩ := of_ringIndexes hrings
  obtain ⟨descs, hnew, -, hiff⟩ := addMixedInputs_delivered_iff hok
  rw [hdescs] at hnew
  obtain rfl : [desc] = descs := hnew
  exact ⟨desc, hring, hiff 0 sampleReal desc rfl rfl⟩

/-- A decoy that is offered twice makes the ring smaller. A decoy that is `2 ^ 31` away from the
real output keeps its double in the ring. -/
theorem addMixedInputs_not_delivered :
    (∃ b desc, sampleMixed [sampleDecoy 8, sampleDecoy 8] = .ok b ∧ b.inputDescs = [desc] ∧
      ¬Delivered 1 sampleReal desc) ∧
    ∃ b desc, sampleMixed [sampleDecoy 3, sampleDecoy (3 + 2 ^ 31)] = .ok b ∧
      b.inputDescs = [desc] ∧ ¬Delivered 1 sampleReal desc := by
  have htwice : ringIndexes (sampleMixed [sampleDecoy 8, sampleDecoy 8]) = some [[3]] := by
    decide +kernel
  have hfar : ringIndexes (sampleMixed [sampleDecoy 3, sampleDecoy (3 + 2 ^ 31)]) =
      some [[3, 3]] := by decide +kernel
  constructor
  · obtain ⟨b, desc, hok, hdescs, hring⟩ := of_ringIndexes htwice
    refine ⟨b, desc, hok, hdescs, fun h ↦ ?_⟩
    have hsize : (indexes desc.outputs).length = 2 := (List.length_map _).trans h.size
    rw [hring] at hsize
    exact absurd hsize (by decide)
  · obtain ⟨b, desc, hok, hdescs, hring⟩ := of_ringIndexes hfar
    refine ⟨b, desc, hok, hdescs, fun h ↦ ?_⟩
    have hdistinct := h.distinct
    rw [hring] at hdistinct
    exact absurd hdistinct (by decide)

end UnspentSelector

end CryoNero
