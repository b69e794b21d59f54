import CryoNero.Core.Mining
import Mathlib.Tactic.Ring

/-!
# Amounts taken apart

An amount is taken apart into its decimal digits and its dust, and the parts add up to it. The digits
are found from the lowest on. When `k` of them are, the dust is below `10 ^ k`, and once it was given
out every digit that is left is worth more than the threshold.
-/

namespace CryoNero

open Seria

theorem toNat_sum {l : List Amount} (h : (l.map UInt64.toNat).sum < 2 ^ 64) :
    l.sum.toNat = (l.map UInt64.toNat).sum := by
  induction l with
  | nil => rfl
  | cons x l ih =>
    rw [List.map_cons, List.sum_cons] at h ⊢
    rw [List.sum_cons, UInt64.toNat_add, ih (by omega), Nat.mod_eq_of_lt h]

/-! ## Parts of an amount -/

/-- What an amount may be taken apart into: every part is worth something, and one that is worth more than
the threshold is a single digit. -/
structure Parts (threshold : Amount) (total : ℕ) (parts : List Amount) : Prop where
  sum : (parts.map UInt64.toNat).sum = total
  ne_zero : ∀ p ∈ parts, p ≠ 0
  digit : ∀ p ∈ parts, threshold < p → ∃ d k, 0 < d ∧ d < 10 ∧ p.toNat = d * 10 ^ k

variable {threshold : Amount}

theorem Parts.nil : Parts threshold 0 [] := ⟨rfl, nofun, nofun⟩

theorem Parts.append {a b : ℕ} {xs ys : List Amount} (hx : Parts threshold a xs)
    (hy : Parts threshold b ys) : Parts threshold (a + b) (xs ++ ys) where
  sum := by rw [List.map_append, List.sum_append, hx.sum, hy.sum]
  ne_zero := List.forall_mem_append.mpr ⟨hx.ne_zero, hy.ne_zero⟩
  digit := List.forall_mem_append.mpr ⟨hx.digit, hy.digit⟩

private theorem filter_ne_zero (p : Amount) : [p].filter (· ≠ 0) = if p ≠ 0 then [p] else [] := by
  split_ifs with hp
  · exact List.filter_cons_of_pos (decide_eq_true hp)
  · exact List.filter_cons_of_neg fun h ↦ hp (of_decide_eq_true h)

/-- A part that is zero is left out. -/
theorem Parts.singleton {p : Amount}
    (h : threshold < p → ∃ d k, 0 < d ∧ d < 10 ∧ p.toNat = d * 10 ^ k) :
    Parts threshold p.toNat ([p].filter (· ≠ 0)) := by
  by_cases hp : p = 0
  · subst hp
    exact Parts.nil
  · rw [filter_ne_zero, if_pos hp]
    refine ⟨by rw [List.map_singleton, List.sum_singleton], ?_, ?_⟩
    · exact List.forall_mem_singleton.mpr hp
    · exact List.forall_mem_singleton.mpr h

/-- The parts of the dust are not above the threshold. -/
theorem Parts.dustChunks {dust : Amount} (h : dust ≤ threshold) :
    Parts threshold dust.toNat ([dust % 1000, dust - dust % 1000].filter (· ≠ 0)) := by
  have hmod : (dust % 1000).toNat ≤ dust.toNat := by
    rw [UInt64.toNat_mod]
    exact Nat.mod_le _ _
  have hsub : (dust - dust % 1000).toNat = dust.toNat - (dust % 1000).toNat :=
    UInt64.toNat_sub_of_le _ _ (UInt64.le_iff_toNat_le.mpr hmod)
  have hnot {p : Amount} (hp : p.toNat ≤ dust.toNat) (hlt : threshold < p) :
      ∃ d k, 0 < d ∧ d < 10 ∧ p.toNat = d * 10 ^ k := by
    rw [UInt64.le_iff_toNat_le] at h
    rw [UInt64.lt_iff_toNat_lt] at hlt
    omega
  have hparts := (Parts.singleton (hnot hmod)).append
    (Parts.singleton (p := dust - dust % 1000) (hnot (by omega)))
  rw [hsub, Nat.add_sub_cancel' hmod, ← List.filter_append] at hparts
  exact hparts

theorem Parts.finish {dust : Amount} {isDustHandled : Bool} {chunks : List Amount} {total : ℕ}
    (h : Parts threshold total chunks) (hdust : dust ≤ threshold) :
    Parts threshold (total + if isDustHandled then 0 else dust.toNat)
      (if isDustHandled then chunks
        else chunks ++ [dust % 1000, dust - dust % 1000].filter (· ≠ 0)) := by
  cases isDustHandled with
  | true => exact h
  | false => exact h.append (Parts.dustChunks hdust)

/-- **Spec of a run over the digits.** The parts are those that were there, the dust if it is still to be
given out, and the digits that are left, each at its place. The place wraps around only when no digit is
left. -/
theorem Parts.decomposeDigits {fuel : ℕ} {amount dust : UInt64} (order : UInt64) (isDustHandled : Bool)
    {chunks : List Amount} {total : ℕ} (h : Parts threshold total chunks)
    (hfuel : amount.toNat < 10 ^ fuel) (hdust : dust ≤ threshold)
    (hplace : amount ≠ 0 → dust.toNat + amount.toNat * order.toNat < 2 ^ 64 ∧
      dust.toNat < order.toNat ∧ ∃ k, order.toNat = 10 ^ k)
    (hhandled : isDustHandled = true → amount ≠ 0 → threshold.toNat < order.toNat) :
    Parts threshold (total + (if isDustHandled then 0 else dust.toNat) + amount.toNat * order.toNat)
      (CryoNero.decomposeDigits threshold (fuel + 1) amount order dust isDustHandled chunks) := by
  induction fuel generalizing amount order dust isDustHandled chunks total with
  | zero =>
    obtain rfl : amount = 0 := UInt64.toNat_inj.mp (Nat.lt_one_iff.mp hfuel)
    rw [CryoNero.decomposeDigits, if_pos rfl, UInt64.toNat_zero, Nat.zero_mul, Nat.add_zero]
    exact h.finish hdust
  | succ fuel ih =>
    rw [CryoNero.decomposeDigits]
    by_cases hzero : amount = 0
    · subst hzero
      rw [if_pos rfl, UInt64.toNat_zero, Nat.zero_mul, Nat.add_zero]
      exact h.finish hdust
    rw [if_neg hzero]
    dsimp only
    obtain ⟨hlt, hsmall, k, hk⟩ := hplace hzero
    have hdiv := Nat.div_add_mod amount.toNat 10
    have hmod := Nat.mod_lt amount.toNat (by omega : 0 < 10)
    have hsplit : amount.toNat * order.toNat =
        amount.toNat % 10 * order.toNat + amount.toNat / 10 * (order.toNat * 10) := by
      calc amount.toNat * order.toNat
          = (10 * (amount.toNat / 10) + amount.toNat % 10) * order.toNat := by rw [hdiv]
        _ = _ := by ring
    have hchunk : (amount % 10 * order).toNat = amount.toNat % 10 * order.toNat := by
      rw [UInt64.toNat_mul, UInt64.toNat_mod]
      exact Nat.mod_eq_of_lt (by change amount.toNat % 10 * order.toNat < 2 ^ 64; omega)
    have hadd : (dust + amount % 10 * order).toNat =
        dust.toNat + amount.toNat % 10 * order.toNat := by
      rw [UInt64.toNat_add, hchunk, Nat.mod_eq_of_lt (by omega)]
    have htenth : (amount / 10).toNat = amount.toNat / 10 := UInt64.toNat_div _ _
    have hdigit : amount.toNat % 10 * order.toNat ≤ 9 * order.toNat := Nat.mul_le_mul_right _ (by omega)
    have hfuel' : (amount / 10).toNat < 10 ^ fuel := by
      rw [htenth]
      rw [pow_succ] at hfuel
      omega
    -- the next place is exact as long as there is a digit for it
    have hnext (hmore : amount / 10 ≠ 0) : (order * 10).toNat = order.toNat * 10 := by
      have hpos : 1 ≤ amount.toNat / 10 := by
        rw [← htenth]
        exact Nat.one_le_iff_ne_zero.mpr fun hz ↦ hmore (UInt64.toNat_inj.mp hz)
      have hle : order.toNat * 10 ≤ amount.toNat / 10 * (order.toNat * 10) :=
        Nat.le_mul_of_pos_left _ hpos
      rw [UInt64.toNat_mul]
      exact Nat.mod_eq_of_lt (by change order.toNat * 10 < 2 ^ 64; omega)
    have hleft : (amount / 10).toNat * (order * 10).toNat = amount.toNat / 10 * (order.toNat * 10) := by
      by_cases hmore : amount / 10 = 0
      · rw [← htenth, hmore, UInt64.toNat_zero, Nat.zero_mul, Nat.zero_mul]
      · rw [hnext hmore, htenth]
    have hpow (hmore : amount / 10 ≠ 0) : ∃ k, (order * 10).toNat = 10 ^ k :=
      ⟨k + 1, by rw [hnext hmore, hk, pow_succ]⟩
    by_cases hle : dust + amount % 10 * order ≤ threshold
    · rw [if_pos hle]
      have hle' := hle
      rw [UInt64.le_iff_toNat_le, hadd] at hle'
      have hrest := ih (order * 10) isDustHandled h hfuel' hle ?_ ?_
      · have htotal : total + (if isDustHandled then 0 else dust.toNat) + amount.toNat * order.toNat =
            total + (if isDustHandled then 0 else (dust + amount % 10 * order).toNat) +
              (amount / 10).toNat * (order * 10).toNat := by
          rw [hleft, hsplit, hadd]
          cases isDustHandled with
          | true =>
            -- a digit that is left is worth more than the threshold, so this one is zero
            have hlarge := hhandled rfl hzero
            have hnone : amount.toNat % 10 = 0 := by
              by_contra hne
              have := Nat.le_mul_of_pos_left order.toNat (Nat.pos_of_ne_zero hne)
              omega
            rw [hnone, Nat.zero_mul, Nat.zero_add, if_pos rfl, if_pos rfl]
          | false =>
            rw [if_neg Bool.false_ne_true, if_neg Bool.false_ne_true]
            omega
        rw [htotal]
        exact hrest
      · intro hmore
        rw [hleft, hadd]
        exact ⟨by omega, by rw [hnext hmore]; omega, hpow hmore⟩
      · intro hh hmore
        have := hhandled hh hzero
        rw [hnext hmore]
        omega
    · rw [if_neg hle]
      rw [UInt64.le_iff_toNat_le, hadd, Nat.not_le] at hle
      have hpart : Parts threshold (amount % 10 * order).toNat
          ([amount % 10 * order].filter (· ≠ 0)) := by
        refine Parts.singleton fun hlarge ↦ ⟨amount.toNat % 10, k, ?_, hmod, hchunk.trans (by rw [hk])⟩
        by_contra hnone
        rw [UInt64.lt_iff_toNat_lt, hchunk, Nat.eq_zero_of_not_pos hnone, Nat.zero_mul] at hlarge
        omega
      have hlast (l : List Amount) :
          (if amount % 10 * order ≠ 0 then l ++ [amount % 10 * order] else l) =
            l ++ [amount % 10 * order].filter (· ≠ 0) := by
        rw [filter_ne_zero]
        split_ifs
        · rfl
        · exact (List.append_nil l).symm
      rw [hlast]
      have hplace' (hmore : amount / 10 ≠ 0) :
          dust.toNat + (amount / 10).toNat * (order * 10).toNat < 2 ^ 64 ∧
            dust.toNat < (order * 10).toNat ∧ ∃ k, (order * 10).toNat = 10 ^ k := by
        rw [hleft]
        exact ⟨by omega, by rw [hnext hmore]; omega, hpow hmore⟩
      have hlarge (hmore : amount / 10 ≠ 0) : threshold.toNat < (order * 10).toNat := by
        rw [hnext hmore]
        omega
      by_cases hhandle : isDustHandled = false ∧ dust ≠ 0
      · obtain ⟨rfl, hne⟩ := hhandle
        have hgoes : false = false ∧ dust ≠ 0 := ⟨rfl, hne⟩
        have hrest := ih (order * 10) true
          ((h.append (Parts.dustChunks hdust)).append hpart) hfuel' hdust hplace' fun _ ↦ hlarge
        rw [if_pos rfl, Nat.add_zero, hleft, hchunk, Nat.add_assoc, ← hsplit] at hrest
        rw [if_pos hgoes, if_neg Bool.false_ne_true, decide_eq_true hgoes, Bool.or_true]
        exact hrest
      · have hrest := ih (order * 10) isDustHandled (h.append hpart) hfuel' hdust
          hplace' fun _ ↦ hlarge
        rw [hleft, hchunk, Nat.add_right_comm total, Nat.add_assoc _ (amount.toNat % 10 * order.toNat),
          ← hsplit] at hrest
        rw [if_neg hhandle, decide_eq_false hhandle, Bool.or_false]
        exact hrest

/-- **The parts of an amount add up to it.** -/
theorem parts_decomposeAmount (amount threshold : Amount) :
    Parts threshold amount.toNat (decomposeAmount amount threshold) := by
  have hlt := amount.toNat_lt
  have hone : (1 : UInt64).toNat = 1 := rfl
  have hplace (_ : amount ≠ 0) : (0 : UInt64).toNat + amount.toNat * (1 : UInt64).toNat < 2 ^ 64 ∧
      (0 : UInt64).toNat < (1 : UInt64).toNat ∧ ∃ k, (1 : UInt64).toNat = 10 ^ k := by
    rw [hone, UInt64.toNat_zero, Nat.zero_add, Nat.mul_one]
    exact ⟨hlt, Nat.one_pos, 0, rfl⟩
  have hzero : (0 : UInt64) ≤ threshold := UInt64.le_iff_toNat_le.mpr (Nat.zero_le _)
  have hfuel : amount.toNat < 10 ^ 20 := hlt.trans (by norm_num)
  have hparts := Parts.nil.decomposeDigits 1 false hfuel hzero hplace nofun
  rw [hone, UInt64.toNat_zero, if_neg Bool.false_ne_true, Nat.zero_add, Nat.mul_one] at hparts
  exact hparts

private theorem mergeLast_of_length_le {maxOuts : ℕ} {l : List Amount} (h : l.length ≤ maxOuts) :
    mergeLast maxOuts l = l := if_pos h

private theorem mergeLast_append_pair {maxOuts : ℕ} (hpos : 0 < maxOuts) {l : List Amount} (x y : Amount)
    (h : maxOuts < l.length + 2) : mergeLast maxOuts (l ++ [x + y]) = mergeLast maxOuts (l ++ [x, y]) := by
  have hlong : ¬(l ++ [x, y]).length ≤ maxOuts := by
    rw [List.length_append]
    exact Nat.not_le.mpr h
  have hle : maxOuts - 1 ≤ l.length := by omega
  rw [mergeLast, mergeLast, if_neg hlong, List.take_append_of_le_length hle,
    List.drop_append_of_le_length hle, List.take_append_of_le_length hle,
    List.drop_append_of_le_length hle]
  split_ifs with hshort
  · rw [List.length_append, List.length_singleton] at hshort
    obtain hlast : maxOuts - 1 = l.length := by omega
    rw [hlast, List.take_length, List.drop_length, List.nil_append, List.sum_pair]
  · rw [List.sum_append, List.sum_append, List.sum_singleton, List.sum_pair]

private theorem modify_append_pair (l : List Amount) (x y : Amount) (f : Amount → Amount) :
    (l ++ [x, y]).modify l.length f = l ++ [f x, y] := by
  induction l with
  | nil => rfl
  | cons z l ih => rw [List.cons_append, List.length_cons, List.modify_succ_cons, ih, List.cons_append]

/-- **The loop adds up the last amounts.** -/
private theorem mergeLoop_eq {maxOuts : ℕ} (hpos : 0 < maxOuts) (l : List Amount) :
    mergeLoop maxOuts l = mergeLast maxOuts l := by
  fun_induction mergeLoop maxOuts l with
  | case1 l hlt ih =>
    obtain ⟨x, y, l, rfl⟩ : ∃ x y l', l = l' ++ [x, y] := by
      obtain ⟨l', y, rfl⟩ := (List.eq_nil_or_concat' l).resolve_left (by rintro rfl; cases hlt)
      rw [List.length_append, List.length_singleton] at hlt
      obtain ⟨l'', x, rfl⟩ := (List.eq_nil_or_concat' l').resolve_left (by
        rintro rfl
        rw [List.length_nil] at hlt
        omega)
      exact ⟨x, y, l'', by rw [List.append_assoc]; rfl⟩
    have hlength : (l ++ [x, y]).length - 2 = l.length := by rw [List.length_append]; rfl
    have hlast : (l ++ [x, y]).getLast?.getD 0 = y := by
      rw [List.getLast?_append_of_ne_nil _ (List.cons_ne_nil _ _)]
      rfl
    have hdrop : (l ++ [x + y, y]).dropLast = l ++ [x + y] := List.dropLast_append_of_ne_nil (by simp)
    rw [hlength, hlast, modify_append_pair, hdrop] at ih
    rw [hlength, hlast, modify_append_pair, hdrop, ih]
    exact mergeLast_append_pair hpos x y (by rwa [List.length_append] at hlt)
  | case2 l hle => exact (mergeLast_of_length_le (Nat.le_of_not_lt hle)).symm

private theorem length_mergeLast_le {maxOuts : ℕ} (hpos : 0 < maxOuts) (l : List Amount) :
    (mergeLast maxOuts l).length ≤ maxOuts := by
  rw [mergeLast]
  split_ifs with hle
  · exact hle
  · rw [List.length_append, List.length_take, List.length_singleton]
    omega

private theorem sum_mergeLast (maxOuts : ℕ) {l : List Amount} (h : (l.map UInt64.toNat).sum < 2 ^ 64) :
    ((mergeLast maxOuts l).map UInt64.toNat).sum = (l.map UInt64.toNat).sum := by
  rw [mergeLast]
  split_ifs
  · rfl
  · have hparts := congrArg (fun l : List Amount ↦ (l.map UInt64.toNat).sum)
      (List.take_append_drop (maxOuts - 1) l)
    simp only [List.map_append, List.sum_append] at hparts
    rw [List.map_append, List.sum_append, List.map_singleton, List.sum_singleton, toNat_sum (by omega),
      hparts]

/-! ## Coinbase transactions -/

private theorem exists_mapM_eq_some {α β : Type} {f : α → Option β} {l : List α} (h : ∀ x ∈ l, f x ≠ none) :
    ∃ r, l.mapM f = some r := by
  induction l with
  | nil => exact ⟨[], rfl⟩
  | cons x l ih =>
    rw [List.forall_mem_cons] at h
    obtain ⟨y, hy⟩ := Option.ne_none_iff_exists'.mp h.1
    obtain ⟨r, hr⟩ := ih h.2
    exact ⟨y :: r, by rw [List.mapM_cons, hy, hr]; rfl⟩

private theorem sum_mergeLast_decomposeAmount (reward threshold : Amount) (maxOuts : ℕ) :
    ((mergeLast maxOuts (decomposeAmount reward threshold)).map UInt64.toNat).sum = reward.toNat ∧
      (mergeLast maxOuts (decomposeAmount reward threshold)).sum = reward := by
  have hparts := (parts_decomposeAmount reward threshold).sum
  have hsum := sum_mergeLast maxOuts (hparts.trans_lt reward.toNat_lt)
  rw [hparts] at hsum
  refine ⟨hsum, UInt64.toNat_inj.mp ?_⟩
  rw [toNat_sum (hsum.trans_lt reward.toNat_lt), hsum]

/-- A coinbase transaction fails for its nonce or for a key, but never because of what its outputs are
worth. -/
private theorem constructMinerTx_eq_none {env : Env} {blockMajorVersion : UInt8} {height : Height}
    {effectiveMedianSize currentBlockSize maxOuts : ℕ} {alreadyGeneratedCoins fee : Amount}
    {adr : AccountPublicAddress} {extraNonce : Bytes} {txkey : KeyPair}
    (h : env.constructMinerTx blockMajorVersion height effectiveMedianSize alreadyGeneratedCoins
      currentBlockSize fee adr extraNonce maxOuts txkey = none) :
    addExtraNonceToTransactionExtra (addTransactionPublicKeyToExtra [] txkey.publicKey) extraNonce = none ∨
      ∃ no < max 1 maxOuts, env.minerOutputKey adr txkey no = none := by
  by_contra! hno
  obtain ⟨hnonce, hkeys⟩ := hno
  have hpays (reward : Amount) : ∃ outputs,
      (mergeLast (max 1 maxOuts) (decomposeAmount reward Currency.defaultDustThreshold)).zipIdx.mapM
        (fun p ↦ do
          let key ← env.minerOutputKey adr txkey p.2
          some ({ amount := p.1, target := .keyOutput { key := key } } : TransactionOutput)) =
        some outputs := by
    have hlength := length_mergeLast_le (by omega : 0 < max 1 maxOuts)
      (decomposeAmount reward Currency.defaultDustThreshold)
    refine exists_mapM_eq_some fun p hp ↦ ?_
    obtain ⟨key, hkey⟩ := Option.ne_none_iff_exists'.mp
      (hkeys p.2 ((List.snd_lt_of_mem_zipIdx hp).trans_le (by omega)))
    rw [hkey]
    exact nofun
  obtain ⟨outputs, hok⟩ := hpays (Currency.getBlockReward blockMajorVersion
    (UInt64.ofNat effectiveMedianSize) (UInt64.ofNat currentBlockSize) alreadyGeneratedCoins fee).1
  obtain ⟨extra, hextra⟩ := Option.ne_none_iff_exists'.mp hnonce
  have hsum := fun reward : Amount ↦
    (sum_mergeLast_decomposeAmount reward Currency.defaultDustThreshold (max 1 maxOuts)).2
  rw [Env.constructMinerTx, hextra] at h
  simp only [Option.bind_eq_bind] at hok
  simp only [Option.bind_eq_bind, Option.bind_some, hok, hsum, ne_eq, not_true, if_false] at h
  split_ifs at h

/-- **Amounts are taken apart exactly.** The parts of an amount are worth something and add up to it, and
one that is above the threshold is a single digit at its place. The loop of the coinbase transaction keeps
the sum of the parts of the reward and leaves as many as there may be, so that the check of the sum does not
fail. -/
theorem decomposeAmount_exact :
    (∀ amount dustThreshold : Amount,
      ((decomposeAmount amount dustThreshold).map UInt64.toNat).sum = amount.toNat ∧
      ∀ p ∈ decomposeAmount amount dustThreshold, p ≠ 0 ∧
        (dustThreshold < p → ∃ d k, 0 < d ∧ d < 10 ∧ p.toNat = d * 10 ^ k)) ∧
    (∀ (reward : Amount) (maxOuts : ℕ),
      let outAmounts := mergeLoop (max 1 maxOuts) (decomposeAmount reward Currency.defaultDustThreshold)
      (outAmounts.map UInt64.toNat).sum = reward.toNat ∧ outAmounts.length ≤ max 1 maxOuts ∧
        outAmounts = mergeLast (max 1 maxOuts) (decomposeAmount reward Currency.defaultDustThreshold) ∧
        outAmounts.sum = reward) ∧
    ∀ (env : Env) (blockMajorVersion : UInt8) (height : Height)
      (effectiveMedianSize currentBlockSize maxOuts : ℕ) (alreadyGeneratedCoins fee : Amount)
      (adr : AccountPublicAddress) (extraNonce : Bytes) (txkey : KeyPair),
      env.constructMinerTx blockMajorVersion height effectiveMedianSize alreadyGeneratedCoins
        currentBlockSize fee adr extraNonce maxOuts txkey = none →
      addExtraNonceToTransactionExtra (addTransactionPublicKeyToExtra [] txkey.publicKey) extraNonce =
          none ∨
        ∃ no < max 1 maxOuts, env.minerOutputKey adr txkey no = none := by
  refine ⟨fun amount dustThreshold ↦ ?_, fun reward maxOuts ↦ ?_, fun _ _ _ _ _ _ _ _ _ _ _ ↦
    constructMinerTx_eq_none⟩
  · obtain ⟨hsum, hne, hdigit⟩ := parts_decomposeAmount amount dustThreshold
    exact ⟨hsum, fun p hp ↦ ⟨hne p hp, hdigit p hp⟩⟩
  · obtain ⟨hsum, hcheck⟩ :=
      sum_mergeLast_decomposeAmount reward Currency.defaultDustThreshold (max 1 maxOuts)
    rw [mergeLoop_eq (by omega)]
    exact ⟨hsum, length_mergeLast_le (by omega) _, rfl, hcheck⟩

end CryoNero
