import CryoNero.Core.UnspentSelector

/-!
# Coins are neither lost nor made

Every phase of the choice moves coins between the piles and the coins that are taken for now, and the
counters follow the latter. This is said by `Kept`: the coins are those that could be spent, no pile
is empty, and the total and the number of the coins that are taken are exact. The total is exact
because all coins together are worth less than `2 ^ 64`, so that it does not wrap around.

The rounds come to an end because each of them is less ambitious than the one before or has a larger
fee. Only sums that wrap around could keep them going.
-/

namespace CryoNero

open Store

namespace UnspentSelector

/-- What coins are worth together. -/
def worth (coins : Multiset Api.Output) : ℕ := (coins.map (·.amount.toNat)).sum

@[simp] theorem worth_zero : worth 0 = 0 := rfl

@[simp] theorem worth_cons (un : Api.Output) (coins : Multiset Api.Output) :
    worth (un ::ₘ coins) = un.amount.toNat + worth coins := by
  rw [worth, Multiset.map_cons, Multiset.sum_cons, worth]

@[simp] theorem worth_add (coins coins' : Multiset Api.Output) :
    worth (coins + coins') = worth coins + worth coins' := by
  rw [worth, Multiset.map_add, Multiset.sum_add, worth, worth]

theorem worth_mono {coins coins' : Multiset Api.Output} (h : coins ≤ coins') :
    worth coins ≤ worth coins' := by
  obtain ⟨rest, rfl⟩ := Multiset.le_iff_exists_add.mp h
  rw [worth_add]
  exact Nat.le_add_right _ _

private theorem amount_pos_of_not_dust {amount : Amount} (h : Currency.isDust amount = false) :
    0 < amount := by
  by_contra hzero
  have hzero : amount < 1000000 := by
    rw [UInt64.not_lt, UInt64.le_iff_toNat_le, UInt64.toNat_zero] at hzero
    rw [UInt64.lt_iff_toNat_lt]
    change amount.toNat < 1000000
    omega
  rw [Currency.isDust, decide_eq_false_iff_not, not_or] at h
  exact h.2 hzero

namespace Selecting

/-- The coins that could be spent are those on the piles and those that are taken, and the counters
follow the latter. -/
structure Kept (eligible : Multiset Api.Output) (s : Selecting) : Prop where
  worth_lt : worth eligible < 2 ^ 64
  card_lt : eligible.card < 2 ^ 64
  flags : ∀ un ∈ eligible, un.dust = Currency.isDust un.amount
  coins : s.haveCoins.contents + s.dustCoins.contents + ↑s.optimizationUnspents = eligible
  haveNoEmpty : s.haveCoins.NoEmpty
  dustNoEmpty : s.dustCoins.NoEmpty
  round : ∀ un ∈ s.haveCoins.contents, Currency.isDust un.amount = false
  dust : ∀ un ∈ s.dustCoins.contents, Currency.isDust un.amount = true
  usedTotal : s.usedTotal.toNat = worth ↑s.optimizationUnspents
  inputsCount : s.inputsCount.toNat = s.optimizationUnspents.length
  usedUnspents : s.usedUnspents = []

/-- One state comes from another one by taking coins. -/
structure Takes (eligible : Multiset Api.Output) (s s' : Selecting) : Prop where
  kept : Kept eligible s'
  usedTotal : s.usedTotal.toNat ≤ s'.usedTotal.toNat
  coinsLeft : s'.coinsLeft ≤ s.coinsLeft

variable {eligible : Multiset Api.Output} {s s' s'' : Selecting} {un : Api.Output}

theorem Kept.refl (h : Kept eligible s) : Takes eligible s s := ⟨h, le_rfl, le_rfl⟩

theorem Takes.trans (h : Takes eligible s s') (h' : Takes eligible s' s'') : Takes eligible s s'' :=
  ⟨h'.kept, h.usedTotal.trans h'.usedTotal, h'.coinsLeft.trans h.coinsLeft⟩

/-! ## Taking a coin -/

/-- The counters after a coin was taken that was on a pile. -/
theorem Kept.counters (h : Kept eligible s) (un : Api.Output) (left : Multiset Api.Output)
    (hleft : s.haveCoins.contents + s.dustCoins.contents = un ::ₘ left) :
    (s.use un).usedTotal.toNat = worth ↑(s.use un).optimizationUnspents ∧
      (s.use un).inputsCount.toNat = (s.use un).optimizationUnspents.length ∧
      s.usedTotal.toNat ≤ (s.use un).usedTotal.toNat ∧
      left + ↑(s.use un).optimizationUnspents = eligible := by
  have hcoins : left + ↑(s.optimizationUnspents ++ [un]) = eligible := by
    rw [← h.coins, hleft, ← Multiset.coe_add, Multiset.coe_singleton, ← Multiset.singleton_add]
    abel
  have hworth : worth ↑(s.optimizationUnspents ++ [un]) =
      worth ↑s.optimizationUnspents + un.amount.toNat := by
    rw [← Multiset.coe_add, worth_add, Multiset.coe_singleton, ← Multiset.cons_zero, worth_cons,
      worth_zero, Nat.add_zero]
  have hlt : worth ↑s.optimizationUnspents + un.amount.toNat < 2 ^ 64 := by
    have hle := h.worth_lt
    rw [← hcoins, worth_add, hworth] at hle
    omega
  have hcard : s.optimizationUnspents.length + 1 < 2 ^ 64 := by
    have hle := h.card_lt
    rw [← hcoins, Multiset.card_add, Multiset.coe_card, List.length_append, List.length_singleton] at hle
    omega
  have htotal : (s.usedTotal + un.amount).toNat = worth ↑s.optimizationUnspents + un.amount.toNat := by
    rw [UInt64.toNat_add, h.usedTotal, Nat.mod_eq_of_lt hlt]
  have hcount : (s.inputsCount + 1).toNat = s.optimizationUnspents.length + 1 := by
    rw [UInt64.toNat_add, h.inputsCount]
    exact Nat.mod_eq_of_lt hcard
  refine ⟨?_, ?_, ?_, hcoins⟩
  · rw [use, hworth, htotal]
  · rw [use, List.length_append, List.length_singleton, hcount]
  · rw [use, htotal, h.usedTotal]
    exact Nat.le_add_right _ _

/-- A coin can be taken off every pile of round amounts. -/
theorem Kept.takeHave (h : Kept eligible s) {key : ℕ ×ₗ ℕ} {l : List Api.Output}
    (hkey : s.haveCoins[key]? = some l) :
    ∃ s', s.takeHave key = .ok s' ∧ Takes eligible s s' ∧ s'.coinsLeft < s.coinsLeft ∧
      ∀ (key' : ℕ ×ₗ ℕ) l', s.haveCoins[key']? = some l' → (key' = key → 1 < l'.length) →
        ∃ l'', s'.haveCoins[key']? = some l'' := by
  obtain ⟨p, hp, -, hempty⟩ := h.haveNoEmpty.popBack hkey
  have hcontents := Piles.contents_popBack hp
  rw [← Piles.contents_prune p.2 key] at hcontents
  obtain ⟨htotal, hcount, hmono, hcoins⟩ := h.counters p.1
    ((p.2.prune key).contents + s.dustCoins.contents) (by rw [hcontents, Multiset.cons_add])
  have hleft : (p.2.prune key).contents.card < s.haveCoins.contents.card := by
    rw [hcontents, Multiset.card_cons]
    exact Nat.lt_succ_self _
  have hround (un : Api.Output) (hun : un ∈ (p.2.prune key).contents) :
      Currency.isDust un.amount = false := by
    refine h.round un ?_
    rw [hcontents]
    exact Multiset.mem_cons_of_mem hun
  refine ⟨{ s.use p.1 with haveCoins := p.2.prune key }, ?_, ⟨?_, hmono, ?_⟩, ?_,
    fun key' l' hkey' ↦ Piles.exists_get_prune hp hkey'⟩
  · rw [Selecting.takeHave, hp]
    rfl
  · exact ⟨h.worth_lt, h.card_lt, h.flags, hcoins, hempty, h.dustNoEmpty, hround, h.dust, htotal, hcount,
      h.usedUnspents⟩
  · exact Nat.add_le_add_right hleft.le _
  · exact Nat.add_lt_add_right hleft _

/-- A coin can be taken off every pile of dust. -/
theorem Kept.takeDust (h : Kept eligible s) {amount : Amount} {l : List Api.Output}
    (hkey : s.dustCoins[amount]? = some l) :
    ∃ s', s.takeDust amount = .ok s' ∧ Takes eligible s s' ∧ s'.coinsLeft < s.coinsLeft := by
  obtain ⟨p, hp, -, hempty⟩ := h.dustNoEmpty.popBack hkey
  have hcontents := Piles.contents_popBack hp
  rw [← Piles.contents_prune p.2 amount] at hcontents
  obtain ⟨htotal, hcount, hmono, hcoins⟩ := h.counters p.1
    (s.haveCoins.contents + (p.2.prune amount).contents) (by rw [hcontents, Multiset.add_cons])
  have hleft : (p.2.prune amount).contents.card < s.dustCoins.contents.card := by
    rw [hcontents, Multiset.card_cons]
    exact Nat.lt_succ_self _
  have hdust (un : Api.Output) (hun : un ∈ (p.2.prune amount).contents) :
      Currency.isDust un.amount = true := by
    refine h.dust un ?_
    rw [hcontents]
    exact Multiset.mem_cons_of_mem hun
  refine ⟨{ s.use p.1 with dustCoins := p.2.prune amount }, ?_, ⟨?_, hmono, ?_⟩, ?_⟩
  · rw [Selecting.takeDust, hp]
    rfl
  · exact ⟨h.worth_lt, h.card_lt, h.flags, hcoins, h.haveNoEmpty, hempty, h.round, hdust, htotal, hcount,
      h.usedUnspents⟩
  · exact Nat.add_le_add_left hleft.le _
  · exact Nat.add_lt_add_left hleft _

/-- A coin can be taken off a pile that has more, and the pile stays. -/
theorem Kept.takeStack (h : Kept eligible s) {key : ℕ ×ₗ ℕ} {l : List Api.Output} {n : ℕ}
    (hkey : s.haveCoins[key]? = some l) (hn : n < l.length) :
    ∃ s', takeStack key n s = .ok s' ∧ Takes eligible s s' := by
  induction n generalizing s l with
  | zero => exact ⟨s, rfl, h.refl⟩
  | succ n ih =>
    obtain ⟨p, hp, -, -⟩ := h.haveNoEmpty.popBack hkey
    obtain ⟨init, hinit, hp₂⟩ := Piles.popBack_eq_some.mp hp
    obtain rfl := Option.some.inj (hkey.symm.trans hinit)
    rw [List.length_append, List.length_singleton] at hn
    have hcontents := Piles.contents_popBack hp
    obtain ⟨htotal, hcount, hmono, hcoins⟩ := h.counters p.1
      (p.2.contents + s.dustCoins.contents) (by rw [hcontents, Multiset.cons_add])
    have hempty : p.2.NoEmpty := by
      rw [hp₂]
      refine h.haveNoEmpty.insert fun hnil ↦ ?_
      rw [hnil] at hn
      exact absurd hn (by simp)
    have hround (un : Api.Output) (hun : un ∈ p.2.contents) : Currency.isDust un.amount = false := by
      refine h.round un ?_
      rw [hcontents]
      exact Multiset.mem_cons_of_mem hun
    have hs₁ : Takes eligible s { s.use p.1 with haveCoins := p.2 } := by
      refine ⟨⟨h.worth_lt, h.card_lt, h.flags, hcoins, hempty, h.dustNoEmpty, hround, h.dust, htotal,
        hcount, h.usedUnspents⟩, hmono, Nat.add_le_add_right ?_ _⟩
      rw [hcontents, Multiset.card_cons]
      exact Nat.le_succ _
    have hnext : p.2[key]? = some init := by rw [hp₂, Table.get_insert_self]
    obtain ⟨s', hs', htakes⟩ := ih hs₁.kept hnext (by omega)
    refine ⟨s', ?_, hs₁.trans htakes⟩
    rw [Selecting.takeStack, hp]
    exact hs'

/-! ## Phases -/

theorem mem_piles {digit first : ℕ} {l : List Api.Output} (h : (first, l) ∈ s.piles digit) :
    s.haveCoins[toLex (digit, first)]? = some l := by
  obtain ⟨⟨key, l'⟩, hmem, hkey⟩ := List.mem_filterMap.mp h
  dsimp only at hkey
  split_ifs at hkey with hdigit
  obtain ⟨rfl, rfl⟩ := Prod.mk.inj (Option.some.inj hkey)
  rw [← hdigit]
  exact Table.mem_toList.mp hmem

/-- The best pair is one of piles that are there, and if it is the same pile twice, that pile has two
coins. -/
private theorem bestPair_spec {am : ℕ} {piles : List (ℕ × List Api.Output)}
    (h : (bestPair am piles).1 ≠ 0) : ∃ la lb, ((bestPair am piles).2.1, la) ∈ piles ∧
      ((bestPair am piles).2.2, lb) ∈ piles ∧
      (twoThreshold ≤ la.length ∨ twoThreshold ≤ lb.length) := by
  revert h
  rw [bestPair]
  refine List.foldlRecOn _ _ (motive := fun best : ℕ × ℕ × ℕ ↦ best.1 ≠ 0 → ∃ la lb,
    (best.2.1, la) ∈ piles ∧ (best.2.2, lb) ∈ piles ∧
      (twoThreshold ≤ la.length ∨ twoThreshold ≤ lb.length)) (fun hzero ↦ absurd rfl hzero) ?_
  intro best hbest p hp
  split_ifs with hbetter
  · intro _
    obtain ⟨a, ha, hb⟩ := List.mem_flatMap.mp hp
    obtain ⟨b, hb', rfl⟩ := List.mem_map.mp hb
    exact ⟨a.2, b.2, ha, hb', hbetter.2.1⟩
  · exact hbest

private theorem bestSingle_spec {am : ℕ} {piles : List (ℕ × List Api.Output)} {best : ℕ × ℕ}
    (h : bestSingle am piles best ≠ 0) :
    bestSingle am piles best = best.2 ∨ ∃ l, (bestSingle am piles best, l) ∈ piles := by
  induction piles generalizing best with
  | nil => exact .inl rfl
  | cons a rest ih =>
    rw [bestSingle] at h ⊢
    split_ifs at h ⊢ with hfills hbeyond
    · exact .inr ⟨a.2, List.mem_cons_self⟩
    · rcases ih h with hsame | ⟨l, hl⟩
      · rw [hsame]
        exact .inr ⟨a.2, List.mem_cons_self⟩
      · exact .inr ⟨l, List.mem_cons_of_mem _ hl⟩
    · rcases ih h with hsame | ⟨l, hl⟩
      · exact .inl hsame
      · exact .inr ⟨l, List.mem_cons_of_mem _ hl⟩

theorem Kept.optimizeDigit (h : Kept eligible s) (totalAmount : Amount) (digit : ℕ)
    (digitAmount : Amount) :
    ∃ s', s.optimizeDigit totalAmount digit digitAmount = .ok s' ∧ Takes eligible s s' := by
  rw [Selecting.optimizeDigit]
  set am := 10 - ((fakeLarge + totalAmount + digitAmount - 1 - s.usedTotal) / digitAmount % 10).toNat
  by_cases hnil : s.piles digit = []
  · rw [if_pos hnil]
    exact ⟨s, rfl, h.refl⟩
  rw [if_neg hnil]
  by_cases hpair : (bestPair am (s.piles digit)).1 ≠ 0
  · rw [if_pos hpair]
    obtain ⟨la, lb, ha, hb, hmany⟩ := bestPair_spec hpair
    obtain ⟨s₁, hs₁, htakes₁, -, hstays⟩ := h.takeHave (mem_piles ha)
    -- the second coin may come off the same pile, which has ten coins then
    obtain ⟨lb', hb'⟩ := hstays _ _ (mem_piles hb) (by
      intro hsame
      have hfirst := mem_piles ha
      rw [← hsame, mem_piles hb] at hfirst
      obtain rfl := Option.some.inj hfirst
      rw [twoThreshold] at hmany
      omega)
    obtain ⟨s₂, hs₂, htakes₂, -⟩ := htakes₁.kept.takeHave hb'
    exact ⟨s₂, by rw [hs₁]; exact hs₂, htakes₁.trans htakes₂⟩
  rw [if_neg hpair]
  by_cases hten : am = 10
  · rw [if_pos hten]
    exact ⟨s, rfl, h.refl⟩
  rw [if_neg hten]
  by_cases hsingle : bestSingle am (s.piles digit) (0, 0) ≠ 0
  · rw [if_pos hsingle]
    obtain ⟨l, hl⟩ := (bestSingle_spec hsingle).resolve_left hsingle
    obtain ⟨s₁, hs₁, htakes, -⟩ := h.takeHave (mem_piles hl)
    exact ⟨s₁, hs₁, htakes⟩
  · rw [if_neg hsingle]
    exact ⟨s, rfl, h.refl⟩

theorem Kept.optimizeAmounts (h : Kept eligible s) (totalAmount : Amount) (n digit : ℕ)
    (digitAmount : Amount) :
    ∃ s', optimizeAmounts totalAmount n digit digitAmount s = .ok s' ∧ Takes eligible s s' := by
  induction n generalizing s digit digitAmount with
  | zero => exact ⟨s, rfl, h.refl⟩
  | succ n ih =>
    rw [Selecting.optimizeAmounts]
    split_ifs with hfar
    · exact ⟨s, rfl, h.refl⟩
    · obtain ⟨s₁, hs₁, htakes₁⟩ := h.optimizeDigit totalAmount digit digitAmount
      obtain ⟨s₂, hs₂, htakes₂⟩ := ih htakes₁.kept (digit + 1) (digitAmount * 10)
      exact ⟨s₂, by rw [hs₁]; exact hs₂, htakes₁.trans htakes₂⟩

theorem Kept.takeLargeDust (h : Kept eligible s) (totalAmount : Amount) :
    ∃ s', s.takeLargeDust totalAmount = .ok s' ∧ Takes eligible s s' := by
  rw [Selecting.takeLargeDust]
  split_ifs with hless
  · cases hfind : s.dustCoins.toList.find? fun p ↦ decide (totalAmount - s.usedTotal ≤ p.1) with
    | none => exact ⟨s, rfl, h.refl⟩
    | some p =>
      obtain ⟨s', hs', htakes, -⟩ := h.takeDust (Table.mem_toList.mp (List.mem_of_find?_eq_some hfind))
      exact ⟨s', hs', htakes⟩
  · exact ⟨s, rfl, h.refl⟩

theorem Kept.takeManyDust (h : Kept eligible s) (totalAmount : Amount) (count : ℕ) :
    ∃ p, takeManyDust totalAmount count s = .ok p ∧ Takes eligible s p.1 := by
  induction count generalizing s with
  | zero => exact ⟨(s, 0), rfl, h.refl⟩
  | succ count ih =>
    rw [Selecting.takeManyDust]
    split_ifs with hless
    · cases hlast : s.dustCoins.toList.getLast? with
      | none => exact ⟨_, rfl, h.refl⟩
      | some p =>
        obtain ⟨s₁, hs₁, htakes₁, -⟩ := h.takeDust (Table.mem_toList.mp (List.mem_of_getLast? hlast))
        obtain ⟨q, hq, htakes⟩ := ih htakes₁.kept
        exact ⟨q, by dsimp only; rw [hs₁]; exact hq, htakes₁.trans htakes⟩
    · exact ⟨_, rfl, h.refl⟩

private theorem bestStack_spec {key : ℕ ×ₗ ℕ} (h : s.bestStack = some key) :
    ∃ l, s.haveCoins[key]? = some l ∧ stackOptimizationThreshold < l.length := by
  revert key
  have hbest := List.foldlRecOn s.haveCoins.toList
    (fun (best : ℕ × Option (ℕ ×ₗ ℕ)) p ↦
      if best.1 < p.2.length then (p.2.length, some p.1) else best)
    (motive := fun best ↦ stackOptimizationThreshold ≤ best.1 ∧ ∀ key, best.2 = some key →
      ∃ l, s.haveCoins[key]? = some l ∧ stackOptimizationThreshold < l.length)
    (b := (stackOptimizationThreshold, none)) ⟨le_rfl, nofun⟩ (by
      intro best hbest p hp
      split_ifs with hmore
      · refine ⟨hbest.1.trans hmore.le, fun key hkey ↦ ?_⟩
        obtain rfl := Option.some.inj hkey
        exact ⟨p.2, Table.mem_toList.mp hp, hbest.1.trans_lt hmore⟩
      · exact hbest)
  exact fun {key} h ↦ hbest.2 key h

theorem Kept.takeStacks (h : Kept eligible s) (count : ℕ) :
    ∃ s', takeStacks count s = .ok s' ∧ Takes eligible s s' := by
  induction count using Nat.strong_induction_on generalizing s with
  | _ count ih =>
    rw [Selecting.takeStacks.eq_def]
    split
    · next _ n =>
      cases hbest : s.bestStack with
      | none => exact ⟨s, rfl, h.refl⟩
      | some key =>
        obtain ⟨l, hl, hlen⟩ := bestStack_spec hbest
        rw [stackOptimizationThreshold] at hlen
        obtain ⟨s₁, hs₁, htakes₁⟩ := h.takeStack hl (show 10 < l.length by omega)
        obtain ⟨s₂, hs₂, htakes₂⟩ := ih n (by omega) htakes₁.kept
        exact ⟨s₂, by dsimp only; rw [hs₁]; exact hs₂, htakes₁.trans htakes₂⟩
    · exact ⟨_, rfl, h.refl⟩

theorem Kept.takeSingle (h : Kept eligible s) (totalAmount : Amount) :
    ∃ s', s.takeSingle totalAmount = .ok s' ∧ Takes eligible s s' := by
  rw [Selecting.takeSingle]
  split
  · exact ⟨s, rfl, h.refl⟩
  · next p hfind =>
    obtain ⟨s', hs', htakes, -⟩ := h.takeHave (Table.mem_toList.mp (List.mem_of_find?_eq_some hfind))
    exact ⟨s', hs', htakes⟩

/-! ## Giving coins back -/

private theorem giveBack_contents (s : Selecting) (un : Api.Output) :
    (s.giveBack un).haveCoins.contents + (s.giveBack un).dustCoins.contents =
      un ::ₘ (s.haveCoins.contents + s.dustCoins.contents) := by
  rw [giveBack]
  dsimp only
  split_ifs with hdust
  · rw [Piles.contents_push, Multiset.cons_add]
  · rw [Piles.contents_push, Multiset.add_cons]

/-- What holds while coins are given back: the counters follow those that are left. -/
theorem Kept.giveBack {l : List Api.Output} (h : Kept eligible { s with optimizationUnspents := un :: l }) :
    Kept eligible { s.giveBack un with optimizationUnspents := l } := by
  have hflag : un.dust = Currency.isDust un.amount := by
    refine h.flags un ?_
    rw [← h.coins]
    exact Multiset.mem_add.mpr (.inr (Multiset.mem_coe.mpr List.mem_cons_self))
  have hcoins : (s.giveBack un).haveCoins.contents + (s.giveBack un).dustCoins.contents + ↑l =
      eligible := by
    rw [giveBack_contents, ← h.coins, ← Multiset.cons_coe, Multiset.cons_add, Multiset.add_cons]
  have htotal : (s.usedTotal - un.amount).toNat = worth ↑l := by
    have hused : s.usedTotal.toNat = worth ↑(un :: l) := h.usedTotal
    rw [← Multiset.cons_coe, worth_cons] at hused
    rw [UInt64.toNat_sub_of_le _ _ (UInt64.le_iff_toNat_le.mpr (by omega)), hused]
    omega
  have hcount : (s.inputsCount - 1).toNat = l.length := by
    have hinputs : s.inputsCount.toNat = (un :: l).length := h.inputsCount
    rw [List.length_cons] at hinputs
    rw [UInt64.toNat_sub_of_le _ _ (UInt64.le_iff_toNat_le.mpr (by rw [hinputs]; exact Nat.le_add_left _ _)),
      hinputs]
    exact Nat.add_sub_cancel _ _
  rw [Selecting.giveBack] at hcoins ⊢
  dsimp only at hcoins ⊢
  by_cases hdust : un.dust = false
  · rw [if_pos hdust] at hcoins ⊢
    refine ⟨h.worth_lt, h.card_lt, h.flags, hcoins, h.haveNoEmpty.push _ _, h.dustNoEmpty, ?_, h.dust,
      htotal, hcount, h.usedUnspents⟩
    dsimp only
    rw [Piles.contents_push]
    refine Multiset.forall_mem_cons.mpr ⟨?_, h.round⟩
    rw [← hflag, hdust]
  · rw [if_neg hdust] at hcoins ⊢
    refine ⟨h.worth_lt, h.card_lt, h.flags, hcoins, h.haveNoEmpty, h.dustNoEmpty.push _ _, h.round, ?_,
      htotal, hcount, h.usedUnspents⟩
    dsimp only
    rw [Piles.contents_push]
    refine Multiset.forall_mem_cons.mpr ⟨?_, h.dust⟩
    rw [← hflag]
    exact Bool.not_eq_false _ ▸ hdust

private theorem Kept.foldl_giveBack {l : List Api.Output}
    (h : Kept eligible { s with optimizationUnspents := l }) :
    Kept eligible { l.foldl Selecting.giveBack s with optimizationUnspents := [] } := by
  induction l generalizing s with
  | nil => exact h
  | cons un l ih => exact ih h.giveBack

theorem Kept.unoptimizeAmounts (h : Kept eligible s) : Kept eligible s.unoptimizeAmounts :=
  Kept.foldl_giveBack h

/-! ## Filling up -/

private theorem lastAmount_ok {κ : Type} [Ord κ] [Std.TransOrd κ] [Std.LawfulEqOrd κ]
    {coins : Piles κ Api.Output} (h : coins.NoEmpty) :
    ∃ a, lastAmount coins = .ok a ∧
      (coins.isEmpty = true ∧ a = 0 ∨ ∃ k l, coins.toList.getLast? = some (k, l) ∧
        coins[k]? = some l ∧ ∃ un ∈ coins.contents, un.amount = a) := by
  rw [lastAmount]
  cases hlast : coins.toList.getLast? with
  | none =>
    rw [List.getLast?_eq_none_iff, ← List.isEmpty_iff, Std.ExtTreeMap.isEmpty_toList] at hlast
    exact ⟨0, rfl, .inl ⟨hlast, rfl⟩⟩
  | some p =>
    have hpile := Table.mem_toList.mp (List.mem_of_getLast? hlast)
    obtain ⟨un, hun⟩ : ∃ un, p.2.getLast? = some un := by
      rcases List.eq_nil_or_concat p.2 with hnil | ⟨init, un, hconcat⟩
      · rw [hnil] at hpile
        exact absurd hpile (h _)
      · exact ⟨un, by rw [hconcat, List.concat_eq_append, List.getLast?_concat]⟩
    refine ⟨un.amount, by dsimp only; rw [hun]; rfl, .inr ⟨p.1, p.2, rfl, hpile, un, ?_, rfl⟩⟩
    exact Piles.mem_contents.mpr ⟨_, _, hpile, List.mem_of_getLast? hun⟩

/-- As long as there is a coin that may be taken, one is. Coins of round amounts are worth something,
so that dust is taken only where there is some. -/
theorem Kept.takeLargest (h : Kept eligible s) {anonymity : UInt64}
    (hsome : ¬(s.haveCoins.isEmpty = true ∧ (anonymity ≠ 0 ∨ s.dustCoins.isEmpty = true))) :
    ∃ s', s.takeLargest anonymity = .ok s' ∧ Takes eligible s s' ∧ s'.coinsLeft < s.coinsLeft := by
  obtain ⟨ha, hhave, hround⟩ := lastAmount_ok h.haveNoEmpty
  obtain ⟨du, hdust, hdu⟩ : ∃ du, s.lastDustAmount anonymity = .ok du ∧
      ((anonymity ≠ 0 ∨ s.dustCoins.isEmpty = true) ∧ du = 0 ∨ ∃ (k : Amount) (l : List Api.Output),
        s.dustCoins.toList.getLast? = some (k, l) ∧ s.dustCoins[k]? = some l) := by
    rw [lastDustAmount]
    by_cases hanonymity : anonymity = 0
    · rw [if_pos hanonymity]
      obtain ⟨du, hdust, ⟨hempty, hzero⟩ | ⟨k, l, hlast, hpile, -⟩⟩ := lastAmount_ok h.dustNoEmpty
      · exact ⟨du, hdust, .inl ⟨.inr hempty, hzero⟩⟩
      · exact ⟨du, hdust, .inr ⟨k, l, hlast, hpile⟩⟩
    · rw [if_neg hanonymity]
      exact ⟨0, rfl, .inl ⟨.inl hanonymity, rfl⟩⟩
  rw [Selecting.takeLargest, hhave, ok_bind, hdust, ok_bind]
  by_cases hless : du < ha
  · rw [if_pos hless]
    rcases hround with ⟨-, hzero⟩ | ⟨k, l, hlast, hpile, -⟩
    · rw [hzero] at hless
      exact absurd hless UInt64.not_lt_zero
    · obtain ⟨s', hs', htakes, hleft, -⟩ := h.takeHave hpile
      exact ⟨s', by rw [hlast]; exact hs', htakes, hleft⟩
  · rw [if_neg hless]
    rcases hdu with ⟨hnone, hzero⟩ | ⟨k, l, hlast, hpile⟩
    · rcases hround with ⟨hempty, -⟩ | ⟨-, -, -, -, un, hun, hamount⟩
      · exact absurd ⟨hempty, hnone⟩ hsome
      · rw [hzero, ← hamount] at hless
        exact absurd (amount_pos_of_not_dust (h.round un hun)) hless
    · obtain ⟨s', hs', htakes, hleft⟩ := h.takeDust hpile
      exact ⟨s', by rw [hlast]; exact hs', htakes, hleft⟩

/-- Coins are taken until they are enough or none are left. -/
theorem Kept.fill (h : Kept eligible s) (totalAmount : Amount) (anonymity : UInt64) {fuel : ℕ}
    (hfuel : s.coinsLeft < fuel) :
    ∃ s' enough, fill totalAmount anonymity fuel s = .ok (s', enough) ∧ Kept eligible s' ∧
      (enough = true → totalAmount ≤ s'.usedTotal) ∧
      (enough = false → s'.usedTotal < totalAmount ∧ s'.haveCoins.isEmpty = true ∧
        (anonymity ≠ 0 ∨ s'.dustCoins.isEmpty = true)) := by
  induction fuel generalizing s with
  | zero => exact absurd hfuel (Nat.not_lt_zero _)
  | succ fuel ih =>
    rw [Selecting.fill]
    by_cases hless : s.usedTotal < totalAmount
    · rw [if_pos hless]
      by_cases hnone : s.haveCoins.isEmpty = true ∧ (anonymity ≠ 0 ∨ s.dustCoins.isEmpty = true)
      · rw [if_pos hnone]
        exact ⟨s, false, rfl, h, nofun, fun _ ↦ ⟨hless, hnone⟩⟩
      · rw [if_neg hnone]
        obtain ⟨s₁, hs₁, htakes, hleft⟩ := h.takeLargest hnone
        rw [hs₁, ok_bind]
        exact ih htakes.kept (by omega)
    · rw [if_neg hless]
      exact ⟨s, true, rfl, h, fun _ ↦ UInt64.not_lt.mp hless, nofun⟩

private theorem Kept.worth_lt_of_empty (h : Kept eligible s) {totalAmount : Amount} {anonymity : UInt64}
    (hless : s.usedTotal < totalAmount) (hempty : s.haveCoins.isEmpty = true)
    (hdust : anonymity ≠ 0 ∨ s.dustCoins.isEmpty = true) :
    worth (eligible.filter fun un ↦ anonymity = 0 ∨ Currency.isDust un.amount = false) <
      totalAmount.toNat := by
  rw [UInt64.lt_iff_toNat_lt, h.usedTotal] at hless
  refine (worth_mono ?_).trans_lt hless
  rw [← h.coins, h.haveNoEmpty.contents_eq_zero.mpr hempty, zero_add, Multiset.filter_add]
  have hnone : (s.dustCoins.contents.filter fun un ↦
      anonymity = 0 ∨ Currency.isDust un.amount = false) = 0 := by
    rw [Multiset.filter_eq_nil]
    rintro un hun (hzero | hround)
    · rcases hdust with hne | hempty
      · exact hne hzero
      · rw [h.dustNoEmpty.contents_eq_zero.mpr hempty] at hun
        exact absurd hun (Multiset.notMem_zero un)
    · rw [h.dust un hun] at hround
      cases hround
  rw [hnone, zero_add]
  exact Multiset.filter_le _ _

/-! ## A choice -/

theorem Kept.takeTogether (h : Kept eligible s) (totalAmount : Amount) (anonymity : UInt64)
    (count : ℕ) :
    ∃ s', s.takeTogether totalAmount anonymity count = .ok s' ∧ Takes eligible s s' := by
  obtain ⟨p, hp, htakes⟩ : ∃ p, s.takeDustCoins totalAmount anonymity count = .ok p ∧
      Takes eligible s p.1 := by
    rw [takeDustCoins]
    split_ifs
    · obtain ⟨s₁, hs₁, htakes₁⟩ := h.takeLargeDust totalAmount
      obtain ⟨p, hp, htakes₂⟩ := htakes₁.kept.takeManyDust totalAmount count
      exact ⟨p, by rw [hs₁]; exact hp, htakes₁.trans htakes₂⟩
    · exact ⟨_, rfl, h.refl⟩
  obtain ⟨s₁, hs₁, htakes₁⟩ := htakes.kept.takeStacks p.2
  obtain ⟨s₂, hs₂, htakes₂⟩ := htakes₁.kept.optimizeAmounts totalAmount (s₁.maxDigit + 1) 0 1
  refine ⟨s₂, ?_, (htakes.trans htakes₁).trans htakes₂⟩
  rw [Selecting.takeTogether, hp, ok_bind, hs₁, ok_bind, hs₂]

/-- What a choice leaves, and what it says. -/
structure Choice (eligible : Multiset Api.Output) (totalAmount : Amount) (anonymity : UInt64)
    (s : Selecting) (enough : Bool) : Prop where
  kept : Kept eligible s
  le : enough = true → totalAmount ≤ s.usedTotal
  lt : enough = false →
    worth (eligible.filter fun un ↦ anonymity = 0 ∨ Currency.isDust un.amount = false) <
      totalAmount.toNat

theorem Kept.fillUp (h : Kept eligible s) (totalAmount : Amount) (anonymity : UInt64) :
    ∃ s' enough, s.fillUp totalAmount anonymity = .ok (s', enough) ∧
      Choice eligible totalAmount anonymity s' enough := by
  obtain ⟨s₁, enough, hs₁, hkept, htrue, hfalse⟩ :=
    h.fill totalAmount anonymity (Nat.lt_succ_self s.coinsLeft)
  rw [Selecting.fillUp, hs₁, ok_bind]
  cases enough with
  | true =>
    obtain ⟨s₂, hs₂, htakes⟩ := hkept.optimizeAmounts totalAmount (s₁.maxDigit + 1) 0 1
    refine ⟨s₂, true, by rw [if_pos rfl, hs₂, ok_bind]; rfl, htakes.kept, fun _ ↦ ?_, nofun⟩
    exact UInt64.le_trans (htrue rfl) (UInt64.le_iff_toNat_le.mpr htakes.usedTotal)
  | false =>
    obtain ⟨hless, hempty, hdust⟩ := hfalse rfl
    refine ⟨s₁, false, rfl, hkept, nofun, fun _ ↦ ?_⟩
    exact hkept.worth_lt_of_empty hless hempty hdust

/-- **Spec of a choice.** It comes to its end, and it fails only when the coins that may be taken are
not enough. -/
theorem Kept.selectOptimalOutputs (h : Kept eligible s) (totalAmount : Amount) (anonymity : UInt64)
    (count : ℕ) :
    ∃ s' enough, s.selectOptimalOutputs totalAmount anonymity count = .ok (s', enough) ∧
      Choice eligible totalAmount anonymity s' enough := by
  obtain ⟨s₁, hs₁, htakes₁⟩ := h.takeTogether totalAmount anonymity count
  rw [Selecting.selectOptimalOutputs, hs₁, ok_bind]
  by_cases hle₁ : totalAmount ≤ s₁.usedTotal
  · rw [if_pos hle₁]
    exact ⟨s₁, true, rfl, htakes₁.kept, fun _ ↦ hle₁, nofun⟩
  obtain ⟨s₂, hs₂, htakes₂⟩ := htakes₁.kept.takeSingle totalAmount
  rw [if_neg hle₁, hs₂, ok_bind]
  by_cases hle₂ : totalAmount ≤ s₂.usedTotal
  · rw [if_pos hle₂]
    exact ⟨s₂, true, rfl, htakes₂.kept, fun _ ↦ hle₂, nofun⟩
  · rw [if_neg hle₂]
    exact htakes₂.kept.unoptimizeAmounts.fillUp totalAmount anonymity

/-! ## The piles at the start -/

/-- An output is confirmed and not locked. -/
def Eligible (currency : Currency) (blockHeight : Height) (blockTime : Timestamp)
    (confirmedHeight : Height) (un : Api.Output) : Bool :=
  un.height < confirmedHeight ∧
    currency.isTransactionSpendTimeUnlocked un.unlockTime blockHeight blockTime = true

variable {currency : Currency} {blockHeight confirmedHeight : Height} {blockTime : Timestamp}

private theorem addCoin_of_not_eligible
    (h : Eligible currency blockHeight blockTime confirmedHeight un = false) :
    s.addCoin currency blockHeight blockTime confirmedHeight un = s := by
  rw [Eligible, decide_eq_false_iff_not, not_and_or] at h
  rw [addCoin]
  rcases h with hheight | hlocked
  · rw [if_pos (UInt32.not_lt.mp hheight)]
  · rw [Bool.not_eq_true] at hlocked
    rw [if_pos hlocked, ite_self]

theorem Kept.addCoin (h : Kept eligible s) (hworth : worth (un ::ₘ eligible) < 2 ^ 64)
    (hcard : (un ::ₘ eligible).card < 2 ^ 64) (hflag : un.dust = Currency.isDust un.amount)
    (hun : Eligible currency blockHeight blockTime confirmedHeight un = true) :
    Kept (un ::ₘ eligible) (s.addCoin currency blockHeight blockTime confirmedHeight un) := by
  rw [Eligible, decide_eq_true_iff] at hun
  have hflags : ∀ un' ∈ un ::ₘ eligible, un'.dust = Currency.isDust un'.amount :=
    Multiset.forall_mem_cons.mpr ⟨hflag, h.flags⟩
  rw [Selecting.addCoin, if_neg (UInt32.not_le.mpr hun.1), if_neg (by rw [hun.2]; exact Bool.noConfusion)]
  split_ifs with hround
  · refine ⟨hworth, hcard, hflags, ?_, h.haveNoEmpty.push _ _, h.dustNoEmpty, ?_, h.dust, h.usedTotal,
      h.inputsCount, h.usedUnspents⟩
    · dsimp only
      rw [Piles.contents_push, Multiset.cons_add, Multiset.cons_add, h.coins]
    · dsimp only
      rw [Piles.contents_push]
      exact Multiset.forall_mem_cons.mpr ⟨hround, h.round⟩
  · refine ⟨hworth, hcard, hflags, ?_, h.haveNoEmpty, h.dustNoEmpty.push _ _, h.round, ?_, h.usedTotal,
      h.inputsCount, h.usedUnspents⟩
    · dsimp only
      rw [Piles.contents_push, Multiset.add_cons, Multiset.cons_add, h.coins]
    · dsimp only
      rw [Piles.contents_push]
      exact Multiset.forall_mem_cons.mpr ⟨Bool.not_eq_false _ ▸ hround, h.dust⟩

private theorem Kept.foldl_addCoin {l : List Api.Output} (h : Kept eligible s)
    (hflags : ∀ un ∈ l, un.dust = Currency.isDust un.amount)
    (hworth : worth (eligible + ↑(l.filter (Eligible currency blockHeight blockTime confirmedHeight))) <
      2 ^ 64)
    (hcard : (eligible + ↑(l.filter (Eligible currency blockHeight blockTime confirmedHeight))).card <
      2 ^ 64) :
    Kept (eligible + ↑(l.filter (Eligible currency blockHeight blockTime confirmedHeight)))
      (l.foldl (fun s un ↦ s.addCoin currency blockHeight blockTime confirmedHeight un) s) := by
  induction l generalizing s eligible with
  | nil =>
    rw [List.filter_nil, Multiset.coe_nil, add_zero]
    exact h
  | cons un l ih =>
    rw [List.foldl_cons]
    rw [List.forall_mem_cons] at hflags
    by_cases hun : Eligible currency blockHeight blockTime confirmedHeight un = true
    · rw [List.filter_cons_of_pos hun, ← Multiset.cons_coe, Multiset.add_cons, ← Multiset.cons_add] at *
      refine ih (h.addCoin ?_ ?_ hflags.1 hun) hflags.2 hworth hcard
      · exact (worth_mono (Multiset.le_add_right _ _)).trans_lt hworth
      · exact (Multiset.card_le_card (Multiset.le_add_right _ _)).trans_lt hcard
    · rw [List.filter_cons_of_neg hun] at *
      rw [addCoin_of_not_eligible (Bool.not_eq_true _ ▸ hun)]
      exact ih h hflags.2 hworth hcard

private theorem kept_createHaveCoins {unspents : List Api.Output} {eligible : Multiset Api.Output}
    (heligible : eligible =
      ↑(unspents.filter (Eligible currency blockHeight blockTime confirmedHeight)))
    (hflags : ∀ un ∈ unspents, un.dust = Currency.isDust un.amount) (hworth : worth eligible < 2 ^ 64)
    (hcard : eligible.card < 2 ^ 64) :
    Kept eligible (createHaveCoins currency blockHeight blockTime confirmedHeight unspents) := by
  have hreverse : eligible =
      0 + ↑(unspents.reverse.filter (Eligible currency blockHeight blockTime confirmedHeight)) := by
    rw [zero_add, List.filter_reverse, Multiset.coe_reverse, heligible]
  have hstart : Kept 0 ({} : Selecting) :=
    ⟨by decide, by decide, nofun, by simp, Piles.noEmpty_empty, Piles.noEmpty_empty, by simp, by simp,
      rfl, rfl, rfl⟩
  rw [hreverse] at hworth hcard ⊢
  exact hstart.foldl_addCoin (fun un hun ↦ hflags un (List.mem_reverse.mp hun)) hworth hcard

end Selecting

/-! ## Rounds -/

/-- The estimate of a size, in numbers that do not wrap around. -/
def maximumTxSize (inputCount outputCount mixinCount : ℕ) : ℕ :=
  42 + outputCount * 43 + (112 + mixinCount * 68) * inputCount

theorem getMaximumTxSize_eq (inputCount outputCount mixinCount : UInt64) :
    getMaximumTxSize inputCount outputCount mixinCount =
      UInt64.ofNat (maximumTxSize inputCount.toNat outputCount.toNat mixinCount.toNat) := by
  rw [maximumTxSize, getMaximumTxSize]
  simp only [UInt64.ofNat_add, UInt64.ofNat_mul, UInt64.ofNat_toNat]
  rfl

/-- The sums of a request for `n` coins fit 64 bits. -/
structure Request.Fits (r : Request) (n : ℕ) : Prop where
  size : maximumTxSize n (r.totalOutputs.toNat + 8) r.anonymity.toNat < 2 ^ 64
  fee : r.totalAmount.toNat + r.feePerByte.toNat * min r.effectiveMedianSize.toNat
    (maximumTxSize n (r.totalOutputs.toNat + 8) r.anonymity.toNat) + 1000000 < 2 ^ 64

/-- A fee that is enough for `n` coins, or for what fits in a block. -/
def Request.maximumFee (r : Request) (n : ℕ) : ℕ :=
  r.feePerByte.toNat * min r.effectiveMedianSize.toNat
    (maximumTxSize n (r.totalOutputs.toNat + 8) r.anonymity.toNat) + 1000000

private theorem maximumTxSize_mono {n n' : ℕ} (h : n ≤ n') (outputCount mixinCount : ℕ) :
    maximumTxSize n outputCount mixinCount ≤ maximumTxSize n' outputCount mixinCount :=
  Nat.add_le_add_left (Nat.mul_le_mul_left _ h) _

/-- The estimate of a round is exact. -/
theorem Request.Fits.toNat_getMaximumTxSize {r : Request} {n : ℕ} (h : r.Fits n) {inputsCount : UInt64}
    (hn : inputsCount.toNat ≤ n) :
    (getMaximumTxSize inputsCount (r.totalOutputs + 8) r.anonymity).toNat =
      maximumTxSize inputsCount.toNat (r.totalOutputs.toNat + 8) r.anonymity.toNat := by
  have hlt := (maximumTxSize_mono hn (r.totalOutputs.toNat + 8) r.anonymity.toNat).trans_lt h.size
  have houtputs : (r.totalOutputs + 8).toNat = r.totalOutputs.toNat + 8 := by
    rw [UInt64.toNat_add]
    refine Nat.mod_eq_of_lt ?_
    rw [maximumTxSize] at hlt
    change r.totalOutputs.toNat + 8 < _
    omega
  rw [getMaximumTxSize_eq, houtputs, UInt64.toNat_ofNat', Nat.mod_eq_of_lt hlt]

/-- What is chosen when a choice succeeds: nothing is lost or doubled, the counters are exact, and what
is left of the chosen coins is the change and a fee that is enough. -/
structure Chosen (r : Request) (eligible : Multiset Api.Output) (s : Selecting) (change : Amount) :
    Prop where
  coins : s.haveCoins.contents + s.dustCoins.contents + ↑s.usedUnspents = eligible
  optimizationUnspents : s.optimizationUnspents = []
  usedTotal : s.usedTotal.toNat = worth ↑s.usedUnspents
  inputsCount : s.inputsCount.toNat = s.usedUnspents.length
  fee : ∃ fee, s.usedTotal.toNat = r.totalAmount.toNat + fee + change.toNat ∧
    r.feePerByte.toNat * maximumTxSize s.usedUnspents.length (r.totalOutputs.toNat + 8)
      r.anonymity.toNat ≤ fee

/-- How a choice ends. When it fails nothing is chosen, and it fails for want of funds only if all
coins that may be taken do not cover the amount and the fee of the last round. -/
def Ends (r : Request) (eligible : Multiset Api.Output) (sel : Selected) : Prop :=
  match sel.result with
  | .ok change => Chosen r eligible sel.state change
  | .error e => sel.state.usedUnspents = [] ∧ (e = "NOT_ENOUGH_FUNDS" →
      worth (eligible.filter fun un ↦ r.anonymity = 0 ∨ Currency.isDust un.amount = false) <
        r.totalAmount.toNat + sel.fee.toNat)

/-- What is left over of the coins when the amount and the fee are paid, and the part of it that is no
change. -/
theorem toNat_rest {used totalAmount fee : UInt64}
    (h : totalAmount.toNat + fee.toNat ≤ used.toNat) :
    (used - totalAmount - fee).toNat = used.toNat - totalAmount.toNat - fee.toNat ∧
      ((used - totalAmount - fee) % Currency.defaultDustThreshold).toNat =
        (used.toNat - totalAmount.toNat - fee.toNat) % 1000000 := by
  have hfirst : (used - totalAmount).toNat = used.toNat - totalAmount.toNat :=
    UInt64.toNat_sub_of_le _ _ (UInt64.le_iff_toNat_le.mpr (by omega))
  have hrest : (used - totalAmount - fee).toNat = used.toNat - totalAmount.toNat - fee.toNat := by
    rw [UInt64.toNat_sub_of_le _ _ (UInt64.le_iff_toNat_le.mpr (by omega)), hfirst]
  refine ⟨hrest, ?_⟩
  rw [UInt64.toNat_mod, hrest]
  rfl

private theorem toNat_nextFee {sizeFee fee dustFee : UInt64}
    (hlt : fee.toNat + dustFee.toNat < sizeFee.toNat)
    (hmax : sizeFee.toNat + 1000000 < 2 ^ 64) :
    fee.toNat < ((sizeFee - dustFee + Currency.defaultDustThreshold - 1) /
        Currency.defaultDustThreshold * Currency.defaultDustThreshold).toNat ∧
      ((sizeFee - dustFee + Currency.defaultDustThreshold - 1) /
        Currency.defaultDustThreshold * Currency.defaultDustThreshold).toNat <
          sizeFee.toNat + 1000000 := by
  have hthreshold : Currency.defaultDustThreshold.toNat = 1000000 := rfl
  have hone : (1 : UInt64).toNat = 1 := rfl
  have hsub : (sizeFee - dustFee).toNat = sizeFee.toNat - dustFee.toNat :=
    UInt64.toNat_sub_of_le _ _ (UInt64.le_iff_toNat_le.mpr (by omega))
  have hadd : (sizeFee - dustFee + Currency.defaultDustThreshold).toNat =
      sizeFee.toNat - dustFee.toNat + 1000000 := by
    rw [UInt64.toNat_add, hsub, hthreshold, Nat.mod_eq_of_lt (by omega)]
  have hround : (sizeFee - dustFee + Currency.defaultDustThreshold - 1).toNat =
      sizeFee.toNat - dustFee.toNat + 999999 := by
    rw [UInt64.toNat_sub_of_le _ _ (UInt64.le_iff_toNat_le.mpr (by omega)), hadd, hone]
    omega
  have hnext : ((sizeFee - dustFee + Currency.defaultDustThreshold - 1) /
      Currency.defaultDustThreshold * Currency.defaultDustThreshold).toNat =
        (sizeFee.toNat - dustFee.toNat + 999999) / 1000000 * 1000000 := by
    rw [UInt64.toNat_mul, UInt64.toNat_div, hround, hthreshold, Nat.mod_eq_of_lt (by omega)]
  rw [hnext]
  constructor <;> omega

namespace Selecting

/-- Giving the coins that are taken a place among the used ones. -/
theorem Kept.chosen {r : Request} {eligible : Multiset Api.Output} {s : Selecting}
    (h : s.Kept eligible) {change : Amount} (fee : ℕ)
    (htotal : s.usedTotal.toNat = r.totalAmount.toNat + fee + change.toNat)
    (hfee : r.feePerByte.toNat * maximumTxSize s.optimizationUnspents.length
      (r.totalOutputs.toNat + 8) r.anonymity.toNat ≤ fee) :
    Chosen r eligible s.combineOptimizedUnspents change := by
  have hused : s.combineOptimizedUnspents.usedUnspents = s.optimizationUnspents := by
    rw [combineOptimizedUnspents, h.usedUnspents, List.nil_append]
  refine ⟨?_, rfl, ?_, ?_, fee, htotal, ?_⟩
  · rw [hused]
    exact h.coins
  · rw [hused]
    exact h.usedTotal
  · rw [hused]
    exact h.inputsCount
  · rw [hused]
    exact hfee

end Selecting

/-- **Spec of the rounds.** A round ends the choice, or it is followed by one that is less ambitious or
by one with a larger fee, which is never more than enough for all coins. -/
private theorem rounds_ok {r : Request} {eligible : Multiset Api.Output} (hr : r.Fits eligible.card)
    {s : Selecting} (h : s.Kept eligible) {fee : Amount} (hfee : fee.toNat ≤ r.maximumFee eligible.card)
    (optimizations : ℕ) :
    ∃ sel turns, (∀ fuel, turns ≤ fuel → rounds r fuel fee optimizations s = .ok sel) ∧
      Ends r eligible sel ∧ sel.fee.toNat ≤ r.maximumFee eligible.card := by
  -- the room above the fee together with the ambition shrinks from round to round
  induction hn : 2 ^ 64 - fee.toNat + optimizations using Nat.strong_induction_on
    generalizing s fee optimizations with
  | _ n ih =>
    obtain ⟨s₁, enough, hs₁, hchoice⟩ :=
      h.selectOptimalOutputs (r.totalAmount + fee) r.anonymity optimizations
    have hroom : r.totalAmount.toNat + r.maximumFee eligible.card < 2 ^ 64 := by
      rw [Request.maximumFee, ← Nat.add_assoc]
      exact hr.fee
    have htotal : (r.totalAmount + fee).toNat = r.totalAmount.toNat + fee.toNat := by
      rw [UInt64.toNat_add, Nat.mod_eq_of_lt (by omega)]
    have hend (sel : Selected) (hsel : ∀ fuel, rounds r (fuel + 1) fee optimizations s = .ok sel)
        (hends : Ends r eligible sel) (hsame : sel.fee = fee) :
        ∃ sel turns, (∀ fuel, turns ≤ fuel → rounds r fuel fee optimizations s = .ok sel) ∧
          Ends r eligible sel ∧ sel.fee.toNat ≤ r.maximumFee eligible.card := by
      refine ⟨sel, 1, fun fuel hfuel ↦ ?_, hends, hsame ▸ hfee⟩
      obtain ⟨fuel, rfl⟩ := Nat.exists_eq_add_of_le' hfuel
      exact hsel fuel
    have hnext (fee' : Amount) (optimizations' : ℕ)
        (hround : ∀ fuel, rounds r (fuel + 1) fee optimizations s =
          rounds r fuel fee' optimizations' s₁.unoptimizeAmounts)
        (hfee' : fee'.toNat ≤ r.maximumFee eligible.card)
        (hless : 2 ^ 64 - fee'.toNat + optimizations' < 2 ^ 64 - fee.toNat + optimizations) :
        ∃ sel turns, (∀ fuel, turns ≤ fuel → rounds r fuel fee optimizations s = .ok sel) ∧
          Ends r eligible sel ∧ sel.fee.toNat ≤ r.maximumFee eligible.card := by
      obtain ⟨sel, turns, hturns, hends⟩ :=
        ih _ (hn ▸ hless) hchoice.kept.unoptimizeAmounts hfee' optimizations' rfl
      refine ⟨sel, turns + 1, fun fuel hfuel ↦ ?_, hends⟩
      obtain ⟨fuel, rfl⟩ := Nat.exists_eq_add_of_le' (Nat.le_of_add_left_le hfuel)
      exact (hround fuel).trans (hturns fuel (by omega))
    cases enough with
    | false =>
      have hlt := hchoice.lt rfl
      rw [htotal] at hlt
      refine hend ⟨s₁, fee, .error "NOT_ENOUGH_FUNDS"⟩ (fun fuel ↦ ?_)
        ⟨hchoice.kept.usedUnspents, fun _ ↦ hlt⟩ rfl
      rw [rounds, hs₁]
      rfl
    | true =>
      have hle := UInt64.le_iff_toNat_le.mp (hchoice.le rfl)
      rw [htotal] at hle
      obtain ⟨hrest, hdust⟩ := toNat_rest hle
      set dustFee := (s₁.usedTotal - r.totalAmount - fee) % Currency.defaultDustThreshold
      set txSize := getMaximumTxSize s₁.inputsCount (r.totalOutputs + 8) r.anonymity with htxSize
      have hcount : s₁.inputsCount.toNat ≤ eligible.card := by
        rw [hchoice.kept.inputsCount, ← hchoice.kept.coins, Multiset.card_add]
        exact Nat.le_add_left _ _
      have hsize := hr.toNat_getMaximumTxSize hcount
      rw [← htxSize] at hsize
      have hmaximum := maximumTxSize_mono hcount (r.totalOutputs.toNat + 8) r.anonymity.toNat
      have hround (fuel : ℕ) : rounds r (fuel + 1) fee optimizations s =
          if r.optimizationMedian < txSize ∧ 0 < optimizations then
            rounds r fuel fee (if optimizations / 2 < 10 then 0 else optimizations / 2)
              s₁.unoptimizeAmounts
          else if r.effectiveMedianSize < txSize then
            .ok ⟨s₁, fee, .error "TRANSACTION_DOES_NOT_FIT_IN_BLOCK"⟩
          else if r.feePerByte * txSize ≤ fee + dustFee then
            .ok ⟨s₁.combineOptimizedUnspents, fee,
              .ok (s₁.usedTotal - r.totalAmount - fee - dustFee)⟩
          else
            rounds r fuel ((r.feePerByte * txSize - dustFee + Currency.defaultDustThreshold - 1) /
              Currency.defaultDustThreshold * Currency.defaultDustThreshold) optimizations
              s₁.unoptimizeAmounts := by
        rw [rounds, hs₁]
        rfl
      by_cases hlarge : r.optimizationMedian < txSize ∧ 0 < optimizations
      · refine hnext _ _ (fun fuel ↦ by rw [hround, if_pos hlarge]) hfee ?_
        have hpos := hlarge.2
        split_ifs <;> omega
      by_cases hblock : r.effectiveMedianSize < txSize
      · refine hend ⟨s₁, fee, .error "TRANSACTION_DOES_NOT_FIT_IN_BLOCK"⟩
          (fun fuel ↦ by rw [hround, if_neg hlarge, if_pos hblock])
          ⟨hchoice.kept.usedUnspents, fun he ↦ ?_⟩ rfl
        exact absurd he (by decide)
      -- the fee for a size that fits in a block does not wrap around
      have hfits : r.feePerByte.toNat * txSize.toNat ≤ r.feePerByte.toNat *
          min r.effectiveMedianSize.toNat
            (maximumTxSize eligible.card (r.totalOutputs.toNat + 8) r.anonymity.toNat) := by
        refine Nat.mul_le_mul_left _ (Nat.le_min.mpr ⟨?_, hsize ▸ hmaximum⟩)
        exact UInt64.le_iff_toNat_le.mp (UInt64.not_lt.mp hblock)
      rw [Request.maximumFee] at hfee hroom
      have hsizeFee : (r.feePerByte * txSize).toNat = r.feePerByte.toNat * txSize.toNat := by
        rw [UInt64.toNat_mul, Nat.mod_eq_of_lt (by omega)]
      have hsmall : (r.feePerByte * txSize).toNat + 1000000 < 2 ^ 64 := by
        rw [hsizeFee]
        exact (Nat.add_le_add_right hfits _).trans_lt ((Nat.le_add_left _ _).trans_lt hroom)
      have hpaid : (fee + dustFee).toNat = fee.toNat + dustFee.toNat := by
        have hlt := s₁.usedTotal.toNat_lt
        rw [UInt64.toNat_add, Nat.mod_eq_of_lt (by omega)]
      by_cases henough : r.feePerByte * txSize ≤ fee + dustFee
      · have hlast (fuel : ℕ) := (hround fuel).trans (if_neg hlarge)
        simp only [if_neg hblock, if_pos henough] at hlast
        refine hend _ hlast ?_ rfl
        rw [UInt64.le_iff_toNat_le, hsizeFee, hpaid, hsize, hchoice.kept.inputsCount] at henough
        refine hchoice.kept.chosen (fee.toNat + dustFee.toNat) ?_ henough
        rw [UInt64.toNat_sub_of_le _ _ (UInt64.le_iff_toNat_le.mpr (by omega)), hrest]
        omega
      · rw [UInt64.not_le, UInt64.lt_iff_toNat_lt, hpaid] at henough
        obtain ⟨hgrows, hbound⟩ := toNat_nextFee henough hsmall
        have hmore : ¬r.feePerByte * txSize ≤ fee + dustFee := by
          rw [UInt64.not_le, UInt64.lt_iff_toNat_lt, hpaid]
          exact henough
        have hagain (fuel : ℕ) := (hround fuel).trans (if_neg hlarge)
        simp only [if_neg hblock, if_neg hmore] at hagain
        refine hnext _ _ hagain ?_ (by omega)
        rw [Request.maximumFee]
        omega

private theorem rounds_mono {r : Request} {fuel fuel' optimizations : ℕ} {fee : Amount} {s : Selecting}
    {sel : Selected} (hs : rounds r fuel fee optimizations s = .ok sel) (hle : fuel ≤ fuel') :
    rounds r fuel' fee optimizations s = .ok sel := by
  induction fuel generalizing fuel' fee optimizations s with
  | zero => cases hs
  | succ fuel ih =>
    obtain ⟨fuel', rfl⟩ := Nat.exists_eq_add_of_le' (Nat.le_of_add_left_le hle)
    have hle := Nat.le_of_succ_le_succ hle
    rw [rounds] at hs ⊢
    obtain ⟨p, hp, hs⟩ := bind_eq_ok.mp hs
    refine bind_eq_ok.mpr ⟨p, hp, ?_⟩
    dsimp only at hs ⊢
    split_ifs at hs ⊢ with hfalse hlarge hhalf hblock hfee
    · exact hs
    · exact ih hs hle
    · exact ih hs hle
    · exact hs
    · exact hs
    · exact ih hs hle

section Coins

variable {currency : Currency} {blockHeight confirmedHeight : Height} {blockTime : Timestamp}
  {r : Request} {unspents : List Api.Output} {eligible : Multiset Api.Output}

private theorem selectOptimalOutputs_total
    (heligible : eligible =
      ↑(unspents.filter (Selecting.Eligible currency blockHeight blockTime confirmedHeight)))
    (hflags : ∀ un ∈ unspents, un.dust = Currency.isDust un.amount)
    (hworth : worth eligible < 2 ^ 64) (hr : r.Fits eligible.card) :
    ∃ sel turns, (∀ fuel, turns ≤ fuel →
        selectOptimalOutputs currency blockHeight blockTime confirmedHeight r unspents fuel =
          .ok sel) ∧ Ends r eligible sel ∧ sel.fee.toNat ≤ r.maximumFee eligible.card := by
  have hcard : eligible.card < 2 ^ 64 := by
    have hsize := hr.size
    have hle : eligible.card ≤ (112 + r.anonymity.toNat * 68) * eligible.card :=
      Nat.le_mul_of_pos_left _ (by omega)
    rw [maximumTxSize] at hsize
    omega
  have hfee : Currency.minimumFee.toNat ≤ r.maximumFee eligible.card := by
    rw [Request.maximumFee, show Currency.minimumFee.toNat = 1000000 from rfl]
    omega
  exact rounds_ok hr (Selecting.kept_createHaveCoins heligible hflags hworth hcard) hfee r.optimizations

/-- A choice that has come to its end has ended well, with a fee that is never more than enough for all
coins. -/
theorem ends_of_selectOptimalOutputs {fuel : ℕ} {sel : Selected}
    (hs : selectOptimalOutputs currency blockHeight blockTime confirmedHeight r unspents fuel = .ok sel)
    (heligible : eligible =
      ↑(unspents.filter (Selecting.Eligible currency blockHeight blockTime confirmedHeight)))
    (hflags : ∀ un ∈ unspents, un.dust = Currency.isDust un.amount)
    (hworth : worth eligible < 2 ^ 64) (hr : r.Fits eligible.card) :
    Ends r eligible sel ∧ sel.fee.toNat ≤ r.maximumFee eligible.card := by
  obtain ⟨sel', turns, hturns, hends⟩ := selectOptimalOutputs_total heligible hflags hworth hr
  have hlong := hturns (max turns fuel) (le_max_left _ _)
  have hsame : sel' = sel := Except.ok.inj (hlong.symm.trans (rounds_mono hs (le_max_right _ _)))
  rwa [← hsame]

end Coins

/-- **Coins are conserved.** A choice for a request whose sums fit 64 bits comes to its end and never
looks for a coin on an empty pile. When it succeeds, the used coins and those that are left on the
piles are the coins that could be spent, the counters are exact, and the fee is enough; when it fails,
no coin is used, and funds are missing only if all coins that may be taken do not cover the amount and
the fee. -/
theorem selectOptimalOutputs_ends {currency : Currency} {blockHeight confirmedHeight : Height}
    {blockTime : Timestamp} {r : Request} {unspents : List Api.Output}
    {eligible : Multiset Api.Output}
    (heligible : eligible =
      ↑(unspents.filter (Selecting.Eligible currency blockHeight blockTime confirmedHeight)))
    (hflags : ∀ un ∈ unspents, un.dust = Currency.isDust un.amount)
    (hworth : worth eligible < 2 ^ 64) (hr : r.Fits eligible.card) :
    ∃ sel turns, (∀ fuel, turns ≤ fuel →
        selectOptimalOutputs currency blockHeight blockTime confirmedHeight r unspents fuel =
          .ok sel) ∧ Ends r eligible sel := by
  obtain ⟨sel, turns, hturns, hends, -⟩ := selectOptimalOutputs_total heligible hflags hworth hr
  exact ⟨sel, turns, hturns, hends⟩

/-! ## A sample -/

/-- A coin of an amount. -/
def sampleCoin (amount : Amount) : Api.Output := { amount := amount, dust := Currency.isDust amount }

/-- A request for an amount. -/
def sampleRequest (totalAmount : Amount) : Request where
  totalAmount := totalAmount
  totalOutputs := 1
  anonymity := 0
  feePerByte := 100
  medianSize := 10000
  optimizationLevel := ""

/-- A coin that is dust, and two coins that are both needed for eight millions. -/
def sampleUnspents : List Api.Output := [sampleCoin 123, sampleCoin 5000000, sampleCoin 9000000]

theorem selectOptimalOutputs_ends_sample :
    ∃ sel turns, (∀ fuel, turns ≤ fuel →
        selectOptimalOutputs ⟨false, [], 0⟩ 10 0 5 (sampleRequest 12000000) sampleUnspents fuel =
          .ok sel) ∧ Ends (sampleRequest 12000000) ↑sampleUnspents sel := by
  refine selectOptimalOutputs_ends (by decide +kernel) ?_ (by decide +kernel)
    ⟨by decide +kernel, by decide +kernel⟩
  decide +kernel

/-- A sum that wraps around is covered by no coins at all, and coins that are not enough stay taken. -/
theorem selection_not_conserved :
    (∃ sel ∈ (selectOptimalOutputs ⟨false, [], 0⟩ 10 0 5 (sampleRequest (0 - 1000000)) [] 1).toOption,
      sel.result.toOption = some 0 ∧ sel.state.usedUnspents = []) ∧
    ∃ sel ∈ (selectOptimalOutputs ⟨false, [], 0⟩ 10 0 5 (sampleRequest 10000000)
        [sampleCoin 5000000] 1).toOption,
      sel.result.toOption = none ∧ sel.state.usedTotal = 5000000 ∧
        sel.state.optimizationUnspents = [sampleCoin 5000000] := by
  decide +kernel

end UnspentSelector

end CryoNero
