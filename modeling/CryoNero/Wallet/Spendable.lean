import CryoNero.Wallet.Blocks
import CryoNero.Store.Ranges
import CryoNero.Build.Covered

/-!
# Coins that are shown and coins that are taken

Which coins can be spent is decided twice. A wallet shows what its indexes have: the unspent outputs up to
a confirmed height, without those that were opened above it. The selector looks at each of these coins
again, at its height and at its lock.

The locks agree, as long as time does not run backwards too far: a block that opened a coin is on the
chain, and the tip has its height and, up to a tolerance, its time (`Synced.eligible`). The heights do not
agree. A coin at the confirmed height itself is shown, but it is not taken.
-/

namespace CryoNero

open Store

namespace WalletIndexes

variable {s : WalletIndexes}

/-! ## Ranges -/

theorem mem_between_iff {t : Table HeAmGi Api.Output} {begin_ end_ : UInt32}
    {e : HeAmGi × Api.Output} : e ∈ between t begin_ end_ ↔
      t[e.1]? = some e.2 ∧ begin_ + 1 ≤ (ofLex e.1).1 ∧ (ofLex e.1).1 ≤ end_ := by
  rw [between]
  rw [Table.mem_takeWhile_filter (f := fun k : HeAmGi ↦ (ofLex k).1), decide_eq_true_iff]
  exact fun _ _ _ _ hab ↦ Table.fst_le_of_compare hab

/-- An output was opened above a height, and is listed for an address. -/
def OpenedAbove (s : WalletIndexes) (address : String) (height : Height) (o : Api.Output) : Prop :=
  ∃ k v, s.get .unlocked k = some v ∧ height + 1 ≤ (ofLex k).1 ∧
    (ofLex k).2 = toLex (o.amount, o.globalIndex) ∧ (address = "" ∨ v.address = address)

private theorem readUnlockIndex_get {t : Table HeAmGi Api.Output} {address : String} {begin_ : UInt32}
    {add : OutputMap} (h : readUnlockIndex ∅ t address begin_ 0xFFFFFFFF = .ok add)
    (key : Amount ×ₗ UInt32) : add[key]? = none ↔ ∀ e ∈ between t begin_ 0xFFFFFFFF,
      (address = "" ∨ e.2.address = address) → (ofLex e.1).2 ≠ key := by
  classical
  rw [readUnlockIndex, if_neg] at h
  · refine foldlM_ok (fun done (add : OutputMap) ↦ ∀ key, add[key]? = none ↔
      ∀ e ∈ done, (address = "" ∨ e.2.address = address) → (ofLex e.1).2 ≠ key) h ?_ ?_ key
    · exact fun key ↦ ⟨fun _ ↦ List.forall_mem_nil _, fun _ ↦ Std.ExtTreeMap.getElem?_empty⟩
    · intro done e rest add₁ add₂ _ hadd₁ he key
      rw [addUnlocked] at he
      obtain ⟨_, -, he⟩ := bind_eq_ok.mp he
      rw [List.forall_mem_append, List.forall_mem_singleton, ← hadd₁ key]
      split_ifs at he with hlisted
      · obtain ⟨_, -, he⟩ := bind_eq_ok.mp he
        cases he
        rw [Table.get_insert]
        split_ifs with hkey
        · exact ⟨fun hsome ↦ by simp at hsome, fun hand ↦ absurd hkey (hand.2 hlisted)⟩
        · exact ⟨fun hnone ↦ ⟨hnone, fun _ ↦ hkey⟩, And.left⟩
      · cases he
        exact ⟨fun hnone ↦ ⟨hnone, fun hl ↦ absurd hl hlisted⟩, And.left⟩
  · rintro ⟨hne, hle⟩
    exact hne (UInt32.le_antisymm (UInt32.le_iff_toNat_le.mpr (Nat.le_of_lt_succ begin_.toNat_lt)) hle)

private theorem apiGetUnlockedOutputs_get {address : String} {height : Height} {add : OutputMap}
    (h : s.apiGetUnlockedOutputs address height 0xFFFFFFFF = .ok add) (o : Api.Output) :
    add[(toLex (o.amount, o.globalIndex) : Amount ×ₗ UInt32)]? = none ↔
      ¬s.OpenedAbove address height o := by
  rw [readUnlockIndex_get h, OpenedAbove]
  constructor
  · rintro hall ⟨k, v, hget, hheight, hkey, hlisted⟩
    exact hall (k, v) (mem_between_iff.mpr ⟨hget, hheight, UInt32.le_iff_toNat_le.mpr
      (Nat.le_of_lt_succ (UInt32.toNat_lt _))⟩) hlisted hkey
  · rintro hnone e he hlisted hkey
    obtain ⟨hget, hheight, -⟩ := mem_between_iff.mp he
    exact hnone ⟨e.1, e.2, hget, hheight, hkey, hlisted⟩

private theorem Filed.mem_unspentsBetween {P : Api.Output → Prop} (h : Filed P s) {address : String}
    {height : Height} {o : Api.Output} :
    .ok o ∈ s.unspentsBetween address 0xFFFFFFFF height ↔
      (∃ k, s.get .unspents k = some o) ∧ o.height ≤ height ∧ (address = "" ∨ o.address = address) := by
  have hzero (x : UInt32) : (0xFFFFFFFF : UInt32) + 1 ≤ x :=
    UInt32.le_iff_toNat_le.mpr (Nat.zero_le _)
  rw [unspentsBetween]
  split_ifs with haddress
  · rw [List.mem_map]
    constructor
    · rintro ⟨e, he, heq⟩
      obtain ⟨hget, -, hheight⟩ := mem_between_iff.mp he
      cases heq
      refine ⟨⟨e.1, hget⟩, ?_, .inl haddress⟩
      rw [(h.unspents _ _ hget).1] at hheight
      exact hheight
    · rintro ⟨⟨k, hget⟩, hheight, -⟩
      refine ⟨(k, o), mem_between_iff.mpr ⟨hget, hzero _, ?_⟩, rfl⟩
      rw [(h.unspents _ _ hget).1]
      exact hheight
  · have hrising (a b : (String ×ₗ HeAmGi) × Unit)
        (ha : decide ((ofLex a.1).1 = address ∧ (0xFFFFFFFF : UInt32) + 1 ≤ (ofLex (ofLex a.1).2).1) = true)
        (hb : decide ((ofLex b.1).1 = address ∧ (0xFFFFFFFF : UInt32) + 1 ≤ (ofLex (ofLex b.1).2).1) = true)
        (hab : compare a.1 b.1 = .lt) : (ofLex (ofLex a.1).2).1 ≤ (ofLex (ofLex b.1).2).1 := by
      have hsame : (ofLex a.1).1 = (ofLex b.1).1 :=
        (of_decide_eq_true ha).1.trans (of_decide_eq_true hb).1.symm
      change (compare (ofLex a.1).1 (ofLex b.1).1).then (compare (ofLex a.1).2 (ofLex b.1).2) = .lt at hab
      rw [hsame, Std.compare_self] at hab
      exact Table.fst_le_of_compare hab
    rw [List.mem_map]
    constructor
    · rintro ⟨e, he, heq⟩
      obtain ⟨-, hp, hheight⟩ := (Table.mem_takeWhile_filter
        (f := fun k : String ×ₗ HeAmGi ↦ (ofLex (ofLex k).2).1) hrising).mp he
      obtain ⟨o', hget, heq⟩ := bind_eq_ok.mp heq
      obtain ⟨_, hsame, heq⟩ := bind_eq_ok.mp heq
      cases heq
      rw [orFail_eq_ok] at hget
      refine ⟨⟨_, hget⟩, ?_, .inr (ensure_eq_ok.mp hsame)⟩
      rw [(h.unspents _ _ hget).1] at hheight
      exact hheight
    · rintro ⟨⟨k, hget⟩, hheight, hlisted⟩
      have hsame := hlisted.resolve_left haddress
      have hfiled := (h.addressUnspents (toLex (address, k))).mpr ⟨o, hget, hsame⟩
      refine ⟨(toLex (address, k), ()), (Table.mem_takeWhile_filter
        (f := fun k : String ×ₗ HeAmGi ↦ (ofLex (ofLex k).2).1) hrising).mpr
          ⟨hfiled, decide_eq_true ⟨rfl, hzero _⟩, ?_⟩, ?_⟩
      · rw [(h.unspents _ _ hget).1]
        exact hheight
      · exact bind_eq_ok.mpr ⟨o, orFail_eq_ok.mpr hget, bind_eq_ok.mpr ⟨(), ensure_pos _ hsame, rfl⟩⟩

/-! ## The list -/

private theorem visit_ok {σ : Type} {fn : σ → Api.Output → σ × Bool} (M : List Api.Output → σ → Prop)
    (N : σ → Prop) {l : List (Except Fault Api.Output)} {a a' : σ} {went : Bool}
    (h : visit fn a l = .ok (a', went)) (h₀ : M [] a)
    (hstep : ∀ done o a, M done a → M (done ++ [o]) (fn a o).1)
    (hstop : ∀ o a, (fn a o).2 = false → N (fn a o).1) :
    ∃ done, M done a' ∧ (∀ o ∈ done, .ok o ∈ l) ∧ (went = true → ∀ o, .ok o ∈ l → o ∈ done) ∧
      (went = false → N a') := by
  suffices hgen : ∀ (l : List (Except Fault Api.Output)) (done : List Api.Output) (a : σ), M done a →
      visit fn a l = .ok (a', went) → ∃ more, M (done ++ more) a' ∧ (∀ o ∈ more, .ok o ∈ l) ∧
        (went = true → ∀ o, .ok o ∈ l → o ∈ more) ∧ (went = false → N a') by
    simpa using hgen l [] a h₀ h
  intro l
  induction l with
  | nil =>
    intro done a hM ha
    cases ha
    exact ⟨[], by rwa [List.append_nil], nofun, fun _ _ ho ↦ absurd ho List.not_mem_nil, nofun⟩
  | cons x l ih =>
    intro done a hM ha
    rw [visit] at ha
    obtain ⟨o, rfl, hrest⟩ := bind_eq_ok.mp ha
    have hM' := hstep done o a hM
    dsimp only at hrest
    split_ifs at hrest with hgo
    · obtain ⟨more, hmore, hseen, hall, hN⟩ := ih (done ++ [o]) (fn a o).1 hM' hrest
      refine ⟨o :: more, by rwa [List.append_cons], ?_, fun hwent o' ho' ↦ ?_, hN⟩
      · exact List.forall_mem_cons.mpr
          ⟨List.mem_cons_self, fun o' ho' ↦ List.mem_cons_of_mem _ (hseen o' ho')⟩
      · rcases List.mem_cons.mp ho' with ho' | ho'
        · cases ho'
          exact List.mem_cons_self
        · exact List.mem_cons_of_mem _ (hall hwent o' ho')
    · cases hrest
      refine ⟨[o], hM', fun o' ho' ↦ ?_, nofun, fun _ ↦ hstop o a (Bool.not_eq_true _ ▸ hgo)⟩
      rw [List.mem_singleton.mp ho']
      exact List.mem_cons_self

/-- An output is shown as spendable for an address, as far as a confirmed height does not exclude it. -/
def Shown (s : WalletIndexes) (used : Table KeyImage ℤ) (address : String) (confirmedHeight : Height)
    (o : Api.Output) : Prop :=
  (∃ k, s.get .unspents k = some o) ∧ (address = "" ∨ o.address = address) ∧
    isMemorySpent used o = false ∧ ¬s.OpenedAbove address confirmedHeight o

/-- The sum of coins that are not dust. -/
def roundSum (coins : List Api.Output) : Amount :=
  ((coins.filter fun o ↦ o.dust = false).map (·.amount)).sum

/-- **Spec of the list.** It has coins that are shown and not above the confirmed height, and all of them
unless the search was given up early for a sum that is large enough. -/
theorem Filed.apiAddUnspent {P : Api.Output → Prop} (h : Filed P s) {used : Table KeyImage ℤ}
    {listed listed' : Listed} {address : String} {confirmedHeight : Height} {maxAmount : Amount}
    {went : Bool}
    (hl : s.apiAddUnspent used listed address confirmedHeight maxAmount = .ok (listed', went)) :
    ∃ coins, listed'.1 = listed.1 ++ coins ∧ listed'.2 = listed.2 + roundSum coins ∧
      (∀ o ∈ coins, s.Shown used address confirmedHeight o ∧ o.height ≤ confirmedHeight) ∧
      (went = true → ∀ o, s.Shown used address confirmedHeight o → o.height ≤ confirmedHeight →
        o ∈ coins) ∧ (went = false → maxAmount ≤ listed'.2) := by
  rw [WalletIndexes.apiAddUnspent] at hl
  obtain ⟨recentlyUnlocked, hrecently, hl⟩ := bind_eq_ok.mp hl
  have hopened (o : Api.Output) := apiGetUnlockedOutputs_get hrecently o
  set shows : Api.Output → Bool := fun o ↦ isMemorySpent used o = false ∧
    recentlyUnlocked[(toLex (o.amount, o.globalIndex) : Amount ×ₗ UInt32)]? = none with hshows
  -- what is listed is what is shown of the outputs seen so far
  have hturn (done : List Api.Output) (o : Api.Output) (l : Listed)
      (hM : l.1 = listed.1 ++ done.filter shows ∧ l.2 = listed.2 + roundSum (done.filter shows)) :
      (addUnspentTurn used recentlyUnlocked maxAmount l o).1.1 =
          listed.1 ++ (done ++ [o]).filter shows ∧
        (addUnspentTurn used recentlyUnlocked maxAmount l o).1.2 =
          listed.2 + roundSum ((done ++ [o]).filter shows) := by
    rw [addUnspentTurn, List.filter_append]
    by_cases hshown : isMemorySpent used o = false ∧
        recentlyUnlocked[(toLex (o.amount, o.globalIndex) : Amount ×ₗ UInt32)]? = none
    · have hkeep : [o].filter shows = [o] := List.filter_cons_of_pos (decide_eq_true hshown)
      rw [if_pos hshown, hkeep]
      refine ⟨by rw [hM.1, List.append_assoc], ?_⟩
      dsimp only
      rw [hM.2]
      cases hdust : o.dust <;> simp [roundSum, hdust, add_assoc]
    · have hdrop : [o].filter shows = [] := List.filter_cons_of_neg (by rwa [decide_eq_true_iff])
      rw [if_neg hshown, hdrop, List.append_nil]
      exact hM
  have hstop (o : Api.Output) (l : Listed)
      (hgo : (addUnspentTurn used recentlyUnlocked maxAmount l o).2 = false) :
      maxAmount ≤ (addUnspentTurn used recentlyUnlocked maxAmount l o).1.2 := by
    rw [addUnspentTurn] at hgo ⊢
    by_cases hshown : isMemorySpent used o = false ∧
        recentlyUnlocked[(toLex (o.amount, o.globalIndex) : Amount ×ₗ UInt32)]? = none
    · rw [if_pos hshown] at hgo ⊢
      exact (not_not.mp (of_decide_eq_false hgo)).1
    · rw [if_neg hshown] at hgo
      cases hgo
  obtain ⟨done, ⟨hlist, hsum⟩, hseen, hall, hmax⟩ := visit_ok
    (fun done (l : Listed) ↦
      l.1 = listed.1 ++ done.filter shows ∧ l.2 = listed.2 + roundSum (done.filter shows))
    (fun l ↦ maxAmount ≤ l.2) hl ⟨by simp, by simp [roundSum]⟩ hturn hstop
  refine ⟨done.filter shows, hlist, hsum, fun o ho ↦ ?_, fun hwent o ho hheight ↦ ?_, hmax⟩
  · obtain ⟨ho, hshown⟩ := List.mem_filter.mp ho
    obtain ⟨hspent, hnone⟩ := of_decide_eq_true hshown
    obtain ⟨hget, hheight, haddress⟩ := h.mem_unspentsBetween.mp (hseen o ho)
    exact ⟨⟨hget, haddress, hspent, (hopened o).mp hnone⟩, hheight⟩
  · obtain ⟨hget, haddress, hspent, hnot⟩ := ho
    refine List.mem_filter.mpr ⟨hall hwent o ?_, decide_eq_true ⟨hspent, (hopened o).mpr hnot⟩⟩
    exact h.mem_unspentsBetween.mpr ⟨hget, hheight, haddress⟩

private theorem roundSum_append (coins coins' : List Api.Output) :
    roundSum (coins ++ coins') = roundSum coins + roundSum coins' := by
  rw [roundSum, List.filter_append, List.map_append, List.sum_append]
  rfl

private theorem toNat_roundSum_le (coins : List Api.Output) :
    (roundSum coins).toNat ≤ UnspentSelector.worth ↑coins := by
  induction coins with
  | nil => exact Nat.le_refl _
  | cons o coins ih =>
    rw [← Multiset.cons_coe, UnspentSelector.worth_cons]
    cases hdust : o.dust with
    | true =>
      rw [roundSum, List.filter_cons_of_neg (by simp [hdust]), ← roundSum]
      exact ih.trans (Nat.le_add_left _ _)
    | false =>
      rw [roundSum, List.filter_cons_of_pos (by simp [hdust]), List.map_cons, List.sum_cons,
        UInt64.toNat_add, ← roundSum]
      exact (Nat.mod_le _ _).trans (Nat.add_le_add_left ih _)

/-- The coins of several addresses. None is missing when no address stops the search and there is no sum
that is large enough to give it up. -/
theorem Filed.addUnspents {P : Api.Output → Prop} (h : Filed P s) {used : Table KeyImage ℤ}
    {confirmedHeight : Height} {maxAmount : Amount} {stops : Bool} {listed listed' : Listed}
    {ads : List String}
    (hl : s.addUnspents used confirmedHeight maxAmount stops listed ads = .ok listed') :
    ∃ coins, listed'.1 = listed.1 ++ coins ∧ listed'.2 = listed.2 + roundSum coins ∧
      (∀ o ∈ coins, ∃ ad ∈ ads, s.Shown used ad confirmedHeight o ∧ o.height ≤ confirmedHeight) ∧
      (stops = false → listed.2.toNat + UnspentSelector.worth ↑coins < maxAmount.toNat →
        ∀ ad ∈ ads, ∀ o, s.Shown used ad confirmedHeight o → o.height ≤ confirmedHeight → o ∈ coins) := by
  induction ads generalizing listed with
  | nil =>
    cases hl
    exact ⟨[], (List.append_nil _).symm, (UInt64.add_zero _).symm, nofun, fun _ _ ↦ nofun⟩
  | cons ad ads ih =>
    rw [WalletIndexes.addUnspents] at hl
    obtain ⟨⟨listed₁, went⟩, h₁, hl⟩ := bind_eq_ok.mp hl
    obtain ⟨coins, hlist, hsum, hshown, hall, hmax⟩ := h.apiAddUnspent h₁
    have hhere (o : Api.Output) (ho : o ∈ coins) :
        ∃ ad' ∈ ad :: ads, s.Shown used ad' confirmedHeight o ∧ o.height ≤ confirmedHeight :=
      ⟨ad, List.mem_cons_self, hshown o ho⟩
    split_ifs at hl with hstop
    · cases hl
      exact ⟨coins, hlist, hsum, hhere, fun hnot ↦ absurd hstop.1 (Bool.not_eq_true _ ▸ hnot)⟩
    · obtain ⟨coins', hlist', hsum', hshown', hall'⟩ := ih hl
      refine ⟨coins ++ coins', ?_, ?_, fun o ho ↦ ?_, fun hnot hless ad' had' o ho hheight ↦ ?_⟩
      · rw [hlist', hlist, List.append_assoc]
      · rw [hsum', hsum, roundSum_append, add_assoc]
      · rcases List.mem_append.mp ho with ho | ho
        · exact hhere o ho
        · obtain ⟨ad', had', hshown'⟩ := hshown' o ho
          exact ⟨ad', List.mem_cons_of_mem _ had', hshown'⟩
      · rw [← Multiset.coe_add, UnspentSelector.worth_add] at hless
        have hle : listed₁.2.toNat ≤ listed.2.toNat + UnspentSelector.worth ↑coins := by
          rw [hsum, UInt64.toNat_add]
          exact (Nat.mod_le _ _).trans (Nat.add_le_add_left (toNat_roundSum_le coins) _)
        rcases List.mem_cons.mp had' with rfl | had'
        · cases went with
          | true => exact List.mem_append_left _ (hall rfl o ho hheight)
          | false =>
            have hlarge := UInt64.le_iff_toNat_le.mp (hmax rfl)
            omega
        · exact List.mem_append_right _ (hall' hnot (by dsimp only at hle ⊢; omega) ad' had' o ho hheight)

/-! ## Locks -/

private theorem toNat_clampedUnlockTime (unlockTime : UnlockMoment) :
    (clampedUnlockTime unlockTime).toNat = min unlockTime.toNat 0xFFFFFFFF := by
  rw [clampedUnlockTime, UInt64.toNat_toUInt32]
  have hmin : (min unlockTime 0xFFFFFFFF).toNat = min unlockTime.toNat 0xFFFFFFFF := by
    rw [UInt64.min_def]
    split_ifs with hle <;> rw [UInt64.le_iff_toNat_le] at hle
    · exact (Nat.min_eq_left hle).symm
    · exact (Nat.min_eq_right (Nat.le_of_not_le hle)).symm
  rw [hmin]
  omega

end WalletIndexes

/-! ## Funds that are missing -/

namespace WalletNode

open UnspentSelector

private theorem selectionError_inj {error : String}
    (h : selectionError error = selectionError "NOT_ENOUGH_FUNDS") : error = "NOT_ENOUGH_FUNDS" := by
  by_contra hne
  rw [selectionError, if_neg hne, selectionError, if_pos rfl] at h
  split_ifs at h
  cases h

private theorem chooseCoins_not_enough {env : BuildEnv} {view : WalletView} {confirmedHeight : Height}
    {r : UnspentSelector.Request} {turns : ℕ}
    (h : chooseCoins env view confirmedHeight r turns =
      .error (.build (selectionError "NOT_ENOUGH_FUNDS"))) :
    ∃ sel, selectOptimalOutputs env.currency view.tipHeight view.tipTimestamp confirmedHeight r
      (view.apiAddUnspent 0xFFFFFFFFFFFFFFFF) turns = .ok sel ∧ sel.result = .error "NOT_ENOUGH_FUNDS" := by
  have hnot {unspents : List Api.Output} {f : CreateFault}
      (hf : (selectOptimalOutputs env.currency view.tipHeight view.tipTimestamp confirmedHeight r
        unspents turns).mapError CreateFault.select = .error f) (e : BuildError) : f ≠ .build e := by
    rintro rfl
    cases hsel : selectOptimalOutputs env.currency view.tipHeight view.tipTimestamp confirmedHeight r
      unspents turns <;> rw [hsel] at hf <;> cases hf
  rw [chooseCoins] at h
  rcases bind_eq_error.mp h with hf | ⟨sel, -, h⟩
  · exact absurd rfl (hnot hf _)
  cases hresult : sel.result with
  | ok change =>
    rw [hresult] at h
    cases h
  | error e =>
    rw [hresult] at h
    rcases bind_eq_error.mp h with hf | ⟨sel', hsel', h⟩
    · exact absurd rfl (hnot hf _)
    cases hresult' : sel'.result with
    | ok change =>
      rw [hresult'] at h
      cases h
    | error e' =>
      rw [hresult'] at h
      have hsame := selectionError_inj (CreateFault.build.inj (Except.error.inj h))
      exact ⟨sel', mapError_eq_ok.mp hsel', hsame ▸ hresult'⟩

end WalletNode

namespace WalletDb

open WalletIndexes (Filed Opens Shown)
open UnspentSelector (Selecting worth selectOptimalOutputs)
open WalletNode (WalletView chooseCoins selectionError)

variable {s : WalletDb} {blocks : Blocks}

/-- The tip is not behind the times by which blocks of the chain have opened outputs, except for what is
tolerated, and all these times fit 32 bits. -/
structure Timely (currency : Currency) (s : WalletDb) : Prop where
  room : s.tip.timestamp.toNat + currency.lockedTxAllowedDeltaSeconds.toNat < 0xFFFFFFFF
  medians : ∀ (h : Height) (header : Api.BlockHeader), s.headers[h]? = some header →
    header.timestampMedian.toNat ≤
      s.tip.timestamp.toNat + currency.lockedTxAllowedDeltaSeconds.toNat

/-- A lock that is a time is over at the tip, up to what is tolerated. -/
def Passed (currency : Currency) (s : WalletDb) (o : Api.Output) : Prop :=
  Currency.isTransactionSpendTimeBlock o.unlockTime = false →
    o.unlockTime ≤ (s.tip.timestamp + currency.lockedTxAllowedDeltaSeconds).toUInt64

/-- The locks that a block has opened are over at a tip that is not behind it. -/
theorem Synced.passed (h : s.Synced blocks) {currency : Currency} (htimes : s.Timely currency)
    {k : HeAmGi} {o : Api.Output} (hget : s.indexes.get .unspents k = some o) : s.Passed currency o := by
  intro hkind
  rw [h.clean] at hget
  obtain ⟨-, -, hready⟩ := h.stacked.filed.unspents k o hget
  rcases hready with hzero | ⟨b, hb, hopens⟩
  · rw [hzero] at hkind
    cases hkind
  · rw [Opens, if_neg (Bool.not_eq_true _ ▸ hkind), UInt32.le_iff_toNat_le,
      WalletIndexes.toNat_clampedUnlockTime] at hopens
    have hmedian := htimes.medians b.1 b.2 (h.headers b hb)
    have hroom := htimes.room
    rw [UInt64.le_iff_toNat_le, UInt32.toNat_toUInt64, UInt32.toNat_add]
    omega

/-- **What the wallet has opened the selector finds open.** -/
theorem Synced.unlocked (h : s.Synced blocks) {currency : Currency} {k : HeAmGi} {o : Api.Output}
    (hget : s.indexes.get .unspents k = some o) :
    currency.isTransactionSpendTimeUnlocked o.unlockTime s.tipHeight s.tip.timestamp = true ↔
      s.Passed currency o := by
  rw [Currency.isTransactionSpendTimeUnlocked, Passed, Currency.isTransactionSpendTimeBlock,
    decide_eq_false_iff_not]
  split_ifs with hkind
  · -- a lock that is a height was opened by a block of the chain
    refine ⟨fun _ hnot ↦ absurd hkind hnot, fun _ ↦ decide_eq_true ?_⟩
    have hnext : (s.tipHeight + 1).toUInt64.toNat = s.tailHeight.toNat + blocks.length := by
      rw [UInt32.toNat_toUInt64, h.toNat_next]
    rw [UInt64.le_iff_toNat_le, show Currency.lockedTxAllowedDeltaBlocks = 1 from rfl, hnext]
    rw [h.clean] at hget
    obtain ⟨-, -, hready⟩ := h.stacked.filed.unspents k o hget
    rcases hready with hzero | ⟨b, hb, hopens⟩
    · rw [hzero]
      exact Nat.zero_le _
    · have hblock : Currency.isTransactionSpendTimeBlock o.unlockTime = true := decide_eq_true hkind
      rw [Opens, if_pos hblock, UInt32.le_iff_toNat_le, WalletIndexes.toNat_clampedUnlockTime] at hopens
      have hlt := h.stacked.height_lt hb
      have hsmall := UInt64.lt_iff_toNat_lt.mp hkind
      change o.unlockTime.toNat < 500000000 at hsmall
      omega
  · rw [decide_eq_true_iff]
    exact ⟨fun hle _ ↦ hle, fun hle ↦ hle hkind⟩

/-! ## Both agree -/

/-- The addresses whose coins are looked for. -/
def searched (spendAddresses : List String) : List String :=
  if spendAddresses = [] then [""] else spendAddresses

/-- The selector considers each coin that is shown, so that funds are missing only for an amount and a fee
that all of these coins do not cover. -/
structure Considered (currency : Currency) (used : Table KeyImage ℤ) (spendAddresses : List String)
    (confirmedHeight : Height) (s : WalletDb) : Prop where
  eligible : ∀ maxAmount stops listed,
    s.indexes.spendableCoins used spendAddresses confirmedHeight maxAmount stops = .ok listed →
      ∀ o ∈ listed.1,
        Selecting.Eligible currency s.tipHeight s.tip.timestamp confirmedHeight o = true
  covered : ∀ listed,
    s.indexes.spendableCoins used spendAddresses confirmedHeight 0xFFFFFFFFFFFFFFFF false = .ok listed →
      worth ↑listed.1 < 2 ^ 64 → ∀ (env : BuildEnv) (view : WalletView) r turns,
        env.currency = currency → view.tipHeight = s.tipHeight → view.tipTimestamp = s.tip.timestamp →
        view.apiAddUnspent 0xFFFFFFFFFFFFFFFF = listed.1 → r.anonymity = 0 → r.Fits listed.1.length →
        chooseCoins env view confirmedHeight r turns =
            .error (.build (selectionError "NOT_ENOUGH_FUNDS")) →
          ∃ sel, selectOptimalOutputs currency s.tipHeight s.tip.timestamp confirmedHeight r listed.1 turns =
              .ok sel ∧ sel.fee.toNat ≤ r.maximumFee listed.1.length ∧
            listed.2.toNat ≤ worth ↑listed.1 ∧
            worth ↑listed.1 < r.totalAmount.toNat + sel.fee.toNat

/-- No coin that is shown was received in the block of the confirmed height itself, and none that is below
it waits for a time after the tip. -/
structure Clear (currency : Currency) (used : Table KeyImage ℤ) (spendAddresses : List String)
    (confirmedHeight : Height) (s : WalletDb) : Prop where
  height : ∀ ad ∈ searched spendAddresses, ∀ o, s.indexes.Shown used ad confirmedHeight o →
    o.height ≠ confirmedHeight
  passed : ∀ ad ∈ searched spendAddresses, ∀ o, s.indexes.Shown used ad confirmedHeight o →
    o.height ≤ confirmedHeight → s.Passed currency o

variable {currency : Currency} {used : Table KeyImage ℤ} {spendAddresses : List String}
  {confirmedHeight : Height}

private theorem Synced.eligible_iff (h : s.Synced blocks) {address : String} {o : Api.Output}
    (hshown : s.indexes.Shown used address confirmedHeight o) (hheight : o.height ≤ confirmedHeight) :
    Selecting.Eligible currency s.tipHeight s.tip.timestamp confirmedHeight o = true ↔
      o.height ≠ confirmedHeight ∧ s.Passed currency o := by
  obtain ⟨⟨k, hget⟩, -, -, -⟩ := hshown
  rw [Selecting.Eligible, decide_eq_true_iff, h.unlocked hget]
  refine and_congr_left fun _ ↦ ⟨UInt32.ne_of_lt, fun hne ↦ ?_⟩
  exact UInt32.lt_of_le_of_ne hheight hne

private theorem Synced.considered (h : s.Synced blocks)
    (hclear : s.Clear currency used spendAddresses confirmedHeight) :
    s.Considered currency used spendAddresses confirmedHeight := by
  have hfiled : Filed (Ready blocks) s.indexes := by
    rw [h.clean]
    exact h.stacked.filed
  have heligible {maxAmount : Amount} {stops : Bool} {listed : WalletIndexes.Listed}
      (hl : s.indexes.spendableCoins used spendAddresses confirmedHeight maxAmount stops = .ok listed) :
      ∀ o ∈ listed.1, Selecting.Eligible currency s.tipHeight s.tip.timestamp confirmedHeight o = true ∧
        o.dust = Currency.isDust o.amount := by
    obtain ⟨coins, hcoins, -, hshown, -⟩ := hfiled.addUnspents hl
    intro o ho
    rw [hcoins, List.nil_append] at ho
    obtain ⟨ad, had, hshown, hheight⟩ := hshown o ho
    refine ⟨(h.eligible_iff hshown hheight).mpr ⟨hclear.height ad had o hshown,
      hclear.passed ad had o hshown hheight⟩, ?_⟩
    obtain ⟨⟨k, hget⟩, -, -, -⟩ := hshown
    exact (hfiled.unspents k o hget).2.1
  refine ⟨fun maxAmount stops listed hl o ho ↦ (heligible hl o ho).1, ?_⟩
  intro listed hl hworth env view r turns hcurrency htip htime hview hanonymity hfits hmissing
  obtain ⟨sel, hsel, hresult⟩ := WalletNode.chooseCoins_not_enough hmissing
  rw [hcurrency, htip, htime, hview] at hsel
  have hall : listed.1.filter
      (Selecting.Eligible currency s.tipHeight s.tip.timestamp confirmedHeight) = listed.1 :=
    List.filter_eq_self.mpr fun o ho ↦ (heligible hl o ho).1
  obtain ⟨hends, hfee⟩ := UnspentSelector.ends_of_selectOptimalOutputs hsel
    (congrArg Multiset.ofList hall.symm) (fun o ho ↦ (heligible hl o ho).2) hworth hfits
  refine ⟨sel, hsel, hfee, ?_, ?_⟩
  · obtain ⟨coins, hcoins, hsum, -, -⟩ := hfiled.addUnspents hl
    rw [hsum, hcoins, List.nil_append, UInt64.zero_add]
    exact WalletIndexes.toNat_roundSum_le coins
  · rw [UnspentSelector.Ends, hresult] at hends
    have hless := hends.2 rfl
    rwa [Multiset.filter_eq_self.mpr fun _ _ ↦ Or.inl hanonymity] at hless

/-- **What is shown is considered** in every state of a wallet, if and only if no coin was received in the
block of the confirmed height itself and none waits for a time after the tip. The latter does not happen
while the clock of the chain is not turned back. -/
theorem considered_iff {env : WalletStateEnv} {keys : WalletKeys} {genesis : Api.BlockHeader}
    (h : Reaches (step env keys genesis) Room (· = {}) s) {listed : WalletIndexes.Listed}
    (hl : s.indexes.spendableCoins used spendAddresses confirmedHeight 0xFFFFFFFFFFFFFFFF false =
      .ok listed) (hworth : worth ↑listed.1 < 2 ^ 64 - 1) :
    (s.Considered currency used spendAddresses confirmedHeight ↔
        s.Clear currency used spendAddresses confirmedHeight) ∧
      (s.Timely currency → ∀ k o, s.indexes.get .unspents k = some o → s.Passed currency o) := by
  obtain ⟨blocks, h⟩ := synced_of_reaches env keys h
  refine ⟨⟨fun hconsidered ↦ ?_, h.considered⟩, fun htimes k o hget ↦ h.passed htimes hget⟩
  have hfiled : Filed (Ready blocks) s.indexes := by
    rw [h.clean]
    exact h.stacked.filed
  obtain ⟨coins, hcoins, -, -, hall⟩ := hfiled.addUnspents hl
  rw [List.nil_append] at hcoins
  have hmax : (0 : Amount).toNat + worth ↑coins < (0xFFFFFFFFFFFFFFFF : Amount).toNat := by
    rw [hcoins] at hworth
    rw [UInt64.toNat_zero, Nat.zero_add]
    exact hworth
  have hlisted (ad : String) (had : ad ∈ searched spendAddresses) (o : Api.Output)
      (hshown : s.indexes.Shown used ad confirmedHeight o) (hheight : o.height ≤ confirmedHeight) :
      o.height ≠ confirmedHeight ∧ s.Passed currency o := by
    rw [← h.eligible_iff hshown hheight]
    refine hconsidered.eligible _ _ _ hl o ?_
    rw [hcoins]
    exact hall rfl hmax ad had o hshown hheight
  refine ⟨fun ad had o hshown hsame ↦ ?_, fun ad had o hshown hheight ↦ ?_⟩
  · exact (hlisted ad had o hshown (UInt32.le_of_eq hsame)).1 hsame
  · exact (hlisted ad had o hshown hheight).2

/-! ## A sample -/

section Sample

open WalletState (sampleStateEnv sampleKeys sampleSpendCrypto sampleReceipt)
open WalletNode (sampleView)
open UnspentSelector (sampleBuildEnv)

/-- A block that pays five millions to the sample wallet. -/
def samplePayout : PreparedWalletBlock where
  timestamp := 0
  transactionHashes := [1]
  baseTransaction := .prepare sampleSpendCrypto
    { sampleReceipt 1 0 with
      inputs := []
      outputs := [{ amount := 5000000, target := .keyOutput { key := 108 } }] } 100
  baseTransactionHash := 1
  transactions := []

def sampleStep : WalletDb → Event → Except Fault WalletDb := step sampleStateEnv sampleKeys {}

def samplePaid : Event := .block {} (some (samplePayout, [[0]]))

/-- The wallet gets five millions in the first block after the genesis block, and a block follows. -/
def sampleSynced (P : WalletDb → Prop) : Prop :=
  ∃ s₁ ∈ (sampleStep {} .fix).toOption, s₁.tipHeight + 1 < 0xFFFFFFFF ∧
    ∃ s₂ ∈ (sampleStep s₁ samplePaid).toOption, s₂.tipHeight + 1 < 0xFFFFFFFF ∧
      ∃ s ∈ (sampleStep s₂ (.block {} none)).toOption, P s

/-- What the sample wallet shows up to a height. -/
def sampleShown (s : WalletDb) (confirmedHeight : Height) : Option WalletIndexes.Listed :=
  (s.indexes.spendableCoins ∅ [] confirmedHeight 0xFFFFFFFFFFFFFFFF false).toOption

instance (P : WalletDb → Prop) [DecidablePred P] : Decidable (sampleSynced P) :=
  inferInstanceAs (Decidable (∃ s₁ ∈ _, _ ∧ ∃ s₂ ∈ _, _ ∧ ∃ s ∈ _, P s))

theorem reaches_of_sampleSynced {P : WalletDb → Prop} (h : sampleSynced P) :
    ∃ s, Reaches (step sampleStateEnv sampleKeys {}) Room (· = {}) s ∧ P s := by
  obtain ⟨s₁, h₁, hroom₁, s₂, h₂, hroom₂, s, hs, hP⟩ := h
  refine ⟨s, ?_, hP⟩
  refine .next (.next (.next (.start rfl) (show Room {} .fix from trivial)
    (toOption_eq_some.mp h₁)) ?_ (toOption_eq_some.mp h₂)) ?_ (toOption_eq_some.mp hs)
  · exact hroom₁
  · exact hroom₂

/-- One block later the coin is shown and considered. -/
theorem considered_iff_sample : ∃ s, Reaches (step sampleStateEnv sampleKeys {}) Room (· = {}) s ∧
    (∃ listed ∈ sampleShown s 2, listed.1.map (·.amount) = [5000000]) ∧
      s.Considered sampleStateEnv.currency ∅ [] 2 := by
  obtain ⟨s, hs, ⟨listed, hlisted, hamounts, hworth⟩, hcoins⟩ := reaches_of_sampleSynced
    (P := fun s ↦ (∃ listed ∈ sampleShown s 2, listed.1.map (·.amount) = [5000000] ∧
        worth ↑listed.1 < 2 ^ 64 - 1) ∧
      ∀ e ∈ (s.indexes.records .unspents).toList, e.2.height = 1 ∧ e.2.unlockTime = 0) (by decide +kernel)
  have hmem {k : HeAmGi} {o : Api.Output} (hget : s.indexes.get .unspents k = some o) :
      o.height = 1 ∧ o.unlockTime = 0 :=
    hcoins (k, o) (Std.ExtTreeMap.mem_toList_iff_getElem?_eq_some.mpr hget)
  refine ⟨s, hs, ⟨listed, hlisted, hamounts⟩, (considered_iff hs (toOption_eq_some.mp hlisted)
    hworth).1.mpr ⟨?_, ?_⟩⟩
  · rintro ad - o ⟨⟨k, hget⟩, -⟩
    rw [(hmem hget).1]
    decide
  · rintro ad - o ⟨⟨k, hget⟩, -⟩ - hkind
    rw [(hmem hget).2] at hkind
    cases hkind

/-- Why no coins are chosen for one million. -/
def sampleRefusal (s : WalletDb) (unspents : List Api.Output) (confirmedHeight : Height) :
    Option CreateFault :=
  match chooseCoins sampleBuildEnv { sampleView 0 with
    tipHeight := s.tipHeight
    tipTimestamp := s.tip.timestamp
    apiAddUnspent := fun _ ↦ unspents } confirmedHeight (UnspentSelector.sampleRequest 1000000) 10 with
  | .ok _ => none
  | .error f => some f

/-- With the height of its own block the coin of five millions is shown, but it is not considered, and
funds are missing for one million. -/
theorem shown_not_considered : ∃ s, Reaches (step sampleStateEnv sampleKeys {}) Room (· = {}) s ∧
    (∃ listed ∈ sampleShown s 1, listed.2 = 5000000 ∧
      sampleRefusal s listed.1 1 = some (.build (selectionError "NOT_ENOUGH_FUNDS"))) ∧
    ¬s.Considered sampleStateEnv.currency ∅ [] 1 := by
  obtain ⟨s, hs, ⟨listed, hlisted, hrefused, o, ho, hnot⟩⟩ := reaches_of_sampleSynced
    (P := fun s ↦ ∃ listed ∈ sampleShown s 1, (listed.2 = 5000000 ∧
        sampleRefusal s listed.1 1 = some (.build (selectionError "NOT_ENOUGH_FUNDS"))) ∧
      ∃ o ∈ listed.1, Selecting.Eligible sampleStateEnv.currency s.tipHeight s.tip.timestamp 1 o = false)
    (by decide +kernel)
  refine ⟨s, hs, ⟨listed, hlisted, hrefused⟩, fun hconsidered ↦ ?_⟩
  have heligible := hconsidered.eligible _ _ _ (toOption_eq_some.mp hlisted) o ho
  cases hnot.symm.trans heligible

end Sample

end WalletDb

end CryoNero
