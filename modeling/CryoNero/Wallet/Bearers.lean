import CryoNero.Wallet.Ledger

/-!
# The outputs that have a key image

A key image can belong to several outputs of a wallet: one that can be spent, for which it stands, and
locked ones (`bearers`). When it is spent, all of them are gone, but the wallet says of one only that it is
spent. So what it says is right for a key image that belongs to a single output (`Sole`): that output is
named (`Sole.tryAddingIncomingKeyimage`), and its worth is what the balance loses
(`Sole.addIncomingKeyimage`). What the indexes have about other key images stays (`Alike`), as long as a key
image stands for no output but its own.
-/

namespace CryoNero

open Store

namespace WalletIndexes

variable {s s' t : WalletIndexes} {P : Api.Output → Prop} {keyImage ki : KeyImage}

/-! ## Outputs of a key image -/

/-- The unspent output that a key image stands for. -/
def standing (s : WalletIndexes) (keyImage : KeyImage) : Option Api.Output :=
  (s.readByKeyimage keyImage).bind s.readFromUnspentIndex

/-- The entries for the locked outputs with a key image. -/
def lockEntries (s : WalletIndexes) (keyImage : KeyImage) :
    List ((KeyImage ×ₗ Amount ×ₗ UInt32) × UnlockMoment) :=
  (s.records .lockedKeyimages).toList.filter fun e ↦ (ofLex e.1).1 = keyImage

/-- The locked output that an entry leads to. -/
def lockedAt (s : WalletIndexes) (e : (KeyImage ×ₗ Amount ×ₗ UInt32) × UnlockMoment) : Option Api.Output :=
  s.get (.locked (Currency.isTransactionSpendTimeBlock e.2)) (toLex (clampedUnlockTime e.2, (ofLex e.1).2))

/-- All outputs of the wallet that have a key image. -/
def bearers (s : WalletIndexes) (keyImage : KeyImage) : List Api.Output :=
  (s.standing keyImage).toList ++ (s.lockEntries keyImage).filterMap s.lockedAt

theorem mem_lockEntries {e : (KeyImage ×ₗ Amount ×ₗ UInt32) × UnlockMoment} :
    e ∈ s.lockEntries keyImage ↔ s.get .lockedKeyimages e.1 = some e.2 ∧ (ofLex e.1).1 = keyImage := by
  rw [lockEntries, List.mem_filter, decide_eq_true_iff]
  exact and_congr_left' Table.mem_toList

private theorem nodup_lockEntries (s : WalletIndexes) (keyImage : KeyImage) :
    (s.lockEntries keyImage).Nodup :=
  (Table.nodup_toList _).filter _

/-- There is no other output with the key image. -/
inductive Sole (s : WalletIndexes) (keyImage : KeyImage) : Api.Output → Prop
  | unspent {o : Api.Output} : s.standing keyImage = some o →
      (∀ k, (ofLex k).1 = keyImage → s.get .lockedKeyimages k = none) → Sole s keyImage o
  | locked {o : Api.Output} {k : KeyImage ×ₗ Amount ×ₗ UInt32} {u : UnlockMoment} :
      s.standing keyImage = none → (ofLex k).1 = keyImage → s.get .lockedKeyimages k = some u →
      s.lockedAt (k, u) = some o →
      (∀ k', (ofLex k').1 = keyImage → k' ≠ k → s.get .lockedKeyimages k' = none) → Sole s keyImage o

private theorem lockEntries_eq_nil (h : ∀ k, (ofLex k).1 = keyImage → s.get .lockedKeyimages k = none) :
    s.lockEntries keyImage = [] := by
  refine List.eq_nil_iff_forall_not_mem.mpr fun e he ↦ ?_
  obtain ⟨hget, hsame⟩ := mem_lockEntries.mp he
  cases (h e.1 hsame).symm.trans hget

private theorem lockEntries_eq_singleton {k : KeyImage ×ₗ Amount ×ₗ UInt32} {u : UnlockMoment}
    (hk : (ofLex k).1 = keyImage) (hget : s.get .lockedKeyimages k = some u)
    (hother : ∀ k', (ofLex k').1 = keyImage → k' ≠ k → s.get .lockedKeyimages k' = none) :
    s.lockEntries keyImage = [(k, u)] := by
  refine List.perm_singleton.mp ((List.perm_ext_iff_of_nodup (nodup_lockEntries s keyImage)
    (List.nodup_singleton _)).mpr fun e ↦ ?_)
  rw [mem_lockEntries, List.mem_singleton]
  constructor
  · rintro ⟨he, hsame⟩
    by_cases hkey : e.1 = k
    · rw [hkey, hget] at he
      exact Prod.ext hkey (Option.some.inj he).symm
    · cases (hother e.1 hsame hkey).symm.trans he
  · rintro rfl
    exact ⟨hget, hk⟩

/-- Every entry leads to a locked output that has its key image. -/
theorem Filed.lockedAt (h : Filed P s) {e : (KeyImage ×ₗ Amount ×ₗ UInt32) × UnlockMoment}
    (he : s.get .lockedKeyimages e.1 = some e.2) :
    ∃ o, s.lockedAt e = some o ∧ o.keyImage = (ofLex e.1).1 ∧ o.keyImage ≠ 0 ∧
      (ofLex e.1).2 = toLex (o.amount, o.globalIndex) ∧ s.get (lockIndex o) (lockKeyOf o) = some o := by
  obtain ⟨hzero, o, ho, hki⟩ := h.lockedKeyimages e.1 e.2 he
  obtain ⟨hkind, hkey, -⟩ := h.locked _ _ _ ho
  refine ⟨o, ho, hki, hki ▸ hzero, congrArg (fun x : HeAmGi ↦ (ofLex x).2) hkey, ?_⟩
  rw [← hkind, hkey] at ho
  exact ho

/-- A key image belongs to nothing, or to a single output. -/
theorem Filed.bearers_cases (h : Filed P s) (hone : (s.bearers keyImage).length ≤ 1) :
    (s.bearers keyImage = [] ∧ s.standing keyImage = none ∧ s.lockEntries keyImage = []) ∨
      ∃ o, s.bearers keyImage = [o] ∧ s.Sole keyImage o := by
  have hentry (e : (KeyImage ×ₗ Amount ×ₗ UInt32) × UnlockMoment) (he : e ∈ s.lockEntries keyImage) :=
    h.lockedAt (mem_lockEntries.mp he).1
  have hnone (hnil : s.lockEntries keyImage = []) (k : KeyImage ×ₗ Amount ×ₗ UInt32)
      (hk : (ofLex k).1 = keyImage) : s.get .lockedKeyimages k = none := by
    refine Option.eq_none_iff_forall_ne_some.mpr fun u hu ↦ ?_
    exact List.not_mem_nil (hnil ▸ mem_lockEntries.mpr (show s.get _ (k, u).1 = some (k, u).2 ∧ _ from ⟨hu, hk⟩))
  rw [bearers] at hone ⊢
  rcases hl : s.lockEntries keyImage with - | ⟨e, - | ⟨e', l⟩⟩
  · rw [List.filterMap_nil, List.append_nil]
    cases hstanding : s.standing keyImage with
    | none => exact .inl ⟨rfl, rfl, rfl⟩
    | some o => exact .inr ⟨o, rfl, .unspent hstanding (hnone hl)⟩
  · have he : e ∈ s.lockEntries keyImage := hl ▸ List.mem_cons_self
    obtain ⟨o, ho, -⟩ := hentry e he
    rw [hl, List.filterMap_cons_some ho, List.filterMap_nil] at hone
    rw [List.filterMap_cons_some ho, List.filterMap_nil]
    obtain ⟨hget, hsame⟩ := mem_lockEntries.mp he
    cases hstanding : s.standing keyImage with
    | none =>
      refine .inr ⟨o, rfl, .locked hstanding hsame hget ho fun k' hk' hne ↦ ?_⟩
      refine Option.eq_none_iff_forall_ne_some.mpr fun u hu ↦ hne ?_
      have hmem : (k', u) ∈ s.lockEntries keyImage := mem_lockEntries.mpr ⟨hu, hk'⟩
      rw [hl, List.mem_singleton] at hmem
      rw [← hmem]
    | some o' =>
      rw [hstanding] at hone
      exact absurd hone (by simp)
  · obtain ⟨o, ho, -⟩ := hentry e (hl ▸ List.mem_cons_self)
    obtain ⟨o', ho', -⟩ := hentry e' (hl ▸ List.mem_cons_of_mem _ List.mem_cons_self)
    rw [hl, List.filterMap_cons_some ho, List.filterMap_cons_some ho', List.length_append, List.length_cons,
      List.length_cons] at hone
    omega

/-! ## What the wallet says is spent -/

theorem tryAddingIncomingKeyimage_of_nil (hstanding : s.standing keyImage = none)
    (hnil : s.lockEntries keyImage = []) : s.tryAddingIncomingKeyimage keyImage = .ok none := by
  rw [tryAddingIncomingKeyimage, ← lockEntries, hnil]
  exact congrArg Except.ok hstanding

/-- A single output is named. -/
theorem Sole.tryAddingIncomingKeyimage (hs : Filed P s) {o : Api.Output} (h : s.Sole keyImage o) :
    s.tryAddingIncomingKeyimage keyImage = .ok (some o) := by
  rw [WalletIndexes.tryAddingIncomingKeyimage, ← lockEntries]
  rcases h with ⟨hstanding, hfree⟩ | ⟨hstanding, hk, hget, ho, hother⟩
  · rw [lockEntries_eq_nil hfree]
    exact congrArg Except.ok hstanding
  · rename_i k u
    obtain ⟨o', ho', -, -, hnumbers, -⟩ := hs.lockedAt (e := (k, u)) hget
    obtain rfl : o' = o := Option.some.inj (ho'.symm.trans ho)
    have hlock : s.get (.locked (Currency.isTransactionSpendTimeBlock u))
        (lockKey u (ofLex (ofLex k).2).1 (ofLex (ofLex k).2).2) = some o' := ho
    have hsame : o'.amount = (ofLex (ofLex k).2).1 ∧ o'.globalIndex = (ofLex (ofLex k).2).2 := by
      rw [hnumbers]
      exact ⟨rfl, rfl⟩
    have hbetter : s.betterSpending none (k, u) = .ok (some o') :=
      bind_eq_ok.mpr ⟨o', orFail_eq_ok.mpr hlock, bind_eq_ok.mpr ⟨(), ensure_pos _ hsame, rfl⟩⟩
    rw [lockEntries_eq_singleton hk hget hother, ← standing, hstanding, List.foldlM_cons, hbetter]
    rfl

/-! ## What stays -/

/-- A key image that stands for an unspent output is the key image of that output. -/
def Own (s : WalletIndexes) (keyImage : KeyImage) : Prop :=
  ∀ o ∈ s.standing keyImage, o.keyImage = keyImage

instance (s : WalletIndexes) (keyImage : KeyImage) : Decidable (s.Own keyImage) :=
  inferInstanceAs (Decidable (∀ o ∈ s.standing keyImage, o.keyImage = keyImage))

/-- An output does not have the numbers of one that a key image has spent before. -/
def Vacant (s : WalletIndexes) (keyImage : KeyImage) (output : Api.Output) : Prop :=
  ∀ heamgi ∈ s.readByKeyimage keyImage, s.readFromUnspentIndex heamgi = none →
    output.heightAmounGi.key ≠ heamgi.key

instance (s : WalletIndexes) (keyImage : KeyImage) (output : Api.Output) :
    Decidable (s.Vacant keyImage output) :=
  inferInstanceAs (Decidable (∀ heamgi ∈ s.readByKeyimage keyImage, s.readFromUnspentIndex heamgi = none →
    output.heightAmounGi.key ≠ heamgi.key))

/-- A key image stands for what it stood for. -/
structure Alike (keyImage : KeyImage) (s t : WalletIndexes) : Prop where
  known : t.readByKeyimage keyImage = s.readByKeyimage keyImage
  unspents : ∀ heamgi, s.readByKeyimage keyImage = some heamgi →
    t.readFromUnspentIndex heamgi = s.readFromUnspentIndex heamgi

/-- A key image has the locked outputs that it had. -/
structure AlikeLocked (keyImage : KeyImage) (s t : WalletIndexes) : Prop where
  entries : ∀ k, (ofLex k).1 = keyImage → t.get .lockedKeyimages k = s.get .lockedKeyimages k
  outputs : ∀ e, (ofLex e.1).1 = keyImage → s.get .lockedKeyimages e.1 = some e.2 →
    t.lockedAt e = s.lockedAt e

theorem Alike.refl : Alike ki s s := ⟨rfl, fun _ _ ↦ rfl⟩

theorem Alike.trans (h : Alike ki s t) (h' : Alike ki t s') : Alike ki s s' :=
  ⟨h'.known.trans h.known, fun heamgi hki ↦
    (h'.unspents heamgi (h.known.trans hki)).trans (h.unspents heamgi hki)⟩

theorem Alike.of_get (hki : t.get .keyimages ki = s.get .keyimages ki)
    (hun : ∀ k, t.get .unspents k = s.get .unspents k) : Alike ki s t := ⟨hki, fun _ _ ↦ hun _⟩

theorem Alike.standing (h : Alike ki s t) : t.standing ki = s.standing ki := by
  rw [WalletIndexes.standing, WalletIndexes.standing, h.known]
  cases hki : s.readByKeyimage ki with
  | none => rfl
  | some heamgi => exact h.unspents heamgi hki

theorem Alike.own (h : Alike ki s t) (hown : s.Own ki) : t.Own ki :=
  fun o ho ↦ hown o (h.standing.symm.trans ho)

theorem Alike.vacant (h : Alike ki s t) {output : Api.Output} (hvacant : s.Vacant ki output) :
    t.Vacant ki output := by
  intro heamgi hki hnone
  rw [h.known] at hki
  exact hvacant heamgi hki ((h.unspents heamgi hki).symm.trans hnone)

theorem Alike.tryAddIncomingOutput {output : Api.Output} (h : Alike output.keyImage s t) :
    t.tryAddIncomingOutput output = s.tryAddIncomingOutput output := by
  rw [WalletIndexes.tryAddIncomingOutput, WalletIndexes.tryAddIncomingOutput, h.known]
  cases hki : s.readByKeyimage output.keyImage with
  | none => rfl
  | some heamgi =>
    dsimp only
    rw [h.unspents heamgi hki]

theorem AlikeLocked.trans (h : AlikeLocked ki s t) (h' : AlikeLocked ki t s') : AlikeLocked ki s s' :=
  ⟨fun k hk ↦ (h'.entries k hk).trans (h.entries k hk), fun e he hget ↦
    (h'.outputs e he ((h.entries e.1 he).trans hget)).trans (h.outputs e he hget)⟩

theorem AlikeLocked.of_get (hli : ∀ k, t.get .lockedKeyimages k = s.get .lockedKeyimages k)
    (hlo : ∀ b k, t.get (.locked b) k = s.get (.locked b) k) : AlikeLocked ki s t :=
  ⟨fun k _ ↦ hli k, fun _ _ _ ↦ hlo _ _⟩

theorem Sole.alike {o : Api.Output} (h : s.Sole ki o) (halike : Alike ki s t)
    (hlocked : AlikeLocked ki s t) : t.Sole ki o := by
  rcases h with ⟨hstanding, hfree⟩ | ⟨hstanding, hk, hget, ho, hother⟩
  · exact .unspent (halike.standing.trans hstanding) fun k hk ↦ (hlocked.entries k hk).trans (hfree k hk)
  · exact .locked (halike.standing.trans hstanding) hk ((hlocked.entries _ hk).trans hget)
      ((hlocked.outputs (_, _) hk hget).trans ho)
      fun k' hk' hne ↦ (hlocked.entries k' hk').trans (hother k' hk' hne)

/-! ## Other key images -/

theorem standing_eq_some {o : Api.Output} : s.standing ki = some o ↔
    ∃ heamgi, s.readByKeyimage ki = some heamgi ∧ s.readFromUnspentIndex heamgi = some o :=
  Option.bind_eq_some_iff

private theorem eq_of_standing {o : Api.Output} (h : s.standing keyImage = some o)
    (h' : s.standing ki = some o)
    (hown : s.Own keyImage) (hown' : s.Own ki) : keyImage = ki := (hown o h).symm.trans (hown' o h')

theorem alike_of_changes_locks (h : Indexed.Changes (·.ofLocks = true) s s') : Alike ki s s' :=
  .of_get (get_of_changes_locks h (i := .keyimages) (.inr (.inr rfl)) _)
    fun k ↦ get_of_changes_locks h (i := .unspents) (.inl rfl) k

theorem alikeLocked_of_changes_unspents (h : Indexed.Changes (·.ofUnspents = true) s s') :
    AlikeLocked ki s s' :=
  .of_get (fun k ↦ get_of_changes_unspents h (i := .lockedKeyimages) (.inl rfl) k)
    fun b k ↦ get_of_changes_unspents h (i := .locked b) (.inr ⟨b, rfl⟩) k

private theorem Filed.alike_removeFromUnspentIndex (h : Filed P s) {o : Api.Output}
    (hstanding : s.standing keyImage = some o) (hne : keyImage ≠ ki) (hown : s.Own keyImage)
    (hown' : s.Own ki) (hs' : s.removeFromUnspentIndex o = .ok s') : Alike ki s s' := by
  classical
  refine ⟨?_, fun heamgi hki ↦ ?_⟩
  · rw [readByKeyimage, removeFromUnspentIndex_cases hs']
    simp [readByKeyimage]
  · rw [readFromUnspentIndex, get_removeFromUnspentIndex hs', readFromUnspentIndex]
    split_ifs with hkey
    · obtain ⟨heamgi', -, hex⟩ := standing_eq_some.mp hstanding
      have hsame : s.readFromUnspentIndex heamgi = some o := by
        rw [readFromUnspentIndex, ← hkey]
        exact (h.get_existing hex).2
      exact absurd (eq_of_standing hstanding (standing_eq_some.mpr ⟨_, hki, hsame⟩) hown hown') hne
    · rfl

private theorem alike_addUnspent {output : Api.Output} {nooverwrite : Bool} (hvacant : s.Vacant ki output)
    (hne : output.keyImage ≠ 0 → output.keyImage ≠ ki) (hs' : s.addUnspent output nooverwrite = .ok s') :
    Alike ki s s' := by
  classical
  refine ⟨?_, fun heamgi hki ↦ ?_⟩
  · rw [readByKeyimage, get_keyimages_addUnspent hs', if_neg fun hand ↦ hne hand.1 hand.2]
    rfl
  · rw [readFromUnspentIndex, get_addUnspent hs', readFromUnspentIndex]
    split_ifs with hkey
    · obtain ⟨_, hfree, -⟩ := addUnspent_cases hs'
      exact absurd hkey (hvacant heamgi hki (by rwa [readFromUnspentIndex, ← hkey]))
    · rfl

/-- **An incoming output and other key images.** -/
theorem Filed.alike_addIncomingOutput (h : Filed P s) (hzero : s.get .keyimages 0 = none)
    {output : Api.Output} {justUnlocked : Bool} {n : Amount}
    (hne : output.keyImage ≠ 0 → output.keyImage ≠ ki) (hown : s.Own output.keyImage) (hown' : s.Own ki)
    (hvacant : s.Vacant ki output) (hs' : s.addIncomingOutput output justUnlocked = .ok (s', n)) :
    Alike ki s s' := by
  obtain ⟨-, -, -, -, hlock⟩ | ⟨-, -, -, hadd⟩ |
    ⟨heamgi, existing, s₁, hki, hex, -, hless, -, -, hs₁, hadd⟩ | ⟨_, -, -, rfl, -⟩ :=
    addIncomingOutput_cases hs'
  · exact alike_of_changes_locks (changes_addToLockIndex hlock)
  · exact alike_addUnspent hvacant hne hadd
  · have hstanding : s.standing output.keyImage = some existing := standing_eq_some.mpr ⟨_, hki, hex⟩
    have hnonzero : output.keyImage ≠ 0 := by
      intro heq
      rw [readByKeyimage, heq, hzero] at hki
      cases hki
    have hfirst := h.alike_removeFromUnspentIndex hstanding (hne hnonzero) hown hown' hs₁
    exact hfirst.trans (alike_addUnspent (hfirst.vacant hvacant) hne hadd)
  · exact .refl

/-- Locked outputs of other key images stay when one is added. -/
theorem Filed.alikeLocked_addToLockIndex (h : Filed P s) {output : Api.Output} (hne : output.keyImage ≠ ki)
    (hs' : s.addToLockIndex output = .ok s') : AlikeLocked ki s s' := by
  classical
  refine ⟨fun k hk ↦ ?_, fun e he hget ↦ ?_⟩
  · rw [get_lockedKeyimages_addToLockIndex hs', if_neg]
    rintro ⟨-, rfl⟩
    exact hne hk
  · rw [WalletIndexes.lockedAt, get_locked_addToLockIndex hs', WalletIndexes.lockedAt, if_neg]
    rintro ⟨hkind, hkey⟩
    -- the new place was free, but the entry leads to an output
    obtain ⟨_, hfree, -⟩ := addToLockIndex_cases hs'
    obtain ⟨o, ho, -⟩ := h.lockedAt hget
    rw [WalletIndexes.lockedAt, hkind, ← hkey, hfree] at ho
    cases ho

private theorem Filed.alikeLocked_removeFromLockIndex (h : Filed P s) {output : Api.Output}
    (hget : s.get (lockIndex output) (lockKeyOf output) = some output) (hne : output.keyImage ≠ ki)
    (hs' : s.removeFromLockIndex output = .ok s') : AlikeLocked ki s s' := by
  classical
  refine ⟨fun k hk ↦ ?_, fun e he hentry ↦ ?_⟩
  · rw [get_lockedKeyimages_removeFromLockIndex hs', if_neg]
    rintro ⟨-, rfl⟩
    exact hne hk
  · rw [WalletIndexes.lockedAt, get_locked_removeFromLockIndex hs', WalletIndexes.lockedAt, if_neg]
    rintro ⟨hkind, hkey⟩
    obtain ⟨o, ho, hki, -⟩ := h.lockedAt hentry
    rw [WalletIndexes.lockedAt, hkind, ← hkey, hget] at ho
    rw [← Option.some.inj ho, he] at hki
    exact hne hki

/-! ## Spending -/

/-- What the wallet loses by a spent key image, and what it knows about other key images afterwards. -/
structure Loses (keyImage : KeyImage) (o : Api.Output) (s s' : WalletIndexes) : Prop where
  holdings : s'.holdings = s.holdings - credit o.address (coins o.amount)
  alike : ∀ ki, ki ≠ keyImage → s.Own ki → Alike ki s s'
  locked : ∀ ki, ki ≠ keyImage → AlikeLocked ki s s'

/-- A locked output that opens, and is the only one with its key image, is there to be spent, unless its key
image was spent before. -/
private theorem Filed.unlockOutput_alone (h : Filed P s) {height : Height} {o : Api.Output}
    (hget : s.get (lockIndex o) (lockKeyOf o) = some o) (hzero : o.keyImage ≠ 0)
    (hstanding : s.standing o.keyImage = none) (hs' : s.unlockOutput height o = .ok s') :
    s'.standing o.keyImage = none ∧ s'.holdings = s.holdings - credit o.address (coins o.amount) ∧
        (∀ ki, Alike ki s s') ∨
      s'.standing o.keyImage = some o ∧ s'.holdings = s.holdings ∧ s.get .unspents o.heightAmounGi.key = none ∧
        (∀ ki, ki ≠ o.keyImage → s'.get .keyimages ki = s.get .keyimages ki) ∧
        ∀ k, k ≠ o.heightAmounGi.key → s'.get .unspents k = s.get .unspents k := by
  classical
  obtain ⟨s₁, s₂, n, hs₁, hs₂, hholdings⟩ := h.holdings_unlockOutput hget hs'
  obtain ⟨_, _, _, hs₁', hs₂', rfl⟩ := unlockOutput_cases hs'
  cases hs₁.symm.trans hs₁'
  cases hs₂.symm.trans hs₂'
  have hfirst (ki : KeyImage) : Alike ki s s₁ := alike_of_changes_locks (changes_removeFromLockIndex hs₁)
  set s₃ : WalletIndexes := Indexed.put s₂ .unlocked (toLex (height, toLex (o.amount, o.globalIndex)))
    { o with amount := n } with hs₃
  have hput (i : WalletIndex) (hi : i ≠ .unlocked) (k : i.Key) : s₃.get i k = s₂.get i k :=
    Indexed.get_put_of_ne hi k
  have hlast (ki : KeyImage) : Alike ki s₂ s₃ :=
    .of_get (hput .keyimages nofun ki) fun k ↦ hput .unspents nofun k
  obtain ⟨-, hnot, -⟩ | ⟨-, -, hn, hadd⟩ | ⟨heamgi, existing, _, hki, hex, -⟩ | ⟨_, -, hn, hsame, -⟩ :=
    addIncomingOutput_cases hs₂
  · cases hnot
  · -- nothing was known about the key image, and the output becomes unspent
    have hun (k : HeAmGi) := get_addUnspent hadd k
    obtain ⟨_, hfree, -⟩ := addUnspent_cases hadd
    have hbefore (k : HeAmGi) : s₁.get .unspents k = s.get .unspents k :=
      get_of_changes_locks (changes_removeFromLockIndex hs₁) (i := .unspents) (.inl rfl) k
    have hkibefore (ki : KeyImage) : s₁.get .keyimages ki = s.get .keyimages ki :=
      get_of_changes_locks (changes_removeFromLockIndex hs₁) (i := .keyimages) (.inr (.inr rfl)) ki
    refine .inr ⟨?_, ?_, (hbefore _).symm.trans hfree, fun ki hne ↦ ?_, fun k hne ↦ ?_⟩
    · rw [(hlast _).standing, standing_eq_some]
      refine ⟨o.heightAmounGi, ?_, ?_⟩
      · rw [readByKeyimage, get_keyimages_addUnspent hadd, if_pos ⟨hzero, rfl⟩]
      · rw [readFromUnspentIndex, hun, if_pos rfl]
    · rw [hholdings, hn, sub_add_cancel]
    · rw [hput .keyimages nofun, get_keyimages_addUnspent hadd, if_neg fun hand ↦ hne hand.2.symm, hkibefore]
    · rw [hput .unspents nofun, hun, if_neg hne.symm, hbefore]
  · have hknown := standing_eq_some.mpr ⟨_, hki, hex⟩
    rw [(hfirst _).standing, hstanding] at hknown
    cases hknown
  · subst hsame
    refine .inl ⟨?_, ?_, fun ki ↦ (hfirst ki).trans (hlast ki)⟩
    · rw [(hlast _).standing, (hfirst _).standing, hstanding]
    · rw [hholdings, hn, coins_zero, credit_zero, add_zero]

private theorem foundInLocked_of_nil (h : s.lockEntries keyImage = []) :
    s.foundInLocked keyImage = .ok [] := by
  rw [foundInLocked, ← lockEntries, h]
  rfl

private theorem foundInLocked_of_singleton {e : (KeyImage ×ₗ Amount ×ₗ UInt32) × UnlockMoment}
    {o : Api.Output}
    (h : s.lockEntries keyImage = [e]) (ho : s.lockedAt e = some o) : s.foundInLocked keyImage = .ok [o] := by
  have hread : orFail Fault.invariantViolated (s.lockedAt e) = .ok o := orFail_eq_ok.mpr ho
  rw [foundInLocked, ← lockEntries, h, List.mapM_cons]
  exact bind_eq_ok.mpr ⟨o, hread, rfl⟩

/-- **A spent key image takes its only output out of the wallet.** -/
theorem Sole.addIncomingKeyimage (hs : Filed P s) {o : Api.Output} (h : s.Sole keyImage o)
    (hown : s.Own keyImage) {height : Height} {n : Amount}
    (hs' : s.addIncomingKeyimage height keyImage = .ok (s', n)) : s.Loses keyImage o s' := by
  classical
  rw [WalletIndexes.addIncomingKeyimage] at hs'
  obtain ⟨found, hfound, hrest⟩ := bind_eq_ok.mp hs'
  obtain ⟨s₁, hs₁, hrest⟩ := bind_eq_ok.mp hrest
  rw [← standing] at hrest
  rcases h with ⟨hstanding, hfree⟩ | ⟨hstanding, hk, hget, ho, hother⟩
  · rw [foundInLocked_of_nil (lockEntries_eq_nil hfree)] at hfound
    cases hfound
    obtain rfl : s = s₁ := Except.ok.inj hs₁
    rw [hstanding] at hrest
    obtain ⟨s₂, hs₂, hrest⟩ := bind_eq_ok.mp hrest
    cases hrest
    refine ⟨holdings_removeFromUnspentIndex hs₂, fun ki hne hown' ↦ ?_, fun ki _ ↦ ?_⟩
    · exact hs.alike_removeFromUnspentIndex hstanding hne.symm hown hown' hs₂
    · exact alikeLocked_of_changes_unspents (changes_removeFromUnspentIndex hs₂)
  · rename_i k u
    obtain ⟨o', ho', hki, hzero, -, hlocked⟩ := hs.lockedAt (e := (k, u)) hget
    obtain rfl : o' = o := Option.some.inj (ho'.symm.trans ho)
    have hki : o'.keyImage = keyImage := hki.trans hk
    rw [foundInLocked_of_singleton (lockEntries_eq_singleton hk hget hother) ho] at hfound
    cases hfound
    rw [List.foldlM_cons] at hs₁
    obtain ⟨t, ht, hs₁⟩ := bind_eq_ok.mp hs₁
    obtain rfl : t = s₁ := Except.ok.inj hs₁
    obtain ⟨_, _, _, hremoved, hadded, hput⟩ := unlockOutput_cases ht
    have hlocks (ki : KeyImage) (hne : ki ≠ keyImage) : AlikeLocked ki s t := by
      refine (hs.alikeLocked_removeFromLockIndex hlocked (hki ▸ hne.symm) hremoved).trans ?_
      refine (alikeLocked_of_changes_unspents (changes_addIncomingOutput_unspents (.inr rfl) hadded)).trans ?_
      rw [hput]
      exact .of_get (fun _ ↦ Indexed.get_put_of_ne (by simp) _) fun _ _ ↦ Indexed.get_put_of_ne (by simp) _
    rw [← hki] at hstanding hrest
    obtain ⟨hnone, hholdings, halike⟩ | ⟨hsome, hholdings, hvacant, hkeyimages, hunspents⟩ :=
      hs.unlockOutput_alone hlocked hzero hstanding ht
    · rw [hnone] at hrest
      cases hrest
      exact ⟨hholdings, fun ki _ _ ↦ halike ki, hlocks⟩
    · rw [hsome] at hrest
      obtain ⟨s₂, hs₂, hrest⟩ := bind_eq_ok.mp hrest
      cases hrest
      refine ⟨?_, fun ki hne _ ↦ .of_get ?_ fun x ↦ ?_, fun ki hne ↦ ?_⟩
      · rw [holdings_removeFromUnspentIndex hs₂, hholdings]
      · rw [← hkeyimages ki (hki ▸ hne), removeFromUnspentIndex_cases hs₂]
        simp
      · -- the output was not among the unspent ones before
        rw [get_removeFromUnspentIndex hs₂]
        split_ifs with hx
        · rw [← hx, hvacant]
        · exact hunspents x (Ne.symm hx)
      · exact (hlocks ki hne).trans (alikeLocked_of_changes_unspents (changes_removeFromUnspentIndex hs₂))

end WalletIndexes

end CryoNero
