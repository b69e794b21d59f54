import CryoNero.Core.BlockChainFileFormat
import CryoNero.Store.Schedules

/-!
# Reading ahead

What the two threads of an import do together. Blocks are loaded in the order of their heights and
taken in that order, so what is prepared at any time is a window of consecutive blocks: it starts with
the block that is taken next (`ImportState.lower`) and ends before the one that is stored next
(`ImportState.upper`).

The thread that reads ahead looks at the height that was asked for last and at the total size of the
window, and never at the number of blocks. It stays within the files when there are enough blocks above
the last one that is wanted, in number or in size (`Roomy`). Then the import ends at that block whatever
the schedule is. Otherwise there is a schedule in which it goes beyond.
-/

namespace CryoNero

open Seria Store

/-- The files have so many blocks above `last` that reading ahead ends before they do. -/
def Roomy (size : ℕ → ℕ) (last blocks : ℕ) : Prop :=
  last < blocks ∧ (last + maxPreloadBlocks < blocks ∨
    maxPreloadTotalSize < ∑ i ∈ Finset.Ico (last + 1) blocks, size i)

theorem roomy_congr {size size' : ℕ → ℕ} {last blocks : ℕ} (h : ∀ i < blocks, size i = size' i) :
    Roomy size last blocks ↔ Roomy size' last blocks := by
  unfold Roomy
  rw [Finset.sum_congr rfl fun i hi ↦ h i (Finset.mem_Ico.mp hi).2]

/-- What the files give: `blocks` many blocks, and nothing beyond. -/
structure Feeds (fetch : ℕ → Except Failure PreparedBlock) (block : ℕ → PreparedBlock) (blocks : ℕ) :
    Prop where
  held : ∀ i < blocks, fetch i = .ok (block i)
  beyond : blocks < 2 ^ 32 - 1 → ∀ i, blocks ≤ i → i < 2 ^ 32 → fetch i = .error .outOfRange

/-- A node that takes the blocks above `start` one after the other, and the states it goes through. -/
structure Grows (env : Env) (now : Height → Timestamp) (block : ℕ → PreparedBlock) (node : ℕ → State)
    (start blocks : ℕ) : Prop where
  tip : ∀ i, start ≤ i → i < blocks → (node i).chain.tip.tipHeight.toNat = i
  add : ∀ i, start ≤ i → i + 1 < blocks → ∃ info,
    (node i).addBlock env (now ((node i).chain.tip.tipHeight + 1)) (block (i + 1)) =
      .ok (node (i + 1), .broadcastAll, info)

theorem Grows.mono {env : Env} {now : Height → Timestamp} {block : ℕ → PreparedBlock} {node : ℕ → State}
    {start blocks total : ℕ} (h : Grows env now block node start total) (hle : blocks ≤ total) :
    Grows env now block node start blocks :=
  ⟨fun i hstart hi ↦ h.tip i hstart (hi.trans_le hle), fun i hstart hi ↦ h.add i hstart (hi.trans_le hle)⟩

namespace ImportState

/-- The block that the main thread takes next. -/
def lower (st : ImportState) : ℕ :=
  match st.main with
  | .adding _ => st.tip + 2
  | _ => st.tip + 1

/-- The block that the other thread stores next. -/
def upper (st : ImportState) : ℕ :=
  match st.thread with
  | .loading i | .storing i _ => i
  | _ => st.toLoad

/-- The prepared blocks. -/
structure Window (block : ℕ → PreparedBlock) (blocks : ℕ) (st : ImportState) : Prop where
  prepared : ∀ i, st.preparedBlocks[i]? = if st.lower ≤ i ∧ i < st.upper then some (block i) else none
  total : st.totalPreparedDataSize = ∑ i ∈ Finset.Ico st.lower st.upper, (block i).blockData.length
  le : st.lower ≤ st.upper
  upper_le : st.upper ≤ blocks

/-- Where the main thread is on its way from `start` to `last`. -/
def MainSound (block : ℕ → PreparedBlock) (node : ℕ → State) (start last : ℕ) (st : ImportState) : Prop :=
  match st.main with
  | .looping => st.node = node st.tip ∧ start ≤ st.tip ∧ st.tip ≤ last ∧ st.quit = false
  | .waiting i =>
    i = st.tip + 1 ∧ st.lastLoadHeight = i ∧ st.node = node st.tip ∧ start ≤ st.tip ∧ st.tip < last ∧
      st.quit = false
  | .adding pb =>
    pb = block (st.tip + 1) ∧ st.node = node st.tip ∧ start ≤ st.tip ∧ st.tip < last ∧ st.quit = false
  | .leaving result | .returned result => result = .ok true ∧ st.tip = last ∧ st.quit = true

/-- Where the other thread is. When it waits and the main thread does too, it has enough. -/
def ThreadSound (block : ℕ → PreparedBlock) (start blocks : ℕ) (st : ImportState) : Prop :=
  match st.thread with
  | .absent =>
    st.main = .looping ∧ st.tip = start ∧ st.nextLoadHeight = 0 ∧ st.preparedBlocks = ∅ ∧
      st.totalPreparedDataSize = 0
  | .choosing => st.nextLoadHeight = 0 → ∃ i, st.main = .waiting i
  | .waiting => st.nextLoadHeight ≠ 0 ∧ st.quit = false ∧ ∀ i, st.main = .waiting i → st.Ahead
  | .loading i => st.nextLoadHeight = i + 1 ∧ i < blocks
  | .storing i pb => st.nextLoadHeight = i + 1 ∧ i < blocks ∧ pb = block i
  | .ended => st.quit = true
  | .threw _ => False

structure Sound (block : ℕ → PreparedBlock) (node : ℕ → State) (start last blocks : ℕ) (st : ImportState) :
    Prop where
  main : st.MainSound block node start last
  thread : st.ThreadSound block start blocks
  window : st.thread ≠ .absent → st.Window block blocks
  last_le : st.lastLoadHeight ≤ last
  next_le : st.nextLoadHeight ≤ last + maxPreloadBlocks + 1

variable {env : Env} {now : Height → Timestamp} {block : ℕ → PreparedBlock} {node : ℕ → State}
  {start last blocks : ℕ} {fetch : ℕ → Except Failure PreparedBlock} {st st' : ImportState}

/-! ## The steps -/

private theorem threadStep_cases (h : st.threadStep fetch = some st') :
    (st.thread = .choosing ∧ st.quit = true ∧ st' = { st with thread := .ended }) ∨
    (st.thread = .choosing ∧ st.quit = false ∧ st.Ahead ∧ st' = st.sleep) ∨
    (st.thread = .choosing ∧ st.quit = false ∧ ¬st.Ahead ∧ st' = st.load) ∨
    (∃ i pb, st.thread = .loading i ∧ fetch i = .ok pb ∧ st' = { st with thread := .storing i pb }) ∨
    (∃ i e, st.thread = .loading i ∧ fetch i = .error e ∧ st' = { st with thread := .threw e }) ∨
    ∃ i pb, st.thread = .storing i pb ∧ st' = st.store i pb := by
  unfold threadStep at h
  rcases hthread : st.thread with _ | _ | _ | i | ⟨i, pb⟩ | _ | e <;> rw [hthread] at h
  · cases h
  · dsimp only at h
    rcases hquit : st.quit with _ | _ <;> rw [hquit] at h
    · by_cases hahead : st.Ahead
      · rw [if_neg Bool.false_ne_true, if_pos hahead] at h
        exact .inr (.inl ⟨rfl, rfl, hahead, (Option.some.inj h).symm⟩)
      · rw [if_neg Bool.false_ne_true, if_neg hahead] at h
        exact .inr (.inr (.inl ⟨rfl, rfl, hahead, (Option.some.inj h).symm⟩))
    · rw [if_pos rfl] at h
      exact .inl ⟨rfl, rfl, (Option.some.inj h).symm⟩
  · cases h
  · dsimp only at h
    rcases hfetch : fetch i with e | pb <;> rw [hfetch] at h
    · exact .inr (.inr (.inr (.inr (.inl ⟨i, e, rfl, hfetch, (Option.some.inj h).symm⟩))))
    · exact .inr (.inr (.inr (.inl ⟨i, pb, rfl, hfetch, (Option.some.inj h).symm⟩)))
  · exact .inr (.inr (.inr (.inr (.inr ⟨i, pb, rfl, (Option.some.inj h).symm⟩))))
  · cases h
  · cases h

/-- What the main thread does. -/
theorem mainStep_cases (h : st.mainStep env now last = some st') :
    (st.main = .looping ∧ st.tip < last ∧ st' = st.request (st.tip + 1)) ∨
    (st.main = .looping ∧ last ≤ st.tip ∧
      st' = ({ st with node := st.node.dbCommit } : ImportState).leave (.ok true)) ∨
    (∃ i pb, st.main = .waiting i ∧ st.preparedBlocks[i]? = some pb ∧ st' = st.take i pb) ∨
    (∃ pb, st.main = .adding pb ∧
      ((∃ s info, st.node.addBlock env (now (st.node.chain.tip.tipHeight + 1)) pb =
          .ok (s, .broadcastAll, info) ∧ st' = { st with node := s, main := .looping }) ∨
        ∀ s info, st.node.addBlock env (now (st.node.chain.tip.tipHeight + 1)) pb ≠
          .ok (s, .broadcastAll, info))) ∨
    ∃ result, st.main = .leaving result ∧ (st.thread = .absent ∨ st.thread = .ended) ∧
      st' = { st with main := .returned result } := by
  unfold mainStep at h
  rcases hmain : st.main with _ | i | pb | result | result <;> rw [hmain] at h
  · dsimp only at h
    by_cases hlt : st.tip < last
    · rw [if_pos hlt] at h
      exact .inl ⟨rfl, hlt, (Option.some.inj h).symm⟩
    · rw [if_neg hlt] at h
      exact .inr (.inl ⟨rfl, not_lt.mp hlt, (Option.some.inj h).symm⟩)
  · obtain ⟨pb, hpb, rfl⟩ := Option.map_eq_some_iff.mp h
    exact .inr (.inr (.inl ⟨i, pb, rfl, hpb, rfl⟩))
  · refine .inr (.inr (.inr (.inl ⟨pb, rfl, ?_⟩)))
    dsimp only at h
    rcases hadd : st.node.addBlock env (now (st.node.chain.tip.tipHeight + 1)) pb with e | ⟨s, a, info⟩
    · exact .inr fun _ _ h' ↦ by cases h'
    · rw [hadd] at h
      rcases a with _ | _ | _
      · exact .inl ⟨s, info, rfl, (Option.some.inj h).symm⟩
      · exact .inr fun _ _ h' ↦ by cases h'
      · exact .inr fun _ _ h' ↦ by cases h'
  · refine .inr (.inr (.inr (.inr ⟨result, rfl, ?_⟩)))
    dsimp only at h
    rcases hthread : st.thread with _ | _ | _ | i | ⟨i, pb⟩ | _ | e <;> rw [hthread] at h <;>
      first
      | exact ⟨.inl rfl, (Option.some.inj h).symm⟩
      | exact ⟨.inr rfl, (Option.some.inj h).symm⟩
      | cases h
  · cases h

/-! ## The window -/

theorem Window.congr (h : st.Window block blocks) (hprepared : st'.preparedBlocks = st.preparedBlocks)
    (htotal : st'.totalPreparedDataSize = st.totalPreparedDataSize) (hlower : st'.lower = st.lower)
    (hupper : st'.upper = st.upper) : st'.Window block blocks where
  prepared := by rw [hprepared, hlower, hupper]; exact h.prepared
  total := by rw [htotal, hlower, hupper]; exact h.total
  le := by rw [hlower, hupper]; exact h.le
  upper_le := by rw [hupper]; exact h.upper_le

private theorem window_empty (hprepared : st.preparedBlocks = ∅) (htotal : st.totalPreparedDataSize = 0)
    (heq : st.upper = st.lower) (hle : st.lower ≤ blocks) : st.Window block blocks where
  prepared := by
    intro i
    rw [hprepared, heq, if_neg (by omega)]
    exact Std.ExtTreeMap.getElem?_empty
  total := by rw [htotal, heq, Finset.Ico_self, Finset.sum_empty]
  le := heq.ge
  upper_le := heq.trans_le hle

private theorem Window.eq_of_none (h : st.Window block blocks)
    (hnone : st.preparedBlocks[st.lower]? = none) :
    st.upper = st.lower := by
  by_contra hne
  have hlt : st.lower < st.upper := lt_of_le_of_ne h.le (Ne.symm hne)
  rw [h.prepared, if_pos ⟨le_refl _, hlt⟩] at hnone
  cases hnone

theorem Window.take (h : st.Window block blocks) {pb : PreparedBlock}
    (hmain : st.main = .waiting st.lower) (hpb : st.preparedBlocks[st.lower]? = some pb) :
    pb = block st.lower ∧ st.lower < st.upper ∧ (st.take st.lower pb).Window block blocks := by
  have hlower : (st.take st.lower pb).lower = st.lower + 1 := by
    unfold lower ImportState.take
    rw [hmain]
    rfl
  have hupper : (st.take st.lower pb).upper = st.upper := rfl
  rw [h.prepared] at hpb
  split_ifs at hpb with hin
  obtain rfl := (Option.some.inj hpb).symm
  refine ⟨rfl, hin.2, fun i ↦ ?_, ?_, ?_, h.upper_le⟩
  · rw [hlower, hupper]
    change (st.preparedBlocks.erase st.lower)[i]? = _
    rw [Table.get_erase, h.prepared]
    -- the block that is taken leaves the window, and no other one does
    split_ifs <;> first | rfl | omega
  · rw [hlower, hupper]
    change st.totalPreparedDataSize - (block st.lower).blockData.length = _
    rw [h.total, Finset.sum_eq_sum_Ico_succ_bot hin.2, Nat.add_sub_cancel_left]
  · rw [hlower, hupper]
    exact hin.2

theorem Window.store (h : st.Window block blocks) {i : ℕ} {pb : PreparedBlock}
    (hthread : st.thread = .storing i pb) (hpb : pb = block i) (hnext : st.nextLoadHeight = i + 1)
    (hlt : i < blocks) : (st.store i pb).Window block blocks := by
  have hupper : st.upper = i := by
    unfold upper
    rw [hthread]
  have hupper' : (st.store i pb).upper = i + 1 := by
    change (st.store i pb).toLoad = i + 1
    rw [toLoad]
    change (if st.nextLoadHeight = 0 then st.lastLoadHeight else st.nextLoadHeight) = i + 1
    rw [hnext, if_neg (Nat.succ_ne_zero i)]
  have hlower : (st.store i pb).lower = st.lower := rfl
  have hle := h.le
  rw [hupper] at hle
  refine ⟨fun j ↦ ?_, ?_, ?_, ?_⟩
  · rw [hlower, hupper']
    change (st.preparedBlocks.insert i pb)[j]? = _
    rw [Table.get_insert, h.prepared, hupper, hpb]
    by_cases hij : i = j
    · rw [if_pos hij, if_pos (by omega), hij]
    · rw [if_neg hij]
      exact if_congr (by omega) rfl rfl
  · rw [hlower, hupper']
    change st.totalPreparedDataSize + pb.blockData.length = _
    rw [h.total, hupper, Finset.sum_Ico_succ_top hle, hpb]
  · rw [hlower, hupper']
    omega
  · rw [hupper']
    exact hlt

/-! ## Steps of the thread that reads ahead -/

theorem MainSound.congr (h : st.MainSound block node start last) (hnode : st'.node = st.node)
    (hmain : st'.main = st.main) (hquit : st'.quit = st.quit)
    (hlast : st'.lastLoadHeight = st.lastLoadHeight) : st'.MainSound block node start last := by
  have htip : st'.tip = st.tip := by rw [tip, tip, hnode]
  unfold MainSound at h ⊢
  rw [hmain, hnode, htip, hquit, hlast]
  exact h

private theorem MainSound.lower_le (h : st.MainSound block node start last) (hquit : st.quit = false) :
    st.lower ≤ last + 1 := by
  unfold MainSound at h
  unfold lower
  rcases hmain : st.main with _ | i | pb | result | result <;> rw [hmain] at h <;> dsimp only at h ⊢
  · have := h.2.2.1
    omega
  · have := h.2.2.2.2.1
    omega
  · have := h.2.2.2.1
    omega
  · rw [hquit] at h
    exact absurd h.2.2 Bool.false_ne_true
  · rw [hquit] at h
    exact absurd h.2.2 Bool.false_ne_true

/-- **The thread stays within the files.** What it would load is not beyond the last block: it has loaded
all blocks up to there already, and they are too many or too large. -/
private theorem Sound.toLoad_lt (h : st.Sound block node start last blocks)
    (hroomy : Roomy (fun i ↦ (block i).blockData.length) last blocks) (hthread : st.thread = .choosing)
    (hquit : st.quit = false) (hahead : ¬st.Ahead) : st.toLoad < blocks := by
  have hwindow := h.window (by rw [hthread]; exact ThreadPlace.noConfusion)
  have hupper : st.upper = st.toLoad := by
    unfold upper
    rw [hthread]
  rw [Ahead, not_or, not_lt, not_lt] at hahead
  obtain ⟨hnear, hlight⟩ := hahead
  have hle := hwindow.upper_le
  rw [hupper] at hle
  refine lt_of_le_of_ne hle fun heq ↦ ?_
  have hlast := h.last_le
  rcases hroomy.2 with hmany | hlarge
  · omega
  · have hsub : Finset.Ico (last + 1) blocks ⊆ Finset.Ico st.lower blocks :=
      Finset.Ico_subset_Ico_left (h.main.lower_le hquit)
    have hsum := Finset.sum_le_sum_of_subset (f := fun i ↦ (block i).blockData.length) hsub
    have htotal := hwindow.total
    rw [hupper, heq] at htotal
    rw [← htotal] at hsum
    exact absurd (hlarge.trans_le hsum) (not_lt.mpr hlight)

/-- A thread that has loaded nothing yet does not have enough. -/
theorem Sound.nextLoadHeight_ne_zero (h : st.Sound block node start last blocks)
    (hthread : st.thread = .choosing) (hahead : st.Ahead) : st.nextLoadHeight ≠ 0 := by
  intro hzero
  have hwindow := h.window (by rw [hthread]; exact ThreadPlace.noConfusion)
  have hthreadSound := h.thread
  have hmainSound := h.main
  unfold ThreadSound at hthreadSound
  rw [hthread] at hthreadSound
  obtain ⟨i, hmain⟩ := hthreadSound hzero
  unfold MainSound at hmainSound
  rw [hmain] at hmainSound
  obtain ⟨rfl, hlastLoad, -⟩ := hmainSound
  have htoLoad : st.toLoad = st.lastLoadHeight := by rw [toLoad, if_pos hzero]
  have hupper : st.upper = st.lower := by
    unfold upper lower
    rw [hthread, hmain]
    exact htoLoad.trans hlastLoad
  have htotal := hwindow.total
  rw [hupper, Finset.Ico_self, Finset.sum_empty] at htotal
  rcases hahead with hfar | hlarge
  · rw [htoLoad] at hfar
    omega
  · rw [htotal] at hlarge
    exact absurd hlarge (Nat.not_lt_zero _)

theorem Sound.threadStep (hfeeds : Feeds fetch block blocks)
    (hroomy : Roomy (fun i ↦ (block i).blockData.length) last blocks)
    (h : st.Sound block node start last blocks) (hstep : st.threadStep fetch = some st') :
    st'.Sound block node start last blocks := by
  have hlast := h.last_le
  have hthreadSound := h.thread
  unfold ThreadSound at hthreadSound
  rcases threadStep_cases hstep with ⟨hthread, hquit, rfl⟩ | ⟨hthread, hquit, hahead, rfl⟩ |
      ⟨hthread, hquit, hahead, rfl⟩ | ⟨i, pb, hthread, hfetch, rfl⟩ | ⟨i, e, hthread, hfetch, rfl⟩ |
      ⟨i, pb, hthread, rfl⟩ <;>
    rw [hthread] at hthreadSound <;>
    have hwindow := h.window (by rw [hthread]; exact ThreadPlace.noConfusion)
  · refine ⟨h.main.congr rfl rfl rfl rfl, hquit, fun _ ↦ hwindow.congr rfl rfl rfl ?_, hlast, h.next_le⟩
    unfold upper
    rw [hthread]
    rfl
  · have hne := h.nextLoadHeight_ne_zero hthread hahead
    have htoLoad : st.toLoad = st.nextLoadHeight := by rw [toLoad, if_neg hne]
    have hsleep : st.sleep = { st with thread := .waiting } := by rw [sleep, htoLoad]
    rw [hsleep]
    refine ⟨h.main.congr rfl rfl rfl rfl, ⟨hne, hquit, fun _ _ ↦ hahead⟩,
      fun _ ↦ hwindow.congr rfl rfl rfl ?_, hlast, h.next_le⟩
    unfold upper
    rw [hthread]
    rfl
  · have hlt := h.toLoad_lt hroomy hthread hquit hahead
    rw [Ahead, not_or, not_lt] at hahead
    refine ⟨h.main.congr rfl rfl rfl rfl, ⟨rfl, hlt⟩, fun _ ↦ hwindow.congr rfl rfl rfl ?_, hlast, ?_⟩
    · unfold upper
      rw [hthread]
      rfl
    · change st.toLoad + 1 ≤ _
      omega
  · rw [hfeeds.held i hthreadSound.2] at hfetch
    obtain rfl := Except.ok.inj hfetch
    refine ⟨h.main.congr rfl rfl rfl rfl, ⟨hthreadSound.1, hthreadSound.2, rfl⟩,
      fun _ ↦ hwindow.congr rfl rfl rfl ?_, hlast, h.next_le⟩
    unfold upper
    rw [hthread]
  · rw [hfeeds.held i hthreadSound.2] at hfetch
    cases hfetch
  · obtain ⟨hnext, hlt, hpb⟩ := hthreadSound
    refine ⟨h.main.congr rfl rfl rfl rfl, fun hzero ↦ ?_, fun _ ↦ hwindow.store hthread hpb hnext hlt,
      hlast, h.next_le⟩
    change st.nextLoadHeight = 0 at hzero
    omega

/-! ## Steps of the main thread -/

theorem ThreadSound.present (h : st.ThreadSound block start blocks) (hmain : st.main ≠ .looping) :
    st.thread ≠ .absent := by
  intro hthread
  unfold ThreadSound at h
  rw [hthread] at h
  exact hmain h.1

/-- Once the main thread is past its first request, the other thread has chosen a block, unless the main
thread waits for that one. -/
theorem ThreadSound.nextLoadHeight_ne_zero (h : st.ThreadSound block start blocks)
    (hmain : ∀ i, st.main ≠ .waiting i)
    (hthread : st.thread = .choosing ∨ st.thread = .waiting) : st.nextLoadHeight ≠ 0 := by
  unfold ThreadSound at h
  rcases hthread with hthread | hthread <;> rw [hthread] at h
  · intro hzero
    obtain ⟨i, hi⟩ := h hzero
    exact hmain i hi
  · exact h.1

/-- What the main thread may change without a concern for the other one. -/
theorem ThreadSound.congr (h : st.ThreadSound block start blocks) (hpresent : st.thread ≠ .absent)
    (hthread : st'.thread = st.thread) (hnext : st'.nextLoadHeight = st.nextLoadHeight)
    (hquit : st'.quit = st.quit) (hmain : ∀ i, st'.main ≠ .waiting i)
    (hne : st.thread = .choosing → st.nextLoadHeight ≠ 0) : st'.ThreadSound block start blocks := by
  unfold ThreadSound at h ⊢
  rw [hthread]
  rcases hplace : st.thread with _ | _ | _ | i | ⟨i, pb⟩ | _ | e <;> rw [hplace] at h <;>
    dsimp only at h ⊢
  · exact absurd hplace hpresent
  · intro hzero
    exact absurd (hnext.symm.trans hzero) (hne hplace)
  · rw [hnext, hquit]
    exact ⟨h.1, h.2.1, fun i hi ↦ absurd hi (hmain i)⟩
  · rwa [hnext]
  · rwa [hnext]
  · rwa [hquit]

/-- Waking the other thread leaves what it is about to do. -/
theorem Sound.woken (h : st.Sound block node start last blocks) (hmain : st.main = .looping)
    (hpresent : st.thread ≠ .absent) (st' : ImportState) (hthread : st'.thread = woken st.thread)
    (hnext : st'.nextLoadHeight = st.nextLoadHeight) :
    st'.ThreadSound block start blocks ∧ st'.upper = st.upper ∧ st'.thread ≠ .waiting := by
  have hthreadSound := h.thread
  have hmainSound := h.main
  have hne := hthreadSound.nextLoadHeight_ne_zero (fun i hi ↦ by rw [hmain] at hi; cases hi)
  unfold MainSound at hmainSound
  rw [hmain] at hmainSound
  unfold ThreadSound at hthreadSound
  unfold ThreadSound upper toLoad
  rw [hthread, hnext]
  rcases hplace : st.thread with _ | _ | _ | i | ⟨i, pb⟩ | _ | e <;> rw [hplace] at hthreadSound
  · exact absurd hplace hpresent
  · have := hne (.inl hplace)
    exact ⟨fun hzero ↦ absurd hzero this, (if_neg this).trans (if_neg this).symm,
      ThreadPlace.noConfusion⟩
  · have := hne (.inr hplace)
    exact ⟨fun hzero ↦ absurd hzero this, (if_neg this).trans (if_neg this).symm,
      ThreadPlace.noConfusion⟩
  · exact ⟨hthreadSound, rfl, ThreadPlace.noConfusion⟩
  · exact ⟨hthreadSound, rfl, ThreadPlace.noConfusion⟩
  · exact absurd (hmainSound.2.2.2.symm.trans hthreadSound) Bool.false_ne_true
  · exact hthreadSound.elim

theorem Sound.request (h : st.Sound block node start last blocks) (hblocks : last < blocks)
    (hmain : st.main = .looping) (hlt : st.tip < last) :
    (st.request (st.tip + 1)).Sound block node start last blocks := by
  have hmainSound := h.main
  unfold MainSound at hmainSound
  rw [hmain] at hmainSound
  obtain ⟨hnode, hstart, -, hquit⟩ := hmainSound
  have hmain' : (st.request (st.tip + 1)).MainSound block node start last :=
    ⟨rfl, rfl, hnode, hstart, hlt, hquit⟩
  have hlower : (st.request (st.tip + 1)).lower = st.tip + 1 := rfl
  by_cases hthread : st.thread = .absent
  · have hthreadSound := h.thread
    unfold ThreadSound at hthreadSound
    rw [hthread] at hthreadSound
    obtain ⟨-, -, hnext, hprepared, htotal⟩ := hthreadSound
    have hplace : (st.request (st.tip + 1)).thread = .choosing := by
      unfold ImportState.request
      rw [hthread]
    have hupper : (st.request (st.tip + 1)).upper = st.tip + 1 := by
      unfold upper
      rw [hplace]
      exact if_pos hnext
    refine ⟨hmain', ?_, fun _ ↦ window_empty hprepared htotal (hupper.trans hlower.symm) ?_, hlt, h.next_le⟩
    · unfold ThreadSound
      rw [hplace]
      exact fun _ ↦ ⟨_, rfl⟩
    · rw [hlower]
      omega
  · have hplace : (st.request (st.tip + 1)).thread = ImportState.woken st.thread := by
      unfold ImportState.request
      rcases hplace : st.thread with _ | _ | _ | i | ⟨i, pb⟩ | _ | e <;> first | rfl | exact absurd hplace hthread
    obtain ⟨hthreadSound, hupper, -⟩ := h.woken hmain hthread (st.request (st.tip + 1)) hplace rfl
    refine ⟨hmain', hthreadSound, fun _ ↦ (h.window hthread).congr rfl rfl ?_ hupper, hlt, h.next_le⟩
    unfold lower
    rw [hmain]
    rfl

theorem Sound.leave (h : st.Sound block node start last blocks) (hstart : start < last)
    (hmain : st.main = .looping) (hle : last ≤ st.tip) :
    (({ st with node := st.node.dbCommit } : ImportState).leave (.ok true)).Sound block node start last
      blocks := by
  have hmainSound := h.main
  have hthreadSound := h.thread
  unfold MainSound at hmainSound
  rw [hmain] at hmainSound
  obtain ⟨-, -, htip, -⟩ := hmainSound
  have htip' : st.tip = last := le_antisymm htip hle
  have hpresent : st.thread ≠ .absent := by
    intro hthread
    unfold ThreadSound at hthreadSound
    rw [hthread] at hthreadSound
    have := hthreadSound.2.1
    omega
  obtain ⟨hthreadSound', hupper, -⟩ := h.woken hmain hpresent
    (({ st with node := st.node.dbCommit } : ImportState).leave (.ok true)) rfl rfl
  refine ⟨⟨rfl, htip', rfl⟩, hthreadSound', fun _ ↦ (h.window hpresent).congr rfl rfl ?_ hupper,
    h.last_le, h.next_le⟩
  unfold lower
  rw [hmain]
  rfl

theorem Sound.take (h : st.Sound block node start last blocks) {i : ℕ} {pb : PreparedBlock}
    (hmain : st.main = .waiting i) (hpb : st.preparedBlocks[i]? = some pb) :
    (st.take i pb).Sound block node start last blocks := by
  have hmainSound := h.main
  have hthreadSound := h.thread
  unfold MainSound at hmainSound
  rw [hmain] at hmainSound
  obtain ⟨rfl, hlastLoad, hnode, hstart, hlt, hquit⟩ := hmainSound
  have hlower : st.lower = st.tip + 1 := by
    unfold lower
    rw [hmain]
  have hpresent := hthreadSound.present (by rw [hmain]; exact MainPlace.noConfusion)
  rw [← hlower] at hmain hpb hlastLoad ⊢
  obtain ⟨hblock, hbelow, hwindow⟩ := (h.window hpresent).take hmain hpb
  rw [hlower] at hblock
  refine ⟨⟨hblock, hnode, hstart, hlt, hquit⟩, ?_, fun _ ↦ hwindow, h.last_le, h.next_le⟩
  refine hthreadSound.congr hpresent rfl rfl rfl (fun i hi ↦ by cases hi) fun hthread hzero ↦ ?_
  -- a thread that has not chosen yet has not stored the block that is taken
  have hupper : st.upper = st.lastLoadHeight := by
    unfold upper
    rw [hthread]
    exact if_pos hzero
  omega

theorem Sound.add (hgrows : Grows env now block node start blocks) (hblocks : last < blocks)
    (h : st.Sound block node start last blocks) {pb : PreparedBlock} (hmain : st.main = .adding pb) :
    ∃ info, st.node.addBlock env (now (st.node.chain.tip.tipHeight + 1)) pb =
        .ok (node (st.tip + 1), .broadcastAll, info) ∧ (node (st.tip + 1)).chain.tip.tipHeight.toNat = st.tip + 1 ∧
      st.tip < last ∧
      ({ st with node := node (st.tip + 1), main := .looping } : ImportState).Sound block node start last
        blocks := by
  have hmainSound := h.main
  have hthreadSound := h.thread
  unfold MainSound at hmainSound
  rw [hmain] at hmainSound
  obtain ⟨hpb, hnode, hstart, hlt, hquit⟩ := hmainSound
  obtain ⟨info, hadd⟩ := hgrows.add st.tip hstart (by omega)
  have htip := hgrows.tip (st.tip + 1) (by omega) (by omega)
  rw [← hnode, ← hpb] at hadd
  have hpresent := hthreadSound.present (by rw [hmain]; exact MainPlace.noConfusion)
  have htip' : ({ st with node := node (st.tip + 1), main := .looping } : ImportState).tip = st.tip + 1 := htip
  refine ⟨info, hadd, htip, hlt, ?_, ?_, fun _ ↦ (h.window hpresent).congr rfl rfl ?_ rfl, h.last_le, h.next_le⟩
  · refine ⟨?_, ?_, ?_, hquit⟩ <;> rw [htip']
    · omega
    · omega
  · refine hthreadSound.congr hpresent rfl rfl rfl (fun i hi ↦ by cases hi) fun hthread ↦ ?_
    exact hthreadSound.nextLoadHeight_ne_zero (fun i hi ↦ by rw [hmain] at hi; cases hi) (.inl hthread)
  · unfold lower
    rw [hmain]
    dsimp only
    rw [htip']

theorem Sound.mainStep (hgrows : Grows env now block node start blocks) (hstart : start < last)
    (hblocks : last < blocks) (h : st.Sound block node start last blocks)
    (hstep : st.mainStep env now last = some st') : st'.Sound block node start last blocks := by
  rcases mainStep_cases hstep with ⟨hmain, hlt, rfl⟩ | ⟨hmain, hle, rfl⟩ | ⟨i, pb, hmain, hpb, rfl⟩ |
      ⟨pb, hmain, hadd⟩ | ⟨result, hmain, hthread, rfl⟩
  · exact h.request hblocks hmain hlt
  · exact h.leave hstart hmain hle
  · exact h.take hmain hpb
  · obtain ⟨info, hok, -, -, hsound⟩ := h.add hgrows hblocks hmain
    rcases hadd with ⟨s, info', hok', rfl⟩ | hnot
    · rw [hok] at hok'
      cases hok'
      exact hsound
    · exact absurd hok (hnot _ _)
  · have hmainSound := h.main
    have hthreadSound := h.thread
    unfold MainSound at hmainSound
    rw [hmain] at hmainSound
    have hpresent := hthreadSound.present (by rw [hmain]; exact MainPlace.noConfusion)
    have hended := hthread.resolve_left hpresent
    refine ⟨hmainSound, ?_, fun _ ↦ (h.window hpresent).congr rfl rfl ?_ rfl, h.last_le, h.next_le⟩
    · unfold ThreadSound
      rw [hended]
      exact hmainSound.2.2
    · unfold lower
      rw [hmain]
      rfl

/-! ## Runs -/

theorem Sound.spurious (h : st.Sound block node start last blocks) (hthread : st.thread = .waiting) :
    ({ st with thread := .choosing } : ImportState).Sound block node start last blocks := by
  have hthreadSound := h.thread
  unfold ThreadSound at hthreadSound
  rw [hthread] at hthreadSound
  have hwindow := h.window (by rw [hthread]; exact ThreadPlace.noConfusion)
  refine ⟨h.main, fun hzero ↦ absurd hzero hthreadSound.1, fun _ ↦ hwindow.congr rfl rfl rfl ?_,
    h.last_le, h.next_le⟩
  unfold upper
  rw [hthread]
  rfl

private theorem step_cases {event : ImportEvent} (h : st.step env now last fetch event = some st') :
    (∀ e, st.thread ≠ .threw e) ∧
    ((event = .main ∧ st.mainStep env now last = some st') ∨
      (event = .thread ∧ st.threadStep fetch = some st') ∨
      (event = .spurious ∧ st.thread = .waiting ∧ st' = { st with thread := .choosing })) := by
  unfold step at h
  rcases hthread : st.thread with _ | _ | _ | i | ⟨i, pb⟩ | _ | e <;> rw [hthread] at h <;>
    rcases event with _ | _ | _ <;>
    first
    | exact ⟨fun _ ↦ ThreadPlace.noConfusion, .inl ⟨rfl, h⟩⟩
    | exact ⟨fun _ ↦ ThreadPlace.noConfusion, .inr (.inl ⟨rfl, h⟩)⟩
    | exact ⟨fun _ ↦ ThreadPlace.noConfusion, .inr (.inr ⟨rfl, rfl, (Option.some.inj h).symm⟩)⟩
    | cases h

theorem step_main (hthread : ∀ e, st.thread ≠ .threw e) :
    st.step env now last fetch .main = st.mainStep env now last := by
  unfold step
  rcases hplace : st.thread with _ | _ | _ | i | ⟨i, pb⟩ | _ | e <;>
    first | rfl | exact absurd hplace (hthread e)

theorem step_thread (hthread : ∀ e, st.thread ≠ .threw e) :
    st.step env now last fetch .thread = st.threadStep fetch := by
  unfold step
  rcases hplace : st.thread with _ | _ | _ | i | ⟨i, pb⟩ | _ | e <;>
    first | rfl | exact absurd hplace (hthread e)

theorem Sound.not_threw (h : st.Sound block node start last blocks) (e : Failure) : st.thread ≠ .threw e := by
  intro hthread
  have hthreadSound := h.thread
  unfold ThreadSound at hthreadSound
  rw [hthread] at hthreadSound
  exact hthreadSound

theorem Sound.step (hfeeds : Feeds fetch block blocks)
    (hgrows : Grows env now block node start blocks) (hstart : start < last)
    (hroomy : Roomy (fun i ↦ (block i).blockData.length) last blocks)
    (h : st.Sound block node start last blocks) {event : ImportEvent}
    (hstep : st.step env now last fetch event = some st') : st'.Sound block node start last blocks := by
  rcases (step_cases hstep).2 with ⟨-, hmain⟩ | ⟨-, hthread⟩ | ⟨-, hthread, rfl⟩
  · exact h.mainStep hgrows hstart hroomy.1 hmain
  · exact h.threadStep hfeeds hroomy hthread
  · exact h.spurious hthread

/-- The steps that the main thread has still to take, weighed so that it can pay for waking the other
thread. -/
def mainMeasure (last : ℕ) (st : ImportState) : ℕ :=
  match st.main with
  | .looping => 4 * (last - st.tip) + 3
  | .waiting _ => 4 * (last - st.tip) + 1
  | .adding _ => 4 * (last - st.tip)
  | .leaving _ => 1
  | .returned _ => 0

/-- The steps that the other thread may still take. -/
def threadMeasure (last : ℕ) (st : ImportState) : ℕ :=
  let room := 4 * (last + maxPreloadBlocks + 2 - st.nextLoadHeight)
  match st.thread with
  | .absent => room + 2
  | .choosing => room + 2
  | .waiting => room + 1
  | .loading _ => room + 4
  | .storing _ _ => room + 3
  | .ended | .threw _ => 0

private theorem threadMeasure_woken_le (hthread : st'.thread = woken st.thread)
    (hnext : st'.nextLoadHeight = st.nextLoadHeight) :
    st'.threadMeasure last ≤ st.threadMeasure last + 1 := by
  unfold threadMeasure
  rw [hthread, hnext]
  rcases st.thread with _ | _ | _ | i | ⟨i, pb⟩ | _ | e <;> simp [woken]

private theorem measure_threadStep (hstep : st.threadStep fetch = some st')
    (hnext : st'.nextLoadHeight ≤ last + maxPreloadBlocks + 1) :
    st'.mainMeasure last = st.mainMeasure last ∧ st'.threadMeasure last < st.threadMeasure last := by
  have htoLoad : st.nextLoadHeight ≤ st.toLoad := by
    unfold toLoad
    split_ifs with hzero
    · omega
    · exact le_refl _
  rcases threadStep_cases hstep with ⟨hthread, -, rfl⟩ | ⟨hthread, -, -, rfl⟩ |
      ⟨hthread, -, -, rfl⟩ | ⟨i, pb, hthread, -, rfl⟩ | ⟨i, e, hthread, -, rfl⟩ | ⟨i, pb, hthread, rfl⟩ <;>
    refine ⟨rfl, ?_⟩ <;> unfold threadMeasure <;> rw [hthread]
  · exact Nat.succ_pos _
  · change 4 * (last + maxPreloadBlocks + 2 - st.toLoad) + 1 <
      4 * (last + maxPreloadBlocks + 2 - st.nextLoadHeight) + 2
    omega
  · change st.toLoad + 1 ≤ _ at hnext
    change 4 * (last + maxPreloadBlocks + 2 - (st.toLoad + 1)) + 4 <
      4 * (last + maxPreloadBlocks + 2 - st.nextLoadHeight) + 2
    omega
  · exact Nat.lt_succ_self _
  · exact Nat.succ_pos _
  · exact Nat.lt_succ_self _

private theorem Sound.measure_mainStep (hgrows : Grows env now block node start blocks)
    (hblocks : last < blocks) (h : st.Sound block node start last blocks)
    (hstep : st.mainStep env now last = some st') :
    st'.mainMeasure last + st'.threadMeasure last < st.mainMeasure last + st.threadMeasure last := by
  rcases mainStep_cases hstep with ⟨hmain, hlt, rfl⟩ | ⟨hmain, hle, rfl⟩ | ⟨i, pb, hmain, hpb, rfl⟩ |
      ⟨pb, hmain, hadd⟩ | ⟨result, hmain, hthread, rfl⟩
  · have hmeasure : st.mainMeasure last = 4 * (last - st.tip) + 3 := by
      unfold mainMeasure
      rw [hmain]
    have hmeasure' : (st.request (st.tip + 1)).mainMeasure last = 4 * (last - st.tip) + 1 := rfl
    have hthread : (st.request (st.tip + 1)).threadMeasure last ≤ st.threadMeasure last + 1 := by
      by_cases habsent : st.thread = .absent
      · unfold threadMeasure ImportState.request
        rw [habsent]
        exact Nat.le_succ _
      · refine threadMeasure_woken_le ?_ rfl
        unfold ImportState.request
        rcases hplace : st.thread with _ | _ | _ | i | ⟨i, pb⟩ | _ | e <;>
          first | rfl | exact absurd hplace habsent
    omega
  · have hmeasure : st.mainMeasure last = 4 * (last - st.tip) + 3 := by
      unfold mainMeasure
      rw [hmain]
    have hmeasure' : (({ st with node := st.node.dbCommit } : ImportState).leave (.ok true)).mainMeasure last =
        1 := rfl
    have hthread : (({ st with node := st.node.dbCommit } : ImportState).leave (.ok true)).threadMeasure last ≤
        st.threadMeasure last + 1 := threadMeasure_woken_le rfl rfl
    omega
  · have hmeasure : st.mainMeasure last = 4 * (last - st.tip) + 1 := by
      unfold mainMeasure
      rw [hmain]
    have hmeasure' : (st.take i pb).mainMeasure last = 4 * (last - st.tip) := rfl
    have hthread : (st.take i pb).threadMeasure last = st.threadMeasure last := rfl
    omega
  · obtain ⟨info, hok, htip, hlt, -⟩ := h.add hgrows hblocks hmain
    rcases hadd with ⟨s, info', hok', rfl⟩ | hnot
    · rw [hok] at hok'
      cases hok'
      have hmeasure : st.mainMeasure last = 4 * (last - st.tip) := by
        unfold mainMeasure
        rw [hmain]
      have hmeasure' : ({ st with node := node (st.tip + 1), main := .looping } : ImportState).mainMeasure last =
          4 * (last - (st.tip + 1)) + 3 := congrArg (fun tip ↦ 4 * (last - tip) + 3) htip
      have hthread : ({ st with node := node (st.tip + 1), main := .looping } : ImportState).threadMeasure last =
          st.threadMeasure last := rfl
      omega
    · exact absurd hok (hnot _ _)
  · have hmeasure : st.mainMeasure last = 1 := by
      unfold mainMeasure
      rw [hmain]
    have hmeasure' : ({ st with main := .returned result } : ImportState).mainMeasure last = 0 := rfl
    have hthread' : ({ st with main := .returned result } : ImportState).threadMeasure last =
        st.threadMeasure last := rfl
    omega

private theorem Sound.exists_threadStep (hfeeds : Feeds fetch block blocks)
    (h : st.Sound block node start last blocks) (hpresent : st.thread ≠ .absent)
    (hwaiting : st.thread ≠ .waiting) (hended : st.thread ≠ .ended) : ∃ st', st.threadStep fetch = some st' := by
  have hthreadSound := h.thread
  unfold ThreadSound at hthreadSound
  unfold ImportState.threadStep
  rcases hthread : st.thread with _ | _ | _ | i | ⟨i, pb⟩ | _ | e <;> rw [hthread] at hthreadSound
  · exact absurd hthread hpresent
  · dsimp only
    split_ifs <;> exact ⟨_, rfl⟩
  · exact absurd hthread hwaiting
  · dsimp only
    rw [hfeeds.held i hthreadSound.2]
    exact ⟨_, rfl⟩
  · exact ⟨_, rfl⟩
  · exact absurd hthread hended
  · exact hthreadSound.elim

/-- **No deadlock.** When the main thread waits for a block, the other thread does not wait. -/
theorem Sound.progress (hfeeds : Feeds fetch block blocks)
    (hgrows : Grows env now block node start blocks) (hblocks : last < blocks)
    (h : st.Sound block node start last blocks) :
    (st.main = .returned (.ok true) ∧ st.tip = last) ∨ (∃ st', st.mainStep env now last = some st') ∨
      ∃ st', st.threadStep fetch = some st' := by
  have hmainSound := h.main
  have hthreadSound := h.thread
  rcases hmain : st.main with _ | i | pb | result | result
  · refine .inr (.inl ?_)
    unfold ImportState.mainStep
    rw [hmain]
    dsimp only
    split_ifs <;> exact ⟨_, rfl⟩
  · refine .inr ?_
    unfold MainSound at hmainSound
    rw [hmain] at hmainSound
    obtain ⟨rfl, hlastLoad, -, -, -, hquit⟩ := hmainSound
    have hlower : st.lower = st.tip + 1 := by
      unfold lower
      rw [hmain]
    have hpresent := hthreadSound.present (by rw [hmain]; exact MainPlace.noConfusion)
    have hwindow := h.window hpresent
    rcases hprepared : st.preparedBlocks[st.tip + 1]? with _ | pb
    · refine .inr (h.exists_threadStep hfeeds hpresent (fun hthread ↦ ?_) fun hthread ↦ ?_)
      · unfold ThreadSound at hthreadSound
        rw [hthread] at hthreadSound
        obtain ⟨hne, -, hahead⟩ := hthreadSound
        -- with nothing prepared, the thread does not have enough
        have heq := hwindow.eq_of_none (by rw [hlower]; exact hprepared)
        have htoLoad : st.toLoad = st.tip + 1 := by
          rw [← hlower, ← heq]
          unfold upper
          rw [hthread]
        have htotal := hwindow.total
        rw [heq, Finset.Ico_self, Finset.sum_empty] at htotal
        rcases hahead _ hmain with hfar | hlarge
        · omega
        · rw [htotal] at hlarge
          exact Nat.not_lt_zero _ hlarge
      · unfold ThreadSound at hthreadSound
        rw [hthread, hquit] at hthreadSound
        exact Bool.false_ne_true hthreadSound
    · refine .inl ?_
      unfold ImportState.mainStep
      rw [hmain]
      dsimp only
      rw [hprepared]
      exact ⟨_, rfl⟩
  · obtain ⟨info, hadd, -⟩ := h.add hgrows hblocks hmain
    refine .inr (.inl ?_)
    unfold ImportState.mainStep
    rw [hmain]
    dsimp only
    rw [hadd]
    exact ⟨_, rfl⟩
  · refine .inr ?_
    unfold MainSound at hmainSound
    rw [hmain] at hmainSound
    have hpresent := hthreadSound.present (by rw [hmain]; exact MainPlace.noConfusion)
    by_cases hended : st.thread = .ended
    · refine .inl ?_
      unfold ImportState.mainStep
      rw [hmain]
      dsimp only
      rw [hended]
      exact ⟨_, rfl⟩
    · refine .inr (h.exists_threadStep hfeeds hpresent (fun hthread ↦ ?_) hended)
      unfold ThreadSound at hthreadSound
      rw [hthread] at hthreadSound
      exact Bool.false_ne_true (hthreadSound.2.1.symm.trans hmainSound.2.2)
  · unfold MainSound at hmainSound
    rw [hmain] at hmainSound
    exact .inl ⟨congrArg _ hmainSound.1, hmainSound.2.1⟩

/-- **A roomy import ends at the last block**, whatever its schedule is. -/
theorem Sound.inevitable (hfeeds : Feeds fetch block blocks)
    (hgrows : Grows env now block node start blocks) (hstart : start < last)
    (hroomy : Roomy (fun i ↦ (block i).blockData.length) last blocks)
    (h : st.Sound block node start last blocks) :
    Inevitable (Steps (ImportState.step env now last fetch) (· ≠ .spurious))
      (fun st ↦ st.main = .returned (.ok true) ∧ st.tip = last) st := by
  refine Inevitable.of_measure (fun st ↦ st.Sound block node start last blocks)
    (fun st ↦ st.mainMeasure last + st.threadMeasure last) (fun st st' hst hstep ↦ ?_) (fun st hst ↦ ?_) h
  · obtain ⟨event, hne, hevent⟩ := hstep
    have hsound := hst.step hfeeds hgrows hstart hroomy hevent
    refine ⟨hsound, ?_⟩
    rcases (step_cases hevent).2 with ⟨-, hmain⟩ | ⟨-, hthread⟩ | ⟨rfl, -, -⟩
    · exact hst.measure_mainStep hgrows hroomy.1 hmain
    · obtain ⟨hmain, hlt⟩ := measure_threadStep hthread hsound.next_le
      omega
    · exact absurd rfl hne
  · rcases hst.progress hfeeds hgrows hroomy.1 with hgoal | ⟨st', hmain⟩ | ⟨st', hthread⟩
    · exact .inl hgoal
    · exact .inr ⟨st', .main, ImportEvent.noConfusion, (step_main hst.not_threw).trans hmain⟩
    · exact .inr ⟨st', .thread, ImportEvent.noConfusion, (step_thread hst.not_threw).trans hthread⟩

theorem sound_start {s : State} (hnode : s = node start) (htip : s.chain.tip.tipHeight.toNat = start)
    (hstart : start < last) : ({ node := s } : ImportState).Sound block node start last blocks where
  main := ⟨by rw [tip, htip]; exact hnode, htip.ge, htip.trans_le hstart.le, rfl⟩
  thread := ⟨rfl, htip, rfl, rfl, rfl⟩
  window := fun h ↦ absurd rfl h
  last_le := Nat.zero_le _
  next_le := Nat.zero_le _

end ImportState

end CryoNero
