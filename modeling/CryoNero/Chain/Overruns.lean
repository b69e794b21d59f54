import CryoNero.Chain.Preloading

/-!
# Reading beyond the files

Where an import is not roomy, a schedule that takes it beyond the files: the two threads first go in
step, a block being added as soon as it is loaded, up to the last block that is wanted or that is there.
Then the thread that reads ahead goes on alone.
-/

namespace CryoNero

open Seria Store

namespace ImportState

variable {env : Env} {now : Height → Timestamp} {block : ℕ → PreparedBlock} {node : ℕ → State}
  {start last blocks : ℕ} {fetch : ℕ → Except Failure PreparedBlock} {st st' st'' : ImportState}

/-- The states that come up in an import, with any schedule. -/
def Runs (env : Env) (now : Height → Timestamp) (last : ℕ) (fetch : ℕ → Except Failure PreparedBlock) :
    ImportState → ImportState → Prop :=
  Relation.ReflTransGen (Steps (ImportState.step env now last fetch) fun _ ↦ True)

theorem runs_main (h : Runs env now last fetch st st') (hthread : ∀ e, st'.thread ≠ .threw e)
    (hstep : st'.mainStep env now last = some st'') : Runs env now last fetch st st'' :=
  h.tail ⟨.main, trivial, (step_main hthread).trans hstep⟩

theorem runs_thread (h : Runs env now last fetch st st') (hthread : ∀ e, st'.thread ≠ .threw e)
    (hstep : st'.threadStep fetch = some st'') : Runs env now last fetch st st'' :=
  h.tail ⟨.thread, trivial, (step_thread hthread).trans hstep⟩

/-- Everything that was loaded is added, up to block `i`. -/
structure Idle (node : ℕ → State) (i : ℕ) (st : ImportState) : Prop where
  main : st.main = .looping
  node : st.node = node i
  tip : st.tip = i
  quit : st.quit = false
  prepared : st.preparedBlocks = ∅
  total : st.totalPreparedDataSize = 0
  thread : st.thread = .absent ∧ st.nextLoadHeight = 0 ∨
    st.thread = .choosing ∧ st.nextLoadHeight = i + 1 ∧ st.lastLoadHeight = i

/-- The next block is asked for, and the other thread is about to read it. -/
structure Reading (node : ℕ → State) (i : ℕ) (st : ImportState) : Prop where
  main : st.main = .waiting (i + 1)
  node : st.node = node i
  tip : st.tip = i
  quit : st.quit = false
  prepared : st.preparedBlocks = ∅
  total : st.totalPreparedDataSize = 0
  thread : st.thread = .loading (i + 1)
  next : st.nextLoadHeight = i + 2
  asked : st.lastLoadHeight = i + 1

theorem Idle.reading {i : ℕ} (h : st.Idle node i) (hlt : i < last) :
    ∃ st', Runs env now last fetch st st' ∧ st'.Reading node i := by
  have hplace : (st.request (i + 1)).thread = .choosing := by
    unfold request
    rcases h.thread with ⟨hthread, -⟩ | ⟨hthread, -⟩ <;> rw [hthread]
    rfl
  have htoLoad : (st.request (i + 1)).toLoad = i + 1 := by
    change (if st.nextLoadHeight = 0 then i + 1 else st.nextLoadHeight) = i + 1
    rcases h.thread with ⟨-, hnext⟩ | ⟨-, hnext, -⟩
    · rw [hnext, if_pos rfl]
    · rw [hnext, if_neg (Nat.succ_ne_zero i)]
  have hahead : ¬(st.request (i + 1)).Ahead := by
    rintro (hfar | hlarge)
    · rw [htoLoad] at hfar
      change i + 1 + maxPreloadBlocks < i + 1 at hfar
      omega
    · change maxPreloadTotalSize < st.totalPreparedDataSize at hlarge
      rw [h.total] at hlarge
      exact Nat.not_lt_zero _ hlarge
  have hrequest : st.mainStep env now last = some (st.request (i + 1)) := by
    unfold mainStep
    rw [h.main]
    dsimp only
    rw [h.tip, if_pos hlt]
  have hload : (st.request (i + 1)).threadStep fetch = some (st.request (i + 1)).load := by
    have hquit : (st.request (i + 1)).quit = false := h.quit
    unfold threadStep
    rw [hplace]
    dsimp only
    rw [hquit, if_neg Bool.false_ne_true, if_neg hahead]
  refine ⟨(st.request (i + 1)).load, runs_thread (runs_main .refl (fun e hthread ↦ ?_) hrequest)
    (fun e hthread ↦ ?_) hload, rfl, h.node, h.tip, h.quit, h.prepared, h.total, ?_, ?_, rfl⟩
  · rcases h.thread with ⟨hthread', -⟩ | ⟨hthread', -⟩ <;> rw [hthread'] at hthread <;> cases hthread
  · rw [hplace] at hthread
    cases hthread
  · exact congrArg ThreadPlace.loading htoLoad
  · exact congrArg (· + 1) htoLoad

private theorem Reading.overrun (hfeeds : Feeds fetch block blocks) {i : ℕ} (h : st.Reading node i)
    (hsmall : blocks < 2 ^ 32 - 1) (hle : blocks ≤ i + 1) (hlt : i + 1 < 2 ^ 32) :
    ∃ st', Runs env now last fetch st st' ∧ st'.thread = .threw .outOfRange := by
  refine ⟨{ st with thread := .threw .outOfRange }, runs_thread .refl (fun e hthread ↦ ?_) ?_, rfl⟩
  · rw [h.thread] at hthread
    cases hthread
  · unfold threadStep
    rw [h.thread]
    dsimp only
    rw [hfeeds.beyond hsmall (i + 1) hle hlt]

/-- The next block is loaded, taken and added. -/
theorem Reading.advance (hfeeds : Feeds fetch block blocks)
    (hgrows : Grows env now block node start blocks) {i : ℕ} (h : st.Reading node i) (hstart : start ≤ i)
    (hlt : i + 1 < blocks) :
    ∃ st', Runs env now last fetch st st' ∧ st'.Idle node (i + 1) ∧ st'.thread = .choosing := by
  obtain ⟨info, hadd⟩ := hgrows.add i hstart hlt
  set st₁ : ImportState := { st with thread := .storing (i + 1) (block (i + 1)) } with hst₁
  set st₂ : ImportState := st₁.store (i + 1) (block (i + 1)) with hst₂
  set st₃ : ImportState := st₂.take (i + 1) (block (i + 1)) with hst₃
  have h₁ : st.threadStep fetch = some st₁ := by
    unfold threadStep
    rw [h.thread]
    dsimp only
    rw [hfeeds.held (i + 1) hlt]
  have h₂ : st₁.threadStep fetch = some st₂ := rfl
  have h₃ : st₂.mainStep env now last = some st₃ := by
    have hmain : st₂.main = .waiting (i + 1) := h.main
    have hprepared : st₂.preparedBlocks[i + 1]? = some (block (i + 1)) := Table.get_insert_self _ _ _
    unfold mainStep
    rw [hmain]
    dsimp only
    rw [hprepared]
    rfl
  have h₄ : st₃.mainStep env now last =
      some { st₃ with node := node (i + 1), main := .looping } := by
    have hmain : st₃.main = .adding (block (i + 1)) := rfl
    have hnode : st₃.node = node i := h.node
    unfold mainStep
    rw [hmain]
    dsimp only
    rw [hnode, hadd]
  have hrun : Runs env now last fetch st { st₃ with node := node (i + 1), main := .looping } := by
    refine runs_main (runs_main (runs_thread (runs_thread .refl (fun e hthread ↦ ?_) h₁) ?_ h₂) ?_ h₃) ?_ h₄
    · rw [h.thread] at hthread
      cases hthread
    all_goals exact fun _ ↦ ThreadPlace.noConfusion
  refine ⟨_, hrun, ⟨rfl, rfl, hgrows.tip (i + 1) (by omega) hlt, h.quit, ?_, ?_,
    .inr ⟨rfl, h.next, h.asked⟩⟩, rfl⟩
  · refine Table.ext_get fun k ↦ ?_
    change ((st.preparedBlocks.insert (i + 1) (block (i + 1))).erase (i + 1))[k]? = _
    rw [Table.get_erase, Table.get_insert, h.prepared]
    split_ifs
    · exact Std.ExtTreeMap.getElem?_empty.symm
    · rfl
  · change st.totalPreparedDataSize + (block (i + 1)).blockData.length - (block (i + 1)).blockData.length = 0
    rw [h.total, Nat.zero_add, Nat.sub_self]

/-- The two threads in step, for `n` blocks. -/
theorem Idle.advance (hfeeds : Feeds fetch block blocks) (hgrows : Grows env now block node start blocks)
    {i : ℕ} (h : st.Idle node i) (hstart : start ≤ i) (n : ℕ) (hlast : i + n ≤ last)
    (hblocks : n ≠ 0 → i + n < blocks) :
    ∃ st', Runs env now last fetch st st' ∧ st'.Idle node (i + n) ∧ (n ≠ 0 → st'.thread = .choosing) := by
  induction n with
  | zero => exact ⟨st, .refl, h, fun hne ↦ absurd rfl hne⟩
  | succ n ih =>
    have hlt := hblocks (Nat.succ_ne_zero n)
    obtain ⟨st₁, hrun₁, hidle₁, -⟩ := ih (by omega) fun _ ↦ by omega
    obtain ⟨st₂, hrun₂, hreading⟩ : ∃ st', Runs env now last fetch st₁ st' ∧ st'.Reading node (i + n) :=
      hidle₁.reading (by omega)
    obtain ⟨st₃, hrun₃, hidle₃, hthread⟩ : ∃ st', Runs env now last fetch st₂ st' ∧
        st'.Idle node (i + n + 1) ∧ st'.thread = .choosing := hreading.advance hfeeds hgrows (by omega) hlt
    exact ⟨st₃, (hrun₁.trans hrun₂).trans hrun₃, hidle₃, fun _ ↦ hthread⟩

private theorem threadStep_load (hthread : st.thread = .choosing) (hquit : st.quit = false) {k : ℕ}
    (hpos : k ≠ 0)
    (hnext : st.nextLoadHeight = k) (hnear : k ≤ st.lastLoadHeight + maxPreloadBlocks)
    (hlight : st.totalPreparedDataSize ≤ maxPreloadTotalSize) :
    st.threadStep fetch = some { st with nextLoadHeight := k + 1, thread := .loading k } := by
  have htoLoad : st.toLoad = k := by rw [toLoad, hnext, if_neg hpos]
  have hahead : ¬st.Ahead := by
    rw [Ahead, htoLoad]
    omega
  unfold threadStep
  rw [hthread]
  dsimp only
  rw [if_neg (by rw [hquit]; exact Bool.false_ne_true), if_neg hahead, load, htoLoad]

private theorem exists_overrun_ahead (hfeeds : Feeds fetch block blocks) (hsmall : blocks < 2 ^ 32 - 1)
    (n : ℕ) {k : ℕ}
    (hpos : k ≠ 0) (hblocks : k + n = blocks) (hthread : st.thread = .choosing) (hquit : st.quit = false)
    (hnext : st.nextLoadHeight = k) (hnear : blocks ≤ st.lastLoadHeight + maxPreloadBlocks)
    (hlight : st.totalPreparedDataSize + ∑ i ∈ Finset.Ico k blocks, (block i).blockData.length ≤
      maxPreloadTotalSize) :
    ∃ st', Runs env now last fetch st st' ∧ st'.thread = .threw .outOfRange := by
  induction n generalizing st k with
  | zero =>
    rw [Nat.add_zero] at hblocks
    set st₁ : ImportState := { st with nextLoadHeight := k + 1, thread := .loading k } with hst₁
    have h₁ : st.threadStep fetch = some st₁ :=
      threadStep_load hthread hquit hpos hnext (by omega) (by omega)
    have h₂ : st₁.threadStep fetch = some { st₁ with thread := .threw .outOfRange } := by
      rw [hst₁]
      unfold threadStep
      dsimp only
      rw [hfeeds.beyond hsmall k hblocks.ge (by omega)]
    refine ⟨_, runs_thread (runs_thread .refl (fun e he ↦ ?_) h₁) (fun _ ↦ ThreadPlace.noConfusion) h₂, rfl⟩
    rw [hthread] at he
    cases he
  | succ n ih =>
    have hlt : k < blocks := by omega
    set st₁ : ImportState := { st with nextLoadHeight := k + 1, thread := .loading k } with hst₁
    have h₁ : st.threadStep fetch = some st₁ :=
      threadStep_load hthread hquit hpos hnext (by omega) (by omega)
    set st₂ : ImportState := { st₁ with thread := .storing k (block k) } with hst₂
    have h₂ : st₁.threadStep fetch = some st₂ := by
      rw [hst₁]
      unfold threadStep
      dsimp only
      rw [hfeeds.held k hlt]
    have h₃ : st₂.threadStep fetch = some (st₂.store k (block k)) := rfl
    have hrun : Runs env now last fetch st (st₂.store k (block k)) := by
      refine runs_thread (runs_thread (runs_thread .refl (fun e he ↦ ?_) h₁) ?_ h₂) ?_ h₃
      · rw [hthread] at he
        cases he
      all_goals exact fun _ ↦ ThreadPlace.noConfusion
    rw [Finset.sum_eq_sum_Ico_succ_bot hlt, ← Nat.add_assoc] at hlight
    obtain ⟨st', hrun', hthrew⟩ : ∃ st', Runs env now last fetch (st₂.store k (block k)) st' ∧
        st'.thread = .threw .outOfRange := ih (Nat.succ_ne_zero k) (by omega) rfl hquit rfl hnear hlight
    exact ⟨st', hrun.trans hrun', hthrew⟩

/-- **An import that is not roomy goes beyond the files** with some schedule. -/
theorem exists_overrun (hfeeds : Feeds fetch block blocks) (hgrows : Grows env now block node start blocks)
    (hsmall : blocks < 2 ^ 32 - 1) (hlast : last < 2 ^ 32) (hstart : start < last)
    (hroomy : ¬Roomy (fun i ↦ (block i).blockData.length) last blocks) {s : State} (hnode : s = node start)
    (htip : s.chain.tip.tipHeight.toNat = start) :
    ∃ st', Runs env now last fetch { node := s } st' ∧ st'.thread = .threw .outOfRange := by
  have hidle : ({ node := s } : ImportState).Idle node start :=
    ⟨rfl, hnode, htip, rfl, rfl, rfl, .inl ⟨rfl, rfl⟩⟩
  rcases Nat.lt_or_ge last blocks with hlt | hge
  · obtain ⟨n, hn⟩ := Nat.exists_eq_add_of_lt hstart
    obtain ⟨st₁, hrun₁, hidle₁, hthread⟩ : ∃ st', Runs env now last fetch { node := s } st' ∧
        st'.Idle node (start + (n + 1)) ∧ (n + 1 ≠ 0 → st'.thread = .choosing) :=
      hidle.advance hfeeds hgrows (le_refl start) (n + 1) (by omega) fun _ ↦ by omega
    have hchoosing := hthread (Nat.succ_ne_zero n)
    rw [show start + (n + 1) = last by omega] at hidle₁
    rcases hidle₁.thread with ⟨habsent, -⟩ | ⟨-, hnext, hasked⟩
    · rw [hchoosing] at habsent
      cases habsent
    · rw [Roomy, not_and, not_or, not_lt, not_lt] at hroomy
      obtain ⟨hnear, hlight⟩ := hroomy hlt
      obtain ⟨st', hrun, hthrew⟩ : ∃ st', Runs env now last fetch st₁ st' ∧ st'.thread = .threw .outOfRange :=
        exists_overrun_ahead hfeeds hsmall (blocks - (last + 1)) (Nat.succ_ne_zero _) (by omega) hchoosing
          hidle₁.quit hnext (by rwa [hasked]) (by rwa [hidle₁.total, Nat.zero_add])
      exact ⟨st', hrun₁.trans hrun, hthrew⟩
  · -- the last block that is there, or the one at the tip when there is none above it
    obtain ⟨st₁, hrun₁, hidle₁, -⟩ : ∃ st', Runs env now last fetch { node := s } st' ∧
        st'.Idle node (start + (blocks - 1 - start)) ∧ (blocks - 1 - start ≠ 0 → st'.thread = .choosing) :=
      hidle.advance hfeeds hgrows (le_refl start) (blocks - 1 - start) (by omega) fun _ ↦ by omega
    obtain ⟨st₂, hrun₂, hreading⟩ : ∃ st', Runs env now last fetch st₁ st' ∧
        st'.Reading node (start + (blocks - 1 - start)) := hidle₁.reading (by omega)
    obtain ⟨st', hrun, hthrew⟩ : ∃ st', Runs env now last fetch st₂ st' ∧ st'.thread = .threw .outOfRange :=
      hreading.overrun hfeeds hsmall (by omega) (by omega)
    exact ⟨st', (hrun₁.trans hrun₂).trans hrun, hthrew⟩

end ImportState

end CryoNero
