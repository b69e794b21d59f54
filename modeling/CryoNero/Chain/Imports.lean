import CryoNero.Chain.Exports
import CryoNero.Chain.Overruns
import CryoNero.Chain.Transactions

/-!
# Importing what was exported

A node that is on the chain of the files takes their blocks one after the other. Both ways of importing
end at the last block that is wanted when they do not go beyond the files, and when they do not is decided
by the sizes of the files alone (`State.Reachable.import_iff`).
-/

namespace CryoNero

open Seria Store

private theorem exists_states_of_foldlM {σ α : Type} {f : σ → α → Option σ} {l : List α} {s : σ}
    (h : (l.foldlM f s).isSome) :
    ∃ node : ℕ → σ, node 0 = s ∧ ∀ i x, l[i]? = some x → f (node i) x = some (node (i + 1)) := by
  induction l generalizing s with
  | nil => exact ⟨fun _ ↦ s, rfl, fun i x hx ↦ by cases hx⟩
  | cons a l ih =>
    rw [List.foldlM_cons] at h
    rcases hs₁ : f s a with _ | s₁
    · rw [hs₁] at h
      cases h
    · rw [hs₁] at h
      obtain ⟨node, hzero, hnode⟩ := ih h
      refine ⟨fun i ↦ i.casesOn s node, rfl, fun i x hx ↦ ?_⟩
      rcases i with _ | i
      · obtain rfl := Option.some.inj hx
        exact hs₁.trans (congrArg some hzero.symm)
      · exact hnode i x hx

namespace State

variable {env : Env} {guard : State → Op → Prop} {now : Height → Timestamp} {e s s' : State}

/-- Add the bytes of a block as an import does, where that succeeds. -/
def addNext (env : Env) (now : Height → Timestamp) (s : State) (data : Bytes) : Option State :=
  match PreparedBlock.ofData env false data with
  | .error _ => none
  | .ok pb =>
    match s.addBlock env (now (s.chain.tip.tipHeight + 1)) pb with
    | .ok (s', .broadcastAll, _) => some s'
    | _ => none

/-- A node accepts blocks when it can add one after the other. -/
def accepts (env : Env) (now : Height → Timestamp) (s : State) (blocks : List Bytes) : Bool :=
  (blocks.foldlM (addNext env now) s).isSome

theorem addNext_eq_some {data : Bytes} :
    s.addNext env now data = some s' ↔ ∃ pb info, PreparedBlock.ofData env false data = .ok pb ∧
      s.addBlock env (now (s.chain.tip.tipHeight + 1)) pb = .ok (s', .broadcastAll, info) := by
  unfold addNext
  rcases PreparedBlock.ofData env false data with e | pb
  · simp
  · dsimp only
    rcases hadd : s.addBlock env (now (s.chain.tip.tipHeight + 1)) pb with e | ⟨s₁, _ | _ | _, info⟩ <;>
      simp [hadd]

/-- **A block on top of the tip** that is passed on is the new tip. -/
private theorem Reachable.addBlock_on_tip (hs : s.Reachable env guard) {time : Timestamp}
    {pb : PreparedBlock}
    {info : Api.BlockHeader} (hprev : pb.block.header.previousBlockHash = s.chain.tip.tipBid)
    (hadd : s.addBlock env time pb = .ok (s', .broadcastAll, info)) :
    s'.chain.tip.tipHeight = s.chain.tip.tipHeight + 1 ∧ s'.chain.tip.tipBid = pb.bid := by
  obtain ⟨ht, hr, -⟩ := hs.invariant (fun _ ↦ True) (I := fun _ ↦ True) (fun _ _ ↦ trivial)
    (fun _ _ _ _ _ _ ↦ trivial) (fun _ _ _ _ _ _ ↦ trivial) (fun _ _ _ _ _ _ ↦ trivial)
  rcases addBlock_cases ht.coherent hadd with ⟨-, hne⟩ |
    ⟨prevInfo, info', stored, p, hnone, -, hcheck, hstored, hadopt, rfl, hend⟩
  · exact absurd rfl hne
  have hhash : info.hash = pb.bid := (BlockChain.sameBlock_of_checked hcheck).hash
  have hgenesis : pb.bid ≠ env.genesisBlockHash := by
    intro heq
    obtain ⟨root, hroot⟩ := hr.genesis_header
    rw [heq, hroot] at hnone
    cases hnone
  obtain ⟨-, s₁, hs₁, -, rfl⟩ := (storeChecked_eq_ok ht.coherent).mp hstored
  rw [if_neg hgenesis] at hs₁
  subst hs₁
  obtain ⟨-, -, ha⟩ | ⟨hp, hs', ha⟩ := hend
  · cases ha
  have hbid : info.hash = s'.chain.tip.tipBid := by
    by_contra hne
    rw [if_neg hne] at ha
    cases ha
  have htip : s'.chain.tip = p.1.chain.tip := by
    rcases hs' with rfl | rfl <;> rfl
  unfold adoptBlock at hadopt
  split_ifs at hadopt with hwork hon
  · obtain ⟨next, hnext, hadopt⟩ := bind_eq_ok.mp hadopt
    rcases next with _ | s₂
    · cases hadopt
      cases hp
    · cases hadopt
      obtain ⟨ledger, chain, -, hpush, rfl⟩ := redoOnTip_eq_some.mp hnext
      obtain ⟨-, hheight, hpushed, -⟩ := BlockChain.pushChain_tip hpush
      rw [htip]
      exact ⟨hheight, hpushed.trans hhash⟩
  · exact absurd hprev.symm hon
  · -- the block has no more work than the tip, so that the tip stays; but the tip is no new block
    cases hadopt
    obtain ⟨root, hroot, -⟩ := hr.main.tip_header
    rw [← hhash, hbid, htip] at hnone
    change s.chain.tree.headers[s.chain.tip.tipBid]? = none at hnone
    rw [hroot] at hnone
    cases hnone

theorem Reachable.addNext (hs : s.Reachable env fun _ _ ↦ True) {data : Bytes} (hsized : data.length < 2 ^ 32)
    (h : s.addNext env now data = some s') : s'.Reachable env fun _ _ ↦ True := by
  obtain ⟨pb, info, hpb, hadd⟩ := addNext_eq_some.mp h
  refine .next (i := .addBlockData data false (now (s.chain.tip.tipHeight + 1))) hs ⟨hsized, trivial⟩ ?_
  exact bind_eq_ok.mpr ⟨pb, hpb, bind_eq_ok.mpr ⟨_, hadd, rfl⟩⟩

/-- A node that is on the chain of another one, with as many blocks of it as `ha` tells. -/
structure OnChainOf (env : Env) (s e : State) (ha : ℕ) : Prop where
  reachable : s.Reachable env fun _ _ ↦ True
  height : s.chain.tip.tipHeight.toNat = ha
  le : ha ≤ e.chain.tip.tipHeight.toNat
  bid : e.chain.tip.tipChain[UInt32.ofNat ha]? = some s.chain.tip.tipBid

theorem OnChainOf.next (he : e.Reachable env guard) {ha : ℕ} (h : s.OnChainOf env e ha)
    (hlt : ha < e.chain.tip.tipHeight.toNat)
    (hnext : s.addNext env now (e.blockDataAt (ha + 1)) = some s') : s'.OnChainOf env e (ha + 1) := by
  obtain ⟨pb, hstored⟩ := he.exists_storedAt (show ha + 1 ≤ _ from hlt)
  rw [hstored.blockDataAt] at hnext
  obtain ⟨pb', info, hpb', hadd⟩ := addNext_eq_some.mp hnext
  obtain ⟨pb'', hpb'', hbid, hblock, -⟩ := hstored.faithful.ofData
  rw [hpb''] at hpb'
  obtain rfl := Except.ok.inj hpb'
  have hprev : pb''.block.header.previousBlockHash = s.chain.tip.tipBid := by
    have hbelow := hstored.previous ha rfl
    rw [h.bid] at hbelow
    rw [hblock]
    exact (Option.some.inj hbelow).symm
  obtain ⟨hheight, htip⟩ := h.reachable.addBlock_on_tip hprev hadd
  have htop := e.chain.tip.tipHeight.toNat_lt
  refine ⟨h.reachable.addNext hstored.faithful.sized hnext, ?_, hlt, ?_⟩
  · rw [hheight, UInt32.toNat_add, h.height]
    exact Nat.mod_eq_of_lt (by change ha + 1 < _; omega)
  · rw [htip, hbid]
    exact hstored.bid

/-- **A node that accepts the rest of a chain** goes up that chain. -/
private theorem OnChainOf.exists_grows (he : e.Reachable env guard) {start : ℕ}
    (h : s.OnChainOf env e start)
    (haccepts : s.accepts env now (e.mainBlocks.drop (start + 1)) = true) :
    ∃ (block : ℕ → PreparedBlock) (node : ℕ → State), node start = s ∧
      (∀ i ≤ e.chain.tip.tipHeight.toNat, PreparedBlock.ofData env false (e.blockDataAt i) = .ok (block i) ∧
        (block i).blockData = e.blockDataAt i) ∧
      Grows env now block node start (e.chain.tip.tipHeight.toNat + 1) := by
  have hprepared : ∀ i, ∃ pb, i ≤ e.chain.tip.tipHeight.toNat →
      PreparedBlock.ofData env false (e.blockDataAt i) = .ok pb ∧ pb.blockData = e.blockDataAt i := by
    intro i
    by_cases hle : i ≤ e.chain.tip.tipHeight.toNat
    · obtain ⟨pb, hpb⟩ := he.exists_storedAt hle
      obtain ⟨pb', hpb', -, -, hdata⟩ := hpb.faithful.ofData
      rw [← hpb.blockDataAt] at hpb' hdata
      exact ⟨pb', fun _ ↦ ⟨hpb', hdata⟩⟩
    · obtain ⟨pb, -⟩ := he.exists_storedAt (Nat.zero_le _)
      exact ⟨pb, fun hle' ↦ absurd hle' hle⟩
  choose block hblock using hprepared
  obtain ⟨node, hzero, hnode⟩ := exists_states_of_foldlM haccepts
  have hstep (i : ℕ) (hi : start + i + 1 ≤ e.chain.tip.tipHeight.toNat) :
      (node i).addNext env now (e.blockDataAt (start + i + 1)) = some (node (i + 1)) := by
    refine hnode i _ ?_
    rw [List.getElem?_drop, show start + 1 + i = start + i + 1 by omega, getElem?_mainBlocks hi]
  have hon (i : ℕ) (hi : start + i ≤ e.chain.tip.tipHeight.toNat) :
      (node i).OnChainOf env e (start + i) := by
    induction i with
    | zero =>
      rw [hzero]
      exact h
    | succ i ih => exact (ih (by omega)).next he (by omega) (hstep i hi)
  refine ⟨block, fun i ↦ node (i - start), ?_, hblock, fun i hstart hi ↦ ?_, fun i hstart hi ↦ ?_⟩
  · dsimp only
    rw [Nat.sub_self, hzero]
  · have := (hon (i - start) (by omega)).height
    omega
  · have hnext := hstep (i - start) (by omega)
    rw [show start + (i - start) + 1 = i + 1 by omega] at hnext
    obtain ⟨pb, info, hpb, hadd⟩ := addNext_eq_some.mp hnext
    rw [(hblock (i + 1) (by omega)).1] at hpb
    obtain rfl := Except.ok.inj hpb
    rw [show i + 1 - start = i - start + 1 by omega]
    exact ⟨info, hadd⟩

end State

/-! ## Importing in turns -/

namespace LegacyBlockChainReader

variable {env : Env} {now : Height → Timestamp} {block : ℕ → PreparedBlock} {node : ℕ → State}
  {r : LegacyBlockChainReader} {start blocks total : ℕ}

theorem next_lt_count_iff {s : State} {i : ℕ} (htip : s.chain.tip.tipHeight.toNat = i) (hi : i + 1 < 2 ^ 32) :
    s.chain.tip.tipHeight + 1 = UInt32.ofNat (i + 1) ∧
      (s.chain.tip.tipHeight + 1 < r.count ↔ i + 1 < r.count.toNat) := by
  have hheight : s.chain.tip.tipHeight + 1 = UInt32.ofNat (i + 1) := by
    rw [UInt32.ofNat_add, ← htip, UInt32.ofNat_toNat]
    rfl
  refine ⟨hheight, ?_⟩
  rw [hheight, UInt32.lt_iff_toNat_lt, toNat_ofNat_of_lt hi]

private theorem importTurns_add (hfeeds : Feeds (fun i ↦ r.fetch env (UInt32.ofNat i)) block blocks)
    (hgrows : Grows env now block node start total) {i : ℕ} (hstart : start ≤ i) (hblocks : i + 1 < blocks)
    (htotal : i + 1 < total) (hcount : i + 1 < r.count.toNat) (turns : ℕ) :
    r.importTurns env now (turns + 1) (node i) = r.importTurns env now turns (node (i + 1)) := by
  obtain ⟨info, hadd⟩ := hgrows.add i hstart htotal
  have hlt := r.count.toNat_lt
  obtain ⟨hheight, hiff⟩ := next_lt_count_iff (r := r) (hgrows.tip i hstart (by omega)) (by omega)
  have hfetch : r.fetch env ((node i).chain.tip.tipHeight + 1) = .ok (block (i + 1)) := by
    rw [hheight]
    exact hfeeds.held (i + 1) hblocks
  rw [importTurns, if_pos (hiff.mpr hcount), hfetch]
  dsimp only
  rw [hadd]

private theorem importTurns_beyond (hfeeds : Feeds (fun i ↦ r.fetch env (UInt32.ofNat i)) block blocks)
    (hgrows : Grows env now block node start total) {i : ℕ} (hstart : start ≤ i) (hblocks : blocks ≤ i + 1)
    (hsmall : blocks < 2 ^ 32 - 1) (htotal : i < total) (hcount : i + 1 < r.count.toNat) (turns : ℕ) :
    r.importTurns env now (turns + 1) (node i) = (node i, .threw .outOfRange) := by
  have hlt := r.count.toNat_lt
  obtain ⟨hheight, hiff⟩ := next_lt_count_iff (r := r) (hgrows.tip i hstart htotal) (by omega)
  have hfetch : r.fetch env ((node i).chain.tip.tipHeight + 1) = .error .outOfRange := by
    rw [hheight]
    exact hfeeds.beyond hsmall (i + 1) hblocks (by omega)
  rw [importTurns, if_pos (hiff.mpr hcount), hfetch]

private theorem importTurns_finished (env : Env) (now : Height → Timestamp) {s : State} {i : ℕ}
    (htip : s.chain.tip.tipHeight.toNat = i)
    (hi : i + 1 < 2 ^ 32) (hcount : r.count.toNat ≤ i + 1) (turns : ℕ) :
    r.importTurns env now (turns + 1) s = (s, .finished) := by
  obtain ⟨-, hiff⟩ := next_lt_count_iff (r := r) htip hi
  rw [importTurns, if_neg (fun hlt ↦ by have := hiff.mp hlt; omega)]

private theorem exists_importTurns (hfeeds : Feeds (fun i ↦ r.fetch env (UInt32.ofNat i)) block blocks)
    (hgrows : Grows env now block node start total) (htotal : blocks ≤ total)
    (hcount : r.count.toNat = blocks) (turns : ℕ) {i : ℕ} (hstart : start ≤ i) (hi : i < blocks) :
    ∃ j stop, r.importTurns env now turns (node i) = (node j, stop) ∧ (stop = .late ∨ stop = .finished) ∧
      i ≤ j ∧ j < blocks ∧ (turns ≠ 0 → i + 1 < blocks → i < j) := by
  induction turns generalizing i with
  | zero => exact ⟨i, .late, rfl, .inl rfl, le_refl i, hi, fun hne ↦ absurd rfl hne⟩
  | succ turns ih =>
    rcases Nat.lt_or_ge (i + 1) blocks with hlt | hge
    · obtain ⟨j, stop, hrun, hstop, hle, hj, -⟩ := ih (i := i + 1) (by omega) hlt
      refine ⟨j, stop, ?_, hstop, by omega, hj, fun _ _ ↦ by omega⟩
      rw [importTurns_add hfeeds hgrows hstart hlt (by omega) (by omega), hrun]
    · have hsmall := r.count.toNat_lt
      have hrest := importTurns_finished (r := r) env now
        (hgrows.tip i hstart (by omega)) (by omega) (by omega) turns
      exact ⟨i, .finished, hrest, .inr rfl, le_refl i, hi, fun _ hlt ↦ by omega⟩

private theorem importBlocks_of_whole (hfeeds : Feeds (fun i ↦ r.fetch env (UInt32.ofNat i)) block blocks)
    (hgrows : Grows env now block node start total) (htotal : blocks ≤ total)
    (hcount : r.count.toNat = blocks) (calls : List ℕ) {i : ℕ} (hstart : start ≤ i) (hi : i < blocks)
    (hcalls : blocks ≤ calls.length + i) :
    ∃ stop, r.importBlocks env now calls (node i) = (node (blocks - 1), some stop) ∧
      stop ≠ .threw .outOfRange := by
  induction calls generalizing i with
  | nil =>
    rw [List.length_nil] at hcalls
    omega
  | cons turns calls ih =>
    have hsmall := r.count.toNat_lt
    obtain ⟨j, stop, hrun, hstop, hle, hj, hlt⟩ :=
      exists_importTurns hfeeds hgrows htotal hcount (turns + 1) hstart hi
    obtain ⟨-, hiff⟩ := next_lt_count_iff (r := r) (hgrows.tip j (by omega) (by omega)) (by omega)
    have hmore : r.notFinished (node j, stop) = decide (j + 1 < blocks) := by
      rw [← hcount, ← decide_eq_decide.mpr hiff]
      rcases hstop with rfl | rfl <;> rfl
    rw [importBlocks, hrun, hmore]
    by_cases hnext : j + 1 < blocks
    · rw [if_pos (decide_eq_true hnext)]
      have := hlt (Nat.succ_ne_zero turns) (by omega)
      rw [List.length_cons] at hcalls
      exact ih (by omega) hj (by omega)
    · rw [if_neg (by rw [decide_eq_false hnext]; exact Bool.false_ne_true), show blocks - 1 = j by omega]
      refine ⟨stop, rfl, ?_⟩
      rcases hstop with rfl | rfl <;> exact ImportStop.noConfusion

private theorem exists_importTurns_beyond
    (hfeeds : Feeds (fun i ↦ r.fetch env (UInt32.ofNat i)) block blocks)
    (hgrows : Grows env now block node start total) (htotal : blocks ≤ total)
    (hcount : blocks < r.count.toNat) (turns : ℕ) {i : ℕ} (hstart : start ≤ i) (hi : i < total)
    (hnext : i + 1 < r.count.toNat) (hturns : turns ≠ 0) (henough : blocks ≤ i + turns) :
    ∃ s', r.importTurns env now turns (node i) = (s', .threw .outOfRange) := by
  have hsmall := r.count.toNat_lt
  induction turns generalizing i with
  | zero => exact absurd rfl hturns
  | succ turns ih =>
    rcases Nat.lt_or_ge (i + 1) blocks with hlt | hge
    · rw [importTurns_add hfeeds hgrows hstart hlt (by omega) hnext]
      exact ih (by omega) (by omega) (by omega) (by omega) (by omega)
    · exact ⟨node i, importTurns_beyond hfeeds hgrows hstart hge (by omega) hi hnext turns⟩

private theorem importBlocks_of_threw {turns : ℕ} {calls : List ℕ} {s s' : State} {e : Failure}
    (h : r.importTurns env now (turns + 1) s = (s', .threw e)) :
    r.importBlocks env now (turns :: calls) s = (s', some (.threw e)) := by
  rw [importBlocks, h]
  rfl

end LegacyBlockChainReader

/-! ## Nothing to import -/

namespace ImportState

variable {env : Env} {now : Height → Timestamp} {last start : ℕ}
  {fetch : ℕ → Except Failure PreparedBlock} {st st' : ImportState}

/-- The other thread is never started. -/
structure Quiet (start : ℕ) (st : ImportState) : Prop where
  thread : st.thread = .absent
  tip : st.tip = start
  main : st.main = .looping ∨ st.main = .leaving (.ok true) ∨ st.main = .returned (.ok true)

/-- How many steps are left. -/
def quietMeasure (st : ImportState) : ℕ :=
  match st.main with
  | .looping => 2
  | .leaving _ => 1
  | _ => 0

theorem Quiet.step (hlast : last ≤ start) (h : st.Quiet start) {event : ImportEvent}
    (hstep : st.step env now last fetch event = some st') :
    st'.Quiet start ∧ st'.quietMeasure < st.quietMeasure := by
  unfold ImportState.step at hstep
  rw [h.thread] at hstep
  rcases event with _ | _ | _
  · rcases mainStep_cases hstep with ⟨-, hlt, rfl⟩ | ⟨hmain, -, rfl⟩ | ⟨i, pb, hmain, -, rfl⟩ |
        ⟨pb, hmain, -⟩ | ⟨result, hmain, -, rfl⟩
    · rw [h.tip] at hlt
      omega
    · refine ⟨⟨congrArg woken h.thread, h.tip, .inr (.inl rfl)⟩, ?_⟩
      unfold quietMeasure
      rw [hmain]
      exact Nat.lt_succ_self 1
    · rcases h.main with hmain' | hmain' | hmain' <;> rw [hmain] at hmain' <;> cases hmain'
    · rcases h.main with hmain' | hmain' | hmain' <;> rw [hmain] at hmain' <;> cases hmain'
    · refine ⟨⟨h.thread, h.tip, .inr (.inr ?_)⟩, ?_⟩
      · rcases h.main with hmain' | hmain' | hmain' <;> rw [hmain] at hmain' <;> cases hmain'
        rfl
      · unfold quietMeasure
        rw [hmain]
        exact Nat.lt_succ_self 0
  · unfold ImportState.threadStep at hstep
    rw [h.thread] at hstep
    cases hstep
  · cases hstep

theorem Quiet.inevitable (hlast : last ≤ start) (h : st.Quiet start) :
    Inevitable (Steps (ImportState.step env now last fetch) (· ≠ .spurious))
      (fun st ↦ st.main = .returned (.ok true) ∧ st.tip = start) st := by
  refine Inevitable.of_measure (Quiet start) quietMeasure (fun st st' hst hstep ↦ ?_)
    (fun st hst ↦ ?_) h
  · obtain ⟨event, -, hevent⟩ := hstep
    exact hst.step hlast hevent
  · have hmainStep : ImportState.step env now last fetch st .main = ImportState.mainStep env now last st :=
      step_main fun e he ↦ by rw [hst.thread] at he; cases he
    have hprogress (h : ∃ st', ImportState.mainStep env now last st = some st') :
        ∃ st', Steps (ImportState.step env now last fetch) (· ≠ .spurious) st st' := by
      obtain ⟨st', hst'⟩ := h
      exact ⟨st', .main, ImportEvent.noConfusion, hmainStep.trans hst'⟩
    rcases hst.main with hmain | hmain | hmain
    · refine .inr (hprogress ?_)
      unfold ImportState.mainStep
      rw [hmain]
      dsimp only
      rw [if_neg (by rw [hst.tip]; omega)]
      exact ⟨_, rfl⟩
    · refine .inr (hprogress ?_)
      unfold ImportState.mainStep
      rw [hmain]
      dsimp only
      rw [hst.thread]
      exact ⟨_, rfl⟩
    · exact .inl ⟨hmain, hst.tip⟩

end ImportState

/-! ## What is expected of both -/

/-- The reader gives back every block of the main chain. -/
def ReadsBack (e : State) (files : BlockFiles) : Prop :=
  ∃ r, LegacyBlockChainReader.openFiles files = .ok r ∧
    ∀ i : Height, i ≤ e.chain.tip.tipHeight → r.getBlockDataByIndex i = .ok (e.blockDataAt i.toNat)

/-- Whatever its schedule, an import with a thread that reads ahead stays within the files and ends
with `target` as the height of the tip. -/
def ImportsAhead (env : Env) (now : Height → Timestamp) (r : LegacyBlockChainReader) (s : State)
    (maxHeight : Height) (target : ℕ) : Prop :=
  ∀ st, Relation.ReflTransGen (Steps (r.importStep env now maxHeight) fun _ ↦ True)
      (r.importBlockchain2 s maxHeight) st →
    st.thread ≠ .threw .outOfRange ∧
      Inevitable (Steps (r.importStep env now maxHeight) (· ≠ .spurious))
        (fun st ↦ st.main = .returned (.ok true) ∧ st.tip = target) st

/-- However long its turns are, an import in turns stays within the files and ends with `target` as the
height of the tip. -/
def ImportsInTurns (env : Env) (now : Height → Timestamp) (r : LegacyBlockChainReader) (s : State)
    (target : ℕ) : Prop :=
  ∀ calls : List ℕ, r.count.toNat < calls.length → ∃ s' stop,
    r.importBlocks env now calls s = (s', some stop) ∧ stop ≠ .threw .outOfRange ∧
      s'.chain.tip.tipHeight.toNat = target

section

variable {env : Env} {now : Height → Timestamp} {block : ℕ → PreparedBlock} {node : ℕ → State}
  {r : LegacyBlockChainReader} {start blocks total : ℕ} {maxHeight : Height}

/-- **Importing in turns** goes well when there is nothing to import, or all blocks that are announced
are there. -/
private theorem importsInTurns_iff (hfeeds : Feeds (fun i ↦ r.fetch env (UInt32.ofNat i)) block blocks)
    (hgrows : Grows env now block node start total) (hstart : start < total) (htotal : total < 2 ^ 32)
    (hblocks : blocks ≤ r.count.toNat) (hcount : r.count.toNat ≤ total) :
    ImportsInTurns env now r (node start) (max start (blocks - 1)) ↔
      r.count.toNat ≤ start + 1 ∨ blocks = r.count.toNat := by
  have htip := hgrows.tip start (le_refl start) hstart
  constructor
  · intro h
    by_contra hnot
    rw [not_or, not_le] at hnot
    obtain ⟨hnext, hne⟩ := hnot
    obtain ⟨s', hturn⟩ := LegacyBlockChainReader.exists_importTurns_beyond hfeeds hgrows (by omega)
      (lt_of_le_of_ne hblocks hne) (blocks + 1) (le_refl start) hstart hnext (Nat.succ_ne_zero _) (by omega)
    obtain ⟨s'', stop, hrun, hthrew, -⟩ := h (blocks :: List.replicate r.count.toNat 0) (by
      rw [List.length_cons, List.length_replicate]
      exact Nat.lt_succ_self _)
    rw [LegacyBlockChainReader.importBlocks_of_threw hturn] at hrun
    cases hrun
    exact hthrew rfl
  · intro h calls hcalls
    rcases Nat.lt_or_ge (start + 1) r.count.toNat with hlt | hge
    · have heq := h.resolve_left (by omega)
      obtain ⟨stop, hrun, hthrew⟩ := LegacyBlockChainReader.importBlocks_of_whole hfeeds hgrows (by omega) heq.symm
        calls (le_refl start) (by omega) (by omega)
      refine ⟨_, stop, hrun, hthrew, ?_⟩
      rw [hgrows.tip (blocks - 1) (by omega) (by omega), Nat.max_eq_right (by omega)]
    · rcases calls with _ | ⟨turns, calls⟩
      · exact absurd hcalls (Nat.not_lt_zero _)
      · have hturn := LegacyBlockChainReader.importTurns_finished env now htip (by omega) hge turns
        obtain ⟨-, hiff⟩ := LegacyBlockChainReader.next_lt_count_iff (r := r) htip (by omega)
        refine ⟨node start, .finished, ?_, LegacyBlockChainReader.ImportStop.noConfusion, ?_⟩
        · rw [LegacyBlockChainReader.importBlocks, hturn]
          exact if_neg fun hmore ↦ by have := hiff.mp (of_decide_eq_true hmore); omega
        · rw [htip, Nat.max_eq_left (by omega)]

private theorem count_lt_of_lt (hpos : start < r.importHeight maxHeight) : r.count.toNat < 2 ^ 32 - 1 := by
  have hsmall := r.count.toNat_lt
  by_contra hlarge
  have hwrap : r.count + 1 = 0 := by
    rw [← UInt32.toNat_inj, UInt32.toNat_add]
    change (r.count.toNat + 1) % 2 ^ 32 = 0
    omega
  unfold LegacyBlockChainReader.importHeight at hpos
  change start < (if maxHeight ≤ r.count + 1 then maxHeight else r.count + 1).toNat at hpos
  rw [hwrap] at hpos
  split_ifs at hpos with hle
  · have := UInt32.le_iff_toNat_le.mp hle
    change maxHeight.toNat ≤ 0 at this
    omega
  · exact Nat.not_lt_zero _ hpos

private theorem importHeight_eq_of_lt (hpos : start < r.importHeight maxHeight)
    (hlt : r.importHeight maxHeight < r.count.toNat) : r.importHeight maxHeight = maxHeight.toNat := by
  unfold LegacyBlockChainReader.importHeight at hpos hlt ⊢
  change start < (if maxHeight ≤ r.count + 1 then maxHeight else r.count + 1).toNat at hpos
  change (if maxHeight ≤ r.count + 1 then maxHeight else r.count + 1).toNat < _ at hlt
  change (if maxHeight ≤ r.count + 1 then maxHeight else r.count + 1).toNat = _
  split_ifs at hpos hlt ⊢
  · rfl
  · have hsmall := r.count.toNat_lt
    rw [UInt32.toNat_add] at hpos hlt
    change start < (r.count.toNat + 1) % 2 ^ 32 at hpos
    change (r.count.toNat + 1) % 2 ^ 32 < _ at hlt
    omega

private theorem quiet_importBlockchain2 (maxHeight : Height) {s : State}
    (htip : s.chain.tip.tipHeight.toNat = start) :
    (r.importBlockchain2 s maxHeight).Quiet start := by
  unfold LegacyBlockChainReader.importBlockchain2
  dsimp only
  split_ifs
  · exact ⟨rfl, htip, .inr (.inl rfl)⟩
  · exact ⟨rfl, htip, .inl rfl⟩

/-- **Importing with a thread that reads ahead** goes well when there is nothing to import, or there is
room for reading ahead. -/
private theorem importsAhead_iff (maxHeight : Height)
    (hfeeds : Feeds (fun i ↦ r.fetch env (UInt32.ofNat i)) block blocks)
    (hgrows : Grows env now block node start total) (hstart : start < total)
    (hblocks : blocks ≤ r.count.toNat) (hcount : r.count.toNat ≤ total) :
    ImportsAhead env now r (node start) maxHeight (max start (min maxHeight.toNat (blocks - 1))) ↔
      (r.importHeight maxHeight ≤ start ∧ min maxHeight.toNat (blocks - 1) ≤ start) ∨
        (start < r.importHeight maxHeight ∧
          Roomy (fun i ↦ (block i).blockData.length) (r.importHeight maxHeight) blocks) := by
  have htip := hgrows.tip start (le_refl start) hstart
  have hsmall := r.count.toNat_lt
  have hlast : r.importHeight maxHeight < 2 ^ 32 := (min maxHeight (r.count + 1)).toNat_lt
  constructor
  · intro h
    rcases Nat.lt_or_ge start (r.importHeight maxHeight) with hlt | hge
    · refine .inr ⟨hlt, ?_⟩
      by_contra hroomy
      have hbegin : r.importBlockchain2 (node start) maxHeight = { node := node start } :=
        if_neg (by change ¬_ < (node start).chain.tip.tipHeight.toNat; omega)
      obtain ⟨st, hrun, hthrew⟩ := ImportState.exists_overrun hfeeds (hgrows.mono (by omega))
        (hblocks.trans_lt (count_lt_of_lt hlt)) hlast hlt hroomy rfl htip
      rw [← hbegin] at hrun
      exact (h st hrun).1 hthrew
    · refine .inl ⟨hge, ?_⟩
      have hquiet := quiet_importBlockchain2 (r := r) maxHeight htip
      obtain ⟨st, hrun, hreturned, htip'⟩ : ∃ st, Relation.ReflTransGen
          (Steps (r.importStep env now maxHeight) (· ≠ .spurious)) (r.importBlockchain2 (node start) maxHeight) st ∧
          st.main = .returned (.ok true) ∧ st.tip = start := (hquiet.inevitable hge).exists_run
      have hquiet' : st.Quiet start :=
        Steps.invariant (fun st event st' hst hstep ↦ (hst.step hge hstep).1) hquiet hrun
      have hgoal := (h st (Relation.ReflTransGen.mono (fun _ _ ↦ Steps.mono fun _ _ ↦ trivial) _ _ hrun)).2.of_stuck fun st' hst' ↦ by
        obtain ⟨event, -, hevent⟩ := hst'
        have hless := (hquiet'.step hge hevent).2
        unfold ImportState.quietMeasure at hless
        rw [hreturned] at hless
        exact Nat.not_lt_zero _ hless
      rw [htip'] at hgoal
      omega
  · rintro (⟨hge, hle⟩ | ⟨hlt, hroomy⟩) st hrun
    · have hquiet : st.Quiet start := Steps.invariant (fun st event st' hst hstep ↦ (hst.step hge hstep).1)
        (quiet_importBlockchain2 maxHeight htip) hrun
      refine ⟨fun hthrew ↦ ?_, ?_⟩
      · rw [hquiet.thread] at hthrew
        cases hthrew
      · rw [Nat.max_eq_left hle]
        exact hquiet.inevitable hge
    · have hgrows' : Grows env now block node start blocks := hgrows.mono (by omega)
      have hbegin : r.importBlockchain2 (node start) maxHeight = { node := node start } :=
        if_neg (by change ¬_ < (node start).chain.tip.tipHeight.toNat; omega)
      rw [hbegin] at hrun
      have hsound : st.Sound block node start (r.importHeight maxHeight) blocks :=
        Steps.invariant (fun st event st' hst hstep ↦ hst.step hfeeds hgrows' hlt hroomy hstep)
          (ImportState.sound_start rfl htip hlt) hrun
      have htarget : max start (min maxHeight.toNat (blocks - 1)) = r.importHeight maxHeight := by
        have heq := importHeight_eq_of_lt hlt (hroomy.1.trans_le hblocks)
        have hbelow := hroomy.1
        omega
      rw [htarget]
      exact ⟨hsound.not_threw _, hsound.inevitable hfeeds hgrows' hlt hroomy⟩

end

namespace State

variable {env : Env} {guard : State → Op → Prop} {now : Height → Timestamp} {e s : State}

private theorem Reachable.readsBack_iff (he : e.Reachable env guard) {w : LegacyBlockChainWriter}
    (hw : e.exportBlockchain2 = .ok w) : ReadsBack e w.files ↔ e.chain.tip.tipHeight ≠ 0xFFFFFFFF := by
  constructor
  · rintro ⟨r, hr, hall⟩ hfull
    obtain ⟨w', hw', hfiles⟩ := exportBlockchain2_of_full hfull
    rw [hw] at hw'
    obtain rfl := Except.ok.inj hw'
    obtain ⟨r', hr', hopened⟩ := LegacyBlockChainReader.exists_opened [] (filesOf []).index.length
      (filesOf []).items.length (by norm_num) (fun b hb ↦ by cases hb)
    rw [cut_self, ← hfiles, hr] at hr'
    obtain rfl := Except.ok.inj hr'
    have hread := hopened.getBlockDataByIndex_beyond (i := 0) (by rw [wholeBlocks_self]; rfl) (by norm_num)
      (by rw [wholeBlocks_self]; norm_num)
    rw [hall (UInt32.ofNat 0) (UInt32.le_iff_toNat_le.mpr (Nat.zero_le _))] at hread
    cases hread
  · intro hfull
    obtain ⟨w', hw', hfiles⟩ := he.exportBlockchain2 hfull
    rw [hw] at hw'
    obtain rfl := Except.ok.inj hw'
    have hnext := (e.chain.tip.tipHeight + 1).toNat_lt
    rw [toNat_add_one hfull] at hnext
    obtain ⟨r, hr, hopened⟩ := LegacyBlockChainReader.exists_opened e.mainBlocks
      (filesOf e.mainBlocks).index.length (filesOf e.mainBlocks).items.length
      (by rw [length_mainBlocks]; exact hnext) fun b hb ↦ he.length_lt_of_mem hb
    rw [cut_self, ← hfiles] at hr
    refine ⟨r, hr, fun i hi ↦ ?_⟩
    have hi' := UInt32.le_iff_toNat_le.mp hi
    have hread := hopened.getBlockDataByIndex (i := i.toNat)
      (by rw [wholeBlocks_self, length_mainBlocks]; omega) (getElem?_mainBlocks hi')
    rwa [UInt32.ofNat_toNat] at hread

private theorem feeds_of_opened {r : LegacyBlockChainReader} {indexSize itemsSize : ℕ}
    (hr : r.Opened e.mainBlocks indexSize itemsSize) {block : ℕ → PreparedBlock}
    (hblock : ∀ i ≤ e.chain.tip.tipHeight.toNat,
      PreparedBlock.ofData env false (e.blockDataAt i) = .ok (block i) ∧
        (block i).blockData = e.blockDataAt i) :
    Feeds (fun i ↦ r.fetch env (UInt32.ofNat i)) block (wholeBlocks e.mainBlocks indexSize itemsSize) where
  held := by
    intro i hi
    have hle := (wholeBlocks_le_announced e.mainBlocks indexSize itemsSize).trans (announced_le _ _)
    rw [length_mainBlocks] at hle
    have hi' : i ≤ e.chain.tip.tipHeight.toNat := by omega
    rw [LegacyBlockChainReader.fetch, hr.getBlockDataByIndex hi (getElem?_mainBlocks hi'), ok_bind,
      (hblock i hi').1]
    rfl
  beyond := by
    intro hsmall i hi hlt
    rw [LegacyBlockChainReader.fetch, hr.getBlockDataByIndex_beyond hi hlt hsmall]
    rfl

private theorem OnChainOf.exists_import (he : e.Reachable env guard)
    (hfull : e.chain.tip.tipHeight ≠ 0xFFFFFFFF)
    {start : ℕ} (hs : s.OnChainOf env e start)
    (haccepts : s.accepts env now (e.mainBlocks.drop (start + 1)) = true) (indexSize itemsSize : ℕ) :
    ∃ w r block node, e.exportBlockchain2 = .ok w ∧
      LegacyBlockChainReader.openFiles (w.files.cut indexSize itemsSize) = .ok r ∧
      r.Opened e.mainBlocks indexSize itemsSize ∧ node start = s ∧
      Feeds (fun i ↦ r.fetch env (UInt32.ofNat i)) block (wholeBlocks e.mainBlocks indexSize itemsSize) ∧
      Grows env now block node start (e.chain.tip.tipHeight.toNat + 1) ∧
      ∀ i ≤ e.chain.tip.tipHeight.toNat, (block i).blockData = e.blockDataAt i := by
  obtain ⟨w, hw, hfiles⟩ := he.exportBlockchain2 hfull
  have hnext := (e.chain.tip.tipHeight + 1).toNat_lt
  rw [toNat_add_one hfull] at hnext
  obtain ⟨r, hr, hopened⟩ := LegacyBlockChainReader.exists_opened e.mainBlocks indexSize itemsSize
    (by rw [length_mainBlocks]; exact hnext) fun b hb ↦ he.length_lt_of_mem hb
  obtain ⟨block, node, hnode, hblock, hgrows⟩ := hs.exists_grows he haccepts
  exact ⟨w, r, block, node, hw, by rw [hfiles]; exact hr, hopened, hnode, feeds_of_opened hopened hblock, hgrows,
    fun i hi ↦ (hblock i hi).2⟩

/-- **Export and import.** The blocks of the main chain are read back, and both ways of importing the two
files, as far as they were written, end at the last block that is there or that is wanted and never go
beyond the table of offsets: exactly when the chain has fewer than `2 ^ 32` blocks, and

* the thread that reads ahead has nothing to do, or the files have so many blocks above the last one that
  is wanted that it does not come to their end;
* the node has all blocks that the index announces, or the items file has them all. -/
theorem Reachable.import_iff (he : e.Reachable env guard) {start : ℕ} (hs : s.OnChainOf env e start)
    (haccepts : s.accepts env now (e.mainBlocks.drop (start + 1)) = true) (maxHeight : Height)
    (indexSize itemsSize : ℕ) :
    ∃ w r, e.exportBlockchain2 = .ok w ∧
      LegacyBlockChainReader.openFiles (w.files.cut indexSize itemsSize) = .ok r ∧
      let announced := announced e.mainBlocks.length indexSize
      let whole := wholeBlocks e.mainBlocks indexSize itemsSize
      let wanted := (min maxHeight (UInt32.ofNat announced + 1)).toNat
      (ReadsBack e w.files ∧
          ImportsAhead env now r s maxHeight (max start (min maxHeight.toNat (whole - 1))) ∧
          ImportsInTurns env now r s (max start (whole - 1)) ↔
        e.chain.tip.tipHeight ≠ 0xFFFFFFFF ∧
          (wanted ≤ start ∧ min maxHeight.toNat (whole - 1) ≤ start ∨
            start < wanted ∧ Roomy (fun i ↦ (e.blockDataAt i).length) wanted whole) ∧
          (announced ≤ start + 1 ∨ whole = announced)) := by
  by_cases hfull : e.chain.tip.tipHeight = 0xFFFFFFFF
  · obtain ⟨w, hw, hfiles⟩ := exportBlockchain2_of_full hfull
    obtain ⟨r, hr, -⟩ := LegacyBlockChainReader.exists_opened [] indexSize itemsSize (by norm_num)
      fun b hb ↦ by cases hb
    refine ⟨w, r, hw, by rw [hfiles]; exact hr, ?_⟩
    constructor
    · rintro ⟨hreads, -⟩
      exact absurd hfull ((he.readsBack_iff hw).mp hreads)
    · rintro ⟨hnot, -⟩
      exact absurd hfull hnot
  · obtain ⟨w, r, block, node, hw, hr, hopened, rfl, hfeeds, hgrows, hdata⟩ :=
      hs.exists_import he hfull haccepts indexSize itemsSize
    refine ⟨w, r, hw, hr, ?_⟩
    have hnext := (e.chain.tip.tipHeight + 1).toNat_lt
    rw [toNat_add_one hfull] at hnext
    have hwhole := wholeBlocks_le_announced e.mainBlocks indexSize itemsSize
    have hannounced := announced_le e.mainBlocks.length indexSize
    rw [length_mainBlocks] at hannounced
    have hstart := hs.le
    have hahead := importsAhead_iff maxHeight hfeeds hgrows (by omega)
      (by rw [hopened.count]; exact hwhole) (by rw [hopened.count, length_mainBlocks]; exact hannounced)
    have hturns := importsInTurns_iff hfeeds hgrows (by omega) hnext
      (by rw [hopened.count]; exact hwhole) (by rw [hopened.count, length_mainBlocks]; exact hannounced)
    have hcount : r.count = UInt32.ofNat (announced e.mainBlocks.length indexSize) := by
      rw [← hopened.count, UInt32.ofNat_toNat]
    have hroomy (last : ℕ) : Roomy (fun i ↦ (block i).blockData.length) last
          (wholeBlocks e.mainBlocks indexSize itemsSize) ↔
        Roomy (fun i ↦ (e.blockDataAt i).length) last (wholeBlocks e.mainBlocks indexSize itemsSize) :=
      roomy_congr fun i hi ↦ congrArg List.length (hdata i (by rw [length_mainBlocks] at hwhole; omega))
    dsimp only
    rw [he.readsBack_iff hw, hahead, hturns, hopened.count, hroomy, LegacyBlockChainReader.importHeight, hcount]

private theorem exists_exported : ∃ e s :
    State, (e.Reachable (.lax 5) fun _ _ ↦ True) ∧ s.OnChainOf (.lax 5) e 0 ∧
    s.accepts (.lax 5) (fun _ ↦ 0) (e.mainBlocks.drop 1) = true ∧ e.mainBlocks.length = 3 ∧
    wholeBlocks e.mainBlocks 1000000 1000000 = 3 := by
  obtain ⟨e, he, hp⟩ := exists_reachable 0 (sampleBlocks (.lax 5))
    (fun e ↦ decide (∃ s ∈ (openEmpty (.lax 5) 0).toOption, s.chain.tip.tipHeight = 0 ∧
      e.chain.tip.tipChain[UInt32.ofNat 0]? = some s.chain.tip.tipBid ∧
      s.accepts (.lax 5) (fun _ ↦ 0) (e.mainBlocks.drop 1) = true ∧ e.mainBlocks.length = 3 ∧
      wholeBlocks e.mainBlocks 1000000 1000000 = 3))
    (show endsIn (.lax 5) _ _ _ = true by decide +kernel)
  obtain ⟨s, hs, hheight, hbid, haccepts, hlength, hwhole⟩ := of_decide_eq_true hp
  exact ⟨e, s, he, ⟨.start ⟨0, toOption_eq_some.mp hs⟩, congrArg UInt32.toNat hheight, Nat.zero_le _, hbid⟩,
    haccepts, hlength, hwhole⟩

/-- The blocks are read back, and the turns go up to the third one. With all of them wanted the thread
that reads ahead starts, and there are not enough blocks above the last one for it. -/
theorem import_sample : ∃ (e s : State) (w : LegacyBlockChainWriter) (r : LegacyBlockChainReader),
    e.exportBlockchain2 = .ok w ∧ LegacyBlockChainReader.openFiles (w.files.cut 1000000 1000000) = .ok r ∧
    s.chain.tip.tipHeight = 0 ∧ ReadsBack e w.files ∧ ImportsInTurns (.lax 5) (fun _ ↦ 0) r s 2 ∧
    ImportsAhead (.lax 5) (fun _ ↦ 0) r s 0 0 ∧ ¬ImportsAhead (.lax 5) (fun _ ↦ 0) r s 300000 2 := by
  obtain ⟨e, s, he, hs, haccepts, hlength, hwhole⟩ := exists_exported
  obtain ⟨w, r, hw, hr, hidle⟩ := Reachable.import_iff he hs haccepts 0 1000000 1000000
  obtain ⟨w', r', hw', hr', hall⟩ := Reachable.import_iff he hs haccepts 300000 1000000 1000000
  obtain rfl := Except.ok.inj (hw.symm.trans hw')
  obtain rfl := Except.ok.inj (hr.symm.trans hr')
  dsimp only at hidle hall
  rw [hwhole, hlength] at hidle hall
  have htip : e.chain.tip.tipHeight ≠ 0xFFFFFFFF := by
    intro hfull
    rw [length_mainBlocks, hfull] at hlength
    cases hlength
  obtain ⟨hreads, hahead, hturns⟩ := hidle.mpr ⟨htip, .inl (by decide), .inr rfl⟩
  refine ⟨e, s, w, r, hw, hr, UInt32.toNat_inj.mp hs.height, hreads, hturns, hahead, fun hall' ↦ ?_⟩
  obtain ⟨-, ⟨hnone, -⟩ | ⟨-, hroomy⟩, -⟩ := hall.mp ⟨hreads, hall', hturns⟩
  · exact absurd hnone (by decide)
  · exact absurd hroomy.1 (by decide)

/-- The files of three blocks are complete, and the node wants all of them: there is a schedule in which
the thread that reads ahead asks for a fourth one, and its exception ends the process. -/
theorem import_not : ∃ (e s : State) (w : LegacyBlockChainWriter) (r : LegacyBlockChainReader)
    (st : ImportState), (e.Reachable (.lax 5) fun _ _ ↦ True) ∧ s.OnChainOf (.lax 5) e 0 ∧
    s.accepts (.lax 5) (fun _ ↦ 0) (e.mainBlocks.drop 1) = true ∧ e.exportBlockchain2 = .ok w ∧
    LegacyBlockChainReader.openFiles (w.files.cut 1000000 1000000) = .ok r ∧ r.count = 3 ∧
    Relation.ReflTransGen (Steps (r.importStep (.lax 5) (fun _ ↦ 0) 300000) fun _ ↦ True)
      (r.importBlockchain2 s 300000) st ∧
    st.thread = .threw .outOfRange := by
  obtain ⟨e, s, he, hs, haccepts, hlength, hwhole⟩ := exists_exported
  have htip : e.chain.tip.tipHeight ≠ 0xFFFFFFFF := by
    intro hfull
    rw [length_mainBlocks, hfull] at hlength
    cases hlength
  obtain ⟨w, r, block, node, hw, hr, hopened, hnode, hfeeds, hgrows, -⟩ :=
    hs.exists_import he htip haccepts 1000000 1000000
  rw [length_mainBlocks] at hlength
  rw [hlength] at hgrows
  rw [hwhole] at hfeeds
  have hcount : r.count = 3 := by
    rw [← UInt32.toNat_inj, hopened.count, length_mainBlocks, hlength]
    rfl
  have hlast : r.importHeight 300000 = 4 := by
    rw [LegacyBlockChainReader.importHeight, hcount]
    rfl
  have hbegin : r.importBlockchain2 s 300000 = { node := s } :=
    if_neg (by change ¬_ < s.chain.tip.tipHeight.toNat; rw [hs.height]; exact Nat.not_lt_zero _)
  obtain ⟨st, hrun, hthrew⟩ := ImportState.exists_overrun hfeeds hgrows (by norm_num)
    (show (4 : ℕ) < 2 ^ 32 by norm_num) (show 0 < 4 by norm_num) (fun hroomy ↦ absurd hroomy.1 (by norm_num))
    hnode.symm hs.height
  refine ⟨e, s, w, r, st, he, hs, haccepts, hw, hr, hcount, ?_, hthrew⟩
  rw [hbegin, LegacyBlockChainReader.importStep, hlast]
  exact hrun

end State

end CryoNero
