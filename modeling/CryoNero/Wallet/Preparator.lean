import CryoNero.Core.WalletPreparator
import CryoNero.Store.Totals
import CryoNero.Wallet.Unconfirmed

/-!
# A prepared block is the block that was asked for

Work that is given up before the next is started leaves nothing behind: the blocks that wait and the blocks
that are ready are cleared, and `workCounter` passes the value that every worker remembers. So the blocks
that are ready belong to the latest response, and the place of a block in the response is told by its height.

The mutex alone does not give this. `start_work` clears no blocks that are ready, and when it is called
twice in a row, a block of the first response is handed out for the second.
-/

namespace CryoNero

open Store

namespace WalletPreparatorMulticore

variable {crypto : SpendCrypto} {s s' : WalletPreparatorMulticore}

/-- The block and its height as the origin names them. -/
structure ComesFrom (calls : List WorkCall) (origin : Origin) (call : WorkCall) (block : RawBlockResponse)
    (height : Height) : Prop where
  getElem?_calls : calls[origin.1]? = some call
  getElem?_blocks : call.work.blocks[origin.2]? = some block
  height_eq : height = call.work.startHeight + UInt32.ofNat origin.2

theorem ComesFrom.append {calls : List WorkCall} {origin : Origin} {call : WorkCall}
    {block : RawBlockResponse} {height : Height} (h : ComesFrom calls origin call block height)
    (next : WorkCall) : ComesFrom (calls ++ [next]) origin call block height where
  getElem?_calls := by
    rw [List.getElem?_append_left (List.getElem?_eq_some_iff.mp h.getElem?_calls).1]
    exact h.getElem?_calls
  getElem?_blocks := h.getElem?_blocks
  height_eq := h.height_eq

/-- Where the blocks that are ready come from. -/
def readyOrigins (t : Table Height (PreparedWalletBlock × Origin)) : Multiset Origin :=
  t.toList.map fun e ↦ e.2.2

private theorem readyOrigins_empty : readyOrigins ∅ = 0 := rfl

private theorem readyOrigins_of_get {t : Table Height (PreparedWalletBlock × Origin)} {height : Height}
    {result : PreparedWalletBlock} {origin : Origin} (h : t[height]? = some (result, origin)) :
    readyOrigins t = origin ::ₘ readyOrigins (t.erase height) :=
  Multiset.coe_eq_coe.mpr ((Table.toList_perm_of_get h).map _)

private theorem readyOrigins_insert_le (t : Table Height (PreparedWalletBlock × Origin)) (height : Height)
    (result : PreparedWalletBlock) (origin : Origin) :
    readyOrigins (t.insert height (result, origin)) ≤ origin ::ₘ readyOrigins t := by
  have hinsert : readyOrigins (t.insert height (result, origin)) =
      origin ::ₘ readyOrigins (t.erase height) :=
    Multiset.coe_eq_coe.mpr ((Table.toList_insert_perm t height (result, origin)).map _)
  rw [hinsert, Multiset.cons_le_cons_iff]
  rcases hold : t[height]? with - | ⟨old, other⟩
  · rw [Table.erase_of_get_eq_none hold]
  · rw [readyOrigins_of_get hold]
    exact Multiset.le_cons_self _ _

/-- Where the blocks come from that are being prepared. -/
def heldOrigins (s : WalletPreparatorMulticore) : Multiset Origin :=
  (heldJobs s.threads).map PreparingJob.origin

/-- What the threads hold, and where the blocks are. -/
structure Sound (crypto : SpendCrypto) (s : WalletPreparatorMulticore) : Prop where
  /-- No worker is ahead of the current work. -/
  held_le : ∀ job ∈ heldJobs s.threads, job.localWorkCounter ≤ s.workCounter
  held_from : ∀ job ∈ heldJobs s.threads, ∃ call,
    ComesFrom s.calls job.origin call job.syncBlock job.height ∧ job.viewSecretKey = call.viewSecretKey
  held_current : ∀ job ∈ heldJobs s.threads, job.localWorkCounter = s.workCounter →
    s.idle = false ∧ job.origin.1 + 1 = s.calls.length
  work_from : s.work.blocks ≠ [] → s.idle = false ∧ ∃ call, s.calls.getLast? = some call ∧
    s.workSecretKey = call.viewSecretKey ∧ s.work.blocks = call.work.blocks.drop s.nextIndex ∧
    s.work.startHeight = call.work.startHeight + UInt32.ofNat s.nextIndex
  ready_from : ∀ height result origin, s.preparedBlocks[height]? = some (result, origin) →
    s.idle = false ∧ origin.1 + 1 = s.calls.length ∧ ∃ call block,
      ComesFrom s.calls origin call block height ∧ result = .prepare crypto block call.viewSecretKey
  taken_nodup : s.taken.Nodup
  taken_lt : ∀ origin ∈ s.taken, origin.1 < s.calls.length ∧
    (s.work.blocks ≠ [] → origin.1 + 1 = s.calls.length → origin.2 < s.nextIndex)
  /-- A block that was taken is with its worker, ready, handed out or thrown away. -/
  accounts : (s.handedOut : Multiset Origin) + readyOrigins s.preparedBlocks + s.heldOrigins ≤ s.taken

/-! ## The calls -/

theorem sound_cancelWork (hs : s.Sound crypto) (h : s.cancelWork = .ok s') : s'.Sound crypto := by
  rw [cancelWork] at h
  split_ifs at h
  obtain rfl := Except.ok.inj h
  refine ⟨?_, hs.held_from, ?_, ?_, ?_, hs.taken_nodup, ?_, ?_⟩
  · intro job hjob
    exact (hs.held_le job hjob).trans (Nat.le_succ _)
  · intro job hjob heq
    have := hs.held_le job hjob
    dsimp only at heq
    omega
  · intro hne
    exact absurd rfl hne
  · intro height result origin hready
    simp at hready
  · intro origin horigin
    exact ⟨(hs.taken_lt origin horigin).1, fun hne ↦ absurd rfl hne⟩
  · refine le_trans ?_ hs.accounts
    dsimp only
    rw [readyOrigins_empty, add_zero]
    exact add_le_add_left (Multiset.le_add_right _ _) _

/-- Nothing that is ready is left when work is started. -/
theorem sound_startWork (hs : s.Sound crypto) {call : WorkCall} (hidle : s.idle = true)
    (h : s.startWork call = .ok s') : s'.Sound crypto := by
  rw [startWork] at h
  split_ifs at h
  obtain rfl := Except.ok.inj h
  have hindex : ((s.calls ++ [call]).getLast?.map (·.work.blocks.length)).getD 0 - call.work.blocks.length
      = 0 := by
    rw [List.getLast?_concat, Option.map_some, Option.getD_some, Nat.sub_self]
  refine ⟨?_, ?_, ?_, ?_, ?_, hs.taken_nodup, ?_, hs.accounts⟩
  · intro job hjob
    exact (hs.held_le job hjob).trans (Nat.le_succ _)
  · intro job hjob
    obtain ⟨old, hfrom, hkey⟩ := hs.held_from job hjob
    exact ⟨old, hfrom.append call, hkey⟩
  · intro job hjob heq
    have := hs.held_le job hjob
    dsimp only at heq
    omega
  · intro _
    refine ⟨rfl, call, List.getLast?_concat, rfl, ?_, ?_⟩
    · rw [nextIndex, hindex, List.drop_zero]
    · rw [nextIndex, hindex]
      exact (UInt32.add_zero _).symm
  · intro height result origin hready
    have hfalse := (hs.ready_from height result origin hready).1
    rw [hidle] at hfalse
    cases hfalse
  · intro origin horigin
    have hlt := (hs.taken_lt origin horigin).1
    rw [List.length_append, List.length_singleton]
    refine ⟨by omega, fun _ heq ↦ ?_⟩
    omega

private theorem sound_getReadyWork (hs : s.Sound crypto) {height : Height} {result : PreparedWalletBlock}
    (h : s.getReadyWork height = .ok (s', result)) : s'.Sound crypto := by
  rw [getReadyWork] at h
  split at h
  next block origin hready =>
    cases h
    refine ⟨hs.held_le, hs.held_from, hs.held_current, hs.work_from, ?_, hs.taken_nodup, hs.taken_lt, ?_⟩
    · intro height' result' origin' hready'
      rw [Table.get_erase] at hready'
      split_ifs at hready'
      exact hs.ready_from height' result' origin' hready'
    · have haccounts := hs.accounts
      rw [readyOrigins_of_get hready, heldOrigins] at haccounts
      -- The block goes from those that are ready to those that were handed out.
      refine le_trans (le_of_eq ?_) haccounts
      dsimp only [heldOrigins]
      rw [← Multiset.coe_add, Multiset.coe_singleton, ← Multiset.singleton_add]
      ac_rfl
  next => cases h

/-! ## The workers -/

theorem sound_take (hs : s.Sound crypto) {thread : ℕ} (h : s.take thread = .ok s') :
    s'.Sound crypto := by
  rw [take] at h
  split at h
  next syncBlock blocks _ hthread hblocks =>
    obtain rfl := Except.ok.inj h
    have hne : s.work.blocks ≠ [] := by
      rw [hblocks]
      exact List.cons_ne_nil _ _
    obtain ⟨hidle, call, hlast, hkey, hdrop, hheight⟩ := hs.work_from hne
    set n := s.nextIndex with hn
    have hpos : 0 < s.calls.length := List.length_pos_iff.mpr fun hnil ↦ by simp [hnil] at hlast
    have hcall : s.calls[s.calls.length - 1]? = some call := by
      rw [← List.getLast?_eq_getElem?]
      exact hlast
    have hsome : call.work.blocks[n]? = some syncBlock := by
      rw [← List.head?_drop, ← hdrop, hblocks]
      rfl
    have hrest : blocks = call.work.blocks.drop (n + 1) := by
      rw [← List.tail_drop, ← hdrop, hblocks]
      rfl
    have hnlt : n < call.work.blocks.length := (List.getElem?_eq_some_iff.mp hsome).1
    -- The next block is the one behind it.
    have hnext : (s.calls.getLast?.map (·.work.blocks.length)).getD 0 - blocks.length = n + 1 := by
      rw [hlast, Option.map_some, Option.getD_some, hrest, List.length_drop]
      omega
    have hfresh : (s.calls.length - 1, n) ∉ s.taken := by
      intro hmem
      have hlt := (hs.taken_lt _ hmem).2 hne (Nat.sub_add_cancel hpos)
      exact absurd hlt (lt_irrefl n)
    have hheld := heldJobs_set_some (⟨s.workCounter, s.workSecretKey, s.work.startHeight, syncBlock,
      (s.calls.length - 1, n)⟩ : PreparingJob) hthread
    refine ⟨?_, ?_, ?_, ?_, hs.ready_from, ?_, ?_, ?_⟩
    · intro job hjob
      rcases List.mem_cons.mp (hheld.mem_iff.mp hjob) with rfl | hold
      · exact le_refl _
      · exact hs.held_le job hold
    · intro job hjob
      rcases List.mem_cons.mp (hheld.mem_iff.mp hjob) with rfl | hold
      · exact ⟨call, ⟨hcall, hsome, hheight⟩, hkey⟩
      · exact hs.held_from job hold
    · intro job hjob heq
      rcases List.mem_cons.mp (hheld.mem_iff.mp hjob) with rfl | hold
      · exact ⟨hidle, Nat.sub_add_cancel hpos⟩
      · exact hs.held_current job hold heq
    · intro _
      refine ⟨hidle, call, hlast, hkey, ?_, ?_⟩
      · rw [nextIndex, hnext]
        exact hrest
      · rw [nextIndex, hnext]
        dsimp only
        rw [hheight, UInt32.ofNat_add, ← UInt32.add_assoc]
        rfl
    · apply hs.taken_nodup.append (List.nodup_singleton _)
      exact List.disjoint_singleton.mpr hfresh
    · intro origin horigin
      rw [nextIndex, hnext]
      rcases List.mem_append.mp horigin with hold | hnew
      · obtain ⟨hlt, hbefore⟩ := hs.taken_lt origin hold
        refine ⟨hlt, fun _ heq ↦ ?_⟩
        have := hbefore hne heq
        omega
      · obtain rfl := List.mem_singleton.mp hnew
        refine ⟨?_, fun _ _ ↦ Nat.lt_succ_self n⟩
        exact Nat.sub_lt hpos one_pos
    · have horigins := Multiset.coe_eq_coe.mpr (hheld.map PreparingJob.origin)
      have haccounts := hs.accounts
      rw [heldOrigins] at haccounts ⊢
      dsimp only at horigins ⊢
      rw [horigins, List.map_cons, ← Multiset.cons_coe, Multiset.add_cons, ← Multiset.coe_add,
        Multiset.coe_singleton, ← Multiset.singleton_add, add_comm]
      exact add_le_add_left haccounts _
  next => cases h

theorem sound_publish (hs : s.Sound crypto) {thread : ℕ} (h : s.publish crypto thread = .ok s') :
    s'.Sound crypto := by
  rw [publish] at h
  split at h
  next job hthread =>
    have hheld := heldJobs_set_none hthread
    have hjob : job ∈ heldJobs s.threads := hheld.mem_iff.mpr (List.mem_cons_self ..)
    have hmem : ∀ other ∈ heldJobs (s.threads.set thread none), other ∈ heldJobs s.threads :=
      fun other hother ↦ hheld.mem_iff.mpr (List.mem_cons_of_mem _ hother)
    have horigins : s.heldOrigins =
        job.origin ::ₘ ((heldJobs (s.threads.set thread none)).map PreparingJob.origin : Multiset Origin) :=
      Multiset.coe_eq_coe.mpr (hheld.map PreparingJob.origin)
    have haccounts := hs.accounts
    rw [horigins] at haccounts
    dsimp only at h
    split_ifs at h with hcurrent
    · obtain rfl := Except.ok.inj h
      refine ⟨fun other hother ↦ hs.held_le other (hmem other hother),
        fun other hother ↦ hs.held_from other (hmem other hother),
        fun other hother ↦ hs.held_current other (hmem other hother), hs.work_from, ?_, hs.taken_nodup,
        hs.taken_lt, ?_⟩
      · intro height result origin hready
        rw [Table.get_insert] at hready
        split_ifs at hready with hheight
        · cases hready
          subst hheight
          obtain ⟨call, hfrom, hkey⟩ := hs.held_from job hjob
          obtain ⟨hidle, hlatest⟩ := hs.held_current job hjob hcurrent
          exact ⟨hidle, hlatest, call, job.syncBlock, hfrom, by rw [hkey]⟩
        · exact hs.ready_from height result origin hready
      · -- The block goes from the worker to those that are ready.
        refine le_trans ?_ haccounts
        dsimp only [heldOrigins]
        rw [Multiset.add_cons, ← Multiset.cons_add, ← Multiset.add_cons]
        exact add_le_add_left (add_le_add_right (readyOrigins_insert_le _ _ _ _) _) _
    · obtain rfl := Except.ok.inj h
      refine ⟨fun other hother ↦ hs.held_le other (hmem other hother),
        fun other hother ↦ hs.held_from other (hmem other hother),
        fun other hother ↦ hs.held_current other (hmem other hother), hs.work_from, hs.ready_from,
        hs.taken_nodup, hs.taken_lt, ?_⟩
      refine le_trans ?_ haccounts
      rw [Multiset.add_cons]
      exact Multiset.le_cons_self _ _
  next => cases h

/-! ## Runs -/

theorem sound_step (hs : s.Sound crypto) {a : Action} (ha : s.Disciplined a)
    (h : s.step crypto a = .ok s') : s'.Sound crypto := by
  rcases a with _ | call | height | _ | thread | thread
  · exact sound_cancelWork hs h
  · exact sound_startWork hs ha h
  · obtain ⟨⟨next, result⟩, hget, rfl⟩ : ∃ p, s.getReadyWork height = .ok p ∧ p.1 = s' := by
      rw [step] at h
      rcases hget : s.getReadyWork height with e | p
      · rw [hget] at h
        cases h
      · rw [hget] at h
        exact ⟨p, rfl, Except.ok.inj h⟩
    exact sound_getReadyWork hs hget
  · obtain rfl := Except.ok.inj h
    exact ⟨hs.held_le, hs.held_from, hs.held_current, hs.work_from, hs.ready_from, hs.taken_nodup,
      hs.taken_lt, hs.accounts⟩
  · exact sound_take hs h
  · exact sound_publish hs h

private theorem sound_new (threads : ℕ) : (new threads).Sound crypto := by
  have hnone : heldJobs (new threads).threads = [] := heldJobs_replicate threads
  refine ⟨?_, ?_, ?_, fun hne ↦ absurd rfl hne, ?_, List.nodup_nil, ?_, ?_⟩
  · simp [hnone]
  · simp [hnone]
  · simp [hnone]
  · intro height result origin hready
    simp [new] at hready
  · intro origin horigin
    simp [new] at horigin
  · rw [heldOrigins, hnone]
    simp [new, readyOrigins_empty]

private theorem sound_of_disciplinedReachable {threads : ℕ} (h : DisciplinedReachable crypto threads s) :
    s.Sound crypto := by
  apply Reaches.invariant _ _ h
  · rintro s rfl
    exact sound_new threads
  · intro s a s' _ hs ha hstep
    exact sound_step hs ha hstep

theorem DisciplinedReachable.act {threads : ℕ} (hs : DisciplinedReachable crypto threads s) (a : Action)
    (ha : s.Disciplined a) (h : s.step crypto a = .ok s') : DisciplinedReachable crypto threads s' :=
  .next hs ha h

private theorem idle_of_take_or_publish {a : Action} (ha : (∃ i, a = .take i) ∨ ∃ i, a = .publish i)
    (h : s.step crypto a = .ok s') : s'.idle = s.idle := by
  rcases ha with ⟨i, rfl⟩ | ⟨i, rfl⟩
  · rw [step, take] at h
    split at h
    · cases h
      rfl
    · cases h
  · rw [step, publish] at h
    split at h
    · dsimp only at h
      split_ifs at h <;> cases h <;> rfl
    · cases h

/-- `sync_with_blockchain` gives up what there is before it starts work, whatever the workers do between
the two calls. -/
theorem DisciplinedReachable.sync {threads : ℕ} {s₁ s₂ s₃ : WalletPreparatorMulticore}
    (hs : DisciplinedReachable crypto threads s) (hcancel : s.step crypto .cancelWork = .ok s₁)
    {workers : List Action} (hworkers : ∀ a ∈ workers, (∃ i, a = .take i) ∨ ∃ i, a = .publish i)
    (hrun : workers.foldlM (fun s ↦ s.step crypto) s₁ = .ok s₂) {call : WorkCall}
    (hstart : s₂.step crypto (.startWork call) = .ok s₃) : DisciplinedReachable crypto threads s₃ := by
  have hidle : s₁.idle = true := by
    rw [step, cancelWork] at hcancel
    split_ifs at hcancel
    cases hcancel
    rfl
  have hs₁ : DisciplinedReachable crypto threads s₁ := hs.act .cancelWork trivial hcancel
  suffices h : DisciplinedReachable crypto threads s₂ ∧ s₂.idle = true from
    h.1.act (.startWork call) h.2 hstart
  clear hcancel hstart
  induction workers generalizing s₁ with
  | nil =>
    cases hrun
    exact ⟨hs₁, hidle⟩
  | cons a workers ih =>
    rw [List.foldlM_cons] at hrun
    obtain ⟨s₄, hstep, hrest⟩ := bind_eq_ok.mp hrun
    rw [List.forall_mem_cons] at hworkers
    have hdisciplined : s₁.Disciplined a := by
      rcases hworkers.1 with ⟨i, rfl⟩ | ⟨i, rfl⟩ <;> trivial
    have hsame := idle_of_take_or_publish hworkers.1 hstep
    exact ih hworkers.2 hrest (hsame.trans hidle) (hs₁.act a hdisciplined hstep)

/-- **The block that was asked for.** Take any number of workers and any run in which work is given up before
the next is started. What `get_ready_work` returns is made with the latest key from the block of the latest
response whose place is the distance of its height from the first. A worker has the block that its place
names. No block of any response is taken twice, and none is handed out twice. -/
theorem getReadyWork_latest {threads : ℕ} (h : DisciplinedReachable crypto threads s) :
    (∀ height s' result, s.getReadyWork height = .ok (s', result) →
      ∃ call i block, s.calls.getLast? = some call ∧ call.work.blocks[i]? = some block ∧
        UInt32.ofNat i = height - call.work.startHeight ∧
        result = .prepare crypto block call.viewSecretKey ∧
        s'.handedOut = s.handedOut ++ [(s.calls.length - 1, i)]) ∧
      (∀ job ∈ heldJobs s.threads, ∃ call, s.calls[job.origin.1]? = some call ∧
        call.work.blocks[job.origin.2]? = some job.syncBlock) ∧
      s.taken.Nodup ∧ s.handedOut.Nodup := by
  have hs := sound_of_disciplinedReachable h
  refine ⟨?_, ?_, hs.taken_nodup, ?_⟩
  · intro height s' result hget
    rw [getReadyWork] at hget
    split at hget
    next prepared origin hready =>
      cases hget
      obtain ⟨-, hlatest, call, block, hfrom, hresult⟩ := hs.ready_from height result origin hready
      have hnumber : s.calls.length - 1 = origin.1 := by omega
      refine ⟨call, origin.2, block, ?_, hfrom.getElem?_blocks, ?_, hresult, ?_⟩
      · rw [List.getLast?_eq_getElem?, hnumber]
        exact hfrom.getElem?_calls
      · rw [hfrom.height_eq, UInt32.add_comm]
        exact (UInt32.add_sub_cancel _ _).symm
      · rw [hnumber]
    next => cases hget
  · intro job hjob
    obtain ⟨call, hfrom, -⟩ := hs.held_from job hjob
    exact ⟨call, hfrom.getElem?_calls, hfrom.getElem?_blocks⟩
  · have hle : (s.handedOut : Multiset Origin) ≤ s.taken := by
      apply le_trans _ hs.accounts
      rw [add_assoc]
      exact Multiset.le_add_right _ _
    exact Multiset.coe_nodup.mp (Multiset.nodup_of_le hle (Multiset.coe_nodup.mpr hs.taken_nodup))

/-! ## Samples -/

section Sample

open WalletState (sampleSpendCrypto)

/-- A response with one block. -/
def sampleWork (timestamp : Timestamp) : WorkCall where
  work := { blocks := [{ rawHeader := { timestamp := timestamp } }], startHeight := 7 }
  viewSecretKey := 100

/-- Work is given up, and the same height is ready again for the next work. -/
theorem getReadyWork_latest_sample :
    ∃ s s' result, DisciplinedReachable sampleSpendCrypto 2 s ∧ s.getReadyWork 7 = .ok (s', result) ∧
      result.timestamp = 2 ∧ ∃ call i block, s.calls.getLast? = some call ∧
        call.work.blocks[i]? = some block ∧ UInt32.ofNat i = 7 - call.work.startHeight ∧
        result = .prepare sampleSpendCrypto block call.viewSecretKey ∧
        s'.handedOut = s.handedOut ++ [(s.calls.length - 1, i)] := by
  have h₀ : DisciplinedReachable sampleSpendCrypto 2 (new 2) := .start rfl
  have h₁ := h₀.act (.startWork (sampleWork 1)) rfl rfl
  have h₂ := h₁.act (.take 0) trivial rfl
  have h₃ := h₂.act (.publish 0) trivial rfl
  have h₄ := h₃.act (.cancelWork) trivial rfl
  have h₅ := h₄.act (.startWork (sampleWork 2)) rfl rfl
  have h₆ := h₅.act (.take 1) trivial rfl
  have h₇ := h₆.act (.publish 1) trivial rfl
  exact ⟨_, _, _, h₇, rfl, rfl, (getReadyWork_latest h₇).1 7 _ _ rfl⟩

/-- Without giving up work, a block of the first response is handed out for the second. -/
theorem getReadyWork_not_latest :
    ∃ s s' result, Reachable sampleSpendCrypto 2 s ∧ s.getReadyWork 7 = .ok (s', result) ∧
      ¬∃ call i block, s.calls.getLast? = some call ∧ call.work.blocks[i]? = some block ∧
        UInt32.ofNat i = 7 - call.work.startHeight ∧
        result = .prepare sampleSpendCrypto block call.viewSecretKey := by
  have h₀ : Reachable sampleSpendCrypto 2 (new 2) := .start rfl
  have h₁ : Reachable sampleSpendCrypto 2 _ := .next h₀ (i := .startWork (sampleWork 1)) trivial rfl
  have h₂ : Reachable sampleSpendCrypto 2 _ := .next h₁ (i := .take 0) trivial rfl
  have h₃ : Reachable sampleSpendCrypto 2 _ := .next h₂ (i := .publish 0) trivial rfl
  have h₄ : Reachable sampleSpendCrypto 2 _ := .next h₃ (i := .startWork (sampleWork 2)) trivial rfl
  refine ⟨_, _, _, h₄, rfl, ?_⟩
  rintro ⟨call, i, block, hlast, hblock, -, hresult⟩
  obtain rfl : sampleWork 2 = call := Option.some.inj hlast
  have hmem := List.mem_of_getElem? hblock
  obtain rfl := List.mem_singleton.mp hmem
  exact absurd (congrArg PreparedWalletBlock.timestamp hresult) (by decide)

end Sample

end WalletPreparatorMulticore

end CryoNero
