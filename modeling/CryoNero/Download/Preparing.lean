import CryoNero.Download.Handlers

/-!
# Cells that wait for their result

A cell with status `preparing` waits for a result under the hash of its block. `Supplied` says that
for every hash there are as many jobs as waiting cells: queued, held by a thread, or finished. Every
step keeps this but one. `preparedBlocks` has one place for each hash, so a thread that finishes
while a result of the same hash has not been handed over yet takes that result away. This does no
harm as long as no cell needs it, and that is what `Spares` asks of a step.

A chain that repeats a hash makes two cells wait for the same hash, and then the second cell may
wait for ever.
-/

namespace CryoNero.DownloaderV11

open Store Seria P2p

/-! ## Prepared blocks -/

/-- A prepared block is the block with this hash. Its own field `bid` is left at zero when the
transactions do not read. -/
structure Carries (env : Env) (h : Hash) (pb : PreparedBlock) : Prop where
  header : getBlockHash env.crypto pb.block.header = some h
  bid : pb.bid = if (Block.fromRawBlock pb.rawBlock).2 = true then h else 0

private theorem written_of_getBlockHash {c : Crypto} {v : BlockTemplate} {h : Hash}
    (hh : getBlockHash c v = some h) : (writeTransaction v.baseTransaction).isSome ∧
      (getBlockLongHash c v).isSome := by
  rw [getBlockHash] at hh
  obtain ⟨ba, hba, hh⟩ := Option.bind_eq_some_iff.mp hh
  have hba' := hba
  rw [getBlockHashingBinaryArray] at hba
  obtain ⟨head, hhead, hba⟩ := Option.bind_eq_some_iff.mp hba
  obtain ⟨tree, htree, -⟩ := Option.bind_eq_some_iff.mp hba
  constructor
  · rw [getTransactionTreeHash, getTransactionHash] at htree
    cases htx : writeTransaction v.baseTransaction with
    | none =>
      rw [htx] at htree
      cases htree
    | some tx => rfl
  · rw [getBlockLongHash]
    by_cases hone : v.majorVersion = 1
    · rw [if_pos hone, hba']
      rfl
    · have htwo : 2 ≤ v.majorVersion := by
        rw [writeBlockHeader, if_neg hone] at hhead
        split_ifs at hhead with htwo
        exact htwo
      have hparent : (writeParentBlockHeader c v true).isSome := by
        rw [if_pos htwo] at hh
        obtain ⟨parent, hparent, -⟩ := Option.bind_eq_some_iff.mp hh
        rw [writeParentBlock] at hparent
        cases hhead' : writeParentBlockHeader c v true with
        | none =>
          rw [hhead'] at hparent
          cases hparent
        | some head => rfl
      rw [if_neg hone]
      split_ifs with hslow hlite
      · rwa [Option.isSome_map]
      · rwa [Option.isSome_map]
      · have hlt : v.majorVersion < 4 := UInt8.not_le.mp hlite
        exact absurd ⟨htwo, hlt⟩ hslow

/-- A block that was matched with a cell can be prepared. -/
theorem Matches.prepared {env : Env} {wo : DownloadWork} (h : Matches env wo) :
    ∃ pb, PreparedBlock.ofRawBlock env wo.context wo.rb = .ok pb ∧ Carries env wo.bid pb := by
  rw [Matches, returnedHash] at h
  rcases hread : fromBinary readBlockTemplate {} wo.rb.block with ⟨bheader, _ | _⟩
  · rw [hread] at h
    cases h
  rw [hread] at h
  dsimp only at h
  have hheader : (Block.fromRawBlock wo.rb).1.header = bheader := by
    rw [Block.fromRawBlock, hread]
  rw [← hheader] at h
  obtain ⟨htx, hlong⟩ := written_of_getBlockHash h
  obtain ⟨coinbaseTx, hcoinbaseTx⟩ := Option.isSome_iff_exists.mp htx
  obtain ⟨longHash, hlongHash⟩ := Option.isSome_iff_exists.mp hlong
  let block := (Block.fromRawBlock wo.rb).1
  refine ⟨{
    blockData := writeRawBlock wo.rb
    rawBlock := wo.rb
    block := block
    bid := if (Block.fromRawBlock wo.rb).2 = true then wo.bid else 0
    baseTransactionHash := env.crypto.cnFastHash coinbaseTx
    coinbaseTxSize := coinbaseTx.length
    parentBlockSize :=
      if 2 ≤ block.header.majorVersion then (writePlainParentBlock block.header.parentBlock).length
      else 0
    longBlockHash := if wo.context = true then longHash else 0 }, ?_, h, rfl⟩
  rw [PreparedBlock.ofRawBlock, PreparedBlock.prepare]
  simp only [h, hcoinbaseTx, hlongHash, orFail, ok_bind]
  split_ifs <;> rfl

/-! ## Jobs -/

variable {κ : Type} [Ord κ]
variable {env : Env} {incoming : κ → Bool} {d d' : DownloaderV11 κ} {cells : List (DownloadCell κ)}

/-- The jobs for a hash that are queued or held by a thread. -/
def pending (d : DownloaderV11 κ) (h : Hash) : ℕ :=
  jobsFor d.work h + jobsFor (heldJobs d.threads) h

/-- The results for a hash, of which there is at most one. -/
def finished (d : DownloaderV11 κ) (h : Hash) : ℕ :=
  if (d.preparedBlocks[h]?).isSome then 1 else 0

/-- There is a job for every cell that waits. -/
def Supplied (d : DownloaderV11 κ) : Prop :=
  ∀ h, preparing d.downloadChain h ≤ pending d h + finished d h

/-- A thread takes no result away that a cell still needs: when a result of the same hash was not
handed over yet, the jobs that are left must be enough for the cells. -/
def Spares (d : DownloaderV11 κ) : Action κ → Prop
  | .publish thread => ∀ wo, d.threads[thread]? = some (some wo) →
    (d.preparedBlocks[wo.bid]?).isSome → preparing d.downloadChain wo.bid ≤ pending d wo.bid
  | _ => True

/-- Every result is the block that its cell wants. -/
structure Genuine (env : Env) (d : DownloaderV11 κ) : Prop where
  work : ∀ wo ∈ d.work, Matches env wo
  held : ∀ wo ∈ heldJobs d.threads, Matches env wo
  threads : d.threads ≠ []
  results : ∀ (h : Hash) (pb : PreparedBlock), d.preparedBlocks[h]? = some pb → Carries env h pb
  cells : ∀ dc ∈ d.downloadChain, dc.status = .prepared →
    ∃ pb, dc.pb = some pb ∧ Carries env dc.bid pb

private theorem genuine_new (hardwareConcurrency : ℕ) :
    Genuine env (new hardwareConcurrency : DownloaderV11 κ) := by
  have hheld : heldJobs (new hardwareConcurrency : DownloaderV11 κ).threads = [] :=
    heldJobs_replicate _
  refine ⟨nofun, by rw [hheld]; exact nofun, ?_, fun h pb hpb ↦ ?_, nofun⟩
  · exact List.ne_nil_of_length_pos (by
      rw [new, List.length_replicate]
      exact lt_of_lt_of_le (by decide) (le_max_left _ _))
  · cases (Std.ExtTreeMap.getElem?_empty).symm.trans hpb

private theorem supplied_new (hardwareConcurrency : ℕ) :
    (new hardwareConcurrency : DownloaderV11 κ).Supplied := fun _ ↦ Nat.zero_le _

/-! ## Steps -/

theorem Genuine.follows (h : Genuine env d) (hfollows : Follows env d d') : Genuine env d' := by
  obtain ⟨jobs, hwork, hmatch, -⟩ := hfollows.work
  refine ⟨fun wo hwo ↦ ?_, ?_, ?_, ?_, fun dc hdc hs ↦ ?_⟩
  · rw [hwork] at hwo
    exact (List.mem_append.mp hwo).elim (h.work wo) (hmatch wo)
  · rw [hfollows.threads]
    exact h.held
  · rw [hfollows.threads]
    exact h.threads
  · rw [hfollows.preparedBlocks]
    exact h.results
  · have hmem : (dc.bid, dc.status, dc.pb) ∈ settled d'.downloadChain :=
      List.mem_map.mpr ⟨dc, List.mem_filter.mpr ⟨hdc, by rw [hs]; rfl⟩, rfl⟩
    obtain ⟨c, hc, heq⟩ := List.mem_map.mp (hfollows.prepared _ hmem hs)
    obtain ⟨hbid, hstatus, hpb⟩ : c.bid = dc.bid ∧ c.status = dc.status ∧ c.pb = dc.pb := by
      simpa only [Prod.mk.injEq] using heq
    rw [← hbid, ← hpb]
    exact h.cells c (List.mem_filter.mp hc).1 (hstatus.trans hs)

theorem Supplied.follows (h : d.Supplied) (hfollows : Follows env d d') : d'.Supplied := by
  obtain ⟨jobs, hwork, -, hcount⟩ := hfollows.work
  intro x
  have hx := h x
  have hcx := hcount x
  rw [pending, finished] at hx ⊢
  rw [hwork, hfollows.threads, hfollows.preparedBlocks, jobsFor, List.countP_append]
  unfold jobsFor at hx hcx ⊢
  omega

theorem Genuine.collect (h : Genuine env d) : Genuine env d.collect := by
  refine ⟨h.work, h.held, h.threads, fun x pb hpb ↦ ?_, fun dc hdc hs ↦ ?_⟩
  · cases (Std.ExtTreeMap.getElem?_empty).symm.trans hpb
  · rcases mem_foldl_handOver hdc with hdc | ⟨p, hp, c, -, -, hbid, rfl⟩
    · exact h.cells dc hdc hs
    · refine ⟨p.2, rfl, ?_⟩
      change Carries env c.bid p.2
      rw [hbid]
      exact h.results p.1 p.2 (Table.mem_toList.mp hp)

/-- Every result that is handed over supplies one cell. -/
theorem Supplied.collect (h : d.Supplied) : d.collect.Supplied := by
  intro x
  have hx := h x
  have hcells : preparing d.collect.downloadChain x
      = preparing d.downloadChain x - d.preparedBlocks.toList.countP (·.1 = x) :=
    preparing_foldl_handOver x
  have hresult : finished d x ≤ d.preparedBlocks.toList.countP (·.1 = x) := by
    rw [finished]
    split_ifs with hsome
    · obtain ⟨pb, hpb⟩ := Option.isSome_iff_exists.mp hsome
      exact List.countP_pos_iff.mpr ⟨(x, pb), Table.mem_toList.mpr hpb, by simp⟩
    · exact Nat.zero_le _
  have hpending : pending d.collect x = pending d x := rfl
  rw [hcells, hpending]
  omega

private theorem pending_take {thread : ℕ} {wo : DownloadWork} {work : List DownloadWork}
    (hthread : d.threads[thread]? = some none) (hwork : d.work = wo :: work) (h : Hash) :
    pending { d with work := work, threads := d.threads.set thread (some wo) } h = pending d h := by
  have hperm := (heldJobs_set_some wo hthread).countP_eq (fun job ↦ decide (job.bid = h))
  rw [pending, pending, hwork]
  simp only [jobsFor, hperm, List.countP_cons]
  omega

private theorem pending_publish {thread : ℕ} {wo : DownloadWork} (results : Table Hash PreparedBlock)
    (hthread : d.threads[thread]? = some (some wo)) (h : Hash) :
    pending { d with threads := d.threads.set thread none, preparedBlocks := results } h
      + (if wo.bid = h then 1 else 0) = pending d h := by
  have hperm := (heldJobs_set_none hthread).countP_eq (fun job ↦ decide (job.bid = h))
  rw [pending, pending]
  simp only [jobsFor, hperm, List.countP_cons, decide_eq_true_eq]
  omega

private theorem set_ne_nil {α : Type} {l : List α} (h : l ≠ []) {i : ℕ} {a : α} : l.set i a ≠ [] :=
  List.ne_nil_of_length_pos (by rw [List.length_set]; exact List.length_pos_iff.mpr h)

variable [Std.TransOrd κ] [DecidableEq κ]

private theorem step_take {thread : ℕ} (h : step env incoming d (.take thread) = .ok d') :
    ∃ wo work, d.threads[thread]? = some none ∧ d.work = wo :: work ∧
      d' = { d with work := work, threads := d.threads.set thread (some wo) } := by
  rw [step] at h
  split at h
  · next wo work hthread hwork =>
    cases h
    exact ⟨wo, work, hthread, hwork, rfl⟩
  · cases h

private theorem step_publish {thread : ℕ} (h : step env incoming d (.publish thread) = .ok d') :
    ∃ wo result, d.threads[thread]? = some (some wo) ∧
      PreparedBlock.ofRawBlock env wo.context wo.rb = .ok result ∧
      d' = { d with
        threads := d.threads.set thread none
        preparedBlocks := d.preparedBlocks.insert wo.bid result } := by
  rw [step] at h
  split at h
  · next wo hthread =>
    split at h
    · next result hresult =>
      cases h
      exact ⟨wo, result, hthread, hresult, rfl⟩
    · cases h
  · cases h

omit [Std.TransOrd κ] [DecidableEq κ] in
private theorem supplied_publish {thread : ℕ} {wo : DownloadWork} {result : PreparedBlock} (h : d.Supplied)
    (hthread : d.threads[thread]? = some (some wo)) :
    ({ d with
        threads := d.threads.set thread none
        preparedBlocks := d.preparedBlocks.insert wo.bid result } : DownloaderV11 κ).Supplied ↔
      d.Spares (.publish thread) := by
  have hfinished (x : Hash) : finished { d with
      threads := d.threads.set thread none
      preparedBlocks := d.preparedBlocks.insert wo.bid result } x
      = if wo.bid = x then 1 else finished d x := by
    rw [finished, Table.get_insert, finished]
    split_ifs <;> simp_all
  constructor
  · intro hsupplied wo' hwo' hsome
    obtain rfl : wo = wo' := by simpa using hthread.symm.trans hwo'
    have hx := hsupplied wo.bid
    have hpending := pending_publish (d.preparedBlocks.insert wo.bid result) hthread wo.bid
    rw [hfinished, if_pos rfl] at hx
    rw [if_pos rfl] at hpending
    exact hx.trans hpending.le
  · intro hspares x
    have hx := h x
    have hpending := pending_publish (d.preparedBlocks.insert wo.bid result) hthread x
    rw [hfinished]
    change preparing d.downloadChain x ≤ _
    split_ifs at hpending ⊢ with hbid
    · by_cases hsome : (d.preparedBlocks[wo.bid]?).isSome
      · have hle := hspares wo hthread hsome
        rw [hbid] at hle
        omega
      · rw [hbid] at hsome
        rw [finished, if_neg hsome] at hx
        omega
    · omega

variable [Std.LawfulEqOrd κ]

theorem Supplied.step (h : d.Supplied) (hacc : d.Accounted) {action : Action κ}
    (hspares : d.Spares action) (hstep : DownloaderV11.step env incoming d action = .ok d') :
    d'.Supplied := by
  cases action with
  | call w call =>
    obtain ⟨d₁, hd₁, -, hfollows⟩ := hacc.handle env incoming w call
    obtain rfl : d₁ = d' := Except.ok.inj (hd₁.symm.trans hstep)
    cases call with
    | idle => exact h.collect.follows hfollows
    | _ => exact h.follows hfollows
  | take thread =>
    obtain ⟨wo, work, hthread, hwork, rfl⟩ := step_take hstep
    intro x
    rw [pending_take hthread hwork]
    exact h x
  | publish thread =>
    obtain ⟨wo, result, hthread, -, rfl⟩ := step_publish hstep
    exact (supplied_publish h hthread).mpr hspares

theorem Genuine.step (h : Genuine env d) (hacc : d.Accounted) {action : Action κ}
    (hstep : DownloaderV11.step env incoming d action = .ok d') : Genuine env d' := by
  cases action with
  | call w call =>
    obtain ⟨d₁, hd₁, -, hfollows⟩ := hacc.handle env incoming w call
    obtain rfl : d₁ = d' := Except.ok.inj (hd₁.symm.trans hstep)
    cases call with
    | idle => exact h.collect.follows hfollows
    | _ => exact h.follows hfollows
  | take thread =>
    obtain ⟨wo, work, hthread, hwork, rfl⟩ := step_take hstep
    have hjobs := h.work
    rw [hwork, List.forall_mem_cons] at hjobs
    refine ⟨hjobs.2, fun job hjob ↦ ?_, ?_, h.results, h.cells⟩
    · rcases List.mem_cons.mp ((heldJobs_set_some wo hthread).mem_iff.mp hjob) with rfl | hjob
      · exact hjobs.1
      · exact h.held job hjob
    · exact set_ne_nil h.threads
  | publish thread =>
    obtain ⟨wo, result, hthread, hresult, rfl⟩ := step_publish hstep
    have hheld (job : DownloadWork) : job ∈ heldJobs d.threads ↔
        job ∈ wo :: heldJobs (d.threads.set thread none) := (heldJobs_set_none hthread).mem_iff
    refine ⟨h.work, fun job hjob ↦ h.held job ((hheld job).mpr (List.mem_cons_of_mem wo hjob)), ?_,
      fun x pb hpb ↦ ?_, h.cells⟩
    · exact set_ne_nil h.threads
    · rw [Table.get_insert] at hpb
      split_ifs at hpb with hbid
      · obtain ⟨pb', hpb', hcarries⟩ :=
          (h.held wo ((hheld wo).mpr List.mem_cons_self)).prepared
        rw [hresult] at hpb'
        cases hpb'
        cases hpb
        rw [← hbid]
        exact hcarries
      · exact h.results x pb hpb

/-! ## The front cell -/

/-- An action of a thread. -/
def Action.OfThread : Action κ → Prop
  | .call _ _ => False
  | .take _ | .publish _ => True

/-- The threads alone get from `d` to `d'`, and leave the cells alone. -/
def Threads (env : Env) (incoming : κ → Bool) (d d' : DownloaderV11 κ) : Prop :=
  ∃ actions : List (Action κ), (∀ action ∈ actions, action.OfThread) ∧
    actions.foldlM (DownloaderV11.step env incoming) d = .ok d' ∧ d'.downloadChain = d.downloadChain

omit [Std.LawfulEqOrd κ] in
theorem Threads.refl (d : DownloaderV11 κ) : Threads env incoming d d := ⟨[], nofun, rfl, rfl⟩

omit [Std.LawfulEqOrd κ] in
theorem Threads.single {action : Action κ} (haction : action.OfThread)
    (hstep : DownloaderV11.step env incoming d action = .ok d')
    (hcells : d'.downloadChain = d.downloadChain) : Threads env incoming d d' := by
  refine ⟨[action], List.forall_mem_singleton.mpr haction, ?_, hcells⟩
  rw [List.foldlM_cons]
  exact bind_eq_ok.mpr ⟨d', hstep, rfl⟩

omit [Std.LawfulEqOrd κ] in
theorem Threads.trans {d₁ d₂ d₃ : DownloaderV11 κ} (h : Threads env incoming d₁ d₂)
    (h' : Threads env incoming d₂ d₃) : Threads env incoming d₁ d₃ := by
  obtain ⟨actions, hactions, hrun, hcells⟩ := h
  obtain ⟨actions', hactions', hrun', hcells'⟩ := h'
  refine ⟨actions ++ actions', fun action haction ↦
    (List.mem_append.mp haction).elim (hactions action) (hactions' action), ?_, hcells'.trans hcells⟩
  rw [List.foldlM_append]
  exact bind_eq_ok.mpr ⟨d₂, hrun, hrun'⟩

omit [Std.LawfulEqOrd κ] in
/-- A thread that holds a job finishes it. -/
theorem Genuine.publish (h : Genuine env d) (incoming : κ → Bool) {thread : ℕ} {wo : DownloadWork}
    (hthread : d.threads[thread]? = some (some wo)) : ∃ result,
      DownloaderV11.step env incoming d (.publish thread) = .ok { d with
        threads := d.threads.set thread none
        preparedBlocks := d.preparedBlocks.insert wo.bid result } := by
  obtain ⟨result, hresult, -⟩ := (h.held wo (mem_heldJobs.mpr ⟨thread, hthread⟩)).prepared
  refine ⟨result, ?_⟩
  rw [DownloaderV11.step, hthread]
  simp only [hresult]

private theorem Genuine.finishes (h : Genuine env d) (hacc : d.Accounted) {wo : DownloadWork}
    (hwo : wo ∈ d.work ∨ wo ∈ heldJobs d.threads) :
    ∃ d', Threads env incoming d d' ∧ (d'.preparedBlocks[wo.bid]?).isSome := by
  have hheld (e : DownloaderV11 κ) (he : Genuine env e) (hwo : wo ∈ heldJobs e.threads) :
      ∃ d', Threads env incoming e d' ∧ (d'.preparedBlocks[wo.bid]?).isSome := by
    obtain ⟨thread, hthread⟩ := mem_heldJobs.mp hwo
    obtain ⟨result, hstep⟩ := he.publish incoming hthread
    refine ⟨_, .single (show (Action.publish thread : Action κ).OfThread from trivial) hstep rfl, ?_⟩
    rw [Table.get_insert_self]
    rfl
  obtain ⟨work, hwork⟩ : ∃ work, d.work = work := ⟨_, rfl⟩
  -- the first thread works the queue off
  induction work generalizing d with
  | nil =>
    rcases hwo with hwo | hwo
    · rw [hwork] at hwo
      cases hwo
    · exact hheld d h hwo
  | cons job work ih =>
    rcases hwo with hwo | hwo
    · obtain ⟨e, hrun, he, hacc', hework, hidle⟩ : ∃ e, Threads env incoming d e ∧ Genuine env e ∧
          e.Accounted ∧ e.work = d.work ∧ e.threads[0]? = some none := by
        obtain ⟨thread, threads, hthreads⟩ := List.exists_cons_of_ne_nil h.threads
        rcases thread with _ | held
        · exact ⟨d, .refl d, h, hacc, rfl, by rw [hthreads]; rfl⟩
        · obtain ⟨result, hstep⟩ := h.publish incoming
            (show d.threads[0]? = some (some held) by rw [hthreads]; rfl)
          refine ⟨_, .single (show (Action.publish 0 : Action κ).OfThread from trivial) hstep rfl,
            h.step hacc hstep, hacc.step hstep, rfl, ?_⟩
          rw [hthreads]
          rfl
      have hstep : DownloaderV11.step env incoming e (.take 0) = .ok { e with
          work := work, threads := e.threads.set 0 (some job) } := by
        rw [DownloaderV11.step, hidle, hework, hwork]
      have hnext := hrun.trans
        (.single (show (Action.take 0 : Action κ).OfThread from trivial) hstep rfl)
      have hwo' : wo ∈ work ∨ wo ∈ heldJobs (e.threads.set 0 (some job)) := by
        rw [hwork] at hwo
        rcases List.mem_cons.mp hwo with rfl | hwo
        · obtain ⟨hlt, -⟩ := List.getElem?_eq_some_iff.mp hidle
          exact .inr (mem_heldJobs.mpr ⟨0, List.getElem?_set_self hlt⟩)
        · exact .inl hwo
      obtain ⟨d', hd', hsome⟩ := ih (he.step hacc' hstep) (hacc'.step hstep) hwo' rfl
      exact ⟨d', hnext.trans hd', hsome⟩
    · exact hheld d h hwo

omit [Ord κ] [Std.TransOrd κ] [DecidableEq κ] [Std.LawfulEqOrd κ] in
private theorem head_foldl_handOver {ps : List (Hash × PreparedBlock)} {front : DownloadCell κ}
    (rest : List (DownloadCell κ)) {pb : PreparedBlock} (hs : front.status = .preparing)
    (hmem : (front.bid, pb) ∈ ps) : ∃ front' rest',
      ps.foldl handOver (front :: rest) = front' :: rest' ∧ front'.status = .prepared ∧
        front'.bid = front.bid := by
  have hkept (ps : List (Hash × PreparedBlock)) (front : DownloadCell κ)
      (rest : List (DownloadCell κ)) (hs : front.status = .prepared) :
      ∃ rest', ps.foldl handOver (front :: rest) = front :: rest' := by
    induction ps generalizing rest with
    | nil => exact ⟨rest, rfl⟩
    | cons p ps ih =>
      rw [List.foldl_cons, handOver, if_neg (by rw [hs]; simp)]
      exact ih _
  induction ps generalizing rest with
  | nil => cases hmem
  | cons p ps ih =>
    rw [List.foldl_cons, handOver]
    by_cases hbid : front.bid = p.1
    · rw [if_pos ⟨hs, hbid⟩]
      obtain ⟨rest', hrest'⟩ := hkept ps { front with pb := some p.2, status := .prepared } rest rfl
      exact ⟨_, rest', hrest', rfl, rfl⟩
    · rw [if_neg fun hc ↦ hbid hc.2]
      rcases List.mem_cons.mp hmem with rfl | hmem
      · exact absurd rfl hbid
      · exact ih _ hmem

/-! ## Runs -/

/-- The hashes that cells wait for. -/
def waiting (d : DownloaderV11 κ) : List Hash :=
  (d.downloadChain.filter (·.status = .preparing)).map (·.bid)

/-- The hashes of the jobs that are queued, held by a thread, or finished. -/
def jobs (d : DownloaderV11 κ) : List Hash :=
  d.work.map (·.bid) ++ (heldJobs d.threads).map (·.bid) ++ d.preparedBlocks.toList.map (·.1)

omit [Std.TransOrd κ] [DecidableEq κ] [Std.LawfulEqOrd κ] in
private theorem count_waiting (h : Hash) : d.waiting.count h = preparing d.downloadChain h := by
  rw [waiting, List.count, List.countP_map, List.countP_filter, preparing]
  refine List.countP_congr fun dc _ ↦ ?_
  simp [and_comm]

omit [Std.TransOrd κ] [DecidableEq κ] [Std.LawfulEqOrd κ] in
private theorem count_jobs (h : Hash) : d.jobs.count h = pending d h + finished d h := by
  have hjobs (jobs : List DownloadWork) : (jobs.map (·.bid)).count h = jobsFor jobs h := by
    rw [List.count, List.countP_map, jobsFor]
    exact List.countP_congr fun wo _ ↦ by simp
  have hresults : (d.preparedBlocks.toList.map (·.1)).count h = finished d h := by
    rw [(Table.nodup_keys_toList d.preparedBlocks).count, finished]
    refine if_congr ?_ rfl rfl
    rw [List.mem_map, Option.isSome_iff_exists]
    constructor
    · rintro ⟨⟨x, pb⟩, hp, rfl⟩
      exact ⟨pb, Table.mem_toList.mp hp⟩
    · rintro ⟨pb, hpb⟩
      exact ⟨(h, pb), Table.mem_toList.mpr hpb, rfl⟩
  rw [jobs, List.count_append, List.count_append, hjobs, hjobs, hresults, pending]

private theorem supplied_of_reaches {hardwareConcurrency : ℕ}
    (h : Reaches (step env incoming) Spares (· = new hardwareConcurrency) d) :
    d.Accounted ∧ Genuine env d ∧ d.Supplied := by
  refine h.invariant (I := fun d ↦ d.Accounted ∧ Genuine env d ∧ d.Supplied) (fun s hs ↦ ?_)
    fun s i s' _ hinv hspares hstep ↦ ?_
  · rw [hs]
    exact ⟨accounted_new _, genuine_new _, supplied_new _⟩
  · obtain ⟨hacc, hgenuine, hsupplied⟩ := hinv
    exact ⟨hacc.step hstep, hgenuine.step hacc hstep, hsupplied.step hacc hspares hstep⟩

/-- **No cell is stranded**, in a run in which no thread takes a result away that a cell still
needs. Every cell that waits has a job of its own, a block that was handed to a cell is the block
with its hash, and from any state the threads alone get to one in which the next call of `onIdle`
has a result for the front cell. -/
theorem preparing_supplied {hardwareConcurrency : ℕ}
    (h : Reaches (step env incoming) Spares (· = new hardwareConcurrency) d) :
    d.waiting.Subperm d.jobs ∧
    (∀ dc ∈ d.downloadChain, dc.status = .prepared →
      ∃ pb, dc.pb = some pb ∧ Carries env dc.bid pb) ∧
    ∀ front rest, d.downloadChain = front :: rest → front.status = .preparing →
      ∃ d', Threads env incoming d d' ∧ ∃ front' rest', d'.collect.downloadChain = front' :: rest' ∧
        front'.status = .prepared ∧ front'.bid = front.bid := by
  obtain ⟨hacc, hgenuine, hsupplied⟩ := supplied_of_reaches h
  refine ⟨List.subperm_iff_count.mpr fun x ↦ ?_, hgenuine.cells, fun front rest hchain hs ↦ ?_⟩
  · rw [count_waiting, count_jobs]
    exact hsupplied x
  · have hwaits : 0 < preparing d.downloadChain front.bid :=
      List.countP_pos_iff.mpr ⟨front, by rw [hchain]; exact List.mem_cons_self, by simp [hs]⟩
    -- either the result is there already, or the threads get it done
    obtain ⟨d', hd', hsome⟩ : ∃ d', Threads env incoming d d' ∧
        (d'.preparedBlocks[front.bid]?).isSome := by
      by_cases hsome : (d.preparedBlocks[front.bid]?).isSome
      · exact ⟨d, .refl d, hsome⟩
      · have hpending : 0 < pending d front.bid := by
          have hle := hsupplied front.bid
          rw [finished, if_neg hsome] at hle
          omega
        rw [pending] at hpending
        obtain ⟨wo, hwo, hbid⟩ : ∃ wo, (wo ∈ d.work ∨ wo ∈ heldJobs d.threads) ∧
            wo.bid = front.bid := by
          rcases Nat.add_pos_iff_pos_or_pos.mp hpending with hpos | hpos
          · obtain ⟨wo, hwo, hbid⟩ := List.countP_pos_iff.mp hpos
            exact ⟨wo, .inl hwo, of_decide_eq_true hbid⟩
          · obtain ⟨wo, hwo, hbid⟩ := List.countP_pos_iff.mp hpos
            exact ⟨wo, .inr hwo, of_decide_eq_true hbid⟩
        rw [← hbid]
        exact hgenuine.finishes hacc hwo
    obtain ⟨pb, hpb⟩ := Option.isSome_iff_exists.mp hsome
    obtain ⟨front', rest', hhead, hok⟩ :=
      head_foldl_handOver rest hs (Table.mem_toList.mpr hpb)
    obtain ⟨-, -, -, hcells⟩ := id hd'
    refine ⟨d', hd', front', rest', ?_, hok⟩
    rw [← hhead, ← hchain, ← hcells]
    rfl

/-- Both blocks of a chain that repeats a hash are on their way. -/
theorem preparing_supplied_sample : ∃ d : DownloaderV11 ℕ, d.waiting = [sampleHash, sampleHash] ∧
    d.waiting.Subperm d.jobs := by
  obtain ⟨d, hd, hwaiting⟩ : ∃ d ∈ (afterSampleRun 2 [.take 0]).toOption,
      d.waiting = [sampleHash, sampleHash] := by
    decide +kernel
  have hrun : Reaches (step (.lax 0) fun _ ↦ false) Spares (· = new 4) d := by
    refine Reaches.steps (fun action haction s ↦ ?_) (.start rfl) (toOption_eq_some.mp hd)
    simp only [sampleRun, List.cons_append, List.nil_append, List.mem_cons, List.not_mem_nil,
      or_false] at haction
    rcases haction with rfl | rfl | rfl | rfl <;> trivial
  exact ⟨d, hwaiting, (preparing_supplied hrun).1⟩

/-- Two threads finish the same hash before the results are handed over. The second cell waits at
the front for ever: there is no job for it, and none will come. -/
theorem preparing_stranded : ∃ d : DownloaderV11 ℕ, Reachable (.lax 0) (fun _ ↦ false) 4 d ∧
    d.downloadChain.map (fun dc ↦ (dc.status, dc.bid)) = [(.preparing, sampleHash)] ∧
    d.jobs = [] ∧ ¬d.waiting.Subperm d.jobs := by
  obtain ⟨d, hd, hcells, hjobs, hwaiting⟩ : ∃ d ∈ (afterSampleRun 2 [.take 0, .take 1, .publish 0,
      .publish 1, .call sampleSurroundings .idle]).toOption,
      d.downloadChain.map (fun dc ↦ (dc.status, dc.bid)) = [(.preparing, sampleHash)] ∧
      d.jobs = [] ∧ d.waiting = [sampleHash] := by
    decide +kernel
  refine ⟨d, reachable_afterSampleRun (toOption_eq_some.mp hd), hcells, hjobs, fun hsub ↦ ?_⟩
  rw [hjobs, hwaiting] at hsub
  exact absurd hsub.length_le (by decide)

end CryoNero.DownloaderV11
