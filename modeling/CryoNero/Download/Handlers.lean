import CryoNero.Download.Accounts

/-!
# The handlers of the downloader

No handler stops. Each leaves the counters right, and what it does to the work is summed up by
`Follows`: it queues a job for every cell that starts to wait for one, under the hash of that cell.
The only other thing that happens to results is that `onIdle` hands them over, before it does
anything else.
-/

namespace CryoNero.DownloaderV11

open Store P2p

variable {κ : Type} [Ord κ] [Std.TransOrd κ] [DecidableEq κ] [Std.LawfulEqOrd κ]
variable {env : Env} {d d' d₁ d₂ d₃ : DownloaderV11 κ} {w : Surroundings κ}
variable {dc dit : DownloadCell κ} {i : ℕ}

/-! ## Cells and their jobs -/

/-- The cells that wait for a block with this hash to be prepared. -/
def preparing (cells : List (DownloadCell κ)) (h : Hash) : ℕ :=
  cells.countP fun dc ↦ dc.status = .preparing ∧ dc.bid = h

/-- The jobs for a hash. -/
def jobsFor (jobs : List DownloadWork) (h : Hash) : ℕ := jobs.countP (·.bid = h)

/-- The block of a job has the hash that the job is for. -/
def Matches (env : Env) (wo : DownloadWork) : Prop :=
  returnedHash env { block := wo.rb.block, transactions := wo.rb.transactions } = some wo.bid

/-- Cells start to wait only together with a job for them. -/
structure Follows (env : Env) (d d' : DownloaderV11 κ) : Prop where
  threads : d'.threads = d.threads
  preparedBlocks : d'.preparedBlocks = d.preparedBlocks
  work : ∃ jobs, d'.work = d.work ++ jobs ∧ (∀ wo ∈ jobs, Matches env wo) ∧
    ∀ h, preparing d'.downloadChain h ≤ preparing d.downloadChain h + jobsFor jobs h
  prepared : ∀ p ∈ settled d'.downloadChain, p.2.1 = .prepared → p ∈ settled d.downloadChain

omit [Ord κ] [Std.TransOrd κ] [DecidableEq κ] [Std.LawfulEqOrd κ] in
private theorem preparing_eq (cells : List (DownloadCell κ)) (h : Hash) :
    preparing cells h = (settled cells).countP fun p ↦ p.2.1 = .preparing ∧ p.1 = h := by
  rw [settled, List.countP_map, List.countP_filter]
  refine List.countP_congr fun dc _ ↦ ?_
  simp only [Function.comp_apply, Bool.and_eq_true, decide_eq_true_eq]
  refine ⟨fun hdc ↦ ⟨hdc, ?_⟩, And.left⟩
  rw [hdc.1]
  decide

omit [Std.TransOrd κ] [DecidableEq κ] [Std.LawfulEqOrd κ] in
theorem Follows.of_settled (hsettled : (settled d'.downloadChain).Sublist (settled d.downloadChain))
    (hthreads : d'.threads = d.threads) (hwork : d'.work = d.work)
    (hprepared : d'.preparedBlocks = d.preparedBlocks) : Follows env d d' := by
  refine ⟨hthreads, hprepared, ⟨[], by rw [hwork, List.append_nil], nofun, fun h ↦ ?_⟩,
    fun p hp _ ↦ hsettled.subset hp⟩
  rw [preparing_eq, preparing_eq]
  exact (hsettled.countP_le).trans (Nat.le_add_right _ _)

omit [Std.TransOrd κ] [DecidableEq κ] [Std.LawfulEqOrd κ] in
theorem Follows.trans (h : Follows env d₁ d₂) (h' : Follows env d₂ d₃) : Follows env d₁ d₃ := by
  obtain ⟨jobs, hwork, hmatch, hcount⟩ := h.work
  obtain ⟨jobs', hwork', hmatch', hcount'⟩ := h'.work
  refine ⟨h'.threads.trans h.threads, h'.preparedBlocks.trans h.preparedBlocks,
    ⟨jobs ++ jobs', by rw [hwork', hwork, List.append_assoc], fun wo hwo ↦ ?_, fun x ↦ ?_⟩,
    fun p hp hs ↦ h.prepared p (h'.prepared p hp hs) hs⟩
  · exact (List.mem_append.mp hwo).elim (hmatch wo) (hmatch' wo)
  · have hfirst := hcount x
    have hsecond := hcount' x
    rw [jobsFor, List.countP_append]
    unfold jobsFor at hfirst hsecond
    omega

omit [Std.TransOrd κ] [DecidableEq κ] [Std.LawfulEqOrd κ] in
theorem Advances.follows (h : Advances d d') : Follows env d d' :=
  .of_settled h.settled h.threads h.work h.preparedBlocks

/-- From `d` a part of a handler succeeds with what follows `d`. -/
def Handles (env : Env) (d : DownloaderV11 κ) (r : Except DownloadFault (DownloaderV11 κ)) : Prop :=
  ∃ d', r = .ok d' ∧ d'.Accounted ∧ Follows env d d'

namespace Handles

variable {r : Except DownloadFault (DownloaderV11 κ)}
variable {f : DownloaderV11 κ → Except DownloadFault (DownloaderV11 κ)}
variable {incoming : κ → Bool}

omit [Std.LawfulEqOrd κ] in
theorem ok (hacc : d'.Accounted) (h : Follows env d d') : Handles env d (.ok d') :=
  ⟨d', rfl, hacc, h⟩

omit [Std.LawfulEqOrd κ] in
theorem unchanged (h : d.Accounted) : Handles env d (.ok d) :=
  ⟨d, rfl, h, (Advances.refl d).follows⟩

omit [Std.LawfulEqOrd κ] in
theorem bind (h : Handles env d r) (hf : ∀ d', d'.Accounted → Follows env d d' → Handles env d (f d')) :
    Handles env d (r >>= f) := by
  obtain ⟨d', rfl, hacc, hfollows⟩ := h
  exact hf d' hacc hfollows

theorem drop (who : κ) (hacc : d'.Accounted) (h : Follows env d d') :
    Handles env d (d'.drop incoming w who) := by
  obtain ⟨d₁, hd₁, hacc₁, hadv⟩ := sound_disconnect incoming w (d'.goodClients.size + 1) who d' hacc
    (Nat.lt_succ_of_le Std.ExtTreeMap.size_erase_le)
  exact ⟨d₁, hd₁, hacc₁, h.trans hadv.follows⟩

theorem advance (hacc : d'.Accounted) (h : Follows env d d') :
    Handles env d (d'.advance incoming w) := by
  obtain ⟨d₁, hd₁, hacc₁, hadv⟩ := hacc.advanceDownload (w := w)
    (sound_disconnect incoming w (d'.goodClients.size + 1)) (Nat.le_succ _)
  exact ⟨d₁, hd₁, hacc₁, h.trans hadv.follows⟩

end Handles

/-! ## Calls that accept no blocks -/

variable {incoming : κ → Bool}

omit [Std.LawfulEqOrd κ] in
theorem Accounted.elsewhere (h : d.Accounted) (hclients : d'.goodClients = d.goodClients)
    (htotal : d'.totalDownloadingBlocks = d.totalDownloadingBlocks)
    (hcells : d'.downloadChain = d.downloadChain) (hchain : d'.chainClient = d.chainClient) :
    d'.Accounted :=
  h.same hclients htotal (fun who ↦ by rw [hcells]) (by rw [hcells]; exact h.refers) (.inl hchain)

/-- A new good client downloads nothing. -/
theorem Accounted.connected (h : d.Accounted) (who : κ) {effects : List (DownloadEffect κ)} :
    ({ d with
        goodClients := d.goodClients.insertIfNew who 0
        effects := effects } : DownloaderV11 κ).Accounted := by
  rw [Table.insertIfNew_eq]
  split_ifs with hwho
  · exact h.same rfl rfl (fun _ ↦ rfl) h.refers (.inl rfl)
  · have hnone : d.goodClients[who]? = none := by simpa using hwho
    have hgood (x : κ) (hx : (d.goodClients[x]?).isSome) :
        ((d.goodClients.insert who 0)[x]?).isSome := by
      rw [Table.get_insert]
      split_ifs
      · rfl
      · exact hx
    refine ⟨?_, fun x ↦ ?_, fun c hc x hx ↦ ?_, fun x hx ↦ hgood x (h.chainClient x hx)⟩
    · change d.totalDownloadingBlocks = Table.total id (d.goodClients.insert who 0)
      rw [Table.total_insert id 0 hnone, id_eq, Nat.zero_add, h.total]
    · change ((d.goodClients.insert who 0)[x]?).getD 0 = downloads d.downloadChain x
      rw [← h.counted x, counter, Table.get_insert]
      split_ifs with hx
      · rw [← hx, hnone]
        rfl
      · rfl
    · obtain ⟨hs, hsome⟩ := h.refers c hc x hx
      exact ⟨hs, hgood x hsome⟩

theorem Accounted.onConnect (h : d.Accounted) (who : κ) :
    Handles env d (DownloaderV11.onConnect incoming w who d) := by
  have hgo (effects : List (DownloadEffect κ)) : Handles env d (DownloaderV11.advance incoming w
      { d with goodClients := d.goodClients.insertIfNew who 0, effects := effects }) :=
    .advance (h.connected who) (.of_settled (List.Sublist.refl _) rfl rfl rfl)
  rw [DownloaderV11.onConnect]
  split_ifs with hincoming hversion htip
  · exact .unchanged h
  · exact hgo _
  · exact hgo _
  · exact .unchanged h

theorem Accounted.onChainTimer (h : d.Accounted) :
    Handles env d (DownloaderV11.onChainTimer incoming w d) := by
  rw [DownloaderV11.onChainTimer]
  cases d.chainClient with
  | none => exact .unchanged h
  | some who => exact .drop who h (Advances.refl d).follows

theorem Accounted.onDownloadTimer (h : d.Accounted) :
    Handles env d (DownloaderV11.onDownloadTimer incoming w d) := by
  have hsame : (settled d.downloadChain).Sublist (settled d.downloadChain) := List.Sublist.refl _
  have hidle : Handles env d (.ok { d with readings := d.readings + 1 }) :=
    .ok (h.elsewhere rfl rfl rfl rfl) (.of_settled hsame rfl rfl rfl)
  rw [DownloaderV11.onDownloadTimer]
  dsimp only
  split
  · exact hidle
  · split
    · exact hidle
    · split_ifs
      · exact .drop _ (h.elsewhere rfl rfl rfl rfl) (.of_settled hsame rfl rfl rfl)
      · exact hidle

theorem Accounted.onMsgNotifyRequestChain (h : d.Accounted) (who : κ)
    (req : NotifyResponseChainEntry.Request) :
    Handles env d (DownloaderV11.onMsgNotifyRequestChain incoming w who req d) := by
  have hsame : (settled d.downloadChain).Sublist (settled d.downloadChain) := List.Sublist.refl _
  rw [DownloaderV11.onMsgNotifyRequestChain]
  split_ifs with hasked hempty
  · exact .unchanged h
  · refine .bind ?_ fun d' hacc hfollows ↦ .advance hacc hfollows
    exact .drop who (h.elsewhere rfl rfl rfl rfl) (.of_settled hsame rfl rfl rfl)
  · exact .advance (h.elsewhere rfl rfl rfl rfl) (.of_settled hsame rfl rfl rfl)

/-! ## Blocks that arrive, and blocks that are missing -/

/-- A cell takes its block, and a job is queued for it. -/
theorem Accounted.acceptCell (h : d.Accounted) {who : κ} {bid : Hash} {rb : RawBlockLegacy}
    (hbid : returnedHash env rb = some bid) (hdc : d.downloadChain[i]? = some dc) :
    ∃ r, DownloaderV11.acceptCell env who bid rb d i dc = .ok r ∧ r.1.Accounted ∧
      Follows env d r.1 := by
  rw [DownloaderV11.acceptCell]
  split_ifs with hother
  · exact ⟨_, rfl, h, (Advances.refl d).follows⟩
  · push Not at hother
    obtain ⟨hs, hwho, hbids⟩ := hother
    obtain ⟨count, hcount, hstop⟩ := h.stopDownload (List.mem_of_getElem? hdc) hwho
    simp only [hstop true, ok_bind]
    refine ⟨_, rfl, h.set_stopped hdc hwho hcount rfl rfl rfl rfl rfl, ⟨rfl, rfl, ⟨_, rfl, ?_, fun x ↦ ?_⟩, ?_⟩⟩
    · intro wo hwo
      rw [List.mem_singleton.mp hwo, Matches, hbids]
      exact hbid
    · have hset := countP_set_add (fun c ↦ decide (c.status = .preparing ∧ c.bid = x))
        { dc with rb := {}, status := .preparing, downloadingClient := none } hdc
      simp only [hs, reduceCtorEq, false_and, decide_false, Bool.false_eq_true, if_false, true_and,
        decide_eq_true_eq, Nat.add_zero] at hset
      have hjob : jobsFor [{
          bid := dc.bid
          context := !env.currency.isInSwCheckpointZone dc.expectedHeight
          rb := { block := rb.block, transactions := rb.transactions } }] x
          = if dc.bid = x then 1 else 0 := by
        simp [jobsFor, List.countP_singleton]
      rw [hjob]
      exact hset.le
    · intro p hp hprepared
      obtain ⟨c, hc, rfl⟩ := List.mem_map.mp hp
      obtain ⟨hmem, hne⟩ := List.mem_filter.mp hc
      rcases List.mem_or_eq_of_mem_set hmem with hold | rfl
      · exact List.mem_map.mpr ⟨c, List.mem_filter.mpr ⟨hold, hne⟩, rfl⟩
      · cases hprepared

theorem Accounted.acceptBlocks (h : d.Accounted) (who : κ) (blocks : List RawBlockLegacy) :
    Handles env d (DownloaderV11.acceptBlocks incoming w env who blocks d) := by
  induction blocks generalizing d with
  | nil => exact .unchanged h
  | cons rb blocks ih =>
    rw [DownloaderV11.acceptBlocks]
    cases hbid : returnedHash env rb with
    | none => exact .drop who h (Advances.refl d).follows
    | some bid =>
      obtain ⟨⟨d₁, flow⟩, hloop, hacc₁, hfollows₁⟩ :=
        forAllCells_ok (f := DownloaderV11.acceptCell env who bid rb)
          (fun e ↦ e.Accounted ∧ Follows env d e)
          (fun e i dc he hdc ↦ by
            obtain ⟨r, hr, hacc, hfollows⟩ := he.1.acceptCell hbid hdc
            exact ⟨r, hr, hacc, he.2.trans hfollows⟩)
          ⟨h, (Advances.refl d).follows⟩
      obtain ⟨d', hd', hacc, hfollows⟩ := ih hacc₁
      refine ⟨d', ?_, hacc, hfollows₁.trans hfollows⟩
      simp only [hloop, ok_bind]
      exact hd'

/-- A download is stopped, and started again at another client if there is one. -/
theorem Accounted.missedCell (h : d.Accounted) {who : κ} {bid : Hash}
    (hdit : d.downloadChain[i]? = some dit) :
    ∃ r, DownloaderV11.missedCell w who bid d i dit = .ok r ∧ r.1.Accounted ∧
      Advances d r.1 := by
  rw [DownloaderV11.missedCell]
  split_ifs with hother
  · exact ⟨_, rfl, h, .refl d⟩
  · push Not at hother
    obtain ⟨hs, hwho, -⟩ := hother
    obtain ⟨count, hcount, hstop⟩ := h.stopDownload (List.mem_of_getElem? hdit) hwho
    simp only [hstop false, ok_bind, Bool.false_eq_true, if_false]
    set dit₁ : DownloadCell κ := { dit with downloadingClient := none } with hdit₁
    set d₁ : DownloaderV11 κ := { d with
      goodClients := d.goodClients.insert who count
      totalDownloadingBlocks := d.totalDownloadingBlocks - 1
      whoDownloadedBlock := d.whoDownloadedBlock
      downloadChain := d.downloadChain.set i dit₁ } with hd₁
    have hacc₁ : d₁.Accounted := h.set_stopped hdit hwho hcount rfl rfl rfl rfl rfl
    have hadv₁ : Advances d d₁ := by
      refine ⟨?_, rfl, rfl, rfl, (size_stopped hcount).le⟩
      have hset := filter_set_of_not (b := dit₁) (fun c ↦ decide (c.status ≠ .downloading)) hdit
        (by simp [hs]) (by simp [hdit₁, hs])
      rw [settled, settled, hd₁, hset]
    have hget : d₁.downloadChain[i]? = some dit₁ := by
      obtain ⟨hi, -⟩ := List.getElem?_eq_some_iff.mp hdit
      rw [hd₁]
      exact List.getElem?_set_self hi
    have hclean : ∃ r, d₁.cannotDownload i = .ok r ∧ r.1.Accounted ∧ Advances d r.1 := by
      obtain ⟨r, hr, hacc, hadv⟩ := hacc₁.cannotDownload i
      exact ⟨r, hr, hacc, hadv₁.trans hadv⟩
    cases hclient : d.chainClient with
    | none => exact hclean
    | some client =>
      dsimp only
      split_ifs with hsame
      · exact hclean
      · obtain ⟨hacc, hadv⟩ := hacc₁.startDownload hget hs rfl
          (hacc₁.chainClient client hclient) w
        exact ⟨_, rfl, hacc, hadv₁.trans hadv⟩

theorem Accounted.missedBlocks (h : d.Accounted) (who : κ) (missedIds : List Hash) :
    ∃ d', DownloaderV11.missedBlocks w who missedIds d = .ok d' ∧ d'.Accounted ∧
      Advances d d' := by
  induction missedIds generalizing d with
  | nil => exact ⟨d, rfl, h, .refl d⟩
  | cons bid missedIds ih =>
    obtain ⟨⟨d₁, flow⟩, hloop, hacc₁, hadv₁⟩ :=
      forAllCells_ok (f := DownloaderV11.missedCell w who bid)
        (fun e ↦ e.Accounted ∧ Advances d e)
        (fun e i dc he hdc ↦ by
          obtain ⟨r, hr, hacc, hadv⟩ := he.1.missedCell hdc
          exact ⟨r, hr, hacc, he.2.trans hadv⟩)
        ⟨h, .refl d⟩
    rw [DownloaderV11.missedBlocks]
    simp only [hloop, ok_bind]
    split_ifs
    · exact ⟨d₁, rfl, hacc₁, hadv₁⟩
    · obtain ⟨d', hd', hacc, hadv⟩ := ih hacc₁
      exact ⟨d', hd', hacc, hadv₁.trans hadv⟩

theorem Accounted.onMsgNotifyRequestObjects (h : d.Accounted) (who : κ)
    (req : NotifyResponseGetObjects.Request) :
    Handles env d (DownloaderV11.onMsgNotifyRequestObjects incoming w env who req d) := by
  rw [DownloaderV11.onMsgNotifyRequestObjects]
  refine .bind (h.acceptBlocks who req.blocks) fun d₁ hacc₁ hfollows₁ ↦ ?_
  refine .bind ?_ fun d₂ hacc₂ hfollows₂ ↦ .advance hacc₂ hfollows₂
  obtain ⟨d₂, hd₂, hacc₂, hadv₂⟩ := hacc₁.missedBlocks (w := w) who req.missedIds
  exact ⟨d₂, hd₂, hacc₂, hfollows₁.trans hadv₂.follows⟩

/-! ## Idle -/

/-- A cell with its result. -/
def given (dc : DownloadCell κ) (pb : PreparedBlock) : DownloadCell κ :=
  { dc with pb := some pb, status := .prepared }

variable {cells : List (DownloadCell κ)} {p : Hash × PreparedBlock} {ps : List (Hash × PreparedBlock)}

omit [Ord κ] [Std.TransOrd κ] [DecidableEq κ] [Std.LawfulEqOrd κ] in
private theorem mem_handOver (h : dc ∈ handOver cells p) : dc ∈ cells ∨
    ∃ c ∈ cells, c.status = .preparing ∧ c.bid = p.1 ∧ dc = given c p.2 := by
  induction cells with
  | nil => cases h
  | cons c cells ih =>
    rw [handOver] at h
    split_ifs at h with hc
    · rcases List.mem_cons.mp h with rfl | h
      · exact .inr ⟨c, List.mem_cons_self, hc.1, hc.2, rfl⟩
      · exact .inl (List.mem_cons_of_mem c h)
    · rcases List.mem_cons.mp h with rfl | h
      · exact .inl List.mem_cons_self
      · exact (ih h).imp (List.mem_cons_of_mem c) fun ⟨x, hx, hx'⟩ ↦
          ⟨x, List.mem_cons_of_mem c hx, hx'⟩

omit [Ord κ] [Std.TransOrd κ] [Std.LawfulEqOrd κ] in
private theorem downloads_handOver (who : κ) : downloads (handOver cells p) who = downloads cells who := by
  induction cells with
  | nil => rfl
  | cons c cells ih =>
    rw [handOver]
    split_ifs with hc
    · simp [downloads, downloadedBy, hc.1]
    · rw [downloads, List.countP_cons, ← downloads, ih, downloads, downloads, List.countP_cons]

omit [Ord κ] [Std.TransOrd κ] [DecidableEq κ] [Std.LawfulEqOrd κ] in
private theorem preparing_handOver (h : Hash) :
    preparing (handOver cells p) h = preparing cells h - if p.1 = h then 1 else 0 := by
  induction cells with
  | nil => simp [handOver, preparing]
  | cons c cells ih =>
    unfold preparing at ih ⊢
    rw [handOver]
    split_ifs with hc hh hh
    · simp [hc.1, hc.2, hh]
    · simp [hc.1, hc.2, hh]
    · rw [List.countP_cons_of_neg, List.countP_cons_of_neg, ih, if_pos hh]
      all_goals simpa only [decide_eq_true_eq, hh] using hc
    · rw [List.countP_cons, List.countP_cons, ih, if_neg hh, Nat.sub_zero, Nat.sub_zero]

omit [Ord κ] [Std.TransOrd κ] [DecidableEq κ] [Std.LawfulEqOrd κ] in
theorem mem_foldl_handOver (h : dc ∈ ps.foldl handOver cells) : dc ∈ cells ∨
    ∃ p ∈ ps, ∃ c ∈ cells, c.status = .preparing ∧ c.bid = p.1 ∧ dc = given c p.2 := by
  induction ps generalizing cells with
  | nil => exact .inl h
  | cons p ps ih =>
    rcases ih h with h | ⟨q, hq, c, hc, hs, hbid, rfl⟩
    · exact (mem_handOver h).imp_right fun ⟨c, hc⟩ ↦ ⟨p, List.mem_cons_self, c, hc⟩
    · rcases mem_handOver hc with hc | ⟨x, -, -, -, rfl⟩
      · exact .inr ⟨q, List.mem_cons_of_mem p hq, c, hc, hs, hbid, rfl⟩
      · cases hs

omit [Ord κ] [Std.TransOrd κ] [Std.LawfulEqOrd κ] in
private theorem downloads_foldl_handOver (who : κ) :
    downloads (ps.foldl handOver cells) who = downloads cells who := by
  induction ps generalizing cells with
  | nil => rfl
  | cons p ps ih => rw [List.foldl_cons, ih, downloads_handOver]

omit [Ord κ] [Std.TransOrd κ] [DecidableEq κ] [Std.LawfulEqOrd κ] in
theorem preparing_foldl_handOver (h : Hash) : preparing (ps.foldl handOver cells) h
    = preparing cells h - ps.countP (·.1 = h) := by
  induction ps generalizing cells with
  | nil => rw [List.foldl_nil, List.countP_nil, Nat.sub_zero]
  | cons p ps ih =>
    rw [List.foldl_cons, ih, preparing_handOver, List.countP_cons]
    simp only [decide_eq_true_eq]
    omega

omit [Std.LawfulEqOrd κ] in
theorem Accounted.collect (h : d.Accounted) : d.collect.Accounted := by
  refine h.same rfl rfl downloads_foldl_handOver (fun dc hdc ↦ ?_) (.inl rfl)
  rcases mem_foldl_handOver hdc with hdc | ⟨p, -, c, hc, hs, -, rfl⟩
  · exact h.refers dc hdc
  · intro who hwho
    have hrefers := (h.refers c hc who hwho).1
    rw [hs] at hrefers
    cases hrefers

omit [DecidableEq κ] [Std.LawfulEqOrd κ] [Std.TransOrd κ] in
private theorem addPrepared_eq (w : Surroundings κ) (ideaStart addedCounter : ℕ)
    (hcells : d.downloadChain = cells) :
    ∃ added rest readings effects, cells = added ++ rest ∧
      (∀ dc ∈ added, dc.status = .prepared) ∧
      (addPrepared w ideaStart cells addedCounter d).1 = { d with
        downloadChain := rest, readings := readings, effects := effects } := by
  induction cells generalizing d addedCounter with
  | nil => exact ⟨[], [], d.readings, d.effects, rfl, nofun, by rw [addPrepared, ← hcells]⟩
  | cons dc cells ih =>
    rw [addPrepared]
    by_cases hdc : dc.status = .prepared
    · rw [if_pos hdc]
      by_cases hslow : 100 < w.clock d.readings - ideaStart
      · exact ⟨[dc], cells, d.readings + 1, _, rfl, by simpa using hdc, by rw [if_pos hslow]⟩
      · obtain ⟨added, rest, readings, effects, hsplit, hadded, heq⟩ := ih (d := { d with
            downloadChain := cells
            readings := d.readings + 1
            effects :=
              if (w.addBlock addedCounter).action = .broadcastAll ∧ cells.length = 0 then
                .broadcastTip (w.addBlock addedCounter).tipHeight (w.addBlock addedCounter).tipBid ::
                  .addBlock dc.pb dc.blockSource :: d.effects
              else .addBlock dc.pb dc.blockSource :: d.effects }) (addedCounter + 1) rfl
        refine ⟨dc :: added, rest, readings, effects, by rw [hsplit, List.cons_append],
          List.forall_mem_cons.mpr ⟨hdc, hadded⟩, ?_⟩
        rw [if_neg hslow]
        exact heq
    · exact ⟨[], dc :: cells, d.readings, d.effects, rfl, nofun, by rw [if_neg hdc, ← hcells]⟩

omit [Std.LawfulEqOrd κ] in
theorem Accounted.addPrepared (h : d.Accounted) (w : Surroundings κ) (ideaStart addedCounter : ℕ) :
    (DownloaderV11.addPrepared w ideaStart d.downloadChain addedCounter d).1.Accounted ∧
      Advances d (DownloaderV11.addPrepared w ideaStart d.downloadChain addedCounter d).1 := by
  obtain ⟨added, rest, readings, effects, hsplit, hadded, heq⟩ :=
    addPrepared_eq w ideaStart addedCounter (d := d) rfl
  rw [heq]
  have hnone (who : κ) : downloads added who = 0 := by
    refine List.countP_eq_zero.mpr fun dc hdc ↦ ?_
    simp [downloadedBy, hadded dc hdc]
  refine ⟨h.same rfl rfl (fun who ↦ ?_) (fun c hc ↦ h.refers c ?_) (.inl rfl),
    ⟨?_, rfl, rfl, rfl, le_rfl⟩⟩
  · have hsum : downloads d.downloadChain who = downloads added who + downloads rest who := by
      rw [hsplit, downloads, List.countP_append, downloads, downloads]
    rw [hsum, hnone, Nat.zero_add]
  · rw [hsplit]
    exact List.mem_append_right _ hc
  · rw [hsplit]
    exact ((List.sublist_append_right _ _).filter _).map _

theorem Accounted.afterAdding (h : d'.Accounted) (hfollows : Follows env d d')
    (incoming : κ → Bool) (w : Surroundings κ) (addedCounter : ℕ) :
    Handles env d (DownloaderV11.afterAdding incoming w addedCounter d') := by
  rw [DownloaderV11.afterAdding]
  split_ifs with hnone
  · exact .ok h hfollows
  · refine .bind (.advance h hfollows) fun d₁ hacc₁ hfollows₁ ↦ ?_
    split
    · exact .ok hacc₁ hfollows₁
    · exact .ok (hacc₁.elsewhere rfl rfl rfl rfl)
        (hfollows₁.trans (.of_settled (List.Sublist.refl _) rfl rfl rfl))

/-- Idling hands the results over, and what follows is as in any other handler. -/
theorem Accounted.onIdle (h : d.Accounted) (env : Env) (incoming : κ → Bool) (w : Surroundings κ) :
    ∃ d', DownloaderV11.onIdle incoming w d
      = .ok (d', d'.downloadChain.head?.any (·.status = .prepared)) ∧ d'.Accounted ∧
        Follows env d.collect d' := by
  have hread : ({ d.collect with readings := d.collect.readings + 1 } : DownloaderV11 κ).Accounted :=
    h.collect.elsewhere rfl rfl rfl rfl
  obtain ⟨hacc, hadv⟩ := hread.addPrepared w (w.clock d.collect.readings) 0
  have hfollows : Follows env d.collect (DownloaderV11.addPrepared w (w.clock d.collect.readings)
      d.collect.downloadChain 0 { d.collect with readings := d.collect.readings + 1 }).1 :=
    .of_settled hadv.settled hadv.threads hadv.work hadv.preparedBlocks
  obtain ⟨d', hd', hok⟩ := hacc.afterAdding hfollows incoming w _
  refine ⟨d', ?_, hok⟩
  rw [DownloaderV11.onIdle]
  exact bind_eq_ok.mpr ⟨d', hd', rfl⟩

/-- The downloader as a call finds it when it gets to anything but the results. -/
def begun (d : DownloaderV11 κ) : Call κ → DownloaderV11 κ
  | .idle => d.collect
  | _ => d

/-- **No handler stops**, and each leaves the counters right. -/
theorem Accounted.handle (h : d.Accounted) (env : Env) (incoming : κ → Bool) (w : Surroundings κ)
    (call : Call κ) :
    Handles env (d.begun call) (DownloaderV11.handle env incoming w d call) := by
  cases call with
  | connect who => exact h.onConnect who
  | disconnect who => exact .drop who h (Advances.refl d).follows
  | chainTimer => exact h.onChainTimer
  | downloadTimer => exact h.onDownloadTimer
  | chain who req => exact h.onMsgNotifyRequestChain who req
  | objects who req => exact h.onMsgNotifyRequestObjects who req
  | idle =>
    obtain ⟨d', hd', hok⟩ := h.onIdle env incoming w
    exact ⟨d', bind_eq_ok.mpr ⟨_, hd', rfl⟩, hok⟩
  | advance => exact .advance h (Advances.refl d).follows

/-! ## Runs -/

theorem Accounted.step (h : d.Accounted) {action : Action κ}
    (hstep : DownloaderV11.step env incoming d action = .ok d') : d'.Accounted := by
  cases action with
  | call w call =>
    obtain ⟨d₁, hd₁, hacc, -⟩ := h.handle env incoming w call
    obtain rfl : d₁ = d' := Except.ok.inj (hd₁.symm.trans hstep)
    exact hacc
  | take thread =>
    rw [DownloaderV11.step] at hstep
    split at hstep
    · cases hstep
      exact h.elsewhere rfl rfl rfl rfl
    · cases hstep
  | publish thread =>
    rw [DownloaderV11.step] at hstep
    split at hstep
    · split at hstep
      · cases hstep
        exact h.elsewhere rfl rfl rfl rfl
      · cases hstep
    · cases hstep

private theorem accounted_of_reachable {hardwareConcurrency : ℕ}
    (h : Reachable env incoming hardwareConcurrency d) : d.Accounted :=
  h.invariant (fun _ hnew ↦ hnew ▸ accounted_new hardwareConcurrency)
    fun _ _ _ _ hacc _ hstep ↦ hacc.step hstep

/-- **The accounts of the downloader.** Whatever is called in whatever order, the total is the sum
of the counters, every counter counts the cells that its client downloads, and every client that
downloads a cell has a counter. No call stops: no `invariant` fails and no nesting is too deep. -/
theorem downloads_accounted {hardwareConcurrency : ℕ}
    (h : Reachable env incoming hardwareConcurrency d) :
    d.totalDownloadingBlocks = (d.goodClients.toList.map (·.2)).sum ∧
    (∀ (who : κ) (count : ℕ), d.goodClients[who]? = some count →
      count = d.downloadChain.countP fun dc ↦
        dc.status = .downloading ∧ dc.downloadingClient = some who) ∧
    (∀ dc ∈ d.downloadChain, ∀ who, dc.downloadingClient = some who →
      (d.goodClients[who]?).isSome) ∧
    ∀ (w : Surroundings κ) (call : Call κ), ∃ d', handle env incoming w d call = .ok d' := by
  have hacc := accounted_of_reachable h
  refine ⟨hacc.total, fun who count hcount ↦ ?_, fun dc hdc who hwho ↦
    (hacc.refers dc hdc who hwho).2, fun w call ↦ ?_⟩
  · have hcounted := hacc.counted who
    rw [counter, hcount, Option.getD_some] at hcounted
    exact hcounted
  · obtain ⟨d', hd', -⟩ := hacc.handle env incoming w call
    exact ⟨d', hd'⟩

/-- A node at the start of the chain, with clients that all have nine blocks. -/
def sampleSurroundings : Surroundings ℕ where
  blockChainReader1 := false
  blockChainReader2 := false
  tipHeight := 0
  internalImportKnownHeight := 0
  hasBlock _ := false
  readHeader _ := false
  sparseChain := []
  lastReceivedSyncData _ := { currentHeight := 9 }
  version _ := 1
  address _ := {}
  p2pDefaultConnectionsCount := 8
  localTime := 0
  clock n := n
  rand n := n
  addBlock _ := { action := .broadcastAll, tipHeight := 1, tipBid := 0 }

def sampleBlockTemplate : BlockTemplate where
  majorVersion := 1
  baseTransaction := { version := 1, inputs := [.coinbaseInput {}] }

def sampleBlock : RawBlockLegacy where
  block := (writeBlockTemplate (Env.lax 0).crypto sampleBlockTemplate).getD []

def sampleHash : Hash := (returnedHash (.lax 0) sampleBlock).getD 0

/-- A client connects, announces a chain that has the same hash twice, and sends the block. -/
def sampleRun (blocks : ℕ) : List (Action ℕ) := [
  .call sampleSurroundings (.connect 7),
  .call sampleSurroundings (.chain 7 { startHeight := 1, blockIds := [sampleHash, sampleHash] }),
  .call sampleSurroundings (.objects 7 { blocks := List.replicate blocks sampleBlock })]

/-- The sample run, continued. -/
def afterSampleRun (blocks : ℕ) (actions : List (Action ℕ)) :
    Except DownloadFault (DownloaderV11 ℕ) :=
  (sampleRun blocks ++ actions).foldlM (step (.lax 0) fun _ ↦ false) (new 4)

theorem reachable_afterSampleRun {blocks : ℕ} {actions : List (Action ℕ)} {d : DownloaderV11 ℕ}
    (h : afterSampleRun blocks actions = .ok d) : Reachable (.lax 0) (fun _ ↦ false) 4 d :=
  Reaches.steps (fun _ _ _ ↦ trivial) (.start rfl) h

theorem downloads_accounted_sample : ∃ d : DownloaderV11 ℕ, d.goodClients[7]? = some 1 ∧
    1 = d.downloadChain.countP (fun dc ↦ dc.status = .downloading ∧ dc.downloadingClient = some 7) ∧
    d.totalDownloadingBlocks = (d.goodClients.toList.map (·.2)).sum := by
  obtain ⟨d, hd, hcount⟩ : ∃ d ∈ (afterSampleRun 1 []).toOption, d.goodClients[7]? = some 1 := by
    decide +kernel
  have h := downloads_accounted (reachable_afterSampleRun (toOption_eq_some.mp hd))
  exact ⟨d, hcount, h.2.1 7 1 hcount, h.1⟩

end CryoNero.DownloaderV11
