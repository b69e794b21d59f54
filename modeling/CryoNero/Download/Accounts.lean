import CryoNero.Download.Cells

/-!
# The counters of the downloader

Every function of the downloader is shown to succeed when the counters are right, and to leave them
right. This goes from the single download over the loops to the handlers. The functions that
disconnect clients are handled for any way of disconnecting them that is `Sound` up to a number of
good clients: a client that is disconnected in the middle of a handler is a good one, so the
number goes down and the nested calls come to an end.
-/

namespace CryoNero.DownloaderV11

open Store

variable {κ : Type} [Ord κ] [Std.TransOrd κ] [DecidableEq κ] [Std.LawfulEqOrd κ]
variable {d d' : DownloaderV11 κ} {w : Surroundings κ} {dc dit : DownloadCell κ} {i : ℕ}

/-! ## Single downloads -/

omit [DecidableEq κ] [Std.LawfulEqOrd κ] in
private theorem stopDownload_of_none (h : dc.downloadingClient = none) (success : Bool) :
    d.stopDownload dc success = .ok (d, dc) := by
  rw [stopDownload, h]
  cases dc.status <;> rfl

/-- No `invariant` fails when a download is stopped. -/
theorem Accounted.stopDownload (h : d.Accounted) (hdc : dc ∈ d.downloadChain) {client : κ}
    (hclient : dc.downloadingClient = some client) :
    ∃ count, d.goodClients[client]? = some (count + 1) ∧ ∀ success,
      d.stopDownload dc success = .ok ({ d with
          goodClients := d.goodClients.insert client count
          totalDownloadingBlocks := d.totalDownloadingBlocks - 1
          whoDownloadedBlock :=
            if success then d.whoDownloadedBlock ++ [client] else d.whoDownloadedBlock },
        { dc with
          status := if success then .downloaded else dc.status
          downloadingClient := none }) := by
  obtain ⟨hs, hsome⟩ := h.refers dc hdc client hclient
  obtain ⟨n, hn⟩ := Option.isSome_iff_exists.mp hsome
  have hpos : 0 < downloads d.downloadChain client := by
    refine List.countP_pos_iff.mpr ⟨dc, hdc, ?_⟩
    rw [downloadedBy_of_some hs hclient, decide_eq_true rfl]
  rw [← h.counted client, counter, hn, Option.getD_some] at hpos
  obtain ⟨count, rfl⟩ := Nat.exists_eq_add_of_lt hpos
  rw [Nat.zero_add] at hn
  have htotal : d.totalDownloadingBlocks ≠ 0 := by
    have hle := Table.le_total_of_get id hn
    rw [← h.total, id_eq] at hle
    omega
  refine ⟨count, hn, fun success ↦ ?_⟩
  rw [DownloaderV11.stopDownload, hs, hclient]
  simp only [hn, if_pos htotal]

/-- What is left when the download of a cell was stopped and the cell has no client now. -/
theorem Accounted.set_stopped (h : d.Accounted) (hdc : d.downloadChain[i]? = some dc) {client : κ}
    (hclient : dc.downloadingClient = some client) {count : ℕ}
    (hcount : d.goodClients[client]? = some (count + 1)) (hnew : dit.downloadingClient = none)
    (hclients : d'.goodClients = d.goodClients.insert client count)
    (htotal : d'.totalDownloadingBlocks = d.totalDownloadingBlocks - 1)
    (hcells : d'.downloadChain = d.downloadChain.set i dit)
    (hchain : d'.chainClient = d.chainClient) : d'.Accounted := by
  obtain ⟨hs, -⟩ := h.refers dc (List.mem_of_getElem? hdc) client hclient
  refine h.less hcount hclients htotal (fun who ↦ ?_) (fun c hc ↦ ?_) hchain
  · have hset := countP_set_add (downloadedBy who) dit hdc
    rw [downloadedBy_of_some hs hclient, downloadedBy_of_none hnew, if_neg Bool.false_ne_true]
      at hset
    rw [hcells, downloads, downloads]
    simpa using hset
  · rw [hcells] at hc
    rcases List.mem_or_eq_of_mem_set hc with hold | rfl
    · exact .inl hold
    · exact .inr hnew

omit [DecidableEq κ] [Std.LawfulEqOrd κ] in
theorem size_stopped {client : κ} {count : ℕ} (hcount : d.goodClients[client]? = some (count + 1)) :
    (d.goodClients.insert client count).size = d.goodClients.size :=
  Table.size_insert_of_isSome _ (by rw [hcount]; rfl)

/-- A cell that waits for a client gets one. -/
theorem Accounted.startDownload (h : d.Accounted) (hdc : d.downloadChain[i]? = some dc)
    (hs : dc.status = .downloading) (hnone : dc.downloadingClient = none) {who : κ}
    (hwho : (d.goodClients[who]?).isSome) (w : Surroundings κ) :
    let p := d.startDownload w dc who
    ({ p.1 with downloadChain := p.1.downloadChain.set i p.2 }).Accounted ∧
      Advances d { p.1 with downloadChain := p.1.downloadChain.set i p.2 } := by
  intro p
  have hsp : p.2.status = .downloading := hs
  have hclient : p.2.downloadingClient = some who := rfl
  constructor
  · refine h.more hwho rfl rfl (fun x ↦ ?_) (fun c hc ↦ ?_) rfl
    · have hset := countP_set_add (downloadedBy x) p.2 hdc
      rw [downloadedBy_of_none hnone, downloadedBy_of_some hsp hclient, if_neg Bool.false_ne_true]
        at hset
      simp only [decide_eq_true_eq, Nat.add_zero] at hset
      exact hset
    · rcases List.mem_or_eq_of_mem_set hc with hold | rfl
      · exact .inl hold
      · exact .inr ⟨hsp, hclient⟩
  · have hset := filter_set_of_not (b := p.2) (fun c ↦ decide (c.status ≠ .downloading)) hdc
      (by simp [hs]) (by simp [hsp])
    refine ⟨?_, rfl, rfl, rfl, (Table.size_insert_of_isSome _ hwho).le⟩
    rw [settled, settled]
    change (List.map _ (List.filter _ (d.downloadChain.set i p.2))).Sublist _
    rw [hset]

theorem Accounted.cleanChain {n : ℕ} (h : d.Accounted) :
    ∃ d', DownloaderV11.cleanChain n d = .ok d' ∧ d'.Accounted ∧ Advances d d' := by
  induction n generalizing d with
  | zero => exact ⟨d, rfl, h, .refl d⟩
  | succ n ih =>
    rw [DownloaderV11.cleanChain]
    cases hlast : d.downloadChain.getLast? with
    | none => exact ⟨d, rfl, h, .refl d⟩
    | some dc =>
      have hmem : dc ∈ d.downloadChain := List.mem_of_getLast? hlast
      have hcells := fun who ↦ countP_dropLast_add (downloadedBy who) hlast
      have hsettled : (settled d.downloadChain.dropLast).Sublist (settled d.downloadChain) :=
        ((List.dropLast_sublist _).filter _).map _
      have hgo (e : DownloaderV11 κ) (he : e.Accounted) (hde : Advances d e) :
          ∃ d', DownloaderV11.cleanChain n e = .ok d' ∧ d'.Accounted ∧ Advances d d' := by
        obtain ⟨d', hd', hacc, hadv⟩ := ih he
        exact ⟨d', hd', hacc, hde.trans hadv⟩
      rcases hclient : dc.downloadingClient with _ | client
      · have hcell (who : κ) : downloads d.downloadChain.dropLast who
            = downloads d.downloadChain who := by
          have hcell := hcells who
          rw [downloadedBy_of_none hclient, if_neg Bool.false_ne_true, Nat.add_zero] at hcell
          exact hcell
        obtain ⟨d', hd', hok⟩ := hgo { d with downloadChain := d.downloadChain.dropLast }
          (h.same rfl rfl hcell (fun c hc ↦ h.refers c (List.mem_of_mem_dropLast hc)) (.inl rfl))
          ⟨hsettled, rfl, rfl, rfl, le_rfl⟩
        refine ⟨d', ?_, hok⟩
        simp only [stopDownload_of_none hclient, ok_bind]
        exact hd'
      · obtain ⟨count, hcount, hstop⟩ := h.stopDownload hmem hclient
        obtain ⟨hs, -⟩ := h.refers dc hmem client hclient
        have hcell (who : κ) : downloads d.downloadChain.dropLast who + (if client = who then 1 else 0)
            = downloads d.downloadChain who := by
          have hcell := hcells who
          rw [downloadedBy_of_some hs hclient] at hcell
          simp only [decide_eq_true_eq] at hcell
          exact hcell
        obtain ⟨d', hd', hok⟩ := hgo { d with
            goodClients := d.goodClients.insert client count
            totalDownloadingBlocks := d.totalDownloadingBlocks - 1
            whoDownloadedBlock := d.whoDownloadedBlock
            downloadChain := d.downloadChain.dropLast }
          (h.less hcount rfl rfl hcell (fun c hc ↦ .inl (List.mem_of_mem_dropLast hc)) rfl)
          ⟨hsettled, rfl, rfl, rfl, (size_stopped hcount).le⟩
        refine ⟨d', ?_, hok⟩
        simp only [hstop false, ok_bind]
        exact hd'

/-! ## Loops over the cells -/

omit [DecidableEq κ] [Std.LawfulEqOrd κ] [Std.TransOrd κ] in
private theorem forCells_ok
    {f : DownloaderV11 κ → ℕ → DownloadCell κ → Except DownloadFault (DownloaderV11 κ × Flow)}
    (M : DownloaderV11 κ → Prop)
    (hbody : ∀ d i dc, M d → d.downloadChain[i]? = some dc → ∃ r, f d i dc = .ok r ∧ M r.1)
    (n i : ℕ) {d : DownloaderV11 κ} (h : M d) : ∃ r, forCells f n i d = .ok r ∧ M r.1 := by
  induction n generalizing i d with
  | zero => exact ⟨(d, .next), rfl, h⟩
  | succ n ih =>
    rw [forCells]
    cases hdc : d.downloadChain[i]? with
    | none => exact ⟨(d, .next), rfl, h⟩
    | some dc =>
      obtain ⟨r, hr, hM⟩ := hbody d i dc h hdc
      simp only [hr, ok_bind]
      split_ifs
      · exact ih (i + 1) hM
      · exact ⟨r, rfl, hM⟩

omit [DecidableEq κ] [Std.LawfulEqOrd κ] [Std.TransOrd κ] in
theorem forAllCells_ok
    {f : DownloaderV11 κ → ℕ → DownloadCell κ → Except DownloadFault (DownloaderV11 κ × Flow)}
    (M : DownloaderV11 κ → Prop)
    (hbody : ∀ d i dc, M d → d.downloadChain[i]? = some dc → ∃ r, f d i dc = .ok r ∧ M r.1)
    (h : M d) : ∃ r, forAllCells f d = .ok r ∧ M r.1 :=
  forCells_ok M hbody d.downloadChain.length 0 h

theorem Accounted.cannotDownload (h : d.Accounted) (i : ℕ) :
    ∃ r, d.cannotDownload i = .ok r ∧ r.1.Accounted ∧ Advances d r.1 := by
  obtain ⟨d', hd', hacc, hadv⟩ := h.cleanChain (n := d.downloadChain.length - i)
  refine ⟨({ d' with chain := [] }, .cleaned), ?_, ?_, ?_⟩
  · rw [DownloaderV11.cannotDownload, hd', ok_bind]
  · exact hacc.same rfl rfl (fun _ ↦ rfl) hacc.refers (.inl rfl)
  · exact hadv.trans ⟨List.Sublist.refl _, rfl, rfl, rfl, le_rfl⟩

/-! ## Advancing -/

omit [Std.LawfulEqOrd κ] in
theorem Accounted.fillWindow (h : d.Accounted) (n : ℕ) :
    (DownloaderV11.fillWindow n d).Accounted ∧ Advances d (DownloaderV11.fillWindow n d) := by
  induction n generalizing d with
  | zero => exact ⟨h, .refl d⟩
  | succ n ih =>
    have hgo (e : DownloaderV11 κ) (he : e.Accounted) (hde : Advances d e) :
        (DownloaderV11.fillWindow n e).Accounted ∧ Advances d (DownloaderV11.fillWindow n e) :=
      ⟨(ih he).1, hde.trans (ih he).2⟩
    rw [DownloaderV11.fillWindow]
    rcases d.chain with _ | ⟨bid, chain⟩
    · exact ⟨h, .refl d⟩
    · dsimp only
      split_ifs with hroom
      · refine hgo _ (h.same rfl rfl (fun who ↦ ?_) (fun c hc ↦ ?_) (.inl rfl))
          ⟨?_, rfl, rfl, rfl, le_rfl⟩
        · rw [downloads, List.countP_append, List.countP_singleton, downloadedBy_of_none rfl,
            if_neg Bool.false_ne_true, Nat.add_zero, downloads]
        · rcases List.mem_append.mp hc with hc | hc
          · exact h.refers c hc
          · rw [List.mem_singleton.mp hc]
            exact refers_of_none rfl
        · -- a new cell waits for its block
          simp [settled]
      · exact ⟨h, .refl d⟩

omit [DecidableEq κ] in
theorem isSome_of_mem_clients {who : κ} (h : who ∈ d.goodClients.toList.map (·.1)) :
    (d.goodClients[who]?).isSome := by
  obtain ⟨⟨x, count⟩, hmem, rfl⟩ := List.mem_map.mp h
  rw [Table.mem_toList.mp hmem]
  rfl

omit [Ord κ] [Std.TransOrd κ] [DecidableEq κ] [Std.LawfulEqOrd κ] in
private theorem mem_of_foldl {f : Option κ × ℕ × ℕ → κ × ℕ → Option κ × ℕ × ℕ}
    (hf : ∀ r p, (f r p).1 = some p.1 ∨ f r p = r) {l : List (κ × ℕ)} {ready : Option κ × ℕ × ℕ}
    {who : κ} (h : (l.foldl f ready).1 = some who) :
    ready.1 = some who ∨ who ∈ l.map (·.1) := by
  induction l generalizing ready with
  | nil => exact .inl h
  | cons p l ih =>
    rw [List.map_cons, List.mem_cons]
    rcases ih h with hready | hmem
    · rcases hf ready p with hp | hp
      · rw [hp] at hready
        exact .inr (.inl (Option.some.inj hready).symm)
      · rw [hp] at hready
        exact .inl hready
    · exact .inr (.inr hmem)

private theorem readyClient_good {expectedHeight : Height} {who : κ}
    (h : readyClient w d expectedHeight = some who) : (d.goodClients[who]?).isSome := by
  rw [readyClient] at h
  refine isSome_of_mem_clients ((mem_of_foldl (fun r p ↦ ?_) h).resolve_left nofun)
  dsimp only
  split_ifs
  · exact .inl rfl
  · exact .inr rfl

theorem Accounted.assignCell (h : d.Accounted) (hdit : d.downloadChain[i]? = some dit) :
    ∃ r, DownloaderV11.assignCell w d i dit = .ok r ∧ r.1.Accounted ∧ Advances d r.1 := by
  rw [DownloaderV11.assignCell]
  split_ifs with hbusy hmany
  · exact ⟨_, rfl, h, .refl d⟩
  · exact ⟨_, rfl, h, .refl d⟩
  · push Not at hbusy
    have hnone : dit.downloadingClient = none := by
      simpa using hbusy.2
    cases hready : (readyClient w d dit.expectedHeight).or d.chainClient with
    | none => exact h.cannotDownload i
    | some who =>
      have hwho : (d.goodClients[who]?).isSome := by
        rcases Option.or_eq_some_iff.mp hready with hwho | ⟨-, hwho⟩
        · exact readyClient_good hwho
        · exact h.chainClient who hwho
      exact ⟨_, rfl, h.startDownload hdit hbusy.1 hnone hwho w⟩

/-- Disconnecting a client succeeds and keeps the counters right, as long as it leaves fewer than
`n` good clients. -/
def Sound (disconnect : κ → DownloaderV11 κ → Except DownloadFault (DownloaderV11 κ)) (n : ℕ) :
    Prop :=
  ∀ who d, d.Accounted → (d.goodClients.erase who).size < n →
    ∃ d', disconnect who d = .ok d' ∧ d'.Accounted ∧ Advances d d'

section Nested

variable {disconnect : κ → DownloaderV11 κ → Except DownloadFault (DownloaderV11 κ)} {n : ℕ}

omit [Std.LawfulEqOrd κ] in
theorem Sound.good (hsound : Sound disconnect n) {who : κ} (hwho : (d.goodClients[who]?).isSome)
    (hsize : d.goodClients.size ≤ n) (hacc : d.Accounted) :
    ∃ d', disconnect who d = .ok d' ∧ d'.Accounted ∧ Advances d d' := by
  obtain ⟨count, hcount⟩ := Option.isSome_iff_exists.mp hwho
  have hlt := Table.size_of_get hcount
  exact hsound who d hacc (by omega)

theorem Accounted.advanceChain (hsound : Sound disconnect n) (h : d.Accounted)
    (hsize : d.goodClients.size ≤ n) :
    ∃ d', DownloaderV11.advanceChain disconnect w d = .ok d' ∧ d'.Accounted ∧ Advances d d' := by
  have hforget : ∀ e : DownloaderV11 κ, e.goodClients = d.goodClients →
      e.totalDownloadingBlocks = d.totalDownloadingBlocks → e.downloadChain = d.downloadChain →
      e.chainClient = none → e.Accounted := fun e hc ht hd hn ↦
    h.same hc ht (fun who ↦ by rw [hd]) (by rw [hd]; exact h.refers) (.inr hn)
  rw [DownloaderV11.advanceChain]
  split_ifs with hbusy
  · exact ⟨d, rfl, h, .refl d⟩
  · dsimp only
    split_ifs with hlag
    · split
      · exact ⟨_, rfl, hforget _ rfl rfl rfl rfl, ⟨List.Sublist.refl _, rfl, rfl, rfl, le_rfl⟩⟩
      · next who hhead =>
        have hwho := isSome_of_mem_clients (List.mem_of_mem_filter (List.mem_of_head? hhead))
        obtain ⟨d', hd', hacc, hadv⟩ := hsound.good (d := { d with
            chainClient := none
            effects := .delayConnectionAttempt (w.address who) w.localTime :: d.effects })
          hwho hsize (hforget _ rfl rfl rfl rfl)
        exact ⟨d', hd', hacc, ⟨hadv.settled, hadv.threads, hadv.work, hadv.preparedBlocks, hadv.size⟩⟩
    · split
      · exact ⟨_, rfl, hforget _ rfl rfl rfl rfl, ⟨List.Sublist.refl _, rfl, rfl, rfl, le_rfl⟩⟩
      · next who hget =>
        have hwho := isSome_of_mem_clients (List.mem_of_mem_filter (List.mem_of_getElem? hget))
        refine ⟨_, rfl, ⟨h.total, h.counted, h.refers, fun x hx ↦ ?_⟩,
          ⟨List.Sublist.refl _, rfl, rfl, rfl, le_rfl⟩⟩
        rw [← Option.some.inj hx]
        exact hwho

omit [Std.TransOrd κ] [Std.LawfulEqOrd κ] [Ord κ] in
theorem protect_eq (who : κ) (dc : DownloadCell κ) :
    (protect who dc).bid = dc.bid ∧ (protect who dc).status = dc.status ∧
      (protect who dc).pb = dc.pb ∧ (protect who dc).downloadingClient = dc.downloadingClient := by
  rw [protect]
  split_ifs <;> exact ⟨rfl, rfl, rfl, rfl⟩

omit [Std.LawfulEqOrd κ] in
theorem Accounted.protect (h : d.Accounted) (who : κ) {effects : List (DownloadEffect κ)} :
    ({ d with
        downloadChain := d.downloadChain.map (DownloaderV11.protect who)
        effects := effects } : DownloaderV11 κ).Accounted := by
  refine h.same rfl rfl (fun x ↦ downloads_map fun dc ↦ ?_) (fun c hc ↦ ?_) (.inl rfl)
  · rw [downloadedBy, downloadedBy, (protect_eq who dc).2.1, (protect_eq who dc).2.2.2]
  · obtain ⟨dc, hdc, rfl⟩ := List.mem_map.mp hc
    intro x hx
    rw [(protect_eq who dc).2.2.2] at hx
    rw [(protect_eq who dc).2.1]
    exact h.refers dc hdc x hx

omit [Std.LawfulEqOrd κ] in
private theorem slacker_good (h : d.Accounted) {ideaNow : ℕ} {who : κ}
    (hwho : d.slacker ideaNow = some who) : (d.goodClients[who]?).isSome := by
  rw [slacker] at hwho
  rcases hchain : d.downloadChain with _ | ⟨front, rest⟩
  · rw [hchain] at hwho
    cases hwho
  · rw [hchain] at hwho
    dsimp only at hwho
    split_ifs at hwho
    exact (h.refers front (by rw [hchain]; exact List.mem_cons_self) who hwho).2

theorem Accounted.advanceDownload (hsound : Sound disconnect n) (h : d.Accounted)
    (hsize : d.goodClients.size ≤ n) :
    ∃ d', DownloaderV11.advanceDownload disconnect w d = .ok d' ∧ d'.Accounted ∧ Advances d d' := by
  rw [DownloaderV11.advanceDownload]
  split_ifs
  · exact ⟨d, rfl, h, .refl d⟩
  obtain ⟨hacc₀, hadv₀⟩ := h.fillWindow d.chain.length
  obtain ⟨d₁, hd₁, hacc₁, hadv₁⟩ :=
    hacc₀.advanceChain (w := w) hsound (hadv₀.size.trans hsize)
  -- the loop over the cells keeps the counters right
  set d₂ : DownloaderV11 κ := { d₁ with
    whoDownloadedBlock :=
      d₁.whoDownloadedBlock.drop (d₁.whoDownloadedBlock.length - totalDownloadBlocks)
    readings := d₁.readings + 1 } with hd₂
  have hacc₂ : d₂.Accounted := hacc₁.same rfl rfl (fun _ ↦ rfl) hacc₁.refers (.inl rfl)
  have hadv₂ : Advances d d₂ :=
    (hadv₀.trans hadv₁).trans ⟨List.Sublist.refl _, rfl, rfl, rfl, le_rfl⟩
  obtain ⟨⟨d₃, flow⟩, hloop, hacc₃, hadv₃⟩ :=
    forAllCells_ok (f := DownloaderV11.assignCell w) (fun e ↦ e.Accounted ∧ Advances d e)
      (fun e i dc he hdc ↦ by
        obtain ⟨r, hr, hacc, hadv⟩ := he.1.assignCell hdc
        exact ⟨r, hr, hacc, he.2.trans hadv⟩)
      ⟨hacc₂, hadv₂⟩
  simp only [hd₁, ok_bind, ← hd₂, hloop]
  split_ifs
  · obtain ⟨d', hd', hacc, hadv⟩ := hacc₃.advanceChain (w := w) hsound (hadv₃.size.trans hsize)
    exact ⟨d', hd', hacc, hadv₃.trans hadv⟩
  · split
    · exact ⟨d₃, rfl, hacc₃, hadv₃⟩
    · next who hslack =>
      have hwho := slacker_good hacc₃ hslack
      obtain ⟨d', hd', hacc, hadv⟩ := hsound.good (d := { d₃ with
          downloadChain := d₃.downloadChain.map (DownloaderV11.protect who)
          effects := .delayConnectionAttempt (w.address who) w.localTime :: d₃.effects })
        hwho (hadv₃.size.trans hsize) (hacc₃.protect who)
      have hmap : settled (d₃.downloadChain.map (DownloaderV11.protect who))
          = settled d₃.downloadChain :=
        settled_map fun dc ↦ ⟨(protect_eq who dc).1, (protect_eq who dc).2.1, (protect_eq who dc).2.2.1⟩
      refine ⟨d', hd', hacc, hadv₃.trans ⟨?_, hadv.threads, hadv.work, hadv.preparedBlocks, hadv.size⟩⟩
      rw [← hmap]
      exact hadv.settled

/-! ## Disconnecting -/

/-- Forgetting a client takes its counter and its downloads away together. -/
theorem Accounted.release (h : d.Accounted) (who : κ) :
    (d.release who).Accounted ∧ Advances d (d.release who) := by
  have hgood {x : κ} (hx : x ≠ who) (hsome : (d.goodClients[x]?).isSome) :
      ((d.goodClients.erase who)[x]?).isSome := by
    rwa [Table.get_erase_of_ne _ (Ne.symm hx)]
  refine ⟨⟨?_, fun x ↦ ?_, fun c hc x hx ↦ ?_, fun x hx ↦ ?_⟩, ⟨?_, rfl, rfl, rfl, ?_⟩⟩
  · change d.totalDownloadingBlocks - (d.goodClients[who]?).getD 0
      = Table.total id (d.goodClients.erase who)
    rw [h.total]
    cases hwho : d.goodClients[who]? with
    | none => rw [Table.erase_of_get_eq_none hwho, Option.getD_none, Nat.sub_zero]
    | some count =>
      rw [Table.total_of_get id hwho, Option.getD_some, id_eq]
      omega
  · change ((d.goodClients.erase who)[x]?).getD 0 = downloads (d.downloadChain.map _) x
    by_cases hx : x = who
    · subst hx
      rw [Table.get_erase_self, downloads, List.countP_map]
      refine (List.countP_eq_zero.mpr fun dc _ ↦ ?_).symm
      rw [Function.comp_apply]
      split_ifs with hdc <;> simp_all [downloadedBy]
    · rw [Table.get_erase_of_ne _ (Ne.symm hx)]
      refine (h.counted x).trans (downloads_map fun dc ↦ ?_).symm
      split_ifs with hdc
      · rw [downloadedBy_of_none rfl, downloadedBy_of_some hdc.1 hdc.2, decide_eq_false (Ne.symm hx)]
      · rfl
  · obtain ⟨dc, hdc, rfl⟩ := List.mem_map.mp hc
    by_cases hmine : dc.status = .downloading ∧ dc.downloadingClient = some who
    · rw [if_pos hmine] at hx
      cases hx
    · rw [if_neg hmine] at hx ⊢
      obtain ⟨hs, hsome⟩ := h.refers dc hdc x hx
      refine ⟨hs, hgood (fun hxwho ↦ hmine ⟨hs, ?_⟩) hsome⟩
      rw [hx, hxwho]
  · change (if d.chainClient = some who then none else d.chainClient) = some x at hx
    split_ifs at hx with hmine
    refine hgood (fun hxwho ↦ hmine ?_) (h.chainClient x hx)
    rw [hx, hxwho]
  · change (settled (d.downloadChain.map _)).Sublist _
    rw [settled_map fun dc ↦ ?_]
    split_ifs <;> exact ⟨rfl, rfl, rfl⟩
  · exact Std.ExtTreeMap.size_erase_le

theorem Sound.onDisconnect (hsound : Sound disconnect n) (h : d.Accounted) (w : Surroundings κ)
    (incoming : κ → Bool) (who : κ) (hsize : (d.goodClients.erase who).size ≤ n) :
    ∃ d', DownloaderV11.onDisconnect disconnect w incoming who d = .ok d' ∧ d'.Accounted ∧
      Advances d d' := by
  have hle : (d.goodClients[who]?).getD 0 ≤ d.totalDownloadingBlocks := by
    cases hwho : d.goodClients[who]? with
    | none => exact Nat.zero_le _
    | some count =>
      rw [h.total]
      exact Table.le_total_of_get id hwho
  rw [DownloaderV11.onDisconnect]
  split_ifs
  · exact ⟨d, rfl, h, .refl d⟩
  · obtain ⟨hacc, hadv⟩ := h.release who
    obtain ⟨d', hd', hacc', hadv'⟩ := hacc.advanceDownload (w := w) hsound hsize
    exact ⟨d', hd', hacc', hadv.trans hadv'⟩

end Nested

/-- The nested calls come to an end. -/
theorem sound_disconnect (incoming : κ → Bool) (w : Surroundings κ) (n : ℕ) :
    Sound (disconnect incoming w n) n := by
  induction n with
  | zero => exact fun who d _ hlt ↦ absurd hlt (Nat.not_lt_zero _)
  | succ n ih =>
    intro who d hacc hlt
    have hnoted : ({ d with effects := .disconnect who :: d.effects } : DownloaderV11 κ).Accounted :=
      hacc.same rfl rfl (fun _ ↦ rfl) hacc.refers (.inl rfl)
    obtain ⟨d', hd', hacc', hadv⟩ := ih.onDisconnect hnoted w incoming who (Nat.lt_succ_iff.mp hlt)
    exact ⟨d', hd', hacc', ⟨hadv.settled, hadv.threads, hadv.work, hadv.preparedBlocks, hadv.size⟩⟩

end CryoNero.DownloaderV11
