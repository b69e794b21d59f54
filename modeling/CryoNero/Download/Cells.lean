import CryoNero.Core.Downloader
import CryoNero.Store.Totals

/-!
# Cells and counters

`goodClients` counts the downloads of every client, and `totalDownloadingBlocks` counts all of them.
`Accounted` says that the counters are right. It is a statement about the counters and the cells
together, so it is kept by changing both at once: a download that is started or stopped is `more` or
`less`, and the cells that no client downloads are free to change.

What the handlers do besides accepting blocks is summed up by `Advances`: cells that wait for their
block come and go, but the others are only ever given up.
-/

namespace CryoNero.DownloaderV11

open Store

/-! ## Lists of which one element changes -/

section Lists

variable {α : Type} {l : List α} {i : ℕ} {a : α}

theorem countP_set_add (p : α → Bool) (b : α) (h : l[i]? = some a) :
    (l.set i b).countP p + (if p a then 1 else 0) = l.countP p + if p b then 1 else 0 := by
  obtain ⟨hi, rfl⟩ := List.getElem?_eq_some_iff.mp h
  have hpos : (if p l[i] then 1 else 0) ≤ l.countP p := by
    split_ifs with hp
    · exact List.countP_pos_iff.mpr ⟨l[i], List.getElem_mem hi, hp⟩
    · exact Nat.zero_le _
  rw [List.countP_set hi]
  omega

theorem filter_set_of_not (p : α → Bool) {b : α} (h : l[i]? = some a) (ha : p a = false)
    (hb : p b = false) : (l.set i b).filter p = l.filter p := by
  induction l generalizing i with
  | nil => rfl
  | cons c l ih =>
    rcases i with _ | i
    · obtain rfl : c = a := by simpa using h
      rw [List.set_cons_zero, List.filter_cons_of_neg (by simp [hb]),
        List.filter_cons_of_neg (by simp [ha])]
    · rw [List.set_cons_succ, List.filter_cons, List.filter_cons, ih (i := i) (by simpa using h)]

theorem countP_dropLast_add (p : α → Bool) (h : l.getLast? = some a) :
    l.dropLast.countP p + (if p a then 1 else 0) = l.countP p := by
  conv_rhs => rw [← List.dropLast_append_getLast? a h]
  rw [List.countP_append, List.countP_singleton]

end Lists

variable {κ : Type} [Ord κ] [Std.TransOrd κ] [DecidableEq κ]
variable {d d' d₁ d₂ d₃ : DownloaderV11 κ}

/-! ## The counters -/

/-- The downloads that the counter of a client counts. -/
def downloadedBy (who : κ) (dc : DownloadCell κ) : Bool :=
  dc.status = .downloading ∧ dc.downloadingClient = some who

def downloads (cells : List (DownloadCell κ)) (who : κ) : ℕ := cells.countP (downloadedBy who)

/-- The counter of a client, which is nothing when the client is not a good one. -/
def counter (d : DownloaderV11 κ) (who : κ) : ℕ := (d.goodClients[who]?).getD 0

/-- A client that a cell refers to is good, and the cell waits for a block. -/
def Refers (d : DownloaderV11 κ) (dc : DownloadCell κ) : Prop :=
  ∀ who, dc.downloadingClient = some who →
    dc.status = .downloading ∧ (d.goodClients[who]?).isSome

/-- The counters are right, and the clients that are referred to are good ones. -/
structure Accounted (d : DownloaderV11 κ) : Prop where
  total : d.totalDownloadingBlocks = d.goodClients.total id
  counted : ∀ who, d.counter who = downloads d.downloadChain who
  refers : ∀ dc ∈ d.downloadChain, d.Refers dc
  chainClient : ∀ who, d.chainClient = some who → (d.goodClients[who]?).isSome

theorem accounted_new [Std.LawfulEqOrd κ] (hardwareConcurrency : ℕ) :
    (new hardwareConcurrency : DownloaderV11 κ).Accounted := by
  refine ⟨?_, fun who ↦ ?_, fun dc hdc ↦ (nomatch hdc), nofun⟩
  · exact (Table.total_empty id).symm
  · have hnone : (∅ : Table κ ℕ)[who]? = none := Std.ExtTreeMap.getElem?_empty
    change (((∅ : Table κ ℕ)[who]?).getD 0) = 0
    rw [hnone]
    rfl

omit [DecidableEq κ] in
theorem refers_of_none {dc : DownloadCell κ} (h : dc.downloadingClient = none) : d.Refers dc :=
  fun who hwho ↦ by rw [h] at hwho; cases hwho

omit [Std.TransOrd κ] [Ord κ] in
theorem downloadedBy_of_none {dc : DownloadCell κ} (h : dc.downloadingClient = none) (who : κ) :
    downloadedBy who dc = false := by
  simp [downloadedBy, h]

omit [Std.TransOrd κ] [Ord κ] in
theorem downloadedBy_of_some {dc : DownloadCell κ} {client : κ} (hs : dc.status = .downloading)
    (h : dc.downloadingClient = some client) (who : κ) :
    downloadedBy who dc = decide (client = who) := by
  simp [downloadedBy, h, hs]

omit [Std.TransOrd κ] [Ord κ] in
theorem downloads_map {cells : List (DownloadCell κ)} {f : DownloadCell κ → DownloadCell κ}
    {who : κ} (hf : ∀ dc, downloadedBy who (f dc) = downloadedBy who dc) :
    downloads (cells.map f) who = downloads cells who := by
  rw [downloads, downloads, List.countP_map]
  exact List.countP_congr fun dc _ ↦ by rw [Function.comp_apply, hf]

namespace Accounted

variable [Std.LawfulEqOrd κ]

omit [Std.LawfulEqOrd κ] in
/-- Cells without a client may change, and cells may change in what the counters do not depend on. -/
theorem same (h : d.Accounted) (hclients : d'.goodClients = d.goodClients)
    (htotal : d'.totalDownloadingBlocks = d.totalDownloadingBlocks)
    (hcells : ∀ who, downloads d'.downloadChain who = downloads d.downloadChain who)
    (hrefers : ∀ dc ∈ d'.downloadChain, d.Refers dc)
    (hchain : d'.chainClient = d.chainClient ∨ d'.chainClient = none) : d'.Accounted where
  total := by rw [htotal, hclients, h.total]
  counted who := by rw [counter, hclients, hcells who, ← h.counted who, counter]
  refers dc hdc who hwho := by
    rw [hclients]
    exact hrefers dc hdc who hwho
  chainClient who hwho := by
    rw [hclients]
    rcases hchain with hchain | hchain
    · exact h.chainClient who (by rw [← hchain, hwho])
    · rw [hchain] at hwho
      cases hwho

/-- A client starts to download a cell. -/
theorem more (h : d.Accounted) {client : κ} (hclient : (d.goodClients[client]?).isSome)
    (hclients : d'.goodClients = d.goodClients.insert client (d.counter client + 1))
    (htotal : d'.totalDownloadingBlocks = d.totalDownloadingBlocks + 1)
    (hcells : ∀ who, downloads d'.downloadChain who
      = downloads d.downloadChain who + if client = who then 1 else 0)
    (hrefers : ∀ dc ∈ d'.downloadChain, dc ∈ d.downloadChain ∨
      dc.status = .downloading ∧ dc.downloadingClient = some client)
    (hchain : d'.chainClient = d.chainClient) : d'.Accounted := by
  have hgood (who : κ) (hwho : (d.goodClients[who]?).isSome) : (d'.goodClients[who]?).isSome := by
    rw [hclients, Table.get_insert]
    split_ifs
    · rfl
    · exact hwho
  refine ⟨?_, fun who ↦ ?_, fun dc hdc who hwho ↦ ?_, fun who hwho ↦ hgood who ?_⟩
  · have hsum := Table.total_insert_getD id d.goodClients client (d.counter client + 1)
      (d := 0) rfl
    have hcount : id ((d.goodClients[client]?).getD 0) = d.counter client := rfl
    rw [hcount, id_eq] at hsum
    rw [htotal, h.total, hclients]
    omega
  · rw [counter, hclients, Table.get_insert, hcells who, ← h.counted who]
    by_cases hwho : client = who
    · rw [if_pos hwho, if_pos hwho, ← hwho, Option.getD_some]
    · rw [if_neg hwho, if_neg hwho, Nat.add_zero, counter]
  · rcases hrefers dc hdc with hold | ⟨hs, hnew⟩
    · obtain ⟨hs, hsome⟩ := h.refers dc hold who hwho
      exact ⟨hs, hgood who hsome⟩
    · obtain rfl : client = who := Option.some.inj (hnew.symm.trans hwho)
      exact ⟨hs, hgood client hclient⟩
  · exact h.chainClient who (by rw [← hchain, hwho])

/-- A client no longer downloads a cell. -/
theorem less (h : d.Accounted) {client : κ} {count : ℕ}
    (hclient : d.goodClients[client]? = some (count + 1))
    (hclients : d'.goodClients = d.goodClients.insert client count)
    (htotal : d'.totalDownloadingBlocks = d.totalDownloadingBlocks - 1)
    (hcells : ∀ who, downloads d'.downloadChain who + (if client = who then 1 else 0)
      = downloads d.downloadChain who)
    (hrefers : ∀ dc ∈ d'.downloadChain, dc ∈ d.downloadChain ∨ dc.downloadingClient = none)
    (hchain : d'.chainClient = d.chainClient) : d'.Accounted := by
  have hgood (who : κ) (hwho : (d.goodClients[who]?).isSome) : (d'.goodClients[who]?).isSome := by
    rw [hclients, Table.get_insert]
    split_ifs
    · rfl
    · exact hwho
  refine ⟨?_, fun who ↦ ?_, fun dc hdc who hwho ↦ ?_, fun who hwho ↦ hgood who ?_⟩
  · have hsum := Table.total_insert_getD id d.goodClients client count (d := 0) rfl
    rw [hclient, Option.getD_some, id_eq, id_eq] at hsum
    rw [htotal, h.total, hclients]
    omega
  · have hcount := h.counted who
    rw [counter, hclients, Table.get_insert]
    rw [← hcells who, counter] at hcount
    by_cases hwho : client = who
    · rw [if_pos hwho, ← hwho, hclient, Option.getD_some] at hcount
      rw [if_pos hwho, Option.getD_some, ← hwho]
      omega
    · rw [if_neg hwho] at hcount ⊢
      exact hcount
  · rcases hrefers dc hdc with hold | hnone
    · obtain ⟨hs, hsome⟩ := h.refers dc hold who hwho
      exact ⟨hs, hgood who hsome⟩
    · rw [hnone] at hwho
      cases hwho
  · exact h.chainClient who (by rw [← hchain, hwho])

end Accounted

/-! ## What a handler does to the cells -/

/-- The cells that have their block. -/
def settled (cells : List (DownloadCell κ)) : List (Hash × DownloadStatus × Option PreparedBlock) :=
  (cells.filter (·.status ≠ .downloading)).map fun dc ↦ (dc.bid, dc.status, dc.pb)

omit [Std.TransOrd κ] [DecidableEq κ] [Ord κ] in
theorem settled_map {cells : List (DownloadCell κ)} {f : DownloadCell κ → DownloadCell κ}
    (hf : ∀ dc, (f dc).bid = dc.bid ∧ (f dc).status = dc.status ∧ (f dc).pb = dc.pb) :
    settled (cells.map f) = settled cells := by
  rw [settled, settled, List.filter_map, List.map_map]
  have hfilter : ((fun dc : DownloadCell κ ↦ decide (dc.status ≠ .downloading)) ∘ f)
      = fun dc ↦ decide (dc.status ≠ .downloading) := by
    funext dc
    rw [Function.comp_apply, (hf dc).2.1]
  rw [hfilter]
  refine List.map_congr_left fun dc _ ↦ ?_
  rw [Function.comp_apply, (hf dc).1, (hf dc).2.1, (hf dc).2.2]

/-- Cells that have their block are at most given up, and nothing is done to the work and to its
results. The good clients become no more. -/
structure Advances (d d' : DownloaderV11 κ) : Prop where
  settled : (settled d'.downloadChain).Sublist (settled d.downloadChain)
  threads : d'.threads = d.threads
  work : d'.work = d.work
  preparedBlocks : d'.preparedBlocks = d.preparedBlocks
  size : d'.goodClients.size ≤ d.goodClients.size

omit [Std.TransOrd κ] [DecidableEq κ] in
theorem Advances.refl (d : DownloaderV11 κ) : Advances d d :=
  ⟨List.Sublist.refl _, rfl, rfl, rfl, le_rfl⟩

omit [Std.TransOrd κ] [DecidableEq κ] in
theorem Advances.trans (h : Advances d₁ d₂) (h' : Advances d₂ d₃) : Advances d₁ d₃ :=
  ⟨h'.settled.trans h.settled, h'.threads.trans h.threads, h'.work.trans h.work,
    h'.preparedBlocks.trans h.preparedBlocks, h'.size.trans h.size⟩

end CryoNero.DownloaderV11
