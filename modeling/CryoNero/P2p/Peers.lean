import CryoNero.P2p.PeerDB

/-!
# The discipline of the peer database

The entries of the two lists that are kept and the records in the database stand for each other, an
address is in one list at most, and nobody is connected to before a ban is over. The last of these
is not looked at when a peer is chosen, where only the time of the next attempt counts. It holds
because a ban puts that time off as well, and because whatever sets it again leaves it no earlier
than the ban ends: `Entry.Fits` has what an entry needs for that.

An operation replaces or erases entries one at a time, so the invariant `Disciplined` is shown to be
kept by `put` and `erase`, and every operation is reduced to these two. When the program starts the
lists are read from the last commit, under a configuration that may be a new one.
-/

namespace CryoNero.P2p

open Seria Seria.Reader Store Store.Keyed Words
open Entry (OrderKey)

/-! ## Records -/

/-- The entries that are read from a record as they were written. -/
structure Entry.Storable (e : Entry) : Prop where
  error : e.error.length < 2 ^ 64
  reserved : e.reserved = 0

theorem Entry.storable_new (addr : NetworkAddress) (peerId rand : UInt64) :
    Storable { adr := addr, id := peerId, shuffleRandom := rand } := ⟨Nat.two_pow_pos 64, rfl⟩

private theorem Entry.fromBinary_write {e : Entry} (he : e.Storable) :
    fromBinary read {} e.write = (e, true) := by
  have herror (v : Bytes) : readBytes v (writeBytes e.error) = (e.error, some []) := by
    have hreads := reads_readBytes v he.error []
    rwa [List.append_nil] at hreads
  rcases e with ⟨⟨⟨ip, port⟩, id, lastSeen, reserved⟩, banUntil, nextConnectionAttempt, rand, error⟩
  obtain rfl : reserved = 0 := he.reserved
  simp only [fromBinary_eq_true, read, write, andThen_of_some (on_of_some (reads_readU32 _ _ _)),
    andThen_of_some (on_of_some (reads_readU64 _ _ _)), on_of_some (herror _)]

@[simp] theorem isPrefixOf_dbKey {kind kind' : ListKind} {addr : NetworkAddress} :
    kind.prefixBytes.isPrefixOf (dbKey kind' addr) = true ↔ kind = kind' := by
  cases kind <;> cases kind' <;> simp [dbKey, ListKind.prefixBytes, ascii]

/-- A key tells the list and the address. -/
theorem dbKey_inj {kind kind' : ListKind} {addr addr' : NetworkAddress}
    (h : dbKey kind addr = dbKey kind' addr') : kind = kind' ∧ addr = addr' := by
  have hkind : kind = kind' := by
    rw [← isPrefixOf_dbKey, ← h, isPrefixOf_dbKey]
  subst hkind
  obtain ⟨hip, hport⟩ := decimal_append_inj (by decide) (List.append_cancel_left h)
  refine ⟨rfl, ?_⟩
  rcases addr with ⟨ip, port⟩
  rcases addr' with ⟨ip', port'⟩
  rw [NetworkAddress.mk.injEq]
  exact ⟨UInt32.toNat_inj.mp hip, UInt32.toNat_inj.mp hport⟩

/-- Every record is that of an entry with a property. -/
def RecordsOf (p : ListKind → Entry → Prop) (db : Table Bytes Bytes) : Prop :=
  ∀ k v, db[k]? = some v → ∃ kind e, p kind e ∧ e.Storable ∧ k = dbKey kind e.adr ∧ v = e.write

theorem RecordsOf.mono {p q : ListKind → Entry → Prop} {db : Table Bytes Bytes}
    (h : RecordsOf p db) (hpq : ∀ kind e, p kind e → q kind e) : RecordsOf q db := by
  intro k v hk
  obtain ⟨kind, e, hp, hrest⟩ := h k v hk
  exact ⟨kind, e, hpq kind e hp, hrest⟩

theorem readPeer_write {e : Entry} (he : e.Storable) : readPeer e.write = some e := by
  rw [readPeer, Entry.fromBinary_write he]

theorem mem_readPeers {p : ListKind → Entry → Prop} {db : Table Bytes Bytes} (h : RecordsOf p db)
    {kind : ListKind} {e : Entry} :
    e ∈ readPeers kind db ↔ p kind e ∧ e.Storable ∧ db[dbKey kind e.adr]? = some e.write := by
  rw [readPeers, List.mem_filterMap]
  constructor
  · rintro ⟨⟨k, v⟩, hrecord, hread⟩
    obtain ⟨hlisted, hprefix⟩ := List.mem_filter.mp hrecord
    have hk := Table.mem_toList.mp hlisted
    obtain ⟨kind', e', hp, hstorable, rfl, rfl⟩ := h k v hk
    obtain rfl := isPrefixOf_dbKey.mp hprefix
    obtain rfl := Option.some.inj ((readPeer_write hstorable).symm.trans hread)
    exact ⟨hp, hstorable, hk⟩
  · rintro ⟨-, hstorable, hk⟩
    refine ⟨(_, _), List.mem_filter.mpr ⟨Table.mem_toList.mpr hk, ?_⟩, readPeer_write hstorable⟩
    exact isPrefixOf_dbKey.mpr rfl

/-- What a list is read from the database: the entries whose records are there. -/
theorem mem_readDb {p : ListKind → Entry → Prop} {db : Table Bytes Bytes} (h : RecordsOf p db)
    {kind : ListKind} {e : Entry} :
    e ∈ readDb kind db ↔ p kind e ∧ e.Storable ∧ db[dbKey kind e.adr]? = some e.write := by
  rw [readDb, mem_insertAll]
  · rw [mem_readPeers h]
    simp
  · -- two entries with one address have one key, so one record
    rintro a ha b (hb | hb) hkey
    · exact absurd hb (not_mem_empty b)
    · obtain ⟨-, hstorable, hrecord⟩ := (mem_readPeers h).mp ha
      obtain ⟨-, hstorable', hrecord'⟩ := (mem_readPeers h).mp hb
      rw [hkey, hrecord'] at hrecord
      have hread := readPeer_write hstorable
      rw [← Option.some.inj hrecord, readPeer_write hstorable'] at hread
      exact (Option.some.inj hread).symm

private theorem get_of_find_readDb {p : ListKind → Entry → Prop} {db : Table Bytes Bytes}
    (h : RecordsOf p db) {kind : ListKind} {addr : NetworkAddress}
    (hnone : (readDb kind db).find addr = none) : db[dbKey kind addr]? = none := by
  rw [Option.eq_none_iff_forall_ne_some]
  intro v hv
  obtain ⟨kind', e, hp, hstorable, hkey, rfl⟩ := h _ v hv
  obtain ⟨rfl, rfl⟩ := dbKey_inj hkey
  exact find_eq_none.mp hnone e ((mem_readDb h).mpr ⟨hp, hstorable, hv⟩) rfl

/-! ## The invariant -/

/-- The delay of the next attempt, for a peer that did not answer. -/
def delayPeriod (config : PeerConfig) (addr : NetworkAddress) : Timestamp :=
  if config.priorityNodes.contains addr then PeerDB.priorityReconnectPeriod else PeerDB.banPeriod

/-- What an entry of a list that is kept needs, so that its ban is over when it is chosen. -/
structure Entry.Fits (config : PeerConfig) (clock : Timestamp) (kind : ListKind) (e : Entry) :
    Prop where
  waits : e.banUntil ≤ e.nextConnectionAttempt ∨ e.banUntil ≤ clock
  /-- The attempt is put off for peers of the white list only. -/
  brief : kind = .white → e.banUntil.toNat ≤ clock.toNat + (delayPeriod config e.adr).toNat
  /-- Exclusive nodes are banned in their own list. -/
  exclusive : e.adr ∈ config.exclusiveNodes → e.banUntil ≤ clock

namespace Entry.Fits

variable {config : PeerConfig} {clock clock' : Timestamp} {kind : ListKind} {e e' : Entry}

theorem later (h : e.Fits config clock kind) (hle : clock ≤ clock') :
    e.Fits config clock' kind where
  waits := h.waits.imp_right fun hban ↦ UInt32.le_trans hban hle
  brief hkind := by
    have hbrief := h.brief hkind
    have htime := UInt32.le_iff_toNat_le.mp hle
    omega
  exclusive hmem := UInt32.le_trans (h.exclusive hmem) hle

private theorem delayPeriod_le (config : PeerConfig) (addr : NetworkAddress) :
    (delayPeriod config addr).toNat ≤ 600 := by
  rw [delayPeriod]
  split_ifs
  · decide
  · decide

private theorem anyConfig (h : e.Fits config clock kind) : e.Fits {} clock kind where
  waits := h.waits
  brief hkind := (h.brief hkind).trans (Nat.add_le_add_left (delayPeriod_le config e.adr) _)
  exclusive := nofun

theorem of_le (hban : e.banUntil ≤ clock) : e.Fits config clock kind where
  waits := .inr hban
  brief _ := Nat.le_add_right_of_le (UInt32.le_iff_toNat_le.mp hban)
  exclusive _ := hban

end Entry.Fits

namespace PeerDB

variable {d d' : PeerDB} {kind kind' : ListKind} {e e' : Entry} {addr : NetworkAddress}

/-- A seed that the constructor has put into the white list, as it made it. -/
def Unwritten (d : PeerDB) (kind : ListKind) (e : Entry) : Prop :=
  kind = .white ∧ d.isSeed e.adr = true ∧ d.db[dbKey kind e.adr]? = none ∧
    e = { adr := e.adr, shuffleRandom := e.shuffleRandom }

/-- What the next session relies on. -/
structure Stored (clock : Timestamp) (db : Table Bytes Bytes) : Prop where
  records : RecordsOf (Entry.Fits {} clock) db
  disjoint : ∀ kind kind' addr, (db[dbKey kind addr]?).isSome → (db[dbKey kind' addr]?).isSome →
    kind = kind'

structure Disciplined (d : PeerDB) : Prop where
  committed : Stored d.clock d.committed
  exclusiveNodes : ∀ addr, addr ∈ d.config.exclusiveNodes ↔ ∃ e ∈ d.exclusivelist, e.adr = addr
  exclusive : ∀ e ∈ d.exclusivelist, e.banUntil ≤ e.nextConnectionAttempt ∨ e.banUntil ≤ d.clock
  fits : ∀ kind, ∀ e ∈ d.list kind, e.Fits d.config d.clock kind
  storable : ∀ kind, ∀ e ∈ d.list kind, e.Storable
  disjoint : ∀ kind kind' e e', e ∈ d.list kind → e' ∈ d.list kind' → e.adr = e'.adr → kind = kind'
  recorded : ∀ kind, ∀ e ∈ d.list kind, d.db[dbKey kind e.adr]? = some e.write ∨ d.Unwritten kind e
  listed : ∀ k v, d.db[k]? = some v → ∃ kind, ∃ e ∈ d.list kind, k = dbKey kind e.adr ∧ v = e.write

/-! ## Replacing and erasing entries -/

@[simp] theorem put_config : (d.put kind e).config = d.config := by cases kind <;> rfl
@[simp] theorem put_clock : (d.put kind e).clock = d.clock := by cases kind <;> rfl
@[simp] theorem put_committed : (d.put kind e).committed = d.committed := by cases kind <;> rfl
@[simp] theorem put_exclusivelist : (d.put kind e).exclusivelist = d.exclusivelist := by
  cases kind <;> rfl

@[simp] theorem put_db : (d.put kind e).db = d.db.insert (dbKey kind e.adr) e.write := by
  cases kind <;> rfl

@[simp] theorem erase_config : (d.erase kind addr).config = d.config := by cases kind <;> rfl
@[simp] theorem erase_clock : (d.erase kind addr).clock = d.clock := by cases kind <;> rfl
@[simp] theorem erase_committed : (d.erase kind addr).committed = d.committed := by
  cases kind <;> rfl

@[simp] theorem erase_exclusivelist : (d.erase kind addr).exclusivelist = d.exclusivelist := by
  cases kind <;> rfl

@[simp] theorem erase_db : (d.erase kind addr).db = d.db.erase (dbKey kind addr) := by
  cases kind <;> rfl

theorem mem_list_put : e' ∈ (d.put kind e).list kind' ↔
    kind' = kind ∧ e' = e ∨ e' ∈ d.list kind' ∧ (kind' = kind → e'.adr ≠ e.adr) := by
  cases kind <;> cases kind' <;> simp [put, setList, updateDb, list]

theorem mem_list_erase : e' ∈ (d.erase kind addr).list kind' ↔
    e' ∈ d.list kind' ∧ (kind' = kind → e'.adr ≠ addr) := by
  cases kind <;> cases kind' <;> simp [erase, setList, delDb, list]

/-- An entry that fits may take the place of the one with its address, or come in when the other
list has none. -/
theorem Disciplined.put (h : d.Disciplined) (hfits : e.Fits d.config d.clock kind)
    (hstorable : e.Storable) (hother : ∀ kind', ∀ e' ∈ d.list kind', e'.adr = e.adr → kind' = kind) :
    (d.put kind e).Disciplined where
  committed := by simpa using h.committed
  exclusiveNodes := by simpa using h.exclusiveNodes
  exclusive := by simpa using h.exclusive
  fits kind' e' he' := by
    rw [put_config, put_clock]
    rcases mem_list_put.mp he' with ⟨rfl, rfl⟩ | ⟨he', -⟩
    · exact hfits
    · exact h.fits kind' e' he'
  storable kind' e' he' := by
    rcases mem_list_put.mp he' with ⟨rfl, rfl⟩ | ⟨he', -⟩
    · exact hstorable
    · exact h.storable kind' e' he'
  disjoint kind₁ kind₂ e₁ e₂ he₁ he₂ hadr := by
    rcases mem_list_put.mp he₁ with ⟨rfl, rfl⟩ | ⟨hold₁, -⟩
    · rcases mem_list_put.mp he₂ with ⟨rfl, -⟩ | ⟨hold₂, -⟩
      · rfl
      · exact (hother kind₂ e₂ hold₂ hadr.symm).symm
    · rcases mem_list_put.mp he₂ with ⟨rfl, rfl⟩ | ⟨hold₂, -⟩
      · exact hother kind₁ e₁ hold₁ hadr
      · exact h.disjoint kind₁ kind₂ e₁ e₂ hold₁ hold₂ hadr
  recorded kind' e' he' := by
    rw [Unwritten, put_db]
    rcases mem_list_put.mp he' with ⟨rfl, rfl⟩ | ⟨he', hne⟩
    · exact .inl (Table.get_insert_self _ _ _)
    · have hkey : dbKey kind e.adr ≠ dbKey kind' e'.adr := fun hkey ↦
        hne (dbKey_inj hkey).1.symm (dbKey_inj hkey).2.symm
      rw [Table.get_insert_of_ne _ _ hkey]
      simpa [Unwritten, isSeed] using h.recorded kind' e' he'
  listed k v hk := by
    rw [put_db, Table.get_insert] at hk
    split_ifs at hk with hkey
    · exact ⟨kind, e, mem_list_put.mpr (.inl ⟨rfl, rfl⟩), hkey.symm, (Option.some.inj hk).symm⟩
    · obtain ⟨kind', e', he', rfl, rfl⟩ := h.listed k v hk
      refine ⟨kind', e', mem_list_put.mpr (.inr ⟨he', ?_⟩), rfl, rfl⟩
      rintro rfl hadr
      exact hkey (by rw [hadr])

theorem Disciplined.update (h : d.Disciplined) (he' : e' ∈ d.list kind) (hadr : e.adr = e'.adr)
    (hfits : e.Fits d.config d.clock kind) (hstorable : e.Storable) :
    (d.put kind e).Disciplined :=
  h.put hfits hstorable fun kind' e₁ he₁ hadr₁ ↦ h.disjoint kind' kind e₁ e' he₁ he' (hadr₁.trans hadr)

theorem Disciplined.erase (h : d.Disciplined) (kind : ListKind) (addr : NetworkAddress) :
    (d.erase kind addr).Disciplined where
  committed := by simpa using h.committed
  exclusiveNodes := by simpa using h.exclusiveNodes
  exclusive := by simpa using h.exclusive
  fits kind' e' he' := by
    rw [erase_config, erase_clock]
    exact h.fits kind' e' (mem_list_erase.mp he').1
  storable kind' e' he' := h.storable kind' e' (mem_list_erase.mp he').1
  disjoint kind₁ kind₂ e₁ e₂ he₁ he₂ :=
    h.disjoint kind₁ kind₂ e₁ e₂ (mem_list_erase.mp he₁).1 (mem_list_erase.mp he₂).1
  recorded kind' e' he' := by
    obtain ⟨he', hne⟩ := mem_list_erase.mp he'
    have hkey : dbKey kind addr ≠ dbKey kind' e'.adr := fun hkey ↦
      hne (dbKey_inj hkey).1.symm (dbKey_inj hkey).2.symm
    rw [Unwritten, erase_db, Table.get_erase_of_ne _ hkey]
    simpa [Unwritten, isSeed] using h.recorded kind' e' he'
  listed k v hk := by
    rw [erase_db, Table.get_erase] at hk
    split_ifs at hk with hkey
    obtain ⟨kind', e', he', rfl, rfl⟩ := h.listed k v hk
    refine ⟨kind', e', mem_list_erase.mpr ⟨he', ?_⟩, rfl, rfl⟩
    rintro rfl hadr
    exact hkey (by rw [hadr])

/-- Time passes. -/
theorem Disciplined.later (h : d.Disciplined) {now : Timestamp} (hle : d.clock ≤ now) :
    Disciplined { d with clock := now } where
  committed := ⟨h.committed.records.mono fun _ _ hfits ↦ hfits.later hle, h.committed.disjoint⟩
  exclusiveNodes := h.exclusiveNodes
  exclusive e he := (h.exclusive e he).imp_right fun hban ↦ UInt32.le_trans hban hle
  fits kind e he := (h.fits kind e (by cases kind <;> exact he)).later hle
  storable kind e he := h.storable kind e (by cases kind <;> exact he)
  disjoint kind kind' e e' he he' :=
    h.disjoint kind kind' e e' (by cases kind <;> exact he) (by cases kind' <;> exact he')
  recorded kind e he := h.recorded kind e (by cases kind <;> exact he)
  listed k v hk := by
    obtain ⟨kind, e, he, hrecord⟩ := h.listed k v hk
    exact ⟨kind, e, by cases kind <;> exact he, hrecord⟩

/-! ## Trimming and unbanning -/

/-- What an operation on the lists that are kept does not touch. -/
structure Frame (d d' : PeerDB) : Prop where
  config : d'.config = d.config
  clock : d'.clock = d.clock
  exclusivelist : d'.exclusivelist = d.exclusivelist

theorem Disciplined.trimList (n count : ℕ) (h : d.Disciplined) :
    (PeerDB.trimList kind count n d).Disciplined := by
  induction n generalizing d with
  | zero => exact h
  | succ n ih =>
    rw [PeerDB.trimList]
    split_ifs
    · split
      · exact ih (h.erase _ _)
      · exact h
    · exact h

theorem Disciplined.trim (h : d.Disciplined) : d.trim.Disciplined :=
  (h.trimList _ _).trimList _ _

/-- What lifting bans leaves in the lists. -/
def Lifts (now : Timestamp) (d d' : PeerDB) : Prop :=
  ∀ kind, ∀ e ∈ d'.list kind,
    e ∈ d.list kind ∨ ∃ e₀ ∈ d.list kind, e₀.banUntil ≤ now ∧ e = e₀.lifted

theorem Lifts.trans {now : Timestamp} {d₁ d₂ d₃ : PeerDB} (h : Lifts now d₁ d₂)
    (h' : Lifts now d₂ d₃) : Lifts now d₁ d₃ := by
  intro kind e he
  rcases h' kind e he with he | ⟨e₂, he₂, hban, rfl⟩
  · exact h kind e he
  · rcases h kind e₂ he₂ with he₂ | ⟨e₁, he₁, hban₁, rfl⟩
    · exact .inr ⟨e₂, he₂, hban, rfl⟩
    · exact .inr ⟨e₁, he₁, hban₁, rfl⟩

private theorem Disciplined.liftAll {es : List Entry} (h : d.Disciplined)
    (hes : ∀ e ∈ es, ∃ e₀ ∈ d.list kind, e₀.adr = e.adr) (hstorable : ∀ e ∈ es, e.Storable) :
    (es.foldl (fun d e ↦ d.put kind e.lifted) d).Disciplined ∧
      Frame d (es.foldl (fun d e ↦ d.put kind e.lifted) d) ∧
      ∀ kind', ∀ e ∈ (es.foldl (fun d e ↦ d.put kind e.lifted) d).list kind',
        e ∈ d.list kind' ∨ kind' = kind ∧ ∃ e₀ ∈ es, e = e₀.lifted := by
  induction es generalizing d with
  | nil => exact ⟨h, ⟨rfl, rfl, rfl⟩, fun _ _ he ↦ .inl he⟩
  | cons e es ih =>
    rw [List.forall_mem_cons] at hes hstorable
    obtain ⟨e₀, he₀, hadr⟩ := hes.1
    have hput : (d.put kind e.lifted).Disciplined :=
      h.update he₀ hadr.symm (.of_le (UInt32.zero_le ..)) ⟨hstorable.1.error, hstorable.1.reserved⟩
    obtain ⟨hall, hframe, hlist⟩ := ih hput (fun e' he' ↦ by
      obtain ⟨e₁, he₁, hadr₁⟩ := hes.2 e' he'
      by_cases hsame : e₁.adr = e.adr
      · exact ⟨e.lifted, mem_list_put.mpr (.inl ⟨rfl, rfl⟩), hsame.symm.trans hadr₁⟩
      · exact ⟨e₁, mem_list_put.mpr (.inr ⟨he₁, fun _ ↦ hsame⟩), hadr₁⟩) hstorable.2
    refine ⟨hall, ⟨?_, ?_, ?_⟩, fun kind' e' he' ↦ ?_⟩
    · rw [List.foldl_cons, hframe.config, put_config]
    · rw [List.foldl_cons, hframe.clock, put_clock]
    · rw [List.foldl_cons, hframe.exclusivelist, put_exclusivelist]
    · rcases hlist kind' e' he' with he' | ⟨rfl, e₁, he₁, rfl⟩
      · rcases mem_list_put.mp he' with ⟨rfl, rfl⟩ | ⟨he', -⟩
        · exact .inr ⟨rfl, e, List.mem_cons_self .., rfl⟩
        · exact .inl he'
      · exact .inr ⟨rfl, e₁, List.mem_cons_of_mem _ he₁, rfl⟩

private theorem le_of_before_timeBound {k : OrderKey} {now : Timestamp}
    (h : k.before (timeBound now) = true) : k.1 ≤ now := by
  rw [OrderKey.before, timeBound, Bool.or_eq_true, decide_eq_true_eq, Bool.and_eq_true,
    beq_iff_eq] at h
  rcases h with hlt | ⟨heq, -⟩
  · exact UInt32.le_of_lt hlt
  · exact heq ▸ UInt32.le_refl _

theorem Disciplined.unbanList {now : Timestamp} (h : d.Disciplined)
    (hok : PeerDB.unbanList now kind d = .ok d') : d'.Disciplined ∧ Frame d d' ∧ Lifts now d d' := by
  rw [PeerDB.unbanList] at hok
  split_ifs at hok
  obtain rfl := Except.ok.inj hok
  have hmem {e : Entry} (he : e ∈ ((d.list kind).inOrder Entry.byBanUntil).filter fun e ↦
      !e.byBanUntil.before bannedBound && e.byBanUntil.before (timeBound now)) :
      e ∈ d.list kind ∧ e.banUntil ≤ now := by
    obtain ⟨hmem, hover⟩ := List.mem_filter.mp he
    rw [Bool.and_eq_true] at hover
    exact ⟨mem_sorted.mp hmem, le_of_before_timeBound hover.2⟩
  obtain ⟨hd, hframe, hlist⟩ := h.liftAll (fun e he ↦ ⟨e, (hmem he).1, rfl⟩)
    fun e he ↦ h.storable kind e (hmem he).1
  refine ⟨hd, hframe, fun kind' e he ↦ ?_⟩
  rcases hlist kind' e he with he | ⟨rfl, e₀, he₀, rfl⟩
  · exact .inl he
  · exact .inr ⟨e₀, (hmem he₀).1, (hmem he₀).2, rfl⟩

theorem Disciplined.unban {now : Timestamp} (h : d.Disciplined) (hok : d.unban now = .ok d') :
    d'.Disciplined ∧ Frame d d' ∧ Lifts now d d' := by
  obtain ⟨d₁, hgray, hwhite⟩ := bind_eq_ok.mp hok
  obtain ⟨h₁, hframe₁, hlifts₁⟩ := h.unbanList hgray
  obtain ⟨h₂, hframe₂, hlifts₂⟩ := h₁.unbanList hwhite
  exact ⟨h₂, ⟨hframe₂.config.trans hframe₁.config, hframe₂.clock.trans hframe₁.clock,
    hframe₂.exclusivelist.trans hframe₁.exclusivelist⟩, hlifts₁.trans hlifts₂⟩

private theorem before_timeBound {k : OrderKey} {now : Timestamp} (hnow : 0 < now)
    (h : k.before bannedBound = true) : k.before (timeBound now) = true := by
  rw [OrderKey.before] at h ⊢
  simp only [bannedBound, timeBound] at h ⊢
  grind

private theorem unbanList_ok {now : Timestamp} (hnow : 0 < now) (d : PeerDB) (kind : ListKind) :
    ∃ d', unbanList now kind d = .ok d' := by
  rw [unbanList]
  split_ifs with hany
  · obtain ⟨e, -, he⟩ := List.any_eq_true.mp hany
    rw [Bool.and_eq_true, Bool.not_eq_true', ← Bool.not_eq_true] at he
    exact absurd (before_timeBound hnow he.2) he.1
  · exact ⟨_, rfl⟩

private theorem unban_ok {now : Timestamp} (hnow : 0 < now) : ∃ d', d.unban now = .ok d' := by
  obtain ⟨d₁, hgray⟩ := unbanList_ok hnow d .gray
  obtain ⟨d₂, hwhite⟩ := unbanList_ok hnow d₁ .white
  exact ⟨d₂, bind_eq_ok.mpr ⟨d₁, hgray, hwhite⟩⟩

/-! ## Operations -/

section Operations

variable {rand : NetworkAddress → UInt64}

theorem Disciplined.addIncomingPeerImpl (h : d.Disciplined) (peerId : UInt64) :
    (d.addIncomingPeerImpl rand addr peerId).Disciplined := by
  rw [PeerDB.addIncomingPeerImpl]
  split_ifs with hport hwhite hgray
  · exact h
  · exact h
  · exact h
  · apply h.put (.of_le (UInt32.zero_le ..)) (Entry.storable_new addr peerId (rand addr))
    rintro (_ | _) e he hadr
    · exact absurd (Option.isSome_iff_exists.mpr ⟨e, find_eq_some.mpr ⟨he, hadr⟩⟩) hwhite
    · rfl

theorem Disciplined.addIncomingPeer {now : Timestamp} {peerId : UInt64} (h : d.Disciplined)
    (hok : d.addIncomingPeer rand addr peerId now = .ok d') : d'.Disciplined := by
  obtain ⟨d₁, hunban, hok⟩ := bind_eq_ok.mp hok
  cases hok
  exact ((h.unban hunban).1.addIncomingPeerImpl peerId).trim

private theorem Disciplined.addAll (h : d.Disciplined) (peers : List PeerlistEntry) :
    (peers.foldl (fun d pp ↦ d.addIncomingPeerImpl rand pp.adr pp.id) d).Disciplined := by
  induction peers generalizing d with
  | nil => exact h
  | cons pp peers ih => exact ih (h.addIncomingPeerImpl pp.id)

theorem Disciplined.mergePeerlistFromP2p {now : Timestamp} {outerBs : List PeerlistEntry}
    (h : d.Disciplined) (hok : d.mergePeerlistFromP2p rand outerBs now = .ok d') :
    d'.Disciplined := by
  obtain ⟨d₁, hunban, hok⟩ := bind_eq_ok.mp hok
  cases hok
  exact ((h.unban hunban).1.addAll outerBs).trim

/-- A peer that answers is in the white list only. -/
theorem Disciplined.setPeerJustSeen {peerId : UInt64} {now : Timestamp} {reset : Bool}
    (h : d.Disciplined) : (d.setPeerJustSeen rand peerId addr now reset).Disciplined := by
  rw [PeerDB.setPeerJustSeen]
  -- in either case the gray list has no entry of the address afterwards
  obtain ⟨d₁, hd₁, h₁, hgray⟩ : ∃ d₁, d₁ = (if (d.graylist.find addr).isSome then d.erase .gray addr
      else d) ∧ d₁.Disciplined ∧ ∀ e ∈ d₁.list .gray, e.adr ≠ addr := by
    refine ⟨_, rfl, ?_⟩
    split_ifs with hfind
    · exact ⟨h.erase .gray addr, fun e he ↦ (mem_list_erase.mp he).2 rfl⟩
    · rw [Option.not_isSome_iff_eq_none, find_eq_none] at hfind
      exact ⟨h, hfind⟩
  rw [← hd₁]
  clear hd₁
  obtain ⟨entry, hentry, hadr, hstorable⟩ : ∃ entry,
      (d₁.whitelist.find addr).getD { adr := addr, shuffleRandom := rand addr } = entry ∧
        entry.adr = addr ∧ entry.Storable := by
    refine ⟨_, rfl, ?_⟩
    cases hfind : d₁.whitelist.find addr with
    | none => exact ⟨rfl, Entry.storable_new addr 0 (rand addr)⟩
    | some entry =>
      obtain ⟨hmem, hadr⟩ := find_eq_some.mp hfind
      exact ⟨hadr, h₁.storable .white entry hmem⟩
  simp only [hentry]
  refine h₁.put (.of_le (UInt32.zero_le ..)) ⟨hstorable.error, hstorable.reserved⟩ ?_
  rintro (_ | _) e he hadr'
  · rfl
  · exact absurd (hadr'.trans hadr) (hgray e he)

/-- An attempt that is put off comes no earlier than the ban ends, unless its time does not fit. -/
theorem Disciplined.delayConnectionAttempt {now : Timestamp} (h : d.Disciplined)
    (hnow : d.clock = now)
    (hspares : ∀ e ∈ d.whitelist, e.adr = addr → now < e.banUntil →
      now.toNat + (delayPeriod d.config addr).toNat < 2 ^ 32) :
    (d.delayConnectionAttempt addr now).Disciplined := by
  rw [PeerDB.delayConnectionAttempt]
  cases hfind : d.whitelist.find addr with
  | none => exact h
  | some entry =>
    obtain ⟨hmem, hadr⟩ := find_eq_some.mp hfind
    have hfits := h.fits .white entry hmem
    have hperiod : (if (!d.isPriority addr) = true then banPeriod else priorityReconnectPeriod)
        = delayPeriod d.config addr := by
      rw [delayPeriod, isPriority]
      cases d.config.priorityNodes.contains addr <;> rfl
    simp only [hperiod]
    have hstorable := h.storable .white entry hmem
    refine h.update hmem rfl ⟨?_, hfits.brief, hfits.exclusive⟩
      ⟨hstorable.error, hstorable.reserved⟩
    by_cases hban : now < entry.banUntil
    · -- the ban is no longer than the delay is
      have hbrief := hfits.brief rfl
      have hspare := hspares entry hmem hadr hban
      rw [hadr, hnow] at hbrief
      apply Or.inl
      show entry.banUntil ≤ now + delayPeriod d.config addr
      rw [UInt32.le_iff_toNat_le, UInt32.toNat_add, Nat.mod_eq_of_lt hspare]
      exact hbrief
    · exact .inr (UInt32.not_lt.mp fun hlt ↦ hban (hnow ▸ hlt))

/-- A ban in one of the lists that are kept. -/
theorem Disciplined.ban (kind : ListKind) {entry : Entry} {error : Bytes} {period now : Timestamp} (h : d.Disciplined)
    (hnow : d.clock = now) (hmem : entry ∈ d.list kind) (herror : error.length < 2 ^ 64)
    (hperiod : period.toNat ≤ (delayPeriod d.config entry.adr).toNat)
    (hexclusive : entry.adr ∉ d.config.exclusiveNodes) :
    (d.put kind (banned error (now + period) entry)).Disciplined := by
  refine h.update hmem rfl ⟨.inl (UInt32.le_refl _), fun _ ↦ ?_, fun hin ↦ absurd hin hexclusive⟩
    ⟨herror, (h.storable kind entry hmem).reserved⟩
  show (now + period).toNat ≤ d.clock.toNat + (delayPeriod d.config entry.adr).toNat
  rw [UInt32.toNat_add, hnow]
  omega

private theorem Disciplined.replaceExclusive {entry : Entry} (h : d.Disciplined)
    (hmem : entry ∈ d.exclusivelist) (hadr : e.adr = entry.adr)
    (hwaits : e.banUntil ≤ e.nextConnectionAttempt ∨ e.banUntil ≤ d.clock) :
    Disciplined { d with exclusivelist := d.exclusivelist.replace e } where
  committed := h.committed
  exclusiveNodes addr := by
    rw [h.exclusiveNodes]
    constructor
    · rintro ⟨e', he', rfl⟩
      by_cases hsame : e'.adr = e.adr
      · exact ⟨e, mem_replace.mpr (.inl rfl), hsame.symm⟩
      · exact ⟨e', mem_replace.mpr (.inr ⟨he', hsame⟩), rfl⟩
    · rintro ⟨e', he', rfl⟩
      rcases mem_replace.mp he' with rfl | ⟨he', -⟩
      · exact ⟨entry, hmem, hadr.symm⟩
      · exact ⟨e', he', rfl⟩
  exclusive e' he' := by
    rcases mem_replace.mp he' with rfl | ⟨he', -⟩
    · exact hwaits
    · exact h.exclusive e' he'
  fits kind e he := h.fits kind e (by cases kind <;> exact he)
  storable kind e he := h.storable kind e (by cases kind <;> exact he)
  disjoint kind kind' e e' he he' :=
    h.disjoint kind kind' e e' (by cases kind <;> exact he) (by cases kind' <;> exact he')
  recorded kind e he := h.recorded kind e (by cases kind <;> exact he)
  listed k v hk := by
    obtain ⟨kind, e, he, hrecord⟩ := h.listed k v hk
    exact ⟨kind, e, by cases kind <;> exact he, hrecord⟩

theorem Disciplined.banGray {error : Bytes} {now : Timestamp} (h : d.Disciplined)
    (hnow : d.clock = now) (herror : error.length < 2 ^ 64)
    (hexclusive : addr ∉ d.config.exclusiveNodes) : (d.banGray addr error now).Disciplined := by
  rw [PeerDB.banGray]
  cases hfind : d.graylist.find addr with
  | none => exact h
  | some entry =>
    obtain ⟨hmem, rfl⟩ := find_eq_some.mp hfind
    refine h.ban .gray hnow hmem herror ?_ hexclusive
    rw [delayPeriod, ← isPriority]

theorem Disciplined.banWhite {error : Bytes} {now : Timestamp} (h : d.Disciplined)
    (hnow : d.clock = now) (herror : error.length < 2 ^ 64)
    (hexclusive : addr ∉ d.config.exclusiveNodes) : (d.banWhite addr error now).Disciplined := by
  rw [PeerDB.banWhite]
  cases hfind : d.whitelist.find addr with
  | none => exact h
  | some entry =>
    obtain ⟨hmem, rfl⟩ := find_eq_some.mp hfind
    refine h.ban .white hnow hmem herror ?_ hexclusive
    rw [delayPeriod, ← isPriority]
    split_ifs <;> decide

private theorem banGray_frame (error : Bytes) (now : Timestamp) : Frame d (d.banGray addr error now) := by
  rw [PeerDB.banGray]
  cases d.graylist.find addr with
  | none => exact ⟨rfl, rfl, rfl⟩
  | some entry => exact ⟨put_config, put_clock, put_exclusivelist⟩

theorem Disciplined.setPeerBanned {error : Bytes} {now : Timestamp} (h : d.Disciplined)
    (hnow : d.clock = now) (herror : error.length < 2 ^ 64) :
    (d.setPeerBanned addr error now).Disciplined := by
  rw [PeerDB.setPeerBanned]
  cases hfind : d.exclusivelist.find addr with
  | some entry =>
    exact h.replaceExclusive (find_eq_some.mp hfind).1 rfl (.inl (UInt32.le_refl _))
  | none =>
    have hexclusive : addr ∉ d.config.exclusiveNodes := fun hin ↦ by
      obtain ⟨e, he, hadr⟩ := (h.exclusiveNodes addr).mp hin
      exact find_eq_none.mp hfind e he hadr
    have hframe : Frame d (d.banGray addr error now) := banGray_frame error now
    exact (h.banGray hnow herror hexclusive).banWhite (hframe.clock.trans hnow) herror
      (by rwa [hframe.config])

/-! ## Choosing a peer -/

/-- What choosing a peer can do. -/
inductive Chooses (connected : List NetworkAddress) (now : Timestamp) (d : PeerDB) :
    PeerDB → Option NetworkAddress → Prop
  | exclusiveNone (hsome : d.exclusivelist.entries ≠ []) : Chooses connected now d d none
  | exclusive {entry : Entry} (hmem : entry ∈ d.exclusivelist) (hnot : entry.adr ∉ connected)
      (htime : entry.nextConnectionAttempt ≤ now) :
      Chooses connected now d (d.connectToExclusive now entry) (some entry.adr)
  | none {d₁ : PeerDB} (hnone : d.exclusivelist.entries = []) (hunban : d.unban now = .ok d₁) :
      Chooses connected now d d₁ none
  | some {d₁ : PeerDB} (kind : ListKind) {entry : Entry} (hnone : d.exclusivelist.entries = [])
      (hunban : d.unban now = .ok d₁) (hmem : entry ∈ d₁.list kind) (hnot : entry.adr ∉ connected)
      (htime : entry.nextConnectionAttempt ≤ now) :
      Chooses connected now d (d₁.connectTo kind now entry) (some entry.adr)

theorem of_firstToConnect {list : PeersIndexed} {now : Timestamp} {skip : Entry → Bool}
    {entry : Entry} (h : firstToConnect list now skip = some entry) :
    entry ∈ list ∧ skip entry = false ∧ entry.nextConnectionAttempt ≤ now := by
  rw [firstToConnect] at h
  have hbelow := List.mem_of_find?_eq_some h
  refine ⟨mem_sorted.mp ((List.takeWhile_prefix _).subset hbelow), ?_, ?_⟩
  · simpa using List.find?_some h
  · exact le_of_before_timeBound (List.mem_takeWhile_imp (p := fun e : Entry ↦
      e.byNextConnectionAttempt.before (timeBound now)) hbelow)

private theorem chooses_getPeerToConnect {connected : List NetworkAddress} {now : Timestamp}
    {draw : UInt32} {r : Option NetworkAddress}
    (h : d.getPeerToConnect connected now draw = .ok (d', r)) : Chooses connected now d d' r := by
  have hnot {e : Entry} {enough : Bool} (hskip : (connected.contains e.adr || enough) = false) :
      e.adr ∉ connected := by
    simp only [Bool.or_eq_false_iff, List.contains_eq_mem, decide_eq_false_iff_not] at hskip
    exact hskip.1
  rw [getPeerToConnect] at h
  split_ifs at h with hsome
  · split at h
    · obtain ⟨rfl, rfl⟩ := Prod.mk.inj (Except.ok.inj h)
      exact .exclusiveNone hsome
    · rename_i entry hfirst
      obtain ⟨rfl, rfl⟩ := Prod.mk.inj (Except.ok.inj h)
      obtain ⟨hmem, hskip, htime⟩ := of_firstToConnect hfirst
      exact .exclusive hmem (by simpa using hskip) htime
  · rw [not_not] at hsome
    obtain ⟨d₁, hunban, h⟩ := bind_eq_ok.mp h
    dsimp only at h
    split at h
    · rename_i entry hwhite
      obtain ⟨rfl, rfl⟩ := Prod.mk.inj (Except.ok.inj h)
      split_ifs at hwhite
      obtain ⟨hmem, hskip, htime⟩ := of_firstToConnect (Option.filter_eq_some_iff.mp hwhite).1
      exact .some .white hsome hunban hmem (hnot hskip) htime
    · rename_i entry hgray
      obtain ⟨rfl, rfl⟩ := Prod.mk.inj (Except.ok.inj h)
      obtain ⟨hmem, hskip, htime⟩ := of_firstToConnect (Option.filter_eq_some_iff.mp hgray).1
      exact .some .gray hsome hunban hmem (hnot hskip) htime
    · obtain ⟨rfl, rfl⟩ := Prod.mk.inj (Except.ok.inj h)
      exact .none hsome hunban

theorem ban_le_of_waits {now : Timestamp} (hle : d.clock ≤ now)
    (hwaits : e.banUntil ≤ e.nextConnectionAttempt ∨ e.banUntil ≤ d.clock)
    (htime : e.nextConnectionAttempt ≤ now) : e.banUntil ≤ now :=
  hwaits.elim (fun hban ↦ UInt32.le_trans hban htime) fun hban ↦ UInt32.le_trans hban hle

theorem Disciplined.connectTo {entry : Entry} {now : Timestamp} (h : d.Disciplined)
    (hnow : d.clock = now) (hmem : entry ∈ d.list kind)
    (htime : entry.nextConnectionAttempt ≤ now) : (d.connectTo kind now entry).Disciplined := by
  have hfits := h.fits kind entry hmem
  have hstorable := h.storable kind entry hmem
  have hban := ban_le_of_waits (hnow ▸ UInt32.le_refl _) hfits.waits htime
  refine h.update hmem rfl (.of_le ?_) ⟨hstorable.error, hstorable.reserved⟩
  exact hnow ▸ hban

theorem Disciplined.getPeerToConnect {connected : List NetworkAddress} {now : Timestamp}
    {draw : UInt32} {r : Option NetworkAddress} (h : d.Disciplined) (hnow : d.clock = now)
    (hok : d.getPeerToConnect connected now draw = .ok (d', r)) : d'.Disciplined := by
  rcases chooses_getPeerToConnect hok with _ | ⟨hmem, -, htime⟩ | ⟨-, hunban⟩ |
    ⟨kind, -, hunban, hmem, -, htime⟩
  · exact h
  · have hban := ban_le_of_waits (hnow ▸ UInt32.le_refl _) (h.exclusive _ hmem) htime
    exact h.replaceExclusive hmem rfl (.inr (hnow ▸ hban))
  · exact (h.unban hunban).1
  · obtain ⟨h₁, hframe, -⟩ := h.unban hunban
    exact h₁.connectTo (hframe.clock.trans hnow) hmem htime

/-- The entries that decide when an address is connected to: the exclusive nodes when there are any,
else the two other lists once the bans that are over are lifted. -/
def Decides (d : PeerDB) (now : Timestamp) (e : Entry) : Prop :=
  if d.exclusivelist.entries ≠ [] then e ∈ d.exclusivelist
  else ∃ d', d.unban now = .ok d' ∧ ∃ kind, e ∈ d'.list kind

private theorem not_isPeerBanned {now : Timestamp}
    (hbans : ∀ kind, ∀ e ∈ d.list kind, e.adr = addr → e.banUntil ≤ now) :
    d.isPeerBanned addr now = false := by
  have hlist (kind : ListKind) : ((d.list kind).find addr).any (now < ·.banUntil) = false := by
    cases hfind : (d.list kind).find addr with
    | none => rfl
    | some e =>
      obtain ⟨hmem, hadr⟩ := find_eq_some.mp hfind
      rw [Option.any_some, decide_eq_false_iff_not, UInt32.not_lt]
      exact hbans kind e hmem hadr
  rw [isPeerBanned, Bool.or_eq_false_iff]
  exact ⟨hlist .gray, hlist .white⟩

/-- **Whom to connect to.** -/
theorem Disciplined.chosen {connected : List NetworkAddress} {now : Timestamp} {draw : UInt32}
    (h : d.Disciplined) (hle : d.clock ≤ now)
    (hok : d.getPeerToConnect connected now draw = .ok (d', some addr)) :
    addr ∉ connected ∧ d.isPeerBanned addr now = false ∧
      ∃ e, d.Decides now e ∧ e.adr = addr ∧ e.banUntil ≤ now ∧ e.nextConnectionAttempt ≤ now ∧
        ∀ e', d.Decides now e' → e'.adr = addr → e' = e := by
  have hchooses := chooses_getPeerToConnect hok
  generalize hr : some addr = r at hchooses
  rcases hchooses with hsome | @⟨entry, hmem, hnot, htime⟩ | ⟨hnone, hunban⟩ |
    @⟨d₁, kind, entry, hnone, hunban, hmem, hnot, htime⟩
  · cases hr
  · obtain rfl := Option.some.inj hr
    have hdecides (e : Entry) : d.Decides now e ↔ e ∈ d.exclusivelist := by
      rw [Decides, if_pos (List.ne_nil_of_mem hmem)]
    refine ⟨hnot, not_isPeerBanned fun kind e he hadr ↦ ?_, entry, (hdecides entry).mpr hmem, rfl,
      ban_le_of_waits hle (h.exclusive entry hmem) htime, htime, fun e he hadr ↦ ?_⟩
    · -- exclusive nodes are not banned in the other lists
      have hin := (h.exclusiveNodes entry.adr).mpr ⟨entry, hmem, rfl⟩
      exact UInt32.le_trans ((h.fits kind e he).exclusive (hadr ▸ hin)) hle
    · exact eq_of_key_eq ((hdecides e).mp he) hmem hadr
  · cases hr
  · obtain rfl := Option.some.inj hr
    obtain ⟨h₁, hframe, hlifts⟩ := h.unban hunban
    have hle₁ : d₁.clock ≤ now := hframe.clock ▸ hle
    have hdecides (e : Entry) : d.Decides now e ↔ ∃ kind, e ∈ d₁.list kind := by
      rw [Decides, if_neg (not_not.mpr hnone), hunban]
      simp
    have hban := ban_le_of_waits hle₁ (h₁.fits kind entry hmem).waits htime
    refine ⟨hnot, not_isPeerBanned fun kind' e he hadr ↦ ?_, entry, (hdecides entry).mpr ⟨kind, hmem⟩,
      rfl, hban, htime, fun e he hadr ↦ ?_⟩
    · -- an address is in one list at most, so this is the entry that was found, before bans were lifted
      rcases hlifts kind entry hmem with hold | ⟨e₀, he₀, hover, rfl⟩
      · obtain rfl := h.disjoint kind' kind e entry he hold hadr
        obtain rfl := eq_of_key_eq he hold hadr
        exact hban
      · obtain rfl := h.disjoint kind' kind e e₀ he he₀ hadr
        obtain rfl := eq_of_key_eq he he₀ hadr
        exact hover
    · obtain ⟨kind', he⟩ := (hdecides e).mp he
      obtain rfl := h₁.disjoint kind' kind e entry he hmem hadr
      exact eq_of_key_eq he hmem hadr

private theorem getPeerToConnect_ok {now : Timestamp} (hnow : 0 < now) (d : PeerDB)
    (connected : List NetworkAddress) (draw : UInt32) :
    ∃ r, d.getPeerToConnect connected now draw = .ok r := by
  rw [PeerDB.getPeerToConnect]
  split_ifs
  · split <;> exact ⟨_, rfl⟩
  · obtain ⟨d₁, hunban⟩ := unban_ok hnow (d := d)
    rw [hunban, ok_bind]
    dsimp only
    split <;> exact ⟨_, rfl⟩

/-! ## Starting -/

/-- A configuration that the records of the last commit go with. -/
structure GoesWith (config : PeerConfig) (d : PeerDB) : Prop where
  seeds : ∀ addr ∈ config.seedNodes, (readDb .gray d.committed).find addr = none
  exclusive : ∀ kind, ∀ e ∈ readDb kind d.committed, e.adr ∈ config.exclusiveNodes →
    e.banUntil ≤ d.clock
  priority : ∀ e ∈ readDb .white d.committed, e.adr ∈ config.priorityNodes →
    e.banUntil.toNat ≤ d.clock.toNat + priorityReconnectPeriod.toNat

variable {config : PeerConfig} {randExclusive randSeed : NetworkAddress → UInt64}

/-- A list that is read at the start, with the seeds that have no record. -/
theorem mem_list_start (he : e ∈ (d.start config randExclusive randSeed).list kind) :
    e ∈ readDb kind d.committed ∨ kind = .white ∧ e.adr ∈ config.seedNodes ∧
      (readDb kind d.committed).find e.adr = none ∧
        e = { adr := e.adr, shuffleRandom := randSeed e.adr } := by
  cases kind with
  | gray => exact .inl he
  | white =>
    rcases mem_or_of_mem_insertAll he with hread | ⟨hseed, hnone⟩
    · exact .inl hread
    · obtain ⟨addr, haddr, rfl⟩ := List.mem_map.mp hseed
      exact .inr ⟨rfl, haddr, hnone, rfl⟩

private theorem mem_list_start_of_mem (he : e ∈ readDb kind d.committed) :
    e ∈ (d.start config randExclusive randSeed).list kind := by
  cases kind with
  | gray => exact he
  | white => exact mem_insertAll_of_mem he

theorem Disciplined.start (h : d.Disciplined) (hgoes : GoesWith config d) :
    (d.start config randExclusive randSeed).Disciplined where
  committed := h.committed
  exclusiveNodes addr := by
    constructor
    · intro hin
      have hmem := List.mem_map_of_mem (f := fun addr ↦
        ({ adr := addr, shuffleRandom := randExclusive addr } : Entry)) hin
      exact (exists_mem_insertAll hmem : ∃ e ∈ insertAll _ ({} : PeersIndexed), e.adr = addr)
    · rintro ⟨e, he, rfl⟩
      rcases mem_or_of_mem_insertAll he with hnone | ⟨hin, -⟩
      · exact absurd hnone (not_mem_empty e)
      · obtain ⟨addr, haddr, rfl⟩ := List.mem_map.mp hin
        exact haddr
  exclusive e he := by
    rcases mem_or_of_mem_insertAll he with hnone | ⟨hin, -⟩
    · exact absurd hnone (not_mem_empty e)
    · obtain ⟨addr, haddr, rfl⟩ := List.mem_map.mp hin
      exact .inl (UInt32.le_refl _)
  fits kind e he := by
    rcases mem_list_start he with hread | ⟨-, -, -, hnew⟩
    · obtain ⟨hfits, -, -⟩ := (mem_readDb h.committed.records).mp hread
      refine ⟨hfits.waits, ?_, hgoes.exclusive kind e hread⟩
      rintro rfl
      show e.banUntil.toNat ≤ d.clock.toNat + (delayPeriod config e.adr).toNat
      rw [delayPeriod]
      split_ifs with hpriority
      · exact hgoes.priority e hread (by simpa using hpriority)
      · exact hfits.brief rfl
    · rw [hnew]
      exact .of_le (UInt32.zero_le ..)
  storable kind e he := by
    rcases mem_list_start he with hread | ⟨-, -, -, hnew⟩
    · exact ((mem_readDb h.committed.records).mp hread).2.1
    · rw [hnew]
      exact Entry.storable_new _ 0 _
  disjoint kind kind' e e' he he' hadr := by
    have hseed {kind' : ListKind} {e e' : Entry} (hin : e.adr ∈ config.seedNodes)
        (hread : e' ∈ readDb kind' d.committed) (hadr : e'.adr = e.adr) : kind' = .white := by
      cases kind' with
      | white => rfl
      | gray => exact absurd hadr (find_eq_none.mp (hgoes.seeds e.adr hin) e' hread)
    rcases mem_list_start he with hread | ⟨rfl, hin, -, -⟩
    · rcases mem_list_start he' with hread' | ⟨rfl, hin', -, -⟩
      · obtain ⟨-, -, hrecord⟩ := (mem_readDb h.committed.records).mp hread
        obtain ⟨-, -, hrecord'⟩ := (mem_readDb h.committed.records).mp hread'
        rw [← hadr] at hrecord'
        exact h.committed.disjoint kind kind' e.adr (Option.isSome_of_mem hrecord)
          (Option.isSome_of_mem hrecord')
      · exact hseed hin' hread hadr
    · rcases mem_list_start he' with hread' | ⟨rfl, -, -, -⟩
      · exact (hseed hin hread' hadr.symm).symm
      · rfl
  recorded kind e he := by
    rcases mem_list_start he with hread | ⟨rfl, hseed, hnone, hnew⟩
    · exact .inl ((mem_readDb h.committed.records).mp hread).2.2
    · exact .inr ⟨rfl, by simpa [isSeed, PeerDB.start] using hseed,
        get_of_find_readDb h.committed.records hnone, by rw [hnew]⟩
  listed k v hk := by
    obtain ⟨kind, e, hfits, hstorable, rfl, rfl⟩ := h.committed.records k v hk
    have hread := (mem_readDb h.committed.records).mpr ⟨hfits, hstorable, hk⟩
    exact ⟨kind, e, mem_list_start_of_mem hread, rfl, rfl⟩

/-- A seed whose record is in the gray list gets into both lists. -/
theorem start_in_both (hin : addr ∈ config.seedNodes)
    (hgray : ((readDb .gray d.committed).find addr).isSome) :
    ((d.start config randExclusive randSeed).whitelist.find addr).isSome ∧
      ((d.start config randExclusive randSeed).graylist.find addr).isSome := by
  refine ⟨?_, hgray⟩
  have hmem := List.mem_map_of_mem (f := fun addr ↦
    ({ adr := addr, shuffleRandom := randSeed addr } : Entry)) hin
  obtain ⟨e, he, hadr⟩ : ∃ e ∈ insertAll _ (readDb .white d.committed), e.adr = addr :=
    exists_mem_insertAll hmem
  exact Option.isSome_of_mem (find_eq_some.mpr ⟨he, hadr⟩)

theorem Disciplined.commit (h : d.Disciplined) : Disciplined { d with committed := d.db } where
  committed := by
    constructor
    · intro k v hk
      obtain ⟨kind, e, he, hkey, hwritten⟩ := h.listed k v hk
      exact ⟨kind, e, (h.fits kind e he).anyConfig, h.storable kind e he, hkey, hwritten⟩
    · intro kind kind' addr hsome hsome'
      obtain ⟨v, hv⟩ := Option.isSome_iff_exists.mp hsome
      obtain ⟨v', hv'⟩ := Option.isSome_iff_exists.mp hsome'
      obtain ⟨k, e, he, hkey, -⟩ := h.listed _ v hv
      obtain ⟨k', e', he', hkey', -⟩ := h.listed _ v' hv'
      obtain ⟨rfl, hadr⟩ := dbKey_inj hkey
      obtain ⟨rfl, hadr'⟩ := dbKey_inj hkey'
      exact h.disjoint kind kind' e e' he he' (hadr.symm.trans hadr')
  exclusiveNodes := h.exclusiveNodes
  exclusive := h.exclusive
  fits kind e he := h.fits kind e (by cases kind <;> exact he)
  storable kind e he := h.storable kind e (by cases kind <;> exact he)
  disjoint kind kind' e e' he he' :=
    h.disjoint kind kind' e e' (by cases kind <;> exact he) (by cases kind' <;> exact he')
  recorded kind e he := h.recorded kind e (by cases kind <;> exact he)
  listed k v hk := by
    obtain ⟨kind, e, he, hrecord⟩ := h.listed k v hk
    exact ⟨kind, e, by cases kind <;> exact he, hrecord⟩

/-! ## Runs -/

/-- The condition on a step: a start finds records that its configuration goes with, and the attempt
to connect to a peer that is banned is put off to a time that fits. -/
def Heeds (d : PeerDB) : PeerStep → Prop
  | .start config _ _ => GoesWith config d
  | .perform (.delayConnectionAttempt addr) now _ =>
    ∀ e ∈ d.whitelist, e.adr = addr → now < e.banUntil →
      now.toNat + (delayPeriod d.config addr).toNat < 2 ^ 32
  | _ => True

theorem Disciplined.perform {op : PeerOp} {now : Timestamp} (h : d.Disciplined)
    (hheeds : d.Heeds (.perform op now rand)) (hnow : d.clock = now)
    (hok : d.perform rand now op = .ok d') : d'.Disciplined := by
  cases op with
  | mergePeerlistFromP2p outerBs => exact h.mergePeerlistFromP2p hok
  | addIncomingPeer addr peerId => exact h.addIncomingPeer hok
  | getPeerlistToP2p forAddr depth =>
    obtain ⟨r, hr, rfl⟩ := map_eq_ok.mp hok
    obtain ⟨d₁, hunban, hr⟩ := bind_eq_ok.mp hr
    cases hr
    exact (h.unban hunban).1
  | setPeerJustSeen peerId addr reset =>
    cases hok
    exact h.setPeerJustSeen
  | delayConnectionAttempt addr =>
    cases hok
    exact h.delayConnectionAttempt hnow hheeds
  | setPeerBanned addr error =>
    cases hok
    exact h.setPeerBanned hnow error.2
  | getPeerToConnect connected draw =>
    obtain ⟨⟨d₁, r⟩, hr, rfl⟩ := map_eq_ok.mp hok
    exact h.getPeerToConnect hnow hr
  | trim =>
    cases hok
    exact h.trim
  | unban => exact (h.unban hok).1

theorem Disciplined.step {i : PeerStep} (h : d.Disciplined) (hheeds : d.Heeds i)
    (hok : d.step i = .ok d') : d'.Disciplined := by
  cases i with
  | start config randExclusive randSeed =>
    cases hok
    exact h.start hheeds
  | commit =>
    cases hok
    exact h.commit
  | perform op now rand =>
    rw [PeerDB.step] at hok
    split_ifs at hok with hclock
    refine (h.later (UInt32.not_lt.mp hclock)).perform ?_ rfl hok
    cases op <;> exact hheeds

private theorem disciplined_empty : Disciplined {} where
  committed := ⟨fun k v hk ↦ by simp at hk, fun kind kind' addr hsome ↦ by simp at hsome⟩
  exclusiveNodes addr := by simp
  exclusive e he := absurd he (not_mem_empty e)
  fits kind e he := absurd he (by cases kind <;> exact not_mem_empty e)
  storable kind e he := absurd he (by cases kind <;> exact not_mem_empty e)
  disjoint kind _ e _ he := absurd he (by cases kind <;> exact not_mem_empty e)
  recorded kind e he := absurd he (by cases kind <;> exact not_mem_empty e)
  listed k v hk := by simp at hk

private theorem disciplined_of_reaches (h : Reaches step Heeds (· = {}) d) : d.Disciplined :=
  h.invariant (I := Disciplined) (fun d (hd : d = {}) ↦ hd ▸ disciplined_empty)
    fun _ _ _ _ hd hheeds hok ↦ hd.step hheeds hok

/-- **The discipline of the peer database.** In every run whose starts find records that their
configuration goes with, and in which no attempt is put off beyond the end of time. -/
theorem peers_disciplined (h : Reaches step Heeds (· = {}) d) :
    (∀ addr, (d.whitelist.find addr).isSome → d.graylist.find addr = none) ∧
    (∀ connected now draw d' addr, d.clock ≤ now →
      d.getPeerToConnect connected now draw = .ok (d', some addr) →
        addr ∉ connected ∧ d.isPeerBanned addr now = false ∧
          ∃ e, d.Decides now e ∧ e.adr = addr ∧ e.banUntil ≤ now ∧
            e.nextConnectionAttempt ≤ now ∧ ∀ e', d.Decides now e' → e'.adr = addr → e' = e) ∧
    (∀ connected now draw, 0 < now → ∃ r, d.getPeerToConnect connected now draw = .ok r) ∧
    ∀ k v, d.db[k]? = some v ↔
      ∃ kind, ∃ e ∈ d.list kind, ¬d.Unwritten kind e ∧ k = dbKey kind e.adr ∧ v = e.write := by
  have hd := disciplined_of_reaches h
  refine ⟨fun addr hsome ↦ ?_, fun connected now draw d' addr hle hok ↦ hd.chosen hle hok,
    fun connected now draw hnow ↦ getPeerToConnect_ok hnow d connected draw, fun k v ↦ ?_⟩
  · obtain ⟨e, he⟩ := Option.isSome_iff_exists.mp hsome
    obtain ⟨hmem, rfl⟩ := find_eq_some.mp he
    exact find_eq_none.mpr fun e' he' hadr ↦
      nomatch hd.disjoint .white .gray e e' hmem he' hadr.symm
  · constructor
    · intro hk
      obtain ⟨kind, e, he, rfl, rfl⟩ := hd.listed k v hk
      refine ⟨kind, e, he, ?_, rfl, rfl⟩
      rintro ⟨-, -, hnone, -⟩
      rw [hk] at hnone
      cases hnone
    · rintro ⟨kind, e, he, hwritten, rfl, rfl⟩
      exact (hd.recorded kind e he).resolve_right hwritten

theorem peers_disciplined_sample : ∃ d d' addr, Reaches step Heeds (· = {}) d ∧
    d.getPeerToConnect [⟨2, 8080⟩] 1002 70 = .ok (d', some addr) ∧ addr = ⟨3, 8080⟩ ∧
    addr ∉ [(⟨2, 8080⟩ : NetworkAddress)] ∧ d.isPeerBanned addr 1002 = false ∧
    d.graylist.find ⟨1, 8080⟩ = none := by
  have hgoes : GoesWith { seedNodes := [⟨1, 8080⟩] } {} := by
    have hempty (kind : ListKind) (e : Entry) (he : e ∈ readDb kind ({} : PeerDB).committed) :
        False := by
      simpa using ((mem_readDb disciplined_empty.committed.records).mp he).2.2
    exact ⟨fun addr _ ↦ find_eq_none.mpr fun e he ↦ (hempty _ e he).elim,
      fun kind e he ↦ (hempty kind e he).elim, fun e he ↦ (hempty _ e he).elim⟩
  have hstart : Reaches step Heeds (· = {})
      (PeerDB.start {} { seedNodes := [⟨1, 8080⟩] } (fun _ ↦ 0) fun _ ↦ 0) :=
    .next (.start rfl) (i := .start _ _ _) hgoes rfl
  have hrun : ∃ d ∈ ([.perform (.addIncomingPeer ⟨3, 8080⟩ 5) 1000 fun _ ↦ 0,
      .perform (.setPeerBanned ⟨1, 8080⟩ ⟨[], by decide⟩) 1001 fun _ ↦ 0].foldlM step
        (PeerDB.start {} { seedNodes := [⟨1, 8080⟩] } (fun _ ↦ 0) fun _ ↦ 0)).toOption,
      d.clock ≤ 1002 ∧ (d.whitelist.find ⟨1, 8080⟩).isSome ∧
        ∃ r ∈ (d.getPeerToConnect [⟨2, 8080⟩] 1002 70).toOption, r.2 = some ⟨3, 8080⟩ := by
    decide +kernel
  obtain ⟨d, hd, hclock, hseed, ⟨d', r⟩, hchosen, rfl⟩ := hrun
  have hreaches : Reaches step Heeds (· = {}) d := by
    refine hstart.steps ?_ (toOption_eq_some.mp hd)
    rintro i hi d
    fin_cases hi <;> trivial
  obtain ⟨hdisjoint, hchoice, -, -⟩ := peers_disciplined hreaches
  obtain ⟨hnot, hbanned, -⟩ := hchoice _ _ _ _ _ hclock (toOption_eq_some.mp hchosen)
  exact ⟨d, d', _, hreaches, toOption_eq_some.mp hchosen, rfl, hnot, hbanned, hdisjoint _ hseed⟩

/-- A peer is heard of, and a later configuration has it as a seed. -/
theorem peers_in_both_lists : ∃ d, Reaches step (fun _ _ ↦ True) (· = {}) d ∧
    ∃ addr, (d.whitelist.find addr).isSome ∧ (d.graylist.find addr).isSome := by
  have hrun : ∃ d ∈ ([.perform (.addIncomingPeer ⟨1, 8080⟩ 5) 1000 fun _ ↦ 0, .commit,
      .start { seedNodes := [⟨1, 8080⟩] } (fun _ ↦ 0) fun _ ↦ 0].foldlM step {}).toOption,
      (d.whitelist.find ⟨1, 8080⟩).isSome ∧ (d.graylist.find ⟨1, 8080⟩).isSome := by
    decide +kernel
  obtain ⟨d, hd, hboth⟩ := hrun
  have hstart : Reaches step (fun _ _ ↦ True) (· = {}) {} := .start rfl
  exact ⟨d, hstart.steps (fun _ _ _ ↦ trivial) (toOption_eq_some.mp hd), ⟨1, 8080⟩, hboth⟩

end Operations

end PeerDB

end CryoNero.P2p
