import CryoNero.Build.Decoys
import CryoNero.Store.Ranges
import CryoNero.Wallet.Chronicle

/-!
# The history is given out in full

A cursor sees the transactions of an address in groups, one for each block, and a page takes some of the
groups and leaves the others (`transfersLoop_groups`). What it leaves is exactly what lies in the range of
the next page, in either direction, so that the pages together have every group once.

The outputs that were opened are looked up in the range of each page. For one height the range is
misunderstood: a range after the last height of all, which is empty, is taken for the range of all heights.
-/

namespace CryoNero

open Store

namespace WalletDb

variable (s : WalletDb) (address : String) (fromHeight toHeight : Height) (forward : Bool)
  (desiredTxCount : ℕ)

/-! ## A page -/

/-- A height comes before another one in the chosen direction. -/
def Precedes (a b : Height) : Prop := if forward then a < b else b < a

/-- The cursor has left the range. -/
def Beyond (height : Height) : Prop :=
  forward = true ∧ toHeight < height ∨ forward = false ∧ height ≤ fromHeight

/-- The transactions of a group as a block. -/
def blockOf (g : List (Height × Hash)) : Api.Block where
  header := (g.head?.bind fun e ↦ s.readChain e.1).getD {}
  transactions := g.map fun e ↦ (s.getTransaction e.2).onlyOf address

/-- The bounds after a page that leaves some groups. -/
def boundsOf (rest : List (List (Height × Hash))) : Height × Height :=
  match rest.flatten with
  | [] => (fromHeight, toHeight)
  | e :: _ => (if forward then fromHeight else e.1, if forward then e.1 - 1 else toHeight)

/-- The headers of the blocks in a group have its height. -/
def Headed (gs : List (List (Height × Hash))) : Prop :=
  ∀ g ∈ gs, ∀ e ∈ g, ∃ header, s.readChain e.1 = some header ∧ header.height = e.1

variable {s address fromHeight toHeight forward desiredTxCount} {p : Paging}
  {cur beyond : List (Height × Hash)}

private theorem transfersLoop_beyond (h : ∀ e ∈ beyond.head?, Beyond fromHeight toHeight forward e.1) :
    s.transfersLoop address fromHeight toHeight forward desiredTxCount p beyond =
      (p.finish, fromHeight, toHeight) := by
  rcases beyond with _ | ⟨⟨height, tid⟩, beyond⟩
  · rfl
  · rw [transfersLoop]
    exact if_pos (h _ rfl)

private theorem transfersLoop_first {height : Height} {tid : Hash} (hp : p.currentBlock.transactions = [])
    (hin : ¬Beyond fromHeight toHeight forward height) :
    s.transfersLoop address fromHeight toHeight forward desiredTxCount p ((height, tid) :: cur) =
      s.transfersLoop address fromHeight toHeight forward desiredTxCount
        (p.add (s.readChain height) ((s.getTransaction tid).onlyOf address)) cur := by
  rw [transfersLoop]
  dsimp only
  rw [if_neg (c := _ ∨ _) hin]
  simp [hp]

private theorem transfersLoop_more {g : List (Height × Hash)} (hp : p.currentBlock.transactions ≠ [])
    (hg : ∀ e ∈ g, e.1 = p.currentBlock.header.height)
    (hin : ¬Beyond fromHeight toHeight forward p.currentBlock.header.height) :
    s.transfersLoop address fromHeight toHeight forward desiredTxCount p (g ++ cur) =
      s.transfersLoop address fromHeight toHeight forward desiredTxCount
        { p with
          currentBlock := { p.currentBlock with
            transactions := p.currentBlock.transactions ++
              g.map fun e ↦ (s.getTransaction e.2).onlyOf address }
          totalTransactionsFound := p.totalTransactionsFound + g.length } cur := by
  induction g generalizing p with
  | nil => rw [List.map_nil, List.append_nil]; rfl
  | cons e g ih =>
    obtain ⟨height, tid⟩ := e
    rw [List.forall_mem_cons] at hg
    have hheight : height = p.currentBlock.header.height := hg.1
    rw [List.cons_append, transfersLoop]
    dsimp only
    rw [if_neg (c := _ ∨ _) (by rw [hheight]; exact hin)]
    simp only [hheight, ne_eq, not_true_eq_false, false_and, decide_false, Bool.false_eq_true, if_false]
    rw [ih]
    · simp only [Paging.add, if_neg hp, List.map_cons, List.length_cons, List.append_assoc,
        List.singleton_append]
      congr 2
      omega
    · simp [Paging.add]
    · simpa [Paging.add, hp] using hg.2
    · simpa [Paging.add, hp] using hin

private theorem transfersLoop_group {g : List (Height × Hash)} (hne : g ≠ [])
    (hconst : ∀ a ∈ g, ∀ b ∈ g, a.1 = b.1) (hhead : s.Headed [g])
    (hp : p.currentBlock = {}) (hin : ∀ e ∈ g, ¬Beyond fromHeight toHeight forward e.1) :
    s.transfersLoop address fromHeight toHeight forward desiredTxCount p (g ++ cur) =
      s.transfersLoop address fromHeight toHeight forward desiredTxCount
        { p with
          currentBlock := s.blockOf address g
          totalTransactionsFound := p.totalTransactionsFound + g.length } cur := by
  obtain ⟨⟨height, tid⟩, g, rfl⟩ := List.exists_cons_of_ne_nil hne
  obtain ⟨header, hread, hheight⟩ := hhead _ List.mem_cons_self _ List.mem_cons_self
  have hin' := hin _ List.mem_cons_self
  rw [List.cons_append, transfersLoop_first (by rw [hp]) hin']
  rw [transfersLoop_more]
  · congr 1
    simp only [Paging.add, hp, blockOf, List.head?_cons, Option.bind_some, hread, Option.getD_some, if_true,
      List.nil_append, List.map_cons, List.singleton_append, List.length_cons]
    congr 1
    omega
  · simp [Paging.add]
  · intro e he
    rw [hconst e (List.mem_cons_of_mem _ he) _ List.mem_cons_self]
    simp [Paging.add, hp, hread, hheight]
  · simpa [Paging.add, hp, hread, hheight] using hin'

private theorem transfersLoop_border {height : Height} {tid : Hash} (hp : p.currentBlock.transactions ≠ [])
    (hne : p.currentBlock.header.height ≠ height) (hin : ¬Beyond fromHeight toHeight forward height) :
    s.transfersLoop address fromHeight toHeight forward desiredTxCount p ((height, tid) :: cur) =
      if desiredTxCount ≤ p.totalTransactionsFound then
        (p.push.result, if forward then fromHeight else height, if forward then height - 1 else toHeight)
      else s.transfersLoop address fromHeight toHeight forward desiredTxCount p.push
        ((height, tid) :: cur) := by
  rw [transfersLoop]
  dsimp only
  rw [if_neg (c := _ ∨ _) hin, decide_eq_true (And.intro hne hp), if_pos rfl]
  by_cases hn : desiredTxCount ≤ p.totalTransactionsFound
  · rw [if_pos hn, if_pos ⟨rfl, hn⟩]
    rfl
  · rw [if_neg hn, if_neg fun hand ↦ hn hand.2, transfersLoop_first rfl hin]

/-- **A page takes whole blocks.** It has some of the groups in the range, at least one of them if there are
any, and its bounds tell where the others begin. -/
private theorem transfersLoop_groups {gs : List (List (Height × Hash))}
    (hgs : Groups Prod.fst (Precedes forward) gs) (hhead : s.Headed gs) (hp : p.currentBlock = {})
    (hin : ∀ g ∈ gs, ∀ e ∈ g, ¬Beyond fromHeight toHeight forward e.1)
    (hbeyond : ∀ e ∈ beyond.head?, Beyond fromHeight toHeight forward e.1) :
    ∃ taken rest, gs = taken ++ rest ∧ (gs ≠ [] → taken ≠ []) ∧
      s.transfersLoop address fromHeight toHeight forward desiredTxCount p (gs.flatten ++ beyond) =
        (p.result ++ taken.map (s.blockOf address), boundsOf fromHeight toHeight forward rest) := by
  induction gs generalizing p with
  | nil =>
    refine ⟨[], [], rfl, fun hne ↦ absurd rfl hne, ?_⟩
    rw [List.flatten_nil, List.nil_append, transfersLoop_beyond hbeyond, Paging.finish, hp, if_pos rfl,
      List.map_nil, List.append_nil]
    rfl
  | cons g gs ih =>
    obtain ⟨hne, hconst, hordered⟩ := hgs
    rw [List.forall_mem_cons] at hne hconst hin
    rw [List.pairwise_cons] at hordered
    have hheadg : s.Headed [g] := fun g' hg' ↦ hhead g' (by simp_all)
    rw [List.flatten_cons, List.append_assoc, transfersLoop_group hne.1 hconst.1 hheadg hp hin.1]
    set p₁ : Paging := { p with
      currentBlock := s.blockOf address g
      totalTransactionsFound := p.totalTransactionsFound + g.length } with hp₁
    have hfilled : p₁.currentBlock.transactions ≠ [] := by simpa [hp₁, blockOf] using hne.1
    have hpushed : p₁.push.result = p.result ++ [s.blockOf address g] := rfl
    rcases gs with _ | ⟨g', gs⟩
    · -- the last group of the range
      refine ⟨[g], [], rfl, fun _ ↦ List.cons_ne_nil _ _, ?_⟩
      rw [List.flatten_nil, List.nil_append, transfersLoop_beyond hbeyond, Paging.finish, if_neg hfilled,
        hpushed]
      rfl
    · obtain ⟨⟨height, tid⟩, g', rfl⟩ := List.exists_cons_of_ne_nil (hne.2 g' List.mem_cons_self)
      have hin' := hin.2 _ List.mem_cons_self _ List.mem_cons_self
      have hborder : p₁.currentBlock.header.height ≠ height := by
        obtain ⟨e, g, rfl⟩ := List.exists_cons_of_ne_nil hne.1
        obtain ⟨header, hread, hheight⟩ := hheadg _ List.mem_cons_self _ List.mem_cons_self
        have hfirst : p₁.currentBlock.header.height = e.1 := by
          rw [hp₁, ← hheight]
          simp [blockOf, hread]
        have hprecedes := hordered.1 _ List.mem_cons_self e List.mem_cons_self _ List.mem_cons_self
        rw [hfirst]
        rintro heq
        rw [Precedes, heq] at hprecedes
        split_ifs at hprecedes <;> exact UInt32.lt_irrefl _ hprecedes
      rw [List.flatten_cons, List.cons_append, List.cons_append, transfersLoop_border hfilled hborder hin']
      by_cases hn : desiredTxCount ≤ p₁.totalTransactionsFound
      · rw [if_pos hn, hpushed]
        exact ⟨[g], ((height, tid) :: g') :: gs, rfl, fun _ ↦ List.cons_ne_nil _ _, rfl⟩
      · rw [if_neg hn]
        obtain ⟨taken, rest, hsplit, -, hloop⟩ := ih (p := p₁.push)
          ⟨hne.2, hconst.2, hordered.2⟩ (fun g'' hg'' ↦ hhead g'' (List.mem_cons_of_mem _ hg'')) rfl hin.2
        refine ⟨g :: taken, rest, by rw [hsplit, List.cons_append], fun _ ↦ List.cons_ne_nil _ _, ?_⟩
        rw [List.flatten_cons, List.cons_append, List.cons_append] at hloop
        rw [hloop, hpushed, List.map_cons, List.append_assoc, List.singleton_append]

/-! ## The range of a page -/

variable (s address) in
/-- The transactions of an address, by height. -/
def listed : List (Height × Hash) :=
  (((s.indexes.records .addressTransactions).toList.map fun e ↦ ofLex e.1).filter
    fun k ↦ k.1 = address).map fun k ↦ ofLex k.2

variable (s address fromHeight toHeight forward) in
/-- Those in a range, in the chosen direction. -/
def inRange : List (Height × Hash) :=
  let entries := (s.listed address).filter fun e ↦ fromHeight < e.1 ∧ e.1 ≤ toHeight
  if forward then entries else entries.reverse

theorem mem_listed {e : Height × Hash} : e ∈ s.listed address ↔
    s.indexes.get .addressTransactions (toLex (address, toLex e)) ≠ none := by
  rw [listed, List.mem_map]
  constructor
  · rintro ⟨k, hk, rfl⟩
    obtain ⟨hk, haddress⟩ := List.mem_filter.mp hk
    obtain ⟨⟨key, u⟩, hmem, rfl⟩ := List.mem_map.mp hk
    have hget : s.indexes.get .addressTransactions key = some u := Table.mem_toList.mp hmem
    have hkey : toLex (address, toLex (ofLex (ofLex key).2)) = key := by
      rw [← of_decide_eq_true haddress]
      rfl
    rw [hkey, hget]
    exact Option.some_ne_none u
  · intro hne
    obtain ⟨u, hu⟩ := Option.ne_none_iff_exists'.mp hne
    exact ⟨(address, toLex e), List.mem_filter.mpr ⟨List.mem_map.mpr
      ⟨(toLex (address, toLex e), u), Table.mem_toList.mpr hu, rfl⟩, decide_eq_true rfl⟩, rfl⟩

theorem pairwise_listed : (s.listed address).Pairwise fun a b ↦ a.1 ≤ b.1 ∧ a ≠ b := by
  rw [listed]
  refine List.pairwise_map.mpr ?_
  have hsorted : (((s.indexes.records .addressTransactions).toList.map fun e ↦ ofLex e.1).filter
      fun k ↦ k.1 = address).Pairwise fun a b ↦ compare (toLex a) (toLex b) = .lt :=
    (List.pairwise_map.mpr (Std.ExtTreeMap.ordered_keys_toList
      (t := s.indexes.records .addressTransactions))).filter _
  refine hsorted.imp_of_mem fun {a b} ha hb hab ↦ ?_
  have hsame : a.1 = b.1 := (of_decide_eq_true (List.mem_filter.mp ha).2).trans
    (of_decide_eq_true (List.mem_filter.mp hb).2).symm
  change (compare a.1 b.1).then (compare a.2 b.2) = .lt at hab
  rw [hsame, Std.compare_self] at hab
  refine ⟨Table.fst_le_of_compare hab, fun heq ↦ ?_⟩
  have hab : compare a.2 b.2 = .lt := hab
  rw [show a.2 = b.2 from heq, Std.compare_self] at hab
  cases hab

private theorem nodup_listed : (s.listed address).Nodup := pairwise_listed.imp And.right

private theorem transfersFrom_eq (hrange : fromHeight < toHeight) : ∃ beyond,
    s.transfersFrom address (if forward then fromHeight + 1 else toHeight) forward =
      s.inRange address fromHeight toHeight forward ++ beyond ∧
    ∀ e ∈ beyond.head?, Beyond fromHeight toHeight forward e.1 := by
  have hzero (h : Height) : fromHeight + 1 ≤ h ↔ fromHeight < h := by
    rw [UInt32.lt_iff_toNat_lt] at hrange
    rw [UInt32.le_iff_toNat_le, UInt32.lt_iff_toNat_lt, UInt32.toNat_add]
    have hlt := toHeight.toNat_lt
    change (fromHeight.toNat + 1) % 2 ^ 32 ≤ _ ↔ _
    omega
  have hcut {q : Height × Hash → Bool} {l : List (Height × Hash)}
      (hmono : l.Pairwise fun a b ↦ q b = true → q a = true)
      (hout : ∀ e, q e = false → Beyond fromHeight toHeight forward e.1) :
      ∃ beyond, l = l.filter q ++ beyond ∧ ∀ e ∈ beyond.head?, Beyond fromHeight toHeight forward e.1 := by
    refine ⟨l.dropWhile q, ?_, fun e he ↦ hout e ?_⟩
    · rw [← takeWhile_eq_filter hmono, List.takeWhile_append_dropWhile]
    · have hhead := List.head?_dropWhile_not q l
      rw [he] at hhead
      exact hhead
  rw [transfersFrom, inRange]
  cases forward with
  | true =>
    obtain ⟨beyond, heq, hout⟩ := hcut (q := fun e ↦ e.1 ≤ toHeight)
      (l := (s.listed address).filter fun e ↦ fromHeight + 1 ≤ e.1)
      ((pairwise_listed.filter _).imp fun hab hb ↦ decide_eq_true
        (UInt32.le_trans hab.1 (of_decide_eq_true hb)))
      fun e he ↦ .inl ⟨rfl, UInt32.not_le.mp (of_decide_eq_false he)⟩
    refine ⟨beyond, ?_, hout⟩
    rw [if_pos rfl, if_pos rfl, if_pos rfl]
    refine heq.trans ?_
    rw [List.filter_filter]
    congr 2
    funext e
    rw [Bool.decide_and, Bool.and_comm, decide_eq_decide.mpr (hzero e.1)]
  | false =>
    obtain ⟨beyond, heq, hout⟩ := hcut (q := fun e ↦ fromHeight < e.1)
      (l := ((s.listed address).filter fun e ↦ e.1 ≤ toHeight).reverse)
      (List.pairwise_reverse.mpr ((pairwise_listed.filter _).imp fun hab ha ↦ decide_eq_true
        (UInt32.lt_of_lt_of_le (of_decide_eq_true ha) hab.1)))
      fun e he ↦ .inr ⟨rfl, UInt32.not_lt.mp (of_decide_eq_false he)⟩
    refine ⟨beyond, ?_, hout⟩
    rw [if_neg Bool.false_ne_true, if_neg Bool.false_ne_true, if_neg Bool.false_ne_true]
    refine heq.trans ?_
    rw [List.filter_reverse, List.filter_filter]
    congr 3
    funext e
    rw [Bool.decide_and]

theorem mem_inRange {e : Height × Hash} : e ∈ s.inRange address fromHeight toHeight forward ↔
    e ∈ s.listed address ∧ fromHeight < e.1 ∧ e.1 ≤ toHeight := by
  have hmem : e ∈ (s.listed address).filter (fun e ↦ fromHeight < e.1 ∧ e.1 ≤ toHeight) ↔
      e ∈ s.listed address ∧ fromHeight < e.1 ∧ e.1 ≤ toHeight := by
    rw [List.mem_filter, decide_eq_true_iff]
  rw [inRange, ← hmem]
  cases forward with
  | true => rw [if_pos rfl]
  | false => rw [if_neg Bool.false_ne_true, List.mem_reverse]

theorem precedes_asymm {a b : Height} (h : Precedes forward a b) : ¬Precedes forward b a := by
  rw [Precedes] at h ⊢
  split_ifs at h ⊢ <;> exact UInt32.lt_asymm h

private theorem exists_groups_inRange : ∃ gs, Groups Prod.fst (Precedes forward) gs ∧
    gs.flatten = s.inRange address fromHeight toHeight forward := by
  refine exists_groups (fun a b ↦ precedes_asymm) ?_
  have hle {a b : Height} (h : a ≤ b) : a = b ∨ a < b :=
    (UInt32.lt_or_eq_of_le h).symm
  rw [inRange]
  cases forward with
  | true =>
    rw [if_pos rfl]
    exact (pairwise_listed.filter _).imp fun hab ↦ (hle hab.1).imp_right fun hlt ↦ hlt
  | false =>
    rw [if_neg Bool.false_ne_true]
    refine List.pairwise_reverse.mpr ((pairwise_listed.filter _).imp fun hab ↦ ?_)
    exact (hle hab.1).imp Eq.symm fun hlt ↦ hlt

instance (a b : Height) : Decidable (Precedes forward a b) :=
  inferInstanceAs (Decidable (if forward = true then a < b else b < a))

private theorem inRange_filter {height : Height} (hfrom : fromHeight < height) (hto : height ≤ toHeight) :
    (s.inRange address fromHeight toHeight forward).filter (fun a ↦ ¬Precedes forward a.1 height) =
      s.inRange address (if forward then height - 1 else fromHeight) (if forward then toHeight else height)
        forward := by
  have hpred (a : Height) : height - 1 < a ↔ ¬a < height := by
    have hone : (1 : Height) ≤ height := by
      rw [UInt32.lt_iff_toNat_lt] at hfrom
      rw [UInt32.le_iff_toNat_le]
      exact Nat.one_le_of_lt hfrom
    have hsub := UInt32.toNat_sub_of_le height 1 hone
    have hone := UInt32.le_iff_toNat_le.mp hone
    rw [UInt32.lt_iff_toNat_lt, UInt32.lt_iff_toNat_lt, hsub]
    change 1 ≤ _ at hone
    change _ - 1 < _ ↔ _
    omega
  rw [inRange, inRange]
  cases forward with
  | true =>
    rw [if_pos rfl, if_pos rfl, if_pos rfl, if_pos rfl, List.filter_filter]
    refine List.filter_congr fun a _ ↦ ?_
    rw [← Bool.decide_and, decide_eq_decide, hpred]
    refine ⟨fun h ↦ ⟨h.1, h.2.2⟩, fun h ↦ ⟨h.1, UInt32.lt_of_lt_of_le hfrom ?_, h.2⟩⟩
    exact UInt32.not_lt.mp h.1
  | false =>
    rw [if_neg Bool.false_ne_true, if_neg Bool.false_ne_true, if_neg Bool.false_ne_true,
      if_neg Bool.false_ne_true, List.filter_reverse, List.filter_filter]
    congr 1
    refine List.filter_congr fun a _ ↦ ?_
    rw [← Bool.decide_and, decide_eq_decide]
    have hnot : ¬Precedes false a.1 height ↔ a.1 ≤ height := UInt32.not_lt
    rw [hnot]
    exact ⟨fun h ↦ ⟨h.2.1, h.1⟩, fun h ↦ ⟨h.2, h.1, UInt32.le_trans h.2 hto⟩⟩

variable (desiredTxCount) in
private theorem apiGetTransfers_groups {gs : List (List (Height × Hash))}
    (hgs : Groups Prod.fst (Precedes forward) gs) (hhead : s.Headed gs)
    (heq : gs.flatten = s.inRange address fromHeight toHeight forward) :
    ∃ taken rest, gs = taken ++ rest ∧ (gs ≠ [] → taken ≠ []) ∧
      s.apiGetTransfers address fromHeight toHeight forward desiredTxCount =
        (taken.map (s.blockOf address), boundsOf fromHeight toHeight forward rest) := by
  have hin (e : Height × Hash) (he : e ∈ gs.flatten) : fromHeight < e.1 ∧ e.1 ≤ toHeight := by
    rw [heq] at he
    exact (mem_inRange.mp he).2
  rw [apiGetTransfers]
  by_cases hrange : toHeight ≤ fromHeight
  · -- nothing is in an empty range
    have hnil : gs = [] := by
      rcases gs with _ | ⟨g, gs⟩
      · rfl
      obtain ⟨e, g, rfl⟩ := List.exists_cons_of_ne_nil (hgs.nonempty g List.mem_cons_self)
      obtain ⟨hlt, hle⟩ := hin e List.mem_cons_self
      exact absurd (UInt32.lt_of_lt_of_le hlt (UInt32.le_trans hle hrange)) (UInt32.lt_irrefl _)
    subst hnil
    rw [if_pos hrange]
    exact ⟨[], [], rfl, fun hne ↦ absurd rfl hne, rfl⟩
  · rw [if_neg hrange]
    obtain ⟨beyond, hcursor, hbeyond⟩ : ∃ beyond,
        s.transfersFrom address (if forward then fromHeight + 1 else toHeight) forward =
          s.inRange address fromHeight toHeight forward ++ beyond ∧
        ∀ e ∈ beyond.head?, Beyond fromHeight toHeight forward e.1 :=
      transfersFrom_eq (UInt32.not_le.mp hrange)
    have hinside (g : List (Height × Hash)) (hg : g ∈ gs) (e : Height × Hash) (he : e ∈ g) :
        ¬Beyond fromHeight toHeight forward e.1 := by
      obtain ⟨hlt, hle⟩ := hin e (List.mem_flatten.mpr ⟨g, hg, he⟩)
      rintro (⟨-, hout⟩ | ⟨-, hout⟩)
      · exact UInt32.not_lt.mpr hle hout
      · exact UInt32.not_le.mpr hlt hout
    rw [hcursor, ← heq]
    exact transfersLoop_groups hgs hhead rfl hinside hbeyond

/-- **What a page leaves is the range of the next page.** -/
private theorem flatten_rest {taken rest : List (List (Height × Hash))} {e : Height × Hash}
    {l : List (Height × Hash)} (hgs : Groups Prod.fst (Precedes forward) (taken ++ rest))
    (heq : (taken ++ rest).flatten = s.inRange address fromHeight toHeight forward)
    (he : rest.flatten = e :: l) :
    (∀ a ∈ taken.flatten, Precedes forward a.1 e.1) ∧ rest.flatten =
      s.inRange address (if forward then e.1 - 1 else fromHeight) (if forward then toHeight else e.1)
        forward := by
  obtain ⟨hne, hconst, hordered⟩ := hgs
  obtain ⟨-, hrest, hacross⟩ := List.pairwise_append.mp hordered
  have hmem : e ∈ rest.flatten := he ▸ List.mem_cons_self
  obtain ⟨g, hg, heg⟩ := List.mem_flatten.mp hmem
  have hbefore (a : Height × Hash) (ha : a ∈ taken.flatten) : Precedes forward a.1 e.1 := by
    obtain ⟨g', hg', hag'⟩ := List.mem_flatten.mp ha
    exact hacross g' hg' g hg a hag' e heg
  have hafter (b : Height × Hash) (hb : b ∈ rest.flatten) : b.1 = e.1 ∨ Precedes forward e.1 b.1 := by
    rcases rest with _ | ⟨g₀, rest⟩
    · cases hb
    obtain ⟨e₀, g₀, rfl⟩ := List.exists_cons_of_ne_nil (hne g₀ (List.mem_append_right _ List.mem_cons_self))
    obtain ⟨rfl, -⟩ := List.cons.inj he
    rw [List.flatten_cons, List.mem_append] at hb
    rcases hb with hb | hb
    · exact .inl (hconst _ (List.mem_append_right _ List.mem_cons_self) b hb e₀ List.mem_cons_self)
    · obtain ⟨g', hg', hbg'⟩ := List.mem_flatten.mp hb
      exact .inr ((List.pairwise_cons.mp hrest).1 g' hg' e₀ List.mem_cons_self b hbg')
  have hin : fromHeight < e.1 ∧ e.1 ≤ toHeight := by
    have hin : e ∈ s.inRange address fromHeight toHeight forward := by
      rw [← heq, List.flatten_append]
      exact List.mem_append_right _ hmem
    exact (mem_inRange.mp hin).2
  refine ⟨hbefore, ?_⟩
  rw [← inRange_filter hin.1 hin.2, ← heq, List.flatten_append, List.filter_append]
  have htaken : taken.flatten.filter (fun a ↦ ¬Precedes forward a.1 e.1) = [] :=
    List.filter_eq_nil_iff.mpr fun a ha hnot ↦ of_decide_eq_true hnot (hbefore a ha)
  have hkept : rest.flatten.filter (fun a ↦ ¬Precedes forward a.1 e.1) = rest.flatten := by
    refine List.filter_eq_self.mpr fun b hb ↦ decide_eq_true ?_
    rcases hafter b hb with hsame | hbeyond
    · rw [hsame]
      exact fun hself ↦ precedes_asymm hself hself
    · exact precedes_asymm hbeyond
  rw [htaken, hkept, List.nil_append]

/-! ## What the history is -/

variable (s address fromHeight toHeight) in
/-- The recorded transactions of an address in a range of heights, with the transfers of the address. -/
def matching : List Api.Transaction :=
  (((s.indexes.records .transactions).toList.map fun e ↦ e.2.2).filter fun tx ↦
    (fromHeight < tx.blockHeight ∧ tx.blockHeight ≤ toHeight) ∧ tx.Mentions address).map (·.onlyOf address)

variable (s address fromHeight toHeight) in
/-- The outputs of an address that were opened in a range of heights, as transfers. -/
def opened : List Api.Transfer :=
  ((s.indexes.records .unlocked).toList.filter fun e ↦
    (fromHeight < (ofLex e.1).1 ∧ (ofLex e.1).1 ≤ toHeight) ∧ (address = "" ∨ e.2.address = address)).map
      fun e ↦ WalletNode.unlockedTransfer e.2

variable (s address fromHeight toHeight forward) in
/-- Blocks have each transaction of an address in a range of heights once, under the header of its block,
and are in the chosen order. -/
structure IsHistory (blocks : List Api.Block) : Prop where
  complete : (blocks.flatMap (·.transactions)).Perm (s.matching address fromHeight toHeight)
  grouped : ∀ b ∈ blocks, b.transactions ≠ [] ∧ s.readChain b.header.height = some b.header ∧
    ∀ tx ∈ b.transactions, tx.blockHeight = b.header.height
  ordered : (blocks.map (·.header.height)).Pairwise (Precedes forward)

variable {blocks : Blocks}

theorem Filled.mem_listed (h : s.Filled blocks) {e : Height × Hash} :
    e ∈ s.listed address ↔ ∃ tx ptx, s.indexes.get .transactions e.2 = some (tx, ptx) ∧
      ptx.blockHeight = e.1 ∧ ptx.Mentions address :=
  WalletDb.mem_listed.trans (h.chronicle.recorded.listed address e.1 e.2)

private theorem getTransaction_eq {tid : Hash} {tx : TransactionPrefix} {ptx : Api.Transaction}
    (h : s.indexes.get .transactions tid = some (tx, ptx)) : s.getTransaction tid = ptx := by
  rw [getTransaction, h]
  rfl

theorem Filled.getTransaction (h : s.Filled blocks) {e : Height × Hash} (he : e ∈ s.listed address) :
    ((s.getTransaction e.2).onlyOf address).blockHeight = e.1 := by
  obtain ⟨tx, ptx, hget, hheight, -⟩ := h.mem_listed.mp he
  rw [getTransaction_eq hget, ← hheight, Api.Transaction.onlyOf]
  split_ifs <;> rfl

/-- The blocks of listed transactions are on the chain, not above the tip. -/
theorem Filled.readChain (h : s.Filled blocks) {e : Height × Hash} (he : e ∈ s.listed address) :
    (∃ header, s.readChain e.1 = some header ∧ header.height = e.1) ∧ e.1 ≤ s.tipHeight := by
  obtain ⟨tx, ptx, hget, hheight, -⟩ := h.mem_listed.mp he
  obtain ⟨b, hb, heq⟩ := h.chronicle.recorded.height _ _ _ hget
  rw [hheight] at heq
  refine ⟨⟨b.2, ?_, ?_⟩, ?_⟩
  · rw [WalletDb.readChain, ← heq]
    exact h.synced.headers b hb
  · rw [h.heights b hb, heq]
  · have hlt := h.synced.stacked.height_lt hb
    rw [← h.synced.toNat_next, heq, UInt32.toNat_add] at hlt
    rw [UInt32.le_iff_toNat_le]
    change _ < (s.tipHeight.toNat + 1) % 2 ^ 32 at hlt
    have htip := s.tipHeight.toNat_lt
    omega

private theorem Filled.headed (h : s.Filled blocks) {gs : List (List (Height × Hash))}
    (heq : gs.flatten = s.inRange address fromHeight toHeight forward) : s.Headed gs := by
  intro g hg e he
  have hin : e ∈ s.inRange address fromHeight toHeight forward := by
    rw [← heq]
    exact List.mem_flatten.mpr ⟨g, hg, he⟩
  exact (h.readChain (mem_inRange.mp hin).1).1

private theorem Filled.complete (h : s.Filled blocks) :
    ((s.inRange address fromHeight toHeight forward).map fun e ↦
      (s.getTransaction e.2).onlyOf address).Perm (s.matching address fromHeight toHeight) := by
  set records := (s.indexes.records .transactions).toList.filter fun e ↦
    (fromHeight < e.2.2.blockHeight ∧ e.2.2.blockHeight ≤ toHeight) ∧ e.2.2.Mentions address with hrecords
  have hmatching : s.matching address fromHeight toHeight = records.map fun e ↦
      (s.getTransaction e.1).onlyOf address := by
    rw [matching, List.filter_map, List.map_map]
    refine List.map_congr_left fun e he ↦ ?_
    have hget : s.indexes.get .transactions e.1 = some e.2 := Table.mem_toList.mp (List.mem_filter.mp he).1
    rw [getTransaction_eq hget]
    rfl
  have hnodup : ((s.inRange address fromHeight toHeight forward).map Prod.snd).Nodup := by
    refine List.Nodup.map_on (fun a ha b hb hab ↦ ?_) ?_
    · refine Prod.ext ?_ hab
      rw [← h.getTransaction (mem_inRange.mp ha).1, hab, h.getTransaction (mem_inRange.mp hb).1]
    · rw [inRange]
      split_ifs
      · exact nodup_listed.filter _
      · exact List.nodup_reverse.mpr (nodup_listed.filter _)
  have hperm : ((s.inRange address fromHeight toHeight forward).map Prod.snd).Perm (records.map Prod.fst) := by
    refine (List.perm_ext_iff_of_nodup hnodup ?_).mpr fun tid ↦ ?_
    · exact ((Table.nodup_keys_toList (s.indexes.records .transactions)).sublist
        (List.filter_sublist.map _))
    · rw [List.mem_map, List.mem_map]
      constructor
      · rintro ⟨e, he, rfl⟩
        obtain ⟨he, hrange⟩ := mem_inRange.mp he
        obtain ⟨tx, ptx, hget, hheight, hmentions⟩ := h.mem_listed.mp he
        refine ⟨(e.2, tx, ptx), List.mem_filter.mpr ⟨Table.mem_toList.mpr hget, decide_eq_true ⟨?_, ?_⟩⟩, rfl⟩
        · rwa [hheight]
        · exact hmentions
      · rintro ⟨⟨tid, tx, ptx⟩, he, rfl⟩
        obtain ⟨hget, hin⟩ := List.mem_filter.mp he
        obtain ⟨hrange, hmentions⟩ := of_decide_eq_true hin
        exact ⟨(ptx.blockHeight, tid), mem_inRange.mpr
          ⟨h.mem_listed.mpr ⟨tx, ptx, Table.mem_toList.mp hget, rfl, hmentions⟩, hrange⟩, rfl⟩
  have hmap := hperm.map fun tid ↦ (s.getTransaction tid).onlyOf address
  rw [List.map_map, List.map_map] at hmap
  rw [hmatching]
  exact hmap

private theorem Filled.isHistory (h : s.Filled blocks) {gs : List (List (Height × Hash))}
    (hgs : Groups Prod.fst (Precedes forward) gs)
    (heq : gs.flatten = s.inRange address fromHeight toHeight forward) :
    s.IsHistory address fromHeight toHeight forward (gs.map (s.blockOf address)) := by
  have hlisted (g : List (Height × Hash)) (hg : g ∈ gs) (e : Height × Hash) (he : e ∈ g) :
      e ∈ s.listed address := by
    have hin : e ∈ s.inRange address fromHeight toHeight forward := by
      rw [← heq]
      exact List.mem_flatten.mpr ⟨g, hg, he⟩
    exact (mem_inRange.mp hin).1
  -- the header of a group is the one at the height of its transactions
  have hheader (g : List (Height × Hash)) (hg : g ∈ gs) (e : Height × Hash) (he : e ∈ g) :
      (s.blockOf address g).header.height = e.1 ∧
        s.readChain e.1 = some (s.blockOf address g).header := by
    obtain ⟨e₀, g, rfl⟩ := List.exists_cons_of_ne_nil (hgs.nonempty g hg)
    obtain ⟨⟨header, hread, hheight⟩, -⟩ := h.readChain (hlisted _ hg e₀ List.mem_cons_self)
    rw [hgs.const _ hg e he e₀ List.mem_cons_self, hread]
    simp [blockOf, hread, hheight]
  refine ⟨?_, ?_, ?_⟩
  · have hflat : (gs.map (s.blockOf address)).flatMap (·.transactions) =
        gs.flatten.map fun e ↦ (s.getTransaction e.2).onlyOf address := by
      rw [List.flatMap_map, List.map_flatten]
      rfl
    rw [hflat, heq]
    exact h.complete
  · intro b hb
    obtain ⟨g, hg, rfl⟩ := List.mem_map.mp hb
    obtain ⟨e, he⟩ := List.exists_mem_of_ne_nil g (hgs.nonempty g hg)
    obtain ⟨hheight, hread⟩ := hheader g hg e he
    refine ⟨by simpa [blockOf] using hgs.nonempty g hg, by rwa [hheight], fun tx htx ↦ ?_⟩
    obtain ⟨e', he', rfl⟩ := List.mem_map.mp htx
    rw [h.getTransaction (hlisted g hg e' he'), (hheader g hg e' he').1]
  · rw [List.map_map, List.pairwise_map]
    refine hgs.ordered.imp_of_mem fun {g g'} hg hg' hord ↦ ?_
    obtain ⟨e, he⟩ := List.exists_mem_of_ne_nil g (hgs.nonempty g hg)
    obtain ⟨e', he'⟩ := List.exists_mem_of_ne_nil g' (hgs.nonempty g' hg')
    change Precedes forward (s.blockOf address g).header.height (s.blockOf address g').header.height
    rw [(hheader g hg e he).1, (hheader g' hg' e' he').1]
    exact hord e he e' he'

end WalletDb

/-! ## Opened outputs -/

namespace WalletIndexes

variable {s : WalletIndexes}

private theorem between_eq_filter (t : Table HeAmGi Api.Output) (begin_ end_ : UInt32) :
    between t begin_ end_ =
      t.toList.filter fun e ↦ begin_ + 1 ≤ (ofLex e.1).1 ∧ (ofLex e.1).1 ≤ end_ := by
  have hsorted := (Std.ExtTreeMap.ordered_keys_toList (t := t)).filter
    fun e ↦ begin_ + 1 ≤ (ofLex e.1).1
  rw [between, takeWhile_eq_filter (hsorted.imp fun hab hle ↦ decide_eq_true
    (UInt32.le_trans (Table.fst_le_of_compare hab) (of_decide_eq_true hle))), List.filter_filter]
  refine List.filter_congr fun e _ ↦ ?_
  rw [← Bool.decide_and, decide_eq_decide, and_comm]

private theorem succ_le_iff {begin_ height : UInt32} (hbegin : begin_ ≠ 0xFFFFFFFF) :
    begin_ + 1 ≤ height ↔ begin_ < height := by
  have hlt : begin_.toNat < 0xFFFFFFFF := by
    have hlt := begin_.toNat_lt
    have hne : begin_.toNat ≠ (0xFFFFFFFF : UInt32).toNat := fun heq ↦ hbegin (UInt32.toNat_inj.mp heq)
    change _ ≠ 4294967295 at hne
    omega
  rw [UInt32.le_iff_toNat_le, UInt32.lt_iff_toNat_lt, UInt32.toNat_add]
  change (begin_.toNat + 1) % 2 ^ 32 ≤ _ ↔ _
  omega

/-- Every output is listed once that was opened in a range and belongs to an address. A range that begins
after the last height counts as one that begins before the first. -/
theorem OpenedOnce.apiGetUnlockedOutputs (h : OpenedOnce s) (address : String)
    (fromHeight toHeight : Height) :
    ∃ add, s.apiGetUnlockedOutputs address fromHeight toHeight = .ok add ∧
      (add.toList.map Prod.snd).Perm (((s.records .unlocked).toList.filter fun e ↦
        (fromHeight + 1 ≤ (ofLex e.1).1 ∧ (ofLex e.1).1 ≤ toHeight) ∧
          (address = "" ∨ e.2.address = address)).map Prod.snd) := by
  classical
  have hempty : (∅ : OutputMap).toList = [] := by
    refine List.eq_nil_iff_forall_not_mem.mpr fun p hp ↦ ?_
    cases (Std.ExtTreeMap.getElem?_empty).symm.trans (Table.mem_toList.mp hp)
  rw [WalletIndexes.apiGetUnlockedOutputs, readUnlockIndex]
  by_cases hrange : fromHeight ≠ 0xFFFFFFFF ∧ toHeight ≤ fromHeight
  · refine ⟨∅, if_pos hrange, ?_⟩
    rw [hempty, List.filter_eq_nil_iff.mpr]
    · exact List.Perm.refl _
    · intro e _ hin
      obtain ⟨⟨hle, hend⟩, -⟩ := of_decide_eq_true hin
      rw [succ_le_iff hrange.1] at hle
      exact UInt32.lt_irrefl _ (UInt32.lt_of_lt_of_le hle (UInt32.le_trans hend hrange.2))
  · rw [if_neg hrange]
    set listed : HeAmGi × Api.Output → Bool := fun e ↦ address = "" ∨ e.2.address = address with hlisted
    have hkeys : ((between (s.records .unlocked) fromHeight toHeight).map Prod.fst).Nodup := by
      rw [between_eq_filter]
      exact (Table.nodup_keys_toList _).sublist (List.filter_sublist.map _)
    set M : List (HeAmGi × Api.Output) → OutputMap → Prop := fun done add ↦
      (add.toList.map Prod.snd).Perm ((done.filter listed).map Prod.snd) ∧
        ∀ key, add[key]? ≠ none → ∃ e ∈ done, (ofLex e.1).2 = key with hM
    have hstep (done : List (HeAmGi × Api.Output)) (e : HeAmGi × Api.Output)
        (rest : List (HeAmGi × Api.Output)) (add : OutputMap)
        (hsplit : between (s.records .unlocked) fromHeight toHeight = done ++ e :: rest) (hdone : M done add) :
        ∃ add', addUnlocked address add e = .ok add' ∧ M (done ++ [e]) add' := by
      obtain ⟨hperm, hkeyed⟩ := hdone
      have hmem : e ∈ between (s.records .unlocked) fromHeight toHeight :=
        hsplit ▸ List.mem_append_right _ List.mem_cons_self
      have hget : s.get .unlocked e.1 = some e.2 := (mem_between hmem).1
      rw [addUnlocked, ensure_pos _ (h.globalIndex e.1 e.2 hget), ok_bind]
      by_cases haddress : address = "" ∨ e.2.address = address
      · -- the numbers of an output that was opened occur once
        have hfree : add[(ofLex e.1).2]? = none := by
          by_contra hne
          obtain ⟨e', he', hsame⟩ := hkeyed _ hne
          have hget' : s.get .unlocked e'.1 = some e'.2 :=
            (mem_between (hsplit ▸ List.mem_append_left _ he')).1
          obtain ⟨-, hheight⟩ := h.place (ofLex e.1).2 none none (ofLex e.1).1 (ofLex e'.1).1
            (by rw [keptAt]; change s.get .unlocked e.1 ≠ none; rw [hget]; exact Option.some_ne_none _)
            (by
              rw [keptAt, ← hsame]
              change s.get .unlocked e'.1 ≠ none
              rw [hget']
              exact Option.some_ne_none _)
          have hkey : e'.1 = e.1 := Prod.ext hheight.symm hsame
          rw [hsplit, List.map_append, List.map_cons] at hkeys
          refine (List.nodup_append'.mp hkeys).2.2 (List.mem_map.mpr ⟨e', he', rfl⟩) ?_
          rw [hkey]
          exact List.mem_cons_self
        refine ⟨add.insert (ofLex e.1).2 e.2, ?_, ?_, fun key hkey ↦ ?_⟩
        · rw [if_pos haddress, ensure_pos _ hfree]
          rfl
        · rw [List.filter_append, List.map_append, List.filter_cons_of_pos (p := listed) (decide_eq_true haddress)]
          refine ((Table.toList_insert_perm add (ofLex e.1).2 e.2).map _).trans ?_
          rw [Table.erase_of_get_eq_none hfree]
          exact (hperm.cons e.2).trans (List.perm_append_singleton _ _).symm
        · rw [Table.get_insert] at hkey
          split_ifs at hkey with hsame
          · exact ⟨e, List.mem_append_right _ List.mem_cons_self, hsame⟩
          · obtain ⟨e', he', heq⟩ := hkeyed key hkey
            exact ⟨e', List.mem_append_left _ he', heq⟩
      · refine ⟨add, if_neg haddress, ?_, fun key hkey ↦ ?_⟩
        · rw [List.filter_append, List.filter_cons_of_neg (p := listed) (by rwa [hlisted, decide_eq_true_iff])]
          rwa [List.filter_nil, List.append_nil]
        · obtain ⟨e', he', heq⟩ := hkeyed key hkey
          exact ⟨e', List.mem_append_left _ he', heq⟩
    obtain ⟨add, hadd, hperm, -⟩ := foldlM_completes M (f := addUnlocked address) (s := ∅)
      ⟨by rw [hempty]; exact List.Perm.refl _, fun key hkey ↦ absurd Std.ExtTreeMap.getElem?_empty hkey⟩ hstep
    refine ⟨add, hadd, hperm.trans (List.Perm.of_eq ?_)⟩
    rw [between_eq_filter, List.filter_filter]
    congr 1
    refine List.filter_congr fun e _ ↦ ?_
    rw [hlisted, ← Bool.decide_and, decide_eq_decide, and_comm]

end WalletIndexes

/-! ## Page after page -/

namespace WalletNode

open WalletDb (Blocks Precedes boundsOf)
open Api.GetTransfers

variable {env : BuildEnv} {w : History} {request : Request} {blocks : Blocks}

/-- The transactions that are not in a block are given out with the tip. -/
def poolOf (w : History) (request : Request) : List Api.Block :=
  let poolBlock := apiGetPoolAsHistory w request.address
  if (request.fromHeight < w.db.tipHeight ∧ w.db.tipHeight ≤ request.toHeight) ∧
      poolBlock.transactions ≠ [] then [poolBlock] else []

/-- The blocks in the chosen direction, with what is not in a block at the later end. -/
def arranged (forward : Bool) (history pool : List Api.Block) : List Api.Block :=
  if forward then history ++ pool else pool ++ history

/-- The pages together have the history of a range, and the outputs that were opened in it. -/
structure Exact (w : History) (request : Request) (responses : List Response) : Prop where
  blocks : ∃ history, w.db.IsHistory request.address request.fromHeight request.toHeight request.forward
    history ∧ responses.flatMap (·.blocks) = arranged request.forward history (poolOf w request)
  unlocked : (responses.flatMap (·.unlockedTransfers)).Perm
    (w.db.opened request.address request.fromHeight request.toHeight)

/-- What a page has: some of the groups in the range, and the outputs that were opened in the part of the
range that it has covered. -/
private theorem handleGetTransfers_groups (h : w.db.Filled blocks)
    (haddress : checkAddressInWalletOrThrow env w request.address = .ok ())
    {gs : List (List (Height × Hash))} (hgs : Groups Prod.fst (Precedes request.forward) gs)
    (heq : gs.flatten =
      w.db.inRange request.address request.fromHeight request.toHeight request.forward) :
    ∃ taken rest fromHeight toHeight response, gs = taken ++ rest ∧ (gs ≠ [] → taken ≠ []) ∧
      boundsOf request.fromHeight request.toHeight request.forward rest = (fromHeight, toHeight) ∧
      handleGetTransfers env w request = .ok response ∧
      response.blocks = arranged request.forward (taken.map (w.db.blockOf request.address))
        (poolOf w { request with fromHeight := fromHeight, toHeight := toHeight }) ∧
      response.unlockedTransfers.Perm ((((w.db.indexes.records .unlocked).toList.filter fun e ↦
        (fromHeight + 1 ≤ (ofLex e.1).1 ∧ (ofLex e.1).1 ≤ toHeight) ∧
          (request.address = "" ∨ e.2.address = request.address)).map Prod.snd).map unlockedTransfer) ∧
      response.nextFromHeight = (if request.forward then toHeight else request.fromHeight) ∧
      response.nextToHeight = (if request.forward then request.toHeight else fromHeight) := by
  obtain ⟨taken, rest, hsplit, hne, hpage⟩ := WalletDb.apiGetTransfers_groups
    request.desiredTransactionsCount.toNat hgs (h.headed heq) heq
  rcases hbounds : boundsOf request.fromHeight request.toHeight request.forward rest with
    ⟨fromHeight, toHeight⟩
  obtain ⟨add, hadd, hperm⟩ := h.chronicle.once.apiGetUnlockedOutputs request.address fromHeight
    toHeight
  rw [hbounds] at hpage
  set pool := poolOf w { request with fromHeight := fromHeight, toHeight := toHeight } with hpool
  refine ⟨taken, rest, fromHeight, toHeight,
    { blocks := arranged request.forward (taken.map (w.db.blockOf request.address)) pool
      unlockedTransfers := add.toList.map fun lou ↦ unlockedTransfer lou.2
      nextFromHeight := if request.forward then toHeight else request.fromHeight
      nextToHeight := if request.forward then request.toHeight else fromHeight },
    hsplit, hne, hbounds, ?_, rfl, ?_, rfl, rfl⟩
  · have hblocks : arranged request.forward (taken.map (w.db.blockOf request.address)) pool =
        if (fromHeight < w.db.tipHeight ∧ w.db.tipHeight ≤ toHeight) ∧
            (apiGetPoolAsHistory w request.address).transactions ≠ [] then
          if request.forward then taken.map (w.db.blockOf request.address) ++
            [apiGetPoolAsHistory w request.address]
          else apiGetPoolAsHistory w request.address :: taken.map (w.db.blockOf request.address)
        else taken.map (w.db.blockOf request.address) := by
      rw [hpool, arranged, poolOf]
      split_ifs <;> simp
    rw [hblocks, handleGetTransfers, haddress, ok_bind, hpage]
    dsimp only
    rw [hadd]
    rfl
  · rw [← Function.comp_def unlockedTransfer Prod.snd, ← List.map_map]
    exact hperm.map unlockedTransfer

private theorem opened_append {s : WalletDb} {address : String} {low middle high : Height}
    (hlow : low ≤ middle)
    (hhigh : middle ≤ high) :
    (s.opened address low middle ++ s.opened address middle high).Perm (s.opened address low high) := by
  set listed := (s.indexes.records .unlocked).toList with hlisted
  set belongs : HeAmGi × Api.Output → Prop := fun e ↦ address = "" ∨ e.2.address = address with hbelongs
  set all := listed.filter fun e ↦ (low < (ofLex e.1).1 ∧ (ofLex e.1).1 ≤ high) ∧ belongs e with hall
  have hbelow : all.filter (fun e ↦ (ofLex e.1).1 ≤ middle) =
      listed.filter fun e ↦ (low < (ofLex e.1).1 ∧ (ofLex e.1).1 ≤ middle) ∧ belongs e := by
    rw [hall, List.filter_filter]
    refine List.filter_congr fun e _ ↦ ?_
    rw [← Bool.decide_and, decide_eq_decide]
    exact ⟨fun h ↦ ⟨⟨h.2.1.1, h.1⟩, h.2.2⟩, fun h ↦ ⟨h.1.2, ⟨h.1.1, UInt32.le_trans h.1.2 hhigh⟩, h.2⟩⟩
  have habove : all.filter (fun e ↦ !decide ((ofLex e.1).1 ≤ middle)) =
      listed.filter fun e ↦ (middle < (ofLex e.1).1 ∧ (ofLex e.1).1 ≤ high) ∧ belongs e := by
    rw [hall, List.filter_filter]
    refine List.filter_congr fun e _ ↦ ?_
    rw [← decide_not, ← Bool.decide_and, decide_eq_decide, UInt32.not_le]
    exact ⟨fun h ↦ ⟨⟨h.1, h.2.1.2⟩, h.2.2⟩,
      fun h ↦ ⟨h.1.1, ⟨UInt32.lt_of_le_of_lt hlow h.1.1, h.1.2⟩, h.2⟩⟩
  have hsplit := List.filter_append_perm (fun e : HeAmGi × Api.Output ↦ (ofLex e.1).1 ≤ middle) all
  rw [hbelow, habove] at hsplit
  rw [WalletDb.opened, WalletDb.opened, WalletDb.opened, ← List.map_append]
  exact hsplit.map _

/-- A page leaves some of the groups, in a part of the range, to the next one. -/
structure Leaves (w : History) (request : Request) (gs : List (List (Height × Hash))) (response : Response)
    (next : Request) (rest : List (List (Height × Hash))) : Prop where
  address : next.address = request.address
  forward : next.forward = request.forward
  fromHeight : next.fromHeight ≠ 0xFFFFFFFF
  nonempty : next.fromHeight < next.toHeight
  fewer : next.toHeight.toNat - next.fromHeight.toNat < request.toHeight.toNat - request.fromHeight.toNat
  groups : Groups Prod.fst (Precedes request.forward) rest
  inRange : rest.flatten =
    w.db.inRange request.address next.fromHeight next.toHeight request.forward
  blocks : response.blocks ++
      arranged request.forward (rest.map (w.db.blockOf request.address)) (poolOf w next) =
    arranged request.forward (gs.map (w.db.blockOf request.address)) (poolOf w request)
  unlocked : (response.unlockedTransfers ++
      w.db.opened request.address next.fromHeight next.toHeight).Perm
    (w.db.opened request.address request.fromHeight request.toHeight)

/-- What is opened in a range that does not begin after the last height. -/
theorem filter_opened {s : WalletDb} {address : String} {low high : Height} (hlow : low ≠ 0xFFFFFFFF) :
    (((s.indexes.records .unlocked).toList.filter fun e ↦
      (low + 1 ≤ (ofLex e.1).1 ∧ (ofLex e.1).1 ≤ high) ∧
        (address = "" ∨ e.2.address = address)).map Prod.snd).map unlockedTransfer =
      s.opened address low high := by
  rw [List.map_map, WalletDb.opened]
  congr 1
  refine List.filter_congr fun e _ ↦ ?_
  rw [decide_eq_decide, WalletIndexes.succ_le_iff hlow]

theorem ne_max_of_lt {low high : Height} (h : low < high) : low ≠ 0xFFFFFFFF := by
  rintro rfl
  have hle := high.toNat_lt
  rw [UInt32.lt_iff_toNat_lt] at h
  change 4294967295 < _ at h
  omega

section

variable {taken rest : List (List (Height × Hash))} {first middle : Height} {response : Response}

private theorem leaves_forward (hforward : request.forward = true) (hfirst : request.fromHeight < first)
    (hlow : first < middle) (hhigh : middle ≤ request.toHeight) (htip : middle ≤ w.db.tipHeight)
    (hgroups : Groups Prod.fst (Precedes request.forward) rest)
    (hrest : rest.flatten =
      w.db.inRange request.address (middle - 1) request.toHeight request.forward)
    (hblocks : response.blocks = arranged request.forward (taken.map (w.db.blockOf request.address))
      (poolOf w { request with toHeight := middle - 1 }))
    (hunlocked : response.unlockedTransfers.Perm
      (w.db.opened request.address request.fromHeight (middle - 1))) :
    Leaves w request (taken ++ rest) response { request with fromHeight := middle - 1 } rest := by
  have hsub : (middle - 1).toNat = middle.toNat - 1 := by
    refine UInt32.toNat_sub_of_le _ _ (UInt32.le_iff_toNat_le.mpr ?_)
    exact Nat.one_le_of_lt (UInt32.lt_iff_toNat_lt.mp hlow)
  rw [UInt32.lt_iff_toNat_lt] at hfirst hlow
  rw [UInt32.le_iff_toNat_le] at hhigh htip
  have hnext : middle - 1 < request.toHeight := by
    rw [UInt32.lt_iff_toNat_lt, hsub]
    omega
  -- the tip is not in the range of this page, so that it has nothing that is not in a block
  have hbelow : ¬w.db.tipHeight ≤ middle - 1 := by
    rw [UInt32.le_iff_toNat_le, hsub]
    omega
  have hpool : poolOf w { request with toHeight := middle - 1 } = [] :=
    if_neg fun hp ↦ hbelow hp.1.2
  have htip : middle - 1 < w.db.tipHeight ↔ request.fromHeight < w.db.tipHeight := by
    rw [UInt32.lt_iff_toNat_lt, UInt32.lt_iff_toNat_lt, hsub]
    omega
  have hsame : poolOf w { request with fromHeight := middle - 1 } = poolOf w request := by
    simp only [poolOf, htip]
  refine ⟨rfl, rfl, ne_max_of_lt hnext, hnext, ?_, hgroups, hrest, ?_, ?_⟩
  · dsimp only
    rw [hsub]
    omega
  · rw [hblocks, hpool, hsame, hforward, arranged, arranged, arranged]
    simp
  · refine (hunlocked.append_right _).trans (opened_append ?_ (UInt32.le_of_lt hnext))
    rw [UInt32.le_iff_toNat_le, hsub]
    omega

private theorem leaves_backward (hforward : ¬request.forward = true)
    (hfrom : request.fromHeight ≠ 0xFFFFFFFF)
    (hlow : request.fromHeight < middle) (hhigh : middle < request.toHeight)
    (htip : middle < w.db.tipHeight) (hgroups : Groups Prod.fst (Precedes request.forward) rest)
    (hrest : rest.flatten =
      w.db.inRange request.address request.fromHeight middle request.forward)
    (hblocks : response.blocks = arranged request.forward (taken.map (w.db.blockOf request.address))
      (poolOf w { request with fromHeight := middle }))
    (hunlocked : response.unlockedTransfers.Perm
      (w.db.opened request.address middle request.toHeight)) :
    Leaves w request (taken ++ rest) response { request with toHeight := middle } rest := by
  -- the tip is in the range of this page if it is in the range of the request
  have hpool : poolOf w { request with fromHeight := middle } = poolOf w request := by
    have hbelow : middle < w.db.tipHeight ↔ request.fromHeight < w.db.tipHeight :=
      iff_of_true htip (UInt32.lt_trans hlow htip)
    simp only [poolOf, hbelow]
  have hnone : poolOf w { request with toHeight := middle } = [] :=
    if_neg fun hp ↦ UInt32.not_le.mpr htip hp.1.2
  refine ⟨rfl, rfl, hfrom, hlow, ?_, hgroups, hrest, ?_, ?_⟩
  · rw [UInt32.lt_iff_toNat_lt] at hlow hhigh
    dsimp only
    omega
  · rw [hblocks, hpool, hnone, arranged, arranged, arranged, if_neg hforward, if_neg hforward,
      if_neg hforward]
    simp
  · exact (hunlocked.append_right _).trans (List.perm_append_comm.trans
      (opened_append (UInt32.le_of_lt hlow) (UInt32.le_of_lt hhigh)))

end

private theorem handleGetTransfers_cases (h : w.db.Filled blocks)
    (haddress : checkAddressInWalletOrThrow env w request.address = .ok ())
    (hfrom : request.fromHeight ≠ 0xFFFFFFFF) {gs : List (List (Height × Hash))}
    (hgs : Groups Prod.fst (Precedes request.forward) gs)
    (heq : gs.flatten =
      w.db.inRange request.address request.fromHeight request.toHeight request.forward) :
    ∃ response, handleGetTransfers env w request = .ok response ∧
      (((nextRequest request response).toHeight ≤ (nextRequest request response).fromHeight ∧
          response.blocks =
            arranged request.forward (gs.map (w.db.blockOf request.address)) (poolOf w request) ∧
          response.unlockedTransfers.Perm
            (w.db.opened request.address request.fromHeight request.toHeight)) ∨
        ∃ rest, Leaves w request gs response (nextRequest request response) rest) := by
  obtain ⟨taken, rest, fromHeight, toHeight, response, rfl, hne, hbounds, hhandle, hblocks, hunlocked,
    hnextFrom, hnextTo⟩ := handleGetTransfers_groups h haddress hgs heq
  refine ⟨response, hhandle, ?_⟩
  rw [boundsOf] at hbounds
  rcases hrest : rest.flatten with _ | ⟨e, l⟩
  · -- nothing is left
    rw [hrest] at hbounds
    obtain ⟨rfl, rfl⟩ := Prod.mk.inj hbounds
    have hnil : rest = [] := by
      rcases rest with _ | ⟨g, rest⟩
      · rfl
      · have hg := hgs.nonempty g (List.mem_append_right _ List.mem_cons_self)
        rw [List.flatten_cons, List.append_eq_nil_iff] at hrest
        exact absurd hrest.1 hg
    subst hnil
    rw [List.append_nil] at hgs ⊢
    refine .inl ⟨?_, hblocks, ?_⟩
    · rw [nextRequest]
      split_ifs with hforward
      · rw [hnextFrom, if_pos hforward]
        exact UInt32.le_refl _
      · rw [hnextTo, if_neg hforward]
        exact UInt32.le_refl _
    · rwa [filter_opened hfrom] at hunlocked
  · rw [hrest] at hbounds
    obtain ⟨hbefore, hflat⟩ := WalletDb.flatten_rest hgs heq hrest
    -- heights in the groups are in the range and not above the tip
    have hin (a : Height × Hash) (ha : a ∈ (taken ++ rest).flatten) :
        (request.fromHeight < a.1 ∧ a.1 ≤ request.toHeight) ∧ a.1 ≤ w.db.tipHeight := by
      rw [heq, WalletDb.mem_inRange] at ha
      exact ⟨ha.2, (h.readChain ha.1).2⟩
    have he : e ∈ (taken ++ rest).flatten := by
      rw [List.flatten_append, hrest]
      exact List.mem_append_right _ List.mem_cons_self
    obtain ⟨⟨hlow, hhigh⟩, htip⟩ := hin e he
    obtain ⟨a, ha⟩ : ∃ a, a ∈ taken.flatten := by
      have hne := hne fun hnil ↦ by rw [hnil] at he; cases he
      obtain ⟨g, hg⟩ := List.exists_mem_of_ne_nil taken hne
      obtain ⟨a, ha⟩ := List.exists_mem_of_ne_nil g (hgs.nonempty g (List.mem_append_left _ hg))
      exact ⟨a, List.mem_flatten.mpr ⟨g, hg, ha⟩⟩
    have hprecedes := hbefore a ha
    obtain ⟨⟨halow, hahigh⟩, hatip⟩ := hin a (by
      rw [List.flatten_append]
      exact List.mem_append_left _ ha)
    have hgroups : Groups Prod.fst (Precedes request.forward) rest :=
      ⟨fun g hg ↦ hgs.nonempty g (List.mem_append_right _ hg),
        fun g hg ↦ hgs.const g (List.mem_append_right _ hg), (List.pairwise_append.mp hgs.ordered).2.1⟩
    refine .inr ⟨rest, ?_⟩
    rw [nextRequest]
    by_cases hforward : request.forward
    · rw [if_pos hforward] at hnextFrom hflat ⊢
      rw [if_pos hforward] at hflat
      dsimp only at hbounds
      rw [if_pos hforward, if_pos hforward, Prod.mk.injEq] at hbounds
      obtain ⟨rfl, rfl⟩ := hbounds
      rw [hnextFrom]
      rw [Precedes, if_pos hforward] at hprecedes
      rw [filter_opened hfrom] at hunlocked
      exact leaves_forward hforward halow hprecedes hhigh htip hgroups hflat hblocks hunlocked
    · rw [if_neg hforward] at hnextTo hflat ⊢
      rw [if_neg hforward] at hflat
      dsimp only at hbounds
      rw [if_neg hforward, if_neg hforward, Prod.mk.injEq] at hbounds
      obtain ⟨rfl, rfl⟩ := hbounds
      rw [hnextTo]
      rw [Precedes, if_neg hforward] at hprecedes
      rw [filter_opened (ne_max_of_lt hprecedes)] at hunlocked
      exact leaves_backward hforward hfrom hlow (UInt32.lt_of_lt_of_le hprecedes hahigh)
        (UInt32.lt_of_lt_of_le hprecedes hatip) hgroups hflat hblocks hunlocked

/-- **Run lemma.** The pages together have all groups of a range that does not begin after the last
height. -/
private theorem getAllTransfers_groups (h : w.db.Filled blocks)
    (haddress : checkAddressInWalletOrThrow env w request.address = .ok ())
    (hfrom : request.fromHeight ≠ 0xFFFFFFFF) {gs : List (List (Height × Hash))}
    (hgs : Groups Prod.fst (Precedes request.forward) gs)
    (heq : gs.flatten =
      w.db.inRange request.address request.fromHeight request.toHeight request.forward)
    {pages : ℕ} (hpages : request.toHeight.toNat - request.fromHeight.toNat < pages) :
    ∃ responses, getAllTransfers env w pages request = .ok responses ∧
      responses.flatMap (·.blocks) =
        arranged request.forward (gs.map (w.db.blockOf request.address)) (poolOf w request) ∧
      (responses.flatMap (·.unlockedTransfers)).Perm
        (w.db.opened request.address request.fromHeight request.toHeight) := by
  induction pages generalizing request gs with
  | zero => exact absurd hpages (Nat.not_lt_zero _)
  | succ pages ih =>
    obtain ⟨response, hhandle, hpage⟩ := handleGetTransfers_cases h haddress hfrom hgs heq
    rw [getAllTransfers, hhandle, ok_bind]
    rcases hpage with ⟨hlast, hblocks, hunlocked⟩ | ⟨rest, hleaves⟩
    · refine ⟨[response], if_pos hlast, ?_, ?_⟩
      · rwa [List.flatMap_singleton]
      · rwa [List.flatMap_singleton]
    · obtain ⟨hsame, hforward, hnext, hnonempty, hfewer, hgroups, hrest, hblocks, hunlocked⟩ := hleaves
      dsimp only
      set next := nextRequest request response with hdef
      rw [if_neg (UInt32.not_le.mpr hnonempty)]
      obtain ⟨responses, hall, hallBlocks, hallUnlocked⟩ := @ih next (by rwa [hsame]) hnext rest
        (by rwa [hforward]) (by rwa [hsame, hforward]) (by omega)
      rw [hsame, hforward] at hallBlocks
      rw [hsame] at hallUnlocked
      refine ⟨response :: responses, ?_, ?_, ?_⟩
      · rw [hall]
        rfl
      · rw [List.flatMap_cons, hallBlocks, hblocks]
      · rw [List.flatMap_cons]
        exact (hallUnlocked.append_left _).trans hunlocked

/-- A range that begins after the last height has nothing in it, but is answered with what was opened from
the first height on. -/
private theorem getAllTransfers_last (h : w.db.Filled blocks)
    (haddress : checkAddressInWalletOrThrow env w request.address = .ok ())
    (hfrom : request.fromHeight = 0xFFFFFFFF) {pages : ℕ} (hpages : 0 < pages) :
    ∃ response, getAllTransfers env w pages request = .ok [response] ∧ response.blocks = [] ∧
      response.unlockedTransfers.Perm ((((w.db.indexes.records .unlocked).toList.filter fun e ↦
        (ofLex e.1).1 ≤ request.toHeight ∧
          (request.address = "" ∨ e.2.address = request.address)).map Prod.snd).map unlockedTransfer) := by
  have hnone (height : Height) : ¬request.fromHeight < height := fun hlt ↦ ne_max_of_lt hlt hfrom
  obtain ⟨gs, hgs, heq⟩ : ∃ gs, Groups Prod.fst (Precedes request.forward) gs ∧ gs.flatten =
      w.db.inRange request.address request.fromHeight request.toHeight request.forward :=
    WalletDb.exists_groups_inRange
  have hnil : gs = [] := by
    rcases gs with _ | ⟨g, gs⟩
    · rfl
    · obtain ⟨e, he⟩ := List.exists_mem_of_ne_nil g (hgs.nonempty g List.mem_cons_self)
      have hin : e ∈ (g :: gs).flatten := List.mem_flatten.mpr ⟨g, List.mem_cons_self, he⟩
      rw [heq, WalletDb.mem_inRange] at hin
      exact absurd hin.2.1 (hnone e.1)
  subst hnil
  obtain ⟨taken, rest, fromHeight, toHeight, response, hsplit, -, hbounds, hhandle, hblocks, hunlocked,
    hnextFrom, hnextTo⟩ := handleGetTransfers_groups h haddress hgs heq
  obtain ⟨rfl, rfl⟩ := List.append_eq_nil_iff.mp hsplit.symm
  obtain ⟨rfl, rfl⟩ := Prod.mk.inj hbounds
  have hpool : poolOf w request = [] := if_neg fun hp ↦ hnone _ hp.1.1
  obtain ⟨pages, rfl⟩ := Nat.exists_eq_succ_of_ne_zero hpages.ne'
  refine ⟨response, ?_, ?_, ?_⟩
  · have hlast : (nextRequest request response).toHeight ≤ (nextRequest request response).fromHeight := by
      rw [nextRequest]
      split_ifs with hforward
      · rw [hnextFrom, if_pos hforward]
        exact UInt32.le_refl _
      · rw [hnextTo, if_neg hforward]
        exact UInt32.le_refl _
    rw [getAllTransfers, hhandle, ok_bind]
    exact if_pos hlast
  · rw [hblocks, arranged, hpool]
    split_ifs <;> rfl
  · have hall (e : HeAmGi × Api.Output) : ((request.fromHeight + 1 ≤ (ofLex e.1).1 ∧
        (ofLex e.1).1 ≤ request.toHeight) ∧ (request.address = "" ∨ e.2.address = request.address)) ↔
        ((ofLex e.1).1 ≤ request.toHeight ∧
          (request.address = "" ∨ e.2.address = request.address)) := by
      rw [hfrom]
      exact and_congr_left' (and_iff_right (UInt32.le_iff_toNat_le.mpr (Nat.zero_le _)))
    simpa only [hall] using hunlocked

/-- **Paging is exact, except after the last height.** A client that asks for the history of a range page
after page gets it once and in order, with what was opened in the range. Only for a range that begins after
the last height of all, which is empty, it is told of what was opened before the end of the range. -/
theorem getAllTransfers_exact_iff {genesis : Api.BlockHeader} (hgenesis : genesis.height = 0)
    {stateEnv : WalletStateEnv} {keys : WalletKeys}
    (h : Reaches (WalletDb.step stateEnv keys genesis) WalletDb.Honest (· = {}) w.db)
    (haddress : checkAddressInWalletOrThrow env w request.address = .ok ()) {pages : ℕ}
    (hpages : request.toHeight.toNat - request.fromHeight.toNat < pages) :
    (∃ responses, getAllTransfers env w pages request = .ok responses ∧ Exact w request responses) ↔
      (request.fromHeight = 0xFFFFFFFF → ∀ key output, w.db.indexes.get .unlocked key = some output →
        request.address = "" ∨ output.address = request.address → request.toHeight < (ofLex key).1) := by
  obtain ⟨blocks, hfilled⟩ := WalletDb.filled_of_reaches stateEnv keys hgenesis h
  by_cases hfrom : request.fromHeight = 0xFFFFFFFF
  · obtain ⟨response, hall, hblocks, hunlocked⟩ :=
      getAllTransfers_last hfilled haddress hfrom (Nat.zero_lt_of_lt hpages)
    have hnone (height : Height) : ¬request.fromHeight < height := fun hlt ↦ ne_max_of_lt hlt hfrom
    have hopened : w.db.opened request.address request.fromHeight request.toHeight = [] := by
      rw [WalletDb.opened, List.map_eq_nil_iff, List.filter_eq_nil_iff]
      exact fun e _ hin ↦ hnone _ (of_decide_eq_true hin).1.1
    constructor
    · rintro ⟨responses, heq, hexact⟩ - key output hget haddr
      obtain rfl := Except.ok.inj (hall.symm.trans heq)
      have hempty := hexact.unlocked
      rw [List.flatMap_singleton, hopened] at hempty
      have hnil := hunlocked.symm.trans hempty
      rw [List.perm_nil, List.map_eq_nil_iff, List.map_eq_nil_iff, List.filter_eq_nil_iff] at hnil
      have hnot := hnil (key, output) (Table.mem_toList.mpr hget)
      rw [decide_eq_true_iff] at hnot
      exact UInt32.not_le.mp fun hle ↦ hnot ⟨hle, haddr⟩
    · intro hcond
      refine ⟨[response], hall, ⟨[], ?_, ?_⟩, ?_⟩
      · refine ⟨?_, nofun, .nil⟩
        have hmatching : w.db.matching request.address request.fromHeight request.toHeight = [] := by
          rw [WalletDb.matching, List.map_eq_nil_iff, List.filter_eq_nil_iff]
          exact fun tx _ hin ↦ hnone _ (of_decide_eq_true hin).1.1
        rw [hmatching]
        exact List.Perm.refl _
      · have hpool : poolOf w request = [] := if_neg fun hp ↦ hnone _ hp.1.1
        rw [List.flatMap_singleton, hblocks, arranged, hpool]
        split_ifs <;> rfl
      · rw [List.flatMap_singleton, hopened]
        refine hunlocked.trans (List.Perm.of_eq ?_)
        rw [List.map_eq_nil_iff, List.map_eq_nil_iff, List.filter_eq_nil_iff]
        intro e he hin
        obtain ⟨hle, haddr⟩ := of_decide_eq_true hin
        exact UInt32.not_le.mpr (hcond hfrom e.1 e.2 (Table.mem_toList.mp he) haddr) hle
  · refine iff_of_true ?_ fun hlast ↦ absurd hlast hfrom
    obtain ⟨gs, hgs, heq⟩ : ∃ gs, Groups Prod.fst (Precedes request.forward) gs ∧ gs.flatten =
        w.db.inRange request.address request.fromHeight request.toHeight request.forward :=
      WalletDb.exists_groups_inRange
    obtain ⟨responses, hall, hblocks, hunlocked⟩ :=
      getAllTransfers_groups hfilled haddress hfrom hgs heq hpages
    exact ⟨responses, hall, ⟨_, hfilled.isHistory hgs heq, hblocks⟩, hunlocked⟩

/-! ## A sample -/

section Sample

open WalletState (sampleStateEnv sampleKeys sampleSpendCrypto sampleReceipt)
open UnspentSelector (sampleBuildEnv)

/-- A block that pays five millions to the sample wallet. -/
def samplePayment (txKey : BitVec 256) (unlockTime : UnlockMoment) : PreparedWalletBlock where
  timestamp := 0
  transactionHashes := [txKey]
  baseTransaction := .prepare sampleSpendCrypto
    { sampleReceipt txKey unlockTime with
      inputs := []
      outputs := [{ amount := 5000000, target := .keyOutput { key := 107 + txKey } }] } 100
  baseTransactionHash := txKey
  transactions := []

/-- A payment that is open from its own block on, and one that was never locked. -/
def samplePayments : List WalletDb.Event :=
  [.fix, .block { height := 1 } (some (samplePayment 1 1, [[0]])),
    .block { height := 2 } (some (samplePayment 2 0, [[1]]))]

/-- What is asked of a block, by a look at the lists. -/
def sampleHonest (s : WalletDb) : WalletDb.Event → Bool
  | .block header (some (pb, globalIndices)) =>
    let numbers := WalletDb.blockNumbers pb globalIndices
    let unlisted (t : Table HeAmGi Api.Output) := t.keys.all fun k ↦ decide ((ofLex k).2 ∉ numbers)
    decide (s.tipHeight + 1 < 0xFFFFFFFF) && decide (header.height = s.tipHeight + 1) &&
      decide numbers.Nodup && unlisted (s.indexes.records .unlocked) &&
      unlisted (s.indexes.records (.locked false)) && unlisted (s.indexes.records (.locked true))
  | .block _ none => false
  | _ => true

private theorem honest_of_sampleHonest {s : WalletDb} {e : WalletDb.Event} (h : sampleHonest s e = true) :
    s.Honest e := by
  rcases e with _ | _ | _ | ⟨header, _ | ⟨pb, globalIndices⟩⟩
  · trivial
  · trivial
  · trivial
  · cases h
  · simp only [sampleHonest, Bool.and_eq_true, decide_eq_true_iff] at h
    obtain ⟨⟨⟨⟨⟨hroom, hheight⟩, hnodup⟩, hunlocked⟩, htime⟩, hblock⟩ := h
    refine ⟨hroom, hheight, ?_⟩
    intro _ hp
    obtain rfl := Option.some.inj hp
    refine ⟨hnodup, fun p hp ⟨x, t, hx⟩ ↦ ?_⟩
    have hkey {table : Table HeAmGi Api.Output}
        (hall : (table.keys.all fun k ↦ decide ((ofLex k).2 ∉ WalletDb.blockNumbers pb globalIndices)) = true)
        (hk : table[(toLex (t, p) : HeAmGi)]? ≠ none) : False := by
      refine of_decide_eq_true (List.all_eq_true.mp hall (toLex (t, p)) ?_) hp
      rw [Std.ExtTreeMap.mem_keys, Std.ExtTreeMap.mem_iff_isSome_getElem?, Option.isSome_iff_ne_none]
      exact hk
    rcases x with _ | _ | _
    · exact hkey hunlocked hx
    · exact hkey htime hx
    · exact hkey hblock hx

/-- A run of the sample wallet. -/
def sampleRun (events : List WalletDb.Event) : Except Fault WalletDb :=
  events.foldlM (fun s e ↦ do
    ensure (sampleHonest s e = true) .invariantViolated
    WalletDb.step sampleStateEnv sampleKeys {} s e) {}

private theorem reaches_of_sampleRun {events : List WalletDb.Event} {s : WalletDb}
    (h : sampleRun events = .ok s) :
    Reaches (WalletDb.step sampleStateEnv sampleKeys {}) WalletDb.Honest (· = {}) s := by
  refine foldlM_ok (fun _ s ↦ Reaches (WalletDb.step sampleStateEnv sampleKeys {}) WalletDb.Honest
    (· = {}) s) h (.start rfl) fun _ e _ s₁ s₂ _ hs₁ hstep ↦ ?_
  obtain ⟨_, hhonest, hstep⟩ := bind_eq_ok.mp hstep
  exact hs₁.next (honest_of_sampleHonest (ensure_eq_ok.mp hhonest)) hstep

/-- The sample wallet with the payments in its database. -/
def sampleHistory (s : WalletDb) : History := ⟨s, {}, sampleKeys⟩

/-- A request for pages of a block each. -/
def sampleRequest (fromHeight : Height) (forward : Bool) : Api.GetTransfers.Request where
  fromHeight := fromHeight
  forward := forward
  desiredTransactionsCount := 1

/-- The blocks are given out in two pages, the later one first. -/
theorem getAllTransfers_exact_iff_sample : ∃ s, sampleRun samplePayments = .ok s ∧ ∃ responses,
    getAllTransfers sampleBuildEnv (sampleHistory s) 4294967296 (sampleRequest 0 false) = .ok responses ∧
      Exact (sampleHistory s) (sampleRequest 0 false) responses := by
  obtain ⟨s, hs⟩ : ∃ s, sampleRun samplePayments = .ok s := by
    have hsome : (sampleRun samplePayments).toOption.isSome := by decide +kernel
    obtain ⟨s, hs⟩ := Option.isSome_iff_exists.mp hsome
    exact ⟨s, toOption_eq_some.mp hs⟩
  refine ⟨s, hs, (getAllTransfers_exact_iff rfl (reaches_of_sampleRun hs) rfl (by decide)).mpr ?_⟩
  exact fun heq ↦ absurd heq (by decide)

/-- After the last height of all there is nothing, but the payment that was opened is listed. -/
theorem getAllTransfers_not_exact : ∃ s, sampleRun samplePayments = .ok s ∧ ∀ pages responses,
    getAllTransfers sampleBuildEnv (sampleHistory s) pages (sampleRequest 0xFFFFFFFF true) =
        .ok responses →
      responses.flatMap (·.blocks) = [] ∧
      (responses.flatMap (·.unlockedTransfers)).map (·.amount) = [5000000] ∧
      ¬Exact (sampleHistory s) (sampleRequest 0xFFFFFFFF true) responses := by
  obtain ⟨s, hs, response, hresponse, hlast, hblocks, hamounts⟩ : ∃ s ∈ (sampleRun samplePayments).toOption,
      ∃ response ∈ (handleGetTransfers sampleBuildEnv (sampleHistory s)
        (sampleRequest 0xFFFFFFFF true)).toOption,
        (nextRequest (sampleRequest 0xFFFFFFFF true) response).toHeight ≤
          (nextRequest (sampleRequest 0xFFFFFFFF true) response).fromHeight ∧
        response.blocks = [] ∧ response.unlockedTransfers.map (·.amount) = [5000000] := by
    decide +kernel
  refine ⟨s, toOption_eq_some.mp hs, fun pages responses hall ↦ ?_⟩
  rcases pages with _ | pages
  · cases hall
  rw [getAllTransfers, toOption_eq_some.mp hresponse, ok_bind] at hall
  obtain rfl : [response] = responses := Except.ok.inj ((if_pos hlast).symm.trans hall)
  rw [List.flatMap_singleton, List.flatMap_singleton]
  refine ⟨hblocks, hamounts, fun hexact ↦ ?_⟩
  have hopened : (sampleHistory s).db.opened "" 0xFFFFFFFF 0xFFFFFFFF = [] := by
    rw [WalletDb.opened, List.map_eq_nil_iff, List.filter_eq_nil_iff]
    exact fun e _ hin ↦ ne_max_of_lt (of_decide_eq_true hin).1.1 rfl
  have hperm := hexact.unlocked
  rw [List.flatMap_singleton] at hperm
  change response.unlockedTransfers.Perm ((sampleHistory s).db.opened "" 0xFFFFFFFF 0xFFFFFFFF) at hperm
  rw [hopened, List.perm_nil] at hperm
  rw [hperm] at hamounts
  cases hamounts

end Sample

end WalletNode

end CryoNero
