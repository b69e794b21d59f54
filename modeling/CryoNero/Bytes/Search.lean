import CryoNero.Core.BinaryArray
import CryoNero.Core.Redo

/-!
# The search for a pattern

In every turn the search goes on behind a place where the first byte of the pattern stands, but the length
that is left to search is counted from that place. So it grows by one with every false start, and after `k`
of them the search may read `k` bytes beyond the end. An occurrence is found before this matters. Without
one, the search has to stop at a place where the pattern does not fit any more, and does not fit either in
what the false starts have added.
-/

namespace CryoNero

open Seria Store

private theorem memchr_eq (data : Bytes) (c : UInt8) (count buf : ℕ) :
    memchr data c count buf =
      if c ∈ (data.drop buf).take count then .ok (some (buf + (data.drop buf).idxOf c))
      else if count ≤ (data.drop buf).length then .ok none else .error .outOfRange := by
  induction count generalizing buf with
  | zero => rw [List.take_zero, if_neg List.not_mem_nil, if_pos (Nat.zero_le _), memchr]
  | succ count ih =>
    rw [memchr]
    rcases hs : data.drop buf with _ | ⟨x, s⟩
    · have hread : readAt data buf = .error .outOfRange := by
        rw [readAt, List.getElem?_eq_none (List.drop_eq_nil_iff.mp hs)]
        rfl
      rw [hread, List.take_nil, if_neg List.not_mem_nil, List.length_nil, if_neg (by omega)]
      rfl
    · have hread : readAt data buf = .ok x := by
        rw [readAt_eq_ok, ← Nat.add_zero buf, ← List.getElem?_drop, hs]
        rfl
      have hdrop : data.drop (buf + 1) = s := by
        rw [← List.drop_drop, hs]
        rfl
      rw [hread, ok_bind, ih, hdrop, List.take_succ_cons, List.length_cons]
      by_cases hx : x = c
      · rw [if_pos hx, if_pos (hx ▸ List.mem_cons_self), hx, List.idxOf_cons_self]
        rfl
      · have hmem : c ∈ x :: s.take count ↔ c ∈ s.take count := by
          rw [List.mem_cons, or_iff_right (Ne.symm hx)]
        simp only [if_neg hx, hmem, List.idxOf_cons_ne s hx, Nat.succ_le_succ_iff]
        rw [Nat.add_right_comm, Nat.add_assoc]

namespace Common

/-- The first place at which a pattern occurs. -/
def FirstAt (pat data : Bytes) (i : ℕ) : Prop := pat <+: data.drop i ∧ ∀ k < i, ¬pat <+: data.drop k

/-- What a search should give. -/
def Found (pat data : Bytes) : Option ℕ → Prop
  | some i => FirstAt pat data i
  | none => ∀ i, ¬pat <+: data.drop i

/-- How often a byte stands where a pattern of `m` bytes still fits. -/
def falseStarts (c : UInt8) (m : ℕ) (s : Bytes) : ℕ := (s.take (s.length + 1 - m)).count c

/-- The end, where a pattern of `m` bytes does not fit any more. -/
def tail (m : ℕ) (s : Bytes) : Bytes := s.drop (s.length + 1 - m)

/-- The search stops before it leaves the data, which it does with the `k` false starts behind it. -/
def Stops (c : UInt8) (m k : ℕ) (s : Bytes) : Prop :=
  k + falseStarts c m s = 0 ∨ c ∈ tail m s ∧ k + falseStarts c m s ≤ (tail m s).idxOf c

instance (c : UInt8) (m k : ℕ) (s : Bytes) : Decidable (Stops c m k s) :=
  inferInstanceAs (Decidable (_ ∨ _))

variable {c : UInt8} {pat data : Bytes}

theorem prefix_head {s : Bytes} (h : c :: pat <+: s) : s.head? = some c := by
  obtain ⟨t, rfl⟩ := h
  rfl

private theorem not_prefix_of_not_mem {l s : Bytes} (hl : c ∉ l) {k : ℕ} (hk : k < l.length) :
    ¬c :: pat <+: (l ++ s).drop k := by
  intro h
  have hhead := prefix_head h
  rw [List.head?_drop, List.getElem?_append_left hk] at hhead
  exact hl (List.mem_of_getElem? hhead)

private theorem stops_iff_of_fits {l s : Bytes} {m k : ℕ} (hl : c ∉ l) (hfits : m ≤ s.length + 1) :
    Stops c m k (l ++ c :: s) ↔ Stops c m (k + 1) s := by
  have hlength : (l ++ c :: s).length + 1 - m = l.length + 1 + (s.length + 1 - m) := by
    rw [List.length_append, List.length_cons]
    omega
  have hstarts : falseStarts c m (l ++ c :: s) = 1 + falseStarts c m s := by
    rw [falseStarts, hlength, Nat.add_assoc, List.take_length_add_append, Nat.add_comm 1, List.take_succ_cons,
      List.count_append, List.count_eq_zero_of_not_mem hl, List.count_cons_self, falseStarts]
    omega
  have htail : tail m (l ++ c :: s) = tail m s := by
    rw [tail, hlength, Nat.add_assoc, List.drop_length_add_append, Nat.add_comm 1, List.drop_succ_cons, tail]
  rw [Stops, Stops, hstarts, htail, Nat.add_assoc]

private theorem stops_iff_of_tail {l s : Bytes} {m k : ℕ} (hl : c ∉ l) (hfits : s.length + 1 < m)
    (hk : m ≤ (l ++ c :: s).length + 1 ∨ k = 0) :
    Stops c m k (l ++ c :: s) ↔ (l ++ c :: s).length + k < l.length + m := by
  have hle : (l ++ c :: s).length + 1 - m ≤ l.length := by
    rw [List.length_append, List.length_cons]
    omega
  have hstarts : falseStarts c m (l ++ c :: s) = 0 := by
    rw [falseStarts, List.take_append_of_le_length hle]
    exact List.count_eq_zero_of_not_mem fun hmem ↦ hl (List.mem_of_mem_take hmem)
  have htail : tail m (l ++ c :: s) = l.drop ((l ++ c :: s).length + 1 - m) ++ c :: s := by
    rw [tail, List.drop_append_of_le_length hle]
  have hindex : (tail m (l ++ c :: s)).idxOf c = l.length - ((l ++ c :: s).length + 1 - m) := by
    rw [htail, List.idxOf_append_of_notMem fun hmem ↦ hl (List.mem_of_mem_drop hmem), List.idxOf_cons_self,
      List.length_drop, Nat.add_zero]
  have hmem : c ∈ tail m (l ++ c :: s) := by
    rw [htail]
    exact List.mem_append_right _ List.mem_cons_self
  rw [Stops, hstarts, and_iff_right hmem, hindex]
  rw [List.length_append, List.length_cons] at hk hle ⊢
  omega

private theorem stops_iff_of_not_mem {s : Bytes} {m k : ℕ} (hs : c ∉ s) : Stops c m k s ↔ k = 0 := by
  have hstarts : falseStarts c m s = 0 :=
    List.count_eq_zero_of_not_mem fun hmem ↦ hs (List.mem_of_mem_take hmem)
  have hmem : c ∉ tail m s := fun hmem ↦ hs (List.mem_of_mem_drop hmem)
  rw [Stops, hstarts, or_iff_left fun h ↦ hmem h.1, Nat.add_zero]

/-- **The loop**, in terms of what is left of the data: it finds the first occurrence, or stops, or leaves the
data. -/
private theorem slowMemmemFrom_eq {turns buf k : ℕ} (hle : buf ≤ data.length)
    (hk : pat.length + 1 ≤ (data.drop buf).length + 1 ∨ k = 0)
    (hturns : (data.drop buf).length < turns) :
    (∀ i, FirstAt (c :: pat) (data.drop buf) i →
      slowMemmemFrom data (c :: pat) turns buf ((data.drop buf).length + k) = .ok (some (buf + i))) ∧
    (Found (c :: pat) (data.drop buf) none →
      slowMemmemFrom data (c :: pat) turns buf ((data.drop buf).length + k) =
        if Stops c (pat.length + 1) k (data.drop buf) then .ok none else .error .outOfRange) := by
  induction turns generalizing buf k with
  | zero => exact absurd hturns (Nat.not_lt_zero _)
  | succ turns ih =>
    have hread : readAt (c :: pat) 0 = .ok c := rfl
    rw [slowMemmemFrom, hread]
    by_cases hc : c ∈ data.drop buf
    · obtain ⟨l, s, hs, hl⟩ := List.eq_append_cons_of_mem hc
      have hchr : memchr data c ((data.drop buf).length + k) buf = .ok (some (buf + l.length)) := by
        rw [memchr_eq, List.take_of_length_le (Nat.le_add_right _ _), if_pos hc, hs,
          List.idxOf_append_of_notMem hl, List.idxOf_cons_self, Nat.add_zero]
      have hpos : (data.drop buf).length + k ≠ 0 := by
        have := List.length_pos_of_mem hc
        omega
      rw [if_neg hpos, ok_bind, hchr, ok_bind]
      dsimp only
      rw [Nat.add_sub_cancel_left, List.length_cons]
      have hlength : (data.drop buf).length = l.length + 1 + s.length := by
        rw [hs, List.length_append, List.length_cons]
        omega
      have hdrop : data.drop (buf + l.length) = c :: s := by
        rw [← List.drop_drop, hs, List.drop_left]
      have hnext : data.drop (buf + l.length + 1) = s := by
        rw [← List.drop_drop, hdrop]
        rfl
      have hsize := congrArg List.length hdrop
      rw [List.length_drop, List.length_cons] at hsize
      -- no occurrence begins before the first byte does
      have hbefore (i : ℕ) (hi : i < l.length) : ¬c :: pat <+: (data.drop buf).drop i := by
        rw [hs]
        exact not_prefix_of_not_mem hl hi
      have hsame : (c :: s).take (pat.length + 1) = c :: pat ↔ c :: pat <+: c :: s := by
        rw [eq_comm]
        exact List.prefix_iff_eq_take.symm
      by_cases hfits : pat.length + 1 ≤ s.length + 1
      · rw [if_neg (by omega), copyFrom_of_le (by omega), ok_bind, hdrop]
        by_cases hocc : c :: pat <+: c :: s
        · -- the occurrence
          have hfirst : FirstAt (c :: pat) (data.drop buf) l.length := by
            refine ⟨?_, hbefore⟩
            rwa [hs, List.drop_left]
          rw [if_pos (hsame.mpr hocc)]
          refine ⟨fun i hi ↦ ?_, fun hnone ↦ absurd hfirst.1 (hnone _)⟩
          rcases Nat.lt_trichotomy i l.length with hlt | rfl | hgt
          · exact absurd hi.1 (hbefore i hlt)
          · rfl
          · exact absurd hfirst.1 (hi.2 _ hgt)
        · -- a false start
          rw [if_neg fun htake ↦ hocc (hsame.mp htake)]
          have hleft : (data.drop buf).length + k - l.length =
              (data.drop (buf + l.length + 1)).length + (k + 1) := by
            rw [hnext, hlength]
            omega
          obtain ⟨hsome, hnone⟩ := @ih (buf + l.length + 1) (k + 1) (by omega)
            (.inl (by rw [hnext]; exact hfits)) (by rw [hnext]; omega)
          rw [hleft]
          have hshift (i : ℕ) : (data.drop buf).drop (l.length + 1 + i) =
              (data.drop (buf + l.length + 1)).drop i := by
            rw [List.drop_drop, List.drop_drop, ← Nat.add_assoc, ← Nat.add_assoc]
          refine ⟨fun i hi ↦ ?_, fun hnot ↦ ?_⟩
          · have hgt : l.length < i := by
              rcases Nat.lt_trichotomy i l.length with hlt | rfl | hgt
              · exact absurd hi.1 (hbefore i hlt)
              · have hhere := hi.1
                rw [hs, List.drop_left] at hhere
                exact absurd hhere hocc
              · exact hgt
            obtain ⟨j, rfl⟩ : ∃ j, i = l.length + 1 + j := Nat.exists_eq_add_of_le hgt
            rw [hsome j ⟨?_, fun k hk ↦ ?_⟩]
            · rw [← Nat.add_assoc, ← Nat.add_assoc]
            · rw [← hshift]
              exact hi.1
            · rw [← hshift]
              exact hi.2 _ (by omega)
          · rw [hnone fun i ↦ ?_]
            · refine if_congr ?_ rfl rfl
              rw [hs, stops_iff_of_fits hl hfits, hnext]
            · rw [← hshift]
              exact hnot _
      · -- the pattern does not fit any more
        have hnothing (i : ℕ) : ¬c :: pat <+: (data.drop buf).drop i := by
          by_cases hi : i < l.length
          · exact hbefore i hi
          · intro hocc
            have hle := hocc.length_le
            rw [List.length_drop, List.length_cons] at hle
            omega
        refine ⟨fun i hi ↦ absurd hi.1 (hnothing i), fun _ ↦ ?_⟩
        have hstops := stops_iff_of_tail hl (k := k) (m := pat.length + 1) (s := s) (by omega)
          (by rw [← hs]; exact hk)
        rw [← hs] at hstops
        by_cases hend : (data.drop buf).length + k < l.length + (pat.length + 1)
        · rw [if_pos hend, if_pos (hstops.mpr hend)]
          rfl
        · have hover : ¬buf + l.length + (pat.length + 1) ≤ data.length := by omega
          rw [if_neg hend, if_neg fun h ↦ hend (hstops.mp h), copyFrom, ensure, if_neg hover]
          rfl
    · -- the first byte does not stand anywhere
      have hnothing (i : ℕ) : ¬c :: pat <+: (data.drop buf).drop i := by
        intro hocc
        have hmem := List.mem_of_mem_head? (prefix_head hocc)
        exact hc (List.mem_of_mem_drop hmem)
      refine ⟨fun i hi ↦ absurd hi.1 (hnothing i), fun _ ↦ ?_⟩
      have hchr : memchr data c ((data.drop buf).length + k) buf =
          if k = 0 then .ok none else .error .outOfRange := by
        rw [memchr_eq, if_neg fun h ↦ hc (List.mem_of_mem_take h)]
        exact if_congr (by omega) rfl rfl
      rw [ok_bind, hchr]
      by_cases hzero : k = 0
      · rw [if_pos hzero, if_pos ((stops_iff_of_not_mem hc).mpr hzero)]
        split_ifs <;> rfl
      · rw [if_neg hzero, if_neg fun h ↦ hzero ((stops_iff_of_not_mem hc).mp h), if_neg (by omega)]
        rfl

/-- The first place, found by looking at one place after the other. -/
theorem slowMemmem_eq_some_iff {i : ℕ} :
    CryoNero.slowMemmem (c :: pat) data = some i ↔ FirstAt (c :: pat) data i := by
  induction data generalizing i with
  | nil =>
    refine iff_of_false nofun fun h ↦ ?_
    have hocc := h.1
    rw [List.drop_nil] at hocc
    cases prefix_head hocc
  | cons b data ih =>
    rw [CryoNero.slowMemmem, if_neg (List.cons_ne_nil c pat)]
    by_cases hhere : c :: pat <+: b :: data
    · rw [if_pos (List.isPrefixOf_iff_prefix.mpr hhere), Option.some.injEq]
      constructor
      · rintro rfl
        exact ⟨hhere, fun k hk ↦ absurd hk (Nat.not_lt_zero k)⟩
      · intro h
        rcases i with _ | i
        · rfl
        · exact absurd hhere (h.2 0 (Nat.succ_pos i))
    · rw [if_neg fun h ↦ hhere (List.isPrefixOf_iff_prefix.mp h), Option.map_eq_some_iff]
      constructor
      · rintro ⟨j, hj, rfl⟩
        obtain ⟨hocc, hfirst⟩ := ih.mp hj
        refine ⟨hocc, fun k hk ↦ ?_⟩
        rcases k with _ | k
        · exact hhere
        · exact hfirst k (Nat.lt_of_succ_lt_succ hk)
      · intro h
        rcases i with _ | i
        · exact absurd h.1 hhere
        · exact ⟨i, ih.mpr ⟨h.1, fun k hk ↦ h.2 (k + 1) (Nat.succ_lt_succ hk)⟩, rfl⟩

/-- **The search is right exactly when it stops.** It gives the first occurrence, or finds that there is none,
without reading beyond the data, if and only if the pattern occurs or the false starts do not lead out of the
data. -/
theorem slowMemmem_found_iff (c : UInt8) (pat data : Bytes) :
    (∃ r, slowMemmem data (c :: pat) = .ok r ∧ Found (c :: pat) data r) ↔
      (∃ i, c :: pat <+: data.drop i) ∨ Stops c (pat.length + 1) 0 data := by
  obtain ⟨hsome, hnone⟩ := @slowMemmemFrom_eq c pat data (data.length + 1) 0 0 (Nat.zero_le _) (.inr rfl)
    (by rw [List.drop_zero]; omega)
  rw [List.drop_zero, Nat.add_zero data.length] at hsome hnone
  rw [slowMemmem, if_neg (by rw [List.length_cons]; omega)]
  by_cases hocc : ∃ i, c :: pat <+: data.drop i
  · refine iff_of_true ?_ (.inl hocc)
    classical
    have hfirst : FirstAt (c :: pat) data (Nat.find hocc) :=
      ⟨Nat.find_spec hocc, fun k hk ↦ Nat.find_min hocc hk⟩
    refine ⟨some (Nat.find hocc), ?_, hfirst⟩
    rw [hsome _ hfirst, Nat.zero_add]
  · have hnot : Found (c :: pat) data none := fun i hi ↦ hocc ⟨i, hi⟩
    rw [or_iff_right hocc, hnone hnot]
    constructor
    · rintro ⟨r, hr, -⟩
      by_contra hstops
      rw [if_neg hstops] at hr
      cases hr
    · intro hstops
      exact ⟨none, if_pos hstops, hnot⟩

/-- After a false start at the first of two bytes the third one is read. -/
theorem slowMemmem_leaves : slowMemmem [97, 98] [97, 97] = .error .outOfRange ∧ Found [97, 97] [97, 98] none := by
  refine ⟨by decide, fun i hi ↦ ?_⟩
  have hle := hi.length_le
  rw [List.length_drop] at hle
  change 2 ≤ 2 - i at hle
  obtain rfl : i = 0 := by omega
  exact absurd hi (by decide)

end Common

end CryoNero
