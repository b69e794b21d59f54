import CryoNero.Chain.Transactions

/-!
# Going down to the main chain

A locator is answered from the first of its blocks that is stored here. From that block the search
goes down until it meets the main chain, and what follows there is a run of it.
-/

namespace CryoNero

open Store

/-- `a` is `b` or one of the blocks below it, as far as headers are stored. -/
inductive Tree.Descends (t : Tree) (a : Hash) : Hash → Prop
  | self {info : Api.BlockHeader} : t.headers[a]? = some info → Descends t a a
  | child {b : Hash} {info : Api.BlockHeader} : t.headers[b]? = some info →
    Descends t a info.previousBlockHash → Descends t a b

theorem Tree.Descends.trans {t : Tree} {a b c : Hash} (h : t.Descends a b) (h' : t.Descends b c) :
    t.Descends a c := by
  induction h' with
  | self _ => exact h
  | child hinfo _ ih => exact .child hinfo ih

theorem add_ofNat_succ (h : Height) (i : ℕ) :
    h + UInt32.ofNat (i + 1) = h + 1 + UInt32.ofNat i := by
  rw [UInt32.ofNat_add, show UInt32.ofNat 1 = 1 from rfl, add_comm (UInt32.ofNat i), ← add_assoc]

namespace BlockChain

variable {bc : BlockChain}

/-- The blocks of the main chain descend from each other. -/
theorem Main.descends (hm : bc.Main) : ∀ (n : ℕ) {h k : Height} {a b : Hash},
    h.toNat = k.toNat + n → bc.tip.tipChain[k]? = some a → bc.tip.tipChain[h]? = some b →
    bc.tree.Descends a b := by
  intro n
  induction n with
  | zero =>
    intro h k a b hn ha hb
    obtain rfl : h = k := UInt32.toNat_inj.mp hn
    obtain rfl := Option.some.inj (ha.symm.trans hb)
    obtain ⟨info, hinfo, -⟩ := hm.entry ha
    exact .self hinfo
  | succ n ih =>
    intro h k a b hn ha hb
    obtain ⟨info, hinfo, -, hprev⟩ := hm.entry hb
    have hne : h ≠ 0 := by
      rintro rfl
      exact absurd hn (by simp)
    refine .child hinfo (ih ?_ ha (hprev hne))
    rw [toNat_sub_one hne]
    omega

/-- **Where going down ends**: at a block below that is on the main chain, or at the bottom. -/
theorem Coherent.descendToMain_eq_ok (hc : bc.Coherent) : ∀ {fuel : ℕ}
    {header header' : Api.BlockHeader}, bc.tree.headers[header.hash]? = some header →
    bc.descendToMain fuel header = .ok header' →
    bc.tree.headers[header'.hash]? = some header' ∧ bc.tree.Descends header'.hash header.hash ∧
      (header'.height = 0 ∨ bc.tip.tipChain[header'.height]? = some header'.hash) := by
  intro fuel
  induction fuel with
  | zero =>
    intro header header' _ h
    cases h
  | succ fuel ih =>
    intro header header' hheader h
    rw [descendToMain] at h
    split_ifs at h with hmain
    · cases h
      exact ⟨hheader, .self hheader, hmain⟩
    · obtain ⟨next, hnext, h⟩ := bind_eq_ok.mp h
      rw [hc.readHeader!_eq_ok] at hnext
      have hhash := hc.hash hnext
      obtain ⟨hstored, hdescends, hends⟩ := ih (by rw [hhash]; exact hnext) h
      rw [hhash] at hdescends
      exact ⟨hstored, .child hheader hdescends, hends⟩

/-- What is read of the main chain is a run of it. -/
theorem chainFrom_eq_ok : ∀ {count : ℕ} {height : Height} {l : List Hash},
    bc.chainFrom count height = .ok l →
    ∀ i bid, l[i]? = some bid → bc.tip.tipChain[height + UInt32.ofNat i]? = some bid := by
  intro count
  induction count with
  | zero =>
    intro height l h i bid hi
    cases h
    cases hi
  | succ count ih =>
    intro height l h i bid hi
    rw [chainFrom] at h
    split_ifs at h with hle
    · obtain ⟨b, hb, h⟩ := bind_eq_ok.mp h
      obtain ⟨rest, hrest, h⟩ := bind_eq_ok.mp h
      cases h
      rw [orFail_eq_ok] at hb
      cases i with
      | zero =>
        cases hi
        rw [show UInt32.ofNat 0 = 0 from rfl, UInt32.add_zero]
        exact hb
      | succ i =>
        rw [add_ofNat_succ]
        exact ih hrest i bid hi
    · cases h
      cases hi

end BlockChain

end CryoNero
