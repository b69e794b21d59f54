import CryoNero.Core.Node

/-!
# Where headers come from

A header may be found in the window at the tip, in the cache, or in the database. As long as the
first two hold only what the database holds, it makes no difference where it is found, and what the
node computes from headers is a function of the database.
-/

namespace CryoNero

open Seria Store

namespace BlockChain

/-- The window and the cache agree with the database, where every header is filed under its hash and
every block has a header. -/
structure Coherent (bc : BlockChain) : Prop where
  block : ∀ {b : Hash} {data : Bytes}, bc.tree.blocks[b]? = some data →
    ∃ h : Api.BlockHeader, bc.tree.headers[b]? = some h
  hash : ∀ {b : Hash} {h : Api.BlockHeader}, bc.tree.headers[b]? = some h → h.hash = b
  cache : ∀ {b : Hash} {h : Api.BlockHeader}, bc.headerCache[b]? = some h → bc.tree.headers[b]? = some h
  window : ∀ {h : Api.BlockHeader}, h ∈ bc.tip.headerTipWindow → bc.tree.headers[h.hash]? = some h

variable {bc bc' : BlockChain}

theorem mem_of_windowCandidate {hint : Height} {h : Api.BlockHeader}
    (hw : bc.windowCandidate hint = some h) : h ∈ bc.tip.headerTipWindow := by
  unfold windowCandidate at hw
  split_ifs at hw
  exact List.mem_of_getElem? hw

/-- **A header is read from the database**, wherever it was found. -/
theorem Coherent.readHeader_eq (hc : bc.Coherent) (bid : Hash) (hint : Height) :
    bc.readHeader bid hint = bc.tree.headers[bid]? := by
  have hdb : (bc.headerCache[bid]?).or (bc.tree.headers[bid]?) = bc.tree.headers[bid]? := by
    cases hcache : bc.headerCache[bid]? with
    | none => rfl
    | some h => rw [hc.cache hcache]; rfl
  unfold readHeader
  cases hw : bc.windowCandidate hint with
  | none => exact hdb
  | some candidate =>
    dsimp only
    split_ifs with hhash
    · rw [← hhash]
      exact (hc.window (mem_of_windowCandidate hw)).symm
    · exact hdb

theorem Coherent.readHeader!_eq_ok (hc : bc.Coherent) {bid : Hash} {hint : Height}
    {h : Api.BlockHeader} :
    bc.readHeader! bid hint = .ok h ↔ bc.tree.headers[bid]? = some h := by
  rw [readHeader!, orFail_eq_ok, hc.readHeader_eq]

/-- Everything that is in one database is in the other. -/
def HeadersLe (bc bc' : BlockChain) : Prop :=
  ∀ {b : Hash} {h : Api.BlockHeader}, bc.tree.headers[b]? = some h → bc'.tree.headers[b]? = some h

theorem HeadersLe.of_eq (h : bc.tree.headers = bc'.tree.headers) : HeadersLe bc bc' := by
  intro b x hx
  rwa [← h]

theorem HeadersLe.trans {bc'' : BlockChain} (h : HeadersLe bc bc') (h' : HeadersLe bc' bc'') :
    HeadersLe bc bc'' := fun hx ↦ h' (h hx)

end BlockChain

end CryoNero
