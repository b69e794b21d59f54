import CryoNero.Core.BlockFormat
import CryoNero.Store.Arrays

/-!
# Tree hashes in arrays

The functions of `tree-hash.c` as they work on their arrays, with every access checked. `treeHash`,
`treeDepth` and `treeHashFromBranch` of the block format say what they compute.

Numbers of hashes are 64 bits wide and arrays are counted in hashes. What `alloca` returns holds anything,
so it is filled from a `stack` that is a parameter. An assertion that fails refuses the input.
-/

namespace CryoNero

namespace TreeHash

open Seria Store

variable (c : Crypto)

def alloca (stack : ℕ → Hash) (size : ℕ) : List Hash := (List.range size).map stack

/-- `cn_fast_hash` of the two hashes from `i` on. -/
def hashTwo (source : List Hash) (i : ℕ) : Except Failure Hash := do
  let a ← readAt source i
  let b ← readAt source (i + 1)
  return hashPair c a b

/-- The loop that hashes pairs from `hashes` into `ints`, with its last value of `i`. -/
def hashPairsInto (hashes : List Hash) : ℕ → ℕ → ℕ → List Hash → Except Failure (ℕ × List Hash)
  | 0, i, _, ints => .ok (i, ints)
  | turns + 1, i, j, ints => do
    let hash ← hashTwo c hashes i
    let ints ← writeAt ints j hash
    hashPairsInto hashes turns (i + 2) (j + 1) ints

/-- The loop that hashes pairs from `ints` into `ints`. -/
def hashPairsWithin : ℕ → ℕ → ℕ → List Hash → Except Failure (List Hash)
  | 0, _, _, ints => .ok ints
  | turns + 1, i, j, ints => do
    let hash ← hashTwo c ints i
    let ints ← writeAt ints j hash
    hashPairsWithin turns (i + 2) (j + 1) ints

/-- The loop over the levels of `tree_hash`. -/
def hashLevels (cnt : ℕ) (ints : List Hash) : Except Failure (List Hash) :=
  if h : 2 < cnt then do
    let ints ← hashPairsWithin c (cnt / 2) 0 0 ints
    hashLevels (cnt / 2) ints
  else .ok ints
termination_by cnt
decreasing_by omega

/-- What a loop takes for `i` that starts with 1 and doubles it while it is below 64. -/
def doubles : List UInt64 := [1, 2, 4, 8, 16, 32]

/-- The largest power of two that is at most `count`, from its bits: all bits below the highest are set,
then only the highest is kept. -/
def highestBit (count : UInt64) : UInt64 :=
  let cnt := doubles.foldl (fun cnt i ↦ cnt ||| cnt >>> i) count
  cnt &&& ~~~(cnt >>> 1)

def treeHash (stack : ℕ → Hash) (hashes : List Hash) (count : UInt64) : Except Failure Hash := do
  ensure (0 < count) .refused
  if count = 1 then readAt hashes 0
  else if count = 2 then hashTwo c hashes 0
  else
    let cnt := highestBit (count - 1)
    let copied ← copyFrom hashes 0 (2 * cnt - count).toNat
    let ints ← copyTo (alloca stack cnt.toNat) 0 copied
    let (i, ints) ← hashPairsInto c hashes (cnt.toNat - (2 * cnt - count).toNat) (2 * cnt - count).toNat
      (2 * cnt - count).toNat ints
    ensure (i = count.toNat) .refused
    let ints ← hashLevels c cnt.toNat ints
    hashTwo c ints 0

/-- What a loop takes for `i` that starts with `sizeof(size_t) << 2` and halves it. -/
def halves : List UInt64 := [32, 16, 8, 4, 2, 1]

/-- A turn of the loop of `tree_depth` on `count` and `depth`. -/
def shiftOut (s : UInt64 × ℕ) (i : UInt64) : UInt64 × ℕ :=
  let shifted := s.1 >>> i
  if 0 < shifted then (shifted, s.2 + i.toNat) else s

def treeDepth (count : UInt64) : Except Failure ℕ := do
  ensure (0 < count) .refused
  return (halves.foldl shiftOut (count, 0)).2

/-- A turn of the first loop of `tree_branch` on `cnt` and `depth`. -/
def shiftUp (count : UInt64) (s : UInt64 × ℕ) (i : UInt64) : UInt64 × ℕ :=
  let shifted := s.1 <<< i
  if shifted ≤ count then (shifted, s.2 + i.toNat) else s

/-- The loop that fills the branch, from its end. -/
def fillBranch : ℕ → UInt64 → List Hash → List Hash → Except Failure (List Hash)
  | 0, _, _, branch => .ok branch
  | depth + 1, cnt, ints, branch => do
    ensure (cnt.toNat = 2 ^ (depth + 1)) .refused
    let sibling ← readAt ints 0
    let branch ← writeAt branch depth sibling
    let ints ← hashPairsWithin c ((cnt >>> 1) - 1).toNat 1 0 ints
    fillBranch depth (cnt >>> 1) ints branch

def treeBranch (stack : ℕ → Hash) (hashes : List Hash) (count : UInt64) (branch : List Hash) :
    Except Failure (List Hash) := do
  ensure (0 < count) .refused
  let (cnt, depth) := halves.foldl (shiftUp count) (1, 0)
  ensure (cnt.toNat = 2 ^ depth) .refused
  let found ← treeDepth count
  ensure (depth = found) .refused
  let copied ← copyFrom hashes 1 (2 * cnt - count - 1).toNat
  let ints ← copyTo (alloca stack (cnt - 1).toNat) 0 copied
  let (i, ints) ← hashPairsInto c hashes ((cnt - 1).toNat - (2 * cnt - count - 1).toNat)
    (2 * cnt - count).toNat (2 * cnt - count - 1).toNat ints
  ensure (i = count.toNat) .refused
  fillBranch c depth cnt ints branch

/-- The bit of the path at `depth`. Without a path it is never set. -/
def pathBit (path : Option Bytes) (depth : ℕ) : Except Failure Bool :=
  match path with
  | none => return false
  | some path => do
    let byte ← readAt path (depth / 8)
    return byte.toNat.testBit (depth % 8)

/-- The loop of `tree_hash_from_branch` on its buffer of two hashes. -/
def climb (branch : List Hash) (leaf : Hash) (path : Option Bytes) :
    ℕ → Bool → List Hash → Except Failure (List Hash)
  | 0, _, buffer => .ok buffer
  | depth + 1, fromLeaf, buffer => do
    let right ← pathBit path depth
    let below ← if fromLeaf then .ok leaf else hashTwo c buffer 0
    let buffer ← writeAt buffer (if right then 1 else 0) below
    let sibling ← readAt branch depth
    let buffer ← writeAt buffer (if right then 0 else 1) sibling
    climb branch leaf path depth false buffer

def treeHashFromBranch (stack : ℕ → Hash) (branch : List Hash) (depth : ℕ) (leaf : Hash)
    (path : Option Bytes) : Except Failure Hash :=
  if depth = 0 then .ok leaf
  else do
    let buffer ← climb c branch leaf path depth true (alloca stack 2)
    hashTwo c buffer 0

end TreeHash

end CryoNero
