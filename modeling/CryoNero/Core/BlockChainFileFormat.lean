import CryoNero.Core.Node
import CryoNero.Store.Arrays
import CryoNero.Store.Files

/-!
# Blocks in files

A chain is exported into two files. The items file has the blocks one after the other; the index file
has their number in eight bytes, and then the size of each in four.

The reader makes a table of offsets of the sizes. It is as long as the number of whole blocks in the
items file, and one more. There are two ways of importing: `importBlocks` reads a block and adds it, in
turns of 0.2 seconds; `importBlockchain2` starts a thread that reads ahead. What the two threads do
between taking the lock and giving it back is one step here, in any order (`ImportState.step`).

Heights are counted in `ℕ` by the two threads. They stay below `2 ^ 32` up to the first access beyond
the table.
-/

namespace CryoNero

open Seria Store

/-- The contents of `blockindexes.bin` and of `blocks.bin`. -/
structure BlockFiles where
  index : Bytes := []
  items : Bytes := []
  deriving DecidableEq, Repr

/-- What is there of two files that were not written to their ends. -/
def BlockFiles.cut (files : BlockFiles) (indexSize itemsSize : ℕ) : BlockFiles where
  index := files.index.take indexSize
  items := files.items.take itemsSize

/-! ## Writing -/

structure LegacyBlockChainWriter where
  itemsFile : FileStream := {}
  indexesFile : FileStream := {}

namespace LegacyBlockChainWriter

def create (count : UInt64) : LegacyBlockChainWriter where
  indexesFile := ({} : FileStream).write (leBytes 8 count.toNat)

def writeBlock (w : LegacyBlockChainWriter) (rawBlock : RawBlock) : LegacyBlockChainWriter :=
  let ba := writeRawBlock rawBlock
  let si := UInt32.ofNat ba.length
  { itemsFile := w.itemsFile.write ba, indexesFile := w.indexesFile.write (leBytes 4 si.toNat) }

def files (w : LegacyBlockChainWriter) : BlockFiles where
  index := w.indexesFile.content
  items := w.itemsFile.content

end LegacyBlockChainWriter

namespace State

/-- The bytes of the block of a height, and the raw block in them. -/
def readBlockAt (s : State) (ha : Height) : Except Fault (Bytes × RawBlock) := do
  let bid ← orFail .invariantViolated s.chain.tip.tipChain[ha]?
  let stored ← s.chain.tree.readBlock bid
  orFail .invariantViolated stored

/-- `export_blockchain2`. The loop ends where the counter is the height above the tip. -/
def exportBlockchain2 (s : State) : Except Fault LegacyBlockChainWriter :=
  (List.range (s.chain.tip.tipHeight + 1).toNat).foldlM (fun writer ha ↦ do
      let block ← s.readBlockAt (UInt32.ofNat ha)
      return writer.writeBlock block.2)
    (LegacyBlockChainWriter.create (UInt64.ofNat (s.chain.tip.tipHeight + 1).toNat))

end State

/-! ## Reading -/

structure LegacyBlockChainReader where
  itemsFile : FileStream
  indexesFile : FileStream
  count : Height := 0
  offsets : List ℕ := []

namespace LegacyBlockChainReader

/-- Open the two files. Where the index has no eight bytes, nothing is announced; a number of blocks
that is no height is an error. -/
def openFiles (files : BlockFiles) : Except Failure LegacyBlockChainReader :=
  let reader : LegacyBlockChainReader :=
    { itemsFile := { content := files.items }, indexesFile := { content := files.index } }
  let maxHei := (UInt64.ofNat files.index.length - 8) / 4
  match reader.indexesFile.read 8 with
  | none => .ok reader
  | some (bytes, indexesFile) => do
    let count := min (UInt64.ofNat (leNat bytes)) maxHei
    ensure (count.toNat < 2 ^ 32) .refused
    return { reader with indexesFile := indexesFile, count := UInt32.ofNat count.toNat }

/-- Numbers of four bytes. -/
def itemSizes : ℕ → Bytes → List ℕ
  | 0, _ => []
  | n + 1, bytes => leNat (bytes.take 4) :: itemSizes n (bytes.drop 4)

/-- Where the blocks start, from `pos` on, and where the last one ends. The table ends with the first
block that goes beyond the file. -/
def offsetsFrom (itemsFileSize : ℕ) (pos : ℕ) : List ℕ → List ℕ
  | [] => [pos]
  | itemSize :: rest =>
    pos :: if itemsFileSize < pos + itemSize then [] else offsetsFrom itemsFileSize (pos + itemSize) rest

def loadOffsets (r : LegacyBlockChainReader) : LegacyBlockChainReader :=
  if r.count = 0 ∨ r.offsets ≠ [] then r
  else
    let itemsFileSize := r.itemsFile.content.length
    match r.indexesFile.read (r.count.toNat * 4) with
    | none => { r with offsets := [0] }
    | some (bytes, indexesFile) =>
      { r with
        indexesFile := indexesFile
        offsets := offsetsFrom itemsFileSize 0 (itemSizes r.count.toNat bytes) }

/-- The bytes of a block. Where it leaves the file does not matter: every call seeks first. -/
def getBlockDataByIndex (r : LegacyBlockChainReader) (i : Height) : Except Failure Bytes := do
  let offsets := r.loadOffsets.offsets
  let next ← readAt offsets (i + 1).toNat
  let first ← readAt offsets i.toNat
  let data ← orFail .refused ((r.itemsFile.seek first).read (next - first))
  return data.1

/-- The block as it is handed to the node. Whatever is thrown while it is prepared is a refusal. -/
def fetch (env : Env) (r : LegacyBlockChainReader) (i : Height) : Except Failure PreparedBlock := do
  let rba ← r.getBlockDataByIndex i
  (PreparedBlock.ofData env false rba).mapError fun _ ↦ .refused

/-! ## Importing in turns -/

/-- How a turn of `importBlocks` ended. -/
inductive ImportStop
  | finished
  | late
  | refused
  | threw (e : Failure)
  deriving DecidableEq, Repr

variable (env : Env) (now : Height → Timestamp) (r : LegacyBlockChainReader)

/-- The loop of `import_blocks`, which is left after `turns` blocks because of the time they took.
`now` tells at what time the block of a height is added. -/
def importTurns : ℕ → State → State × ImportStop
  | 0, s => (s, .late)
  | turns + 1, s =>
    let height := s.chain.tip.tipHeight + 1
    if height < r.count then
      match r.fetch env height with
      | .error e => (s, .threw e)
      | .ok pb =>
        match s.addBlock env (now height) pb with
        | .error _ => (s, .threw .refused)
        | .ok (s, .broadcastAll, _) => importTurns turns s
        | .ok (s, _, _) => (s.dbCommit, .refused)
    else (s, .finished)

/-- Whether `import_blocks` returns `true`: there is more to import. -/
def notFinished (p : State × ImportStop) : Bool :=
  match p.2 with
  | .finished | .late => decide (p.1.chain.tip.tipHeight + 1 < r.count)
  | .refused | .threw _ => false

/-- `import_blocks` is called again as long as it returns `true`. Each call adds one block at least
before it looks at the clock. -/
def importBlocks : List ℕ → State → State × Option ImportStop
  | [], s => (s, none)
  | turns :: calls, s =>
    let p := importTurns env now r (turns + 1) s
    if r.notFinished p then importBlocks calls p.1 else (p.1, some p.2)

end LegacyBlockChainReader

/-! ## Importing with a thread that reads ahead -/

def maxPreloadBlocks : ℕ := 100
def maxPreloadTotalSize : ℕ := 50 * 1024 * 1024

/-- Where `thread_run` is. -/
inductive ThreadPlace
  | absent
  | choosing
  | waiting
  | loading (i : ℕ)
  | storing (i : ℕ) (pb : PreparedBlock)
  | ended
  | threw (e : Failure)

/-- Where `import_blockchain2` is. When it leaves, the destructor of the reader joins the thread. -/
inductive MainPlace
  | looping
  | waiting (i : ℕ)
  | adding (pb : PreparedBlock)
  | leaving (result : Except Fault Bool)
  | returned (result : Except Fault Bool)

/-- Two threads and what they share. -/
structure ImportState where
  node : State
  main : MainPlace := .looping
  thread : ThreadPlace := .absent
  quit : Bool := false
  preparedBlocks : Table ℕ PreparedBlock := ∅
  totalPreparedDataSize : ℕ := 0
  lastLoadHeight : ℕ := 0
  nextLoadHeight : ℕ := 0

/-- Whose step it is. A thread that waits for a condition may also wake up for no reason. -/
inductive ImportEvent
  | main
  | thread
  | spurious
  deriving DecidableEq, Repr

namespace ImportState

def tip (st : ImportState) : ℕ := st.node.chain.tip.tipHeight.toNat

/-- `notify_all` on `have_work`. -/
def woken : ThreadPlace → ThreadPlace
  | .waiting => .choosing
  | place => place

/-- `import_blockchain2` is left, and the destructor of the reader tells the thread. -/
def leave (st : ImportState) (result : Except Fault Bool) : ImportState :=
  { st with quit := true, thread := woken st.thread, main := .leaving result }

/-- The first part of `get_prepared_block_by_index`. -/
def request (st : ImportState) (i : ℕ) : ImportState :=
  { st with
    thread := match st.thread with
      | .absent => .choosing
      | place => woken place
    lastLoadHeight := i
    main := .waiting i }

/-- The second part of it, when the block is there. -/
def take (st : ImportState) (i : ℕ) (pb : PreparedBlock) : ImportState :=
  { st with
    preparedBlocks := st.preparedBlocks.erase i
    totalPreparedDataSize := st.totalPreparedDataSize - pb.blockData.length
    main := .adding pb }

/-- The next block that `thread_run` would load. -/
def toLoad (st : ImportState) : ℕ := if st.nextLoadHeight = 0 then st.lastLoadHeight else st.nextLoadHeight

/-- Whether enough is loaded. -/
def Ahead (st : ImportState) : Prop :=
  st.lastLoadHeight + maxPreloadBlocks < st.toLoad ∨ maxPreloadTotalSize < st.totalPreparedDataSize

instance (st : ImportState) : Decidable st.Ahead := inferInstanceAs (Decidable (_ ∨ _))

/-- `thread_run` waits until it is told that there is work. -/
def sleep (st : ImportState) : ImportState :=
  { st with nextLoadHeight := st.toLoad, thread := .waiting }

def load (st : ImportState) : ImportState :=
  { st with nextLoadHeight := st.toLoad + 1, thread := .loading st.toLoad }

/-- `thread_run` puts a block where the main thread finds it. -/
def store (st : ImportState) (i : ℕ) (pb : PreparedBlock) : ImportState :=
  { st with
    totalPreparedDataSize := st.totalPreparedDataSize + pb.blockData.length
    preparedBlocks := st.preparedBlocks.insert i pb
    thread := .choosing }

variable (env : Env) (now : Height → Timestamp) (importHeight : ℕ)
  (fetch : ℕ → Except Failure PreparedBlock)

def mainStep (st : ImportState) : Option ImportState :=
  match st.main with
  | .looping =>
    if st.tip < importHeight then some (st.request (st.tip + 1))
    else some ({ st with node := st.node.dbCommit }.leave (.ok true))
  | .waiting i => st.preparedBlocks[i]?.map fun pb ↦ st.take i pb
  | .adding pb =>
    match st.node.addBlock env (now (st.node.chain.tip.tipHeight + 1)) pb with
    | .error e => some (st.leave (.error e))
    | .ok (s, .broadcastAll, _) => some { st with node := s, main := .looping }
    | .ok (s, _, _) => some ({ st with node := s.dbCommit }.leave (.ok false))
  | .leaving result =>
    match st.thread with
    | .absent | .ended => some { st with main := .returned result }
    | _ => none
  | .returned _ => none

def threadStep (st : ImportState) : Option ImportState :=
  match st.thread with
  | .choosing =>
    if st.quit then some { st with thread := .ended }
    else if st.Ahead then some st.sleep
    else some st.load
  | .loading i =>
    match fetch i with
    | .ok pb => some { st with thread := .storing i pb }
    | .error e => some { st with thread := .threw e }
  | .storing i pb => some (st.store i pb)
  | _ => none

/-- One step. An exception that leaves `thread_run` ends the process. -/
def step (st : ImportState) (event : ImportEvent) : Option ImportState :=
  match st.thread, event with
  | .threw _, _ => none
  | _, .main => st.mainStep env now importHeight
  | _, .thread => st.threadStep fetch
  | .waiting, .spurious => some { st with thread := .choosing }
  | _, .spurious => none

end ImportState

namespace LegacyBlockChainReader

/-- How far `import_blockchain2` means to go. -/
def importHeight (r : LegacyBlockChainReader) (maxHeight : Height) : ℕ := (min maxHeight (r.count + 1)).toNat

/-- `import_blockchain2` after the files were opened. -/
def importBlockchain2 (r : LegacyBlockChainReader) (s : State) (maxHeight : Height) : ImportState :=
  let st : ImportState := { node := s }
  if r.importHeight maxHeight < st.tip then st.leave (.ok true) else st

/-- One step of an import. -/
def importStep (env : Env) (now : Height → Timestamp) (r : LegacyBlockChainReader) (maxHeight : Height) :
    ImportState → ImportEvent → Option ImportState :=
  ImportState.step env now (r.importHeight maxHeight) fun i ↦ r.fetch env (UInt32.ofNat i)

end LegacyBlockChainReader

end CryoNero
