import CryoNero.Core.Format
import CryoNero.Core.Varint
import CryoNero.Seria.Maps
import CryoNero.Store.Journal
import CryoNero.Store.Outcome

/-!
# The database of a wallet and its chain

A wallet keeps its records in a database of byte strings. The header of each block it has processed
is a record of its own, and so is what the records changed by the block were before: the undo map is
written under the height of the block when the block is pushed, and read back when it is popped. A
block that changed nothing leaves no undo map.

Heights are 32 bits wide and wrap around: the chain is empty when the height after the tip is the
height of its tail.
-/

namespace CryoNero

open Store Seria Seria.Reader

/-- What the database and those who use it throw. -/
inductive DbError
  | keyExists
  | keyMissing
  | invariantViolated
  | malformed
  deriving DecidableEq, Repr

/-! ## The form of the records -/

def readApiBlockHeader : Reader Api.BlockHeader :=
  (on (·.majorVersion) (fun x v ↦ { v with majorVersion := x }) readU8).andThen <|
  (on (·.minorVersion) (fun x v ↦ { v with minorVersion := x }) readU8).andThen <|
  (on (·.timestamp) (fun x v ↦ { v with timestamp := x }) readU32).andThen <|
  (on (·.previousBlockHash) (fun x v ↦ { v with previousBlockHash := x }) readHash).andThen <|
  (on (·.nonce) (fun x v ↦ { v with nonce := x }) readU32).andThen <|
  (on (·.height) (fun x v ↦ { v with height := x }) readU32).andThen <|
  (on (·.hash) (fun x v ↦ { v with hash := x }) readHash).andThen <|
  (on (·.reward) (fun x v ↦ { v with reward := x }) readU64).andThen <|
  (on (·.cumulativeDifficulty) (fun x v ↦ { v with cumulativeDifficulty := x }) readU64).andThen <|
  (on (·.difficulty) (fun x v ↦ { v with difficulty := x }) readU64).andThen <|
  (on (·.baseReward) (fun x v ↦ { v with baseReward := x }) readU64).andThen <|
  (on (·.blockSize) (fun x v ↦ { v with blockSize := x }) readU32).andThen <|
  (on (·.transactionsCumulativeSize) (fun x v ↦ { v with transactionsCumulativeSize := x })
    readU32).andThen <|
  (on (·.alreadyGeneratedCoins) (fun x v ↦ { v with alreadyGeneratedCoins := x }) readU64).andThen <|
  (on (·.alreadyGeneratedTransactions) (fun x v ↦ { v with alreadyGeneratedTransactions := x })
    readU64).andThen <|
  (on (·.sizeMedian) (fun x v ↦ { v with sizeMedian := x }) readU32).andThen <|
  (on (·.effectiveSizeMedian) (fun x v ↦ { v with effectiveSizeMedian := x }) readU32).andThen <|
  (on (·.timestampMedian) (fun x v ↦ { v with timestampMedian := x }) readU32).andThen <|
  on (·.totalFeeAmount) (fun x v ↦ { v with totalFeeAmount := x }) readU64

def writeApiBlockHeader (v : Api.BlockHeader) : Bytes :=
  writeU8 v.majorVersion ++ writeU8 v.minorVersion ++ writeU32 v.timestamp ++
    writeHash v.previousBlockHash ++ writeU32 v.nonce ++ writeU32 v.height ++ writeHash v.hash ++
    writeU64 v.reward ++ writeU64 v.cumulativeDifficulty ++ writeU64 v.difficulty ++
    writeU64 v.baseReward ++ writeU32 v.blockSize ++ writeU32 v.transactionsCumulativeSize ++
    writeU64 v.alreadyGeneratedCoins ++ writeU64 v.alreadyGeneratedTransactions ++
    writeU32 v.sizeMedian ++ writeU32 v.effectiveSizeMedian ++ writeU32 v.timestampMedian ++
    writeU64 v.totalFeeAmount

/-- An `UndoValue`: whether the record existed, and its value or nothing. -/
def writeUndoValue : Option Bytes → Bytes
  | some value => 1 :: writeBytes value
  | none => 0 :: writeBytes []

def readUndoValue : Reader (Option Bytes) := fun v s ↦
  match s with
  | [] => (v, none)
  | exists_ :: s =>
    let p := readBytes [] s
    (if exists_ ≠ 0 then some p.1 else none, p.2)

abbrev UndoMap := Table Bytes (Option Bytes)

/-- `INDEX_HEIGHT_to_HEADER` -/
def indexHeightToHeader : UInt8 := 0x63

/-- `INDEX_UID_to_STATE` -/
def indexUidToState : UInt8 := 0x58

def headerKey (height : Height) : Bytes := indexHeightToHeader :: writeVarintSqlite4 height.toUInt64
def stateKey (state : UInt32) : Bytes := indexUidToState :: writeVarintSqlite4 state.toUInt64

/-! ## The state -/

/-- The database with the undo map of the block that is being processed, and the ends of the
chain. -/
structure WalletStateBasic where
  db : Journal Bytes Bytes := {}
  tipHeight : Height := 0xFFFFFFFF
  tailHeight : Height := 0
  tip : Api.BlockHeader := {}

/-- A change of a record that can be undone. -/
inductive DbOp
  | putWithUndo (key value : Bytes) (nooverwrite : Bool)
  | delWithUndo (key : Bytes) (mustexist : Bool)
  deriving DecidableEq, Repr

namespace WalletStateBasic

variable (s : WalletStateBasic)

/-- `put_with_undo` and `del_with_undo`; the old record is remembered first. -/
def perform : DbOp → Except DbError WalletStateBasic
  | .putWithUndo key value nooverwrite =>
    if nooverwrite ∧ (s.db.records[key]?).isSome then .error .keyExists
    else .ok { s with db := s.db.put key value }
  | .delWithUndo key mustexist =>
    if mustexist ∧ s.db.records[key]? = none then .error .keyMissing
    else .ok { s with db := s.db.del key }

/-- A put that is not undone with a block. -/
def put (key value : Bytes) (nooverwrite : Bool) : Except DbError WalletStateBasic :=
  if nooverwrite ∧ (s.db.records[key]?).isSome then .error .keyExists
  else .ok { s with db := { s.db with records := s.db.records.insert key value } }

def del (key : Bytes) (mustexist : Bool) : Except DbError WalletStateBasic :=
  if mustexist ∧ s.db.records[key]? = none then .error .keyMissing
  else .ok { s with db := { s.db with records := s.db.records.erase key } }

def saveDbState (state : UInt32) (undoMap : UndoMap) : Except DbError WalletStateBasic :=
  if undoMap.isEmpty then .ok s else s.put (stateKey state) (writeMap writeUndoValue undoMap) true

def undoDbState (state : UInt32) : Except DbError WalletStateBasic :=
  match s.db.records[stateKey state]? with
  | none => .ok s
  | some value =>
    match fromBinary (readMap readUndoValue none) ∅ value with
    | (_, false) => .error .malformed
    | (undoMap, true) => do
      let s ← s.del (stateKey state) true
      return { s with db := { s.db with records := Journal.replay undoMap s.db.records } }

def pushChain (header : Api.BlockHeader) : Except DbError WalletStateBasic := do
  let s := { s with tipHeight := s.tipHeight + 1 }
  let s ← s.put (headerKey s.tipHeight) (writeApiBlockHeader header) true
  let s := { s with tip := header }
  let s ← s.saveDbState s.tipHeight s.db.undo
  return { s with db := { s.db with undo := ∅ } }

def readChain (height : Height) : Except DbError Api.BlockHeader :=
  match s.db.records[headerKey height]? with
  | none => .error .invariantViolated
  | some value =>
    match fromBinary readApiBlockHeader {} value with
    | (_, false) => .error .malformed
    | (header, true) => .ok header

def emptyChain : Bool := s.tipHeight + 1 = s.tailHeight

def popChain : Except DbError WalletStateBasic := do
  ensure (s.emptyChain = false) .invariantViolated
  let s ← s.undoDbState s.tipHeight
  let s ← s.del (headerKey s.tipHeight) true
  let s := { s with tipHeight := s.tipHeight - 1 }
  let tip ← if s.emptyChain then .ok ({} : Api.BlockHeader) else s.readChain s.tipHeight
  return { s with tip := tip }

/-- An empty chain gets the genesis block. -/
def fixEmptyChain (genesis : Api.BlockHeader) : Except DbError WalletStateBasic :=
  if s.emptyChain then { s with tailHeight := 0, tipHeight := 0xFFFFFFFF }.pushChain genesis
  else .ok s

def resetChain (newTailHeight : Height) : Except DbError WalletStateBasic := do
  ensure (s.emptyChain = true) .invariantViolated
  return { s with tailHeight := newTailHeight, tipHeight := newTailHeight - 1 }

/-- A block is processed by changes of records, and then pushed. -/
def processBlock (block : List DbOp × Api.BlockHeader) : Except DbError WalletStateBasic := do
  let s ← block.1.foldlM perform s
  s.pushChain block.2

def popChains : ℕ → WalletStateBasic → Except DbError WalletStateBasic
  | 0, s => .ok s
  | n + 1, s => do
    let s ← s.popChain
    popChains n s

end WalletStateBasic

end CryoNero
