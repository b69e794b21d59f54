import CryoNero.Core.BlockFormat
import CryoNero.Words.Wide

/-!
# The rules of the currency

The constants of the network and the pure functions over them: versions and size limits by height,
the reward of a block, the difficulty of the next block, and the proof of work.

The table of checkpoints is a parameter. When it is empty, the height of its last entry is read from
in front of it; what lies there is a parameter as well.
-/

namespace CryoNero

open Seria Words

structure CheckpointData where
  height : Height
  hash : Hash

/-- What distinguishes one network from another. -/
structure Currency where
  isTestnet : Bool
  /-- The table of checkpoints, by increasing height. -/
  checkpoints : List CheckpointData
  /-- The height found in front of the table when it has no entries. -/
  strayHeight : Height

/-- The surroundings of a node. -/
structure Env where
  crypto : Crypto
  currency : Currency

/-- The main network, with a single checkpoint. -/
def Env.lax (zone : Height) : Env where
  crypto := .lax
  currency := { isTestnet := false, checkpoints := [⟨zone, 0⟩], strayHeight := 0 }

/-- Why the node gives up on what it is doing: the exceptions it raises, and a division by zero. -/
inductive Fault
  | invariantViolated
  | keyExists
  | keyMissing
  | notWritable
  | divisionByZero
  deriving DecidableEq, Repr

namespace Currency

def maxBlockHeight : Height := 500000000
def maxTxSize : UInt32 := 1000000000
def minedMoneyUnlockWindow : Height := 10
def moneySupply : Amount := 0xFFFFFFFFFFFFFFFF
def emissionSpeedFactor : UInt64 := 16
def rewardBlocksWindow : Height := 100
def minerTxBlobReservedSize : UInt32 := 600
def defaultDustThreshold : Amount := 1000000
def difficultyLag : Height := 15
def difficultyCut : ℕ := 60
def maxBlockSizeInitial : UInt64 := 20 * 1024
def maxBlockSizeGrowthSpeedNumerator : UInt64 := 100 * 1024
def lockedTxAllowedDeltaBlocks : Height := 1
def currentTransactionVersion : UInt8 := 1
def hardforkV1Height : Height := 7070
def hardforkV2Height : Height := 7080
def difficultyScatterV2 : UInt64 := 32
def difficultyWindowV2 : ℕ := 60
def difficultyBlocksCountV2 : Height := 61
def upgradeHeightV4 : Height := 7080

variable (cur : Currency)

def difficultyTarget : UInt32 := if cur.isTestnet then 1 else 60

def difficultyWindow : UInt32 := 24 * 60 * 60 / cur.difficultyTarget

def maxBlockSizeGrowthSpeedDenominator : UInt64 := 365 * 24 * 60 * 60 / cur.difficultyTarget.toUInt64

def lockedTxAllowedDeltaSeconds : Timestamp := cur.difficultyTarget * lockedTxAllowedDeltaBlocks

def upgradeHeightV2 : Height := if cur.isTestnet then 0 else 1

def upgradeHeightV3 : Height := if cur.isTestnet then 0xFFFFFFFF else 2

/-! ## Genesis -/

def genesisCoinbaseTxBytes : Bytes :=
  beBytes 80 0x010a01ff0001ffffffffffff3f029b2e4c0281c0b02e7c53291a94d1d0cbff8883f8024f5142ee494ffbbd088071210152bfaef5e5681a5d7eaeaca878d53ed2a80445e4f6adc5550fc4b4b0e69b765a

def genesisBlockTemplate : BlockTemplate where
  majorVersion := 1
  minorVersion := 0
  timestamp := 0
  nonce := if cur.isTestnet then 71 else 70
  baseTransaction := (fromBinary readTransaction {} genesisCoinbaseTxBytes).1

/-! ## Checkpoints -/

def isInSwCheckpointZone (index : Height) : Bool :=
  if cur.isTestnet then index = 0
  else index ≤ (cur.checkpoints.getLast?.map (·.height)).getD cur.strayHeight

/-- Whether a hash agrees with the checkpoints. -/
def checkSwCheckpoint (genesisBlockHash : Hash) (index : Height) (h : Hash) : Bool :=
  if cur.isTestnet ∨ index = 0 then
    if index = 0 then h = genesisBlockHash else true
  else
    match cur.checkpoints.find? fun p ↦ index ≤ p.height with
    | none => true
    | some p => if p.height ≠ index then true else h = p.hash

/-! ## Versions, sizes and locks -/

def getBlockMajorVersionForHeight (height : Height) : UInt8 :=
  if height ≤ cur.upgradeHeightV2 then 1
  else if height ≤ cur.upgradeHeightV3 then 2
  else if height ≤ upgradeHeightV4 then 3
  else 4

def blockGrantedFullRewardZoneByBlockVersion (blockMajorVersion : UInt8) : UInt32 :=
  if 3 ≤ blockMajorVersion then 100000
  else if blockMajorVersion = 2 then 20000
  else 10000

def maxBlockCumulativeSize (height : Height) : UInt32 :=
  (maxBlockSizeInitial + height.toUInt64 * maxBlockSizeGrowthSpeedNumerator /
    cur.maxBlockSizeGrowthSpeedDenominator).toUInt32

def maxTransactionAllowedSize (effectiveBlockSizeMedian : UInt32) : UInt32 :=
  min maxTxSize (effectiveBlockSizeMedian * 2 - minerTxBlobReservedSize)

/-- An unlock moment is a height if it is small and a time if it is large. -/
def isTransactionSpendTimeUnlocked (unlockTime : UnlockMoment) (blockIndex : Height)
    (blockTime : Timestamp) : Bool :=
  if unlockTime < maxBlockHeight.toUInt64 then
    unlockTime ≤ (blockIndex + lockedTxAllowedDeltaBlocks).toUInt64
  else unlockTime ≤ (blockTime + cur.lockedTxAllowedDeltaSeconds).toUInt64

def getTimestampCheckWindow (height : Height) : Height :=
  if hardforkV2Height ≤ height then 11 else 60

def getBlockFutureTimeLimit (height : Height) : Timestamp :=
  if hardforkV2Height ≤ height then 60 * 3 else 60 * 60 * 2

def getDifficultyBlocksCount (height : Height) : Height :=
  if height ≤ hardforkV2Height then cur.difficultyWindow + difficultyLag
  else difficultyBlocksCountV2

/-! ## The reward -/

def calcBaseReward (blockMajorVersion : UInt8) (alreadyGeneratedCoins : Amount) : Amount :=
  let baseReward := (moneySupply - alreadyGeneratedCoins) >>> emissionSpeedFactor
  if 4 ≤ blockMajorVersion ∧ difficultyScatterV2 ≤ baseReward then baseReward / difficultyScatterV2
  else baseReward

/-- The amount that is left of a reward in a block larger than the median. -/
def getPenalizedAmount (amount medianSize currentBlockSize : UInt64) : UInt64 :=
  if amount = 0 then 0
  else if currentBlockSize ≤ medianSize then amount
  else
    let product := mul128 amount (currentBlockSize * (2 * medianSize - currentBlockSize))
    let penalized := div128By32 product.1 product.2 medianSize.toUInt32
    (div128By32 penalized.1 penalized.2.1 medianSize.toUInt32).2.1

/-- The reward of a block, and by how much it changes the number of coins. The change is a signed
number, here as its 64 bits. -/
def getBlockReward (blockMajorVersion : UInt8) (effectiveMedianSize currentBlockSize : UInt64)
    (alreadyGeneratedCoins fee : Amount) : Amount × UInt64 :=
  let baseReward := calcBaseReward blockMajorVersion alreadyGeneratedCoins
  let penalizedBaseReward := getPenalizedAmount baseReward effectiveMedianSize currentBlockSize
  let penalizedFee :=
    if 2 ≤ blockMajorVersion then getPenalizedAmount fee effectiveMedianSize currentBlockSize
    else fee
  (penalizedBaseReward + penalizedFee, penalizedBaseReward - (fee - penalizedFee))

/-! ## The difficulty -/

/-- The part of a sorted window that is left after cutting `cut` items from both ends. -/
def cutWindow (length window cut : ℕ) : ℕ × ℕ :=
  if length ≤ window - 2 * cut then (0, length)
  else
    let cutBegin := (length - (window - 2 * cut) + 1) / 2
    (cutBegin, cutBegin + (window - 2 * cut))

/-- The work done in a window, times the target, and the time it took. There is none when the
numbers overflow. -/
def workAndTime (timestamps : List Timestamp) (cumulativeDifficulties : List Difficulty)
    (window cut : ℕ) : Option (UInt64 × UInt64) :=
  let sorted := timestamps.insertionSort (· ≤ ·)
  let p := cutWindow timestamps.length window cut
  let span := sorted.getD (p.2 - 1) 0 - sorted.getD p.1 0
  let timeSpan := if span = 0 then 1 else span
  let totalWork := cumulativeDifficulties.getD (p.2 - 1) 0 - cumulativeDifficulties.getD p.1 0
  let product := mul128 totalWork cur.difficultyTarget.toUInt64
  if product.1 ≠ 0 ∨ 0xFFFFFFFFFFFFFFFF - product.2 < (timeSpan - 1).toUInt64 then none
  else some (product.2, timeSpan.toUInt64)

def nextDifficultyV1 (blockIndex : Height) (timestamps : List Timestamp)
    (cumulativeDifficulties : List Difficulty) : Difficulty :=
  let window := cur.difficultyWindow.toNat
  let length := min timestamps.length window
  if length ≤ 1 then 1
  else
    match cur.workAndTime (timestamps.take window) (cumulativeDifficulties.take window) window
      difficultyCut with
    | none => 0
    | some (low, timeSpan) =>
      if hardforkV1Height ≤ blockIndex then
        -- only the last 17 blocks count from here on
        let last := min length 17
        match cur.workAndTime (timestamps.drop (timestamps.length - last))
          (cumulativeDifficulties.drop (cumulativeDifficulties.length - last)) 17 0 with
        | none => 0
        | some (low, timeSpan) => max 100 (low / timeSpan)
      else (low + timeSpan - 1) / timeSpan

/-- The time a block took, within the limits of what is believed. -/
def solveTime (timestamps : List Timestamp) (i : ℕ) : Int64 :=
  let st : Int64 := (timestamps.getD i 0).toUInt64.toInt64 - (timestamps.getD (i - 1) 0).toUInt64.toInt64
  max (-180) (min st (6 * cur.difficultyTarget.toUInt64.toInt64))

/-- The solve times, the later ones with the larger weights. -/
def weightedSolveTimes (timestamps : List Timestamp) : Int64 :=
  ((List.range' 1 difficultyWindowV2).map fun i ↦
    cur.solveTime timestamps i * Int64.ofNat i).sum

/-- The weighted solve times are a divisor, and nothing keeps them from being zero. -/
def nextDifficultyV2 (timestamps : List Timestamp) (cumulativeDifficulties : List Difficulty) :
    Except Fault Difficulty :=
  let target := cur.difficultyTarget.toUInt64
  let n := difficultyWindowV2
  if timestamps.length ≤ n then .ok 1000
  else
    let l := cur.weightedSolveTimes timestamps
    let sum3 := cur.solveTime timestamps (n - 2) + cur.solveTime timestamps (n - 1) +
      cur.solveTime timestamps n
    if l = 0 then .error .divisionByZero
    else
      let nextD := (cumulativeDifficulties.getD n 0 - cumulativeDifficulties.getD 0 0) * target *
        61 * 99 / (100 * 2 * l).toUInt64
      let prevD := cumulativeDifficulties.getD n 0 - cumulativeDifficulties.getD (n - 1) 0
      if sum3 < 8 * target.toInt64 / 10 then .ok (prevD.toInt64 * 110 / 100).toUInt64
      else .ok nextD

def nextDifficulty (blockIndex : Height) (timestamps : List Timestamp)
    (cumulativeDifficulties : List Difficulty) : Except Fault Difficulty :=
  if blockIndex ≤ hardforkV2Height then
    .ok (cur.nextDifficultyV1 blockIndex timestamps cumulativeDifficulties)
  else cur.nextDifficultyV2 timestamps cumulativeDifficulties

/-! ## The proof of work -/

/-- Whether adding two words and a carry overflows. -/
def cadc (a b : UInt64) (c : Bool) : Bool := a + b < a || (c && a + b == 0xFFFFFFFFFFFFFFFF)

/-- The `i`-th word of a hash, lowest byte first. -/
def hashWord (h : Hash) (i : ℕ) : UInt64 :=
  UInt64.ofNat (beNat (((writeHash h).drop (8 * i)).take 8).reverse)

/-- `check_hash`: the hash times the difficulty stays below `2 ^ 256`. -/
def checkHash (h : Hash) (difficulty : Difficulty) : Bool :=
  let p3 := mul128 (hashWord h 3) difficulty
  if p3.1 ≠ 0 then false
  else
    let p0 := mul128 (hashWord h 0) difficulty
    let p1 := mul128 (hashWord h 1) difficulty
    let p2 := mul128 (hashWord h 2) difficulty
    let carry := p0.1 + p1.2 < p0.1
    let carry := cadc p1.1 p2.2 carry
    !cadc p2.1 p3.2 carry

def checkProofOfWorkV1 (longBlockHash : Hash) (block : BlockTemplate)
    (currentDifficulty : Difficulty) : Bool :=
  block.majorVersion == 1 && checkHash longBlockHash currentDifficulty

end Currency

namespace Env

variable (env : Env)

def genesisBlockHash : Hash :=
  (getBlockHash env.crypto env.currency.genesisBlockTemplate).getD 0

/-- The parent block of a merge-mined block commits to the block by its merge mining tag. -/
def checkProofOfWorkV2 (longBlockHash : Hash) (block : BlockTemplate)
    (currentDifficulty : Difficulty) : Except Fault Bool :=
  if block.majorVersion < 2 then .ok false
  else
    match getMergeMiningTagFromExtra block.parentBlock.baseTransaction.extra with
    | none => .ok false
    | some tag =>
      if 256 < block.parentBlock.blockchainBranch.length then .ok false
      else
        match getAuxiliaryBlockHeaderHash env.crypto block with
        | none => .error .notWritable
        | some aux =>
          .ok (treeHashFromBranch env.crypto block.parentBlock.blockchainBranch aux
              (some env.genesisBlockHash) == tag.merkleRoot &&
            Currency.checkHash longBlockHash currentDifficulty)

def checkProofOfWork (longBlockHash : Hash) (block : BlockTemplate)
    (currentDifficulty : Difficulty) : Except Fault Bool :=
  if block.majorVersion = 1 then .ok (Currency.checkProofOfWorkV1 longBlockHash block currentDifficulty)
  else if 2 ≤ block.majorVersion ∧ block.majorVersion ≤ 4 then
    env.checkProofOfWorkV2 longBlockHash block currentDifficulty
  else .ok false

end Env

end CryoNero
