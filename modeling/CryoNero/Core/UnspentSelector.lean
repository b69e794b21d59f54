import CryoNero.Core.TransactionBuilder
import CryoNero.Core.Mining
import CryoNero.Store.Piles

/-!
# Choosing coins

The outputs of a wallet that can be spent are sorted into piles: the round amounts by their first
digit and the number of digits behind it, all others as dust by their amount. Coins are taken off the
piles until they cover what is to be sent and the fee. The fee follows from the number of coins, so
the choice is made again with a larger fee until the fee is enough, and with less ambition when the
transaction becomes too large.

The map of maps of the source, in which no inner map is empty, is one map by pairs here. What would
read the top of an empty pile or the last entry of an empty map is an error, and so is a loop that
does not come to its end in the turns it is given.
-/

namespace CryoNero

open Store

namespace Currency

def minimumFee : Amount := 1000000

end Currency

/-- `get_maximum_tx_size` -/
def getMaximumTxSize (inputCount outputCount mixinCount : UInt64) : UInt64 :=
  let amountSize : UInt64 := 8 + 2
  let outputsSize := outputCount * (1 + 32 + amountSize)
  let headerSize : UInt64 := 1 + 8 + 1 + 32
  let inputSize := 1 + amountSize + 32 + 64 + 1 + 4 + mixinCount * (4 + 64)
  headerSize + outputsSize + inputSize * inputCount

namespace UnspentSelector

instance transOrdDigits : Std.TransOrd (ℕ ×ₗ ℕ) := inferInstance

abbrev HaveCoins := Piles (ℕ ×ₗ ℕ) Api.Output
abbrev DustCoins := Piles Amount Api.Output

inductive Fault
  | emptyStack
  | endless
  deriving DecidableEq, Repr

/-- The selector while it chooses, with the piles that coins are taken from. -/
structure Selecting where
  haveCoins : HaveCoins := ∅
  dustCoins : DustCoins := ∅
  maxDigit : ℕ := 0
  usedUnspents : List Api.Output := []
  optimizationUnspents : List Api.Output := []
  usedTotal : Amount := 0
  inputsCount : UInt64 := 0
  raAmounts : List Amount := []

def fakeLarge : Amount := 1000000000000000000
def optimizationsPerTx : ℕ := 50
def optimizationsPerTxAggressive : ℕ := 200
def medianPercent : UInt64 := 12
def medianPercentAggressive : UInt64 := 30
def stackOptimizationThreshold : ℕ := 20
def twoThreshold : ℕ := 10

/-- The number of digits behind the first digit, and the first digit. An amount has at most nineteen
digits behind the first one. -/
def firstDigit : ℕ → Amount → ℕ → ℕ ×ₗ ℕ
  | 0, am, digit => toLex (digit, am.toNat)
  | fuel + 1, am, digit =>
    if 9 < am then firstDigit fuel (am / 10) (digit + 1) else toLex (digit, am.toNat)

def digitOf (amount : Amount) : ℕ ×ₗ ℕ := firstDigit 19 amount 0

namespace Selecting

variable (s : Selecting)

/-! ## Coins on piles -/

/-- One turn of `create_have_coins`. -/
def addCoin (currency : Currency) (blockHeight : Height) (blockTime : Timestamp)
    (confirmedHeight : Height) (un : Api.Output) : Selecting :=
  if confirmedHeight ≤ un.height then s
  else if currency.isTransactionSpendTimeUnlocked un.unlockTime blockHeight blockTime = false then s
  else if Currency.isDust un.amount = false then
    { s with
      maxDigit := max s.maxDigit (ofLex (digitOf un.amount)).1
      haveCoins := s.haveCoins.push (digitOf un.amount) un }
  else { s with dustCoins := s.dustCoins.push un.amount un }

/-- `create_have_coins` -/
def createHaveCoins (currency : Currency) (blockHeight : Height) (blockTime : Timestamp)
    (confirmedHeight : Height) (unspents : List Api.Output) : Selecting :=
  unspents.reverse.foldl (fun s un ↦ s.addCoin currency blockHeight blockTime confirmedHeight un) {}

/-- A coin is taken for now. -/
def use (un : Api.Output) : Selecting :=
  { s with
    optimizationUnspents := s.optimizationUnspents ++ [un]
    usedTotal := s.usedTotal + un.amount
    inputsCount := s.inputsCount + 1 }

/-- Take a coin off a pile of round amounts, and remove the pile if it is empty then. -/
def takeHave (key : ℕ ×ₗ ℕ) : Except Fault Selecting := do
  let p ← orFail .emptyStack (s.haveCoins.popBack key)
  return { s.use p.1 with haveCoins := p.2.prune key }

def takeDust (amount : Amount) : Except Fault Selecting := do
  let p ← orFail .emptyStack (s.dustCoins.popBack amount)
  return { s.use p.1 with dustCoins := p.2.prune amount }

/-- One turn of `unoptimize_amounts`. The coin goes back on a pile that the flag of the coin chooses,
not its amount. -/
def giveBack (un : Api.Output) : Selecting :=
  let s := { s with usedTotal := s.usedTotal - un.amount, inputsCount := s.inputsCount - 1 }
  if un.dust = false then { s with haveCoins := s.haveCoins.push (digitOf un.amount) un }
  else { s with dustCoins := s.dustCoins.push un.amount un }

/-- `unoptimize_amounts` -/
def unoptimizeAmounts : Selecting :=
  { s.optimizationUnspents.foldl giveBack s with optimizationUnspents := [] }

/-- `combine_optimized_unspents` -/
def combineOptimizedUnspents : Selecting :=
  { s with
    raAmounts := s.raAmounts ++ s.optimizationUnspents.map (·.amount)
    usedUnspents := s.usedUnspents ++ s.optimizationUnspents
    optimizationUnspents := [] }

/-! ## Digit by digit -/

/-- The piles of amounts with `digit` digits behind the first one, by the first digit. -/
def piles (digit : ℕ) : List (ℕ × List Api.Output) :=
  s.haveCoins.toList.filterMap fun p ↦
    if (ofLex p.1).1 = digit then some ((ofLex p.1).2, p.2) else none

/-- The pair of piles with the most coins of those that fill the digit up together. -/
def bestPair (am : ℕ) (piles : List (ℕ × List Api.Output)) : ℕ × ℕ × ℕ :=
  (piles.flatMap fun a ↦ piles.map fun b ↦ (a, b)).foldl (fun best p ↦
    if (p.1.1 + p.2.1 + am) % 10 = 0 ∧
        (twoThreshold ≤ p.1.2.length ∨ twoThreshold ≤ p.2.2.length) ∧
        best.1 < p.1.2.length + p.2.2.length then
      (p.1.2.length + p.2.2.length, p.1.1, p.2.1)
    else best) (0, 0, 0)

/-- The first pile that fills the digit up, or else the one with the most coins of those beyond it. -/
def bestSingle (am : ℕ) : List (ℕ × List Api.Output) → ℕ × ℕ → ℕ
  | [], best => best.2
  | a :: rest, best =>
    if (a.1 + am) % 10 = 0 then a.1
    else if 10 - am < a.1 ∧ best.1 < a.2.length then bestSingle am rest (a.2.length, a.1)
    else bestSingle am rest best

/-- One turn of `optimize_amounts`. -/
def optimizeDigit (totalAmount : Amount) (digit : ℕ) (digitAmount : Amount) :
    Except Fault Selecting := do
  let am := 10 -
    ((fakeLarge + totalAmount + digitAmount - 1 - s.usedTotal) / digitAmount % 10).toNat
  let piles := s.piles digit
  let pair := bestPair am piles
  let single := bestSingle am piles (0, 0)
  if piles = [] then .ok s
  else if pair.1 ≠ 0 then do
    let s ← s.takeHave (toLex (digit, pair.2.1))
    s.takeHave (toLex (digit, pair.2.2))
  else if am = 10 then .ok s
  else if single ≠ 0 then s.takeHave (toLex (digit, single))
  else .ok s

/-- `optimize_amounts` from a digit on, for as many digits as are left. -/
def optimizeAmounts (totalAmount : Amount) : ℕ → ℕ → Amount → Selecting → Except Fault Selecting
  | 0, _, _, s => .ok s
  | n + 1, digit, digitAmount, s =>
    if totalAmount ≤ s.usedTotal ∧ s.usedTotal < digitAmount then .ok s
    else do
      let s ← s.optimizeDigit totalAmount digit digitAmount
      optimizeAmounts totalAmount n (digit + 1) (digitAmount * 10) s

/-! ## The phases of a choice -/

/-- The smallest dust coin that is enough. -/
def takeLargeDust (totalAmount : Amount) : Except Fault Selecting :=
  if s.usedTotal < totalAmount then
    match s.dustCoins.toList.find? fun p ↦ totalAmount - s.usedTotal ≤ p.1 with
    | none => .ok s
    | some p => s.takeDust p.1
  else .ok s

/-- The largest dust coins. -/
def takeManyDust (totalAmount : Amount) : ℕ → Selecting → Except Fault (Selecting × ℕ)
  | 0, s => .ok (s, 0)
  | count + 1, s =>
    if s.usedTotal < totalAmount then
      match s.dustCoins.toList.getLast? with
      | none => .ok (s, count + 1)
      | some p => do
        let s ← s.takeDust p.1
        takeManyDust totalAmount count s
    else .ok (s, count + 1)

/-- Dust coins, which are taken first unless the coins are to be mixed. -/
def takeDustCoins (totalAmount : Amount) (anonymity : UInt64) (optimizationCount : ℕ) :
    Except Fault (Selecting × ℕ) :=
  if anonymity = 0 then do
    let s ← s.takeLargeDust totalAmount
    takeManyDust totalAmount optimizationCount s
  else .ok (s, optimizationCount)

/-- The highest pile of those with more than `threshold` coins. -/
def bestStack : Option (ℕ ×ₗ ℕ) :=
  (s.haveCoins.toList.foldl (fun best p ↦
    if best.1 < p.2.length then (p.2.length, some p.1) else best)
    (stackOptimizationThreshold, (none : Option (ℕ ×ₗ ℕ)))).2

/-- Take coins off a pile that stays. -/
def takeStack (key : ℕ ×ₗ ℕ) : ℕ → Selecting → Except Fault Selecting
  | 0, s => .ok s
  | n + 1, s => do
    let p ← orFail .emptyStack (s.haveCoins.popBack key)
    takeStack key n { s.use p.1 with haveCoins := p.2 }

/-- Ten coins off each of the highest piles. -/
def takeStacks : ℕ → Selecting → Except Fault Selecting
  | count + 10, s =>
    match s.bestStack with
    | none => .ok s
    | some key => do
      let s ← takeStack key 10 s
      takeStacks count s
  | _, s => .ok s

/-- The smallest coin that is enough. -/
def takeSingle (totalAmount : Amount) : Except Fault Selecting :=
  match s.haveCoins.toList.find? fun p ↦
      decide ((ofLex p.1).1 ≤ s.maxDigit ∧ p.2 ≠ [] ∧
        totalAmount - s.usedTotal ≤ UInt64.ofNat (ofLex p.1).2 * 10 ^ (ofLex p.1).1) with
  | none => .ok s
  | some p => s.takeHave p.1

/-- The amount of the coin on top of the last pile. -/
def lastAmount {κ : Type} [Ord κ] [Std.TransOrd κ] (coins : Piles κ Api.Output) :
    Except Fault Amount :=
  match coins.toList.getLast? with
  | none => .ok 0
  | some p => do
    let un ← orFail .emptyStack p.2.getLast?
    return un.amount

/-- Dust is not mixed. -/
def lastDustAmount (anonymity : UInt64) : Except Fault Amount :=
  if anonymity = 0 then lastAmount s.dustCoins else .ok 0

/-- The coin on top of the last pile, or of the last pile of dust if that is worth as much. -/
def takeLargest (anonymity : UInt64) : Except Fault Selecting := do
  let haAmount ← lastAmount s.haveCoins
  let duAmount ← s.lastDustAmount anonymity
  if duAmount < haAmount then do
    let p ← orFail .emptyStack s.haveCoins.toList.getLast?
    s.takeHave p.1
  else do
    let p ← orFail .emptyStack s.dustCoins.toList.getLast?
    s.takeDust p.1

/-- The largest coins until they are enough; `false` when there are no more. -/
def fill (totalAmount : Amount) (anonymity : UInt64) : ℕ → Selecting → Except Fault (Selecting × Bool)
  | 0, _ => .error .endless
  | fuel + 1, s =>
    if s.usedTotal < totalAmount then
      if s.haveCoins.isEmpty ∧ (anonymity ≠ 0 ∨ s.dustCoins.isEmpty) then .ok (s, false)
      else do
        let s ← s.takeLargest anonymity
        fill totalAmount anonymity fuel s
    else .ok (s, true)

/-- The number of coins on the piles. -/
def coinsLeft : ℕ := s.haveCoins.contents.card + s.dustCoins.contents.card

/-- The phases that look for coins which are worth spending together. -/
def takeTogether (totalAmount : Amount) (anonymity : UInt64) (optimizationCount : ℕ) :
    Except Fault Selecting := do
  let p ← s.takeDustCoins totalAmount anonymity optimizationCount
  let s ← takeStacks p.2 p.1
  optimizeAmounts totalAmount (s.maxDigit + 1) 0 1 s

/-- The phase that takes what there is, when the other ones did not succeed. -/
def fillUp (totalAmount : Amount) (anonymity : UInt64) : Except Fault (Selecting × Bool) := do
  let p ← fill totalAmount anonymity (s.coinsLeft + 1) s
  if p.2 = true then do
    let s ← optimizeAmounts totalAmount (p.1.maxDigit + 1) 0 1 p.1
    return (s, true)
  else return (p.1, false)

/-- The inner `select_optimal_outputs`: `true` when the coins that are taken are enough. -/
def selectOptimalOutputs (totalAmount : Amount) (anonymity : UInt64) (optimizationCount : ℕ) :
    Except Fault (Selecting × Bool) := do
  let s ← s.takeTogether totalAmount anonymity optimizationCount
  if totalAmount ≤ s.usedTotal then return (s, true)
  else do
    let s ← s.takeSingle totalAmount
    if totalAmount ≤ s.usedTotal then return (s, true)
    else s.unoptimizeAmounts.fillUp totalAmount anonymity

end Selecting

/-! ## Rounds -/

/-- What coins are chosen for. -/
structure Request where
  totalAmount : Amount
  totalOutputs : UInt64
  anonymity : UInt64
  feePerByte : Amount
  medianSize : UInt64
  optimizationLevel : String

namespace Request

variable (r : Request)

def effectiveMedianSize : UInt64 := 120 * r.medianSize / 100

def optimizations : ℕ :=
  if r.optimizationLevel = "aggressive" then optimizationsPerTxAggressive
  else if r.optimizationLevel = "minimal" then 9
  else optimizationsPerTx

def optimizationMedian : UInt64 :=
  r.effectiveMedianSize *
    (if r.optimizationLevel = "aggressive" then medianPercentAggressive else medianPercent) / 100

end Request

/-- How a choice ends: with a text that says why it failed or with the change. The fee is the one of
the last round. -/
structure Selected where
  state : Selecting
  fee : Amount
  result : Except String Amount

/-- The rounds of `select_optimal_outputs`. -/
def rounds (r : Request) : ℕ → Amount → ℕ → Selecting → Except Fault Selected
  | 0, _, _, _ => .error .endless
  | fuel + 1, fee, optimizations, s => do
    let (s, enough) ← s.selectOptimalOutputs (r.totalAmount + fee) r.anonymity optimizations
    if enough = false then return ⟨s, fee, .error "NOT_ENOUGH_FUNDS"⟩
    else
      let threshold := Currency.defaultDustThreshold
      let changeDustFee := (s.usedTotal - r.totalAmount - fee) % threshold
      -- eight outputs are expected for the change at most
      let txSize := getMaximumTxSize s.inputsCount (r.totalOutputs + 8) r.anonymity
      if r.optimizationMedian < txSize ∧ 0 < optimizations then
        let optimizations := if optimizations / 2 < 10 then 0 else optimizations / 2
        rounds r fuel fee optimizations s.unoptimizeAmounts
      else if r.effectiveMedianSize < txSize then
        return ⟨s, fee, .error "TRANSACTION_DOES_NOT_FIT_IN_BLOCK"⟩
      else
        let sizeFee := r.feePerByte * txSize
        if sizeFee ≤ fee + changeDustFee then
          return ⟨s.combineOptimizedUnspents, fee,
            .ok (s.usedTotal - r.totalAmount - fee - changeDustFee)⟩
        else
          rounds r fuel ((sizeFee - changeDustFee + threshold - 1) / threshold * threshold)
            optimizations s.unoptimizeAmounts

/-- `select_optimal_outputs` of a selector that was created or reset with some outputs. -/
def selectOptimalOutputs (currency : Currency) (blockHeight : Height) (blockTime : Timestamp)
    (confirmedHeight : Height) (r : Request) (unspents : List Api.Output) (fuel : ℕ) :
    Except Fault Selected :=
  rounds r fuel Currency.minimumFee r.optimizations
    (Selecting.createHaveCoins currency blockHeight blockTime confirmedHeight unspents)

end UnspentSelector

end CryoNero
