import PerpexEngine.Core.Types
import PerpexEngine.Lib.BitScan
import PerpexEngine.Lib.Heap
import Std.Data.ExtTreeMap

/-! Storage of price levels: the ring of slots with its occupancy bitmap, and the ordered map
of the prices outside the ring. Levels live in a heap; slots and map entries own addresses. -/
namespace PerpexEngine
open BitScan

abbrev kBitmapWordBits : ℕ := 64

def bitmapWordCount (capacity : ℕ) : ℕ := (capacity + kBitmapWordBits - 1) / kBitmapWordBits

def priceToLadderTick (price : Price) (tickSizeTicks : ℤ) : ℤ :=
  if tickSizeTicks ≤ 0 then price.ticks else price.ticks.tdiv tickSizeTicks

/-- The condition under which a level is dropped from storage. -/
def levelIsDone (levels : Heap PriceLevel) (level : LevelPtr) : Bool :=
  match levels.read level with
  | some l => l.isEmpty || l.totalQuantity.isZero
  | none => false

structure RingPriceLadder where
  side : Side
  tickSizeTicks : ℤ
  baseTick : ℤ
  headIndex : ℕ
  capacity : ℕ
  slots : Array (Option LevelPtr)
  activeSlotBitmap : Array Word
deriving DecidableEq

namespace RingPriceLadder

def new (side : Side) (tickSizeTicks baseTick : ℤ) (capacity : ℕ) : RingPriceLadder where
  side := side
  tickSizeTicks := tickSizeTicks
  baseTick := baseTick
  headIndex := 0
  capacity := capacity
  slots := Array.replicate capacity none
  activeSlotBitmap := Array.replicate (bitmapWordCount capacity) 0

def slotAt (ladder : RingPriceLadder) (i : ℕ) : Option LevelPtr := ladder.slots.getD i none

def wordAt (ladder : RingPriceLadder) (i : ℕ) : Word := ladder.activeSlotBitmap.getD i 0

def containsTick (ladder : RingPriceLadder) (priceTick : ℤ) : Bool :=
  ladder.capacity ≠ 0 && ladder.baseTick ≤ priceTick &&
    (priceTick - ladder.baseTick).toNat < ladder.capacity

def priceTickToSlot (ladder : RingPriceLadder) (priceTick : ℤ) : ℕ :=
  (ladder.headIndex + (priceTick - ladder.baseTick).toNat) % ladder.capacity

def markActive (ladder : RingPriceLadder) (slotIndex : ℕ) : RingPriceLadder :=
  if ladder.capacity ≤ slotIndex then ladder
  else
    let word := setBit (ladder.wordAt (slotIndex / kBitmapWordBits)) (slotIndex % kBitmapWordBits)
    { ladder with
      activeSlotBitmap := ladder.activeSlotBitmap.setIfInBounds (slotIndex / kBitmapWordBits) word }

def markInactive (ladder : RingPriceLadder) (slotIndex : ℕ) : RingPriceLadder :=
  if ladder.capacity ≤ slotIndex then ladder
  else
    let word := clearBit (ladder.wordAt (slotIndex / kBitmapWordBits)) (slotIndex % kBitmapWordBits)
    { ladder with
      activeSlotBitmap := ladder.activeSlotBitmap.setIfInBounds (slotIndex / kBitmapWordBits) word }

def setSlot (ladder : RingPriceLadder) (slotIndex : ℕ) (level : Option LevelPtr) :
    RingPriceLadder :=
  { ladder with slots := ladder.slots.setIfInBounds slotIndex level }

def clearSlot (ladder : RingPriceLadder) (slotIndex : ℕ) : RingPriceLadder :=
  if ladder.capacity ≤ slotIndex then ladder
  else (ladder.setSlot slotIndex none).markInactive slotIndex

/-- The `while (bits != 0)` loop of the upward scan; each round clears one of the 64 bits. -/
def scanWordUp (wordIndex : ℕ) : ℕ → Word → RingPriceLadder → Option LevelPtr × RingPriceLadder
  | 0, _, ladder => (none, ladder)
  | rounds + 1, bits, ladder =>
    if bits = 0 then (none, ladder)
    else
      let slotIndex := wordIndex * kBitmapWordBits + lowestBit bits
      let bits' := bits &&& (bits - 1)
      if slotIndex < ladder.capacity then
        match ladder.slotAt slotIndex with
        | some level => (some level, ladder)
        | none => scanWordUp wordIndex rounds bits' (ladder.markInactive slotIndex)
      else scanWordUp wordIndex rounds bits' ladder

/-- The same loop taking the highest set bit first. -/
def scanWordDown (wordIndex : ℕ) : ℕ → Word → RingPriceLadder → Option LevelPtr × RingPriceLadder
  | 0, _, ladder => (none, ladder)
  | rounds + 1, bits, ladder =>
    if bits = 0 then (none, ladder)
    else
      let slotIndex := wordIndex * kBitmapWordBits + highestBit bits
      let bits' := clearBit bits (highestBit bits)
      if slotIndex < ladder.capacity then
        match ladder.slotAt slotIndex with
        | some level => (some level, ladder)
        | none => scanWordDown wordIndex rounds bits' (ladder.markInactive slotIndex)
      else scanWordDown wordIndex rounds bits' ladder

/-- The word with the bits outside the slot range masked off. -/
def maskedWord (ladder : RingPriceLadder) (firstSlot lastSlot wordIndex : ℕ) : Word :=
  let bits := ladder.wordAt wordIndex
  let bits := if wordIndex = firstSlot / kBitmapWordBits
    then bits &&& bitsFrom (firstSlot % kBitmapWordBits) else bits
  if wordIndex = lastSlot / kBitmapWordBits
    then bits &&& bitsThrough (lastSlot % kBitmapWordBits) else bits

/-- `count` words upward from `wordIndex`. -/
def scanUp (firstSlot lastSlot : ℕ) :
    ℕ → ℕ → RingPriceLadder → Option LevelPtr × RingPriceLadder
  | 0, _, ladder => (none, ladder)
  | count + 1, wordIndex, ladder =>
    match scanWordUp wordIndex kBitmapWordBits
        (ladder.maskedWord firstSlot lastSlot wordIndex) ladder with
    | (some level, ladder) => (some level, ladder)
    | (none, ladder) => scanUp firstSlot lastSlot count (wordIndex + 1) ladder

/-- `count` words downward, the last of them at `firstWord`. -/
def scanDown (firstSlot lastSlot firstWord : ℕ) :
    ℕ → RingPriceLadder → Option LevelPtr × RingPriceLadder
  | 0, ladder => (none, ladder)
  | count + 1, ladder =>
    match scanWordDown (firstWord + count) kBitmapWordBits
        (ladder.maskedWord firstSlot lastSlot (firstWord + count)) ladder with
    | (some level, ladder) => (some level, ladder)
    | (none, ladder) => scanDown firstSlot lastSlot firstWord count ladder

def firstActiveLevelInRange (ladder : RingPriceLadder) (firstSlot lastSlot : ℕ) :
    Option LevelPtr × RingPriceLadder :=
  if lastSlot < firstSlot || ladder.activeSlotBitmap.isEmpty then (none, ladder)
  else scanUp firstSlot lastSlot
    (lastSlot / kBitmapWordBits + 1 - firstSlot / kBitmapWordBits)
    (firstSlot / kBitmapWordBits) ladder

def lastActiveLevelInRange (ladder : RingPriceLadder) (firstSlot lastSlot : ℕ) :
    Option LevelPtr × RingPriceLadder :=
  if lastSlot < firstSlot || ladder.activeSlotBitmap.isEmpty then (none, ladder)
  else scanDown firstSlot lastSlot (firstSlot / kBitmapWordBits)
    (lastSlot / kBitmapWordBits + 1 - firstSlot / kBitmapWordBits) ladder

def advanceBestAfterEmpty (ladder : RingPriceLadder) : Option LevelPtr × RingPriceLadder :=
  if ladder.capacity = 0 then (none, ladder)
  else match ladder.side with
  | .buy =>
    if 0 < ladder.headIndex then
      match ladder.lastActiveLevelInRange 0 (ladder.headIndex - 1) with
      | (some level, ladder) => (some level, ladder)
      | (none, ladder) => ladder.lastActiveLevelInRange ladder.headIndex (ladder.capacity - 1)
    else ladder.lastActiveLevelInRange ladder.headIndex (ladder.capacity - 1)
  | .sell =>
    match ladder.firstActiveLevelInRange ladder.headIndex (ladder.capacity - 1) with
    | (some level, ladder) => (some level, ladder)
    | (none, ladder) =>
      if 0 < ladder.headIndex then ladder.firstActiveLevelInRange 0 (ladder.headIndex - 1)
      else (none, ladder)

def bestLevel (ladder : RingPriceLadder) : Option LevelPtr × RingPriceLadder :=
  ladder.advanceBestAfterEmpty

def getLevel (ladder : RingPriceLadder) (price : Price) : Option LevelPtr :=
  if ladder.capacity = 0 then none
  else
    let priceTick := priceToLadderTick price ladder.tickSizeTicks
    if !ladder.containsTick priceTick then none
    else ladder.slotAt (ladder.priceTickToSlot priceTick)

def getOrCreateLevel (ladder : RingPriceLadder) (levels : Heap PriceLevel) (price : Price) :
    Option LevelPtr × RingPriceLadder × Heap PriceLevel :=
  if ladder.capacity = 0 then (none, ladder, levels)
  else
    let priceTick := priceToLadderTick price ladder.tickSizeTicks
    if !ladder.containsTick priceTick then (none, ladder, levels)
    else
      let slotIndex := ladder.priceTickToSlot priceTick
      match ladder.slotAt slotIndex with
      | some level => (some level, ladder.markActive slotIndex, levels)
      | none => (some levels.next,
          (ladder.setSlot slotIndex (some levels.next)).markActive slotIndex,
          levels.alloc (.new price))

def removeLevelIfEmpty (ladder : RingPriceLadder) (levels : Heap PriceLevel) (price : Price) :
    RingPriceLadder × Heap PriceLevel :=
  if ladder.capacity = 0 then (ladder, levels)
  else
    let priceTick := priceToLadderTick price ladder.tickSizeTicks
    if !ladder.containsTick priceTick then (ladder, levels)
    else
      let slotIndex := ladder.priceTickToSlot priceTick
      match ladder.slotAt slotIndex with
      | none => (ladder.markInactive slotIndex, levels)
      | some level =>
        if levelIsDone levels level then (ladder.clearSlot slotIndex, levels.free level)
        else (ladder, levels)

end RingPriceLadder

/-- Levels outside the ring, keyed by raw ticks. -/
structure FarPriceMap where
  side : Side
  levels : Std.ExtTreeMap ℤ LevelPtr

namespace FarPriceMap

def new (side : Side) : FarPriceMap := ⟨side, ∅⟩

def getOrCreateLevel (far : FarPriceMap) (levels : Heap PriceLevel) (price : Price) :
    LevelPtr × FarPriceMap × Heap PriceLevel :=
  match far.levels[price.ticks]? with
  | some level => (level, far, levels)
  | none => (levels.next, { far with levels := far.levels.insert price.ticks levels.next },
      levels.alloc (.new price))

def removeLevelIfEmpty (far : FarPriceMap) (levels : Heap PriceLevel) (price : Price) :
    FarPriceMap × Heap PriceLevel :=
  match far.levels[price.ticks]? with
  | none => (far, levels)
  | some level =>
    if levelIsDone levels level then
      ({ far with levels := far.levels.erase price.ticks }, levels.free level)
    else (far, levels)

/-- The entries in ascending price order for asks, descending for bids. -/
def entriesFromBest (far : FarPriceMap) : List (ℤ × LevelPtr) :=
  match far.side with
  | .buy => far.levels.toList.reverse
  | .sell => far.levels.toList

def bestLevel (far : FarPriceMap) (levels : Heap PriceLevel) : Option LevelPtr :=
  (far.entriesFromBest.find? fun entry =>
    (levels.read entry.2).any fun level => !level.isEmpty).map (·.2)

end FarPriceMap
end PerpexEngine
