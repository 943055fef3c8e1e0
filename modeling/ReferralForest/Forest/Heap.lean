import ReferralForest.Forest.Basic

/-!
# The lottery heap

Tickets lie in a binary heap with the smallest key on top: position `i` has its
children at `2i + 1` and `2i + 2`. Every slot is an entry of the store of its
own, so a sift moves tickets one slot at a time towards a hole and fills the
hole last. A push opens the hole after the last ticket, a pop at the top.
Positions have 64 bits.
-/

namespace ReferralForest
namespace Tx

def siftUp (ticket : Ticket) (size position : Nat) : Tx Unit :=
  if h : position = 0 then writeSlot position ticket else do
    let above := (position - 1) / 2
    let parent ← readOccupied above size
    if parent.key ≤ ticket.key then writeSlot position ticket else do
      writeSlot position parent
      siftUp ticket size above
  termination_by position
  decreasing_by omega

def heapPush (capacity : Nat) (ticket : Ticket) : Tx Bool := do
  let size ← readHeapSize
  if capacity ≤ size then return false
  writeHeapSize (size + 1)
  siftUp ticket (size + 1) size
  return true

def settle (ticket child : Ticket) (position : Nat) (next : Tx Unit) : Tx Unit :=
  if ticket.key ≤ child.key then writeSlot position ticket else do
    writeSlot position child
    next

/-- The first position whose children have no position of 64 bits. -/
def firstChildless : Nat := Numeric.twoPow 63

/-- Moves the hole from `position` down past every smaller key, along the
smaller child and the left one of two equals, and fills it with `ticket`. -/
def siftDown (ticket : Ticket) (size position : Nat) : Tx Unit :=
  if firstChildless ≤ position then fail .outOfRange
  else if hl : size ≤ 2 * position + 1 then writeSlot position ticket else do
    let left ← readOccupied (2 * position + 1) size
    if hr : size ≤ 2 * position + 2 then
      settle ticket left position (siftDown ticket size (2 * position + 1))
    else do
      let right ← readOccupied (2 * position + 2) size
      if right.key < left.key then
        settle ticket right position (siftDown ticket size (2 * position + 2))
      else
        settle ticket left position (siftDown ticket size (2 * position + 1))
  termination_by size - position
  decreasing_by all_goals omega

def heapPop : Tx (Option Ticket) := do
  let size ← readHeapSize
  if size = 0 then return none
  let least ← readOccupied 0 size
  let last ← readOccupied (size - 1) size
  let _ ← remove (Key.slot (size - 1))
  writeHeapSize (size - 1)
  if size - 1 ≠ 0 then siftDown last (size - 1) 0
  return some least

def readTickets (size : Nat) : (position count : Nat) → Tx (List Ticket)
  | _, 0 => return []
  | position, count + 1 => do
    let ticket ← readOccupied position size
    return ticket :: (← readTickets size (position + 1) count)

end Tx
end ReferralForest
