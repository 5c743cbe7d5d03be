/-!
Growable buffers that show how much room they have reserved.
-/

namespace StackCalculator

/-- Items in the order of their insertion, and the room reserved for them. -/
structure Buffer (α : Type) where
  items : Array α := #[]
  capacity : Nat := 0
  deriving DecidableEq

namespace Buffer

variable {α : Type}

def toList (b : Buffer α) : List α :=
  b.items.toList

def size (b : Buffer α) : Nat :=
  b.items.size

/-- The least room that a buffer with an item reserves when it grows. -/
def minCapacity : Nat := 8

/-- The room that follows a full buffer's: twice as much, but at least `minCapacity`. -/
def grown (capacity : Nat) : Nat :=
  if capacity < minCapacity then minCapacity else 2 * capacity

/-- Appends an item. A full buffer grows first. -/
def push (b : Buffer α) (item : α) : Buffer α where
  items := b.items.push item
  capacity := if b.size < b.capacity then b.capacity else grown b.capacity

/-- A copy has the same items and no room to spare. -/
def copy (b : Buffer α) : Buffer α :=
  { b with capacity := b.size }

@[simp] theorem toList_push (b : Buffer α) (item : α) :
    (b.push item).toList = b.toList ++ [item] := by
  simp [push, toList]

@[simp] theorem toList_copy (b : Buffer α) : b.copy.toList = b.toList :=
  rfl

@[simp] theorem length_toList (b : Buffer α) : b.toList.length = b.size := by
  simp [toList, size]

end Buffer

end StackCalculator
