/-! Append-only storage.

A slot, once handed out, stays valid: values can be replaced but never removed. -/

namespace GmlLift

structure Slots (α : Type) where
  items : Array α := #[]

namespace Slots

variable {α : Type}

/-- How many slots have been handed out, which is also the next slot. -/
def size (s : Slots α) : Nat := s.items.size

def isEmpty (s : Slots α) : Bool := s.items.isEmpty

/-- Store a value in the next slot. -/
def push (s : Slots α) (a : α) : Slots α := ⟨s.items.push a⟩

def get? (s : Slots α) (slot : Nat) : Option α := s.items[slot]?

/-- Change the value of a slot; nothing happens where there is none. -/
def modify (s : Slots α) (slot : Nat) (f : α → α) : Slots α := ⟨s.items.modify slot f⟩

/-- Replace the value of a slot; nothing happens where there is none. -/
def set (s : Slots α) (slot : Nat) (a : α) : Slots α := s.modify slot fun _ => a

@[simp] theorem size_push (s : Slots α) (a : α) : (s.push a).size = s.size + 1 := by
  simp [size, push]

@[simp] theorem size_modify (s : Slots α) (slot : Nat) (f : α → α) :
    (s.modify slot f).size = s.size := by
  simp [size, modify]

/-- A pushed value is found in the slot that was next, and nothing else moves. -/
theorem get?_push (s : Slots α) (a : α) (i : Nat) :
    (s.push a).get? i = if i = s.size then some a else s.get? i := by
  grind [get?, push, size]

theorem get?_modify (s : Slots α) (slot : Nat) (f : α → α) (i : Nat) :
    (s.modify slot f).get? i = if slot = i then (s.get? i).map f else s.get? i := by
  simp [get?, modify, Array.getElem?_modify]

end Slots

end GmlLift
