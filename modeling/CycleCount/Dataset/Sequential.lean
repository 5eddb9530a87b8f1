import CycleCount.Error

/-! Sequences that grow only at their end: an item is accepted at the index that
equals the current length and at no other. -/

namespace CycleCount

structure Sequential (α : Type) where
  items : List α := []
deriving Repr

namespace Sequential

variable {α : Type}

def nextIndex (s : Sequential α) : Nat := s.items.length

def pushAt (s : Sequential α) (index : Nat) (item : α) : Except Error (Sequential α) :=
  if index ≠ s.nextIndex then .error (.outOfOrder s.nextIndex index)
  else .ok ⟨s.items ++ [item]⟩

theorem pushAt_nextIndex (s : Sequential α) (item : α) :
    s.pushAt s.nextIndex item = .ok ⟨s.items ++ [item]⟩ := if_neg (not_not_intro rfl)

end Sequential
end CycleCount
