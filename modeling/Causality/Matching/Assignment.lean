import Causality.Occurrence

/-!
# Assignments

Equations by id, each with the slot that it determines. An id that is assigned again keeps its
place and gets the new slot.
-/

namespace Causality

structure Assignment where
  pairs : List (String × Occurrence)
  nodup : (pairs.map (·.1)).Nodup

namespace Assignment

def empty : Assignment := ⟨[], by simp⟩

def ids (a : Assignment) : List String := a.pairs.map (·.1)

def slots (a : Assignment) : List Occurrence := a.pairs.map (·.2)

def size (a : Assignment) : Nat := a.pairs.length

def contains (a : Assignment) (id : String) : Bool := a.ids.contains id

def slotOf? (a : Assignment) (id : String) : Option Occurrence := a.pairs.lookup id

/-- The first equation that is assigned the slot. -/
def equationFor? (a : Assignment) (slot : Occurrence) : Option String :=
  (a.pairs.find? fun p => p.2 = slot).map (·.1)

/-- The last equation that is assigned the slot. -/
def owner? (a : Assignment) (slot : Occurrence) : Option String :=
  (a.pairs.reverse.find? fun p => p.2 = slot).map (·.1)

def reassign (id : String) (slot : Occurrence) (p : String × Occurrence) : String × Occurrence :=
  if p.1 = id then (id, slot) else p

theorem reassign_fst (id : String) (slot : Occurrence) (p : String × Occurrence) :
    (reassign id slot p).1 = p.1 := by
  unfold reassign
  split
  · next h => exact h.symm
  · rfl

def insert (a : Assignment) (id : String) (slot : Occurrence) : Assignment :=
  if h : id ∈ a.ids then
    ⟨a.pairs.map (reassign id slot), by simpa [Function.comp_def, reassign_fst] using a.nodup⟩
  else
    ⟨a.pairs ++ [(id, slot)], by
      have hn : ∀ p ∈ a.pairs, ¬ p.1 = id := by
        intro p hp he
        exact h (List.mem_map.2 ⟨p, hp, he⟩)
      simpa [List.nodup_append, a.nodup] using hn⟩

def ofList (pairs : List (String × Occurrence)) : Assignment :=
  pairs.foldl (fun a (id, slot) => a.insert id slot) empty

end Assignment

end Causality
