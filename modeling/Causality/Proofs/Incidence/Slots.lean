import Causality.Matching.Slots
import Causality.Proofs.Model.Names

/-!
# Slots are different

Each scalar name is covered by one variable, which has at most one slot of each kind for it.
-/

namespace Causality

variable {v : Variable} {g : Incidence} {element : String} {slot : Occurrence}

theorem Variable.name_of_mem_elementSlots (h : slot ∈ v.elementSlots g element) :
    slot.name = element := by
  unfold elementSlots at h
  grind

theorem Variable.nodup_elementSlots (v : Variable) (g : Incidence) (element : String) :
    (v.elementSlots g element).Nodup := by
  unfold elementSlots
  split_ifs <;> simp

theorem Variable.name_of_mem_slots (h : slot ∈ v.slots g) : slot.name ∈ v.elementNames := by
  unfold slots at h
  split_ifs at h
  · cases h
  · obtain ⟨element, helement, hslot⟩ := List.mem_flatMap.mp h
    rwa [name_of_mem_elementSlots hslot]

theorem Variable.nodup_slots (v : Variable) (g : Incidence) : (v.slots g).Nodup := by
  unfold slots
  split_ifs
  · exact List.nodup_nil
  · rw [List.nodup_flatMap]
    refine ⟨fun element _ => v.nodup_elementSlots g element, v.nodup_elementNames.imp ?_⟩
    intro a b hne slot ha hb
    exact hne ((name_of_mem_elementSlots ha).symm.trans (name_of_mem_elementSlots hb))

theorem Model.nodup_slots (m : Model) (g : Incidence) : (m.slots g).Nodup := by
  unfold Model.slots
  rw [List.nodup_flatMap]
  refine ⟨fun v _ => v.nodup_slots g, m.pairwise_distinct.imp ?_⟩
  intro u v huv slot hu hv
  exact huv.elements (Variable.name_of_mem_slots hu) (Variable.name_of_mem_slots hv)

end Causality
