import Mathlib.Data.Finset.Card
import Mathlib.Data.Fintype.Card
import ServerCore.Foundation.Hands

/-!
# How many items are in hands

Parties with one hand each hold at most as many items as there are parties, fewer if one of them holds
none of these, and as many at least if each party holds one.
-/

namespace ServerCore.Foundation

universe u v

variable {ι : Type u} {α : Type v} [Fintype ι] [DecidableEq ι] [DecidableEq α]
  {hands : ι → Option α} {items : List α}

/-- Items that are all in the hands of others than `i`. -/
theorem length_lt_card_of_inHand (hnodup : items.Nodup) (hall : ∀ x ∈ items, InHand hands x) {i : ι}
    (hi : ∀ x ∈ items, hands i ≠ some x) : items.length < Fintype.card ι := by
  have hsubset : items.toFinset.image some ⊆ (Finset.univ.erase i).image hands := by
    intro held hheld
    obtain ⟨x, hx, rfl⟩ := Finset.mem_image.mp hheld
    rw [List.mem_toFinset] at hx
    obtain ⟨j, hj⟩ := hall x hx
    have hne : j ≠ i := by
      rintro rfl
      exact hi x hx hj
    exact Finset.mem_image.mpr ⟨j, Finset.mem_erase.mpr ⟨hne, Finset.mem_univ j⟩, hj⟩
  have hpos : 0 < Fintype.card ι := Fintype.card_pos_iff.mpr ⟨i⟩
  have hless := Nat.sub_lt hpos Nat.one_pos
  calc
    items.length = items.toFinset.card := (List.toFinset_card_of_nodup hnodup).symm
    _ = (items.toFinset.image some).card :=
      (Finset.card_image_of_injective _ (Option.some_injective α)).symm
    _ ≤ ((Finset.univ.erase i).image hands).card := Finset.card_le_card hsubset
    _ ≤ (Finset.univ.erase i).card := Finset.card_image_le
    _ = Fintype.card ι - 1 := by rw [Finset.card_erase_of_mem (Finset.mem_univ i), Finset.card_univ]
    _ < Fintype.card ι := hless

omit [DecidableEq ι] in
/-- Parties that hold one of the items each. -/
theorem card_le_length_of_hands (halone : Alone hands) (hall : ∀ i, ∃ x ∈ items, hands i = some x) :
    Fintype.card ι ≤ items.length := by
  choose item hitem using hall
  have hinjective : Function.Injective item := by
    intro i j heq
    have hj := (hitem j).2
    rw [← heq] at hj
    exact halone i j (item i) (hitem i).2 hj
  calc
    Fintype.card ι = Finset.univ.card := Finset.card_univ.symm
    _ ≤ items.toFinset.card :=
      Finset.card_le_card_of_injOn item (fun i _ ↦ by simpa using (hitem i).1)
        (hinjective.injOn)
    _ ≤ items.length := List.toFinset_card_le items

end ServerCore.Foundation
