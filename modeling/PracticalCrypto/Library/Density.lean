import Mathlib.Data.Finset.Density
import Mathlib.Data.Fintype.BigOperators
import Mathlib.Algebra.BigOperators.Field

/-!
# Densities of events on product spaces

Independent uniform draws are a uniform draw from a product, so the probability
of an event is the density of a finite set of outcomes. Two facts are needed
about it: the density of a box is the product of the densities of its sides,
and an event that fixes one coordinate, once the others are known, has at most
the density of a point of that coordinate.
-/

namespace PracticalCrypto.Density

universe u v w

section Box

variable {ι : Type u} {κ : Type v} [Fintype ι] [DecidableEq ι] [Fintype κ]

theorem dens_piFinset (sides : ι → Finset κ) :
    (Fintype.piFinset sides).dens = ∏ i, (sides i).dens := by
  simp only [Finset.dens_eq_card_div_card, Fintype.card_piFinset, Fintype.card_pi,
    Finset.prod_div_distrib, Nat.cast_prod]

theorem dens_product_univ {β : Type w} [Fintype β] [Nonempty β] (event : Finset κ) :
    (event ×ˢ (Finset.univ : Finset β)).dens = event.dens := by
  have nonzero : (Fintype.card β : ℚ≥0) ≠ 0 := by
    exact_mod_cast Fintype.card_ne_zero
  rw [Finset.dens_eq_card_div_card, Finset.dens_eq_card_div_card, Finset.card_product,
    Fintype.card_prod, Finset.card_univ, Nat.cast_mul, Nat.cast_mul,
    mul_div_mul_right _ _ nonzero]

end Box

section Determined

variable {α : Type u} {ι : Type v} {κ : Type w} [Fintype α] [Fintype ι] [DecidableEq ι]
  [Fintype κ]

/-- Replacing the fixed coordinate freely is injective on such an event. -/
theorem card_mul_card_le {event : Finset (α × (ι → κ))} (coordinate : α → ι)
    (determined : ∀ a f g, (a, f) ∈ event → (a, g) ∈ event →
      (∀ j, j ≠ coordinate a → f j = g j) → f = g) :
    event.card * Fintype.card κ ≤ Fintype.card (α × (ι → κ)) := by
  rw [← Finset.card_univ, ← Finset.card_univ, ← Finset.card_product]
  apply Finset.card_le_card_of_injOn
    (fun pair => (pair.1.1, Function.update pair.1.2 (coordinate pair.1.1) pair.2))
  · intro pair _
    exact Finset.mem_coe.mpr (Finset.mem_univ _)
  · rintro ⟨⟨a, f⟩, x⟩ left ⟨⟨a', g⟩, y⟩ right same
    simp only [Prod.mk.injEq] at same
    rcases same with ⟨rfl, updated⟩
    simp only [Finset.coe_product, Finset.coe_univ, Set.mem_prod, Finset.mem_coe, Set.mem_univ,
      and_true] at left right
    have sameCoordinate : x = y := by
      simpa using congrFun updated (coordinate a)
    have sameFunction : f = g := by
      apply determined a f g left right
      intro j away
      simpa [Function.update_of_ne away] using congrFun updated j
    rw [sameCoordinate, sameFunction]

theorem dens_le_inv_card [Nonempty κ] {event : Finset (α × (ι → κ))} (coordinate : α → ι)
    (determined : ∀ a f g, (a, f) ∈ event → (a, g) ∈ event →
      (∀ j, j ≠ coordinate a → f j = g j) → f = g) :
    event.dens ≤ (Fintype.card κ : ℚ≥0)⁻¹ := by
  have counted : (event.card : ℚ≥0) * Fintype.card κ ≤ Fintype.card (α × (ι → κ)) := by
    exact_mod_cast card_mul_card_le coordinate determined
  have positive : (0 : ℚ≥0) < Fintype.card κ := by
    exact_mod_cast Fintype.card_pos
  rw [Finset.dens_eq_card_div_card]
  apply div_le_of_le_mul₀ zero_le zero_le
  rw [mul_comm, ← div_eq_mul_inv]
  exact (le_div_iff₀ positive).mpr counted

end Determined

end PracticalCrypto.Density
