import Mathlib.Order.Interval.Finset.Nat
import MBroker.Lib.CMemory

/-!
# Counting

Finite counts behind the searches of `CMemory`: a search finds nothing
exactly when everything in its range fails the test, which is a matter of
how many indices do. `lt_of_inj_below` is the pigeonhole principle for
distinct positive values.
-/

namespace MBroker

/-- As many distinct values below `m`, none of them 0, as there are
indices below `k`: there is an index to spare. -/
theorem lt_of_inj_below {k m : Nat} (f : Nat → Nat) (hm : 0 < m)
    (hf : ∀ j < k, 0 < f j ∧ f j < m) (hinj : ∀ j < k, ∀ j' < k, f j = f j' → j = j') :
    k < m := by
  have hle : (Finset.range k).card ≤ (Finset.Ico 1 m).card := by
    refine Finset.card_le_card_of_injOn f ?_ ?_
    · intro j hj
      have hj := hf j (by simpa using hj)
      simp only [Finset.coe_Ico, Set.mem_Ico]
      omega
    · intro j hj j' hj' heq
      exact hinj j (by simpa using hj) j' (by simpa using hj') heq
  rw [Finset.card_range, Nat.card_Ico] at hle
  omega

/-- The indices below `n` with a property. -/
def indices (n : Nat) (p : Nat → Prop) [DecidablePred p] : Finset Nat :=
  (Finset.range n).filter p

theorem mem_indices {n i : Nat} {p : Nat → Prop} [DecidablePred p] :
    i ∈ indices n p ↔ i < n ∧ p i := by
  rw [indices, Finset.mem_filter, Finset.mem_range]

theorem card_indices_le (n : Nat) (p : Nat → Prop) [DecidablePred p] :
    (indices n p).card ≤ n := by
  have hle := Finset.card_filter_le (Finset.range n) p
  rwa [Finset.card_range] at hle

/-- A search for an index without the property finds one exactly when fewer
than `n` have it. -/
theorem find_isSome_iff {n : Nat} {p : Nat → Prop} [DecidablePred p] {test : Nat → Bool}
    (h : ∀ i < n, test i = true ↔ ¬ p i) :
    ((List.range n).find? test).isSome ↔ (indices n p).card < n := by
  have hall : (indices n p).card = n ↔ ∀ i < n, p i := by
    have hfilter := Finset.card_filter_eq_iff (s := Finset.range n) (p := p)
    rw [Finset.card_range] at hfilter
    rw [indices, hfilter]
    simp only [Finset.mem_range]
  have hle := card_indices_le n p
  constructor
  · intro hs
    obtain ⟨i, hi⟩ := Option.isSome_iff_exists.mp hs
    obtain ⟨hlt, htest, -⟩ := find_range_eq_some.mp hi
    have hne : (indices n p).card ≠ n := fun heq => (h i hlt).mp htest (hall.mp heq i hlt)
    omega
  · intro hlt
    by_contra hs
    have hnone := find_range_eq_none.mp (Option.not_isSome_iff_eq_none.mp hs)
    have : (indices n p).card = n := hall.mpr fun i hi => by
      by_contra hp
      have := (h i hi).mpr hp
      rw [hnone i hi] at this
      cases this
    omega

end MBroker
