import Mathlib.Data.List.Nodup
import Mathlib.Data.List.Range
import Mathlib.Logic.Function.Basic
import Mathlib.Tactic.Common

/-!
# Rings

A sequence that grows at the end and is consumed from the front, kept in
`cap` slots: position `k` lives in slot `k % cap`. `RingSlots` says so for
the `cap` positions from `r` on, and that a position past the end of the
sequence leaves its slot empty.
-/

namespace MBroker

variable {α : Type*}

/-- The slots hold the positions `r, …, r + cap - 1` of the sequence. -/
def RingSlots (cap r : Nat) (xs : List α) (slots : Nat → Option α) : Prop :=
  ∀ k, r ≤ k → k < r + cap → slots (k % cap) = xs[k]?

variable {cap r k k' : Nat} {xs : List α} {slots : Nat → Option α}

/-- Two positions of one window are in different slots. -/
theorem mod_inj_window (h : r ≤ k) (hlt : k < r + cap) (h' : r ≤ k') (hlt' : k' < r + cap)
    (heq : k % cap = k' % cap) : k = k' := by
  have hk := Nat.div_add_mod k cap
  have hk' := Nat.div_add_mod k' cap
  rw [heq] at hk
  rcases Nat.lt_trichotomy (k / cap) (k' / cap) with hdiv | hdiv | hdiv
  · have hmul : cap * (k / cap) + cap ≤ cap * (k' / cap) := Nat.mul_le_mul_left cap hdiv
    omega
  · rw [hdiv] at hk
    omega
  · have hmul : cap * (k' / cap) + cap ≤ cap * (k / cap) := Nat.mul_le_mul_left cap hdiv
    omega

/-- Every slot belongs to a position of the window. -/
theorem exists_mod_eq (r : Nat) {i : Nat} (hi : i < cap) :
    ∃ k, r ≤ k ∧ k < r + cap ∧ k % cap = i := by
  have hdiv := Nat.div_add_mod r cap
  have hmod := Nat.mod_lt r (show cap > 0 by omega)
  by_cases hle : r % cap ≤ i
  · refine ⟨cap * (r / cap) + i, by omega, by omega, ?_⟩
    rw [Nat.mul_add_mod, Nat.mod_eq_of_lt hi]
  · refine ⟨cap * (r / cap + 1) + i, ?_, ?_, ?_⟩
    · rw [Nat.mul_add]
      omega
    · rw [Nat.mul_add]
      omega
    · rw [Nat.mul_add_mod, Nat.mod_eq_of_lt hi]

theorem RingSlots.empty (cap : Nat) : RingSlots cap 0 [] fun _ => (none : Option α) := by
  intro k _ _
  rfl

theorem RingSlots.front (h : RingSlots cap r xs slots) (hcap : 0 < cap) :
    slots (r % cap) = xs[r]? :=
  h r le_rfl (by omega)

/-- A new element goes to the slot of the next position. -/
theorem RingSlots.push (h : RingSlots cap r xs slots) (hle : r ≤ xs.length)
    (hroom : xs.length < r + cap) (x : α) :
    RingSlots cap r (xs ++ [x]) (Function.update slots (xs.length % cap) (some x)) := by
  intro k hk hlt
  by_cases heq : k = xs.length
  · rw [heq, Function.update_self, List.getElem?_concat_length]
  · have hne : k % cap ≠ xs.length % cap := fun hmod =>
      heq (mod_inj_window hk hlt hle hroom hmod)
    rw [Function.update_of_ne hne, h k hk hlt]
    rcases Nat.lt_or_gt_of_ne heq with hbefore | hafter
    · rw [List.getElem?_append_left hbefore]
    · rw [List.getElem?_eq_none (by omega), List.getElem?_eq_none (by simp; omega)]

/-- The slot of the front position, once emptied, is that of the first
position after the window. -/
theorem RingSlots.pop (h : RingSlots cap r xs slots) (hle : xs.length ≤ r + cap) (hcap : 0 < cap) :
    RingSlots cap (r + 1) xs (Function.update slots (r % cap) none) := by
  intro k hk hlt
  by_cases heq : k = r + cap
  · rw [heq, Nat.add_mod_right, Function.update_self, List.getElem?_eq_none hle]
  · have hne : k % cap ≠ r % cap := fun hmod => by
      have := mod_inj_window (show r ≤ k by omega) (by omega) le_rfl (by omega) hmod
      omega
    rw [Function.update_of_ne hne, h k (by omega) (by omega)]

/-- A slot that belongs to no position of the sequence is empty. -/
theorem RingSlots.slot_none (h : RingSlots cap r xs slots) {i : Nat} (hi : i < cap)
    (hfree : ∀ k, r ≤ k → k < xs.length → k % cap ≠ i) : slots i = none := by
  obtain ⟨k, hle, hlt, hmod⟩ := exists_mod_eq r hi
  rw [← hmod, h k hle hlt]
  apply List.getElem?_eq_none
  by_contra hlen
  exact hfree k hle (by omega) hmod

/-- The positions of a window visit every slot once. -/
theorem range_perm_window (cap r : Nat) :
    (List.range cap).Perm ((List.range' r cap).map (· % cap)) := by
  rw [List.perm_ext_iff_of_nodup List.nodup_range]
  · intro i
    rw [List.mem_range, List.mem_map]
    constructor
    · intro hi
      obtain ⟨k, hle, hlt, hmod⟩ := exists_mod_eq r hi
      exact ⟨k, List.mem_range'_1.mpr ⟨hle, hlt⟩, hmod⟩
    · rintro ⟨k, hk, rfl⟩
      have hk := List.mem_range'_1.mp hk
      exact Nat.mod_lt k (by omega)
  · apply List.Nodup.map_on _ List.nodup_range'
    intro k hk k' hk' hmod
    have hk := List.mem_range'_1.mp hk
    have hk' := List.mem_range'_1.mp hk'
    exact mod_inj_window hk.1 hk.2 hk'.1 hk'.2 hmod

theorem filterMap_getElem?_range' (xs : List α) (r n : Nat) :
    (List.range' r n).filterMap (fun k => xs[k]?) = (xs.drop r).take n := by
  induction n generalizing r with
  | zero => simp
  | succ n ih =>
      rw [List.range'_succ, List.filterMap_cons, ih]
      by_cases hr : r < xs.length
      · rw [List.getElem?_eq_getElem hr, List.drop_eq_getElem_cons hr, List.take_succ_cons]
      · rw [List.getElem?_eq_none (by omega), List.drop_eq_nil_of_le (by omega),
          List.drop_eq_nil_of_le (by omega)]
        simp

/-- The slots, read in any order, hold the rest of the sequence. -/
theorem RingSlots.filterMap_perm (h : RingSlots cap r xs slots) (hle : xs.length ≤ r + cap) :
    ((List.range cap).filterMap slots).Perm (xs.drop r) := by
  have hwindow : ((List.range' r cap).map (· % cap)).filterMap slots = xs.drop r := by
    rw [List.filterMap_map]
    have hcongr : (List.range' r cap).filterMap (slots ∘ (· % cap)) =
        (List.range' r cap).filterMap fun k => xs[k]? := by
      apply List.filterMap_congr
      intro k hk
      have hk := List.mem_range'_1.mp hk
      exact h k hk.1 hk.2
    rw [hcongr, filterMap_getElem?_range']
    exact List.take_of_length_le (by simp; omega)
  rw [← hwindow]
  exact (range_perm_window cap r).filterMap slots

end MBroker
