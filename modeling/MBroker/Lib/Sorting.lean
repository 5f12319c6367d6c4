import MBroker.Lib.CMemory
import Mathlib.Data.List.Sort

/-!
# Sorting arrays of bytes

`qsort` sees an array as so many elements of so many bytes, and asks the
comparison about the bytes of two elements. Whether these are what the
program takes for its elements is the caller's business.

`strcmp` orders strings; a comparison of a string in each element is
consistent, whatever the string is.
-/

namespace MBroker

/-! ## strcmp -/

/-- `strcmp(s, t)`; only its sign is promised. -/
def strcmp : List UInt8 → List UInt8 → Int
  | [], [] => 0
  | [], _ :: _ => -1
  | _ :: _, [] => 1
  | c :: cs, d :: ds => if c = d then strcmp cs ds else if c < d then -1 else 1

theorem strcmp_swap (s t : List UInt8) : strcmp t s = -strcmp s t := by
  induction s generalizing t with
  | nil => cases t <;> rfl
  | cons c cs ih =>
      cases t with
      | nil => rfl
      | cons d ds =>
          simp only [strcmp]
          by_cases hcd : c = d
          · subst hcd
            rw [if_pos rfl, if_pos rfl]
            exact ih ds
          · rw [if_neg hcd, if_neg (Ne.symm hcd)]
            rcases UInt8.lt_or_lt_of_ne hcd with hlt | hlt
            · rw [if_pos hlt, if_neg (UInt8.not_lt.mpr (UInt8.le_of_lt hlt))]
              rfl
            · rw [if_pos hlt, if_neg (UInt8.not_lt.mpr (UInt8.le_of_lt hlt))]

/-- A first character that is no larger, and then the rest. -/
theorem strcmp_cons_le {c d : UInt8} {cs ds : List UInt8} :
    strcmp (c :: cs) (d :: ds) ≤ 0 ↔ c < d ∨ c = d ∧ strcmp cs ds ≤ 0 := by
  simp only [strcmp]
  by_cases hcd : c = d
  · subst hcd
    simp
  · rw [if_neg hcd]
    by_cases hlt : c < d <;> simp [hlt, hcd]

theorem strcmp_trans {s t u : List UInt8} (hst : strcmp s t ≤ 0) (htu : strcmp t u ≤ 0) :
    strcmp s u ≤ 0 := by
  induction s generalizing t u with
  | nil => cases u <;> simp [strcmp]
  | cons c cs ih =>
      cases t with
      | nil => simp [strcmp] at hst
      | cons d ds =>
          cases u with
          | nil => simp [strcmp] at htu
          | cons e es =>
              rw [strcmp_cons_le] at hst htu ⊢
              rcases hst with hcd | ⟨rfl, hst⟩
              · rcases htu with hde | ⟨rfl, -⟩
                · exact .inl (UInt8.lt_trans hcd hde)
                · exact .inl hcd
              · rcases htu with hde | ⟨rfl, htu⟩
                · exact .inl hde
                · exact .inr ⟨rfl, ih hst htu⟩

theorem strcmp_eq_zero {s t : List UInt8} : strcmp s t = 0 ↔ s = t := by
  induction s generalizing t with
  | nil => cases t <;> simp [strcmp]
  | cons c cs ih =>
      cases t with
      | nil => simp [strcmp]
      | cons d ds =>
          rw [strcmp, List.cons.injEq]
          split
          · rename_i hcd
            rw [ih]
            exact (and_iff_right hcd).symm
          · rename_i hcd
            split <;> simp [hcd]

/-- Only the empty string is not above the empty string. -/
theorem strcmp_nil_le {s : List UInt8} : strcmp s [] ≤ 0 ↔ s = [] := by
  cases s <;> simp [strcmp]

/-! ## qsort -/

/-- The elements of an array: `nmemb` of them, `size` bytes each. -/
def elements (nmemb size : Nat) (base : List UInt8) : List (List UInt8) :=
  (List.range nmemb).map fun i => (base.drop (size * i)).take size

/-- What a comparison has to be before `qsort` promises anything. -/
structure Consistent (compar : List UInt8 → List UInt8 → Int) : Prop where
  swap : ∀ a b, compar a b ≤ 0 ↔ 0 ≤ compar b a
  trans : ∀ {a b c}, compar a b ≤ 0 → compar b c ≤ 0 → compar a c ≤ 0

/-- `qsort(base, nmemb, size, compar)`, as a function of the array's bytes. -/
abbrev Qsort := Nat → Nat → (List UInt8 → List UInt8 → Int) → List UInt8 → List UInt8

/-- The elements come out in an order of which the comparison approves; the
order of those that are equal to it is anyone's guess. -/
def Sorts (qsort : Qsort) : Prop :=
  ∀ nmemb size compar base, base.length = nmemb * size → Consistent compar →
    ∃ sorted : List (List UInt8), sorted.Perm (elements nmemb size base) ∧
      sorted.Pairwise (fun a b => compar a b ≤ 0) ∧
      qsort nmemb size compar base = sorted.flatten

/-- Strings anywhere in the elements can be compared. -/
theorem strcmp_consistent (str : List UInt8 → List UInt8) :
    Consistent fun a b => strcmp (str a) (str b) where
  swap a b := by
    rw [strcmp_swap (str a) (str b)]
    omega
  trans hab hbc := strcmp_trans hab hbc

theorem Consistent.refl {compar : List UInt8 → List UInt8 → Int} (h : Consistent compar)
    (a : List UInt8) : compar a a ≤ 0 := by
  rcases Int.le_total (compar a a) 0 with hle | hge
  · exact hle
  · exact (h.swap a a).mpr hge

theorem elements_one {size : Nat} {base : List UInt8} (h : base.length = size) :
    elements 1 size base = [base] := by
  show [(base.drop (size * 0)).take size] = [base]
  rw [Nat.mul_zero, List.drop_zero, List.take_of_length_le h.le]

/-- Sorting the elements one after the other into a new array. -/
def insertionQsort : Qsort := fun nmemb size compar base =>
  ((elements nmemb size base).insertionSort fun a b => compar a b ≤ 0).flatten

theorem insertionQsort_sorts : Sorts insertionQsort := by
  intro nmemb size compar base _ hc
  have htotal : Std.Total fun a b => compar a b ≤ 0 := by
    refine ⟨fun a b => ?_⟩
    rcases Int.le_total (compar a b) 0 with hle | hge
    · exact .inl hle
    · exact .inr ((hc.swap b a).mpr hge)
  have htrans : IsTrans (List UInt8) fun a b => compar a b ≤ 0 := ⟨fun _ _ _ => hc.trans⟩
  exact ⟨_, List.perm_insertionSort _ _, List.pairwise_insertionSort _ _, rfl⟩

end MBroker
