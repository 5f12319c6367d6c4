import Mathlib.Algebra.Group.Nat.Defs
import Mathlib.Logic.Function.Basic
import Mathlib.Tactic.Common

/-!
# C values, memory and loops

What a C program needs of its machine: fixed-width conversions, arrays
obtained from `malloc` with bounds-checked accesses, byte copies, strings
in memory, and loops that stop at the first index that passes a test. An
`int` has 32 bits, `size_t` and `ssize_t` have 64; their limits are
written out: 2147483648 is `INT_MAX + 1`, 18446744073709551616 is
`SIZE_MAX + 1`.

An access outside its array, a division by zero or a failed assertion is
a `Fault`: the run ends there. The lemmas below let a proof that knows
its accesses are in bounds replace each operation by a pure function of
the memory, and read the bytes back after an update.
-/

namespace MBroker

/-- Why a run of a C program ends inside a call. -/
inductive Fault where
  | panic (msg : String)
  | outOfBounds
  | divisionByZero
deriving Repr, DecidableEq

/-- `ALWAYS_ASSERT(CONDEXPR, ...)`: the process exits unless the condition holds. -/
def alwaysAssert (c : Prop) [Decidable c] (msg : String) : Except Fault Unit :=
  if c then .ok () else .error (.panic msg)

@[simp] theorem alwaysAssert_of_true {c : Prop} [Decidable c] (h : c) (msg : String) :
    alwaysAssert c msg = .ok () := if_pos h

@[simp] theorem alwaysAssert_eq_ok {c : Prop} [Decidable c] {msg : String} :
    alwaysAssert c msg = .ok () ↔ c := by
  by_cases h : c <;> simp [alwaysAssert, h]

/-! ## The bind of `Except` -/

section Except
variable {ε α β : Type}

@[simp] theorem ok_bind (a : α) (f : α → Except ε β) : (Except.ok a >>= f) = f a := rfl

@[simp] theorem error_bind (e : ε) (f : α → Except ε β) :
    (Except.error e >>= f) = .error e := rfl

@[simp] theorem pure_eq_ok (a : α) : (pure a : Except ε α) = .ok a := rfl

theorem bind_eq_ok {x : Except ε α} {f : α → Except ε β} {b : β} :
    (x >>= f) = .ok b ↔ ∃ a, x = .ok a ∧ f a = .ok b := by
  cases x <;> simp

theorem ok_pair_inj {a a' : α} {b b' : β}
    (h : (Except.ok (a, b) : Except ε (α × β)) = .ok (a', b')) : a = a' ∧ b = b' :=
  Prod.mk.inj (Except.ok.inj h)

theorem map_eq_ok {x : Except ε α} {f : α → β} {b : β} :
    x.map f = .ok b ↔ ∃ a, x = .ok a ∧ f a = b := by
  cases x <;> simp [Except.map]

theorem toOption_eq_some {x : Except ε α} {a : α} : x.toOption = some a ↔ x = .ok a := by
  cases x <;> simp [Except.toOption]

theorem toOption_join_eq_some {x : Except ε (Option α)} {a : α} :
    x.toOption.join = some a ↔ x = .ok (some a) := by
  cases x <;> simp [Except.toOption]

theorem map_fst_eq_ok {x : Except ε (α × β)} {a : α} (h : x.map Prod.fst = .ok a) :
    ∃ b, x = .ok (a, b) := by
  obtain ⟨p, hx, rfl⟩ := map_eq_ok.mp h
  exact ⟨p.2, hx⟩

end Except

/-! ## Integer conversions -/

/-- `(int)n`. -/
def toInt (n : Nat) : Int := Int.bmod n 4294967296

/-- `(ssize_t)n`. -/
def toSSize (n : Nat) : Int := Int.bmod n 18446744073709551616

/-- `size_t` addition. -/
def sizeAdd (a b : Nat) : Nat := (a + b) % 18446744073709551616

/-- `size_t` subtraction. -/
def sizeSub (a b : Nat) : Nat :=
  (a + 18446744073709551616 - b % 18446744073709551616) % 18446744073709551616

/-- The largest `ptrdiff_t`; `malloc` refuses larger requests. -/
def ptrdiffMax : Nat := 9223372036854775807

theorem toInt_of_lt {n : Nat} (h : n < 2147483648) : toInt n = n :=
  Int.bmod_eq_of_le (by omega) (by omega)

theorem toSSize_of_lt {n : Nat} (h : n < 9223372036854775808) : toSSize n = n :=
  Int.bmod_eq_of_le (by omega) (by omega)

/-- The first `size_t` past `INT_MAX` converts to a negative `int`. -/
theorem toInt_intMax_succ : toInt 2147483648 < -1 := by decide

theorem toInt_neg {n : Nat} (hle : n ≤ 2147483648) (h : ¬ n < 2147483648) : toInt n < 0 := by
  obtain rfl : n = 2147483648 := by omega
  exact Int.lt_trans toInt_intMax_succ (by decide)

/-- No index up to `INT_MAX + 1` converts to -1. -/
theorem toInt_ne_neg_one {n : Nat} (hle : n ≤ 2147483648) : toInt n ≠ -1 := by
  by_cases h : n < 2147483648
  · rw [toInt_of_lt h]
    omega
  · obtain rfl : n = 2147483648 := by omega
    exact Int.ne_of_lt toInt_intMax_succ

/-- `a % b`: division by zero ends the run. -/
def modulo (a b : Nat) : Except Fault Nat :=
  if b = 0 then .error .divisionByZero else .ok (a % b)

theorem modulo_of_pos {b : Nat} (h : 0 < b) (a : Nat) : modulo a b = .ok (a % b) :=
  if_neg (by omega)

/-- An `int` used as an array index. -/
def index (i : Int) : Except Fault Nat :=
  if 0 ≤ i then .ok i.toNat else .error .outOfBounds

@[simp] theorem index_natCast (n : Nat) : index n = .ok n := by
  simp [index]

theorem index_of_neg {i : Int} (h : i < 0) : index i = .error .outOfBounds :=
  if_neg (by omega)

/-! ## Arrays -/

/-- A `malloc`'d array: whether the pointer is `NULL`, the number of
whole elements the block has room for, and its contents. -/
structure Region (α : Type) where
  null : Bool
  size : Nat
  get : Nat → α

namespace Region

variable {α : Type}

/-- `malloc(bytes)` for elements of `elemSize` bytes. `contents` is what
the block holds when the call succeeds; `none` is a failed call. The
request is a `size_t`. -/
def malloc (bytes elemSize : Nat) (dflt : α) : Option (Nat → α) → Region α
  | none => ⟨true, 0, fun _ => dflt⟩
  | some contents =>
      if bytes % 18446744073709551616 ≤ ptrdiffMax then
        ⟨false, bytes % 18446744073709551616 / elemSize, contents⟩
      else ⟨true, 0, fun _ => dflt⟩

/-- `r[i]`. -/
def load (r : Region α) (i : Nat) : Except Fault α :=
  if i < r.size then .ok (r.get i) else .error .outOfBounds

/-- The array with element `i` replaced. -/
def set (r : Region α) (i : Nat) (a : α) : Region α :=
  { r with get := Function.update r.get i a }

/-- `r[i] = a`. -/
def store (r : Region α) (i : Nat) (a : α) : Except Fault (Region α) :=
  if i < r.size then .ok (r.set i a) else .error .outOfBounds

/-- `for (size_t i = 0; i < n; i++) r[i] = a`. -/
def fill (r : Region α) (n : Nat) (a : α) : Except Fault (Region α) :=
  if n ≤ r.size then .ok { r with get := fun i => if i < n then a else r.get i }
  else .error .outOfBounds

/-- The array with the `n` elements from `a` on taken from `src`. -/
def blit (r : Region α) (a n : Nat) (src : Nat → α) : Region α :=
  { r with get := fun x => if a ≤ x ∧ x < a + n then src (x - a) else r.get x }

/-- `memcpy(r + a, src, n)`, for elements of one byte. -/
def copyIn (r : Region α) (a n : Nat) (src : Nat → α) : Except Fault (Region α) :=
  if a + n ≤ r.size then .ok (r.blit a n src) else .error .outOfBounds

/-- `memcpy(dst, r + a, n)`, for elements of one byte: the copied elements. -/
def copyOut (r : Region α) (a n : Nat) : Except Fault (List α) :=
  if a + n ≤ r.size then .ok ((List.range n).map fun k => r.get (a + k))
  else .error .outOfBounds

@[simp] theorem set_null (r : Region α) (i : Nat) (a : α) : (r.set i a).null = r.null := rfl
@[simp] theorem set_size (r : Region α) (i : Nat) (a : α) : (r.set i a).size = r.size := rfl
@[simp] theorem blit_null (r : Region α) (a n : Nat) (src : Nat → α) :
    (r.blit a n src).null = r.null := rfl
@[simp] theorem blit_size (r : Region α) (a n : Nat) (src : Nat → α) :
    (r.blit a n src).size = r.size := rfl

theorem set_get (r : Region α) (i j : Nat) (a : α) :
    (r.set i a).get j = if j = i then a else r.get j := Function.update_apply ..

@[simp] theorem set_get_self (r : Region α) (i : Nat) (a : α) : (r.set i a).get i = a := by
  simp [set_get]

@[simp] theorem set_get_ne (r : Region α) {i j : Nat} (a : α) (h : j ≠ i) :
    (r.set i a).get j = r.get j := by
  simp [set_get, h]

@[simp] theorem set_set (r : Region α) (i : Nat) (a b : α) :
    (r.set i a).set i b = r.set i b := by
  simp [set]

theorem set_of_get_eq {r : Region α} {i : Nat} {a : α} (h : r.get i = a) : r.set i a = r := by
  simp [set, ← h]

theorem blit_get_of_mem (r : Region α) {a n x : Nat} (src : Nat → α) (h1 : a ≤ x)
    (h2 : x < a + n) : (r.blit a n src).get x = src (x - a) := by
  simp [blit, h1, h2]

theorem blit_get_of_not_mem (r : Region α) {a n x : Nat} (src : Nat → α)
    (h : x < a ∨ a + n ≤ x) : (r.blit a n src).get x = r.get x := by
  have h' : ¬ (a ≤ x ∧ x < a + n) := by omega
  simp [blit, h']

theorem load_of_lt {r : Region α} {i : Nat} (h : i < r.size) : r.load i = .ok (r.get i) :=
  if_pos h

theorem load_eq_ok {r : Region α} {i : Nat} {a : α} :
    r.load i = .ok a ↔ i < r.size ∧ r.get i = a := by
  by_cases h : i < r.size <;> simp [load, h]

theorem store_of_lt {r : Region α} {i : Nat} (h : i < r.size) (a : α) :
    r.store i a = .ok (r.set i a) := if_pos h

theorem store_eq_ok {r r' : Region α} {i : Nat} {a : α} :
    r.store i a = .ok r' ↔ i < r.size ∧ r' = r.set i a := by
  by_cases h : i < r.size <;> simp [store, h, eq_comm]

theorem copyIn_of_le {r : Region α} {a n : Nat} (h : a + n ≤ r.size) (src : Nat → α) :
    r.copyIn a n src = .ok (r.blit a n src) := if_pos h

theorem copyIn_eq_ok {r r' : Region α} {a n : Nat} {src : Nat → α} :
    r.copyIn a n src = .ok r' ↔ a + n ≤ r.size ∧ r' = r.blit a n src := by
  by_cases h : a + n ≤ r.size <;> simp [copyIn, h, eq_comm]

theorem fill_eq_ok {r r' : Region α} {n : Nat} {a : α} :
    r.fill n a = .ok r' ↔
      n ≤ r.size ∧ r' = { r with get := fun i => if i < n then a else r.get i } := by
  by_cases h : n ≤ r.size <;> simp [fill, h, eq_comm]

/-- A successful `malloc` is below the limit and leaves the memory as it was found. -/
theorem malloc_not_null {bytes elemSize : Nat} {dflt : α} {m : Option (Nat → α)}
    (h : (malloc bytes elemSize dflt m).null = false) :
    bytes % 18446744073709551616 ≤ ptrdiffMax ∧
      (malloc bytes elemSize dflt m).size = bytes % 18446744073709551616 / elemSize := by
  cases m with
  | none => simp [malloc] at h
  | some c =>
      by_cases hle : bytes % 18446744073709551616 ≤ ptrdiffMax
      · simp only [malloc, if_pos hle]
        exact ⟨hle, trivial⟩
      · simp only [malloc, if_neg hle] at h
        cases h

end Region

/-! ## Loops -/

/-- `for (i = start; ...; i++) if (test(i)) break;` over `count` indices:
the index the loop stops at, or `none` when it runs to the end. -/
def scanFrom (test : Nat → Except Fault Bool) (i : Nat) : Nat → Except Fault (Option Nat)
  | 0 => .ok none
  | count + 1 => do
      if ← test i then return some i
      scanFrom test (i + 1) count

/-- The loop from index `0` on. -/
def scan (count : Nat) (test : Nat → Except Fault Bool) : Except Fault (Option Nat) :=
  scanFrom test 0 count

private theorem scanFrom_eq_find {test : Nat → Except Fault Bool} {p : Nat → Bool} :
    ∀ (count i : Nat), (∀ j, i ≤ j → j < i + count → test j = .ok (p j)) →
      scanFrom test i count = .ok ((List.range' i count).find? p) := by
  intro count
  induction count with
  | zero => intro i _; rfl
  | succ n ih =>
      intro i h
      have htail := ih (i + 1) fun j h1 h2 => h j (by omega) (by omega)
      rw [scanFrom, h i (Nat.le_refl i) (by omega), List.range'_succ]
      cases hp : p i <;> simp [hp, htail]

/-- A loop whose test never faults stops at the first index that passes. -/
theorem scan_eq_find {count : Nat} {test : Nat → Except Fault Bool} {p : Nat → Bool}
    (h : ∀ j < count, test j = .ok (p j)) :
    scan count test = .ok ((List.range count).find? p) := by
  rw [scan, scanFrom_eq_find count 0 fun j _ hj => h j (by omega), List.range_eq_range']

/-- The first index below `n` that passes the test. -/
theorem find_range_eq_some {n i : Nat} {p : Nat → Bool} :
    (List.range n).find? p = some i ↔ i < n ∧ p i = true ∧ ∀ j < i, p j = false := by
  simp only [List.find?_range_eq_some, List.mem_range, Bool.not_eq_true']
  constructor
  · rintro ⟨h1, h2, h3⟩
    exact ⟨h2, h1, h3⟩
  · rintro ⟨h1, h2, h3⟩
    exact ⟨h2, h1, h3⟩

theorem find_range_eq_none {n : Nat} {p : Nat → Bool} :
    (List.range n).find? p = none ↔ ∀ i < n, p i = false := by
  simp

/-- The first index of a list whose element passes the test. -/
theorem find_range_eq_findIdx {α : Type*} {l : List α} {p : Nat → Bool} {q : α → Bool}
    (h : ∀ i (hi : i < l.length), p i = q l[i]) :
    (List.range l.length).find? p = l.findIdx? q := by
  cases hq : l.findIdx? q with
  | none =>
      rw [find_range_eq_none]
      intro i hi
      rw [h i hi]
      exact List.findIdx?_eq_none_iff.mp hq _ (List.getElem_mem hi)
  | some i =>
      obtain ⟨hi, hqi, hbefore⟩ := List.findIdx?_eq_some_iff_getElem.mp hq
      refine find_range_eq_some.mpr ⟨hi, by rw [h i hi]; exact hqi, fun j hj => ?_⟩
      rw [h j (by omega)]
      simpa using hbefore j hj

/-- A loop whose test fails at every index before `i` and passes at `i` stops there. -/
theorem scan_eq_some {count i : Nat} {test : Nat → Except Fault Bool} (hi : i < count)
    (hbefore : ∀ j < i, test j = .ok false) (hat : test i = .ok true) :
    scan count test = .ok (some i) := by
  have hgen : ∀ (d start : Nat), start + d = i → ∀ n, d < n →
      scanFrom test start n = .ok (some i) := by
    intro d
    induction d with
    | zero =>
        intro start hs n hn
        obtain ⟨m, rfl⟩ : ∃ m, n = m + 1 := ⟨n - 1, by omega⟩
        obtain rfl : start = i := by omega
        rw [scanFrom, hat]
        rfl
    | succ d ih =>
        intro start hs n hn
        obtain ⟨m, rfl⟩ : ∃ m, n = m + 1 := ⟨n - 1, by omega⟩
        rw [scanFrom, hbefore start (by omega)]
        exact ih (start + 1) (by omega) m (by omega)
  exact hgen i 0 (by omega) count hi

/-- Widening a range by indices that fail the test changes nothing. -/
theorem find_range_extend {m n : Nat} {p q : Nat → Bool} (hmn : m ≤ n)
    (heq : ∀ k < m, p k = q k) (hout : ∀ k < n, m ≤ k → q k = false) :
    (List.range m).find? p = (List.range n).find? q := by
  cases hq : (List.range n).find? q with
  | none =>
      rw [find_range_eq_none] at hq ⊢
      intro i hi
      rw [heq i hi]
      exact hq i (by omega)
  | some i =>
      obtain ⟨hi, hqi, hbefore⟩ := find_range_eq_some.mp hq
      have him : i < m := by
        by_contra hc
        rw [hout i hi (by omega)] at hqi
        cases hqi
      refine find_range_eq_some.mpr ⟨him, by rw [heq i him]; exact hqi, fun j hj => ?_⟩
      rw [heq j (by omega)]
      exact hbefore j hj

/-- A test that only one index passes is found at that index. -/
theorem find_range_of_unique {n i : Nat} {p : Nat → Bool} (hi : i < n) (hp : p i = true)
    (huniq : ∀ j < n, p j = true → j = i) : (List.range n).find? p = some i := by
  refine find_range_eq_some.mpr ⟨hi, hp, fun j hj => ?_⟩
  by_contra hc
  have := huniq j (by omega) (by simpa using hc)
  omega

/-! ## Integers in memory -/

/-- Byte `j` of the little-endian two's complement form of an `int`. -/
def intByte (v : Int) (j : Nat) : UInt8 := UInt8.ofNat ((v % 4294967296).toNat / 256 ^ j)

/-- The `int` with the given bytes, the lowest first. -/
def intOfBytes (b₀ b₁ b₂ b₃ : UInt8) : Int :=
  Int.bmod (b₀.toNat + 256 * b₁.toNat + 65536 * b₂.toNat + 16777216 * b₃.toNat : Nat) 4294967296

/-- The `int` stored at address `a`. -/
def intAt (mem : Nat → UInt8) (a : Nat) : Int :=
  intOfBytes (mem a) (mem (a + 1)) (mem (a + 2)) (mem (a + 3))

theorem intByte_toNat (v : Int) (j : Nat) :
    (intByte v j).toNat = (v % 4294967296).toNat / 256 ^ j % 256 := by
  simp [intByte]

private theorem bmod_of_emod {v : Int} (hlo : -2147483648 ≤ v) (hhi : v < 2147483648) :
    Int.bmod ((v % 4294967296).toNat : Int) 4294967296 = v := by
  rw [Int.bmod_def]
  split
  · omega
  · omega

private theorem digits_sum {n : Nat} (h : n < 4294967296) :
    n % 256 + 256 * (n / 256 % 256) + 65536 * (n / 65536 % 256)
      + 16777216 * (n / 16777216 % 256) = n := by
  omega

theorem intOfBytes_intByte {v : Int} (hlo : -2147483648 ≤ v) (hhi : v < 2147483648) :
    intOfBytes (intByte v 0) (intByte v 1) (intByte v 2) (intByte v 3) = v := by
  have hsum := digits_sum (n := (v % 4294967296).toNat) (by omega)
  unfold intOfBytes
  rw [intByte_toNat, intByte_toNat, intByte_toNat, intByte_toNat, Nat.pow_zero, Nat.div_one]
  exact (congrArg (fun n : Nat => Int.bmod n 4294967296) hsum).trans (bmod_of_emod hlo hhi)

/-- What `intByte` writes, `intAt` reads back. -/
theorem intAt_of_bytes {mem : Nat → UInt8} {a : Nat} {v : Int} (hlo : -2147483648 ≤ v)
    (hhi : v < 2147483648) (h : ∀ j < 4, mem (a + j) = intByte v j) : intAt mem a = v := by
  have h0 := h 0 (by omega)
  rw [Nat.add_zero] at h0
  rw [intAt, h0, h 1 (by omega), h 2 (by omega), h 3 (by omega)]
  exact intOfBytes_intByte hlo hhi

theorem intAt_congr {mem mem' : Nat → UInt8} {a : Nat}
    (h : ∀ j < 4, mem' (a + j) = mem (a + j)) : intAt mem' a = intAt mem a := by
  have h0 := h 0 (by omega)
  rw [Nat.add_zero] at h0
  rw [intAt, intAt, h0, h 1 (by omega), h 2 (by omega), h 3 (by omega)]

/-- The `k` bytes of an unsigned number, the lowest first. -/
def leBytes : Nat → Nat → List UInt8
  | 0, _ => []
  | k + 1, n => UInt8.ofNat n :: leBytes k (n / 256)

/-- The number with the given bytes, the lowest first. -/
def leValue : List UInt8 → Nat
  | [] => 0
  | b :: bs => b.toNat + 256 * leValue bs

@[simp] theorem leBytes_length (k n : Nat) : (leBytes k n).length = k := by
  induction k generalizing n with
  | zero => rfl
  | succ k ih => simp [leBytes, ih]

/-- What `leBytes` writes, `leValue` reads back. -/
theorem leValue_leBytes (k n : Nat) : leValue (leBytes k n) = n % 256 ^ k := by
  induction k generalizing n with
  | zero => simp [leBytes, leValue, Nat.mod_one]
  | succ k ih =>
      have hb : (UInt8.ofNat n).toNat = n % 256 := by simp
      rw [leBytes, leValue, ih, hb, Nat.pow_succ, Nat.mul_comm (256 ^ k) 256, Nat.mod_mul]

/-! ## Strings in memory -/

/-- A C string argument: its characters, without the terminating NUL. -/
structure CString where
  chars : List UInt8
  noNul : 0 ∉ chars
deriving DecidableEq

/-- The characters at `a` up to the first NUL, at most `n` of them. -/
def strAt (mem : Nat → UInt8) (a : Nat) : Nat → List UInt8
  | 0 => []
  | n + 1 => if mem a = 0 then [] else mem a :: strAt mem (a + 1) n

/-- `strcmp(r + a, s) == 0`: reads up to the first difference or the end of `s`. -/
def Region.strcmpEq (r : Region UInt8) (a : Nat) : List UInt8 → Except Fault Bool
  | [] => do return (← r.load a) == 0
  | c :: cs => do
      if (← r.load a) = c then r.strcmpEq (a + 1) cs else return false

/-- `strncmp(r + a, s, n) == 0`. -/
def Region.strncmpEq (r : Region UInt8) (a : Nat) : List UInt8 → Nat → Except Fault Bool
  | _, 0 => .ok true
  | [], _ + 1 => do return (← r.load a) == 0
  | c :: cs, n + 1 => do
      if (← r.load a) = c then r.strncmpEq (a + 1) cs n else return false

/-- A string that stops before the bound stops at a NUL. -/
theorem strAt_terminated {mem : Nat → UInt8} {a n : Nat} (h : (strAt mem a n).length < n) :
    mem (a + (strAt mem a n).length) = 0 := by
  induction n generalizing a with
  | zero => cases h
  | succ n ih =>
      rw [strAt] at h ⊢
      by_cases hz : mem a = 0
      · rw [if_pos hz]
        exact hz
      · rw [if_neg hz] at h ⊢
        rw [List.length_cons] at h ⊢
        rw [← Nat.add_assoc, Nat.add_right_comm]
        exact ih (by omega)

theorem strAt_congr {mem mem' : Nat → UInt8} {a n : Nat}
    (h : ∀ j < n, mem' (a + j) = mem (a + j)) : strAt mem' a n = strAt mem a n := by
  induction n generalizing a with
  | zero => rfl
  | succ n ih =>
      have h0 := h 0 (by omega)
      rw [Nat.add_zero] at h0
      rw [strAt, strAt, h0, ih fun j hj => ?_]
      rw [Nat.add_assoc, Nat.add_comm 1 j]
      exact h (j + 1) (by omega)

/-- A string written with its terminator reads back. -/
theorem strAt_of_bytes {mem : Nat → UInt8} {s : List UInt8} (h0 : 0 ∉ s) :
    ∀ {a n : Nat}, s.length < n → (∀ j ≤ s.length, mem (a + j) = s.getD j 0) →
      strAt mem a n = s := by
  induction s with
  | nil =>
      intro a n hn h
      obtain ⟨m, rfl⟩ : ∃ m, n = m + 1 := ⟨n - 1, by simp at hn; omega⟩
      have := h 0 (Nat.le_refl 0)
      simp_all [strAt]
  | cons c cs ih =>
      intro a n hn h
      simp only [List.mem_cons, not_or] at h0
      obtain ⟨m, rfl⟩ : ∃ m, n = m + 1 := ⟨n - 1, by simp at hn; omega⟩
      have hc : mem a = c := by simpa using h 0 (by omega)
      have htail : strAt mem (a + 1) m = cs := by
        refine ih h0.2 (by simpa using hn) fun j hj => ?_
        have := h (j + 1) (by simpa using hj)
        rw [Nat.add_assoc, Nat.add_comm 1 j]
        simpa using this
      rw [strAt, hc, htail, if_neg (Ne.symm h0.1)]

/-- The bounded comparison, in bounds, compares the string in memory. -/
theorem strncmpEq_eq {r : Region UInt8} {s : List UInt8} (h0 : 0 ∉ s) :
    ∀ {a n : Nat}, a + n ≤ r.size →
      r.strncmpEq a s n = .ok (decide (strAt r.get a n = s.take n)) := by
  induction s with
  | nil =>
      intro a n hn
      cases n with
      | zero => simp [Region.strncmpEq, strAt]
      | succ n =>
          rw [Region.strncmpEq, Region.load_of_lt (by omega)]
          by_cases h : r.get a = 0 <;> simp [strAt, h]
  | cons c cs ih =>
      intro a n hn
      simp only [List.mem_cons, not_or] at h0
      cases n with
      | zero => simp [Region.strncmpEq, strAt]
      | succ n =>
          rw [Region.strncmpEq, Region.load_of_lt (by omega), ok_bind, ih h0.2 (by omega), strAt]
          by_cases hz : r.get a = 0
          · simp [hz, h0.1]
          · by_cases hc : r.get a = c <;> simp [hz, hc, List.take_succ_cons, Ne.symm h0.1]

/-- The unbounded comparison reads at most one byte past the length of `s`. -/
theorem strcmpEq_eq {r : Region UInt8} {s : List UInt8} (h0 : 0 ∉ s) :
    ∀ {a n : Nat}, s.length < n → a + n ≤ r.size →
      r.strcmpEq a s = .ok (decide (strAt r.get a n = s)) := by
  induction s with
  | nil =>
      intro a n hs hn
      obtain ⟨m, rfl⟩ : ∃ m, n = m + 1 := ⟨n - 1, by simp at hs; omega⟩
      rw [Region.strcmpEq, Region.load_of_lt (by omega)]
      by_cases h : r.get a = 0 <;> simp [strAt, h]
  | cons c cs ih =>
      intro a n hs hn
      simp only [List.mem_cons, not_or] at h0
      obtain ⟨m, rfl⟩ : ∃ m, n = m + 1 := ⟨n - 1, by simp at hs; omega⟩
      rw [Region.strcmpEq, Region.load_of_lt (by omega), ok_bind,
        ih h0.2 (by simpa using hs) (by omega), strAt]
      by_cases hz : r.get a = 0
      · simp [hz, h0.1]
      · by_cases hc : r.get a = c <;> simp [hz, hc, Ne.symm h0.1]

end MBroker
