import MBroker.Lib.Sorting

/-!
# The registry of boxes (mbroker/box_metadata.c)

`box_holder_t` keeps pointers to boxes in the first `current_size` slots of
an array. An insert appends, a remove clears the slot of the first box
with the name and moves those behind it down by one, and a find returns
the first box with the name.

Without its lock the registry is a list: the slots in use are the boxes
that were inserted, in order, less the first match of every remove. What
follows the slots in use is left over from earlier removes and never read.

The functions return how they leave `holder->lock`; what that means for
the threads is in `BoxHolderLock`. The fields of a box but its name are left
aside, and so is `box_metadata_destroy`. It frees the name, which is the
first member of the box, and then the box, so a remove that finds its box
aborts there. The remove here goes on as if the box had been freed once.
-/

namespace MBroker

/-- A box, behind its address; `name` is the string in the field. -/
structure BoxMetadata where
  ptr : Nat
  name : CString
deriving DecidableEq

/-- `sizeof(box_metadata_t)`: the name, a size, a pointer, three members
that are padded to eight bytes, a condition variable and six mutexes. -/
def sizeofBoxMetadata : Nat := 32 + 8 + 8 + 3 * 8 + 48 + 6 * 40

/-- `box_holder_t` without its lock. -/
structure BoxHolder where
  boxes : Region (Option BoxMetadata)
  currentSize : Nat
  maxSize : Nat

/-- How a call leaves `holder->lock`, which it has taken: with a
`pthread_mutex_unlock`, or with a `return` before it. -/
inductive LockExit
  | unlocks
  | keeps
deriving DecidableEq

/-- `box_holder_create`: what it returns, and the holder. `callocs` is false
when there is no memory. -/
def boxHolderCreate (maxBoxes : Nat) (callocs : Bool) : Int × BoxHolder :=
  let bytes := maxBoxes * sizeofBoxMetadata
  if callocs ∧ bytes ≤ ptrdiffMax then (0, ⟨⟨false, bytes / 8, fun _ => none⟩, 0, maxBoxes⟩)
  else (-1, ⟨⟨true, 0, fun _ => none⟩, 0, maxBoxes⟩)

/-- `holder->boxes[i]`, to be looked into. -/
def boxAt (holder : BoxHolder) (i : Nat) : Except Fault BoxMetadata := do
  match ← holder.boxes.load i with
  | some box => return box
  | none => .error .outOfBounds

/-- The loop over the slots in use, up to the first box with the name. -/
def scanBoxes (holder : BoxHolder) (name : CString) : Except Fault (Option Nat) :=
  scan holder.currentSize fun i => do
    let box ← boxAt holder i
    return strcmp box.name.chars name.chars = 0

/-- `for (size_t j = i; ...; j++) boxes[j] = boxes[j + 1]`, so many times. -/
def shiftBoxes (boxes : Region (Option BoxMetadata)) (j : Nat) :
    Nat → Except Fault (Region (Option BoxMetadata))
  | 0 => return boxes
  | n + 1 => do
    let next ← boxes.load (j + 1)
    let boxes ← boxes.store j next
    shiftBoxes boxes (j + 1) n

/-- Inserts a box metadata in the box holder. -/
def boxHolderInsert (holder : BoxHolder) (box : BoxMetadata) :
    Except Fault (LockExit × BoxHolder) := do
  alwaysAssert (holder.currentSize < holder.maxSize) "Already inserted max size of boxes"
  let boxes ← holder.boxes.store holder.currentSize (some box)
  return (.unlocks, ⟨boxes, sizeAdd holder.currentSize 1, holder.maxSize⟩)

/-- Removes a box from the holder. A real call that finds one aborts in
`box_metadata_destroy`, behind the first of the stores. -/
def boxHolderRemove (holder : BoxHolder) (name : CString) :
    Except Fault (LockExit × BoxHolder) := do
  match ← scanBoxes holder name with
  | some i =>
    let boxes ← holder.boxes.store i none
    let boxes ← shiftBoxes boxes i (sizeSub holder.currentSize 1 - i)
    return (.keeps, ⟨boxes, sizeSub holder.currentSize 1, holder.maxSize⟩)
  | none => return (.unlocks, holder)

/-- Finds a box with the given name. The unlock stands behind both returns. -/
def boxHolderFindBox (holder : BoxHolder) (name : CString) :
    Except Fault (LockExit × Option BoxMetadata) := do
  match ← scanBoxes holder name with
  | some i => return (.keeps, ← holder.boxes.load i)
  | none => return (.keeps, none)

/-! ## Calls -/

inductive BoxCall
  | insert (box : BoxMetadata)
  | remove (name : CString)
  | findBox (name : CString)
deriving DecidableEq

/-- One call: how it leaves the lock, the box it returns if it returns one,
and the holder. -/
def boxCall (holder : BoxHolder) :
    BoxCall → Except Fault (LockExit × Option BoxMetadata × BoxHolder)
  | .insert box => do
    let (exit, holder) ← boxHolderInsert holder box
    return (exit, none, holder)
  | .remove name => do
    let (exit, holder) ← boxHolderRemove holder name
    return (exit, none, holder)
  | .findBox name => do
    let (exit, box) ← boxHolderFindBox holder name
    return (exit, box, holder)

/-- Calls one after the other, whatever happens to the lock: what they
return, and the holder after the last. -/
def boxCalls (holder : BoxHolder) :
    List BoxCall → Except Fault (List (Option BoxMetadata) × BoxHolder)
  | [] => return ([], holder)
  | c :: cs => do
    let (_, box, holder) ← boxCall holder c
    let (results, holder) ← boxCalls holder cs
    return (box :: results, holder)

/-- An insert finds a slot that is free. -/
def HasRoom (holder : BoxHolder) : BoxCall → Prop
  | .insert _ => holder.currentSize < holder.maxSize
  | _ => True

/-- No call inserts into a full holder. -/
def NeverFull (holder : BoxHolder) : List BoxCall → Prop
  | [] => True
  | c :: cs => HasRoom holder c ∧
    ∀ exit box holder', boxCall holder c = .ok (exit, box, holder') → NeverFull holder' cs

/-! ## The list of boxes -/

/-- What a call does to a list of boxes, and the box it finds in it. -/
def listCall (boxes : List BoxMetadata) : BoxCall → Option BoxMetadata × List BoxMetadata
  | .insert box => (none, boxes ++ [box])
  | .remove name => (none, boxes.eraseP fun box => box.name = name)
  | .findBox name => (boxes.find? fun box => box.name = name, boxes)

def listCalls (boxes : List BoxMetadata) :
    List BoxCall → List (Option BoxMetadata) × List BoxMetadata
  | [] => ([], boxes)
  | c :: cs =>
    let (box, boxes) := listCall boxes c
    let (results, boxes) := listCalls boxes cs
    (box :: results, boxes)

/-- How a call leaves the lock, with these boxes in the registry. -/
def exitOf (boxes : List BoxMetadata) : BoxCall → LockExit
  | .insert _ => .unlocks
  | .remove name => if ∃ box ∈ boxes, box.name = name then .keeps else .unlocks
  | .findBox _ => .keeps

/-- The slots in use are the list, none of them `NULL`. -/
structure Holds (holder : BoxHolder) (boxes : List BoxMetadata) : Prop where
  length : boxes.length = holder.currentSize
  live : ∀ i < holder.currentSize, holder.boxes.get i = boxes[i]?
  size : holder.currentSize ≤ holder.maxSize
  room : holder.maxSize ≤ holder.boxes.size
  fits : holder.maxSize ≤ ptrdiffMax

section List

variable {holder : BoxHolder} {boxes : List BoxMetadata} {i : Nat}

/-- A created holder is empty. -/
theorem holds_create {maxBoxes : Nat} {callocs : Bool}
    (h : boxHolderCreate maxBoxes callocs = (0, holder)) :
    Holds holder [] ∧ holder.maxSize = maxBoxes := by
  unfold boxHolderCreate at h
  dsimp only at h
  split at h
  · rename_i hcalloc
    cases h
    have hbytes := hcalloc.2
    unfold sizeofBoxMetadata at hbytes
    refine ⟨⟨rfl, fun i hi => absurd hi (Nat.not_lt_zero i), Nat.zero_le _, ?_, ?_⟩, rfl⟩
    · show maxBoxes ≤ maxBoxes * sizeofBoxMetadata / 8
      unfold sizeofBoxMetadata
      omega
    · show maxBoxes ≤ ptrdiffMax
      omega
  · cases h

theorem Holds.slot_lt (h : Holds holder boxes) (hi : i < boxes.length) :
    i < holder.boxes.size := by
  have hlen := h.length
  have hsize := h.size
  have hroom := h.room
  omega

theorem Holds.get (h : Holds holder boxes) (hi : i < boxes.length) :
    holder.boxes.get i = some boxes[i] := by
  rw [h.live i (h.length ▸ hi), List.getElem?_eq_getElem hi]

/-- A slot in use can be looked into. -/
theorem Holds.boxAt (h : Holds holder boxes) (hi : i < boxes.length) :
    boxAt holder i = .ok boxes[i] := by
  rw [MBroker.boxAt, Region.load_of_lt (h.slot_lt hi), h.get hi]
  rfl

/-- The loop stops at the first box of the list with the name. -/
theorem Holds.scanBoxes (h : Holds holder boxes) (name : CString) :
    scanBoxes holder name = .ok (boxes.findIdx? fun box => box.name = name) := by
  let p : Nat → Bool := fun i => boxes[i]?.any fun box => box.name = name
  have hp : ∀ i (hi : i < boxes.length), p i = decide (boxes[i].name = name) := by
    intro i hi
    show boxes[i]?.any _ = _
    rw [List.getElem?_eq_getElem hi]
    rfl
  rw [MBroker.scanBoxes, ← h.length, ← find_range_eq_findIdx hp]
  refine scan_eq_find fun i hi => ?_
  rw [h.boxAt hi, ok_bind, hp i hi]
  have hname : strcmp boxes[i].name.chars name.chars = 0 ↔ boxes[i].name = name := by
    rw [strcmp_eq_zero, CString.mk.injEq]
  exact congrArg Except.ok (decide_eq_decide.mpr hname)

/-- The loop moves the elements behind `j` down by one, so many of them. -/
theorem shiftBoxes_eq {n j : Nat} {slots : Region (Option BoxMetadata)}
    (h : j + n < slots.size) : ∃ slots', shiftBoxes slots j n = .ok slots' ∧
      slots'.size = slots.size ∧
      ∀ k, slots'.get k = if j ≤ k ∧ k < j + n then slots.get (k + 1) else slots.get k := by
  induction n generalizing j slots with
  | zero =>
      refine ⟨slots, rfl, rfl, fun k => ?_⟩
      rw [if_neg (by omega)]
  | succ n ih =>
      have hrest : j + 1 + n < (slots.set j (slots.get (j + 1))).size := by
        rw [Region.set_size]
        omega
      obtain ⟨slots', hshift, hsize, hget⟩ := ih hrest
      refine ⟨slots', ?_, hsize, fun k => ?_⟩
      · rw [shiftBoxes, Region.load_of_lt (by omega), ok_bind, Region.store_of_lt (by omega),
          ok_bind]
        exact hshift
      · rw [hget k, Region.set_get, Region.set_get]
        by_cases hk : k = j
        · subst hk
          rw [if_neg (by omega), if_pos rfl, if_pos (by omega)]
        · rw [if_neg hk]
          by_cases hin : j ≤ k ∧ k < j + (n + 1)
          · rw [if_pos (by omega), if_neg (by omega), if_pos hin]
          · rw [if_neg (by omega), if_neg hin]

theorem Holds.insert (h : Holds holder boxes) (box : BoxMetadata)
    (hroom : holder.currentSize < holder.maxSize) : ∃ holder',
      boxHolderInsert holder box = .ok (.unlocks, holder') ∧ Holds holder' (boxes ++ [box]) ∧
      holder'.maxSize = holder.maxSize := by
  have hslot : holder.currentSize < holder.boxes.size := Nat.lt_of_lt_of_le hroom h.room
  have hsize : sizeAdd holder.currentSize 1 = holder.currentSize + 1 := by
    have hfits := h.fits
    unfold ptrdiffMax at hfits
    unfold sizeAdd
    omega
  refine ⟨⟨holder.boxes.set holder.currentSize (some box), holder.currentSize + 1,
    holder.maxSize⟩, ?_, ⟨?_, fun i hi => ?_, hroom, h.room, h.fits⟩, rfl⟩
  · rw [boxHolderInsert, alwaysAssert_of_true hroom, ok_bind, Region.store_of_lt hslot, ok_bind,
      hsize]
    rfl
  · rw [List.length_append, List.length_singleton, h.length]
  · show (holder.boxes.set holder.currentSize (some box)).get i = _
    rw [Region.set_get]
    by_cases hi' : i = holder.currentSize
    · rw [if_pos hi', hi', ← h.length, List.getElem?_concat_length]
    · have hlt : i < holder.currentSize := Nat.lt_of_le_of_ne (Nat.le_of_lt_succ hi) hi'
      rw [if_neg hi', h.live i hlt, List.getElem?_append_left (h.length ▸ hlt)]

/-- A match: the boxes behind it move down by one. -/
theorem Holds.erase (h : Holds holder boxes) (hi : i < boxes.length) : ∃ slots,
    shiftBoxes (holder.boxes.set i none) i (sizeSub holder.currentSize 1 - i) = .ok slots ∧
    Holds ⟨slots, sizeSub holder.currentSize 1, holder.maxSize⟩ (boxes.eraseIdx i) := by
  have hlen := h.length
  have hsize := h.size
  have hroom := h.room
  have hfits := h.fits
  have hsub : sizeSub holder.currentSize 1 = holder.currentSize - 1 := by
    unfold ptrdiffMax at hfits
    unfold sizeSub
    omega
  have hbound : i + (holder.currentSize - 1 - i) < (holder.boxes.set i none).size := by
    rw [Region.set_size]
    omega
  obtain ⟨slots, hshift, hslots, hget⟩ := shiftBoxes_eq hbound
  rw [hsub]
  refine ⟨slots, hshift, ⟨?_, fun k hk => ?_, ?_, ?_, hfits⟩⟩
  · rw [List.length_eraseIdx_of_lt hi, hlen]
  · have hk : k < holder.currentSize - 1 := hk
    show slots.get k = _
    rw [hget k, Region.set_get, Region.set_get, List.getElem?_eraseIdx]
    by_cases hki : k < i
    · rw [if_neg (by omega), if_neg (by omega), if_pos hki, h.live k (by omega)]
    · rw [if_pos (by omega), if_neg (by omega), if_neg hki, h.live (k + 1) (by omega)]
  · show holder.currentSize - 1 ≤ holder.maxSize
    omega
  · show holder.maxSize ≤ slots.size
    rw [hslots]
    exact hroom

theorem Holds.remove (h : Holds holder boxes) (name : CString) : ∃ holder',
    boxHolderRemove holder name = .ok (exitOf boxes (.remove name), holder') ∧
    Holds holder' (boxes.eraseP fun box => box.name = name) ∧
    holder'.maxSize = holder.maxSize := by
  rw [boxHolderRemove, h.scanBoxes name, ok_bind, List.eraseP_eq_eraseIdx]
  cases hfind : boxes.findIdx? fun box => box.name = name with
  | none =>
      have hno : ¬ ∃ box ∈ boxes, box.name = name := by
        simpa using hfind
      exact ⟨holder, by rw [exitOf, if_neg hno]; rfl, h, rfl⟩
  | some i =>
      obtain ⟨hi, hname, -⟩ := List.findIdx?_eq_some_iff_getElem.mp hfind
      have hmatch : ∃ box ∈ boxes, box.name = name :=
        ⟨boxes[i], List.getElem_mem hi, by simpa using hname⟩
      obtain ⟨slots, hshift, herase⟩ := h.erase hi
      refine ⟨_, ?_, herase, rfl⟩
      dsimp only
      rw [Region.store_of_lt (h.slot_lt hi), ok_bind, hshift, exitOf, if_pos hmatch]
      rfl

theorem Holds.findBox (h : Holds holder boxes) (name : CString) :
    boxHolderFindBox holder name = .ok (.keeps, boxes.find? fun box => box.name = name) := by
  rw [boxHolderFindBox, h.scanBoxes name, ok_bind, List.find?_eq_bind_findIdx?_getElem?]
  cases hfind : boxes.findIdx? fun box => box.name = name with
  | none => rfl
  | some i =>
      obtain ⟨hi, -, -⟩ := List.findIdx?_eq_some_iff_getElem.mp hfind
      dsimp only
      rw [Region.load_of_lt (h.slot_lt hi), h.get hi]
      exact congrArg (fun box => Except.ok (LockExit.keeps, box)) (List.getElem?_eq_getElem hi).symm

/-- One call does to the slots in use what it does to the list. -/
theorem Holds.call (h : Holds holder boxes) {c : BoxCall} (hroom : HasRoom holder c) :
    ∃ holder', boxCall holder c = .ok (exitOf boxes c, (listCall boxes c).1, holder') ∧
      Holds holder' (listCall boxes c).2 ∧ holder'.maxSize = holder.maxSize := by
  cases c with
  | insert box =>
      obtain ⟨holder', hinsert, hholds⟩ := h.insert box hroom
      exact ⟨holder', by rw [boxCall, hinsert]; rfl, hholds⟩
  | remove name =>
      obtain ⟨holder', hremove, hholds⟩ := h.remove name
      exact ⟨holder', by rw [boxCall, hremove]; rfl, hholds⟩
  | findBox name => exact ⟨holder, by rw [boxCall, h.findBox name]; rfl, h, rfl⟩

theorem Holds.calls (h : Holds holder boxes) {calls : List BoxCall}
    (hfull : NeverFull holder calls) : ∃ holder',
      boxCalls holder calls = .ok ((listCalls boxes calls).1, holder') ∧
      Holds holder' (listCalls boxes calls).2 ∧ holder'.maxSize = holder.maxSize := by
  induction calls generalizing holder boxes with
  | nil => exact ⟨holder, rfl, h, rfl⟩
  | cons c cs ih =>
      obtain ⟨holder₁, hcall, hholds₁, hmax₁⟩ := h.call hfull.1
      obtain ⟨holder', hcalls, hholds, hmax⟩ := ih hholds₁ (hfull.2 _ _ _ hcall)
      exact ⟨holder', by rw [boxCalls, hcall, ok_bind]; dsimp only; rw [hcalls]; rfl, hholds,
        hmax.trans hmax₁⟩

/-- **The registry is a list**: after any calls that never insert into a
full holder the slots in use are the boxes of the list, and every find has
returned what it finds there. -/
theorem boxCalls_list {maxBoxes : Nat} {callocs : Bool} {calls : List BoxCall}
    (hcreate : boxHolderCreate maxBoxes callocs = (0, holder)) (hfull : NeverFull holder calls) :
    ∃ holder', boxCalls holder calls = .ok ((listCalls [] calls).1, holder') ∧
      Holds holder' (listCalls [] calls).2 ∧ holder'.maxSize = maxBoxes := by
  obtain ⟨hholds, hmax⟩ := holds_create hcreate
  obtain ⟨holder', hcalls, hholds', hmax'⟩ := hholds.calls hfull
  exact ⟨holder', hcalls, hholds', hmax'.trans hmax⟩

/-- An insert that returns has found a slot. -/
theorem hasRoom_of_boxCall {c : BoxCall} {r : LockExit × Option BoxMetadata × BoxHolder}
    (h : boxCall holder c = .ok r) : HasRoom holder c := by
  cases c with
  | insert box =>
      obtain ⟨_, hinsert, -⟩ := bind_eq_ok.mp h
      obtain ⟨_, hassert, -⟩ := bind_eq_ok.mp hinsert
      show holder.currentSize < holder.maxSize
      exact alwaysAssert_eq_ok.mp hassert
  | remove name => trivial
  | findBox name => trivial

theorem neverFull_cons {c : BoxCall} {cs : List BoxCall} {exit : LockExit}
    {box : Option BoxMetadata} {holder' : BoxHolder} (hroom : HasRoom holder c)
    (hcall : boxCall holder c = .ok (exit, box, holder')) (h : NeverFull holder' cs) :
    NeverFull holder (c :: cs) := by
  refine ⟨hroom, fun exit' box' holder₁ hcall' => ?_⟩
  rw [hcall] at hcall'
  cases hcall'
  exact h

end List

theorem nameA_noNul : (0 : UInt8) ∉ [47, 97] := by decide

theorem nameB_noNul : (0 : UInt8) ∉ [47, 98] := by decide

/-- The box `/a`. -/
def metadataA : BoxMetadata := ⟨4096, [47, 97], nameA_noNul⟩

def metadataB : BoxMetadata := ⟨8192, [47, 98], nameB_noNul⟩

/-- Two inserts into a holder for two boxes, a find and a remove. -/
theorem twoBoxesRun_list : ∃ holder',
    boxCalls (boxHolderCreate 2 true).2 [.insert metadataA, .insert metadataB, .findBox metadataB.name,
      .remove metadataA.name] = .ok ([none, none, some metadataB, none], holder') ∧
    Holds holder' [metadataB] ∧ holder'.maxSize = 2 := by
  have hcreate : boxHolderCreate 2 true = (0, (boxHolderCreate 2 true).2) := rfl
  refine boxCalls_list hcreate ?_
  refine neverFull_cons ?_ rfl (neverFull_cons ?_ rfl ?_)
  · show 0 < 2
    decide
  · show 1 < 2
    decide
  · exact neverFull_cons trivial rfl (neverFull_cons trivial rfl trivial)

end MBroker
