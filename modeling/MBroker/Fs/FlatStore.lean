import Mathlib.Data.Finmap
import MBroker.Fs.Operations

/-!
# A flat file store

What TécnicoFS is for, with no inode, block or directory entry in sight:
a finite map from names to byte strings, and handles that remember a name
and an offset. `call` gives the result of each TFS call on it.

When a name may be created is a parameter. `CreatPolicy.always` creates
whenever the mode asks for it; `CreatPolicy.room` also counts, for the
limits of the file system's tables: a name has at most 39 characters,
one inode is the root's, and a directory is one block of entries.
-/

namespace MBroker

/-- An abstract file store: files by name, and open handles. -/
structure FlatStore where
  files : Finmap fun _ : List UInt8 => List UInt8
  handles : Nat → Option (List UInt8 × Nat)

/-- Whether a store has room for a new file of the given name. -/
abbrev CreatPolicy := TfsParams → FlatStore → List UInt8 → Bool

namespace FlatStore

/-! ## Queries -/

/-- No file and no handle. -/
def empty : FlatStore := ⟨∅, fun _ => none⟩

/-- The number of files. -/
def fileCount (f : FlatStore) : Nat := f.files.keys.card

/-- The number of files with contents. -/
def fullCount (f : FlatStore) : Nat :=
  (f.files.keys.filter fun name => f.files.lookup name ≠ some []).card

/-- The lowest handle that is not in use. -/
def freeHandle (params : TfsParams) (f : FlatStore) : Option Nat :=
  (List.range params.maxOpenFilesCount).find? fun h => (f.handles h).isNone

/-- Some handle is open on the file `name`. -/
def IsOpen (params : TfsParams) (f : FlatStore) (name : List UInt8) : Prop :=
  ∃ h < params.maxOpenFilesCount, (f.handles h).map Prod.fst = some name

instance (params : TfsParams) (f : FlatStore) (name : List UInt8) :
    Decidable (f.IsOpen params name) :=
  inferInstanceAs (Decidable (∃ h < _, _))

/-! ## Calls -/

/-- The store with a file's contents set. -/
def put (f : FlatStore) (name data : List UInt8) : FlatStore :=
  { f with files := f.files.insert name data }

/-- The store with a handle set. -/
def setHandle (f : FlatStore) (h : Nat) (e : Option (List UInt8 × Nat)) : FlatStore :=
  { f with handles := Function.update f.handles h e }

/-- A new handle on `name`, if one is free. -/
def addHandle (params : TfsParams) (f : FlatStore) (name : List UInt8) (off : Nat) :
    Int × FlatStore :=
  match f.freeHandle params with
  | some h => (h, f.setHandle h (some (name, off)))
  | none => (-1, f)

/-- The file is created or truncated before a handle is looked for. -/
def «open» (policy : CreatPolicy) (params : TfsParams) (f : FlatStore) (path : CString)
    (mode : Nat) : Int × FlatStore :=
  if ¬ validPathname path then (-1, f)
  else match f.files.lookup path.chars.tail with
    | some data =>
      let data := if mode &&& tfsOTrunc ≠ 0 then [] else data
      addHandle params (f.put path.chars.tail data) path.chars.tail
        (if mode &&& tfsOAppend ≠ 0 then data.length else 0)
    | none =>
      if mode &&& tfsOCreat ≠ 0 ∧ policy params f path.chars.tail then
        addHandle params (f.put path.chars.tail []) path.chars.tail 0
      else (-1, f)

/-- What a handle refers to; negative ones refer to nothing. -/
def handle (f : FlatStore) (fhandle : Int) : Option (List UInt8 × Nat) :=
  if 0 ≤ fhandle then f.handles fhandle.toNat else none

def close (f : FlatStore) (fhandle : Int) : Int × FlatStore :=
  match f.handle fhandle with
  | some _ => (0, f.setHandle fhandle.toNat none)
  | none => (-1, f)

/-- `n` bytes of `buffer` laid over `data` from `off` on. -/
def overlay (data : List UInt8) (off n : Nat) (buffer : Nat → UInt8) : List UInt8 :=
  data.take off ++ (List.range n).map buffer ++ data.drop (off + n)

theorem overlay_length {data : List UInt8} {off n : Nat} {buffer : Nat → UInt8}
    (hoff : off ≤ data.length) : (overlay data off n buffer).length = max data.length (off + n) := by
  rw [overlay, List.length_append, List.length_append, List.length_take, List.length_map,
    List.length_range, List.length_drop]
  omega

theorem overlay_getElem {data : List UInt8} {off n x : Nat} {buffer : Nat → UInt8}
    (hoff : off ≤ data.length) (hx : x < (overlay data off n buffer).length) :
    (overlay data off n buffer)[x] =
      if off ≤ x ∧ x < off + n then buffer (x - off) else data.getD x 0 := by
  have hlen : (overlay data off n buffer).length = max data.length (off + n) :=
    overlay_length hoff
  simp only [overlay]
  by_cases h1 : x < off
  · rw [if_neg (by omega), List.getElem_append_left (by simp; omega),
      List.getElem_append_left (by simp; omega), List.getElem_take]
    simp [List.getD_eq_getElem?_getD, List.getElem?_eq_getElem (show x < data.length by omega)]
  · by_cases h2 : x < off + n
    · rw [if_pos (by omega), List.getElem_append_left (by simp; omega),
        List.getElem_append_right (by simp; omega)]
      simp [Nat.min_eq_left hoff]
    · rw [if_neg (by omega), List.getElem_append_right (by simp; omega), List.getElem_drop]
      simp only [List.length_append, List.length_take, List.length_map, List.length_range,
        Nat.min_eq_left hoff]
      simp [List.getD_eq_getElem?_getD, show off + n + (x - (off + n)) = x by omega,
        List.getElem?_eq_getElem (show x < data.length by omega)]

theorem overlay_get {data : List UInt8} {off n : Nat} {buffer : Nat → UInt8}
    (hoff : off ≤ data.length) (x : Nat) : (overlay data off n buffer)[x]? =
      if off ≤ x ∧ x < off + n then some (buffer (x - off)) else data[x]? := by
  have hlen : (overlay data off n buffer).length = max data.length (off + n) :=
    overlay_length hoff
  by_cases hx : x < (overlay data off n buffer).length
  · rw [List.getElem?_eq_getElem hx, overlay_getElem hoff hx]
    split
    · rfl
    · have hdata : x < data.length := by omega
      rw [List.getD_eq_getElem?_getD, List.getElem?_eq_getElem hdata]
      rfl
  · rw [List.getElem?_eq_none (by omega), if_neg (by omega), List.getElem?_eq_none (by omega)]

/-- A write stops at the end of the block; an empty file needs a block. -/
def write (params : TfsParams) (f : FlatStore) (fhandle : Int) (buffer : Nat → UInt8)
    (toWrite : Nat) : Int × FlatStore :=
  match f.handle fhandle with
  | none => (-1, f)
  | some (name, off) =>
    let n := min toWrite (params.blockSize - off)
    let data := (f.files.lookup name).getD []
    if n = 0 then (0, f)
    else if data = [] ∧ ¬ f.fullCount + 1 < params.maxBlockCount then (-1, f)
    else (n, (f.put name (overlay data off n buffer)).setHandle fhandle.toNat (some (name, off + n)))

def read (f : FlatStore) (fhandle : Int) (len : Nat) : TfsResult × FlatStore :=
  match f.handle fhandle with
  | none => ((-1, []), f)
  | some (name, off) =>
    let data := (f.files.lookup name).getD []
    let bytes := (data.drop off).take len
    ((bytes.length, bytes), f.setHandle fhandle.toNat (some (name, off + bytes.length)))

def unlink (f : FlatStore) (target : CString) : Int × FlatStore :=
  if validPathname target ∧ target.chars.tail ∈ f.files then
    (0, { f with files := f.files.erase target.chars.tail })
  else (-1, f)

/-- One call: its result and the store after it. -/
def call (policy : CreatPolicy) (params : TfsParams) (f : FlatStore) :
    TfsCall → TfsResult × FlatStore
  | .open path mode => (((f.open policy params path mode).1, []), (f.open policy params path mode).2)
  | .close fhandle => (((f.close fhandle).1, []), (f.close fhandle).2)
  | .write fhandle buffer toWrite =>
    (((f.write params fhandle buffer toWrite).1, []), (f.write params fhandle buffer toWrite).2)
  | .read fhandle len => f.read fhandle len
  | .unlink target => (((f.unlink target).1, []), (f.unlink target).2)

/-- The results of the calls of a list. -/
def results (policy : CreatPolicy) (params : TfsParams) (f : FlatStore) :
    List TfsCall → List TfsResult
  | [] => []
  | c :: cs => (f.call policy params c).1 :: results policy params (f.call policy params c).2 cs

/-! ## Allowed calls -/

/-- A call that unlinks or truncates no open file, and whose write does not
overflow a `size_t`. -/
def Allowed (params : TfsParams) (f : FlatStore) : TfsCall → Prop
  | .open path mode =>
    validPathname path ∧ mode &&& tfsOTrunc ≠ 0 → ¬ f.IsOpen params path.chars.tail
  | .write fhandle _ toWrite => ∀ p ∈ f.handle fhandle, toWrite + p.2 < 18446744073709551616
  | .unlink target => validPathname target → ¬ f.IsOpen params target.chars.tail
  | _ => True

/-- Every call of a list is allowed when it is made. -/
def AllowedRun (policy : CreatPolicy) (params : TfsParams) (f : FlatStore) :
    List TfsCall → Prop
  | [] => True
  | c :: cs => f.Allowed params c ∧ AllowedRun policy params (f.call policy params c).2 cs

instance (params : TfsParams) (f : FlatStore) : (c : TfsCall) → Decidable (f.Allowed params c)
  | .open _ _ => inferInstanceAs (Decidable (_ → _))
  | .close _ => inferInstanceAs (Decidable True)
  | .write _ _ _ => inferInstanceAs (Decidable (∀ _ ∈ _, _))
  | .read _ _ => inferInstanceAs (Decidable True)
  | .unlink _ => inferInstanceAs (Decidable (_ → _))

instance instDecidableAllowedRun (policy : CreatPolicy) (params : TfsParams) :
    (f : FlatStore) → (cs : List TfsCall) → Decidable (f.AllowedRun policy params cs)
  | _, [] => inferInstanceAs (Decidable True)
  | f, c :: cs =>
    have := instDecidableAllowedRun policy params (f.call policy params c).2 cs
    inferInstanceAs (Decidable (_ ∧ _))

end FlatStore

/-! ## When a file may be created -/

/-- Every creation succeeds. -/
def CreatPolicy.always : CreatPolicy := fun _ _ _ => true

/-- A creation succeeds when the name is short enough and the inode table
and the directory have room. -/
def CreatPolicy.room : CreatPolicy := fun params f name =>
  name.length < maxFileName ∧ f.fileCount + 1 < params.maxInodeCount ∧
    f.fileCount < params.blockSize / sizeofDirEntry

end MBroker
