import MBroker.Fs.Consistency
import MBroker.Fs.Paths

/-!
# File systems that nobody has written to

Opens, closes, unlinks and reads alone leave every file empty, also one
that is open and unlinked, or whose inode has gone to another file. The
only block in use is then the directory's, and no read returns a byte.
-/

namespace MBroker

open Tfs

variable {s t : Tfs} {h i k : Nat} {m : CString} {mode : Nat} {r fhandle : Int}
  {name : List UInt8}

/-- The files are empty, the handles at their starts, and the blocks free. -/
structure Blank (s : Tfs) : Prop where
  sizes : ∀ i, s.Held i → (s.inode i).iSize = 0
  offsets : ∀ h, s.Open h → (s.file h).ofOffset = 0
  blocks : ∀ b, s.BlockTaken b → b = 0

/-! ## Updates -/

theorem EmptyRoot.blank (he : EmptyRoot s) : Blank s where
  sizes := by
    rintro i ⟨hne, htaken | ⟨h, ho, -⟩⟩
    · exact absurd (he.only_root i htaken) hne
    · exact absurd ho (he.none_open h)
  offsets h ho := absurd ho (he.none_open h)
  blocks := he.only_block

theorem Blank.resetInode (hb : Blank s) (i : Nat) : Blank (s.resetInode i) where
  sizes := by
    intro j hj
    by_cases hji : j = i
    · rw [hji]
      exact congrArg Inode.iSize (Region.set_get_self ..)
    · have hinode : (s.resetInode i).inode j = s.inode j := Region.set_get_ne _ _ hji
      rw [hinode]
      exact hb.sizes j hj
  offsets := hb.offsets
  blocks := hb.blocks

theorem Blank.create (hb : Blank s) (hi : s.firstFreeInode = some i) :
    Blank (s.create i k name) where
  sizes := by
    intro j hj
    by_cases hji : j = i
    · rw [hji, create_inode_self]
    · rw [create_inode_ne hji]
      obtain ⟨hne, htaken | hopen⟩ := hj
      · have htaken := (create_taken (firstFreeInode_free hi).1).mp htaken
        exact hb.sizes j ⟨hne, .inl (htaken.resolve_left hji)⟩
      · exact hb.sizes j ⟨hne, .inr hopen⟩
  offsets := hb.offsets
  blocks := hb.blocks

/-- There is nothing to cut off. -/
theorem Blank.truncated (hb : Blank s) (hinv : Inv s) (hf : s.find name = some i) (mode : Nat) :
    s.truncated i mode = s := by
  obtain ⟨hne, htaken, -⟩ := hinv.of_find hf
  have hsize := hb.sizes i ⟨hne, .inl htaken⟩
  unfold Tfs.truncated
  split
  · exact truncate_of_empty hsize
  · rfl

theorem Blank.openHandle (hb : Blank s) (hh : s.firstFreeHandle = some h) (hi : s.Held i) :
    Blank (s.openHandle h i 0) := by
  have hlt : h < s.maxOpenFiles := by
    have hmin := (find_range_eq_some.mp hh).1
    omega
  constructor
  · rintro j ⟨hne, htaken | ⟨h', ho, hj⟩⟩
    · exact hb.sizes j ⟨hne, .inl htaken⟩
    · by_cases hh' : h' = h
      · rw [hh', openHandle_file_self] at hj
        obtain rfl := Int.ofNat_inj.mp hj
        exact hb.sizes i hi
      · rw [openHandle_file_ne hh'] at hj
        have ho := ((openHandle_open hlt).mp ho).resolve_left hh'
        exact hb.sizes j ⟨hne, .inr ⟨h', ho, hj⟩⟩
  · intro h' ho
    by_cases hh' : h' = h
    · rw [hh', openHandle_file_self]
    · rw [openHandle_file_ne hh']
      exact hb.offsets h' (((openHandle_open hlt).mp ho).resolve_left hh')
  · exact hb.blocks

theorem Blank.closeHandle (hb : Blank s) (h : Nat) : Blank (s.closeHandle h) where
  sizes := by
    rintro j ⟨hne, htaken | ⟨h', ho, hj⟩⟩
    · exact hb.sizes j ⟨hne, .inl htaken⟩
    · exact hb.sizes j ⟨hne, .inr ⟨h', (closeHandle_open.mp ho).2, hj⟩⟩
  offsets h' ho := hb.offsets h' (closeHandle_open.mp ho).2
  blocks := hb.blocks

theorem Blank.remove (hb : Blank s) (i k : Nat) : Blank (s.remove i k) where
  sizes := by
    rintro j ⟨hne, htaken | hopen⟩
    · exact hb.sizes j ⟨hne, .inl (remove_taken.mp htaken).2⟩
    · exact hb.sizes j ⟨hne, .inr hopen⟩
  offsets := hb.offsets
  blocks b hb' := hb.blocks b ⟨hb'.1, releaseBlock_taken hb'.2⟩

/-! ## Calls -/

theorem Blank.open_call (hb : Blank s) (hinv : Inv s) (ho : tfsOpen m mode s = .ok (r, t)) :
    Blank t := by
  cases hinv.tfsOpen_ok ho with
  | invalid | absent | noInode => exact hb
  | noEntry => exact hb.resetInode _
  | existing hv hf hh =>
      obtain ⟨hne, htaken, -⟩ := hinv.of_find hf
      have hheld : s.Held _ := ⟨hne, .inl htaken⟩
      rw [hb.truncated hinv hf]
      -- the end of an empty file is its start
      rw [hb.sizes _ hheld, ite_self]
      exact hb.openHandle hh hheld
  | existingFull hv hf =>
      rw [hb.truncated hinv hf]
      exact hb
  | created hv hf hc hi hint hlt hk hh =>
      refine (hb.create hi).openHandle hh ⟨hinv.base.ne_root hi, .inl ?_⟩
      exact (create_taken (firstFreeInode_free hi).1).mpr (.inl rfl)
  | createdFull hv hf hc hi => exact hb.create hi

theorem Blank.close_call (hb : Blank s) (hinv : Inv s) (hc : tfsClose fhandle s = .ok (r, t)) :
    Blank t := by
  rcases hinv.tfsClose_cases hc with ⟨h, -, -, -, rfl⟩ | ⟨-, -, rfl⟩
  · exact hb.closeHandle h
  · exact hb

theorem Blank.unlink_call (hb : Blank s) (hinv : Inv s) (hu : tfsUnlink m s = .ok (r, t)) :
    Blank t := by
  rcases hinv.tfsUnlink_cases hu with ⟨-, -, rfl⟩ | ⟨k, i, -, -, -, -, -, -, rfl⟩
  · exact hb
  · exact hb.remove i k

/-- A read finds the end of the file. -/
theorem Blank.read_eq (hb : Blank s) (hinv : Inv s) (fhandle : Int) (len : Nat) :
    tfsRead fhandle len s =
      .ok ((if 0 ≤ fhandle ∧ s.Open fhandle.toNat then 0 else -1, []), s) := by
  by_cases ho : 0 ≤ fhandle ∧ s.Open fhandle.toNat
  · rw [if_pos ho]
    obtain ⟨h, rfl⟩ : ∃ h : Nat, fhandle = h := ⟨fhandle.toNat, by omega⟩
    have ho : s.Open h := ho.2
    obtain ⟨i, off, hf, hne, -⟩ := hinv.bounds.file_eq ho
    have hoff : off = 0 := by
      have := hb.offsets h ho
      rwa [hf] at this
    have hsize := hb.sizes i ⟨hne, .inr ⟨h, ho, by rw [hf]⟩⟩
    rw [hinv.tfsRead_eq ho hf, if_pos]
    rw [hsize, hoff]
    unfold clampRead
    simp [sizeSub]
  · rw [if_neg ho]
    exact hinv.base.read_closed len ho

/-- The calls that do not write. -/
def NoWrite : TfsCall → Prop
  | .write _ _ _ => False
  | _ => True

/-- **The step lemma.** -/
theorem Blank.call {a : TfsCall} {res : TfsResult} (hb : Blank s) (hinv : Inv s)
    (ha : NoWrite a) (hcall : tfsCall s a = .ok (res, t)) : Blank t := by
  obtain ⟨r, bytes⟩ := res
  cases a with
  | «open» => exact hb.open_call hinv (tfsCall_open.mp hcall).1
  | close => exact hb.close_call hinv (tfsCall_close.mp hcall).1
  | unlink => exact hb.unlink_call hinv (tfsCall_unlink.mp hcall).1
  | write => exact ha.elim
  | read fhandle len =>
      have heq : tfsCall s (.read fhandle len) = tfsRead fhandle len s := rfl
      rw [heq, hb.read_eq hinv] at hcall
      obtain ⟨-, rfl⟩ := ok_pair_inj hcall
      exact hb

/-- Every name is the name of an empty file. -/
theorem Blank.contents (hb : Blank s) (hinv : Inv s) {bytes : List UInt8}
    (h : s.contents name = some bytes) : bytes = [] := by
  obtain ⟨i, hf, rfl⟩ := Option.map_eq_some_iff.mp h
  obtain ⟨hne, htaken, -⟩ := hinv.of_find hf
  exact fileBytes_of_empty (hb.sizes i ⟨hne, .inl htaken⟩)

end MBroker
