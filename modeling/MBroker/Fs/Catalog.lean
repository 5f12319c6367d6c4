import MBroker.Fs.Consistency
import MBroker.Fs.Paths
import MBroker.Lib.Counting

/-!
# The catalog of a file system

The names in the directory and the handles that are open decide what
`tfs_open`, `tfs_close` and `tfs_unlink` return, in every state: inodes,
blocks and contents play no part. Files that were unlinked or truncated
while they were open are no exception here.

`Catalog` is that much of the state with the three calls on it, and
`Tfs.catalog` reads it off the tables.
-/

namespace MBroker

open Tfs

/-- The names of the files, without the slash, and the open handles. -/
structure Catalog where
  names : Finset (List UInt8)
  handles : Finset Nat
deriving DecidableEq

namespace Catalog

/-! ## Calls -/

def empty : Catalog := ⟨∅, ∅⟩

/-- The lowest handle that is not open. -/
def freeHandle (params : TfsParams) (c : Catalog) : Option Nat :=
  (List.range params.maxOpenFilesCount).find? fun h => h ∉ c.handles

/-- A new handle, if one is free. -/
def addHandle (params : TfsParams) (c : Catalog) : Int × Catalog :=
  match c.freeHandle params with
  | some h => (h, { c with handles := insert h c.handles })
  | none => (-1, c)

/-- A file of this name can be created: one inode is the root's, and the
directory is one block of entries. -/
def Room (params : TfsParams) (c : Catalog) (name : List UInt8) : Prop :=
  name.length < maxFileName ∧ c.names.card + 1 < params.maxInodeCount ∧
    c.names.card < params.blockSize / sizeofDirEntry

instance (params : TfsParams) (c : Catalog) (name : List UInt8) : Decidable (c.Room params name) :=
  inferInstanceAs (Decidable (_ ∧ _ ∧ _))

/-- A file that is created stays when no handle is free. -/
def «open» (params : TfsParams) (c : Catalog) (path : CString) (mode : Nat) : Int × Catalog :=
  if ¬ validPathname path then (-1, c)
  else if path.chars.tail ∈ c.names then c.addHandle params
  else if mode &&& tfsOCreat ≠ 0 ∧ c.Room params path.chars.tail then
    addHandle params { c with names := insert path.chars.tail c.names }
  else (-1, c)

def close (c : Catalog) (fhandle : Int) : Int × Catalog :=
  if 0 ≤ fhandle ∧ fhandle.toNat ∈ c.handles then
    (0, { c with handles := c.handles.erase fhandle.toNat })
  else (-1, c)

def unlink (c : Catalog) (target : CString) : Int × Catalog :=
  if validPathname target ∧ target.chars.tail ∈ c.names then
    (0, { c with names := c.names.erase target.chars.tail })
  else (-1, c)

/-- What a call returns, where the catalog decides it, and the catalog after it. -/
def call (params : TfsParams) (c : Catalog) : TfsCall → Option Int × Catalog
  | .open path mode => (some (c.open params path mode).1, (c.open params path mode).2)
  | .close fhandle => (some (c.close fhandle).1, (c.close fhandle).2)
  | .unlink target => (some (c.unlink target).1, (c.unlink target).2)
  | .write _ _ _ | .read _ _ => (none, c)

/-- What the calls of a list return. -/
def results (params : TfsParams) (c : Catalog) : List TfsCall → List (Option Int)
  | [] => []
  | a :: as => (c.call params a).1 :: results params (c.call params a).2 as

def after (params : TfsParams) (c : Catalog) (as : List TfsCall) : Catalog :=
  as.foldl (fun c a => (c.call params a).2) c

end Catalog

variable {s t : Tfs} {params : TfsParams} {c : Catalog} {m : CString} {mode : Nat} {r fhandle : Int}
  {name : List UInt8} {h : Nat}

/-! ## The catalog of the tables -/

/-- The catalog that the tables hold. -/
def Tfs.catalog (s : Tfs) : Catalog :=
  ⟨(indices s.maxDirEntries s.Live).image s.dName, indices s.maxOpenFiles s.Open⟩

theorem mem_names (hd : Directory s) : name ∈ s.catalog.names ↔ ∃ i, s.find name = some i := by
  constructor
  · intro hmem
    obtain ⟨k, hk, rfl⟩ := Finset.mem_image.mp hmem
    obtain ⟨i, hi, -⟩ := hd.live_inode k (mem_indices.mp hk).2
    exact ⟨i, hd.find_of_live (mem_indices.mp hk).2 hi⟩
  · rintro ⟨i, hi⟩
    obtain ⟨k, hk, hname, -⟩ := hd.find_eq_some.mp hi
    exact Finset.mem_image.mpr ⟨k, mem_indices.mpr ⟨hk.1, hk⟩, hname⟩

theorem mem_handles : h ∈ s.catalog.handles ↔ s.Open h :=
  mem_indices.trans ⟨fun hh => hh.2, fun hh => ⟨hh.1, hh⟩⟩

theorem catalog_eq (hd : Directory s) (hnames : ∀ name, name ∈ c.names ↔ ∃ i, s.find name = some i)
    (hhandles : ∀ h, h ∈ c.handles ↔ s.Open h) : s.catalog = c := by
  obtain ⟨names, handles⟩ := c
  have hn : s.catalog.names = names := by
    ext name
    rw [mem_names hd, hnames]
  have hh : s.catalog.handles = handles := by
    ext h
    rw [mem_handles, hhandles]
  rw [← hn, ← hh]

/-! ## Counting the names -/

/-- Each live entry has a name of its own. -/
theorem Directory.card_names (hd : Directory s) :
    (indices s.maxDirEntries s.Live).card = s.catalog.names.card := by
  symm
  apply Finset.card_image_of_injOn
  intro k hk k' hk' heq
  exact hd.name_inj k k' (mem_indices.mp hk).2 (mem_indices.mp hk').2 heq

/-- Each TAKEN inode but the root's belongs to one live entry. -/
theorem Inv.card_taken (hinv : Inv s) :
    (indices s.inodeTableSize s.Taken).card = s.catalog.names.card + 1 := by
  have hroot : 0 ∈ indices s.inodeTableSize s.Taken :=
    mem_indices.mpr ⟨hinv.base.root_taken.1, hinv.base.root_taken⟩
  rw [← Finset.card_erase_add_one hroot, ← hinv.dir.card_names]
  congr 1
  symm
  refine Finset.card_bij (fun k _ => (s.dInumber k).toNat) ?_ ?_ ?_
  · intro k hk
    obtain ⟨i, hi, hne, htaken⟩ := hinv.dir.live_inode k (mem_indices.mp hk).2
    rw [hi, Int.toNat_natCast]
    exact Finset.mem_erase.mpr ⟨hne, mem_indices.mpr ⟨htaken.1, htaken⟩⟩
  · intro k hk k' hk' heq
    obtain ⟨i, hi, -⟩ := hinv.dir.live_inode k (mem_indices.mp hk).2
    obtain ⟨i', hi', -⟩ := hinv.dir.live_inode k' (mem_indices.mp hk').2
    rw [hi, hi', Int.toNat_natCast, Int.toNat_natCast] at heq
    apply hinv.dir.inumber_inj k k' (mem_indices.mp hk).2 (mem_indices.mp hk').2
    rw [hi, hi', heq]
  · intro i hi
    obtain ⟨hne, hi⟩ := Finset.mem_erase.mp hi
    obtain ⟨k, hlive, hk⟩ := hinv.dir.taken_live i (mem_indices.mp hi).2 hne
    exact ⟨k, mem_indices.mpr ⟨hlive.1, hlive⟩, by rw [hk, Int.toNat_natCast]⟩

/-! ## The searches -/

theorem Inv.firstFreeInode_isSome (hinv : Inv s) :
    s.firstFreeInode.isSome ↔ s.catalog.names.card + 1 < s.inodeTableSize := by
  have hfind := find_isSome_iff (n := s.inodeTableSize) (p := s.Taken)
    fun i (hi : i < s.inodeTableSize) =>
      show (s.freeinodeTs.get i == .free) = true ↔ _ by
        cases hst : s.freeinodeTs.get i <;> simp [Taken, hi, hst]
  rw [firstFreeInode, hfind, hinv.card_taken]

theorem Inv.firstFreeSlot_isSome (hinv : Inv s) :
    s.firstFreeSlot.isSome ↔ s.catalog.names.card < s.maxDirEntries := by
  have hfind := find_isSome_iff (n := s.maxDirEntries) (p := s.Live)
    fun k (hk : k < s.maxDirEntries) =>
      show (s.dInumber k == -1) = true ↔ _ by simp [Live, hk]
  rw [firstFreeSlot, hfind, hinv.dir.card_names]

theorem Inv.room_iff (hinv : Inv s) (hs : Sized params s) :
    s.catalog.Room params name ↔ s.firstFreeInode.isSome ∧ (s.slotFor name).isSome := by
  have hinodes : s.inodeTableSize = params.maxInodeCount := by rw [inodeTableSize, hs.params_eq]
  have hentries : s.maxDirEntries = params.blockSize / sizeofDirEntry := by
    rw [maxDirEntries, blockSize, hs.params_eq]
  rw [hinv.firstFreeInode_isSome, Catalog.Room, slotFor, ← hinodes, ← hentries]
  by_cases hlen : name.length < maxFileName
  · rw [if_pos hlen, hinv.firstFreeSlot_isSome]
    exact and_iff_right hlen
  · rw [if_neg hlen]
    simp [hlen]

/-- `tfs_open` and the catalog look for the same handle. -/
theorem Sized.freeHandle_eq (hs : Sized params s) (hp : params.InRange) :
    s.catalog.freeHandle params = s.firstFreeHandle := by
  have hmax : s.maxOpenFiles = params.maxOpenFilesCount := by rw [maxOpenFiles, hs.params_eq]
  have hmin : min s.maxOpenFiles intIndices = params.maxOpenFilesCount := by
    have hle := hp.maxOpenFilesCount_le
    simp only [intIndices]
    omega
  symm
  rw [firstFreeHandle, hmin, Catalog.freeHandle]
  refine find_range_extend (Nat.le_refl _) (fun h hh => ?_) (fun h hh hge => by omega)
  have hopen : h ∈ s.catalog.handles ↔ s.freeOpenFileEntries.get h = .taken := by
    rw [mem_handles, Tfs.Open]
    exact and_iff_right (by omega)
  cases hst : s.freeOpenFileEntries.get h <;> simp [hopen, hst]

/-! ## Updates of the tables -/

theorem truncated_catalog {i : Nat} : (s.truncated i mode).catalog = s.catalog := by
  rcases s.truncated_cases i mode with heq | heq
  · rw [heq]
  · rw [heq]
    rfl

theorem openHandle_catalog {i off : Nat} (hh : h < s.maxOpenFiles) :
    (s.openHandle h i off).catalog =
      { s.catalog with handles := insert h s.catalog.handles } := by
  have hhandles : (s.openHandle h i off).catalog.handles = insert h s.catalog.handles := by
    ext h'
    rw [mem_handles, openHandle_open hh, Finset.mem_insert, mem_handles]
  rw [← hhandles]
  rfl

theorem closeHandle_catalog :
    (s.closeHandle h).catalog = { s.catalog with handles := s.catalog.handles.erase h } := by
  have hhandles : (s.closeHandle h).catalog.handles = s.catalog.handles.erase h := by
    ext h'
    rw [mem_handles, closeHandle_open, Finset.mem_erase, mem_handles]
  rw [← hhandles]
  rfl

theorem Inv.create_catalog {i k : Nat} (hinv : Inv s) (hinv' : Inv (s.create i k name))
    (hint : i < 2147483648) (hk : s.slotFor name = some k) (h0 : 0 ∉ name) :
    (s.create i k name).catalog = { s.catalog with names := insert name s.catalog.names } := by
  apply catalog_eq hinv'.dir
  · intro name'
    rw [find_create hinv.dir hinv'.dir hint hk h0, Finset.mem_insert, mem_names hinv.dir]
    by_cases hn : name' = name
    · simp [hn]
    · simp [hn]
  · exact fun h => mem_handles

theorem Inv.remove_catalog {i k : Nat} (hinv : Inv s) (hk : s.Live k) (hi : s.dInumber k = i) :
    (s.remove i k).catalog =
      { s.catalog with names := s.catalog.names.erase (s.dName k) } := by
  have hinv' := hinv.update (.remove hk hi)
  apply catalog_eq hinv'.dir
  · intro name
    rw [find_remove hinv.dir hinv'.dir hk, Finset.mem_erase, mem_names hinv.dir]
    by_cases hn : name = s.dName k
    · simp [hn]
    · simp [hn]
  · exact fun h => mem_handles

theorem Tfs.Writes.catalog {i b off n : Nat} {buffer : Nat → UInt8} (hinv : Inv s)
    (hw : s.Writes h i b off n) : (s.writeAt h i b off n buffer).catalog = s.catalog := by
  have hinv' := hinv.update (.writeAt hw buffer)
  apply catalog_eq hinv'.dir
  · intro name
    rw [writeAt_find hw.block_ne, mem_names hinv.dir]
  · exact fun h => mem_handles

/-! ## The calls -/

section Open

theorem Catalog.addHandle_some (hh : c.freeHandle params = some h) :
    c.addHandle params = ((h : Int), { c with handles := insert h c.handles }) := by
  rw [addHandle]
  simp only [hh]

theorem Catalog.addHandle_none (hh : c.freeHandle params = none) :
    c.addHandle params = (-1, c) := by
  rw [addHandle]
  simp only [hh]

theorem Catalog.open_mem (hv : validPathname m) (hmem : m.chars.tail ∈ c.names) (mode : Nat) :
    c.open params m mode = c.addHandle params := by
  rw [Catalog.open, if_neg (not_not_intro hv), if_pos hmem]

theorem Catalog.open_new (hv : validPathname m) (hmem : m.chars.tail ∉ c.names)
    (hc : mode &&& tfsOCreat ≠ 0) (hroom : c.Room params m.chars.tail) :
    c.open params m mode = addHandle params { c with names := insert m.chars.tail c.names } := by
  rw [Catalog.open, if_neg (not_not_intro hv), if_neg hmem, if_pos ⟨hc, hroom⟩]

theorem Catalog.open_fails (hmem : validPathname m → m.chars.tail ∉ c.names)
    (hroom : validPathname m → mode &&& tfsOCreat ≠ 0 → ¬ c.Room params m.chars.tail) :
    c.open params m mode = (-1, c) := by
  rw [Catalog.open]
  by_cases hv : validPathname m
  · rw [if_neg (not_not_intro hv), if_neg (hmem hv), if_neg fun hc => hroom hv hc.1 hc.2]
  · rw [if_pos hv]

theorem not_mem_names (hd : Directory s) (hf : s.find name = none) : name ∉ s.catalog.names := by
  rw [mem_names hd, hf]
  simp

/-- `tfs_open` does what the catalog says. -/
theorem OpenResult.catalog (ho : OpenResult s m mode r t) (hinv : Inv s) (hs : Sized params s)
    (hp : params.InRange) : s.catalog.open params m mode = (r, t.catalog) := by
  have hfree := hs.freeHandle_eq hp
  have hroom : s.catalog.Room params m.chars.tail ↔
      s.firstFreeInode.isSome ∧ (s.slotFor m.chars.tail).isSome := hinv.room_iff hs
  have hlt : ∀ {h}, s.firstFreeHandle = some h → h < s.maxOpenFiles := by
    intro h hh
    have hmin := (find_range_eq_some.mp hh).1
    omega
  cases ho with
  | invalid hv => exact Catalog.open_fails (fun hv' => absurd hv' hv) fun hv' => absurd hv' hv
  | absent hv hf hc =>
      exact Catalog.open_fails (fun _ => not_mem_names hinv.dir hf) fun _ hc' => absurd hc hc'
  | noInode hv hf hc hi =>
      apply Catalog.open_fails (fun _ => not_mem_names hinv.dir hf)
      intro _ _ hr
      have hsome := (hroom.mp hr).1
      rw [hi] at hsome
      cases hsome
  | noEntry hv hf hc hi hk =>
      apply Catalog.open_fails (fun _ => not_mem_names hinv.dir hf)
      intro _ _ hr
      have hsome := (hroom.mp hr).2
      rw [hk] at hsome
      cases hsome
  | existing hv hf hh =>
      have hmax : (s.truncated _ mode).maxOpenFiles = s.maxOpenFiles :=
        congrArg TfsParams.maxOpenFilesCount (hinv.frame_truncated hf mode).fsParams
      rw [Catalog.open_mem hv ((mem_names hinv.dir).mpr ⟨_, hf⟩),
        Catalog.addHandle_some (hfree.trans hh), openHandle_catalog (by rw [hmax]; exact hlt hh),
        truncated_catalog]
  | existingFull hv hf hh =>
      rw [Catalog.open_mem hv ((mem_names hinv.dir).mpr ⟨_, hf⟩),
        Catalog.addHandle_none (hfree.trans hh), truncated_catalog]
  | created hv hf hc hi hint hsize hk hh =>
      have hinv' := hinv.update (.create hi hint hsize hk m.zero_notMem_tail hv.tail_ne_nil hf)
      rw [Catalog.open_new hv (not_mem_names hinv.dir hf) hc
        (hroom.mpr ⟨by rw [hi]; rfl, by rw [hk]; rfl⟩), openHandle_catalog (s := s.create _ _ _)
        (hlt hh), hinv.create_catalog hinv' hint hk m.zero_notMem_tail]
      exact Catalog.addHandle_some (hfree.trans hh)
  | createdFull hv hf hc hi hint hsize hk hh =>
      have hinv' := hinv.update (.create hi hint hsize hk m.zero_notMem_tail hv.tail_ne_nil hf)
      rw [Catalog.open_new hv (not_mem_names hinv.dir hf) hc
        (hroom.mpr ⟨by rw [hi]; rfl, by rw [hk]; rfl⟩),
        hinv.create_catalog hinv' hint hk m.zero_notMem_tail]
      exact Catalog.addHandle_none (hfree.trans hh)

end Open

theorem Inv.tfsClose_catalog (hinv : Inv s) (hc : tfsClose fhandle s = .ok (r, t)) :
    s.catalog.close fhandle = (r, t.catalog) := by
  rcases hinv.tfsClose_cases hc with ⟨h, rfl, hopen, rfl, rfl⟩ | ⟨hclosed, rfl, rfl⟩
  · rw [closeHandle_catalog]
    exact if_pos ⟨Int.natCast_nonneg h, mem_handles.mpr hopen⟩
  · apply if_neg
    rintro ⟨hnonneg, hmem⟩
    exact hclosed _ (Int.toNat_of_nonneg hnonneg).symm (mem_handles.mp hmem)

theorem Inv.tfsUnlink_catalog (hinv : Inv s) (hu : tfsUnlink m s = .ok (r, t)) :
    s.catalog.unlink m = (r, t.catalog) := by
  rcases hinv.tfsUnlink_cases hu with ⟨hnone, rfl, rfl⟩ | ⟨k, i, hv, hk, hname, hi, -, rfl, rfl⟩
  · apply if_neg
    rintro ⟨hv, hmem⟩
    obtain ⟨i, hi⟩ := (mem_names hinv.dir).mp hmem
    rw [resolve_eq_some.mpr ⟨hv, hi⟩] at hnone
    cases hnone
  · rw [hinv.remove_catalog hk hi, hname]
    apply if_pos
    rw [← hname, mem_names hinv.dir]
    exact ⟨hv, i, hinv.dir.find_of_live hk hi⟩

/-- **The step lemma**: a call that returns has the catalog's result and
leaves the catalog's state. -/
theorem Inv.call_catalog {a : TfsCall} {res : TfsResult} (hinv : Inv s) (hs : Sized params s)
    (hp : params.InRange) (hcall : tfsCall s a = .ok (res, t)) :
    (s.catalog.call params a).2 = t.catalog ∧ ∀ r ∈ (s.catalog.call params a).1, res.1 = r := by
  obtain ⟨r, bytes⟩ := res
  cases a with
  | «open» path mode =>
      have ho := (hinv.tfsOpen_ok (tfsCall_open.mp hcall).1).catalog hinv hs hp
      simp [Catalog.call, ho]
  | close fhandle =>
      have hc := hinv.tfsClose_catalog (tfsCall_close.mp hcall).1
      simp [Catalog.call, hc]
  | unlink target =>
      have hu := hinv.tfsUnlink_catalog (tfsCall_unlink.mp hcall).1
      simp [Catalog.call, hu]
  | write fhandle buffer toWrite =>
      refine ⟨?_, by simp [Catalog.call]⟩
      rcases hinv.tfsWrite_cases (tfsCall_write.mp hcall).1 with rfl | ⟨h, i, b, off, rfl, hw, rfl⟩
      · rfl
      · exact (hw.catalog hinv).symm
  | read fhandle len =>
      refine ⟨?_, by simp [Catalog.call]⟩
      rcases hinv.tfsRead_cases hcall with rfl | ⟨h, off, rfl, -, -, rfl⟩
      · rfl
      · rfl

/-- A call whose result the catalog decides returns. -/
theorem Inv.call_of_catalog {a : TfsCall} (hinv : Inv s) (hs : Sized params s)
    (hp : params.InRange) (ha : (s.catalog.call params a).1.isSome) :
    ∃ res t, tfsCall s a = .ok (res, t) := by
  cases a with
  | «open» path mode =>
      obtain ⟨r, t, ho⟩ := hinv.tfsOpen_returns hs hp path mode
      exact ⟨_, t, tfsCall_open.mpr ⟨ho, rfl⟩⟩
  | close fhandle => exact ⟨_, _, tfsCall_close.mpr ⟨hinv.base.tfsClose_eq fhandle, rfl⟩⟩
  | unlink target =>
      obtain ⟨r, t, hu⟩ := hinv.tfsUnlink_returns target
      exact ⟨_, t, tfsCall_unlink.mpr ⟨hu, rfl⟩⟩
  | write | read => cases ha

/-! ## Runs -/

theorem Inv.calls_catalog {as : List TfsCall} {rs : List TfsResult} (hinv : Inv s)
    (hs : Sized params s) (hp : params.InRange) (hcalls : tfsCalls s as = .ok (rs, t)) :
    t.catalog = s.catalog.after params as ∧
      List.Forall₂ (fun expected res => ∀ r ∈ expected, res.1 = r) (s.catalog.results params as)
        rs ∧
      ∀ a, (t.catalog.call params a).1.isSome → ∃ res u, tfsCall t a = .ok (res, u) := by
  induction as generalizing s rs with
  | nil =>
      obtain ⟨rfl, rfl⟩ := ok_pair_inj hcalls
      exact ⟨rfl, .nil, fun _ => hinv.call_of_catalog hs hp⟩
  | cons a as ih =>
      obtain ⟨⟨res, s₁⟩, hcall, hcalls⟩ := bind_eq_ok.mp hcalls
      obtain ⟨⟨rs', s₂⟩, hrest, hcalls⟩ := bind_eq_ok.mp hcalls
      obtain ⟨rfl, rfl⟩ := ok_pair_inj hcalls
      obtain ⟨hcatalog, hres⟩ := hinv.call_catalog hs hp hcall
      have hs₁ := hs.updates hinv (hinv.tfsCall_updates hcall)
      obtain ⟨hafter, hresults, hreturns⟩ := ih (hinv.of_call hcall) hs₁ hrest
      rw [← hcatalog] at hafter hresults
      exact ⟨hafter, .cons hres hresults, hreturns⟩

theorem TfsStart.catalog {mallocs : Mallocs} (h : TfsStart params mallocs s) :
    s.catalog = Catalog.empty := by
  obtain ⟨he, -⟩ := h.emptyRoot
  apply catalog_eq he.inv.dir
  · intro name
    have hnone : s.find name = none := find_eq_none.mpr fun k hk => absurd hk (he.none_live k)
    rw [hnone]
    simp [Catalog.empty]
  · intro h
    simp [Catalog.empty, he.none_open h]

/-- **Opens, closes and unlinks depend on the catalog alone**: in every run
of TFS calls after `tfs_init`, with any arguments, each of them returns what
the catalog says, and the catalog is what the names and the handles are in
the end. The next of them returns whatever the run was. -/
theorem tfs_catalog {mallocs : Mallocs} {as : List TfsCall} {rs : List TfsResult}
    (hp : params.InRange) (h : TfsStart params mallocs s) (hcalls : tfsCalls s as = .ok (rs, t)) :
    t.catalog = Catalog.empty.after params as ∧
      List.Forall₂ (fun expected res => ∀ r ∈ expected, res.1 = r)
        (Catalog.empty.results params as) rs ∧
      ∀ a, (t.catalog.call params a).1.isSome → ∃ res u, tfsCall t a = .ok (res, u) := by
  rw [← h.catalog]
  exact h.emptyRoot.1.inv.calls_catalog (h.sized hp) hp hcalls

/-- `/a` is unlinked while it is open and made again; `/b` is made without a
handle for it, and opened later. -/
def orphanRun : List TfsCall :=
  [.open pathA tfsOCreat, .unlink pathA, .open pathA tfsOCreat, .open pathB tfsOCreat, .close 0,
    .open pathB 0]

theorem orphanRun_result : (tfsRun smallParams dirtyMallocs orphanRun).map Prod.fst =
    .ok (0, [(0, []), (0, []), (1, []), (-1, []), (0, []), (0, [])]) := by
  decide +kernel

theorem orphanRun_catalog : ∃ s t rs, TfsStart smallParams dirtyMallocs s ∧
    tfsCalls s orphanRun = .ok (rs, t) ∧ rs.map Prod.fst = [0, 0, 1, -1, 0, 0] ∧
    t.catalog = Catalog.empty.after smallParams orphanRun ∧
      List.Forall₂ (fun expected res => ∀ r ∈ expected, res.1 = r)
        (Catalog.empty.results smallParams orphanRun) rs ∧
      ∀ a, (t.catalog.call smallParams a).1.isSome → ∃ res u, tfsCall t a = .ok (res, u) := by
  obtain ⟨s, t, hs, hcalls⟩ := tfsRun_ok orphanRun_result
  have hp : smallParams.InRange := by
    constructor <;> decide
  exact ⟨s, t, _, hs, hcalls, rfl, tfs_catalog hp hs hcalls⟩

end MBroker
