import MBroker.Fs.Contents

/-!
# Path names, handles and what a caller keeps

The calls as a program that opens, closes and unlinks files sees them:
which path names resolve, which handles are open, and which files stay as
they are. Each call has one lemma for each of the three, and one that
says when it succeeds; users of the file system need nothing else about
its tables.
-/

namespace MBroker

open Tfs

variable {s t u : Tfs} {params : TfsParams} {i j k h : Nat} {m path : CString} {mode : Nat}
  {fhandle r : Int} {bytes : List UInt8}

/-! ## Resolution -/

/-- The inode a path name resolves to. -/
def Tfs.resolve (s : Tfs) (path : CString) : Option Nat :=
  if validPathname path then s.find path.chars.tail else none

theorem resolve_eq_some : s.resolve path = some i ↔
    validPathname path ∧ s.find path.chars.tail = some i := by
  unfold resolve
  by_cases hv : validPathname path
  · simp [hv]
  · simp [hv]

/-- All path names start alike. -/
theorem validPathname.tail_inj (hm : validPathname m) (hp : validPathname path)
    (h : m.chars.tail = path.chars.tail) : m = path := by
  have hchars : ∀ {p : CString}, validPathname p → p.chars = 47 :: p.chars.tail := by
    intro p hp
    cases hc : p.chars with
    | nil =>
        have hlen := hp.1
        rw [hc] at hlen
        simp at hlen
    | cons c cs =>
        have hhead := hp.2
        rw [hc] at hhead
        simp only [List.head?_cons, Option.some.injEq] at hhead
        rw [hhead, List.tail_cons]
  have heq : m.chars = path.chars := by
    rw [hchars hm, hchars hp, h]
  cases m
  cases path
  cases heq
  rfl

theorem resolve_congr (h : t.find path.chars.tail = s.find path.chars.tail) :
    t.resolve path = s.resolve path := by
  unfold resolve
  rw [h]

/-- A path name other than `m` resolves as before `m` was created. -/
theorem Inv.resolve_create (hinv : Inv s) (hi : s.firstFreeInode = some i) (hint : i < 2147483648)
    (hlt : i < s.inodeTable.size) (hk : s.slotFor m.chars.tail = some k) (hv : validPathname m)
    (hnew : s.find m.chars.tail = none) (path : CString) :
    (s.create i k m.chars.tail).resolve path = if path = m then some i else s.resolve path := by
  have hinv' := hinv.update
    (.create hi hint hlt hk m.zero_notMem_tail hv.tail_ne_nil hnew)
  have hfind : (s.create i k m.chars.tail).find path.chars.tail =
      if path.chars.tail = m.chars.tail then some i else s.find path.chars.tail :=
    find_create hinv.dir hinv'.dir hint hk m.zero_notMem_tail
  by_cases hp : path = m
  · subst hp
    rw [if_pos rfl, resolve_eq_some, hfind, if_pos rfl]
    exact ⟨hv, rfl⟩
  · rw [if_neg hp]
    unfold resolve
    by_cases hvp : validPathname path
    · have hne : path.chars.tail ≠ m.chars.tail := fun heq => hp (hvp.tail_inj hv heq)
      rw [if_pos hvp, if_pos hvp, hfind, if_neg hne]
    · rw [if_neg hvp, if_neg hvp]

theorem truncated_find (name : List UInt8) : (s.truncated i mode).find name = s.find name := by
  rcases s.truncated_cases i mode with heq | heq
  · rw [heq]
  · rw [heq]
    rfl

/-- `tfs_open` changes at most what its own path name resolves to. -/
theorem OpenResult.resolve_ne (ho : OpenResult s m mode r t) (hinv : Inv s) (hp : path ≠ m) :
    t.resolve path = s.resolve path := by
  cases ho with
  | invalid | absent | noInode => rfl
  | noEntry => rfl
  | existing => exact resolve_congr (truncated_find _)
  | existingFull => exact resolve_congr (truncated_find _)
  | created hv hf hc hi hint hlt hk =>
      have hcreate := hinv.resolve_create hi hint hlt hk hv hf path
      rw [if_neg hp] at hcreate
      exact hcreate
  | createdFull hv hf hc hi hint hlt hk =>
      have hcreate := hinv.resolve_create hi hint hlt hk hv hf path
      rw [if_neg hp] at hcreate
      exact hcreate

/-- `tfs_open` never unlinks. -/
theorem OpenResult.resolve_self (ho : OpenResult s m mode r t) (h : s.resolve m = some i) :
    t.resolve m = some i := by
  have hfind := (resolve_eq_some.mp h).2
  cases ho with
  | invalid | absent | noInode => exact h
  | noEntry => exact h
  | existing =>
      rw [← h]
      exact resolve_congr (truncated_find _)
  | existingFull =>
      rw [← h]
      exact resolve_congr (truncated_find _)
  | created _ hf =>
      rw [hfind] at hf
      cases hf
  | createdFull _ hf =>
      rw [hfind] at hf
      cases hf

theorem OpenResult.resolve_mono (ho : OpenResult s m mode r t) (hinv : Inv s)
    (h : s.resolve path = some i) : t.resolve path = some i := by
  by_cases hp : path = m
  · subst hp
    exact ho.resolve_self h
  · rw [ho.resolve_ne hinv hp]
    exact h

/-- An open that returns a handle has a file. -/
theorem OpenResult.resolve_isSome (ho : OpenResult s m mode r t) (hinv : Inv s) (hr : r ≠ -1) :
    (t.resolve m).isSome := by
  cases ho with
  | invalid | absent | noInode | noEntry | existingFull | createdFull => exact absurd rfl hr
  | existing hv hf =>
      apply Option.isSome_iff_exists.mpr
      exact ⟨_, (resolve_congr (truncated_find _)).trans (resolve_eq_some.mpr ⟨hv, hf⟩)⟩
  | created hv hf hc hi hint hlt hk =>
      have hcreate := hinv.resolve_create hi hint hlt hk hv hf m
      rw [if_pos rfl] at hcreate
      apply Option.isSome_iff_exists.mpr
      exact ⟨_, hcreate⟩

theorem OpenResult.valid (ho : OpenResult s m mode r t) (hr : r ≠ -1) : validPathname m := by
  cases ho with
  | invalid | absent | noInode | noEntry | existingFull | createdFull => exact absurd rfl hr
  | existing hv => exact hv
  | created hv => exact hv

/-! ## Closing and unlinking -/

theorem Inv.tfsClose_cases (hinv : Inv s) (hc : tfsClose fhandle s = .ok (r, t)) :
    (∃ h : Nat, fhandle = h ∧ s.Open h ∧ r = 0 ∧ t = s.closeHandle h) ∨
      (∀ h : Nat, fhandle = h → ¬ s.Open h) ∧ r = -1 ∧ t = s := by
  rw [hinv.base.tfsClose_eq] at hc
  have hc := Except.ok.inj hc
  split at hc
  · rename_i hopen
    obtain ⟨rfl, rfl⟩ := Prod.mk.inj hc
    exact .inl ⟨fhandle.toNat, (Int.toNat_of_nonneg hopen.1).symm, hopen.2, rfl, rfl⟩
  · rename_i hopen
    obtain ⟨rfl, rfl⟩ := Prod.mk.inj hc
    refine .inr ⟨?_, rfl, rfl⟩
    intro h heq ho
    subst heq
    exact hopen ⟨Int.natCast_nonneg h, ho⟩

theorem Inv.tfsUnlink_cases (hinv : Inv s) (hu : tfsUnlink m s = .ok (r, t)) :
    (s.resolve m = none ∧ r = -1 ∧ t = s) ∨
      ∃ k i, validPathname m ∧ s.Live k ∧ s.dName k = m.chars.tail ∧ s.dInumber k = (i : Nat) ∧
        s.resolve m = some i ∧ r = 0 ∧ t = s.remove i k := by
  rw [hinv.tfsUnlink_eq] at hu
  by_cases hv : validPathname m
  · rw [if_neg (not_not_intro hv)] at hu
    cases hk : s.findSlot m.chars.tail with
    | none =>
        rw [hk] at hu
        obtain ⟨rfl, rfl⟩ := ok_pair_inj hu
        refine .inl ⟨?_, rfl, rfl⟩
        rw [resolve, if_pos hv, find, hk]
        rfl
    | some k =>
        rw [hk] at hu
        obtain ⟨rfl, rfl⟩ := ok_pair_inj hu
        obtain ⟨hlive, hname⟩ := findSlot_eq_some hk
        obtain ⟨i, hi, -⟩ := hinv.dir.live_inode k hlive
        refine .inr ⟨k, i, hv, hlive, hname, hi, ?_, rfl, by rw [hi]; rfl⟩
        rw [resolve, if_pos hv, find, hk, Option.map_some, hi]
        rfl
  · rw [if_pos hv] at hu
    obtain ⟨rfl, rfl⟩ := ok_pair_inj hu
    exact .inl ⟨if_neg hv, rfl, rfl⟩

theorem Inv.resolve_unlink (hinv : Inv s) (hu : tfsUnlink m s = .ok (r, t)) (path : CString) :
    t.resolve path = if path = m then none else s.resolve path := by
  rcases hinv.tfsUnlink_cases hu with ⟨hnone, -, rfl⟩ | ⟨k, i, hv, hk, hname, hi, -, -, rfl⟩
  · by_cases hp : path = m
    · rw [if_pos hp, hp, hnone]
    · rw [if_neg hp]
  · have hinv' := hinv.update (.remove hk hi)
    have hfind : (s.remove i k).find path.chars.tail =
        if path.chars.tail = s.dName k then none else s.find path.chars.tail :=
      find_remove hinv.dir hinv'.dir hk
    rw [hname] at hfind
    unfold resolve
    by_cases hvp : validPathname path
    · rw [if_pos hvp, if_pos hvp, hfind]
      by_cases hp : path = m
      · rw [if_pos hp, if_pos (congrArg (fun p => p.chars.tail) hp)]
      · have hne : path.chars.tail ≠ m.chars.tail := fun heq => hp (hvp.tail_inj hv heq)
        rw [if_neg hp, if_neg hne]
    · rw [if_neg hvp, if_neg hvp, ite_self]

/-! ## Handles -/

/-- `tfs_open` opens the handle it returns and no other. -/
theorem OpenResult.handles (ho : OpenResult s m mode r t) :
    (r = -1 ∧ ∀ h, t.Open h ↔ s.Open h) ∨
      ∃ h : Nat, r = h ∧ ¬ s.Open h ∧ ∀ h', t.Open h' ↔ h' = h ∨ s.Open h' := by
  have hnew : ∀ {h : Nat}, s.firstFreeHandle = some h → h < s.maxOpenFiles ∧ ¬ s.Open h := by
    intro h hh
    obtain ⟨hlt, hfree, -⟩ := find_range_eq_some.mp hh
    refine ⟨by omega, ?_⟩
    intro hopen
    rw [hopen.2] at hfree
    cases hfree
  have htrunc : ∀ {i h : Nat}, (s.truncated i mode).Open h ↔ s.Open h := by
    intro i h
    rcases s.truncated_cases i mode with heq | heq
    · rw [heq]
    · rw [heq]
      exact Iff.rfl
  have hmax : ∀ {i : Nat}, (s.truncated i mode).maxOpenFiles = s.maxOpenFiles := by
    intro i
    rcases s.truncated_cases i mode with heq | heq
    · rw [heq]
    · rw [heq]
      rfl
  cases ho with
  | invalid | absent | noInode => exact .inl ⟨rfl, fun _ => Iff.rfl⟩
  | noEntry => exact .inl ⟨rfl, fun _ => Iff.rfl⟩
  | createdFull => exact .inl ⟨rfl, fun _ => Iff.rfl⟩
  | existingFull => exact .inl ⟨rfl, fun _ => htrunc⟩
  | @existing i h _ _ hh =>
      refine .inr ⟨h, rfl, (hnew hh).2, ?_⟩
      intro h'
      rw [openHandle_open (by rw [hmax]; exact (hnew hh).1), htrunc]
  | @created i k h _ _ _ _ _ _ _ hh =>
      refine .inr ⟨h, rfl, (hnew hh).2, ?_⟩
      intro h'
      exact openHandle_open (s := s.create i k m.chars.tail) (hnew hh).1

theorem truncated_file : (s.truncated i mode).file h = s.file h := by
  rcases s.truncated_cases i mode with heq | heq
  · rw [heq]
  · rw [heq]
    rfl

/-- The entries of the handles that were open stay. -/
theorem OpenResult.file_of_open (ho : OpenResult s m mode r t) (hopen : s.Open h) :
    t.file h = s.file h := by
  have hne : ∀ {h' : Nat}, s.firstFreeHandle = some h' → h ≠ h' := by
    intro h' hh heq
    obtain ⟨-, hfree, -⟩ := find_range_eq_some.mp hh
    rw [← heq, hopen.2] at hfree
    cases hfree
  cases ho with
  | invalid | absent | noInode => rfl
  | noEntry | createdFull => rfl
  | existingFull => exact truncated_file
  | existing _ _ hh => exact (openHandle_file_ne (hne hh)).trans truncated_file
  | created _ _ _ _ _ _ _ hh => exact openHandle_file_ne (hne hh)

/-- The handle returned refers to the file of the path name, and is not past
its end. -/
theorem OpenResult.new_file (ho : OpenResult s m mode r t) (hinv : Inv s) (hr : r = h) :
    ∃ i : Nat, t.resolve m = some i ∧ (t.file h).ofInumber = i ∧
      (t.file h).ofOffset ≤ (t.inode i).iSize := by
  cases ho with
  | invalid | absent | noInode | noEntry | existingFull | createdFull => omega
  | @existing i h' hv hf =>
      obtain rfl : h' = h := Int.ofNat_inj.mp hr
      refine ⟨i, ?_, ?_, ?_⟩
      · exact (resolve_congr (truncated_find _)).trans (resolve_eq_some.mpr ⟨hv, hf⟩)
      · rw [openHandle_file_self]
      · rw [openHandle_file_self]
        dsimp only
        split
        · exact Nat.le_refl _
        · exact Nat.zero_le _
  | @created i k h' hv hf hc hi hint hlt hk =>
      obtain rfl : h' = h := Int.ofNat_inj.mp hr
      refine ⟨i, ?_, ?_, ?_⟩
      · have hcreate := hinv.resolve_create hi hint hlt hk hv hf m
        rw [if_pos rfl] at hcreate
        exact hcreate
      · rw [openHandle_file_self]
      · rw [openHandle_file_self]
        exact Nat.zero_le _

/-- `tfs_close` closes its handle, if it is open, and no other. -/
theorem Inv.close_handles (hinv : Inv s) (hc : tfsClose fhandle s = .ok (r, t)) (h : Nat) :
    t.Open h ↔ s.Open h ∧ fhandle ≠ h := by
  rcases hinv.tfsClose_cases hc with ⟨h', rfl, hopen, -, rfl⟩ | ⟨hclosed, -, rfl⟩
  · rw [closeHandle_open]
    constructor
    · rintro ⟨hne, ho⟩
      exact ⟨ho, fun heq => hne (Int.ofNat_inj.mp heq).symm⟩
    · rintro ⟨ho, hne⟩
      exact ⟨fun heq => hne (congrArg Nat.cast heq.symm), ho⟩
  · constructor
    · intro ho
      exact ⟨ho, fun heq => hclosed h heq ho⟩
    · exact And.left

theorem Inv.unlink_handles (hinv : Inv s) (hu : tfsUnlink m s = .ok (r, t)) (h : Nat) :
    t.Open h ↔ s.Open h := by
  rcases hinv.tfsUnlink_cases hu with ⟨-, -, rfl⟩ | ⟨_, _, _, _, _, _, _, _, rfl⟩
  · rfl
  · exact Iff.rfl

/-! ## Files that stay as they are -/

/-- If `path` is a file of `s`, it is the same file in `t`: the inode, the
size and the bytes. -/
def Kept (path : CString) (s t : Tfs) : Prop :=
  ∀ i, s.resolve path = some i →
    t.resolve path = some i ∧ (t.inode i).iSize = (s.inode i).iSize ∧
      t.fileBytes i = s.fileBytes i

theorem Kept.refl (path : CString) (s : Tfs) : Kept path s s :=
  fun _ h => ⟨h, rfl, rfl⟩

theorem Kept.trans (h : Kept path s t) (h' : Kept path t u) : Kept path s u := by
  intro i hi
  obtain ⟨hres, hsize, hbytes⟩ := h i hi
  obtain ⟨hres', hsize', hbytes'⟩ := h' i hres
  exact ⟨hres', hsize'.trans hsize, hbytes'.trans hbytes⟩

theorem Inv.of_resolve (hinv : Inv s) (h : s.resolve path = some i) : i ≠ 0 ∧ s.Taken i :=
  have hfile := hinv.of_find (resolve_eq_some.mp h).2
  ⟨hfile.1, hfile.2.1⟩

/-- What stays is decided by the resolution, the inode and the bytes. -/
theorem Kept.of_inode (hinv : Inv s)
    (h : ∀ i, s.resolve path = some i → i ≠ 0 → s.Taken i →
      t.resolve path = some i ∧ t.inode i = s.inode i ∧ t.fileBytes i = s.fileBytes i) :
    Kept path s t := by
  intro i hi
  obtain ⟨hne, ht⟩ := hinv.of_resolve hi
  obtain ⟨hres, hinode, hbytes⟩ := h i hi hne ht
  exact ⟨hres, by rw [hinode], hbytes⟩

theorem firstFree_ne_taken (hi : s.firstFreeInode = some i) (hj : s.Taken j) : j ≠ i := by
  intro heq
  subst heq
  have hfree := (firstFreeInode_free hi).2
  rw [hj.2] at hfree
  cases hfree

theorem Inv.kept_create (hinv : Inv s) (hi : s.firstFreeInode = some i) (hint : i < 2147483648)
    (hlt : i < s.inodeTable.size) (hk : s.slotFor m.chars.tail = some k) (hv : validPathname m)
    (hnew : s.find m.chars.tail = none) : Kept path s (s.create i k m.chars.tail) := by
  refine Kept.of_inode hinv ?_
  intro j hj hj0 ht
  have hne := firstFree_ne_taken hi ht
  obtain ⟨-, hklt, -⟩ := slotFor_eq_some hk
  have hpath : path ≠ m := by
    intro heq
    subst heq
    rw [(resolve_eq_some.mp hj).2] at hnew
    cases hnew
  refine ⟨?_, create_inode_ne hne, hinv.fileBytes_create ht hj0 hne hklt⟩
  rw [hinv.resolve_create hi hint hlt hk hv hnew, if_neg hpath]
  exact hj

theorem Inv.kept_truncated (hinv : Inv s) (hv : validPathname m)
    (hf : s.find m.chars.tail = some i) (h : path ≠ m ∨ mode &&& tfsOTrunc = 0) :
    Kept path s (s.truncated i mode) := by
  rcases h with hp | hmode
  · refine Kept.of_inode hinv ?_
    intro j hj hj0 ht
    obtain ⟨hvp, hfj⟩ := resolve_eq_some.mp hj
    have hne : j ≠ i := by
      intro heq
      subst heq
      exact hp (hvp.tail_inj hv (hinv.dir.find_inj hfj hf))
    rcases s.truncated_cases i mode with heq | heq
    · rw [heq]
      exact ⟨hj, rfl, rfl⟩
    · rw [heq]
      exact ⟨hj, Region.set_get_ne _ _ hne, fileBytes_truncate_ne hne⟩
  · rw [truncated, if_neg (not_not_intro hmode)]
    exact Kept.refl path s

/-- `tfs_open` keeps every file but the one it truncates. -/
theorem OpenResult.kept (ho : OpenResult s m mode r t) (hinv : Inv s)
    (h : path ≠ m ∨ mode &&& tfsOTrunc = 0) : Kept path s t := by
  cases ho with
  | invalid | absent | noInode => exact Kept.refl path s
  | noEntry _ _ _ hi =>
      refine Kept.of_inode hinv ?_
      intro j hj _ ht
      have hinode := Region.set_get_ne s.inodeTable ⟨.tFile, 0, -1⟩ (firstFree_ne_taken hi ht)
      refine ⟨hj, hinode, ?_⟩
      rw [fileBytes, fileBytes, blockAddr, blockAddr]
      rw [show (s.resetInode _).inode j = s.inode j from hinode]
      rfl
  | existing hv hf => exact hinv.kept_truncated hv hf h
  | existingFull hv hf => exact hinv.kept_truncated hv hf h
  | created hv hf _ hi hint hlt hk => exact hinv.kept_create hi hint hlt hk hv hf
  | createdFull hv hf _ hi hint hlt hk => exact hinv.kept_create hi hint hlt hk hv hf

theorem Inv.kept_close (hinv : Inv s) (hc : tfsClose fhandle s = .ok (r, t)) :
    Kept path s t := by
  rcases hinv.tfsClose_cases hc with ⟨_, _, _, _, rfl⟩ | ⟨_, _, rfl⟩
  · exact Kept.refl path s
  · exact Kept.refl path t

/-- `tfs_unlink` keeps every other file. -/
theorem Inv.kept_unlink (hinv : Inv s) (hu : tfsUnlink m s = .ok (r, t)) (hp : path ≠ m) :
    Kept path s t := by
  have hres := hinv.resolve_unlink hu path
  rw [if_neg hp] at hres
  rcases hinv.tfsUnlink_cases hu with ⟨-, -, rfl⟩ | ⟨k, i, -, hk, -, -, -, -, rfl⟩
  · exact Kept.refl path t
  · refine Kept.of_inode hinv ?_
    intro j hj hj0 ht
    exact ⟨hres.trans hj, rfl, hinv.fileBytes_remove ht hj0 hk.1⟩

/-! ## When a call succeeds -/

/-- An open succeeds if it has a free handle and its file exists or can be
created. -/
theorem OpenResult.ne_neg_one (ho : OpenResult s m mode r t) (hh : s.firstFreeHandle.isSome)
    (h : (s.resolve m).isSome ∨ validPathname m ∧ mode &&& tfsOCreat ≠ 0 ∧
      s.firstFreeInode.isSome ∧ (s.slotFor m.chars.tail).isSome) : r ≠ -1 := by
  have hvalid : validPathname m := by
    rcases h with h | h
    · obtain ⟨i, hi⟩ := Option.isSome_iff_exists.mp h
      exact (resolve_eq_some.mp hi).1
    · exact h.1
  have habsent : s.find m.chars.tail = none →
      mode &&& tfsOCreat ≠ 0 ∧ s.firstFreeInode.isSome ∧ (s.slotFor m.chars.tail).isSome := by
    intro hf
    rcases h with h | h
    · obtain ⟨i, hi⟩ := Option.isSome_iff_exists.mp h
      rw [(resolve_eq_some.mp hi).2] at hf
      cases hf
    · exact h.2
  cases ho with
  | invalid hv => exact absurd hvalid hv
  | absent _ hf hc => exact absurd hc (habsent hf).1
  | noInode _ hf _ hi =>
      have hsome := (habsent hf).2.1
      rw [hi] at hsome
      cases hsome
  | noEntry _ hf _ _ hk =>
      have hsome := (habsent hf).2.2
      rw [hk] at hsome
      cases hsome
  | existingFull _ _ hnone =>
      rw [hnone] at hh
      cases hh
  | createdFull _ _ _ _ _ _ _ hnone =>
      rw [hnone] at hh
      cases hh
  | existing => omega
  | created => omega

/-- `tfs_unlink` succeeds exactly on what resolves. -/
theorem Inv.unlink_eq_zero_iff (hinv : Inv s) (hu : tfsUnlink m s = .ok (r, t)) :
    r = 0 ↔ (s.resolve m).isSome := by
  rcases hinv.tfsUnlink_cases hu with ⟨hnone, rfl, -⟩ | ⟨_, _, _, _, _, _, hsome, rfl, -⟩
  · rw [hnone]
    simp
  · rw [hsome]
    simp

/-- With tables of the full size `tfs_open` always returns. -/
theorem Inv.tfsOpen_returns (hinv : Inv s) (hs : Sized params s) (hp : params.InRange)
    (m : CString) (mode : Nat) : ∃ r t, tfsOpen m mode s = .ok (r, t) := by
  have hhandles := hs.openFileTable
  have hinodes := hs.inodeTable
  have hmax := hp.maxInodeCount_le
  have hadd : ∀ {u : Tfs} (i off : Nat), Base u → u.maxOpenFiles = params.maxOpenFilesCount →
      params.maxOpenFilesCount ≤ u.openFileTable.size →
      ∃ r t, addToOpenFileTable i off u = .ok (r, t) := by
    intro u i off hb hopen hsize
    rw [hb.addToOpenFileTable_eq]
    cases hh : u.firstFreeHandle with
    | none => exact ⟨_, _, rfl⟩
    | some h =>
        obtain ⟨hlt, -, -⟩ := find_range_eq_some.mp hh
        dsimp only
        rw [if_pos (by omega)]
        exact ⟨_, _, rfl⟩
  have hframe : ∀ {u : Tfs}, Frame s u →
      u.maxOpenFiles = params.maxOpenFilesCount ∧
        params.maxOpenFilesCount ≤ u.openFileTable.size := by
    intro u hf
    have hsu := hs.frame hf
    exact ⟨by rw [maxOpenFiles, hsu.params_eq], hsu.openFileTable⟩
  rw [hinv.tfsOpen_eq]
  by_cases hv : validPathname m
  · rw [if_neg (not_not_intro hv)]
    cases hf : s.find m.chars.tail with
    | some i =>
        have hfr := hinv.frame_truncated hf mode
        exact hadd _ _ (hinv.base.frame hfr) (hframe hfr).1 (hframe hfr).2
    | none =>
        dsimp only
        split
        · exact ⟨_, _, rfl⟩
        · cases hi : s.firstFreeInode with
          | none => exact ⟨_, _, rfl⟩
          | some i =>
              have hlt := (firstFreeInode_free hi).1
              rw [inodeTableSize, hs.params_eq] at hlt
              dsimp only
              rw [if_pos (by omega)]
              cases hk : s.slotFor m.chars.tail with
              | none => exact ⟨_, _, rfl⟩
              | some k =>
                  have hfr : Frame s (s.create i k m.chars.tail) :=
                    frame_create (hinv.base.ne_root hi) k m.chars.tail
                  exact hadd _ _ (hinv.base.frame hfr) (hframe hfr).1 (hframe hfr).2
  · rw [if_pos hv]
    exact ⟨_, _, rfl⟩

theorem Inv.tfsUnlink_returns (hinv : Inv s) (m : CString) :
    ∃ r t, tfsUnlink m s = .ok (r, t) := by
  rw [hinv.tfsUnlink_eq]
  split
  · exact ⟨_, _, rfl⟩
  · split
    · exact ⟨_, _, rfl⟩
    · exact ⟨_, _, rfl⟩

end MBroker
