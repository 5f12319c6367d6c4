import MBroker.Broker.Workers
import MBroker.Fs.Catalog

/-!
# The service that the broker gives

To its clients the broker is a set of boxes and a supply of handles: a box
that is created takes one for good, and the supply is all that limits
`create_box` before the directory does. `BoxService` handles the requests
in these terms. Each file system gives such a service, and its calls
change it as the service's own operations do.
-/

namespace MBroker

open Threads Tfs

/-! ## The service -/

/-- The names of the boxes, without the slash, and how many handles are kept. -/
@[ext]
structure BoxService where
  boxes : Finset (List UInt8)
  made : Nat
deriving DecidableEq

/-- How many handles there are. -/
def maxMade : Nat := tfsDefaultParams.maxOpenFilesCount

/-- How many entries the directory has. -/
def maxBoxes : Nat := tfsDefaultParams.blockSize / sizeofDirEntry

namespace BoxService

def empty : BoxService := ⟨∅, 0⟩

def Has (s : BoxService) (path : CString) : Prop :=
  validPathname path ∧ path.chars.tail ∈ s.boxes

instance (s : BoxService) (path : CString) : Decidable (s.Has path) :=
  inferInstanceAs (Decidable (_ ∧ _))

def remove (s : BoxService) (path : CString) : BoxService :=
  { s with boxes := if s.Has path then s.boxes.erase path.chars.tail else s.boxes }

/-- A box that is new is there even if no handle is left for it. -/
def createBox (s : BoxService) (box : BoxName) : Reply × BoxService :=
  if s.Has box.name then
    (boxReply (if s.made < maxMade then errBoxAlreadyExists else errBoxCreation), s)
  else if validPathname box.name ∧ s.boxes.card < maxBoxes then
    if s.made < maxMade then (boxReply "", ⟨insert box.name.chars.tail s.boxes, s.made + 1⟩)
    else (boxReply errBoxCreation, ⟨insert box.name.chars.tail s.boxes, s.made⟩)
  else (boxReply errBoxCreation, s)

def removeBox (s : BoxService) (box : BoxName) : Option BoxService :=
  if s.Has box.name then some (s.remove box.name) else none

/-- A publisher that is turned away takes the box that is named like its
meta-file. One that is not needs a handle and an entry for the meta-file. -/
def registerPublisher (s : BoxService) (box : BoxName) : Option BoxService :=
  if s.Has box.name ∧ s.made < maxMade ∧ ¬ (s.Has box.metaFilename ∧ s.made + 1 < maxMade) then
    if s.boxes.card < maxBoxes ∧ s.made + 1 < maxMade then some s else none
  else some (s.remove box.metaFilename)

/-- The reply to a request and the service after it; none where the broker ends. -/
def handle (s : BoxService) : Request → Option (Option Reply × BoxService)
  | .registerPublisher box => (s.registerPublisher box).map fun s => (none, s)
  | .createBox box => some (some (s.createBox box).1, (s.createBox box).2)
  | .removeBox box => (s.removeBox box).map fun s => (none, s)
  | .registerSubscriber _ | .listBoxes => some (none, s)

end BoxService

/-- The service as a machine: a request with its reply in one step. -/
def boxService : Machine BoxService (Request × Option Reply) where
  start s := s = .empty
  step s c :=
    match s.handle c.1 with
    | some (reply, s') => if reply = c.2 then some s' else none
    | none => none

theorem boxService_step {s s' : BoxService} {request : Request} {reply : Option Reply} :
    boxService.step s (request, reply) = some s' ↔ s.handle request = some (reply, s') := by
  simp only [boxService]
  cases s.handle request with
  | none => simp
  | some res =>
      obtain ⟨reply', t⟩ := res
      by_cases hreply : reply' = reply
      · simp [hreply]
      · simp [hreply]

/-! ## The service of a file system -/

variable {x y : Tfs} {m : CString} {mode : Nat} {r fhandle : Int} {box : BoxName}

/-- The boxes in the directory and the handles that are open. -/
def Tfs.service (x : Tfs) : BoxService := ⟨x.catalog.names, x.catalog.handles.card⟩

theorem service_of_catalog {names : Finset (List UInt8)} {handles : Finset Nat}
    (h : x.catalog = ⟨names, handles⟩) : x.service = ⟨names, handles.card⟩ := by
  rw [Tfs.service, h]

/-- A file system with the broker's parameters. -/
structure Ready (x : Tfs) : Prop where
  inv : Inv x
  sized : Sized tfsDefaultParams x

/-- `tfs_open` finds the file or makes it, whether or not it has a handle for it. -/
def BoxService.Finds (s : BoxService) (m : CString) (mode : Nat) : Prop :=
  validPathname m ∧ (m.chars.tail ∈ s.boxes ∨ mode &&& tfsOCreat ≠ 0 ∧ s.boxes.card < maxBoxes)

instance (s : BoxService) (m : CString) (mode : Nat) : Decidable (s.Finds m mode) :=
  inferInstanceAs (Decidable (_ ∧ _))

theorem Ready.of_call {a : TfsCall} {res : TfsResult} (hx : Ready x)
    (hcall : tfsCall x a = .ok (res, y)) : Ready y :=
  ⟨hx.inv.of_call hcall, hx.sized.updates hx.inv (hx.inv.tfsCall_updates hcall)⟩

/-- The directory is full before the inodes run out. -/
theorem room_iff {c : Catalog} {name : List UInt8} (hlen : name.length < maxFileName) :
    c.Room tfsDefaultParams name ↔ c.names.card < maxBoxes := by
  unfold Catalog.Room maxBoxes
  constructor
  · exact fun h => h.2.2
  · intro h
    refine ⟨hlen, ?_, h⟩
    have hlt : c.names.card < 23 := h
    simp only [tfsDefaultParams]
    omega

theorem Ready.freeHandle (hx : Ready x) :
    (x.catalog.freeHandle tfsDefaultParams).isSome ↔ x.service.made < maxMade := by
  have hfind : ((List.range maxMade).find? fun h => h ∉ x.catalog.handles).isSome ↔
      (indices maxMade fun h => h ∈ x.catalog.handles).card < maxMade :=
    find_isSome_iff fun h _ => by simp
  have hall : indices maxMade (fun h => h ∈ x.catalog.handles) = x.catalog.handles := by
    ext h
    rw [mem_indices]
    refine ⟨fun hh => hh.2, fun hh => ⟨?_, hh⟩⟩
    have hlt := (mem_handles.mp hh).1
    rwa [maxOpenFiles, hx.sized.params_eq] at hlt
  rw [hall] at hfind
  exact hfind

/-- `tfs_open` gives a handle while there are some. -/
theorem Ready.addHandle (hx : Ready x) (names : Finset (List UInt8)) :
    x.service.made < maxMade ∧ (∃ h : Nat, h ∉ x.catalog.handles ∧
      Catalog.addHandle tfsDefaultParams ⟨names, x.catalog.handles⟩ =
        ((h : Int), ⟨names, insert h x.catalog.handles⟩)) ∨
    ¬ x.service.made < maxMade ∧
      Catalog.addHandle tfsDefaultParams ⟨names, x.catalog.handles⟩ =
        (-1, ⟨names, x.catalog.handles⟩) := by
  have hsome := hx.freeHandle
  cases hh : x.catalog.freeHandle tfsDefaultParams with
  | some h =>
      rw [hh] at hsome
      refine .inl ⟨hsome.mp rfl, h, ?_, Catalog.addHandle_some hh⟩
      have hfree := (find_range_eq_some.mp hh).2.1
      simpa using hfree
  | none =>
      rw [hh] at hsome
      refine .inr ⟨fun hlt => ?_, Catalog.addHandle_none hh⟩
      cases hsome.mpr hlt

/-- What `tfs_open` finds, makes and returns. -/
theorem Ready.open_service (hx : Ready x) (hlen : m.chars.tail.length < maxFileName)
    (ho : tfsOpen m mode x = .ok (r, y)) :
    (r ≠ -1 ↔ x.service.Finds m mode ∧ x.service.made < maxMade) ∧
    y.service = ⟨if x.service.Finds m mode then insert m.chars.tail x.service.boxes
      else x.service.boxes, x.service.made + if r = -1 then 0 else 1⟩ := by
  have hopen := (hx.inv.tfsOpen_ok ho).catalog hx.inv hx.sized tfsDefaultParams_inRange
  -- the catalog's open, in the words of the service
  have heq : x.catalog.open tfsDefaultParams m mode = if x.service.Finds m mode then
      Catalog.addHandle tfsDefaultParams
        ⟨insert m.chars.tail x.catalog.names, x.catalog.handles⟩
      else (-1, x.catalog) := by
    have hroom := room_iff (c := x.catalog) hlen
    have hboxes : x.service.boxes = x.catalog.names := rfl
    unfold Catalog.open BoxService.Finds
    by_cases hv : validPathname m
    · by_cases hmem : m.chars.tail ∈ x.catalog.names
      · simp [hv, hmem, hboxes]
      · simp [hv, hmem, hroom, hboxes]
    · simp [hv]
  rw [hopen] at heq
  by_cases hfinds : x.service.Finds m mode
  · rw [if_pos hfinds] at heq ⊢
    rcases hx.addHandle (insert m.chars.tail x.catalog.names) with
      ⟨hlt, h, hfresh, hadd⟩ | ⟨hfull, hadd⟩
    · obtain ⟨rfl, hcatalog⟩ := Prod.mk.inj (heq.trans hadd)
      refine ⟨⟨fun _ => ⟨hfinds, hlt⟩, fun _ => by omega⟩, ?_⟩
      rw [if_neg (by omega), service_of_catalog hcatalog, Finset.card_insert_of_notMem hfresh]
      rfl
    · obtain ⟨rfl, hcatalog⟩ := Prod.mk.inj (heq.trans hadd)
      refine ⟨⟨fun hne => absurd rfl hne, fun hlt => absurd hlt.2 hfull⟩, ?_⟩
      rw [if_pos rfl, service_of_catalog hcatalog]
      rfl
  · rw [if_neg hfinds] at heq ⊢
    obtain ⟨rfl, hcatalog⟩ := Prod.mk.inj heq
    refine ⟨⟨fun hne => absurd rfl hne, fun hlt => absurd hlt.1 hfinds⟩, ?_⟩
    rw [if_pos rfl, service_of_catalog hcatalog]
    rfl

theorem Ready.close_boxes (hx : Ready x) (hc : tfsClose fhandle x = .ok (r, y)) :
    y.service.boxes = x.service.boxes := by
  rcases hx.inv.tfsClose_cases hc with ⟨h, -, -, -, rfl⟩ | ⟨-, -, rfl⟩
  · show (x.closeHandle h).catalog.names = _
    rw [closeHandle_catalog]
    rfl
  · rfl

theorem remove_boxes_congr {s s' : BoxService} (h : s.boxes = s'.boxes) :
    (s.remove m).boxes = (s'.remove m).boxes := by
  have hiff : s.Has m ↔ s'.Has m := by rw [BoxService.Has, BoxService.Has, h]
  unfold BoxService.remove
  by_cases hhas : s.Has m
  · rw [if_pos hhas, if_pos (hiff.mp hhas), h]
  · rw [if_neg hhas, if_neg fun hhas' => hhas (hiff.mpr hhas'), h]

theorem Ready.unlink_service (hx : Ready x) (hu : tfsUnlink m x = .ok (r, y)) :
    (r = 0 ↔ x.service.Has m) ∧ y.service = x.service.remove m := by
  have hunlink := hx.inv.tfsUnlink_catalog hu
  unfold Catalog.unlink at hunlink
  unfold BoxService.remove
  by_cases hhas : x.service.Has m
  · have hmem : validPathname m ∧ m.chars.tail ∈ x.catalog.names := hhas
    rw [if_pos hmem] at hunlink
    obtain ⟨rfl, hcatalog⟩ := Prod.mk.inj hunlink
    rw [if_pos hhas]
    exact ⟨⟨fun _ => hhas, fun _ => rfl⟩, service_of_catalog hcatalog.symm⟩
  · have hmem : ¬ (validPathname m ∧ m.chars.tail ∈ x.catalog.names) := hhas
    rw [if_neg hmem] at hunlink
    obtain ⟨rfl, hcatalog⟩ := Prod.mk.inj hunlink
    rw [if_neg hhas]
    refine ⟨⟨fun h => absurd h (by decide), fun h => absurd h hhas⟩, ?_⟩
    exact service_of_catalog hcatalog.symm

end MBroker
