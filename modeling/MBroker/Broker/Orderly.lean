import MBroker.Broker.Origins

/-!
# Requests that the broker has room for

No handler checks that its assertions will hold, so it is up to the
clients. Here is what they can do: leave `remove_box` alone, register one
publisher for a box, name no box like a meta-file, and ask in all for no
more handles and names than there are. What a worker has still to do for
such a request is counted here, step by step.
-/

namespace MBroker

open Threads Tfs

/-! ## The requests -/

/-- The name of the meta-file that a request makes. -/
def Request.metaName : Request → Option (List UInt8)
  | .registerPublisher box => some box.metaFilename.chars.tail
  | _ => none

/-- The handles that a request uses at one time, or keeps. -/
def Request.needs : Request → Nat
  | .registerPublisher _ => 2
  | .createBox _ => 1
  | .registerSubscriber _ | .removeBox _ | .listBoxes => 0

/-- The names that requests ask for. -/
def namesOf (rs : Multiset Request) : Finset (List UInt8) := (rs.filterMap Request.adds).toFinset

/-- The names of their meta-files. -/
def metasOf (rs : Multiset Request) : Finset (List UInt8) :=
  (rs.filterMap Request.metaName).toFinset

/-- Requests that do not get in each other's way, and for which there is room. -/
structure Orderly (rs : Multiset Request) : Prop where
  no_remove : ∀ box, .removeBox box ∉ rs
  one_publisher : ∀ box, rs.count (.registerPublisher box) ≤ 1
  apart : Disjoint (namesOf rs) (metasOf rs)
  handles : (rs.map Request.needs).sum ≤ maxMade
  entries : (namesOf rs ∪ metasOf rs).card ≤ maxBoxes

section Requests

variable {rs rs' : Multiset Request} {n : List UInt8}

theorem mem_namesOf : n ∈ namesOf rs ↔ ∃ request ∈ rs, request.adds = some n := by
  rw [namesOf, Multiset.mem_toFinset, Multiset.mem_filterMap]

theorem mem_metasOf : n ∈ metasOf rs ↔ ∃ request ∈ rs, request.metaName = some n := by
  rw [metasOf, Multiset.mem_toFinset, Multiset.mem_filterMap]

theorem namesOf_mono (h : rs ≤ rs') : namesOf rs ⊆ namesOf rs' := by
  intro n hn
  obtain ⟨request, hmem, hadds⟩ := mem_namesOf.mp hn
  exact mem_namesOf.mpr ⟨request, Multiset.mem_of_le h hmem, hadds⟩

theorem metasOf_mono (h : rs ≤ rs') : metasOf rs ⊆ metasOf rs' := by
  intro n hn
  obtain ⟨request, hmem, hmeta⟩ := mem_metasOf.mp hn
  exact mem_metasOf.mpr ⟨request, Multiset.mem_of_le h hmem, hmeta⟩

/-- Some of the requests are as orderly as all of them. -/
theorem Orderly.mono (ho : Orderly rs') (h : rs ≤ rs') : Orderly rs where
  no_remove box hmem := ho.no_remove box (Multiset.mem_of_le h hmem)
  one_publisher box := (Multiset.count_le_of_le _ h).trans (ho.one_publisher box)
  apart := ho.apart.mono (namesOf_mono h) (metasOf_mono h)
  handles := by
    obtain ⟨rest, rfl⟩ := Multiset.le_iff_exists_add.mp h
    have hall := ho.handles
    rw [Multiset.map_add, Multiset.sum_add] at hall
    omega
  entries :=
    (Finset.card_le_card (Finset.union_subset_union (namesOf_mono h) (metasOf_mono h))).trans
      ho.entries

end Requests

/-! ## What a worker still has to do -/

/-- The request that a worker handles. -/
def BrokerPoint.serving : BrokerPoint → Multiset Request
  | .idle _ => 0
  | .registerPublisher box _ => {.registerPublisher box}
  | .createBox box _ => {.createBox box}
  | .removeBox box _ => {.removeBox box}

/-- The handles that it may still open. -/
def BrokerPoint.unused : BrokerPoint → Nat
  | .registerPublisher _ .openBox => 2
  | .registerPublisher _ (.lockOps _) | .registerPublisher _ (.openMeta _)
  | .registerPublisher _ (.createMeta _) | .createBox _ .lockOps | .createBox _ .openBox
  | .createBox _ .createFile => 1
  | _ => 0

/-- The name that it has yet to look for, or to add. -/
def BrokerPoint.pending : BrokerPoint → Option (List UInt8)
  | .createBox box .lockOps | .createBox box .openBox | .createBox box .createFile =>
      (Request.createBox box).adds
  | _ => none

section Moves

variable {p k : BrokerPoint} {x x' y : Tfs} {m : CString} {mode : Nat} {r fhandle : Int}
  {box : BoxName} {n : List UInt8}

theorem BrokerPoint.marked_cases (h : p.marked = some box) :
    ∃ q, p = .registerPublisher box q := by
  cases p with
  | registerPublisher box' q => cases q <;> cases h <;> exact ⟨_, rfl⟩
  | _ => cases h

theorem Move.serving (hmove : Move p x k x') (hidle : ∀ reply, p ≠ .idle reply) :
    k.serving ≤ p.serving := by
  cases hmove with
  | quiet hmove =>
      cases hmove with
      | @enter reply => exact absurd rfl (hidle reply)
      | register | create | remove | registered => exact le_rfl
      | rejected | created | removed => exact Multiset.zero_le _
  | tfs hmove =>
      cases hmove with
      | unlinkMeta => exact Multiset.zero_le _
      | _ => exact le_rfl

theorem Ready.open_made (hx : Ready x) (hlen : m.chars.tail.length < maxFileName)
    (ho : tfsOpen m mode x = .ok (r, y)) :
    y.service.made = x.service.made + if r = -1 then 0 else 1 := by
  rw [(hx.open_service hlen ho).2]

theorem Ready.close_made (hx : Ready x) (hc : tfsClose fhandle x = .ok (r, y)) :
    y.service.made ≤ x.service.made := by
  rcases hx.inv.tfsClose_cases hc with ⟨h, -, -, -, rfl⟩ | ⟨-, -, rfl⟩
  · show (x.closeHandle h).catalog.handles.card ≤ _
    rw [closeHandle_catalog]
    exact Finset.card_erase_le
  · exact le_rfl

theorem Ready.unlink_made (hx : Ready x) (hu : tfsUnlink m x = .ok (r, y)) :
    y.service.made = x.service.made := by
  rw [(hx.unlink_service hu).2]
  rfl

/-- What a worker opens it takes from what it may open. -/
theorem Move.made (hmove : Move p x k x') (hidle : ∀ reply, p ≠ .idle reply) (hx : Ready x) :
    x'.service.made + k.unused ≤ x.service.made + p.unused := by
  cases hmove with
  | quiet hmove =>
      cases hmove with
      | @enter reply => exact absurd rfl (hidle reply)
      | _ => exact le_rfl
  | tfs hmove hcall =>
      cases hmove with
      | @openBox box | @boxExists box | @createFile box =>
          rw [hx.open_made box.tail_lt (tfsCall_open.mp hcall).1]
          simp only [BrokerPoint.unused]
          split <;> omega
      | @boxAbsent box | @createFailed box =>
          rw [hx.open_made box.tail_lt (tfsCall_open.mp hcall).1, if_pos rfl]
          simp [BrokerPoint.unused]
      | @reject box | @createMeta box =>
          rw [hx.open_made box.metaFilename_tail_lt (tfsCall_open.mp hcall).1]
          simp only [BrokerPoint.unused]
          split <;> omega
      | @accept box =>
          rw [hx.open_made box.metaFilename_tail_lt (tfsCall_open.mp hcall).1, if_pos rfl]
          exact le_rfl
      | rejectCloseBox | rejectCloseMeta | closeMeta | closeBox | closeExisting | closeFailed =>
          exact Nat.add_le_add_right (hx.close_made (tfsCall_close.mp hcall).1) _
      | rejectUnlinkMeta | unlinkMeta | unlinkBox =>
          rw [hx.unlink_made (tfsCall_unlink.mp hcall).1]
          exact le_rfl

/-- A name stays until it is unlinked. -/
theorem Move.keeps_name (hmove : Move p x k x') (hx : Ready x) (hn : n ∈ x.service.boxes)
    (hunlinks : ∀ m ∈ p.unlinks, m.chars.tail ≠ n) : n ∈ x'.service.boxes := by
  have hopen : ∀ {m mode r}, m.chars.tail.length < maxFileName →
      tfsOpen m mode x = .ok (r, x') → n ∈ x'.service.boxes := by
    intro m mode r hlen ho
    rw [(hx.open_service hlen ho).2]
    dsimp only
    split
    · exact Finset.mem_insert_of_mem hn
    · exact hn
  have hunlink : ∀ {m r}, m ∈ p.unlinks → tfsUnlink m x = .ok (r, x') →
      n ∈ x'.service.boxes := by
    intro m r hm hu
    rw [(hx.unlink_service hu).2]
    unfold BoxService.remove
    dsimp only
    split
    · exact Finset.mem_erase.mpr ⟨fun heq => hunlinks m hm heq.symm, hn⟩
    · exact hn
  cases hmove with
  | quiet => exact hn
  | tfs hmove hcall =>
      cases hmove with
      | @openBox box | @boxExists box | @boxAbsent box | @createFile box | @createFailed box =>
          exact hopen box.tail_lt (tfsCall_open.mp hcall).1
      | @reject box | @accept box | @createMeta box =>
          exact hopen box.metaFilename_tail_lt (tfsCall_open.mp hcall).1
      | rejectCloseBox | rejectCloseMeta | closeMeta | closeBox | closeExisting | closeFailed =>
          exact (hx.close_names (tfsCall_close.mp hcall).1).mpr hn
      | rejectUnlinkMeta | unlinkMeta | unlinkBox => exact hunlink rfl (tfsCall_unlink.mp hcall).1

/-- A name that was asked for is there once the worker has looked for it, unless
the directory is full. -/
theorem Move.adds_name (hmove : Move p x k x') (hx : Ready x) (hp : p.pending = some n)
    (hroom : n ∉ x.service.boxes → x.service.boxes.card < maxBoxes) :
    k.pending = some n ∨ n ∈ x'.service.boxes := by
  cases hmove with
  | quiet hmove =>
      cases hmove with
      | create => exact .inl hp
      | _ => cases hp
  | tfs hmove hcall =>
      cases hmove with
      | boxAbsent => exact .inl hp
      | @boxExists box fd hfd =>
          obtain ⟨hr, hservice⟩ := hx.open_plain box.tail_lt (by decide) (tfsCall_open.mp hcall).1
          have hmem : box.name.chars.tail ∈ x.service.boxes := (hr.mp hfd).1.2
          simp only [BrokerPoint.pending, Request.adds] at hp
          split at hp
          · obtain rfl := Option.some.inj hp
            right
            rw [hservice]
            exact hmem
          · cases hp
      | @createFile box | @createFailed box =>
          right
          simp only [BrokerPoint.pending, Request.adds] at hp
          split at hp
          · rename_i hvalid
            obtain rfl := Option.some.inj hp
            have hfinds : x.service.Finds box.name (tfsOCreat ||| tfsOTrunc) := by
              by_cases hmem : box.name.chars.tail ∈ x.service.boxes
              · exact ⟨hvalid, .inl hmem⟩
              · exact ⟨hvalid, .inr ⟨by decide, hroom hmem⟩⟩
            rw [(hx.open_service box.tail_lt (tfsCall_open.mp hcall).1).2]
            dsimp only
            rw [if_pos hfinds]
            exact Finset.mem_insert_self ..
          · cases hp
      | _ => cases hp

end Moves

end MBroker
