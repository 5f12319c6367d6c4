import MBroker.Broker.Assertions
import MBroker.Broker.Orderly

/-!
# Workers with orderly requests

What the workers have used of the handles and the entries, together with
what they may still use, is what their requests need. So with orderly
requests there is room for each meta-file, and the publishers leave each
other's alone.
-/

namespace MBroker

open Threads Tfs

section Workers

variable {T : Type*} [Fintype T] {rs : Multiset Request} {s s' : BrokerState T} {t u : T}
  {n : List UInt8} {box : BoxName}

/-- The workers handle some of the requests `rs`, and have handled the others. -/
structure Within (rs : Multiset Request) (s : BrokerState T) : Prop where
  serving : ∑ t, (s.pc t).serving ≤ rs
  handles : s.shared.service.made + s.tally BrokerPoint.unused ≤ (rs.map Request.needs).sum
  origins : Originates (· ∈ namesOf rs) s
  added : ∀ n ∈ namesOf rs, n ∈ s.shared.service.boxes ∨ ∃ t, (s.pc t).pending = some n

namespace Within

theorem serving_le (h : Within rs s) (t : T) : (s.pc t).serving ≤ rs :=
  (Finset.single_le_sum (f := fun t => (s.pc t).serving) (fun _ _ => Multiset.zero_le _)
    (Finset.mem_univ t)).trans h.serving

theorem mem_of_register {p : RegisterPoint} (h : Within rs s)
    (hpc : s.pc t = .registerPublisher box p) : .registerPublisher box ∈ rs := by
  have hle := h.serving_le t
  rw [hpc] at hle
  exact Multiset.mem_of_le hle (Multiset.mem_singleton_self _)

theorem not_remove {p : RemovePoint} (h : Within rs s) (ho : Orderly rs) :
    s.pc t ≠ .removeBox box p := by
  intro hpc
  have hle := h.serving_le t
  rw [hpc] at hle
  exact ho.no_remove box (Multiset.mem_of_le hle (Multiset.mem_singleton_self _))

theorem metaName_mem {p : RegisterPoint} (h : Within rs s)
    (hpc : s.pc t = .registerPublisher box p) : box.metaFilename.chars.tail ∈ metasOf rs :=
  mem_metasOf.mpr ⟨_, h.mem_of_register hpc, rfl⟩

/-- A box has one publisher, so it has one worker at most. -/
theorem register_inj {p q : RegisterPoint} (h : Within rs s) (ho : Orderly rs)
    (ht : s.pc t = .registerPublisher box p) (hu : s.pc u = .registerPublisher box q) : t = u := by
  classical
  by_contra hne
  have hpair : ∑ v ∈ {t, u}, (s.pc v).serving ≤ rs :=
    (Finset.sum_le_sum_of_subset (Finset.subset_univ _)).trans h.serving
  rw [Finset.sum_pair hne, ht, hu] at hpair
  have hcount := Multiset.count_le_of_le (.registerPublisher box) hpair
  have hone := ho.one_publisher box
  simp only [BrokerPoint.serving, Multiset.count_add, Multiset.count_singleton_self] at hcount
  omega

/-- All names in the directory are names or meta-files of the requests. -/
theorem boxes_subset (h : Within rs s) : s.shared.service.boxes ⊆ namesOf rs ∪ metasOf rs := by
  intro n hn
  rcases h.origins.names n hn with hname | ⟨t, box, hmarked, rfl⟩
  · exact Finset.mem_union_left _ hname
  · obtain ⟨p, hpc⟩ := BrokerPoint.marked_cases hmarked
    exact Finset.mem_union_right _ (h.metaName_mem hpc)

/-- There is room for a name that is not there. -/
theorem room (h : Within rs s) (ho : Orderly rs) (hn : n ∈ namesOf rs ∪ metasOf rs)
    (hnew : n ∉ s.shared.service.boxes) : s.shared.service.boxes.card < maxBoxes := by
  have hsub : s.shared.service.boxes ⊆ (namesOf rs ∪ metasOf rs).erase n := by
    intro n' hn'
    refine Finset.mem_erase.mpr ⟨?_, h.boxes_subset hn'⟩
    rintro rfl
    exact hnew hn'
  calc s.shared.service.boxes.card ≤ ((namesOf rs ∪ metasOf rs).erase n).card :=
        Finset.card_le_card hsub
    _ < (namesOf rs ∪ metasOf rs).card := Finset.card_erase_lt_of_mem hn
    _ ≤ maxBoxes := ho.entries

/-- What the workers unlink nobody has asked for. -/
theorem unlinks_ne (h : Within rs s) (ho : Orderly rs) (hn : n ∈ namesOf rs) {m : CString}
    (hm : m ∈ (s.pc t).unlinks) : m.chars.tail ≠ n := by
  rintro rfl
  cases hpc : s.pc t with
  | registerPublisher box p =>
      have hmeta := h.metaName_mem hpc
      rw [hpc] at hm
      cases p <;> cases hm
      · exact Finset.disjoint_left.mp ho.apart hn hmeta
      · exact Finset.disjoint_left.mp ho.apart hn hmeta
  | removeBox => exact h.not_remove ho hpc
  | idle | createBox =>
      rw [hpc] at hm
      cases hm

/-- The publishers leave each other's meta-files alone. -/
theorem publisherMeets (h : Within rs s) (ho : Orderly rs) (t : T) :
    PublisherMeetsAt s (s.pc t) := by
  have hunregistered : ∀ {box p}, s.pc t = .registerPublisher box p →
      (s.pc t).registered = none → ¬ Registered s box := by
    rintro box p hpc hnone ⟨u, hu⟩
    obtain ⟨q, hpu⟩ := BrokerPoint.marked_cases (BrokerPoint.marked_of_registered hu)
    obtain rfl := h.register_inj ho hpc hpu
    rw [hnone] at hu
    cases hu
  cases hpc : s.pc t with
  | registerPublisher box p =>
      cases p with
      | openMeta fd =>
          exact fun _ hregistered => absurd hregistered (hunregistered hpc (by rw [hpc]; rfl))
      | rejectUnlinkMeta => exact hunregistered hpc (by rw [hpc]; rfl)
      | _ => trivial
  | removeBox => exact absurd hpc (h.not_remove ho)
  | idle | createBox => trivial

/-- There is a handle and an entry for a meta-file that is to be made. -/
theorem roomAt (h : Within rs s) (ho : Orderly rs) (hs : Healthy s) (t : T) :
    RoomAt s (s.pc t) := by
  cases hpc : s.pc t with
  | registerPublisher box p =>
      cases p with
      | createMeta fd =>
          have hunused : 1 ≤ s.tally BrokerPoint.unused := by
            have hle := Finset.single_le_sum (f := fun u => (s.pc u).unused)
              (fun _ _ => Nat.zero_le _) (Finset.mem_univ t)
            rwa [hpc] at hle
          have hhandles := h.handles
          have hall := ho.handles
          have hfree := hs.ready.freeHandle.mpr (by omega)
          rw [hs.sized.freeHandle_eq tfsDefaultParams_inRange] at hfree
          refine ⟨hfree, ?_⟩
          have hsound := hs.sound t
          rw [hpc] at hsound
          by_cases hmem : box.metaFilename.chars.tail ∈ s.shared.service.boxes
          · obtain ⟨i, hi⟩ := (mem_names hs.inv.dir).mp hmem
            left
            rw [resolve, if_pos (BoxName.metaFilename_valid hsound), hi]
            rfl
          · have hcard := h.room ho (Finset.mem_union_right _ (h.metaName_mem hpc)) hmem
            have hroom := (hs.inv.room_iff hs.sized).mp
              ((room_iff box.metaFilename_tail_lt).mpr hcard)
            rw [box.slotFor_metaFilename] at hroom
            exact .inr hroom
      | _ => trivial
  | removeBox => exact absurd hpc (h.not_remove ho)
  | idle | createBox => trivial

variable [DecidableEq T]

theorem start (h : (brokerMachine T).start s) : Within 0 s := by
  obtain ⟨hinit, -, hpc⟩ := h
  have hempty := (gives_empty hinit).2
  constructor
  · rw [Finset.sum_eq_zero fun t _ => by rw [hpc t]; rfl]
  · have hnone : s.tally BrokerPoint.unused = 0 :=
      Finset.sum_eq_zero fun t _ => by rw [hpc t]; rfl
    rw [hempty, hnone]
    exact Nat.zero_le _
  · constructor
    · intro t request hrequest
      rw [hpc t] at hrequest
      cases hrequest
    · intro n hn
      rw [hempty] at hn
      exact absurd hn (Finset.notMem_empty n)
  · intro n hn
    obtain ⟨request, hmem, -⟩ := mem_namesOf.mp hn
    exact absurd hmem (Multiset.notMem_zero request)

/-- A worker begins a request. -/
theorem goto {p : BrokerPoint} {reply : Option Reply} (h : Within rs s)
    (hidle : s.pc t = .idle reply) (hentry : brokerProgram.entry p) :
    Within (p.serving + rs) (s.goto t p) := by
  have hmono : namesOf rs ⊆ namesOf (p.serving + rs) := namesOf_mono (Multiset.le_add_left _ _)
  constructor
  · have hsum := sum_add_of_eq_elsewhere (t := t) (f := fun u => ((s.goto t p).pc u).serving)
      (g := fun u => (s.pc u).serving) fun u hu => by rw [State.goto_pc_of_ne _ _ hu]
    rw [hidle, State.goto_pc_self, show (BrokerPoint.idle reply).serving = 0 from rfl,
      add_zero] at hsum
    rw [hsum, add_comm]
    exact add_le_add_right h.serving _
  · have htally := tally_update BrokerPoint.unused s.pc t p
    rw [hidle, show (BrokerPoint.idle reply).unused = 0 from rfl] at htally
    have hneeds : p.unused ≤ (p.serving.map Request.needs).sum := by
      rcases brokerEntry_cases hentry with ⟨box, rfl⟩ | ⟨box, rfl⟩ | ⟨box, rfl⟩ | rfl
      all_goals exact le_rfl
    have hold := h.handles
    rw [Multiset.map_add, Multiset.sum_add]
    show s.shared.service.made + ∑ u, (Function.update s.pc t p u).unused ≤ _
    unfold State.tally at hold
    omega
  · have horigins : Originates (· ∈ namesOf (p.serving + rs)) s :=
      ⟨fun u request hrequest n hn => hmono (h.origins.creating u request hrequest n hn),
        fun n hn => (h.origins.names n hn).imp_left fun hname => hmono hname⟩
    refine horigins.goto hidle fun request hrequest n hn => mem_namesOf.mpr ?_
    refine ⟨request, Multiset.mem_add.mpr (.inl ?_), hn⟩
    cases p <;> cases hrequest <;> exact Multiset.mem_singleton_self _
  · intro n hn
    obtain ⟨request, hmem, hadds⟩ := mem_namesOf.mp hn
    rcases Multiset.mem_add.mp hmem with hnew | hold
    · refine .inr ⟨t, ?_⟩
      rw [State.goto_pc_self]
      rcases brokerEntry_cases hentry with ⟨box, rfl⟩ | ⟨box, rfl⟩ | ⟨box, rfl⟩ | rfl
      · rw [Multiset.mem_singleton.mp hnew] at hadds
        cases hadds
      · rwa [Multiset.mem_singleton.mp hnew] at hadds
      · rw [Multiset.mem_singleton.mp hnew] at hadds
        cases hadds
      · exact absurd hnew (Multiset.notMem_zero _)
    · rcases h.added n (mem_namesOf.mpr ⟨request, hold, hadds⟩) with hthere | ⟨u, hu⟩
      · exact .inl hthere
      · refine .inr ⟨u, ?_⟩
        have hut : u ≠ t := by
          rintro rfl
          rw [hidle] at hu
          cases hu
        rw [State.goto_pc_of_ne _ _ hut]
        exact hu

/-- A worker goes on with its request. -/
theorem step (h : Within rs s) (ho : Orderly rs) (hs : Healthy s)
    (hidle : ∀ reply, s.pc t ≠ .idle reply)
    (hstep : (brokerMachine T).step s (.run t) = some s') : Within rs s' := by
  obtain ⟨k, x', hmove, hshared, hpc⟩ := move_of_step hstep
  simp only [Event.thread] at hmove hpc
  have hself : s'.pc t = k := by
    rw [hpc]
    exact Function.update_self ..
  have hother : ∀ u, u ≠ t → s'.pc u = s.pc u := by
    intro u hu
    rw [hpc]
    exact Function.update_of_ne hu ..
  constructor
  · refine (Finset.sum_le_sum fun u _ => ?_).trans h.serving
    by_cases hu : u = t
    · rw [hu, hself]
      exact hmove.serving hidle
    · rw [hother u hu]
  · have hmade := hmove.made hidle hs.ready
    have htally := tally_update BrokerPoint.unused s.pc t k
    have hold := h.handles
    rw [hshared]
    unfold State.tally at hold ⊢
    rw [hpc]
    omega
  · exact h.origins.step hs hidle hstep
  · intro n hn
    rw [hshared]
    rcases h.added n hn with hthere | ⟨u, hu⟩
    · exact .inl (hmove.keeps_name hs.ready hthere fun m hm => h.unlinks_ne ho hn hm)
    · by_cases hut : u = t
      · rw [hut] at hu
        rcases hmove.adds_name hs.ready hu (h.room ho (Finset.mem_union_left _ hn)) with
          hpending | hthere
        · exact .inr ⟨t, by rw [hself, hpending]⟩
        · exact .inl hthere
      · exact .inr ⟨u, by rw [hother u hut, hu]⟩

end Within

end Workers

end MBroker
