import MBroker.Broker.ServiceRuns

/-!
# The boxes that are created

What the runs of the service say about boxes: creations alone add all the
names that they ask for, as long as the directory has room, and a box is
created at most once between two requests that unlink its name. The second
is then true of the workers in every interleaving.
-/

namespace MBroker

open Threads Tfs

variable {x y : Tfs} {m : CString} {mode : Nat} {r fhandle : Int} {box : BoxName}

/-! ## Creations alone -/

section Creations

variable {s s' : BoxService} {cs : List (Request × Option Reply)}

/-- The name that a request may add. -/
def Request.adds : Request → Option (List UInt8)
  | .createBox box => if validPathname box.name then some box.name.chars.tail else none
  | _ => none

/-- Where the directory has room for all names, `create_box` adds its own. -/
theorem mem_createBox {names : Finset (List UInt8)} (hcard : names.card ≤ maxBoxes)
    (hs : s.boxes ⊆ names) (box : BoxName) (hadds : ∀ n ∈ (Request.createBox box).adds, n ∈ names)
    (n : List UInt8) :
    n ∈ (s.createBox box).2.boxes ↔ n ∈ s.boxes ∨ (Request.createBox box).adds = some n := by
  unfold BoxService.createBox
  simp only [Request.adds] at hadds ⊢
  by_cases hhas : s.Has box.name
  · rw [if_pos hhas, if_pos hhas.1]
    refine ⟨.inl, ?_⟩
    rintro (hmem | heq)
    · exact hmem
    · rw [← Option.some.inj heq]
      exact hhas.2
  · rw [if_neg hhas]
    by_cases hvalid : validPathname box.name
    · rw [if_pos hvalid] at hadds ⊢
      have hnew : box.name.chars.tail ∉ s.boxes := fun hmem => hhas ⟨hvalid, hmem⟩
      have hlt : s.boxes.card < maxBoxes :=
        (Finset.card_lt_card ⟨hs, fun hsub => hnew (hsub (hadds _ rfl))⟩).trans_le hcard
      rw [if_pos ⟨hvalid, hlt⟩, Option.some.injEq]
      split <;> simp [or_comm, eq_comm]
    · rw [if_neg fun h => hvalid h.1, if_neg hvalid]
      simp

theorem creations_boxes {names : Finset (List UInt8)} (hcard : names.card ≤ maxBoxes)
    (hs : s.boxes ⊆ names)
    (hcs : ∀ c ∈ cs, (∃ box, c.1 = .createBox box) ∧ ∀ n ∈ c.1.adds, n ∈ names)
    (hrun : boxService.run s cs = some s') (n : List UInt8) :
    n ∈ s'.boxes ↔ n ∈ s.boxes ∨ ∃ c ∈ cs, c.1.adds = some n := by
  induction cs generalizing s with
  | nil =>
      cases hrun
      simp
  | cons c cs ih =>
      obtain ⟨s₁, hstep, hrun⟩ := Option.bind_eq_some_iff.mp hrun
      obtain ⟨⟨box, hbox⟩, hadds⟩ := hcs c List.mem_cons_self
      obtain ⟨request, reply⟩ := c
      cases hbox
      have hhandle := boxService_step.mp hstep
      obtain ⟨-, rfl⟩ := Prod.mk.inj (Option.some.inj hhandle)
      have hmem := mem_createBox hcard hs box hadds
      have hs₁ : (s.createBox box).2.boxes ⊆ names := by
        intro n hn
        rcases (hmem n).mp hn with hn | hn
        · exact hs hn
        · exact hadds n hn
      rw [ih hs₁ (fun c hc => hcs c (List.mem_cons_of_mem _ hc)) hrun, hmem, or_assoc,
        List.exists_mem_cons_iff]

end Creations

/-! ## Who has made a box -/

section Created

variable {s s' : BoxService} {c : Request × Option Reply} {cs : List (Request × Option Reply)}

/-- The file that the handler of a request may unlink. -/
def Request.unlinks : Request → Option CString
  | .registerPublisher box => some box.metaFilename
  | .removeBox box => some box.name
  | .registerSubscriber _ | .createBox _ | .listBoxes => none

/-- The client is told that it has created the box. -/
def Creates (box : BoxName) (c : Request × Option Reply) : Prop :=
  c = (.createBox box, some (boxReply ""))

instance (box : BoxName) : DecidablePred (Creates box) :=
  fun c => inferInstanceAs (Decidable (c = _))

theorem BoxService.Has.remove {path : CString} (h : s.Has path) (hne : path ≠ m) :
    (s.remove m).Has path := by
  refine ⟨h.1, ?_⟩
  unfold BoxService.remove
  dsimp only
  split
  · rename_i hm
    exact Finset.mem_erase.mpr ⟨fun heq => hne (h.1.tail_inj hm.1 heq), h.2⟩
  · exact h.2

/-- Only an unlink takes a box away. -/
theorem BoxService.Has.step {path : CString} (h : s.Has path)
    (hstep : boxService.step s c = some s') (hne : c.1.unlinks ≠ some path) : s'.Has path := by
  obtain ⟨request, reply⟩ := c
  have hhandle := boxService_step.mp hstep
  have hm : ∀ {m}, request.unlinks = some m → path ≠ m := by
    rintro m hm rfl
    exact hne hm
  cases request with
  | registerSubscriber | listBoxes =>
      obtain ⟨-, rfl⟩ := Prod.mk.inj (Option.some.inj hhandle)
      exact h
  | createBox box =>
      obtain ⟨-, rfl⟩ := Prod.mk.inj (Option.some.inj hhandle)
      refine ⟨h.1, ?_⟩
      unfold BoxService.createBox
      split
      · exact h.2
      · split
        · split <;> exact Finset.mem_insert_of_mem h.2
        · exact h.2
  | removeBox box =>
      obtain ⟨t, hremove, heq⟩ := Option.map_eq_some_iff.mp hhandle
      obtain ⟨-, rfl⟩ := Prod.mk.inj heq
      unfold BoxService.removeBox at hremove
      split at hremove
      · cases hremove
        exact h.remove (hm rfl)
      · cases hremove
  | registerPublisher box =>
      obtain ⟨t, hregister, heq⟩ := Option.map_eq_some_iff.mp hhandle
      obtain ⟨-, rfl⟩ := Prod.mk.inj heq
      unfold BoxService.registerPublisher at hregister
      split at hregister
      · split at hregister
        · cases hregister
          exact h
        · cases hregister
      · cases hregister
        exact h.remove (hm rfl)

/-- A box that is created was not there, and is. -/
theorem Creates.step {box : BoxName} (h : Creates box c) (hstep : boxService.step s c = some s') :
    ¬ s.Has box.name ∧ s'.Has box.name := by
  cases h
  have hhandle := boxService_step.mp hstep
  obtain ⟨hreply, rfl⟩ := Prod.mk.inj (Option.some.inj hhandle)
  have hreply := Option.some.inj hreply
  have hexists : boxReply errBoxAlreadyExists ≠ boxReply "" := by decide
  have hfailed : boxReply errBoxCreation ≠ boxReply "" := by decide
  unfold BoxService.createBox at hreply ⊢
  by_cases hhas : s.Has box.name
  · rw [if_pos hhas] at hreply
    split at hreply
    · exact absurd hreply hexists
    · exact absurd hreply hfailed
  · rw [if_neg hhas] at hreply ⊢
    refine ⟨hhas, ?_⟩
    by_cases hroom : validPathname box.name ∧ s.boxes.card < maxBoxes
    · rw [if_pos hroom] at hreply ⊢
      split
      · exact ⟨hroom.1, Finset.mem_insert_self ..⟩
      · exact ⟨hroom.1, Finset.mem_insert_self ..⟩
    · rw [if_neg hroom] at hreply
      exact absurd hreply hfailed

/-- The step lemma. -/
theorem created_step (box : BoxName) (hstep : boxService.step s c = some s') :
    (if Creates box c then 1 else 0) + (if s.Has box.name then 1 else 0) ≤
      (if c.1.unlinks = some box.name then 1 else 0) + if s'.Has box.name then 1 else 0 := by
  by_cases hcreates : Creates box c
  · obtain ⟨hnew, hthere⟩ := hcreates.step hstep
    rw [if_pos hcreates, if_neg hnew, if_pos hthere]
    omega
  · rw [if_neg hcreates]
    by_cases hhas : s.Has box.name
    · by_cases hunlinks : c.1.unlinks = some box.name
      · rw [if_pos hhas, if_pos hunlinks]
        omega
      · rw [if_pos hhas, if_pos (hhas.step hstep hunlinks)]
        omega
    · rw [if_neg hhas]
      omega

theorem created_le (box : BoxName) (hrun : boxService.run s cs = some s') :
    cs.countP (fun c => Creates box c) + (if s.Has box.name then 1 else 0) ≤
      cs.countP (fun c => c.1.unlinks = some box.name) + if s'.Has box.name then 1 else 0 := by
  induction cs generalizing s with
  | nil =>
      cases hrun
      simp
  | cons c cs ih =>
      obtain ⟨s₁, hstep, hrun⟩ := Option.bind_eq_some_iff.mp hrun
      have hone := created_step box hstep
      have hrest := ih hrun
      rw [List.countP_cons, List.countP_cons]
      simp only [decide_eq_true_eq]
      omega

/-- **A box has one maker**: of all `create_box` requests for a name, by any
number of workers in any interleaving, at most one is told that it has
created the box, and one more for each request that has removed it. -/
theorem broker_created_once {T : Type*} [Fintype T] [DecidableEq T]
    {q : BrokerState T × Log T Request (Option Reply)}
    (h : (loggedMachine T).ReachableBy (CallsAllowed NoPublisher) q) (box : BoxName) :
    (q.2.served.map Prod.snd).countP (fun c => Creates box c) ≤
      (q.2.served.map Prod.snd).countP (fun c => c.1.unlinks = some box.name) + 1 := by
  obtain ⟨-, x₀, hx₀, hlin⟩ := brokerProgram_atomic.linearized brokerProgram_lockDiscipline h
  obtain ⟨s, hrun, -⟩ := service_of_serialized hx₀ hlin
  have hle := created_le box hrun
  have hone : (if s.Has box.name then 1 else 0) ≤ 1 := by
    split <;> omega
  omega

/-- Two workers create `/a`. -/
def raceRun : List (Event Bool BrokerPoint) :=
  [.call true (.createBox boxA .lockOps), .call false (.createBox boxA .lockOps)] ++
    List.replicate 4 (.run false) ++ List.replicate 4 (.run true)

theorem raceRun_result :
    ((brokerStart Bool).bind fun s => (loggedMachine Bool).run (s, ⟨[], []⟩) raceRun).map
      (fun q => q.2.served.map fun c => (c.1, c.2.2)) =
      some [(false, some (boxReply "")), (true, some (boxReply errBoxAlreadyExists))] := by
  decide +kernel

theorem raceRun_created_once : ∃ q : BrokerState Bool × Log Bool Request (Option Reply),
    (q.2.served.map fun c => (c.1, c.2.2)) =
      [(false, some (boxReply "")), (true, some (boxReply errBoxAlreadyExists))] ∧
    (q.2.served.map Prod.snd).countP (fun c => Creates boxA c) ≤
      (q.2.served.map Prod.snd).countP (fun c => c.1.unlinks = some boxA.name) + 1 := by
  obtain ⟨q, hrun, hserved⟩ := Option.map_eq_some_iff.mp raceRun_result
  obtain ⟨s₀, hstart, hrun⟩ := Option.bind_eq_some_iff.mp hrun
  have hcalls : ∀ t p, .call t p ∈ raceRun → NoPublisher p := by
    intro t p hmem
    simp [raceRun] at hmem
    rcases hmem with ⟨-, rfl⟩ | ⟨-, rfl⟩ <;> trivial
  exact ⟨q, hserved, broker_created_once (loggedRun_reachable hcalls hstart hrun) boxA⟩

end Created

end MBroker
