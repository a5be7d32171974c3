import Hub11.Drivers.FlowRuns
import Mathlib.Data.Set.Card

/-!
The limit on the rings of clients.

An access point could take all rings for its clients. So the driver counts the rings of
interfaces that have many clients, and opens no more of them than leaves some for a station.
It counts by the role that an interface has when a ring is opened or closed, so the number is
right as long as an interface has no ring when its role is announced.
-/

namespace Hub11.Drivers.Flow

open Hub11.Data

namespace Dhd

/-- The chain belongs to an interface that has many clients. -/
def ofClients (d : Dhd) (k : Nat × Fin 256) : Prop := (d.ifindex2role k.1).multiClient = true

/-- The ids in use by interfaces that have many clients. Their number is what the driver's counter
is meant to be. -/
def clientUse (d : Dhd) : Set Nat := Chains.idsIn FlowHashInfo.flowid d.chains d.ofClients

/-- An interface has no ring when its role is announced. An event that takes the interface
down announces none. -/
def Event.Quiet (d : Dhd) : Event → Prop
  | .interface i op _ => op.Announces → ∀ hash, d.chains (i, hash) = []
  | _ => True

/-- All events of a run are quiet, each in the state in which it comes. -/
def Quietly : Dhd → List Event → Prop
  | _, [] => True
  | d, event :: events => event.Quiet d ∧ Quietly (d.step event) events

/-- The number is right, and an active ring is in use by the interface of its node. The second half
is needed to recount a ring whose role has changed. -/
structure Counted (m : Nat) (d : Dhd) : Prop where
  count : d.multiClientFlowRings = d.clientUse.ncard
  limit : d.maxMultiClientFlowRings = m
  most : d.multiClientFlowRings ≤ m
  active : ∀ id, (d.flowRingTable id).active = true →
    ∃ hash, ∃ e ∈ d.chains ((d.flowRingTable id).flowInfo.ifindex, hash), e.flowid = id

section Counting

variable {n m : Nat} {d d' : Dhd} {k : Nat × Fin 256} {e : FlowHashInfo}

theorem SameRoles.ofClients_eq (h : SameRoles d d') : d'.ofClients = d.ofClients := by
  funext k
  rw [ofClients, ofClients, h.role]

theorem clientUse_subset (d : Dhd) : d.clientUse ⊆ d.inUse := by
  rintro x ⟨k, -, e, he, hx⟩
  exact ⟨k, trivial, e, he, hx⟩

theorem Filed.clientUse_finite (h : Filed n d) : d.clientUse.Finite := by
  refine (Set.finite_Iic d.maxTxFlowid).subset ?_
  rintro x ⟨k, -, e, he, rfl⟩
  exact (h.flowid_le he).1

theorem Counted.still (h : Counted m d) (hstill : Still d d') : Counted m d' where
  count := by
    rw [hstill.count, h.count, clientUse, clientUse, hstill.chains,
      hstill.toSameRoles.ofClients_eq]
  limit := hstill.most.trans h.limit
  most := hstill.count ▸ h.most
  active id hid := by
    obtain ⟨hash, e, he, heq⟩ := h.active id (hstill.active id hid)
    rw [hstill.chains, hstill.info]
    exact ⟨hash, e, he, heq⟩

theorem Counted.opens (hf : Filed n d) (h : Counted m d) (ho : Opens d d' k e) : Counted m d' := by
  obtain ⟨b, s, hs, htop, hnext, -⟩ := ho.pool
  have hfresh : e.flowid ∉ d.inUse := hnext ▸ ((hf.deals b s hs).next_mem htop).2
  have huse : d'.clientUse = Chains.idsIn FlowHashInfo.flowid (d.chains.append k e) d.ofClients := by
    rw [clientUse, ho.chains, ho.toSameRoles.ofClients_eq]
  refine ⟨?_, ho.most.trans h.limit, ?_, fun id hid => ?_⟩
  · rw [ho.count, h.count, huse, clientRing]
    split
    · rename_i hmulti
      rw [Chains.idsIn_append (P := d.ofClients) hmulti]
      exact (Set.ncard_insert_of_notMem (fun hmem => hfresh (d.clientUse_subset hmem))
        hf.clientUse_finite).symm
    · rename_i hmulti
      rw [Chains.idsIn_append_of_not (P := d.ofClients) hmulti]
      rfl
  · rw [ho.count, clientRing]
    split
    · rename_i hmulti
      rw [← h.limit]
      exact ho.below hmulti
    · exact h.most
  · by_cases heq : id = e.flowid
    · subst heq
      refine ⟨k.2, e, ?_, rfl⟩
      rw [ho.matching.nodeIfindex, ho.chains]
      exact Chains.mem_append.mpr (.inr ⟨rfl, rfl⟩)
    · rw [ho.active id heq] at hid
      obtain ⟨hash, e', he', hid'⟩ := h.active id hid
      refine ⟨hash, e', ?_, hid'⟩
      rw [ho.info id heq, ho.chains]
      exact Chains.mem_append.mpr (.inl he')

theorem Counted.closes (hf : Filed n d) (h : Counted m d) (hc : Closes n d d' k e) :
    Counted m d' := by
  have huse : d'.clientUse = d.clientUse \ {e.flowid} := by
    rw [clientUse, hc.chains, hc.toSameRoles.ofClients_eq, hf.oneEach.idsIn_remove hc.mem]
    rfl
  refine ⟨?_, hc.most.trans h.limit, ?_, fun id hid => ?_⟩
  · rw [hc.count, h.count, huse, clientRing]
    split
    · rename_i hmulti
      have hmem : e.flowid ∈ d.clientUse := ⟨k, hmulti, e, hc.mem, rfl⟩
      exact (Set.ncard_sdiff_singleton_of_mem hmem).symm
    · rename_i hmulti
      have hnot : e.flowid ∉ d.clientUse := by
        rintro ⟨k', hmulti', e', he', heq⟩
        obtain rfl := hf.oneEach.home k' k e' e he' hc.mem heq
        exact hmulti hmulti'
      rw [Set.sdiff_singleton_eq_self hnot]
      rfl
  · rw [hc.count]
    exact (Nat.sub_le _ _).trans h.most
  · obtain ⟨hold, hne⟩ := hc.active id hid
    obtain ⟨hash, e', he', heq⟩ := h.active id hold
    refine ⟨hash, e', ?_, heq⟩
    rw [hc.info, hc.chains]
    exact hf.oneEach.mem_remove.mpr ⟨he', fun hsame => hne (heq.symm.trans hsame.2)⟩

/-! ### The role of an interface -/

/-- The recount of an interface without open rings leaves the counter as it is. -/
theorem updateMulticilentFlowRings_eq {i : Nat} (increment : Bool)
    (hclosed : ∀ id, isOpenOn i (d.flowRingTable id) = false) :
    d.updateMulticilentFlowRings i increment = d := by
  have hfold : ∀ (count : Nat → Nat → Nat) (ids : List Nat) (start : Nat),
      (∀ number id, count number id = number) → ids.foldl count start = start := by
    intro count ids start hcount
    induction ids with
    | nil => rfl
    | cons id ids ih => rw [List.foldl_cons, hcount, ih]
  unfold updateMulticilentFlowRings
  split
  · rfl
  · dsimp only
    rw [hfold]
    intro number id
    rw [hclosed id]
    rfl

theorem updateInterfaceFlowInfo_count {i : Nat} (op : IfOp) (role : Role)
    (hclosed : ∀ id, isOpenOn i (d.flowRingTable id) = false) :
    (d.updateInterfaceFlowInfo i op role).multiClientFlowRings = d.multiClientFlowRings ∧
      (d.updateInterfaceFlowInfo i op role).maxMultiClientFlowRings = d.maxMultiClientFlowRings ∧
      (d.updateInterfaceFlowInfo i op role).flowRingTable = d.flowRingTable := by
  have hsame : (if op = .change then (d.setLkup i { d.ifFlowLkup i with role := role
      }).updateMulticilentFlowRings i role.multiClient
      else d.setLkup i { d.ifFlowLkup i with role := role }) =
      d.setLkup i { d.ifFlowLkup i with role := role } := by
    split
    · exact updateMulticilentFlowRings_eq _ hclosed
    · rfl
  unfold updateInterfaceFlowInfo
  dsimp only
  rw [hsame]
  split
  · exact ⟨rfl, rfl, rfl⟩
  split
  · split <;> exact ⟨rfl, rfl, rfl⟩
  · split <;> exact ⟨rfl, rfl, rfl⟩

theorem Counted.interface (h : Counted m d) {i : Nat} (op : IfOp) (role : Role)
    (hempty : ∀ hash, d.chains (i, hash) = []) : Counted m (d.updateInterfaceFlowInfo i op role) := by
  have hclosed : ∀ id, isOpenOn i (d.flowRingTable id) = false := by
    intro id
    rw [Bool.eq_false_iff]
    intro hopen
    simp only [isOpenOn, Bool.and_eq_true, beq_iff_eq] at hopen
    obtain ⟨hash, e, he, -⟩ := h.active id hopen.1.1
    rw [hopen.1.2, hempty hash] at he
    cases he
  have hsame := Same.updateInterfaceFlowInfo d i op role
  obtain ⟨hcount, hlimit, htable⟩ := updateInterfaceFlowInfo_count op role hclosed
  have hroles := (updateInterfaceFlowInfo_spec d i op role).2
  have huse : (d.updateInterfaceFlowInfo i op role).clientUse = d.clientUse := by
    ext x
    rw [clientUse, clientUse, hsame.chains]
    -- the only role that may change is the one of an interface without entries
    refine exists_congr fun k => and_congr_left fun hk => ?_
    obtain ⟨e, he, -⟩ := hk
    rcases hroles k.1 with hrole | ⟨hi, -, -⟩
    · rw [ofClients, ofClients, hrole]
    · rw [show k = (i, k.2) from Prod.ext hi rfl, hempty k.2] at he
      cases he
  refine ⟨?_, hlimit.trans h.limit, hcount ▸ h.most, ?_⟩
  · rw [hcount, huse, h.count]
  · rw [hsame.chains, htable]
    exact h.active

/-- An event that announces no role is at most about whether the interface is up. -/
theorem Still.of_not_announces {i : Nat} {op : IfOp} (role : Role) (hop : ¬ op.Announces) :
    Still d (d.updateInterfaceFlowInfo i op role) := by
  unfold updateInterfaceFlowInfo
  split
  · exact .refl d
  split
  · rename_i hannounces
    exact absurd hannounces hop
  split
  · exact .setUp d i false
  · exact .refl d

/-- One quiet event keeps the count. -/
theorem Counted.step (hf : Filed n d) (h : Counted m d) {event : Event} (hquiet : event.Quiet d) :
    Counted m (d.step event) := by
  rcases hf.step_cases event with
    hstill | ⟨i, op, role, rfl, -⟩ | ⟨k, e, hopens⟩ | ⟨k, e, -, hcloses⟩
  · exact h.still hstill
  · by_cases hop : op.Announces
    · exact h.interface op role (hquiet hop)
    · exact h.still (.of_not_announces role hop)
  · exact h.opens hf hopens
  · exact h.closes hf hcloses

/-- So does a run of them. -/
theorem Counted.run {events : List Event} (hf : Filed n d) (h : Counted m d)
    (hquiet : Quietly d events) : Counted m (d.run events) := by
  induction events generalizing d with
  | nil => exact h
  | cons event events ih => exact ih (hf.step event) (h.step hf hquiet.1) hquiet.2

theorem init_counted (maxTxFlowRings numH2dRings : Nat) (htputSupport : Bool) :
    Counted (getMaxMultiClientFlowRings maxTxFlowRings)
      (init maxTxFlowRings numH2dRings htputSupport) := by
  have hnone : (init maxTxFlowRings numH2dRings htputSupport).clientUse = ∅ := by
    rw [← Set.subset_empty_iff, ← init_inUse maxTxFlowRings numH2dRings htputSupport]
    exact clientUse_subset _
  refine ⟨?_, rfl, Nat.zero_le _, fun id hid => ?_⟩
  · rw [hnone, Set.ncard_empty]
    rfl
  · cases hid

end Counting

/-- In every run in which interfaces have no rings when they are added or changed, the driver
knows how many rings the interfaces with many clients use, and that is no more than it lets
them have. -/
theorem client_rings_counted (maxTxFlowRings numH2dRings : Nat) (htputSupport : Bool)
    (hmany : (if htputSupport then htputTotalFlowRings else 0) < maxTxFlowRings)
    (hreal : flowidReserved + maxTxFlowRings < id16Invalid) (events : List Event)
    (hquiet : Quietly (init maxTxFlowRings numH2dRings htputSupport) events) :
    ((init maxTxFlowRings numH2dRings htputSupport).run events).multiClientFlowRings =
        ((init maxTxFlowRings numH2dRings htputSupport).run events).clientUse.ncard ∧
      ((init maxTxFlowRings numH2dRings htputSupport).run events).clientUse.ncard ≤
        getMaxMultiClientFlowRings maxTxFlowRings := by
  have h := (init_counted maxTxFlowRings numH2dRings htputSupport).run (init_filed hmany hreal) hquiet
  exact ⟨h.count, h.count ▸ h.most⟩

/-- The access point is taken down with two rings open. -/
private def takenDown : List Event := sampleEvents ++ [.interface 1 .del .ap, .delete 1]

theorem client_rings_counted_sample :
    ((init 8 10 true).run takenDown).multiClientFlowRings =
        ((init 8 10 true).run takenDown).clientUse.ncard ∧
      ((init 8 10 true).run takenDown).clientUse.ncard ≤ getMaxMultiClientFlowRings 8 := by
  refine client_rings_counted 8 10 true (by decide) (by decide) takenDown ?_
  exact ⟨fun _ _ => rfl, trivial, trivial, trivial, trivial, trivial, trivial, trivial, trivial,
    trivial, fun hop => absurd hop (by decide), trivial, trivial⟩

end Dhd

end Hub11.Drivers.Flow
