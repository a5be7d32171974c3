import Hub11.Drivers.FlowBooks
import Mathlib.Order.Interval.Finset.Nat

/-!
Runs of the flow rings.

Whatever the dongle answers, and in whatever order the calls come: no id is lost or dealt out
twice, a flow keeps its ring, and different flows have different rings.
-/

namespace Hub11.Drivers.Flow

open Hub11.Data

namespace Dhd

/-! ### Runs -/

/-- A call of the driver, or what the dongle says. Ids and interfaces are any numbers, as the dongle
may name whatever it likes. -/
inductive Event where
  | lookup (ifindex : Nat) (prio : UInt8) (sa da : EtherAddr) (env : Surroundings)
  | createResponse (flowid : Nat) (ok : Bool)
  | deleteResponse (flowid : Nat) (ok : Bool)
  | flushResponse (flowid : Nat) (ok : Bool)
  | delete (ifindex : Nat)
  | deleteForPeer (ifindex : Nat) (addr : EtherAddr)
  | flush (ifindex : Nat)
  | interface (ifindex : Nat) (op : IfOp) (role : Role)
  | linkStatus (ifindex : Nat) (status : Bool)
  | peers (addrs : List EtherAddr)

/-- The state after an event. What a lookup returns is looked at in the theorems, not here. -/
def step (d : Dhd) : Event → Dhd
  | .lookup ifindex prio sa da env => (d.flowidLookup ifindex prio sa da env).1
  | .createResponse flowid ok => d.flowRingCreateResponse flowid ok
  | .deleteResponse flowid ok => d.flowRingDeleteResponse flowid ok
  | .flushResponse flowid ok => d.flowRingFlushResponse flowid ok
  | .delete ifindex => d.flowRingsDelete ifindex
  | .deleteForPeer ifindex addr => d.flowRingsDeleteForPeer ifindex addr
  | .flush ifindex => d.flowRingsFlush ifindex
  | .interface ifindex op role => d.updateInterfaceFlowInfo ifindex op role
  | .linkStatus ifindex status => d.updateInterfaceLinkStatus ifindex status
  | .peers addrs => { d with peerTbl := addrs }

def run (d : Dhd) (events : List Event) : Dhd := events.foldl step d

/-- The event says that the ring is gone: it could not be created, or it has been deleted. -/
def Event.Cleans : Event → Nat → Prop
  | .createResponse flowid ok, x => flowid = x ∧ ok = false
  | .deleteResponse flowid ok, x => flowid = x ∧ ok = true
  | _, _ => False

section Steps

variable {n : Nat} {d : Dhd}

theorem Still.setStatus (d : Dhd) (flowid : Nat) (status : Status) :
    Still d (d.setStatus flowid status) := .setNode d flowid rfl fun h => h

theorem Still.setStatuses (d : Dhd) (which : FlowRingNode → Bool) (status : Status) :
    Still d (d.setStatuses which status) := by
  refine ⟨⟨rfl, rfl, rfl, rfl, fun id => ?_⟩, ⟨fun _ => rfl, rfl⟩, rfl, fun id => ?_⟩
  · simp only [Dhd.setStatuses]
    split <;> rfl
  · simp only [Dhd.setStatuses]
    split <;> exact fun h => h

theorem role_setLkup (d : Dhd) (i : Nat) (lkup : IfFlowLkup) (j : Nat) :
    (d.setLkup i lkup).ifindex2role j = if j = i then lkup.role else d.ifindex2role j := by
  unfold ifindex2role setLkup
  by_cases hj : j = i
  · subst hj
    simp
  · simp [hj]

theorem Same.setLkup (d : Dhd) (ifindex : Nat) {lkup : IfFlowLkup}
    (hlkup : lkup.flHash = (d.ifFlowLkup ifindex).flHash) : Same d (d.setLkup ifindex lkup) := by
  refine ⟨?_, rfl, rfl, rfl, fun _ => rfl⟩
  funext k
  change (Function.update d.ifFlowLkup ifindex lkup k.1).flHash k.2 = (d.ifFlowLkup k.1).flHash k.2
  by_cases hk : k.1 = ifindex
  · rw [hk, Function.update_self, hlkup]
  · rw [Function.update_of_ne hk]

/-- Whether an interface is up is not in the books. -/
theorem Still.setUp (d : Dhd) (ifindex : Nat) (status : Bool) :
    Still d (d.setLkup ifindex { d.ifFlowLkup ifindex with status := status }) := by
  refine ⟨.setLkup d ifindex rfl, ⟨fun i => ?_, rfl⟩, rfl, fun _ h => h⟩
  rw [role_setLkup]
  split
  · rename_i hi
    rw [hi]
    rfl
  · rfl

theorem Same.trans {d₁ d₂ d₃ : Dhd} (h : Same d₁ d₂) (h' : Same d₂ d₃) : Same d₁ d₃ :=
  ⟨h'.chains.trans h.chains, h'.pool.trans h.pool, h'.htputStart.trans h.htputStart,
    h'.maxTxFlowid.trans h.maxTxFlowid, fun id => (h'.info id).trans (h.info id)⟩

theorem Same.updateMulticilentFlowRings (d : Dhd) (ifindex : Nat) (increment : Bool) :
    Same d (d.updateMulticilentFlowRings ifindex increment) := by
  unfold Dhd.updateMulticilentFlowRings
  split
  · exact .refl d
  · exact ⟨rfl, rfl, rfl, rfl, fun _ => rfl⟩

theorem Same.updateInterfaceFlowInfo (d : Dhd) (ifindex : Nat) (op : IfOp) (role : Role) :
    Same d (d.updateInterfaceFlowInfo ifindex op role) := by
  have hrole : Same d (d.setLkup ifindex { d.ifFlowLkup ifindex with role := role }) :=
    .setLkup d ifindex rfl
  unfold Dhd.updateInterfaceFlowInfo
  split
  · exact .refl d
  split
  · dsimp only
    have hcount : Same d (if op = .change then
        (d.setLkup ifindex { d.ifFlowLkup ifindex with role := role }).updateMulticilentFlowRings ifindex
          role.multiClient
        else d.setLkup ifindex { d.ifFlowLkup ifindex with role := role }) := by
      split
      · exact hrole.trans (.updateMulticilentFlowRings _ _ _)
      · exact hrole
    split
    · exact hcount.trans (.setLkup _ _ rfl)
    · exact hcount
  · split
    · exact .setLkup d ifindex rfl
    · exact .refl d

/-- All that one event can do to the books. Only an announcement of an interface can change
what is counted of them and not the books. -/
theorem Filed.step_cases (h : Filed n d) (event : Event) :
    Still d (d.step event) ∨
      (∃ i op role, event = .interface i op role ∧ Same d (d.step event)) ∨
      (∃ k e, Opens d (d.step event) k e) ∨
      ∃ k e, event.Cleans e.flowid ∧ Closes n d (d.step event) k e := by
  have hclean : ∀ flowid, Still d (d.cleanFlowRing flowid) ∨
      ∃ k e, flowid = e.flowid ∧ Closes n d (d.cleanFlowRing flowid) k e := by
    intro flowid
    rcases (h.cleanFlowRing_cases flowid).2 with ⟨hstill, -⟩ | ⟨k, e, heq, hcloses⟩
    · exact .inl hstill
    · exact .inr ⟨k, e, heq.symm, hcloses⟩
  cases event with
  | lookup ifindex prio sa da env =>
      have hlooks : LooksUp d ifindex prio da (d.flowidLookup ifindex prio sa da env) :=
        h.flowidLookup_looksUp
      rcases hlooks.books with ⟨hstill, -⟩ | ⟨-, -, flowid, hopens, -⟩
      · exact .inl hstill
      · exact .inr (.inr (.inl ⟨_, _, hopens⟩))
  | createResponse flowid ok =>
      simp only [step, flowRingCreateResponse]
      split
      · exact .inl (.refl d)
      split
      · exact .inl (.setStatus d flowid .opened)
      · rename_i hok
        rcases hclean flowid with hstill | ⟨k, e, heq, hcloses⟩
        · exact .inl hstill
        · exact .inr (.inr (.inr ⟨k, e, ⟨heq, by simpa using hok⟩, hcloses⟩))
  | deleteResponse flowid ok =>
      simp only [step, flowRingDeleteResponse]
      split
      · exact .inl (.refl d)
      split
      · rename_i hok
        rcases hclean flowid with hstill | ⟨k, e, heq, hcloses⟩
        · exact .inl hstill
        · exact .inr (.inr (.inr ⟨k, e, ⟨heq, hok⟩, hcloses⟩))
      · exact .inl (.refl d)
  | flushResponse flowid ok =>
      simp only [step, flowRingFlushResponse]
      split
      · exact .inl (.refl d)
      split
      · exact .inl (.refl d)
      · exact .inl (.setStatus d flowid .opened)
  | delete ifindex =>
      simp only [step, flowRingsDelete]
      split
      · exact .inl (.refl d)
      · exact .inl (.setStatuses d _ _)
  | deleteForPeer ifindex addr =>
      simp only [step, flowRingsDeleteForPeer]
      split
      · exact .inl (.refl d)
      · exact .inl (.setStatuses d _ _)
  | flush ifindex =>
      simp only [step, flowRingsFlush]
      split
      · exact .inl (.refl d)
      · exact .inl (.setStatuses d _ _)
  | interface ifindex op role =>
      exact .inr (.inl ⟨ifindex, op, role, rfl, .updateInterfaceFlowInfo d ifindex op role⟩)
  | linkStatus ifindex status =>
      simp only [step, updateInterfaceLinkStatus]
      split
      · exact .inl (.refl d)
      · exact .inl (.setUp d ifindex status)
  | peers addrs =>
      exact .inl ⟨⟨rfl, rfl, rfl, rfl, fun _ => rfl⟩, ⟨fun _ => rfl, rfl⟩, rfl, fun _ h => h⟩

/-- Every event keeps the books in order. -/
theorem Filed.step (h : Filed n d) (event : Event) : Filed n (d.step event) := by
  rcases h.step_cases event with hstill | ⟨-, -, -, -, hsame⟩ | ⟨k, e, hopens⟩ | ⟨k, e, -, hcloses⟩
  · exact h.same hstill.toSame
  · exact h.same hsame
  · exact h.opens hopens
  · exact h.closes hcloses

/-- So does every run, whatever the dongle says. -/
theorem Filed.run (h : Filed n d) (events : List Event) : Filed n (d.run events) := by
  induction events generalizing d with
  | nil => exact h
  | cons event events ih => exact ih (h.step event)

end Steps

/-! ### Every id in its place -/

/-- How many ids there are for all flows, and for a high throughput. -/
def slots (n : Nat) : Bool → Nat
  | true => htputTotalFlowRings
  | false => n

/-- How many of the ids are for all flows. -/
def normalFlowRings (maxTxFlowRings : Nat) (htputSupport : Bool) : Nat :=
  if htputSupport then maxTxFlowRings - htputTotalFlowRings else maxTxFlowRings

theorem init_inUse (maxTxFlowRings numH2dRings : Nat) (htputSupport : Bool) :
    (init maxTxFlowRings numH2dRings htputSupport).inUse = ∅ := by
  ext x
  refine iff_of_false ?_ (Set.notMem_empty x)
  rintro ⟨k, -, e, he, -⟩
  cases he

/-- The stacks of the ids at the beginning, which follow each other. -/
theorem init_pool {maxTxFlowRings numH2dRings : Nat} {htputSupport : Bool}
    (hmany : (if htputSupport then htputTotalFlowRings else 0) < maxTxFlowRings)
    (hreal : flowidReserved + maxTxFlowRings < id16Invalid) {b : Bool} {s : FreeStack Nat}
    (hs : (init maxTxFlowRings numH2dRings htputSupport).pool b = some s) :
    (b = true → htputSupport = true) ∧
      FreeStack.Deals (ids (normalFlowRings maxTxFlowRings htputSupport) b) ∅ s := by
  have hle : normalFlowRings maxTxFlowRings htputSupport ≤ maxTxFlowRings := by
    unfold normalFlowRings
    split <;> omega
  cases b with
  | false =>
      refine ⟨fun hb => (by cases hb), ?_⟩
      cases hs
      exact Id16Map.init_deals (by omega)
  | true =>
      cases htputSupport with
      | false => cases hs
      | true =>
          refine ⟨fun _ => rfl, ?_⟩
          cases hs
          apply Id16Map.init_deals
          simp only [normalFlowRings, if_true] at hmany hle ⊢
          omega

theorem init_filed {maxTxFlowRings numH2dRings : Nat} {htputSupport : Bool}
    (hmany : (if htputSupport then htputTotalFlowRings else 0) < maxTxFlowRings)
    (hreal : flowidReserved + maxTxFlowRings < id16Invalid) :
    Filed (normalFlowRings maxTxFlowRings htputSupport)
      (init maxTxFlowRings numH2dRings htputSupport) := by
  have huse := init_inUse maxTxFlowRings numH2dRings htputSupport
  have hlast : (init maxTxFlowRings numH2dRings htputSupport).maxTxFlowid =
      maxTxFlowRings + flowidReserved - 1 := rfl
  constructor
  · constructor
    · intro k
      exact List.nodup_nil
    · intro k k' e e' he
      cases he
  · intro b s hs
    rw [huse]
    exact (init_pool hmany hreal hs).2
  · intro x hx
    rw [huse] at hx
    cases hx
  · intro x hlow hhigh
    rw [hlast] at hhigh
    by_cases hx : x < flowidReserved + normalFlowRings maxTxFlowRings htputSupport
    · exact ⟨false, rfl, hlow, hx⟩
    · -- beyond the ids for all flows there are some only for a high throughput
      cases htputSupport with
      | false =>
          simp only [normalFlowRings, Bool.false_eq_true, if_false] at hx
          omega
      | true =>
          simp only [normalFlowRings, if_true] at hx hmany
          refine ⟨true, rfl, ?_, ?_⟩
          · simp only [normalFlowRings, if_true]
            omega
          · simp only [normalFlowRings, if_true]
            omega
  · intro hsome
    obtain ⟨s, hs⟩ := Option.isSome_iff_exists.mp hsome
    obtain rfl := (init_pool hmany hreal hs).1 rfl
    rfl
  · intro b hsome x hx
    obtain ⟨s, hs⟩ := Option.isSome_iff_exists.mp hsome
    rw [hlast]
    cases b with
    | false =>
        have hlt : x < flowidReserved + normalFlowRings maxTxFlowRings htputSupport := hx.2
        unfold normalFlowRings at hlt
        split at hlt <;> omega
    | true =>
        obtain rfl := (init_pool hmany hreal hs).1 rfl
        have hlt := hx.2
        simp only [normalFlowRings, if_true] at hlt hmany
        omega
  · rw [hlast]
    omega
  · intro k e he
    cases he

/-- Each id is on one stack or in use by one entry, never both, and the stacks fit their arrays. So
no id is lost and none is dealt out twice. -/
structure DealtOut (n : Nat) (d : Dhd) : Prop where
  cover : ∀ x, flowidReserved ≤ x → x ≤ d.maxTxFlowid →
    x ∈ d.inUse ∨ ∃ b s, d.pool b = some s ∧ x ∈ s.free
  apart : ∀ b s x, d.pool b = some s → x ∈ s.free →
    x ∉ d.inUse ∧ ∀ b' s', d.pool b' = some s' → x ∈ s'.free → b' = b
  once : ∀ b s, d.pool b = some s → s.free.Nodup
  oneEntry : ∀ k k' e e', e ∈ d.chains k → e' ∈ d.chains k' → e.flowid = e'.flowid → k = k' ∧ e = e'
  fits : ∀ b s, d.pool b = some s → s.top ≤ slots n b

theorem card_ids {n : Nat} (b : Bool) : ∃ F : Finset Nat, (∀ x ∈ ids n b, x ∈ F) ∧ F.card = slots n b := by
  cases b with
  | true =>
      refine ⟨Finset.Ico (n + flowidReserved) (n + flowidReserved + htputTotalFlowRings), ?_, ?_⟩
      · intro x hx
        exact Finset.mem_Ico.mpr hx
      · simp [slots]
  | false =>
      refine ⟨Finset.Ico flowidReserved (flowidReserved + n), ?_, ?_⟩
      · intro x hx
        exact Finset.mem_Ico.mpr hx
      · simp [slots]

theorem Filed.dealtOut {n : Nat} {d : Dhd} (h : Filed n d) : DealtOut n d where
  cover x hlow hhigh := by
    obtain ⟨b, hb, hx⟩ := h.complete x hlow hhigh
    obtain ⟨s, hs⟩ := Option.isSome_iff_exists.mp hb
    by_cases hused : x ∈ d.inUse
    · exact .inl hused
    · exact .inr ⟨b, s, hs, ((h.deals b s hs).mem_iff x).mpr ⟨hx, hused⟩⟩
  apart b s x hs hx := by
    obtain ⟨hid, hfree⟩ := ((h.deals b s hs).mem_iff x).mp hx
    refine ⟨hfree, fun b' s' hs' hx' => ?_⟩
    exact ids_disjoint (((h.deals b' s' hs').mem_iff x).mp hx').1 hid
  once b s hs := (h.deals b s hs).nodup
  oneEntry k k' e e' he he' heq := h.oneEach.unique he he' heq
  fits b s hs := by
    obtain ⟨F, hF, hcard⟩ := card_ids (n := n) b
    rw [← hcard]
    exact (h.deals b s hs).top_le hF

/-- In every run, whatever the dongle answers, no id is lost, none is given out while it is in
use, and none is freed twice. -/
theorem flowids_dealt_out (maxTxFlowRings numH2dRings : Nat) (htputSupport : Bool)
    (hmany : (if htputSupport then htputTotalFlowRings else 0) < maxTxFlowRings)
    (hreal : flowidReserved + maxTxFlowRings < id16Invalid) (events : List Event) :
    DealtOut (normalFlowRings maxTxFlowRings htputSupport)
      ((init maxTxFlowRings numH2dRings htputSupport).run events) :=
  ((init_filed hmany hreal).run events).dealtOut

/-- An access point opens a ring for a station and one for all; the first is deleted, which the
dongle says twice, and opened again. -/
def sampleEvents : List Event :=
  [.interface 1 .add .ap, .linkStatus 1 true,
    .lookup 1 0 (fun _ => 2) (fun _ => 4) ⟨true, true, true, true⟩, .createResponse 9 true,
    .lookup 1 0 (fun _ => 2) (fun _ => 1) ⟨true, true, true, true⟩, .createResponse 5 true,
    .deleteForPeer 1 (fun _ => 4), .deleteResponse 9 true, .deleteResponse 9 true,
    .lookup 1 0 (fun _ => 2) (fun _ => 4) ⟨true, true, true, true⟩]

theorem flowids_dealt_out_sample : DealtOut 4 ((init 8 10 true).run sampleEvents) :=
  flowids_dealt_out 8 10 true (by decide) (by decide) sampleEvents

/-! ### A flow keeps its ring -/

/-- The event does not say that the ring is gone, and the way to the flow stays the same: what
is announced for the interface is a station just if it was one, and the receiver stays a
peer, or none. -/
def Event.Spares (d : Dhd) (ifindex : Nat) (da : EtherAddr) (flowid : Nat) : Event → Prop
  | .createResponse id ok => id = flowid → ok = true
  | .deleteResponse id ok => id = flowid → ok = false
  | .interface i op role =>
      i = ifindex → op.Announces → role.genericSta = (d.ifindex2role i).genericSta
  | .peers addrs => da ∈ addrs ↔ da ∈ d.peerTbl
  | _ => True

/-- All events of a run spare the flow, each in the state in which it comes. -/
def Sparing (ifindex : Nat) (da : EtherAddr) (flowid : Nat) : Dhd → List Event → Prop
  | _, [] => True
  | d, event :: events => event.Spares d ifindex da flowid ∧ Sparing ifindex da flowid (d.step event) events

section Keeping

variable {n : Nat} {d d' : Dhd} {ifindex : Nat} {prio : UInt8} {sa da : EtherAddr}
  {env : Surroundings} {cur : FlowHashInfo} {event : Event}

theorem Event.Spares.not_cleans {flowid : Nat} (h : event.Spares d ifindex da flowid) :
    ¬event.Cleans flowid := by
  cases event <;> simp_all [Event.Spares, Event.Cleans]

theorem role_updateMulticilentFlowRings (d : Dhd) (i : Nat) (increment : Bool) (j : Nat) :
    (d.updateMulticilentFlowRings i increment).ifindex2role j = d.ifindex2role j := by
  unfold updateMulticilentFlowRings
  split <;> rfl

theorem peerTbl_updateMulticilentFlowRings (d : Dhd) (i : Nat) (increment : Bool) :
    (d.updateMulticilentFlowRings i increment).peerTbl = d.peerTbl := by
  unfold updateMulticilentFlowRings
  split <;> rfl

/-- A role changes only for the interface that it is announced for, and nothing in the books
does. -/
theorem updateInterfaceFlowInfo_spec (d : Dhd) (i : Nat) (op : IfOp) (role : Role) :
    (d.updateInterfaceFlowInfo i op role).peerTbl = d.peerTbl ∧
      ∀ j, (d.updateInterfaceFlowInfo i op role).ifindex2role j = d.ifindex2role j ∨
        j = i ∧ op.Announces ∧ (d.updateInterfaceFlowInfo i op role).ifindex2role j = role := by
  unfold updateInterfaceFlowInfo
  split
  · exact ⟨rfl, fun j => .inl rfl⟩
  split
  · rename_i hop
    dsimp only
    -- the counter and the status do not change a role
    have hcount : ∀ d₁ : Dhd,
        (if op = .change then d₁.updateMulticilentFlowRings i role.multiClient else d₁).peerTbl =
          d₁.peerTbl ∧ ∀ j, (if op = .change then d₁.updateMulticilentFlowRings i role.multiClient
            else d₁).ifindex2role j = d₁.ifindex2role j := by
      intro d₁
      split
      · exact ⟨peerTbl_updateMulticilentFlowRings d₁ i _, role_updateMulticilentFlowRings d₁ i _⟩
      · exact ⟨rfl, fun j => rfl⟩
    obtain ⟨hpeers, hroles⟩ := hcount (d.setLkup i { d.ifFlowLkup i with role := role })
    generalize (if op = .change then
      (d.setLkup i { d.ifFlowLkup i with role := role }).updateMulticilentFlowRings i role.multiClient
      else d.setLkup i { d.ifFlowLkup i with role := role }) = d₂ at hpeers hroles ⊢
    have hnew : ∀ j, d₂.ifindex2role j = d.ifindex2role j ∨
        j = i ∧ op.Announces ∧ d₂.ifindex2role j = role := by
      intro j
      rw [hroles j, role_setLkup]
      by_cases hj : j = i
      · exact .inr ⟨hj, hop, if_pos hj⟩
      · exact .inl (if_neg hj)
    split
    · refine ⟨hpeers, fun j => ?_⟩
      rw [(Still.setUp d₂ i true).role j]
      exact hnew j
    · exact ⟨hpeers, hnew⟩
  · split
    · exact ⟨rfl, fun j => .inl ((Still.setUp d i false).role j)⟩
    · exact ⟨rfl, fun j => .inl rfl⟩

/-- An event that spares a flow does not change how it is searched for. -/
theorem Filed.step_sight (h : Filed n d) {flowid : Nat} (hspares : event.Spares d ifindex da flowid) :
    SameSight d (d.step event) ifindex da := by
  have hrefl : SameSight d d ifindex da := ⟨rfl, rfl⟩
  cases event with
  | lookup i prio' sa' da' env' =>
      have hlooks : LooksUp d i prio' da' (d.flowidLookup i prio' sa' da' env') :=
        h.flowidLookup_looksUp
      exact hlooks.sight ifindex da
  | createResponse id ok =>
      simp only [Dhd.step, flowRingCreateResponse]
      split
      · exact hrefl
      split
      · exact ⟨rfl, rfl⟩
      · exact (h.cleanFlowRing_cases id).1 ifindex da
  | deleteResponse id ok =>
      simp only [Dhd.step, flowRingDeleteResponse]
      split
      · exact hrefl
      split
      · exact (h.cleanFlowRing_cases id).1 ifindex da
      · exact hrefl
  | flushResponse id ok =>
      simp only [Dhd.step, flowRingFlushResponse]
      split
      · exact hrefl
      split
      · exact hrefl
      · exact ⟨rfl, rfl⟩
  | delete i =>
      simp only [Dhd.step, flowRingsDelete]
      split <;> exact ⟨rfl, rfl⟩
  | deleteForPeer i addr =>
      simp only [Dhd.step, flowRingsDeleteForPeer]
      split <;> exact ⟨rfl, rfl⟩
  | flush i =>
      simp only [Dhd.step, flowRingsFlush]
      split <;> exact ⟨rfl, rfl⟩
  | interface i op role =>
      obtain ⟨hpeers, hroles⟩ := updateInterfaceFlowInfo_spec d i op role
      constructor
      · rcases hroles ifindex with hsame | ⟨rfl, hop, hnew⟩
        · exact congrArg Role.genericSta hsame
        · exact (congrArg Role.genericSta hnew).trans (hspares rfl hop)
      · rw [isTdlsDestination, isTdlsDestination, Dhd.step, hpeers]
  | linkStatus i status =>
      simp only [Dhd.step, updateInterfaceLinkStatus]
      split
      · exact hrefl
      · exact ⟨congrArg Role.genericSta ((Still.setUp d i status).role ifindex), rfl⟩
  | peers addrs =>
      refine ⟨rfl, ?_⟩
      have hmem : da ∈ addrs ↔ da ∈ d.peerTbl := hspares
      simp only [Dhd.step, isTdlsDestination]
      congr 1
      rw [Bool.eq_iff_iff]
      simpa using hmem

theorem SameSight.entryOf_eq (h : SameSight d d' ifindex da) :
    d'.entryOf ifindex prio da =
      (d'.chains (ifindex, d.hashOf ifindex prio da)).find? (d.isEntryOf ifindex prio da) := by
  rw [entryOf, h.hashOf_eq, h.isEntryOf_eq]

/-- An event that spares a flow leaves it its entry. -/
theorem Filed.step_entryOf (h : Filed n d) (hentry : d.entryOf ifindex prio da = some cur)
    (hspares : event.Spares d ifindex da cur.flowid) :
    (d.step event).entryOf ifindex prio da = some cur := by
  rw [(h.step_sight hspares).entryOf_eq]
  rcases h.step_cases event with
    hstill | ⟨-, -, -, -, hsame⟩ | ⟨k, e, hopens⟩ | ⟨k, e, hcleans, hcloses⟩
  · rw [hstill.chains]
    exact hentry
  · rw [hsame.chains]
    exact hentry
  · rw [hopens.chains]
    exact Chains.find_append hentry
  · rw [hcloses.chains]
    refine Chains.find_remove hentry fun heq => hspares.not_cleans ?_
    rw [heq]
    exact hcleans

/-- So does a run of them: the search finds the entry that it found at the beginning. -/
theorem Filed.run_entryOf {events : List Event} (h : Filed n d)
    (hentry : d.entryOf ifindex prio da = some cur) (hspares : Sparing ifindex da cur.flowid d events) :
    (d.run events).entryOf ifindex prio da = some cur := by
  induction events generalizing d with
  | nil => exact hentry
  | cons event events ih => exact ih (h.step event) (h.step_entryOf hentry hspares.1) hspares.2

/-- The flow has an entry after a lookup that has found or made its ring. -/
theorem Filed.entryOf_of_lookup (h : Filed n d) {id : Nat}
    (hok : (d.flowidLookup ifindex prio sa da env).2 = .ok id) :
    ifindex < dhdMaxIfs ∧ ∃ cur, cur.flowid = id ∧
      (d.flowidLookup ifindex prio sa da env).1.entryOf ifindex prio da = some cur := by
  have hlooks : LooksUp d ifindex prio da (d.flowidLookup ifindex prio sa da env) :=
    h.flowidLookup_looksUp
  rcases hlooks.books with ⟨hsame, hfound⟩ | ⟨hsmall, hnone, flowid, hopens, hid⟩
  · obtain ⟨hsmall, cur, hcur, hid⟩ := hfound id hok
    refine ⟨hsmall, cur, hid, ?_⟩
    rw [(hlooks.sight ifindex da).entryOf_eq, hsame.chains]
    exact hcur
  · refine ⟨hsmall, newEntry ifindex prio da flowid, (hid id hok).symm, ?_⟩
    rw [(hlooks.sight ifindex da).entryOf_eq, hopens.chains]
    have hold : (d.chains (ifindex, d.hashOf ifindex prio da)).find? (d.isEntryOf ifindex prio da) =
        none := hnone
    rw [Chains.append, Function.update_self, List.find?_append, hold, Option.none_or,
      List.find?_cons, isEntryOf_newEntry]

/-- A lookup of a flow that has an entry only looks at the status of its ring. -/
theorem Filed.flowidLookup_of_entry (h : Filed n d) (hsmall : ifindex < dhdMaxIfs)
    (hentry : d.entryOf ifindex prio da = some cur) :
    d.flowidLookup ifindex prio sa da env =
      (d, match (d.flowRingTable cur.flowid).status with
        | .deletePending | .closed => .error .error
        | _ => .ok cur.flowid) := by
  obtain ⟨hle, hne⟩ := h.flowid_le (mem_of_entryOf hentry)
  rw [flowidLookup, if_neg (Nat.not_le.mpr hsmall)]
  dsimp only
  rw [flowidFind_eq hsmall, hentry, Option.map_some, Option.getD_some,
    if_neg (not_or.mpr ⟨hne, Nat.not_lt.mpr hle⟩)]
  cases (d.flowRingTable cur.flowid).status <;> rfl

theorem entryOf_of_flowidFind {id : Nat} (hfind : d.flowidFind ifindex prio da = id)
    (hid : id ≠ id16Invalid) :
    ∃ cur, cur.flowid = id ∧ d.entryOf ifindex prio da = some cur := by
  by_cases hsmall : ifindex < dhdMaxIfs
  · rw [flowidFind_eq hsmall] at hfind
    cases hentry : d.entryOf ifindex prio da with
    | none =>
        rw [hentry] at hfind
        exact absurd hfind.symm hid
    | some cur =>
        rw [hentry] at hfind
        exact ⟨cur, hfind, rfl⟩
  · rw [flowidFind, if_pos (Nat.not_lt.mp hsmall)] at hfind
    exact absurd hfind.symm hid

/-- Off a station, a flow to one receiver is known by the receiver and the priority. -/
theorem flow_of_entryOf (hentry : d.entryOf ifindex prio da = some cur)
    (hsta : (d.ifindex2role ifindex).genericSta = false) (hda : etherIsMulti da = false) :
    cur.flowInfo.da = da ∧ cur.flowInfo.tid = prio := by
  have hfound : d.isEntryOf ifindex prio da cur = true := List.find?_some hentry
  rw [isEntryOf, hsta, hda] at hfound
  simpa using hfound

end Keeping

section Results

variable (maxTxFlowRings numH2dRings : Nat) (htputSupport : Bool)
  (hmany : (if htputSupport then htputTotalFlowRings else 0) < maxTxFlowRings)
  (hreal : flowidReserved + maxTxFlowRings < id16Invalid)

include hmany hreal

/-- In every run, a flow that has got a ring keeps it: until the dongle says that this ring is
gone, or the interface becomes another kind of interface, every lookup comes to the same ring
and makes no other. It is refused just while the ring is closed or on its way out. -/
theorem flow_keeps_ring (before after : List Event) (ifindex : Nat) (prio : UInt8)
    (sa sa' da : EtherAddr) (env env' : Surroundings) (id : Nat) (d : Dhd)
    (hlookup : ((init maxTxFlowRings numH2dRings htputSupport).run before).flowidLookup
      ifindex prio sa da env = (d, .ok id))
    (hspares : Sparing ifindex da id d after) :
    (d.run after).flowidLookup ifindex prio sa' da env' =
      (d.run after, match ((d.run after).flowRingTable id).status with
        | .deletePending | .closed => .error .error
        | _ => .ok id) := by
  have hinit : Filed _ (init maxTxFlowRings numH2dRings htputSupport) := init_filed hmany hreal
  have hbefore := hinit.run before
  have hd : d = (((init maxTxFlowRings numH2dRings htputSupport).run before).step
      (.lookup ifindex prio sa da env)) := (congrArg Prod.fst hlookup).symm
  have hfiled : Filed _ d := hd ▸ hbefore.step (.lookup ifindex prio sa da env)
  obtain ⟨hsmall, cur, rfl, hentry⟩ := hbefore.entryOf_of_lookup (congrArg Prod.snd hlookup)
  rw [hlookup] at hentry
  exact (hfiled.run after).flowidLookup_of_entry hsmall (hfiled.run_entryOf hentry hspares)

/-- In every run, rings of different interfaces are different, and off a station so are those
of different flows to one receiver. The node of a ring says which flow it is for. -/
theorem flow_rings_apart (events : List Event) (d : Dhd)
    (hd : d = (init maxTxFlowRings numH2dRings htputSupport).run events) (ifindex ifindex' : Nat)
    (prio prio' : UInt8) (da da' : EtherAddr) (id : Nat) (hid : id ≠ id16Invalid)
    (hfind : d.flowidFind ifindex prio da = id) (hfind' : d.flowidFind ifindex' prio' da' = id) :
    ifindex = ifindex' ∧ (d.flowRingTable id).flowInfo.ifindex = ifindex ∧
      ((d.ifindex2role ifindex).genericSta = false → etherIsMulti da = false →
        etherIsMulti da' = false → da = da' ∧ prio = prio' ∧
          (d.flowRingTable id).flowInfo.da = da ∧ (d.flowRingTable id).flowInfo.tid = prio) := by
  have hfiled : Filed (normalFlowRings maxTxFlowRings htputSupport) d := by
    rw [hd]
    exact (init_filed hmany hreal).run events
  obtain ⟨cur, rfl, hentry⟩ := entryOf_of_flowidFind hfind hid
  obtain ⟨cur', hsame, hentry'⟩ := entryOf_of_flowidFind hfind' hid
  have hmem := mem_of_entryOf hentry
  obtain ⟨hkey, rfl⟩ := hfiled.oneEach.unique (mem_of_entryOf hentry') hmem hsame
  obtain rfl : ifindex' = ifindex := (Prod.mk.inj hkey).1
  have hmatches := hfiled.matching _ _ hmem
  refine ⟨rfl, hmatches.nodeIfindex, fun hsta hda hda' => ?_⟩
  obtain ⟨rfl, rfl⟩ := flow_of_entryOf hentry hsta hda
  obtain ⟨heq, htid⟩ := flow_of_entryOf hentry' hsta hda'
  exact ⟨heq, htid, hmatches.nodeDa, hmatches.nodeTid⟩

end Results

section Sample

private def apUp : List Event := [.interface 1 .add .ap, .linkStatus 1 true]

theorem flow_keeps_ring_sample :
    let d := (((init 8 10 false).run apUp).flowidLookup 1 3 (fun _ => 2) (fun _ => 4)
      ⟨false, true, true, true⟩).1
    let after := [Event.createResponse 9 true, .interface 1 .change .nan, .interface 1 .del .sta,
      .delete 1]
    (d.run after).flowidLookup 1 3 (fun _ => 6) (fun _ => 4) ⟨false, false, true, true⟩ =
      (d.run after, match ((d.run after).flowRingTable 9).status with
        | .deletePending | .closed => .error .error
        | _ => .ok 9) := by
  refine flow_keeps_ring 8 10 false (by decide) (by decide) apUp _ 1 3 (fun _ => 2) _ _
    ⟨false, true, true, true⟩ _ 9 _ rfl ?_
  exact ⟨fun _ => rfl, fun _ _ => rfl, fun _ hop => absurd hop (by decide), trivial, trivial⟩

/-- A station and an access point each send to the same two receivers. -/
private def twoInterfaces : List Event :=
  [.linkStatus 0 true, .interface 1 .add .ap, .linkStatus 1 true,
    .lookup 0 3 (fun _ => 2) (fun _ => 4) ⟨true, true, true, true⟩, .createResponse 5 true,
    .lookup 0 3 (fun _ => 2) (fun _ => 6) ⟨true, true, true, true⟩,
    .lookup 1 3 (fun _ => 2) (fun _ => 4) ⟨true, true, true, true⟩,
    .lookup 1 3 (fun _ => 2) (fun _ => 6) ⟨true, true, true, true⟩]

private theorem twoInterfaces_rings :
    let d := (init 8 10 false).run twoInterfaces
    d.flowidFind 0 3 (fun _ => 4) = 9 ∧ d.flowidFind 0 3 (fun _ => 6) = 9 ∧
      d.flowidFind 1 3 (fun _ => 4) = 8 := by
  decide +kernel

/-- The two flows of the station share a ring, and those of the access point do not. -/
theorem flow_rings_apart_sample :
    let d := (init 8 10 false).run twoInterfaces
    (d.flowRingTable 9).flowInfo.ifindex = 0 ∧ d.flowidFind 1 3 (fun _ => 6) ≠ 8 ∧
      (d.flowRingTable 8).flowInfo.da = (fun _ => 4) ∧ (d.flowRingTable 8).flowInfo.tid = 3 := by
  obtain ⟨hfour, hsix, hap⟩ := twoInterfaces_rings
  have hrole : (((init 8 10 false).run twoInterfaces).ifindex2role 1).genericSta = false := rfl
  refine ⟨(flow_rings_apart 8 10 false (by decide) (by decide) twoInterfaces _ rfl 0 0 3 3
    (fun _ => 4) (fun _ => 6) 9 (by decide) hfour hsix).2.1, fun hsame => ?_, ?_⟩
  · have hda := ((flow_rings_apart 8 10 false (by decide) (by decide) twoInterfaces _ rfl 1 1 3 3
      (fun _ => 4) (fun _ => 6) 8 (by decide) hap hsame).2.2 hrole rfl rfl).1
    exact absurd (congrFun hda 0) (by decide)
  · exact ((flow_rings_apart 8 10 false (by decide) (by decide) twoInterfaces _ rfl 1 1 3 3
      (fun _ => 4) (fun _ => 4) 8 (by decide) hap hap).2.2 hrole rfl rfl).2.2

end Sample

end Dhd

end Hub11.Drivers.Flow
