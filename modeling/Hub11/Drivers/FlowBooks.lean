import Hub11.Drivers.FlowRing

/-!
The books of the flow rings.

Each id of a flow ring is either free, on the one stack that deals it out, or in use, by one
entry of one chain. All that the driver does to its books is to open a ring, which moves an id
from its stack to the end of a chain, and to close one, which moves it back. Here this is said
once of each call, with what is counted of the rings on the way.
-/

namespace Hub11.Drivers.Flow

open Hub11.Data

namespace Dhd

/-- The chains of all interfaces. -/
def chains (d : Dhd) : Chains (Nat × Fin 256) FlowHashInfo := fun k => (d.ifFlowLkup k.1).flHash k.2

/-- The ids that have an entry, whatever state their rings are in. -/
def inUse (d : Dhd) : Set Nat := Chains.idsIn FlowHashInfo.flowid d.chains fun _ => True

/-- The stack of the ids for a high throughput, and the one of the others. -/
def pool (d : Dhd) : Bool → Option (FreeStack Nat)
  | true => d.htputFlowidAllocator.map Id16Map.stackOf
  | false => some d.flowidAllocator.stackOf

/-- The ids that a stack deals out, if there are `n` of them for all flows. -/
def ids (n : Nat) : Bool → Set Nat
  | true => {x | n + flowidReserved ≤ x ∧ x < n + flowidReserved + htputTotalFlowRings}
  | false => {x | flowidReserved ≤ x ∧ x < flowidReserved + n}

theorem ids_disjoint {n x : Nat} {b b' : Bool} (h : x ∈ ids n b) (h' : x ∈ ids n b') : b = b' := by
  cases b <;> cases b'
  · rfl
  · have hlt : x < flowidReserved + n := h.2
    have hle : n + flowidReserved ≤ x := h'.1
    omega
  · have hlt : x < flowidReserved + n := h'.2
    have hle : n + flowidReserved ≤ x := h.1
    omega
  · rfl

/-- An entry stands under the interface of its flow, and the node of the ring says the same. So the
way back from an id to its entry is never lost. -/
structure Matches (d : Dhd) (k : Nat × Fin 256) (e : FlowHashInfo) : Prop where
  small : k.1 < dhdMaxIfs
  ifindex : e.flowInfo.ifindex = k.1
  nodeIfindex : (d.flowRingTable e.flowid).flowInfo.ifindex = k.1
  nodeDa : (d.flowRingTable e.flowid).flowInfo.da = e.flowInfo.da
  nodeTid : (d.flowRingTable e.flowid).flowInfo.tid = e.flowInfo.tid

/-- The books are in order: no id has two entries, the stacks deal out what has none, and the
entries match their nodes. Every call keeps this. -/
structure Filed (n : Nat) (d : Dhd) : Prop where
  oneEach : Chains.OneEach FlowHashInfo.flowid d.chains
  deals : ∀ b s, d.pool b = some s → FreeStack.Deals (ids n b) d.inUse s
  fromPool : ∀ x ∈ d.inUse, ∃ b, (d.pool b).isSome ∧ x ∈ ids n b
  complete : ∀ x, flowidReserved ≤ x → x ≤ d.maxTxFlowid → ∃ b, (d.pool b).isSome ∧ x ∈ ids n b
  htputStart : (d.pool true).isSome → d.htputFlowRingStart = n + flowidReserved
  bound : ∀ b, (d.pool b).isSome → ∀ x ∈ ids n b, x ≤ d.maxTxFlowid
  real : d.maxTxFlowid < id16Invalid
  matching : ∀ k, ∀ e ∈ d.chains k, Matches d k e

/-- Nothing in the books changes: neither an entry nor a stack, nor which flow a node was made
for. -/
structure Same (d d' : Dhd) : Prop where
  chains : d'.chains = d.chains
  pool : d'.pool = d.pool
  htputStart : d'.htputFlowRingStart = d.htputFlowRingStart
  maxTxFlowid : d'.maxTxFlowid = d.maxTxFlowid
  info : ∀ id, (d'.flowRingTable id).flowInfo = (d.flowRingTable id).flowInfo

/-- The interfaces have the same roles, and as many rings may be open. -/
structure SameRoles (d d' : Dhd) : Prop where
  role : ∀ i, d'.ifindex2role i = d.ifindex2role i
  most : d'.maxMultiClientFlowRings = d.maxMultiClientFlowRings

/-- Nothing in the books changes, nor in what is counted of them. Most calls are of this kind. -/
structure Still (d d' : Dhd) : Prop extends Same d d', SameRoles d d' where
  count : d'.multiClientFlowRings = d.multiClientFlowRings
  active : ∀ id, (d'.flowRingTable id).active = true → (d.flowRingTable id).active = true

/-- What a ring of the interface adds to the rings of the clients. -/
def clientRing (d : Dhd) (ifindex : Nat) : Nat :=
  if (d.ifindex2role ifindex).multiClient then 1 else 0

/-- An id leaves its stack for the end of a chain. This and `Closes` are the only changes that the
driver makes to its books. -/
structure Opens (d d' : Dhd) (k : Nat × Fin 256) (e : FlowHashInfo) : Prop extends
    SameRoles d d' where
  chains : d'.chains = d.chains.append k e
  pool : ∃ b s, d.pool b = some s ∧ 0 < s.top ∧ e.flowid = s.next ∧
    d'.pool = Function.update d.pool b (some s.pop)
  htputStart : d'.htputFlowRingStart = d.htputFlowRingStart
  maxTxFlowid : d'.maxTxFlowid = d.maxTxFlowid
  info : ∀ id, id ≠ e.flowid → (d'.flowRingTable id).flowInfo = (d.flowRingTable id).flowInfo
  matching : Matches d' k e
  count : d'.multiClientFlowRings = d.multiClientFlowRings + d.clientRing k.1
  below : (d.ifindex2role k.1).multiClient = true →
    d.multiClientFlowRings < d.maxMultiClientFlowRings
  active : ∀ id, id ≠ e.flowid → (d'.flowRingTable id).active = (d.flowRingTable id).active

/-- An id leaves its chain and goes back to its stack, the one that deals it out. -/
structure Closes (n : Nat) (d d' : Dhd) (k : Nat × Fin 256) (e : FlowHashInfo) : Prop extends
    SameRoles d d' where
  mem : e ∈ d.chains k
  chains : d'.chains = Chains.remove FlowHashInfo.flowid d.chains k e.flowid
  pool : ∃ b s, d.pool b = some s ∧ e.flowid ∈ ids n b ∧
    d'.pool = Function.update d.pool b (some (s.push e.flowid))
  htputStart : d'.htputFlowRingStart = d.htputFlowRingStart
  maxTxFlowid : d'.maxTxFlowid = d.maxTxFlowid
  info : ∀ id, (d'.flowRingTable id).flowInfo = (d.flowRingTable id).flowInfo
  count : d'.multiClientFlowRings = d.multiClientFlowRings - d.clientRing k.1
  active : ∀ id, (d'.flowRingTable id).active = true →
    (d.flowRingTable id).active = true ∧ id ≠ e.flowid

section Books

variable {n : Nat} {d d' : Dhd} {k : Nat × Fin 256} {e : FlowHashInfo}

theorem Same.refl (d : Dhd) : Same d d := ⟨rfl, rfl, rfl, rfl, fun _ => rfl⟩

theorem Still.refl (d : Dhd) : Still d d := ⟨.refl d, ⟨fun _ => rfl, rfl⟩, rfl, fun _ h => h⟩

theorem Same.inUse (h : Same d d') : d'.inUse = d.inUse := by rw [Dhd.inUse, Dhd.inUse, h.chains]

theorem Matches.congr (h : Matches d k e)
    (hinfo : (d'.flowRingTable e.flowid).flowInfo = (d.flowRingTable e.flowid).flowInfo) :
    Matches d' k e :=
  ⟨h.small, h.ifindex, by rw [hinfo, h.nodeIfindex], by rw [hinfo, h.nodeDa], by rw [hinfo, h.nodeTid]⟩

theorem Filed.same (h : Filed n d) (hsame : Same d d') : Filed n d' where
  oneEach := hsame.chains ▸ h.oneEach
  deals := by
    rw [hsame.inUse, hsame.pool]
    exact h.deals
  fromPool := by
    rw [hsame.inUse, hsame.pool]
    exact h.fromPool
  complete := by
    rw [hsame.pool, hsame.maxTxFlowid]
    exact h.complete
  htputStart := by
    rw [hsame.pool, hsame.htputStart]
    exact h.htputStart
  bound := by
    rw [hsame.pool, hsame.maxTxFlowid]
    exact h.bound
  real := hsame.maxTxFlowid ▸ h.real
  matching := by
    intro k e he
    rw [hsame.chains] at he
    exact (h.matching k e he).congr (hsame.info _)

theorem inUse_append (h : d'.chains = d.chains.append k e) : d'.inUse = insert e.flowid d.inUse := by
  rw [inUse, h, Chains.idsIn_append trivial]
  rfl

/-- A stack that an update leaves alone deals out the same ids. -/
theorem deals_other {b b' : Bool} {s : FreeStack Nat} {used used' : Set Nat} {x : Nat}
    (h : FreeStack.Deals (ids n b') used s) (hx : x ∈ ids n b) (hb : b' ≠ b)
    (hused : ∀ y, y ≠ x → (y ∈ used ↔ y ∈ used')) : FreeStack.Deals (ids n b') used' s := by
  refine h.congr_used fun y hy => hused y ?_
  rintro rfl
  exact hb (ids_disjoint hy hx)

theorem isSome_update {b b' : Bool} {s s' : FreeStack Nat} {f : Bool → Option (FreeStack Nat)}
    (h : f b = some s) : (Function.update f b (some s') b').isSome = (f b').isSome := by
  by_cases hb : b' = b
  · subst hb
    rw [Function.update_self, h]
    rfl
  · rw [Function.update_of_ne hb]

theorem Filed.opens (h : Filed n d) (ho : Opens d d' k e) : Filed n d' := by
  obtain ⟨b, s, hs, htop, hnext, hpool⟩ := ho.pool
  have hsome : ∀ b', (d'.pool b').isSome = (d.pool b').isSome := fun b' => by
    rw [hpool, isSome_update hs]
  have huse := inUse_append ho.chains
  obtain ⟨hall, hfresh⟩ := (h.deals b s hs).next_mem htop
  rw [← hnext] at hall hfresh
  constructor
  · rw [ho.chains]
    refine h.oneEach.append fun k' e' he' heq => hfresh ?_
    rw [← heq]
    exact ⟨k', trivial, e', he', rfl⟩
  · intro b' s' hs'
    rw [hpool] at hs'
    rw [huse]
    by_cases hb : b' = b
    · subst hb
      rw [Function.update_self] at hs'
      cases hs'
      rw [hnext]
      exact (h.deals b' s hs).pop htop
    · rw [Function.update_of_ne hb] at hs'
      refine deals_other (h.deals b' s' hs') hall hb fun y hy => ?_
      rw [Set.mem_insert_iff, or_iff_right hy]
  · intro x hx
    rw [huse] at hx
    simp only [hsome]
    rcases Set.mem_insert_iff.mp hx with rfl | hold
    · exact ⟨b, by rw [hs]; rfl, hall⟩
    · exact h.fromPool x hold
  · simp only [hsome, ho.maxTxFlowid]
    exact h.complete
  · rw [hsome, ho.htputStart]
    exact h.htputStart
  · simp only [hsome, ho.maxTxFlowid]
    exact h.bound
  · rw [ho.maxTxFlowid]
    exact h.real
  · intro k' e' he'
    rw [ho.chains] at he'
    rcases Chains.mem_append.mp he' with hold | ⟨rfl, rfl⟩
    · refine (h.matching k' e' hold).congr (ho.info _ fun heq => hfresh ?_)
      rw [← heq]
      exact ⟨k', trivial, e', hold, rfl⟩
    · exact ho.matching

theorem Filed.closes (h : Filed n d) (hc : Closes n d d' k e) : Filed n d' := by
  obtain ⟨b, s, hs, hid, hpool⟩ := hc.pool
  have hsome : ∀ b', (d'.pool b').isSome = (d.pool b').isSome := fun b' => by
    rw [hpool, isSome_update hs]
  have huse : d'.inUse = d.inUse \ {e.flowid} := by
    rw [inUse, hc.chains, h.oneEach.idsIn_remove hc.mem]
    rfl
  constructor
  · rw [hc.chains]
    exact h.oneEach.remove
  · intro b' s' hs'
    rw [hpool] at hs'
    rw [huse]
    by_cases hb : b' = b
    · subst hb
      rw [Function.update_self] at hs'
      cases hs'
      exact (h.deals b' s hs).push hid ⟨k, trivial, e, hc.mem, rfl⟩
    · rw [Function.update_of_ne hb] at hs'
      refine deals_other (h.deals b' s' hs') hid hb fun y hy => ?_
      rw [Set.mem_sdiff, Set.mem_singleton_iff, and_iff_left hy]
  · intro x hx
    rw [huse] at hx
    simp only [hsome]
    exact h.fromPool x hx.1
  · simp only [hsome, hc.maxTxFlowid]
    exact h.complete
  · rw [hsome, hc.htputStart]
    exact h.htputStart
  · simp only [hsome, hc.maxTxFlowid]
    exact h.bound
  · rw [hc.maxTxFlowid]
    exact h.real
  · intro k' e' he'
    rw [hc.chains] at he'
    exact (h.matching k' e' (h.oneEach.mem_remove.mp he').1).congr (hc.info _)

end Books

/-! ### Allocation -/

/-- Only the allocators and their counter may differ, so that nothing has been entered anywhere
yet. -/
structure Beside (d d' : Dhd) : Prop where
  count : d'.multiClientFlowRings = d.multiClientFlowRings
  most : d'.maxMultiClientFlowRings = d.maxMultiClientFlowRings
  lkup : d'.ifFlowLkup = d.ifFlowLkup
  table : d'.flowRingTable = d.flowRingTable
  htputStart : d'.htputFlowRingStart = d.htputFlowRingStart
  maxTxFlowid : d'.maxTxFlowid = d.maxTxFlowid
  peerTbl : d'.peerTbl = d.peerTbl

/-- No id, or the top of a stack, which is then taken from it. -/
def Drawn (d : Dhd) (r : Dhd × Nat) : Prop :=
  Beside d r.1 ∧
    (r.2 = id16Invalid ∧ r.1.pool = d.pool ∨
      ∃ b s, d.pool b = some s ∧ 0 < s.top ∧ r.2 = s.next ∧
        r.1.pool = Function.update d.pool b (some s.pop))

section Allocation

variable {n : Nat} {d d' : Dhd} (ifindex : Nat) (prio : UInt8) (da : EtherAddr) (env : Surroundings)

theorem Beside.refl (d : Dhd) : Beside d d := ⟨rfl, rfl, rfl, rfl, rfl, rfl, rfl⟩

theorem Beside.role_eq (h : Beside d d') (i : Nat) : d'.ifindex2role i = d.ifindex2role i := by
  rw [ifindex2role, ifindex2role, h.lkup]

theorem Beside.chains_eq (h : Beside d d') : d'.chains = d.chains := by
  funext k
  change (d'.ifFlowLkup k.1).flHash k.2 = (d.ifFlowLkup k.1).flHash k.2
  rw [h.lkup]

theorem Drawn.none (d : Dhd) : Drawn d (d, id16Invalid) := ⟨.refl d, .inl ⟨rfl, rfl⟩⟩

theorem Drawn.after {r : Dhd × Nat} (h : Drawn d' r) (hb : Beside d d') (hpool : d'.pool = d.pool) :
    Drawn d r := by
  obtain ⟨hb', hr⟩ := h
  rw [hpool] at hr
  exact ⟨⟨hb'.count.trans hb.count, hb'.most.trans hb.most, hb'.lkup.trans hb.lkup,
    hb'.table.trans hb.table, hb'.htputStart.trans hb.htputStart,
    hb'.maxTxFlowid.trans hb.maxTxFlowid, hb'.peerTbl.trans hb.peerTbl⟩, hr⟩

/-- A pool after one of its allocators has dealt out an id, or none. -/
theorem drawn_of_alloc {m : Id16Map} {b : Bool} (hb : Beside d d') (hm : d.pool b = some m.stackOf)
    (hpool : d'.pool = Function.update d.pool b (some m.alloc.1.stackOf)) :
    Drawn d (d', m.alloc.2) := by
  refine ⟨hb, ?_⟩
  rcases m.alloc_cases with ⟨-, hid, hstack⟩ | ⟨htop, hid, hstack⟩
  · refine .inl ⟨hid, ?_⟩
    rw [hpool, hstack, ← hm]
    exact Function.update_eq_self b d.pool
  · exact .inr ⟨b, m.stackOf, hm, htop, hid, by rw [hpool, hstack]⟩

theorem normalAlloc_drawn (d : Dhd) : Drawn d d.normalAlloc := by
  refine drawn_of_alloc (b := false) ⟨rfl, rfl, rfl, rfl, rfl, rfl, rfl⟩ rfl ?_
  funext b
  cases b <;> rfl

theorem htputAlloc_drawn (d : Dhd) : Drawn d (d.htputAlloc ifindex prio da env) := by
  unfold htputAlloc
  split
  · exact .none d
  · rename_i m hm
    have hpool : d.pool true = some m.stackOf := by simp only [pool, hm, Option.map_some]
    have htaken : ∀ count, Drawn d ({ d with
        htputFlowidAllocator := some m.alloc.1, htputClientFlowRings := count }, m.alloc.2) := by
      intro count
      refine drawn_of_alloc ⟨rfl, rfl, rfl, rfl, rfl, rfl, rfl⟩ hpool ?_
      funext b
      cases b <;> rfl
    dsimp only
    split
    · exact .none d
    · split
      · exact htaken d.htputClientFlowRings
      · split
        · split
          · split
            · exact htaken (d.htputClientFlowRings + 1)
            · exact htaken d.htputClientFlowRings
          · exact .none d
        · exact .none d

/-- No stack deals out the id that stands for none. -/
theorem Filed.next_ne_invalid (h : Filed n d) {b : Bool} {s : FreeStack Nat} (hs : d.pool b = some s)
    (htop : 0 < s.top) : s.next ≤ d.maxTxFlowid ∧ s.next ≠ id16Invalid := by
  have hle : s.next ≤ d.maxTxFlowid :=
    h.bound b (by rw [hs]; rfl) s.next ((h.deals b s hs).next_mem htop).1
  exact ⟨hle, Nat.ne_of_lt (Nat.lt_of_le_of_lt hle h.real)⟩

theorem Filed.flowidMapAlloc_drawn (h : Filed n d) :
    Drawn d (d.flowidMapAlloc ifindex prio da env) := by
  unfold flowidMapAlloc
  split
  · exact normalAlloc_drawn d
  · dsimp only
    have hdrawn := htputAlloc_drawn ifindex prio da env d
    split
    · rename_i hnone
      obtain ⟨hb, ⟨-, hpool⟩ | ⟨b, s, hs, htop, hid, -⟩⟩ := hdrawn
      · exact (normalAlloc_drawn _).after hb hpool
      · exact absurd (hid.symm.trans hnone) (h.next_ne_invalid hs htop).2
    · exact hdrawn

end Allocation

/-! ### Finding and opening -/

/-- The search for a flow goes the same way in both states: the same role for the interface, and the
same answer about a direct link. -/
structure SameSight (d d' : Dhd) (ifindex : Nat) (da : EtherAddr) : Prop where
  sta : (d'.ifindex2role ifindex).genericSta = (d.ifindex2role ifindex).genericSta
  tdls : d'.isTdlsDestination da = d.isTdlsDestination da

/-- The entry that `dhd_flowid_find` comes to. -/
def entryOf (d : Dhd) (ifindex : Nat) (prio : UInt8) (da : EtherAddr) : Option FlowHashInfo :=
  (d.chains (ifindex, d.hashOf ifindex prio da)).find? (d.isEntryOf ifindex prio da)

/-- The entry that `dhd_flowid_alloc` makes. -/
def newEntry (ifindex : Nat) (prio : UInt8) (da : EtherAddr) (flowid : Nat) : FlowHashInfo :=
  ⟨flowid, ⟨prio, ifindex, fun _ => 0, da⟩⟩

section Lookup

variable {n : Nat} {d d' : Dhd} {ifindex : Nat} {prio : UInt8} {sa da : EtherAddr}
  {env : Surroundings}

theorem SameSight.hashOf_eq (h : SameSight d d' ifindex da) :
    d'.hashOf ifindex prio da = d.hashOf ifindex prio da := by
  rw [hashOf, hashOf, h.sta, h.tdls]

theorem SameSight.isEntryOf_eq (h : SameSight d d' ifindex da) :
    d'.isEntryOf ifindex prio da = d.isEntryOf ifindex prio da := by
  funext cur
  rw [isEntryOf, isEntryOf, h.sta, h.tdls]

theorem Beside.sameSight (h : Beside d d') (ifindex : Nat) (da : EtherAddr) :
    SameSight d d' ifindex da := by
  constructor
  · rw [ifindex2role, ifindex2role, h.lkup]
  · rw [isTdlsDestination, isTdlsDestination, h.peerTbl]

theorem chains_setChain (d : Dhd) (i : Nat) (hash : Fin 256) (chain : List FlowHashInfo) :
    (d.setChain i hash chain).chains = Function.update d.chains (i, hash) chain := by
  funext ⟨i', hash'⟩
  by_cases hi : i' = i
  · subst hi
    by_cases hh : hash' = hash
    · subst hh
      simp [chains, setChain, setLkup]
    · simp [chains, setChain, setLkup, hh]
  · simp [chains, setChain, setLkup, hi]

theorem role_setChain (d : Dhd) (i : Nat) (hash : Fin 256) (chain : List FlowHashInfo) (j : Nat) :
    (d.setChain i hash chain).ifindex2role j = d.ifindex2role j := by
  by_cases hj : j = i
  · subst hj
    simp [ifindex2role, setChain, setLkup]
  · simp [ifindex2role, setChain, setLkup, hj]

theorem isEntryOf_newEntry (flowid : Nat) :
    d.isEntryOf ifindex prio da (newEntry ifindex prio da flowid) = true := by
  simp only [isEntryOf, newEntry, decide_true, Bool.and_self, Bool.or_true, ite_self]

/-- A station has at most one entry in a chain that is not of a direct peer. -/
theorem chain_of_entryOf_none (h : d.entryOf ifindex prio da = none)
    (hsta : ((d.ifindex2role ifindex).genericSta && !d.isTdlsDestination da) = true) :
    d.chains (ifindex, d.hashOf ifindex prio da) = [] := by
  rw [Bool.and_eq_true, Bool.not_eq_true'] at hsta
  apply List.eq_nil_iff_forall_not_mem.mpr
  intro cur hcur
  have hfail := List.find?_eq_none.mp h cur hcur
  simp [isEntryOf, hsta.1, hsta.2] at hfail

/-- What is entered for a new flow: an entry at the end of its chain, with the node to match. -/
theorem enterFlow_eq (hnone : d.entryOf ifindex prio da = none) (flowid : Nat) :
    d.enterFlow ifindex prio da flowid =
      d.setChain ifindex (d.hashOf ifindex prio da)
        (d.chains (ifindex, d.hashOf ifindex prio da) ++ [newEntry ifindex prio da flowid]) := by
  unfold enterFlow
  dsimp only
  split
  · rename_i hsta
    rw [chain_of_entryOf_none hnone hsta, List.nil_append]
    rfl
  · rfl

/-- An allocation fails and leaves the books as they are, or opens a ring. -/
theorem Filed.flowidAlloc_cases (h : Filed n d) (hnone : d.entryOf ifindex prio da = none)
    (env : Surroundings) :
    let r := d.flowidAlloc ifindex prio da env
    (∀ i a, SameSight d r.1 i a) ∧ SameRoles d r.1 ∧
      r.1.multiClientFlowRings = d.multiClientFlowRings ∧ r.1.flowRingTable = d.flowRingTable ∧
      r.1.htputFlowRingStart = d.htputFlowRingStart ∧ r.1.maxTxFlowid = d.maxTxFlowid ∧
      (r.2 = id16Invalid ∧ r.1.chains = d.chains ∧ r.1.pool = d.pool ∨
        r.2 ≠ id16Invalid ∧
          r.1.chains = d.chains.append (ifindex, d.hashOf ifindex prio da)
            (newEntry ifindex prio da r.2) ∧
          ∃ b s, d.pool b = some s ∧ 0 < s.top ∧ r.2 = s.next ∧
            r.1.pool = Function.update d.pool b (some s.pop)) := by
  intro r
  have hr : r = d.flowidAlloc ifindex prio da env := rfl
  unfold flowidAlloc at hr
  split at hr
  · rw [hr]
    exact ⟨fun _ _ => ⟨rfl, rfl⟩, ⟨fun _ => rfl, rfl⟩, rfl, rfl, rfl, rfl, .inl ⟨rfl, rfl, rfl⟩⟩
  obtain ⟨hb, hdrawn⟩ := h.flowidMapAlloc_drawn ifindex prio da env
  generalize d.flowidMapAlloc ifindex prio da env = a at hr hb hdrawn
  obtain ⟨d₁, flowid⟩ := a
  dsimp only at hr hb hdrawn
  have hchains := hb.chains_eq
  split at hr
  · rename_i hid
    rw [hr]
    refine ⟨hb.sameSight, ⟨hb.role_eq, hb.most⟩, hb.count, hb.table, hb.htputStart, hb.maxTxFlowid,
      .inl ⟨rfl, hchains, ?_⟩⟩
    rcases hdrawn with ⟨-, hpool⟩ | ⟨b, s, hs, htop, hnext, -⟩
    · exact hpool
    · exact absurd (hnext.symm.trans hid) (h.next_ne_invalid hs htop).2
  · rename_i hid
    obtain ⟨hno, -⟩ | ⟨b, s, hs, htop, hnext, hpool⟩ := hdrawn
    · exact absurd hno hid
    have hhash : d₁.hashOf ifindex prio da = d.hashOf ifindex prio da :=
      (hb.sameSight ifindex da).hashOf_eq
    have hnone₁ : d₁.entryOf ifindex prio da = none := by
      rw [entryOf, hchains, hhash, (hb.sameSight ifindex da).isEntryOf_eq]
      exact hnone
    have hle : ¬flowid > d₁.maxTxFlowid := by
      rw [hb.maxTxFlowid, hnext]
      exact Nat.not_lt.mpr (h.next_ne_invalid hs htop).1
    rw [enterFlow_eq hnone₁, hhash, hchains] at hr
    rw [hr, if_neg (show ¬flowid > (d₁.setChain _ _ _).maxTxFlowid from hle)]
    refine ⟨fun i a => ⟨?_, (hb.sameSight i a).tdls⟩, ⟨fun i => ?_, hb.most⟩, hb.count, hb.table,
      hb.htputStart, hb.maxTxFlowid, .inr ⟨hid, ?_, b, s, hs, htop, hnext, hpool⟩⟩
    · rw [role_setChain]
      exact (hb.sameSight i a).sta
    · rw [role_setChain]
      exact hb.role_eq i
    · rw [chains_setChain, hchains]
      rfl

theorem flowidFind_eq (hsmall : ifindex < dhdMaxIfs) :
    d.flowidFind ifindex prio da = ((d.entryOf ifindex prio da).map (·.flowid)).getD id16Invalid := by
  rw [flowidFind, if_neg (Nat.not_le.mpr hsmall)]
  unfold entryOf chains
  split
  · rename_i cur hcur
    rw [hcur]
    rfl
  · rename_i hnone
    rw [hnone]
    rfl

theorem mem_of_entryOf {cur : FlowHashInfo} (h : d.entryOf ifindex prio da = some cur) :
    cur ∈ d.chains (ifindex, d.hashOf ifindex prio da) := List.mem_of_find?_eq_some h

theorem Filed.flowid_le (h : Filed n d) {k : Nat × Fin 256} {e : FlowHashInfo} (he : e ∈ d.chains k) :
    e.flowid ≤ d.maxTxFlowid ∧ e.flowid ≠ id16Invalid := by
  obtain ⟨b, hb, hid⟩ := h.fromPool e.flowid ⟨k, trivial, e, he, rfl⟩
  have hle := h.bound b hb e.flowid hid
  exact ⟨hle, Nat.ne_of_lt (Nat.lt_of_le_of_lt hle h.real)⟩

theorem matches_newEntry (hsmall : ifindex < dhdMaxIfs) {flowid : Nat} {node : FlowRingNode}
    (hnode : node.flowInfo = ⟨prio, ifindex, sa, da⟩) (hash : Fin 256) :
    Matches (d.setNode flowid node) (ifindex, hash) (newEntry ifindex prio da flowid) := by
  have htable : (d.setNode flowid node).flowRingTable flowid = node := Function.update_self _ _ _
  refine ⟨hsmall, rfl, ?_, ?_, ?_⟩ <;> rw [newEntry, htable, hnode]

/-- What a lookup does: nothing, and it comes to the entry of the flow, or it opens a ring. If it
fails it may have done either. -/
structure LooksUp (d : Dhd) (ifindex : Nat) (prio : UInt8) (da : EtherAddr)
    (r : Dhd × Except Bcme Nat) : Prop where
  sight : ∀ i a, SameSight d r.1 i a
  books : Still d r.1 ∧ (∀ id, r.2 = .ok id → ifindex < dhdMaxIfs ∧
      ∃ cur, d.entryOf ifindex prio da = some cur ∧ cur.flowid = id) ∨
    ifindex < dhdMaxIfs ∧ d.entryOf ifindex prio da = none ∧
      ∃ flowid, Opens d r.1 (ifindex, d.hashOf ifindex prio da) (newEntry ifindex prio da flowid) ∧
        ∀ id, r.2 = .ok id → id = flowid

theorem LooksUp.fail (d : Dhd) (err : Bcme) : LooksUp d ifindex prio da (d, .error err) :=
  ⟨fun _ _ => ⟨rfl, rfl⟩, .inl ⟨.refl d, fun id hid => by cases hid⟩⟩

theorem Filed.makeFlow_looksUp (h : Filed n d) (hsmall : ifindex < dhdMaxIfs)
    (hnone : d.entryOf ifindex prio da = none) :
    LooksUp d ifindex prio da (d.makeFlow ifindex prio sa da env) := by
  unfold makeFlow
  dsimp only
  split
  · exact .fail d .error
  split
  · exact .fail d .error
  rename_i hmost
  split
  · exact .fail d .error
  obtain ⟨hsight, hroles, hcount, htable, hstart, hlast, halloc⟩ := h.flowidAlloc_cases hnone env
  generalize d.flowidAlloc ifindex prio da env = a at hsight hroles hcount htable hstart hlast halloc ⊢
  obtain ⟨d₁, id⟩ := a
  dsimp only at hsight hroles hcount htable hstart hlast halloc ⊢
  rcases halloc with ⟨hid, hchains, hpool⟩ | ⟨hid, hchains, hpool⟩
  · rw [if_pos hid]
    have hsame : Same d d₁ := ⟨hchains, hpool, hstart, hlast, fun _ => by rw [htable]⟩
    refine ⟨hsight, .inl ⟨⟨hsame, hroles, hcount, fun _ => by rw [htable]; exact fun h => h⟩, ?_⟩⟩
    intro _ hok
    cases hok
  · rw [if_neg hid]
    have hnumber : (if (d.ifindex2role ifindex).multiClient then d₁.multiClientFlowRings + 1
        else d₁.multiClientFlowRings) = d.multiClientFlowRings + d.clientRing ifindex := by
      rw [hcount, clientRing]
      split <;> rfl
    have hbelow : (d.ifindex2role ifindex).multiClient = true →
        d.multiClientFlowRings < d.maxMultiClientFlowRings := by
      intro hmulti
      rw [hmulti, Bool.true_and, decide_eq_true_iff] at hmost
      exact Nat.not_le.mp hmost
    rw [hnumber]
    have hopens : ∀ node : FlowRingNode, node.flowInfo = ⟨prio, ifindex, sa, da⟩ →
        Opens d ({ d₁ with
            multiClientFlowRings := d.multiClientFlowRings + d.clientRing ifindex }.setNode id node)
          (ifindex, d.hashOf ifindex prio da) (newEntry ifindex prio da id) := by
      intro node hnode
      have hother : ∀ id', id' ≠ id → Function.update d₁.flowRingTable id node id' =
          d.flowRingTable id' := by
        intro id' hne
        rw [Function.update_of_ne hne, htable]
      exact ⟨⟨hroles.role, hroles.most⟩, hchains, hpool, hstart, hlast,
        fun id' hne => congrArg FlowRingNode.flowInfo (hother id' hne), matches_newEntry hsmall hnode _,
        rfl, hbelow, fun id' hne => congrArg FlowRingNode.active (hother id' hne)⟩
    have hsight' : ∀ node i a, SameSight d ({ d₁ with
        multiClientFlowRings := d.multiClientFlowRings + d.clientRing ifindex }.setNode id node) i a :=
      fun _ i a => ⟨(hsight i a).sta, (hsight i a).tdls⟩
    split
    · refine ⟨hsight' _, .inr ⟨hsmall, hnone, id, hopens _ rfl, fun id' hok => ?_⟩⟩
      cases hok
      rfl
    · refine ⟨hsight' _, .inr ⟨hsmall, hnone, id, hopens _ rfl, fun id' hok => ?_⟩⟩
      cases hok

theorem Filed.flowidLookup_looksUp (h : Filed n d) :
    LooksUp d ifindex prio da (d.flowidLookup ifindex prio sa da env) := by
  unfold flowidLookup
  split
  · exact .fail d .badarg
  rename_i hlarge
  have hsmall := Nat.not_le.mp hlarge
  dsimp only
  rw [flowidFind_eq hsmall]
  cases hentry : d.entryOf ifindex prio da with
  | none =>
      rw [if_pos (.inl rfl)]
      exact h.makeFlow_looksUp hsmall hentry
  | some cur =>
      obtain ⟨hle, hne⟩ := h.flowid_le (mem_of_entryOf hentry)
      rw [Option.map_some, Option.getD_some, if_neg (not_or.mpr ⟨hne, Nat.not_lt.mpr hle⟩)]
      split
      · exact .fail d .error
      · exact .fail d .error
      · refine ⟨fun _ _ => ⟨rfl, rfl⟩, .inl ⟨.refl d, fun id hok => ⟨hsmall, cur, hentry, ?_⟩⟩⟩
        cases hok
        rfl

end Lookup

/-! ### Closing -/

section Closing

variable {n : Nat} {d d' d₁ : Dhd} {k : Nat × Fin 256} {e : FlowHashInfo}

theorem isFlowidHtput_iff (flowid : Nat) (hstart : d.htputFlowRingStart = n + flowidReserved) :
    d.isFlowidHtput flowid = true ↔ flowid ∈ ids n true := by
  rw [isFlowidHtput, hstart, Bool.and_eq_true, decide_eq_true_iff, decide_eq_true_iff]
  rfl

/-- An id goes back to the stack it comes from. -/
theorem flowidMapFree_spec {b : Bool} (ifindex : Nat) {flowid : Nat} (hb : (d.pool b).isSome)
    (hid : flowid ∈ ids n b) (hstart : (d.pool true).isSome → d.htputFlowRingStart = n + flowidReserved) :
    Beside d (d.flowidMapFree ifindex flowid) ∧ ∃ s, d.pool b = some s ∧
      (d.flowidMapFree ifindex flowid).pool = Function.update d.pool b (some (s.push flowid)) := by
  have hnormal : ∀ b', b' = false → (Beside d { d with flowidAllocator := d.flowidAllocator.free flowid } ∧
      ∃ s, d.pool b' = some s ∧ { d with flowidAllocator := d.flowidAllocator.free flowid }.pool =
        Function.update d.pool b' (some (s.push flowid))) := by
    rintro b' rfl
    refine ⟨⟨rfl, rfl, rfl, rfl, rfl, rfl, rfl⟩, d.flowidAllocator.stackOf, rfl, ?_⟩
    funext b''
    cases b'' with
    | true => rfl
    | false => exact congrArg some (d.flowidAllocator.stackOf_free flowid)
  unfold flowidMapFree
  split
  · rename_i hnone
    apply hnormal
    cases b with
    | false => rfl
    | true => simp [pool, hnone] at hb
  · rename_i m hm
    have hpool : d.pool true = some m.stackOf := by simp only [pool, hm, Option.map_some]
    have hiff := isFlowidHtput_iff flowid (hstart (by rw [hpool]; rfl))
    split
    · rename_i hhtput
      obtain rfl : b = true := ids_disjoint hid (hiff.mp hhtput)
      have hcount : ∀ count, Beside d { d with
          htputFlowidAllocator := some (m.free flowid), htputClientFlowRings := count } ∧
          ∃ s, d.pool true = some s ∧ { d with
            htputFlowidAllocator := some (m.free flowid), htputClientFlowRings := count }.pool =
            Function.update d.pool true (some (s.push flowid)) := by
        intro count
        refine ⟨⟨rfl, rfl, rfl, rfl, rfl, rfl, rfl⟩, m.stackOf, hpool, ?_⟩
        funext b''
        cases b'' with
        | true => exact congrArg some (m.stackOf_free flowid)
        | false => rfl
      dsimp only
      split
      · exact hcount _
      · exact hcount d.htputClientFlowRings
    · rename_i hhtput
      apply hnormal
      cases b with
      | false => rfl
      | true => exact absurd (hiff.mpr hid) hhtput

/-- Taking the entry of a ring out of its chain and giving back its id closes the ring. -/
theorem Filed.closes_of_drop (h : Filed n d) {ifindex : Nat} {hash : Fin 256}
    (hmem : e ∈ d.chains (ifindex, hash)) (hidle : (d.flowRingTable e.flowid).active = false) {count : Nat}
    (hcount : count = d.multiClientFlowRings - d.clientRing ifindex)
    (hd₁ : d₁ = { d.setChain ifindex hash
      ((d.chains (ifindex, hash)).eraseP (·.flowid == e.flowid)) with multiClientFlowRings := count }) :
    (∀ i a, SameSight d (d₁.flowidMapFree ifindex e.flowid) i a) ∧
      Closes n d (d₁.flowidMapFree ifindex e.flowid) (ifindex, hash) e := by
  obtain ⟨b, hb, hid⟩ := h.fromPool e.flowid ⟨_, trivial, e, hmem, rfl⟩
  have hpool₁ : d₁.pool = d.pool := by rw [hd₁]; rfl
  have hstart₁ : d₁.htputFlowRingStart = d.htputFlowRingStart := by rw [hd₁]; rfl
  have htable₁ : d₁.flowRingTable = d.flowRingTable := by rw [hd₁]; rfl
  have hrole₁ : ∀ i, d₁.ifindex2role i = d.ifindex2role i := by
    rw [hd₁]
    exact role_setChain d ifindex hash _
  have htdls₁ : ∀ a, d₁.isTdlsDestination a = d.isTdlsDestination a := by
    intro a
    rw [hd₁]
    rfl
  obtain ⟨hbeside, s, hs, hpool⟩ := flowidMapFree_spec ifindex (hpool₁ ▸ hb) hid
    (by rw [hpool₁, hstart₁]; exact h.htputStart)
  have htable := hbeside.table.trans htable₁
  refine ⟨fun i a => ?_, ⟨fun i => ?_, ?_⟩, hmem, ?_,
    ⟨b, s, hpool₁ ▸ hs, hid, hpool₁ ▸ hpool⟩, ?_, ?_, fun id => by rw [htable], ?_, fun id => ?_⟩
  · have hsight := hbeside.sameSight i a
    exact ⟨hsight.sta.trans (congrArg Role.genericSta (hrole₁ i)), hsight.tdls.trans (htdls₁ a)⟩
  · exact (hbeside.role_eq i).trans (hrole₁ i)
  · rw [hbeside.most, hd₁]
    rfl
  · rw [hbeside.chains_eq, hd₁]
    exact chains_setChain d ifindex hash _
  · rw [hbeside.htputStart, hstart₁]
  · rw [hbeside.maxTxFlowid, hd₁]
    rfl
  · rw [hbeside.count, hd₁, hcount]
  · rw [htable]
    intro hactive
    refine ⟨hactive, ?_⟩
    rintro rfl
    rw [hidle] at hactive
    cases hactive

/-- Freeing an id closes its ring, or finds no entry and does nothing. -/
theorem Filed.flowidFree_cases (h : Filed n d) (ifindex flowid : Nat)
    (hidle : (d.flowRingTable flowid).active = false) :
    (∀ i a, SameSight d (d.flowidFree ifindex flowid) i a) ∧
      (d.flowidFree ifindex flowid = d ∧ (ifindex < dhdMaxIfs →
          ∀ hash, ∀ e ∈ d.chains (ifindex, hash), e.flowid ≠ flowid) ∨
        ∃ hash e, e.flowid = flowid ∧ Closes n d (d.flowidFree ifindex flowid) (ifindex, hash) e) := by
  unfold flowidFree
  split
  · rename_i hlarge
    exact ⟨fun _ _ => ⟨rfl, rfl⟩, .inl ⟨rfl, fun hsmall => absurd hlarge (Nat.not_le.mpr hsmall)⟩⟩
  dsimp only
  split
  · rename_i hnone
    refine ⟨fun _ _ => ⟨rfl, rfl⟩, .inl ⟨rfl, fun _ hash e he heq => ?_⟩⟩
    have hany := List.find?_eq_none.mp hnone hash (List.mem_finRange hash)
    rw [List.any_eq_true] at hany
    exact hany ⟨e, he, by simp [heq]⟩
  · rename_i hash hfound
    have hany := List.find?_some hfound
    obtain ⟨e, he, heq⟩ := List.any_eq_true.mp hany
    obtain rfl := beq_iff_eq.mp heq
    have hmem : e ∈ d.chains (ifindex, hash) := he
    have hnumber : (if (d.ifindex2role ifindex).multiClient then d.multiClientFlowRings - 1
        else d.multiClientFlowRings) = d.multiClientFlowRings - d.clientRing ifindex := by
      rw [clientRing]
      split <;> rfl
    obtain ⟨hsight, hcloses⟩ := h.closes_of_drop hmem hidle hnumber rfl
    exact ⟨hsight, .inr ⟨hash, e, rfl, hcloses⟩⟩

theorem Closes.after (hstill : Still d d₁) (hc : Closes n d₁ d' k e) : Closes n d d' k e where
  role i := (hc.role i).trans (hstill.role i)
  most := hc.most.trans hstill.most
  mem := hstill.chains ▸ hc.mem
  chains := hstill.chains ▸ hc.chains
  pool := hstill.pool ▸ hc.pool
  htputStart := hc.htputStart.trans hstill.htputStart
  maxTxFlowid := hc.maxTxFlowid.trans hstill.maxTxFlowid
  info id := (hc.info id).trans (hstill.info id)
  count := by rw [hc.count, hstill.count, clientRing, clientRing, hstill.role]
  active id hid := ⟨hstill.active id (hc.active id hid).1, (hc.active id hid).2⟩

/-- The status of a ring is not in the books, and a ring may become inactive. -/
theorem Still.setNode (d : Dhd) (flowid : Nat) {node : FlowRingNode}
    (hnode : node.flowInfo = (d.flowRingTable flowid).flowInfo)
    (hactive : node.active = true → (d.flowRingTable flowid).active = true) :
    Still d (d.setNode flowid node) := by
  refine ⟨⟨rfl, rfl, rfl, rfl, fun id => ?_⟩, ⟨fun _ => rfl, rfl⟩, rfl, fun id => ?_⟩
  · change (Function.update d.flowRingTable flowid node id).flowInfo = _
    by_cases hid : id = flowid
    · subst hid
      rw [Function.update_self, hnode]
    · rw [Function.update_of_ne hid]
  · change (Function.update d.flowRingTable flowid node id).active = true → _
    by_cases hid : id = flowid
    · subst hid
      rw [Function.update_self]
      exact hactive
    · rw [Function.update_of_ne hid]
      exact fun h => h

/-- An answer of the dongle that a ring is gone closes it, or is about no ring at all. -/
theorem Filed.cleanFlowRing_cases (h : Filed n d) (flowid : Nat) :
    (∀ i a, SameSight d (d.cleanFlowRing flowid) i a) ∧
      (Still d (d.cleanFlowRing flowid) ∧ flowid ∉ d.inUse ∨
        ∃ k e, e.flowid = flowid ∧ Closes n d (d.cleanFlowRing flowid) k e) := by
  have hstill : Still d (d.setNode flowid
      { d.flowRingTable flowid with status := .closed, active := false }) :=
    .setNode d flowid rfl fun hactive => by cases hactive
  have hidle : ((d.setNode flowid { d.flowRingTable flowid with
      status := .closed, active := false }).flowRingTable flowid).active = false := by
    change (Function.update d.flowRingTable flowid _ flowid).active = false
    rw [Function.update_self]
  obtain ⟨hsight, hcases⟩ := (h.same hstill.toSame).flowidFree_cases
    (d.flowRingTable flowid).flowInfo.ifindex flowid hidle
  refine ⟨fun i a => ⟨(hsight i a).sta, (hsight i a).tdls⟩, ?_⟩
  rcases hcases with ⟨heq, hnot⟩ | ⟨hash, e, heq, hcloses⟩
  · left
    unfold cleanFlowRing
    dsimp only
    rw [heq]
    refine ⟨hstill, ?_⟩
    rintro ⟨k, -, e, he, rfl⟩
    have hmatches := h.matching k e he
    refine hnot ?_ k.2 e ?_ rfl
    · rw [hmatches.nodeIfindex]
      exact hmatches.small
    · rw [hstill.chains, hmatches.nodeIfindex]
      exact he
  · exact .inr ⟨_, e, heq, hcloses.after hstill⟩

end Closing

end Dhd

end Hub11.Drivers.Flow
