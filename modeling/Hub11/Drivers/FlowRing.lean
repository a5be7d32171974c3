import Hub11.Data.Chains
import Hub11.Data.FreeStack
import Mathlib.Data.Fintype.Basic
import Mathlib.Data.List.FinRange

/-!
The flow rings of the bcmdhd driver.

Packets to the dongle go out on one ring for each flow: an interface, a receiver and a
priority. The driver makes a ring for the first packet of a flow and finds it again for the
next ones, through a hash table for each interface. The ids of the rings come from two
stacks, one of them for flows with a high throughput. The dongle says when a ring is open and
when it is gone, and only then its id is free again.

The calls run one after the other here, each of them as a whole, and the locks of the driver
are left out; `dhd_flowid_lookup` lets go of its lock between the search and the allocation.
The table of the nodes is as large as the ids that are asked for.
-/

namespace Hub11.Drivers.Flow

open Hub11.Data

/-! ### Ids of 16 bits -/

/-- `ID16_INVALID`, which is `FLOWID_INVALID` as well -/
def id16Invalid : Nat := 0xFFFF

/-- `id16_map_t`, a stack of free ids of 16 bits. The index of its top is -1 if it is empty. -/
structure Id16Map where
  failures : Nat
  total : Nat
  start : Nat
  stackIdx : Int
  stack : Nat → Nat
  /-- The index goes below the stack by one at most. -/
  bounded : -1 ≤ stackIdx

namespace Id16Map

/-- `id16_map_init`, for a start that is defined -/
def init (totalIds startVal16 : Nat) : Id16Map where
  failures := 0
  total := totalIds
  start := startVal16
  stackIdx := totalIds - 1
  stack idx := (startVal16 + idx) % 0x10000
  bounded := by omega

/-- `id16_map_alloc`: the id on the top. An empty stack has none, and counts the failure. -/
def alloc (m : Id16Map) : Id16Map × Nat :=
  if h : m.stackIdx < 0 then ({ m with failures := (m.failures + 1) % 0x100000000 }, id16Invalid)
  else
    ({ m with stackIdx := m.stackIdx - 1, bounded := by omega }, m.stack m.stackIdx.toNat)

/-- `id16_map_free`. The id goes on the top, with no look at whether it was out. -/
def free (m : Id16Map) (val16 : Nat) : Id16Map :=
  { m with
    stackIdx := m.stackIdx + 1
    stack := Function.update m.stack (m.stackIdx + 1).toNat val16
    bounded := by have := m.bounded; omega }

/-- The ids that are free, as a stack. -/
def stackOf (m : Id16Map) : FreeStack Nat := ⟨(m.stackIdx + 1).toNat, m.stack⟩

theorem alloc_cases (m : Id16Map) :
    m.stackOf.top = 0 ∧ m.alloc.2 = id16Invalid ∧ m.alloc.1.stackOf = m.stackOf ∨
      0 < m.stackOf.top ∧ m.alloc.2 = m.stackOf.next ∧ m.alloc.1.stackOf = m.stackOf.pop := by
  unfold alloc stackOf FreeStack.next FreeStack.pop
  split
  · left
    refine ⟨?_, rfl, rfl⟩
    change (m.stackIdx + 1).toNat = 0
    omega
  · rename_i hidx
    have htop : (m.stackIdx + 1).toNat = m.stackIdx.toNat + 1 := by omega
    right
    refine ⟨?_, ?_, ?_⟩
    · exact htop ▸ Nat.succ_pos _
    · simp only [htop, Nat.add_sub_cancel]
    · have hdown : (m.stackIdx - 1 + 1).toNat = (m.stackIdx + 1).toNat - 1 := by omega
      simp only [hdown]

theorem stackOf_free (m : Id16Map) (val16 : Nat) : (m.free val16).stackOf = m.stackOf.push val16 := by
  have hup : (m.stackIdx + 1 + 1).toNat = (m.stackIdx + 1).toNat + 1 := by
    have := m.bounded
    omega
  simp only [free, stackOf, FreeStack.push, hup]

theorem init_deals {totalIds startVal16 : Nat} (h : startVal16 + totalIds < id16Invalid) :
    FreeStack.Deals {x | startVal16 ≤ x ∧ x < startVal16 + totalIds} ∅
      (init totalIds startVal16).stackOf := by
  have hfree : (init totalIds startVal16).stackOf.free = List.range' startVal16 totalIds := by
    have htop : ((totalIds : Int) - 1 + 1).toNat = totalIds := by omega
    simp only [init, stackOf, FreeStack.free, htop]
    rw [List.range'_eq_map_range]
    refine List.map_congr_left fun idx hidx => Nat.mod_eq_of_lt ?_
    have := List.mem_range.mp hidx
    unfold id16Invalid at h
    omega
  constructor
  · rw [hfree]
    exact List.nodup_range'
  · intro x
    rw [hfree]
    simp

end Id16Map

/-! ### The state of the driver -/

/-- An address of six bytes. -/
abbrev EtherAddr : Type := Fin 6 → UInt8

/-- `ETHER_ISMULTI` -/
def etherIsMulti (ea : EtherAddr) : Bool := ea 0 &&& 1 != 0

/-- `DHD_FLOWRING_HASHINDEX`, the last three bytes of the address and the priority. -/
def hashIndex (ea : EtherAddr) (prio : UInt8) : Fin 256 :=
  (ea 3 ^^^ ea 4 ^^^ ea 5 ^^^ prio).toFin

/-- `WLC_E_IF_ROLE_…`; the dongle may name others. -/
inductive Role where
  | sta
  | ap
  | wds
  | p2pGo
  | p2pClient
  | ibss
  | nan
  | other (n : UInt8)
deriving DecidableEq

/-- `DHD_IF_ROLE_GENERIC_STA` -/
def Role.genericSta : Role → Bool
  | .sta | .p2pClient | .wds => true
  | _ => false

/-- `DHD_IF_ROLE_MULTI_CLIENT` -/
def Role.multiClient : Role → Bool
  | .ap | .p2pGo | .nan => true
  | _ => false

/-- `FLOW_RING_STATUS_…` -/
inductive Status where
  | opened
  | createPending
  | closed
  | deletePending
  | flushPending
deriving DecidableEq

/-- `flow_info_t`, what a flow is: a priority, an interface, a sender and a receiver. -/
structure FlowInfo where
  tid : UInt8
  ifindex : Nat
  sa : EtherAddr
  da : EtherAddr

/-- `flow_ring_node_t`, the side of the bus: where the ring is in its life, and which flow it was
made for. -/
structure FlowRingNode where
  active : Bool
  status : Status
  flowInfo : FlowInfo

/-- `flow_hash_info_t`, the entry of a flow in the hash table, with the id of its ring. -/
structure FlowHashInfo where
  flowid : Nat
  flowInfo : FlowInfo

/-- `if_flow_lkup_t`, what is kept for an interface: whether its link is up, its role, and the hash
table of its flows. -/
structure IfFlowLkup where
  status : Bool
  role : Role
  flHash : Fin 256 → List FlowHashInfo

/-- `DHD_MAX_IFS` -/
def dhdMaxIfs : Nat := 16

/-- `FLOWID_RESERVED`, the common rings -/
def flowidReserved : Nat := 2

/-- `HTPUT_NUM_CLIENT_FLOW_RINGS` -/
def htputNumClientFlowRings : Nat := 3

/-- `HTPUT_TOTAL_FLOW_RINGS` -/
def htputTotalFlowRings : Nat := 1 + htputNumClientFlowRings

/-- `HTPUT_FLOW_RING_PRIO`, best effort -/
def htputFlowRingPrio : UInt8 := 0

/-- `dhd_pub_t`, as far as it is about flow rings: the two allocators, the counters, the nodes and
the hash tables. -/
structure Dhd where
  flowidAllocator : Id16Map
  /-- There is one if the dongle supports it. -/
  htputFlowidAllocator : Option Id16Map
  htputFlowRingStart : Nat
  htputClientFlowRings : Nat
  multiClientFlowRings : Nat
  maxMultiClientFlowRings : Nat
  maxTxFlowid : Nat
  numH2dRings : Nat
  flowRingTable : Nat → FlowRingNode
  ifFlowLkup : Nat → IfFlowLkup
  /-- The addresses of `peer_tbl`. -/
  peerTbl : List EtherAddr

namespace Dhd

/-- A node of zeros. -/
def noFlow : FlowInfo := ⟨0, 0, fun _ => 0, fun _ => 0⟩

/-- The map of the priorities to access categories. -/
def prio2ac : List UInt8 := [0, 1, 1, 0, 2, 2, 3, 3]

/-- `dhd_num_prio_supported_per_flow_ring` -/
def numPrioSupportedPerFlowRing (flowPrioMap : List UInt8) : Nat := flowPrioMap.dedup.length

/-- `dhd_get_max_multi_client_flow_rings`, in numbers of 8 bits -/
def getMaxMultiClientFlowRings (maxTxFlowRings : Nat) : Nat :=
  (maxTxFlowRings % 0x100 + 0x100 - numPrioSupportedPerFlowRing prio2ac) % 0x100

/-- `dhd_flow_rings_init`, with `dhd_flowid_map_init` -/
def init (maxTxFlowRings numH2dRings : Nat) (htputSupport : Bool) : Dhd :=
  let maxNormal := if htputSupport then maxTxFlowRings - htputTotalFlowRings else maxTxFlowRings
  { flowidAllocator := .init maxNormal flowidReserved
    htputFlowidAllocator :=
      if htputSupport then some (.init htputTotalFlowRings (maxNormal + flowidReserved)) else none
    htputFlowRingStart := if htputSupport then maxNormal + flowidReserved else 0
    htputClientFlowRings := 0
    multiClientFlowRings := 0
    maxMultiClientFlowRings := getMaxMultiClientFlowRings maxTxFlowRings
    maxTxFlowid := maxTxFlowRings + flowidReserved - 1
    numH2dRings := numH2dRings
    flowRingTable := fun _ => ⟨false, .closed, noFlow⟩
    ifFlowLkup := fun _ => ⟨false, .sta, fun _ => []⟩
    peerTbl := [] }

/-! ### Finding a ring -/

/-- `dhd_flow_rings_ifindex2role` -/
def ifindex2role (d : Dhd) (ifindex : Nat) : Role := (d.ifFlowLkup ifindex).role

/-- `is_tdls_destination` -/
def isTdlsDestination (d : Dhd) (da : EtherAddr) : Bool :=
  !etherIsMulti da && d.peerTbl.any fun addr => decide (da = addr)

/-- The chain the flow belongs to. For a station the priority alone picks it, except for a direct
link to a peer. -/
def hashOf (d : Dhd) (ifindex : Nat) (prio : UInt8) (da : EtherAddr) : Fin 256 :=
  if (d.ifindex2role ifindex).genericSta then
    if d.isTdlsDestination da then hashIndex da prio else prio.toFin
  else if etherIsMulti da then 0
  else hashIndex da prio

/-- The entry is one of the flow. A station has one ring for each priority, an access point one for
each receiver and priority and one for all multicasts. -/
def isEntryOf (d : Dhd) (ifindex : Nat) (prio : UInt8) (da : EtherAddr) (cur : FlowHashInfo) :
    Bool :=
  if (d.ifindex2role ifindex).genericSta then
    if d.isTdlsDestination da then decide (cur.flowInfo.da = da) else true
  else
    etherIsMulti da && etherIsMulti cur.flowInfo.da ||
      decide (cur.flowInfo.da = da) && decide (cur.flowInfo.tid = prio)

/-- `dhd_flowid_find`: the first entry of the chain that fits, or an invalid id. -/
def flowidFind (d : Dhd) (ifindex : Nat) (prio : UInt8) (da : EtherAddr) : Nat :=
  if ifindex ≥ dhdMaxIfs then id16Invalid
  else
    match ((d.ifFlowLkup ifindex).flHash (d.hashOf ifindex prio da)).find?
        (d.isEntryOf ifindex prio da) with
    | some cur => cur.flowid
    | none => id16Invalid

/-! ### Making a ring -/

/-- What the rest of the driver says while a ring is made. It may answer differently every time. -/
structure Surroundings where
  /-- The receiver is a station on a wide channel. -/
  wide : Bool
  /-- `dhd_sta_associated` -/
  staAssociated : Bool
  /-- There is memory for an entry. -/
  memory : Bool
  /-- `dhd_bus_flow_ring_create_request` sends its message. -/
  created : Bool

def setLkup (d : Dhd) (ifindex : Nat) (lkup : IfFlowLkup) : Dhd :=
  { d with ifFlowLkup := Function.update d.ifFlowLkup ifindex lkup }

def setChain (d : Dhd) (ifindex : Nat) (hash : Fin 256) (chain : List FlowHashInfo) : Dhd :=
  let lkup := d.ifFlowLkup ifindex
  d.setLkup ifindex { lkup with flHash := Function.update lkup.flHash hash chain }

def setNode (d : Dhd) (flowid : Nat) (node : FlowRingNode) : Dhd :=
  { d with flowRingTable := Function.update d.flowRingTable flowid node }

/-- `dhd_is_sta_htput`; only an access point knows the channels of its stations. -/
def isStaHtput (d : Dhd) (ifindex : Nat) (env : Surroundings) : Bool :=
  if d.ifindex2role ifindex ≠ .ap then true else env.wide

/-- An id from the allocator for a high throughput, for flows that may have one. -/
def htputAlloc (d : Dhd) (ifindex : Nat) (prio : UInt8) (da : EtherAddr) (env : Surroundings) :
    Dhd × Nat :=
  match d.htputFlowidAllocator with
  | none => (d, id16Invalid)
  | some htput =>
      let (htput, flowid) := htput.alloc
      let taken := { d with htputFlowidAllocator := some htput }
      if prio ≠ htputFlowRingPrio then (d, id16Invalid)
      else if (d.ifindex2role ifindex).genericSta then (taken, flowid)
      else if (d.ifindex2role ifindex).multiClient && !etherIsMulti da && d.isStaHtput ifindex env then
        if d.htputClientFlowRings < htputNumClientFlowRings then
          if flowid ≠ id16Invalid then
            ({ taken with htputClientFlowRings := d.htputClientFlowRings + 1 }, flowid)
          else (taken, flowid)
        else (d, id16Invalid)
      else (d, id16Invalid)

/-- An id from the allocator for all flows. -/
def normalAlloc (d : Dhd) : Dhd × Nat :=
  let (allocator, flowid) := d.flowidAllocator.alloc
  ({ d with flowidAllocator := allocator }, flowid)

/-- `dhd_flowid_map_alloc`: from the allocator for a high throughput if the flow may have such a
ring and there is one, and else from the other one. -/
def flowidMapAlloc (d : Dhd) (ifindex : Nat) (prio : UInt8) (da : EtherAddr) (env : Surroundings) :
    Dhd × Nat :=
  if d.ifindex2role ifindex = .p2pClient ∨ d.ifindex2role ifindex = .p2pGo then d.normalAlloc
  else
    let (d, flowid) := d.htputAlloc ifindex prio da env
    if flowid = id16Invalid then d.normalAlloc else (d, flowid)

/-- The second half of `dhd_flowid_alloc`: the entry of a station takes the whole chain, others
go to its end. -/
def enterFlow (d : Dhd) (ifindex : Nat) (prio : UInt8) (da : EtherAddr) (flowid : Nat) : Dhd :=
  let flHashNode : FlowHashInfo := ⟨flowid, ⟨prio, ifindex, fun _ => 0, da⟩⟩
  let hash := d.hashOf ifindex prio da
  if (d.ifindex2role ifindex).genericSta && !d.isTdlsDestination da then
    d.setChain ifindex hash [flHashNode]
  else d.setChain ifindex hash ((d.ifFlowLkup ifindex).flHash hash ++ [flHashNode])

/-- `dhd_flowid_alloc`: an id, and an entry for it in the hash table. If the id is out of range the
entry stays. -/
def flowidAlloc (d : Dhd) (ifindex : Nat) (prio : UInt8) (da : EtherAddr) (env : Surroundings) :
    Dhd × Nat :=
  if !env.memory then (d, id16Invalid)
  else
    let (d, flowid) := d.flowidMapAlloc ifindex prio da env
    if flowid = id16Invalid then (d, id16Invalid)
    else
      let d := d.enterFlow ifindex prio da flowid
      if flowid > d.maxTxFlowid then (d, id16Invalid) else (d, flowid)

/-- `BCME_…` -/
inductive Bcme where
  | error
  | badarg
deriving DecidableEq

/-- The branch of `dhd_flowid_lookup` for a flow that has no ring: several reasons to refuse one,
then an id, a node and a request to the dongle. -/
def makeFlow (d : Dhd) (ifindex : Nat) (prio : UInt8) (sa da : EtherAddr) (env : Surroundings) :
    Dhd × Except Bcme Nat :=
  let ifRoleMultiClient := (d.ifindex2role ifindex).multiClient
  if !(d.ifFlowLkup ifindex).status then (d, .error .error)
  else if ifRoleMultiClient && d.multiClientFlowRings ≥ d.maxMultiClientFlowRings then
    (d, .error .error)
  else if ifRoleMultiClient && !etherIsMulti da && !env.staAssociated then (d, .error .error)
  else
    let (d, id) := d.flowidAlloc ifindex prio da env
    if id = id16Invalid then (d, .error .error)
    else
      let count := d.multiClientFlowRings
      let d := { d with multiClientFlowRings := if ifRoleMultiClient then count + 1 else count }
      let node : FlowRingNode := ⟨true, .createPending, ⟨prio, ifindex, sa, da⟩⟩
      if env.created then (d.setNode id node, .ok id)
      else (d.setNode id { node with active := false, status := .closed }, .error .error)

/-- `dhd_flowid_lookup`: the ring of a flow, which is made if there is none. A ring that is being
taken down is no ring to send on. -/
def flowidLookup (d : Dhd) (ifindex : Nat) (prio : UInt8) (sa da : EtherAddr) (env : Surroundings) :
    Dhd × Except Bcme Nat :=
  if ifindex ≥ dhdMaxIfs then (d, .error .badarg)
  else
    let id := d.flowidFind ifindex prio da
    if id = id16Invalid ∨ id > d.maxTxFlowid then d.makeFlow ifindex prio sa da env
    else
      match (d.flowRingTable id).status with
      | .deletePending | .closed => (d, .error .error)
      | _ => (d, .ok id)

/-! ### Giving a ring back -/

/-- `DHD_IS_FLOWID_HTPUT`, if there is an allocator for a high throughput -/
def isFlowidHtput (d : Dhd) (flowid : Nat) : Bool :=
  d.htputFlowRingStart ≤ flowid && flowid < d.htputFlowRingStart + htputTotalFlowRings

/-- `dhd_flowid_map_free`; the counter has 16 bits. -/
def flowidMapFree (d : Dhd) (ifindex flowid : Nat) : Dhd :=
  match d.htputFlowidAllocator with
  | none => { d with flowidAllocator := d.flowidAllocator.free flowid }
  | some htput =>
      if d.isFlowidHtput flowid then
        let d := { d with htputFlowidAllocator := some (htput.free flowid) }
        if (d.ifindex2role ifindex).multiClient then
          { d with htputClientFlowRings := (d.htputClientFlowRings + 0x10000 - 1) % 0x10000 }
        else d
      else { d with flowidAllocator := d.flowidAllocator.free flowid }

/-- `dhd_flowid_free`: the entry with this id goes, wherever it is in the table of the interface,
and the id goes back to its stack. -/
def flowidFree (d : Dhd) (ifindex flowid : Nat) : Dhd :=
  if ifindex ≥ dhdMaxIfs then d
  else
    let chain hashix := (d.ifFlowLkup ifindex).flHash hashix
    match (List.finRange 256).find? fun hashix => (chain hashix).any (·.flowid == flowid) with
    | none => d
    | some hashix =>
        let count := d.multiClientFlowRings
        let rest := if (d.ifindex2role ifindex).multiClient then count - 1 else count
        let d := d.setChain ifindex hashix ((chain hashix).eraseP (·.flowid == flowid))
        { d with multiClientFlowRings := rest }.flowidMapFree ifindex flowid

/-- `dhd_bus_clean_flow_ring`. The node's queue and `dhd_prot_flowrings_pool_release` are left
out: the latter resets the indices of the node's message ring, and for the ids of the common
rings, 0 and 1, it writes before the pool. -/
def cleanFlowRing (d : Dhd) (flowid : Nat) : Dhd :=
  let node := d.flowRingTable flowid
  (d.setNode flowid { node with status := .closed, active := false }).flowidFree
    node.flowInfo.ifindex flowid

/-! ### What the dongle says, and what is asked of it -/

def setStatus (d : Dhd) (flowid : Nat) (status : Status) : Dhd :=
  d.setNode flowid { d.flowRingTable flowid with status := status }

/-- `dhd_bus_flow_ring_create_response`: the ring is open, or it is cleaned away. -/
def flowRingCreateResponse (d : Dhd) (flowid : Nat) (ok : Bool) : Dhd :=
  if flowid > d.maxTxFlowid then d
  else if ok then d.setStatus flowid .opened
  else d.cleanFlowRing flowid

/-- `dhd_bus_flow_ring_delete_response`: the ring is gone. If the dongle says that it failed, the
ring stays as it is for good. -/
def flowRingDeleteResponse (d : Dhd) (flowid : Nat) (ok : Bool) : Dhd :=
  if flowid > d.maxTxFlowid then d
  else if ok then d.cleanFlowRing flowid
  else d

/-- `dhd_bus_flow_ring_flush_response`: the ring can be used again, whatever its status was. -/
def flowRingFlushResponse (d : Dhd) (flowid : Nat) (ok : Bool) : Dhd :=
  if !ok then d
  else if flowid > d.maxTxFlowid then d
  else d.setStatus flowid .opened

/-- The rings that `which` picks get the status. -/
def setStatuses (d : Dhd) (which : FlowRingNode → Bool) (status : Status) : Dhd :=
  { d with
    flowRingTable := fun id =>
      let node := d.flowRingTable id
      if id < d.numH2dRings ∧ which node then { node with status := status } else node }

/-- An open ring of the interface. -/
def isOpenOn (ifindex : Nat) (node : FlowRingNode) : Bool :=
  node.active && node.flowInfo.ifindex == ifindex && node.status = .opened

/-- `dhd_flow_rings_delete`, with `dhd_bus_flow_ring_delete_request` for each ring that is open.
Only the answer of the dongle frees the id. -/
def flowRingsDelete (d : Dhd) (ifindex : Nat) : Dhd :=
  if ifindex ≥ dhdMaxIfs then d else d.setStatuses (isOpenOn ifindex) .deletePending

/-- `dhd_flow_rings_delete_for_peer` -/
def flowRingsDeleteForPeer (d : Dhd) (ifindex : Nat) (addr : EtherAddr) : Dhd :=
  if ifindex ≥ dhdMaxIfs then d
  else
    d.setStatuses
      (fun node => node.active && node.flowInfo.ifindex == ifindex &&
        decide (node.flowInfo.da = addr) &&
        (node.status = .opened || node.status = .createPending))
      .deletePending

/-- `dhd_flow_rings_flush`, with `dhd_bus_flow_ring_flush_request` for each ring -/
def flowRingsFlush (d : Dhd) (ifindex : Nat) : Dhd :=
  if ifindex ≥ dhdMaxIfs then d else d.setStatuses (isOpenOn ifindex) .flushPending

/-- `WLC_E_IF_…` -/
inductive IfOp where
  | add
  | del
  | change
  | other
deriving DecidableEq

/-- The event announces a role; with any other one the role goes for nothing. -/
def IfOp.Announces (op : IfOp) : Prop := op = .add ∨ op = .change

instance (op : IfOp) : Decidable op.Announces := inferInstanceAs (Decidable (_ ∨ _))

/-- `dhd_update_multicilent_flow_rings`: every open ring of the interface is counted in or out, up
to the most there may be, and not below zero. -/
def updateMulticilentFlowRings (d : Dhd) (ifindex : Nat) (increment : Bool) : Dhd :=
  if ifindex ≥ dhdMaxIfs then d
  else
    let count (n : Nat) (id : Nat) : Nat :=
      if isOpenOn ifindex (d.flowRingTable id) then
        if increment then if n < d.maxMultiClientFlowRings then n + 1 else n else n - 1
      else n
    { d with multiClientFlowRings := (List.range d.numH2dRings).foldl count d.multiClientFlowRings }

/-- `dhd_update_interface_flow_info`: a role is taken over when it is announced. The rings are
counted anew on a change only. -/
def updateInterfaceFlowInfo (d : Dhd) (ifindex : Nat) (op : IfOp) (role : Role) : Dhd :=
  if ifindex ≥ dhdMaxIfs then d
  else if op = .add ∨ op = .change then
    let d := d.setLkup ifindex { d.ifFlowLkup ifindex with role := role }
    let d := if op = .change then d.updateMulticilentFlowRings ifindex role.multiClient else d
    if role = .wds then d.setLkup ifindex { d.ifFlowLkup ifindex with status := true } else d
  else if op = .del ∧ role = .wds then
    d.setLkup ifindex { d.ifFlowLkup ifindex with status := false }
  else d

/-- `dhd_update_interface_link_status` -/
def updateInterfaceLinkStatus (d : Dhd) (ifindex : Nat) (status : Bool) : Dhd :=
  if ifindex ≥ dhdMaxIfs then d
  else d.setLkup ifindex { d.ifFlowLkup ifindex with status := status }

end Dhd

end Hub11.Drivers.Flow
