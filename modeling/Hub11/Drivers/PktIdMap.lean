import Hub11.Data.FreeStack
import Mathlib.Order.Interval.Finset.Nat

/-!
The packet ids of the bcmdhd driver.

The host hands the dongle 32 bit ids in place of packets. `dhd_pktid_map` keeps for each id
a locker with what is needed when the id comes back, and a stack of the ids that are free.
The dongle returns any id at any time: an id that is not out, or of another kind of packet,
must not get at a locker.

What the callers know is a ledger: the ids they were given, with what they had stored. All
that the map answers is what the ledger says.
-/

namespace Hub11.Drivers.PktId

open Hub11.Data

/-- `dhd_locker_state_t`: on the stack, with a packet in it, or reserved for one that is saved
later. -/
inductive LockerState where
  | free
  | busy
  | rsvd
deriving DecidableEq

/-- `dhd_pkttype_t`, the kinds of packets. With `noCheck` an id is taken back whatever it stands
for. -/
inductive PktType where
  | dataTx
  | dataRx
  | ioctlRx
  | eventRx
  | infoRx
  | noCheck
  | tsbufRx
deriving DecidableEq

/-- What is stored with a packet: its kind, and what is needed to unmap it. -/
structure Params where
  pkttype : PktType
  dir : Nat
  len : Nat
  pa : Nat
  dmah : Nat
  secdma : Nat
deriving DecidableEq

/-- `dhd_pktid_item_t`. A locker keeps its parameters when it is freed, the length apart. -/
structure Item (π : Type) where
  state : LockerState
  pkt : Option π
  params : Params
deriving DecidableEq

/-- A locker of zeros. -/
def Item.zero {π : Type} : Item π where
  state := .free
  pkt := none
  params := ⟨.dataTx, 0, 0, 0, 0, 0⟩

/-- `dhd_pktid_map_t`, with an array of ids that are free below `avail` and one locker for each
id. -/
structure PktIdMap (π : Type) where
  items : Nat
  avail : Nat
  failures : Nat
  keys : Nat → Nat
  lockers : Nat → Item π

variable {π : Type}

namespace PktIdMap

/-- `dhd_pktid_map_init`; locker 0 is never given out. -/
def init (numItems : Nat) : PktIdMap π where
  items := numItems
  avail := numItems
  failures := 0
  keys := id
  lockers nkey := if nkey = 0 then { Item.zero with state := .busy } else Item.zero

/-- The key that goes with no id. -/
def invalid : Nat := 0

def failed (m : PktIdMap π) : PktIdMap π := { m with failures := m.failures + 1 }

/-- `dhd_pktid_map_reserve`; `avail` is compared as a signed number. The type of the packet is
printed if no key can be given out, and not stored. -/
def reserve (m : PktIdMap π) (pkt : π) (_pkttype : PktType) : PktIdMap π × Nat :=
  if m.avail = 0 ∨ m.avail ≥ 2 ^ 31 then (m.failed, invalid)
  else
    let nkey := m.keys m.avail
    if m.avail > m.items ∨ nkey > m.items then (m.failed, invalid)
    else
      let locker := m.lockers nkey
      let locker := { locker with
        state := .busy, pkt := some pkt, params := { locker.params with len := 0 } }
      ({ m with avail := m.avail - 1, lockers := Function.update m.lockers nkey locker }, nkey)

/-- `dhd_pktid_map_save`; the length is cut down to 16 bits. -/
def save (m : PktIdMap π) (nkey : Nat) (pkt : π) (ps : Params) : PktIdMap π :=
  if nkey = invalid ∨ nkey > m.items then m
  else
    let locker := ⟨.busy, some pkt, { ps with len := ps.len % 2 ^ 16 }⟩
    { m with lockers := Function.update m.lockers nkey locker }

/-- `dhd_pktid_map_alloc`: an id is reserved, and the packet saved with it at once. -/
def alloc (m : PktIdMap π) (pkt : π) (ps : Params) : PktIdMap π × Nat :=
  let (m, nkey) := m.reserve pkt ps.pkttype
  if nkey ≠ invalid then (m.save nkey pkt ps, nkey) else (m, nkey)

/-- `dhd_pktid_map_free`; the second part is what the caller gets, nothing on an error. With
`rsvLocker` the id stays with the caller for another packet. -/
def free (m : PktIdMap π) (nkey : Nat) (pkttype : PktType) (rsvLocker : Bool) :
    PktIdMap π × Option (Option π × Params) :=
  if nkey = invalid ∨ nkey > m.items then (m, none)
  else
    let locker := m.lockers nkey
    if locker.state = .free then (m, none)
    else if pkttype ≠ .noCheck ∧ locker.params.pkttype ≠ pkttype then (m, none)
    else
      let emptied := { locker with pkt := none, params := { locker.params with len := 0 } }
      if rsvLocker then
        let emptied := { emptied with state := .rsvd }
        ({ m with lockers := Function.update m.lockers nkey emptied },
          some (locker.pkt, locker.params))
      else
        let emptied := { emptied with state := .free }
        ({ m with
            avail := m.avail + 1
            keys := Function.update m.keys (m.avail + 1) nkey
            lockers := Function.update m.lockers nkey emptied },
          some (locker.pkt, locker.params))

/-- `dhd_pktid_map_reset`: every id is free again, in order, whatever is still out. -/
def reset (m : PktIdMap π) : PktIdMap π :=
  { m with
    avail := m.items
    keys := fun nkey => if 1 ≤ nkey ∧ nkey ≤ m.items then nkey else m.keys nkey
    lockers := fun nkey => if 1 ≤ nkey ∧ nkey ≤ m.items then Item.zero else m.lockers nkey }

end PktIdMap

/-! ### The ledger of the callers -/

/-- A call to the map. The driver makes them under a lock, one after the other. -/
inductive Op (π : Type) where
  | reserve (pkt : π) (pkttype : PktType)
  | save (nkey : Nat) (pkt : π) (ps : Params)
  | alloc (pkt : π) (ps : Params)
  | free (nkey : Nat) (pkttype : PktType) (rsvLocker : Bool)
  | reset

/-- What it returns. -/
inductive Reply (π : Type) where
  | key (nkey : Nat)
  | done
  | contents (c : Option (Option π × Params))

def PktIdMap.step (m : PktIdMap π) : Op π → PktIdMap π × Reply π
  | .reserve pkt pkttype => let (m, nkey) := m.reserve pkt pkttype; (m, .key nkey)
  | .save nkey pkt ps => (m.save nkey pkt ps, .done)
  | .alloc pkt ps => let (m, nkey) := m.alloc pkt ps; (m, .key nkey)
  | .free nkey pkttype rsvLocker =>
      let (m, c) := m.free nkey pkttype rsvLocker
      (m, .contents c)
  | .reset => (m.reset, .done)

/-- An id that is out: its packet, and what was stored with it if anything was. A reserved id has a
packet and no parameters. -/
structure Entry (π : Type) where
  pkt : Option π
  params : Option Params

/-- The ids that are out, as their owners know them. It is built from calls and replies alone and
knows nothing of lockers and stacks. -/
abbrev Ledger (π : Type) : Type := Nat → Option (Entry π)

namespace Ledger

def empty : Ledger π := fun _ => none

def put (L : Ledger π) (nkey : Nat) (e : Option (Entry π)) : Ledger π := Function.update L nkey e

@[simp] theorem put_self (L : Ledger π) (nkey : Nat) (e : Option (Entry π)) :
    L.put nkey e nkey = e := by simp [put]

theorem put_of_ne (L : Ledger π) {k nkey : Nat} (h : k ≠ nkey) (e : Option (Entry π)) :
    L.put nkey e k = L k := by simp [put, h]

theorem put_put (L : Ledger π) (nkey : Nat) (e e' : Option (Entry π)) :
    (L.put nkey e).put nkey e' = L.put nkey e' := by simp [put]

/-- What a call and its reply change. An id comes in when it is handed out, and goes when the dongle
has returned it. -/
def record (L : Ledger π) : Op π → Reply π → Ledger π
  | .reserve pkt _, .key nkey => if nkey = 0 then L else L.put nkey (some ⟨some pkt, none⟩)
  | .save nkey pkt ps, _ => L.put nkey (some ⟨some pkt, some ps⟩)
  | .alloc pkt ps, .key nkey => if nkey = 0 then L else L.put nkey (some ⟨some pkt, some ps⟩)
  | .free nkey _ rsvLocker, .contents (some _) =>
      L.put nkey (if rsvLocker then some ⟨none, none⟩ else none)
  | .reset, _ => empty
  | _, _ => L

/-- The caller stores something only with an id that is out at that moment. All other calls are
allowed at any time, with any id. -/
def Allows (L : Ledger π) : Op π → Prop
  | .save nkey _ _ => L nkey ≠ none
  | _ => True

/-- A key is given out if there is one, and it is not out already. No key is given out only if all
are out. -/
def GivesKey (L : Ledger π) (items nkey : Nat) : Prop :=
  if nkey = 0 then ∀ k, 1 ≤ k → k ≤ items → L k ≠ none
  else nkey ≤ items ∧ L nkey = none

/-- What the map must answer. Where nothing has been stored with an id since it was given
out, only its packet is sure. -/
def Answers (L : Ledger π) (items : Nat) : Op π → Reply π → Prop
  | .reserve _ _, .key nkey => L.GivesKey items nkey
  | .alloc _ _, .key nkey => L.GivesKey items nkey
  | .free nkey pkttype _, .contents none =>
      ∀ e, L nkey = some e → pkttype ≠ .noCheck ∧ ∀ ps, e.params = some ps → ps.pkttype ≠ pkttype
  | .free nkey pkttype _, .contents (some c) =>
      ∃ e, L nkey = some e ∧ c.1 = e.pkt ∧ ∀ ps, e.params = some ps →
        c.2 = { ps with len := ps.len % 2 ^ 16 } ∧ (pkttype = .noCheck ∨ ps.pkttype = pkttype)
  | .save _ _ _, .done => True
  | .reset, .done => True
  | _, _ => False

end Ledger

/-- Every call is one the ledger allows. -/
def Lawful (m : PktIdMap π) (L : Ledger π) : List (Op π) → Prop
  | [] => True
  | op :: ops => L.Allows op ∧ Lawful (m.step op).1 (L.record op (m.step op).2) ops

/-- Every reply of a sequence of calls is what the ledger says at that time. -/
def AllRight (m : PktIdMap π) (L : Ledger π) : List (Op π) → Prop
  | [] => True
  | op :: ops => L.Answers m.items op (m.step op).2 ∧
      AllRight (m.step op).1 (L.record op (m.step op).2) ops

/-! ### The map keeps the ledger -/

/-- The keys from 1 to `avail`. -/
def PktIdMap.stack (m : PktIdMap π) : FreeStack Nat := ⟨m.avail, fun i => m.keys (i + 1)⟩

/-- A locker holds what the ledger says of its id. -/
structure Item.Holds (it : Item π) (e : Entry π) : Prop where
  taken : it.state ≠ .free
  pkt : it.pkt = e.pkt
  params : ∀ ps, e.params = some ps → it.params = { ps with len := ps.len % 2 ^ 16 }

/-- The free ids are on the stack, and the lockers of the others hold what the ledger says. This is
the invariant of every lawful sequence of calls. -/
structure Keeps (m : PktIdMap π) (L : Ledger π) : Prop where
  deals : m.stack.Deals (Set.Icc 1 m.items) {k | L k ≠ none}
  range : ∀ k, L k ≠ none → k ∈ Set.Icc 1 m.items
  holds : ∀ k e, L k = some e → (m.lockers k).Holds e
  open_ : ∀ k ∈ Set.Icc 1 m.items, L k = none → (m.lockers k).state = .free

section Steps

variable {m : PktIdMap π} {L : Ledger π}

theorem Ledger.put_ne_none (L : Ledger π) (nkey : Nat) (e : Entry π) :
    {k | L.put nkey (some e) k ≠ none} = insert nkey {k | L k ≠ none} := by
  ext k
  by_cases hk : k = nkey
  · subst hk
    simp
  · simp [Ledger.put_of_ne _ hk, hk]

theorem Ledger.drop_ne_none (L : Ledger π) (nkey : Nat) :
    {k | L.put nkey none k ≠ none} = {k | L k ≠ none} \ {nkey} := by
  ext k
  by_cases hk : k = nkey
  · subst hk
    simp
  · simp [Ledger.put_of_ne _ hk, hk]

theorem Keeps.failed (h : Keeps m L) : Keeps m.failed L := ⟨h.deals, h.range, h.holds, h.open_⟩

theorem PktIdMap.items_save (m : PktIdMap π) (nkey : Nat) (pkt : π) (ps : Params) :
    (m.save nkey pkt ps).items = m.items := by
  unfold PktIdMap.save
  split
  · rfl
  · rfl

/-- One locker and its entry change, and the stack goes with it. -/
theorem Keeps.update (h : Keeps m L) {m' : PktIdMap π} {nkey : Nat} {it : Item π}
    {e : Option (Entry π)} (hitems : m'.items = m.items) (hkey : nkey ∈ Set.Icc 1 m.items)
    (hlockers : m'.lockers = Function.update m.lockers nkey it) (hit : ∀ e', e = some e' → it.Holds e')
    (hfree : e = none → it.state = .free)
    (hdeals : m'.stack.Deals (Set.Icc 1 m.items) {k | L.put nkey e k ≠ none}) :
    Keeps m' (L.put nkey e) := by
  refine ⟨hitems ▸ hdeals, fun k hk => ?_, fun k e' hk => ?_, fun k hk hnone => ?_⟩
  · rw [hitems]
    by_cases hsame : k = nkey
    · exact hsame ▸ hkey
    · rw [L.put_of_ne hsame] at hk
      exact h.range k hk
  · rw [hlockers]
    by_cases hsame : k = nkey
    · subst hsame
      rw [L.put_self] at hk
      rw [Function.update_self]
      exact hit e' hk
    · rw [L.put_of_ne hsame] at hk
      rw [Function.update_of_ne hsame]
      exact h.holds k e' hk
  · rw [hlockers]
    by_cases hsame : k = nkey
    · subst hsame
      rw [L.put_self] at hnone
      rw [Function.update_self]
      exact hfree hnone
    · rw [L.put_of_ne hsame] at hnone
      rw [Function.update_of_ne hsame]
      exact h.open_ k (hitems ▸ hk) hnone

/-- The map is in order when it is made. -/
theorem init_keeps (numItems : Nat) : Keeps (PktIdMap.init numItems : PktIdMap π) Ledger.empty := by
  have hfree : (PktIdMap.init numItems : PktIdMap π).stack.free = List.range' 1 numItems := by
    rw [List.range'_eq_map_range]
    apply List.map_congr_left
    intro i _
    exact Nat.add_comm i 1
  refine ⟨⟨hfree ▸ List.nodup_range', fun k => ?_⟩, fun k hk => absurd rfl hk, fun k e hk => ?_,
    fun k hk _ => ?_⟩
  · rw [hfree, List.mem_range'_1]
    change 1 ≤ k ∧ k < 1 + numItems ↔ (1 ≤ k ∧ k ≤ numItems) ∧ ¬ (none : Option (Entry π)) ≠ none
    simp only [ne_eq, not_true_eq_false, not_false_eq_true, and_true]
    omega
  · cases hk
  · have hpos := hk.1
    simp [PktIdMap.init, show k ≠ 0 by omega, Item.zero]

theorem Keeps.avail_le (h : Keeps m L) : m.avail ≤ m.items := by
  have hle := h.deals.top_le (F := Finset.Icc 1 m.items) fun x hx => by simpa using hx
  simpa [PktIdMap.stack] using hle

/-- `dhd_pktid_map_reserve` gives out the key on top of the stack. -/
theorem Keeps.reserve (h : Keeps m L) (hitems : m.items < 2 ^ 31) (pkt : π) (pkttype : PktType) :
    (m.reserve pkt pkttype = (m.failed, 0) ∧ ∀ k ∈ Set.Icc 1 m.items, L k ≠ none) ∨
    ∃ m' k, m.reserve pkt pkttype = (m', k) ∧ k ∈ Set.Icc 1 m.items ∧ L k = none ∧ m'.items = m.items ∧
      Keeps m' (L.put k (some ⟨some pkt, none⟩)) := by
  have havail := h.avail_le
  unfold PktIdMap.reserve
  by_cases hnone : m.avail = 0
  · rw [if_pos (.inl hnone)]
    exact .inl ⟨rfl, h.deals.top_eq_zero_iff.mp hnone⟩
  · have htop : 0 < m.stack.top := Nat.pos_of_ne_zero hnone
    have hnext : m.stack.next = m.keys m.avail := by
      have hpred : m.avail - 1 + 1 = m.avail := by omega
      exact congrArg m.keys hpred
    have hkey := h.deals.next_mem htop
    have hpop := h.deals.pop htop
    rw [hnext] at hkey hpop
    obtain ⟨hrange, hout⟩ := hkey
    rw [if_neg (by omega), if_neg (by have := hrange.2; omega)]
    refine .inr ⟨_, _, rfl, hrange, by simpa using hout, rfl, ?_⟩
    refine h.update ?_ hrange rfl ?_ (fun hnone => by cases hnone) ?_
    · rfl
    · rintro e ⟨⟩
      exact ⟨by simp, rfl, fun ps hps => by cases hps⟩
    · rw [Ledger.put_ne_none]
      exact hpop

/-- `dhd_pktid_map_save` with an id that is out. -/
theorem Keeps.save (h : Keeps m L) {nkey : Nat} (hout : L nkey ≠ none) (pkt : π) (ps : Params) :
    Keeps (m.save nkey pkt ps) (L.put nkey (some ⟨some pkt, some ps⟩)) := by
  have hrange := h.range nkey hout
  have hpos : 1 ≤ nkey := hrange.1
  have hle : nkey ≤ m.items := hrange.2
  unfold PktIdMap.save
  rw [if_neg (by unfold PktIdMap.invalid; omega)]
  refine h.update ?_ hrange rfl ?_ (fun hnone => by cases hnone) ?_
  · rfl
  · rintro e ⟨⟩
    refine ⟨by simp, rfl, fun ps' hps => ?_⟩
    cases hps
    rfl
  · rw [Ledger.put_ne_none, Set.insert_eq_of_mem hout]
    exact h.deals

/-- `dhd_pktid_map_free` with any id: it fails and changes nothing, or the id was out. -/
theorem Keeps.free (h : Keeps m L) (nkey : Nat) (pkttype : PktType) (rsvLocker : Bool) :
    (m.free nkey pkttype rsvLocker = (m, none) ∧ L.Answers m.items
      (.free nkey pkttype rsvLocker) (.contents none)) ∨
    ∃ m' c, m.free nkey pkttype rsvLocker = (m', some c) ∧ m'.items = m.items ∧
      L.Answers m.items (.free nkey pkttype rsvLocker) (.contents (some c)) ∧
      Keeps m' (L.put nkey (if rsvLocker then some ⟨none, none⟩ else none)) := by
  unfold PktIdMap.free
  by_cases hkey : nkey = PktIdMap.invalid ∨ nkey > m.items
  · rw [if_pos hkey]
    refine .inl ⟨rfl, fun e he => ?_⟩
    obtain ⟨hpos, hle⟩ := h.range nkey (by simp [he])
    unfold PktIdMap.invalid at hkey
    omega
  rw [if_neg hkey]
  have hrange : nkey ∈ Set.Icc 1 m.items := by
    unfold PktIdMap.invalid at hkey
    constructor <;> omega
  cases he : L nkey with
  | none =>
      dsimp only
      rw [if_pos (h.open_ nkey hrange he)]
      exact .inl ⟨rfl, fun e he' => by rw [he] at he'; cases he'⟩
  | some e =>
      obtain ⟨htaken, hpkt, hparams⟩ := h.holds nkey e he
      dsimp only
      rw [if_neg htaken]
      by_cases htype : pkttype ≠ .noCheck ∧ (m.lockers nkey).params.pkttype ≠ pkttype
      · rw [if_pos htype]
        refine .inl ⟨rfl, fun e' he' => ?_⟩
        cases he.symm.trans he'
        refine ⟨htype.1, fun ps hps => ?_⟩
        have hother := htype.2
        rw [hparams ps hps] at hother
        exact hother
      · rw [if_neg htype]
        have hanswer : L.Answers m.items (.free nkey pkttype rsvLocker)
            (.contents (some ((m.lockers nkey).pkt, (m.lockers nkey).params))) := by
          refine ⟨e, he, hpkt, fun ps hps => ⟨hparams ps hps, ?_⟩⟩
          rw [hparams ps hps] at htype
          by_contra hno
          exact htype (not_or.mp hno)
        cases rsvLocker with
        | true =>
            refine .inr ⟨_, _, rfl, rfl, hanswer, ?_⟩
            rw [if_pos rfl]
            refine h.update ?_ hrange rfl ?_ (fun hnone => by cases hnone) ?_
            · rfl
            · rintro e' ⟨⟩
              exact ⟨by simp, rfl, fun ps hps => by cases hps⟩
            · rw [Ledger.put_ne_none, Set.insert_eq_of_mem (by simp [he])]
              exact h.deals
        | false =>
            refine .inr ⟨_, _, rfl, rfl, hanswer, ?_⟩
            rw [if_neg (by decide)]
            refine h.update ?_ hrange rfl (fun e' he' => by cases he') (fun _ => rfl) ?_
            · rfl
            · rw [Ledger.drop_ne_none]
              refine (h.deals.push hrange (by simp [he])).congr (FreeStack.free_congr rfl ?_)
              intro i _
              -- the id goes above the ones that are free
              by_cases hi : i = m.avail
              · subst hi
                simp [PktIdMap.stack, FreeStack.push]
              · simp [PktIdMap.stack, FreeStack.push, hi]

variable (m) in
/-- A reset brings it in order whatever is out. -/
theorem reset_keeps : Keeps m.reset Ledger.empty := by
  have hinit := init_keeps (π := π) m.items
  refine ⟨hinit.deals.congr (FreeStack.free_congr rfl ?_), fun k hk => absurd rfl hk,
    fun k e hk => ?_, fun k hk _ => ?_⟩
  · intro i hi
    have hrange : 1 ≤ i + 1 ∧ i + 1 ≤ m.items := ⟨Nat.le_add_left 1 i, hi⟩
    exact if_pos hrange
  · cases hk
  · have hrange : 1 ≤ k ∧ k ≤ m.items := hk
    have hzero : m.reset.lockers k = Item.zero := if_pos hrange
    rw [hzero]
    rfl

/-- Every call that the ledger allows keeps the map in order, and its reply is what the ledger
says. -/
theorem Keeps.step (h : Keeps m L) (hitems : m.items < 2 ^ 31) (op : Op π) (hop : L.Allows op) :
    L.Answers m.items op (m.step op).2 ∧ (m.step op).1.items = m.items ∧
      Keeps (m.step op).1 (L.record op (m.step op).2) := by
  cases op with
  | reserve pkt pkttype =>
      rcases h.reserve hitems pkt pkttype with ⟨heq, hall⟩ | ⟨m', k, heq, hrange, hnone, hsame, hkeeps⟩
      · have hstep : m.step (.reserve pkt pkttype) = (m.failed, .key 0) := by simp only [PktIdMap.step, heq]
        rw [hstep]
        exact ⟨fun k hpos hle => hall k ⟨hpos, hle⟩, rfl, h.failed⟩
      · have hstep : m.step (.reserve pkt pkttype) = (m', .key k) := by simp only [PktIdMap.step, heq]
        have hk : k ≠ 0 := Nat.ne_of_gt hrange.1
        rw [hstep]
        simp only [Ledger.Answers, Ledger.GivesKey, Ledger.record, if_neg hk]
        exact ⟨⟨hrange.2, hnone⟩, hsame, hkeeps⟩
  | save nkey pkt ps =>
      refine ⟨trivial, ?_, h.save hop pkt ps⟩
      exact PktIdMap.items_save m nkey pkt ps
  | alloc pkt ps =>
      rcases h.reserve hitems pkt ps.pkttype with ⟨heq, hall⟩ | ⟨m', k, heq, hrange, hnone, hsame, hkeeps⟩
      · have hstep : m.step (.alloc pkt ps) = (m.failed, .key 0) := by
          simp only [PktIdMap.step, PktIdMap.alloc, heq, PktIdMap.invalid, ne_eq,
            not_true_eq_false, if_false]
        rw [hstep]
        exact ⟨fun k hpos hle => hall k ⟨hpos, hle⟩, rfl, h.failed⟩
      · have hk : k ≠ 0 := Nat.ne_of_gt hrange.1
        have hstep : m.step (.alloc pkt ps) = (m'.save k pkt ps, .key k) := by
          simp only [PktIdMap.step, PktIdMap.alloc, heq, PktIdMap.invalid, if_pos hk]
        have hsaved := hkeeps.save (show L.put k (some ⟨some pkt, none⟩) k ≠ none by simp) pkt ps
        rw [Ledger.put_put] at hsaved
        rw [hstep]
        simp only [Ledger.Answers, Ledger.GivesKey, Ledger.record, if_neg hk]
        exact ⟨⟨hrange.2, hnone⟩, (PktIdMap.items_save m' k pkt ps).trans hsame, hsaved⟩
  | free nkey pkttype rsvLocker =>
      rcases h.free nkey pkttype rsvLocker with ⟨heq, hanswer⟩ | ⟨m', c, heq, hsame, hanswer, hkeeps⟩
      · have hstep : m.step (.free nkey pkttype rsvLocker) = (m, .contents none) := by
          simp only [PktIdMap.step, heq]
        rw [hstep]
        exact ⟨hanswer, rfl, h⟩
      · have hstep : m.step (.free nkey pkttype rsvLocker) = (m', .contents (some c)) := by
          simp only [PktIdMap.step, heq]
        rw [hstep]
        exact ⟨hanswer, hsame, hkeeps⟩
  | reset => exact ⟨trivial, rfl, reset_keeps m⟩

theorem Keeps.allRight (h : Keeps m L) (hitems : m.items < 2 ^ 31) {ops : List (Op π)}
    (hops : Lawful m L ops) : AllRight m L ops := by
  induction ops generalizing m L with
  | nil => trivial
  | cons op ops ih =>
      obtain ⟨hanswer, hsame, hkeeps⟩ := h.step hitems op hops.1
      exact ⟨hanswer, ih hkeeps (hsame ▸ hitems) hops.2⟩

end Steps

/-- For every sequence of calls in which something is stored only with an id that is out: a key
is refused just when all are out, none is given out twice, and a key brings back what was
stored with it and nothing else, whatever ids the dongle returns. Of the length the last 16
bits come back. -/
theorem pktid_map_follows_ledger (numItems : Nat) (hitems : numItems < 2 ^ 31) (ops : List (Op π))
    (hops : Lawful (PktIdMap.init numItems) Ledger.empty ops) :
    AllRight (PktIdMap.init numItems) Ledger.empty ops :=
  (init_keeps numItems).allRight hitems hops

/-- `dhd_prot_txdata` looks at nothing between the reservation and the save. An id that the
dongle returns between them is given out again although a packet is stored with it. -/
theorem reserve_of_returned {m : PktIdMap π} {L : Ledger π} (h : Keeps m L)
    (hitems : m.items < 2 ^ 31) (pkt pkt' : π) (ps : Params) (pkttype : PktType)
    (hleft : (m.reserve pkt ps.pkttype).2 ≠ 0) :
    let nkey := (m.reserve pkt ps.pkttype).2
    let returned := ((m.reserve pkt ps.pkttype).1.free nkey .noCheck false).1
    (returned.save nkey pkt ps).lockers nkey = ⟨.busy, some pkt, { ps with len := ps.len % 2 ^ 16 }⟩ ∧
      ((returned.save nkey pkt ps).reserve pkt' pkttype).2 = nkey := by
  have havail := h.avail_le
  have hpos : m.avail ≠ 0 := by
    rintro hnone
    exact hleft (by simp [PktIdMap.reserve, hnone, PktIdMap.invalid])
  have hnext : m.stack.next = m.keys m.avail :=
    congrArg m.keys (Nat.sub_add_cancel (Nat.pos_of_ne_zero hpos))
  have hkey := (h.deals.next_mem (Nat.pos_of_ne_zero hpos)).1
  rw [hnext] at hkey
  obtain ⟨hone, hle⟩ := hkey
  have hgiven : m.reserve pkt ps.pkttype = ({ m with
      avail := m.avail - 1
      lockers := Function.update m.lockers (m.keys m.avail) { m.lockers (m.keys m.avail) with
        state := .busy
        pkt := some pkt
        params := { (m.lockers (m.keys m.avail)).params with len := 0 } } },
      m.keys m.avail) := by
    unfold PktIdMap.reserve
    rw [if_neg (by omega), if_neg (by omega)]
  have hvalid : ¬ (m.keys m.avail = PktIdMap.invalid ∨ m.keys m.avail > m.items) := by
    unfold PktIdMap.invalid
    omega
  have hback : m.avail - 1 + 1 = m.avail := by omega
  have hroom : ¬ (m.avail = 0 ∨ m.avail ≥ 2 ^ 31) := by omega
  have hrange : ¬ (m.avail > m.items ∨ m.keys m.avail > m.items) := by omega
  rw [hgiven]
  simp only [PktIdMap.free, PktIdMap.save, PktIdMap.reserve, if_neg hvalid, Function.update_self,
    hback, if_neg hroom, if_neg hrange, reduceCtorEq, ne_eq, not_true_eq_false, false_and, if_false,
    Bool.false_eq_true, and_self]

section Sample

/-- Two packets and a key that is used twice; the dongle returns one key twice. -/
private def sampleOps : List (Op String) :=
  [.alloc "a" ⟨.dataTx, 0, 70000, 16, 0, 0⟩, .reserve "b" .dataRx, .alloc "c" ⟨.dataRx, 0, 1, 0, 0, 0⟩,
    .save 1 "b" ⟨.dataRx, 1, 64, 32, 0, 0⟩, .free 2 .dataTx false, .free 2 .dataTx false,
    .alloc "d" ⟨.infoRx, 0, 8, 0, 0, 0⟩, .free 2 .eventRx false, .free 1 .noCheck true]

theorem pktid_map_follows_ledger_sample : AllRight (PktIdMap.init 2) Ledger.empty sampleOps :=
  pktid_map_follows_ledger 2 (by decide) sampleOps
    ⟨trivial, trivial, trivial, Option.some_ne_none _, trivial, trivial, trivial, trivial, trivial, trivial⟩

end Sample

end Hub11.Drivers.PktId
