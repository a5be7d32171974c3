import Hub11.Data.Channel
import Mathlib.Logic.Relation

/-!
The message rings of the bcmdhd driver, between the host and the dongle.

A ring to the dongle (H2D) is written by the host: `dhd_prot_alloc_ring_space` sets items
apart, the caller fills them in and `dhd_prot_ring_write_complete` posts the new write index.
If the caller cannot fill all of them it takes the write index back. The dongle posts how far
it has read, and the host reads that index again only when it finds no room.

A ring from the dongle (D2H) is read by the host: `dhd_prot_get_read_addr` finds the items
that have been posted up to the end of the ring, and `dhd_prot_upd_read_idx` posts the new
read index when the loop over them is left.

The firmware of the dongle is not part of this repository. It is a party that reads and
writes items in their order, does not pass the index the host has posted, and posts its own
index at any time.
-/

namespace Hub11.Drivers.Msgbuf

open Hub11.Data

/-! ### Indices -/

/-- `READ_AVAIL_SPACE`: what can be read up to the end of the ring. -/
def readAvailSpace (w r d : Nat) : Nat := if w ≥ r then w - r else d - r

/-- `CHECK_WRITE_SPACE`: what can be written up to the end of the ring. One item stays free, and it
is found at the end of the ring only while the reader is at its beginning. -/
def checkWriteSpace (r w d : Nat) : Nat :=
  if r > w then r - w - 1
  else if r = 0 ∨ w = 0 then d - w - 1
  else d - w

/-- `NTXPACTIVE`: the items between the indices. -/
def ntxpactive (r w d : Nat) : Nat := if r ≤ w then w - r else d - r + w

/-- `WRITE_SPACE_AVAIL`: what can be written, whether or not it runs over the end. -/
def writeSpaceAvail (r w d : Nat) : Nat := d - ntxpactive r w d - 1

/-- The part of `msgbuf_ring_t` that the indices live in. Of the two indices the host moves one
itself and caches the other one. -/
structure Ring where
  rd : Nat
  wr : Nat
  maxItems : Nat
  currentPhase : Nat
deriving DecidableEq

/-- `BCMPCIE_CMNHDR_PHASE_BIT_INIT` -/
def phaseBitInit : Nat := 0x80

/-- `BCMPCIE_FLOWRING_PHASE_NIBBLE_INIT` and `_WRAP` -/
def phaseNibbleInit : Nat := 0xA0

def phaseNibbleWrap : Nat := 0x50

/-- The phase bit the other way, as the callers have it that give items back. It knows nothing of
the nibble. -/
def Ring.flip (ring : Ring) : Ring :=
  { ring with currentPhase := if ring.currentPhase ≠ 0 then 0 else phaseBitInit }

/-- The phase at the first item of the ring; `nibble` is set for a flow ring with
`fr_phase_nibble`. -/
def Ring.nextPhase (ring : Ring) (nibble : Bool) : Ring :=
  if nibble then
    { ring with currentPhase :=
        if ring.currentPhase = phaseNibbleInit then phaseNibbleWrap else phaseNibbleInit }
  else ring.flip

/-! ### The host writes -/

/-- The items that were set apart: the first one, and how many. -/
structure Space where
  start : Nat
  alloced : Nat
deriving DecidableEq

/-- `dhd_prot_get_ring_space`: no space crosses the end of the ring. If not all of the items fit in
front of it, fewer are set apart, and the caller has to ask again. -/
def dhdProtGetRingSpace (ring : Ring) (nitems : Nat) (exactlyNitems : Bool) : Ring × Option Space :=
  let avail := checkWriteSpace ring.rd ring.wr ring.maxItems
  if avail = 0 ∨ (exactlyNitems ∧ avail < nitems ∧ ring.maxItems - ring.wr ≥ nitems) then
    (ring, none)
  else
    let alloced := min nitems avail
    if ring.wr + alloced = ring.maxItems then
      ({ ring with wr := 0 }, some ⟨ring.wr, alloced⟩)
    else if ring.wr + alloced < ring.maxItems then
      ({ ring with wr := ring.wr + alloced }, some ⟨ring.wr, alloced⟩)
    else
      -- `ASSERT(0)`
      (ring, none)

/-- `dhd_prot_alloc_ring_space`; `rdIndx` is the read index that the dongle has posted. It is looked
at only if the cached one leaves no room, and the phase changes with the first item of the ring. -/
def dhdProtAllocRingSpace (ring : Ring) (rdIndx nitems : Nat) (exactlyNitems nibble : Bool) :
    Ring × Option Space :=
  if nitems = 0 then (ring, none)
  else
    let tried :=
      match dhdProtGetRingSpace ring nitems exactlyNitems with
      | (ring, some space) => (ring, some space)
      | (ring, none) => dhdProtGetRingSpace { ring with rd := rdIndx } nitems exactlyNitems
    match tried with
    | (ring, none) => (ring, none)
    | (ring, some space) => (if space.start = 0 then ring.nextPhase nibble else ring, some space)

/-- The callers that can come away with fewer items than they set apart:
`dhd_prot_rxbuf_post`, `dhd_prot_infobufpost`, `dhd_prot_txdata` and, on the control ring,
`dhd_prot_rxbufpost_ctrl`. -/
inductive Poster where
  | rxbuf
  | infobuf
  | txdata
  | rxbufCtrl
deriving DecidableEq

/-- Does the caller always ask for one item? Then what it gives back is the one that it was
given. -/
def Poster.single : Poster → Bool
  | .rxbuf | .infobuf => false
  | .txdata | .rxbufCtrl => true

/-- The write index `k` items back, as the callers have it that ask for many. The phase is not
touched here. -/
def Ring.back (ring : Ring) (k : Nat) : Ring :=
  { ring with wr := if ring.wr < k then ring.maxItems - k else ring.wr - k }

/-- The write index one item back, as the callers have it that ask for one item. -/
def Ring.backOne (ring : Ring) : Ring :=
  if ring.wr = 0 then { ring with wr := ring.maxItems - 1 }
  else
    let ring := { ring with wr := ring.wr - 1 }
    if ring.wr = 0 then ring.flip else ring

/-- The items that were not filled are given back; `i` of them were. No caller looks at the
phase nibble here, and the one for the information buffers keeps the phase if `i` is zero. -/
def rollback : Poster → Ring → (alloced i : Nat) → Ring
  | .rxbuf, ring, alloced, i =>
      let ring := ring.back (alloced - i)
      if ring.wr = 0 then ring.flip else ring
  | .infobuf, ring, alloced, i =>
      let ring := ring.back (alloced - i)
      if i ≠ 0 ∧ ring.wr = 0 then ring.flip else ring
  | .txdata, ring, _, _ => ring.backOne
  | .rxbufCtrl, ring, _, _ => ring.backOne

/-! ### The host reads -/

/-- `dhd_prot_get_read_addr`; `wrIndx` is the write index that the dongle has posted. The read index
moves on at once, before the caller has looked at any item. -/
def dhdProtGetReadAddr (ring : Ring) (wrIndx bound : Nat) : Ring × Option Space :=
  let ring := { ring with wr := wrIndx }
  let items := readAvailSpace ring.wr ring.rd ring.maxItems
  if items = 0 then (ring, none)
  else if items > ring.maxItems then (ring, none)
  else
    let items := if bound ≠ 0 then min items bound else items
    ({ ring with rd := if ring.rd + items ≥ ring.maxItems then 0 else ring.rd + items },
      some ⟨ring.rd, items⟩)

/-- The read index `k` items back, as `dhd_prot_process_msgbuf_rxcpl` puts it for the items
that it has found but not looked at. -/
def Ring.unread (ring : Ring) (k : Nat) : Ring :=
  { ring with rd := if ring.rd < k then ring.maxItems - k else ring.rd - k }

/-- The index after this one. -/
def following (i d : Nat) : Nat := if i + 1 = d then 0 else i + 1

/-! ### Indices and positions -/

section Positions

variable {cap a b : Nat}

/-- Where the index of a position that is less than a lap ahead is. -/
theorem mod_cases (hab : a ≤ b) (hb : b < a + cap) :
    b % cap = a % cap + (b - a) ∧ a % cap + (b - a) < cap ∨
      b % cap + cap = a % cap + (b - a) ∧ cap ≤ a % cap + (b - a) := by
  obtain ⟨u, rfl⟩ := Nat.exists_eq_add_of_le hab
  have hr : a % cap < cap := Nat.mod_lt _ (by omega)
  rw [Nat.add_mod, Nat.mod_eq_of_lt (show u < cap by omega), Nat.add_sub_cancel_left]
  rcases Nat.lt_or_ge (a % cap + u) cap with h | h
  · exact .inl ⟨Nat.mod_eq_of_lt h, h⟩
  · refine .inr ⟨?_, h⟩
    rw [Nat.mod_eq_sub_mod h, Nat.mod_eq_of_lt (by omega)]
    omega

theorem mod_add_stretch {k : Nat} (hk : b % cap + k ≤ cap) :
    (b + k) % cap = if b % cap + k = cap then 0 else b % cap + k := by
  rw [← Nat.mod_add_mod]
  split
  · rename_i h
    rw [h, Nat.mod_self]
  · exact Nat.mod_eq_of_lt (by omega)

/-- Some items back from the end of a stretch. -/
theorem back_mod {n i : Nat} (hend : b % cap + n ≤ cap) (hi : i < n) :
    (if (b + n) % cap < n - i then cap - (n - i) else (b + n) % cap - (n - i)) = (b + i) % cap := by
  rw [add_mod_of_stretch hend hi, mod_add_stretch hend]
  split_ifs <;> omega

/-- `CHECK_WRITE_SPACE` in positions of the channel: what is free, and no more than up to the end of
the ring. -/
theorem checkWriteSpace_eq (hab : a ≤ b) (hb : b < a + cap) :
    checkWriteSpace (a % cap) (b % cap) cap = min (a + cap - 1 - b) (cap - b % cap) := by
  have hr : a % cap < cap := Nat.mod_lt _ (by omega)
  unfold checkWriteSpace
  rcases mod_cases hab hb with ⟨h, hlt⟩ | ⟨h, hle⟩
  · rw [if_neg (by omega)]
    split <;> omega
  · rw [if_pos (by omega)]
    omega

/-- `READ_AVAIL_SPACE` in positions: what has been posted and not been read, up to the end of the
ring. -/
theorem readAvailSpace_eq (hab : a ≤ b) (hb : b < a + cap) :
    readAvailSpace (b % cap) (a % cap) cap = min (b - a) (cap - a % cap) := by
  have hr : a % cap < cap := Nat.mod_lt _ (by omega)
  unfold readAvailSpace
  rcases mod_cases hab hb with ⟨h, hlt⟩ | ⟨h, hle⟩
  · rw [if_pos (by omega)]
    omega
  · rw [if_neg (by omega)]
    omega

theorem writeSpaceAvail_eq (hab : a ≤ b) (hb : b < a + cap) :
    writeSpaceAvail (a % cap) (b % cap) cap = a + cap - 1 - b := by
  have hr : a % cap < cap := Nat.mod_lt _ (by omega)
  unfold writeSpaceAvail ntxpactive
  rcases mod_cases hab hb with ⟨h, hlt⟩ | ⟨h, hle⟩
  · rw [if_pos (by omega)]
    omega
  · rw [if_neg (by omega)]
    omega

/-- Two positions less than a lap apart with the same index are the same. -/
theorem eq_of_mod_eq (hab : a ≤ b) (hb : b < a + cap) (h : a % cap = b % cap) : a = b := by
  rcases mod_cases hab hb with h' | h' <;> omega

theorem following_mod (hcap : 0 < cap) : following (a % cap) cap = (a + 1) % cap := by
  have hr : a % cap < cap := Nat.mod_lt _ hcap
  rw [mod_add_stretch (by omega), following]

end Positions

section Alloc

variable {cap a b : Nat} {ring : Ring}

/-- The indices of a ring: the writer at `b`, with the reader known to be at `a`, both counted from
the beginning. -/
structure Ring.At (ring : Ring) (cap a b : Nat) : Prop where
  rd : ring.rd = a % cap
  wr : ring.wr = b % cap
  maxItems : ring.maxItems = cap

/-- No items can be set apart: there is no room at all, or there is not enough of it before
the end of the ring. -/
def Refused (cap a b nitems : Nat) (exactly : Bool) : Prop :=
  a + cap - 1 - b = 0 ∨ exactly = true ∧ a + cap - 1 - b < nitems ∧ nitems ≤ cap - b % cap

instance (cap a b nitems : Nat) (exactly : Bool) : Decidable (Refused cap a b nitems exactly) :=
  inferInstanceAs (Decidable (_ ∨ _))

/-- What is refused with a reader that is further on is refused. -/
theorem Refused.mono {a' nitems : Nat} {exactly : Bool} (h : Refused cap a' b nitems exactly)
    (ha : a ≤ a') : Refused cap a b nitems exactly := by
  rcases h with h | ⟨h, hless, hend⟩
  · exact .inl (by omega)
  · exact .inr ⟨h, by omega, hend⟩

/-- How many items are set apart: no more than were asked for, than are free, and than are left in
front of the end. -/
def granted (cap a b nitems : Nat) : Nat := min nitems (min (a + cap - 1 - b) (cap - b % cap))

/-- What `dhd_prot_get_ring_space` sets apart, in positions, and when it sets nothing apart. -/
theorem dhdProtGetRingSpace_eq (h : ring.At cap a b) (hab : a ≤ b) (hb : b < a + cap)
    (nitems : Nat) (exactly : Bool) :
    dhdProtGetRingSpace ring nitems exactly =
      if Refused cap a b nitems exactly then (ring, none)
      else ({ ring with wr := (b + granted cap a b nitems) % cap },
        some ⟨b % cap, granted cap a b nitems⟩) := by
  have hw : b % cap < cap := Nat.mod_lt _ (by omega)
  have hend : b % cap + granted cap a b nitems ≤ cap := by
    unfold granted
    omega
  have hrefused : (min (a + cap - 1 - b) (cap - b % cap) = 0 ∨ exactly = true ∧
      min (a + cap - 1 - b) (cap - b % cap) < nitems ∧ cap - b % cap ≥ nitems) ↔
      Refused cap a b nitems exactly := by
    unfold Refused
    have hleft : 0 < cap - b % cap := by omega
    generalize a + cap - 1 - b = room
    generalize cap - b % cap = left at hleft
    constructor
    · rintro (h | ⟨h, h₁, h₂⟩)
      · exact .inl (by omega)
      · exact .inr ⟨h, by omega, h₂⟩
    · rintro (h | ⟨h, h₁, h₂⟩)
      · exact .inl (by omega)
      · exact .inr ⟨h, by omega, h₂⟩
  simp only [dhdProtGetRingSpace, h.rd, h.wr, h.maxItems, checkWriteSpace_eq hab hb]
  simp only [hrefused]
  split
  · rfl
  · change (if b % cap + granted cap a b nitems = cap then _ else
      if b % cap + granted cap a b nitems < cap then _ else _) = _
    rw [mod_add_stretch hend]
    split
    · rfl
    · rw [if_pos (by omega)]
      rfl

theorem Ring.At.phased (h : ring.At cap a b) (start : Nat) (nibble : Bool) :
    (if start = 0 then ring.nextPhase nibble else ring).At cap a b := by
  unfold Ring.nextPhase Ring.flip
  split
  · split
    · exact ⟨h.rd, h.wr, h.maxItems⟩
    · exact ⟨h.rd, h.wr, h.maxItems⟩
  · exact h

theorem Ring.nextPhase_congr {ring' : Ring} (h : ring'.currentPhase = ring.currentPhase)
    (start : Nat) (nibble : Bool) :
    (if start = 0 then ring'.nextPhase nibble else ring').currentPhase =
      (if start = 0 then ring.nextPhase nibble else ring).currentPhase := by
  unfold Ring.nextPhase Ring.flip
  rw [h]
  split
  · cases nibble <;> rfl
  · exact h

/-- The same of `dhd_prot_alloc_ring_space`: with the cached read index if that is enough, and else
with the posted one. -/
theorem dhdProtAllocRingSpace_cases {a' : Nat} (h : ring.At cap a b) (ha : a ≤ a') (hab : a' ≤ b)
    (hb : b < a + cap) (nitems : Nat) (exactly nibble : Bool) :
    (∃ ring', dhdProtAllocRingSpace ring (a' % cap) nitems exactly nibble = (ring', none) ∧
      (nitems = 0 ∨ Refused cap a' b nitems exactly) ∧ ring'.currentPhase = ring.currentPhase ∧
      (ring'.At cap a b ∨ ring'.At cap a' b)) ∨
    ∃ ring' e, (e = a ∨ e = a') ∧ nitems ≠ 0 ∧ ¬ Refused cap e b nitems exactly ∧
      dhdProtAllocRingSpace ring (a' % cap) nitems exactly nibble =
        (ring', some ⟨b % cap, granted cap e b nitems⟩) ∧
      ring'.At cap e (b + granted cap e b nitems) ∧
      ring'.currentPhase = (if b % cap = 0 then ring.nextPhase nibble else ring).currentPhase := by
  unfold dhdProtAllocRingSpace
  by_cases hzero : nitems = 0
  · rw [if_pos hzero]
    exact .inl ⟨ring, rfl, .inl hzero, rfl, .inl h⟩
  rw [if_neg hzero, dhdProtGetRingSpace_eq h (Nat.le_trans ha hab) hb]
  by_cases hrefused : Refused cap a b nitems exactly
  · -- the second attempt is with the index the dongle has posted
    have h' : ({ ring with rd := a' % cap } : Ring).At cap a' b := ⟨rfl, h.wr, h.maxItems⟩
    simp only [if_pos hrefused]
    rw [dhdProtGetRingSpace_eq h' hab (by omega)]
    by_cases hrefused' : Refused cap a' b nitems exactly
    · simp only [if_pos hrefused']
      exact .inl ⟨_, rfl, .inr hrefused', rfl, .inr h'⟩
    · simp only [if_neg hrefused']
      refine .inr ⟨_, a', .inr rfl, hzero, hrefused', rfl, ?_, ?_⟩
      · apply Ring.At.phased
        exact ⟨rfl, rfl, h.maxItems⟩
      · apply Ring.nextPhase_congr
        rfl
  · simp only [if_neg hrefused]
    refine .inr ⟨_, a, .inl rfl, hzero, hrefused, rfl, ?_, ?_⟩
    · apply Ring.At.phased
      exact ⟨h.rd, rfl, h.maxItems⟩
    · apply Ring.nextPhase_congr
      rfl

theorem Ring.At.backOne (h : ring.At cap a (b + 1)) (hb : b % cap < cap) :
    ring.backOne.At cap a b ∧
      (1 < cap → ring.backOne.currentPhase =
        (if b % cap = 0 then ring.flip else ring).currentPhase) := by
  have hwr : ring.wr = if b % cap + 1 = cap then 0 else b % cap + 1 := by
    rw [h.wr, mod_add_stretch (by omega)]
  unfold Ring.backOne
  by_cases hlast : b % cap + 1 = cap
  · rw [if_pos hlast] at hwr
    rw [if_pos hwr]
    refine ⟨⟨h.rd, ?_, h.maxItems⟩, fun hcap => by rw [if_neg (by omega)]⟩
    dsimp only
    rw [h.maxItems]
    omega
  · rw [if_neg hlast] at hwr
    have hprev : ring.wr - 1 = b % cap := by omega
    rw [if_neg (by omega)]
    dsimp only
    rw [hprev]
    split
    · exact ⟨⟨h.rd, rfl, h.maxItems⟩, fun _ => rfl⟩
    · exact ⟨⟨h.rd, rfl, h.maxItems⟩, fun _ => rfl⟩

/-- Giving back what was not filled puts the write index at the last item that was. -/
theorem rollback_at {poster : Poster} {alloced i : Nat} (h : ring.At cap a (b + alloced))
    (hend : b % cap + alloced ≤ cap) (hi : i < alloced)
    (hone : poster.single = true → alloced = 1) :
    (rollback poster ring alloced i).At cap a (b + i) := by
  have hflip : ∀ {r : Ring}, r.At cap a (b + i) → r.flip.At cap a (b + i) :=
    fun hr => ⟨hr.rd, hr.wr, hr.maxItems⟩
  have hback : (ring.back (alloced - i)).At cap a (b + i) := by
    refine ⟨h.rd, ?_, h.maxItems⟩
    simp only [Ring.back, h.maxItems, h.wr]
    exact back_mod hend hi
  cases poster with
  | rxbuf =>
      unfold rollback
      dsimp only
      split
      · exact hflip hback
      · exact hback
  | infobuf =>
      unfold rollback
      dsimp only
      split
      · exact hflip hback
      · exact hback
  | txdata | rxbufCtrl =>
      obtain rfl := hone rfl
      obtain rfl : i = 0 := by omega
      exact (h.backOne (by omega)).1

/-- Giving back the first item of the ring turns the phase bit back, but for the information
buffers. -/
theorem rollback_phase {poster : Poster} {alloced i : Nat} (h : ring.At cap a (b + alloced))
    (hcap : 1 < cap) (hend : b % cap + alloced ≤ cap) (hi : i < alloced)
    (hone : poster.single = true → alloced = 1) :
    (rollback poster ring alloced i).currentPhase =
      (if b % cap + i = 0 ∧ poster ≠ .infobuf then ring.flip else ring).currentPhase := by
  have hr : b % cap < cap := Nat.mod_lt _ (by omega)
  have hback : (ring.back (alloced - i)).wr = b % cap + i := by
    simp only [Ring.back, h.maxItems, h.wr, back_mod hend hi, add_mod_of_stretch hend hi]
  cases poster with
  | rxbuf =>
      unfold rollback
      simp only [hback]
      simp only [ne_eq, reduceCtorEq, not_false_eq_true, and_true]
      split
      · rfl
      · rfl
  | infobuf =>
      unfold rollback
      simp only [hback]
      rw [if_neg (by omega), if_neg fun h => h.2 rfl]
      rfl
  | txdata | rxbufCtrl =>
      obtain rfl := hone rfl
      obtain rfl : i = 0 := by omega
      simp only [Nat.add_zero, ne_eq, reduceCtorEq, not_false_eq_true, and_true]
      exact (h.backOne (by omega)).2 hcap

end Alloc

/-- What `dhd_prot_get_read_addr` does, with the host at `a` and the dongle at `b`: it finds
nothing just if there is nothing, and what it finds does not run over the end. -/
theorem dhdProtGetReadAddr_cases {cap a b : Nat} {ring : Ring} (hrd : ring.rd = a % cap)
    (hmax : ring.maxItems = cap) (hab : a ≤ b) (hb : b < a + cap) (bound : Nat) :
    (a = b ∧ dhdProtGetReadAddr ring (b % cap) bound = ({ ring with wr := b % cap }, none)) ∨
    ∃ k, 0 < k ∧ a + k ≤ b ∧ a % cap + k ≤ cap ∧ (bound ≠ 0 → k ≤ bound) ∧
      dhdProtGetReadAddr ring (b % cap) bound =
        ({ ring with wr := b % cap, rd := (a + k) % cap }, some ⟨a % cap, k⟩) := by
  have hr : a % cap < cap := Nat.mod_lt _ (by omega)
  simp only [dhdProtGetReadAddr, hrd, hmax, readAvailSpace_eq hab hb]
  by_cases hnone : a = b
  · exact .inl ⟨hnone, by rw [if_pos (by omega)]⟩
  · refine .inr ⟨if bound ≠ 0 then min (min (b - a) (cap - a % cap)) bound
      else min (b - a) (cap - a % cap), ?_, ?_, ?_, ?_, ?_⟩
    · split <;> omega
    · split <;> omega
    · split <;> omega
    · intro hbound
      rw [if_pos hbound]
      omega
    · rw [if_neg (by omega), if_neg (by omega)]
      generalize hk : (if bound ≠ 0 then min (min (b - a) (cap - a % cap)) bound
        else min (b - a) (cap - a % cap)) = k
      have hend : a % cap + k ≤ cap := by
        rw [← hk]
        split <;> omega
      rw [mod_add_stretch hend]
      split_ifs <;> first | rfl | omega

/-! ### Laps -/

/-- How many laps have been begun after `n` items: the phase of an item is that of its lap. -/
def laps (cap n : Nat) : Nat := (n + cap - 1) / cap

/-- The phase in a lap, counted from one; before the first one it is zero. -/
def lapPhase (nibble : Bool) (lap : Nat) : Nat :=
  if lap = 0 then 0
  else if lap % 2 = 1 then (if nibble then phaseNibbleInit else phaseBitInit)
  else if nibble then phaseNibbleWrap else 0

section Laps

variable {cap b k : Nat}

theorem laps_stretch (hpos : 0 < b % cap + k) (hend : b % cap + k ≤ cap) :
    laps cap (b + k) = b / cap + 1 := by
  have hcap : 0 < cap := by omega
  have hb := Nat.div_add_mod b cap
  have hsum : b + k + cap - 1 = (b % cap + k - 1) + cap * (b / cap + 1) := by
    rw [Nat.mul_add, Nat.mul_one]
    omega
  rw [laps, hsum, Nat.add_mul_div_left _ _ hcap, Nat.div_eq_of_lt (by omega), Nat.zero_add]

theorem laps_start (hcap : 0 < cap) (hb : b % cap = 0) : laps cap b = b / cap := by
  have hb' := Nat.div_add_mod b cap
  have hsum : b + cap - 1 = (cap - 1) + cap * (b / cap) := by omega
  rw [laps, hsum, Nat.add_mul_div_left _ _ hcap, Nat.div_eq_of_lt (by omega), Nat.zero_add]

theorem nextPhase_lapPhase {ring : Ring} {nibble : Bool} {lap : Nat}
    (h : ring.currentPhase = lapPhase nibble lap) :
    (ring.nextPhase nibble).currentPhase = lapPhase nibble (lap + 1) := by
  have hnext : (ring.nextPhase nibble).currentPhase =
      if nibble then
        (if ring.currentPhase = phaseNibbleInit then phaseNibbleWrap else phaseNibbleInit)
      else if ring.currentPhase ≠ 0 then 0 else phaseBitInit := by
    cases nibble <;> rfl
  rw [hnext, h]
  by_cases hzero : lap = 0
  · subst hzero
    cases nibble <;> rfl
  by_cases hodd : lap % 2 = 1
  · have heven : ¬ (lap + 1) % 2 = 1 := by omega
    cases nibble <;> simp [lapPhase, hzero, hodd, heven, phaseBitInit]
  · have hsucc : (lap + 1) % 2 = 1 := by omega
    cases nibble <;> simp [lapPhase, hzero, hodd, hsucc, phaseNibbleWrap, phaseNibbleInit]

/-- The phase bit, but not the nibble, goes the other way round as well. -/
theorem flip_lapPhase_pred {ring : Ring} {lap : Nat}
    (h : ring.currentPhase = lapPhase false (lap + 1)) :
    ring.flip.currentPhase = lapPhase false lap := by
  have hflip : ring.flip.currentPhase = if ring.currentPhase ≠ 0 then 0 else phaseBitInit := rfl
  rw [hflip, h]
  by_cases hodd : lap % 2 = 1
  · have heven : ¬ (lap + 1) % 2 = 1 := by omega
    have hpos : lap ≠ 0 := by omega
    simp [lapPhase, hodd, heven, hpos]
  · have hnext : (lap + 1) % 2 = 1 := by omega
    simp [lapPhase, hodd, hnext, phaseBitInit]

/-- Two laps in a row have different phases. -/
theorem lapPhase_succ_ne {nibble : Bool} {lap : Nat} (hlap : lap ≠ 0) :
    lapPhase nibble (lap + 1) ≠ lapPhase nibble lap := by
  by_cases hodd : lap % 2 = 1
  · have heven : ¬ (lap + 1) % 2 = 1 := by omega
    cases nibble <;>
      simp [lapPhase, hlap, hodd, heven, phaseBitInit, phaseNibbleInit, phaseNibbleWrap]
  · have hnext : (lap + 1) % 2 = 1 := by omega
    cases nibble <;>
      simp [lapPhase, hlap, hodd, hnext, phaseBitInit, phaseNibbleInit, phaseNibbleWrap]

end Laps

end Hub11.Drivers.Msgbuf
