import Hub11.Drivers.MsgbufRing
import Mathlib.Data.List.Forall2

/-!
The host and the dongle on one message ring, in any order of their steps.

On a ring to the dongle no item is overwritten before the dongle has read it, none is lost
and none is read twice, whatever indices the host has cached and however many items its
callers give back. Each carries the phase of its lap, unless a caller gives back the first
item of the ring and does not take the phase back with it.

A ring from the dongle is passed item by item in the same way, where the host may look at the
items any time between `dhd_prot_get_read_addr` and `dhd_prot_upd_read_idx`. An item may be
skipped there: if its message does not become complete, or if the loop that works on the
items is left early and does not put them back.
-/

namespace Hub11.Drivers.Msgbuf

open Hub11.Data

variable {α : Type}

/-! ### A ring to the dongle -/

/-- A work item with the flags of its common header, which carry the phase. -/
structure Message (α : Type) where
  body : α
  flags : Nat
deriving DecidableEq

/-- Items that the host works on, and how many of them are done. The rest of them may be given back,
or put back. -/
structure Batch where
  space : Space
  i : Nat
deriving DecidableEq

/-- A ring to the dongle with both parties. What was posted and what was received are kept in full,
to say that the one is a beginning of the other. -/
structure H2D (α : Type) where
  ring : Ring
  cells : Nat → Option (Message α)
  /-- The items set apart under the lock of the ring. -/
  filling : Option Batch
  /-- The write index the host has posted. -/
  wrIndx : Nat
  /-- The read index the dongle has posted. -/
  rdIndx : Nat
  /-- Where the dongle reads next. -/
  dongleRd : Nat
  /-- What the host has written and not given back, from the beginning. -/
  posted : List (Message α)
  /-- What the dongle has read, from the beginning. -/
  received : List (Option (Message α))

namespace H2D

/-- A ring that has just been attached; the cells may hold anything. -/
def attached (cap : Nat) (cells : Nat → Option (Message α)) : H2D α where
  ring := ⟨0, 0, cap, 0⟩
  cells := cells
  filling := none
  wrIndx := 0
  rdIndx := 0
  dongleRd := 0
  posted := []
  received := []

/-- The host calls `dhd_prot_alloc_ring_space` and gets nothing, or a batch of which no item is
filled in yet. -/
def alloc (s : H2D α) (nitems : Nat) (exactly nibble : Bool) : H2D α :=
  let (ring, space) := dhdProtAllocRingSpace s.ring s.rdIndx nitems exactly nibble
  { s with ring := ring, filling := space.map fun space => ⟨space, 0⟩ }

/-- The next item that was set apart is filled in, with the phase the ring has at that time. -/
def fill (s : H2D α) (f : Batch) (x : α) : H2D α :=
  let m : Message α := ⟨x, s.ring.currentPhase⟩
  { s with
    cells := Function.update s.cells (f.space.start + f.i) (some m)
    filling := some { f with i := f.i + 1 }
    posted := s.posted ++ [m] }

/-- What is not filled is given back. The write index is posted if anything is left, and
unless it is kept for `dhd_prot_txdata_write_flush`. -/
def finish (s : H2D α) (f : Batch) (poster : Poster) (keep : Bool) : H2D α :=
  let ring := if f.i < f.space.alloced then rollback poster s.ring f.space.alloced f.i else s.ring
  { s with
    ring := ring
    filling := none
    wrIndx := if f.i > 0 ∧ keep = false then ring.wr else s.wrIndx }

/-- One step of the host or of the dongle. All that is given back on a ring is given back by
the same caller; the other callers of the control ring fill the one item they ask for. A
caller that asks for one item cannot have been given more. -/
inductive Step (nibble : Bool) (poster : Poster) : H2D α → H2D α → Prop where
  | alloc {s : H2D α} (idle : s.filling = none) (nitems : Nat) (exactly : Bool) :
      Step nibble poster s (s.alloc nitems exactly nibble)
  | fill {s : H2D α} {f : Batch} (hf : s.filling = some f) (left : f.i < f.space.alloced) (x : α) :
      Step nibble poster s (s.fill f x)
  | finish {s : H2D α} {f : Batch} (hf : s.filling = some f)
      (single : poster.single = true → f.space.alloced = 1) (keep : Bool) :
      Step nibble poster s (s.finish f poster keep)
  | flush {s : H2D α} (idle : s.filling = none) : Step nibble poster s { s with wrIndx := s.ring.wr }
  | take {s : H2D α} (more : s.dongleRd ≠ s.wrIndx) :
      Step nibble poster s { s with
        dongleRd := following s.dongleRd s.ring.maxItems
        received := s.received ++ [s.cells s.dongleRd] }
  | ack (s : H2D α) : Step nibble poster s { s with rdIndx := s.dongleRd }

/-! ### The ring as a channel -/

/-- The items that are being filled begin at `b`. -/
structure Fills (cap : Nat) (c : Channel (Message α)) (f : Batch) (b : Nat) : Prop where
  start : f.space.start = b % cap
  sent : c.sent.length = b + f.i
  reserved : c.reserved = b + f.space.alloced
  bounded : b % cap + f.space.alloced ≤ cap
  left : f.i ≤ f.space.alloced

/-- All indices are positions of the channel. -/
structure Tracks (cap : Nat) (s : H2D α) (c : Channel (Message α)) : Prop where
  sound : c.Sound cap s.cells
  ring : s.ring.At cap c.known c.reserved
  wrIndx : s.wrIndx = c.shown % cap
  rdIndx : s.rdIndx = c.acked % cap
  dongleRd : s.dongleRd = c.read % cap
  claimed : c.claimed = c.read
  posted : s.posted = c.sent
  received : s.received = (c.sent.take c.read).map some
  idle : s.filling = none → c.reserved = c.sent.length
  busy : ∀ f, s.filling = some f → ∃ b, Fills cap c f b

section Steps

variable {cap : Nat} {s : H2D α} {c : Channel (Message α)} {f : Batch}

theorem attached_tracks (hcap : 0 < cap) (cells : Nat → Option (Message α)) :
    Tracks cap (attached cap cells) Channel.fresh where
  sound := Channel.fresh_sound hcap cells
  ring := ⟨(Nat.zero_mod _).symm, (Nat.zero_mod _).symm, rfl⟩
  wrIndx := (Nat.zero_mod _).symm
  rdIndx := (Nat.zero_mod _).symm
  dongleRd := (Nat.zero_mod _).symm
  claimed := rfl
  posted := rfl
  received := rfl
  idle _ := rfl
  busy f hf := by cases hf

/-- The host may know more of the reader than it did. -/
theorem Tracks.learned (h : Tracks cap s c) {e : Nat} (he : e = c.known ∨ e = c.acked) {ring : Ring}
    (hring : ring.At cap e c.reserved) :
    Tracks cap { s with ring := ring } { c with known := e } where
  __ := h
  sound := by
    rcases he with rfl | rfl
    · exact h.sound
    · exact h.sound.learn
  ring := hring
  busy f hf := by
    obtain ⟨b, hb⟩ := h.busy f hf
    exact ⟨b, { hb with }⟩

theorem Tracks.alloc (h : Tracks cap s c) (idle : s.filling = none) (nitems : Nat)
    (exactly nibble : Bool) : ∃ c', Tracks cap (s.alloc nitems exactly nibble) c' := by
  have hsent := h.idle idle
  have cases := dhdProtAllocRingSpace_cases h.ring h.sound.known_acked h.sound.acked_reserved
    h.sound.room nitems exactly nibble
  rw [← h.rdIndx] at cases
  unfold H2D.alloc
  rcases cases with ⟨ring', heq, -, -, hring | hring⟩ | ⟨ring', e, he, -, -, heq, hring, -⟩
  · rw [heq]
    exact ⟨_, { h.learned (.inl rfl) hring with idle := fun _ => hsent, busy := fun f hf => by cases hf }⟩
  · rw [heq]
    exact ⟨_, { h.learned (.inr rfl) hring with idle := fun _ => hsent, busy := fun f hf => by cases hf }⟩
  · rw [heq]
    have hbefore : Tracks cap { s with ring := { s.ring with rd := e % cap } } { c with known := e } :=
      h.learned he ⟨rfl, h.ring.wr, h.ring.maxItems⟩
    have hgranted : granted cap e c.reserved nitems ≤ Channel.free cap { c with known := e } := by
      unfold granted Channel.free
      dsimp only
      omega
    refine ⟨_, { hbefore with
      sound := hbefore.sound.reserve hgranted
      ring := hring
      idle := fun hnone => by cases hnone
      busy := ?_ }⟩
    rintro f ⟨⟩
    refine ⟨c.reserved, rfl, hsent.symm, rfl, ?_, Nat.zero_le _⟩
    have hw : c.reserved % cap < cap := Nat.mod_lt _ h.sound.cap_pos
    dsimp only
    unfold granted
    omega

theorem Tracks.fill (h : Tracks cap s c) (hf : s.filling = some f) (left : f.i < f.space.alloced)
    (x : α) : ∃ c', Tracks cap (s.fill f x) c' := by
  obtain ⟨b, hb⟩ := h.busy f hf
  have hroom : c.sent.length < c.reserved := by
    rw [hb.sent, hb.reserved]
    omega
  have hcell : f.space.start + f.i = c.sent.length % cap := by
    rw [hb.start, hb.sent, add_mod_of_stretch hb.bounded left]
  have hput := h.sound.put hroom ⟨x, s.ring.currentPhase⟩
  rw [← hcell] at hput
  refine ⟨_, { h with
    sound := hput
    posted := congrArg (· ++ _) h.posted
    received := ?_
    idle := fun hnone => by cases hnone
    busy := ?_ }⟩
  · rw [List.take_append_of_le_length h.sound.read_sent]
    exact h.received
  · rintro f' ⟨⟩
    refine ⟨b, hb.start, ?_, hb.reserved, hb.bounded, left⟩
    simp only [List.length_append, List.length_singleton, hb.sent]
    rfl

/-- The ring when the items that were not filled have been given back. -/
theorem Tracks.finished (h : Tracks cap s c) (hf : s.filling = some f) {poster : Poster}
    (single : poster.single = true → f.space.alloced = 1) :
    (if f.i < f.space.alloced then rollback poster s.ring f.space.alloced f.i else s.ring).At cap
      c.known c.sent.length := by
  obtain ⟨b, hb⟩ := h.busy f hf
  have hring := h.ring
  rw [hb.reserved] at hring
  rw [hb.sent]
  split
  · rename_i hi
    exact rollback_at hring hb.bounded hi single
  · rename_i hi
    have hfull : f.i = f.space.alloced := Nat.le_antisymm hb.left (Nat.le_of_not_lt hi)
    rw [hfull]
    exact hring

theorem Tracks.finish (h : Tracks cap s c) (hf : s.filling = some f) (poster : Poster)
    (single : poster.single = true → f.space.alloced = 1) (keep : Bool) :
    ∃ c', Tracks cap (s.finish f poster keep) c' := by
  have hring := h.finished hf single
  unfold H2D.finish
  dsimp only
  generalize (if f.i < f.space.alloced then rollback poster s.ring f.space.alloced f.i
    else s.ring) = ring at hring ⊢
  have hback : Tracks cap { s with ring := ring, filling := none }
      { c with reserved := c.sent.length } :=
    { h with
      sound := h.sound.rollback
      ring := hring
      idle := fun _ => rfl
      busy := fun f hf => by cases hf }
  split
  · exact ⟨_, { hback with
      sound := hback.sound.show_all
      wrIndx := hring.wr
      busy := fun f hf => by cases hf }⟩
  · exact ⟨_, hback⟩

theorem Tracks.flush (h : Tracks cap s c) (idle : s.filling = none) :
    ∃ c', Tracks cap { s with wrIndx := s.ring.wr } c' := by
  have hsent := h.idle idle
  refine ⟨{ c with shown := c.sent.length }, { h with
    sound := h.sound.show_all
    wrIndx := ?_
    busy := ?_ }⟩
  · rw [← hsent]
    exact h.ring.wr
  · rw [idle]
    exact fun f hf => by cases hf

theorem Tracks.take (h : Tracks cap s c) (more : s.dongleRd ≠ s.wrIndx) :
    ∃ c', Tracks cap { s with
      dongleRd := following s.dongleRd s.ring.maxItems
      received := s.received ++ [s.cells s.dongleRd] } c' := by
  have hlt : c.read < c.shown := by
    have hle := Nat.le_trans h.sound.read_claimed h.sound.claimed_shown
    refine Nat.lt_of_le_of_ne hle fun heq => more ?_
    rw [h.dongleRd, h.wrIndx, heq]
  have hsent : c.read < c.sent.length := Nat.lt_of_lt_of_le hlt h.sound.shown_sent
  have hcell : s.cells (c.read % cap) = some c.sent[c.read] :=
    h.sound.held _ _ (Nat.le_trans h.sound.known_acked h.sound.acked_read)
      (List.getElem?_eq_getElem hsent)
  have hclaimed : c.claimed + 1 ≤ c.shown := by
    rw [h.claimed]
    exact hlt
  refine ⟨{ c with claimed := c.claimed + 1, read := c.claimed + 1 }, { h with
    sound := (h.sound.claim hclaimed).read_all
    dongleRd := ?_
    claimed := rfl
    received := ?_
    busy := ?_ }⟩
  · rw [h.dongleRd, h.ring.maxItems, following_mod h.sound.cap_pos, h.claimed]
  · dsimp only
    rw [h.received, h.dongleRd, hcell, h.claimed, List.take_add_one, List.getElem?_eq_getElem hsent,
      List.map_append]
    rfl
  · intro f hf
    obtain ⟨b, hb⟩ := h.busy f hf
    exact ⟨b, { hb with }⟩

theorem Tracks.ack (h : Tracks cap s c) : ∃ c', Tracks cap { s with rdIndx := s.dongleRd } c' := by
  refine ⟨{ c with acked := c.read }, { h with
    sound := h.sound.ack
    rdIndx := h.dongleRd
    busy := ?_ }⟩
  intro f hf
  obtain ⟨b, hb⟩ := h.busy f hf
  exact ⟨b, { hb with }⟩

theorem Step.tracks {nibble : Bool} {poster : Poster} {s s' : H2D α} (h : Step nibble poster s s')
    (ht : ∃ c, Tracks cap s c) : ∃ c, Tracks cap s' c := by
  obtain ⟨c, ht⟩ := ht
  cases h with
  | alloc idle nitems exactly => exact ht.alloc idle nitems exactly nibble
  | fill hf left x => exact ht.fill hf left x
  | finish hf single keep => exact ht.finish hf poster single keep
  | flush idle => exact ht.flush idle
  | take more => exact ht.take more
  | ack => exact ht.ack

theorem tracks_of_run {nibble : Bool} {poster : Poster} (hcap : 0 < cap) {cells : Nat → Option (Message α)}
    (hrun : Relation.ReflTransGen (Step nibble poster) (attached cap cells) s) : ∃ c, Tracks cap s c := by
  induction hrun with
  | refl => exact ⟨_, attached_tracks hcap cells⟩
  | tail _ hstep ih => exact hstep.tracks ih

end Steps

/-- In every run, the dongle reads the items in the order they were written, each of them
once and whole. No more than one less than the ring holds are on their way, those being
filled do not run over its end, and a dongle that has caught up has read them all. -/
theorem h2d_in_order (nibble : Bool) (poster : Poster) (cap : Nat) (hcap : 0 < cap)
    (cells : Nat → Option (Message α)) (s : H2D α)
    (hrun : Relation.ReflTransGen (Step nibble poster) (attached cap cells) s) :
    s.received <+: s.posted.map some ∧ s.posted.length < s.received.length + cap ∧
      (∀ b, s.filling = some b → b.space.start + b.space.alloced ≤ cap) ∧
      (s.filling = none → s.dongleRd = s.ring.wr → s.received = s.posted.map some) := by
  obtain ⟨c, h⟩ := tracks_of_run hcap hrun
  have hread := h.sound.read_sent
  have hlength : s.received.length = c.read := by
    rw [h.received, List.length_map, List.length_take]
    omega
  have hclose : c.reserved < c.read + cap :=
    Nat.lt_of_lt_of_le h.sound.room
      (Nat.add_le_add_right (Nat.le_trans h.sound.known_acked h.sound.acked_read) cap)
  refine ⟨?_, ?_, ?_, ?_⟩
  · rw [h.received, h.posted]
    exact (List.take_prefix _ _).map some
  · rw [hlength, h.posted]
    exact Nat.lt_of_le_of_lt h.sound.sent_reserved hclose
  · intro b hb
    obtain ⟨n, hn⟩ := h.busy b hb
    rw [hn.start]
    exact hn.bounded
  · intro idle hcaught
    have hsent := h.idle idle
    rw [h.dongleRd, h.ring.wr, hsent] at hcaught
    have hall := eq_of_mod_eq hread (hsent ▸ hclose) hcaught
    rw [h.received, h.posted, hall, List.take_length]

section Sample

/-- Two items are set apart and one of them is filled. -/
private def sampleFilled : H2D Nat :=
  ((attached 4 fun _ => none).alloc 2 true false).fill ⟨⟨0, 2⟩, 0⟩ 7

/-- The other one is given back, and the dongle reads. -/
private def sampleRead : H2D Nat :=
  let s := sampleFilled.finish ⟨⟨0, 2⟩, 1⟩ .rxbuf false
  { s with
    dongleRd := following s.dongleRd s.ring.maxItems
    received := s.received ++ [s.cells s.dongleRd] }

private theorem sampleRead_run :
    Relation.ReflTransGen (Step false .rxbuf) (attached 4 fun _ => none) sampleRead := by
  refine .tail (.tail (.tail (.tail .refl (.alloc rfl 2 true)) (.fill (f := ⟨⟨0, 2⟩, 0⟩) rfl ?_ 7))
    (.finish (f := ⟨⟨0, 2⟩, 1⟩) rfl ?_ false)) (.take ?_)
  · decide
  · decide
  · decide

theorem h2d_in_order_sample :
    sampleRead.received <+: sampleRead.posted.map some ∧
      sampleRead.posted.length < sampleRead.received.length + 4 ∧
      (∀ b, sampleRead.filling = some b → b.space.start + b.space.alloced ≤ 4) ∧
      (sampleRead.filling = none → sampleRead.dongleRd = sampleRead.ring.wr →
        sampleRead.received = sampleRead.posted.map some) :=
  h2d_in_order false .rxbuf 4 (by decide) (fun _ => none) sampleRead sampleRead_run

end Sample

/-! ### The cached read index -/

/-- In every run, the host is refused items just if it would be with the read index that the
dongle has posted, however old the one it has kept is. -/
theorem h2d_alloc_refused_iff (nibble : Bool) (poster : Poster) (cap : Nat) (hcap : 0 < cap)
    (cells : Nat → Option (Message α)) (s : H2D α)
    (hrun : Relation.ReflTransGen (Step nibble poster) (attached cap cells) s) (nitems : Nat)
    (exactly : Bool) :
    (dhdProtAllocRingSpace s.ring s.rdIndx nitems exactly nibble).2 = none ↔
      nitems = 0 ∨ writeSpaceAvail s.rdIndx s.ring.wr cap = 0 ∨
        exactly = true ∧ writeSpaceAvail s.rdIndx s.ring.wr cap < nitems ∧
          nitems ≤ cap - s.ring.wr := by
  obtain ⟨c, h⟩ := tracks_of_run hcap hrun
  have hroom : c.reserved < c.acked + cap :=
    Nat.lt_of_lt_of_le h.sound.room (Nat.add_le_add_right h.sound.known_acked cap)
  have cases := dhdProtAllocRingSpace_cases h.ring h.sound.known_acked h.sound.acked_reserved
    h.sound.room nitems exactly nibble
  rw [h.rdIndx, h.ring.wr, writeSpaceAvail_eq h.sound.acked_reserved hroom]
  change _ ↔ nitems = 0 ∨ Refused cap c.acked c.reserved nitems exactly
  rcases cases with ⟨ring', heq, hrefused, -⟩ | ⟨ring', e, he, hzero, hgranted, heq, -⟩
  · rw [heq]
    exact iff_of_true rfl hrefused
  · rw [heq]
    refine iff_of_false (by simp) ?_
    rintro (hnone | hrefused)
    · exact hzero hnone
    · apply hgranted
      rcases he with rfl | rfl
      · exact hrefused.mono h.sound.known_acked
      · exact hrefused

/-- The dongle posts its read index, and the host still has the one from the beginning. -/
private def sampleAcked : H2D Nat := { sampleRead with rdIndx := sampleRead.dongleRd }

theorem h2d_alloc_refused_iff_sample : sampleAcked.ring.rd ≠ sampleAcked.rdIndx ∧
    ((dhdProtAllocRingSpace sampleAcked.ring sampleAcked.rdIndx 3 true false).2 = none ↔
      3 = 0 ∨ writeSpaceAvail sampleAcked.rdIndx sampleAcked.ring.wr 4 = 0 ∨
        true = true ∧ writeSpaceAvail sampleAcked.rdIndx sampleAcked.ring.wr 4 < 3 ∧
          3 ≤ 4 - sampleAcked.ring.wr) :=
  ⟨by decide, h2d_alloc_refused_iff false .rxbuf 4 (by decide) (fun _ => none) sampleAcked
    (sampleRead_run.tail (.ack _)) 3 true⟩

/-! ### The phase -/

/-- How many items have been set apart from the beginning. -/
def reserved (s : H2D α) : Nat :=
  match s.filling with
  | none => s.posted.length
  | some b => s.posted.length - b.i + b.space.alloced

/-- The caller that gives items back does not take the phase back with the first item of the
ring: no caller knows of the nibble, and the one for the information buffers looks at the
phase only if some of them were filled. -/
def Forgets (nibble : Bool) (poster : Poster) : Prop := nibble = true ∨ poster = .infobuf

/-- The first item of the ring is given back: the lap that it has begun did not begin after all. -/
def GivesBackFirst (s s' : H2D α) : Prop :=
  ∃ f, s.filling = some f ∧ s'.filling = none ∧ f.space.start = 0 ∧ f.i = 0

/-- A step that leaves the phase with the lap: any step, unless the caller forgets the phase and
gives back the first item of the ring. -/
def KeepsPhase (nibble : Bool) (poster : Poster) (s s' : H2D α) : Prop :=
  Step nibble poster s s' ∧ (Forgets nibble poster → ¬ GivesBackFirst s s')

theorem steps_of_keepsPhase {nibble : Bool} {poster : Poster} {s s' : H2D α}
    (h : Relation.ReflTransGen (KeepsPhase nibble poster) s s') :
    Relation.ReflTransGen (Step nibble poster) s s' :=
  Relation.ReflTransGen.mono (fun _ _ (hstep : KeepsPhase nibble poster _ _) => hstep.1) _ _ h

/-- Every item carries the phase of its lap, and the ring has the phase of the last one. The dongle
tells by it which items are new. -/
structure InPhase (nibble : Bool) (cap : Nat) (s : H2D α) : Prop where
  ring : s.ring.currentPhase = lapPhase nibble (laps cap s.reserved)
  flags : ∀ n m, s.posted[n]? = some m → m.flags = lapPhase nibble (laps cap (n + 1))

section Phase

variable {nibble : Bool} {cap : Nat} {s : H2D α} {c : Channel (Message α)} {f : Batch}

theorem Tracks.reserved_eq (h : Tracks cap s c) : s.reserved = c.reserved := by
  unfold H2D.reserved
  split
  · rename_i idle
    rw [h.posted, h.idle idle]
  · rename_i b hb
    obtain ⟨n, hn⟩ := h.busy b hb
    rw [h.posted, hn.sent, hn.reserved]
    omega

theorem InPhase.alloc (hp : InPhase nibble cap s) (h : Tracks cap s c) (idle : s.filling = none)
    (nitems : Nat) (exactly : Bool) : InPhase nibble cap (s.alloc nitems exactly nibble) := by
  have hsent := h.idle idle
  have hnow : s.ring.currentPhase = lapPhase nibble (laps cap c.reserved) := by
    rw [hp.ring, h.reserved_eq]
  have cases := dhdProtAllocRingSpace_cases h.ring h.sound.known_acked h.sound.acked_reserved
    h.sound.room nitems exactly nibble
  rw [← h.rdIndx] at cases
  unfold H2D.alloc
  rcases cases with ⟨ring', heq, -, hphase, -⟩ | ⟨ring', e, he, hzero, hgranted, heq, -, hphase⟩
  · rw [heq]
    refine ⟨?_, hp.flags⟩
    change ring'.currentPhase = lapPhase nibble (laps cap s.posted.length)
    rw [hphase, hnow, hsent, h.posted]
  · rw [heq]
    refine ⟨?_, hp.flags⟩
    have hcap := h.sound.cap_pos
    have hw : c.reserved % cap < cap := Nat.mod_lt _ hcap
    have hmore : 0 < granted cap e c.reserved nitems := by
      unfold granted
      unfold Refused at hgranted
      omega
    have hend : c.reserved % cap + granted cap e c.reserved nitems ≤ cap := by
      unfold granted
      omega
    change ring'.currentPhase =
      lapPhase nibble (laps cap (s.posted.length - 0 + granted cap e c.reserved nitems))
    rw [Nat.sub_zero, h.posted, ← hsent, laps_stretch (by omega) hend, hphase]
    -- a new lap begins at the first item of the ring
    by_cases hstart : c.reserved % cap = 0
    · rw [if_pos hstart]
      rw [laps_start hcap hstart] at hnow
      exact nextPhase_lapPhase hnow
    · have hlap : laps cap (c.reserved + 0) = c.reserved / cap + 1 :=
        laps_stretch (by omega) (by omega)
      rw [Nat.add_zero] at hlap
      rw [if_neg hstart, hnow, hlap]

theorem InPhase.fill (hp : InPhase nibble cap s) (h : Tracks cap s c) (hf : s.filling = some f)
    (left : f.i < f.space.alloced) (x : α) : InPhase nibble cap (s.fill f x) := by
  obtain ⟨b, hb⟩ := h.busy f hf
  have hlength : s.posted.length = b + f.i := by rw [h.posted, hb.sent]
  have hbounded := hb.bounded
  have hnow : s.ring.currentPhase = lapPhase nibble (b / cap + 1) := by
    rw [hp.ring, h.reserved_eq, hb.reserved, laps_stretch (by omega) hbounded]
  constructor
  · change s.ring.currentPhase = lapPhase nibble (laps cap
      ((s.posted ++ [(⟨x, s.ring.currentPhase⟩ : Message α)]).length - (f.i + 1) + f.space.alloced))
    have hsum : (s.posted ++ [(⟨x, s.ring.currentPhase⟩ : Message α)]).length - (f.i + 1) +
        f.space.alloced = b + f.space.alloced := by
      rw [List.length_append, List.length_singleton, hlength]
      omega
    rw [hsum, hnow, laps_stretch (by omega) hbounded]
  · intro n m hm
    change (s.posted ++ [(⟨x, s.ring.currentPhase⟩ : Message α)])[n]? = some m at hm
    rcases Nat.lt_or_ge n s.posted.length with hn | hn
    · rw [List.getElem?_append_left hn] at hm
      exact hp.flags n m hm
    · rw [List.getElem?_append_right hn, List.getElem?_singleton] at hm
      split at hm
      · rename_i hlast
        cases hm
        have hlast : n = b + f.i := by omega
        rw [hlast, Nat.add_assoc, laps_stretch (by omega) (by omega)]
        exact hnow
      · cases hm

theorem InPhase.finish (hp : InPhase nibble cap s) (h : Tracks cap s c) (hf : s.filling = some f)
    {poster : Poster} (single : poster.single = true → f.space.alloced = 1) (keep : Bool)
    (hfirst : Forgets nibble poster → ¬ GivesBackFirst s (s.finish f poster keep)) :
    InPhase nibble cap (s.finish f poster keep) := by
  obtain ⟨b, hb⟩ := h.busy f hf
  have hbounded := hb.bounded
  have hring := h.ring
  rw [hb.reserved] at hring
  refine ⟨?_, hp.flags⟩
  change (if f.i < f.space.alloced then rollback poster s.ring f.space.alloced f.i
    else s.ring).currentPhase = lapPhase nibble (laps cap s.posted.length)
  rw [h.posted, hb.sent]
  have hleft := hb.left
  by_cases hall : f.i < f.space.alloced
  · have hnow : s.ring.currentPhase = lapPhase nibble (b / cap + 1) := by
      rw [hp.ring, h.reserved_eq, hb.reserved, laps_stretch (by omega) hbounded]
    have hcap : 1 < cap := by
      have := h.sound.room
      have := h.sound.known_acked
      have := h.sound.acked_read
      have := h.sound.read_sent
      have := hb.reserved
      have := hb.sent
      omega
    rw [if_pos hall, rollback_phase hring hcap hbounded hall single]
    by_cases hstart : b % cap + f.i = 0
    · obtain ⟨hb₀, hi₀⟩ := Nat.add_eq_zero_iff.mp hstart
      have hkept : ¬ Forgets nibble poster := fun hforgets =>
        hfirst hforgets ⟨f, hf, rfl, hb.start.trans hb₀, hi₀⟩
      obtain ⟨hbit, hposter⟩ := not_or.mp hkept
      obtain rfl : nibble = false := by simpa using hbit
      rw [if_pos ⟨hstart, hposter⟩, hi₀, Nat.add_zero, laps_start (by omega) hb₀]
      exact flip_lapPhase_pred hnow
    · rw [if_neg fun h => hstart h.1, laps_stretch (by omega) (by omega)]
      exact hnow
  · rw [if_neg hall, hp.ring, h.reserved_eq, hb.reserved]
    rw [show f.space.alloced = f.i by omega]

theorem KeepsPhase.inPhase {poster : Poster} {s s' : H2D α} (hstep : KeepsPhase nibble poster s s')
    (h : Tracks cap s c) (hp : InPhase nibble cap s) : InPhase nibble cap s' := by
  obtain ⟨hstep, hfirst⟩ := hstep
  cases hstep with
  | alloc idle nitems exactly => exact hp.alloc h idle nitems exactly
  | fill hf left x => exact hp.fill h hf left x
  | finish hf single keep => exact hp.finish h hf single keep hfirst
  | flush idle => exact ⟨hp.ring, hp.flags⟩
  | take more => exact ⟨hp.ring, hp.flags⟩
  | ack => exact ⟨hp.ring, hp.flags⟩

theorem inPhase_of_run {poster : Poster} (hcap : 0 < cap) {cells : Nat → Option (Message α)}
    (hrun : Relation.ReflTransGen (KeepsPhase nibble poster) (attached cap cells) s) :
    InPhase nibble cap s := by
  induction hrun with
  | refl =>
      have hnone : laps cap 0 = 0 := (laps_start hcap (Nat.zero_mod cap)).trans (Nat.zero_div cap)
      exact ⟨by simp [attached, reserved, hnone, lapPhase], by simp [attached]⟩
  | tail hrun hstep ih =>
      obtain ⟨c, h⟩ := tracks_of_run hcap (steps_of_keepsPhase hrun)
      exact hstep.inPhase h ih

end Phase

/-- In every run, an item carries the phase of its lap, bit or nibble, so it differs from the
item that its cell held a lap before. The callers may give items back at any time, but for
the first item of the ring where the phase is not taken back with it. -/
theorem h2d_phase (nibble : Bool) (poster : Poster) (cap : Nat) (hcap : 0 < cap)
    (cells : Nat → Option (Message α)) (s : H2D α)
    (hrun : Relation.ReflTransGen (KeepsPhase nibble poster) (attached cap cells) s) (n : Nat)
    (m : Message α) (hm : s.posted[n]? = some m) :
    m.flags = lapPhase nibble (n / cap + 1) ∧
      ∀ m', s.posted[n + cap]? = some m' → m'.flags ≠ m.flags := by
  have hflags : ∀ k x, s.posted[k]? = some x → x.flags = lapPhase nibble (k / cap + 1) := by
    intro k x hx
    have hk : k % cap < cap := Nat.mod_lt _ hcap
    rw [(inPhase_of_run hcap hrun).flags k x hx, laps_stretch (by omega) (by omega)]
  refine ⟨hflags n m hm, fun m' hm' => ?_⟩
  rw [hflags n m hm, hflags _ m' hm', Nat.add_div_right _ hcap]
  exact lapPhase_succ_ne (Nat.succ_ne_zero _)

section Sample

/-- A flow ring of two: an item is sent and taken, the next one given back. -/
private def sampleGiven : H2D Nat :=
  let s := (((attached 2 fun _ => none).alloc 1 false true).fill ⟨⟨0, 1⟩, 0⟩ 7).finish
    ⟨⟨0, 1⟩, 1⟩ .txdata false
  let s := { s with
    dongleRd := following s.dongleRd s.ring.maxItems
    received := s.received ++ [s.cells s.dongleRd] }
  let s := { s with rdIndx := s.dongleRd }
  (s.alloc 1 false true).finish ⟨⟨1, 1⟩, 0⟩ .txdata false

/-- Then it is sent and taken after all, and one more at the first item of the ring. -/
private def sampleNibble : H2D Nat :=
  let s := ((sampleGiven.alloc 1 false true).fill ⟨⟨1, 1⟩, 0⟩ 8).finish ⟨⟨1, 1⟩, 1⟩ .txdata false
  let s := { s with
    dongleRd := following s.dongleRd s.ring.maxItems
    received := s.received ++ [s.cells s.dongleRd] }
  let s := { s with rdIndx := s.dongleRd }
  (s.alloc 1 false true).fill ⟨⟨0, 1⟩, 0⟩ 9

private theorem keepsPhase_of_idle {s s' : H2D Nat} (h : Step true .txdata s s')
    (idle : s.filling = none) : KeepsPhase true .txdata s s' :=
  ⟨h, fun _ ⟨_, hf, _⟩ => by simp [idle] at hf⟩

private theorem keepsPhase_of_busy {s s' : H2D Nat} (h : Step true .txdata s s')
    (busy : s'.filling ≠ none) : KeepsPhase true .txdata s s' :=
  ⟨h, fun _ ⟨_, _, hnone, _⟩ => busy hnone⟩

private theorem keepsPhase_of_later {s s' : H2D Nat} {f : Batch} (h : Step true .txdata s s')
    (hf : s.filling = some f) (later : f.space.start + f.i ≠ 0) : KeepsPhase true .txdata s s' := by
  refine ⟨h, fun _ ⟨g, hg, _, hstart, hi⟩ => ?_⟩
  cases hf.symm.trans hg
  omega

private theorem sampleGiven_run :
    Relation.ReflTransGen (KeepsPhase true .txdata) (attached 2 fun _ => none) sampleGiven := by
  refine .tail (.tail (.tail (.tail (.tail (.tail (.tail .refl
    (keepsPhase_of_idle (.alloc rfl 1 false) rfl))
    (keepsPhase_of_busy (.fill (f := ⟨⟨0, 1⟩, 0⟩) rfl ?_ 7) (by decide)))
    (keepsPhase_of_later (.finish (f := ⟨⟨0, 1⟩, 1⟩) rfl ?_ false) rfl (by decide)))
    (keepsPhase_of_idle (.take ?_) rfl)) (keepsPhase_of_idle (.ack _) rfl))
    (keepsPhase_of_idle (.alloc rfl 1 false) rfl))
    (keepsPhase_of_later (.finish (f := ⟨⟨1, 1⟩, 0⟩) rfl ?_ false) rfl (by decide))
  all_goals decide

private theorem sampleNibble_run :
    Relation.ReflTransGen (KeepsPhase true .txdata) (attached 2 fun _ => none) sampleNibble := by
  refine .tail (.tail (.tail (.tail (.tail (.tail (.tail sampleGiven_run
    (keepsPhase_of_idle (.alloc rfl 1 false) rfl))
    (keepsPhase_of_busy (.fill (f := ⟨⟨1, 1⟩, 0⟩) rfl ?_ 8) (by decide)))
    (keepsPhase_of_later (.finish (f := ⟨⟨1, 1⟩, 1⟩) rfl ?_ false) rfl (by decide)))
    (keepsPhase_of_idle (.take ?_) rfl)) (keepsPhase_of_idle (.ack _) rfl))
    (keepsPhase_of_idle (.alloc rfl 1 false) rfl))
    (keepsPhase_of_busy (.fill (f := ⟨⟨0, 1⟩, 0⟩) rfl ?_ 9) (by decide))
  all_goals decide

theorem h2d_phase_sample : sampleNibble.posted[0 + 2]? = some ⟨9, 0x50⟩ ∧
    (⟨7, 0xA0⟩ : Message Nat).flags = lapPhase true (0 / 2 + 1) ∧
      ∀ m', sampleNibble.posted[0 + 2]? = some m' → m'.flags ≠ (⟨7, 0xA0⟩ : Message Nat).flags :=
  ⟨rfl, h2d_phase true .txdata 2 (by decide) (fun _ => none) sampleNibble sampleNibble_run 0
    ⟨7, 0xA0⟩ rfl⟩

end Sample

/-- The information buffers do not take the phase back if none of them could be filled: with
the first item of the ring, everything up to its end goes out with the phase of the lap
before. -/
theorem infobuf_phase_lost (ring : Ring) (alloced : Nat) (h : (ring.back alloced).wr = 0) :
    (rollback .infobuf ring alloced 0).currentPhase = ring.currentPhase ∧
      (rollback .rxbuf ring alloced 0).currentPhase = ring.flip.currentPhase := by
  unfold rollback
  simp only [Nat.sub_zero, ne_eq, not_true_eq_false, false_and, if_false, if_pos h]
  exact ⟨rfl, rfl⟩

/-- On a ring with phase nibbles the first item given back leaves no nibble behind, so that
the next lap has the nibble of the lap before whenever that one is the initial one. -/
theorem nibble_phase_lost (poster : Poster) (ring : Ring) (hone : poster.single = true)
    (h : ring.wr = 1) (hphase : ring.currentPhase ≠ 0) :
    (rollback poster ring 1 0).wr = 0 ∧ (rollback poster ring 1 0).currentPhase = 0 ∧
      ((rollback poster ring 1 0).nextPhase true).currentPhase = phaseNibbleInit := by
  have hback : rollback poster ring 1 0 = { ring with wr := 0, currentPhase := 0 } := by
    cases poster with
    | rxbuf | infobuf => cases hone
    | txdata | rxbufCtrl => simp [rollback, Ring.backOne, Ring.flip, h, hphase]
  rw [hback]
  exact ⟨rfl, rfl, rfl⟩

end H2D

/-! ### A ring from the dongle -/

/-- What became of an item that the host has passed: it was handed to its handler, as the cell
held it then, or it was skipped. -/
inductive Fate (α : Type) where
  | processed (x : Option α)
  | skipped
deriving DecidableEq

/-- An item was handled as the dongle wrote it, or skipped. -/
def Fate.Of (fate : Fate α) (x : α) : Prop := fate = .processed (some x) ∨ fate = .skipped

/-- The loops that work on the items found. `dhd_prot_process_msgtype`, for the control,
transmit and information completions, may return with items left, and its callers do not
know; `dhd_prot_process_msgbuf_rxcpl` leaves the loop at the first packet of another
interface, and puts back the items that are left. -/
inductive Reader where
  | msgtype
  | rxcpl
deriving DecidableEq

/-- A ring from the dongle with both parties. `passed` says of each item the host is done with
whether it was handled or skipped. -/
structure D2H (α : Type) where
  ring : Ring
  cells : Nat → Option α
  /-- What the host has found and not yet answered for. -/
  reading : Option Batch
  /-- The write index the dongle has posted. -/
  wrIndx : Nat
  /-- The read index the host has posted. -/
  rdIndx : Nat
  /-- Where the dongle writes next, and the read index it goes by. -/
  dongleWr : Nat
  dongleRd : Nat
  /-- What the dongle has written, from the beginning. -/
  sent : List α
  /-- What has become of what the host has passed, from the beginning. -/
  passed : List (Fate α)

namespace D2H

def attached (cap : Nat) (cells : Nat → Option α) : D2H α where
  ring := ⟨0, 0, cap, phaseBitInit⟩
  cells := cells
  reading := none
  wrIndx := 0
  rdIndx := 0
  dongleWr := 0
  dongleRd := 0
  sent := []
  passed := []

/-- The host calls `dhd_prot_get_read_addr` and finds nothing, or a batch that it has not looked at
yet. -/
def get (s : D2H α) (bound : Nat) : D2H α :=
  let (ring, space) := dhdProtGetReadAddr s.ring s.wrIndx bound
  { s with ring := ring, reading := space.map fun space => ⟨space, 0⟩ }

/-- The loop comes to the next item that was found. An item whose message does not become
complete is not `good`, and gets no handler. -/
def look (s : D2H α) (b : Batch) (good : Bool) : D2H α :=
  { s with
    reading := some { b with i := b.i + 1 }
    passed := s.passed ++
      [if good then .processed (s.cells (b.space.start + b.i)) else .skipped] }

/-- The loop is left and `dhd_prot_upd_read_idx` is called, whether or not it has come to the
end of the stretch. -/
def updReadIdx (s : D2H α) (b : Batch) : Reader → D2H α
  | .msgtype =>
      { s with
        reading := none
        rdIndx := s.ring.rd
        passed := s.passed ++ List.replicate (b.space.alloced - b.i) .skipped }
  | .rxcpl =>
      let ring := if b.i < b.space.alloced then s.ring.unread (b.space.alloced - b.i) else s.ring
      { s with ring := ring, reading := none, rdIndx := ring.rd }

/-- One step of the host or of the dongle. One loop works on a ring all the time. -/
inductive Step (reader : Reader) : D2H α → D2H α → Prop where
  | get {s : D2H α} (idle : s.reading = none) (bound : Nat) : Step reader s (s.get bound)
  | look {s : D2H α} {b : Batch} (hb : s.reading = some b) (left : b.i < b.space.alloced)
      (good : Bool) : Step reader s (s.look b good)
  | updReadIdx {s : D2H α} {b : Batch} (hb : s.reading = some b) :
      Step reader s (s.updReadIdx b reader)
  | put {s : D2H α} (room : following s.dongleWr s.ring.maxItems ≠ s.dongleRd) (x : α) :
      Step reader s { s with
        cells := Function.update s.cells s.dongleWr (some x)
        dongleWr := following s.dongleWr s.ring.maxItems
        sent := s.sent ++ [x] }
  | post (s : D2H α) : Step reader s { s with wrIndx := s.dongleWr }
  | learn (s : D2H α) : Step reader s { s with dongleRd := s.rdIndx }

/-- A step that skips no item. In a run of such steps everything that the host has passed was
handled. -/
def SkipsNone (reader : Reader) (s s' : D2H α) : Prop :=
  Step reader s s' ∧ (Fate.skipped ∈ s'.passed → Fate.skipped ∈ s.passed)

theorem steps_of_skipsNone {reader : Reader} {s s' : D2H α}
    (h : Relation.ReflTransGen (SkipsNone reader) s s') :
    Relation.ReflTransGen (Step reader) s s' :=
  Relation.ReflTransGen.mono (fun _ _ (hstep : SkipsNone reader _ _) => hstep.1) _ _ h

/-- What has become of the first `read` items, each of them in its turn: handled as it was sent, or
skipped. -/
def Passed (fates : List (Fate α)) (sent : List α) (read : Nat) : Prop :=
  List.Forall₂ Fate.Of fates (sent.take read)

theorem Passed.length {fates : List (Fate α)} {sent : List α} {read : Nat}
    (h : Passed fates sent read) (hread : read ≤ sent.length) : fates.length = read := by
  rw [List.Forall₂.length_eq h, List.length_take]
  omega

theorem Passed.look {fates : List (Fate α)} {sent : List α} {read : Nat}
    (h : Passed fates sent read) (hread : read < sent.length) {fate : Fate α}
    (hfate : fate.Of sent[read]) : Passed (fates ++ [fate]) sent (read + 1) := by
  unfold Passed
  rw [List.take_add_one, List.getElem?_eq_getElem hread]
  exact List.rel_append h (.cons hfate .nil)

theorem Passed.skip {fates : List (Fate α)} {sent : List α} {read : Nat}
    (h : Passed fates sent read) {k : Nat} (hk : read + k ≤ sent.length) :
    Passed (fates ++ List.replicate k .skipped) sent (read + k) := by
  induction k with
  | zero =>
      rw [List.replicate_zero, List.append_nil]
      exact h
  | succ k ih =>
      rw [List.replicate_succ', ← List.append_assoc]
      exact (ih (by omega)).look (by omega) (.inr rfl)

/-- More items may be sent. -/
theorem Passed.sends {fates : List (Fate α)} {sent : List α} {read : Nat}
    (h : Passed fates sent read) (hread : read ≤ sent.length) (more : List α) :
    Passed fates (sent ++ more) read := by
  unfold Passed
  rw [List.take_append_of_le_length hread]
  exact h

/-- Where nothing was skipped all items were handled. -/
theorem Passed.handled {fates : List (Fate α)} {xs : List α} (h : List.Forall₂ Fate.Of fates xs)
    (hskipped : Fate.skipped ∉ fates) : fates = xs.map fun x => .processed (some x) := by
  induction h with
  | nil => rfl
  | cons hfate _ ih =>
      rw [List.mem_cons, not_or] at hskipped
      rcases hfate with rfl | rfl
      · rw [List.map_cons, ih hskipped.2]
      · exact absurd rfl hskipped.1

/-- The items that have been found begin at `a`. -/
structure Reads (cap : Nat) (c : Channel α) (b : Batch) (a : Nat) : Prop where
  start : b.space.start = a % cap
  read : c.read = a + b.i
  claimed : c.claimed = a + b.space.alloced
  bounded : a % cap + b.space.alloced ≤ cap
  left : b.i ≤ b.space.alloced

/-- All indices are positions of the channel. -/
structure Tracks (cap : Nat) (s : D2H α) (c : Channel α) : Prop where
  sound : c.Sound cap s.cells
  rd : s.ring.rd = c.claimed % cap
  maxItems : s.ring.maxItems = cap
  wrIndx : s.wrIndx = c.shown % cap
  rdIndx : s.rdIndx = c.acked % cap
  dongleWr : s.dongleWr = c.sent.length % cap
  dongleRd : s.dongleRd = c.known % cap
  reserved : c.reserved = c.sent.length
  sent : s.sent = c.sent
  passed : Passed s.passed c.sent c.read
  idle : s.reading = none → c.read = c.claimed
  busy : ∀ b, s.reading = some b → ∃ a, Reads cap c b a

section Steps

variable {cap : Nat} {s : D2H α} {c : Channel α} {b : Batch}

theorem attached_tracks (hcap : 0 < cap) (cells : Nat → Option α) :
    Tracks cap (attached cap cells) Channel.fresh where
  sound := Channel.fresh_sound hcap cells
  rd := (Nat.zero_mod _).symm
  maxItems := rfl
  wrIndx := (Nat.zero_mod _).symm
  rdIndx := (Nat.zero_mod _).symm
  dongleWr := (Nat.zero_mod _).symm
  dongleRd := (Nat.zero_mod _).symm
  reserved := rfl
  sent := rfl
  passed := .nil
  idle _ := rfl
  busy b hb := by cases hb

theorem Tracks.get (h : Tracks cap s c) (idle : s.reading = none) (bound : Nat) :
    ∃ c', Tracks cap (s.get bound) c' := by
  have hread := h.idle idle
  have hroom : c.shown < c.claimed + cap := by
    have := h.sound.room
    have := h.sound.known_acked
    have := h.sound.acked_read
    have := h.sound.shown_sent
    have := h.reserved
    omega
  have cases := dhdProtGetReadAddr_cases h.rd h.maxItems h.sound.claimed_shown hroom bound
  rw [← h.wrIndx] at cases
  unfold D2H.get
  rcases cases with ⟨-, heq⟩ | ⟨k, -, hk, hend, -, heq⟩
  · rw [heq]
    exact ⟨c, { h with idle := fun _ => hread, busy := fun b hb => by cases hb }⟩
  · rw [heq]
    refine ⟨_, { h with
      sound := h.sound.claim hk
      rd := rfl
      idle := fun hnone => by cases hnone
      busy := ?_ }⟩
    rintro b ⟨⟩
    exact ⟨c.claimed, rfl, hread, rfl, hend, Nat.zero_le _⟩

theorem Tracks.look (h : Tracks cap s c) (hb : s.reading = some b) (left : b.i < b.space.alloced)
    (good : Bool) : ∃ c', Tracks cap (s.look b good) c' := by
  obtain ⟨a, ha⟩ := h.busy b hb
  have hlt : c.read < c.claimed := by
    rw [ha.read, ha.claimed]
    omega
  have hsent : c.read < c.sent.length :=
    Nat.lt_of_lt_of_le hlt (Nat.le_trans h.sound.claimed_shown h.sound.shown_sent)
  have hcell : s.cells (b.space.start + b.i) = some c.sent[c.read] := by
    rw [ha.start, ← add_mod_of_stretch ha.bounded left, ← ha.read]
    exact h.sound.held _ _ (Nat.le_trans h.sound.known_acked h.sound.acked_read)
      (List.getElem?_eq_getElem hsent)
  refine ⟨{ c with read := c.read + 1 }, { h with
    sound := h.sound.read_one hlt
    passed := h.passed.look hsent ?_
    idle := fun hnone => by cases hnone
    busy := ?_ }⟩
  · cases good with
    | false => exact .inr rfl
    | true => exact .inl (congrArg Fate.processed hcell)
  · rintro b' ⟨⟩
    refine ⟨a, ha.start, ?_, ha.claimed, ha.bounded, left⟩
    dsimp only
    rw [ha.read, Nat.add_assoc]

theorem Tracks.updReadIdx (h : Tracks cap s c) (hb : s.reading = some b) (reader : Reader) :
    ∃ c', Tracks cap (s.updReadIdx b reader) c' := by
  obtain ⟨a, ha⟩ := h.busy b hb
  cases reader with
  | msgtype =>
      -- all that was picked counts as looked at
      have hread : c.read + (b.space.alloced - b.i) = c.claimed := by
        have := ha.left
        rw [ha.read, ha.claimed]
        omega
      have := h.sound.claimed_shown
      have := h.sound.shown_sent
      refine ⟨{ c with read := c.claimed, acked := c.claimed }, { h with
        sound := h.sound.read_all.ack
        rdIndx := h.rd
        passed := hread ▸ h.passed.skip (by omega)
        idle := fun _ => rfl
        busy := fun b hb => by cases hb }⟩
  | rxcpl =>
      have hrd : (if b.i < b.space.alloced then s.ring.unread (b.space.alloced - b.i)
          else s.ring).rd = c.read % cap := by
        split
        · rename_i hi
          simp only [Ring.unread, h.rd, h.maxItems, ha.claimed]
          rw [back_mod ha.bounded hi, ha.read]
        · rename_i hi
          rw [h.rd, ha.claimed, ha.read, Nat.le_antisymm ha.left (Nat.le_of_not_lt hi)]
      refine ⟨{ c with claimed := c.read, acked := c.read }, { h with
        sound := h.sound.unclaim.ack
        rd := hrd
        maxItems := ?_
        rdIndx := hrd
        idle := fun _ => rfl
        busy := fun b hb => by cases hb }⟩
      unfold D2H.updReadIdx
      dsimp only
      split <;> exact h.maxItems

theorem Tracks.put (h : Tracks cap s c) (room : following s.dongleWr s.ring.maxItems ≠ s.dongleRd)
    (x : α) :
    ∃ c', Tracks cap { s with
      cells := Function.update s.cells s.dongleWr (some x)
      dongleWr := following s.dongleWr s.ring.maxItems
      sent := s.sent ++ [x] } c' := by
  have hcap := h.sound.cap_pos
  have hfree : 1 ≤ c.free cap := by
    rw [h.dongleWr, h.maxItems, following_mod hcap, h.dongleRd, ← h.reserved] at room
    -- one more item than `cap - 1` would be at the index of the reader
    have hroom := h.sound.room
    by_contra hnone
    have hfull : c.reserved + 1 = c.known + cap := by
      unfold Channel.free at hnone
      omega
    rw [hfull, Nat.add_mod_right] at room
    exact room rfl
  have hput := (h.sound.reserve hfree).put (h.reserved ▸ Nat.lt_succ_self _) x
  rw [← h.dongleWr] at hput
  refine ⟨{ c with reserved := c.reserved + 1, sent := c.sent ++ [x] }, { h with
    sound := hput
    dongleWr := ?_
    reserved := ?_
    sent := congrArg (· ++ [x]) h.sent
    passed := h.passed.sends h.sound.read_sent [x]
    busy := ?_ }⟩
  · dsimp only
    rw [h.dongleWr, h.maxItems, following_mod hcap, List.length_append, List.length_singleton]
  · dsimp only
    rw [h.reserved, List.length_append, List.length_singleton]
  · intro b hb
    obtain ⟨a, ha⟩ := h.busy b hb
    exact ⟨a, { ha with }⟩

theorem Tracks.post (h : Tracks cap s c) : ∃ c', Tracks cap { s with wrIndx := s.dongleWr } c' := by
  refine ⟨{ c with shown := c.sent.length }, { h with
    sound := h.sound.show_all
    wrIndx := h.dongleWr
    busy := ?_ }⟩
  intro b hb
  obtain ⟨a, ha⟩ := h.busy b hb
  exact ⟨a, { ha with }⟩

theorem Tracks.learn (h : Tracks cap s c) : ∃ c', Tracks cap { s with dongleRd := s.rdIndx } c' := by
  refine ⟨{ c with known := c.acked }, { h with
    sound := h.sound.learn
    dongleRd := h.rdIndx
    busy := ?_ }⟩
  intro b hb
  obtain ⟨a, ha⟩ := h.busy b hb
  exact ⟨a, { ha with }⟩

theorem Step.tracks {reader : Reader} {s s' : D2H α} (h : Step reader s s')
    (ht : ∃ c, Tracks cap s c) : ∃ c, Tracks cap s' c := by
  obtain ⟨c, ht⟩ := ht
  cases h with
  | get idle bound => exact ht.get idle bound
  | look hb left good => exact ht.look hb left good
  | updReadIdx hb => exact ht.updReadIdx hb reader
  | put room x => exact ht.put room x
  | post => exact ht.post
  | learn => exact ht.learn

theorem tracks_of_run {reader : Reader} (hcap : 0 < cap) {cells : Nat → Option α}
    (hrun : Relation.ReflTransGen (Step reader) (attached cap cells) s) : ∃ c, Tracks cap s c := by
  induction hrun with
  | refl => exact ⟨_, attached_tracks hcap cells⟩
  | tail _ hstep ih => exact hstep.tracks ih

theorem not_skipped_of_run {reader : Reader} {cells : Nat → Option α}
    (hrun : Relation.ReflTransGen (SkipsNone reader) (attached cap cells) s) :
    Fate.skipped ∉ s.passed := by
  induction hrun with
  | refl => simp [attached]
  | tail _ hstep ih => exact fun h => ih (hstep.2 h)

end Steps

/-- What the loop for the receive completions leaves is not skipped, and neither is anything
where a stretch has been looked through. -/
theorem updReadIdx_skipsNone {reader : Reader} {s : D2H α} {b : Batch} (hb : s.reading = some b)
    (h : reader = .rxcpl ∨ b.i = b.space.alloced) :
    SkipsNone reader s (s.updReadIdx b reader) := by
  refine ⟨.updReadIdx hb, fun hskipped => ?_⟩
  cases reader with
  | rxcpl => exact hskipped
  | msgtype =>
      have hdone : b.i = b.space.alloced := h.resolve_left (by simp)
      simpa [updReadIdx, hdone] using hskipped

/-- In every run, the host passes the items in the order the dongle wrote them, each of them
once, while the dongle goes on writing: an item is handed to its handler whole, or it is
skipped, and in a run whose steps skip nothing all of them are handed over. What the host has
found does not run over the end of the ring, and it finds nothing just if it has passed all
that was posted. -/
theorem d2h_in_order (reader : Reader) (cap : Nat) (hcap : 0 < cap) (cells : Nat → Option α)
    (s : D2H α) (hrun : Relation.ReflTransGen (Step reader) (attached cap cells) s) :
    List.Forall₂ Fate.Of s.passed (s.sent.take s.passed.length) ∧
      s.passed.length ≤ s.sent.length ∧ s.sent.length < s.passed.length + cap ∧
      (Relation.ReflTransGen (SkipsNone reader) (attached cap cells) s →
        s.passed = (s.sent.take s.passed.length).map fun x => .processed (some x)) ∧
      (∀ b, s.reading = some b → b.space.start + b.space.alloced ≤ cap) ∧
      (s.reading = none → s.ring.rd = s.dongleWr → s.passed.length = s.sent.length) ∧
      ∀ bound, (dhdProtGetReadAddr s.ring s.wrIndx bound).2 = none ↔ s.ring.rd = s.wrIndx := by
  obtain ⟨c, h⟩ := tracks_of_run hcap hrun
  have hread := h.sound.read_sent
  have hlength : s.passed.length = c.read := h.passed.length hread
  have hclose : c.sent.length < c.read + cap := by
    have := h.sound.room
    have := h.sound.known_acked
    have := h.sound.acked_read
    have := h.reserved
    omega
  have hshown : c.shown < c.claimed + cap := by
    have := h.sound.shown_sent
    have := h.sound.read_claimed
    omega
  have hpassed := h.passed
  unfold Passed at hpassed
  rw [hlength, h.sent]
  refine ⟨hpassed, hread, hclose, fun hnone => ?_, ?_, ?_, ?_⟩
  · exact Passed.handled hpassed (not_skipped_of_run hnone)
  · intro b hb
    obtain ⟨a, ha⟩ := h.busy b hb
    rw [ha.start]
    exact ha.bounded
  · intro idle hcaught
    rw [h.rd, ← h.idle idle, h.dongleWr] at hcaught
    exact eq_of_mod_eq hread hclose hcaught
  · intro bound
    have cases := dhdProtGetReadAddr_cases h.rd h.maxItems h.sound.claimed_shown hshown bound
    rw [h.wrIndx, h.rd]
    rcases cases with ⟨hnone, heq⟩ | ⟨k, hpos, hk, -, -, heq⟩
    · rw [heq, hnone]
      exact iff_of_true rfl rfl
    · rw [heq]
      refine iff_of_false (by simp) fun hsame => ?_
      have := eq_of_mod_eq h.sound.claimed_shown hshown hsame
      omega

section Sample

/-- The dongle writes two items on a ring of three and posts them, and the host finds them. -/
private def sampleFound : D2H Nat :=
  let s := attached 3 fun _ => none
  let s := { s with cells := Function.update s.cells 0 (some 5), dongleWr := 1, sent := [5] }
  let s := { s with cells := Function.update s.cells 1 (some 6), dongleWr := 2, sent := [5, 6] }
  ({ s with wrIndx := 2 }).get 0

/-- It handles one of them, puts back the other one, finds it again and handles it. -/
private def sampleAgain : D2H Nat :=
  (((sampleFound.look ⟨⟨0, 2⟩, 0⟩ true).updReadIdx ⟨⟨0, 2⟩, 1⟩ .rxcpl).get 0).look ⟨⟨1, 1⟩, 0⟩ true

private theorem sampleFound_run :
    Relation.ReflTransGen (SkipsNone .rxcpl) (attached 3 fun _ => none) sampleFound := by
  refine .tail (.tail (.tail (.tail .refl ⟨.put ?_ 5, ?_⟩) ⟨.put ?_ 6, ?_⟩) ⟨.post _, ?_⟩)
    ⟨.get rfl 0, ?_⟩
  all_goals decide

private theorem sampleAgain_run :
    Relation.ReflTransGen (SkipsNone .rxcpl) (attached 3 fun _ => none) sampleAgain := by
  refine .tail (.tail (.tail (.tail sampleFound_run
    ⟨.look (b := ⟨⟨0, 2⟩, 0⟩) rfl ?_ true, ?_⟩)
    (updReadIdx_skipsNone (b := ⟨⟨0, 2⟩, 1⟩) rfl (.inl rfl))) ⟨.get rfl 0, ?_⟩)
    ⟨.look (b := ⟨⟨1, 1⟩, 0⟩) rfl ?_ true, ?_⟩
  all_goals decide

theorem d2h_in_order_sample :
    List.Forall₂ Fate.Of sampleAgain.passed (sampleAgain.sent.take sampleAgain.passed.length) ∧
      sampleAgain.passed.length ≤ sampleAgain.sent.length ∧
      sampleAgain.sent.length < sampleAgain.passed.length + 3 ∧
      (Relation.ReflTransGen (SkipsNone .rxcpl) (attached 3 fun _ => none) sampleAgain →
        sampleAgain.passed = (sampleAgain.sent.take sampleAgain.passed.length).map fun x =>
          .processed (some x)) ∧
      (∀ b, sampleAgain.reading = some b → b.space.start + b.space.alloced ≤ 3) ∧
      (sampleAgain.reading = none → sampleAgain.ring.rd = sampleAgain.dongleWr →
        sampleAgain.passed.length = sampleAgain.sent.length) ∧
      ∀ bound, (dhdProtGetReadAddr sampleAgain.ring sampleAgain.wrIndx bound).2 = none ↔
        sampleAgain.ring.rd = sampleAgain.wrIndx :=
  d2h_in_order .rxcpl 3 (by decide) (fun _ => none) _ (steps_of_skipsNone sampleAgain_run)

end Sample

end D2H

end Hub11.Drivers.Msgbuf
