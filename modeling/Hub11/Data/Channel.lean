import Mathlib.Data.List.Basic
import Mathlib.Data.Nat.ModEq
import Mathlib.Logic.Function.Basic

/-!
A channel between two parties over a ring of cells.

Each party moves its own end and learns of the other end only what it was told last. All
ends are counted from the beginning, in items; the cell of an item is its number modulo the
number of cells. What the writer believes of the reader is never ahead of the reader, and
that is enough: an item stays in its cell until the reader has let go of it.
-/

namespace Hub11.Data

variable {α : Type}

/-- The ends of the channel, from the front to the back: the writer has set apart the cells
up to `reserved`, written what is in `sent`, and told the reader of the first `shown` items.
The reader has picked `claimed` items, looked at `read` of them, and handed back the cells
of `acked`, as far as the writer knows of `known`. -/
structure Channel (α : Type) where
  reserved : Nat
  sent : List α
  shown : Nat
  claimed : Nat
  read : Nat
  acked : Nat
  known : Nat

namespace Channel

/-- The ends are in order, less than `cap` apart, and what is not known to be handed back is
in its cell. -/
structure Sound (cap : Nat) (c : Channel α) (cells : Nat → Option α) : Prop where
  known_acked : c.known ≤ c.acked
  acked_read : c.acked ≤ c.read
  read_claimed : c.read ≤ c.claimed
  claimed_shown : c.claimed ≤ c.shown
  shown_sent : c.shown ≤ c.sent.length
  sent_reserved : c.sent.length ≤ c.reserved
  room : c.reserved < c.known + cap
  held : ∀ n x, c.known ≤ n → c.sent[n]? = some x → cells (n % cap) = some x

/-- The writer can set apart this many more cells, by what it knows of the reader. One cell stays
free, so that a full ring is not taken for an empty one. -/
def free (cap : Nat) (c : Channel α) : Nat := c.known + cap - 1 - c.reserved

/-- Nothing has been sent. -/
def fresh : Channel α where
  reserved := 0
  sent := []
  shown := 0
  claimed := 0
  read := 0
  acked := 0
  known := 0

theorem fresh_sound {cap : Nat} (hcap : 0 < cap) (cells : Nat → Option α) :
    Sound cap (fresh : Channel α) cells where
  known_acked := Nat.le_refl _
  acked_read := Nat.le_refl _
  read_claimed := Nat.le_refl _
  claimed_shown := Nat.le_refl _
  shown_sent := Nat.le_refl _
  sent_reserved := Nat.le_refl _
  room := by simpa [fresh] using hcap
  held := by simp [fresh]

namespace Sound

variable {cap : Nat} {c : Channel α} {cells : Nat → Option α}

theorem read_sent (h : Sound cap c cells) : c.read ≤ c.sent.length :=
  Nat.le_trans (Nat.le_trans h.read_claimed h.claimed_shown) h.shown_sent

theorem acked_reserved (h : Sound cap c cells) : c.acked ≤ c.reserved :=
  Nat.le_trans (Nat.le_trans h.acked_read h.read_sent) h.sent_reserved

theorem cap_pos (h : Sound cap c cells) : 0 < cap := by
  have := h.known_acked
  have := h.acked_reserved
  have := h.room
  omega

/-! ### The writer -/

theorem reserve (h : Sound cap c cells) {k : Nat} (hk : k ≤ c.free cap) :
    Sound cap { c with reserved := c.reserved + k } cells where
  __ := h
  sent_reserved := Nat.le_add_right_of_le h.sent_reserved
  room := by
    have hroom := h.room
    unfold free at hk
    dsimp only
    omega

/-- What was set apart and not written is given up. -/
theorem rollback (h : Sound cap c cells) : Sound cap { c with reserved := c.sent.length } cells where
  __ := h
  sent_reserved := Nat.le_refl _
  room := Nat.lt_of_le_of_lt h.sent_reserved h.room

/-- The next item goes to a cell that holds nothing the reader still needs. -/
theorem put (h : Sound cap c cells) (hroom : c.sent.length < c.reserved) (x : α) :
    Sound cap { c with sent := c.sent ++ [x] }
      (Function.update cells (c.sent.length % cap) (some x)) where
  __ := h
  shown_sent := by
    have hshown := h.shown_sent
    simp only [List.length_append, List.length_singleton]
    omega
  sent_reserved := by
    simp only [List.length_append, List.length_singleton]
    omega
  held := by
    intro n y hn hy
    by_cases hlast : n = c.sent.length
    · subst hlast
      rw [Function.update_self]
      simpa using hy
    · have hold : n < c.sent.length := by
        have hlt := (List.getElem?_eq_some_iff.mp hy).1
        simp only [List.length_append, List.length_singleton] at hlt
        omega
      rw [List.getElem?_append_left hold] at hy
      rw [Function.update_of_ne, h.held n y hn hy]
      -- two items less than `cap` apart do not share a cell
      intro hsame
      have hclose := h.room
      dsimp only at hn
      have hdvd : cap ∣ c.sent.length - n := (Nat.modEq_iff_dvd' (Nat.le_of_lt hold)).mp hsame
      have := Nat.le_of_dvd (by omega) hdvd
      omega

theorem show_all (h : Sound cap c cells) : Sound cap { c with shown := c.sent.length } cells where
  __ := h
  claimed_shown := Nat.le_trans h.claimed_shown h.shown_sent
  shown_sent := Nat.le_refl _

theorem learn (h : Sound cap c cells) : Sound cap { c with known := c.acked } cells where
  __ := h
  known_acked := Nat.le_refl _
  room := Nat.lt_of_lt_of_le h.room (Nat.add_le_add_right h.known_acked cap)
  held n x hn hx := h.held n x (Nat.le_trans h.known_acked hn) hx

/-! ### The reader -/

theorem claim (h : Sound cap c cells) {k : Nat} (hk : c.claimed + k ≤ c.shown) :
    Sound cap { c with claimed := c.claimed + k } cells where
  __ := h
  read_claimed := Nat.le_add_right_of_le h.read_claimed
  claimed_shown := hk

/-- What was picked and not looked at is put back. -/
theorem unclaim (h : Sound cap c cells) : Sound cap { c with claimed := c.read } cells where
  __ := h
  read_claimed := Nat.le_refl _
  claimed_shown := Nat.le_trans h.read_claimed h.claimed_shown

theorem read_all (h : Sound cap c cells) : Sound cap { c with read := c.claimed } cells where
  __ := h
  acked_read := Nat.le_trans h.acked_read h.read_claimed
  read_claimed := Nat.le_refl _

theorem read_one (h : Sound cap c cells) (hread : c.read < c.claimed) :
    Sound cap { c with read := c.read + 1 } cells where
  __ := h
  acked_read := Nat.le_succ_of_le h.acked_read
  read_claimed := hread

theorem ack (h : Sound cap c cells) : Sound cap { c with acked := c.read } cells where
  __ := h
  known_acked := Nat.le_trans h.known_acked h.acked_read
  acked_read := Nat.le_refl _

end Sound

end Channel

/-! ### Stretches of cells -/

/-- The cells of a stretch of items that does not run over the end follow one another. -/
theorem add_mod_of_stretch {cap n k j : Nat} (hk : n % cap + k ≤ cap) (hj : j < k) :
    (n + j) % cap = n % cap + j := by
  rw [Nat.add_mod, Nat.mod_eq_of_lt (show j < cap by omega), Nat.mod_eq_of_lt (by omega)]

end Hub11.Data
