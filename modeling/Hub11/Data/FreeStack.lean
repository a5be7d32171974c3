import Mathlib.Data.Finset.Card
import Mathlib.Data.Set.Insert
import Mathlib.Logic.Function.Basic

/-!
A stack of free ids in an array, as allocators keep it.

Ids come from a set `all`, and some of them are in use. The stack deals them out if it holds
each one that is not in use, once. Taking the top and putting an id back that was in use keep
that up, so an id that is dealt out is never in use already.
-/

namespace Hub11.Data

variable {ι : Type}

/-- The first `top` slots hold the free ids. What is in the slots above is left over and means
nothing. -/
structure FreeStack (ι : Type) where
  top : Nat
  slot : Nat → ι

namespace FreeStack

def free (s : FreeStack ι) : List ι := (List.range s.top).map s.slot

/-- The id that goes out next, if there is one. -/
def next (s : FreeStack ι) : ι := s.slot (s.top - 1)

def pop (s : FreeStack ι) : FreeStack ι := ⟨s.top - 1, s.slot⟩

def push (s : FreeStack ι) (x : ι) : FreeStack ι := ⟨s.top + 1, Function.update s.slot s.top x⟩

variable {s : FreeStack ι} {x : ι}

@[simp] theorem length_free (s : FreeStack ι) : s.free.length = s.top := by simp [free]

theorem free_pop (h : 0 < s.top) : s.free = s.pop.free ++ [s.next] := by
  obtain ⟨n, hn⟩ := Nat.exists_eq_succ_of_ne_zero (Nat.ne_of_gt h)
  simp [free, pop, next, hn, List.range_succ]

theorem free_push : (s.push x).free = s.free ++ [x] := by
  have hold : ∀ i ∈ List.range s.top, Function.update s.slot s.top x i = s.slot i := by
    intro i hi
    exact Function.update_of_ne (Nat.ne_of_lt (List.mem_range.mp hi)) _ _
  simp only [free, push, List.range_succ, List.map_append, List.map_singleton,
    Function.update_self, List.map_congr_left hold]

/-- Slots that hold the same ids make the same stack. -/
theorem free_congr {t : FreeStack ι} (htop : t.top = s.top)
    (hslot : ∀ i < s.top, t.slot i = s.slot i) : t.free = s.free := by
  unfold free
  rw [htop]
  exact List.map_congr_left fun i hi => hslot i (List.mem_range.mp hi)

/-- The stack holds each id of `all` that is not in use, once. This is what an allocator has to keep
up, whoever gives the ids back. -/
structure Deals (all used : Set ι) (s : FreeStack ι) : Prop where
  nodup : s.free.Nodup
  mem_iff : ∀ x, x ∈ s.free ↔ x ∈ all ∧ x ∉ used

namespace Deals

variable {all used : Set ι}

theorem congr {t : FreeStack ι} (h : Deals all used s) (hfree : t.free = s.free) :
    Deals all used t := by
  constructor
  · rw [hfree]
    exact h.nodup
  · rw [hfree]
    exact h.mem_iff

/-- Only the use of ids of `all` matters. -/
theorem congr_used {used' : Set ι} (h : Deals all used s)
    (hused : ∀ x ∈ all, x ∈ used ↔ x ∈ used') : Deals all used' s := by
  refine ⟨h.nodup, fun x => ?_⟩
  rw [h.mem_iff]
  exact and_congr_right fun hx => not_congr (hused x hx)

/-- The id that goes out next is one of `all` and not in use. -/
theorem next_mem (h : Deals all used s) (htop : 0 < s.top) : s.next ∈ all ∧ s.next ∉ used := by
  apply (h.mem_iff _).mp
  rw [free_pop htop]
  simp

theorem pop (h : Deals all used s) (htop : 0 < s.top) : Deals all (insert s.next used) s.pop := by
  have hnodup := h.nodup
  rw [free_pop htop, List.nodup_append] at hnodup
  obtain ⟨hrest, -, hnot⟩ := hnodup
  refine ⟨hrest, fun x => ?_⟩
  have hmem := h.mem_iff x
  rw [free_pop htop, List.mem_append, List.mem_singleton] at hmem
  rw [Set.mem_insert_iff, not_or]
  constructor
  · intro hx
    obtain ⟨hall, hused⟩ := hmem.mp (.inl hx)
    exact ⟨hall, hnot x hx _ (List.mem_singleton_self _), hused⟩
  · rintro ⟨hall, hne, hused⟩
    exact (hmem.mpr ⟨hall, hused⟩).resolve_right hne

theorem push (h : Deals all used s) (hall : x ∈ all) (hx : x ∈ used) :
    Deals all (used \ {x}) (s.push x) := by
  have hnot : x ∉ s.free := fun hfree => ((h.mem_iff x).mp hfree).2 hx
  refine ⟨?_, fun y => ?_⟩
  · rw [free_push, List.nodup_append]
    refine ⟨h.nodup, List.nodup_singleton x, ?_⟩
    rintro y hy _ hlast rfl
    rw [List.mem_singleton.mp hlast] at hy
    exact hnot hy
  · rw [free_push, List.mem_append, List.mem_singleton, h.mem_iff, Set.mem_sdiff,
      Set.mem_singleton_iff, not_and, not_not]
    constructor
    · rintro (⟨hy, hused⟩ | rfl)
      · exact ⟨hy, fun hused' => absurd hused' hused⟩
      · exact ⟨hall, fun _ => rfl⟩
    · rintro ⟨hy, himp⟩
      by_cases hused : y ∈ used
      · exact .inr (himp hused)
      · exact .inl ⟨hy, hused⟩

/-- There is nothing to deal out just if all ids are in use. -/
theorem top_eq_zero_iff (h : Deals all used s) : s.top = 0 ↔ ∀ x ∈ all, x ∈ used := by
  rw [← length_free, List.length_eq_zero_iff, List.eq_nil_iff_forall_not_mem]
  refine forall_congr' fun x => ?_
  rw [h.mem_iff, not_and, not_not]

theorem top_le [DecidableEq ι] (h : Deals all used s) {F : Finset ι} (hF : ∀ x ∈ all, x ∈ F) :
    s.top ≤ F.card := by
  rw [← length_free, ← List.toFinset_card_of_nodup h.nodup]
  apply Finset.card_le_card
  intro x hx
  exact hF x ((h.mem_iff x).mp (List.mem_toFinset.mp hx)).1

end Deals

end FreeStack

end Hub11.Data
