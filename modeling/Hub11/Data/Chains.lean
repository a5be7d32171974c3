import Mathlib.Data.List.Nodup
import Mathlib.Data.Set.Insert
import Mathlib.Logic.Function.Basic

/-!
Chains of entries under the keys of a table, as a hash table keeps them.

An entry has an id, and no two entries of the table have the same one. New entries go to the
end of a chain, and an entry is taken out by its id. What a search in a chain has found it
finds again until that entry is taken out.
-/

namespace Hub11.Data

/-- A chain for each key. A hash table is one with the keys of its buckets, several tables are one
with pairs for keys. -/
abbrev Chains (κ ε : Type) : Type := κ → List ε

namespace Chains

variable {κ ε ι : Type} [DecidableEq κ]

def append (c : Chains κ ε) (k : κ) (e : ε) : Chains κ ε := Function.update c k (c k ++ [e])

/-- The first entry of the chain with this id goes. -/
def remove [DecidableEq ι] (tag : ε → ι) (c : Chains κ ε) (k : κ) (x : ι) : Chains κ ε :=
  Function.update c k ((c k).eraseP fun e => tag e == x)

/-- The ids of the entries under keys that satisfy `P`. -/
def idsIn (tag : ε → ι) (c : Chains κ ε) (P : κ → Prop) : Set ι :=
  {x | ∃ k, P k ∧ ∃ e ∈ c k, tag e = x}

/-- No two entries have the same id, neither in one chain nor under two keys. -/
structure OneEach (tag : ε → ι) (c : Chains κ ε) : Prop where
  nodup : ∀ k, ((c k).map tag).Nodup
  home : ∀ k k' e e', e ∈ c k → e' ∈ c k' → tag e = tag e' → k = k'

section Find

variable {c : Chains κ ε} {tag : ε → ι} {p : ε → Bool} {k k' : κ} {e y : ε} {x : ι}

theorem find_append (h : (c k').find? p = some y) : ((c.append k e) k').find? p = some y := by
  unfold append
  by_cases hk : k' = k
  · subst hk
    rw [Function.update_self, List.find?_append, h]
    rfl
  · rw [Function.update_of_ne hk]
    exact h

theorem find_eraseP {q : ε → Bool} {l : List ε} (h : l.find? p = some y) (hy : q y = false) :
    (l.eraseP q).find? p = some y := by
  induction l with
  | nil => cases h
  | cons a l ih =>
      rw [List.find?_cons] at h
      rw [List.eraseP_cons]
      cases hp : p a with
      | true =>
          rw [hp] at h
          cases h
          simp [hy, hp]
      | false =>
          rw [hp] at h
          cases hq : q a with
          | true => simpa using h
          | false => simpa [hp] using ih h

theorem find_remove [DecidableEq ι] (h : (c k').find? p = some y) (hy : tag y ≠ x) :
    ((remove tag c k x) k').find? p = some y := by
  unfold remove
  by_cases hk : k' = k
  · subst hk
    rw [Function.update_self]
    exact find_eraseP h (by simpa using hy)
  · rw [Function.update_of_ne hk]
    exact h

end Find

section Members

variable {tag : ε → ι} {c : Chains κ ε} {P : κ → Prop} {k k' : κ} {e e' : ε} {x : ι}

theorem mem_append : e' ∈ c.append k e k' ↔ e' ∈ c k' ∨ k' = k ∧ e' = e := by
  unfold append
  by_cases hk : k' = k
  · subst hk
    simp
  · simp [hk]

theorem mem_eraseP_tag [DecidableEq ι] {l : List ε} (h : (l.map tag).Nodup) :
    e' ∈ l.eraseP (fun e => tag e == x) ↔ e' ∈ l ∧ tag e' ≠ x := by
  by_cases hx : tag e' = x
  · refine iff_of_false (fun hmem => ?_) (fun hmem => hmem.2 hx)
    have hlast : x ∉ (l.eraseP fun e => tag e == x).map tag := by
      have herase := List.eraseP_map (f := tag) (p := (· == x)) (l := l)
      rw [Function.comp_def] at herase
      rw [← herase, ← List.erase_eq_eraseP']
      exact h.not_mem_erase
    exact hlast (List.mem_map.mpr ⟨e', hmem, hx⟩)
  · simp [hx]

theorem OneEach.mem_remove [DecidableEq ι] (h : OneEach tag c) :
    e' ∈ remove tag c k x k' ↔ e' ∈ c k' ∧ ¬(k' = k ∧ tag e' = x) := by
  unfold remove
  by_cases hk : k' = k
  · subst hk
    rw [Function.update_self, mem_eraseP_tag (h.nodup k')]
    simp
  · simp [hk]

theorem idsIn_append (hP : P k) : idsIn tag (c.append k e) P = insert (tag e) (idsIn tag c P) := by
  ext x
  simp only [idsIn, mem_append, Set.mem_ofPred_eq, Set.mem_insert_iff]
  constructor
  · rintro ⟨k', hk', e', he' | ⟨rfl, rfl⟩, rfl⟩
    · exact .inr ⟨k', hk', e', he', rfl⟩
    · exact .inl rfl
  · rintro (rfl | ⟨k', hk', e', he', rfl⟩)
    · exact ⟨k, hP, e, .inr ⟨rfl, rfl⟩, rfl⟩
    · exact ⟨k', hk', e', .inl he', rfl⟩

theorem idsIn_append_of_not (hP : ¬P k) : idsIn tag (c.append k e) P = idsIn tag c P := by
  ext x
  simp only [idsIn, mem_append, Set.mem_ofPred_eq]
  constructor
  · rintro ⟨k', hk', e', he' | ⟨rfl, rfl⟩, rfl⟩
    · exact ⟨k', hk', e', he', rfl⟩
    · exact absurd hk' hP
  · rintro ⟨k', hk', e', he', rfl⟩
    exact ⟨k', hk', e', .inl he', rfl⟩

end Members

namespace OneEach

variable {tag : ε → ι} {c : Chains κ ε} {P : κ → Prop} {k k' : κ} {e e' : ε} {x : ι}

omit [DecidableEq κ] in
/-- An id has one entry. -/
theorem unique (h : OneEach tag c) (he : e ∈ c k) (he' : e' ∈ c k') (htag : tag e = tag e') :
    k = k' ∧ e = e' := by
  obtain rfl := h.home k k' e e' he he' htag
  exact ⟨rfl, List.inj_on_of_nodup_map (h.nodup k) he he' htag⟩

theorem append (h : OneEach tag c) (hnew : ∀ k, ∀ e' ∈ c k, tag e' ≠ tag e) :
    OneEach tag (c.append k e) := by
  constructor
  · intro k'
    unfold Chains.append
    by_cases hk : k' = k
    · subst hk
      rw [Function.update_self, List.map_append, List.nodup_append]
      refine ⟨h.nodup k', by simp, ?_⟩
      intro a ha b hb
      obtain ⟨e', he', rfl⟩ := List.mem_map.mp ha
      rw [List.map_singleton, List.mem_singleton] at hb
      rw [hb]
      exact hnew k' e' he'
    · rw [Function.update_of_ne hk]
      exact h.nodup k'
  · intro k₁ k₂ e₁ e₂ he₁ he₂ htag
    rcases mem_append.mp he₁ with h₁ | ⟨rfl, rfl⟩ <;> rcases mem_append.mp he₂ with h₂ | ⟨rfl, rfl⟩
    · exact h.home k₁ k₂ e₁ e₂ h₁ h₂ htag
    · exact absurd htag (hnew k₁ e₁ h₁)
    · exact absurd htag.symm (hnew k₂ e₂ h₂)
    · rfl

theorem remove [DecidableEq ι] (h : OneEach tag c) : OneEach tag (Chains.remove tag c k x) := by
  constructor
  · intro k'
    unfold Chains.remove
    by_cases hk : k' = k
    · subst hk
      rw [Function.update_self]
      exact (h.nodup k').sublist (List.eraseP_sublist.map tag)
    · rw [Function.update_of_ne hk]
      exact h.nodup k'
  · intro k₁ k₂ e₁ e₂ he₁ he₂ htag
    exact h.home k₁ k₂ e₁ e₂ (h.mem_remove.mp he₁).1 (h.mem_remove.mp he₂).1 htag

/-- Once its entry is taken out, an id is nowhere. -/
theorem idsIn_remove [DecidableEq ι] (h : OneEach tag c) (he : e ∈ c k) :
    idsIn tag (Chains.remove tag c k (tag e)) P = idsIn tag c P \ {tag e} := by
  ext x
  simp only [idsIn, h.mem_remove, Set.mem_ofPred_eq, Set.mem_sdiff, Set.mem_singleton_iff]
  constructor
  · rintro ⟨k', hk', e', ⟨he', hnot⟩, rfl⟩
    refine ⟨⟨k', hk', e', he', rfl⟩, fun htag => hnot ⟨?_, htag⟩⟩
    exact h.home k' k e' e he' he htag
  · rintro ⟨⟨k', hk', e', he', rfl⟩, hne⟩
    exact ⟨k', hk', e', ⟨he', fun heq => hne heq.2⟩, rfl⟩

end OneEach

end Chains

end Hub11.Data
