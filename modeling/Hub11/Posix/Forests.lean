import Mathlib.Data.List.Nodup
import Hub11.Posix.Views

/-!
The directory operations on a pair of trees.

The two trees of a merge are a forest with two roots `s` and `d`. Each lemma of this
module is about one operation on an entry `n` of the roots: the views afterwards,
the forest afterwards, and that the change stays within the forest. The general
step from a subtree pair to the pair above it is `Forest.lift`.
-/

namespace Hub11.Posix

namespace Forest

variable {ι : Type} {fs fs' : FS} {dev : Nat} {root : ι → Ino}

/-- Different places hold different inodes, if one of them is a directory. -/
theorem ne_of_place (F : Forest fs dev root) {a b : ι} {p q : List Name} {i j : Ino}
    (hi : fs.descend (root a) p = some i) (hj : fs.descend (root b) q = some j)
    (hdir : fs.isDir j = true) (hne : ¬ (a = b ∧ p = q)) : i ≠ j := by
  rintro rfl
  exact hne (F.inj hi hj hdir)

/-- Nothing below a root is a root. -/
theorem ne_root (F : Forest fs dev root) {a b : ι} {n : Name} {p : List Name} {i : Ino}
    (hi : fs.descend (root a) (n :: p) = some i) (hdir : fs.isDir (root b) = true) :
    i ≠ root b :=
  F.ne_of_place hi (q := []) rfl hdir (by simp)

end Forest

namespace FS

variable {fs fs' : FS}

/-- If only the entry `n` of directory `r` changes, the view changes only below `n`. -/
theorem view_edit {r : Ino} {n : Name} (hobj : fs'.obj r = fs.obj r)
    (hchild : ∀ m, m ≠ n → fs'.child r m = fs.child r m)
    (hbelow : ∀ m p k, m ≠ n → fs.descend r (m :: p) = some k →
      fs'.entries k = fs.entries k ∧ fs'.obj k = fs.obj k) :
    fs'.view r = (fs.view r).set n ((fs'.view r).sub n) := by
  refine View.ext_sub hobj fun m => ?_
  by_cases h : m = n
  · subst h
    simp
  · rw [View.sub_set_of_ne _ _ h]
    cases hc : fs.child r m with
    | none => rw [view_sub_of_no_child _ hc, view_sub_of_no_child _ ((hchild m h).trans hc)]
    | some j =>
        rw [view_sub_of_child _ hc, view_sub_of_child _ ((hchild m h).trans hc)]
        refine view_congr fun p k hp => hbelow m p k h ?_
        rw [descend_cons_of_child _ hc]
        exact hp

theorem isDir_eq_of_obj {k : Ino} (h : fs'.obj k = fs.obj k) : fs'.isDir k = fs.isDir k := by
  apply Bool.eq_iff_iff.mpr
  rw [← obj_eq_dir_iff, ← obj_eq_dir_iff, h]

end FS

/-! ### Changing one entry of a forest -/

/-- The directories on a path are different inodes, so there is no path longer than
the table. -/
theorem Forest.path_length_lt {ι : Type} {fs : FS} {dev : Nat} {root : ι → Ino}
    (F : Forest fs dev root) {a : ι} {p : List Name} {k : Ino}
    (hk : fs.descend (root a) p = some k) (hdir : fs.isDir k = true) : p.length < fs.next := by
  have hstep : ∀ j, j ≤ p.length → ∃ i, fs.descend (root a) (p.take j) = some i ∧
      fs.isDir i = true := by
    intro j hj
    have hsplit := hk
    rw [← List.take_append_drop j p, FS.descend_append] at hsplit
    obtain ⟨i, hi, hrest⟩ := Option.bind_eq_some_iff.mp hsplit
    refine ⟨i, hi, ?_⟩
    cases hdrop : p.drop j with
    | nil =>
        rw [hdrop] at hrest
        cases hrest
        exact hdir
    | cons n t =>
        rw [hdrop] at hrest
        obtain ⟨c, hc, _⟩ := fs.descend_cons_eq_some hrest
        exact fs.isDir_of_child hc
  have : Nonempty Ino := ⟨k⟩
  choose! f hf hfdir using hstep
  let nums := (List.range (p.length + 1)).map fun j => (f j).num
  have hmem : ∀ {j}, j ∈ List.range (p.length + 1) → j ≤ p.length := fun hj =>
    Nat.le_of_lt_succ (List.mem_range.mp hj)
  have hnodup : nums.Nodup := by
    refine List.Nodup.map_on (fun x hx y hy hxy => ?_) List.nodup_range
    have hdev : (f x).dev = (f y).dev :=
      (F.onDev (hf x (hmem hx))).trans (F.onDev (hf y (hmem hy))).symm
    have hfxy : f x = f y := by
      cases hfx : f x
      cases hfy : f y
      simp_all
    have hlen := congrArg List.length
      (F.inj (hf x (hmem hx)) (hfxy ▸ hf y (hmem hy)) (hfdir x (hmem hx))).2
    simp only [List.length_take] at hlen
    have := hmem hx
    have := hmem hy
    omega
  have hsub : nums ⊆ List.range fs.next := by
    intro num hnum
    obtain ⟨j, hj, rfl⟩ := List.mem_map.mp hnum
    exact List.mem_range.mpr (fs.bounded _ (F.live (hf j (hmem hj))))
  have := hnodup.length_le_of_subset hsub
  simp only [nums, List.length_map, List.length_range] at this
  omega

/-- The place `(a, q)` of a forest holds directory `k`. -/
structure Place {ι : Type} (fs : FS) (root : ι → Ino) (a : ι) (q : List Name) (k : Ino) : Prop where
  at_path : fs.descend (root a) q = some k
  isDir : fs.isDir k = true

theorem not_append_prefix {q : List Name} {n : Name} : ¬ q ++ [n] <+: q := by
  intro h
  have hlen := h.length_le
  rw [List.length_append, List.length_singleton] at hlen
  omega

section Edge

variable {ι : Type} {fs fs' : FS} {dev : Nat} {root : ι → Ino} {a₀ : ι} {q₀ : List Name} {k₀ : Ino}
  {n : Name} (F : Forest fs dev root) (place : Place fs root a₀ q₀ k₀)
  (hchild : ∀ i m, fs.node i ≠ none → ¬ (i = k₀ ∧ m = n) → fs'.child i m = fs.child i m)

include F place hchild

/-- Paths that do not use the changed entry lead where they led before. -/
theorem Forest.descend_off_edge {a : ι} {p : List Name} (h : ¬ (a = a₀ ∧ q₀ ++ [n] <+: p)) :
    fs'.descend (root a) p = fs.descend (root a) p := by
  refine FS.descend_congr_path fun q m t i hp hq => hchild i m (F.live hq) ?_
  rintro ⟨rfl, rfl⟩
  obtain ⟨rfl, rfl⟩ := F.inj hq place.at_path place.isDir
  exact h ⟨rfl, t, by rw [hp]; simp⟩

theorem Forest.descend_on_edge (t : List Name) :
    fs'.descend (root a₀) (q₀ ++ n :: t) = (fs'.child k₀ n).bind fun j => fs'.descend j t := by
  have h := F.descend_off_edge place hchild (a := a₀) (p := q₀) fun h => not_append_prefix h.2
  rw [FS.descend_append, h, place.at_path]
  rfl

/-- If the kinds of inodes at other places stay the same, the view changes only
below the changed entry. -/
theorem Forest.view_edge
    (hobj : ∀ {a p i}, fs.descend (root a) p = some i → ¬ (a = a₀ ∧ q₀ ++ [n] <+: p) →
      fs'.obj i = fs.obj i) {X : View}
    (hX : ∀ t, ((fs'.child k₀ n).bind fun j => fs'.descend j t).bind fs'.obj = X t) :
    fs'.view (root a₀) = (fs.view (root a₀)).put (q₀ ++ [n]) X ∧
      ∀ a, a ≠ a₀ → fs'.view (root a) = fs.view (root a) := by
  have off : ∀ a p, ¬ (a = a₀ ∧ q₀ ++ [n] <+: p) → fs'.view (root a) p = fs.view (root a) p := by
    intro a p h
    unfold FS.view
    rw [F.descend_off_edge place hchild h]
    cases hd : fs.descend (root a) p with
    | none => rfl
    | some i => exact hobj hd h
  constructor
  · funext p
    by_cases h : q₀ ++ [n] <+: p
    · obtain ⟨t, rfl⟩ := h
      rw [View.put_append]
      unfold FS.view
      rw [List.append_assoc, List.singleton_append, F.descend_on_edge place hchild]
      exact hX t
    · rw [View.put_of_not_below _ _ h]
      exact off a₀ p fun h' => h h'.2
  · intro a ha
    funext p
    exact off a p fun h => ha h.1

end Edge

/-- The tree at `s` only lost entries, and no directory of it has grown. It is what makes the
recursion of a merge end. -/
def Shrinks (fs fs' : FS) (s : Ino) : Prop :=
  ∀ p k, fs'.descend s p = some k → fs.descend s p = some k ∧
    ∀ es', fs'.entries k = some es' → ∃ es, fs.entries k = some es ∧ es'.length ≤ es.length

theorem Shrinks.refl (fs : FS) (s : Ino) : Shrinks fs fs s :=
  fun _ _ h => ⟨h, fun es' he => ⟨es', he, Nat.le_refl _⟩⟩

theorem Shrinks.trans {fs fs' fs'' : FS} {s : Ino} (h : Shrinks fs fs' s)
    (h' : Shrinks fs' fs'' s) : Shrinks fs fs'' s := by
  intro p k hk
  obtain ⟨hk', hlen'⟩ := h' p k hk
  obtain ⟨hk'', hlen⟩ := h p k hk'
  refine ⟨hk'', fun es'' he => ?_⟩
  obtain ⟨es', he', hle'⟩ := hlen' es'' he
  obtain ⟨es, he, hle⟩ := hlen es' he'
  exact ⟨es, he, Nat.le_trans hle' hle⟩

/-- A new forest on the same paths: every directory was at the same path before, and
no two roots share one. -/
theorem Forest.of_origin {ι : Type} {fs fs' : FS} {dev : Nat} {root : ι → Ino}
    (F : Forest fs dev root)
    (origin : ∀ {a p k}, fs'.descend (root a) p = some k →
      ∃ b, fs.descend (root b) p = some k ∧ fs'.obj k = fs.obj k)
    (excl : ∀ {a b p k}, fs'.descend (root a) p = some k → fs'.descend (root b) p = some k →
      fs'.isDir k = true → a = b) : Forest fs' dev root where
  inj := by
    intro a b p q k hp hq hdir
    obtain ⟨a', hp', hobj⟩ := origin hp
    obtain ⟨b', hq', _⟩ := origin hq
    have hpq := (F.inj hp' hq' (FS.isDir_eq_of_obj hobj ▸ hdir)).2
    subst hpq
    exact ⟨excl hp hq hdir, rfl⟩
  live := by
    intro a p k hp
    obtain ⟨b, hp', hobj⟩ := origin hp
    rw [Ne, ← FS.obj_eq_none_iff, hobj, FS.obj_eq_none_iff]
    exact F.live hp'
  onDev := by
    intro a p k hp
    obtain ⟨b, hp', _⟩ := origin hp
    exact F.onDev hp'

/-! ### Working in subtrees -/

/-- The roots `root'` are directories of the forest `root`, at the places `loc`, none
below another. -/
structure Embeds {ι κ : Type} (fs : FS) (root : ι → Ino) (root' : κ → Ino)
    (loc : κ → ι × List Name) : Prop where
  located : ∀ k, fs.descend (root (loc k).1) (loc k).2 = some (root' k)
  apart : ∀ {k l}, (loc k).1 = (loc l).1 → (loc k).2 <+: (loc l).2 → k = l

section Lift

variable {ι κ : Type} {fs fs' : FS} {dev : Nat} {root : ι → Ino} {root' : κ → Ino}
  {loc : κ → ι × List Name}

/-- The path `p` from root `a` stays outside the subtrees, so that an operation inside them does not
touch it. -/
def Outside (loc : κ → ι × List Name) (a : ι) (p : List Name) : Prop :=
  ∀ k, (loc k).1 = a → ¬ (loc k).2 <+: p

theorem Outside.anti {a : ι} {p q : List Name} (h : Outside loc a p) (hq : q <+: p) :
    Outside loc a q :=
  fun k hk hpre => h k hk (hpre.trans hq)

theorem Embeds.descend_append (E : Embeds fs root root' loc) (k : κ) (t : List Name) :
    fs.descend (root (loc k).1) ((loc k).2 ++ t) = fs.descend (root' k) t := by
  rw [FS.descend_append, E.located k]
  rfl

/-- The subtrees of a forest form a forest. -/
theorem Embeds.forest (E : Embeds fs root root' loc) (F : Forest fs dev root) :
    Forest fs dev root' where
  inj := by
    intro k l p q i hp hq hdir
    rw [← E.descend_append] at hp hq
    obtain ⟨hkl, hpq⟩ := F.inj hp hq hdir
    have : k = l := by
      rcases List.prefix_or_prefix_of_prefix (List.prefix_append (loc k).2 p)
        (hpq ▸ List.prefix_append (loc l).2 q) with h | h
      · exact E.apart hkl h
      · exact (E.apart hkl.symm h).symm
    subst this
    exact ⟨rfl, List.append_cancel_left hpq⟩
  live := by
    intro k p i hp
    rw [← E.descend_append] at hp
    exact F.live hp
  onDev := by
    intro k p i hp
    rw [← E.descend_append] at hp
    exact F.onDev hp

variable (F : Forest fs dev root) (E : Embeds fs root root' loc) (W : Within fs fs' root')

include F E W

/-- Outside the subtrees nothing changes. -/
theorem Embeds.node_outside {a : ι} {p : List Name} {i : Ino}
    (hp : fs.descend (root a) p = some i) (hout : Outside loc a p) : fs'.node i = fs.node i := by
  refine W.frame (F.live hp) fun k t ht => ?_
  by_contra hdir
  rw [← E.descend_append] at ht
  obtain ⟨rfl, rfl⟩ := F.inj hp ht (by simpa using hdir)
  exact hout k rfl (List.prefix_append _ _)

/-- A path whose proper prefixes stay outside leads where it led before. -/
theorem Embeds.descend_outside {a : ι} {p : List Name}
    (hout : ∀ q m t, p = q ++ m :: t → Outside loc a q) :
    fs'.descend (root a) p = fs.descend (root a) p := by
  refine FS.descend_congr_path fun q m t i hp hq => ?_
  have := Embeds.node_outside F E W hq (hout q m t hp)
  simp [FS.child, FS.entries, this]

/-- The subtrees stay where they are. -/
theorem Embeds.keep : Embeds fs' root root' loc where
  located := by
    intro k
    rw [Embeds.descend_outside F E W, E.located k]
    intro q m t hp l hl hpre
    have hkl : l = k := E.apart hl (hpre.trans (hp ▸ List.prefix_append _ _))
    subst hkl
    have hlen := hpre.length_le
    rw [hp, List.length_append, List.length_cons] at hlen
    omega
  apart := E.apart

/-- A path is outside the subtrees, or continues in one of them. -/
theorem Embeds.place_cases {a : ι} {p : List Name} {i : Ino}
    (hp : fs'.descend (root a) p = some i) :
    (Outside loc a p ∧ fs.descend (root a) p = some i) ∨
      ∃ k t, (loc k).1 = a ∧ p = (loc k).2 ++ t ∧ fs'.descend (root' k) t = some i := by
  by_cases h : Outside loc a p
  · refine .inl ⟨h, ?_⟩
    rw [← hp, Embeds.descend_outside F E W]
    intro q m t hq
    exact h.anti (hq ▸ List.prefix_append _ _)
  · simp only [Outside, not_forall, not_not] at h
    obtain ⟨k, rfl, t, rfl⟩ := h
    rw [(Embeds.keep F E W).descend_append] at hp
    exact .inr ⟨k, t, rfl, rfl, hp⟩

theorem Embeds.lift_forest (F' : Forest fs' dev root') : Forest fs' dev root where
  inj := by
    -- a directory outside the subtrees is none of those inside, old or new
    have mixed : ∀ {a p k t i}, Outside loc a p → fs.descend (root a) p = some i →
        fs'.descend (root' k) t = some i → fs'.isDir i = true → False := by
      intro a p k t i hout hp ht hdir
      have hnode := Embeds.node_outside F E W hp hout
      rcases W.grow ht hdir with ⟨l, r, hr⟩ | hnone
      · rw [← E.descend_append] at hr
        obtain ⟨rfl, rfl⟩ := F.inj hp hr (Within.isDir_eq hnode ▸ hdir)
        exact hout l rfl (List.prefix_append _ _)
      · exact F.live hp hnone
    intro a b p q i hp hq hdir
    rcases Embeds.place_cases F E W hp with ⟨ho, hp'⟩ | ⟨k, t, rfl, rfl, ht⟩ <;>
      rcases Embeds.place_cases F E W hq with ⟨ho', hq'⟩ | ⟨l, r, rfl, rfl, hr⟩
    · exact F.inj hp' hq' (Within.isDir_eq (Embeds.node_outside F E W hp' ho) ▸ hdir)
    · exact (mixed ho hp' hr hdir).elim
    · exact (mixed ho' hq' ht hdir).elim
    · obtain ⟨rfl, rfl⟩ := F'.inj ht hr hdir
      exact ⟨rfl, rfl⟩
  live := by
    intro a p i hp
    rcases Embeds.place_cases F E W hp with ⟨ho, hp'⟩ | ⟨k, t, _, _, ht⟩
    · rw [Embeds.node_outside F E W hp' ho]
      exact F.live hp'
    · exact F'.live ht
  onDev := by
    intro a p i hp
    rcases Embeds.place_cases F E W hp with ⟨_, hp'⟩ | ⟨k, t, _, _, ht⟩
    · exact F.onDev hp'
    · exact F'.onDev ht

theorem Embeds.lift_within : Within fs fs' root where
  frame := by
    intro i hi hout
    refine W.frame hi fun k t ht => ?_
    rw [← E.descend_append] at ht
    exact hout _ _ ht
  grow := by
    intro a p i hp hdir
    rcases Embeds.place_cases F E W hp with ⟨_, hp'⟩ | ⟨k, t, _, _, ht⟩
    · exact .inl ⟨a, p, hp'⟩
    · rcases W.grow ht hdir with ⟨l, r, hr⟩ | hnone
      · rw [← E.descend_append] at hr
        exact .inl ⟨_, _, hr⟩
      · exact .inr hnone
  next := W.next

theorem Embeds.lift_shrinks {a : ι} (h : ∀ k, (loc k).1 = a → Shrinks fs fs' (root' k)) :
    Shrinks fs fs' (root a) := by
  intro p i hp
  rcases Embeds.place_cases F E W hp with ⟨ho, hp'⟩ | ⟨k, t, rfl, rfl, ht⟩
  · refine ⟨hp', fun es' he => ⟨es', ?_, Nat.le_refl _⟩⟩
    have hnode := Embeds.node_outside F E W hp' ho
    rw [← he]
    simp [FS.entries, hnode]
  · rw [E.descend_append]
    exact h k rfl t i ht

/-- The view of the whole: unchanged outside, and the subtrees' views inside. -/
theorem Embeds.view_outside {a : ι} {p : List Name} (hout : Outside loc a p) :
    fs'.view (root a) p = fs.view (root a) p := by
  have hsame : fs'.descend (root a) p = fs.descend (root a) p :=
    Embeds.descend_outside F E W fun q m t hq =>
      hout.anti (hq.symm ▸ List.prefix_append q (m :: t))
  unfold FS.view
  rw [hsame]
  cases hd : fs.descend (root a) p with
  | none => rfl
  | some i =>
      have := Embeds.node_outside F E W hd hout
      simp [FS.obj, this]

theorem Embeds.view_inside (k : κ) (t : List Name) :
    fs'.view (root (loc k).1) ((loc k).2 ++ t) = fs'.view (root' k) t := by
  unfold FS.view
  rw [(Embeds.keep F E W).descend_append]

end Lift

section Remove

variable {ι : Type} {fs : FS} {dev : Nat} {root : ι → Ino} {a₀ : ι} {q₀ : List Name} {k₀ i₀ : Ino}
  {n : Name} (F : Forest fs dev root) (place : Place fs root a₀ q₀ k₀)
  (hi : fs.child k₀ n = some i₀)

/-- Removing an entry; with `gone` the inode it named is an empty directory and goes too. -/
def FS.remove (fs : FS) (k : Ino) (n : Name) (i : Ino) (gone : Bool) : FS :=
  if gone then (fs.delEntry k n).drop i else fs.delEntry k n

variable {gone : Bool} (hgone : gone = true → fs.isEmptyDir i₀ = true)

theorem FS.obj_remove (k i j : Ino) :
    (fs.remove k n i gone).obj j = if gone = true ∧ j = i then none else fs.obj j := by
  unfold FS.remove
  cases gone with
  | false => simp [FS.obj_delEntry]
  | true => simp [FS.obj_drop, FS.obj_delEntry]

theorem FS.entries_remove (k i j : Ino) :
    (fs.remove k n i gone).entries j =
      if gone = true ∧ j = i then none
      else if j = k then (fs.entries k).map (dirDel · n) else fs.entries j := by
  unfold FS.remove
  cases gone with
  | false => simp [FS.entries_delEntry]
  | true => simp [FS.entries_drop, FS.entries_delEntry]

theorem FS.node_remove {k i j : Ino} (hk : j ≠ k) (hgone : gone = true → j ≠ i) :
    (fs.remove k n i gone).node j = fs.node j := by
  unfold FS.remove
  cases gone with
  | false => simp [FS.node_delEntry_of_ne _ _ _ _ hk]
  | true => simp [FS.node_drop_of_ne _ _ _ (hgone rfl), FS.node_delEntry_of_ne _ _ _ _ hk]

include F place hi hgone

private theorem remove_ne (h : gone = true) : k₀ ≠ i₀ := by
  refine F.ne_of_place place.at_path (b := a₀) (q := q₀ ++ [n]) ?_ ?_ ?_
  · rw [FS.descend_append, place.at_path]
    simp [FS.descend_cons, hi]
  · exact fs.isDir_iff.mpr ⟨[], fs.isEmptyDir_iff.mp (hgone h)⟩
  · simp

theorem Forest.remove_child (j : Ino) (m : Name) :
    (fs.remove k₀ n i₀ gone).child j m = if j = k₀ ∧ m = n then none else fs.child j m := by
  obtain ⟨es, he⟩ := fs.isDir_iff.mp place.isDir
  by_cases hj : j = k₀
  · subst hj
    have hne : ¬ (gone = true ∧ j = i₀) := fun h => remove_ne F place hi hgone h.1 h.2
    have he' : (fs.remove j n i₀ gone).entries j = some (dirDel es n) := by
      rw [FS.entries_remove, if_neg hne, if_pos rfl, he]
      rfl
    rw [FS.child_of_entries _ he', FS.child_of_entries _ he, dirGet_del]
    simp
  · by_cases hg : gone = true ∧ j = i₀
    · -- the removed directory was empty, so its entries are the same as those of no directory
      obtain ⟨hg, rfl⟩ := hg
      have hempty := fs.isEmptyDir_iff.mp (hgone hg)
      have hnone : (fs.remove k₀ n j gone).entries j = none := by
        rw [FS.entries_remove, if_pos ⟨hg, rfl⟩]
      simp [FS.child, hnone, hempty, dirGet_nil]
    · simp [FS.child, FS.entries_remove, hg, hj]

private theorem remove_hchild (j : Ino) (m : Name) (_ : fs.node j ≠ none)
    (h : ¬ (j = k₀ ∧ m = n)) : (fs.remove k₀ n i₀ gone).child j m = fs.child j m := by
  rw [F.remove_child place hi hgone, if_neg h]

private theorem remove_obj {a : ι} {p : List Name} {j : Ino} (hp : fs.descend (root a) p = some j)
    (hne : ¬ (a = a₀ ∧ q₀ ++ [n] <+: p)) : (fs.remove k₀ n i₀ gone).obj j = fs.obj j := by
  rw [FS.obj_remove, if_neg]
  rintro ⟨hg, rfl⟩
  have hplace : fs.descend (root a₀) (q₀ ++ [n]) = some j := by
    rw [FS.descend_append, place.at_path]
    simp [FS.descend_cons, hi]
  obtain ⟨rfl, rfl⟩ := F.inj hp hplace (fs.isDir_iff.mpr ⟨[], fs.isEmptyDir_iff.mp (hgone hg)⟩)
  exact hne ⟨rfl, List.prefix_refl _⟩

/-- No place of the new forest is below the removed entry. -/
private theorem remove_origin {a : ι} {p : List Name} {j : Ino}
    (hp : (fs.remove k₀ n i₀ gone).descend (root a) p = some j) :
    fs.descend (root a) p = some j ∧ ¬ (a = a₀ ∧ q₀ ++ [n] <+: p) := by
  have hne : ¬ (a = a₀ ∧ q₀ ++ [n] <+: p) := by
    rintro ⟨rfl, t, rfl⟩
    rw [List.append_assoc, List.singleton_append,
      F.descend_on_edge place (remove_hchild F place hi hgone),
      F.remove_child place hi hgone, if_pos ⟨rfl, rfl⟩] at hp
    cases hp
  rw [F.descend_off_edge place (remove_hchild F place hi hgone) hne] at hp
  exact ⟨hp, hne⟩

/-- A directory stays where it is unless it was at or below the removed entry. -/
theorem Forest.remove_place {a : ι} {p : List Name} {j : Ino} (h : Place fs root a p j)
    (hne : ¬ (a = a₀ ∧ q₀ ++ [n] <+: p)) : Place (fs.remove k₀ n i₀ gone) root a p j where
  at_path := by
    rw [F.descend_off_edge place (remove_hchild F place hi hgone) hne]
    exact h.at_path
  isDir := by
    rw [FS.isDir_eq_of_obj (remove_obj F place hi hgone h.at_path hne)]
    exact h.isDir

theorem Forest.remove_view :
    (fs.remove k₀ n i₀ gone).view (root a₀) = (fs.view (root a₀)).put (q₀ ++ [n]) View.empty ∧
      ∀ a, a ≠ a₀ → (fs.remove k₀ n i₀ gone).view (root a) = fs.view (root a) := by
  refine F.view_edge place (remove_hchild F place hi hgone)
    (fun hp hne => remove_obj F place hi hgone hp hne) fun t => ?_
  rw [F.remove_child place hi hgone, if_pos ⟨rfl, rfl⟩]
  rfl

theorem Forest.remove_forest : Forest (fs.remove k₀ n i₀ gone) dev root := by
  refine F.of_origin (fun {a _ _} hp => ?_) fun ha hb hdir => ?_
  · obtain ⟨hp', hne⟩ := remove_origin F place hi hgone hp
    exact ⟨a, hp', remove_obj F place hi hgone hp' hne⟩
  · obtain ⟨ha', hne⟩ := remove_origin F place hi hgone ha
    obtain ⟨hb', _⟩ := remove_origin F place hi hgone hb
    rw [FS.isDir_eq_of_obj (remove_obj F place hi hgone ha' hne)] at hdir
    exact (F.inj ha' hb' hdir).1

theorem Forest.remove_within : Within fs (fs.remove k₀ n i₀ gone) root where
  frame := by
    intro k _ hout
    refine FS.node_remove (fun h => ?_) fun hg h => ?_
    · have := hout a₀ q₀ (h ▸ place.at_path)
      rw [h, place.isDir] at this
      cases this
    · have := hout a₀ (q₀ ++ [n]) (by
        rw [FS.descend_append, place.at_path]
        simp [FS.descend_cons, hi, h])
      rw [h, fs.isDir_iff.mpr ⟨[], fs.isEmptyDir_iff.mp (hgone hg)⟩] at this
      cases this
  grow := by
    intro a p k hp _
    exact .inl ⟨a, p, (remove_origin F place hi hgone hp).1⟩
  next := by
    unfold FS.remove
    cases gone <;> exact Nat.le_refl _

theorem Forest.remove_shrinks (a : ι) : Shrinks fs (fs.remove k₀ n i₀ gone) (root a) := by
  intro p k hp
  obtain ⟨hp', hne⟩ := remove_origin F place hi hgone hp
  refine ⟨hp', fun es' he => ?_⟩
  rw [FS.entries_remove] at he
  split at he
  · cases he
  · split at he
    · rename_i hk
      obtain ⟨es, hes⟩ := fs.isDir_iff.mp place.isDir
      rw [hes] at he
      cases he
      exact ⟨es, hk ▸ hes, dirDel_length_le es n⟩
    · exact ⟨es', he, Nat.le_refl _⟩

end Remove

section Create

variable {ι : Type} {fs : FS} {dev : Nat} {root : ι → Ino} {a₀ : ι} {q₀ : List Name} {k₀ : Ino}
  {n : Name} (F : Forest fs dev root) (place : Place fs root a₀ q₀ k₀)

/-- A node with nothing below it. -/
def Node.Bare : Node → Prop
  | .dir _ es => es = []
  | _ => True

def Node.obj (i : Ino) : Node → Obj
  | .dir _ _ => .dir
  | _ => .leaf i

variable {node : Node}

theorem FS.obj_link (j : Ino) :
    (fs.link k₀ n node).obj j =
      if j = fs.fresh k₀.dev then some (node.obj j) else fs.obj j := by
  unfold FS.link
  rw [FS.obj_setEntry]
  unfold FS.obj
  rw [FS.node_alloc]
  by_cases h : j = fs.fresh k₀.dev
  · cases node <;> simp [h, Node.obj]
  · simp [h]

theorem FS.node_link_fresh (hk : fs.node k₀ ≠ none) :
    (fs.link k₀ n node).node (fs.fresh k₀.dev) = some node := by
  unfold FS.link
  rw [FS.node_setEntry_of_ne _ _ _ _ _ (fs.ne_fresh_of_node hk _).symm, FS.node_alloc, if_pos rfl]

theorem FS.node_link {j : Ino} (hj : j ≠ k₀) (hf : fs.node j ≠ none) :
    (fs.link k₀ n node).node j = fs.node j := by
  unfold FS.link
  rw [FS.node_setEntry_of_ne _ _ _ _ _ hj, FS.node_alloc, if_neg (fs.ne_fresh_of_node hf _)]

theorem FS.child_link (hk : fs.isDir k₀ = true) (hbare : node.Bare) (j : Ino) (m : Name) :
    (fs.link k₀ n node).child j m =
      if j = k₀ ∧ m = n then some (fs.fresh k₀.dev) else fs.child j m := by
  have hnode : fs.node k₀ ≠ none := by
    rw [Ne, ← FS.obj_eq_none_iff, fs.obj_eq_dir_iff.mpr hk]
    simp
  have halloc : ∀ i, i ≠ fs.fresh k₀.dev → (fs.alloc k₀.dev node).entries i = fs.entries i := by
    intro i hi
    simp [FS.entries, FS.node_alloc, hi]
  obtain ⟨es, he⟩ := fs.isDir_iff.mp hk
  by_cases hj : j = k₀
  · subst hj
    have he' : (fs.link j n node).entries j = some (dirSet es n (fs.fresh j.dev)) := by
      unfold FS.link
      rw [FS.entries_setEntry, if_pos rfl, halloc j (fs.ne_fresh_of_node hnode _), he]
      rfl
    rw [FS.child_of_entries _ he', FS.child_of_entries _ he, dirGet_set]
    simp
  · have hsame : (fs.link k₀ n node).entries j = (fs.alloc k₀.dev node).entries j := by
      unfold FS.link
      rw [FS.entries_setEntry, if_neg hj]
    by_cases hf : j = fs.fresh k₀.dev
    · -- the new node has no entries, and its inode was not in use
      have hold : fs.entries j = none := by simp [FS.entries, hf, fs.fresh_node]
      unfold FS.child
      rw [hsame, hold]
      have : (fs.alloc k₀.dev node).node j = some node := by rw [FS.node_alloc, if_pos hf]
      unfold FS.entries
      rw [this]
      cases node with
      | dir p es' => simp [show es' = [] from hbare, hj, dirGet_nil]
      | file _ => simp [hj]
      | symlink _ => simp [hj]
    · unfold FS.child
      rw [hsame, halloc j hf]
      simp [hj]

variable (hbare : node.Bare)

include F place hbare

omit F in
private theorem link_hchild (j : Ino) (m : Name) (_ : fs.node j ≠ none)
    (h : ¬ (j = k₀ ∧ m = n)) : (fs.link k₀ n node).child j m = fs.child j m := by
  rw [FS.child_link place.isDir hbare, if_neg h]

omit place hbare in
private theorem link_obj {a : ι} {p : List Name} {j : Ino} (hp : fs.descend (root a) p = some j) :
    (fs.link k₀ n node).obj j = fs.obj j := by
  rw [FS.obj_link, if_neg (fs.ne_fresh_of_node (F.live hp) _)]

/-- Below the new entry there is just the new node. -/
private theorem link_below (t : List Name) (j : Ino)
    (h : (fs.link k₀ n node).descend (fs.fresh k₀.dev) t = some j) :
    t = [] ∧ j = fs.fresh k₀.dev := by
  cases t with
  | nil =>
      cases h
      exact ⟨rfl, rfl⟩
  | cons m t =>
      obtain ⟨c, hc, _⟩ := FS.descend_cons_eq_some _ h
      have hk : fs.fresh k₀.dev ≠ k₀ := (fs.ne_fresh_of_node (F.live place.at_path) _).symm
      rw [FS.child_link place.isDir hbare, if_neg (fun h => hk h.1)] at hc
      have : fs.entries (fs.fresh k₀.dev) = none := by simp [FS.entries, fs.fresh_node]
      simp [FS.child, this] at hc

theorem Forest.link_view :
    (fs.link k₀ n node).view (root a₀) =
        (fs.view (root a₀)).put (q₀ ++ [n]) (View.one (node.obj (fs.fresh k₀.dev))) ∧
      ∀ a, a ≠ a₀ → (fs.link k₀ n node).view (root a) = fs.view (root a) := by
  refine F.view_edge place (link_hchild place hbare) (fun hp _ => link_obj F hp) fun t => ?_
  rw [FS.child_link place.isDir hbare, if_pos ⟨rfl, rfl⟩, Option.bind_some]
  cases t with
  | nil => simp [FS.obj_link]
  | cons m t =>
      cases hd : (fs.link k₀ n node).descend (fs.fresh k₀.dev) (m :: t) with
      | none => rfl
      | some j => cases (link_below F place hbare _ _ hd).1

/-- A place of the new forest is an old one or the new node. -/
private theorem link_origin {a : ι} {p : List Name} {j : Ino}
    (hp : (fs.link k₀ n node).descend (root a) p = some j) :
    (fs.descend (root a) p = some j ∧ ¬ (a = a₀ ∧ q₀ ++ [n] <+: p)) ∨
      (a = a₀ ∧ p = q₀ ++ [n] ∧ j = fs.fresh k₀.dev) := by
  by_cases h : a = a₀ ∧ q₀ ++ [n] <+: p
  · obtain ⟨rfl, t, rfl⟩ := h
    rw [List.append_assoc, List.singleton_append,
      F.descend_on_edge place (link_hchild place hbare),
      FS.child_link place.isDir hbare, if_pos ⟨rfl, rfl⟩] at hp
    obtain ⟨rfl, rfl⟩ := link_below F place hbare t j hp
    exact .inr ⟨rfl, by simp, rfl⟩
  · rw [F.descend_off_edge place (link_hchild place hbare) h] at hp
    exact .inl ⟨hp, h⟩

theorem Forest.link_forest : Forest (fs.link k₀ n node) dev root where
  inj := by
    intro a b p q k hp hq hdir
    rcases link_origin F place hbare hp with ⟨hp', _⟩ | ⟨rfl, rfl, rfl⟩ <;>
      rcases link_origin F place hbare hq with ⟨hq', _⟩ | ⟨rfl, rfl, hk⟩
    · rw [FS.isDir_eq_of_obj (link_obj F hp')] at hdir
      exact F.inj hp' hq' hdir
    · exact absurd hk (fs.ne_fresh_of_node (F.live hp') _)
    · exact absurd rfl (fs.ne_fresh_of_node (F.live hq') _)
    · exact ⟨rfl, rfl⟩
  live := by
    intro a p k hp
    rcases link_origin F place hbare hp with ⟨hp', _⟩ | ⟨rfl, rfl, rfl⟩
    · rw [Ne, ← FS.obj_eq_none_iff, link_obj F hp', FS.obj_eq_none_iff]
      exact F.live hp'
    · simp [FS.node_link_fresh (F.live place.at_path)]
  onDev := by
    intro a p k hp
    rcases link_origin F place hbare hp with ⟨hp', _⟩ | ⟨rfl, rfl, rfl⟩
    · exact F.onDev hp'
    · exact (F.onDev place.at_path : k₀.dev = dev)

theorem Forest.link_within : Within fs (fs.link k₀ n node) root where
  frame := by
    intro k hk hout
    refine FS.node_link (fun h => ?_) hk
    have := hout a₀ q₀ (h ▸ place.at_path)
    rw [h, place.isDir] at this
    cases this
  grow := by
    intro a p k hp _
    rcases link_origin F place hbare hp with ⟨hp', _⟩ | ⟨_, _, rfl⟩
    · exact .inl ⟨a, p, hp'⟩
    · exact .inr (fs.fresh_node _)
  next := Nat.le_succ _

/-- Nothing moves if a free name is taken. -/
theorem Forest.link_place (hfree : fs.child k₀ n = none) {a : ι} {p : List Name} {j : Ino}
    (h : Place fs root a p j) : Place (fs.link k₀ n node) root a p j where
  at_path := by
    rw [F.descend_off_edge place (link_hchild place hbare)]
    · exact h.at_path
    · rintro ⟨rfl, t, rfl⟩
      have hpath := h.at_path
      rw [List.append_assoc, List.singleton_append, FS.descend_append, place.at_path,
        Option.bind_some, FS.descend_cons, hfree] at hpath
      cases hpath
  isDir := by
    rw [FS.isDir_eq_of_obj (link_obj F h.at_path)]
    exact h.isDir

theorem Forest.link_shrinks {a : ι} (ha : a ≠ a₀) : Shrinks fs (fs.link k₀ n node) (root a) := by
  intro p k hp
  rcases link_origin F place hbare hp with ⟨hp', _⟩ | ⟨h, _⟩
  · refine ⟨hp', fun es' he => ⟨es', ?_, Nat.le_refl _⟩⟩
    have hk : k ≠ k₀ := F.ne_of_place hp' place.at_path place.isDir fun h => ha h.1
    have hnode : (fs.link k₀ n node).node k = fs.node k := FS.node_link hk (F.live hp')
    rw [← he]
    simp [FS.entries, hnode]
  · exact absurd h ha

end Create

/-- What one operation on a pair of trees guarantees besides the views: still two disjoint trees,
nothing outside changed, and the source has only lost entries. -/
structure Kept (fs fs' : FS) (dev : Nat) (s d : Ino) : Prop where
  forest : Forest fs' dev (pair s d)
  within : Within fs fs' (pair s d)
  shrinks : Shrinks fs fs' s
  srcDir : fs'.isDir s = true
  dstDir : fs'.isDir d = true

namespace Kept

variable {fs fs' fs'' : FS} {dev : Nat} {s d : Ino}

theorem refl (F : Forest fs dev (pair s d)) (hs : fs.isDir s = true) (hd : fs.isDir d = true) :
    Kept fs fs dev s d :=
  ⟨F, .refl _ _, .refl _ _, hs, hd⟩

theorem trans (h : Kept fs fs' dev s d) (h' : Kept fs' fs'' dev s d) : Kept fs fs'' dev s d :=
  ⟨h'.forest, h.within.trans h'.within, h.shrinks.trans h'.shrinks, h'.srcDir, h'.dstDir⟩

end Kept

/-- What is kept for two subtrees at the same name is kept for the trees. -/
theorem Kept.lift {fs fs' : FS} {dev : Nat} {s d s' d' : Ino} {n : Name} (F : Forest fs dev (pair s d))
    (hs : fs.child s n = some s') (hd : fs.child d n = some d') (kept : Kept fs fs' dev s' d') :
    Kept fs fs' dev s d ∧ fs'.view s = (fs.view s).set n (fs'.view s') ∧
      fs'.view d = (fs.view d).set n (fs'.view d') := by
  have E : Embeds fs (pair s d) (pair s' d') fun a => (a, [n]) :=
    { located := by
        intro a
        cases a with
        | false => simp [pair, FS.descend_cons, hs]
        | true => simp [pair, FS.descend_cons, hd]
      apart := fun hab _ => hab }
  have E' := E.keep F kept.within
  have hview : ∀ a, fs'.view (pair s d a) =
      (fs.view (pair s d a)).set n (fs'.view (pair s' d' a)) := by
    intro a
    funext p
    by_cases hp : [n] <+: p
    · obtain ⟨t, rfl⟩ := hp
      rw [← View.put_singleton, View.put_append]
      exact E.view_inside F kept.within a t
    · rw [← View.put_singleton, View.put_of_not_below _ _ hp]
      exact E.view_outside F kept.within fun b hb => by cases hb; exact hp
  have hroot : ∀ a, fs.isDir (pair s d a) = true → fs'.isDir (pair s d a) = true := by
    intro a hdir
    rw [← FS.obj_eq_dir_iff, ← FS.view_nil, hview a, View.set_nil]
    exact fs.obj_eq_dir_iff.mpr hdir
  refine ⟨⟨E.lift_forest F kept.within kept.forest, E.lift_within F kept.within,
    E.lift_shrinks F kept.within (a := false) fun b hb => ?_,
    hroot false (fs.isDir_of_child hs), hroot true (fs.isDir_of_child hd)⟩,
    hview false, hview true⟩
  cases hb
  exact kept.shrinks

section Operations

variable {fs : FS} {dev : Nat} {s d : Ino} {n : Name}

/-! #### rename -/

section Relink

variable (i : Ino) (old : Option Ino)

private theorem entries_relink {k : Ino} (hk : ∀ j, old = some j → fs.isDir j = true → k ≠ j)
    (hsd : s ≠ d) :
    (fs.relink s n d n i old).entries k =
      if k = d then (fs.entries d).map (dirSet · n i)
      else if k = s then (fs.entries s).map (dirDel · n) else fs.entries k := by
  have base : (((fs.delEntry s n).setEntry d n i).setParent i d).entries k =
      if k = d then (fs.entries d).map (dirSet · n i)
      else if k = s then (fs.entries s).map (dirDel · n) else fs.entries k := by
    rw [FS.entries_setParent, FS.entries_setEntry]
    by_cases h : k = d
    · simp [h, FS.entries_delEntry, Ne.symm hsd]
    · simp [h, FS.entries_delEntry]
  unfold FS.relink
  cases old with
  | none => exact base
  | some j =>
      by_cases hj : fs.isDir j = true
      · simp only [hj, if_true]
        rw [FS.entries_drop, if_neg (hk j rfl hj), base]
      · simp only [hj]
        exact base

private theorem obj_relink {k : Ino} (hk : ∀ j, old = some j → fs.isDir j = true → k ≠ j) :
    (fs.relink s n d n i old).obj k = fs.obj k := by
  have base : (((fs.delEntry s n).setEntry d n i).setParent i d).obj k = fs.obj k := by
    rw [FS.obj_setParent, FS.obj_setEntry, FS.obj_delEntry]
  unfold FS.relink
  cases old with
  | none => exact base
  | some j =>
      by_cases hj : fs.isDir j = true
      · simp only [hj, if_true]
        rw [FS.obj_drop, if_neg (hk j rfl hj), base]
      · simp only [hj]
        exact base

private theorem node_relink {k : Ino} (hs : k ≠ s) (hd : k ≠ d)
    (hi : fs.isDir i = true → k ≠ i) (hk : ∀ j, old = some j → fs.isDir j = true → k ≠ j) :
    (fs.relink s n d n i old).node k = fs.node k := by
  have base : (((fs.delEntry s n).setEntry d n i).setParent i d).node k = fs.node k := by
    have inner : ((fs.delEntry s n).setEntry d n i).node k = fs.node k := by
      rw [FS.node_setEntry_of_ne _ _ _ _ _ hd, FS.node_delEntry_of_ne _ _ _ _ hs]
    by_cases hdir : fs.isDir i = true
    · rw [FS.node_setParent_of_ne _ _ _ _ (hi hdir), inner]
    · rw [FS.node_setParent_of_leaf _ ?_, inner]
      rw [FS.isDir_eq_of_obj ((FS.obj_setEntry _ _ _ _ _).trans (FS.obj_delEntry _ _ _ _))]
      simpa using hdir
  unfold FS.relink
  cases old with
  | none => exact base
  | some j =>
      by_cases hj : fs.isDir j = true
      · simp only [hj, if_true]
        rw [FS.node_drop_of_ne _ _ _ (hk j rfl hj), base]
      · simp only [hj]
        exact base

end Relink

section Moved

variable (F : Forest fs dev (pair s d)) (hs : fs.isDir s = true) (hd : fs.isDir d = true)
  {i : Ino} (hi : fs.child s n = some i)

include F hs

theorem Forest.roots_ne : s ≠ d := by
  intro h
  have := (F.inj (a := false) (b := true) (p := []) (q := []) (i := s) rfl (by simp [pair, h]) hs).1
  cases this

omit hs

/-- The inode a rename replaces is not at any other place. -/
private theorem ne_replaced {a : Bool} {p : List Name} {k : Ino}
    (hp : fs.descend (pair s d a) p = some k) (hne : ¬ (a = true ∧ p = [n])) :
    ∀ j, fs.child d n = some j → fs.isDir j = true → k ≠ j :=
  fun j hj hdir => F.ne_of_place hp (b := true) (q := [n])
    (by simp [pair, FS.descend_cons_of_child fs hj]) hdir hne

private theorem relink_root_obj (a : Bool) :
    (fs.relink s n d n i (fs.child d n)).obj (pair s d a) = fs.obj (pair s d a) :=
  obj_relink i _ (ne_replaced (n := n) F (p := []) rfl (by simp))

include hs hd

private theorem relink_same {a : Bool} {m : Name} {p : List Name} {k : Ino}
    (hp : fs.descend (pair s d a) (m :: p) = some k) (hne : ¬ (a = true ∧ m = n)) :
    (fs.relink s n d n i (fs.child d n)).entries k = fs.entries k ∧
      (fs.relink s n d n i (fs.child d n)).obj k = fs.obj k := by
  have hrep := ne_replaced (n := n) F hp (by simpa using fun h hm _ => hne ⟨h, hm⟩)
  have hks : k ≠ s := F.ne_root (b := false) hp hs
  have hkd : k ≠ d := F.ne_root (b := true) hp hd
  exact ⟨by rw [entries_relink i _ hrep (F.roots_ne hs), if_neg hkd, if_neg hks], obj_relink i _ hrep⟩

omit hd in
private theorem relink_child_src (m : Name) :
    (fs.relink s n d n i (fs.child d n)).child s m = if m = n then none else fs.child s m := by
  have hrep := ne_replaced (n := n) F (a := false) (p := []) (k := s) rfl (by simp)
  have hsd := F.roots_ne hs
  obtain ⟨es, he⟩ := fs.isDir_iff.mp hs
  have he' : (fs.relink s n d n i (fs.child d n)).entries s = some (dirDel es n) := by
    rw [entries_relink i _ hrep hsd, if_neg hsd, if_pos rfl, he]
    rfl
  rw [FS.child_of_entries _ he', FS.child_of_entries _ he, dirGet_del]

private theorem relink_child_dst (m : Name) :
    (fs.relink s n d n i (fs.child d n)).child d m = if m = n then some i else fs.child d m := by
  have hrep := ne_replaced (n := n) F (a := true) (p := []) (k := d) rfl (by simp)
  obtain ⟨es, he⟩ := fs.isDir_iff.mp hd
  have he' : (fs.relink s n d n i (fs.child d n)).entries d = some (dirSet es n i) := by
    rw [entries_relink i _ hrep (F.roots_ne hs), if_pos rfl, he]
    rfl
  rw [FS.child_of_entries _ he', FS.child_of_entries _ he, dirGet_set]

private theorem relink_descend_src (m : Name) (p : List Name) :
    (fs.relink s n d n i (fs.child d n)).descend s (m :: p) =
      if m = n then none else fs.descend s (m :: p) := by
  rw [FS.descend_cons, relink_child_src F hs]
  by_cases h : m = n
  · simp [h]
  · rw [if_neg h, if_neg h, FS.descend_cons]
    cases hc : fs.child s m with
    | none => rfl
    | some c =>
        refine FS.descend_congr (fun q k hq => ?_) p
        exact (relink_same F hs hd (a := false) (m := m) (p := q)
          (by simpa [pair, FS.descend_cons_of_child fs hc] using hq) (by simp)).1

include hi

private theorem relink_descend_dst (m : Name) (p : List Name) :
    (fs.relink s n d n i (fs.child d n)).descend d (m :: p) =
      if m = n then fs.descend s (m :: p) else fs.descend d (m :: p) := by
  rw [FS.descend_cons, relink_child_dst F hs hd]
  by_cases h : m = n
  · subst h
    rw [if_pos rfl, if_pos rfl, FS.descend_cons_of_child fs hi]
    refine FS.descend_congr (fun q k hq => ?_) p
    exact (relink_same F hs hd (a := false) (m := m) (p := q)
      (by simpa [pair, FS.descend_cons_of_child fs hi] using hq) (by simp)).1
  · rw [if_neg h, if_neg h, FS.descend_cons]
    cases hc : fs.child d m with
    | none => rfl
    | some c =>
        refine FS.descend_congr (fun q k hq => ?_) p
        exact (relink_same F hs hd (a := true) (m := m) (p := q)
          (by simpa [pair, FS.descend_cons_of_child fs hc] using hq) (by simpa using h)).1

/-- Where a place of the new trees was before. -/
private theorem relink_origin {a : Bool} {p : List Name} {k : Ino}
    (hp : (fs.relink s n d n i (fs.child d n)).descend (pair s d a) p = some k) :
    ∃ b, fs.descend (pair s d b) p = some k ∧ (a = false → b = false ∧ p.head? ≠ some n) ∧
      (fs.relink s n d n i (fs.child d n)).obj k = fs.obj k := by
  cases p with
  | nil =>
      cases hp
      exact ⟨a, rfl, fun h => ⟨h, by simp⟩, relink_root_obj F a⟩
  | cons m p =>
      cases a with
      | false =>
          rw [pair, relink_descend_src F hs hd] at hp
          by_cases h : m = n
          · simp [h] at hp
          · rw [if_neg h] at hp
            exact ⟨false, hp, fun _ => ⟨rfl, by simpa using h⟩,
              (relink_same F hs hd (a := false) hp (by simp)).2⟩
      | true =>
          rw [pair, relink_descend_dst F hs hd hi] at hp
          by_cases h : m = n
          · rw [if_pos h] at hp
            exact ⟨false, hp, fun h => absurd h (by simp),
              (relink_same F hs hd (a := false) hp (by simp)).2⟩
          · rw [if_neg h] at hp
            exact ⟨true, hp, fun h => absurd h (by simp),
              (relink_same F hs hd (a := true) hp (by simpa using h)).2⟩

private theorem relink_forest : Forest (fs.relink s n d n i (fs.child d n)) dev (pair s d) := by
  refine F.of_origin (fun hp => ?_) fun {a b p k} ha hb hdir => ?_
  · obtain ⟨b, hb, _, hobj⟩ := relink_origin F hs hd hi hp
    exact ⟨b, hb, hobj⟩
  · -- the same path from both roots would put one directory into both old trees
    by_contra hne
    have key : ∀ {q}, (fs.relink s n d n i (fs.child d n)).descend s q = some k →
        (fs.relink s n d n i (fs.child d n)).descend d q = some k → False := by
      intro q hq hq'
      obtain ⟨b, hb, hsrc, hobj⟩ := relink_origin F hs hd hi (a := false) hq
      obtain ⟨rfl, hhead⟩ := hsrc rfl
      have hkdir : fs.isDir k = true := FS.isDir_eq_of_obj hobj ▸ hdir
      cases q with
      | nil =>
          cases hq
          cases hq'
          exact F.roots_ne hs rfl
      | cons m q =>
          have hm : m ≠ n := by simpa using hhead
          rw [relink_descend_dst F hs hd hi, if_neg hm] at hq'
          cases (F.inj (a := false) (b := true) hb hq' hkdir).1
    cases a <;> cases b
    · exact hne rfl
    · exact key ha hb
    · exact key hb ha
    · exact hne rfl

private theorem relink_within : Within fs (fs.relink s n d n i (fs.child d n)) (pair s d) where
  frame := by
    intro k hk hout
    have hks : k ≠ s := fun h => by
      have := hout false [] (by simp [pair, h])
      rw [h, hs] at this
      cases this
    have hkd : k ≠ d := fun h => by
      have := hout true [] (by simp [pair, h])
      rw [h, hd] at this
      cases this
    refine node_relink i _ hks hkd (fun hdir h => ?_) fun j hj hdir h => ?_
    · have := hout false [n] (by simp [pair, FS.descend_cons_of_child fs hi, h])
      rw [h, hdir] at this
      cases this
    · have := hout true [n] (by simp [pair, FS.descend_cons_of_child fs hj, h])
      rw [h, hdir] at this
      cases this
  grow := by
    intro a p k hp _
    obtain ⟨b, hb, _, _⟩ := relink_origin F hs hd hi hp
    exact .inl ⟨b, p, hb⟩
  next := by
    unfold FS.relink
    cases fs.child d n with
    | none => exact Nat.le_refl _
    | some j => by_cases hj : fs.isDir j = true <;> simp only [hj] <;> exact Nat.le_refl _

private theorem relink_shrinks : Shrinks fs (fs.relink s n d n i (fs.child d n)) s := by
  intro p k hp
  obtain ⟨b, hb, hsrc, _⟩ := relink_origin F hs hd hi (a := false) hp
  obtain ⟨rfl, hhead⟩ := hsrc rfl
  refine ⟨hb, fun es' he => ?_⟩
  cases p with
  | nil =>
      cases hb
      have hrep := ne_replaced (n := n) F (a := false) (p := []) (k := s) rfl (by simp)
      have hsd := F.roots_ne hs
      obtain ⟨es, hes⟩ := fs.isDir_iff.mp hs
      have he' : (fs.relink s n d n i (fs.child d n)).entries s = some es' := he
      rw [entries_relink i _ hrep hsd, if_neg hsd, if_pos rfl, hes] at he'
      cases he'
      exact ⟨es, hes, dirDel_length_le es n⟩
  | cons m p =>
      rw [(relink_same F hs hd (a := false) hb (by simp)).1] at he
      exact ⟨es', he, Nat.le_refl _⟩

/-- A rename within the forest: the tree below the old name is below the new one, and all other
paths lead where they led. -/
theorem relink_spec :
    (fs.relink s n d n i (fs.child d n)).view s = (fs.view s).set n View.empty ∧
    (fs.relink s n d n i (fs.child d n)).view d = (fs.view d).set n ((fs.view s).sub n) ∧
    Kept fs (fs.relink s n d n i (fs.child d n)) dev s d := by
  refine ⟨?_, ?_, relink_forest F hs hd hi, relink_within F hs hd hi, relink_shrinks F hs hd hi,
    ?_, ?_⟩
  · have hsub : ((fs.relink s n d n i (fs.child d n)).view s).sub n = View.empty :=
      FS.view_sub_of_no_child _ (by rw [relink_child_src F hs, if_pos rfl])
    rw [← hsub]
    refine FS.view_edit (relink_root_obj F false) (fun m hm => ?_) fun m p k hm hp => ?_
    · rw [relink_child_src F hs, if_neg hm]
    · exact relink_same F hs hd (a := false) hp (by simp)
  · have hsub : ((fs.relink s n d n i (fs.child d n)).view d).sub n = (fs.view s).sub n := by
      rw [FS.view_sub_of_child _ (by rw [relink_child_dst F hs hd, if_pos rfl]),
        FS.view_sub_of_child _ hi]
      refine FS.view_congr fun p k hp => relink_same F hs hd (a := false) (m := n) (p := p) ?_ (by simp)
      simpa [pair, FS.descend_cons_of_child fs hi] using hp
    rw [← hsub]
    refine FS.view_edit (relink_root_obj F true) (fun m hm => ?_) fun m p k hm hp => ?_
    · rw [relink_child_dst F hs hd, if_neg hm]
    · exact relink_same F hs hd (a := true) hp (by simpa using hm)
  · exact (FS.isDir_eq_of_obj (relink_root_obj F false)).trans hs
  · exact (FS.isDir_eq_of_obj (relink_root_obj F true)).trans hd

end Moved

end Operations

end Hub11.Posix
