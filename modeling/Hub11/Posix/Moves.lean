import Hub11.Posix.Forests

/-!
Where directories are after one operation on a forest.

`relink` moves a name with everything below it from one directory of a forest to another
one. The forest stays a forest, what was below the old name is below the new one, and all
other places stay where they are, except for an empty directory that was replaced.
-/

namespace Hub11.Posix

/-- A directory with nothing in it leads nowhere. -/
theorem FS.descend_empty {fs : FS} {i k : Ino} {t : List Name} (hempty : fs.isEmptyDir i = true)
    (h : fs.descend i t = some k) : t = [] ∧ k = i := by
  cases t with
  | nil =>
      cases h
      exact ⟨rfl, rfl⟩
  | cons n t =>
      obtain ⟨j, hj, _⟩ := fs.descend_cons_eq_some h
      rw [fs.child_of_entries (fs.isEmptyDir_iff.mp hempty)] at hj
      cases hj

/-- The search for a directory finds everything that is not too deep. -/
theorem FS.inside_of_descend {fs : FS} {k : Nat} {i t : Ino} {p : List Name}
    (h : fs.descend i p = some t) (hlen : p.length ≤ k) : fs.inside k i t = true := by
  induction k generalizing i p with
  | zero =>
      obtain rfl : p = [] := List.length_eq_zero_iff.mp (Nat.le_zero.mp hlen)
      cases h
      simp [FS.inside]
  | succ k ih =>
      cases p with
      | nil =>
          cases h
          simp [FS.inside]
      | cons n p =>
          obtain ⟨j, hj, hrest⟩ := fs.descend_cons_eq_some h
          obtain ⟨es, he⟩ := fs.isDir_iff.mp (fs.isDir_of_child hj)
          rw [fs.child_of_entries he] at hj
          have hn : n ∈ es.map Prod.fst := by
            by_contra hn
            rw [dirGet_eq_none_iff.mpr hn] at hj
            cases hj
          obtain ⟨e, hmem, rfl⟩ := List.mem_map.mp hn
          simp only [FS.inside, he, Bool.or_eq_true]
          apply Or.inr
          apply List.any_eq_true.mpr
          refine ⟨e, hmem, ?_⟩
          rw [hj]
          exact ih hrest (by simpa using hlen)

theorem FS.create_ok {fs fs' : FS} {d : Ino} {n : Name} {node : Node}
    (h : fs.create d n node = .ok fs') :
    fs.isDir d = true ∧ fs.child d n = none ∧ fs' = fs.link d n node := by
  unfold FS.create at h
  split at h
  · rename_i hdir
    split at h
    · cases h
    · rename_i hfree
      cases h
      exact ⟨hdir, hfree, rfl⟩
  · cases h

theorem FS.unlink_ok {fs fs' : FS} {d : Ino} {n : Name} (h : fs.unlink d n = .ok fs') :
    ∃ i, fs.child d n = some i ∧ fs.isDir i = false ∧ fs' = fs.delEntry d n := by
  unfold FS.unlink at h
  split at h
  · cases h
  · rename_i i hi
    split at h <;> cases h
    rename_i hdir
    exact ⟨i, hi, by simpa using hdir, rfl⟩

theorem FS.rmdir_ok {fs fs' : FS} {busy : Option Ino} {d : Ino} {n : Name}
    (h : fs.rmdir busy d n = .ok fs') :
    ∃ i, fs.child d n = some i ∧ fs.isEmptyDir i = true ∧ busy ≠ some i ∧
      fs' = fs.remove d n i true := by
  unfold FS.rmdir at h
  cases hi : fs.child d n with
  | none =>
      rw [hi] at h
      cases h
  | some i =>
      rw [hi] at h
      dsimp only at h
      split at h
      · cases h
      · split at h
        · cases h
        · rename_i hbusy
          split at h
          · rename_i hempty
            cases h
            exact ⟨i, rfl, hempty, hbusy, rfl⟩
          · cases h

/-- A rename that succeeds changes nothing, or moves the entry: within one device, and
without touching the directory that is in use. -/
theorem FS.rename_cases {fs fs' : FS} {busy : Option Ino} {s d : Ino} {n m : Name}
    (h : fs.rename busy s n d m = .ok fs') :
    fs' = fs ∨ (fs.isDir s = true ∧ fs.isDir d = true ∧ s.dev = d.dev ∧ ∃ i, fs.child s n = some i ∧
      busy ≠ some i ∧ fs' = fs.relink s n d m i (fs.child d m) ∧
      ¬ (fs.isDir i = true ∧ fs.inside fs.next i d = true) ∧
      ∀ j, fs.child d m = some j →
        j ≠ i ∧ busy ≠ some j ∧ (fs.isDir j = true → fs.isEmptyDir j = true)) := by
  unfold FS.rename at h
  split at h
  · cases h
  · rename_i hdirs
    simp only [Bool.or_eq_true, Bool.not_eq_true', not_or, Bool.not_eq_false] at hdirs
    split at h
    · cases h
    · rename_i hdev
      rw [ne_eq, not_not] at hdev
      cases hi : fs.child s n with
      | none =>
          rw [hi] at h
          cases h
      | some i =>
          rw [hi] at h
          cases hj : fs.child d m with
          | none =>
              rw [hj] at h
              simp only [Bool.and_eq_true] at h
              split at h
              · cases h
              · rename_i hinside
                split at h <;> cases h
                rename_i hbusy
                exact .inr ⟨hdirs.1, hdirs.2, hdev, i, rfl, hbusy, rfl, hinside, fun j h => by cases h⟩
          | some j =>
              rw [hj] at h
              simp only [Bool.and_eq_true, Bool.not_eq_true', Bool.or_eq_true, decide_eq_true_eq] at h
              split at h
              · cases h
                exact .inl rfl
              · rename_i hij
                split at h
                · cases h
                · rename_i hinside
                  split at h
                  · cases h
                  · split at h
                    · cases h
                    · split at h
                      · cases h
                      · rename_i hbusy
                        rw [not_or] at hbusy
                        split at h <;> cases h
                        rename_i hfull
                        refine .inr ⟨hdirs.1, hdirs.2, hdev, i, rfl, hbusy.1, rfl, hinside, ?_⟩
                        rintro _ ⟨⟩
                        refine ⟨Ne.symm hij, hbusy.2, fun hdir => ?_⟩
                        by_contra hne
                        rw [Bool.not_eq_true] at hne
                        exact hfull ⟨hdir, hne⟩

section Relink

variable {ι : Type} {fs : FS} {dev : Nat} {root : ι → Ino} {a b : ι} {p q : List Name} {s d i : Ino}
  {n m : Name}

/-- A rename that can be carried out: `i` is at the name `n` of `s`, the directory `d` is
not below it, and what is at the name `m` of `d` is another inode and has nothing in it. -/
structure Movable (fs : FS) (root : ι → Ino) (a b : ι) (p q : List Name) (s d i : Ino) (n m : Name) :
    Prop where
  src : Place fs root a p s
  dst : Place fs root b q d
  child : fs.child s n = some i
  apart : ¬ (a = b ∧ p ++ [n] <+: q)
  other : ∀ j, fs.child d m = some j → j ≠ i
  empty : ∀ j, fs.child d m = some j → fs.isDir j = true → fs.isEmptyDir j = true

/-- What the checks of a rename say in a forest. -/
theorem Forest.movable (F : Forest fs dev root) (src : Place fs root a p s) (dst : Place fs root b q d)
    (hi : fs.child s n = some i) (hinside : ¬ (fs.isDir i = true ∧ fs.inside fs.next i d = true))
    (hold : ∀ j, fs.child d m = some j → j ≠ i ∧ (fs.isDir j = true → fs.isEmptyDir j = true)) :
    Movable fs root a b p q s d i n m where
  src := src
  dst := dst
  child := hi
  other j hj := (hold j hj).1
  empty j hj := (hold j hj).2
  apart := by
    rintro ⟨rfl, t, rfl⟩
    have hlong := F.path_length_lt dst.at_path dst.isDir
    have hbelow := dst.at_path
    rw [List.append_assoc, List.singleton_append, FS.descend_append, src.at_path, Option.bind_some,
      FS.descend_cons_of_child fs hi] at hbelow
    apply hinside
    constructor
    · cases t with
      | nil =>
          cases hbelow
          exact dst.isDir
      | cons y t =>
          obtain ⟨j, hj, _⟩ := fs.descend_cons_eq_some hbelow
          exact fs.isDir_of_child hj
    · apply FS.inside_of_descend hbelow
      simp only [List.length_append] at hlong
      omega

variable (F : Forest fs dev root) (M : Movable fs root a b p q s d i n m)

theorem FS.obj_relink (s : Ino) (n : Name) (d : Ino) (m : Name) (i k : Ino) (old : Option Ino) :
    (fs.relink s n d m i old).obj k =
      if old = some k ∧ fs.isDir k = true then none else fs.obj k := by
  unfold FS.relink
  cases old with
  | none => simp [FS.obj_setParent, FS.obj_setEntry, FS.obj_delEntry]
  | some j =>
      dsimp only
      by_cases hj : fs.isDir j = true
      · rw [if_pos hj, FS.obj_drop, FS.obj_setParent, FS.obj_setEntry, FS.obj_delEntry]
        by_cases hk : k = j
        · subst hk
          simp [hj]
        · simp [hk, Ne.symm hk]
      · rw [if_neg hj, FS.obj_setParent, FS.obj_setEntry, FS.obj_delEntry, if_neg]
        rintro ⟨hk, hdir⟩
        cases hk
        exact hj hdir

theorem FS.isDir_relink {s d i k : Ino} {n m : Name} {old : Option Ino}
    (h : ¬ (old = some k ∧ fs.isDir k = true)) :
    (fs.relink s n d m i old).isDir k = fs.isDir k := by
  apply FS.isDir_eq_of_obj
  rw [FS.obj_relink, if_neg h]

theorem FS.next_relink (s : Ino) (n : Name) (d : Ino) (m : Name) (i : Ino) (old : Option Ino) :
    (fs.relink s n d m i old).next = fs.next := by
  unfold FS.relink
  cases old with
  | none => rfl
  | some j => dsimp only; split <;> rfl

theorem FS.entries_relink (s : Ino) (n : Name) (d : Ino) (m : Name) (i k : Ino) (old : Option Ino) :
    (fs.relink s n d m i old).entries k =
      if old = some k ∧ fs.isDir k = true then none
      else ((fs.delEntry s n).setEntry d m i).entries k := by
  unfold FS.relink
  cases old with
  | none => simp [FS.entries_setParent]
  | some j =>
      dsimp only
      by_cases hj : fs.isDir j = true
      · rw [if_pos hj, FS.entries_drop, FS.entries_setParent]
        by_cases hk : k = j
        · subst hk
          simp [hj]
        · simp [hk, Ne.symm hk]
      · rw [if_neg hj, FS.entries_setParent, if_neg]
        rintro ⟨hk, hdir⟩
        cases hk
        exact hj hdir

namespace Movable

include M in
theorem descend_moved (t : List Name) :
    fs.descend (root a) (p ++ n :: t) = fs.descend i t := by
  rw [FS.descend_append, M.src.at_path]
  exact FS.descend_cons_of_child fs M.child t

include M in
theorem descend_old {j : Ino} (hj : fs.child d m = some j) (t : List Name) :
    fs.descend (root b) (q ++ m :: t) = fs.descend j t := by
  rw [FS.descend_append, M.dst.at_path]
  exact FS.descend_cons_of_child fs hj t

include F M

theorem old_ne_dst {j : Ino} (hj : fs.child d m = some j) : j ≠ d :=
  F.ne_of_place (M.descend_old hj []) M.dst.at_path M.dst.isDir (by simp)

/-- Only two entries change. -/
theorem relink_child (k : Ino) (x : Name) :
    (fs.relink s n d m i (fs.child d m)).child k x =
      if k = d ∧ x = m then some i else if k = s ∧ x = n then none else fs.child k x := by
  by_cases hold : fs.child d m = some k ∧ fs.isDir k = true
  · have hnone : fs.child k x = none := by
      rw [fs.child_of_entries (fs.isEmptyDir_iff.mp (M.empty k hold.1 hold.2))]
      rfl
    have hgone : (fs.relink s n d m i (fs.child d m)).child k x = none := by
      change ((fs.relink s n d m i (fs.child d m)).entries k).bind _ = none
      rw [FS.entries_relink, if_pos hold]
      rfl
    rw [hgone, if_neg fun h => old_ne_dst F M hold.1 h.1, hnone]
    simp
  · obtain ⟨es, hes⟩ := fs.isDir_iff.mp M.src.isDir
    obtain ⟨ds, hds⟩ := fs.isDir_iff.mp M.dst.isDir
    change ((fs.relink s n d m i (fs.child d m)).entries k).bind (fun es => dirGet es x) =
      if k = d ∧ x = m then some i else if k = s ∧ x = n then none else
        (fs.entries k).bind fun es => dirGet es x
    rw [FS.entries_relink, if_neg hold, FS.entries_setEntry, FS.entries_delEntry,
      FS.entries_delEntry]
    by_cases hd : k = d
    · subst hd
      by_cases hs : k = s
      · subst hs
        rw [hes] at hds ⊢
        simp only [if_true, Option.map_some, Option.bind_some, dirGet_set, dirGet_del, true_and]
      · simp only [hs, if_false, if_true, hds, Option.map_some, Option.bind_some, dirGet_set,
          true_and, false_and]
    · by_cases hs : k = s
      · subst hs
        simp only [hd, if_false, if_true, hes, Option.map_some, Option.bind_some, dirGet_del,
          true_and, false_and]
      · simp only [hd, hs, if_false, false_and]

/-- Paths through neither of the two entries. -/
theorem relink_descend_off {c : ι} {r : List Name} (hsrc : ¬ (c = a ∧ p ++ [n] <+: r))
    (hdst : ¬ (c = b ∧ q ++ [m] <+: r)) :
    (fs.relink s n d m i (fs.child d m)).descend (root c) r = fs.descend (root c) r := by
  apply FS.descend_congr_path
  intro r₁ y r₂ k hr hk
  rw [relink_child F M, if_neg, if_neg]
  · rintro ⟨rfl, rfl⟩
    obtain ⟨rfl, rfl⟩ := F.inj hk M.src.at_path M.src.isDir
    exact hsrc ⟨rfl, r₂, by rw [hr]; simp⟩
  · rintro ⟨rfl, rfl⟩
    obtain ⟨rfl, rfl⟩ := F.inj hk M.dst.at_path M.dst.isDir
    exact hdst ⟨rfl, r₂, by rw [hr]; simp⟩

/-- What is moved keeps what is below it. -/
theorem relink_descend_moved (t : List Name) :
    (fs.relink s n d m i (fs.child d m)).descend i t = fs.descend i t := by
  apply FS.descend_congr_path
  intro t₁ y t₂ k _ hk
  rw [← M.descend_moved] at hk
  rw [relink_child F M, if_neg, if_neg]
  · rintro ⟨rfl, _⟩
    have := (F.inj hk M.src.at_path M.src.isDir).2
    simp at this
  · rintro ⟨rfl, _⟩
    obtain ⟨hab, rfl⟩ := F.inj hk M.dst.at_path M.dst.isDir
    exact M.apart ⟨hab, t₁, by simp⟩

omit F in
/-- The source is not at or below what is replaced. -/
theorem src_not_below_old : ¬ (a = b ∧ q ++ [m] <+: p) := by
  rintro ⟨rfl, t, rfl⟩
  have hpath := M.src.at_path
  rw [List.append_assoc, List.singleton_append, FS.descend_append, M.dst.at_path] at hpath
  obtain ⟨j, hj, hjs⟩ := fs.descend_cons_eq_some hpath
  have hdir : fs.isDir j = true := by
    cases t with
    | nil =>
        cases hjs
        exact M.src.isDir
    | cons y t =>
        obtain ⟨l, hl, _⟩ := fs.descend_cons_eq_some hjs
        exact fs.isDir_of_child hl
  obtain ⟨_, rfl⟩ := FS.descend_empty (M.empty j hj hdir) hjs
  have hchild := M.child
  rw [fs.child_of_entries (fs.isEmptyDir_iff.mp (M.empty s hj hdir))] at hchild
  cases hchild

theorem relink_descend_on (t : List Name) :
    (fs.relink s n d m i (fs.child d m)).descend (root b) (q ++ m :: t) = fs.descend i t := by
  have hq : (fs.relink s n d m i (fs.child d m)).descend (root b) q = some d := by
    rw [relink_descend_off F M]
    · exact M.dst.at_path
    · rintro ⟨rfl, h⟩
      exact M.apart ⟨rfl, h⟩
    · exact fun h => not_append_prefix h.2
  rw [FS.descend_append, hq, Option.bind_some, FS.descend_cons, relink_child F M, if_pos ⟨rfl, rfl⟩,
    Option.bind_some, relink_descend_moved F M]

/-- Where a place of the new forest was before. -/
theorem relink_origin {c : ι} {r : List Name} {k : Ino}
    (h : (fs.relink s n d m i (fs.child d m)).descend (root c) r = some k) :
    (c = b ∧ ∃ t, r = q ++ m :: t ∧ fs.descend (root a) (p ++ n :: t) = some k) ∨
      (¬ (c = b ∧ q ++ [m] <+: r) ∧ ¬ (c = a ∧ p ++ [n] <+: r) ∧
        fs.descend (root c) r = some k) := by
  by_cases hdst : c = b ∧ q ++ [m] <+: r
  · obtain ⟨rfl, t, rfl⟩ := hdst
    rw [List.append_assoc, List.singleton_append, relink_descend_on F M] at h
    exact .inl ⟨rfl, t, by simp, by rw [M.descend_moved]; exact h⟩
  · by_cases hsrc : c = a ∧ p ++ [n] <+: r
    · obtain ⟨rfl, t, rfl⟩ := hsrc
      have hp : (fs.relink s n d m i (fs.child d m)).descend (root c) p = some s := by
        rw [relink_descend_off F M]
        · exact M.src.at_path
        · exact fun h => not_append_prefix h.2
        · exact src_not_below_old M
      have hsame : ¬ (s = d ∧ n = m) := by
        rintro ⟨rfl, rfl⟩
        exact M.other i M.child rfl
      rw [List.append_assoc, List.singleton_append, FS.descend_append, hp, Option.bind_some,
        FS.descend_cons, relink_child F M, if_neg hsame, if_pos ⟨rfl, rfl⟩] at h
      cases h
    · rw [relink_descend_off F M hsrc hdst] at h
      exact .inr ⟨hdst, hsrc, h⟩

/-- What was replaced is nowhere in the new forest. -/
theorem relink_live {c : ι} {r : List Name} {k : Ino}
    (h : (fs.relink s n d m i (fs.child d m)).descend (root c) r = some k) :
    ¬ (fs.child d m = some k ∧ fs.isDir k = true) := by
  rintro ⟨hk, hdir⟩
  have hold := M.descend_old hk []
  rcases relink_origin F M h with ⟨rfl, t, rfl, hpath⟩ | ⟨hne, _, hpath⟩
  · obtain ⟨rfl, hpq⟩ := F.inj hpath hold hdir
    rcases List.eq_nil_or_concat t with rfl | ⟨t, y, rfl⟩
    · obtain ⟨rfl, hnm⟩ := List.append_inj' hpq rfl
      rw [M.descend_moved] at hpath
      cases hpath
      exact M.other i hk rfl
    · apply M.apart
      refine ⟨rfl, t, ?_⟩
      have hcat : (p ++ n :: t) ++ [y] = q ++ [m] := by simpa using hpq
      have := (List.append_inj' hcat rfl).1
      simpa using this
  · obtain ⟨rfl, rfl⟩ := F.inj hpath hold hdir
    exact hne ⟨rfl, List.prefix_refl _⟩

/-- A forest stays a forest. -/
theorem relink_forest : Forest (fs.relink s n d m i (fs.child d m)) dev root where
  inj := by
    intro c c' r r' k hr hr' hdir
    have hgone := relink_live F M hr
    rw [FS.isDir_relink hgone] at hdir
    rcases relink_origin F M hr with ⟨rfl, t, rfl, hk⟩ | ⟨_, hoff, hk⟩ <;>
      rcases relink_origin F M hr' with ⟨rfl, t', rfl, hk'⟩ | ⟨_, hoff', hk'⟩
    · have := (F.inj hk hk' hdir).2
      simp_all
    · obtain ⟨rfl, rfl⟩ := F.inj hk hk' hdir
      exact absurd ⟨rfl, t, by simp⟩ hoff'
    · obtain ⟨rfl, rfl⟩ := F.inj hk hk' hdir
      exact absurd ⟨rfl, t', by simp⟩ hoff
    · exact F.inj hk hk' hdir
  live := by
    intro c r k hr
    have hgone := relink_live F M hr
    rw [Ne, ← FS.obj_eq_none_iff, FS.obj_relink, if_neg hgone, FS.obj_eq_none_iff]
    rcases relink_origin F M hr with ⟨_, t, _, hk⟩ | ⟨_, _, hk⟩
    · exact F.live hk
    · exact F.live hk
  onDev := by
    intro c r k hr
    rcases relink_origin F M hr with ⟨_, t, _, hk⟩ | ⟨_, _, hk⟩
    · exact F.onDev hk
    · exact F.onDev hk

/-- Where a directory is afterwards: where it was, below the new name if it was below the
old one, or nowhere if it was replaced. -/
theorem relink_place {c : ι} {r : List Name} {k : Ino} (place : Place fs root c r k) :
    Place (fs.relink s n d m i (fs.child d m)) root c r k ∨
    (∃ t, r = p ++ n :: t ∧ Place (fs.relink s n d m i (fs.child d m)) root b (q ++ m :: t) k) ∨
    (fs.relink s n d m i (fs.child d m)).isDir k = false := by
  by_cases hold : fs.child d m = some k ∧ fs.isDir k = true
  · refine .inr (.inr ?_)
    have hobj : (fs.relink s n d m i (fs.child d m)).obj k = none := by
      rw [FS.obj_relink, if_pos hold]
    rw [← Bool.not_eq_true, ← FS.obj_eq_dir_iff, hobj]
    simp
  have hdir : (fs.relink s n d m i (fs.child d m)).isDir k = true := by
    rw [FS.isDir_relink hold]
    exact place.isDir
  by_cases hsrc : c = a ∧ p ++ [n] <+: r
  · obtain ⟨rfl, t, rfl⟩ := hsrc
    refine .inr (.inl ⟨t, by simp, ?_, hdir⟩)
    rw [relink_descend_on F M, ← M.descend_moved]
    simpa using place.at_path
  · by_cases hdst : c = b ∧ q ++ [m] <+: r
    · obtain ⟨rfl, t, rfl⟩ := hdst
      have hpath := place.at_path
      rw [List.append_assoc, List.singleton_append, FS.descend_append, M.dst.at_path] at hpath
      obtain ⟨j, hj, hjk⟩ := fs.descend_cons_eq_some hpath
      have hjdir : fs.isDir j = true := by
        cases t with
        | nil =>
            cases hjk
            exact place.isDir
        | cons y t =>
            obtain ⟨l, hl, _⟩ := fs.descend_cons_eq_some hjk
            exact fs.isDir_of_child hl
      obtain ⟨_, rfl⟩ := FS.descend_empty (M.empty j hj hjdir) hjk
      exact absurd ⟨hj, hjdir⟩ hold
    · refine .inl ⟨?_, hdir⟩
      rw [relink_descend_off F M hsrc hdst]
      exact place.at_path

end Movable

end Relink

end Hub11.Posix
