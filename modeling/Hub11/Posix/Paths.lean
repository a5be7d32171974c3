import Hub11.Posix.Calls

/-!
Path lookup over several components.

A path of plain names through directories leads where `FS.descend` leads. A lookup
that succeeds still does when entries are added where there were none.
-/

namespace Hub11.Posix

namespace FS

variable {fs fs' : FS} {sp : Space}

theorem walk_nil (k : Nat) (i : Ino) : fs.walk sp k i [] = .found i := by
  cases k <;> rfl

/-- A name that is no link is one step. -/
theorem walk_cons_of_child (k : Nat) {i j : Ino} {n : Name} (hc : fs.child i n = some j)
    (hlink : ∀ t, fs.node j ≠ some (.symlink t)) (cs : List Comp) :
    fs.walk sp k i (.name n :: cs) = fs.walk sp k (sp.cross j) cs := by
  obtain ⟨es, he⟩ := fs.isDir_iff.mp (fs.isDir_of_child hc)
  rw [fs.child_of_entries he] at hc
  cases k <;> simp only [walk, walkFrom, he, hc]

/-- A link is replaced by its target, and there is one link less to follow. -/
theorem walk_cons_of_link (k : Nat) {i j : Ino} {n : Name} {t : Path}
    (hc : fs.child i n = some j) (hlink : fs.node j = some (.symlink t)) (cs : List Comp) :
    fs.walk sp (k + 1) i (.name n :: cs) =
      fs.walk sp k (if t.absolute then sp.root else i) (t.comps ++ cs) := by
  obtain ⟨es, he⟩ := fs.isDir_iff.mp (fs.isDir_of_child hc)
  rw [fs.child_of_entries he] at hc
  simp only [walk, walkFrom, he, hc, hlink]

theorem lookup_cons_of_child {i j : Ino} {n : Name} (hc : fs.child i n = some j)
    (hlink : ∀ t, fs.node j ≠ some (.symlink t)) (cs : List Comp) :
    fs.lookup sp i (.name n :: cs) = fs.lookup sp (sp.cross j) cs :=
  walk_cons_of_child 40 hc hlink cs

theorem not_symlink_of_isDir {i : Ino} (h : fs.isDir i = true) (t : Path) :
    fs.node i ≠ some (.symlink t) := by
  intro hn
  simp [isDir, entries, hn] at h

/-- Names through directories without mount points lead where they lead. -/
theorem walk_descend (b : Nat) {r k : Ino} {p : List Name}
    (hcross : ∀ q i, fs.descend r q = some i → sp.cross i = i) (h : fs.descend r p = some k)
    (hdir : fs.isDir k = true) (cs : List Comp) :
    fs.walk sp b r (p.map .name ++ cs) = fs.walk sp b k cs := by
  induction p generalizing r with
  | nil =>
      cases h
      rfl
  | cons n p ih =>
      obtain ⟨j, hj, hk⟩ := fs.descend_cons_eq_some h
      have hjdir : fs.isDir j = true := by
        cases p with
        | nil =>
            cases hk
            exact hdir
        | cons m p =>
            obtain ⟨c, hc, _⟩ := fs.descend_cons_eq_some hk
            exact fs.isDir_of_child hc
      have hstep : ∀ q, fs.descend r (n :: q) = fs.descend j q := fs.descend_cons_of_child hj
      rw [List.map_cons, List.cons_append, walk_cons_of_child b hj (not_symlink_of_isDir hjdir),
        hcross [n] j (by rw [hstep]; rfl)]
      exact ih (fun q i hq => hcross (n :: q) i (by rw [hstep]; exact hq)) hk

theorem lookup_descend {r k : Ino} {p : List Name}
    (hcross : ∀ q i, fs.descend r q = some i → sp.cross i = i) (h : fs.descend r p = some k)
    (hdir : fs.isDir k = true) (cs : List Comp) :
    fs.lookup sp r (p.map .name ++ cs) = fs.lookup sp k cs :=
  walk_descend 40 hcross h hdir cs

theorem lookup_nil (i : Ino) : fs.lookup sp i [] = .found i := rfl

theorem lookupParent_append (start : Ino) (cs : List Comp) (n : Name) :
    fs.lookupParent sp start (cs ++ [.name n]) =
      match fs.lookup sp start cs with
      | .found d => .ok (d, n)
      | .missing _ _ => .error .ENOENT
      | .fail e => .error e := by
  cases h : fs.lookup sp start cs <;>
    simp only [lookupParent, List.reverse_append, List.reverse_singleton, List.singleton_append,
      List.reverse_reverse, h]

theorem lookupParent_eq_ok {start d : Ino} {cs : List Comp} {n : Name} :
    fs.lookupParent sp start cs = .ok (d, n) ↔
      ∃ rest, cs = rest ++ [.name n] ∧ fs.lookup sp start rest = .found d := by
  constructor
  · intro h
    unfold lookupParent at h
    split at h
    · rename_i m rest hrev
      split at h
      · rename_i d' hfound
        cases h
        exact ⟨rest.reverse, by rw [← List.reverse_reverse cs, hrev, List.reverse_cons], hfound⟩
      · cases h
      · cases h
    · cases h
  · rintro ⟨rest, rfl, hfound⟩
    rw [lookupParent_append, hfound]

/-! ### The last component -/

section Append

variable {f : Ino → List Comp → Walk} {b : Nat} {cur d : Ino} {cs : List Comp}

private theorem walkFrom_append_found (hsame : ∀ i cs, fs.walkFrom sp f i cs = fs.walk sp b i cs)
    (hf : ∀ i cs d, f i cs = .found d → ∃ b', ∀ more, f i (cs ++ more) = fs.walk sp b' d more)
    (h : fs.walkFrom sp f cur cs = .found d) :
    ∃ b', ∀ more, fs.walkFrom sp f cur (cs ++ more) = fs.walk sp b' d more := by
  induction cs generalizing cur with
  | nil =>
      cases h
      exact ⟨b, fun more => hsame _ more⟩
  | cons c cs ih =>
      simp only [List.cons_append, walkFrom] at h ⊢
      cases he : fs.entries cur with
      | none => simp [he] at h
      | some es =>
          rw [he] at h
          cases c with
          | dot => exact ih h
          | dotdot => exact ih h
          | name n =>
              dsimp only at h ⊢
              cases hn : dirGet es n with
              | none =>
                  rw [hn] at h
                  dsimp only at h
                  split at h <;> cases h
              | some i =>
                  rw [hn] at h
                  dsimp only at h ⊢
                  split at h
                  · obtain ⟨b', hb'⟩ := hf _ _ _ h
                    exact ⟨b', fun more => by rw [← List.append_assoc]; exact hb' more⟩
                  · exact ih h

private theorem walkFrom_append_fail {c : Comp} {more : List Comp}
    (hf : ∀ i cs, (∀ d, f i cs ≠ .found d) → ∃ e, f i (cs ++ c :: more) = .fail e)
    (h : ∀ d, fs.walkFrom sp f cur cs ≠ .found d) :
    ∃ e, fs.walkFrom sp f cur (cs ++ c :: more) = .fail e := by
  induction cs generalizing cur with
  | nil => exact absurd rfl (h _)
  | cons c' cs ih =>
      simp only [List.cons_append, walkFrom] at h ⊢
      cases he : fs.entries cur with
      | none => exact ⟨_, rfl⟩
      | some es =>
          rw [he] at h
          cases c' with
          | dot => exact ih h
          | dotdot => exact ih h
          | name n =>
              dsimp only at h ⊢
              cases hn : dirGet es n with
              | none => exact ⟨.ENOENT, if_neg (by simp)⟩
              | some i =>
                  rw [hn] at h
                  dsimp only at h ⊢
                  cases hi : fs.node i with
                  | none =>
                      rw [hi] at h
                      exact ih h
                  | some x =>
                      rw [hi] at h
                      cases x with
                      | symlink t =>
                          dsimp only at h ⊢
                          rw [← List.append_assoc]
                          exact hf _ _ h
                      | dir q es' => exact ih h
                      | file data => exact ih h

/-- A walk that finds a directory goes on from there. -/
theorem walk_append_found (h : fs.walk sp b cur cs = .found d) :
    ∃ b', ∀ more, fs.walk sp b cur (cs ++ more) = fs.walk sp b' d more := by
  induction b generalizing cur cs d with
  | zero => exact walkFrom_append_found (b := 0) (fun _ _ => rfl) (fun _ _ _ hx => by cases hx) h
  | succ b ih => exact walkFrom_append_found (b := b + 1) (fun _ _ => rfl) (fun _ _ _ hx => ih hx) h

/-- A walk that finds nothing does not go on. -/
theorem walk_append_fail (h : ∀ d, fs.walk sp b cur cs ≠ .found d) (c : Comp) (more : List Comp) :
    ∃ e, fs.walk sp b cur (cs ++ c :: more) = .fail e := by
  induction b generalizing cur cs with
  | zero => exact walkFrom_append_fail (fun _ _ _ => ⟨_, rfl⟩) h
  | succ b ih => exact walkFrom_append_fail (fun _ _ hx => ih hx) h

theorem walk_name (b : Nat) {n : Name} {es : List (Name × Ino)} (he : fs.entries d = some es)
    (hn : dirGet es n = none) : fs.walk sp b d [.name n] = .missing d n := by
  cases b <;> simp [walk, walkFrom, he, hn]

variable {start : Ino} {n : Name}

/-- The whole path leads where its last component leads from the directory before it, as long
as that component is no link. -/
theorem lookup_of_parent {j : Ino} (hp : fs.lookupParent sp start cs = .ok (d, n))
    (hj : fs.child d n = some j) (hlink : ∀ t, fs.node j ≠ some (.symlink t)) :
    fs.lookup sp start cs = .found (sp.cross j) := by
  obtain ⟨rest, rfl, hfound⟩ := lookupParent_eq_ok.mp hp
  obtain ⟨b, hb⟩ := walk_append_found hfound
  exact (hb _).trans ((walk_cons_of_child b hj hlink []).trans (walk_nil b _))

/-- A path that leads to a place where something could be made has a parent directory. -/
theorem parent_of_missing {m : Name} (h : fs.lookup sp start (cs ++ [.name n]) = .missing d m) :
    ∃ d', fs.lookupParent sp start (cs ++ [.name n]) = .ok (d', n) ∧
      (fs.child d' n = none → d' = d ∧ n = m) := by
  by_cases hfound : ∃ d', fs.lookup sp start cs = .found d'
  · obtain ⟨d', hd'⟩ := hfound
    refine ⟨d', lookupParent_eq_ok.mpr ⟨cs, rfl, hd'⟩, fun hnone => ?_⟩
    obtain ⟨b, hb⟩ := walk_append_found hd'
    have hlast : fs.walk sp b d' [.name n] = .missing d m := (hb _).symm.trans h
    cases he : fs.entries d' with
    | none => cases b <;> simp [walk, walkFrom, he] at hlast
    | some es =>
        rw [walk_name b he (by rw [← fs.child_of_entries he]; exact hnone)] at hlast
        cases hlast
        exact ⟨rfl, rfl⟩
  · obtain ⟨e, he⟩ := walk_append_fail (fun d' hd' => hfound ⟨d', hd'⟩) (.name n) []
    exact absurd (he.symm.trans h) (by simp)

end Append

/-! ### Lookups in a larger table -/

/-- `fs'` has the entries of `fs`, with the same links, and from a directory of `fs` `..` leads
to the same place in both. -/
structure Extends (sp : Space) (fs fs' : FS) : Prop where
  entries : ∀ {i : Ino} {es : List (Name × Ino)}, fs.entries i = some es →
    ∃ es', fs'.entries i = some es' ∧
      ∀ {n : Name} {j : Ino}, dirGet es n = some j → dirGet es' n = some j
  link : ∀ i t, fs'.node i = some (.symlink t) ↔ fs.node i = some (.symlink t)
  up : ∀ i, fs.isDir i = true → sp.up fs' i = sp.up fs i

theorem Extends.refl (sp : Space) (fs : FS) : Extends sp fs fs :=
  ⟨fun he => ⟨_, he, id⟩, fun _ _ => Iff.rfl, fun _ _ => rfl⟩

theorem Extends.isDir (h : Extends sp fs fs') {i : Ino} (hi : fs.isDir i = true) :
    fs'.isDir i = true := by
  obtain ⟨es, he⟩ := fs.isDir_iff.mp hi
  obtain ⟨es', he', _⟩ := h.entries he
  exact fs'.isDir_iff.mpr ⟨es', he'⟩

theorem Extends.child (h : Extends sp fs fs') {d i : Ino} {n : Name} (hi : fs.child d n = some i) :
    fs'.child d n = some i := by
  obtain ⟨es, he⟩ := fs.isDir_iff.mp (fs.isDir_of_child hi)
  obtain ⟨es', he', hget⟩ := h.entries he
  rw [fs.child_of_entries he] at hi
  rw [fs'.child_of_entries he']
  exact hget hi

theorem Extends.walkFrom (h : Extends sp fs fs') {f g : Ino → List Comp → Walk} {x : Ino}
    (hfg : ∀ c cs, f c cs = .found x → g c cs = .found x) {cur : Ino} {cs : List Comp}
    (hw : fs.walkFrom sp f cur cs = .found x) : fs'.walkFrom sp g cur cs = .found x := by
  induction cs generalizing cur with
  | nil => exact hw
  | cons c cs ih =>
      simp only [FS.walkFrom] at hw ⊢
      cases he : fs.entries cur with
      | none => simp [he] at hw
      | some es =>
          obtain ⟨es', he', hget⟩ := h.entries he
          rw [he] at hw
          rw [he']
          cases c with
          | dot => exact ih hw
          | dotdot =>
              rw [h.up cur (fs.isDir_iff.mpr ⟨es, he⟩)]
              exact ih hw
          | name n =>
              dsimp only at hw ⊢
              cases hn : dirGet es n with
              | none =>
                  rw [hn] at hw
                  dsimp only at hw
                  split at hw <;> cases hw
              | some i =>
                  rw [hn] at hw
                  rw [hget hn]
                  dsimp only at hw ⊢
                  by_cases hl : ∃ t, fs.node i = some (.symlink t)
                  · obtain ⟨t, ht⟩ := hl
                    rw [ht] at hw
                    rw [(h.link i t).mpr ht]
                    exact hfg _ _ hw
                  · rw [not_exists] at hl
                    have hl' : ∀ t, fs'.node i ≠ some (.symlink t) :=
                      fun t ht => hl t ((h.link i t).mp ht)
                    split at hw
                    · exact absurd ‹_› (hl _)
                    · exact ih hw

/-- What a lookup finds it still finds when there is more. -/
theorem Extends.walk (h : Extends sp fs fs') {b : Nat} {cur x : Ino} {cs : List Comp}
    (hw : fs.walk sp b cur cs = .found x) : fs'.walk sp b cur cs = .found x := by
  induction b generalizing cur cs with
  | zero => exact h.walkFrom (fun _ _ hx => by cases hx) hw
  | succ b ih => exact h.walkFrom (fun _ _ hx => ih hx) hw

theorem Extends.lookup (h : Extends sp fs fs') {cur x : Ino} {cs : List Comp}
    (hw : fs.lookup sp cur cs = .found x) : fs'.lookup sp cur cs = .found x :=
  h.walk hw

theorem Extends.lookupParent (h : Extends sp fs fs') {start d : Ino} {cs : List Comp} {n : Name}
    (hp : fs.lookupParent sp start cs = .ok (d, n)) : fs'.lookupParent sp start cs = .ok (d, n) := by
  obtain ⟨rest, rfl, hfound⟩ := lookupParent_eq_ok.mp hp
  exact lookupParent_eq_ok.mpr ⟨rest, rfl, h.lookup hfound⟩

private theorem walkFrom_missing_spec {f : Ino → List Comp → Walk} {d : Ino} {m : Name}
    (hf : ∀ c cs, f c cs = .missing d m → fs.isDir d = true ∧ fs.child d m = none) {cur : Ino}
    {cs : List Comp} (hw : fs.walkFrom sp f cur cs = .missing d m) :
    fs.isDir d = true ∧ fs.child d m = none := by
  fun_induction fs.walkFrom sp f cur cs with
  | case1 => cases hw
  | case2 => cases hw
  | case3 cur cs es he ih => exact ih hw
  | case4 cur cs es he ih => exact ih hw
  | case5 cur cs es he n hn hcs =>
      cases hw
      exact ⟨fs.isDir_iff.mpr ⟨es, he⟩, by rw [fs.child_of_entries he, hn]⟩
  | case6 => cases hw
  | case7 cur cs es he n i hn t ht => exact hf _ _ hw
  | case8 cur cs es he n i hn hl ih => exact ih hw

/-- Where a lookup ends at a missing entry there is a directory without it. -/
theorem walk_missing_spec {b : Nat} {cur d : Ino} {m : Name} {cs : List Comp}
    (hw : fs.walk sp b cur cs = .missing d m) : fs.isDir d = true ∧ fs.child d m = none := by
  induction b generalizing cur cs with
  | zero => exact walkFrom_missing_spec (fun _ _ hx => by cases hx) hw
  | succ b ih => exact walkFrom_missing_spec (fun _ _ hx => ih hx) hw

theorem up_of_parent (sp : Space) (h : ∀ i, fs'.parent i = fs.parent i) (i : Ino) :
    sp.up fs' i = sp.up fs i := by
  simp only [Space.up, h]

theorem extends_delEntry (d : Ino) (n : Name) : Extends sp (fs.delEntry d n) fs where
  entries := by
    intro i es he
    rw [entries_delEntry] at he
    split at he
    · rename_i hi
      subst hi
      obtain ⟨es', he', rfl⟩ := Option.map_eq_some_iff.mp he
      refine ⟨es', he', fun {m j} hm => ?_⟩
      rw [dirGet_del] at hm
      split at hm
      · cases hm
      · exact hm
    · exact ⟨es, he, id⟩
  link i t := by
    rw [delEntry, node_modify]
    by_cases hi : i = d
    · subst hi
      cases hn : fs.node i with
      | none => simp
      | some x => cases x <;> simp
    · simp [hi]
  up i _ := by
    refine up_of_parent sp (fun i => ?_) i
    unfold parent delEntry
    rw [node_modify]
    by_cases hi : i = d
    · subst hi
      cases hn : fs.node i with
      | none => simp
      | some x => cases x <;> simp
    · simp [hi]

theorem extends_setData (i : Ino) (data : Bytes) : Extends sp fs (fs.setData i data) where
  entries he := ⟨_, by rw [entries_setData]; exact he, id⟩
  link j t := by
    rw [setData, node_modify]
    by_cases hj : j = i
    · subst hj
      cases hn : fs.node j with
      | none => simp
      | some x => cases x <;> simp
    · simp [hj]
  up j _ := by
    refine up_of_parent sp (fun j => ?_) j
    unfold parent setData
    rw [node_modify]
    by_cases hj : j = i
    · subst hj
      cases hn : fs.node j with
      | none => simp
      | some x => cases x <;> simp
    · simp [hj]

section NewFile

variable {d : Ino} {m : Name} {data : Bytes}

theorem entries_link_file (j : Ino) :
    (fs.link d m (.file data)).entries j =
      if j = d then (fs.entries d).map (dirSet · m (fs.fresh d.dev)) else fs.entries j := by
  have halloc : ∀ i, (fs.alloc d.dev (.file data)).entries i = fs.entries i := by
    intro i
    unfold entries
    rw [node_alloc]
    by_cases hi : i = fs.fresh d.dev
    · rw [hi, fresh_node, if_pos rfl]
    · rw [if_neg hi]
  rw [link, entries_setEntry, halloc, halloc]

private theorem kind_link_file (j : Ino) :
    (∀ t, (fs.link d m (.file data)).node j = some (.symlink t) ↔ fs.node j = some (.symlink t)) ∧
      (fs.link d m (.file data)).parent j = fs.parent j := by
  unfold parent link setEntry
  simp only [node_modify, node_alloc]
  by_cases hfresh : j = fs.fresh d.dev
  · have hnone : fs.node j = none := by rw [hfresh, fresh_node]
    by_cases hd : j = d
    · rw [if_pos hd, ← hd, if_pos (hd ▸ hfresh), hnone]
      simp
    · rw [if_neg hd, if_pos hfresh, hnone]
      simp
  · by_cases hd : j = d
    · rw [if_pos hd, ← hd, if_neg (hd ▸ hfresh)]
      cases hn : fs.node j with
      | none => simp
      | some x => cases x <;> simp
    · rw [if_neg hd, if_neg hfresh]
      simp

theorem extends_link (hnone : fs.child d m = none) : Extends sp fs (fs.link d m (.file data)) where
  entries := by
    intro i es he
    rw [entries_link_file]
    split
    · rename_i hi
      subst hi
      refine ⟨_, by rw [he]; rfl, fun {n j} hn => ?_⟩
      rw [dirGet_set]
      split
      · rename_i hm
        rw [fs.child_of_entries he, ← hm, hn] at hnone
        cases hnone
      · exact hn
    · exact ⟨es, he, id⟩
  link j := (kind_link_file j).1
  up j _ := up_of_parent sp (fun j => (kind_link_file j).2) j

end NewFile

section NewDirectory

variable {d : Ino} {m : Name}

/-- A new directory is in no one's way either, as long as the directory under a mount is one
that is there. -/
theorem extends_mkdir (hcov : ∀ c top, sp.mount = some (c, top) → fs.isDir c = true)
    (hdir : fs.isDir d = true) (hnone : fs.child d m = none) :
    Extends sp fs (fs.link d m (.dir d [])) := by
  have live : ∀ {i : Ino}, fs.isDir i = true → fs.node i ≠ none := by
    intro i hi hnil
    simp [isDir, FS.entries, hnil] at hi
  have parent : ∀ i, fs.isDir i = true → (fs.link d m (.dir d [])).parent i = fs.parent i := by
    intro i hi
    unfold FS.parent
    by_cases hd : i = d
    · subst hd
      rw [link, setEntry, node_modify, if_pos rfl, node_alloc, if_neg (fs.ne_fresh_of_node (live hi) _)]
      cases hn : fs.node i with
      | none => simp
      | some x => cases x <;> simp
    · rw [FS.node_link hd (live hi)]
  refine ⟨fun {i es} he => ?_, fun i t => ?_, fun i hi => ?_⟩
  · have hi : fs.isDir i = true := fs.isDir_iff.mpr ⟨es, he⟩
    have hi' : (fs.link d m (.dir d [])).isDir i = true := by
      rw [← obj_eq_dir_iff, FS.obj_link, if_neg (fs.ne_fresh_of_node (live hi) _), obj_eq_dir_iff]
      exact hi
    obtain ⟨es', he'⟩ := (isDir_iff _).mp hi'
    refine ⟨es', he', fun {n j} hj => ?_⟩
    rw [← child_of_entries _ he', FS.child_link hdir (show (Node.dir d []).Bare from rfl), if_neg]
    · rw [fs.child_of_entries he, hj]
    · rintro ⟨rfl, rfl⟩
      rw [fs.child_of_entries he, hj] at hnone
      cases hnone
  · by_cases hfresh : i = fs.fresh d.dev
    · rw [hfresh, FS.node_link_fresh (live hdir), fresh_node]
      simp
    · by_cases hd : i = d
      · subst hd
        have hdir' : (fs.link i m (.dir i [])).isDir i = true := by
          rw [← obj_eq_dir_iff, FS.obj_link, if_neg hfresh, obj_eq_dir_iff]
          exact hdir
        exact ⟨fun h => absurd h (not_symlink_of_isDir hdir' t),
          fun h => absurd h (not_symlink_of_isDir hdir t)⟩
      · cases hn : fs.node i with
        | some x => rw [FS.node_link hd (by simp [hn]), hn]
        | none =>
            rw [link, node_setEntry_of_ne _ _ _ _ _ hd, node_alloc, if_neg hfresh, hn]
  · unfold Space.up
    cases hm : sp.mount with
    | none => simp only [parent i hi]
    | some ct => simp only [parent i hi, parent ct.1 (hcov ct.1 ct.2 hm)]

end NewDirectory

/-! ### What is at a path -/

/-- The inode at a path, a link in the last place not followed. On the way to it links are followed,
as in every lookup. -/
def At (fs : FS) (sp : Space) (start : Ino) (cs : List Comp) (i : Ino) : Prop :=
  ∃ d n, fs.lookupParent sp start cs = .ok (d, n) ∧ fs.child d n = some i

section At

variable {start i j : Ino} {cs : List Comp} {data x : Bytes}

theorem At.extends (h : fs.At sp start cs i) (hext : Extends sp fs fs') : fs'.At sp start cs i := by
  obtain ⟨d, n, hp, hi⟩ := h
  exact ⟨d, n, hext.lookupParent hp, hext.child hi⟩

theorem At.unique (h : fs.At sp start cs i) (h' : fs.At sp start cs j) : i = j := by
  obtain ⟨d, n, hp, hi⟩ := h
  obtain ⟨d', n', hp', hj⟩ := h'
  cases hp.symm.trans hp'
  exact Option.some.inj (hi.symm.trans hj)

/-- A file at a path is what the path leads to, if nothing is mounted on it. -/
theorem At.lookup (h : fs.At sp start cs i) (hi : fs.node i = some (.file data))
    (hcross : sp.cross i = i) : fs.lookup sp start cs = .found i := by
  obtain ⟨d, n, hp, hc⟩ := h
  rw [lookup_of_parent hp hc (by simp [hi]), hcross]

/-- Writing to a file that a path leads to does not change what is at the path. -/
theorem at_setData (h : fs.node i = some (.file x)) :
    (fs.setData i data).At sp start cs j ↔ fs.At sp start cs j := by
  constructor
  · intro hat
    have hback : Extends sp (fs.setData i data) ((fs.setData i data).setData i x) :=
      extends_setData i x
    rw [setData_setData, setData_self _ _ _ h] at hback
    exact hat.extends hback
  · exact fun hat => hat.extends (extends_setData i data)

/-- A new file is at the path that has led to its place, unless a link has led there. -/
theorem at_link_iff {d : Ino} {m : Name} (hmiss : fs.lookup sp start cs = .missing d m)
    (hfile : (fs.link d m (.file data)).node j = some (.file x)) (hcross : sp.cross j = j) :
    (fs.link d m (.file data)).At sp start cs j ↔
      fs.lookupParent sp start cs = .ok (d, m) ∧ j = fs.fresh d.dev := by
  obtain ⟨hdir, hnone⟩ := walk_missing_spec hmiss
  have hext : Extends sp fs (fs.link d m (.file data)) := extends_link hnone
  have hnew : (fs.link d m (.file data)).child d m = some (fs.fresh d.dev) := by
    rw [child_link hdir (show Node.Bare (.file data) from trivial), if_pos ⟨rfl, rfl⟩]
  constructor
  · intro hat
    obtain ⟨d₁, n, hp, hj⟩ := hat
    obtain ⟨rest, rfl, hfound⟩ := lookupParent_eq_ok.mp hp
    obtain ⟨d', hp', hlast⟩ := parent_of_missing hmiss
    cases hp.symm.trans (hext.lookupParent hp')
    cases hc : fs.child d₁ n with
    | none =>
        obtain ⟨rfl, rfl⟩ := hlast hc
        exact ⟨hp', Option.some.inj (hj.symm.trans hnew)⟩
    | some k =>
        have hold : fs.At sp start (rest ++ [.name n]) k := ⟨d₁, n, hp', hc⟩
        obtain rfl : k = j := (hold.extends hext).unique ⟨d₁, n, hp, hj⟩
        have hlink : ∀ t, fs.node k ≠ some (.symlink t) := by
          intro t ht
          rw [(hext.link k t).mpr ht] at hfile
          cases hfile
        rw [lookup_of_parent hp' hc hlink] at hmiss
        cases hmiss
  · rintro ⟨hp, rfl⟩
    exact ⟨d, m, hext.lookupParent hp, hnew⟩

end At

end FS

end Hub11.Posix
