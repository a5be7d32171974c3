import Hub11.Posix.Moves
import Hub11.Posix.Outcomes

/-!
What a system call can do to the inode table.

`FS.Edit fs busy fs'` lists the changes, whatever the call and whatever the table: there
may be links to anything, and directories that are listed twice. `busy` is the directory on
which something is mounted. Invariants that hold in every table come from cases on it.
-/

namespace Hub11.Posix

/-- One change of the table, with what must hold for it. Nothing is said of where in the tree the
directories are: there may be several paths to one. -/
inductive FS.Edit (fs : FS) (busy : Option Ino) : FS → Prop where
  | nothing : FS.Edit fs busy fs
  | link {d : Ino} {n : Name} {node : Node} (hdir : fs.isDir d = true) (hfree : fs.child d n = none)
      (hbare : node.Bare) : FS.Edit fs busy (fs.link d n node)
  | unlink {d i : Ino} {n : Name} (hi : fs.child d n = some i) (hleaf : fs.isDir i = false) :
      FS.Edit fs busy (fs.delEntry d n)
  | rmdir {d i : Ino} {n : Name} (hi : fs.child d n = some i) (hempty : fs.isEmptyDir i = true)
      (hbusy : busy ≠ some i) : FS.Edit fs busy (fs.remove d n i true)
  | relink {s d i : Ino} {n m : Name} (hdev : s.dev = d.dev) (hi : fs.child s n = some i)
      (hbusy : busy ≠ some i)
      (hold : ∀ j, fs.child d m = some j → busy ≠ some j ∧ (fs.isDir j = true → fs.isEmptyDir j = true)) :
      FS.Edit fs busy (fs.relink s n d m i (fs.child d m))
  | setData {i : Ino} {data : Bytes} : FS.Edit fs busy (fs.setData i data)

theorem Outcome.edit {env : Env} {w w' : World} {op : Syscall} (h : Outcome env w op w') :
    FS.Edit w.fs (w.space env).busy w'.fs := by
  have create : ∀ {d n node fs}, w.fs.create d n node = .ok fs → node.Bare →
      FS.Edit w.fs (w.space env).busy fs := by
    intro d n node fs hfs hbare
    obtain ⟨hdir, hfree, rfl⟩ := FS.create_ok hfs
    exact .link hdir hfree hbare
  cases h with
  | mkdir hres hfs => exact create hfs rfl
  | symlink hres hfs => exact create hfs trivial
  | openNew _ _ hfs => exact create hfs trivial
  | unlink hres hfs =>
      obtain ⟨i, hi, hleaf, rfl⟩ := FS.unlink_ok hfs
      exact .unlink hi hleaf
  | rmdir hres hfs =>
      obtain ⟨i, hi, hempty, hbusy, rfl⟩ := FS.rmdir_ok hfs
      exact .rmdir hi hempty hbusy
  | rename hres hres' hfs =>
      rcases FS.rename_cases hfs with rfl | ⟨_, _, hdev, i, hi, hbusy, rfl, _, hold⟩
      · exact .nothing
      · exact .relink hdev hi hbusy fun j hj => (hold j hj).2
  | openTrunc _ _ hdata => exact .setData
  | write hfd hdata => exact .setData
  | _ => exact .nothing

namespace FS

variable {fs fs' : FS} {busy : Option Ino}

theorem child_delEntry (fs : FS) (d : Ino) (n : Name) (k : Ino) (x : Name) :
    (fs.delEntry d n).child k x = if k = d ∧ x = n then none else fs.child k x := by
  unfold child
  rw [entries_delEntry]
  by_cases hk : k = d
  · subst hk
    rw [if_pos rfl, Option.bind_map]
    cases fs.entries k with
    | none => simp
    | some es => simp [dirGet_del]
  · simp [hk]

theorem child_setEntry (fs : FS) (d : Ino) (n : Name) (i k : Ino) (x : Name) :
    (fs.setEntry d n i).child k x =
      if k = d ∧ x = n ∧ fs.isDir d = true then some i else fs.child k x := by
  unfold child isDir
  rw [entries_setEntry]
  by_cases hk : k = d
  · subst hk
    rw [if_pos rfl, Option.bind_map]
    cases fs.entries k with
    | none => simp
    | some es => simp [dirGet_set]
  · simp [hk]

theorem child_remove (fs : FS) (d : Ino) (n : Name) (i k : Ino) (x : Name) :
    (fs.remove d n i true).child k x = if k = i then none else (fs.delEntry d n).child k x := by
  change (((fs.delEntry d n).drop i).entries k).bind _ = _
  rw [entries_drop]
  split
  · rfl
  · rfl

theorem child_relink (fs : FS) (s : Ino) (n : Name) (d : Ino) (m : Name) (i k : Ino) (x : Name)
    (old : Option Ino) :
    (fs.relink s n d m i old).child k x =
      if old = some k ∧ fs.isDir k = true then none
      else ((fs.delEntry s n).setEntry d m i).child k x := by
  unfold child
  rw [entries_relink]
  split
  · rfl
  · rfl

theorem child_setData (fs : FS) (i : Ino) (data : Bytes) (k : Ino) (x : Name) :
    (fs.setData i data).child k x = fs.child k x := by
  unfold child
  rw [entries_setData]

/-- An entry after a change was there before, is the new node, or was moved from another directory
of the device. -/
theorem Edit.child_cases (edit : Edit fs busy fs') {k j : Ino} {x : Name}
    (h : fs'.child k x = some j) :
    fs.child k x = some j ∨ j = fs.fresh k.dev ∨ ∃ s n, s.dev = k.dev ∧ fs.child s n = some j := by
  have hdel : ∀ {d n k x}, (fs.delEntry d n).child k x = some j → fs.child k x = some j := by
    intro d n k x h
    rw [child_delEntry] at h
    split at h
    · cases h
    · exact h
  cases edit with
  | nothing => exact .inl h
  | link hdir hfree hbare =>
      rw [child_link hdir hbare] at h
      split at h
      · rename_i hkx
        rw [hkx.1]
        exact .inr (.inl (Option.some.inj h).symm)
      · exact .inl h
  | unlink hi hleaf => exact .inl (hdel h)
  | rmdir hi hempty hbusy =>
      rw [child_remove] at h
      split at h
      · cases h
      · exact .inl (hdel h)
  | @relink s d i n m hdev hi hbusy hold =>
      rw [child_relink] at h
      split at h
      · cases h
      · rw [child_setEntry] at h
        split at h
        · rename_i hkx
          cases h
          rw [hkx.1]
          exact .inr (.inr ⟨s, n, hdev, hi⟩)
        · exact .inl (hdel h)
  | setData =>
      rw [child_setData] at h
      exact .inl h

/-- A directory that goes was empty, not in use and listed somewhere. -/
theorem Edit.isDir_cases (edit : Edit fs busy fs') {k : Ino} (h : fs.isDir k = true) :
    fs'.isDir k = true ∨
      (fs.isEmptyDir k = true ∧ busy ≠ some k ∧ ∃ d n, fs.child d n = some k) := by
  rw [← obj_eq_dir_iff] at h ⊢
  cases edit with
  | nothing => exact .inl h
  | @link d n node hdir hfree hbare =>
      rw [obj_link, if_neg]
      · exact .inl h
      · apply fs.ne_fresh_of_node
        rw [ne_eq, ← obj_eq_none_iff, h]
        simp
  | unlink hi hleaf =>
      rw [obj_delEntry]
      exact .inl h
  | @rmdir d i n hi hempty hbusy =>
      rw [obj_remove]
      by_cases hk : k = i
      · subst hk
        exact .inr ⟨hempty, hbusy, d, n, hi⟩
      · rw [if_neg fun hc => hk hc.2]
        exact .inl h
  | @relink s d i n m hdev hi hbusy hold =>
      rw [obj_relink]
      by_cases hk : fs.child d m = some k ∧ fs.isDir k = true
      · exact .inr ⟨(hold k hk.1).2 hk.2, (hold k hk.1).1, d, m, hk.1⟩
      · rw [if_neg hk]
        exact .inl h
  | setData =>
      rw [obj_setData]
      exact .inl h

/-- The entry of the directory that is in use stays, as long as the directory it is in
does. -/
theorem Edit.child_busy (edit : Edit fs busy fs') {k j : Ino} {x : Name} (h : fs.child k x = some j)
    (hdir : fs.isDir j = true) (hbusy : busy = some j) (hk : fs'.isDir k = true) :
    fs'.child k x = some j := by
  have hdel : ∀ {d n i}, fs.child d n = some i → i ≠ j → (fs.delEntry d n).child k x = some j := by
    intro d n i hi hne
    rw [child_delEntry, if_neg]
    · exact h
    · rintro ⟨rfl, rfl⟩
      exact hne (Option.some.inj (hi.symm.trans h))
  cases edit with
  | nothing => exact h
  | @link d n node hlinked hfree hbare =>
      rw [child_link hlinked hbare, if_neg]
      · exact h
      · rintro ⟨rfl, rfl⟩
        rw [hfree] at h
        cases h
  | @unlink d i n hi hleaf =>
      refine hdel hi ?_
      rintro rfl
      rw [hdir] at hleaf
      cases hleaf
  | @rmdir d i n hi hempty hfree =>
      have hne : i ≠ j := fun heq => hfree (heq ▸ hbusy)
      rw [child_remove, if_neg]
      · exact hdel hi hne
      · rintro rfl
        rw [← obj_eq_dir_iff, obj_remove] at hk
        simp at hk
  | @relink s d i n m hdev hi hfree hold =>
      have hne : i ≠ j := fun heq => hfree (heq ▸ hbusy)
      rw [child_relink, if_neg, child_setEntry, if_neg]
      · exact hdel hi hne
      · rintro ⟨rfl, rfl, -⟩
        exact (hold j h).1 hbusy
      · intro hgone
        rw [← obj_eq_dir_iff, obj_relink, if_pos hgone] at hk
        cases hk
  | setData =>
      rw [child_setData]
      exact h

end FS

end Hub11.Posix
