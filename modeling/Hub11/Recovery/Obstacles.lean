import Hub11.Posix.Edits
import Hub11.Posix.Paths
import Hub11.Recovery.RescueInit

/-!
What can be in the way of the two links of the usr-merge.

`_start` replaces what is at `/lib` and `/lib64` by links unless it is a directory with
something in it. On arm64 nothing is ever merged out of such a directory, so one that is full
at the start stays in the way. One that is empty gets in the way too if `_start` itself puts
a directory into it: the `mkdirat` calls for `/mnt/usr/lib` and the like follow links, and
`/usr` or `/usr/lib` may be a link to it. All of this can be read off the tree that `_start`
is given, and this module says how, without a word about system calls.
-/

namespace Hub11.Posix.FS

/-! ### Directories made where they are missing -/

/-- `mkdir`, if it can be done: the table with a directory `n` in `d`, or the same table if
there is something of that name already or `d` is no directory. -/
def ensure (fs : FS) (d : Ino) (n : Name) : FS :=
  match fs.mkdir d n with
  | .ok fs' => fs'
  | .error _ => fs

/-- The directory that a path of names leads to, with links followed, as the kernel does for all but
the last name of a path. -/
def reached (fs : FS) (sp : Space) (start : Ino) (p : List Name) : Option Ino :=
  match fs.lookup sp start (p.map .name) with
  | .found i => if fs.isDir i then some i else none
  | _ => none

/-- `ensure` in the directory that a path leads to, if it leads to one. It is the effect of a
`mkdirat` whose result nobody looks at. -/
def ensureAt (fs : FS) (sp : Space) (start : Ino) (p : List Name) (n : Name) : FS :=
  match fs.reached sp start p with
  | some d => fs.ensure d n
  | none => fs

variable {fs fs' : FS} {sp : Space} {start d i : Ino} {p : List Name} {n : Name}

/-- A directory is made if the name is free in a directory, and otherwise the table is as it was. -/
theorem ensure_cases (fs : FS) (d : Ino) (n : Name) :
    fs.ensure d n = fs ∧ (fs.isDir d = true → fs.child d n ≠ none) ∨
      fs.isDir d = true ∧ fs.child d n = none ∧ fs.ensure d n = fs.link d n (.dir d []) := by
  unfold ensure mkdir create
  by_cases hdir : fs.isDir d = true
  · rw [if_pos hdir]
    cases hc : fs.child d n with
    | some j => exact .inl ⟨rfl, fun _ => by simp⟩
    | none => exact .inr ⟨hdir, rfl, rfl⟩
  · rw [if_neg hdir]
    exact .inl ⟨rfl, fun h => absurd h hdir⟩

theorem reached_eq_some : fs.reached sp start p = some i ↔
    fs.lookup sp start (p.map .name) = .found i ∧ fs.isDir i = true := by
  unfold reached
  cases fs.lookup sp start (p.map .name) with
  | found j =>
      by_cases hdir : fs.isDir j = true
      · simp only [if_pos hdir, Option.some.injEq, Walk.found.injEq]
        exact ⟨fun h => ⟨h, h ▸ hdir⟩, And.left⟩
      · simp only [if_neg hdir, Walk.found.injEq, reduceCtorEq, false_iff]
        rintro ⟨rfl, h⟩
        exact hdir h
  | missing d m => simp
  | fail e => simp

theorem Extends.reached (h : Extends sp fs fs') (hr : fs.reached sp start p = some i) :
    fs'.reached sp start p = some i := by
  obtain ⟨hfound, hdir⟩ := reached_eq_some.mp hr
  exact reached_eq_some.mpr ⟨h.lookup hfound, h.isDir hdir⟩

/-- The directory under the mount is there. -/
def Covers (fs : FS) (sp : Space) : Prop := ∀ c top, sp.mount = some (c, top) → fs.isDir c = true

theorem Extends.covers (h : Extends sp fs fs') (hcov : fs.Covers sp) : fs'.Covers sp :=
  fun c top hm => h.isDir (hcov c top hm)

theorem extends_ensure (hcov : fs.Covers sp) (d : Ino) (n : Name) :
    Extends sp fs (fs.ensure d n) := by
  rcases fs.ensure_cases d n with ⟨heq, _⟩ | ⟨hdir, hnone, heq⟩
  · rw [heq]
    exact Extends.refl sp fs
  · rw [heq]
    exact extends_mkdir hcov hdir hnone

theorem extends_ensureAt (hcov : fs.Covers sp) (start : Ino) (p : List Name) (n : Name) :
    Extends sp fs (fs.ensureAt sp start p n) := by
  unfold ensureAt
  split
  · exact extends_ensure hcov _ _
  · exact Extends.refl sp fs

end Hub11.Posix.FS

namespace Hub11.Recovery

open Hub11.Posix

/-! ### Full directories in the root directory -/

/-- An entry of the root directory is a directory with something in it. Neither `unlinkat` nor
`rmdir` takes it away. -/
def FullAt (env : Env) (fs : FS) (n : Name) : Prop :=
  ∃ i es, fs.child env.diskRoot n = some i ∧ fs.entries i = some es ∧ es ≠ []

/-- A path from the root of the disk leads, maybe through links, to a directory that the root
directory lists as `n`. -/
def Meets (env : Env) (fs : FS) (sp : Space) (p : List Name) (n : Name) : Prop :=
  ∃ i, fs.reached sp env.diskRoot p = some i ∧ fs.child env.diskRoot n = some i

section Tree

variable {env : Env} {fs fs' : FS} {sp : Space} {d : Ino} {p : List Name} {n m : Name}

theorem fullAt_iff_child : FullAt env fs n ↔
    ∃ i x j, fs.child env.diskRoot n = some i ∧ fs.child i x = some j := by
  constructor
  · rintro ⟨i, es, hi, he, hne⟩
    obtain ⟨x, hx⟩ : ∃ x, dirGet es x ≠ none := by
      by_contra hnone
      exact hne (dirGet_all_none_iff.mp (by simpa using hnone))
    obtain ⟨j, hj⟩ := Option.ne_none_iff_exists'.mp hx
    exact ⟨i, x, j, hi, by rw [fs.child_of_entries he, hj]⟩
  · rintro ⟨i, x, j, hi, hj⟩
    obtain ⟨es, he⟩ := fs.isDir_iff.mp (fs.isDir_of_child hj)
    refine ⟨i, es, hi, he, ?_⟩
    rintro rfl
    rw [fs.child_of_entries he] at hj
    cases hj

/-- A directory becomes full by `mkdir` exactly if the new directory is in it. -/
theorem fullAt_ensure : FullAt env (fs.ensure d m) n ↔
    FullAt env fs n ∨ fs.isDir d = true ∧ fs.child env.diskRoot n = some d := by
  rcases fs.ensure_cases d m with ⟨heq, hthere⟩ | ⟨hdir, hnone, heq⟩
  · rw [heq]
    refine ⟨.inl, ?_⟩
    rintro (hfull | ⟨hdir, hd⟩)
    · exact hfull
    · obtain ⟨j, hj⟩ := Option.ne_none_iff_exists'.mp (hthere hdir)
      exact fullAt_iff_child.mpr ⟨d, m, j, hd, hj⟩
  · have child : ∀ k x, (fs.ensure d m).child k x =
        if k = d ∧ x = m then some (fs.fresh d.dev) else fs.child k x := by
      intro k x
      rw [heq, FS.child_link hdir (show (Node.dir d []).Bare from rfl)]
    have old : ∀ {k x j}, fs.child k x = some j → (fs.ensure d m).child k x = some j := by
      intro k x j hj
      rw [child, if_neg]
      · exact hj
      · rintro ⟨rfl, rfl⟩
        rw [hnone] at hj
        cases hj
    rw [fullAt_iff_child, fullAt_iff_child]
    constructor
    · rintro ⟨i, x, j, hi, hj⟩
      rw [child] at hi hj
      split at hi
      · -- the new directory is empty
        cases hi
        have hlive : fs.fresh d.dev ≠ d := by
          apply Ne.symm
          apply fs.ne_fresh_of_node
          intro hnil
          simp [FS.isDir, FS.entries, hnil] at hdir
        rw [if_neg fun h => hlive h.1] at hj
        have := fs.isDir_of_child hj
        simp [FS.isDir, FS.entries, FS.fresh_node] at this
      · split at hj
        · rename_i hat
          exact .inr ⟨hdir, by rw [hi, hat.1]⟩
        · exact .inl ⟨i, x, j, hi, hj⟩
    · rintro (⟨i, x, j, hi, hj⟩ | ⟨_, hd⟩)
      · exact ⟨i, x, j, old hi, old hj⟩
      · exact ⟨d, m, fs.fresh d.dev, old hd, by rw [child, if_pos ⟨rfl, rfl⟩]⟩

theorem fullAt_ensureAt : FullAt env (fs.ensureAt sp env.diskRoot p m) n ↔
    FullAt env fs n ∨ Meets env fs sp p n := by
  unfold FS.ensureAt Meets
  cases hr : fs.reached sp env.diskRoot p with
  | none => simp
  | some d =>
      have hdir := (FS.reached_eq_some.mp hr).2
      simp [fullAt_ensure, hdir]

theorem Meets.extends (h : Meets env fs sp p n) (hext : FS.Extends sp fs fs') :
    Meets env fs' sp p n := by
  obtain ⟨i, hr, hi⟩ := h
  exact ⟨i, hext.reached hr, hext.child hi⟩

/-- A directory made at the end of a path is not the one that the path leads to. -/
theorem Meets.of_ensureAt (hcov : fs.Covers sp)
    (h : Meets env (fs.ensureAt sp env.diskRoot p m) sp p n) : Meets env fs sp p n := by
  have hext := FS.extends_ensureAt hcov env.diskRoot p m
  unfold FS.ensureAt at h hext
  cases hr : fs.reached sp env.diskRoot p with
  | none =>
      rw [hr] at h
      exact h
  | some d =>
      rw [hr] at h hext
      dsimp only at h hext
      obtain ⟨i, hi, hc⟩ := h
      cases (hext.reached hr).symm.trans hi
      refine ⟨d, hr, ?_⟩
      rcases fs.ensure_cases d m with ⟨heq, _⟩ | ⟨hdir, _, heq⟩
      · rwa [heq] at hc
      · rw [heq, FS.child_link hdir (show (Node.dir d []).Bare from rfl)] at hc
        split at hc
        · have hd : fs.isDir (fs.fresh d.dev) = true := by
            rw [Option.some.inj hc]
            exact hdir
          simp [FS.isDir, FS.entries, FS.fresh_node] at hd
        · exact hc

end Tree

/-! ### The condition -/

/-- The table with the directories of the ram disk on which `_start` mounts something. -/
def readied (env : Env) (fs : FS) : FS := (fs.ensure env.ramRoot nDev).ensure env.ramRoot nMnt

/-- Paths are looked up with the disk at `/mnt`. -/
def mountedSpace (env : Env) (fs : FS) : Space :=
  ⟨env.ramRoot, (fs.child env.ramRoot nMnt).map fun mnt => (mnt, env.diskRoot)⟩

/-- The table with `/usr`, `/usr/lib` and `/usr/lib64` on the disk, where they are missing and
can be made. -/
def withUsr (env : Env) (sp : Space) (fs : FS) : FS :=
  ((fs.ensureAt sp env.diskRoot [] nUsr).ensureAt sp env.diskRoot [nUsr] nLib).ensureAt sp
    env.diskRoot [nUsr] nLib64

/-- Nothing is in the way of a link at `n`: there is no directory with something in it, and
none that `/usr` or `/usr/lib` leads to, links followed and missing directories added. -/
structure Unobstructed (env : Env) (fs : FS) (n : Name) : Prop where
  empty : ¬ FullAt env fs n
  usr : ¬ Meets env (withUsr env (mountedSpace env (readied env fs)) (readied env fs))
    (mountedSpace env (readied env fs)) [nUsr] n
  usrLib : ¬ Meets env (withUsr env (mountedSpace env (readied env fs)) (readied env fs))
    (mountedSpace env (readied env fs)) [nUsr, nLib] n

section Decide

variable (env : Env) (fs : FS) (sp : Space) (p : List Name) (n : Name)

instance : Decidable (FullAt env fs n) :=
  decidable_of_iff ((fs.child env.diskRoot n).any fun i => (fs.entries i).any fun es => es ≠ []) (by
    simp [FullAt, Option.any_eq_true])

instance : Decidable (Meets env fs sp p n) :=
  decidable_of_iff ((fs.reached sp env.diskRoot p).any fun i => fs.child env.diskRoot n = some i) (by
    simp [Meets, Option.any_eq_true])

instance : Decidable (Unobstructed env fs n) :=
  decidable_of_iff
    (¬ FullAt env fs n ∧
      ¬ Meets env (withUsr env (mountedSpace env (readied env fs)) (readied env fs))
        (mountedSpace env (readied env fs)) [nUsr] n ∧
      ¬ Meets env (withUsr env (mountedSpace env (readied env fs)) (readied env fs))
        (mountedSpace env (readied env fs)) [nUsr, nLib] n)
    ⟨fun h => ⟨h.1, h.2.1, h.2.2⟩, fun h => ⟨h.empty, h.usr, h.usrLib⟩⟩

end Decide

/-- All the directories that `_start` makes on the disk, in the order in which it makes them. The
paths may lead through links. -/
def withDirs (env : Env) (sp : Space) (fs : FS) : FS :=
  ((withUsr env sp fs).ensureAt sp env.diskRoot [nUsr, nLib] nArch).ensureAt sp env.diskRoot
    [nUsr, nLib] nModules

section Condition

variable {env : Env} {fs : FS} {sp : Space} {n : Name}

/-- Making the directories fills no others than those that `/usr` and `/usr/lib` lead to. -/
theorem fullAt_withDirs (hcov : fs.Covers sp) (hroot : fs.child env.diskRoot n ≠ some env.diskRoot) :
    FullAt env (withDirs env sp fs) n ↔ FullAt env fs n ∨ Meets env (withUsr env sp fs) sp [nUsr] n ∨
      Meets env (withUsr env sp fs) sp [nUsr, nLib] n := by
  unfold withDirs withUsr
  have hext₁ := FS.extends_ensureAt hcov env.diskRoot [] nUsr
  have htop : ¬ Meets env fs sp [] n := by
    rintro ⟨i, hr, hi⟩
    cases (FS.reached_eq_some.mp hr).1
    exact hroot hi
  have hfull₁ : FullAt env (fs.ensureAt sp env.diskRoot [] nUsr) n ↔ FullAt env fs n :=
    fullAt_ensureAt.trans (or_iff_left htop)
  generalize fs.ensureAt sp env.diskRoot [] nUsr = fs₁ at hext₁ hfull₁
  have hcov₁ := hext₁.covers hcov
  have hext₂ := FS.extends_ensureAt hcov₁ env.diskRoot [nUsr] nLib
  have hfull₂ : FullAt env (fs₁.ensureAt sp env.diskRoot [nUsr] nLib) n ↔ _ := fullAt_ensureAt
  generalize fs₁.ensureAt sp env.diskRoot [nUsr] nLib = fs₂ at hext₂ hfull₂
  have hcov₂ := hext₂.covers hcov₁
  have hext₃ := FS.extends_ensureAt hcov₂ env.diskRoot [nUsr] nLib64
  have hfull₃ : FullAt env (fs₂.ensureAt sp env.diskRoot [nUsr] nLib64) n ↔ _ := fullAt_ensureAt
  have husr : Meets env (fs₂.ensureAt sp env.diskRoot [nUsr] nLib64) sp [nUsr] n → _ :=
    Meets.of_ensureAt hcov₂
  generalize fs₂.ensureAt sp env.diskRoot [nUsr] nLib64 = fs₃ at hext₃ hfull₃ husr
  have hcov₃ := hext₃.covers hcov₂
  have hfull₄ : FullAt env (fs₃.ensureAt sp env.diskRoot [nUsr, nLib] nArch) n ↔ _ := fullAt_ensureAt
  have hlib : Meets env (fs₃.ensureAt sp env.diskRoot [nUsr, nLib] nArch) sp [nUsr, nLib] n → _ :=
    Meets.of_ensureAt hcov₃
  generalize fs₃.ensureAt sp env.diskRoot [nUsr, nLib] nArch = fs₄ at hfull₄ hlib
  rw [fullAt_ensureAt, hfull₄, hfull₃, hfull₂, hfull₁]
  constructor
  · rintro ((((hfull | h₁) | h₂) | h₃) | h₄)
    · exact .inl hfull
    · exact .inr (.inl ((h₁.extends hext₂).extends hext₃))
    · exact .inr (.inl (h₂.extends hext₃))
    · exact .inr (.inr h₃)
    · exact .inr (.inr (hlib h₄))
  · rintro (hfull | h | h)
    · exact .inl (.inl (.inl (.inl hfull)))
    · exact .inl (.inl (.inr (husr h)))
    · exact .inl (.inr h)

theorem fullAt_readied (hram : ∀ i, fs.child env.diskRoot n = some i → i ≠ env.ramRoot)
    (hroot : env.ramRoot ≠ env.diskRoot) : FullAt env (readied env fs) n ↔ FullAt env fs n := by
  have hram₁ : (fs.ensure env.ramRoot nDev).child env.diskRoot n = fs.child env.diskRoot n := by
    rcases fs.ensure_cases env.ramRoot nDev with ⟨heq, _⟩ | ⟨hdir, _, heq⟩
    · rw [heq]
    · rw [heq, FS.child_link hdir (show (Node.dir _ []).Bare from rfl), if_neg fun h => hroot h.1.symm]
  rw [readied, fullAt_ensure, or_iff_left, fullAt_ensure, or_iff_left]
  · exact fun h => hram _ h.2 rfl
  · rw [hram₁]
    exact fun h => hram _ h.2 rfl

end Condition

end Hub11.Recovery
