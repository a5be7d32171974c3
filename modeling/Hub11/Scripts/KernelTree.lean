import Mathlib.Logic.Relation
import Hub11.Scripts.Dist

/-!
The kernel source tree that `build-kernel.sh` hands to `make`.

The script works in one clone that all runs share. It refuses a clone in which a tracked
file was changed, resets the tracked files to the tag, applies the patches and copies the
device trees and the extra drivers next to them. Nothing looks at untracked files.

What `git am` makes of a patch and what the remote has under a tag are parameters. A
checkout and an `am` that succeed replace the tracked files and leave the others alone.
-/

namespace Hub11.Scripts.KernelTree

open Hub11.Effect

/-- What the remote has, and what `git am` makes of a patch. A patch applies to a tree or it does
not; files that are not tracked have no part in it. -/
structure Git (Patch : Type) where
  /-- The tree of each tag at the remote. -/
  remote : String → Option Tree
  /-- The tree after `git am`, if the patch applies. -/
  am : Tree → Patch → Option Tree

/-- `merge_config.sh` -/
structure Kbuild where
  mergeConfig : Bytes → Bytes → Bytes → Bytes

/-- A clone of the kernel: the tracked files as they are checked in, the working tree with all its
files, and the tags. A clean clone has its tracked files in the working tree. -/
structure Clone {Patch : Type} (git : Git Patch) where
  /-- The tracked files. -/
  index : Tree
  /-- The files in the working tree. -/
  work : Tree
  tags : String → Option Tree
  /-- `git diff` or `git diff --cached` reports a change. -/
  dirty : Bool
  amInProgress : Bool
  clean : dirty = false → ∀ p, index p ≠ none → work p = index p
  tagged : ∀ tag tree, tags tag = some tree → git.remote tag = some tree

namespace Clone

variable {Patch : Type} {git : Git Patch}

/-- The files `git` does not know. -/
def untracked (c : Clone git) : Tree := fun p => if (c.index p).isSome then none else c.work p

/-- The tracked files are replaced, and files that are not tracked stay unless they are in the
way. -/
def switch (c : Clone git) (new : Tree) : Clone git where
  index := new
  work := fun p => (new p).or (c.untracked p)
  tags := c.tags
  dirty := false
  amInProgress := c.amInProgress
  clean := by
    intro _ p hp
    obtain ⟨bytes, hbytes⟩ := Option.ne_none_iff_exists'.mp hp
    rw [hbytes, Option.some_or]
  tagged := c.tagged

/-- A tag that the clone has stays as it is. -/
def fetch (c : Clone git) (tag : String) : Clone git where
  index := c.index
  work := c.work
  tags := fun t => (c.tags t).or (if t = tag then git.remote tag else none)
  dirty := c.dirty
  amInProgress := c.amInProgress
  clean := c.clean
  tagged := by
    intro t tree h
    rcases Option.or_eq_some_iff.mp h with h | ⟨-, h⟩
    · exact c.tagged t tree h
    · obtain ⟨rfl, h⟩ := Option.ite_none_right_eq_some.mp h
      exact h

/-- Files are copied into the working tree. -/
def copy (c : Clone git) (files : List (RelPath × Bytes)) : Clone git where
  index := c.index
  work := fun p => (files.lookup p).or (c.work p)
  tags := c.tags
  dirty := c.dirty || files.any fun file => (c.index file.1).isSome
  amInProgress := c.amInProgress
  clean := by
    intro hdirty p hp
    rw [Bool.or_eq_false_iff, List.any_eq_false] at hdirty
    have hnone : files.lookup p = none := by
      rw [List.lookup_eq_none_iff]
      intro file hfile
      have hne : p ≠ file.1 := by
        rintro rfl
        exact hdirty.2 file hfile (Option.isSome_iff_ne_none.mpr hp)
      simpa using hne
    rw [hnone, Option.none_or, c.clean hdirty.1 p hp]
  tagged := c.tagged

/-- A fresh clone of a tag. -/
def fresh (git : Git Patch) (tag : String) : Clone git where
  index := (git.remote tag).getD fun _ => none
  work := (git.remote tag).getD fun _ => none
  tags := fun t => if t = tag then git.remote tag else none
  dirty := false
  amInProgress := false
  clean := fun _ _ _ => rfl
  tagged := by
    intro t tree h
    obtain ⟨rfl, h⟩ := Option.ite_none_right_eq_some.mp h
    exact h

end Clone

/-- What a version of this repository brings to the kernel: the tag, the patches, and the files that
are copied. -/
structure Repo (Patch : Type) where
  /-- The lines of `KERNEL_TAG`. -/
  kernelTag : List String
  /-- `patches/*.patch`, in order. -/
  patches : List Patch
  /-- `dts/rk3588-hub11*.dts` -/
  dts : List (String × Bytes)
  /-- The files below `kernel-extra/drivers`, by their path in the kernel. Neither
  `kernel-extra` nor `drivers` in it need exist. -/
  kernelExtra : Option (Option (List (RelPath × Bytes)))
  hub11Config : Option Bytes
  hub11InfraConfig : Option Bytes
  /-- The names in a directory differ. -/
  dtsNodup : (dts.map Prod.fst).Nodup

namespace Repo

variable {Patch : Type}

/-- `[:space:]` -/
def isSpace (c : Char) : Bool := c.isWhitespace || c.toNat = 11 || c.toNat = 12

/-- The line is blank or a comment. -/
def skipped (l : String) : Bool :=
  match l.toList.dropWhile isSpace with
  | [] => true
  | c :: _ => c = '#'

/-- `grep -vE '^\s*(#|$)' KERNEL_TAG | head -1 | tr -d '[:space:]'` -/
def tag (R : Repo Patch) : Option String :=
  (R.kernelTag.find? fun l => !skipped l).map fun l =>
    String.ofList (l.toList.filter fun c => !isSpace c)

end Repo

/-- Where a device tree is copied to. -/
def dtsPath (name : String) : RelPath := ["arch", "arm64", "boot", "dts", "rockchip", name]

def defconfigPath : RelPath := ["arch", "arm64", "configs", "defconfig"]

/-- The clone and the merged configuration, all that a run leaves for the next one. -/
structure Site {Patch : Type} (git : Git Patch) where
  clone : Clone git
  config : Option Bytes

def Site.fresh {Patch : Type} (git : Git Patch) (tag : String) : Site git := ⟨.fresh git tag, none⟩

/-- The commands of `build-kernel.sh` and `ci-build.sh` up to the call of `make`. -/
inductive Cmd (Patch : Type) where
  /-- `git diff --quiet` and `git diff --cached --quiet` -/
  | gitDiff
  | gitFetch (tag : String)
  | revParse (tag : String)
  /-- `git checkout -B` -/
  | checkout (tag : String)
  /-- `git clone --depth 1 --branch` -/
  | gitClone (tag : String)
  | am (patch : Patch)
  | amAbort
  /-- `cp` and `cp -a`; the source may be missing. -/
  | cp (files : Option (List (RelPath × Bytes)))
  | mkdirOut
  | mergeConfig (hub11 infra : Option Bytes)

abbrev Reply {Patch : Type} (_ : Cmd Patch) : Type := Unit

section Machine

variable {Patch : Type} {git : Git Patch}

/-- What a command does when it succeeds. Where it has no result it cannot succeed in this state. -/
def effect (kbuild : Kbuild) : Cmd Patch → Site git → Option (Site git)
  | .gitDiff, s => if s.clone.dirty then none else some s
  | .gitFetch tag, s =>
      if (git.remote tag).isSome then some { s with clone := s.clone.fetch tag } else none
  | .revParse tag, s => if (s.clone.tags tag).isSome then some s else none
  | .checkout tag, s => do
      let tree ← s.clone.tags tag
      if s.clone.dirty then none else some { s with clone := s.clone.switch tree }
  | .gitClone tag, s =>
      if (git.remote tag).isSome then some { s with clone := .fresh git tag } else none
  | .am patch, s =>
      if s.clone.dirty || s.clone.amInProgress then none else do
        let tree ← git.am s.clone.index patch
        some { s with clone := s.clone.switch tree }
  | .amAbort, s => some s
  | .cp files, s => do
      let files ← files
      some { s with clone := s.clone.copy files }
  | .mkdirOut, s => some s
  | .mergeConfig hub11 infra, s => do
      let defconfig ← s.clone.work defconfigPath
      let hub11 ← hub11
      let infra ← infra
      some { s with config := some (kbuild.mergeConfig defconfig hub11 infra) }

/-- What a command leaves when it fails. -/
def failed : Cmd Patch → Site git → Site git → Site git
  | .gitDiff, _, s => s
  | .gitFetch _, _, s => s
  | .revParse _, _, s => s
  | .mkdirOut, _, s => s
  | .mergeConfig _ _, left, s => { s with config := left.config }
  | _, left, _ => left

structure Choice (git : Git Patch) where
  ok : Bool
  /-- What a command that fails half way leaves. -/
  left : Site git

def machine (kbuild : Kbuild) :
    Chooser (Choice git) (Site git) (Cmd Patch) fun op => Option (Reply op) := fun c s op =>
  match if c.ok then effect kbuild op s else none with
  | some t => (t, some ())
  | none => (failed op c.left s, none)

end Machine

abbrev Shell (Patch : Type) := Script (Cmd Patch) Reply

section Script

variable {Patch : Type}

abbrev must (op : Cmd Patch) : Shell Patch Unit := Script.must op

abbrev attempt (op : Cmd Patch) : Shell Patch (Option Unit) := Script.attempt op

/-- `git am` for each patch; after a failure the run ends, with an `am --abort` whose failure does
not matter. -/
def applyPatches : List Patch → Shell Patch Unit
  | [] => pure ()
  | patch :: rest => do
      let applied ← attempt (.am patch)
      if applied.isSome then
        applyPatches rest
      else do
        let _ ← attempt .amAbort
        Script.abort

def copyDts : List (String × Bytes) → Shell Patch Unit
  | [] => pure ()
  | (name, bytes) :: rest => do
      must (.cp (some [(dtsPath name, bytes)]))
      copyDts rest

def copyExtra : Option (Option (List (RelPath × Bytes))) → Shell Patch Unit
  | some drivers => must (.cp drivers)
  | none => pure ()

/-- From a clone that is reset to the tag to the call of `make`: patches, device trees, extra
drivers, configuration. -/
def assemble (R : Repo Patch) : Shell Patch Unit := do
  applyPatches R.patches
  copyDts R.dts
  copyExtra R.kernelExtra
  must .mkdirOut
  let _ ← attempt (.mergeConfig R.hub11Config R.hub11InfraConfig)

def resetTo (tag : String) : Shell Patch Unit := do
  must (.revParse tag)
  must (.checkout tag)

def prepareTag (R : Repo Patch) (tag : String) : Shell Patch Unit := do
  must .gitDiff
  let _ ← attempt (.gitFetch tag)
  resetTo tag
  assemble R

/-- `build-kernel.sh`, up to the point where it calls `make`. -/
def prepare (R : Repo Patch) : Shell Patch Unit :=
  match R.tag with
  | none => Script.abort
  | some tag => do
      Script.check (tag ≠ "")
      prepareTag R tag

end Script

/-! ### The tree of a version -/

section Trees

variable {Patch : Type}

/-- The tree after a series of patches. -/
def series (git : Git Patch) : Tree → List Patch → Option Tree
  | tree, [] => some tree
  | tree, patch :: rest => do
      let next ← git.am tree patch
      series git next rest

/-- The path is tracked somewhere in the series. -/
def tracks (git : Git Patch) : Tree → List Patch → RelPath → Bool
  | tree, [], p => (tree p).isSome
  | tree, patch :: rest, p =>
      (tree p).isSome ||
        match git.am tree patch with
        | some next => tracks git next rest p
        | none => false

/-- What the loop over the device trees copies. -/
def dtsCopies : List (String × Bytes) → Tree
  | [], _ => none
  | (name, bytes) :: rest, p => (dtsCopies rest p).or (if p = dtsPath name then some bytes else none)

def extraCopies : Option (Option (List (RelPath × Bytes))) → Tree
  | some (some files), p => files.lookup p
  | _, _ => none

/-- What a version copies into the tree. -/
def Repo.copies (R : Repo Patch) : Tree := fun p => (extraCopies R.kernelExtra p).or (dtsCopies R.dts p)

end Trees

section Runs

variable {Patch : Type} {git : Git Patch} {kbuild : Kbuild} {s : Site git} {P : Site git → Prop}

/-- Runs of versions that satisfy `V`, each of which may fail or be cut off anywhere. The repository
may change from one run to the next. -/
def Builds (kbuild : Kbuild) (V : Repo Patch → Prop) : Site git → Site git → Prop :=
  Relation.ReflTransGen fun s t => ∃ R, V R ∧ (prepare R).run.Reaches (machine kbuild) Anything s t

/-- The run comes to the call of `make` in the state `t`. -/
def Hands (kbuild : Kbuild) (R : Repo Patch) (s t : Site git) : Prop :=
  (prepare R).run.Ends (machine kbuild) Anything s (some ()) t

/-- The script does not come to its end, or it does in a state that satisfies `P`. -/
def Yields (P : Site git → Prop) (r : Option Unit) (t : Site git) : Prop := r ≠ none → P t

/-- If the script comes to its end, then in a state that satisfies `P`. -/
def Brings (kbuild : Kbuild) (p : Shell Patch Unit) (s : Site git) (P : Site git → Prop) : Prop :=
  p.run.Always (machine kbuild) Anything (fun _ => True) (Yields P) s

theorem machine_ok {c : Choice git} {op : Cmd Patch} {r : Unit}
    (h : (machine kbuild c s op).2 = some r) :
    effect kbuild op s = some (machine kbuild c s op).1 := by
  unfold machine at h ⊢
  cases he : (if c.ok then effect kbuild op s else none) with
  | none =>
      rw [he] at h
      cases h
  | some t => exact (Option.ite_none_right_eq_some.mp he).2

theorem brings_must {op : Cmd Patch} {f : Unit → Shell Patch Unit}
    (h : ∀ t, effect kbuild op s = some t → Brings kbuild (f ()) t P) :
    Brings kbuild (must op >>= f) s P := by
  apply Script.always_must trivial
  · exact fun c _ _ => ⟨trivial, fun h => absurd rfl h⟩
  · exact fun c r _ hok => h _ (machine_ok hok)

/-- The rule for a command whose failure is looked at. -/
theorem brings_attempt {op : Cmd Patch} {f : Option Unit → Shell Patch Unit}
    (hok : ∀ t, effect kbuild op s = some t → Brings kbuild (f (some ())) t P)
    (hfail : ∀ left, Brings kbuild (f none) (failed op left s) P) :
    Brings kbuild (attempt op >>= f) s P := by
  refine Script.always_attempt trivial fun c _ => ?_
  unfold machine
  cases he : (if c.ok then effect kbuild op s else none) with
  | none => exact hfail c.left
  | some t => exact hok t (Option.ite_none_right_eq_some.mp he).2

theorem brings_last {op : Cmd Patch} (h : ∀ t, effect kbuild op s = some t → P t) :
    Brings kbuild (must op) s P := by
  refine ⟨trivial, fun c _ => ⟨trivial, fun hr => ?_⟩⟩
  obtain ⟨r, hr⟩ := Option.ne_none_iff_exists'.mp hr
  exact h _ (machine_ok hr)

/-- One part of the script after another. -/
theorem brings_bind {p : Shell Patch Unit} {f : Unit → Shell Patch Unit} {P' : Site git → Prop}
    (hp : Brings kbuild p s P') (hf : ∀ t, P' t → Brings kbuild (f ()) t P) :
    Brings kbuild (p >>= f) s P := by
  apply Script.always_bind
  refine Prog.Always.mono hp ?_
  rintro (_ | ⟨⟩) t _ hyields
  · exact fun h => absurd rfl h
  · exact hf t (hyields (by simp))

theorem brings_abort : Brings kbuild Script.abort s P := ⟨trivial, fun h => absurd rfl h⟩

theorem brings_pure (h : P s) : Brings kbuild (pure ()) s P := ⟨trivial, fun _ => h⟩

/-- The clone has this tree and these untracked files. -/
structure Holds (tree rest : Tree) (s : Site git) : Prop where
  index : s.clone.index = tree
  work : s.clone.work = fun p => (tree p).or (rest p)

theorem Holds.switch {tree rest new : Tree} (h : Holds tree rest s) :
    Holds new (fun p => if (tree p).isSome then none else rest p)
      { s with clone := s.clone.switch new } := by
  constructor
  · rfl
  · funext p
    change (new p).or (s.clone.untracked p) = _
    rw [Clone.untracked, h.index, h.work]
    cases htree : tree p with
    | none => simp [htree]
    | some bytes => simp

/-- The series is applied, and of the untracked files those are left that it never tracks. -/
def Patched (tree rest : Tree) (patches : List Patch) (t : Site git) : Prop :=
  ∃ patched, series git tree patches = some patched ∧
    Holds patched (fun p => if tracks git tree patches p then none else rest p) t

theorem Holds.patched_nil {tree rest : Tree} (h : Holds tree rest s) : Patched tree rest [] s := by
  refine ⟨tree, rfl, h.index, ?_⟩
  rw [h.work]
  funext p
  cases htree : tree p with
  | none => simp [tracks, htree]
  | some bytes => simp

/-- One patch. -/
theorem Holds.am {tree rest : Tree} {patch : Patch} {t : Site git} (h : Holds tree rest s)
    (ht : effect kbuild (.am patch) s = some t) :
    ∃ next, git.am tree patch = some next ∧
      Holds next (fun p => if (tree p).isSome then none else rest p) t := by
  obtain ⟨-, ht⟩ := Option.ite_none_left_eq_some.mp ht
  obtain ⟨next, hnext, ht⟩ := Option.bind_eq_some_iff.mp ht
  cases ht
  rw [h.index] at hnext
  exact ⟨next, hnext, h.switch⟩

theorem Patched.cons {tree rest next : Tree} {patch : Patch} {patches : List Patch} {t : Site git}
    (hnext : git.am tree patch = some next)
    (h : Patched next (fun p => if (tree p).isSome then none else rest p) patches t) :
    Patched tree rest (patch :: patches) t := by
  obtain ⟨patched, hpatched, hholds⟩ := h
  refine ⟨patched, by rw [series, hnext]; exact hpatched, hholds.index, ?_⟩
  rw [hholds.work]
  funext p
  congr 1
  rw [tracks, hnext]
  change (if tracks git next patches p = true then none
    else if (tree p).isSome = true then none else rest p) =
      if ((tree p).isSome || tracks git next patches p) = true then none else rest p
  cases tracks git next patches p <;> cases (tree p).isSome <;> rfl

theorem applyPatches_brings {tree rest : Tree} (patches : List Patch) (h : Holds tree rest s) :
    Brings kbuild (applyPatches patches) s (Patched tree rest patches) := by
  induction patches generalizing s tree rest with
  | nil => exact brings_pure h.patched_nil
  | cons patch patches ih =>
      refine brings_attempt (fun t ht => ?_) fun left => ?_
      · obtain ⟨next, hnext, hholds⟩ := h.am ht
        exact Prog.Always.mono (ih hholds) fun r t _ hyields hr => (hyields hr).cons hnext
      · exact brings_attempt (fun _ _ => brings_abort) fun _ => brings_abort

/-- The device trees lie over what was there. -/
theorem copyDts_brings (dts : List (String × Bytes)) :
    Brings kbuild (copyDts dts) s fun t =>
      t.clone.work = fun p => (dtsCopies dts p).or (s.clone.work p) := by
  induction dts generalizing s with
  | nil => exact brings_pure rfl
  | cons d dts ih =>
      obtain ⟨name, bytes⟩ := d
      refine brings_must fun t ht => ?_
      cases ht
      refine Prog.Always.mono ih fun r t _ hyields hr => (hyields hr).trans ?_
      funext p
      rw [dtsCopies, Option.or_assoc]
      congr 1
      change (List.lookup p [(dtsPath name, bytes)]).or (s.clone.work p) = _
      by_cases hp : p = dtsPath name
      · simp [hp]
      · have hne : (p == dtsPath name) = false := by simpa using hp
        simp [List.lookup_cons, hne, hp]

theorem copyExtra_brings (extra : Option (Option (List (RelPath × Bytes)))) :
    Brings kbuild (copyExtra extra) s fun t =>
      t.clone.work = fun p => (extraCopies extra p).or (s.clone.work p) := by
  match extra with
  | none => exact brings_pure rfl
  | some none => exact brings_last fun t ht => by cases ht
  | some (some files) =>
      refine brings_last fun t ht => ?_
      cases ht
      rfl

/-- The tree `make` gets: what is copied, over the patched tag, over what was left untracked. Only
the last part depends on the past. -/
def Repo.Assembled (git : Git Patch) (R : Repo Patch) (tag : String) (untracked work : Tree) : Prop :=
  ∃ tree patched, git.remote tag = some tree ∧ series git tree R.patches = some patched ∧
    work = fun p => (R.copies p).or ((patched p).or
      (if tracks git tree R.patches p then none else untracked p))

theorem assemble_brings {tree rest : Tree} {tag : String} (R : Repo Patch)
    (hremote : git.remote tag = some tree) (h : Holds tree rest s) :
    Brings kbuild (assemble R) s fun t => R.Assembled git tag rest t.clone.work := by
  apply brings_bind (applyPatches_brings R.patches h)
  rintro s₁ ⟨patched, hpatched, hholds⟩
  apply brings_bind (copyDts_brings R.dts)
  intro s₂ hs₂
  apply brings_bind (copyExtra_brings R.kernelExtra)
  intro s₃ hs₃
  have hassembled : R.Assembled git tag rest s₃.clone.work := by
    refine ⟨tree, patched, hremote, hpatched, ?_⟩
    rw [hs₃, hs₂, hholds.work]
    funext p
    exact Option.or_assoc.symm
  apply brings_must
  intro t ht
  cases ht
  refine brings_attempt (fun t ht => ?_) fun left => brings_pure hassembled
  simp only [effect, Option.bind_eq_bind, Option.bind_eq_some_iff] at ht
  obtain ⟨defconfig, -, hub11, -, infra, -, ht⟩ := ht
  cases ht
  exact brings_pure hassembled

/-- After the reset the tracked files are those of the tag, and the others are as before. -/
theorem resetTo_brings (tag : String) :
    Brings kbuild (resetTo tag) s fun t =>
      ∃ tree, git.remote tag = some tree ∧ Holds tree s.clone.untracked t := by
  apply brings_must
  intro t ht
  obtain ⟨-, ht⟩ := Option.ite_none_right_eq_some.mp ht
  cases ht
  apply brings_last
  intro t ht
  obtain ⟨tree, htree, ht⟩ := Option.bind_eq_some_iff.mp ht
  obtain ⟨-, ht⟩ := Option.ite_none_left_eq_some.mp ht
  cases ht
  exact ⟨tree, s.clone.tagged tag tree htree, rfl, rfl⟩

theorem prepareTag_brings (R : Repo Patch) (tag : String) :
    Brings kbuild (prepareTag R tag) s fun t =>
      R.Assembled git tag s.clone.untracked t.clone.work := by
  have reset : ∀ s' : Site git, s'.clone.untracked = s.clone.untracked →
      Brings kbuild (resetTo tag >>= fun _ => assemble R) s' fun t =>
        R.Assembled git tag s.clone.untracked t.clone.work := by
    intro s' hs'
    apply brings_bind (resetTo_brings tag)
    rintro t ⟨tree, hremote, hholds⟩
    rw [hs'] at hholds
    exact assemble_brings R hremote hholds
  apply brings_must
  intro t ht
  obtain ⟨-, ht⟩ := Option.ite_none_left_eq_some.mp ht
  cases ht
  refine brings_attempt (fun t ht => ?_) fun left => reset s rfl
  obtain ⟨-, ht⟩ := Option.ite_none_right_eq_some.mp ht
  cases ht
  exact reset _ rfl

theorem prepare_brings (R : Repo Patch) :
    Brings kbuild (prepare R) s fun t => ∃ tag, R.tag = some tag ∧
      R.Assembled git tag s.clone.untracked t.clone.work := by
  unfold prepare
  cases htag : R.tag with
  | none => exact brings_abort
  | some tag =>
      refine Script.always_check trivial (fun _ h => absurd rfl h) fun _ => ?_
      refine Prog.Always.mono (prepareTag_brings R tag) fun r t _ hyields hr => ?_
      exact ⟨tag, rfl, hyields hr⟩

/-- The tree that a run hands to `make`. -/
theorem Hands.assembled {R : Repo Patch} {t : Site git} (h : Hands kbuild R s t) :
    ∃ tag, R.tag = some tag ∧ R.Assembled git tag s.clone.untracked t.clone.work :=
  (prepare_brings R).ends h (by simp)

theorem untracked_fresh (git : Git Patch) (tag : String) :
    (Clone.fresh git tag).untracked = fun _ => none := by
  funext p
  unfold Clone.untracked
  split
  · rfl
  · exact Option.not_isSome_iff_eq_none.mp ‹_›

end Runs

/-! ### A device tree that is gone from the repository stays in the clone -/

/-- A remote with one tag, whose tree is empty but for the default configuration. -/
def smallGit : Git Unit where
  remote := fun tag =>
    if tag = "v6.18" then some fun p => if p = defconfigPath then some [0] else none else none
  am := fun tree _ => some tree

def smallKbuild : Kbuild := ⟨fun defconfig hub11 infra => defconfig ++ hub11 ++ infra⟩

def smallChoice : Choice smallGit := ⟨true, .fresh smallGit "v6.18"⟩

/-- The state in which a run hands over the tree if nothing fails. -/
def smallHanded (R : Repo Unit) (s : Site smallGit) : Site smallGit :=
  ((prepare R).run.after (machine smallKbuild) (List.replicate 10 smallChoice) s).2

theorem hands_small (R : Repo Unit) (s : Site smallGit)
    (h : ((prepare R).run.after (machine smallKbuild) (List.replicate 10 smallChoice) s).1 =
      .ret (some ())) : Hands smallKbuild R s (smallHanded R s) :=
  ⟨_, Prog.meets_anything _ _ _ _, Prod.ext h rfl⟩

end Hub11.Scripts.KernelTree
