import Hub11.Recovery.Flat

/-!
The order in which a directory is listed.

Two runs of `merge_dir` on the same trees may be told their entries in different orders and
in different portions. On arm64 no name is ever opened as a directory, through a link or not,
so what happens to one name does not depend on what happened to another before: both runs end
with the flat merge of the two trees.
-/

namespace Hub11.Recovery

open Hub11.Effect Hub11.Posix

/-- Another order and other portions of the listings. Everything else is the same, so a difference
between the two runs would come from the order. -/
def relisted (env : Env) (order : Nat → List Comp) : Env :=
  { env with choices := { env.choices with order := order } }

/-- The two trees are the same in both states, with the contents of all files. Which descriptors are
open and what was printed may differ. -/
structure SameTrees (S D : Ino) (w₁ w₂ : World) : Prop where
  src : w₁.fs.view S = w₂.fs.view S
  dst : w₁.fs.view D = w₂.fs.view D
  files : ∀ p i, w₁.fs.view S p = some (.leaf i) ∨ w₁.fs.view D p = some (.leaf i) →
    w₁.fs.node i = w₂.fs.node i

/-! ### Nothing appears that was in neither tree -/

theorem leaf_of_flatResidue {x y : View} {p : List Name} {i : Ino}
    (h : flatResidue x y p = some (.leaf i)) : x p = some (.leaf i) := by
  unfold flatResidue at h
  split at h
  · cases h
  · exact h

theorem leaf_of_flatOverlay {x y : View} {p : List Name} {i : Ino}
    (h : flatOverlay x y p = some (.leaf i)) : x p = some (.leaf i) ∨ y p = some (.leaf i) := by
  unfold flatOverlay at h
  split at h
  · exact .inl h
  · exact .inr h

/-- Runs on arm64 without failures end with the same trees, in whatever order and in whatever
portions the directories are listed, and whatever the links of the trees lead to. -/
theorem mergeDir_sameTrees (env : Env) (hno : env.choices.NoFaults) (harm : env.abi = .arm64)
    (order : Nat → List Comp) {dev : Nat} {S D : Ino} {sk dk : Nat} {w : World}
    (h : Apart dev S D sk dk w) (out : Int) (indent : String) (fuel : Nat)
    (hfuel : mergeBound w.fs dev ≤ fuel) :
    ∃ w₁ w₂, (mergeDir out fuel sk dk indent).run (kernel env) w = (some (), w₁) ∧
      (mergeDir out fuel sk dk indent).run (kernel (relisted env order)) w = (some (), w₂) ∧
      SameTrees S D w₁ w₂ := by
  obtain ⟨w₁, hrun₁, hsd₁, hdd₁, hflat₁, hleaf₁⟩ := mergeDir_flat hno harm h out indent hfuel
  have hno' : (relisted env order).choices.NoFaults := hno
  obtain ⟨w₂, hrun₂, hsd₂, hdd₂, hflat₂, hleaf₂⟩ := mergeDir_flat hno' harm h out indent hfuel
  have hnode : ∀ r p i, w.fs.view r p = some (.leaf i) → w₁.fs.node i = w₂.fs.node i :=
    fun r p i hi => (hleaf₁ r p i hi).trans (hleaf₂ r p i hi).symm
  refine ⟨w₁, w₂, hrun₁, hrun₂, ?_⟩
  constructor
  · exact View.ext_sub (hsd₁.trans hsd₂.symm) fun n => (hflat₁ n).1.trans (hflat₂ n).1.symm
  · exact View.ext_sub (hdd₁.trans hdd₂.symm) fun n => (hflat₁ n).2.trans (hflat₂ n).2.symm
  · intro p i hi
    cases p with
    | nil => simp [hsd₁, hdd₁] at hi
    | cons n p =>
        rcases hi with hi | hi
        · have hsub : (w₁.fs.view S).sub n p = some (.leaf i) := hi
          rw [(hflat₁ n).1] at hsub
          have hsrc := leaf_of_flatResidue hsub
          exact hnode S (n :: p) i hsrc
        · have hsub : (w₁.fs.view D).sub n p = some (.leaf i) := hi
          rw [(hflat₁ n).2] at hsub
          rcases leaf_of_flatOverlay hsub with hx | hy
          · exact hnode S (n :: p) i hx
          · exact hnode D (n :: p) i hy

/-! ### A link whose target moves -/

section Sample

/-- The source `1` holds a directory `b` with a file and a link `a` to it; the destination
`5` holds an empty directory `a`. -/
def linkedTrees : FS := .ofList
  [(⟨1, 1⟩, .dir ⟨1, 1⟩ [(nA, ⟨1, 2⟩), (nB, ⟨1, 3⟩)]),
    (⟨1, 2⟩, .symlink ⟨false, [.name nB]⟩), (⟨1, 3⟩, .dir ⟨1, 1⟩ [(nC, ⟨1, 4⟩)]),
    (⟨1, 4⟩, .file [1]), (⟨1, 5⟩, .dir ⟨1, 5⟩ [(nA, ⟨1, 6⟩)]), (⟨1, 6⟩, .dir ⟨1, 5⟩ [])]

def linkedWorld : World where
  fs := linkedTrees
  mount := none
  fds k := if k = 0 then some (.dir ⟨1, 1⟩ [.dot, .dotdot, .name nA, .name nB] [])
    else if k = 1 then some (.dir ⟨1, 5⟩ [] []) else none
  nextFd := 2
  log := []
  tick := 0

private theorem linked_checks : linkedTrees.Listed 3 1 (pair ⟨1, 1⟩ ⟨1, 5⟩) ∧
    linkedTrees.isDir ⟨1, 1⟩ = true ∧ linkedTrees.isDir ⟨1, 5⟩ = true ∧
    mergeBound linkedTrees 1 ≤ 100 := by
  decide +kernel

theorem linked_apart : Apart 1 ⟨1, 1⟩ ⟨1, 5⟩ 0 1 linkedWorld where
  trees := .of_places linked_checks.1
  srcDir := linked_checks.2.1
  dstDir := linked_checks.2.2.1
  src := ⟨_, _, rfl, rfl, by decide⟩
  dst := ⟨_, _, rfl⟩
  bound := by
    intro k hk
    have h0 : k ≠ 0 := fun h => by simp [h, linkedWorld] at hk
    have h1 : k ≠ 1 := fun h => by simp [h, linkedWorld] at hk
    simp [linkedWorld, h0, h1]
  mount := fun _ _ h => by cases h

/-- The link before what it leads to, and after it. -/
theorem mergeDir_sameTrees_linked :
    ∃ w₁ w₂, (mergeDir 7 100 (0 : Nat) (1 : Nat) "").run (kernel steadyEnv) linkedWorld =
        (some (), w₁) ∧
      (mergeDir 7 100 (0 : Nat) (1 : Nat) "").run
        (kernel (relisted steadyEnv fun _ => [.name nB, .name nA])) linkedWorld = (some (), w₂) ∧
      SameTrees ⟨1, 1⟩ ⟨1, 5⟩ w₁ w₂ :=
  mergeDir_sameTrees steadyEnv (fun _ => rfl) rfl _ linked_apart 7 "" 100 linked_checks.2.2.2

end Sample

end Hub11.Recovery
