import Hub11.Recovery.Exact

/-!
What `merge_dir` does on arm64.

The number that line 13 of the source gives `O_DIRECTORY` is `O_DIRECT` there, and a
directory cannot be opened with it. A rename may still go through, and an empty directory
is still removed, but two directories of one name are never merged: what is left of the
source is `flatResidue`, and the destination is `flatOverlay`.

`mergeDir_overlays_iff` compares this with the overlay that the code is meant to compute.
The two agree exactly if, wherever both trees have a directory with entries, merging the
two would have changed nothing anyway.
-/

namespace Hub11.Recovery

open Hub11.Effect Hub11.Posix

/-! ### Flat and recursive results of one name -/

section Compare

variable {x y : View}

/-- An empty directory blocks nothing. -/
theorem not_blocks_one (y : View) (q : List Name) : ¬ Blocks (View.one .dir) y q := by
  cases q with
  | nil =>
      rintro (⟨i, hi, _⟩ | ⟨_, ⟨n, hn⟩, _⟩)
      · cases hi
      · exact hn rfl
  | cons n q =>
      rintro ⟨_, _, hblocks⟩
      exact not_blocks_of_absent (x := (View.one .dir).sub n) rfl q hblocks

theorem overlay_one {y : View} (hthere : y [] ≠ none) : overlay (View.one .dir) y = y := by
  cases hy : y [] with
  | none => exact absurd hy hthere
  | some o =>
      cases o with
      | leaf j =>
          funext p
          cases p <;> simp [overlay, hy]
      | dir =>
          refine View.ext_sub (by simp [overlay, hy]) fun n => ?_
          rw [overlay_sub rfl hy]
          exact overlay_of_absent rfl

/-- What does not fit is stuck, empty, or a directory with entries over another. -/
theorem stuck_or_full_of_not_fits (hx : x.Closed) (hthere : x [] ≠ none) (hfits : ¬ Fits x y)
    (hone : x ≠ View.one .dir) :
    Stuck x y ∨ (x [] = some .dir ∧ y [] = some .dir ∧ y ≠ View.one .dir) := by
  cases hx0 : x [] with
  | none => exact absurd hx0 hthere
  | some o =>
      cases hy0 : y [] with
      | none => exact absurd (.inl hy0) hfits
      | some o' =>
          cases o with
          | leaf i =>
              cases o' with
              | dir => exact .inl (.inl ⟨i, hx0, .inl hy0⟩)
              | leaf j =>
                  by_cases hij : i = j
                  · exact .inl (.inl ⟨i, hx0, .inr (hij ▸ hy0)⟩)
                  · exact absurd (.inr (.inl ⟨i, j, hx0, hy0, hij⟩)) hfits
          | dir =>
              cases o' with
              | leaf j => exact .inl (.inr ⟨hx0, occupied_of_ne_one hx hx0 hone, j, hy0⟩)
              | dir =>
                  refine .inr ⟨rfl, rfl, fun h => hfits ?_⟩
                  exact .inr (.inr ⟨hx0, h⟩)

/-- Both results are the same unless there are two directories with entries, and then if and
only if the recursive merge leaves everything where it is. -/
theorem flat_eq_exact_iff (hx : x.Closed) (hy : y.Closed) (hshare : Unshared x y) :
    (flatResidue x y = residue x y ∧ flatOverlay x y = overlay x y) ↔
      (x [] = some .dir → x ≠ View.one .dir → y [] = some .dir → y ≠ View.one .dir →
        AtRest x y) := by
  unfold flatResidue flatOverlay
  by_cases hthere : x [] = none
  · have hempty : x = View.empty := hx.eq_empty hthere
    rw [residue_eq_empty (not_blocks_of_absent hthere), overlay_of_absent hthere]
    simp [hempty]
  by_cases hfits : Fits x y
  · rw [residue_eq_empty (not_blocks_of_fits hfits), overlay_of_fits hx hy hfits]
    simp only [hfits, true_or, if_true, ne_eq, hthere, not_false_eq_true, and_self, true_iff]
    intro hxd _ hyd hyone
    rcases hfits with hnone | ⟨i, _, hxi, _⟩ | ⟨_, hone⟩
    · simp [hyd] at hnone
    · simp [hxd] at hxi
    · exact absurd hone hyone
  have hythere : y [] ≠ none := fun hnone => hfits (.inl hnone)
  by_cases hone : x = View.one .dir
  · subst hone
    rw [residue_eq_empty (not_blocks_one y), overlay_one hythere]
    simp [hfits]
  simp only [hfits, hone, or_self, if_false, and_false]
  rcases stuck_or_full_of_not_fits hx hthere hfits hone with hstuck | ⟨hxd, hyd, hyone⟩
  · have hkept : residue x y = x := by
      funext p
      exact residue_of_blocks (q := []) hstuck (.inl List.nil_prefix)
    rw [hkept, overlay_of_stuck hstuck]
    simp only [and_self, true_iff]
    intro hxd _ hyd _
    rcases hstuck with ⟨i, hxi, _⟩ | ⟨_, _, j, hyj⟩
    · simp [hxd] at hxi
    · simp [hyd] at hyj
  · constructor
    · rintro ⟨hres, _⟩ _ _ _ _ p hp
      -- what is left of the source is there because of a block
      rw [hres] at hp
      unfold residue at hp
      split at hp
      · rename_i hex
        obtain ⟨q, hpq, hblocks⟩ := hex
        exact ⟨q, hpq, (blocks_iff_clashes hx hy hshare q).mp hblocks⟩
      · exact absurd rfl hp
    · intro hrest
      have hrest := hrest hxd hone hyd hyone
      refine ⟨?_, (hrest.overlay_eq hx hy).symm⟩
      have hsame := hrest.remains_eq hx hy
      funext p
      cases p with
      | nil =>
          obtain ⟨q, hpq, hclash⟩ := hrest [] (by simp [hxd])
          exact (residue_of_blocks ((blocks_iff_clashes hx hy hshare q).mpr hclash) hpq).symm
      | cons n p => exact (congrFun hsame (n :: p)).symm

end Compare

/-! ### The run -/

section Run

variable {env : Env} (hno : env.choices.NoFaults) (harm : env.abi = .arm64) {dev : Nat} {S D : Ino}
  {sk dk : Nat} {w : World} (h : Apart dev S D sk dk w) (out : Int) (indent : String) {fuel : Nat}
  (hfuel : mergeBound w.fs dev ≤ fuel)
include hno harm h hfuel

/-- On arm64 `merge_dir` without failures does with every name what a rename and a `rmdir` can
do, whatever symbolic links there are. No file is written to. -/
theorem mergeDir_flat :
    ∃ w', (mergeDir out fuel sk dk indent).run (kernel env) w = (some (), w') ∧
      w'.fs.view S [] = some .dir ∧ w'.fs.view D [] = some .dir ∧
      (∀ n, (w'.fs.view S).sub n = flatResidue ((w.fs.view S).sub n) ((w.fs.view D).sub n) ∧
        (w'.fs.view D).sub n = flatOverlay ((w.fs.view S).sub n) ((w.fs.view D).sub n)) ∧
      ∀ r p i, w.fs.view r p = some (.leaf i) → w'.fs.node i = w.fs.node i := by
  have cautious : Cautious env (pair S D) (fun a => (a, [])) fun _ _ => True := by
    intro habi
    rw [harm] at habi
    cases habi
  obtain ⟨_, w', hrun, merged⟩ := mergeDir_ensures (Mode.flat_holds hno harm) out indent
    (h.ready .flat) h.src (.inl cautious) (Forest.small h.trees false) hfuel fun _ _ => trivial
  refine ⟨w', hrun, w'.fs.obj_eq_dir_iff.mpr merged.swept.kept.srcDir,
    w'.fs.obj_eq_dir_iff.mpr merged.swept.kept.dstDir, fun n => ?_, fun r p i hi => ?_⟩
  · exact (merged.swept.done n trivial).flat_eq ((w.fs.view_closed S).sub n)
  · exact merged.swept.kept.within.leaf_node hi

/-- On arm64 `merge_dir` computes the recursive overlay of two trees if and only if nothing
would change in any pair of directories with entries that have one name in both of them. -/
theorem mergeDir_overlays_iff (apart : LinksApart w.fs (w.fs.view S) (w.fs.view D))
    (unshared : Unshared (w.fs.view S) (w.fs.view D)) :
    ∃ w', (mergeDir out fuel sk dk indent).run (kernel env) w = (some (), w') ∧
      (Overlays (w.fs.view S) (w.fs.view D) (w'.fs.view S) (w'.fs.view D) ↔
        ∀ n, (w.fs.view S).Full [n] → (w.fs.view D).Full [n] →
          AtRest ((w.fs.view S).sub n) ((w.fs.view D).sub n)) := by
  obtain ⟨w', hrun, hsd, hdd, hflat, _⟩ := mergeDir_flat hno harm h out indent hfuel
  have hX := w.fs.view_closed S
  have hY := w.fs.view_closed D
  -- the overlay exists: it is where the code gets with the flags the other way round
  let swapped : Env := { env with abi := .generic }
  have hno' : swapped.choices.NoFaults := hno
  obtain ⟨w'', _, hsd'', hdd'', hmerged, hemptied⟩ :=
    mergeDir_overlays hno' rfl h out indent hfuel apart unshared
  have hexact : ∀ {X' Y' : View}, (∀ n, Merges ((w.fs.view S).sub n) ((w.fs.view D).sub n)
      (X'.sub n) (Y'.sub n)) → ∀ n, X'.sub n = residue ((w.fs.view S).sub n) ((w.fs.view D).sub n) ∧
      Y'.sub n = overlay ((w.fs.view S).sub n) ((w.fs.view D).sub n) := fun hm n =>
    ((hm n).entry (hX.sub n) (hY.sub n) (unshared.sub n)).exact_eq (hX.sub n) (hY.sub n)
  have hiff : Overlays (w.fs.view S) (w.fs.view D) (w'.fs.view S) (w'.fs.view D) ↔
      ∀ n, flatResidue ((w.fs.view S).sub n) ((w.fs.view D).sub n) =
          residue ((w.fs.view S).sub n) ((w.fs.view D).sub n) ∧
        flatOverlay ((w.fs.view S).sub n) ((w.fs.view D).sub n) =
          overlay ((w.fs.view S).sub n) ((w.fs.view D).sub n) := by
    constructor
    · intro hover n
      rw [← (hflat n).1, ← (hflat n).2]
      exact hexact hover.merged n
    · intro hsame
      have hS : w'.fs.view S = w''.fs.view S := View.ext_sub (hsd.trans hsd''.symm) fun n => by
        rw [(hflat n).1, (hsame n).1, (hexact hmerged n).1]
      have hD : w'.fs.view D = w''.fs.view D := View.ext_sub (hdd.trans hdd''.symm) fun n => by
        rw [(hflat n).2, (hsame n).2, (hexact hmerged n).2]
      rw [hS, hD]
      exact ⟨hmerged, hemptied⟩
  refine ⟨w', hrun, hiff.trans (forall_congr' fun n => ?_)⟩
  rw [flat_eq_exact_iff (hX.sub n) (hY.sub n) (unshared.sub n)]
  exact ⟨fun hrest hx hy => hrest hx.1 hx.2 hy.1 hy.2,
    fun hrest hxd hx hyd hy => hrest ⟨hxd, hx⟩ ⟨hyd, hy⟩⟩

end Run

section Sample

/-- Trees that agree on what is a directory can be checked path by path. -/
theorem tame_of_support {x y : View} {ps : List (List Name)} (hx : x.Support ps)
    (h : ∀ p ∈ ps, y p = none ∨ (x p = some .dir ↔ y p = some .dir)) : Tame x y := by
  intro p i
  constructor
  · rintro ⟨hxd, hyi⟩
    rcases h p (hx p (by simp [hxd])) with hnone | hiff
    · simp [hyi] at hnone
    · simp [hiff.mp hxd] at hyi
  · rintro ⟨hxi, hyd⟩
    rcases h p (hx p (by simp [hxi])) with hnone | hiff
    · simp [hyd] at hnone
    · simp [hiff.mpr hyd] at hxi

theorem unshared_of_support {x y : View} {ps : List (List Name)} (hx : x.Support ps)
    (h : ∀ p ∈ ps, x p = some .dir ∨ x p ≠ y p) : Unshared x y := by
  intro p i hxi hyi
  rcases h p (hx p (by simp [hxi])) with hxd | hne
  · simp [hxi] at hxd
  · exact hne (hxi.trans hyi.symm)

/-- An arm64 machine on which nothing fails and directories are listed in the order of the
table. -/
def steadyEnv : Env where
  abi := .arm64
  ramRoot := ⟨0, 0⟩
  diskRoot := ⟨1, 0⟩
  choices :=
    { fault := fun _ => none
      leak := fun _ => false
      order := fun _ => []
      chunk := fun _ => 1
      short := fun _ => none
      diskReady := fun _ => false
      direct := fun _ => true
      console := false }

/-- The two trees are apart, and no path of theirs leads to a directory and to something else
or to one thing twice. -/
private theorem clashing_checks : clashingTrees.Listed 3 1 (pair ⟨1, 1⟩ ⟨1, 5⟩) ∧
    clashingTrees.isDir ⟨1, 1⟩ = true ∧ clashingTrees.isDir ⟨1, 5⟩ = true ∧
    mergeBound clashingTrees 1 ≤ 110 ∧
    ∀ p ∈ (clashingTrees.places 3 ⟨1, 1⟩).map Prod.fst,
      (clashingTrees.view ⟨1, 5⟩ p = none ∨
        (clashingTrees.view ⟨1, 1⟩ p = some .dir ↔ clashingTrees.view ⟨1, 5⟩ p = some .dir)) ∧
      (clashingTrees.view ⟨1, 1⟩ p = some .dir ∨
        clashingTrees.view ⟨1, 1⟩ p ≠ clashingTrees.view ⟨1, 5⟩ p) := by
  decide +kernel

theorem clashing_apart : Apart 1 ⟨1, 1⟩ ⟨1, 5⟩ 0 1 clashingWorld where
  trees := .of_places clashing_checks.1
  srcDir := clashing_checks.2.1
  dstDir := clashing_checks.2.2.1
  src := ⟨_, _, rfl, rfl, by decide⟩
  dst := ⟨_, _, rfl⟩
  bound := by
    intro k hk
    have h0 : k ≠ 0 := fun h => by simp [h, clashingWorld] at hk
    have h1 : k ≠ 1 := fun h => by simp [h, clashingWorld] at hk
    simp [clashingWorld, h0, h1]
  mount := fun _ _ h => by cases h

private theorem clashing_linksApart : LinksApart clashingWorld.fs (clashingWorld.fs.view ⟨1, 1⟩)
    (clashingWorld.fs.view ⟨1, 5⟩) :=
  (tame_of_support (clashing_checks.1.1 false).support
    fun p hp => (clashing_checks.2.2.2.2 p hp).1).linksApart _

private theorem clashing_unshared : Unshared (clashingWorld.fs.view ⟨1, 1⟩)
    (clashingWorld.fs.view ⟨1, 5⟩) :=
  unshared_of_support (clashing_checks.1.1 false).support
    fun p hp => (clashing_checks.2.2.2.2 p hp).2

/-- The theorem applies to the trees of the counterexample, in which two directories of one name
have entries. -/
theorem mergeDir_overlays_iff_clashing :
    ∃ w', (mergeDir 7 110 (0 : Nat) (1 : Nat) "").run (kernel steadyEnv) clashingWorld =
        (some (), w') ∧
      (Overlays (clashingWorld.fs.view ⟨1, 1⟩) (clashingWorld.fs.view ⟨1, 5⟩)
          (w'.fs.view ⟨1, 1⟩) (w'.fs.view ⟨1, 5⟩) ↔
        ∀ n, (clashingWorld.fs.view ⟨1, 1⟩).Full [n] → (clashingWorld.fs.view ⟨1, 5⟩).Full [n] →
          AtRest ((clashingWorld.fs.view ⟨1, 1⟩).sub n) ((clashingWorld.fs.view ⟨1, 5⟩).sub n)) :=
  mergeDir_overlays_iff (fun _ => rfl) rfl clashing_apart 7 "" clashing_checks.2.2.2.1
    clashing_linksApart clashing_unshared

/-- What `merge_dir` is meant to do, on arm64: for any two trees it ends with the recursive overlay
of the one over the other. -/
def MergesOverlay : Prop :=
  ∀ (env : Env) (dev : Nat) (S D : Ino) (sk dk : Nat) (w : World) (out : Int) (indent : String)
    (fuel : Nat), env.choices.NoFaults → env.abi = .arm64 → Apart dev S D sk dk w →
    mergeBound w.fs dev ≤ fuel → LinksApart w.fs (w.fs.view S) (w.fs.view D) →
    Unshared (w.fs.view S) (w.fs.view D) →
    ∃ w', (mergeDir out fuel sk dk indent).run (kernel env) w = (some (), w') ∧
      Overlays (w.fs.view S) (w.fs.view D) (w'.fs.view S) (w'.fs.view D)

/-- The file in the directory `b` of the source stays there, as the directory `b` of the
destination cannot be opened. -/
theorem not_mergesOverlay : ¬ MergesOverlay := by
  intro h
  obtain ⟨w', hrun, hover⟩ := h steadyEnv 1 ⟨1, 1⟩ ⟨1, 5⟩ 0 1 clashingWorld 7 "" 110 (fun _ => rfl)
    rfl clashing_apart clashing_checks.2.2.2.1 clashing_linksApart clashing_unshared
  have hend : w' = ((mergeDir 7 110 (0 : Nat) (1 : Nat) "").run (kernel steadyEnv) clashingWorld).2 :=
    (congrArg Prod.snd hrun).symm
  have hleft : w'.fs.view ⟨1, 5⟩ [nB, nA] = none := by
    rw [hend]
    decide +kernel
  have hentry := (hover.merged nB).entry ((clashingWorld.fs.view_closed _).sub nB)
    ((clashingWorld.fs.view_closed _).sub nB) (clashing_unshared.sub nB)
  have hmerged := congrFun (hentry.exact_eq ((clashingWorld.fs.view_closed _).sub nB)
    ((clashingWorld.fs.view_closed _).sub nB)).2 [nA]
  rw [View.sub_apply, hleft] at hmerged
  revert hmerged
  decide +kernel

end Sample

end Hub11.Recovery
