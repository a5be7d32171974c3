import Hub11.Recovery.Merge

/-!
The recursive overlay that `merge_dir` is meant to compute.

`Merges` says what that is, name by name and without reference to system calls: what
moves, what replaces what, what is merged further down and what stays behind. It leaves
no choice (`Merges.unique`), and it does not matter in which order or in which portions
the entries are listed. The code gets there on a machine where its flags open directories
(`mergeDir_overlays`); what it does where they do not is another module.
-/

namespace Hub11.Recovery

open Hub11.Effect Hub11.Posix

open Classical in
/-- What becomes of the two subtrees at one name: `x` and `x'` in the source before and
after, `y` and `y'` in the destination. -/
inductive Merges : View → View → View → View → Prop where
  | absent {x y : View} (hx : x [] = none) : Merges x y x y
  | moved {x y : View} (hx : x [] ≠ none) (hy : y [] = none) : Merges x y View.empty x
  | replaced {x y : View} {i j : Ino} (hx : x [] = some (.leaf i)) (hy : y [] = some (.leaf j)) :
      Merges x y View.empty x
  | filled {x : View} (hx : x [] = some .dir) : Merges x (View.one .dir) View.empty x
  | merged {x y x' y' : View} (hx : x [] = some .dir) (hy : y [] = some .dir)
      (hfull : y ≠ View.one .dir) (hx' : x' [] = some .dir) (hy' : y' [] = some .dir)
      (below : ∀ n, Merges (x.sub n) (y.sub n) (x'.sub n) (y'.sub n)) :
      Merges x y (if x' = View.one .dir then View.empty else x') y'
  | fileOverDir {x y : View} {i : Ino} (hx : x [] = some (.leaf i)) (hy : y [] = some .dir) :
      Merges x y x y
  | dirOverFile {x y : View} {j : Ino} (hx : x [] = some .dir) (hy : y [] = some (.leaf j)) :
      Merges x y (if x = View.one .dir then View.empty else x) y

theorem Unshared.sub {x y : View} (h : Unshared x y) (n : Name) : Unshared (x.sub n) (y.sub n) :=
  fun p i => h (n :: p) i

theorem Occupied.ne_one {x : View} (h : Occupied x) : x ≠ View.one .dir := by
  rintro rfl
  obtain ⟨n, hn⟩ := h
  exact hn rfl

/-- The entries of a merge without failures are those of the overlay. -/
theorem Entry.merges {x y x' y' : View} (h : Entry .exact x y x' y') (hx : x.Closed)
    (hy : y.Closed) (hshare : Unshared x y) : Merges x y x' y' := by
  induction h with
  | @keep x y hexact _ =>
      rcases hexact rfl with hnone | ⟨i, hxi, hyd | hyi⟩ | ⟨hxd, hocc, j, hyj⟩
      · exact .absent hnone
      · exact .fileOverDir hxi hyd
      · exact absurd hyi (hshare [] i hxi)
      · have := Merges.dirOverFile hxd hyj
        rwa [if_neg hocc.ne_one] at this
  | @move x y hne hfits =>
      rcases hfits with hnone | ⟨i, j, hxi, hyj, _⟩ | ⟨hxd, rfl⟩
      · exact .moved hne hnone
      · exact .replaced hxi hyj
      · exact .filled hxd
  | @rmdir y hexact _ =>
      obtain ⟨j, hj⟩ := hexact rfl
      have := Merges.dirOverFile (x := View.one .dir) rfl hj
      rwa [if_pos rfl] at this
  | mkdir hm _ _ _ => cases hm
  | @descend x y x' y' _ hxd hyd hxd' hyd' below hocc ih =>
      have hocc := hocc rfl
      have hfull : y ≠ View.one .dir := by
        rintro rfl
        obtain ⟨n, hn⟩ := hocc
        have hsub := ((below n).exact_eq (hx.sub n) (hy.sub n)).1
        rw [residue_eq_empty (not_blocks_of_free rfl)] at hsub
        exact hn (congrFun hsub [])
      have := Merges.merged hxd hyd hfull hxd' hyd' fun n =>
        ih n (hx.sub n) (hy.sub n) (hshare.sub n)
      rwa [if_neg hocc.ne_one] at this
  | @clear x y y' _ hxd hyd hyd' below ih =>
      by_cases hfull : y = View.one .dir
      · subst hfull
        have hsame : y' = x := by
          apply View.ext_sub
          · rw [hyd', hxd]
          · intro n
            rw [((below n).exact_eq (hx.sub n) (hy.sub n)).2]
            exact overlay_empty (hx.sub n)
        rw [hsame]
        exact .filled hxd
      · have hroot : View.one .dir [] = some .dir := rfl
        have := Merges.merged hxd hyd hfull hroot hyd' fun n =>
          ih n (hx.sub n) (hy.sub n) (hshare.sub n)
        rwa [if_pos rfl] at this

/-- The overlay has no choices. -/
theorem Merges.entry {x y x' y' : View} (h : Merges x y x' y') (hx : x.Closed) (hy : y.Closed)
    (hshare : Unshared x y) : Entry .exact x y x' y' := by
  induction h with
  | absent hnone => exact .keep (fun _ => .inl hnone) (by simp)
  | moved hne hnone => exact .move hne (.inl hnone)
  | @replaced x y i j hxi hyj =>
      apply Entry.move (by simp [hxi])
      refine .inr (.inl ⟨i, j, hxi, hyj, ?_⟩)
      rintro rfl
      exact hshare [] i hxi hyj
  | filled hxd => exact .move (by simp [hxd]) (.inr (.inr ⟨hxd, rfl⟩))
  | @merged x y x' y' hxd hyd _ hxd' hyd' below ih =>
      split
      · rename_i hone
        subst hone
        refine .clear (by decide) hxd hyd hyd' fun n => ?_
        exact ih n (hx.sub n) (hy.sub n) (hshare.sub n)
      · rename_i hne
        refine .descend (by decide) hxd hyd hxd' hyd' (fun n => ?_) fun _ => ?_
        · exact ih n (hx.sub n) (hy.sub n) (hshare.sub n)
        · by_contra hocc
          apply hne
          apply View.ext_sub hxd'
          intro n
          have hsub := ((ih n (hx.sub n) (hy.sub n) (hshare.sub n)).exact_eq (hx.sub n)
            (hy.sub n)).1
          rw [hsub, View.sub_one]
          apply residue_of_root_none
          rw [← hsub]
          by_contra hn
          exact hocc ⟨n, hn⟩
  | fileOverDir hxi hyd => exact .keep (fun _ => .inr (.inl ⟨_, hxi, .inl hyd⟩)) (by simp)
  | @dirOverFile x y j hxd hyj =>
      split
      · rename_i hone
        subst hone
        exact .rmdir (fun _ => ⟨j, hyj⟩) (by simp)
      · rename_i hne
        exact .keep (fun _ => .inr (.inr ⟨hxd, occupied_of_ne_one hx hxd hne, j, hyj⟩)) (by simp)

theorem Merges.unique {x y x₁ y₁ x₂ y₂ : View} (h₁ : Merges x y x₁ y₁) (h₂ : Merges x y x₂ y₂)
    (hx : x.Closed) (hy : y.Closed) (hshare : Unshared x y) : x₁ = x₂ ∧ y₁ = y₂ := by
  obtain ⟨hx₁, hy₁⟩ := (h₁.entry hx hy hshare).exact_eq hx hy
  obtain ⟨hx₂, hy₂⟩ := (h₂.entry hx hy hshare).exact_eq hx hy
  exact ⟨hx₁.trans hx₂.symm, hy₁.trans hy₂.symm⟩

/-! ### When nothing stays behind -/

/-- A file where the destination has a directory, or a directory with something in it
where the destination has a file. -/
def Clashes (x y : View) (p : List Name) : Prop :=
  (∃ i, x p = some (.leaf i) ∧ y p = some .dir) ∨
    (x p = some .dir ∧ x.below p ≠ View.one .dir ∧ ∃ j, y p = some (.leaf j))

/-- A place that blocks a merge is a clash: a directory meets a file or a link there. -/
theorem blocks_iff_clashes {x y : View} (hx : x.Closed) (hy : y.Closed) (hshare : Unshared x y)
    (p : List Name) : Blocks x y p ↔ Clashes x y p := by
  induction p generalizing x y with
  | nil =>
      constructor
      · rintro (⟨i, hxi, hyd | hyi⟩ | ⟨hxd, hocc, j, hyj⟩)
        · exact .inl ⟨i, hxi, hyd⟩
        · exact absurd hyi (hshare [] i hxi)
        · exact .inr ⟨hxd, hocc.ne_one, j, hyj⟩
      · rintro (⟨i, hxi, hyd⟩ | ⟨hxd, hne, j, hyj⟩)
        · exact .inl ⟨i, hxi, .inl hyd⟩
        · exact .inr ⟨hxd, occupied_of_ne_one hx hxd hne, j, hyj⟩
  | cons n p ih =>
      have hsub := ih (hx.sub n) (hy.sub n) (hshare.sub n)
      constructor
      · rintro ⟨_, _, hblocks⟩
        exact hsub.mp hblocks
      · intro hclash
        -- both have something at the path, so both are directories above it
        have hthere : x (n :: p) ≠ none ∧ y (n :: p) ≠ none := by
          rcases hclash with ⟨i, hxi, hyd⟩ | ⟨hxd, _, j, hyj⟩
          · simp [hxi, hyd]
          · simp [hxd, hyj]
        refine ⟨?_, ?_, hsub.mpr hclash⟩
        · by_contra hdir
          exact hthere.1 (hx.eq_none hdir (by simp))
        · by_contra hdir
          exact hthere.2 (hy.eq_none hdir (by simp))

/-- Nothing is left of the source exactly if the two trees clash nowhere. -/
theorem remains_eq_one_iff {x y : View} (hx : x.Closed) (hy : y.Closed) (hxd : x [] = some .dir)
    (hyd : y [] = some .dir) (hshare : Unshared x y) :
    remains x y = View.one .dir ↔ ∀ p, ¬ Clashes x y p := by
  constructor
  · intro hone p hclash
    have hblocks := (blocks_iff_clashes hx hy hshare p).mpr hclash
    cases p with
    | nil =>
        rcases hclash with ⟨i, hxi, _⟩ | ⟨_, _, j, hyj⟩
        · rw [hxd] at hxi
          cases hxi
        · rw [hyd] at hyj
          cases hyj
    | cons n p =>
        have hgone : residue x y (n :: p) = none := congrFun hone (n :: p)
        rw [residue_of_blocks hblocks (.inl (List.prefix_refl _))] at hgone
        exact hblocks.src_ne_none hgone
  · intro hfree
    apply remains_of_not_blocks hxd
    intro q hq
    exact hfree q ((blocks_iff_clashes hx hy hshare q).mp hq)

/-! ### Trees whose merge changes nothing -/

/-- Everything that is left of the source is at, above or below a clash, so that nothing is left
that could have been merged. -/
def AtRest (x y : View) : Prop :=
  ∀ p, x p ≠ none → ∃ q, (q <+: p ∨ p <+: q) ∧ Clashes x y q

/-- At rest below two directories is at rest below every name. -/
theorem AtRest.sub {x y : View} (h : AtRest x y) (hxd : x [] = some .dir) (hyd : y [] = some .dir)
    (n : Name) : AtRest (x.sub n) (y.sub n) := by
  have hroot : ¬ Clashes x y [] := by
    rintro (⟨i, hi, _⟩ | ⟨_, _, j, hj⟩)
    · rw [hxd] at hi
      cases hi
    · rw [hyd] at hj
      cases hj
  intro p hp
  obtain ⟨q, hpq, hclash⟩ := h (n :: p) hp
  cases q with
  | nil => exact absurd hclash hroot
  | cons m q =>
      have hm : m = n ∧ (q <+: p ∨ p <+: q) := by
        rcases hpq with hpre | hpre <;> simp only [List.cons_prefix_cons] at hpre
        · exact ⟨hpre.1, .inl hpre.2⟩
        · exact ⟨hpre.1.symm, .inr hpre.2⟩
      obtain ⟨rfl, hpq'⟩ := hm
      exact ⟨q, hpq', hclash⟩

section AtRest

variable {x y : View} (hx : x.Closed) (hy : y.Closed) (h : AtRest x y)
include hx hy h

/-- Where the source has a file, the destination has a directory or nothing. -/
theorem AtRest.unshared : Unshared x y := by
  intro p i hpi hyi
  obtain ⟨q, hpq, hclash⟩ := h p (by simp [hpi])
  have hq : q = p := by
    rcases hpq with ⟨t, rfl⟩ | ⟨t, rfl⟩
    · by_contra hne
      have ht : t ≠ [] := fun ht => hne (by simp [ht])
      rcases hclash with ⟨k, hxq, _⟩ | ⟨_, _, j, hyq⟩
      · rw [hx q t (by simp [hxq]) ht] at hpi
        cases hpi
      · rw [hy q t (by simp [hyq]) ht] at hyi
        cases hyi
    · by_contra hne
      have ht : t ≠ [] := fun ht => hne (by simp [ht])
      have hnone := hx p t (by simp [hpi]) ht
      rcases hclash with ⟨k, hxq, _⟩ | ⟨hxq, _⟩ <;> simp [hnone] at hxq
  subst hq
  rcases hclash with ⟨_, _, hdir⟩ | ⟨hdir, _⟩
  · rw [hyi] at hdir
    cases hdir
  · rw [hpi] at hdir
    cases hdir

theorem AtRest.remains_eq : remains x y = x := by
  funext p
  cases p with
  | nil => rfl
  | cons n p =>
      change residue x y (n :: p) = x (n :: p)
      by_cases hp : x (n :: p) = none
      · unfold residue
        rw [hp, ite_self]
      · obtain ⟨q, hpq, hclash⟩ := h _ hp
        exact residue_of_blocks ((blocks_iff_clashes hx hy (h.unshared hx hy) q).mpr hclash) hpq

theorem AtRest.overlay_eq : overlay x y = y := by
  funext p
  induction p generalizing x y with
  | nil =>
      cases hx0 : x [] with
      | none => rw [overlay_of_absent hx0]
      | some o =>
          obtain ⟨q, _, hclash⟩ := h [] (by simp [hx0])
          have hblocks := (blocks_iff_clashes hx hy (h.unshared hx hy) q).mpr hclash
          cases q with
          | nil => rw [overlay_of_stuck hblocks]
          | cons n q => simp [overlay, hblocks.1, hblocks.2.1]
  | cons n p ih =>
      by_cases hdirs : x [] = some .dir ∧ y [] = some .dir
      · rw [show overlay x y (n :: p) = overlay (x.sub n) (y.sub n) p by
          simp [overlay, hdirs.1, hdirs.2]]
        exact ih (hx.sub n) (hy.sub n) (h.sub hdirs.1 hdirs.2 n)
      · cases hx0 : x [] with
        | none => rw [overlay_of_absent hx0]
        | some o =>
            obtain ⟨q, _, hclash⟩ := h [] (by simp [hx0])
            have hblocks := (blocks_iff_clashes hx hy (h.unshared hx hy) q).mpr hclash
            cases q with
            | nil => rw [overlay_of_stuck hblocks]
            | cons m q => exact absurd ⟨hblocks.1, hblocks.2.1⟩ hdirs

end AtRest

/-! ### The run -/

/-- The recursive overlay of `X` and `Y`, name by name, and when nothing is left of `X`. The source
tree is emptied exactly if the two nowhere clash. -/
structure Overlays (X Y X' Y' : View) : Prop where
  merged : ∀ n, Merges (X.sub n) (Y.sub n) (X'.sub n) (Y'.sub n)
  emptied : X' = View.one .dir ↔ ∀ p, ¬ Clashes X Y p

/-- Two trees that are ready to be merged: disjoint, on one device that nothing is mounted on, both
open, and the listing of the source not yet begun. -/
structure Apart (dev : Nat) (S D : Ino) (sk dk : Nat) (w : World) : Prop where
  trees : Forest w.fs dev (pair S D)
  srcDir : w.fs.isDir S = true
  dstDir : w.fs.isDir D = true
  src : Stream w sk S []
  dst : ∃ born seen, w.fds dk = some (.dir D born seen)
  bound : ∀ k, w.nextFd ≤ k → w.fds k = none
  mount : ∀ c t, w.mount = some (c, t) → c.dev ≠ dev

theorem Apart.ready {dev : Nat} {S D : Ino} {sk dk : Nat} {w : World} (h : Apart dev S D sk dk w)
    (m : Mode) : Ready dev (pair S D) (fun a => (a, [])) m [] S D sk dk w where
  trees := ⟨h.trees, ⟨fun _ => rfl, fun hab _ => hab⟩, h.srcDir, h.dstDir⟩
  src := by
    obtain ⟨b, _, hfd, _⟩ := h.src
    exact ⟨b, [], hfd⟩
  dst := by
    obtain ⟨_, _, hfd⟩ := h.dst
    exact .opened hfd
  bound := h.bound
  mount := h.mount

/-- Where the flags of the source open directories, `merge_dir` without failures ends with the
recursive overlay of the two trees. -/
theorem mergeDir_overlays {env : Env} (hno : env.choices.NoFaults) (habi : env.abi = .generic)
    {dev : Nat} {S D : Ino} {sk dk : Nat} {w : World} (h : Apart dev S D sk dk w) (out : Int)
    (indent : String) {fuel : Nat} (hfuel : mergeBound w.fs dev ≤ fuel)
    (apart : LinksApart w.fs (w.fs.view S) (w.fs.view D))
    (unshared : Unshared (w.fs.view S) (w.fs.view D)) :
    ∃ w', (mergeDir out fuel sk dk indent).run (kernel env) w = (some (), w') ∧
      w'.fs.view S [] = some .dir ∧ w'.fs.view D [] = some .dir ∧
      Overlays (w.fs.view S) (w.fs.view D) (w'.fs.view S) (w'.fs.view D) := by
  have safe : Safe env (pair S D) (fun a => (a, [])) .exact (fun _ _ => True) S D (fun _ => True) w :=
    .inr ⟨rfl, fun n _ p => apart (n :: p)⟩
  obtain ⟨_, w', hrun, merged⟩ := mergeDir_ensures (Mode.exact_holds hno habi) out indent
    (h.ready .exact) h.src safe (Forest.small h.trees false) hfuel fun _ _ => trivial
  have hX := w.fs.view_closed S
  have hY := w.fs.view_closed D
  refine ⟨w', hrun, w'.fs.obj_eq_dir_iff.mpr merged.swept.kept.srcDir,
    w'.fs.obj_eq_dir_iff.mpr merged.swept.kept.dstDir, fun n => ?_, ?_⟩
  · exact (merged.swept.done n trivial).merges (hX.sub n) (hY.sub n) (unshared.sub n)
  · rw [(merged.swept.exact_views h.srcDir h.dstDir).1]
    exact remains_eq_one_iff hX hY (w.fs.obj_eq_dir_iff.mpr h.srcDir)
      (w.fs.obj_eq_dir_iff.mpr h.dstDir) unshared

end Hub11.Recovery
