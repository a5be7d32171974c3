import Hub11.Posix.Views

/-!
What merging one tree into another means.

`Entry m x y x' y'` is the effect of handling one name of the source directory,
where `x` and `y` are the trees below that name in source and destination before,
and `x'`, `y'` afterwards. In mode `faulty` any call may have failed; in mode
`exact` none has, and two directories of one name are merged; in mode `flat` none
has, but a subdirectory cannot be opened.

An exact merge is a function of the two trees: the destination becomes
`overlay x y` and the source keeps `residue x y`, the part of it at, above or below
a place where a rename is refused for good (`Blocks`). So is a flat one, with
`flatOverlay x y` and `flatResidue x y`: what a single rename cannot do is not done.
-/

namespace Hub11.Recovery

open Hub11.Posix

/-- Something is in the directory. -/
def Occupied (x : View) : Prop := ∃ n, x [n] ≠ none

/-- `rename` of `x` over `y` goes through: there is nothing, or another file, or an
empty directory for a directory. -/
def Fits (x y : View) : Prop :=
  y [] = none ∨ (∃ i j, x [] = some (.leaf i) ∧ y [] = some (.leaf j) ∧ i ≠ j) ∨
    (x [] = some .dir ∧ y = View.one .dir)

/-- `x` stays for good: a file over a directory, a second name of the same file, or a
directory with contents over a file. -/
def Stuck (x y : View) : Prop :=
  (∃ i, x [] = some (.leaf i) ∧ (y [] = some .dir ∨ y [] = some (.leaf i))) ∨
    (x [] = some .dir ∧ Occupied x ∧ ∃ j, y [] = some (.leaf j))

/-- No file or link is at the same path in both trees. A rename of one name of a file over another
name of it does nothing at all. -/
def Unshared (x y : View) : Prop := ∀ p i, x p = some (.leaf i) → y p ≠ some (.leaf i)

/-- How a merge goes: with failures, as it is meant to, or without opening subdirectories. -/
inductive Mode where
  | faulty
  | exact
  | flat
deriving DecidableEq

/-- The effect of one name of the source directory, case by case: kept, moved, removed because
empty, given an empty directory, or merged with a directory of the same name. The mode says which
cases can occur. -/
inductive Entry (m : Mode) : View → View → View → View → Prop where
  | keep {x y : View} (hexact : m = .exact → x [] = none ∨ Stuck x y)
      (hflat : m = .flat → x [] = none ∨ (¬ Fits x y ∧ x ≠ View.one .dir)) : Entry m x y x y
  | move {x y : View} (hx : x [] ≠ none) (hfits : Fits x y) : Entry m x y View.empty x
  | rmdir {y : View} (hexact : m = .exact → ∃ j, y [] = some (.leaf j))
      (hflat : m = .flat → ¬ Fits (View.one .dir) y) : Entry m (View.one .dir) y View.empty y
  | mkdir {x y x' y' : View} (hm : m = .faulty) (hy : y [] = none)
      (rest : Entry m x (View.one .dir) x' y') : Entry m x y x' y'
  | descend {x y x' y' : View} (hm : m ≠ .flat) (hx : x [] = some .dir) (hy : y [] = some .dir)
      (hx' : x' [] = some .dir) (hy' : y' [] = some .dir)
      (below : ∀ n, Entry m (x.sub n) (y.sub n) (x'.sub n) (y'.sub n))
      (hexact : m = .exact → Occupied x') : Entry m x y x' y'
  | clear {x y y' : View} (hm : m ≠ .flat) (hx : x [] = some .dir) (hy : y [] = some .dir)
      (hy' : y' [] = some .dir)
      (below : ∀ n, Entry m (x.sub n) (y.sub n) View.empty (y'.sub n)) :
      Entry m x y View.empty y'

/-! ### No file is lost -/

/-- No leaf of either tree is lost, except that a leaf of the source may take the
place of one of the destination. -/
structure NoLoss (x y x' y' : View) : Prop where
  src : ∀ p i, x p = some (.leaf i) → x' p = some (.leaf i) ∨ y' p = some (.leaf i)
  dst : ∀ p j, y p = some (.leaf j) →
    y' p = some (.leaf j) ∨ ∃ i, x p = some (.leaf i) ∧ y' p = some (.leaf i)

/-- Losing nothing below any name is losing nothing. -/
theorem NoLoss.of_sub {x y x' y' : View} (hx : x [] = some .dir) (hy : y [] = some .dir)
    (h : ∀ n, NoLoss (x.sub n) (y.sub n) (x'.sub n) (y'.sub n)) : NoLoss x y x' y' where
  src := by
    intro p i hp
    cases p with
    | nil => simp [hx] at hp
    | cons n p => exact (h n).src p i hp
  dst := by
    intro p j hp
    cases p with
    | nil => simp [hy] at hp
    | cons n p => exact (h n).dst p j hp

theorem noLoss_move {x y : View} (hy : y.Closed) (hfits : Fits x y) : NoLoss x y View.empty x where
  src _ _ hp := .inr hp
  dst := by
    intro p j hp
    rcases hfits with hnone | ⟨i, j', hxi, hyj, _⟩ | ⟨_, rfl⟩
    · rw [hy.eq_empty hnone] at hp
      cases hp
    · cases p with
      | nil => exact .inr ⟨i, hxi, hxi⟩
      | cons n p =>
          rw [hy.eq_none (by simp [hyj]) (by simp)] at hp
          cases hp
    · cases p <;> simp at hp

theorem Entry.noLoss {m : Mode} {x y x' y' : View} (h : Entry m x y x' y') (hx : x.Closed)
    (hy : y.Closed) : NoLoss x y x' y' := by
  induction h with
  | keep _ _ => exact ⟨fun _ _ hp => .inl hp, fun _ _ hp => .inl hp⟩
  | move _ hfits => exact noLoss_move hy hfits
  | rmdir _ _ => exact ⟨fun p _ hp => by cases p <;> simp at hp, fun _ _ hp => .inl hp⟩
  | @mkdir x y x' y' _ hnone _ ih =>
      refine ⟨(ih hx (View.closed_one _)).src, fun p j hp => ?_⟩
      rw [hy.eq_empty hnone] at hp
      cases hp
  | descend _ hxd hyd _ _ _ _ ih =>
      exact NoLoss.of_sub hxd hyd fun n => ih n (hx.sub n) (hy.sub n)
  | @clear x y y' _ hxd hyd hy' _ ih =>
      exact NoLoss.of_sub hxd hyd fun n => ih n (hx.sub n) (hy.sub n)

/-! ### The exact result -/

/-- The destination after an exact merge. The source's files win over the destination's, and a
directory gives way to nothing but nothing. -/
def overlay (x y : View) : View
  | [] =>
      match x [], y [] with
      | some (.leaf i), some (.leaf _) => some (.leaf i)
      | some o, none => some o
      | _, o => o
  | n :: p =>
      match x [], y [] with
      | some .dir, some .dir => overlay (x.sub n) (y.sub n) p
      | some _, none => x (n :: p)
      | _, _ => y (n :: p)

/-- At `p`, reached through directories of both trees, the source is stuck: no rename will ever go
through there. -/
def Blocks (x y : View) : List Name → Prop
  | [] => Stuck x y
  | n :: p => x [] = some .dir ∧ y [] = some .dir ∧ Blocks (x.sub n) (y.sub n) p

open Classical in
/-- The source after an exact merge: what is at, above or below a place where it is stuck. -/
noncomputable def residue (x y : View) : View := fun p =>
  if ∃ q, (q <+: p ∨ p <+: q) ∧ Blocks x y q then x p else none

theorem residue_of_blocks {x y : View} {p q : List Name} (hq : Blocks x y q)
    (h : q <+: p ∨ p <+: q) : residue x y p = x p :=
  if_pos ⟨q, h, hq⟩

theorem residue_eq_empty {x y : View} (h : ∀ q, ¬ Blocks x y q) : residue x y = View.empty := by
  funext p
  exact if_neg fun ⟨q, _, hq⟩ => h q hq

theorem not_blocks_of_absent {x y : View} (h : x [] = none) (q : List Name) : ¬ Blocks x y q := by
  intro hq
  cases q with
  | nil => rcases hq with ⟨i, hi, _⟩ | ⟨hd, _⟩ <;> simp_all
  | cons n q => exact absurd hq.1 (by simp [h])

theorem not_blocks_of_free {x y : View} (h : y [] = none) (q : List Name) : ¬ Blocks x y q := by
  intro hq
  cases q with
  | nil => rcases hq with ⟨i, _, hy | hy⟩ | ⟨_, _, j, hy⟩ <;> simp [h] at hy
  | cons n q => exact absurd hq.2.1 (by simp [h])

theorem Blocks.src_ne_none {x y : View} {q : List Name} (h : Blocks x y q) : x q ≠ none := by
  induction q generalizing x y with
  | nil => rcases h with ⟨i, hi, _⟩ | ⟨hd, _⟩ <;> simp_all
  | cons n q ih => exact ih h.2.2

/-- Nothing at its root, nothing of it. -/
theorem residue_of_root_none {x y : View} (h : residue x y [] = none) :
    residue x y = View.empty := by
  apply residue_eq_empty
  intro q hq
  rw [residue_of_blocks hq (.inr List.nil_prefix)] at h
  exact not_blocks_of_absent h q hq

/-- Below two directories the blocks are those below the names. -/
theorem exists_blocks_cons {x y : View} (hy : y [] = some .dir) {n : Name}
    {p : List Name} (hx : x [] = some .dir) :
    (∃ q, (q <+: n :: p ∨ n :: p <+: q) ∧ Blocks x y q) ↔
      ∃ q, (q <+: p ∨ p <+: q) ∧ Blocks (x.sub n) (y.sub n) q := by
  constructor
  · rintro ⟨q, hpq, hq⟩
    cases q with
    | nil => rcases hq with ⟨i, hi, _⟩ | ⟨_, _, j, hj⟩ <;> simp_all
    | cons m q =>
        have hm : m = n ∧ (q <+: p ∨ p <+: q) := by
          rcases hpq with h | h <;> simp only [List.cons_prefix_cons] at h
          · exact ⟨h.1, .inl h.2⟩
          · exact ⟨h.1.symm, .inr h.2⟩
        obtain ⟨rfl, hpq'⟩ := hm
        exact ⟨q, hpq', hq.2.2⟩
  · rintro ⟨q, hpq, hq⟩
    refine ⟨n :: q, ?_, hx, hy, hq⟩
    simpa only [List.cons_prefix_cons, true_and] using hpq

theorem residue_sub {x y : View} (hx : x [] = some .dir) (hy : y [] = some .dir) (n : Name) :
    (residue x y).sub n = residue (x.sub n) (y.sub n) := by
  classical
  funext p
  unfold residue View.sub
  exact if_congr (exists_blocks_cons hy hx) rfl rfl

theorem overlay_sub {x y : View} (hx : x [] = some .dir) (hy : y [] = some .dir) (n : Name) :
    (overlay x y).sub n = overlay (x.sub n) (y.sub n) := by
  funext p
  simp [View.sub, overlay, hx, hy]

theorem overlay_empty {x : View} (hx : x.Closed) : overlay x View.empty = x := by
  funext p
  cases p with
  | nil => cases h : x [] <;> simp [overlay, h]
  | cons n p =>
      cases h : x [] with
      | none => simp [overlay, h, hx.eq_none (p := n :: p) (by simp [h]) (by simp)]
      | some o => cases o <;> simp [overlay, h]

theorem overlay_of_absent {x y : View} (h : x [] = none) : overlay x y = y := by
  funext p
  cases p with
  | nil => cases hy : y [] <;> simp [overlay, h, hy]
  | cons n p => cases hy : y [] <;> simp [overlay, h]

theorem overlay_of_stuck {x y : View} (h : Stuck x y) : overlay x y = y := by
  funext p
  rcases h with ⟨i, hx, hy | hy⟩ | ⟨hx, _, j, hy⟩ <;> cases p <;> simp [overlay, hx, hy]

theorem overlay_of_fits {x y : View} (hx : x.Closed) (hy : y.Closed) (h : Fits x y) :
    overlay x y = x := by
  rcases h with hnone | ⟨i, j, hxi, hyj, _⟩ | ⟨hxd, rfl⟩
  · rw [hy.eq_empty hnone]
    exact overlay_empty hx
  · funext p
    cases p with
    | nil => simp [overlay, hxi, hyj]
    | cons n p =>
        simp [overlay, hxi, hyj, hx.eq_none (p := n :: p) (by simp [hxi]) (by simp),
          hy.eq_none (p := n :: p) (by simp [hyj]) (by simp)]
  · refine View.ext_sub (by simp [overlay, hxd]) fun n => ?_
    rw [overlay_sub hxd rfl, View.sub_one]
    exact overlay_empty (hx.sub n)

theorem not_blocks_of_fits {x y : View} (h : Fits x y) (q : List Name) : ¬ Blocks x y q := by
  rcases h with hnone | ⟨i, j, hxi, hyj, hne⟩ | ⟨hxd, rfl⟩
  · exact not_blocks_of_free hnone q
  · intro hq
    cases q with
    | nil => rcases hq with ⟨i', hi', hy | hy⟩ | ⟨hd, _⟩ <;> simp_all
    | cons n q => exact absurd hq.1 (by simp [hxi])
  · intro hq
    cases q with
    | nil => rcases hq with ⟨i, hi, _⟩ | ⟨_, _, j, hj⟩ <;> simp_all
    | cons n q => exact not_blocks_of_free (by simp) q hq.2.2

/-- An exact merge is a function of the two trees, by induction on the cases of `Entry`. -/
theorem Entry.exact_eq {x y x' y' : View} (h : Entry .exact x y x' y') (hx : x.Closed)
    (hy : y.Closed) : x' = residue x y ∧ y' = overlay x y := by
  induction h with
  | @keep x y hexact _ =>
      rcases hexact rfl with hnone | hstuck
      · rw [residue_eq_empty (not_blocks_of_absent hnone), overlay_of_absent hnone]
        exact ⟨hx.eq_empty hnone, rfl⟩
      · refine ⟨?_, (overlay_of_stuck hstuck).symm⟩
        funext p
        exact (residue_of_blocks (q := []) hstuck (.inl List.nil_prefix)).symm
  | move _ hfits =>
      exact ⟨(residue_eq_empty (not_blocks_of_fits hfits)).symm,
        (overlay_of_fits hx hy hfits).symm⟩
  | @rmdir y hexact _ =>
      obtain ⟨j, hj⟩ := hexact rfl
      constructor
      · refine (residue_eq_empty fun q hq => ?_).symm
        cases q with
        | nil => rcases hq with ⟨i, hi, _⟩ | ⟨_, ⟨n, hn⟩, _⟩ <;> simp_all
        | cons n q => exact absurd hq.2.1 (by simp [hj])
      · funext p
        cases p <;> simp [overlay, hj]
  | mkdir hm _ _ _ => cases hm
  | @descend x y x' y' _ hxd hyd hx' hy' _ hexact ih =>
      have ih' := fun n => ih n (hx.sub n) (hy.sub n)
      constructor
      · refine View.ext_sub ?_ fun n => by rw [residue_sub hxd hyd, (ih' n).1]
        -- something is left below a name, so a block is left below it
        obtain ⟨n, hn⟩ := hexact rfl
        have hleft : residue (x.sub n) (y.sub n) [] ≠ none := by
          rw [← (ih' n).1]
          exact hn
        unfold residue at hleft
        split at hleft
        · rename_i hq
          obtain ⟨q, _, hq⟩ := hq
          rw [hx', residue_of_blocks (q := n :: q) ⟨hxd, hyd, hq⟩ (.inr List.nil_prefix), hxd]
        · exact absurd rfl hleft
      · refine View.ext_sub ?_ fun n => by rw [overlay_sub hxd hyd, (ih' n).2]
        simp [overlay, hxd, hyd, hy']
  | @clear x y y' _ hxd hyd hy' _ ih =>
      have ih' := fun n => ih n (hx.sub n) (hy.sub n)
      constructor
      · refine (residue_eq_empty fun q hq => ?_).symm
        cases q with
        | nil => rcases hq with ⟨i, hi, _⟩ | ⟨_, _, j, hj⟩ <;> simp_all
        | cons n q =>
            have := congrFun (ih' n).1 q
            rw [residue_of_blocks hq.2.2 (.inl (List.prefix_refl _))] at this
            exact hq.2.2.src_ne_none this.symm
      · refine View.ext_sub ?_ fun n => by rw [overlay_sub hxd hyd, (ih' n).2]
        simp [overlay, hxd, hyd, hy']

/-! ### The flat result -/

open Classical in
/-- The source after a merge that opens no subdirectory: what a rename would take is gone, and
so is an empty directory. -/
noncomputable def flatResidue (x y : View) : View :=
  if Fits x y ∨ x = View.one .dir then View.empty else x

open Classical in
/-- The destination after a flat merge of one name: the source's tree if a single rename can put it
there, and else what was there. -/
noncomputable def flatOverlay (x y : View) : View := if x [] ≠ none ∧ Fits x y then x else y

/-- So is a flat one. -/
theorem Entry.flat_eq {x y x' y' : View} (h : Entry .flat x y x' y') (hx : x.Closed) :
    x' = flatResidue x y ∧ y' = flatOverlay x y := by
  unfold flatResidue flatOverlay
  cases h with
  | keep _ hflat =>
      rcases hflat rfl with hnone | ⟨hfits, hone⟩
      · have hempty := hx.eq_empty hnone
        subst hempty
        simp
      · simp [hfits, hone]
  | move hthere hfits => simp [hthere, hfits]
  | rmdir _ hflat => simp [hflat rfl]
  | mkdir hm _ _ => cases hm
  | descend hm _ _ _ _ _ _ => exact absurd rfl hm
  | clear hm _ _ _ _ => exact absurd rfl hm

end Hub11.Recovery
