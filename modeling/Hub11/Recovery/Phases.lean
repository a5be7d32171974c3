import Hub11.Effect.Fuel
import Hub11.Recovery.Rootfs

/-!
The phases of `_start` on a mounted root file system, without failures.

Each phase is a function on the tree: `ensured` for the `mkdirat` calls, `absorbed`
for a merge with the `rmdir` that follows it, and so on. The merges need a reason why
no link is opened as a directory (`Safe`).
-/

namespace Hub11.Recovery

open Hub11.Effect Hub11.Posix

/-! ### More fuel changes nothing -/

theorem mergeEntry_below {f g : Int → Int → Sys Unit} (h : ∀ a b, Prog.Below (f a b) (g a b))
    (out srcFd dstFd : Int) (indent : String) (d : Comp) :
    Prog.Below (mergeEntry out f srcFd dstFd indent d) (mergeEntry out g srcFd dstFd indent d) := by
  unfold mergeEntry
  split
  · apply (Prog.Below.refl _).bind
    intro _
    apply (Prog.Below.refl _).bind
    intro _
    apply (Prog.Below.refl _).bind
    intro _
    apply (Prog.Below.refl _).bind
    intro r
    split
    · exact Prog.Below.refl _
    · apply (Prog.Below.refl _).bind
      intro _
      unfold mergeSubdir onlyIf
      apply (Prog.Below.refl _).bind
      intro subSrc
      apply (Prog.Below.refl _).bind
      intro _
      apply (Prog.Below.refl _).bind
      intro subDst
      apply Prog.Below.bind _ fun _ => Prog.Below.refl _
      split
      · exact h subSrc subDst
      · exact Prog.Below.refl _
  · exact Prog.Below.refl _

theorem mergeDir_grows (out srcFd dstFd : Int) (indent : String) :
    Prog.Grows fun fuel => mergeDir out fuel srcFd dstFd indent := by
  intro fuel
  induction fuel generalizing srcFd dstFd indent with
  | zero => exact .spent _
  | succ fuel ih =>
      unfold mergeDir
      apply (Prog.Below.refl _).bind
      intro r
      split
      · apply Prog.Below.bind
        · exact Prog.Below.forM (mergeEntry_below (fun a b => ih a b "    ") out _ _ _) _
        · intro _
          exact ih srcFd dstFd indent
      · exact Prog.Below.refl _

theorem mergeFrom_grows (out srcFd dstLib : Int) :
    Prog.Grows fun fuel => mergeFrom out fuel srcFd dstLib :=
  (mergeDir_grows out srcFd dstLib "").bind fun _ => Prog.Grows.const _

theorem mergeLibOld_grows (out dstLib : Int) :
    Prog.Grows fun fuel => mergeLibOld out fuel dstLib := by
  intro fuel
  unfold mergeLibOld
  apply (Prog.Below.refl _).bind
  intro oldLib
  split
  · apply (Prog.Below.refl _).bind
    intro _
    exact (mergeFrom_grows out oldLib dstLib fuel).bind fun _ => Prog.Below.refl _
  · exact Prog.Below.refl _

theorem mergeLib_grows (out dstLib : Int) : Prog.Grows fun fuel => mergeLib out fuel dstLib := by
  intro fuel
  unfold mergeLib
  apply (Prog.Below.refl _).bind
  intro st
  split
  · apply (Prog.Below.refl _).bind
    intro _
    apply (Prog.Below.refl _).bind
    intro curLib
    unfold onlyIf
    split
    · exact (mergeFrom_grows out curLib dstLib fuel).bind fun _ => Prog.Below.refl _
    · exact Prog.Below.refl _
  · exact Prog.Below.refl _

theorem mergePhases_grows (out : Int) : Prog.Grows fun fuel => mergePhases out fuel :=
  (Prog.Grows.const _).bind fun dstLib =>
    (mergeLibOld_grows out dstLib).bind fun _ =>
      (mergeLib_grows out dstLib).bind fun _ => Prog.Grows.const _

theorem copyLoop_grows (inFd outFd : Int) : Prog.Grows fun fuel => copyLoop fuel inFd outFd := by
  intro fuel
  induction fuel with
  | zero => exact .spent _
  | succ fuel ih =>
      unfold copyLoop
      apply (Prog.Below.refl _).bind
      intro r
      split
      · apply (Prog.Below.refl _).bind
        intro _
        exact ih
      · exact Prog.Below.refl _

/-! ### Rules for the calls of a phase -/

section Rules

variable {env : Env} {I : World → Syscall → Prop} {w : World} {α : Type} {Q : α → World → Prop}

theorem eventually_do {op : Syscall} {F : Nat → Int → Sys α}
    (h : Prog.Eventually (kernel env) I (fun k => F k (kernel env w op).2.ret)
      (kernel env w op).1 Q) :
    Prog.Eventually (kernel env) I (fun k => call op >>= F k) w Q := by
  obtain ⟨k, hk⟩ := h
  exact ⟨k, fun j hj => ensures_do fun _ => hk j hj⟩

/-- The condition on the call itself may be used. -/
theorem eventually_do_of {op : Syscall} {F : Nat → Int → Sys α}
    (h : I w op → Prog.Eventually (kernel env) I (fun k => F k (kernel env w op).2.ret)
      (kernel env w op).1 Q) :
    Prog.Eventually (kernel env) I (fun k => call op >>= F k) w Q := by
  by_cases hI : I w op
  · exact eventually_do (h hI)
  · exact ⟨0, fun j _ => ensures_do fun hI' => absurd hI' hI⟩

theorem eventually_print {out : Int} {text : Text} {F : Nat → Unit → Sys α}
    (h : ∀ w', Quiet w w' → Prog.Eventually (kernel env) I (fun k => F k ()) w' Q) :
    Prog.Eventually (kernel env) I (fun k => print out text >>= F k) w Q := by
  obtain ⟨k, hk⟩ := h _ (kernel_puts env w out text)
  exact ⟨k, fun j hj => Prog.ensures_call fun _ => hk j hj⟩

theorem eventually_pos {c : Prop} [Decidable c] {P P' : Nat → Sys α} (hc : c)
    (h : Prog.Eventually (kernel env) I P w Q) :
    Prog.Eventually (kernel env) I (fun k => if c then P k else P' k) w Q := by
  simpa only [if_pos hc] using h

theorem eventually_neg {c : Prop} [Decidable c] {P P' : Nat → Sys α} (hc : ¬ c)
    (h : Prog.Eventually (kernel env) I P' w Q) :
    Prog.Eventually (kernel env) I (fun k => if c then P k else P' k) w Q := by
  simpa only [if_neg hc] using h

end Rules

/-! ### Merging two directories of the tree -/

/-- The source and the destination of a merge as places below the root. -/
def mergeLoc (src dst : List Name) : Bool → Unit × List Name
  | false => ((), src)
  | true => ((), dst)

section Merge

variable {env : Env} {w : World} {V : View} {I : World → Syscall → Prop} {src dst : List Name} {S D : Ino}
  {sk kd : Nat}

theorem Place.view {r : Ino} {p : List Name} {k : Ino} {fs : FS}
    (place : Place fs (fun _ : Unit => r) () p k) : (fs.view r).below p = fs.view k := by
  funext q
  unfold View.below FS.view
  rw [FS.descend_append, show fs.descend r p = some k from place.at_path]
  rfl

/-- The two directories of a merge in the tree of the disk. -/
theorem Rootfs.trees (R : Rootfs env V w) (hsd : ¬ src <+: dst) (hds : ¬ dst <+: src)
    (hS : Place w.fs (diskTop env) () src S) (hD : Place w.fs (diskTop env) () dst D) :
    At w.fs env.diskRoot.dev (diskTop env) (mergeLoc src dst) [] S D where
  forest := R.forest
  embeds :=
    { located := by
        intro a
        cases a with
        | false => simpa [mergeLoc, pair] using hS.at_path
        | true => simpa [mergeLoc, pair] using hD.at_path
      apart := by
        intro a b _ hpre
        cases a <;> cases b
        · rfl
        · simp [mergeLoc, hsd] at hpre
        · simp [mergeLoc, hds] at hpre
        · rfl }
  srcDir := hS.isDir
  dstDir := hD.isDir

/-- A merge of two directories of the tree keeps it a tree, whatever fails. -/
theorem Rootfs.mergeDir_merged {m : Mode} (hm : m.Holds env)
    (R : Rootfs env V w) (hsd : ¬ src <+: dst) (hds : ¬ dst <+: src)
    (hS : Place w.fs (diskTop env) () src S) (hD : Place w.fs (diskTop env) () dst D)
    (stream : Stream w sk S []) {born seen : List Comp}
    (hkd : w.fds kd = some (.dir D born seen))
    (safe : Safe env (diskTop env) (mergeLoc src dst) m I S D (fun _ => True) w) (out : Int)
    (indent : String) :
    Prog.Eventually (kernel env) I (fun fuel => mergeDir out fuel sk kd indent) w fun _ w' =>
      Rootfs env (w'.fs.view env.diskRoot) w' ∧ Since env w w' ∧
      Place w'.fs (diskTop env) () dst D ∧ Merged env m env.diskRoot.dev S D sk w w' := by
  have trees := R.trees hsd hds hS hD
  have ready : Ready env.diskRoot.dev (diskTop env) (mergeLoc src dst) m [] S D sk kd w :=
    { trees := trees
      src := by
        obtain ⟨b, _, hfd, _⟩ := stream
        exact ⟨b, [], hfd⟩
      dst := .opened hkd
      bound := R.bound
      mount := by
        intro c t hct
        obtain ⟨mnt, _, _, hmount, hdev⟩ := R.mounted.point
        rw [hmount] at hct
        cases hct
        exact hdev }
  refine ⟨_, fun fuel hfuel => (mergeDir_ensures hm out indent ready stream safe
    (Forest.small trees.pair_forest false) hfuel).mono fun _ w' merged => ?_⟩
  obtain ⟨b, sn, hfds⟩ := merged.fds
  have W := merged.swept.kept.within
  have hroot : w'.fs.view env.diskRoot [] = some .dir := by
    rw [← R.root, ← R.view]
    apply trees.embeds.view_outside R.forest W (a := ())
    intro a _ hpre
    cases a with
    | false =>
        obtain rfl : src = [] := by simpa [mergeLoc] using hpre
        exact hsd List.nil_prefix
    | true =>
        obtain rfl : dst = [] := by simpa [mergeLoc] using hpre
        exact hds List.nil_prefix
  obtain ⟨R', since⟩ := R.step (trees.step merged.swept.kept).forest
    (trees.embeds.lift_within R.forest W) rfl hroot merged.swept.mount merged.swept.nextFd
    hfds.bound
  have hkeep := (trees.step merged.swept.kept).embeds.located true
  refine ⟨R', since, ⟨?_, merged.swept.kept.dstDir⟩, merged⟩
  simpa [mergeLoc, pair] using hkeep

theorem Rootfs.mergeDir (hno : env.choices.NoFaults) (habi : env.abi = .generic) (R : Rootfs env V w)
    (hsd : ¬ src <+: dst) (hds : ¬ dst <+: src) (hS : Place w.fs (diskTop env) () src S)
    (hD : Place w.fs (diskTop env) () dst D) (stream : Stream w sk S []) {born seen : List Comp}
    (hkd : w.fds kd = some (.dir D born seen))
    (hsafe : Cautious env (diskTop env) (mergeLoc src dst) I ∨
      Tame (V.below src) (V.below dst)) (out : Int) (indent : String) :
    Prog.Eventually (kernel env) I (fun fuel => mergeDir out fuel sk kd indent) w fun _ w' =>
      Rootfs env ((V.put src (remains (V.below src) (V.below dst))).put dst
        (overlay (V.below src) (V.below dst))) w' ∧ Since env w w' ∧
      Place w'.fs (diskTop env) () dst D ∧
      ∃ born seen, Balanced env (w.setDesc sk (some (.dir S born seen))) w' := by
  have hX : V.below src = w.fs.view S := by
    rw [← R.view]
    exact Place.view hS
  have hY : V.below dst = w.fs.view D := by
    rw [← R.view]
    exact Place.view hD
  have safe : Safe env (diskTop env) (mergeLoc src dst) .exact I S D (fun _ => True) w := by
    apply hsafe.imp_right
    intro htame
    refine ⟨rfl, fun n _ p i _ _ => ?_⟩
    rw [← hX, ← hY]
    exact htame (n :: p) i
  apply (R.mergeDir_merged (Mode.exact_holds hno habi) hsd hds hS hD stream hkd safe out indent).mono
  rintro _ w' ⟨R', since, hD', merged⟩
  obtain ⟨hvS, hvD⟩ := merged.swept.exact_views hS.isDir hD.isDir
  have trees := R.trees hsd hds hS hD
  have W := merged.swept.kept.within
  have hview : w'.fs.view env.diskRoot = (V.put src (remains (V.below src) (V.below dst))).put dst
      (overlay (V.below src) (V.below dst)) := by
    funext p
    by_cases hdst : dst <+: p
    · obtain ⟨t, rfl⟩ := hdst
      rw [View.put_append, hX, hY, ← hvD]
      simpa [mergeLoc, pair, diskTop] using trees.embeds.view_inside R.forest W true t
    · rw [View.put_of_not_below _ _ hdst]
      by_cases hsrc : src <+: p
      · obtain ⟨t, rfl⟩ := hsrc
        rw [View.put_append, hX, hY, ← hvS]
        simpa [mergeLoc, pair, diskTop] using trees.embeds.view_inside R.forest W false t
      · rw [View.put_of_not_below _ _ hsrc, ← R.view]
        apply trees.embeds.view_outside R.forest W (a := ())
        intro a _
        cases a with
        | false => simpa [mergeLoc] using hsrc
        | true => simpa [mergeLoc] using hdst
  rw [hview] at R'
  exact ⟨R', since, hD', merged.fds⟩

/-- Closing what was opened, after work that kept the descriptors balanced. -/
theorem Balanced.close_opened {w₁ w₂ : World} {desc : Desc} {X : Option Desc}
    (hbound : ∀ k, w.nextFd ≤ k → w.fds k = none) (opened : Opened w w₁ desc)
    (h : Balanced env (w₁.setDesc w.nextFd X) w₂) (hnext : w₁.nextFd ≤ w₂.nextFd) :
    Balanced env w (kernel env w₂ (.close w.nextFd)).1 := by
  obtain ⟨_, hnext', _, hfds⟩ := kernel_close env w₂ w.nextFd
  have hlt : w.nextFd < w₂.nextFd := by
    rw [opened.nextFd] at hnext
    omega
  have hother : ∀ k, k ≠ w.nextFd →
      (kernel env w₂ (.close w.nextFd)).1.fds k = w₂.fds k := by
    intro k hk
    rcases hfds with hfds | ⟨hfds, _⟩
    · rw [hfds, w₂.setDesc_fds_of_ne hk]
    · rw [hfds]
  constructor
  · intro k hk
    have hlt₁ : k < (w₁.setDesc w.nextFd X).nextFd := by
      change k < w₁.nextFd
      rw [opened.nextFd]
      omega
    rw [hother k (by omega), h.below k hlt₁, w₁.setDesc_fds_of_ne (by omega), opened.fds_lt hk]
  · intro k hk
    rw [hnext'] at hk
    rw [hother k (by omega)]
    exact h.bound k hk
  · intro hno
    funext k
    rcases hfds with hfds | ⟨_, hleak⟩
    · by_cases hk : k = w.nextFd
      · rw [hfds, hk, w₂.setDesc_fds_self, hbound _ (Nat.le_refl _)]
      · rw [hfds, w₂.setDesc_fds_of_ne hk, h.closed hno, w₁.setDesc_fds_of_ne hk, opened.fds]
        exact if_neg hk
    · exact absurd hno hleak

/-- What a merge of two directories of the tree makes of the tree: the overlay in the place of the
destination, and what remains in the place of the source. -/
noncomputable def absorbed (V : View) (src dst : List Name) : View :=
  (V.put src (remains (V.below src) (V.below dst))).put dst (overlay (V.below src) (V.below dst))

theorem Rootfs.opened {w' : World} {desc : Desc} (R : Rootfs env V w) (h : Opened w w' desc) :
    Rootfs env V w' ∧ Since env w w' :=
  R.same h.fs h.mount (by rw [h.nextFd]; omega) (h.bound R.bound)

theorem Rootfs.closed (R : Rootfs env V w) (k : Nat) :
    Rootfs env V (kernel env w (.close k)).1 ∧ Since env w (kernel env w (.close k)).1 := by
  obtain ⟨hfs, hnext, hmount, hfds⟩ := kernel_close env w k
  apply R.same hfs hmount (Nat.le_of_eq hnext.symm)
  intro j hj
  have hnone := R.bound j (hnext ▸ hj)
  rcases hfds with hfds | ⟨hfds, _⟩
  · by_cases hjk : j = k
    · rw [hfds, hjk, w.setDesc_fds_self]
    · rw [hfds, w.setDesc_fds_of_ne hjk, hnone]
  · rw [hfds, hnone]

/-- A merge from a directory just opened, and the `close` after it. -/
theorem Rootfs.mergeFrom (hno : env.choices.NoFaults) (habi : env.abi = .generic)
    (R : Rootfs env V w) {w₁ : World}
    {es : List (Name × Ino)} (hS : Place w.fs (diskTop env) () src S)
    (he : w.fs.entries S = some es) (opened : Opened w w₁ (.dir S (listing es) []))
    (hsd : ¬ src <+: dst) (hds : ¬ dst <+: src) (hD : Place w.fs (diskTop env) () dst D)
    {born seen : List Comp} (hkd : w.fds kd = some (.dir D born seen))
    (hsafe : Cautious env (diskTop env) (mergeLoc src dst) I ∨
      Tame (V.below src) (V.below dst)) (out : Int) :
    Prog.Eventually (kernel env) I (fun fuel => mergeFrom out fuel w.nextFd kd) w₁ fun _ w' =>
      Leads env w (absorbed V src dst) w' ∧ Place w'.fs (diskTop env) () dst D := by
  obtain ⟨R₁, since₁⟩ := R.opened opened
  have stream : Stream w₁ w.nextFd S [] := by
    refine ⟨listing es, es, ?_, ?_, fun c hc => hc⟩
    · rw [opened.fds]
      exact if_pos rfl
    · rw [opened.fs]
      exact he
  have hlt : kd < w.nextFd := by
    by_contra hge
    rw [R.bound kd (by omega)] at hkd
    cases hkd
  have hkd₁ : w₁.fds kd = some (.dir D born seen) := (opened.fds_lt hlt).trans hkd
  have hS₁ : Place w₁.fs (diskTop env) () src S := opened.fs.symm ▸ hS
  have hD₁ : Place w₁.fs (diskTop env) () dst D := opened.fs.symm ▸ hD
  refine Prog.Eventually.bind (mergeDir_grows out _ _ _)
    ((R₁.mergeDir hno habi hsd hds hS₁ hD₁ stream hkd₁ hsafe out "").mono fun _ w₂ hend => ?_)
  obtain ⟨R₂, since₂, hD₂, b, sn, balanced⟩ := hend
  apply Prog.eventually_of_ensures
  apply Prog.ensures_call
  intro _
  apply Prog.ensures_pure
  obtain ⟨R₃, since₃⟩ := R₂.closed w.nextFd
  refine ⟨⟨R₃, (since₁.trans since₂).trans since₃,
    Balanced.close_opened R.bound opened balanced since₂.nextFd⟩, ?_⟩
  rw [(kernel_close env w₂ w.nextFd).1]
  exact hD₂

end Merge

/-! ### The directories of the layout -/

/-- The tree after the five `mkdirat` calls. Each makes its directory only if nothing is there and
its parent is a directory. -/
def ensured (V : View) : View :=
  ((((V.mkdir [nUsr]).mkdir [nUsr, nLib]).mkdir [nUsr, nLib64]).mkdir [nUsr, nLib, nArch]).mkdir
    [nUsr, nLib, nModules]

/-- Nothing outside `/usr` is touched. -/
theorem ensured_of_not_usr (V : View) {r : List Name} (h : ¬ [nUsr] <+: r) : ensured V r = V r := by
  have hbelow : ∀ (U : View) (q : List Name), U.mkdir (nUsr :: q) r = U r := fun U q =>
    U.mkdir_of_not_below fun hq => h ((List.prefix_append [nUsr] q).trans hq)
  unfold ensured
  rw [hbelow, hbelow, hbelow, hbelow, hbelow]

theorem Rootfs.closed_view {env : Env} {w : World} {V : View} (R : Rootfs env V w) : V.Closed :=
  R.view ▸ w.fs.view_closed env.diskRoot

/-- The five `mkdirat` calls make what is missing and nothing else. -/
theorem ensureDirs_ensures {env : Env} {w : World} {V : View} {I : World → Syscall → Prop}
    (hno : env.choices.NoFaults) (R : Rootfs env V w)
    (husr : V [nUsr] = none ∨ V [nUsr] = some .dir)
    (hlib : V [nUsr, nLib] = none ∨ V [nUsr, nLib] = some .dir) :
    Prog.Ensures (kernel env) I ensureDirs w fun _ w' => Leads env w (ensured V) w' ∧
      ensured V [nUsr, nLib] = some .dir ∧
      (V [nUsr, nLib, nArch] = none ∨ V [nUsr, nLib, nArch] = some .dir →
        ensured V [nUsr, nLib, nArch] = some .dir) := by
  have hdir₁ : V.mkdir [nUsr] [nUsr] = some .dir := V.mkdir_self husr
  have l₁ := R.mkdirat hno R.root nUsr
  have l₂ := l₁.rootfs.mkdirat hno hdir₁ nLib
  have hdir₂ : (V.mkdir [nUsr]).mkdir [nUsr, nLib] [nUsr, nLib] = some .dir :=
    View.mkdir_self _ (V.mkdir_absent_or_dir [nUsr] hlib)
  have hstep : ∀ {w : World} {U : View} (p : List Name) {r : List Name}, Rootfs env U w →
      U r = some .dir → U.mkdir p r = some .dir := fun p _ R h => by
    rw [View.mkdir_of_ne_none R.closed_view p (by simp [h]), h]
  have l₃ := l₂.rootfs.mkdirat hno (hstep _ l₁.rootfs hdir₁) nLib64
  have l₄ := l₃.rootfs.mkdirat hno (hstep _ l₂.rootfs hdir₂) nArch
  have l₅ := l₄.rootfs.mkdirat hno (hstep _ l₃.rootfs (hstep _ l₂.rootfs hdir₂)) nModules
  apply Prog.ensures_call
  intro _
  apply Prog.ensures_call
  intro _
  apply Prog.ensures_call
  intro _
  apply Prog.ensures_call
  intro _
  apply Prog.ensures_call
  intro _
  apply Prog.ensures_pure
  refine ⟨(((l₁.trans l₂).trans l₃).trans l₄).trans l₅, ?_, fun harch => ?_⟩
  · exact hstep _ l₄.rootfs (hstep _ l₃.rootfs (hstep _ l₂.rootfs hdir₂))
  · apply hstep _ l₄.rootfs
    apply View.mkdir_self
    apply View.mkdir_absent_or_dir
    apply View.mkdir_absent_or_dir
    exact View.mkdir_absent_or_dir _ _ harch

/-! ### Steps 4 and 5 -/

/-- What merging the directory `src`, if there is one, and removing it if it became
empty makes of the tree. -/
noncomputable def takenIn (V : View) (src dst : List Name) : View :=
  if V src = some .dir then (absorbed V src dst).rmdir src else V

theorem absorbed_dst {V : View} {src dst : List Name} (hsrc : V src = some .dir)
    (hdst : V dst = some .dir) : absorbed V src dst dst = some .dir := by
  have hx : V.below src [] = some .dir := by simpa [View.below] using hsrc
  have hy : V.below dst [] = some .dir := by simpa [View.below] using hdst
  have happ := View.put_append (V.put src (remains (V.below src) (V.below dst))) dst []
    (overlay (V.below src) (V.below dst))
  rw [List.append_nil] at happ
  rw [absorbed, happ]
  simp [overlay, hx, hy]

section Taking

variable {env : Env} {w : World} {V : View} {I : World → Syscall → Prop} {D : Ino} {kd : Nat}
  {born seen : List Comp} (hno : env.choices.NoFaults) (habi : env.abi = .generic)
  (R : Rootfs env V w) (hD : Place w.fs (diskTop env) () [nUsr, nLib] D)
  (hkd : w.fds kd = some (.dir D born seen))
include hno habi R hD hkd

/-- The merge of a top-level directory that was just opened, with `close` and `rmdir`. -/
theorem Rootfs.take {w₁ : World} {n : Name} (hn : n ≠ nUsr) {S : Ino} {es : List (Name × Ino)}
    (hS : Place w.fs (diskTop env) () [n] S) (he : w.fs.entries S = some es)
    (opened : Opened w w₁ (.dir S (listing es) []))
    (hsafe : Cautious env (diskTop env) (mergeLoc [n] [nUsr, nLib]) I ∨
      Tame (V.below [n]) (V.below [nUsr, nLib])) (out : Int) :
    Prog.Eventually (kernel env) I (fun fuel => do
      Recovery.mergeFrom out fuel w.nextFd kd
      let _ ← call (.unlinkat AT_FDCWD (mntPath [n]) true)) w₁ fun _ w' =>
      Leads env w ((absorbed V [n] [nUsr, nLib]).rmdir [n]) w' ∧
        Place w'.fs (diskTop env) () [nUsr, nLib] D := by
  have hapart : ¬ [n] <+: [nUsr, nLib] := by simp [hn]
  have hapart' : ¬ [nUsr, nLib] <+: [n] := by simp [Ne.symm hn]
  have hdir : ∀ {p k}, Place w.fs (diskTop env) () p k → V p = some .dir := by
    intro p k place
    rw [← R.view]
    exact Option.bind_eq_some_iff.mpr ⟨k, place.at_path, w.fs.obj_eq_dir_iff.mpr place.isDir⟩
  apply Prog.Eventually.bind (mergeFrom_grows out _ _)
  apply (R.mergeFrom hno habi hS he opened hapart hapart' hD hkd hsafe out).mono
  rintro _ w₂ ⟨leads, hD₂⟩
  apply Prog.eventually_of_ensures
  apply Prog.ensures_call
  intro _
  apply Prog.ensures_pure
  obtain ⟨leads', hshrinks⟩ := leads.rootfs.rmdirat hno leads.rootfs.root n
  refine ⟨leads.trans leads', leads'.rootfs.place_of_shrinks hshrinks hD₂ ?_⟩
  exact (View.rmdir_of_not_below _ hapart).trans (absorbed_dst (hdir hS) (hdir hD))

theorem mergeLibOld_eventually (hkind : V [nLibOld] = none ∨ V [nLibOld] = some .dir)
    (hsafe : V [nLibOld] = some .dir →
      Cautious env (diskTop env) (mergeLoc [nLibOld] [nUsr, nLib]) I ∨
        Tame (V.below [nLibOld]) (V.below [nUsr, nLib])) (out : Int) :
    Prog.Eventually (kernel env) I (fun fuel => mergeLibOld out fuel kd) w fun _ w' =>
      Leads env w (takenIn V [nLibOld] [nUsr, nLib]) w' ∧
        Place w'.fs (diskTop env) () [nUsr, nLib] D := by
  apply eventually_do
  rcases hkind with habsent | hdir
  · have hfail : (kernel env w (.openat AT_FDCWD (mntPath [nLibOld]) dirFlags)).2.ret < 0 ∧
        Quiet w (kernel env w (.openat AT_FDCWD (mntPath [nLibOld]) dirFlags)).1 :=
      R.openat_absent R.root nLibOld habsent
    apply eventually_neg (by omega)
    rw [takenIn, if_neg (by simp [habsent])]
    apply Prog.eventually_of_ensures
    apply Prog.ensures_pure
    refine ⟨R.quiet hfail.2, ?_⟩
    rw [hfail.2.fs]
    exact hD
  · obtain ⟨S, es, hS, he, hret, opened⟩ := R.openat_dir hno hdir habi
    apply eventually_pos (by omega)
    rw [hret, takenIn, if_pos hdir]
    apply eventually_print
    intro w₁ quiet
    exact R.take hno habi hD hkd (by decide) hS he (opened.quiet quiet) (hsafe hdir) out

theorem mergeLib_eventually
    (hsafe : V [nLib] = some .dir →
      Cautious env (diskTop env) (mergeLoc [nLib] [nUsr, nLib]) I ∨
        Tame (V.below [nLib]) (V.below [nUsr, nLib])) (out : Int) :
    Prog.Eventually (kernel env) I (fun fuel => mergeLib out fuel kd) w fun _ w' =>
      Leads env w (takenIn V [nLib] [nUsr, nLib]) w' ∧
        Place w'.fs (diskTop env) () [nUsr, nLib] D := by
  have hstat : Quiet w (kernel env w (.newfstatat AT_FDCWD (mntPath [nLib]))).1 ∧
      (((kernel env w (.newfstatat AT_FDCWD (mntPath [nLib]))).2.ret = 0 ∧
        (kernel env w (.newfstatat AT_FDCWD (mntPath [nLib]))).2.type = .dir) ↔
        V [nLib] = some .dir) := R.newfstatat hno R.root nLib
  obtain ⟨quiet, htype⟩ := hstat
  have leads := R.quiet quiet
  apply Prog.Eventually.bind (Prog.Grows.const _)
  apply Prog.eventually_of_ensures
  apply Prog.ensures_perform
  intro _
  by_cases hdir : V [nLib] = some .dir
  · apply eventually_pos (htype.mpr hdir)
    apply eventually_print
    intro w₁ quiet₁
    have leads₁ := R.quiet (quiet.trans quiet₁)
    obtain ⟨S, es, hS, he, hret, opened⟩ := leads₁.rootfs.openat_dir hno hdir habi
    apply eventually_do
    rw [hret, takenIn, if_pos hdir]
    simp only [onlyIf, ge_iff_le, Int.natCast_nonneg, if_true]
    have hD₁ : Place w₁.fs (diskTop env) () [nUsr, nLib] D := by
      rw [(quiet.trans quiet₁).fs]
      exact hD
    have hkd₁ : w₁.fds kd = some (.dir D born seen) := by
      rw [(quiet.trans quiet₁).fds]
      exact hkd
    apply (leads₁.rootfs.take hno habi hD₁ hkd₁ (by decide) hS he opened (hsafe hdir) out).mono
    rintro _ w' ⟨leads', hD'⟩
    exact ⟨leads₁.trans leads', hD'⟩
  · apply eventually_neg (fun h => hdir (htype.mp h))
    rw [takenIn, if_neg hdir]
    apply Prog.eventually_of_ensures
    apply Prog.ensures_pure
    refine ⟨leads, ?_⟩
    rw [quiet.fs]
    exact hD

omit hD hkd in
/-- Both merges, with the descriptor of `/mnt/usr/lib` open around them. -/
theorem mergePhases_eventually (hdst : V [nUsr, nLib] = some .dir)
    (hkind : V [nLibOld] = none ∨ V [nLibOld] = some .dir)
    (hsafe : V [nLibOld] = some .dir →
      Cautious env (diskTop env) (mergeLoc [nLibOld] [nUsr, nLib]) I ∨
        Tame (V.below [nLibOld]) (V.below [nUsr, nLib]))
    (hsafe' : takenIn V [nLibOld] [nUsr, nLib] [nLib] = some .dir →
      Cautious env (diskTop env) (mergeLoc [nLib] [nUsr, nLib]) I ∨
        Tame ((takenIn V [nLibOld] [nUsr, nLib]).below [nLib])
          ((takenIn V [nLibOld] [nUsr, nLib]).below [nUsr, nLib])) (out : Int) :
    Prog.Eventually (kernel env) I (fun fuel => mergePhases out fuel) w fun _ w' =>
      Leads env w (takenIn (takenIn V [nLibOld] [nUsr, nLib]) [nLib] [nUsr, nLib]) w' := by
  obtain ⟨D, es, hD, _, hret, opened⟩ := R.openat_dir hno hdst habi
  apply eventually_do
  rw [hret]
  generalize (kernel env w (.openat AT_FDCWD (mntPath [nUsr, nLib]) dirFlags)).1 = w₁ at opened ⊢
  obtain ⟨R₁, since₁⟩ := R.opened opened
  have hD₁ : Place w₁.fs (diskTop env) () [nUsr, nLib] D := opened.fs.symm ▸ hD
  have hkd₁ : w₁.fds w.nextFd = some (.dir D (listing es) []) := by
    rw [opened.fds]
    exact if_pos rfl
  have hlt : w.nextFd < w₁.nextFd := by
    rw [opened.nextFd]
    omega
  apply Prog.Eventually.bind (mergeLibOld_grows out _)
  apply (mergeLibOld_eventually hno habi R₁ hD₁ hkd₁ hkind hsafe out).mono
  rintro _ w₂ ⟨leads₂, hD₂⟩
  have hkd₂ : w₂.fds w.nextFd = some (.dir D (listing es) []) :=
    (leads₂.balanced.below _ hlt).trans hkd₁
  apply Prog.Eventually.bind (mergeLib_grows out _)
  apply (mergeLib_eventually hno habi leads₂.rootfs hD₂ hkd₂ hsafe' out).mono
  rintro _ w₃ ⟨leads₃, _⟩
  apply Prog.eventually_of_ensures
  have leads := leads₂.trans leads₃
  simp only [closeOpen, onlyIf, ge_iff_le, Int.natCast_nonneg, if_true]
  apply Prog.ensures_call
  intro _
  apply Prog.ensures_pure
  obtain ⟨R₄, since₄⟩ := leads.rootfs.closed w.nextFd
  refine ⟨R₄, (since₁.trans leads.since).trans since₄, ?_⟩
  exact Balanced.close_opened R.bound opened
    (leads.balanced.of_eq_left (World.setDesc_fds_eq hkd₁).symm rfl) leads.since.nextFd

end Taking

/-! ### Step 6 -/

/-- One of the links of step 6: it is in place afterwards unless a directory with something in it is
in the way. -/
theorem restoreLink_ensures {env : Env} {w : World} {V : View} {I : World → Syscall → Prop}
    (hno : env.choices.NoFaults) (R : Rootfs env V w) (n : Name) (target : Path) :
    Prog.Ensures (kernel env) I (restoreLink n target) w fun _ w' =>
      (V.Full [n] → Leads env w V w') ∧
      (¬ V.Full [n] → ∃ i, Leads env w (V.put [n] (View.one (.leaf i))) w' ∧
        w.fs.next ≤ i.num ∧ w'.fs.node i = some (.symlink target)) := by
  have l₁ : Leads env w (V.unlink [n]) _ := R.unlinkat hno R.root n
  have l₂ : Leads env _ ((V.unlink [n]).rmdir [n]) _ := (l₁.rootfs.rmdirat hno l₁.rootfs.root n).1
  have l := l₁.trans l₂
  have hlink := l.rootfs.symlinkat hno l.rootfs.root n target
  obtain ⟨hfree, hfull⟩ := V.rmdir_unlink [n]
  apply Prog.ensures_call
  intro _
  apply Prog.ensures_call
  intro _
  apply Prog.ensures_call
  intro _
  apply Prog.ensures_pure
  constructor
  · intro h
    have hsame := hfull h
    have hthere : (V.unlink [n]).rmdir [n] [n] ≠ none := by
      rw [hsame, h.1]
      simp
    rw [hsame] at l
    exact l.trans (l.rootfs.quiet (hlink.1 hthere))
  · intro h
    obtain ⟨hnone, hput⟩ := hfree h
    obtain ⟨i, l₃, hfresh, hnode⟩ := hlink.2 hnone
    refine ⟨i, ?_, Nat.le_trans l.since.next hfresh, hnode⟩
    rw [← hput]
    exact l.trans l₃

/-- The new link keeps its target: later steps leave it alone. -/
theorem Since.node_eq {env : Env} {w w' : World} (h : Since env w w') {i : Ino} {node : Node}
    (hi : w.fs.node i = some node) (hleaf : ∀ p es, node ≠ .dir p es) :
    w'.fs.node i = some node := by
  rw [← hi]
  apply h.leaves i
  · simp [hi]
  · cases node with
    | dir p es => exact absurd rfl (hleaf p es)
    | file data => simp [FS.isDir, FS.entries, hi]
    | symlink t => simp [FS.isDir, FS.entries, hi]

end Hub11.Recovery
