import Hub11.Recovery.Confined
import Hub11.Recovery.Direct

/-!
The merges of `_start` come to an end.

On arm64 `merge_dir` is never called on a directory, so there is no recursion at all. With
the number that `O_DIRECTORY` has in the generic header, the recursion of `merge_dir` is
bounded by the source tree as long as source and destination are two trees: without links
in the way both calls return, also if calls fail and if `/mnt/usr/lib` could not be opened,
when nothing is renamed and there is no recursion.
-/

namespace Hub11.Recovery

open Hub11.Effect Hub11.Posix

/-- Where the flags say `O_DIRECTORY`, a directory is opened or nothing. -/
theorem kernel_openat_generic {env : Env} (hord : env.choices.Ordinary) (habi : env.abi = .generic)
    (w : World) (fd : Int) (path : Path) :
    ((kernel env w (.openat fd path dirFlags)).2.ret < 0 ∧
      (kernel env w (.openat fd path dirFlags)).2.ret ≠ AT_FDCWD ∧
      Quiet w (kernel env w (.openat fd path dirFlags)).1) ∨
    ∃ i es, w.resolve env fd path = .found i ∧ w.fs.entries i = some es ∧
      (kernel env w (.openat fd path dirFlags)).2.ret = w.nextFd ∧
      Opened w (kernel env w (.openat fd path dirFlags)).1 (.dir i (listing es) []) := by
  rcases kernel_openat_code hord w fd path (mode_dirFlags_ne_creat env.abi) with
    hfail | ⟨_, hne, _⟩ | ⟨i, es, _, hopened⟩
  · exact .inl hfail
  · exact absurd (by rw [habi, mode_dirFlags_generic]) hne
  · exact .inr ⟨i, es, hopened⟩

theorem cautious_of_inPlace {ι : Type} (env : Env) (top : ι → Ino) (loc : Bool → ι × List Name) :
    Cautious env top loc fun w op => w.opensInPlace env op = true := by
  intro habi _ _ _ _ _ _ hI hk _
  exact World.linkAvoidsDirs_of_inPlace (by rw [habi, mode_dirFlags_generic]) hk hI

/-! ### Without a destination -/

section Negative

variable {env : Env} {w w' w'' : World} {I : World → Syscall → Prop} {src : List Name} {S : Ino}
  {sk : Nat}

/-- The source is still open and has no new names. With every level the tree below gets smaller, and
that bounds the recursion. -/
structure Narrows (env : Env) (src : List Name) (S : Ino) (sk : Nat) (w w' : World) : Prop where
  rootfs : ∃ V, Rootfs env V w'
  place : Place w'.fs (diskTop env) () src S
  fd : w'.fds sk = w.fds sk
  names : ∀ n, w'.fs.child S n ≠ none → w.fs.child S n ≠ none
  nextFd : w.nextFd ≤ w'.nextFd

theorem Narrows.trans (h : Narrows env src S sk w w') (h' : Narrows env src S sk w' w'') :
    Narrows env src S sk w w'' where
  rootfs := h'.rootfs
  place := h'.place
  fd := h'.fd.trans h.fd
  names n hn := h.names n (h'.names n hn)
  nextFd := Nat.le_trans h.nextFd h'.nextFd

variable (hS : Place w.fs (diskTop env) () src S) {V : View} (R : Rootfs env V w)
include hS R

theorem Narrows.quiet (h : Quiet w w') : Narrows env src S sk w w' where
  rootfs := ⟨V, (R.quiet h).rootfs⟩
  place := h.fs.symm ▸ hS
  fd := by rw [h.fds]
  names n hn := by rwa [h.fs] at hn
  nextFd := Nat.le_of_eq h.nextFd.symm

theorem Narrows.opened {desc : Desc} (hsk : sk < w.nextFd) (h : Opened w w' desc) :
    Narrows env src S sk w w' where
  rootfs := ⟨V, (R.opened h).1⟩
  place := h.fs.symm ▸ hS
  fd := h.fds_lt hsk
  names n hn := by rwa [h.fs] at hn
  nextFd := by rw [h.nextFd]; omega

theorem Narrows.closed {k : Nat} (hk : k ≠ sk) :
    Narrows env src S sk w (kernel env w (.close k)).1 := by
  obtain ⟨hfs, hnext, _, hfds⟩ := kernel_close env w k
  refine ⟨⟨V, (R.closed k).1⟩, hfs.symm ▸ hS, ?_, fun n hn => by rwa [hfs] at hn,
    Nat.le_of_eq hnext.symm⟩
  rcases hfds with hfds | ⟨hfds, _⟩
  · rw [hfds, w.setDesc_fds_of_ne (Ne.symm hk)]
  · rw [hfds]

theorem Narrows.rmdir {born seen : List Comp} (hfd : w.fds sk = some (.dir S born seen)) (n : Name) :
    Narrows env src S sk w (kernel env w (.unlinkat sk (.ofName n) true)).1 := by
  rcases kernel_rmdirat env hfd n with ⟨_, fs', hok, changed⟩ | ⟨_, quiet, _⟩
  · obtain ⟨i, hi, hempty, -, rfl⟩ := FS.rmdir_ok hok
    have leads := R.removed true hS hi (fun _ => hempty) changed
    refine ⟨⟨_, leads.rootfs⟩, ?_, by rw [changed.fds], ?_, Nat.le_of_eq changed.nextFd.symm⟩
    · rw [changed.fs]
      apply R.forest.remove_place hS hi (fun _ => hempty) hS
      exact fun h => not_append_prefix h.2
    · intro x hx
      rw [changed.fs, R.forest.remove_child hS hi (fun _ => hempty)] at hx
      split at hx
      · exact absurd rfl hx
      · exact hx
  · exact Narrows.quiet hS R quiet

variable (hord : env.choices.Ordinary) (habi : env.abi = .generic) {dstFd : Int} (hneg : dstFd < 0)
  (hcwd : dstFd ≠ AT_FDCWD) {born seen : List Comp} (hfd : w.fds sk = some (.dir S born seen))
include hord habi hneg hcwd hfd

/-- A record can only be removed, if it is an empty directory. -/
theorem mergeSubdir_negative (recurse : Int → Int → Sys Unit) (n : Name) :
    Prog.Ensures (kernel env) I (mergeSubdir recurse sk dstFd (.name n)) w fun _ w' =>
      Narrows env src S sk w w' := by
  have hlt : sk < w.nextFd := by
    by_contra hge
    rw [R.bound sk (by omega)] at hfd
    cases hfd
  -- what is left to do once the three calls have been made
  have rest : ∀ (subSrc subDst : Int) (w₁ : World), Narrows env src S sk w w₁ → subDst < 0 →
      (subSrc < 0 ∨ subSrc = w.nextFd) →
      Prog.Ensures (kernel env) I (do
        onlyIf (subSrc ≥ 0 ∧ subDst ≥ 0) (recurse subSrc subDst)
        closeOpen subSrc
        closeOpen subDst
        let _ ← call (.unlinkat sk ⟨false, [.name n]⟩ true)) w₁ fun _ w' =>
        Narrows env src S sk w w' := by
    intro subSrc subDst w₁ h₁ hdst hsrc
    have remove : ∀ w₂, Narrows env src S sk w w₂ →
        Prog.Ensures (kernel env) I (do let _ ← call (.unlinkat sk ⟨false, [.name n]⟩ true)) w₂
          fun _ w' => Narrows env src S sk w w' := by
      intro w₂ h₂
      obtain ⟨V₂, R₂⟩ := h₂.rootfs
      apply Prog.ensures_call
      intro _
      apply Prog.ensures_pure
      exact h₂.trans (Narrows.rmdir h₂.place R₂ (h₂.fd.trans hfd) n)
    simp only [closeOpen, onlyIf]
    rw [if_neg (by omega), if_neg (show ¬ subDst ≥ 0 by omega)]
    rcases hsrc with hsrc | rfl
    · rw [if_neg (by omega)]
      exact remove w₁ h₁
    · rw [if_pos (Int.natCast_nonneg _)]
      apply Prog.ensures_call
      intro _
      obtain ⟨V₁, R₁⟩ := h₁.rootfs
      exact remove _ (h₁.trans (Narrows.closed h₁.place R₁ (by omega)))
  have finish : ∀ (subSrc : Int) (w₁ : World), Narrows env src S sk w w₁ →
      (subSrc < 0 ∨ subSrc = w.nextFd) →
      Prog.Ensures (kernel env) I (do
        let _ ← call (.mkdirat dstFd ⟨false, [.name n]⟩)
        let subDst ← call (.openat dstFd ⟨false, [.name n]⟩ dirFlags)
        onlyIf (subSrc ≥ 0 ∧ subDst ≥ 0) (recurse subSrc subDst)
        closeOpen subSrc
        closeOpen subDst
        let _ ← call (.unlinkat sk ⟨false, [.name n]⟩ true)) w₁ fun _ w' =>
        Narrows env src S sk w w' := by
    intro subSrc w₁ h₁ hsrc
    obtain ⟨V₁, R₁⟩ := h₁.rootfs
    apply ensures_do
    intro _
    have quiet : Quiet w₁ (kernel env w₁ (.mkdirat dstFd ⟨false, [.name n]⟩)).1 :=
      (kernel_mkdirat_negative env hneg hcwd n).2
    apply ensures_do
    intro _
    obtain ⟨hret, quiet'⟩ := kernel_openat_negative
      (w := (kernel env w₁ (.mkdirat dstFd ⟨false, [.name n]⟩)).1) env hneg hcwd n dirFlags
    exact rest _ _ _ (h₁.trans (Narrows.quiet h₁.place R₁ (quiet.trans quiet'))) hret hsrc
  unfold mergeSubdir
  apply ensures_do
  intro _
  rcases kernel_openat_generic hord habi w sk (.ofName n) with
    ⟨hret, _, quiet⟩ | ⟨i, es, _, _, hret, opened⟩
  · exact finish _ _ (Narrows.quiet hS R quiet) (.inl hret)
  · exact finish _ _ (Narrows.opened hS R hlt opened) (.inr hret)

theorem mergeEntry_negative (out : Int) (recurse : Int → Int → Sys Unit) (indent : String) (c : Comp) :
    Prog.Ensures (kernel env) I (mergeEntry out recurse sk dstFd indent c) w fun _ w' =>
      Narrows env src S sk w w' := by
  cases c with
  | dot => exact Prog.ensures_pure (Narrows.quiet hS R (Quiet.refl w))
  | dotdot => exact Prog.ensures_pure (Narrows.quiet hS R (Quiet.refl w))
  | name n =>
      unfold mergeEntry
      split
      · apply ensures_print
        intro w₁ q₁
        apply ensures_print
        intro w₂ q₂
        apply ensures_print
        intro w₃ q₃
        have h₃ : Narrows env src S sk w w₃ := .quiet hS R ((q₁.trans q₂).trans q₃)
        apply ensures_do
        intro _
        obtain ⟨hret, q₄⟩ := kernel_renameat_negative (w := w₃) env (h₃.fd.trans hfd) hneg hcwd n
        rw [show (⟨false, [.name n]⟩ : Path) = .ofName n from rfl, if_neg (by omega)]
        apply ensures_print
        intro w₅ q₅
        have q := ((q₁.trans q₂).trans q₃).trans (q₄.trans q₅)
        have h₅ : Narrows env src S sk w w₅ := .quiet hS R q
        obtain ⟨V₅, R₅⟩ := h₅.rootfs
        apply (mergeSubdir_negative h₅.place R₅ hord habi hneg hcwd (h₅.fd.trans hfd) recurse n).mono
        exact fun _ w' h' => h₅.trans h'
      · exact Prog.ensures_pure (Narrows.quiet hS R (Quiet.refl w))

theorem mergeRecords_negative (out : Int) (recurse : Int → Int → Sys Unit) (indent : String)
    (cs : List Comp) :
    Prog.Ensures (kernel env) I (cs.forM (mergeEntry out recurse sk dstFd indent)) w fun _ w' =>
      Narrows env src S sk w w' := by
  induction cs generalizing w V with
  | nil => exact Prog.ensures_pure (Narrows.quiet hS R (Quiet.refl w))
  | cons c cs ih =>
      apply Prog.Ensures.bind
      apply (mergeEntry_negative hS R hord habi hneg hcwd hfd out recurse indent c).mono
      intro _ w₁ h₁
      obtain ⟨V₁, R₁⟩ := h₁.rootfs
      apply (ih h₁.place R₁ (h₁.fd.trans hfd)).mono
      exact fun _ w' h' => h₁.trans h'

/-- The listing comes to its end. -/
theorem mergeDir_negative (out : Int) (fuel : Nat) (indent : String)
    (hfuel : ∀ es, w.fs.entries S = some es → (pending es seen).length + 1 ≤ fuel) :
    Prog.Ensures (kernel env) I (mergeDir out fuel sk dstFd indent) w fun _ w' =>
      (∃ V', Rootfs env V' w') ∧ w.nextFd ≤ w'.nextFd := by
  induction fuel generalizing w V seen with
  | zero =>
      obtain ⟨es, he⟩ := w.fs.isDir_iff.mp hS.isDir
      have := hfuel es he
      omega
  | succ fuel ih =>
      obtain ⟨es, he⟩ := w.fs.isDir_iff.mp hS.isDir
      have hfuel' := hfuel es he
      unfold mergeDir
      apply Prog.ensures_call
      intro _
      rcases kernel_getdents env hfd he 2048 with
        ⟨hret, quiet, _⟩ | ⟨got, hgot, hret, hdents, hfs, hfds, hnext, hmount⟩
      · change Prog.Ensures (kernel env) I (if _ > (0 : Int) then _ else _) _ _
        rw [if_neg (by omega)]
        exact Prog.ensures_pure ⟨⟨V, (R.quiet quiet).rootfs⟩, Nat.le_of_eq quiet.nextFd.symm⟩
      · have hmem : ∀ c ∈ got, c ∈ pending es seen := fun c hc => portion_subset (hgot ▸ hc)
        generalize kernel env w (.getdents64 sk 2048) = kr at hret hdents hfs hfds hnext hmount
        obtain ⟨w₁, r⟩ := kr
        dsimp only at hret hdents hfs hfds hnext hmount
        have hfd₁ : w₁.fds sk = some (.dir S born (seen ++ got)) := by
          rw [hfds]
          exact w.setDesc_fds_self sk _
        have hbound : ∀ k, w₁.nextFd ≤ k → w₁.fds k = none := by
          intro k hk
          rw [hnext] at hk
          have hne : k ≠ sk := by
            rintro rfl
            rw [R.bound k hk] at hfd
            cases hfd
          rw [hfds, w.setDesc_fds_of_ne hne, R.bound k hk]
        obtain ⟨R₁, _⟩ := R.same hfs hmount (Nat.le_of_eq hnext.symm) hbound
        have hS₁ : Place w₁.fs (diskTop env) () src S := hfs.symm ▸ hS
        change Prog.Ensures (kernel env) I (if r.ret > 0 then _ else _) w₁ _
        by_cases hempty : got = []
        · rw [if_neg (by rw [hret, hempty]; simp)]
          exact Prog.ensures_pure ⟨⟨V, R₁⟩, Nat.le_of_eq hnext.symm⟩
        · have hpos : r.ret > 0 := by
            obtain ⟨c, cs, rfl⟩ := List.exists_cons_of_ne_nil hempty
            have := recLen_pos c
            rw [hret]
            simp only [List.map_cons, List.sum_cons]
            omega
          rw [if_pos hpos, hdents]
          apply Prog.Ensures.bind
          apply (mergeRecords_negative hS₁ R₁ hord habi hneg hcwd hfd₁ out _ indent got).mono
          intro _ w₂ h₂
          obtain ⟨V₂, R₂⟩ := h₂.rootfs
          have hfuel₂ : ∀ es', w₂.fs.entries S = some es' →
              (pending es' (seen ++ got)).length + 1 ≤ fuel := by
            intro es' he'
            have hsub : ∀ c ∈ listing es', c ∈ listing es := by
              intro c hc
              cases c with
              | dot => simp [listing]
              | dotdot => simp [listing]
              | name x =>
                  rw [mem_listing, ← w₂.fs.child_of_entries he'] at hc
                  have := h₂.names x hc
                  rwa [hfs, w.fs.child_of_entries he, ← mem_listing] at this
            have := length_pending_lt hsub hmem hempty
            omega
          apply (ih h₂.place R₂ (h₂.fd.trans hfd₁) hfuel₂).mono
          rintro _ w' ⟨hR', hnext'⟩
          refine ⟨hR', ?_⟩
          have := h₂.nextFd
          omega

end Negative

/-! ### Both merges -/

section Phases

variable {env : Env} {w w' : World} {dstFd : Int} {V : View}

/-- `/mnt/usr/lib` could not be opened, or it is open where it is. The source does not look at
which. -/
def Dest (env : Env) (w : World) (dstFd : Int) : Prop :=
  (dstFd < 0 ∧ dstFd ≠ AT_FDCWD) ∨
    ∃ (kd : Nat) (D : Ino) (born seen : List Comp), dstFd = kd ∧
      Place w.fs (diskTop env) () [nUsr, nLib] D ∧ w.fds kd = some (.dir D born seen)

/-- The state between the calls of the phases. -/
def Midway (env : Env) (dstFd : Int) (w : World) : Prop :=
  (∃ V, Rootfs env V w) ∧ Dest env w dstFd

theorem Dest.of_eq (h : Dest env w dstFd) (hfs : w'.fs = w.fs)
    (hfds : ∀ k d, w.fds k = some d → w'.fds k = some d) : Dest env w' dstFd := by
  rcases h with h | ⟨kd, D, born, seen, rfl, hD, hkd⟩
  · exact .inl h
  · exact .inr ⟨kd, D, born, seen, rfl, hfs.symm ▸ hD, hfds kd _ hkd⟩

theorem Midway.quiet (h : Midway env dstFd w) (q : Quiet w w') : Midway env dstFd w' := by
  obtain ⟨⟨V, R⟩, dest⟩ := h
  refine ⟨⟨V, (R.quiet q).rootfs⟩, dest.of_eq q.fs fun k d hk => ?_⟩
  rw [q.fds]
  exact hk

theorem Midway.opened {desc : Desc} (h : Midway env dstFd w) (o : Opened w w' desc) :
    Midway env dstFd w' := by
  obtain ⟨⟨V, R⟩, dest⟩ := h
  refine ⟨⟨V, (R.opened o).1⟩, dest.of_eq o.fs fun k d hk => ?_⟩
  rw [o.fds_lt, hk]
  by_contra hge
  rw [R.bound k (by omega)] at hk
  cases hk

/-- A directory of `/mnt` that is opened without following a link. -/
theorem Rootfs.openat_inPlace (hord : env.choices.Ordinary) (habi : env.abi = .generic)
    (R : Rootfs env V w) {p : List Name}
    (hplace : w.opensInPlace env (.openat AT_FDCWD (mntPath p) dirFlags) = true) :
    ((kernel env w (.openat AT_FDCWD (mntPath p) dirFlags)).2.ret < 0 ∧
      (kernel env w (.openat AT_FDCWD (mntPath p) dirFlags)).2.ret ≠ AT_FDCWD ∧
      Quiet w (kernel env w (.openat AT_FDCWD (mntPath p) dirFlags)).1) ∨
    ∃ k es, Place w.fs (diskTop env) () p k ∧ w.fs.entries k = some es ∧
      (kernel env w (.openat AT_FDCWD (mntPath p) dirFlags)).2.ret = w.nextFd ∧
      Opened w (kernel env w (.openat AT_FDCWD (mntPath p) dirFlags)).1
        (.dir k (listing es) []) := by
  apply (kernel_openat_generic hord habi w AT_FDCWD (mntPath p)).imp_right
  rintro ⟨i, es, hres, he, hret, opened⟩
  have hdir : w.fs.isDir i = true := w.fs.isDir_iff.mpr ⟨es, he⟩
  have hwalk := World.walk_of_opensInPlace (by rw [habi, mode_dirFlags_generic]) hplace rfl hres hdir
  exact ⟨i, es, R.mounted.place_of_walk R.forest hwalk hdir, he, hret, opened⟩

/-- The `rmdir` of a top-level directory. -/
theorem Midway.rmdir (h : Midway env dstFd w) {n : Name} (hn : n ≠ nUsr) :
    Midway env dstFd (kernel env w (.unlinkat AT_FDCWD (mntPath [n]) true)).1 := by
  obtain ⟨⟨V, R⟩, dest⟩ := h
  have root : Place w.fs (diskTop env) () [] env.diskRoot := by
    refine ⟨rfl, ?_⟩
    rw [← w.fs.obj_eq_dir_iff]
    exact (congrFun R.view []).trans R.root
  rcases kernel_unlinkat_of env (R.mounted.resolveParent n) true with
    ⟨_, fs', hok, changed⟩ | ⟨_, quiet, _⟩
  · obtain ⟨i, hi, hempty, -, rfl⟩ := FS.rmdir_ok hok
    refine ⟨⟨_, (R.removed true root hi (fun _ => hempty) changed).rootfs⟩, ?_⟩
    rcases dest with dest | ⟨kd, D, born, seen, rfl, hD, hkd⟩
    · exact .inl dest
    · refine .inr ⟨kd, D, born, seen, rfl, ?_, by rw [changed.fds]; exact hkd⟩
      rw [changed.fs]
      apply R.forest.remove_place root hi (fun _ => hempty) hD
      rintro ⟨_, hpre⟩
      simp [hn] at hpre
  · exact Midway.quiet ⟨⟨V, R⟩, dest⟩ quiet

variable {n : Name} (hn : n ≠ nUsr) (hord : env.choices.Ordinary) (habi : env.abi = .generic)
include hn hord habi

/-- One merge from a directory just opened, with the `close` after it. -/
theorem mergeFrom_eventually {w₁ : World} (h : Midway env dstFd w) {S : Ino}
    {es : List (Name × Ino)} (hS : Place w.fs (diskTop env) () [n] S)
    (he : w.fs.entries S = some es) (opened : Opened w w₁ (.dir S (listing es) [])) (out : Int) :
    Prog.Eventually (kernel env) (fun w op => w.opensInPlace env op = true)
      (fun fuel => mergeFrom out fuel w.nextFd dstFd) w₁ fun _ w' => Midway env dstFd w' := by
  obtain ⟨⟨V, R⟩, dest⟩ := h
  obtain ⟨R₁, _⟩ := R.opened opened
  have hS₁ : Place w₁.fs (diskTop env) () [n] S := opened.fs.symm ▸ hS
  have hfd₁ : w₁.fds w.nextFd = some (.dir S (listing es) []) := by
    rw [opened.fds]
    exact if_pos rfl
  have he₁ : w₁.fs.entries S = some es := opened.fs.symm ▸ he
  apply Prog.Eventually.bind (mergeDir_grows out _ _ _)
  rcases dest with ⟨hneg, hcwd⟩ | ⟨kd, D, born, seen, rfl, hD, hkd⟩
  · refine ⟨(pending es []).length + 1, fun fuel hfuel => ?_⟩
    apply (mergeDir_negative hS₁ R₁ hord habi hneg hcwd hfd₁ out fuel "" fun es' he' => ?_).mono
    · rintro _ w₂ ⟨⟨V₂, R₂⟩, _⟩
      apply Prog.eventually_of_ensures
      apply Prog.ensures_call
      intro _
      apply Prog.ensures_pure
      exact ⟨⟨V₂, (R₂.closed w.nextFd).1⟩, .inl ⟨hneg, hcwd⟩⟩
    · rw [he₁] at he'
      cases he'
      exact hfuel
  · have hlt : kd < w.nextFd := by
      by_contra hge
      rw [R.bound kd (by omega)] at hkd
      cases hkd
    have stream : Stream w₁ w.nextFd S [] := ⟨listing es, es, hfd₁, he₁, fun c hc => hc⟩
    have hkd₁ : w₁.fds kd = some (.dir D born seen) := (opened.fds_lt hlt).trans hkd
    have hD₁ : Place w₁.fs (diskTop env) () [nUsr, nLib] D := opened.fs.symm ▸ hD
    have hapart : ¬ [n] <+: [nUsr, nLib] := by simp [hn]
    have hapart' : ¬ [nUsr, nLib] <+: [n] := by simp [Ne.symm hn]
    apply (R₁.mergeDir_merged (m := .faulty) (Mode.faulty_holds env) hapart hapart' hS₁
      hD₁ stream hkd₁ (.inl (cautious_of_inPlace env _ _)) out "").mono
    rintro _ w₂ ⟨R₂, since, hD₂, merged⟩
    obtain ⟨b, sn, balanced⟩ := merged.fds
    apply Prog.eventually_of_ensures
    apply Prog.ensures_call
    intro _
    apply Prog.ensures_pure
    obtain ⟨hfs, _, _, hfds⟩ := kernel_close env w₂ w.nextFd
    refine ⟨⟨_, (R₂.closed w.nextFd).1⟩, .inr ⟨kd, D, born, seen, rfl, hfs.symm ▸ hD₂, ?_⟩⟩
    have hlt₁ : kd < w₁.nextFd := by
      rw [opened.nextFd]
      omega
    have hkd₂ : w₂.fds kd = some (.dir D born seen) := by
      rw [balanced.below kd hlt₁, w₁.setDesc_fds_of_ne (by omega), hkd₁]
    rcases hfds with hfds | ⟨hfds, _⟩
    · rw [hfds, w₂.setDesc_fds_of_ne (by omega), hkd₂]
    · rw [hfds, hkd₂]

omit hn in
/-- Step 4 returns where no link is in the way, whatever fails. -/
theorem mergeLibOld_returns (h : Midway env dstFd w) (out : Int) :
    Prog.Eventually (kernel env) (fun w op => w.opensInPlace env op = true)
      (fun fuel => mergeLibOld out fuel dstFd) w fun _ w' => Midway env dstFd w' := by
  obtain ⟨V, R⟩ := h.1
  apply eventually_do_of
  intro hplace
  rcases R.openat_inPlace hord habi hplace with ⟨hret, _, quiet⟩ | ⟨S, es, hS, he, hret, opened⟩
  · apply eventually_neg (by omega)
    exact Prog.eventually_of_ensures (Prog.ensures_pure (h.quiet quiet))
  · apply eventually_pos (by omega)
    rw [hret]
    apply eventually_print
    intro w₁ quiet
    apply Prog.Eventually.bind (mergeFrom_grows out _ _)
    apply (mergeFrom_eventually (by decide) hord habi h hS he (opened.quiet quiet) out).mono
    intro _ w₂ h₂
    apply Prog.eventually_of_ensures
    apply Prog.ensures_call
    intro _
    exact Prog.ensures_pure (h₂.rmdir (by decide))

omit hn in
/-- Step 5 returns under the same condition. -/
theorem mergeLib_returns (h : Midway env dstFd w) (out : Int) :
    Prog.Eventually (kernel env) (fun w op => w.opensInPlace env op = true)
      (fun fuel => mergeLib out fuel dstFd) w fun _ w' => Midway env dstFd w' := by
  have finish : ∀ w, Midway env dstFd w →
      Prog.Eventually (kernel env) (fun w op => w.opensInPlace env op = true)
        (fun _ => do let _ ← call (.unlinkat AT_FDCWD (mntPath [nLib]) true)) w
        fun _ w' => Midway env dstFd w' := by
    intro w h
    apply Prog.eventually_of_ensures
    apply Prog.ensures_call
    intro _
    exact Prog.ensures_pure (h.rmdir (by decide))
  have quiet := kernel_newfstatat env w AT_FDCWD (mntPath [nLib])
  apply Prog.Eventually.bind (Prog.Grows.const _)
  apply Prog.eventually_of_ensures
  apply Prog.ensures_perform
  intro _
  by_cases hstat : (kernel env w (.newfstatat AT_FDCWD (mntPath [nLib]))).2.ret = 0 ∧
      (kernel env w (.newfstatat AT_FDCWD (mntPath [nLib]))).2.type = .dir
  · apply eventually_pos hstat
    apply eventually_print
    intro w₁ quiet₁
    have h₁ := (h.quiet quiet).quiet quiet₁
    obtain ⟨V₁, R₁⟩ := h₁.1
    apply eventually_do_of
    intro hplace
    rcases R₁.openat_inPlace hord habi hplace with ⟨hret, _, quiet₂⟩ | ⟨S, es, hS, he, hret, opened⟩
    · simp only [onlyIf, ge_iff_le, Int.not_le.mpr hret, if_false]
      exact finish _ (h₁.quiet quiet₂)
    · rw [hret]
      simp only [onlyIf, ge_iff_le, Int.natCast_nonneg, if_true]
      apply Prog.Eventually.bind (mergeFrom_grows out _ _)
      apply (mergeFrom_eventually (by decide) hord habi h₁ hS he opened out).mono
      exact fun _ w₂ h₂ => finish w₂ h₂
  · apply eventually_neg hstat
    exact Prog.eventually_of_ensures (Prog.ensures_pure (h.quiet quiet))

end Phases

/-- With the number that `O_DIRECTORY` has in the generic header, whatever calls fail and in
whatever order directories are listed: if the merges of `_start` open no directory through a
link, both calls of `merge_dir` return. -/
theorem mergePhases_returns_inPlace (env : Env) (habi : env.abi = .generic)
    (hord : env.choices.Ordinary) (V : View) (w : World) (R : Rootfs env V w) (out : Int)
    (hplace : ∀ fuel, InPlace env (mergePhases out fuel) w) :
    ∃ k w', ∀ fuel, k ≤ fuel → (mergePhases out fuel).run (kernel env) w = (some (), w') := by
  have ends : Prog.Eventually (kernel env) (fun w op => w.opensInPlace env op = true)
      (fun fuel => mergePhases out fuel) w fun _ _ => True := by
    apply eventually_do_of
    intro hopen
    have start : Midway env (kernel env w (.openat AT_FDCWD (mntPath [nUsr, nLib]) dirFlags)).2.ret
        (kernel env w (.openat AT_FDCWD (mntPath [nUsr, nLib]) dirFlags)).1 := by
      rcases R.openat_inPlace hord habi hopen with ⟨hneg, hcwd, quiet⟩ | ⟨D, es, hD, _, hret, opened⟩
      · exact ⟨⟨V, (R.quiet quiet).rootfs⟩, .inl ⟨hneg, hcwd⟩⟩
      · refine ⟨⟨V, (R.opened opened).1⟩, .inr ⟨w.nextFd, D, listing es, [], hret, ?_, ?_⟩⟩
        · rw [opened.fs]
          exact hD
        · rw [opened.fds]
          exact if_pos rfl
    generalize (kernel env w (.openat AT_FDCWD (mntPath [nUsr, nLib]) dirFlags)).2.ret = dstFd
      at start ⊢
    apply Prog.Eventually.bind (mergeLibOld_grows out _)
    apply (mergeLibOld_returns hord habi start out).mono
    intro _ w₂ h₂
    apply Prog.Eventually.bind (mergeLib_grows out _)
    apply (mergeLib_returns hord habi h₂ out).mono
    intro _ w₃ _
    apply Prog.eventually_of_ensures
    unfold closeOpen onlyIf
    split
    · apply Prog.ensures_call
      exact fun _ => Prog.ensures_pure trivial
    · exact Prog.ensures_pure trivial
  obtain ⟨⟨⟩, w', ⟨k, hk⟩, _⟩ := ends.returns fun fuel t ht => hplace fuel t ht habi
  exact ⟨k, w', fun fuel hfuel => ((mergePhases_grows out).below hfuel).run_eq hk⟩

/-- On arm64 both calls of `merge_dir` that `_start` makes return, whatever the tree is and
whatever calls fail: the descriptor that `merge_dir` is called with is that of a file, so its
first listing fails and there is no recursion. -/
theorem mergePhases_returns (env : Env) (harm : env.abi = .arm64) (w : World) (out : Int)
    (fuel : Nat) : ∃ w', (mergePhases out (fuel + 1)).run (kernel env) w = (some (), w') := by
  obtain ⟨⟨⟩, w', hrun, _⟩ := mergePhases_keeps (I := fun _ _ => True) (J := fun _ => True) harm
    (fun _ _ _ _ => trivial) (w := w) trivial out fuel fun _ _ => trivial
  exact ⟨w', hrun⟩

section Sample

/-- `/lib_old` is a link to `/usr`, and `/usr/lib` is empty: the destination of the merge is
inside its source. -/
def spiralDisk : FS := .ofList
  [(⟨0, 0⟩, .dir ⟨0, 0⟩ [(nMnt, ⟨0, 1⟩)]), (⟨0, 1⟩, .dir ⟨0, 0⟩ []),
    (⟨1, 10⟩, .dir ⟨1, 10⟩ [(nUsr, ⟨1, 11⟩), (nLibOld, ⟨1, 12⟩)]),
    (⟨1, 11⟩, .dir ⟨1, 10⟩ [(nLib, ⟨1, 13⟩)]), (⟨1, 12⟩, .symlink (relPath [nUsr])),
    (⟨1, 13⟩, .dir ⟨1, 11⟩ [])]

/-- Also where `/lib_old` is a link to `/usr`, with the destination of the merge inside. -/
theorem mergePhases_returns_spiral :
    ∃ w', (mergePhases 7 1).run (kernel (mountedEnv [.name nLib])) (mountedWorld spiralDisk) =
      (some (), w') :=
  mergePhases_returns (mountedEnv [.name nLib]) rfl (mountedWorld spiralDisk) 7 0

end Sample

end Hub11.Recovery
