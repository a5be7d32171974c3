import Mathlib.Algebra.Order.BigOperators.Group.List
import Mathlib.Algebra.Order.Group.Nat
import Hub11.Posix.Finite
import Hub11.Recovery.MergeStep

/-!
`merge_dir` as a whole.

`mergeDir_ensures` is total correctness of the loop over the listing with its
recursive calls: given a bound that fits the size of the source tree, the run
returns, and every name of the source directory has been handled as `Entry` says.
The loop invariant is that the names returned so far are done and all other names
are as they were; a stream that ends has returned every entry still there.
-/

namespace Hub11.Recovery

open Hub11.Effect Hub11.Posix

/-- The records a stream has not returned yet. -/
def pending (es : List (Name × Ino)) (seen : List Comp) : List Comp :=
  (listing es).filter (· ∉ seen)

theorem length_pending_le (es : List (Name × Ino)) (seen : List Comp) :
    (pending es seen).length ≤ es.length + 2 :=
  Nat.le_trans (List.length_filter_le _ _) (length_listing_le es)

/-- A portion that is not empty brings the listing closer to its end. -/
theorem length_pending_lt {es es' : List (Name × Ino)} {seen got : List Comp}
    (hsub : ∀ c ∈ listing es', c ∈ listing es) (hgot : ∀ c ∈ got, c ∈ pending es seen)
    (hne : got ≠ []) : (pending es' (seen ++ got)).length < (pending es seen).length := by
  obtain ⟨c, hc⟩ := List.exists_mem_of_ne_nil got hne
  have hnodup : (pending es' (seen ++ got)).Nodup := (nodup_listing es').filter _
  have hincl : pending es' (seen ++ got) ⊆ (pending es seen).erase c := by
    intro c' hc'
    simp only [pending, List.mem_filter, List.mem_append, decide_eq_true_eq, not_or] at hc'
    obtain ⟨hlist, hseen, hnew⟩ := hc'
    have hcc : c' ≠ c := fun h => hnew (h ▸ hc)
    refine (List.mem_erase_of_ne hcc).mpr ?_
    simp only [pending, List.mem_filter, decide_eq_true_eq]
    exact ⟨hsub c' hlist, hseen⟩
  have hle := hnodup.length_le_of_subset hincl
  have hpos := List.length_pos_of_mem (hgot c hc)
  rw [List.length_erase_of_mem (hgot c hc)] at hle
  omega

namespace Safe

variable {ι : Type} {env : Env} {dev : Nat} {top : ι → Ino} {loc : Bool → ι × List Name} {m : Mode}
  {I : World → Syscall → Prop} {s d : Ino} {w w' : World} {P Q : Name → Prop}

theorem mono (h : Safe env top loc m I s d P w) (hPQ : ∀ n, Q n → P n) :
    Safe env top loc m I s d Q w :=
  h.imp_right fun ⟨hexact, htame⟩ => ⟨hexact, fun n hn => htame n (hPQ n hn)⟩

/-- The names not handled yet are as they were. -/
theorem of_swept (h : Safe env top loc m I s d P w) (hswept : Swept m dev s d Q w w')
    {P' : Name → Prop} (hne : ∀ n, P' n → ¬ Q n) (hP : ∀ n, P' n → P n) :
    Safe env top loc m I s d P' w' := by
  refine h.imp_right fun ⟨hexact, hapart⟩ => ⟨hexact, fun n hn => ?_⟩
  rw [(hswept.rest n (hne n hn)).1, (hswept.rest n (hne n hn)).2]
  apply (hapart n (hP n hn)).of_leaves
  rintro p i (hi | hi)
  · exact hswept.kept.within.leaf_node hi
  · exact hswept.kept.within.leaf_node hi

end Safe

section Loop

variable {ι : Type} {env : Env} {dev : Nat} {top : ι → Ino} {loc : Bool → ι × List Name} {m : Mode}
  {I : World → Syscall → Prop} (hm : m.Holds env) (out : Int)

/-- From a file nothing is merged. -/
theorem mergeDir_file {sk : Nat} {w : World} {i : Ino} {off : Nat} (h : w.fds sk = some (.file i off))
    (dst : Int) (fuel : Nat) (indent : String) :
    Prog.Ensures (kernel env) I (mergeDir out (fuel + 1) sk dst indent) w fun _ w' => Quiet w w' := by
  have hdesc : w.desc (sk : Int) = some (.file i off) := h
  have hfail : (kernel env w (.getdents64 sk 2048)).2.ret < 0 ∧
      Quiet w (kernel env w (.getdents64 sk 2048)).1 :=
    kernel_error env .ENOTDIR rfl (by simp only [World.exec, World.getdents, hdesc])
  unfold mergeDir
  refine Prog.ensures_call fun _ => ?_
  change Prog.Ensures (kernel env) I (if (kernel env w (.getdents64 sk 2048)).2.ret > 0 then _ else _) _ _
  rw [if_neg (by omega)]
  exact Prog.ensures_pure hfail.2

section Sweep

variable {q : List Name} {s d : Ino} {sk : Nat} {dstFd : Int} {h B : Nat}
  {recurse : Int → Int → Sys Unit} (hrec : Recurses env dev top loc m I h B recurse)
include hm hrec

/-- The records of one portion, one after the other: their names are done afterwards, and all others
as they were. -/
theorem mergeRecords_ensures (indent : String) (cs : List Comp) (hnodup : cs.Nodup) {w : World}
    (R : Ready dev top loc m q s d sk dstFd w) (hsmall : Small h B w.fs s)
    (hsafe : Safe env top loc m I s d (fun n => Comp.name n ∈ cs) w)
    (hthere : m ≠ .faulty → ∀ n, Comp.name n ∈ cs → (w.fs.view s).sub n [] ≠ none) :
    Prog.Ensures (kernel env) I (cs.forM (mergeEntry out recurse sk dstFd indent)) w fun _ w' =>
      Balanced env w w' ∧ Swept m dev s d (fun n => Comp.name n ∈ cs) w w' := by
  induction cs generalizing w with
  | nil =>
      refine Prog.ensures_pure ⟨.of_eq env rfl (Nat.le_refl _) R.bound, ?_⟩
      exact Swept.of_quiet R.forest R.trees.srcDir R.trees.dstDir rfl (Nat.le_refl _) rfl (by simp)
  | cons c cs ih =>
      rw [List.nodup_cons] at hnodup
      cases c with
      | dot =>
          exact (ih hnodup.2 R hsmall (hsafe.mono (by simp))
            fun hx n hn => hthere hx n (by simp [hn])).mono
            fun _ w' hend => ⟨hend.1, hend.2.congr (by simp)⟩
      | dotdot =>
          exact (ih hnodup.2 R hsmall (hsafe.mono (by simp))
            fun hx n hn => hthere hx n (by simp [hn])).mono
            fun _ w' hend => ⟨hend.1, hend.2.congr (by simp)⟩
      | name n =>
          refine Prog.Ensures.bind ((mergeEntry_ensures hm hrec R hsmall out indent n
            (hsafe.mono (by simp)) fun hx => hthere hx n (by simp)).mono fun _ w₁ ⟨hfds, hswept⟩ => ?_)
          have hother : ∀ n', Comp.name n' ∈ cs → n' ≠ n := by
            rintro n' hn' rfl
            exact hnodup.1 hn'
          have R₁ := R.of_swept hswept hfds
          refine (ih hnodup.2 R₁ (hsmall.mono hswept.kept.shrinks)
            (hsafe.of_swept hswept hother (by simp +contextual)) fun hx n' hn' => ?_).mono
            fun _ w' ⟨hfds', hswept'⟩ => ⟨hfds.trans hfds' hswept.nextFd, ?_⟩
          · rw [(hswept.rest n' (hother n' hn')).1]
            exact hthere hx n' (by simp [hn'])
          · refine (hswept.trans hswept' ?_).congr fun n' => ?_
            · rintro n' rfl hn'
              exact hother n' hn' rfl
            · simp

end Sweep

/-- What a directory lists is there. -/
theorem Ready.there_of_listed {q : List Name} {s d : Ino} {sk : Nat} {dstFd : Int} {w : World}
    (R : Ready dev top loc m q s d sk dstFd w) {es : List (Name × Ino)}
    (he : w.fs.entries s = some es) {n : Name} (hn : Comp.name n ∈ listing es) :
    (w.fs.view s).sub n [] ≠ none := by
  rw [mem_listing, ← w.fs.child_of_entries he] at hn
  obtain ⟨i, hi⟩ := Option.ne_none_iff_exists'.mp hn
  have hplace : w.fs.descend (pair s d false) [n] = some i := by
    simp [pair, FS.descend_cons, hi]
  rw [View.sub_apply, view_sub_root, hi]
  simpa [FS.obj_eq_none_iff] using R.forest.live hplace

/-- When the stream has ended without failures, the names it did not return are not
there, so they count as handled. -/
theorem swept_of_end {q : List Name} {s d : Ino} {sk : Nat} {dstFd : Int} {w w' : World}
    {seen : List Comp} (R : Ready dev top loc m q s d sk dstFd w) (hfs : w'.fs = w.fs)
    (hnext : w'.nextFd = w.nextFd) (hmount : w'.mount = w.mount)
    (hend : m ≠ .faulty → ∀ n, Comp.name n ∉ seen → w.fs.child s n = none) :
    Swept m dev s d (fun n => Comp.name n ∉ seen) w w' where
  kept := by
    rw [hfs]
    exact Kept.refl R.forest R.trees.srcDir R.trees.dstDir
  nextFd := Nat.le_of_eq hnext.symm
  mount := hmount
  done := by
    intro n hn
    rw [hfs]
    have habsent : m ≠ .faulty → (w.fs.view s).sub n [] = none := fun hne => by
      rw [View.sub_apply, view_sub_root, hend hne n hn]
      rfl
    exact .keep (fun hx => .inl (habsent (by simp [hx]))) fun hx => .inl (habsent (by simp [hx]))
  rest n _ := by simp [hfs]

include hm

/-- The loop of `merge_dir`, from any point of the listing. The bound has to cover what
is left of the listing and a full listing for each level below. -/
theorem mergeDir_loop (B : Nat) (fuel : Nat) (h : Nat) {q : List Name} {s d : Ino} {sk : Nat}
    {dstFd : Int} {w : World} {seen : List Comp} (indent : String)
    (R : Ready dev top loc m q s d sk dstFd w) (stream : Stream w sk s seen)
    (hsmall : Small h B w.fs s) (hsafe : Safe env top loc m I s d (fun n => Comp.name n ∉ seen) w)
    (hfuel : ∀ es, w.fs.entries s = some es → (pending es seen).length + 1 + (B + 3) * h ≤ fuel) :
    Prog.Ensures (kernel env) I (mergeDir out fuel sk dstFd indent) w fun _ w' =>
      Swept m dev s d (fun n => Comp.name n ∉ seen) w w' ∧
        ∃ born seen', Balanced env (w.setDesc sk (some (.dir s born seen'))) w' := by
  induction fuel generalizing h q s d sk dstFd w seen indent with
  | zero =>
      obtain ⟨_, es, _, he, _⟩ := stream
      have := hfuel es he
      omega
  | succ fuel ih =>
      obtain ⟨born, es, hfd, he, hborn⟩ := stream
      have hfuel' := hfuel es he
      unfold mergeDir
      refine Prog.ensures_call fun _ => ?_
      rcases kernel_getdents env hfd he 2048 with
        ⟨hret, hquiet, hfault⟩ | ⟨got, hgot, hret, hdents, hfs, hfds, hnext, hmount⟩
      · rw [show ∀ {α} (a : α) (f : α → Sys Unit), (Prog.ret a).bind f = f a from fun _ _ => rfl]
        rw [if_neg (by omega)]
        refine Prog.ensures_pure ⟨swept_of_end R hquiet.fs hquiet.nextFd hquiet.mount
          fun hne => absurd (hm.noFaults hne) hfault, born, seen, ?_⟩
        exact (Balanced.of_eq env hquiet.fds (Nat.le_of_eq hquiet.nextFd.symm)
          R.bound).of_eq_left (w.setDesc_fds_eq hfd).symm rfl
      · have hmem : ∀ c ∈ got, c ∈ pending es seen := fun c hc => portion_subset (hgot ▸ hc)
        generalize kernel env w (.getdents64 sk 2048) = kr at hret hdents hfs hfds hnext hmount
        obtain ⟨w₁, r⟩ := kr
        dsimp only at hret hdents hfs hfds hnext hmount
        change Prog.Ensures (kernel env) I (if r.ret > 0 then _ else _) w₁ _
        have R₁ : Ready dev top loc m q s d sk dstFd w₁ := R.advance hfs hmount hnext hfds
        by_cases hempty : got = []
        · rw [if_neg (by rw [hret, hempty]; simp)]
          refine Prog.ensures_pure ⟨swept_of_end R hfs hnext hmount fun _ n hn => ?_, born,
            _, Balanced.of_eq env hfds (Nat.le_of_eq hnext.symm) (hfds ▸ hnext ▸ R₁.bound)⟩
          -- whatever is still there was there from the start, and would have been returned
          rw [w.fs.child_of_entries he]
          by_contra hthere
          have hlist := mem_listing.mpr hthere
          exact not_born_of_portion_nil (by decide) (hgot ▸ hempty) (.name n)
            (by simp [hlist, hn]) (hborn _ hlist)
        · have hpos : r.ret > 0 := by
            obtain ⟨c, cs, rfl⟩ := List.exists_cons_of_ne_nil hempty
            have := recLen_pos c
            rw [hret]
            simp only [List.map_cons, List.sum_cons]
            omega
          have hrec : Recurses env dev top loc m I h B fun a b => mergeDir out fuel a b "    " := by
            constructor
            · rintro h' q' s' d' sk' dk' w' rfl R' stream' hsmall' hsafe'
              refine (ih h' "    " R' stream' hsmall' (hsafe'.mono (by simp))
                fun es' he' => ?_).mono fun _ w'' hend =>
                ⟨hend.1.congr (by simp), hend.2⟩
              have h1 := length_pending_le es' []
              have h2 := hsmall'.width [] s' es' rfl he'
              have h3 : (B + 3) * (h' + 1) = (B + 3) * h' + (B + 3) := by rw [Nat.mul_succ]
              omega
            · intro sk' dst' w' i off hfile
              obtain ⟨c, hc⟩ := List.exists_mem_of_ne_nil got hempty
              have hleft := List.length_pos_of_mem (hmem c hc)
              obtain ⟨fuel', rfl⟩ : ∃ fuel', fuel = fuel' + 1 := ⟨fuel - 1, by omega⟩
              exact mergeDir_file out hfile dst' fuel' "    "
          have hnew : ∀ n, Comp.name n ∈ got → Comp.name n ∉ seen := fun n hn => by
            simpa using (List.mem_filter.mp (hmem _ hn)).2
          rw [if_pos hpos, hdents]
          refine Prog.Ensures.bind ((mergeRecords_ensures hm out hrec indent got
            (hgot ▸ nodup_portion ((nodup_listing es).filter _)) R₁ (hfs ▸ hsmall)
            ((hsafe.of_fs_eq hfs).mono hnew) fun _ n hn => ?_).mono fun _ w₂ ⟨hfds₂, hswept₂⟩ => ?_)
          · rw [hfs]
            exact R.there_of_listed he (List.mem_filter.mp (hmem _ hn)).1
          · have R₂ := R₁.of_swept hswept₂ hfds₂
            have hsh : Shrinks w.fs w₂.fs s := hfs ▸ hswept₂.kept.shrinks
            obtain ⟨es₂, he₂⟩ := w₂.fs.isDir_iff.mp hswept₂.kept.srcDir
            have hlist := hsh.listing_subset (p := []) rfl rfl he he₂
            have stream₂ : Stream w₂ sk s (seen ++ got) := by
              refine ⟨born, es₂, ?_, he₂, fun c hc => hborn c (hlist c hc)⟩
              rw [hfds₂.below sk R₁.src_lt, hfds]
              exact w.setDesc_fds_self sk _
            refine (ih h indent R₂ stream₂ (hsmall.mono hsh)
              ((hsafe.of_fs_eq hfs).of_swept hswept₂ (by simp) (by simp +contextual))
              fun es' he' => ?_).mono
              fun _ w₃ ⟨hswept₃, b, sn, hfds₃⟩ => ⟨?_, b, sn, ?_⟩
            · obtain rfl : es₂ = es' := by simpa [he₂] using he'
              have := length_pending_lt hlist hmem hempty
              omega
            · refine ((hswept₂.trans hswept₃ ?_).of_eq_left hfs hnext hmount).congr fun n => ?_
              · intro n hn
                simp [hn]
              · by_cases hn : Comp.name n ∈ got
                · simp [hn, hnew n hn]
                · simp [hn]
            · have hback := (hfds₂.setDesc R₁.src_lt hswept₂.nextFd _).trans hfds₃ hswept₂.nextFd
              have hset : (w₁.setDesc sk (some (.dir s b sn))).fds =
                  (w.setDesc sk (some (.dir s b sn))).fds := by
                funext j
                by_cases hj : j = sk
                · rw [hj, w.setDesc_fds_self, w₁.setDesc_fds_self]
                · rw [w.setDesc_fds_of_ne hj, w₁.setDesc_fds_of_ne hj, hfds, w.setDesc_fds_of_ne hj]
              exact hback.of_eq_left hset hnext

end Loop

/-! ### Every tree is small enough for some bound -/

section Bounds

variable {ι : Type} {fs : FS} {dev : Nat} {root : ι → Ino}

/-- An upper bound on the number of entries of a directory: the sum over all of them. No directory
of the table ever needs more portions. -/
def maxEntries (fs : FS) (dev : Nat) : Nat :=
  ((List.range fs.next).map fun num => ((fs.entries ⟨dev, num⟩).getD []).length).sum

theorem Forest.small (F : Forest fs dev root) (a : ι) :
    Small fs.next (maxEntries fs dev) fs (root a) where
  depth _ _ hk hdir := Nat.le_of_lt (F.path_length_lt hk hdir)
  width := by
    intro p k es hk he
    have hnum : k.num ∈ List.range fs.next := List.mem_range.mpr (fs.bounded _ (F.live hk))
    have hk' : k = ⟨dev, k.num⟩ := by
      have := F.onDev hk
      cases k
      simp_all
    have hwidth : es.length = ((fs.entries ⟨dev, k.num⟩).getD []).length := by
      rw [← hk', he, Option.getD_some]
    rw [hwidth]
    exact List.le_sum_of_mem (List.mem_map.mpr ⟨_, hnum, rfl⟩)

end Bounds

/-- A recursion bound that is enough to merge any tree of the table: so many portions on each of so
many levels. -/
def mergeBound (fs : FS) (dev : Nat) : Nat := (maxEntries fs dev + 3) * (fs.next + 1)

/-- `merge_dir` returns, and all names of the source have been handled. The induction is on the
bound, and the invariant is that the names listed so far are swept. -/
theorem mergeDir_ensures {ι : Type} {env : Env} {dev : Nat} {top : ι → Ino}
    {loc : Bool → ι × List Name} {m : Mode} {I : World → Syscall → Prop}
    (hm : m.Holds env) (out : Int) {q : List Name} {s d : Ino} {sk : Nat}
    {dstFd : Int} {w : World} (indent : String) (R : Ready dev top loc m q s d sk dstFd w)
    (stream : Stream w sk s []) (hsafe : Safe env top loc m I s d (fun _ => True) w) {h B : Nat}
    (hsmall : Small h B w.fs s) {fuel : Nat} (hfuel : (B + 3) * (h + 1) ≤ fuel) :
    Prog.Ensures (kernel env) I (mergeDir out fuel sk dstFd indent) w
      fun _ w' => Merged env m dev s d sk w w' := by
  refine (mergeDir_loop hm out B fuel h indent R stream hsmall (hsafe.mono (by simp))
    fun es he => ?_).mono fun _ w' ⟨hswept, hfds⟩ => ⟨hswept.congr (by simp), hfds⟩
  have h1 := length_pending_le es []
  have h2 := hsmall.width [] s es rfl he
  rw [Nat.mul_succ] at hfuel
  omega

/-! ### The exact result -/

/-- What an exact merge leaves of the source: its root, and the residue below. The root itself is
removed by the caller. -/
noncomputable def remains (x y : View) : View
  | [] => x []
  | n :: p => residue x y (n :: p)

theorem remains_of_not_blocks {x y : View} (hx : x [] = some .dir) (h : ∀ q, ¬ Blocks x y q) :
    remains x y = View.one .dir := by
  funext p
  cases p with
  | nil => exact hx
  | cons n p =>
      change residue x y (n :: p) = none
      rw [residue_eq_empty h]
      rfl

/-- A sweep over all names without failures leaves the overlay and the residue of the two trees. -/
theorem Swept.exact_views {dev : Nat} {s d : Ino} {w w' : World}
    (h : Swept .exact dev s d (fun _ => True) w w') (hs : w.fs.isDir s = true)
    (hd : w.fs.isDir d = true) :
    w'.fs.view s = remains (w.fs.view s) (w.fs.view d) ∧
      w'.fs.view d = overlay (w.fs.view s) (w.fs.view d) := by
  have hx : w.fs.view s [] = some .dir := w.fs.obj_eq_dir_iff.mpr hs
  have hy : w.fs.view d [] = some .dir := w.fs.obj_eq_dir_iff.mpr hd
  have hx' : w'.fs.view s [] = some .dir := w'.fs.obj_eq_dir_iff.mpr h.kept.srcDir
  have hy' : w'.fs.view d [] = some .dir := w'.fs.obj_eq_dir_iff.mpr h.kept.dstDir
  have hsub := fun n => (h.done n trivial).exact_eq ((w.fs.view_closed s).sub n)
    ((w.fs.view_closed d).sub n)
  constructor
  · apply View.ext_sub
    · rw [hx']
      exact hx.symm
    · intro n
      rw [(hsub n).1, ← residue_sub hx hy]
      rfl
  · apply View.ext_sub
    · simp [overlay, hx, hy, hy']
    · intro n
      rw [(hsub n).2, overlay_sub hx hy]

/-! ### No file is lost -/

theorem plain_of_checked {ι : Type} {env : Env} {top : ι → Ino} {loc : Bool → ι × List Name}
    {w : World} (k : Nat) (shallow : ∀ a, w.fs.Shallow k (top a))
    (links : ∀ a, ∀ x ∈ w.fs.places k (top a), w.linksChecked env x.2 = true) :
    Plain env top loc w :=
  fun _ _ _ hp n => World.linkAvoidsDirs_of_checked (links _ _ ((shallow _).mem_places hp)) n

/-- What a merge did to whole trees: nothing of either is lost, whatever failed. -/
theorem Swept.noLoss {m : Mode} {dev : Nat} {s d : Ino} {w w' : World}
    (h : Swept m dev s d (fun _ => True) w w') (hs : w.fs.isDir s = true)
    (hd : w.fs.isDir d = true) :
    NoLoss (w.fs.view s) (w.fs.view d) (w'.fs.view s) (w'.fs.view d) :=
  NoLoss.of_sub (w.fs.obj_eq_dir_iff.mpr hs) (w.fs.obj_eq_dir_iff.mpr hd) fun n =>
    (h.done n trivial).noLoss ((w.fs.view_closed s).sub n) ((w.fs.view_closed d).sub n)

/-- Whatever calls fail, in whatever order the entries come, and also if the
destination could not be opened: `merge_dir` returns, every file or link of the source
is still at its path in the source or in the destination, every one of the destination
is still there or was replaced by the source's, and no file was written to. -/
theorem mergeDir_noLoss (env : Env) (dev : Nat) (S D : Ino) (w : World) (sk : Nat) (dstFd out : Int)
    (indent : String) (fuel : Nat) (trees : Forest w.fs dev (pair S D))
    (hS : w.fs.isDir S = true) (hD : w.fs.isDir D = true) (src : Stream w sk S [])
    (dst : (∃ k born seen, dstFd = (k : Nat) ∧ w.fds k = some (.dir D born seen)) ∨
      (dstFd < 0 ∧ dstFd ≠ AT_FDCWD))
    (bound : ∀ k, w.nextFd ≤ k → w.fds k = none)
    (mount : ∀ c t, w.mount = some (c, t) → c.dev ≠ dev)
    (hfuel : mergeBound w.fs dev ≤ fuel)
    (plain : ∀ t ∈ (mergeDir out fuel sk dstFd indent).states (kernel env) w,
      Plain env (pair S D) (fun a => (a, [])) t) :
    ∃ w', (mergeDir out fuel sk dstFd indent).run (kernel env) w = (some (), w') ∧
      NoLoss (w.fs.view S) (w.fs.view D) (w'.fs.view S) (w'.fs.view D) ∧
      ∀ i, w.fs.node i ≠ none → w.fs.isDir i = false → w'.fs.node i = w.fs.node i := by
  have R : Ready dev (pair S D) (fun a => (a, [])) .faulty [] S D sk dstFd w :=
    { trees := ⟨trees, ⟨fun a => rfl, fun hab _ => hab⟩, hS, hD⟩
      src := by
        obtain ⟨born, _, hfd, _⟩ := src
        exact ⟨born, [], hfd⟩
      dst := by
        rcases dst with ⟨k, born, seen, rfl, hfd⟩ | ⟨hneg, hcwd⟩
        · exact .opened hfd
        · exact .absent rfl hneg hcwd
      bound := bound
      mount := mount }
  have cautious : Cautious env (pair S D) (fun a => (a, []))
      fun t _ => Plain env (pair S D) (fun a => (a, [])) t :=
    cautious_of_plain fun _ _ h => h
  obtain ⟨_, w', hrun, merged⟩ := mergeDir_ensures (Mode.faulty_holds env) out indent R src
    (.inl cautious) (Forest.small trees false) hfuel
    fun t ht => plain t.1 (Prog.mem_states_of_mem_steps _ ht)
  refine ⟨w', hrun, merged.swept.noLoss hS hD, fun i hi hdir => ?_⟩
  exact merged.swept.kept.within.frame hi fun _ _ _ => hdir

section Sample

def sampleName (c : UInt8) (h : c ≠ 0 ∧ c ≠ 47 ∧ c ≠ 46) : Name :=
  ⟨[c], by simp, by simp, by simpa [eq_comm] using h.1, by simpa [eq_comm] using h.2.1,
    by simpa using h.2.2, by simp⟩

def nA : Name := sampleName 97 (by decide)
def nB : Name := sampleName 98 (by decide)
def nC : Name := sampleName 99 (by decide)

/-- The source `1` holds a file, a dangling link and a directory with a file; the
destination `5` holds another file and a directory of the same names. -/
def clashingTrees : FS := .ofList
  [(⟨1, 1⟩, .dir ⟨1, 1⟩ [(nA, ⟨1, 2⟩), (nB, ⟨1, 3⟩), (nC, ⟨1, 9⟩)]), (⟨1, 2⟩, .file [1]),
    (⟨1, 3⟩, .dir ⟨1, 1⟩ [(nA, ⟨1, 4⟩)]), (⟨1, 4⟩, .file [2]),
    (⟨1, 5⟩, .dir ⟨1, 5⟩ [(nA, ⟨1, 6⟩), (nB, ⟨1, 7⟩)]), (⟨1, 6⟩, .file [3]),
    (⟨1, 7⟩, .dir ⟨1, 5⟩ [(nC, ⟨1, 8⟩)]), (⟨1, 8⟩, .file [4]),
    (⟨1, 9⟩, .symlink ⟨false, [.name nC, .name nA]⟩)]

/-- Both trees open, nothing mounted. -/
def clashingWorld : World where
  fs := clashingTrees
  mount := none
  fds k := if k = 0 then some (.dir ⟨1, 1⟩ [.dot, .dotdot, .name nA, .name nB, .name nC] [])
    else if k = 1 then some (.dir ⟨1, 5⟩ [] []) else none
  nextFd := 2
  log := []
  tick := 0

/-- Every fifth call fails. -/
def everyFifthFails : Env where
  abi := .arm64
  ramRoot := ⟨0, 0⟩
  diskRoot := ⟨1, 0⟩
  choices :=
    { fault := fun t => if t % 5 = 4 then some .EBUSY else none
      leak := fun _ => true
      order := fun _ => [.name nC, .name nB, .dot, .name nA]
      chunk := fun _ => 1
      short := fun _ => none
      diskReady := fun _ => false
      direct := fun _ => true
      console := false }

/-- The two trees are apart, and stay without links to directories in all states of the run. -/
private theorem clashing_states : clashingTrees.Listed 3 1 (pair ⟨1, 1⟩ ⟨1, 5⟩) ∧
    clashingTrees.isDir ⟨1, 1⟩ = true ∧ clashingTrees.isDir ⟨1, 5⟩ = true ∧
    mergeBound clashingTrees 1 ≤ 110 ∧
    ∀ t ∈ (mergeDir 7 110 (0 : Nat) (1 : Nat) "").states (kernel everyFifthFails) clashingWorld,
      (∀ a, t.fs.Shallow 3 (pair ⟨1, 1⟩ ⟨1, 5⟩ a)) ∧
        ∀ a, ∀ x ∈ t.fs.places 3 (pair ⟨1, 1⟩ ⟨1, 5⟩ a),
          t.linksChecked everyFifthFails x.2 = true := by
  decide +kernel

/-- The failing `openat` of the link leaves it behind, with an empty directory at its
path in the destination. -/
theorem mergeDir_noLoss_clashing :
    ∃ w', (mergeDir 7 110 (0 : Nat) (1 : Nat) "").run (kernel everyFifthFails) clashingWorld =
        (some (), w') ∧
      NoLoss (clashingTrees.view ⟨1, 1⟩) (clashingTrees.view ⟨1, 5⟩) (w'.fs.view ⟨1, 1⟩)
        (w'.fs.view ⟨1, 5⟩) ∧
      ∀ i, clashingTrees.node i ≠ none → clashingTrees.isDir i = false →
        w'.fs.node i = clashingTrees.node i := by
  obtain ⟨hlisted, hsrc, hdst, hbound, hplain⟩ := clashing_states
  exact mergeDir_noLoss everyFifthFails 1 ⟨1, 1⟩ ⟨1, 5⟩ clashingWorld 0 (1 : Nat) 7 "" 110
    (.of_places hlisted) hsrc hdst ⟨_, _, rfl, rfl, by decide⟩ (.inl ⟨1, _, _, rfl, rfl⟩)
    (fun k hk => by
      have h0 : k ≠ 0 := fun h => by simp [h, clashingWorld] at hk
      have h1 : k ≠ 1 := fun h => by simp [h, clashingWorld] at hk
      simp [clashingWorld, h0, h1])
    (fun c t h => by cases h) hbound
    fun t ht => plain_of_checked 3 (hplain t ht).1 (hplain t ht).2

end Sample

end Hub11.Recovery
