import Hub11.Posix.Calls
import Hub11.Recovery.Overlay
import Hub11.Recovery.RescueInit

/-!
One directory record of `merge_dir`.

The two directories being merged sit at the same relative path of two trees, the
forest `top`. `mergeEntry_ensures` says that handling a record changes the two trees
below its name as `Entry` allows and nothing else, and leaves the open descriptors
as they were. The only assumption on symbolic links is the trace condition `Plain`:
no link of the two trees leads to a directory at any time. It is needed only where
`dirFlags` opens directories; on arm64 it opens files, and a merge from a file does nothing.
-/

namespace Hub11.Recovery

open Hub11.Effect Hub11.Posix

/-! ### Calls, prints and names -/

section Prints

variable {env : Env} {I : World → Syscall → Prop} {w : World} {out : Int} {text : Text}

theorem ensures_do {α : Type} {op : Syscall} {f : Int → Sys α} {Q : α → World → Prop}
    (h : I w op → Prog.Ensures (kernel env) I (f (kernel env w op).2.ret) (kernel env w op).1 Q) :
    Prog.Ensures (kernel env) I (call op >>= f) w Q :=
  Prog.ensures_call h

theorem ensures_print_last {Q : Unit → World → Prop} (h : ∀ w', Quiet w w' → Q () w') :
    Prog.Ensures (kernel env) I (print out text) w Q :=
  Prog.ensures_call fun _ => Prog.ensures_pure (h _ (kernel_puts env w out text))

theorem ensures_print {α : Type} {f : Unit → Sys α} {Q : α → World → Prop}
    (h : ∀ w', Quiet w w' → Prog.Ensures (kernel env) I (f ()) w' Q) :
    Prog.Ensures (kernel env) I (print out text >>= f) w Q :=
  Prog.Ensures.bind (ensures_print_last h)

/-- Texts printed to the console are in the log, in order. -/
theorem printAll_ensures (out : Int) (texts : List String) :
    Prog.Ensures (kernel env) I (printAll out texts) w fun _ w' => Quiet w w' ∧
      w'.tick = w.tick + texts.length ∧
      (env.choices.NoFaults → w.desc out = some .console →
        w'.log = w.log ++ texts.map Text.lit) := by
  induction texts generalizing w with
  | nil => exact Prog.ensures_pure ⟨Quiet.refl w, rfl, fun _ _ => by simp⟩
  | cons s texts ih =>
      have quiet := kernel_puts env w out (.lit s)
      apply Prog.Ensures.bind
      apply Prog.ensures_call
      intro _
      apply Prog.ensures_pure
      apply ih.mono
      rintro _ w' ⟨quiet', htick, hlog⟩
      refine ⟨quiet.trans quiet', ?_, fun hno hout => ?_⟩
      · rw [htick, kernel_tick, List.length_cons]
        omega
      · rw [hlog hno (by rw [World.desc_eq quiet.fds, hout]), kernel_puts_log env hno hout]
        simp

end Prints

/-- No entry of a directory is skipped for its name. -/
theorem name_not_special (n : Name) :
    (!strEq (dName (.name n)) (dName .dot) && !strEq (dName (.name n)) (dName .dotdot)) = true := by
  have hdot : strEq n.bytes [46] = false := by
    simpa [← strEq_iff] using n.valid.2.2.2.2.1
  have hdotdot : strEq n.bytes [46, 46] = false := by
    simpa [← strEq_iff] using n.valid.2.2.2.2.2
  simp [dName, hdot, hdotdot]

/-! ### Directory operations seen from the two trees -/

section Outcomes

variable {fs : FS} {dev : Nat} {s d : Ino} {n : Name}

theorem view_sub_root (fs : FS) (r : Ino) (n : Name) :
    fs.view r [n] = (fs.child r n).bind fs.obj := by
  cases hc : fs.child r n with
  | none => simp [FS.view, FS.descend_cons, hc]
  | some i => simp [FS.view, FS.descend_cons, hc]

theorem view_eq_one {i : Ino} (h : fs.isEmptyDir i = true) : fs.view i = View.one .dir := by
  have he := fs.isEmptyDir_iff.mp h
  refine View.ext_sub (fs.obj_eq_dir_iff.mpr (fs.isDir_iff.mpr ⟨_, he⟩)) fun n => ?_
  rw [View.sub_one]
  exact fs.view_sub_of_no_child (by rw [fs.child_of_entries he, dirGet_nil])

/-- A directory that is not empty has something in it. -/
theorem isEmptyDir_of_view {ι : Type} {root : ι → Ino} (F : Forest fs dev root) {a : ι}
    {p : List Name} {i : Ino} (hi : fs.descend (root a) p = some i)
    (h : fs.view i = View.one .dir) : fs.isEmptyDir i = true := by
  have hdir : fs.isDir i = true := fs.obj_eq_dir_iff.mp (congrFun h [])
  obtain ⟨es, he⟩ := fs.isDir_iff.mp hdir
  rw [fs.isEmptyDir_iff, he, ← dirGet_all_none_iff.mp fun n => ?_]
  rw [← fs.child_of_entries he]
  cases hc : fs.child i n with
  | none => rfl
  | some j =>
      have hj : fs.descend (root a) (p ++ [n]) = some j := by
        rw [FS.descend_append, hi]
        simp [FS.descend_cons, hc]
      have hnone : fs.view i [n] = none := congrFun h [n]
      rw [view_sub_root, hc] at hnone
      exact absurd (fs.obj_eq_none_iff.mp hnone) (F.live hj)

theorem occupied_of_ne_one {x : View} (hx : x.Closed) (hdir : x [] = some .dir)
    (hne : x ≠ View.one .dir) : Occupied x := by
  by_contra h
  refine hne (View.ext_sub hdir fun n => ?_)
  rw [View.sub_one]
  refine (hx.sub n).eq_empty ?_
  by_contra hn
  exact h ⟨n, hn⟩

/-- A search that finds `t` has followed names to it. -/
theorem descend_of_inside {k : Nat} {i t : Ino} (h : fs.inside k i t = true) :
    ∃ p, fs.descend i p = some t := by
  induction k generalizing i with
  | zero =>
      have : i = t := by simpa [FS.inside] using h
      exact ⟨[], by simp [this]⟩
  | succ k ih =>
      rw [FS.inside, Bool.or_eq_true] at h
      rcases h with h | h
      · have : i = t := by simpa using h
        exact ⟨[], by simp [this]⟩
      · split at h
        · rename_i es he
          obtain ⟨e, _, he'⟩ := List.any_eq_true.mp h
          cases hg : dirGet es e.1 with
          | none => simp [hg] at he'
          | some j =>
              rw [hg] at he'
              obtain ⟨p, hp⟩ := ih he'
              refine ⟨e.1 :: p, ?_⟩
              rw [FS.descend_cons_of_child fs (j := j)]
              · exact hp
              · rw [fs.child_of_entries he, hg]
        · cases h

/-- The three ways a rename between the two trees can end, with what it means for
the subtrees at the name. -/
theorem rename_outcome (F : Forest fs dev (pair s d)) (hs : fs.isDir s = true)
    (hd : fs.isDir d = true) {busy : Option Ino} (hbusy : ∀ i, busy = some i → i.dev ≠ dev)
    (n : Name) :
    (∃ e, fs.rename busy s n d n = .error e ∧ (fs.child s n = none ∨
      (fs.view s [n] = some .dir ∧ ∃ j, fs.view d [n] = some (.leaf j)) ∨
      (∃ i, fs.view s [n] = some (.leaf i) ∧ fs.view d [n] = some .dir) ∨
      (fs.view s [n] = some .dir ∧ fs.view d [n] = some .dir ∧
        (fs.view d).sub n ≠ View.one .dir))) ∨
    (fs.rename busy s n d n = .ok fs ∧
      ∃ i, fs.view s [n] = some (.leaf i) ∧ fs.view d [n] = some (.leaf i)) ∨
    ∃ i, fs.child s n = some i ∧
      fs.rename busy s n d n = .ok (fs.relink s n d n i (fs.child d n)) ∧
      Fits ((fs.view s).sub n) ((fs.view d).sub n) := by
  have hdev : s.dev = d.dev :=
    (F.onDev (a := false) (p := []) rfl).trans (F.onDev (a := true) (p := []) rfl).symm
  unfold FS.rename
  simp only [hs, hd, hdev, Bool.not_true, Bool.or_self, Bool.false_eq_true, if_false, ne_eq,
    not_true_eq_false]
  cases hi : fs.child s n with
  | none => exact .inl ⟨_, rfl, .inl rfl⟩
  | some i =>
      have hplace : fs.descend (pair s d false) [n] = some i := by
        simp [pair, FS.descend_cons, hi]
      have hvs : fs.view s [n] = fs.obj i := by rw [view_sub_root, hi]; rfl
      have hbusyi : busy ≠ some i := fun h => hbusy i h (F.onDev hplace)
      -- the destination is in the other tree, so a directory is never moved into itself
      have hinside : (fs.isDir i && fs.inside fs.next i d) = false := by
        by_contra h
        rw [Bool.not_eq_false, Bool.and_eq_true] at h
        obtain ⟨p, hp⟩ := descend_of_inside h.2
        have := (F.inj (a := false) (b := true) (p := n :: p) (q := []) (i := d)
          (by rw [pair, FS.descend_cons_of_child fs hi]; exact hp) rfl hd).1
        cases this
      cases hj : fs.child d n with
      | none =>
          refine .inr (.inr ⟨i, rfl, by simp [hinside, hbusyi], .inl ?_⟩)
          rw [View.sub_apply, view_sub_root, hj]
          rfl
      | some j =>
          have hplace' : fs.descend (pair s d true) [n] = some j := by
            simp [pair, FS.descend_cons, hj]
          have hvd : fs.view d [n] = fs.obj j := by rw [view_sub_root, hj]; rfl
          have hbusyj : busy ≠ some j := fun h => hbusy j h (F.onDev hplace')
          by_cases hij : i = j
          · subst hij
            refine .inr (.inl ⟨by simp, i, ?_⟩)
            rcases fs.obj_cases (F.live hplace) with hdir | hleaf
            · cases (F.inj hplace hplace' (fs.obj_eq_dir_iff.mp hdir)).1
            · exact ⟨hvs.trans hleaf, hvd.trans hleaf⟩
          · simp only [hij, if_false, hinside, Bool.false_eq_true]
            rcases fs.obj_cases (F.live hplace) with hidir | hileaf <;>
              rcases fs.obj_cases (F.live hplace') with hjdir | hjleaf
            · have h1 := fs.obj_eq_dir_iff.mp hidir
              have h2 := fs.obj_eq_dir_iff.mp hjdir
              by_cases hempty : fs.isEmptyDir j = true
              · refine .inr (.inr ⟨i, rfl, by simp [h1, h2, hempty, hbusyi, hbusyj],
                  .inr (.inr ⟨hvs.trans hidir, ?_⟩)⟩)
                rw [fs.view_sub_of_child hj]
                exact view_eq_one hempty
              · refine .inl ⟨.ENOTEMPTY, by simp [h1, h2, hempty, hbusyi, hbusyj],
                  .inr (.inr (.inr ⟨hvs.trans hidir, hvd.trans hjdir, fun hone => hempty ?_⟩))⟩
                rw [fs.view_sub_of_child hj] at hone
                exact isEmptyDir_of_view F hplace' hone
            · have h1 := fs.obj_eq_dir_iff.mp hidir
              have h2 : fs.isDir j = false := by
                simp [FS.isDir, fs.entries_eq_none_of_leaf hjleaf]
              exact .inl ⟨.ENOTDIR, by simp [h1, h2],
                .inr (.inl ⟨hvs.trans hidir, j, hvd.trans hjleaf⟩)⟩
            · have h1 : fs.isDir i = false := by
                simp [FS.isDir, fs.entries_eq_none_of_leaf hileaf]
              have h2 := fs.obj_eq_dir_iff.mp hjdir
              exact .inl ⟨.EISDIR, by simp [h1, h2],
                .inr (.inr (.inl ⟨i, hvs.trans hileaf, hvd.trans hjdir⟩))⟩
            · have h1 : fs.isDir i = false := by
                simp [FS.isDir, fs.entries_eq_none_of_leaf hileaf]
              have h2 : fs.isDir j = false := by
                simp [FS.isDir, fs.entries_eq_none_of_leaf hjleaf]
              exact .inr (.inr ⟨i, rfl, by simp [h1, h2, hbusyi, hbusyj],
                .inr (.inl ⟨i, j, hvs.trans hileaf, hvd.trans hjleaf, hij⟩)⟩)

/-- `mkdir` in the destination succeeds exactly where there is nothing, and then the two trees are
still disjoint. -/
theorem mkdir_outcome (F : Forest fs dev (pair s d)) (hs : fs.isDir s = true)
    (hd : fs.isDir d = true) (n : Name) :
    (∃ e, fs.mkdir d n = .error e ∧ fs.view d [n] ≠ none) ∨
    ∃ fs', fs.mkdir d n = .ok fs' ∧ fs.view d [n] = none ∧ fs'.view s = fs.view s ∧
      fs'.view d = (fs.view d).set n (View.one .dir) ∧ Kept fs fs' dev s d := by
  unfold FS.mkdir FS.create
  rw [if_pos hd]
  cases hc : fs.child d n with
  | some j =>
      refine .inl ⟨_, rfl, ?_⟩
      rw [view_sub_root, hc]
      have hj : fs.descend (pair s d true) [n] = some j := by
        simp [pair, FS.descend_cons, hc]
      simpa [fs.obj_eq_none_iff] using F.live hj
  | none =>
      have place : Place fs (pair s d) true [] d := ⟨rfl, hd⟩
      have hbare : Node.Bare (.dir d []) := rfl
      have hview := F.link_view place hbare (n := n)
      have hsrc : fs.view s = (fs.link d n (.dir d [])).view s :=
        (hview.2 false (by decide)).symm
      refine .inr ⟨_, rfl, ?_, hsrc.symm, ?_, F.link_forest place hbare,
        F.link_within place hbare, F.link_shrinks place hbare (a := false) (by decide), ?_, ?_⟩
      · rw [view_sub_root, hc]
        rfl
      · rw [← View.put_singleton]
        exact hview.1
      · rw [← FS.obj_eq_dir_iff, ← FS.view_nil, ← hsrc]
        exact fs.obj_eq_dir_iff.mpr hs
      · rw [← FS.obj_eq_dir_iff, ← FS.view_nil]
        refine (congrFun hview.1 []).trans ?_
        rw [View.put_of_not_below _ _ (by simp)]
        exact fs.obj_eq_dir_iff.mpr hd

/-- `rmdir` in the source succeeds exactly on an empty directory, and then only that directory is
gone. -/
theorem rmdir_outcome (F : Forest fs dev (pair s d)) (hs : fs.isDir s = true)
    (hd : fs.isDir d = true) (n : Name) {busy : Option Ino}
    (hbusy : ∀ i, busy = some i → i.dev ≠ dev) :
    (∃ e, fs.rmdir busy s n = .error e ∧ (fs.view s).sub n ≠ View.one .dir) ∨
    ∃ fs', fs.rmdir busy s n = .ok fs' ∧ (fs.view s).sub n = View.one .dir ∧
      fs'.view s = (fs.view s).set n View.empty ∧ fs'.view d = fs.view d ∧
      Kept fs fs' dev s d := by
  unfold FS.rmdir
  cases hc : fs.child s n with
  | none =>
      refine .inl ⟨_, rfl, fun h => ?_⟩
      rw [fs.view_sub_of_no_child hc] at h
      cases congrFun h []
  | some i =>
      have hi : fs.descend (pair s d false) [n] = some i := by
        simp [pair, FS.descend_cons, hc]
      have hnb : busy ≠ some i := fun h => hbusy i h (F.onDev hi)
      rw [fs.view_sub_of_child hc]
      by_cases hdir : fs.isDir i = true
      · by_cases hempty : fs.isEmptyDir i = true
        · have place : Place fs (pair s d) false [] s := ⟨rfl, hs⟩
          have hview := F.remove_view place hc fun _ : true = true => hempty
          refine .inr ⟨fs.remove s n i true, by simp [hdir, hnb, hempty, FS.remove],
            view_eq_one hempty, ?_, hview.2 true (by decide),
            F.remove_forest place hc fun _ => hempty, F.remove_within place hc fun _ => hempty,
            F.remove_shrinks place hc (fun _ => hempty) false, ?_, ?_⟩
          · rw [← View.put_singleton]
            exact hview.1
          · rw [← FS.obj_eq_dir_iff, ← FS.view_nil]
            refine (congrFun hview.1 []).trans ?_
            rw [View.put_of_not_below _ _ (by simp)]
            exact fs.obj_eq_dir_iff.mpr hs
          · rw [← FS.obj_eq_dir_iff, ← FS.view_nil]
            exact (congrFun (hview.2 true (by decide)) []).trans (fs.obj_eq_dir_iff.mpr hd)
        · exact .inl ⟨.ENOTEMPTY, by simp [hdir, hnb, hempty],
            fun h => hempty (isEmptyDir_of_view F hi h)⟩
      · refine .inl ⟨.ENOTDIR, by simp [hdir], fun h => hdir ?_⟩
        exact fs.obj_eq_dir_iff.mp (congrFun h [])

end Outcomes

/-! ### The state of a merge -/

/-- No link below the two places leads to a directory. Then `openat` of a name of either tree stays
in the tree. -/
def Plain {ι : Type} (env : Env) (top : ι → Ino) (loc : Bool → ι × List Name) (w : World) : Prop :=
  ∀ a p k, w.fs.descend (top (loc a).1) ((loc a).2 ++ p) = some k → ∀ n, w.LinkAvoidsDirs env k n

/-- Whenever a step that satisfies `I` opens a name below the two places, it does not open a
directory through a link. Where no directory can be opened nothing is asked. -/
def Cautious {ι : Type} (env : Env) (top : ι → Ino) (loc : Bool → ι × List Name)
    (I : World → Syscall → Prop) : Prop :=
  env.abi = .generic → ∀ w k born seen i n, I w (.openat (k : Nat) (.ofName n) dirFlags) →
    w.fds k = some (.dir i born seen) →
    (∃ a p, w.fs.descend (top (loc a).1) ((loc a).2 ++ p) = some i) → w.LinkAvoidsDirs env i n

theorem cautious_of_plain {ι : Type} {env : Env} {top : ι → Ino} {loc : Bool → ι × List Name}
    {I : World → Syscall → Prop} (h : ∀ w op, I w op → Plain env top loc w) :
    Cautious env top loc I := by
  intro _ w k born seen i n hI _ hplace
  obtain ⟨a, p, hp⟩ := hplace
  exact h w _ hI a p i hp n

/-- `s` and `d` are the directories at the same path `q` below two places of a forest. -/
structure At {ι : Type} (fs : FS) (dev : Nat) (top : ι → Ino) (loc : Bool → ι × List Name)
    (q : List Name) (s d : Ino) : Prop where
  forest : Forest fs dev top
  embeds : Embeds fs top (pair s d) fun a => ((loc a).1, (loc a).2 ++ q)
  srcDir : fs.isDir s = true
  dstDir : fs.isDir d = true

namespace At

variable {ι : Type} {fs fs' : FS} {dev : Nat} {top : ι → Ino} {loc : Bool → ι × List Name}
  {q : List Name} {s d : Ino}

theorem pair_forest (h : At fs dev top loc q s d) : Forest fs dev (pair s d) :=
  h.embeds.forest h.forest

theorem step (h : At fs dev top loc q s d) (kept : Kept fs fs' dev s d) :
    At fs' dev top loc q s d where
  forest := h.embeds.lift_forest h.forest kept.within kept.forest
  embeds := h.embeds.keep h.forest kept.within
  srcDir := kept.srcDir
  dstDir := kept.dstDir

theorem sub (h : At fs dev top loc q s d) {n : Name} {s' d' : Ino} (hs : fs.child s n = some s')
    (hd : fs.child d n = some d') (hs' : fs.isDir s' = true) (hd' : fs.isDir d' = true) :
    At fs dev top loc (q ++ [n]) s' d' where
  forest := h.forest
  embeds :=
    { located := by
        intro a
        rw [← List.append_assoc, h.embeds.descend_append a [n]]
        cases a with
        | false => simp [pair, FS.descend_cons, hs]
        | true => simp [pair, FS.descend_cons, hd]
      apart := by
        intro a b hab hpre
        have ha : (loc a).2 ++ q <+: (loc b).2 ++ (q ++ [n]) :=
          List.IsPrefix.trans (by rw [← List.append_assoc]; exact List.prefix_append _ _) hpre
        have hb : (loc b).2 ++ q <+: (loc b).2 ++ (q ++ [n]) := by
          rw [← List.append_assoc]
          exact List.prefix_append _ _
        rcases List.prefix_or_prefix_of_prefix ha hb with h' | h'
        · exact h.embeds.apart hab h'
        · exact (h.embeds.apart hab.symm h').symm }
  srcDir := hs'
  dstDir := hd'

theorem links {w : World} {env : Env} {I : World → Syscall → Prop} (h : At w.fs dev top loc q s d)
    (cautious : Cautious env top loc I) (habi : env.abi = .generic) {a : Bool} {k : Nat}
    {born seen : List Comp} (hk : w.fds k = some (.dir (pair s d a) born seen)) {n : Name}
    (hI : I w (.openat k (.ofName n) dirFlags)) : w.LinkAvoidsDirs env (pair s d a) n :=
  cautious habi w k born seen _ n hI hk ⟨a, q, h.embeds.located a⟩

end At

/-- What a mode says of the machine. Whether the flags of the source open a directory is
a matter of the architecture. -/
structure Mode.Holds (m : Mode) (env : Env) : Prop where
  noFaults : m ≠ .faulty → env.choices.NoFaults
  opens : m = .exact → env.abi = .generic
  refuses : m = .flat → env.abi = .arm64

theorem Mode.faulty_holds (env : Env) : Mode.faulty.Holds env :=
  ⟨fun h => absurd rfl h, by simp, by simp⟩

theorem Mode.exact_holds {env : Env} (hno : env.choices.NoFaults) (habi : env.abi = .generic) :
    Mode.exact.Holds env :=
  ⟨fun _ => hno, fun _ => habi, by simp⟩

theorem Mode.flat_holds {env : Env} (hno : env.choices.NoFaults) (habi : env.abi = .arm64) :
    Mode.flat.Holds env :=
  ⟨fun _ => hno, by simp, fun _ => habi⟩

/-- The descriptor a merge writes to: open on `d`, or a failed `openat` passed on, as `_start` does
not check what it got for `/mnt/usr/lib`. -/
inductive Target (m : Mode) (w : World) (d : Ino) : Int → Prop where
  | opened {k : Nat} {born seen : List Comp} (h : w.fds k = some (.dir d born seen)) : Target m w d k
  | absent {fd : Int} (hm : m = .faulty) (hneg : fd < 0) (hcwd : fd ≠ AT_FDCWD) : Target m w d fd

/-- The tree at `s` has at most `h` levels of directories below it, with at most `B`
entries each. -/
structure Small (h B : Nat) (fs : FS) (s : Ino) : Prop where
  depth : ∀ p k, fs.descend s p = some k → fs.isDir k = true → p.length ≤ h
  width : ∀ p k es, fs.descend s p = some k → fs.entries k = some es → es.length ≤ B

namespace Small

variable {h B : Nat} {fs fs' : FS} {s s' : Ino}

theorem mono (hs : Small h B fs s) (hsh : Shrinks fs fs' s) : Small h B fs' s where
  depth := by
    intro p k hk hdir
    obtain ⟨es', he'⟩ := fs'.isDir_iff.mp hdir
    obtain ⟨hk', hes⟩ := hsh p k hk
    obtain ⟨es, he, _⟩ := hes es' he'
    exact hs.depth p k hk' (fs.isDir_iff.mpr ⟨es, he⟩)
  width := by
    intro p k es' hk he'
    obtain ⟨hk', hes⟩ := hsh p k hk
    obtain ⟨es, he, hle⟩ := hes es' he'
    exact Nat.le_trans hle (hs.width p k es hk' he)

theorem sub (hs : Small h B fs s) {n : Name} (hc : fs.child s n = some s')
    (hdir : fs.isDir s' = true) : ∃ h', h = h' + 1 ∧ Small h' B fs s' := by
  have hdown : ∀ p, fs.descend s (n :: p) = fs.descend s' p := fs.descend_cons_of_child hc
  have hpos : 1 ≤ h := by simpa using hs.depth [n] s' (by rw [hdown]; rfl) hdir
  obtain ⟨h', rfl⟩ : ∃ h', h = h' + 1 := ⟨h - 1, by omega⟩
  refine ⟨h', rfl, fun p k hk hd => ?_, fun p k es hk he => ?_⟩
  · have := hs.depth (n :: p) k (by rw [hdown]; exact hk) hd
    simpa using this
  · exact hs.width (n :: p) k es (by rw [hdown]; exact hk) he

end Small

/-- What a merge needs to start: the two trees in place, the source open, and no
mount point in the way. -/
structure Ready {ι : Type} (dev : Nat) (top : ι → Ino) (loc : Bool → ι × List Name) (m : Mode)
    (q : List Name) (s d : Ino) (sk : Nat) (dstFd : Int) (w : World) : Prop where
  trees : At w.fs dev top loc q s d
  src : ∃ born seen, w.fds sk = some (.dir s born seen)
  dst : Target m w d dstFd
  bound : ∀ k, w.nextFd ≤ k → w.fds k = none
  mount : ∀ c t, w.mount = some (c, t) → c.dev ≠ dev

/-- The descriptors of `w` are still open in `w'`, and no others unless a `close`
leaked one. -/
structure Balanced (env : Env) (w w' : World) : Prop where
  below : ∀ k, k < w.nextFd → w'.fds k = w.fds k
  bound : ∀ k, w'.nextFd ≤ k → w'.fds k = none
  closed : env.choices.NoLeaks → w'.fds = w.fds

namespace Balanced

variable {env : Env} {w w' w'' : World}

theorem of_eq (env : Env) (hfds : w'.fds = w.fds) (hnext : w.nextFd ≤ w'.nextFd)
    (hbound : ∀ k, w.nextFd ≤ k → w.fds k = none) : Balanced env w w' :=
  ⟨fun _ _ => by rw [hfds], fun k hk => by rw [hfds]; exact hbound k (Nat.le_trans hnext hk),
    fun _ => hfds⟩

theorem trans (h : Balanced env w w') (h' : Balanced env w' w'') (hnext : w.nextFd ≤ w'.nextFd) :
    Balanced env w w'' where
  below k hk := (h'.below k (Nat.lt_of_lt_of_le hk hnext)).trans (h.below k hk)
  bound := h'.bound
  closed hno := (h'.closed hno).trans (h.closed hno)

theorem of_eq_left (hfds : w'.fds = w.fds) (hnext : w'.nextFd = w.nextFd)
    (h : Balanced env w' w'') : Balanced env w w'' where
  below k hk := (h.below k (hnext ▸ hk)).trans (by rw [hfds])
  bound := h.bound
  closed hno := (h.closed hno).trans hfds

theorem quiet_left (q : Quiet w w') (h : Balanced env w' w'') : Balanced env w w'' :=
  h.of_eq_left q.fds q.nextFd

theorem setDesc (h : Balanced env w w') {k : Nat} (hk : k < w.nextFd) (hnext : w.nextFd ≤ w'.nextFd)
    (desc : Option Desc) : Balanced env (w.setDesc k desc) (w'.setDesc k desc) where
  below j hj := by
    by_cases hjk : j = k
    · rw [hjk, w.setDesc_fds_self, w'.setDesc_fds_self]
    · rw [w.setDesc_fds_of_ne hjk, w'.setDesc_fds_of_ne hjk]
      exact h.below j hj
  bound j hj := by
    have hj' : w'.nextFd ≤ j := hj
    rw [w'.setDesc_fds_of_ne (by omega)]
    exact h.bound j hj'
  closed hno := by
    funext j
    by_cases hjk : j = k
    · rw [hjk, w.setDesc_fds_self, w'.setDesc_fds_self]
    · rw [w.setDesc_fds_of_ne hjk, w'.setDesc_fds_of_ne hjk, h.closed hno]

theorem quiet_right (h : Balanced env w w') (q : Quiet w' w'') : Balanced env w w'' where
  below k hk := by
    rw [q.fds]
    exact h.below k hk
  bound := by
    rw [q.fds, q.nextFd]
    exact h.bound
  closed hno := q.fds.trans (h.closed hno)

end Balanced

/-- The names in `P` were handled one by one, and nothing else happened to the trees. This is the
loop invariant of `merge_dir`, with `P` the names listed so far. -/
structure Swept (m : Mode) (dev : Nat) (s d : Ino) (P : Name → Prop) (w w' : World) : Prop where
  kept : Kept w.fs w'.fs dev s d
  nextFd : w.nextFd ≤ w'.nextFd
  mount : w'.mount = w.mount
  done : ∀ n, P n → Entry m ((w.fs.view s).sub n) ((w.fs.view d).sub n)
    ((w'.fs.view s).sub n) ((w'.fs.view d).sub n)
  rest : ∀ n, ¬ P n →
    (w'.fs.view s).sub n = (w.fs.view s).sub n ∧ (w'.fs.view d).sub n = (w.fs.view d).sub n

namespace Swept

variable {m : Mode} {dev : Nat} {s d : Ino} {w w' w'' : World} {P Q : Name → Prop}

theorem of_quiet (F : Forest w.fs dev (pair s d)) (hs : w.fs.isDir s = true)
    (hd : w.fs.isDir d = true) (hfs : w'.fs = w.fs) (hnext : w.nextFd ≤ w'.nextFd)
    (hmount : w'.mount = w.mount) (hP : ∀ n, ¬ P n) : Swept m dev s d P w w' where
  kept := by
    rw [hfs]
    exact Kept.refl F hs hd
  nextFd := hnext
  mount := hmount
  done n hn := absurd hn (hP n)
  rest n _ := by simp [hfs]

/-- Two sweeps over different names. -/
theorem trans (h : Swept m dev s d P w w') (h' : Swept m dev s d Q w' w'')
    (hPQ : ∀ n, P n → ¬ Q n) : Swept m dev s d (fun n => P n ∨ Q n) w w'' where
  kept := h.kept.trans h'.kept
  nextFd := Nat.le_trans h.nextFd h'.nextFd
  mount := h'.mount.trans h.mount
  done := by
    rintro n (hp | hq)
    · rw [(h'.rest n (hPQ n hp)).1, (h'.rest n (hPQ n hp)).2]
      exact h.done n hp
    · have hp : ¬ P n := fun hp => hPQ n hp hq
      rw [← (h.rest n hp).1, ← (h.rest n hp).2]
      exact h'.done n hq
  rest := by
    intro n hn
    rw [not_or] at hn
    exact ⟨(h'.rest n hn.2).1.trans (h.rest n hn.1).1, (h'.rest n hn.2).2.trans (h.rest n hn.1).2⟩

theorem quiet (h : Swept m dev s d P w w') (q : Quiet w' w'') : Swept m dev s d P w w'' where
  kept := q.fs ▸ h.kept
  nextFd := q.nextFd ▸ h.nextFd
  mount := q.mount.trans h.mount
  done := q.fs ▸ h.done
  rest := q.fs ▸ h.rest

/-- Only the file system, the mount and the descriptor count of the first state matter. -/
theorem of_eq_left (hfs : w'.fs = w.fs) (hnext : w'.nextFd = w.nextFd) (hmount : w'.mount = w.mount)
    (h : Swept m dev s d P w' w'') : Swept m dev s d P w w'' where
  kept := hfs ▸ h.kept
  nextFd := hnext ▸ h.nextFd
  mount := h.mount.trans hmount
  done := hfs ▸ h.done
  rest := hfs ▸ h.rest

theorem of_quiet_left (q : Quiet w w') (h : Swept m dev s d P w' w'') : Swept m dev s d P w w'' :=
  h.of_eq_left q.fs q.nextFd q.mount

theorem congr (h : Swept m dev s d P w w') (hPQ : ∀ n, P n ↔ Q n) : Swept m dev s d Q w w' :=
  (funext fun n => propext (hPQ n) : P = Q) ▸ h

end Swept

/-! ### The calls of one record -/

/-- From `w₀` to `w` the two trees changed only below `n`, to `x` and `y`. The calls of one record
are stages of this kind one after the other. -/
structure Stage (dev : Nat) (s d : Ino) (n : Name) (x y : View) (w₀ w : World) : Prop where
  kept : Kept w₀.fs w.fs dev s d
  mount : w.mount = w₀.mount
  nextFd : w₀.nextFd ≤ w.nextFd
  src : w.fs.view s = (w₀.fs.view s).set n x
  dst : w.fs.view d = (w₀.fs.view d).set n y

namespace Stage

variable {m : Mode} {dev : Nat} {s d : Ino} {n : Name} {x y x' y' : View} {w₀ w w' : World}

theorem src_sub (h : Stage dev s d n x y w₀ w) : (w.fs.view s).sub n = x := by
  rw [h.src, View.sub_set_self]

theorem dst_sub (h : Stage dev s d n x y w₀ w) : (w.fs.view d).sub n = y := by
  rw [h.dst, View.sub_set_self]

theorem refl (F : Forest w.fs dev (pair s d)) (hs : w.fs.isDir s = true)
    (hd : w.fs.isDir d = true) (n : Name) :
    Stage dev s d n ((w.fs.view s).sub n) ((w.fs.view d).sub n) w w where
  kept := Kept.refl F hs hd
  mount := rfl
  nextFd := Nat.le_refl _
  src := (View.set_sub _ n).symm
  dst := (View.set_sub _ n).symm

theorem trans (h : Stage dev s d n x y w₀ w) (h' : Stage dev s d n x' y' w w') :
    Stage dev s d n x' y' w₀ w' where
  kept := h.kept.trans h'.kept
  mount := h'.mount.trans h.mount
  nextFd := Nat.le_trans h.nextFd h'.nextFd
  src := by rw [h'.src, h.src, View.set_set]
  dst := by rw [h'.dst, h.dst, View.set_set]

/-- A call that leaves the file system alone. -/
theorem same (h : Stage dev s d n x y w₀ w) (hfs : w'.fs = w.fs) (hnext : w.nextFd ≤ w'.nextFd)
    (hmount : w'.mount = w.mount) : Stage dev s d n x y w₀ w' where
  kept := hfs ▸ h.kept
  mount := hmount.trans h.mount
  nextFd := Nat.le_trans h.nextFd hnext
  src := hfs ▸ h.src
  dst := hfs ▸ h.dst

theorem swept (h : Stage dev s d n x y w₀ w)
    (entry : Entry m ((w₀.fs.view s).sub n) ((w₀.fs.view d).sub n) x y) :
    Swept m dev s d (fun n' => n' = n) w₀ w where
  kept := h.kept
  nextFd := h.nextFd
  mount := h.mount
  done := by
    rintro n' rfl
    rw [h.src_sub, h.dst_sub]
    exact entry
  rest n' hn' := by
    rw [h.src, h.dst, View.sub_set_of_ne _ _ hn', View.sub_set_of_ne _ _ hn']
    exact ⟨rfl, rfl⟩

end Stage

section Record

variable {ι : Type} {env : Env} {dev : Nat} {top : ι → Ino} {loc : Bool → ι × List Name} {m : Mode}
  {q : List Name} {s d : Ino} {sk : Nat} {dstFd : Int} {w : World}

theorem Ready.forest (R : Ready dev top loc m q s d sk dstFd w) : Forest w.fs dev (pair s d) :=
  R.trees.pair_forest

/-- Nothing of the two trees is a mount point. -/
theorem Ready.cross (R : Ready dev top loc m q s d sk dstFd w) {a : Bool} {p : List Name} {i : Ino}
    (hi : w.fs.descend (pair s d a) p = some i) : (w.space env).cross i = i := by
  unfold Space.cross World.space
  cases hm : w.mount with
  | none => rfl
  | some ct =>
      have hne : i ≠ ct.1 := fun h => R.mount ct.1 ct.2 hm (h ▸ R.forest.onDev hi)
      simp [hne]

theorem Ready.not_busy (env : Env) (R : Ready dev top loc m q s d sk dstFd w) :
    ∀ i, (w.space env).busy = some i → i.dev ≠ dev := by
  intro i hi
  cases hm : w.mount with
  | none => simp [World.space, Space.busy, hm] at hi
  | some ct =>
      simp only [World.space, Space.busy, hm, Option.map_some, Option.some.injEq] at hi
      exact hi ▸ R.mount ct.1 ct.2 hm

/-- What is in the way when a rename without injected failures does not go through. -/
def Clash (x y : View) : Prop :=
  x [] = none ∨ (x [] = some .dir ∧ ∃ j, y [] = some (.leaf j)) ∨
    (∃ i, x [] = some (.leaf i) ∧ y [] = some .dir) ∨
    (x [] = some .dir ∧ y [] = some .dir ∧ y ≠ View.one .dir)

theorem Clash.not_fits {x y : View} (h : Clash x y) (hx : x [] ≠ none) : ¬ Fits x y := by
  rintro (hnone | ⟨i, j, hxi, hyj, _⟩ | ⟨hxd, hone⟩)
  · rcases h with h | ⟨_, j, h⟩ | ⟨i, _, h⟩ | ⟨_, h, _⟩ <;> simp_all
  · rcases h with h | ⟨h, _⟩ | ⟨i, _, h⟩ | ⟨h, _⟩ <;> simp_all
  · rcases h with h | ⟨_, j, h⟩ | ⟨i, h, _⟩ | ⟨_, _, h⟩ <;> simp_all

/-- The `renameat` of a record moves the tree below its name, or leaves everything as it is. Without
injected failures it fails only at a clash. -/
theorem rename_step (R : Ready dev top loc m q s d sk dstFd w) (hm : m.Holds env) (n : Name) :
    ((kernel env w (.renameat sk (.ofName n) dstFd (.ofName n))).2.ret = 0 ∧
      Swept m dev s d (fun n' => n' = n) w
        (kernel env w (.renameat sk (.ofName n) dstFd (.ofName n))).1 ∧
      (kernel env w (.renameat sk (.ofName n) dstFd (.ofName n))).1.fds = w.fds) ∨
    ((kernel env w (.renameat sk (.ofName n) dstFd (.ofName n))).2.ret ≠ 0 ∧
      Quiet w (kernel env w (.renameat sk (.ofName n) dstFd (.ofName n))).1 ∧
      (m ≠ .faulty → Clash ((w.fs.view s).sub n) ((w.fs.view d).sub n))) := by
  obtain ⟨born, seen, hsrc⟩ := R.src
  cases R.dst with
  | absent hfaulty hneg hcwd =>
      have := kernel_renameat_negative env hsrc hneg hcwd n
      exact .inr ⟨by omega, this.2, fun h => absurd hfaulty h⟩
  | @opened k b sn hdst =>
      rcases kernel_renameat env hsrc hdst n with
        ⟨hret, fs', hok, hch⟩ | ⟨hret, hquiet, herr⟩
      · refine .inl ⟨hret, ?_, hch.fds⟩
        rcases rename_outcome R.forest R.trees.srcDir R.trees.dstDir (R.not_busy env) n with
          ⟨e, he, _⟩ | ⟨hsame, i, hx, hy⟩ | ⟨i, hi, hmoved, hfits⟩
        · rw [he] at hok
          cases hok
        · -- two names of one inode: nothing moves
          have hfs : w.fs = fs' := by simpa [hsame] using hok
          have stage := (Stage.refl R.forest R.trees.srcDir R.trees.dstDir n).same
            (hch.fs.trans hfs.symm) (Nat.le_of_eq hch.nextFd.symm) hch.mount
          refine stage.swept (.keep (fun _ => .inr (.inl ⟨i, hx, .inr hy⟩)) fun _ => .inr ⟨?_, ?_⟩)
          · rintro (hnone | ⟨_, _, hi, hj, hne⟩ | ⟨hxd, _⟩)
            · simp [View.sub_apply, hy] at hnone
            · rw [View.sub_apply, hx] at hi
              rw [View.sub_apply, hy, hi] at hj
              simp_all
            · simp [View.sub_apply, hx] at hxd
          · intro hone
            have hroot := congrFun hone []
            simp [View.sub_apply, hx] at hroot
        · have hfs : w.fs.relink s n d n i (w.fs.child d n) = fs' := by simpa [hmoved] using hok
          obtain ⟨hvs, hvd, hkept⟩ := relink_spec R.forest R.trees.srcDir R.trees.dstDir hi
          have stage : Stage dev s d n View.empty ((w.fs.view s).sub n) w _ :=
            ⟨by rw [hch.fs, ← hfs]; exact hkept, hch.mount, Nat.le_of_eq hch.nextFd.symm,
              by rw [hch.fs, ← hfs]; exact hvs, by rw [hch.fs, ← hfs]; exact hvd⟩
          refine stage.swept (.move ?_ hfits)
          have hplace : w.fs.descend (pair s d false) [n] = some i := by
            simp [pair, FS.descend_cons, hi]
          rw [View.sub_apply, view_sub_root, hi]
          simpa [FS.obj_eq_none_iff] using R.forest.live hplace
      · refine .inr ⟨by omega, hquiet, fun hne => ?_⟩
        obtain ⟨e, he⟩ := herr (hm.noFaults hne)
        rcases rename_outcome R.forest R.trees.srcDir R.trees.dstDir (R.not_busy env) n with
          ⟨e', _, hclash⟩ | ⟨hok, _⟩ | ⟨i, _, hok, _⟩
        · rcases hclash with hnone | hrest
          · refine .inl ?_
            rw [View.sub_apply, view_sub_root, hnone]
            rfl
          · exact .inr hrest
        · rw [he] at hok
          cases hok
        · rw [he] at hok
          cases hok

/-- A stream that still has to return everything in directory `s` but what is in `seen`. It may
return names that are gone by now. -/
def Stream (w : World) (k : Nat) (s : Ino) (seen : List Comp) : Prop :=
  ∃ born es, w.fds k = some (.dir s born seen) ∧ w.fs.entries s = some es ∧
    ∀ c ∈ listing es, c ∈ born

/-- A file was opened, as `O_DIRECT` allows. -/
def FileOpened (env : Env) (w w' : World) (ret : Int) : Prop :=
  env.abi = .arm64 ∧ ∃ (k : Nat) (i : Ino), ret = k ∧ w.nextFd ≤ k ∧ w'.fds k = some (.file i 0)

/-- After the two `openat` and the `mkdirat` of a record: what was made, and what the two
descriptors are open on. There are two ways to be open, as the number in the flags may mean
`O_DIRECT`. -/
structure Opens (env : Env) (m : Mode) (dev : Nat) (s d : Ino) (n : Name) (w w' : World)
    (subSrc subDst : Int) (y : View) : Prop where
  stage : Stage dev s d n ((w.fs.view s).sub n) y w w'
  made : y = (w.fs.view d).sub n ∨
    (m = .faulty ∧ (w.fs.view d).sub n [] = none ∧ y = View.one .dir)
  fds : ∀ k : Nat, (k : Int) ≠ subSrc → (k : Int) ≠ subDst → w'.fds k = w.fds k
  bound : ∀ k, w'.nextFd ≤ k → w'.fds k = none
  src : (subSrc < 0 ∧ (m = .exact → (w.fs.view s).sub n [] ≠ some .dir)) ∨
    FileOpened env w w' subSrc ∨
    ∃ k s', env.abi = .generic ∧ subSrc = (k : Nat) ∧ w.nextFd ≤ k ∧ w'.fs.child s n = some s' ∧
      w'.fs.isDir s' = true ∧ Stream w' k s' []
  dst : (subDst < 0 ∧ (m = .exact → y [] ≠ some .dir)) ∨
    FileOpened env w w' subDst ∨
    ∃ k d' born seen, env.abi = .generic ∧ subDst = (k : Nat) ∧ w.nextFd ≤ k ∧
      w'.fs.child d n = some d' ∧ w'.fs.isDir d' = true ∧
      w'.fds k = some (.dir d' born seen)

theorem Ready.src_lt (R : Ready dev top loc m q s d sk dstFd w) : sk < w.nextFd := by
  obtain ⟨born, seen, hsrc⟩ := R.src
  by_contra h
  rw [R.bound sk (by omega)] at hsrc
  cases hsrc

/-- A merge stays ready while only its own trees change and its descriptors stay open. So the next
record finds what the last one found. -/
theorem Ready.of_kept {w' : World} (R : Ready dev top loc m q s d sk dstFd w)
    (kept : Kept w.fs w'.fs dev s d) (hmount : w'.mount = w.mount)
    (hfds : ∀ k, k < w.nextFd → w'.fds k = w.fds k) (hbound : ∀ k, w'.nextFd ≤ k → w'.fds k = none) :
    Ready dev top loc m q s d sk dstFd w' where
  trees := R.trees.step kept
  src := by
    obtain ⟨born, seen, hsrc⟩ := R.src
    exact ⟨born, seen, (hfds sk R.src_lt).trans hsrc⟩
  dst := by
    cases R.dst with
    | absent hfaulty hneg hcwd => exact .absent hfaulty hneg hcwd
    | @opened k born seen hdst =>
        refine .opened ((hfds k ?_).trans hdst)
        by_contra h
        rw [R.bound k (by omega)] at hdst
        cases hdst
  bound := hbound
  mount c t hct := R.mount c t (hmount ▸ hct)

/-- Moving the source's stream forward. -/
theorem Ready.advance {w' : World} {born seen : List Comp}
    (R : Ready dev top loc m q s d sk dstFd w) (hfs : w'.fs = w.fs) (hmount : w'.mount = w.mount)
    (hnext : w'.nextFd = w.nextFd)
    (hfds : w'.fds = (w.setDesc sk (some (.dir s born seen))).fds) :
    Ready dev top loc m q s d sk dstFd w' where
  trees := hfs ▸ R.trees
  src := ⟨born, seen, by rw [hfds]; exact w.setDesc_fds_self sk _⟩
  dst := by
    cases R.dst with
    | absent hfaulty hneg hcwd => exact .absent hfaulty hneg hcwd
    | @opened k b sn hdst =>
        have hk : k ≠ sk := by
          rintro rfl
          obtain ⟨_, _, hsrc⟩ := R.src
          rw [hsrc] at hdst
          cases hdst
          exact R.forest.roots_ne R.trees.srcDir rfl
        have hsame : w'.fds k = w.fds k := by
          rw [hfds]
          exact w.setDesc_fds_of_ne hk _
        exact .opened (hsame.trans hdst)
  bound := by
    intro k hk
    have hlt := R.src_lt
    rw [hfds]
    exact (w.setDesc_fds_of_ne (by omega) _).trans (R.bound k (hnext ▸ hk))
  mount c t hct := R.mount c t (hmount ▸ hct)

theorem Ready.of_swept {w' : World} {P : Name → Prop} (R : Ready dev top loc m q s d sk dstFd w)
    (hswept : Swept m dev s d P w w') (hfds : Balanced env w w') :
    Ready dev top loc m q s d sk dstFd w' :=
  R.of_kept hswept.kept hswept.mount hfds.below hfds.bound

theorem Ready.of_quiet {w' : World} (R : Ready dev top loc m q s d sk dstFd w) (h : Quiet w w') :
    Ready dev top loc m q s d sk dstFd w' :=
  R.of_kept (by rw [h.fs]; exact Kept.refl R.forest R.trees.srcDir R.trees.dstDir) h.mount
    (fun k _ => by rw [h.fds]) (by rw [h.fds, h.nextFd]; exact R.bound)

/-- The state after the `openat` of a subdirectory: nothing is opened, or a file where there
may be none but files, or the subdirectory is. -/
def SubOpened (env : Env) (m : Mode) (w w' : World) (i : Ino) (n : Name) (ret : Int) : Prop :=
  (ret < 0 ∧ Quiet w w' ∧ (m = .exact → (w.fs.view i).sub n [] ≠ some .dir)) ∨
    (∃ j, env.abi = .arm64 ∧ ret = w.nextFd ∧ Opened w w' (.file j 0)) ∨
    ∃ j es, env.abi = .generic ∧ w.fs.child i n = some j ∧ w.fs.entries j = some es ∧
      ret = w.nextFd ∧ Opened w w' (.dir j (listing es) [])

private theorem subOpened_of_open {a : Bool} {k : Nat} {born seen : List Comp}
    (R : Ready dev top loc m q s d sk dstFd w) (hm : m.Holds env)
    (hk : w.fds k = some (.dir (pair s d a) born seen)) {n : Name}
    (hlink : env.abi = .generic → w.LinkAvoidsDirs env (pair s d a) n) :
    SubOpened env m w (kernel env w (.openat k (.ofName n) dirFlags)).1 (pair s d a) n
      (kernel env w (.openat k (.ofName n) dirFlags)).2.ret := by
  have hcross : ∀ j, w.fs.child (pair s d a) n = some j → (w.space env).cross j = j := by
    intro j hj
    exact R.cross (a := a) (p := [n]) (by simp [FS.descend_cons, hj])
  rcases kernel_openat_subdir env (mode_dirFlags_ne_creat env.abi) hk n hcross
      (fun h => hlink (abi_of_not_direct h)) with
    ⟨hret, hquiet, hno⟩ | ⟨j, hfile, hret, hopen⟩ | ⟨j, es, hdir, hopen⟩
  · refine .inl ⟨hret, hquiet, fun hexact hdir => ?_⟩
    rw [View.sub_apply, view_sub_root] at hdir
    obtain ⟨j, hj, hjdir⟩ := Option.bind_eq_some_iff.mp hdir
    have := hno (hm.noFaults (by simp [hexact])) (by rw [hm.opens hexact]; rfl) j hj
    rw [w.fs.obj_eq_dir_iff.mp hjdir] at this
    cases this
  · exact .inr (.inl ⟨j, abi_of_not_directory hfile, hret, hopen⟩)
  · exact .inr (.inr ⟨j, es, abi_of_not_direct hdir, hopen⟩)

/-- The first `openat` of a record: it fails, or opens a file, or the directory of this name in the
source. -/
theorem openSrc_step (R : Ready dev top loc m q s d sk dstFd w) (hm : m.Holds env) {n : Name}
    (hlink : env.abi = .generic → ∀ born seen, w.fds sk = some (.dir s born seen) →
      w.LinkAvoidsDirs env s n) :
    SubOpened env m w (kernel env w (.openat sk (.ofName n) dirFlags)).1 s n
      (kernel env w (.openat sk (.ofName n) dirFlags)).2.ret := by
  obtain ⟨born, seen, hsrc⟩ := R.src
  exact subOpened_of_open (a := false) R hm hsrc fun habi => hlink habi born seen hsrc

/-- The second one, in the destination, after the `mkdirat`. -/
theorem openDst_step (R : Ready dev top loc m q s d sk dstFd w) (hm : m.Holds env) {n : Name}
    (hlink : env.abi = .generic → ∀ k : Nat, ∀ born seen, dstFd = k →
      w.fds k = some (.dir d born seen) → w.LinkAvoidsDirs env d n) :
    SubOpened env m w (kernel env w (.openat dstFd (.ofName n) dirFlags)).1 d n
      (kernel env w (.openat dstFd (.ofName n) dirFlags)).2.ret := by
  cases R.dst with
  | absent hfaulty hneg hcwd =>
      have hfail := @kernel_openat_negative w env _ hneg hcwd n dirFlags
      exact .inl ⟨hfail.1, hfail.2, by simp [hfaulty]⟩
  | opened hdst =>
      exact subOpened_of_open (a := true) R hm hdst fun habi => hlink habi _ _ _ rfl hdst

/-- What an `openat` of a subdirectory leaves alone. -/
theorem SubOpened.calm {w' : World} {i : Ino} {n : Name} {ret : Int}
    (h : SubOpened env m w w' i n ret) (hbound : ∀ k, w.nextFd ≤ k → w.fds k = none) :
    w'.fs = w.fs ∧ w'.mount = w.mount ∧ w.nextFd ≤ w'.nextFd ∧
      (∀ k, k < w.nextFd → w'.fds k = w.fds k) ∧ (∀ k, w'.nextFd ≤ k → w'.fds k = none) ∧
      ∀ k : Nat, (k : Int) ≠ ret → w'.fds k = w.fds k := by
  have new : ∀ {desc}, ret = w.nextFd → Opened w w' desc → w'.fs = w.fs ∧ w'.mount = w.mount ∧
      w.nextFd ≤ w'.nextFd ∧ (∀ k, k < w.nextFd → w'.fds k = w.fds k) ∧
      (∀ k, w'.nextFd ≤ k → w'.fds k = none) ∧ ∀ k : Nat, (k : Int) ≠ ret → w'.fds k = w.fds k := by
    intro desc hret hopened
    refine ⟨hopened.fs, hopened.mount, by rw [hopened.nextFd]; omega,
      fun k hk => hopened.fds_lt hk, hopened.bound hbound, fun k hk => ?_⟩
    rw [hopened.fds]
    exact if_neg (by omega)
  rcases h with ⟨_, hquiet, _⟩ | ⟨j, _, hret, hopened⟩ | ⟨j, es, _, _, _, hret, hopened⟩
  · refine ⟨hquiet.fs, hquiet.mount, Nat.le_of_eq hquiet.nextFd.symm, ?_, ?_, ?_⟩
    · exact fun k _ => by rw [hquiet.fds]
    · exact fun k hk => by rw [hquiet.fds]; exact hbound k (hquiet.nextFd ▸ hk)
    · exact fun k _ => by rw [hquiet.fds]
  · exact new hret hopened
  · exact new hret hopened

/-- The descriptor is new, if there is one. -/
theorem SubOpened.new {w' : World} {i : Ino} {n : Name} {ret : Int}
    (h : SubOpened env m w w' i n ret) :
    ret < 0 ∨ (ret = w.nextFd ∧ w'.nextFd = w.nextFd + 1) := by
  rcases h with ⟨hneg, _⟩ | ⟨_, _, hret, hopened⟩ | ⟨_, _, _, _, _, hret, hopened⟩
  · exact .inl hneg
  · exact .inr ⟨hret, hopened.nextFd⟩
  · exact .inr ⟨hret, hopened.nextFd⟩

/-- `mkdirat` in the destination does nothing, or makes an empty directory where
there was nothing. -/
theorem mkdir_step (env : Env) (R : Ready dev top loc m q s d sk dstFd w) (n : Name) :
    (kernel env w (.mkdirat dstFd (.ofName n))).1.fds = w.fds ∧
    (kernel env w (.mkdirat dstFd (.ofName n))).1.nextFd = w.nextFd ∧
    ∃ y, Stage dev s d n ((w.fs.view s).sub n) y w (kernel env w (.mkdirat dstFd (.ofName n))).1 ∧
      (y = (w.fs.view d).sub n ∨
        ((w.fs.view d).sub n [] = none ∧ y = View.one .dir)) := by
  have start := Stage.refl R.forest R.trees.srcDir R.trees.dstDir n
  have quiet : ∀ {w'}, Quiet w w' → w'.fds = w.fds ∧ w'.nextFd = w.nextFd ∧
      ∃ y, Stage dev s d n ((w.fs.view s).sub n) y w w' ∧ (y = (w.fs.view d).sub n ∨
        ((w.fs.view d).sub n [] = none ∧ y = View.one .dir)) := fun h =>
    ⟨h.fds, h.nextFd, _, start.same h.fs (Nat.le_of_eq h.nextFd.symm) h.mount, .inl rfl⟩
  cases R.dst with
  | absent _ hneg hcwd => exact quiet (kernel_mkdirat_negative env hneg hcwd n).2
  | opened hdst =>
      rcases kernel_mkdirat env hdst n with ⟨_, fs', hok, hch⟩ | ⟨_, hquiet, _⟩
      · refine ⟨hch.fds, hch.nextFd, View.one .dir, ?_, .inr ⟨?_, rfl⟩⟩
        all_goals
          rcases mkdir_outcome R.forest R.trees.srcDir R.trees.dstDir n with
            ⟨e, he, _⟩ | ⟨fs'', hok', hnone, hvs, hvd, hkept⟩
          · rw [he] at hok
            cases hok
        · obtain rfl : fs'' = fs' := by simpa [hok'] using hok
          refine ⟨by rw [hch.fs]; exact hkept, hch.mount, Nat.le_of_eq hch.nextFd.symm, ?_, ?_⟩
          · rw [hch.fs, hvs, View.set_sub]
          · rw [hch.fs, hvd]
        · exact hnone
      · exact quiet hquiet

/-- A subdirectory of the source stays in place as long as something is there. -/
theorem child_of_shrinks {fs fs' : FS} {i : Ino} {n : Name} (h : Shrinks fs fs' s)
    (hi : fs.child s n = some i) (hthere : fs'.view s [n] ≠ none) : fs'.child s n = some i := by
  cases hj : fs'.child s n with
  | none =>
      rw [view_sub_root, hj] at hthere
      exact absurd rfl hthere
  | some j =>
      have hj' : fs.descend s [n] = some j := (h [n] j (by simp [FS.descend_cons, hj])).1
      rw [FS.descend_cons_of_child fs hi] at hj'
      cases hj'
      rfl

/-- Closing a descriptor that may not be open. -/
theorem closeOpen_ensures {I : World → Syscall → Prop} {fd : Int} {Q : Unit → World → Prop}
    (h : ∀ w', w'.fs = w.fs → w'.mount = w.mount → w'.nextFd = w.nextFd →
      (∀ k : Nat, (k : Int) ≠ fd → w'.fds k = w.fds k) →
      (∀ k : Nat, (k : Int) = fd → w'.fds k = none ∨
        (w'.fds k = w.fds k ∧ ¬ env.choices.NoLeaks)) → Q () w') :
    Prog.Ensures (kernel env) I (closeOpen fd) w Q := by
  unfold closeOpen onlyIf
  by_cases hfd : fd ≥ 0
  · rw [if_pos hfd]
    obtain ⟨k, rfl⟩ := Int.eq_ofNat_of_zero_le hfd
    obtain ⟨hfs, hnext, hmount, hfds⟩ := kernel_close env w k
    refine Prog.ensures_call fun _ => Prog.ensures_pure (h _ hfs hmount hnext ?_ ?_)
    · intro j hj
      rcases hfds with hfds | ⟨hfds, _⟩
      · rw [hfds, w.setDesc_fds_of_ne fun h => hj (by rw [h])]
      · rw [hfds]
    · intro j hj
      obtain rfl : j = k := Int.natCast_inj.mp hj
      rcases hfds with hfds | ⟨hfds, hleak⟩
      · rw [hfds]
        exact .inl (w.setDesc_fds_self j none)
      · exact .inr ⟨by rw [hfds], hleak⟩
  · rw [if_neg hfd]
    exact Prog.ensures_pure (h w rfl rfl rfl (fun _ _ => rfl) fun k hk => by omega)

/-- `rmdir` in the source does nothing, or removes an empty directory. Its result is not looked
at. -/
theorem rmdir_step (R : Ready dev top loc m q s d sk dstFd w) (hm : m.Holds env) (n : Name) :
    (kernel env w (.unlinkat sk (.ofName n) true)).1.fds = w.fds ∧
    (((w.fs.view s).sub n = View.one .dir ∧
      Stage dev s d n View.empty ((w.fs.view d).sub n) w
        (kernel env w (.unlinkat sk (.ofName n) true)).1) ∨
    (Stage dev s d n ((w.fs.view s).sub n) ((w.fs.view d).sub n) w
        (kernel env w (.unlinkat sk (.ofName n) true)).1 ∧
      (m ≠ .faulty → (w.fs.view s).sub n ≠ View.one .dir))) := by
  obtain ⟨born, seen, hsrc⟩ := R.src
  have houtcome := rmdir_outcome R.forest R.trees.srcDir R.trees.dstDir n (R.not_busy env)
  rcases kernel_rmdirat env hsrc n with ⟨_, fs', hok, hch⟩ | ⟨_, hquiet, herr⟩
  · rcases houtcome with ⟨e, he, _⟩ | ⟨fs'', hok', hone, hvs, hvd, hkept⟩
    · rw [he] at hok
      cases hok
    · obtain rfl : fs'' = fs' := by simpa [hok'] using hok
      refine ⟨hch.fds, .inl ⟨hone, ?_⟩⟩
      refine ⟨by rw [hch.fs]; exact hkept, hch.mount, Nat.le_of_eq hch.nextFd.symm, ?_, ?_⟩
      · rw [hch.fs, hvs]
      · rw [hch.fs, hvd, View.set_sub]
  · refine ⟨hquiet.fds, .inr ⟨?_, fun hne => ?_⟩⟩
    · exact (Stage.refl R.forest R.trees.srcDir R.trees.dstDir n).same hquiet.fs
        (Nat.le_of_eq hquiet.nextFd.symm) hquiet.mount
    · obtain ⟨e, he⟩ := herr (hm.noFaults hne)
      rcases houtcome with ⟨_, _, hno⟩ | ⟨fs'', hok', _⟩
      · exact hno
      · rw [hok'] at he
        cases he

section Rules

variable {I : World → Syscall → Prop} (hm : m.Holds env)
include hm

/-- The two `openat` and the `mkdirat` of a record, for whatever comes after them. -/
theorem opens_ensures (R : Ready dev top loc m q s d sk dstFd w) (n : Name)
    (hlinks : Cautious env top loc I ∨
      ∀ i t, (w.fs.view s).sub n [] = some (.leaf i) ∨ (w.fs.view d).sub n [] = some (.leaf i) →
        w.fs.node i ≠ some (.symlink t))
    (hpresent : m ≠ .faulty → (w.fs.view d).sub n [] ≠ none) {rest : Int → Int → Sys Unit}
    {Q : Unit → World → Prop}
    (h : ∀ w' subSrc subDst y, Opens env m dev s d n w w' subSrc subDst y →
      Prog.Ensures (kernel env) I (rest subSrc subDst) w' Q) :
    Prog.Ensures (kernel env) I (do
      let subSrc ← call (.openat sk (.ofName n) dirFlags)
      let _ ← call (.mkdirat dstFd (.ofName n))
      let subDst ← call (.openat dstFd (.ofName n) dirFlags)
      rest subSrc subDst) w Q := by
  refine Prog.ensures_call fun hw => Prog.ensures_call fun _ => Prog.ensures_call fun hw2 => ?_
  have hsrc := openSrc_step (n := n) R hm <| by
    intro habi born seen hfd
    rcases hlinks with hI | hlinks
    · exact R.trees.links (a := false) hI habi hfd hw
    · exact World.linkAvoidsDirs_of_not_link fun i t hi => hlinks i t (.inl hi)
  revert hw2
  generalize hk1 : kernel env w (.openat sk (.ofName n) dirFlags) = k1 at hsrc ⊢
  obtain ⟨w1, r1⟩ := k1
  dsimp only at hsrc ⊢
  obtain ⟨hfs1, hmount1, hnext1, hlt1, hbound1, hne1⟩ := hsrc.calm R.bound
  have R1 : Ready dev top loc m q s d sk dstFd w1 :=
    R.of_kept (by rw [hfs1]; exact Kept.refl R.forest R.trees.srcDir R.trees.dstDir) hmount1 hlt1
      hbound1
  obtain ⟨hfds2, hnext2, y, stage2, hy⟩ := mkdir_step env R1 n
  generalize hk2 : kernel env w1 (.mkdirat dstFd (.ofName n)) = k2 at hfds2 hnext2 stage2 ⊢
  obtain ⟨w2, r2⟩ := k2
  dsimp only at hfds2 hnext2 stage2 ⊢
  have R2 : Ready dev top loc m q s d sk dstFd w2 :=
    R1.of_kept stage2.kept stage2.mount (fun k _ => by rw [hfds2])
      (by rw [hnext2, hfds2]; exact hbound1)
  intro hw2
  rw [hfs1] at stage2 hy
  have hdst := openDst_step (n := n) R2 hm <| by
    rintro habi k born seen rfl hfd
    rcases hlinks with hI | hlinks
    · exact R2.trees.links (a := true) hI habi hfd hw2
    · apply World.linkAvoidsDirs_of_not_link
      intro i t hi
      rw [← View.sub_apply (w2.fs.view d) n [], stage2.dst_sub] at hi
      rcases hy with rfl | ⟨_, rfl⟩
      · have hi' : w1.fs.view d [n] = some (.leaf i) := by
          rw [hfs1]
          exact hi
        rw [stage2.kept.within.leaf_node hi', hfs1]
        exact hlinks i t (.inr hi)
      · cases hi
  generalize hk3 : kernel env w2 (.openat dstFd (.ofName n) dirFlags) = k3 at hdst ⊢
  obtain ⟨w3, r3⟩ := k3
  dsimp only at hdst ⊢
  obtain ⟨hfs3, hmount3, hnext3, hlt3, hbound3, hne3⟩ := hdst.calm R2.bound
  have stage : Stage dev s d n ((w.fs.view s).sub n) y w w3 :=
    (((Stage.refl R.forest R.trees.srcDir R.trees.dstDir n).same hfs1 hnext1 hmount1).trans
      stage2).same hfs3 hnext3 hmount3
  refine h w3 r1.ret r3.ret y ⟨stage, ?_, ?_, hbound3, ?_, ?_⟩
  · rcases hy with hy | ⟨hnone, hy⟩
    · exact .inl hy
    · refine .inr ⟨?_, hnone, hy⟩
      by_contra hne
      exact hpresent hne hnone
  · intro k hk1 hk3
    rw [hne3 k hk3, hfds2, hne1 k hk1]
  · have hnew : r1.ret = w.nextFd → ((w.nextFd : Nat) : Int) ≠ r3.ret := by
      have h1 := hsrc.new
      have h3 := hdst.new
      omega
    rcases hsrc with ⟨hret, _, hno⟩ | ⟨j, habi, hret, hopened⟩ | ⟨j, es, habi, hj, he, hret, hopened⟩
    · exact .inl ⟨hret, hno⟩
    · refine .inr (.inl ⟨habi, w.nextFd, j, hret, Nat.le_refl _, ?_⟩)
      rw [hne3 _ (hnew hret), hfds2, hopened.fds]
      exact if_pos rfl
    · have hjdir : w.fs.isDir j = true := w.fs.isDir_iff.mpr ⟨es, he⟩
      have hview : w3.fs.view s [n] = some .dir := by
        have := congrFun stage.src_sub []
        rw [View.sub_apply, View.sub_apply, view_sub_root w.fs, hj] at this
        rw [this]
        exact w.fs.obj_eq_dir_iff.mpr hjdir
      have hj3 := child_of_shrinks stage.kept.shrinks hj (by simp [hview])
      have hjdir3 : w3.fs.isDir j = true := by
        rw [view_sub_root, hj3] at hview
        exact w3.fs.obj_eq_dir_iff.mp hview
      obtain ⟨es3, he3⟩ := w3.fs.isDir_iff.mp hjdir3
      refine .inr (.inr ⟨w.nextFd, j, habi, hret, Nat.le_refl _, hj3, hjdir3, listing es, es3, ?_,
        he3, ?_⟩)
      · rw [hne3 _ (hnew hret), hfds2, hopened.fds]
        exact if_pos rfl
      · exact stage.kept.shrinks.listing_subset (p := [n]) (by simp [FS.descend_cons, hj])
          (by simp [FS.descend_cons, hj3]) he he3
  · rcases hdst with ⟨hret, _, hno⟩ | ⟨j, habi, hret, hopened⟩ | ⟨j, es, habi, hj, he, hret, hopened⟩
    · refine .inl ⟨hret, fun hexact => ?_⟩
      rw [← stage2.dst_sub]
      exact hno hexact
    · refine .inr (.inl ⟨habi, w2.nextFd, j, hret, by omega, ?_⟩)
      rw [hopened.fds]
      exact if_pos rfl
    · refine .inr (.inr ⟨w2.nextFd, j, listing es, [], habi, hret, by omega, ?_, ?_, ?_⟩)
      · rw [hfs3]
        exact hj
      · rw [hfs3]
        exact w2.fs.isDir_iff.mpr ⟨es, he⟩
      · rw [hopened.fds]
        exact if_pos rfl

/-- The end of a record: both subdirectories are closed and the source's is removed
if it is empty. -/
theorem finish_ensures (R : Ready dev top loc m q s d sk dstFd w) {n : Name} {w' : World}
    {x y : View} (stage : Stage dev s d n x y w w') {subSrc subDst : Int}
    (hbound : ∀ k, w'.nextFd ≤ k → w'.fds k = none)
    (hlt : ∀ k, k < w.nextFd → w'.fds k = w.fds k)
    (hfds : env.choices.NoLeaks → ∀ k : Nat, (k : Int) ≠ subSrc → (k : Int) ≠ subDst →
      w'.fds k = w.fds k)
    (hsub : ∀ k : Nat, (k : Int) = subSrc ∨ (k : Int) = subDst → w.nextFd ≤ k) :
    Prog.Ensures (kernel env) I (do
      closeOpen subSrc
      closeOpen subDst
      let _ ← call (.unlinkat sk (.ofName n) true)) w'
      fun _ w'' => Balanced env w w'' ∧
        ((x = View.one .dir ∧ Stage dev s d n View.empty y w w'') ∨
          (Stage dev s d n x y w w'' ∧ (m ≠ .faulty → x ≠ View.one .dir))) := by
  refine Prog.Ensures.bind (closeOpen_ensures fun w₁ hfs₁ hmount₁ hnext₁ hne₁ heq₁ => ?_)
  refine Prog.Ensures.bind (closeOpen_ensures fun w₂ hfs₂ hmount₂ hnext₂ hne₂ heq₂ => ?_)
  refine Prog.ensures_call fun _ => Prog.ensures_pure ?_
  have hsame : ∀ k : Nat, (k : Int) ≠ subSrc → (k : Int) ≠ subDst → w₂.fds k = w'.fds k :=
    fun k hk hk' => (hne₂ k hk').trans (hne₁ k hk)
  have hsub' : ∀ k : Nat, k < w.nextFd → (k : Int) ≠ subSrc ∧ (k : Int) ≠ subDst := fun k hk =>
    ⟨fun h => absurd (hsub k (.inl h)) (by omega), fun h => absurd (hsub k (.inr h)) (by omega)⟩
  have hfree : ∀ {wa wb : World} {fd : Int} {k : Nat}, wa.fds k = none →
      (∀ k : Nat, (k : Int) ≠ fd → wb.fds k = wa.fds k) →
      (∀ k : Nat, (k : Int) = fd → wb.fds k = none ∨
        (wb.fds k = wa.fds k ∧ ¬ env.choices.NoLeaks)) → wb.fds k = none := by
    intro wa wb fd k hnone hne heq
    by_cases hk : (k : Int) = fd
    · rcases heq k hk with h | ⟨h, _⟩
      · exact h
      · exact h.trans hnone
    · exact (hne k hk).trans hnone
  have balanced : Balanced env w w₂ :=
    { below := fun k hk => (hsame k (hsub' k hk).1 (hsub' k hk).2).trans (hlt k hk)
      bound := fun k hk => hfree (hfree (hbound k (by omega)) hne₁ heq₁) hne₂ heq₂
      closed := by
        intro hno
        funext k
        by_cases hk : (k : Int) = subSrc ∨ (k : Int) = subDst
        · rw [R.bound k (hsub k hk)]
          by_cases hdst : (k : Int) = subDst
          · rcases heq₂ k hdst with h | ⟨_, h⟩
            · exact h
            · exact absurd hno h
          · rw [hne₂ k hdst]
            rcases heq₁ k (hk.resolve_right hdst) with h | ⟨_, h⟩
            · exact h
            · exact absurd hno h
        · rw [not_or] at hk
          rw [hsame k hk.1 hk.2, hfds hno k hk.1 hk.2] }
  have stage₂ : Stage dev s d n x y w w₂ :=
    (stage.same hfs₁ (Nat.le_of_eq hnext₁.symm) hmount₁).same hfs₂ (Nat.le_of_eq hnext₂.symm) hmount₂
  have R₂ : Ready dev top loc m q s d sk dstFd w₂ :=
    R.of_kept stage₂.kept stage₂.mount balanced.below balanced.bound
  obtain ⟨hfds₃, hend⟩ := rmdir_step R₂ hm n
  rw [stage₂.src_sub, stage₂.dst_sub] at hend
  constructor
  · refine balanced.trans (Balanced.of_eq env hfds₃ ?_ balanced.bound) stage₂.nextFd
    rcases hend with ⟨_, stage₃⟩ | ⟨stage₃, _⟩ <;> exact stage₃.nextFd
  · rcases hend with ⟨hone, stage₃⟩ | ⟨stage₃, hne⟩
    · exact .inl ⟨hone, stage₂.trans stage₃⟩
    · exact .inr ⟨stage₂.trans stage₃, hne⟩

end Rules

end Record

/-! ### One record -/

/-- A whole directory was merged: all names were handled, and the descriptors are the
same but for the position of the source's stream. -/
structure Merged (env : Env) (m : Mode) (dev : Nat) (s d : Ino) (sk : Nat) (w w' : World) : Prop where
  swept : Swept m dev s d (fun _ => True) w w'
  fds : ∃ born seen, Balanced env (w.setDesc sk (some (.dir s born seen))) w'

/-- Nowhere is a directory on one side and a file or link on the other. Such trees can be merged
without a clash. -/
def Tame (x y : View) : Prop :=
  ∀ p i, ¬ (x p = some .dir ∧ y p = some (.leaf i)) ∧ ¬ (x p = some (.leaf i) ∧ y p = some .dir)

/-- Nowhere is a directory on one side and a link on the other. Then no link of the one tree is
opened in the place of a directory of the other. -/
def LinksApart (fs : FS) (x y : View) : Prop :=
  ∀ p i t, fs.node i = some (.symlink t) →
    ¬ (x p = some .dir ∧ y p = some (.leaf i)) ∧ ¬ (x p = some (.leaf i) ∧ y p = some .dir)

theorem Tame.linksApart {x y : View} (h : Tame x y) (fs : FS) : LinksApart fs x y :=
  fun p i _ _ => h p i

theorem LinksApart.of_leaves {fs fs' : FS} {x y : View} (h : LinksApart fs x y)
    (hkeep : ∀ p i, x p = some (.leaf i) ∨ y p = some (.leaf i) → fs'.node i = fs.node i) :
    LinksApart fs' x y := by
  intro p i t ht
  constructor
  · rintro ⟨hx, hy⟩
    rw [hkeep p i (.inr hy)] at ht
    exact (h p i t ht).1 ⟨hx, hy⟩
  · rintro ⟨hx, hy⟩
    rw [hkeep p i (.inl hx)] at ht
    exact (h p i t ht).2 ⟨hx, hy⟩

/-- Why no link is ever opened as a directory: links lead to no directory, or there is
no clash that would make the merge try. -/
def Safe {ι : Type} (env : Env) (top : ι → Ino) (loc : Bool → ι × List Name) (m : Mode)
    (I : World → Syscall → Prop) (s d : Ino) (P : Name → Prop) (w : World) : Prop :=
  Cautious env top loc I ∨
    (m = .exact ∧ ∀ n, P n → LinksApart w.fs ((w.fs.view s).sub n) ((w.fs.view d).sub n))

/-- `recurse` merges subdirectories of a tree with at most `h` levels. From a file there is
nothing to merge. -/
structure Recurses {ι : Type} (env : Env) (dev : Nat) (top : ι → Ino) (loc : Bool → ι × List Name)
    (m : Mode) (I : World → Syscall → Prop) (h B : Nat) (recurse : Int → Int → Sys Unit) : Prop where
  subdir : ∀ h' q s d (sk dk : Nat) w, h = h' + 1 → Ready dev top loc m q s d sk dk w →
    Stream w sk s [] → Small h' B w.fs s → Safe env top loc m I s d (fun _ => True) w →
    Prog.Ensures (kernel env) I (recurse sk dk) w fun _ w' => Merged env m dev s d sk w w'
  file : ∀ (sk : Nat) (dst : Int) w i off, w.fds sk = some (.file i off) →
    Prog.Ensures (kernel env) I (recurse sk dst) w fun _ w' => Quiet w w'

theorem Safe.of_fs_eq {ι : Type} {env : Env} {top : ι → Ino} {loc : Bool → ι × List Name} {m : Mode}
    {I : World → Syscall → Prop} {s d : Ino} {P : Name → Prop} {w w' : World}
    (h : Safe env top loc m I s d P w) (hfs : w'.fs = w.fs) : Safe env top loc m I s d P w' := by
  unfold Safe
  rw [hfs]
  exact h

section Entries

variable {ι : Type} {env : Env} {dev : Nat} {top : ι → Ino} {loc : Bool → ι × List Name} {m : Mode}
  {q : List Name} {s d : Ino} {sk : Nat} {dstFd : Int} {w : World} {n : Name}

theorem Opens.wrap {w' : World} {subSrc subDst : Int} {x' y y' : View}
    (opens : Opens env m dev s d n w w' subSrc subDst y)
    (entry : Entry m ((w.fs.view s).sub n) y x' y') :
    Entry m ((w.fs.view s).sub n) ((w.fs.view d).sub n) x' y' := by
  rcases opens.made with rfl | ⟨hm, hnone, rfl⟩
  · exact entry
  · exact .mkdir hm hnone entry

/-- The descriptors opened for a record are new. -/
theorem Opens.le_of_eq {w' : World} {subSrc subDst : Int} {y : View}
    (opens : Opens env m dev s d n w w' subSrc subDst y) (k : Nat)
    (hk : (k : Int) = subSrc ∨ (k : Int) = subDst) : w.nextFd ≤ k := by
  rcases hk with hk | hk
  · rcases opens.src with ⟨hneg, _⟩ | ⟨_, _, _, hk', hle, _⟩ | ⟨_, _, _, hk', hle, _⟩ <;> omega
  · rcases opens.dst with ⟨hneg, _⟩ | ⟨_, _, _, hk', hle, _⟩ | ⟨_, _, _, _, _, hk', hle, _⟩ <;> omega

theorem Opens.ne_of_lt {w' : World} {subSrc subDst : Int} {y : View}
    (opens : Opens env m dev s d n w w' subSrc subDst y) (k : Nat) (hk : k < w.nextFd) :
    (k : Int) ≠ subSrc ∧ (k : Int) ≠ subDst :=
  ⟨fun h => absurd (opens.le_of_eq k (.inl h)) (by omega),
    fun h => absurd (opens.le_of_eq k (.inr h)) (by omega)⟩

/-- Without failures `mkdirat` never succeeds: a rename would have. -/
theorem Opens.dst_eq {w' : World} {subSrc subDst : Int} {y : View}
    (opens : Opens env m dev s d n w w' subSrc subDst y) (hne : m ≠ .faulty) :
    y = (w.fs.view d).sub n :=
  opens.made.resolve_right fun h => hne h.1

/-- Without failures two directories can both be opened, if directories can be. -/
theorem Opens.both_of_dirs {w' : World} {subSrc subDst : Int} {y : View}
    (opens : Opens env m dev s d n w w' subSrc subDst y) (hexact : m = .exact)
    (habi : env.abi = .generic) (hx : (w.fs.view s).sub n [] = some .dir)
    (hy : (w.fs.view d).sub n [] = some .dir) : subSrc ≥ 0 ∧ subDst ≥ 0 := by
  constructor
  · rcases opens.src with ⟨_, hno⟩ | ⟨harm, _⟩ | ⟨k, _, _, hk, _⟩
    · exact absurd hx (hno hexact)
    · rw [habi] at harm
      cases harm
    · omega
  · rcases opens.dst with ⟨_, hno⟩ | ⟨harm, _⟩ | ⟨k, _, _, _, _, hk, _⟩
    · exact absurd (opens.dst_eq (by simp [hexact]) ▸ hy) (hno hexact)
    · rw [habi] at harm
      cases harm
    · omega

/-- Where no two directories are merged an empty one goes, and anything else stays. -/
theorem Opens.entry_of_not_both {w' : World} {subSrc subDst : Int} {y : View}
    (opens : Opens env m dev s d n w w' subSrc subDst y) (hm : m.Holds env)
    (hclash : m ≠ .faulty → Clash ((w.fs.view s).sub n) ((w.fs.view d).sub n) ∧
      (w.fs.view s).sub n [] ≠ none)
    (hnot : env.abi = .generic → ¬ (subSrc ≥ 0 ∧ subDst ≥ 0)) :
    ((w.fs.view s).sub n = View.one .dir → Entry m ((w.fs.view s).sub n) y View.empty y) ∧
    ((m ≠ .faulty → (w.fs.view s).sub n ≠ View.one .dir) →
      Entry m ((w.fs.view s).sub n) y ((w.fs.view s).sub n) y) := by
  have hfits : m = .flat → ¬ Fits ((w.fs.view s).sub n) y := by
    intro hflat
    have hne : m ≠ .faulty := by simp [hflat]
    rw [opens.dst_eq hne]
    exact (hclash hne).1.not_fits (hclash hne).2
  have hboth : m = .exact → ¬ ((w.fs.view s).sub n [] = some .dir ∧
      (w.fs.view d).sub n [] = some .dir) := fun hexact hdirs =>
    hnot (hm.opens hexact) (opens.both_of_dirs hexact (hm.opens hexact) hdirs.1 hdirs.2)
  constructor
  · intro hempty
    rw [hempty] at hfits ⊢
    refine .rmdir (fun hexact => ?_) hfits
    have hne : m ≠ .faulty := by simp [hexact]
    rw [opens.dst_eq hne]
    rcases (hclash hne).1 with hnone | ⟨_, hleaf⟩ | ⟨i, hi, _⟩ | ⟨hxd, hyd, _⟩
    · exact absurd hnone (hclash hne).2
    · exact hleaf
    · rw [hempty] at hi
      cases hi
    · exact absurd ⟨hxd, hyd⟩ (hboth hexact)
  · intro hfull
    refine .keep (fun hexact => ?_) fun hflat => .inr ⟨hfits hflat, hfull (by simp [hflat])⟩
    have hne : m ≠ .faulty := by simp [hexact]
    rw [opens.dst_eq hne]
    rcases (hclash hne).1 with hnone | ⟨hxd, hleaf⟩ | ⟨i, hi, hyd⟩ | ⟨hxd, hyd, _⟩
    · exact .inl hnone
    · have hocc := occupied_of_ne_one ((w.fs.view_closed s).sub n) hxd (hfull hne)
      exact .inr (.inr ⟨hxd, hocc, hleaf⟩)
    · exact .inr (.inl ⟨i, hi, .inl hyd⟩)
    · exact absurd ⟨hxd, hyd⟩ (hboth hexact)

variable {I : World → Syscall → Prop} (hm : m.Holds env) {h B : Nat}
  {recurse : Int → Int → Sys Unit} (hrec : Recurses env dev top loc m I h B recurse)
include hm hrec

/-- What is done with a record whose `renameat` failed, with the recursive call as a hypothesis. -/
theorem mergeSubdir_ensures (R : Ready dev top loc m q s d sk dstFd w) (hsmall : Small h B w.fs s)
    (n : Name) (hsafe : Safe env top loc m I s d (fun n' => n' = n) w)
    (hclash : m ≠ .faulty → Clash ((w.fs.view s).sub n) ((w.fs.view d).sub n) ∧
      (w.fs.view s).sub n [] ≠ none) :
    Prog.Ensures (kernel env) I (mergeSubdir recurse sk dstFd (.name n)) w fun _ w' =>
      Balanced env w w' ∧ Swept m dev s d (fun n' => n' = n) w w' := by
  have hpresent : m ≠ .faulty → (w.fs.view d).sub n [] ≠ none := by
    intro hne hnone
    exact (hclash hne).1.not_fits (hclash hne).2 (.inl hnone)
  have hlinks : Cautious env top loc I ∨
      ∀ i t, (w.fs.view s).sub n [] = some (.leaf i) ∨ (w.fs.view d).sub n [] = some (.leaf i) →
        w.fs.node i ≠ some (.symlink t) := by
    refine hsafe.imp_right fun ⟨hexact, hapart⟩ i t hi ht => ?_
    have hne : m ≠ .faulty := by simp [hexact]
    have hno := hapart n rfl [] i t ht
    rcases (hclash hne).1 with hnone | ⟨hxd, j, hyl⟩ | ⟨j, hxl, hyd⟩ | ⟨hxd, hyd, _⟩
    · exact (hclash hne).2 hnone
    · rcases hi with hi | hi
      · rw [hxd] at hi
        cases hi
      · exact hno.1 ⟨hxd, hi⟩
    · rcases hi with hi | hi
      · exact hno.2 ⟨hi, hyd⟩
      · rw [hyd] at hi
        cases hi
    · rcases hi with hi | hi
      · rw [hxd] at hi
        cases hi
      · rw [hyd] at hi
        cases hi
  refine opens_ensures hm R n hlinks hpresent fun w₃ subSrc subDst y opens => ?_
  have hsub := opens.le_of_eq
  -- where no two directories are merged, the record ends with what was there before
  have hapart : (env.abi = .generic → ¬ (subSrc ≥ 0 ∧ subDst ≥ 0)) → ∀ w₄, Quiet w₃ w₄ →
      Prog.Ensures (kernel env) I (do
        closeOpen subSrc
        closeOpen subDst
        let _ ← call (.unlinkat sk (.ofName n) true)) w₄
        fun _ w' => Balanced env w w' ∧ Swept m dev s d (fun n' => n' = n) w w' := by
    intro hnot w₄ q₄
    refine (finish_ensures hm R (opens.stage.same q₄.fs (Nat.le_of_eq q₄.nextFd.symm) q₄.mount)
      (by rw [q₄.fds, q₄.nextFd]; exact opens.bound) (fun k hk => ?_) (fun _ k => ?_) hsub).mono
      fun _ w' hend => ?_
    · rw [q₄.fds]
      exact opens.fds k (opens.ne_of_lt k hk).1 (opens.ne_of_lt k hk).2
    · rw [q₄.fds]
      exact opens.fds k
    · refine ⟨hend.1, ?_⟩
      have hentry := opens.entry_of_not_both hm hclash hnot
      rcases hend.2 with ⟨hone, stage'⟩ | ⟨stage', hne⟩
      · exact stage'.swept (opens.wrap (hentry.1 hone))
      · exact stage'.swept (opens.wrap (hentry.2 hne))
  by_cases hboth : subSrc ≥ 0 ∧ subDst ≥ 0
  · unfold onlyIf
    rw [if_pos hboth]
    rcases opens.src with ⟨hneg, _⟩ | ⟨harm, kf, i, rfl, _, hfile⟩ |
      ⟨ks, s', habi, rfl, hks, hs', hsdir, hstream⟩
    · omega
    · refine Prog.Ensures.bind ((hrec.file kf subDst w₃ i 0 hfile).mono fun _ w₄ q₄ => ?_)
      exact hapart (fun habi => by rw [harm] at habi; cases habi) w₄ q₄
    rcases opens.dst with ⟨hneg, _⟩ | ⟨harm, _⟩ | ⟨kd, d', born, seen, _, rfl, hkd, hd', hddir, hdfd⟩
    · omega
    · rw [habi] at harm
      cases harm
    have trees := R.trees.step opens.stage.kept
    obtain ⟨h', rfl, hsmall'⟩ := (hsmall.mono opens.stage.kept.shrinks).sub hs' hsdir
    have R' : Ready dev top loc m (q ++ [n]) s' d' ks kd w₃ :=
      { trees := trees.sub hs' hd' hsdir hddir
        src := by
          obtain ⟨b, _, hfd, _⟩ := hstream
          exact ⟨b, [], hfd⟩
        dst := .opened hdfd
        bound := opens.bound
        mount := fun c t hct => R.mount c t (opens.stage.mount ▸ hct) }
    have hx : (w.fs.view s).sub n = w₃.fs.view s' := by
      rw [← opens.stage.src_sub, w₃.fs.view_sub_of_child hs']
    have hy : y = w₃.fs.view d' := by
      rw [← opens.stage.dst_sub, w₃.fs.view_sub_of_child hd']
    have hsafe' : Safe env top loc m I s' d' (fun _ => True) w₃ := by
      refine hsafe.imp_right fun ⟨hexact, hapart⟩ => ⟨hexact, fun n' _ => ?_⟩
      rw [← hx, ← hy, opens.dst_eq (by simp [hexact])]
      have hbelow : LinksApart w.fs (((w.fs.view s).sub n).sub n') (((w.fs.view d).sub n).sub n') :=
        fun p => hapart n rfl (n' :: p)
      apply hbelow.of_leaves
      rintro p i (hi | hi)
      · exact opens.stage.kept.within.leaf_node hi
      · exact opens.stage.kept.within.leaf_node hi
    refine Prog.Ensures.bind ((hrec.subdir h' _ s' d' ks kd w₃ rfl R' hstream hsmall' hsafe').mono
      fun _ w₄ merged => ?_)
    obtain ⟨hkept, hvs, hvd⟩ := merged.swept.kept.lift trees.pair_forest hs' hd'
    have stage : Stage dev s d n (w₄.fs.view s') (w₄.fs.view d') w w₄ :=
      opens.stage.trans ⟨hkept, merged.swept.mount, merged.swept.nextFd, hvs, hvd⟩
    obtain ⟨b, sn, hfds⟩ := merged.fds
    have hset : ∀ k : Nat, (k : Int) ≠ ks → (w₃.setDesc ks (some (.dir s' b sn))).fds k = w₃.fds k :=
      fun k hk => w₃.setDesc_fds_of_ne (fun h => hk (by rw [h])) _
    refine (finish_ensures hm R stage hfds.bound (fun k hk => ?_) (fun hno k hk hk' => ?_)
      hsub).mono fun _ w' hend => ?_
    · have hne := opens.ne_of_lt k hk
      rw [hfds.below k (Nat.lt_of_lt_of_le hk opens.stage.nextFd), hset k hne.1]
      exact opens.fds k hne.1 hne.2
    · rw [hfds.closed hno, hset k hk]
      exact opens.fds k hk hk'
    · -- both subtrees are directories, and below every name the recursive call did its work
      have hxd : w₃.fs.view s' [] = some .dir := w₃.fs.obj_eq_dir_iff.mpr hsdir
      have hyd : w₃.fs.view d' [] = some .dir := w₃.fs.obj_eq_dir_iff.mpr hddir
      have hxd' : w₄.fs.view s' [] = some .dir :=
        w₄.fs.obj_eq_dir_iff.mpr merged.swept.kept.srcDir
      have hyd' : w₄.fs.view d' [] = some .dir :=
        w₄.fs.obj_eq_dir_iff.mpr merged.swept.kept.dstDir
      have below := fun n' => merged.swept.done n' trivial
      have hne : m ≠ .flat := fun hflat => by
        have harm := hm.refuses hflat
        rw [habi] at harm
        cases harm
      refine ⟨hend.1, ?_⟩
      rcases hend.2 with ⟨hone, stage'⟩ | ⟨stage', hfull⟩
      · refine stage'.swept (opens.wrap ?_)
        rw [hx, hy]
        refine .clear hne hxd hyd hyd' fun n' => ?_
        have := below n'
        rw [hone, View.sub_one] at this
        exact this
      · refine stage'.swept (opens.wrap ?_)
        rw [hx, hy]
        refine .descend hne hxd hyd hxd' hyd' below fun hexact => ?_
        exact occupied_of_ne_one (w₄.fs.view_closed s') hxd' (hfull (by simp [hexact]))
  · unfold onlyIf
    rw [if_neg hboth]
    exact Prog.Ensures.bind (Prog.ensures_pure (hapart (fun _ => hboth) w₃ (.refl w₃)))

/-- Handling one record changes the two trees below its name as `Entry` allows, and closes what it
opens. -/
theorem mergeEntry_ensures (R : Ready dev top loc m q s d sk dstFd w) (hsmall : Small h B w.fs s)
    (out : Int) (indent : String) (n : Name)
    (hsafe : Safe env top loc m I s d (fun n' => n' = n) w)
    (hthere : m ≠ .faulty → (w.fs.view s).sub n [] ≠ none) :
    Prog.Ensures (kernel env) I (mergeEntry out recurse sk dstFd indent (.name n)) w fun _ w' =>
      Balanced env w w' ∧ Swept m dev s d (fun n' => n' = n) w w' := by
  unfold mergeEntry
  rw [if_pos (name_not_special n)]
  refine ensures_print fun w₁ q₁ => ensures_print fun w₂ q₂ => ensures_print fun w₃ q₃ => ?_
  have quiet := (q₁.trans q₂).trans q₃
  have R₃ := R.of_quiet quiet
  refine ensures_do fun _ => ?_
  rcases rename_step R₃ hm n with ⟨hret, hswept, hfds⟩ | ⟨hret, hquiet, hclash⟩
  · rw [if_pos hret]
    refine ensures_print_last fun w' q' => ?_
    have balanced := Balanced.of_eq env hfds hswept.nextFd R₃.bound
    exact ⟨(balanced.quiet_left quiet).quiet_right q', (hswept.of_quiet_left quiet).quiet q'⟩
  · rw [if_neg hret]
    refine ensures_print fun w₅ q₅ => ?_
    have quiet₅ := (quiet.trans hquiet).trans q₅
    refine (mergeSubdir_ensures hm hrec (R.of_quiet quiet₅) (quiet₅.fs ▸ hsmall) n
      (hsafe.of_fs_eq quiet₅.fs) fun hne => ?_).mono fun _ w' hend => ?_
    · rw [quiet₅.fs]
      rw [quiet.fs] at hclash
      exact ⟨hclash hne, hthere hne⟩
    · exact ⟨hend.1.quiet_left quiet₅, hend.2.of_quiet_left quiet₅⟩

end Entries

end Hub11.Recovery
