import Hub11.Posix.Tables

/-!
Directory trees as functions of relative paths.

`FS.view fs r p` is what the names of `p` lead to from directory `r` without
following links. A `Forest` is a family of roots below which every directory is
reached by exactly one path: what makes a set of subtrees of one file system
disjoint trees. The lemmas say how the three directory operations of a merge
(rename, mkdir, rmdir) change the views of a forest, and that nothing outside the
forest changes (`Within`).
-/

namespace Hub11.Posix

/-- A tree, seen through its relative paths. Two trees with the same view cannot be told apart by
names alone, links not followed. -/
abbrev View := List Name → Option Obj

/-- Paths that start differently are apart. -/
theorem not_below_of_ne {n m : Name} (h : n ≠ m) (p q : List Name) : ¬ n :: p <+: m :: q :=
  fun hpre => h (List.cons_prefix_cons.mp hpre).1

namespace View

/-- The part of a view below one name. -/
def sub (V : View) (n : Name) : View := fun p => V (n :: p)

def empty : View := fun _ => none

/-- Replace what is below one name. This is what a rename does to the destination's tree. -/
def set (V : View) (n : Name) (X : View) : View
  | [] => V []
  | m :: p => if m = n then X p else V (m :: p)

/-- Replace what is below one path, and leave every other path as it is. -/
def put (V : View) (p : List Name) (X : View) : View :=
  fun r => if p <+: r then X (r.drop p.length) else V r

/-- A single file, link or empty directory. -/
def one (o : Obj) : View
  | [] => some o
  | _ :: _ => none

/-- The part of a view below one path. -/
def below (V : View) (p : List Name) : View := fun q => V (p ++ q)

/-- One tree over another: where both have something, the first one counts. -/
def or (V W : View) : View := fun p => (V p).or (W p)

/-- After `mkdir`: an empty directory where there was nothing. -/
def mkdir (V : View) (p : List Name) : View := if V p = none then V.put p (one .dir) else V

/-- After `unlink`: nothing where there was a file or link. -/
def unlink (V : View) (p : List Name) : View :=
  match V p with
  | some (.leaf _) => V.put p empty
  | _ => V

open Classical in
/-- After `rmdir`: nothing where there was an empty directory. -/
noncomputable def rmdir (V : View) (p : List Name) : View :=
  if V.below p = one .dir then V.put p empty else V

/-- Only directories have something below them. The views of a file system are closed, and the
operations keep it. -/
def Closed (V : View) : Prop := ∀ p q, V p ≠ some .dir → q ≠ [] → V (p ++ q) = none

@[simp] theorem sub_apply (V : View) (n : Name) (p : List Name) : V.sub n p = V (n :: p) := rfl

@[simp] theorem empty_apply (p : List Name) : empty p = none := rfl

@[simp] theorem or_apply (V W : View) (p : List Name) : V.or W p = (V p).or (W p) := rfl

@[simp] theorem one_nil (o : Obj) : one o [] = some o := rfl

@[simp] theorem one_cons (o : Obj) (n : Name) (p : List Name) : one o (n :: p) = none := rfl

@[simp] theorem sub_one (o : Obj) (n : Name) : (one o).sub n = empty := rfl

@[simp] theorem sub_empty (n : Name) : empty.sub n = empty := rfl

@[simp] theorem set_nil (V : View) (n : Name) (X : View) : V.set n X [] = V [] := rfl

theorem sub_set (V : View) (n m : Name) (X : View) :
    (V.set n X).sub m = if m = n then X else V.sub m := by
  funext p
  by_cases h : m = n <;> simp [sub, set, h]

@[simp] theorem sub_set_self (V : View) (n : Name) (X : View) : (V.set n X).sub n = X := by
  simp [sub_set]

theorem sub_set_of_ne (V : View) {n m : Name} (X : View) (h : m ≠ n) :
    (V.set n X).sub m = V.sub m := by
  simp [sub_set, h]

theorem set_sub (V : View) (n : Name) : V.set n (V.sub n) = V := by
  funext p
  cases p with
  | nil => rfl
  | cons m p =>
      by_cases h : m = n
      · simp [set, h]
      · simp [set, h]

theorem set_set (V : View) (n : Name) (X Y : View) : (V.set n X).set n Y = V.set n Y := by
  funext p
  cases p with
  | nil => rfl
  | cons m p => by_cases h : m = n <;> simp [set, h]

theorem Closed.sub {V : View} (h : V.Closed) (n : Name) : (V.sub n).Closed :=
  fun p q hp hq => h (n :: p) q hp hq

theorem Closed.below {V : View} (h : V.Closed) (p : List Name) : (V.below p).Closed := by
  intro q r hq hr
  have := h (p ++ q) r hq hr
  rwa [List.append_assoc] at this

theorem Closed.eq_none {V : View} (h : V.Closed) (hn : V [] ≠ some .dir) {p : List Name}
    (hp : p ≠ []) : V p = none :=
  h [] p hn hp

theorem closed_empty : empty.Closed := fun _ _ _ _ => rfl

theorem closed_one (o : Obj) : (one o).Closed := by
  intro p q _ hq
  cases p with
  | nil =>
      cases q with
      | nil => exact absurd rfl hq
      | cons n q => rfl
  | cons n p => rfl

/-- A closed view with nothing at its root is empty. -/
theorem Closed.eq_empty {V : View} (h : V.Closed) (hn : V [] = none) : V = empty := by
  funext p
  cases p with
  | nil => exact hn
  | cons n p => exact h.eq_none (by simp [hn]) (by simp)

@[simp] theorem put_append (V : View) (p q : List Name) (X : View) :
    V.put p X (p ++ q) = X q := by
  simp [put]

theorem put_of_not_below (V : View) {p r : List Name} (X : View) (h : ¬ p <+: r) :
    V.put p X r = V r := by
  simp [put, h]

theorem put_nil_of_ne (V : View) {p : List Name} (hp : p ≠ []) (X : View) : V.put p X [] = V [] :=
  V.put_of_not_below X fun h => hp (List.prefix_nil.mp h)

theorem rmdir_of_not_below (V : View) {p r : List Name} (h : ¬ p <+: r) : V.rmdir p r = V r := by
  unfold rmdir
  split
  · exact V.put_of_not_below _ h
  · rfl

theorem put_put (V : View) (p : List Name) (X Y : View) : (V.put p X).put p Y = V.put p Y := by
  funext r
  by_cases h : p <+: r <;> simp [put, h]

theorem put_self (V : View) (p : List Name) (X : View) : V.put p X p = X [] := by
  simpa using V.put_append p [] X

theorem put_rmdir (V : View) (p : List Name) (X : View) : (V.rmdir p).put p X = V.put p X := by
  unfold rmdir
  split
  · exact V.put_put p empty X
  · rfl

theorem unlink_of_not_below (V : View) {p r : List Name} (h : ¬ p <+: r) :
    V.unlink p r = V r := by
  cases hp : V p with
  | none => simp [unlink, hp]
  | some o => cases o <;> simp [unlink, hp, V.put_of_not_below _ h]

theorem unlink_self {V : View} {p : List Name} (h : V p ≠ some .dir) :
    V.unlink p p = none ∧ ∀ X, (V.unlink p).put p X = V.put p X := by
  cases hp : V p with
  | none =>
      have hsame : V.unlink p = V := by simp [unlink, hp]
      rw [hsame]
      exact ⟨hp, fun _ => rfl⟩
  | some o =>
      cases o with
      | dir => exact absurd hp h
      | leaf i =>
          have hput : V.unlink p = V.put p empty := by simp [unlink, hp]
          rw [hput]
          exact ⟨V.put_self p empty, fun X => V.put_put p empty X⟩

/-- Replacements at paths of which neither is below the other commute. -/
theorem put_comm (V : View) {p q : List Name} (hpq : ¬ p <+: q) (hqp : ¬ q <+: p) (X Y : View) :
    (V.put p X).put q Y = (V.put q Y).put p X := by
  funext r
  by_cases hp : p <+: r
  · have hq : ¬ q <+: r := by
      intro hq
      rcases List.prefix_or_prefix_of_prefix hp hq with h | h
      · exact hpq h
      · exact hqp h
    simp [put, hp, hq]
  · by_cases hq : q <+: r <;> simp [put, hp, hq]

theorem put_below (V : View) (p : List Name) : V.put p (V.below p) = V := by
  funext r
  by_cases h : p <+: r
  · obtain ⟨t, rfl⟩ := h
    exact V.put_append p t (V.below p)
  · exact V.put_of_not_below _ h

theorem below_put_of_apart (V : View) {p q : List Name} (hpq : ¬ p <+: q) (hqp : ¬ q <+: p)
    (X : View) : (V.put p X).below q = V.below q := by
  funext r
  apply V.put_of_not_below
  intro h
  rcases List.prefix_or_prefix_of_prefix h (List.prefix_append q r) with h | h
  · exact hpq h
  · exact hqp h

theorem below_put_self (V : View) (p : List Name) (X : View) : (V.put p X).below p = X := by
  funext r
  exact V.put_append p r X

/-- A closed tree in the place of something, or nothing, keeps a tree closed. -/
theorem Closed.put {V X : View} (hV : V.Closed) (hX : X.Closed) {p : List Name}
    (h : V p ≠ none ∨ X = empty) : (V.put p X).Closed := by
  intro r s hr hs
  by_cases hpr : p <+: r
  · obtain ⟨t, rfl⟩ := hpr
    rw [put_append] at hr
    rw [List.append_assoc, put_append]
    exact hX t s hr hs
  · rw [V.put_of_not_below _ hpr] at hr
    by_cases hprs : p <+: r ++ s
    · obtain ⟨t, ht⟩ := hprs
      rw [← ht, put_append]
      rcases h with hp | rfl
      · -- `r` is above `p`, so it is a directory
        have hrp : r <+: p := by
          rcases List.prefix_or_prefix_of_prefix ⟨t, ht⟩ (List.prefix_append r s) with h' | h'
          · exact absurd h' hpr
          · exact h'
        obtain ⟨u, rfl⟩ := hrp
        refine absurd (hV r u hr ?_) hp
        rintro rfl
        exact hpr (by simp)
      · rfl
    · rw [V.put_of_not_below _ hprs]
      exact hV r s hr hs

theorem mkdir_of_not_below (V : View) {p r : List Name} (h : ¬ p <+: r) : V.mkdir p r = V r := by
  unfold mkdir
  split
  · exact V.put_of_not_below _ h
  · rfl

/-- Where there is no file or link, `mkdir` makes none. -/
theorem mkdir_absent_or_dir (V : View) (p : List Name) {r : List Name}
    (h : V r = none ∨ V r = some .dir) : V.mkdir p r = none ∨ V.mkdir p r = some .dir := by
  unfold mkdir
  split
  · by_cases hp : p <+: r
    · obtain ⟨t, rfl⟩ := hp
      rw [put_append]
      cases t with
      | nil => exact .inr rfl
      | cons n t => exact .inl rfl
    · rw [V.put_of_not_below _ hp]
      exact h
  · exact h

/-- A directory with something in it. -/
def Full (V : View) (p : List Name) : Prop := V p = some .dir ∧ V.below p ≠ one .dir

/-- `rmdir` does not touch a directory with something in it. -/
theorem full_rmdir (V : View) (p : List Name) : (V.rmdir p).Full p ↔ V.Full p := by
  unfold rmdir
  split
  · rename_i hone
    constructor
    · rintro ⟨hdir, _⟩
      rw [put_self] at hdir
      cases hdir
    · exact fun h => absurd hone h.2
  · rfl

/-- After `unlink` and `rmdir` there is nothing left, unless there was a directory with
something in it. -/
theorem rmdir_unlink (V : View) (p : List Name) :
    (¬ V.Full p → (V.unlink p).rmdir p p = none ∧
      ∀ X, ((V.unlink p).rmdir p).put p X = V.put p X) ∧
    (V.Full p → (V.unlink p).rmdir p = V) := by
  have hroot : ∀ U : View, U p = none → U.rmdir p = U := by
    intro U hU
    apply if_neg
    intro hone
    have := congrFun hone []
    simp [below, hU] at this
  cases h : V p with
  | none =>
      have hunlink : V.unlink p = V := by simp [unlink, h]
      rw [hunlink, hroot V h]
      exact ⟨fun _ => ⟨h, fun _ => rfl⟩, fun hfull => absurd hfull.1 (by simp [h])⟩
  | some o =>
      cases o with
      | leaf i =>
          have hunlink : V.unlink p = V.put p empty := by simp [unlink, h]
          rw [hunlink, hroot _ (V.put_self p empty)]
          refine ⟨fun _ => ⟨V.put_self p empty, fun X => V.put_put p empty X⟩, fun hfull => ?_⟩
          exact absurd hfull.1 (by simp [h])
      | dir =>
          have hunlink : V.unlink p = V := by simp [unlink, h]
          rw [hunlink]
          by_cases hone : V.below p = one .dir
          · have hrmdir : V.rmdir p = V.put p empty := if_pos hone
            rw [hrmdir]
            refine ⟨fun _ => ⟨V.put_self p empty, fun X => V.put_put p empty X⟩, fun hfull => ?_⟩
            exact absurd hone hfull.2
          · exact ⟨fun hfull => absurd ⟨h, hone⟩ hfull, fun _ => if_neg hone⟩

/-- After `mkdir` there is a directory, if there was nothing or one before. -/
theorem mkdir_self (V : View) {p : List Name} (h : V p = none ∨ V p = some .dir) :
    V.mkdir p p = some .dir := by
  unfold mkdir
  rcases h with h | h
  · rw [if_pos h]
    simpa using V.put_append p [] (one .dir)
  · rw [if_neg (by simp [h]), h]

/-- `mkdir` changes nothing that is there. -/
theorem mkdir_of_ne_none {V : View} (hV : V.Closed) (p : List Name) {r : List Name}
    (h : V r ≠ none) : V.mkdir p r = V r := by
  unfold mkdir
  split
  · rename_i hnone
    apply V.put_of_not_below
    rintro ⟨t, rfl⟩
    cases t with
    | nil => exact h (by simpa using hnone)
    | cons n t => exact h (hV p (n :: t) (by simp [hnone]) (by simp))
  · rfl

theorem put_singleton (V : View) (n : Name) (X : View) : V.put [n] X = V.set n X := by
  funext r
  cases r with
  | nil => simp [put]
  | cons m r =>
      by_cases h : m = n
      · subst h
        simp [put, set]
      · simp [put, set, h, Ne.symm h]

/-- Two views that agree at the root and below every name are equal. -/
theorem ext_sub {V W : View} (hroot : V [] = W []) (hsub : ∀ n, V.sub n = W.sub n) : V = W := by
  funext p
  cases p with
  | nil => exact hroot
  | cons n p => exact congrFun (hsub n) p

end View

namespace FS

variable (fs fs' : FS)

/-- Follow names downwards, without following links. This is how a path of a tree is meant
throughout. -/
def descend (fs : FS) : Ino → List Name → Option Ino
  | i, [] => some i
  | i, n :: p => (fs.child i n).bind fun j => fs.descend j p

def view (r : Ino) : View := fun p => (fs.descend r p).bind fs.obj

@[simp] theorem descend_nil (i : Ino) : fs.descend i [] = some i := rfl

theorem descend_cons (i : Ino) (n : Name) (p : List Name) :
    fs.descend i (n :: p) = (fs.child i n).bind fun j => fs.descend j p := rfl

theorem descend_cons_of_child {i j : Ino} {n : Name} (h : fs.child i n = some j) (p : List Name) :
    fs.descend i (n :: p) = fs.descend j p := by
  rw [descend_cons, h]
  rfl

theorem descend_append (i : Ino) (p q : List Name) :
    fs.descend i (p ++ q) = (fs.descend i p).bind fun j => fs.descend j q := by
  induction p generalizing i with
  | nil => rfl
  | cons n p ih =>
      rw [List.cons_append, descend_cons, descend_cons]
      cases fs.child i n with
      | none => rfl
      | some j => exact ih j

/-- A nonempty path goes through a child of the root. -/
theorem descend_cons_eq_some {i k : Ino} {n : Name} {p : List Name}
    (h : fs.descend i (n :: p) = some k) :
    ∃ j, fs.child i n = some j ∧ fs.descend j p = some k := by
  rw [descend_cons] at h
  exact Option.bind_eq_some_iff.mp h

@[simp] theorem view_nil (r : Ino) : fs.view r [] = fs.obj r := rfl

theorem view_sub_of_child {r j : Ino} {n : Name} (h : fs.child r n = some j) :
    (fs.view r).sub n = fs.view j := by
  funext p
  simp [View.sub, view, descend_cons_of_child fs h]

theorem view_sub_of_no_child {r : Ino} {n : Name} (h : fs.child r n = none) :
    (fs.view r).sub n = View.empty := by
  funext p
  simp [View.sub, view, descend_cons, h]

theorem view_closed (r : Ino) : (fs.view r).Closed := by
  intro p q hp hq
  unfold view at hp ⊢
  rw [descend_append]
  cases hd : fs.descend r p with
  | none => rfl
  | some i =>
      obtain ⟨n, q, rfl⟩ := List.exists_cons_of_ne_nil hq
      have hdir : fs.isDir i = false := by
        rw [hd, Option.bind_some] at hp
        rw [← Bool.not_eq_true]
        exact fun h => hp (fs.obj_eq_dir_iff.mpr h)
      have hchild : fs.child i n = none := by
        unfold child
        cases he : fs.entries i with
        | none => rfl
        | some es => simp [isDir, he] at hdir
      simp [descend_cons, hchild]

/-- What is reached through directories with unchanged entries stays reached. -/
theorem descend_congr {fs fs' : FS} {r : Ino}
    (h : ∀ p i, fs.descend r p = some i → fs'.entries i = fs.entries i) (p : List Name) :
    fs'.descend r p = fs.descend r p := by
  induction p generalizing r with
  | nil => rfl
  | cons n p ih =>
      have hchild : fs'.child r n = fs.child r n := by
        unfold child
        rw [h [] r rfl]
      rw [descend_cons, descend_cons, hchild]
      cases hc : fs.child r n with
      | none => rfl
      | some j =>
          exact ih fun q i hq => h (n :: q) i (by rw [descend_cons_of_child fs hc]; exact hq)

/-- A path none of whose steps changes leads to the same place. -/
theorem descend_congr_path {fs fs' : FS} {r : Ino} {p : List Name}
    (h : ∀ q m t i, p = q ++ m :: t → fs.descend r q = some i → fs'.child i m = fs.child i m) :
    fs'.descend r p = fs.descend r p := by
  induction p generalizing r with
  | nil => rfl
  | cons n p ih =>
      rw [descend_cons, descend_cons, h [] n p r rfl rfl]
      cases hc : fs.child r n with
      | none => rfl
      | some j =>
          refine ih fun q m t i hp hq => h (n :: q) m t i (by rw [hp]; rfl) ?_
          rw [descend_cons_of_child fs hc]
          exact hq

theorem view_congr {fs fs' : FS} {r : Ino}
    (h : ∀ p i, fs.descend r p = some i → fs'.entries i = fs.entries i ∧ fs'.obj i = fs.obj i) :
    fs'.view r = fs.view r := by
  funext p
  unfold view
  rw [descend_congr fun q i hq => (h q i hq).1]
  cases hd : fs.descend r p with
  | none => rfl
  | some i => exact (h p i hd).2

end FS

/-! ### Forests -/

/-- A family of roots on one device whose directories are all reached by exactly one
path from exactly one root, and whose entries all lead somewhere. -/
structure Forest {ι : Type} (fs : FS) (dev : Nat) (root : ι → Ino) : Prop where
  inj : ∀ {a b p q i}, fs.descend (root a) p = some i → fs.descend (root b) q = some i →
    fs.isDir i = true → a = b ∧ p = q
  live : ∀ {a p i}, fs.descend (root a) p = some i → fs.node i ≠ none
  onDev : ∀ {a p i}, fs.descend (root a) p = some i → i.dev = dev

/-- A forest whose entries and kinds of nodes are unchanged is still one. -/
theorem Forest.congr {ι : Type} {fs fs' : FS} {dev : Nat} {root : ι → Ino}
    (F : Forest fs dev root)
    (h : ∀ a p i, fs.descend (root a) p = some i →
      fs'.entries i = fs.entries i ∧ fs'.obj i = fs.obj i) : Forest fs' dev root := by
  have hdescend : ∀ a p, fs'.descend (root a) p = fs.descend (root a) p := fun a p =>
    FS.descend_congr (fun q i hq => (h a q i hq).1) p
  constructor
  · intro a b p q i hp hq hdir
    rw [hdescend] at hp hq
    apply F.inj hp hq
    rw [← FS.obj_eq_dir_iff, ← (h a p i hp).2, FS.obj_eq_dir_iff]
    exact hdir
  · intro a p i hp
    rw [hdescend] at hp
    rw [Ne, ← FS.obj_eq_none_iff, (h a p i hp).2, FS.obj_eq_none_iff]
    exact F.live hp
  · intro a p i hp
    rw [hdescend] at hp
    exact F.onDev hp

/-- The two roots of a merge, source first. -/
def pair (s d : Ino) : Bool → Ino
  | false => s
  | true => d

/-- From `fs` to `fs'` only directories of the forest were changed, and the
directories below its roots afterwards are old ones or new inodes. -/
structure Within {ι : Type} (fs fs' : FS) (root : ι → Ino) : Prop where
  frame : ∀ {k}, fs.node k ≠ none →
    (∀ a p, fs.descend (root a) p = some k → fs.isDir k = false) → fs'.node k = fs.node k
  grow : ∀ {a p k}, fs'.descend (root a) p = some k → fs'.isDir k = true →
    (∃ b q, fs.descend (root b) q = some k) ∨ fs.node k = none
  next : fs.next ≤ fs'.next

namespace Within

variable {ι : Type} {fs fs' fs'' : FS} {root : ι → Ino}

theorem refl (fs : FS) (root : ι → Ino) : Within fs fs root :=
  ⟨fun _ _ => rfl, fun {a p _} h _ => .inl ⟨a, p, h⟩, Nat.le_refl _⟩

theorem isDir_eq {k : Ino} (h : fs'.node k = fs.node k) : fs'.isDir k = fs.isDir k := by
  simp [FS.isDir, FS.entries, h]

/-- Files and links of any tree are left as they are. -/
theorem leaf_node (h : Within fs fs' root) {r i : Ino} {p : List Name}
    (hi : fs.view r p = some (.leaf i)) : fs'.node i = fs.node i := by
  obtain ⟨j, _, hobj⟩ := Option.bind_eq_some_iff.mp hi
  have hji := fs.obj_leaf_eq hobj
  subst hji
  apply h.frame
  · intro hnone
    rw [← FS.obj_eq_none_iff, hobj] at hnone
    cases hnone
  · intro _ _ _
    rw [FS.isDir, fs.entries_eq_none_of_leaf hobj]
    rfl

theorem trans (h : Within fs fs' root) (h' : Within fs' fs'' root) : Within fs fs'' root where
  frame := by
    intro k hk hout
    have hsame := h.frame hk hout
    rw [← hsame]
    refine h'.frame (hsame ▸ hk) fun a p hp => ?_
    by_contra hdir
    rw [Bool.not_eq_false] at hdir
    rcases h.grow hp hdir with ⟨b, q, hq⟩ | hnone
    · rw [isDir_eq hsame, hout b q hq] at hdir
      cases hdir
    · exact hk hnone
  grow := by
    intro a p k hp hdir
    rcases h'.grow hp hdir with ⟨b, q, hq⟩ | hnone
    · by_cases hkdir : fs'.isDir k = true
      · exact h.grow hq hkdir
      · -- a directory of `fs''` that is none in `fs'` cannot be: its node is unchanged
        by_cases hnode : fs'.node k = none
        · by_cases hk : fs.node k = none
          · exact .inr hk
          · by_cases hb : ∃ b q, fs.descend (root b) q = some k
            · exact .inl hb
            · have := h.frame hk fun b q hq => absurd ⟨b, q, hq⟩ hb
              exact absurd (this ▸ hnode) hk
        · have hsame := h'.frame hnode fun _ _ _ => by simpa using hkdir
          rw [isDir_eq hsame] at hdir
          exact absurd hdir hkdir
    · by_cases hk : fs.node k = none
      · exact .inr hk
      · by_cases hb : ∃ b q, fs.descend (root b) q = some k
        · exact .inl hb
        · have := h.frame hk fun b q hq => absurd ⟨b, q, hq⟩ hb
          exact absurd (this ▸ hnone) hk
  next := Nat.le_trans h.next h'.next

end Within

end Hub11.Posix
