import Hub11.Scripts.StageModules

/-!
What `stage-modules.sh` can change on the box.

`Done` says once what an action does when there is no link on its path. From it follow that an
action confined to the targets keeps everything else (`Kept`), and that a link it leaves
behind is at its own place. A copy leaves links, but never one that a later entry of the same
copy goes through: it goes down only into directories.
-/

namespace Hub11.Scripts.StageModules

open Hub11.Effect Hub11.Shell

/-! ### One action -/

/-- What an action does when there is no link on its path: nothing, or one change at its own place.
This is all that later proofs use of the kernel. -/
inductive Done (b : Box) : Action → Box → Prop where
  | nothing (a : Action) : Done b a b
  | removed (p : Path) : Done b (.remove p) (b.erase p)
  | made {p : Path} (h : b.objAt p = none) : Done b (.mkdir p) (b.put p .dir)
  | linked (p : Path) (t : Text) : Done b (.link p t) (b.put p (.symlink t))
  | renewed (p : Path) (data : Text) : Done b (.renew p data) (b.put p (.file data))
  | created (p : Path) (data : Text) : Done b (.store p data) (b.put p (.file data))
  | stored {p : Path} {i : Nat} (h : b.objAt p = some (.file i)) (data : Text) :
      Done b (.store p data) (b.write i data)
  | placed (p : Path) (e : Entry) : Done b (.place p e) (b.put p e)

/-- There is no link on the path of the action, if it goes through links at all. -/
def Direct (b : Box) (a : Action) : Prop :=
  a.resolves = true → ∀ q, q <+: a.target → b.isLink q = false

theorem act_done (k : Kernel) {b : Box} {a : Action} (h : Direct b a) : Done b a (k.act b a) := by
  cases a with
  | remove p => exact .removed p
  | mkdir p =>
      obtain hsite | ⟨hsite, -⟩ := k.site_eq b p fun q hq _ => h rfl q hq
      · simp only [Kernel.act, hsite]
        split
        · exact .made ‹_›
        · exact .nothing _
      · simp only [Kernel.act, hsite]
        exact .nothing _
  | link p t =>
      obtain hsite | ⟨hsite, -⟩ := k.site_eq b p fun q hq _ => h rfl q hq
      · simp only [Kernel.act, hsite]
        split
        · exact .nothing _
        · exact .linked p t
      · simp only [Kernel.act, hsite]
        exact .nothing _
  | renew p data =>
      obtain hfollow | hfollow := k.follow_eq b p (h rfl)
      · simp only [Kernel.act, hfollow]
        split
        · exact .nothing _
        · exact .renewed p data
      · simp only [Kernel.act, hfollow]
        exact .nothing _
  | store p data =>
      obtain hfollow | hfollow := k.follow_eq b p (h rfl)
      · simp only [Kernel.act, hfollow]
        split
        · exact .stored ‹_› data
        · exact .nothing _
        · exact .created p data
      · simp only [Kernel.act, hfollow]
        exact .nothing _
  | place p e => exact .placed p e

/-- A link that was not there is the action's own. -/
theorem Done.isLink {b b' : Box} {a : Action} (h : Done b a b') {q : Path}
    (hq : b'.isLink q = true) : b.isLink q = true ∨ q = a.target ∧ a.links = true := by
  cases h with
  | nothing => exact .inl hq
  | removed p =>
      by_cases hp : q = p
      · simp [Box.isLink, Box.objAt_erase, hp] at hq
      · simp only [Box.isLink, Box.objAt_erase, hp, if_false] at hq
        exact .inl hq
  | stored h data => exact .inl hq
  | made h =>
      obtain hold | ⟨-, t, ht⟩ := Box.isLink_put hq
      · exact .inl hold
      · cases ht
  | linked p t =>
      obtain hold | ⟨rfl, -⟩ := Box.isLink_put hq
      · exact .inl hold
      · exact .inr ⟨rfl, rfl⟩
  | renewed p data =>
      obtain hold | ⟨-, t, ht⟩ := Box.isLink_put hq
      · exact .inl hold
      · cases ht
  | created p data =>
      obtain hold | ⟨-, t, ht⟩ := Box.isLink_put hq
      · exact .inl hold
      · cases ht
  | placed p e =>
      obtain hold | ⟨rfl, t, rfl⟩ := Box.isLink_put hq
      · exact .inl hold
      · exact .inr ⟨rfl, rfl⟩

/-! ### What is kept -/

namespace Dist

variable (D : Dist)

/-- At or below one of the three directories that the script is for. -/
def Target (p : Path) : Prop := scratch <+: p ∨ D.modulesDir <+: p ∨ firmwareDir <+: p

/-- At or above one of them. -/
def Above (p : Path) : Prop := p <+: scratch ∨ p <+: D.modulesDir ∨ p <+: firmwareDir

end Dist

/-- The file has a name below `/usr/lib/firmware`, whatever other names it has. -/
def Shared (b : Box) (i : Nat) : Prop := ∃ q, firmwareDir <+: q ∧ b.objAt q = some (.file i)

/-- Outside the targets only directories on the way to them are new, and only files that have
a name in the firmware directory too have other contents. -/
structure Kept (D : Dist) (b b' : Box) : Prop where
  place : ∀ p, ¬ D.Target p → b'.objAt p = b.objAt p ∨
    b.objAt p = none ∧ b'.objAt p = some .dir ∧ D.Above p
  content : ∀ p i, ¬ D.Target p → b.objAt p = some (.file i) →
    b'.content i = b.content i ∨ Shared b i
  own : ∀ q i, firmwareDir <+: q → b'.objAt q = some (.file i) →
    Shared b i ∨ ∀ p, ¬ D.Target p → b.objAt p ≠ some (.file i)

/-- The action stays in the targets, or makes a directory on the way to them. -/
def Confined (D : Dist) : Action → Prop
  | .mkdir p => D.Target p ∨ D.Above p
  | .store p _ => firmwareDir <+: p
  | a => D.Target a.target

section Kept

variable {D : Dist} {b b' : Box}

theorem Kept.refl (D : Dist) (b : Box) : Kept D b b where
  place _ _ := .inl rfl
  content _ _ _ _ := .inl rfl
  own q _ hq h := .inl ⟨q, hq, h⟩

/-- A new inode is none of those outside. -/
theorem Kept.ne_fresh (h : Kept D b b') {p : Path} {i : Nat} (hp : ¬ D.Target p)
    (hi : b.objAt p = some (.file i)) : i ≠ b'.fresh := by
  have hsame : b'.objAt p = some (.file i) := by
    rcases h.place p hp with hsame | ⟨hnone, -⟩
    · exact hsame.trans hi
    · cases hnone.symm.trans hi
  exact Nat.ne_of_lt (Box.lt_fresh hsame)

/-- Something new in the targets, or a directory on the way to them. -/
theorem Kept.put (h : Kept D b b') {p : Path} {e : Entry}
    (hp : D.Target p ∨ D.Above p ∧ b'.objAt p = none ∧ e = .dir) : Kept D b (b'.put p e) where
  place q hq := by
    by_cases hqp : q = p
    · subst hqp
      obtain htarget | ⟨habove, hnone, rfl⟩ := hp
      · exact absurd htarget hq
      · refine .inr ⟨?_, Box.objAt_put_dir q, habove⟩
        rcases h.place q hq with hsame | ⟨hold, -⟩
        · exact hsame.symm.trans hnone
        · exact hold
    · rw [Box.objAt_put_of_ne hqp]
      exact h.place q hq
  content q i hq hi := by
    rw [Box.content_put (h.ne_fresh hq hi)]
    exact h.content q i hq hi
  own q i hq hi := by
    rcases Box.objAt_put_file hi with hold | rfl
    · exact h.own q i hq hold
    · exact .inr fun p hp hfile => h.ne_fresh hp hfile rfl

theorem Kept.erase (h : Kept D b b') {p : Path} (hp : D.Target p) : Kept D b (b'.erase p) where
  place q hq := by
    have hqp : q ≠ p := fun heq => hq (heq ▸ hp)
    rw [Box.objAt_erase, if_neg hqp]
    exact h.place q hq
  content := h.content
  own q i hq hi := by
    rw [Box.objAt_erase] at hi
    split at hi
    · cases hi
    · exact h.own q i hq hi

theorem Kept.write (h : Kept D b b') {p : Path} {i : Nat} (hp : firmwareDir <+: p)
    (hi : b'.objAt p = some (.file i)) (data : Text) : Kept D b (b'.write i data) where
  place := h.place
  content q j hq hj := by
    by_cases hji : j = i
    · subst hji
      rcases h.own p j hp hi with hshared | hout
      · exact .inr hshared
      · exact absurd hj (hout q hq)
    · have hsame : (b'.write i data).content j = b'.content j := by
        simp [Box.write, hji]
      rw [hsame]
      exact h.content q j hq hj
  own := h.own

theorem Kept.done (h : Kept D b b') {a : Action} {b'' : Box} (hdone : Done b' a b'')
    (ha : Confined D a) : Kept D b b'' := by
  cases hdone with
  | nothing => exact h
  | removed p => exact h.erase ha
  | made hnone =>
      rcases ha with ha | ha
      · exact h.put (.inl ha)
      · exact h.put (.inr ⟨ha, hnone, rfl⟩)
  | linked p t => exact h.put (.inl ha)
  | renewed p data => exact h.put (.inl ha)
  | created p data => exact h.put (.inl (.inr (.inr ha)))
  | stored hi data => exact h.write ha hi data
  | placed p e => exact h.put (.inl ha)

end Kept

/-! ### Lists of actions -/

/-- The first action leaves a link on the path of the second, which would then go elsewhere. -/
def Blocks (a a' : Action) : Prop :=
  a.links = true ∧ a'.resolves = true ∧ a.target <+: a'.target

/-- Actions that can be done one after the other: each is confined, none has a link on its
path, and none puts one on the path of a later one. -/
structure Orderly (D : Dist) (b : Box) (as : List Action) : Prop where
  confined : ∀ a ∈ as, Confined D a
  direct : ∀ a ∈ as, Direct b a
  unblocked : as.Pairwise fun a a' => ¬ Blocks a a'

section Orderly

variable {D : Dist} {b b' : Box} {as : List Action}

@[simp] theorem Action.target_tear (f : Text → Text) (a : Action) :
    (a.tear f).target = a.target := by
  cases a with
  | place p e => cases e <;> rfl
  | _ => rfl

/-- A part of orderly actions is orderly too. -/
theorem Orderly.part (h : Orderly D b as) (c : Choice) : Orderly D b (c.part as) := by
  have hconfined : ∀ a, Confined D a → Confined D (a.tear c.torn) := by
    intro a ha
    cases a with
    | place p e => cases e <;> exact ha
    | _ => exact ha
  have hlinks : ∀ a : Action, (a.tear c.torn).links = a.links := by
    intro a
    cases a with
    | place p e => cases e <;> rfl
    | _ => rfl
  have hresolves : ∀ a : Action, (a.tear c.torn).resolves = a.resolves := by
    intro a
    cases a with
    | place p e => cases e <;> rfl
    | _ => rfl
  have hmem : ∀ a ∈ as.filter c.did, a ∈ as := fun a ha => List.mem_of_mem_filter ha
  constructor
  · exact List.forall_mem_map.mpr fun a ha => hconfined a (h.confined a (hmem a ha))
  · refine List.forall_mem_map.mpr fun a ha => ?_
    unfold Direct
    rw [hresolves, Action.target_tear]
    exact h.direct a (hmem a ha)
  · unfold Choice.part
    rw [List.pairwise_map]
    refine (h.unblocked.sublist List.filter_sublist).imp fun hab => ?_
    unfold Blocks at hab ⊢
    rwa [hlinks, hresolves, Action.target_tear, Action.target_tear]

theorem Orderly.done {k : Kernel} {c : Choice} {op : Cmd} (h : Orderly D b (work k D c b op)) :
    Orderly D b (done k D c b op) := by
  unfold StageModules.done
  split
  · split
    · exact h
    · exact h.part c
  · exact h

theorem Orderly.tail {a : Action} (h : Orderly D b (a :: as)) (k : Kernel) :
    Orderly D (k.act b a) as where
  confined a' ha' := h.confined a' (List.mem_cons_of_mem a ha')
  direct a' ha' hres q hq := by
    have hdone := act_done k (h.direct a List.mem_cons_self)
    by_contra hlink
    rcases hdone.isLink ((Bool.not_eq_false _).mp hlink) with hold | ⟨rfl, hlinks⟩
    · rw [h.direct a' (List.mem_cons_of_mem a ha') hres q hq] at hold
      cases hold
    · exact List.rel_of_pairwise_cons h.unblocked ha' ⟨hlinks, hres, hq⟩
  unblocked := h.unblocked.of_cons

/-- Orderly actions keep what is outside. -/
theorem Orderly.kept (k : Kernel) {b₀ : Box} (h : Orderly D b as) (hkept : Kept D b₀ b) :
    Kept D b₀ (as.foldl k.act b) := by
  induction as generalizing b with
  | nil => exact hkept
  | cons a as ih =>
      refine ih (h.tail k) (hkept.done (act_done k (h.direct a List.mem_cons_self)) ?_)
      exact h.confined a List.mem_cons_self

/-- They leave links only at their own places. -/
theorem Orderly.isLink (k : Kernel) (h : Orderly D b as) {q : Path}
    (hq : (as.foldl k.act b).isLink q = true) :
    b.isLink q = true ∨ ∃ a ∈ as, q = a.target ∧ a.links = true := by
  induction as generalizing b with
  | nil => exact .inl hq
  | cons a as ih =>
      rcases ih (h.tail k) hq with hold | ⟨a', ha', hlink⟩
      · rcases (act_done k (h.direct a List.mem_cons_self)).isLink hold with hold | hlink
        · exact .inl hold
        · exact .inr ⟨a, List.mem_cons_self, hlink⟩
      · exact .inr ⟨a', List.mem_cons_of_mem a ha', hlink⟩

/-- Actions of which none leaves a link need only be direct. -/
theorem orderly_of_unlinking (hconfined : ∀ a ∈ as, Confined D a) (hdirect : ∀ a ∈ as, Direct b a)
    (hlinks : ∀ a ∈ as, a.links = false) : Orderly D b as where
  confined := hconfined
  direct := hdirect
  unblocked := by
    refine List.Pairwise.imp_of_mem (R := fun _ _ => True) (fun ha _ _ hblocks => ?_)
      (List.pairwise_of_forall fun _ _ => trivial)
    exact Bool.noConfusion ((hlinks _ ha).symm.trans hblocks.1)

/-- Actions at fixed places need only be in the targets. -/
theorem orderly_of_placing (hconfined : ∀ a ∈ as, Confined D a)
    (hres : ∀ a ∈ as, a.resolves = false) : Orderly D b as where
  confined := hconfined
  direct a ha h := by
    rw [hres a ha] at h
    cases h
  unblocked := by
    refine List.Pairwise.imp_of_mem (R := fun _ _ => True) (fun _ ha _ hblocks => ?_)
      (List.pairwise_of_forall fun _ _ => trivial)
    exact Bool.noConfusion ((hres _ ha).symm.trans hblocks.2.1)

end Orderly

/-! ### The commands -/

/-- Nothing on the way to `p` and nothing below it is a link. -/
def Clear (b : Box) (p : Path) : Prop := ∀ q, q <+: p ∨ p <+: q → b.isLink q = false

section Commands

variable {D : Dist} {k : Kernel} {b : Box}

/-- On the way to something below a clear path there is no link. -/
theorem Clear.direct {p q : Path} (h : Clear b p) (hq : p <+: q) :
    ∀ r, r <+: q → b.isLink r = false :=
  fun r hr => h r (List.prefix_or_prefix_of_prefix hr hq)

theorem mem_mkdirs {p : Path} {a : Action} (h : a ∈ mkdirs p) : ∃ q, q <+: p ∧ a = .mkdir q := by
  obtain ⟨q, hq, rfl⟩ := List.mem_map.mp h
  exact ⟨q, (List.mem_inits q p).mp (List.mem_of_mem_filter hq), rfl⟩

/-- `mkdir -p` of a path without links. -/
theorem mkdirs_orderly {p : Path} (hclear : ∀ q, q <+: p → b.isLink q = false)
    (hconfined : ∀ q, q <+: p → D.Target q ∨ D.Above q) : Orderly D b (mkdirs p) := by
  apply orderly_of_unlinking
  · intro a ha
    obtain ⟨q, hq, rfl⟩ := mem_mkdirs ha
    exact hconfined q hq
  · intro a ha
    obtain ⟨q, hq, rfl⟩ := mem_mkdirs ha
    exact fun _ r hr => hclear r (hr.trans hq)
  · intro a ha
    obtain ⟨q, -, rfl⟩ := mem_mkdirs ha
    rfl

theorem mem_found {x q : Path} (h : q ∈ found b x) :
    ∀ r, r <+: q → r ≠ q → b.objAt (x ++ r) = some .dir := by
  have hmem := (List.mem_insertionSort _).mp h
  have hcond := of_decide_eq_true (List.mem_filter.mp hmem).2
  exact fun r hr => hcond.2 r ((List.mem_inits r q).mpr hr)

theorem found_nodup (x : Path) : (found b x).Nodup :=
  (List.perm_insertionSort _ _).nodup_iff.mpr ((List.nodup_dedup _).filter _)

theorem copyEntry_spec {renew : Bool} {x dest q : Path} {a : Action}
    (h : copyEntry renew b x dest q = some a) :
    a.target = dest ++ q ∧ a.resolves = true ∧
      (a.links = true → ∃ t, b.look (x ++ q) = some (.symlink t)) := by
  unfold copyEntry at h
  split at h
  · cases h
    exact ⟨rfl, rfl, fun hl => by cases hl⟩
  · rename_i t hlook
    cases h
    exact ⟨rfl, rfl, fun _ => ⟨t, hlook⟩⟩
  · cases h
    cases renew <;> exact ⟨rfl, rfl, fun hl => by cases hl⟩
  · cases h

theorem mem_copyInto {renew : Bool} {src dest : Path} {a : Action}
    (h : a ∈ copyInto renew k b src dest) : ∃ x q, copyEntry renew b x dest q = some a := by
  unfold copyInto at h
  split at h
  · rename_i x _
    obtain ⟨q, -, hq⟩ := List.mem_filterMap.mp h
    exact ⟨x, q, hq⟩
  · cases h

/-- A copy into a directory without links puts no link on its own way. -/
theorem copyInto_unblocked (renew : Bool) (src dest : Path) :
    (copyInto renew k b src dest).Pairwise fun a a' => ¬ Blocks a a' := by
  unfold copyInto
  split
  · rename_i x _
    rw [List.pairwise_filterMap]
    refine List.Pairwise.imp_of_mem (fun {q q'} _ hq' hne a ha a' ha' hblocks => ?_)
      (found_nodup (b := b) x)
    obtain ⟨htarget, -, hlinks⟩ := copyEntry_spec ha
    obtain ⟨htarget', -, -⟩ := copyEntry_spec ha'
    obtain ⟨t, hlook⟩ := hlinks hblocks.1
    -- the link would be a directory that the copy has gone down into
    have hprefix : q <+: q' := by
      have := hblocks.2.2
      rw [htarget, htarget'] at this
      exact (List.prefix_append_right_inj dest).mp this
    have hdir := mem_found hq' q hprefix hne
    simp only [Box.look, hdir] at hlook
    cases hlook
  · exact List.Pairwise.nil

theorem copyInto_orderly {renew : Bool} {src dest : Path} (hclear : Clear b dest)
    (hconfined : ∀ a ∈ copyInto renew k b src dest, Confined D a) :
    Orderly D b (copyInto renew k b src dest) where
  confined := hconfined
  direct a ha _ := by
    obtain ⟨x, q, hq⟩ := mem_copyInto ha
    rw [(copyEntry_spec hq).1]
    exact hclear.direct (List.prefix_append dest q)
  unblocked := copyInto_unblocked renew src dest

/-! ### `rm -rf` -/

theorem objAt_removed (ps : List Path) (q : Path) :
    ((ps.map Action.remove).foldl k.act b).objAt q = if q ∈ ps then none else b.objAt q := by
  induction ps generalizing b with
  | nil => simp
  | cons p ps ih =>
      simp only [List.map_cons, List.foldl_cons, ih, Kernel.act, Box.objAt_erase, List.mem_cons]
      by_cases hq : q = p <;> simp [hq]

theorem mem_under {p q : Path} (hq : b.objAt q ≠ none) (hpq : p <+: q) : q ∈ b.under p := by
  have hmem : ∀ es : List (Path × Obj), List.lookup q es ≠ none → q ∈ es.map Prod.fst := by
    intro es hes
    induction es with
    | nil => exact absurd rfl hes
    | cons e es ih =>
        obtain ⟨x, o⟩ := e
        rw [Box.lookup_cons_eq] at hes
        split at hes
        · subst q
          exact List.mem_cons_self
        · exact List.mem_cons_of_mem _ (ih hes)
  exact List.mem_dedup.mpr (List.mem_filter.mpr ⟨hmem b.entries hq, decide_eq_true hpq⟩)

/-- On the way to the scratch directory, itself apart, there is no link. -/
def WayClear (b : Box) : Prop := ∀ q, q <+: ["tmp".toList] → b.isLink q = false

theorem WayClear.site (h : WayClear b) :
    k.site b scratch = some scratch ∨
      k.site b scratch = none ∧ ∀ q, scratch <+: q → b.objAt q = none := by
  apply k.site_eq
  intro q hq hne
  have hsplit : scratch = ["tmp".toList] ++ ["modstage".toList] := rfl
  rw [hsplit] at hq hne
  rcases List.prefix_concat_iff.mp hq with rfl | hq
  · exact absurd rfl hne
  · exact h q hq

theorem removeAll_orderly (h : WayClear b) : Orderly D b (removeAll k b scratch) := by
  have hmem : ∀ a ∈ removeAll k b scratch, ∃ p, scratch <+: p ∧ a = .remove p := by
    intro a ha
    rcases h.site (k := k) with hsite | ⟨hsite, -⟩
    · simp only [removeAll, hsite] at ha
      obtain ⟨p, hp, rfl⟩ := List.mem_map.mp ha
      have hfilter := List.mem_filter.mp (List.mem_dedup.mp hp)
      exact ⟨p, of_decide_eq_true hfilter.2, rfl⟩
    · simp only [removeAll, hsite] at ha
      cases ha
  apply orderly_of_placing
  · intro a ha
    obtain ⟨p, hp, rfl⟩ := hmem a ha
    exact .inl hp
  · intro a ha
    obtain ⟨p, -, rfl⟩ := hmem a ha
    rfl

/-- Nothing is left of the scratch directory. -/
theorem removeAll_empties (h : WayClear b) {q : Path} (hq : scratch <+: q) :
    ((removeAll k b scratch).foldl k.act b).objAt q = none := by
  rcases h.site (k := k) with hsite | ⟨hsite, hnone⟩
  · simp only [removeAll, hsite]
    rw [objAt_removed]
    by_cases hmem : q ∈ b.under scratch
    · exact if_pos hmem
    · rw [if_neg hmem]
      by_contra hne
      exact hmem (mem_under hne hq)
  · simp only [removeAll, hsite]
    exact hnone q hq

end Commands

/-! ### Where links may be -/

theorem Orderly.unlinked {D : Dist} {b : Box} {as : List Action} (k : Kernel) (h : Orderly D b as)
    {Z : Path → Prop} (hZ : ∀ q, Z q → b.isLink q = false)
    (hlinks : ∀ a ∈ as, a.links = true → ¬ Z a.target) :
    ∀ q, Z q → (as.foldl k.act b).isLink q = false := by
  intro q hq
  by_contra hlink
  rcases h.isLink k ((Bool.not_eq_false _).mp hlink) with hold | ⟨a, ha, rfl, hal⟩
  · rw [hZ q hq] at hold
    cases hold
  · exact hlinks a ha hal hq

namespace Dist

variable (D : Dist)

/-- At, above or below `/usr/lib/firmware`, or above the scratch directory. -/
def FirmwareZone (p : Path) : Prop := p <+: ["tmp".toList] ∨ p <+: firmwareDir ∨ firmwareDir <+: p

/-- The same with the modules of the release. No link may be there when the script starts. -/
def Zone (p : Path) : Prop := FirmwareZone p ∨ p <+: D.modulesDir ∨ D.modulesDir <+: p

variable {D}

theorem not_zone_of_scratch {p : Path} (h : scratch <+: p) : ¬ D.Zone p := by
  obtain ⟨r, rfl⟩ := h
  simp [Zone, FirmwareZone, scratch, firmwareDir, modulesDir, List.cons_prefix_cons]

theorem not_firmwareZone_of_modulesDir {p : Path} (h : D.modulesDir <+: p) : ¬ FirmwareZone p := by
  obtain ⟨r, rfl⟩ := h
  simp [FirmwareZone, firmwareDir, modulesDir, List.cons_prefix_cons]

theorem not_way_of_firmwareDir {p : Path} (h : firmwareDir <+: p) : ¬ p <+: ["tmp".toList] := by
  obtain ⟨r, rfl⟩ := h
  simp [firmwareDir, List.cons_prefix_cons]

end Dist

/-! ### The whole script -/

section Run

open Script

variable {D : Dist} {k : Kernel} {b₀ b : Box}

/-- The script keeps what is outside, wherever it stops. -/
abbrev Keeps (k : Kernel) (D : Dist) (b₀ : Box) (p : Script Cmd (fun _ => Text) Unit) (b : Box) :
    Prop :=
  p.run.Always (machine k D) Anything (Kept D b₀) (fun _ _ => True) b

/-- The rule for a command: its actions are orderly in the state it meets, and the rest goes on from
what it has done. -/
theorem keeps_must {op : Cmd} {f : Text → Script Cmd (fun _ => Text) Unit} (hkept : Kept D b₀ b)
    (horderly : ∀ c, Orderly D b (work k D c b op))
    (hnext : ∀ c t b', output D op = t → (done k D c b op).foldl k.act b = b' → Kept D b₀ b' →
      Keeps k D b₀ (f t) b') : Keeps k D b₀ (must op >>= f) b := by
  refine always_must hkept (fun c _ hnone => ?_) fun c t _ hsome => ?_
  · unfold machine at hnone ⊢
    split
    · rename_i hok
      rw [if_pos hok] at hnone
      cases hnone
    · exact ⟨((horderly c).part c).kept k hkept, trivial⟩
  · unfold machine at hsome ⊢
    split
    · rename_i hok
      rw [if_pos hok] at hsome
      cases hsome
      exact hnext c _ _ rfl rfl ((horderly c).done.kept k hkept)
    · rename_i hok
      rw [if_neg hok] at hsome
      cases hsome

/-- A command that does nothing on the box. -/
theorem keeps_idle {op : Cmd} {f : Text → Script Cmd (fun _ => Text) Unit} (hkept : Kept D b₀ b)
    (hidle : ∀ c, work k D c b op = []) (hnext : ∀ t, Keeps k D b₀ (f t) b) :
    Keeps k D b₀ (must op >>= f) b := by
  refine keeps_must hkept (fun c => ?_) fun c t b' _ hb' _ => ?_
  · rw [hidle c]
    exact ⟨by simp, by simp, List.Pairwise.nil⟩
  · have hdone : done k D c b op = [] := by
      unfold done
      split
      · simp [hidle c, Choice.part]
      · exact hidle c
    rw [hdone] at hb'
    subst hb'
    exact hnext t

/-- The end of the script removes the scratch directory and nothing else. -/
theorem keeps_cleanUp (hkept : Kept D b₀ b) (hway : WayClear b) : Keeps k D b₀ cleanUp b := by
  refine keeps_idle hkept (fun _ => rfl) fun _ => ?_
  refine keeps_must hkept (fun _ => removeAll_orderly hway) fun _ _ b₁ _ _ hkept₁ => ?_
  exact keeps_idle hkept₁ (fun _ => rfl) fun _ => ⟨hkept₁, trivial⟩

theorem cpFirmware_orderly (hzone : ∀ q, Dist.FirmwareZone q → b.isLink q = false) :
    Orderly D b (copyInto false k b scratchFw firmwareDir) := by
  refine copyInto_orderly (fun q hq => hzone q (.inr hq)) fun a ha => ?_
  obtain ⟨x, q, hq⟩ := mem_copyInto ha
  have htarget := (copyEntry_spec hq).1
  have hfirmware : firmwareDir <+: a.target := htarget ▸ List.prefix_append firmwareDir q
  cases a with
  | mkdir p => exact .inl (.inr (.inr hfirmware))
  | store p data => exact hfirmware
  | _ => exact .inr (.inr hfirmware)

/-- From `mkdir -p /usr/lib/firmware` on. There may be links among the modules by then, but not
here. -/
theorem keeps_installFirmware (hkept : Kept D b₀ b)
    (hzone : ∀ q, Dist.FirmwareZone q → b.isLink q = false) :
    Keeps k D b₀ installFirmware b := by
  have hmk : Orderly D b (mkdirs firmwareDir) :=
    mkdirs_orderly (fun q hq => hzone q (.inr (.inl hq))) fun q hq => .inr (.inr (.inr hq))
  refine keeps_must hkept (fun _ => hmk) fun _ _ b₁ _ hb₁ hkept₁ => ?_
  have hzone₁ : ∀ q, Dist.FirmwareZone q → b₁.isLink q = false := by
    rw [← hb₁]
    refine hmk.unlinked k hzone fun a ha hlinks => ?_
    obtain ⟨q, -, rfl⟩ := mem_mkdirs ha
    cases hlinks
  have hcp : Orderly D b₁ (copyInto false k b₁ scratchFw firmwareDir) := cpFirmware_orderly hzone₁
  refine keeps_must hkept₁ (fun _ => hcp) fun _ _ b₂ _ hb₂ hkept₂ => ?_
  refine keeps_cleanUp hkept₂ ?_
  rw [← hb₂]
  refine hcp.unlinked k (fun q hq => hzone₁ q (.inl hq)) fun a ha _ => ?_
  obtain ⟨x, q, hq⟩ := mem_copyInto ha
  rw [(copyEntry_spec hq).1]
  exact Dist.not_way_of_firmwareDir (List.prefix_append firmwareDir q)

theorem cpModules_orderly (hzone : ∀ q, D.Zone q → b.isLink q = false) :
    Orderly D b (copyInto true k b D.unpacked D.modulesDir) := by
  refine copyInto_orderly (fun q hq => hzone q (.inr hq)) fun a ha => ?_
  obtain ⟨x, q, hq⟩ := mem_copyInto ha
  have htarget := (copyEntry_spec hq).1
  have hmodules : D.modulesDir <+: a.target := htarget ▸ List.prefix_append D.modulesDir q
  cases a with
  | mkdir p => exact .inl (.inr (.inl hmodules))
  | store p data =>
      unfold copyEntry at hq
      split at hq <;> cases hq
  | _ => exact .inr (.inl hmodules)

theorem depmod_orderly (fs : List (Path × Entry)) :
    Orderly D b (fs.map fun f => .place (D.modulesDir ++ f.1) f.2) := by
  apply orderly_of_placing
  · exact List.forall_mem_map.mpr fun f _ => .inr (.inl (List.prefix_append D.modulesDir f.1))
  · exact List.forall_mem_map.mpr fun f _ => rfl

/-- From `mkdir -p` of the modules on, whatever the archive has brought into the scratch
directory. -/
theorem keeps_installModules (hkept : Kept D b₀ b) (hzone : ∀ q, D.Zone q → b.isLink q = false) :
    Keeps k D b₀ installModules b := by
  have hmk : Orderly D b (mkdirs D.modulesDir) :=
    mkdirs_orderly (fun q hq => hzone q (.inr (.inl hq))) fun q hq => .inr (.inr (.inl hq))
  refine keeps_must hkept (fun _ => hmk) fun _ _ b₁ _ hb₁ hkept₁ => ?_
  have hzone₁ : ∀ q, D.Zone q → b₁.isLink q = false := by
    rw [← hb₁]
    refine hmk.unlinked k hzone fun a ha hlinks => ?_
    obtain ⟨q, -, rfl⟩ := mem_mkdirs ha
    cases hlinks
  have hcp : Orderly D b₁ (copyInto true k b₁ D.unpacked D.modulesDir) := cpModules_orderly hzone₁
  refine keeps_must hkept₁ (fun _ => hcp) fun _ _ b₂ _ hb₂ hkept₂ => ?_
  -- from here on there may be links among the modules
  have hzone₂ : ∀ q, Dist.FirmwareZone q → b₂.isLink q = false := by
    rw [← hb₂]
    refine hcp.unlinked k (fun q hq => hzone₁ q (.inl hq)) fun a ha _ => ?_
    obtain ⟨x, q, hq⟩ := mem_copyInto ha
    rw [(copyEntry_spec hq).1]
    exact Dist.not_firmwareZone_of_modulesDir (List.prefix_append D.modulesDir q)
  refine keeps_must hkept₂ (fun c => depmod_orderly c.depmod) fun c _ b₃ _ hb₃ hkept₃ => ?_
  refine keeps_installFirmware hkept₃ ?_
  rw [← hb₃]
  refine (depmod_orderly c.depmod).unlinked k hzone₂ fun a ha _ => ?_
  obtain ⟨f, -, rfl⟩ := List.mem_map.mp ha
  exact Dist.not_firmwareZone_of_modulesDir (List.prefix_append D.modulesDir f.1)

/-- Actions in the scratch directory while it has no links. -/
theorem scratch_orderly {as : List Action} (hclear : Clear b scratch)
    (htarget : ∀ a ∈ as, scratch <+: a.target)
    (hkind : ∀ a ∈ as, (∃ p, a = .mkdir p) ∨ ∃ p data, a = .renew p data) : Orderly D b as := by
  apply orderly_of_unlinking
  · intro a ha
    have h := htarget a ha
    rcases hkind a ha with ⟨p, rfl⟩ | ⟨p, data, rfl⟩
    · exact .inl (.inl h)
    · exact .inl h
  · exact fun a ha _ => hclear.direct (htarget a ha)
  · intro a ha
    rcases hkind a ha with ⟨p, rfl⟩ | ⟨p, data, rfl⟩ <;> rfl

theorem mkScratch_orderly (hclear : Clear b scratch) : Orderly D b (mkdirs scratchFw) := by
  have hprefix : scratch <+: scratchFw := List.prefix_append scratch _
  refine mkdirs_orderly (hclear.direct hprefix) fun q hq => ?_
  rcases List.prefix_or_prefix_of_prefix hq hprefix with habove | hbelow
  · exact .inr (.inl habove)
  · exact .inl (.inl hbelow)

theorem scpFirmware_orderly (hclear : Clear b scratch) (c : Choice) :
    Orderly D b (work k D c b .scpFirmware) := by
  have hfw : ∀ q, scratch <+: scratchFw ++ q := fun q =>
    (List.prefix_append scratch _).trans (List.prefix_append scratchFw q)
  refine scratch_orderly hclear (List.forall_mem_map.mpr fun f _ => ?_)
    (List.forall_mem_map.mpr fun f _ => ?_)
  · cases f.2 <;> exact hfw f.1
  · cases f.2 with
    | none => exact .inl ⟨_, rfl⟩
    | some data => exact .inr ⟨_, data, rfl⟩

theorem mem_extractMember {m : Member} {a : Action} (h : a ∈ extractMember m) :
    ∃ p e, a = .place (scratch ++ p) e := by
  unfold extractMember at h
  split at h
  · cases h
  · rcases List.mem_append.mp h with h | h
    · obtain ⟨q, -, rfl⟩ := List.mem_map.mp h
      exact ⟨q, .dir, rfl⟩
    · exact ⟨m.place, m.entry, List.mem_singleton.mp h⟩

theorem extract_orderly (ms : List Member) : Orderly D b (ms.flatMap extractMember) := by
  have hmem : ∀ a ∈ ms.flatMap extractMember, ∃ p e, a = .place (scratch ++ p) e := by
    intro a ha
    obtain ⟨m, -, ha⟩ := List.mem_flatMap.mp ha
    exact mem_extractMember ha
  apply orderly_of_placing
  · intro a ha
    obtain ⟨p, e, rfl⟩ := hmem a ha
    exact .inl (List.prefix_append scratch p)
  · intro a ha
    obtain ⟨p, e, rfl⟩ := hmem a ha
    rfl

/-- Unpacked in full or in part, the archive stays in the scratch directory. -/
theorem mem_done_extract {c : Choice} {a : Action} (ha : a ∈ done k D c b .extract) :
    scratch <+: a.target := by
  have hwhole : ∀ a ∈ work k D c b .extract, scratch <+: a.target := by
    intro a ha
    obtain ⟨m, -, ha⟩ := List.mem_flatMap.mp ha
    obtain ⟨p, e, rfl⟩ := mem_extractMember ha
    exact List.prefix_append scratch p
  change a ∈ if c.whole then work k D c b .extract else c.part (work k D c b .extract) at ha
  split_ifs at ha
  · exact hwhole a ha
  · obtain ⟨a', ha', rfl⟩ := List.mem_map.mp ha
    rw [Action.target_tear]
    exact hwhole a' (List.mem_of_mem_filter ha')

/-- The zone with the scratch directory in it. -/
def Dist.WholeZone (D : Dist) (p : Path) : Prop := D.Zone p ∨ p <+: scratch ∨ scratch <+: p

/-- After `rm -rf` there is no link in the scratch directory either. -/
theorem removeAll_unlinked (hzone : ∀ q, D.Zone q → b.isLink q = false) :
    ∀ q, D.WholeZone q → ((removeAll k b scratch).foldl k.act b).isLink q = false := by
  have hway : WayClear b := fun q hq => hzone q (.inl (.inl hq))
  have horderly : Orderly D b (removeAll k b scratch) := removeAll_orderly hway
  have hzone₁ : ∀ q, D.Zone q → ((removeAll k b scratch).foldl k.act b).isLink q = false := by
    refine horderly.unlinked k hzone fun a ha hlinks => ?_
    unfold removeAll at ha
    split at ha
    · obtain ⟨p, -, rfl⟩ := List.mem_map.mp ha
      cases hlinks
    · cases ha
  have hempty : ∀ q, scratch <+: q →
      ((removeAll k b scratch).foldl k.act b).isLink q = false := by
    intro q hq
    simp only [Box.isLink, removeAll_empties hway hq]
  rintro q (hq | hq | hq)
  · exact hzone₁ q hq
  · have hsplit : scratch = ["tmp".toList] ++ ["modstage".toList] := rfl
    rw [hsplit] at hq
    rcases List.prefix_concat_iff.mp hq with rfl | hq
    · exact hempty _ (List.prefix_refl scratch)
    · exact hzone₁ q (.inl (.inl hq))
  · exact hempty q hq

/-- The part on the box. After `rm -rf` the scratch directory has no links, until the archive is
unpacked. -/
theorem keeps_remote (hkept : Kept D b₀ b) (hzone : ∀ q, D.Zone q → b.isLink q = false) :
    Keeps k D b₀ remote b := by
  have hway : WayClear b := fun q hq => hzone q (.inl (.inl hq))
  refine keeps_must hkept (fun _ => removeAll_orderly hway) fun _ _ b₁ _ hb₁ hkept₁ => ?_
  have hwhole₁ : ∀ q, D.WholeZone q → b₁.isLink q = false := hb₁ ▸ removeAll_unlinked hzone
  have hmk : Orderly D b₁ (mkdirs scratchFw) := mkScratch_orderly fun q hq => hwhole₁ q (.inr hq)
  refine keeps_must hkept₁ (fun _ => hmk) fun _ _ b₂ _ hb₂ hkept₂ => ?_
  have hwhole₂ : ∀ q, D.WholeZone q → b₂.isLink q = false := by
    rw [← hb₂]
    refine hmk.unlinked k hwhole₁ fun a ha hlinks => ?_
    obtain ⟨q, -, rfl⟩ := mem_mkdirs ha
    cases hlinks
  have hscp : ∀ c, Orderly D b₂ (work k D c b₂ .scpModules) := fun c =>
    scratch_orderly (fun q hq => hwhole₂ q (.inr hq))
      (fun a ha => List.mem_singleton.mp ha ▸ List.prefix_append scratch _)
      fun a ha => .inr ⟨_, _, List.mem_singleton.mp ha⟩
  refine keeps_must hkept₂ hscp fun c _ b₃ _ hb₃ hkept₃ => ?_
  have hwhole₃ : ∀ q, D.WholeZone q → b₃.isLink q = false := by
    rw [← hb₃]
    refine (hscp c).unlinked k hwhole₂ fun a ha hlinks => ?_
    rw [List.mem_singleton.mp ha] at hlinks
    cases hlinks
  have hfw : ∀ c, Orderly D b₃ (work k D c b₃ .scpFirmware) :=
    scpFirmware_orderly fun q hq => hwhole₃ q (.inr hq)
  refine keeps_must hkept₃ hfw fun c _ b₄ _ hb₄ hkept₄ => ?_
  have hzone₄ : ∀ q, D.Zone q → b₄.isLink q = false := by
    rw [← hb₄]
    refine (hfw c).unlinked k (fun q hq => hwhole₃ q (.inl hq)) fun a ha hlinks => ?_
    obtain ⟨f, -, rfl⟩ := List.mem_map.mp ha
    cases hf : f.2 <;> simp [hf, Action.links] at hlinks
  refine keeps_idle hkept₄ (fun _ => rfl) fun _ => ?_
  have hextract : ∀ c, Orderly D b₄ (work k D c b₄ .extract) := fun _ => extract_orderly D.members
  refine keeps_must hkept₄ hextract fun c _ b₅ _ hb₅ hkept₅ => ?_
  -- the archive may hold links, but they are in the scratch directory
  have hzone₅ : ∀ q, D.Zone q → b₅.isLink q = false := by
    rw [← hb₅]
    refine (hextract c).done.unlinked k hzone₄ fun a ha _ => ?_
    exact Dist.not_zone_of_scratch (mem_done_extract ha)
  refine keeps_idle hkept₅ (fun _ => rfl) fun _ => ?_
  exact keeps_installModules hkept₅ hzone₅

/-- The whole script, wherever it stops. -/
theorem keeps_stageModules (hzone : ∀ q, D.Zone q → b.isLink q = false) :
    Keeps k D b (stageModules D) b := by
  have hkept := Kept.refl D b
  refine keeps_idle hkept (fun _ => rfl) fun _ => keeps_idle hkept (fun _ => rfl) fun _ => ?_
  refine keeps_idle hkept (fun _ => rfl) fun _ => keeps_idle hkept (fun _ => rfl) fun top => ?_
  exact always_check hkept (fun _ => trivial) fun _ => keeps_remote hkept hzone

end Run

/-! ### What changes -/

/-- No link is at, above or in the destinations, or on the way to the scratch directory. -/
def Unlinked (D : Dist) (b : Box) : Prop := ∀ p, D.Zone p → b.isLink p = false

/-- In the targets, a directory missing on the way to them, or another name of a file in the
firmware directory. -/
inductive MayChange (D : Dist) (b : Box) (p : Path) : Prop where
  | target (h : D.Target p)
  | parent (hnone : b.look p = none) (h : D.Above p)
  | alias (q : Path) (i : Nat) (hq : firmwareDir <+: q) (hfile : b.objAt q = some (.file i))
      (h : b.objAt p = some (.file i))

theorem Kept.mayChange {D : Dist} {b b' : Box} (h : Kept D b b') {p : Path}
    (hp : b'.look p ≠ b.look p) : MayChange D b p := by
  by_cases htarget : D.Target p
  · exact .target htarget
  · rcases h.place p htarget with hsame | ⟨hnone, -, habove⟩
    · cases hobj : b.objAt p with
      | none => simp [Box.look, hsame, hobj] at hp
      | some o =>
          cases o with
          | dir => simp [Box.look, hsame, hobj] at hp
          | symlink t => simp [Box.look, hsame, hobj] at hp
          | file i =>
              rcases h.content p i htarget hobj with hcontent | ⟨q, hq, hfile⟩
              · simp [Box.look, hsame, hobj, hcontent] at hp
              · exact .alias q i hq hfile hobj
    · exact .parent (by simp [Box.look, hnone]) habove

/-- A link outside the targets is not touched. -/
theorem not_mayChange_of_link {D : Dist} {b : Box} {t : Text}
    (h : b.look ["lib".toList] = some (.symlink t)) : ¬ MayChange D b ["lib".toList] := by
  rintro (htarget | ⟨hnone, -⟩ | ⟨q, i, -, -, hfile⟩)
  · simp [Dist.Target, scratch, firmwareDir, Dist.modulesDir, List.cons_prefix_cons] at htarget
  · cases hnone.symm.trans h
  · simp only [Box.look, hfile] at h
    cases h

/-- The guard is exact, and wherever the script stops, nothing has changed but the targets,
missing directories on the way to them and aliases of firmware files; `/lib` is the link
it was. -/
theorem staging_confined (k : Kernel) (D : Dist) {b : Box} (hb : Unlinked D b) :
    (D.top = D.release.krel ↔ D.members ≠ [] ∧ ∀ m ∈ D.members, m.Rooted D.release) ∧
    ∀ b', (stageModules D).run.Reaches (machine k D) Anything b b' →
      (∀ p, b'.look p ≠ b.look p → MayChange D b p) ∧
      ∀ t, b.look ["lib".toList] = some (.symlink t) →
        b'.look ["lib".toList] = some (.symlink t) := by
  refine ⟨top_eq_krel_iff D, fun b' hreach => ?_⟩
  have hkept : Kept D b b' := (keeps_stageModules (k := k) hb).reaches hreach
  refine ⟨fun p hp => hkept.mayChange hp, fun t ht => ?_⟩
  by_contra hne
  exact not_mayChange_of_link ht (hkept.mayChange fun heq => hne (heq.trans ht))

section Sample

/-- A kernel that gives up at links. -/
def plainKernel : Kernel where
  follow b p := if ∀ q ∈ p.inits, b.isLink q = false then some p else none
  site b p := if ∀ q ∈ p.inits, q ≠ p → b.isLink q = false then some p else none
  follow_eq _ p h := .inl (if_pos fun q hq => h q ((List.mem_inits q p).mp hq))
  site_eq _ p h := .inl (if_pos fun q hq => h q ((List.mem_inits q p).mp hq))

/-- A box that never had modules, with a firmware file that has a second name in `/etc`. -/
def sampleBox : Box where
  entries :=
    [([], .dir), (["tmp".toList], .dir), (["usr".toList], .dir), (["usr".toList, "lib".toList], .dir),
      (firmwareDir, .dir), (firmwareDir ++ ["a.bin".toList], .file 1), (["etc".toList], .dir),
      (["etc".toList, "a.bin".toList], .file 1), (["lib".toList], .symlink "usr/lib".toList)]
  content := fun _ => "old".toList

def sampleDist : Dist where
  release := ⟨['1'], by decide, by simp⟩
  archive := "zstd".toList
  members := [⟨"6.18.1-hub11/".toList, .dir⟩, ⟨"6.18.1-hub11/modules.dep".toList, .file []⟩]
  firmware := [(["a.bin".toList], some "new".toList)]

/-- Everything goes well, and `depmod` finds nothing to do. -/
def smooth : Choice := ⟨true, fun _ => true, id, true, []⟩

/-- The box after a run without failures. -/
def sampleAfter : Box :=
  (remote.run.after (machine plainKernel sampleDist) (List.replicate 15 smooth) sampleBox).2

theorem sampleBox_unlinked : Unlinked sampleDist sampleBox := by
  intro p hp
  have hlink : sampleBox.isLink p = true → p = ["lib".toList] := by
    intro h
    by_contra hne
    simp only [Box.isLink, Box.objAt, sampleBox, Box.lookup_cons_eq, if_neg hne, List.lookup_nil] at h
    split_ifs at h
  by_contra hne
  rw [hlink ((Bool.not_eq_false _).mp hne)] at hp
  simp [Dist.Zone, Dist.FirmwareZone, firmwareDir, Dist.modulesDir, List.cons_prefix_cons] at hp

/-- Past the guard the run goes on as a run of the rest. -/
theorem reaches_of_guard {k : Kernel} {D : Dist} {b b' : Box} (htop : D.top = D.release.krel)
    (h : remote.run.Reaches (machine k D) Anything b b') :
    (stageModules D).run.Reaches (machine k D) Anything b b' := by
  obtain ⟨cs, -, hafter⟩ := h
  refine ⟨smooth :: smooth :: smooth :: smooth :: cs, Prog.meets_anything _ _ _ _, ?_⟩
  change ((Script.check (D.top = D.release.krel) >>= fun _ => remote).run.after
    (machine k D) cs b).2 = b'
  rw [Script.check, if_pos htop]
  exact hafter

theorem sample_reaches :
    (stageModules sampleDist).run.Reaches (machine plainKernel sampleDist) Anything sampleBox
      sampleAfter :=
  reaches_of_guard ((top_eq_krel_iff sampleDist).mpr ⟨by simp [sampleDist], by decide⟩)
    ⟨List.replicate 15 smooth, Prog.meets_anything _ _ _ _, rfl⟩

/-- On this box the script makes a directory outside the targets, and writes to a file in
`/etc`. -/
theorem sample_leaves_targets :
    Unlinked sampleDist sampleBox ∧
    (stageModules sampleDist).run.Reaches (machine plainKernel sampleDist) Anything sampleBox
      sampleAfter ∧
    (sampleAfter.look ["usr".toList, "lib".toList, "modules".toList] ≠
        sampleBox.look ["usr".toList, "lib".toList, "modules".toList] ∧
      ¬ sampleDist.Target ["usr".toList, "lib".toList, "modules".toList]) ∧
    (sampleAfter.look ["etc".toList, "a.bin".toList] ≠
        sampleBox.look ["etc".toList, "a.bin".toList] ∧
      ¬ sampleDist.Target ["etc".toList, "a.bin".toList]) := by
  refine ⟨sampleBox_unlinked, sample_reaches, ⟨by decide +kernel, ?_⟩, by decide +kernel, ?_⟩
  · unfold Dist.Target
    decide
  · unfold Dist.Target
    decide

theorem staging_confined_sample :
    sampleDist.top = sampleDist.release.krel ∧
    (∀ p, sampleAfter.look p ≠ sampleBox.look p → MayChange sampleDist sampleBox p) ∧
    sampleAfter.look ["lib".toList] = some (.symlink "usr/lib".toList) := by
  have h := staging_confined plainKernel sampleDist sampleBox_unlinked
  have hrun := h.2 sampleAfter sample_reaches
  exact ⟨h.1.mpr ⟨by simp [sampleDist], by decide⟩, hrun.1, hrun.2 _ rfl⟩

end Sample

end Hub11.Scripts.StageModules
