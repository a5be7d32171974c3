import Hub11.Effect.Program

/-!
Programs with a recursion bound.

A recursive program is a family of programs, one for each bound. `Below p q` says that
`q` does what `p` does, and possibly goes on where `p` has used up its bound. In a
family that grows this way the bound is only a device: once a run returns, every
larger bound gives the same run. `Eventually` is total correctness for all bounds
that are large enough, and its rule for `>>=` needs a bound for the second part only
at the states the first part really ends in.
-/

namespace Hub11.Effect.Prog

variable {σ ι : Type} {ρ : ι → Type} {α β : Type}

/-- The second program does what the first one does, and possibly goes on where the first one has
used up its bound. -/
inductive Below : Prog ι ρ α → Prog ι ρ α → Prop where
  | spent (q : Prog ι ρ α) : Below .spent q
  | ret (a : α) : Below (.ret a) (.ret a)
  | call (op : ι) {f g : ρ op → Prog ι ρ α} (h : ∀ r, Below (f r) (g r)) :
      Below (.call op f) (.call op g)

namespace Below

theorem refl (p : Prog ι ρ α) : Below p p := by
  induction p with
  | ret a => exact .ret a
  | spent => exact .spent _
  | call op next ih => exact .call op ih

theorem trans {p q r : Prog ι ρ α} (h : Below p q) (h' : Below q r) : Below p r := by
  induction h generalizing r with
  | spent q => exact .spent r
  | ret a => exact h'
  | call op _ ih =>
      cases h' with
      | call _ h' => exact .call op fun x => ih x (h' x)

theorem bind {p q : Prog ι ρ α} {f g : α → Prog ι ρ β} (h : Below p q)
    (hfg : ∀ a, Below (f a) (g a)) : Below (p >>= f) (q >>= g) := by
  induction h with
  | spent q => exact .spent _
  | ret a => exact hfg a
  | call op _ ih => exact .call op ih

theorem forM {γ : Type} {f g : γ → Prog ι ρ PUnit} (hfg : ∀ c, Below (f c) (g c))
    (cs : List γ) : Below (cs.forM f) (cs.forM g) := by
  induction cs with
  | nil => exact refl _
  | cons c cs ih => exact bind (hfg c) fun _ => ih

variable {M : Machine σ ι ρ}

/-- A run that returns is not changed by a larger bound. -/
theorem run_eq {p q : Prog ι ρ α} (h : Below p q) {s t : σ} {a : α}
    (hrun : p.run M s = (some a, t)) : q.run M s = (some a, t) := by
  induction h generalizing s with
  | spent q => cases hrun
  | ret b => exact hrun
  | call op _ ih => exact ih _ hrun

/-- A larger bound takes the same steps and possibly more. -/
theorem steps_subset {p q : Prog ι ρ α} (h : Below p q) (s : σ) :
    ∀ t ∈ p.steps M s, t ∈ q.steps M s := by
  induction h generalizing s with
  | spent q => exact fun t ht => by cases ht
  | ret a => exact fun t ht => ht
  | call op _ ih =>
      intro t ht
      rcases List.mem_cons.mp ht with rfl | ht
      · exact List.mem_cons_self
      · exact List.mem_cons_of_mem _ (ih _ _ t ht)

end Below

/-- A family that only ever goes on where a smaller bound was used up. The bounded versions of a
recursive function are such a family. -/
def Grows (P : Nat → Prog ι ρ α) : Prop := ∀ k, Below (P k) (P (k + 1))

theorem Grows.below {P : Nat → Prog ι ρ α} (h : Grows P) {j k : Nat} (hjk : j ≤ k) :
    Below (P j) (P k) := by
  induction hjk with
  | refl => exact Below.refl _
  | step _ ih => exact ih.trans (h _)

theorem Grows.const (p : Prog ι ρ α) : Grows fun _ => p := fun _ => Below.refl p

theorem Grows.bind {P : Nat → Prog ι ρ α} {F : Nat → α → Prog ι ρ β} (hP : Grows P)
    (hF : ∀ a, Grows fun k => F k a) : Grows fun k => P k >>= F k :=
  fun k => (hP k).bind fun a => hF a k

/-- The run of a family with every large enough bound: a run that returns with one bound is the run
with every larger one. -/
def Returns (M : Machine σ ι ρ) (P : Nat → Prog ι ρ α) (s : σ) (a : α) (t : σ) : Prop :=
  ∃ k, (P k).run M s = (some a, t)

section Eventually

variable {M : Machine σ ι ρ} {I : σ → ι → Prop} {s : σ}

theorem Returns.unique {P : Nat → Prog ι ρ α} (hP : Grows P) {a b : α} {t u : σ}
    (h : Returns M P s a t) (h' : Returns M P s b u) : a = b ∧ t = u := by
  obtain ⟨j, hj⟩ := h
  obtain ⟨k, hk⟩ := h'
  have hj' := (hP.below (Nat.le_max_left j k)).run_eq hj
  have hk' := (hP.below (Nat.le_max_right j k)).run_eq hk
  rw [hj'] at hk'
  cases hk'
  exact ⟨rfl, rfl⟩

/-- Total correctness for every bound that is large enough. -/
def Eventually (M : Machine σ ι ρ) (I : σ → ι → Prop) (P : Nat → Prog ι ρ α) (s : σ)
    (Q : α → σ → Prop) : Prop :=
  ∃ k, ∀ j, k ≤ j → Ensures M I (P j) s Q

theorem eventually_of_ensures {p : Prog ι ρ α} {Q : α → σ → Prop} (h : Ensures M I p s Q) :
    Eventually M I (fun _ => p) s Q :=
  ⟨0, fun _ _ => h⟩

theorem Eventually.mono {P : Nat → Prog ι ρ α} {Q R : α → σ → Prop} (h : Eventually M I P s Q)
    (weaken : ∀ a t, Q a t → R a t) : Eventually M I P s R := by
  obtain ⟨k, hk⟩ := h
  exact ⟨k, fun j hj => (hk j hj).mono weaken⟩

theorem Eventually.bind {P : Nat → Prog ι ρ α} {F : Nat → α → Prog ι ρ β} {Q : β → σ → Prop}
    (hP : Grows P)
    (h : Eventually M I P s fun a t => Eventually M I (fun k => F k a) t Q) :
    Eventually M I (fun k => P k >>= F k) s Q := by
  obtain ⟨k, hk⟩ := h
  by_cases trace : ∀ t ∈ (P k).steps M s, I t.1 t.2
  · obtain ⟨a, t, hrun, k', hk'⟩ := hk k (Nat.le_refl k) trace
    refine ⟨max k k', fun j hj => ?_⟩
    have hrun' := (hP.below (Nat.le_trans (Nat.le_max_left k k') hj)).run_eq hrun
    apply Ensures.bind
    intro _
    exact ⟨a, t, hrun', hk' j (Nat.le_trans (Nat.le_max_right k k') hj)⟩
  · -- the condition fails on the way already, with every larger bound too
    refine ⟨k, fun j hj htrace => absurd (fun t ht => htrace t ?_) trace⟩
    exact steps_subset_bind M _ _ s t ((hP.below hj).steps_subset s t ht)

/-- Total correctness for all large bounds gives a run that returns, the same one for every bound
that is large enough. -/
theorem Eventually.returns {P : Nat → Prog ι ρ α} {Q : α → σ → Prop} (h : Eventually M I P s Q)
    (trace : ∀ k, ∀ t ∈ (P k).steps M s, I t.1 t.2) : ∃ a t, Returns M P s a t ∧ Q a t := by
  obtain ⟨k, hk⟩ := h
  obtain ⟨a, t, hrun, hq⟩ := hk k (Nat.le_refl k) (trace k)
  exact ⟨a, t, ⟨k, hrun⟩, hq⟩

end Eventually

end Hub11.Effect.Prog
