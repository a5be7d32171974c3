import Mathlib.Logic.Basic

/-!
Programs that interact with a machine through named operations.

A program is a tree of operations: `call op next` issues `op` and continues with
the machine's reply. The machine is one transition function `σ → op → σ × reply`,
so a run is a function of the program and the start state, and whatever the
machine may choose (errors, orders, sizes) is part of its state or its parameters.
`spent` marks the place where the bound given to a recursive program is used up:
a run that ends there has not returned.

`Ensures M I p s Q` is total correctness relative to a trace condition: if `I`
holds of every step of the run of `p` from `s`, that is of the state and of the
operation issued in it, then the run returns and `Q` holds of the value and the final
state. The rules below follow the program's syntax, and the rule for `call` hands `I`
of the current step to the rest of the proof.
-/

namespace Hub11.Effect

/-- A program over operations `ι` whose replies have type `ρ op`: a tree that branches on every
reply. `spent` is where the bound of a recursive program is used up. -/
inductive Prog (ι : Type) (ρ : ι → Type) (α : Type) where
  | ret (a : α)
  | spent
  | call (op : ι) (next : ρ op → Prog ι ρ α)

/-- A machine: one state transition and one reply for each operation. It is a function, so whatever
is left open must be in the state or in a parameter. -/
abbrev Machine (σ ι : Type) (ρ : ι → Type) := σ → (op : ι) → σ × ρ op

namespace Prog

variable {σ ι : Type} {ρ : ι → Type} {α β : Type}

/-- One program after the other: the second one starts wherever the first one returns. A bound that
is used up in the first ends both. -/
def bind : Prog ι ρ α → (α → Prog ι ρ β) → Prog ι ρ β
  | .ret a, f => f a
  | .spent, _ => .spent
  | .call op next, f => .call op fun r => (next r).bind f

instance : Monad (Prog ι ρ) where
  pure := .ret
  bind := bind

/-- A single operation. -/
def perform (op : ι) : Prog ι ρ (ρ op) := .call op .ret

/-- The value a run returns (`none` when the bound was used up) and its last state. -/
def run (M : Machine σ ι ρ) : Prog ι ρ α → σ → Option α × σ
  | .ret a, s => (some a, s)
  | .spent, s => (none, s)
  | .call op next, s => (next (M s op).2).run M (M s op).1

/-- Every state a run passes through, the first one included. A statement about all of them is an
invariant. -/
def states (M : Machine σ ι ρ) : Prog ι ρ α → σ → List σ
  | .ret _, s => [s]
  | .spent, s => [s]
  | .call op next, s => s :: (next (M s op).2).states M (M s op).1

/-- The steps of a run: the operations it issues, each with the state before it. Conditions on a run
are conditions on its steps. -/
def steps (M : Machine σ ι ρ) : Prog ι ρ α → σ → List (σ × ι)
  | .ret _, _ => []
  | .spent, _ => []
  | .call op next, s => (s, op) :: (next (M s op).2).steps M (M s op).1

/-- The operations a run issues, each with its reply. -/
def events (M : Machine σ ι ρ) : Prog ι ρ α → σ → List ((op : ι) × ρ op)
  | .ret _, _ => []
  | .spent, _ => []
  | .call op next, s => ⟨op, (M s op).2⟩ :: (next (M s op).2).events M (M s op).1

section Runs

variable (M : Machine σ ι ρ)

@[simp] theorem run_pure (a : α) (s : σ) : (pure a : Prog ι ρ α).run M s = (some a, s) := rfl

@[simp] theorem run_call (op : ι) (next : ρ op → Prog ι ρ α) (s : σ) :
    (Prog.call op next).run M s = (next (M s op).2).run M (M s op).1 := rfl

@[simp] theorem run_perform (op : ι) (s : σ) :
    (perform op : Prog ι ρ (ρ op)).run M s = (some (M s op).2, (M s op).1) := rfl

@[simp] theorem pure_bind (a : α) (f : α → Prog ι ρ β) : ((pure a : Prog ι ρ α) >>= f) = f a := rfl

@[simp] theorem perform_bind (op : ι) (f : ρ op → Prog ι ρ β) :
    (perform op >>= f) = Prog.call op f := rfl

omit M in
theorem bind_assoc {γ : Type} (p : Prog ι ρ α) (f : α → Prog ι ρ β) (g : β → Prog ι ρ γ) :
    (p >>= f) >>= g = p >>= fun a => f a >>= g := by
  induction p with
  | ret a => rfl
  | spent => rfl
  | call op next ih => exact congrArg (Prog.call op) (funext ih)

/-- A run of two programs is a run of the first and then one of the second, from where the first has
ended. -/
theorem run_bind (p : Prog ι ρ α) (f : α → Prog ι ρ β) (s : σ) :
    (p >>= f).run M s =
      match p.run M s with
      | (some a, t) => (f a).run M t
      | (none, t) => (none, t) := by
  induction p generalizing s with
  | ret a => rfl
  | spent => rfl
  | call op next ih => exact ih _ _

theorem events_bind (p : Prog ι ρ α) (f : α → Prog ι ρ β) (s : σ) :
    (p >>= f).events M s = p.events M s ++
      match p.run M s with
      | (some a, t) => (f a).events M t
      | (none, _) => [] := by
  induction p generalizing s with
  | ret a => rfl
  | spent => rfl
  | call op next ih => exact congrArg (List.cons _) (ih _ _)

theorem mem_states_of_mem_steps {p : Prog ι ρ α} {s : σ} {t : σ × ι} (h : t ∈ p.steps M s) :
    t.1 ∈ p.states M s := by
  induction p generalizing s with
  | ret a => cases h
  | spent => cases h
  | call op next ih =>
      rcases List.mem_cons.mp h with rfl | h
      · exact List.mem_cons_self
      · exact List.mem_cons_of_mem _ (ih _ h)

theorem mem_states_iff {M : Machine σ ι ρ} {p : Prog ι ρ α} {s u : σ} :
    u ∈ p.states M s ↔ u = s ∨ ∃ t ∈ p.steps M s, u = (M t.1 t.2).1 := by
  induction p generalizing s with
  | ret a => simp [states, steps]
  | spent => simp [states, steps]
  | call op next ih => simp [states, steps, ih]

theorem steps_subset_bind (p : Prog ι ρ α) (f : α → Prog ι ρ β) (s : σ) :
    ∀ t ∈ p.steps M s, t ∈ (p >>= f).steps M s := by
  induction p generalizing s with
  | ret a => exact fun t ht => by cases ht
  | spent => exact fun t ht => ht
  | call op next ih =>
      intro t ht
      rcases List.mem_cons.mp ht with rfl | ht
      · exact List.mem_cons_self
      · exact List.mem_cons_of_mem _ (ih _ _ t ht)

theorem steps_bind_of_run {p : Prog ι ρ α} {f : α → Prog ι ρ β} {s t : σ} {a : α}
    (h : p.run M s = (some a, t)) :
    ∀ u ∈ (f a).steps M t, u ∈ (p >>= f).steps M s := by
  induction p generalizing s with
  | ret b =>
      cases h
      exact fun u hu => hu
  | spent => cases h
  | call op next ih => exact fun u hu => List.mem_cons_of_mem _ (ih _ h u hu)

/-- A relation that every step keeps holds between the first and the last state of a run. -/
theorem run_rel {r : σ → σ → Prop} (hrefl : ∀ s, r s s)
    (htrans : ∀ {s t u}, r s t → r t u → r s u) (step : ∀ s op, r s (M s op).1)
    (p : Prog ι ρ α) (s : σ) : r s (p.run M s).2 := by
  induction p generalizing s with
  | ret a => exact hrefl s
  | spent => exact hrefl s
  | call op next ih => exact htrans (step s op) (ih _ _)

end Runs

/-! ### The operations a program may issue -/

/-- Whatever the replies, every operation of the program satisfies `P`. This is about the text of
the program and no machine is needed to say it. -/
def Issues (P : ι → Prop) : Prog ι ρ α → Prop
  | .ret _ => True
  | .spent => True
  | .call op next => P op ∧ ∀ r, (next r).Issues P

section Issues

variable {P : ι → Prop}

theorem issues_perform {op : ι} (h : P op) : (perform op : Prog ι ρ (ρ op)).Issues P :=
  ⟨h, fun _ => trivial⟩

theorem Issues.mono {R : ι → Prop} {p : Prog ι ρ α} (hp : p.Issues P) (h : ∀ op, P op → R op) :
    p.Issues R := by
  induction p with
  | ret a => trivial
  | spent => trivial
  | call op next ih => exact ⟨h op hp.1, fun r => ih r (hp.2 r)⟩

theorem Issues.bind {p : Prog ι ρ α} {f : α → Prog ι ρ β} (hp : p.Issues P)
    (hf : ∀ a, (f a).Issues P) : (p >>= f).Issues P := by
  induction p with
  | ret a => exact hf a
  | spent => trivial
  | call op next ih => exact ⟨hp.1, fun r => ih r (hp.2 r)⟩

theorem Issues.forM {γ : Type} {f : γ → Prog ι ρ PUnit} (hf : ∀ c, (f c).Issues P) (cs : List γ) :
    (cs.forM f).Issues P := by
  induction cs with
  | nil => trivial
  | cons c cs ih => exact (hf c).bind fun _ => ih

/-- What every operation keeps that the program can issue holds at the end of its runs. -/
theorem Issues.invariant {M : Machine σ ι ρ} {I : σ → Prop} (keep : ∀ s op, P op → I s → I (M s op).1)
    {p : Prog ι ρ α} (hp : p.Issues P) {s : σ} (h : I s) : I (p.run M s).2 := by
  induction p generalizing s with
  | ret a => exact h
  | spent => exact h
  | call op next ih => exact ih _ (hp.2 _) (keep s op hp.1 h)

theorem Issues.events (M : Machine σ ι ρ) {p : Prog ι ρ α} (hp : p.Issues P) (s : σ) :
    ∀ e ∈ p.events M s, P e.1 := by
  induction p generalizing s with
  | ret a => exact fun e he => by cases he
  | spent => exact fun e he => by cases he
  | call op next ih =>
      intro e he
      rcases List.mem_cons.mp he with rfl | he
      · exact hp.1
      · exact ih _ (hp.2 _) _ e he

end Issues

/-! ### Total correctness under a trace condition -/

/-- Total correctness under a condition on the trace: if `I` holds of every step of the run of `p`
from `s`, the run returns and `Q` holds of the value and the last state. -/
def Ensures (M : Machine σ ι ρ) (I : σ → ι → Prop) (p : Prog ι ρ α) (s : σ) (Q : α → σ → Prop) :
    Prop :=
  (∀ t ∈ p.steps M s, I t.1 t.2) → ∃ a t, p.run M s = (some a, t) ∧ Q a t

section Rules

variable {M : Machine σ ι ρ} {I : σ → ι → Prop} {s : σ}

theorem ensures_pure {a : α} {Q : α → σ → Prop} (h : Q a s) :
    Ensures M I (pure a : Prog ι ρ α) s Q :=
  fun _ => ⟨a, s, rfl, h⟩

theorem ensures_call {op : ι} {next : ρ op → Prog ι ρ α} {Q : α → σ → Prop}
    (h : I s op → Ensures M I (next (M s op).2) (M s op).1 Q) :
    Ensures M I (.call op next) s Q := by
  intro trace
  exact h (trace (s, op) List.mem_cons_self) fun t ht => trace t (List.mem_cons_of_mem _ ht)

theorem ensures_perform {op : ι} {Q : ρ op → σ → Prop} (h : I s op → Q (M s op).2 (M s op).1) :
    Ensures M I (perform op) s Q :=
  ensures_call fun hs => ensures_pure (h hs)

theorem Ensures.mono {p : Prog ι ρ α} {Q R : α → σ → Prop} (h : Ensures M I p s Q)
    (weaken : ∀ a t, Q a t → R a t) : Ensures M I p s R := by
  intro trace
  obtain ⟨a, t, hrun, hq⟩ := h trace
  exact ⟨a, t, hrun, weaken a t hq⟩

theorem Ensures.bind {p : Prog ι ρ α} {f : α → Prog ι ρ β} {Q : β → σ → Prop}
    (h : Ensures M I p s fun a t => Ensures M I (f a) t Q) : Ensures M I (p >>= f) s Q := by
  intro trace
  obtain ⟨a, t, hrun, hrest⟩ := h fun u hu => trace u (steps_subset_bind M p f s u hu)
  obtain ⟨b, u, hrun', hq⟩ := hrest fun v hv => trace v (steps_bind_of_run M hrun v hv)
  exact ⟨b, u, by rw [run_bind, hrun]; exact hrun', hq⟩

/-- What holds between the ends of every run may be added. -/
theorem Ensures.and_rel {p : Prog ι ρ α} {Q : α → σ → Prop} (h : Ensures M I p s Q)
    {r : σ → Prop} (hr : r (p.run M s).2) : Ensures M I p s fun a t => Q a t ∧ r t := by
  intro trace
  obtain ⟨a, t, hrun, hq⟩ := h trace
  rw [hrun] at hr
  exact ⟨a, t, hrun, hq, hr⟩

end Rules

/-! ### What the steps guarantee -/

/-- As long as `I` holds of the steps, `G` holds of them, and `Q` at the end. Other than `Ensures`
it does not say that the run returns. -/
def Upholds (M : Machine σ ι ρ) (I G : σ → ι → Prop) (Q : α → σ → Prop) : Prog ι ρ α → σ → Prop
  | .ret a, s => Q a s
  | .spent, _ => True
  | .call op next, s => I s op → G s op ∧ (next (M s op).2).Upholds M I G Q (M s op).1

section Upholds

variable {M : Machine σ ι ρ} {I G : σ → ι → Prop} {s : σ}

theorem Upholds.mono {p : Prog ι ρ α} {Q R : α → σ → Prop} (h : p.Upholds M I G Q s)
    (weaken : ∀ a t, Q a t → R a t) : p.Upholds M I G R s := by
  induction p generalizing s with
  | ret a => exact weaken a s h
  | spent => trivial
  | call op next ih =>
      intro hI
      exact ⟨(h hI).1, ih _ (h hI).2⟩

theorem Upholds.bind {p : Prog ι ρ α} {f : α → Prog ι ρ β} {Q : β → σ → Prop}
    (h : p.Upholds M I G (fun a t => (f a).Upholds M I G Q t) s) :
    (p >>= f).Upholds M I G Q s := by
  induction p generalizing s with
  | ret a => exact h
  | spent => trivial
  | call op next ih =>
      intro hI
      exact ⟨(h hI).1, ih _ (h hI).2⟩

theorem Upholds.steps {p : Prog ι ρ α} {Q : α → σ → Prop} (h : p.Upholds M I G Q s)
    (hI : ∀ t ∈ p.steps M s, I t.1 t.2) : ∀ t ∈ p.steps M s, G t.1 t.2 := by
  induction p generalizing s with
  | ret a => exact fun t ht => by cases ht
  | spent => exact fun t ht => by cases ht
  | call op next ih =>
      obtain ⟨hG, hnext⟩ := h (hI (s, op) List.mem_cons_self)
      intro t ht
      rcases List.mem_cons.mp ht with rfl | ht
      · exact hG
      · exact ih _ hnext (fun u hu => hI u (List.mem_cons_of_mem _ hu)) t ht

/-- What holds at the end, under the condition on the steps, holds of a run that returns. -/
theorem Upholds.run {p : Prog ι ρ α} {Q : α → σ → Prop} (h : p.Upholds M I G Q s)
    (hI : ∀ t op, I t op) {a : α} {t : σ} (hrun : p.run M s = (some a, t)) : Q a t := by
  induction p generalizing s with
  | ret b =>
      cases hrun
      exact h
  | spent => cases hrun
  | call op next ih => exact ih _ (h (hI s op)).2 hrun

end Upholds

end Prog

end Hub11.Effect
