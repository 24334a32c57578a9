import Mathlib.Logic.Relation
import Mathlib.Order.WellFounded
import Mathlib.Tactic.Common

/-!
# Labelled transition systems: runs, reachable states, invariants

A system is a set of starting states and a labelled step relation.  A run is
recorded by the list of its labels, newest first, together with the state it
ends in, so that a statement may speak about the past of a state as well as
about the state.

* `Lts.Run.invariant` — the induction rule for a property of runs.
* `Lts.Reachable.invariant` — the same rule for a property of states.
* `Lts.Run.map` — a run of one system is a run of another that it refines.
* `Lts.ofNext`, `Lts.exec` — systems given by a partial step function, which
  can be run.
* `Lts.exec_descend` — a goal can be reached when some step always comes nearer to it.
* `Lts.Leads` — what a given part of the labels can bring about, with a rule for loops.
* `Lts.restrict` — the runs whose steps all meet a condition.
* `Lts.watch` — a history variable beside the state.
-/

universe u v

/-- A labelled transition system with states `σ` and labels `α`. -/
structure Lts (σ : Type u) (α : Type v) where
  /-- The states a run may start from. -/
  init : σ → Prop
  /-- One step: the state before it, its label, the state after it. -/
  step : σ → α → σ → Prop

namespace Lts

variable {σ : Type u} {α : Type v} {T : Lts σ α}

/-- `T.Run tr s` : some run with the labels `tr`, newest first, ends in `s`. -/
inductive Run (T : Lts σ α) : List α → σ → Prop
  | start {s : σ} : T.init s → Run T [] s
  | next {tr : List α} {s s' : σ} {a : α} : Run T tr s → T.step s a s' → Run T (a :: tr) s'

/-- A state some run ends in. -/
def Reachable (T : Lts σ α) (s : σ) : Prop := ∃ tr, T.Run tr s

theorem Reachable.start {s : σ} (h : T.init s) : T.Reachable s := ⟨[], .start h⟩

theorem Reachable.next {s s' : σ} {a : α} (h : T.Reachable s) (hs : T.step s a s') :
    T.Reachable s' := by
  obtain ⟨tr, hr⟩ := h
  exact ⟨a :: tr, hr.next hs⟩

/-- **The invariant rule for runs.**  A property of the labels so far and the
state that holds at the start and is kept by every step holds of every run. -/
theorem Run.invariant {I : List α → σ → Prop} (h0 : ∀ s, T.init s → I [] s)
    (hstep : ∀ tr s a s', T.Run tr s → I tr s → T.step s a s' → I (a :: tr) s')
    {tr : List α} {s : σ} (h : T.Run tr s) : I tr s := by
  induction h with
  | start hi => exact h0 _ hi
  | next hr hs ih => exact hstep _ _ _ _ hr ih hs

/-- **The invariant rule for states.**  The step may use what is already known
of every reachable state. -/
theorem Reachable.invariant {I : σ → Prop} (h0 : ∀ s, T.init s → I s)
    (hstep : ∀ s a s', T.Reachable s → I s → T.step s a s' → I s') {s : σ}
    (h : T.Reachable s) : I s := by
  obtain ⟨tr, hr⟩ := h
  exact hr.invariant (I := fun _ s => I s) h0
    fun tr s a s' hr hi hs => hstep s a s' ⟨tr, hr⟩ hi hs

/-- **Refinement.**  If `f` takes starts to starts and steps from reachable states to steps, it
takes runs to runs. -/
theorem Run.map {τ : Type*} {T' : Lts τ α} {f : σ → τ} (h0 : ∀ s, T.init s → T'.init (f s))
    (hstep : ∀ s a s', T.Reachable s → T.step s a s' → T'.step (f s) a (f s')) {tr : List α} {s : σ}
    (h : T.Run tr s) : T'.Run tr (f s) := by
  induction h with
  | start hi => exact .start (h0 _ hi)
  | next hr hs ih => exact ih.next (hstep _ _ _ ⟨_, hr⟩ hs)

/-- The system of a partial step function. -/
def ofNext (init : σ → Prop) (next : σ → α → Option σ) : Lts σ α where
  init := init
  step s a s' := next s a = some s'

/-- Do a list of steps, oldest first. -/
def exec (next : σ → α → Option σ) : List α → σ → Option σ
  | [], s => some s
  | a :: as, s => (next s a).bind (exec next as)

theorem Reachable.exec {init : σ → Prop} {next : σ → α → Option σ} {as : List α} {s s' : σ}
    (h : (ofNext init next).Reachable s) (he : Lts.exec next as s = some s') :
    (ofNext init next).Reachable s' := by
  induction as generalizing s with
  | nil => cases he; exact h
  | cons a as ih =>
      obtain ⟨s₁, h₁, h₂⟩ := Option.bind_eq_some_iff.1 he
      exact ih (h.next (a := a) h₁) h₂

theorem exec_append {next : σ → α → Option σ} {as bs : List α} {s s₁ s₂ : σ}
    (h₁ : exec next as s = some s₁) (h₂ : exec next bs s₁ = some s₂) :
    exec next (as ++ bs) s = some s₂ := by
  induction as generalizing s with
  | nil => cases h₁; exact h₂
  | cons a as ih =>
      obtain ⟨s', ha, hs⟩ := Option.bind_eq_some_iff.1 h₁
      exact Option.bind_eq_some_iff.2 ⟨s', ha, ih hs⟩

/-- **The descent rule.**  Where every state short of the goal has a step that keeps `I` and
lowers `μ`, the goal can be reached. -/
theorem exec_descend {β : Type*} [LT β] [WellFoundedLT β] {next : σ → α → Option σ}
    {I Q : σ → Prop} (μ : σ → β)
    (hstep : ∀ s, I s → ¬Q s → ∃ a s', next s a = some s' ∧ I s' ∧ μ s' < μ s) {s : σ} (hs : I s) :
    ∃ as s', exec next as s = some s' ∧ I s' ∧ Q s' := by
  induction hm : μ s using WellFoundedLT.induction generalizing s with
  | ind b ih =>
      by_cases hq : Q s
      · exact ⟨[], s, rfl, hs, hq⟩
      · obtain ⟨a, s₁, h₁, hi₁, hlt⟩ := hstep s hs hq
        obtain ⟨as, s', h', hi', hq'⟩ := ih (μ s₁) (hm ▸ hlt) hi₁ rfl
        exact ⟨a :: as, s', Option.bind_eq_some_iff.2 ⟨s₁, h₁, h'⟩, hi', hq'⟩

/-- From every state with `P`, steps with labels that meet `ok` bring about `Q`. -/
def Leads (next : σ → α → Option σ) (ok : α → Prop) (P Q : σ → Prop) : Prop :=
  ∀ s, P s → ∃ as s', (∀ a ∈ as, ok a) ∧ exec next as s = some s' ∧ Q s'

namespace Leads

variable {next : σ → α → Option σ} {ok : α → Prop} {P Q R : σ → Prop}

theorem refl (P : σ → Prop) : Leads next ok P P :=
  fun s hs => ⟨[], s, by simp, rfl, hs⟩

theorem trans (h₁ : Leads next ok P Q) (h₂ : Leads next ok Q R) : Leads next ok P R := by
  intro s hs
  obtain ⟨as, s₁, hok₁, he₁, hq⟩ := h₁ s hs
  obtain ⟨bs, s₂, hok₂, he₂, hr⟩ := h₂ s₁ hq
  refine ⟨as ++ bs, s₂, fun a ha => ?_, exec_append he₁ he₂, hr⟩
  exact (List.mem_append.1 ha).elim (hok₁ a) (hok₂ a)

theorem step {a : α} (ha : ok a) (h : ∀ s, P s → ∃ s', next s a = some s' ∧ Q s') :
    Leads next ok P Q := by
  intro s hs
  obtain ⟨s', hn, hq⟩ := h s hs
  exact ⟨[a], s', by simpa using ha, Option.bind_eq_some_iff.2 ⟨s', hn, rfl⟩, hq⟩

/-- The rule for a loop that runs to its bound. -/
theorem loop {I : Nat → σ → Prop} {m : Nat} (body : ∀ i < m, Leads next ok (I i) (I (i + 1)))
    {i : Nat} (hi : i ≤ m) : Leads next ok (I i) (I m) := by
  induction hi using Nat.decreasingInduction with
  | self => exact refl _
  | of_succ i hi ih => exact (body i hi).trans ih

end Leads

/-- The part of a system whose steps all meet the condition `ok` on the state
before the step and its label. -/
def restrict (T : Lts σ α) (ok : σ → α → Prop) : Lts σ α where
  init := T.init
  step s a s' := ok s a ∧ T.step s a s'

/-- A run under a condition is a run. -/
theorem Run.of_restrict {ok : σ → α → Prop} {tr : List α} {s : σ}
    (h : (T.restrict ok).Run tr s) : T.Run tr s := by
  induction h with
  | start hi => exact .start hi
  | next _ hs ih => exact ih.next hs.2

theorem Reachable.of_restrict {ok : σ → α → Prop} {s : σ}
    (h : (T.restrict ok).Reachable s) : T.Reachable s := by
  obtain ⟨tr, hr⟩ := h
  exact ⟨tr, hr.of_restrict⟩

/-- A system with a history variable beside its state: it starts as `g₀`, and `note` says
what becomes of it in a step. -/
def watch {γ : Type*} (T : Lts σ α) (g₀ : γ) (note : σ → α → γ → γ) : Lts (σ × γ) α where
  init x := T.init x.1 ∧ x.2 = g₀
  step x a y := T.step x.1 a y.1 ∧ y.2 = note x.1 a x.2

/-- One step of a system of a partial step function with a history variable. -/
def watchNext {γ : Type*} (next : σ → α → Option σ) (note : σ → α → γ → γ) (x : σ × γ) (a : α) :
    Option (σ × γ) :=
  (next x.1 a).map fun s => (s, note x.1 a x.2)

theorem Reachable.exec_watch {γ : Type*} {init : σ → Prop} {next : σ → α → Option σ} {g₀ : γ}
    {note : σ → α → γ → γ} {as : List α} {x y : σ × γ}
    (h : ((ofNext init next).watch g₀ note).Reachable x)
    (he : Lts.exec (watchNext next note) as x = some y) :
    ((ofNext init next).watch g₀ note).Reachable y := by
  induction as generalizing x with
  | nil => cases he; exact h
  | cons a as ih =>
      obtain ⟨z, h₁, h₂⟩ := Option.bind_eq_some_iff.1 he
      obtain ⟨s, hs, rfl⟩ := Option.map_eq_some_iff.1 h₁
      have hz : ((ofNext init next).watch g₀ note).Reachable (s, note x.1 a x.2) :=
        h.next (a := a) ⟨hs, rfl⟩
      exact ih hz h₂

theorem Reachable.of_watch {γ : Type*} {g₀ : γ} {note : σ → α → γ → γ} {x : σ × γ}
    (h : (T.watch g₀ note).Reachable x) : T.Reachable x.1 := by
  refine h.invariant (I := fun x => T.Reachable x.1) ?_ ?_
  · exact fun x hi => .start hi.1
  · exact fun x a y _ hr hs => hr.next hs.1

/-- The history variable holds no run up. -/
theorem Reachable.watch {γ : Type*} {s : σ} (h : T.Reachable s) (g₀ : γ) (note : σ → α → γ → γ) :
    ∃ g, (T.watch g₀ note).Reachable (s, g) := by
  refine h.invariant (I := fun s => ∃ g, (T.watch g₀ note).Reachable (s, g)) ?_ ?_
  · exact fun s hi => ⟨g₀, .start ⟨hi, rfl⟩⟩
  · rintro s a s' - ⟨g, hg⟩ hs
    exact ⟨note s a g, hg.next (a := a) ⟨hs, rfl⟩⟩

end Lts
