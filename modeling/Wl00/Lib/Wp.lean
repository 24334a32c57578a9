import Mathlib.Logic.Relation
import Mathlib.Tactic.Common

/-!
# Weakest preconditions for state and errors

A program over a state `σ` that may stop with an error is a `StateT σ (Except ε)`.
`wp m Q s` says that `m`, run from `s`, ends without an error and with a result and
a state in `Q`; it is a statement about total correctness, so a loop is proved with
a variant.  `wpe` lets the program also stop with an error in `E`.

* `wp.mono` — the rule of consequence, which is how a proof uses the specification
  of a function that is called.
* `wp_bind` and the rules beside it — one for each way to build a program; they are
  simp lemmas, so `simp` executes straight-line code.
* `wp_loop` — a loop, with an invariant and a variant.
* `map_loop` — a loop with a record of what it does, which forgets it.
* `Guards` — a program that checks what another one does without looking;
  `Guards.loop_stops_iff` — where a loop with checks stops.
* `wp_zoom` — a program on a part of the state.
-/

namespace Prog

variable {ε σ τ ι α β : Type}

/-- `m`, run from `s`, ends in `Q` or with an error in `E`. -/
def wpe (m : StateT σ (Except ε) α) (Q : α → σ → Prop) (E : ε → Prop) (s : σ) : Prop :=
  match m s with
  | .ok (a, s') => Q a s'
  | .error e => E e

/-- `m`, run from `s`, ends in `Q`. -/
def wp (m : StateT σ (Except ε) α) (Q : α → σ → Prop) (s : σ) : Prop :=
  wpe m Q (fun _ => False) s

section Rules

variable {Q Q' : α → σ → Prop} {R : β → σ → Prop} {E E' : ε → Prop} {s : σ}
  {m : StateT σ (Except ε) α} {f : α → StateT σ (Except ε) β}

theorem wpe.mono (h : wpe m Q E s) (hq : ∀ a s', Q a s' → Q' a s') (he : ∀ e, E e → E' e) :
    wpe m Q' E' s := by
  unfold wpe at h ⊢
  split at h
  · exact hq _ _ h
  · exact he _ h

/-- **The rule of consequence.** -/
theorem wp.mono (h : wp m Q s) (hq : ∀ a s', Q a s' → Q' a s') : wp m Q' s :=
  wpe.mono h hq fun _ => id

theorem wp.toWpe (h : wp m Q s) : wpe m Q E s :=
  wpe.mono h (fun _ _ => id) fun _ => False.elim

/-- What `wp` says of the run itself. -/
theorem wp_iff : wp m Q s ↔ ∃ a s', m s = .ok (a, s') ∧ Q a s' := by
  unfold wp wpe
  constructor
  · intro h
    split at h
    · next a s' he => exact ⟨a, s', he, h⟩
    · exact h.elim
  · rintro ⟨a, s', he, h⟩
    rw [he]
    exact h

theorem wpe_iff : wpe m Q E s ↔
    (∃ a s', m s = .ok (a, s') ∧ Q a s') ∨ (∃ e, m s = .error e ∧ E e) := by
  unfold wpe
  rcases m s with e | ⟨a, s'⟩
  · simp
  · simp

/-- The error of a run is one that its specification allows. -/
theorem wpe.of_error (h : wpe m Q E s) {e : ε} (hr : m s = .error e) : E e := by
  unfold wpe at h
  rw [hr] at h
  exact h

/-- The result of a run is the one its specification speaks of. -/
theorem wpe.of_ok (h : wpe m Q E s) {a : α} {s' : σ} (hr : m s = .ok (a, s')) : Q a s' := by
  unfold wpe at h
  rw [hr] at h
  exact h

theorem wp.of_run (h : wp m Q s) {a : α} {s' : σ} (hr : m s = .ok (a, s')) : Q a s' :=
  wpe.of_ok h hr

/-- Every program ends somehow. -/
theorem wpe_total (m : StateT σ (Except ε) α) (s : σ) :
    wpe m (fun _ _ => True) (fun _ => True) s := by
  unfold wpe
  split <;> trivial

/-- Two specifications of one program. -/
theorem wp.and (h : wp m Q s) (h' : wp m Q' s) : wp m (fun a s' => Q a s' ∧ Q' a s') s := by
  obtain ⟨a, s', hr, hq⟩ := wp_iff.1 h
  exact wp_iff.2 ⟨a, s', hr, hq, h'.of_run hr⟩

theorem map_of_run {a : α} {s' : σ} (g : α → β) (hr : m s = .ok (a, s')) :
    (g <$> m) s = .ok (g a, s') := by
  simp only [Functor.map, StateT.map, hr, bind, Except.bind]
  rfl

@[simp] theorem wpe_pure (a : α) : wpe (pure a : StateT σ (Except ε) α) Q E s ↔ Q a s := Iff.rfl

@[simp] theorem wp_pure (a : α) : wp (pure a : StateT σ (Except ε) α) Q s ↔ Q a s := Iff.rfl

@[simp] theorem wpe_bind : wpe (m >>= f) R E s ↔ wpe m (fun a => wpe (f a) R E) E s := by
  unfold wpe
  simp only [bind, StateT.bind, Except.bind]
  rcases m s with e | ⟨a, s'⟩ <;> rfl

@[simp] theorem wp_bind : wp (m >>= f) R s ↔ wp m (fun a => wp (f a) R) s := wpe_bind

@[simp] theorem wpe_throw (e : ε) : wpe (throw e : StateT σ (Except ε) α) Q E s ↔ E e := Iff.rfl

@[simp] theorem wp_throw (e : ε) : ¬wp (throw e : StateT σ (Except ε) α) Q s := id

@[simp] theorem wpe_get {Q : σ → σ → Prop} :
    wpe (get : StateT σ (Except ε) σ) Q E s ↔ Q s s := Iff.rfl

@[simp] theorem wp_get {Q : σ → σ → Prop} :
    wp (get : StateT σ (Except ε) σ) Q s ↔ Q s s := Iff.rfl

@[simp] theorem wpe_set {Q : PUnit → σ → Prop} (t : σ) :
    wpe (set t : StateT σ (Except ε) PUnit) Q E s ↔ Q ⟨⟩ t := Iff.rfl

@[simp] theorem wp_set {Q : PUnit → σ → Prop} (t : σ) :
    wp (set t : StateT σ (Except ε) PUnit) Q s ↔ Q ⟨⟩ t := Iff.rfl

@[simp] theorem wpe_modify {Q : PUnit → σ → Prop} (g : σ → σ) :
    wpe (modify g : StateT σ (Except ε) PUnit) Q E s ↔ Q ⟨⟩ (g s) := Iff.rfl

@[simp] theorem wp_modify {Q : PUnit → σ → Prop} (g : σ → σ) :
    wp (modify g : StateT σ (Except ε) PUnit) Q s ↔ Q ⟨⟩ (g s) := Iff.rfl

end Rules

/-! ## Loops -/

/-- Repeat `body` until it answers `.inr`, at most `fuel` times. -/
def loop (diverge : ε) (body : ι → StateT σ (Except ε) (ι ⊕ α)) :
    Nat → ι → StateT σ (Except ε) α
  | 0, _ => throw diverge
  | fuel + 1, x => do
      match ← body x with
      | .inl x' => loop diverge body fuel x'
      | .inr a => pure a

/-- **The rule for loops.**  The invariant `I` speaks of the loop's variables and the
state; each round keeps it and makes the variant `V` smaller, or ends in `Q`. -/
theorem wp_loop {diverge : ε} {body : ι → StateT σ (Except ε) (ι ⊕ α)} {Q : α → σ → Prop}
    (I : ι → σ → Prop) (V : ι → Nat)
    (hbody : ∀ x s, I x s → wp (body x) (fun r s' =>
      match r with
      | .inl x' => I x' s' ∧ V x' < V x
      | .inr a => Q a s') s)
    {fuel : Nat} {x : ι} {s : σ} (hi : I x s) (hf : V x < fuel) :
    wp (loop diverge body fuel x) Q s := by
  induction fuel generalizing x s with
  | zero => omega
  | succ fuel ih =>
      rw [loop, wp_bind]
      refine (hbody x s hi).mono fun r s' hr => ?_
      cases r with
      | inl x' => exact ih hr.1 (by omega)
      | inr a => exact hr

/-- **The rule for loops that may stop with an error**, running out of rounds among them:
an invariant is enough. -/
theorem wpe_loop {diverge : ε} {body : ι → StateT σ (Except ε) (ι ⊕ α)} {Q : α → σ → Prop}
    {E : ε → Prop} (I : ι → σ → Prop) (hE : E diverge)
    (hbody : ∀ x s, I x s → wpe (body x) (fun r s' =>
      match r with
      | .inl x' => I x' s'
      | .inr a => Q a s') E s)
    {fuel : Nat} {x : ι} {s : σ} (hi : I x s) : wpe (loop diverge body fuel x) Q E s := by
  induction fuel generalizing x s with
  | zero => exact hE
  | succ fuel ih =>
      rw [loop, wpe_bind]
      refine (hbody x s hi).mono (fun r s' hr => ?_) fun _ => id
      cases r with
      | inl x' => exact ih hr
      | inr a => exact hr

/-- A round of a loop that goes on to the next one. -/
def Round (body : ι → StateT σ (Except ε) (ι ⊕ α)) (a b : ι × σ) : Prop :=
  body a.1 a.2 = .ok (.inl b.1, b.2)

/-- The rounds in which a loop comes from its first to another one. -/
abbrev Comes (body : ι → StateT σ (Except ε) (ι ⊕ α)) : ι × σ → ι × σ → Prop :=
  Relation.ReflTransGen (Round body)

/-- What every round keeps holds wherever the loop comes. -/
theorem Comes.invariant {body : ι → StateT σ (Except ε) (ι ⊕ α)} (I : ι → Prop) {a b : ι × σ}
    (hc : Comes body a b) (hi : I a.1) (hbody : ∀ a b, Round body a b → I a.1 → I b.1) : I b.1 := by
  induction hc with
  | refl => exact hi
  | tail _ hr ih => exact hbody _ _ hr ih

/-- A loop that carries more along: forgetting it gives the loop that does not. -/
theorem map_loop {κ γ : Type} {diverge : ε} {body' : κ → StateT σ (Except ε) (κ ⊕ γ)}
    {body : ι → StateT σ (Except ε) (ι ⊕ α)} (f : κ → ι) (g : γ → α)
    (h : ∀ x, Sum.map f g <$> body' x = body (f x)) (fuel : Nat) (x : κ) :
    g <$> loop diverge body' fuel x = loop diverge body fuel (f x) := by
  induction fuel generalizing x with
  | zero => rfl
  | succ fuel ih =>
      rw [loop, loop, ← h x, map_bind, bind_map_left]
      congr 1
      funext r
      cases r with
      | inl x' => exact ih x'
      | inr a => rfl

/-! ## More errors -/

/-- The same program among programs with more errors. -/
def liftErr {ε' : Type} (f : ε → ε') (m : StateT σ (Except ε) α) : StateT σ (Except ε') α := fun s =>
  match m s with
  | .ok r => .ok r
  | .error e => .error (f e)

@[simp] theorem wpe_liftErr {ε' : Type} {f : ε → ε'} {m : StateT σ (Except ε) α}
    {Q : α → σ → Prop} {E : ε' → Prop} {s : σ} :
    wpe (liftErr f m) Q E s ↔ wpe m Q (fun e => E (f e)) s := by
  unfold wpe liftErr
  rcases m s with e | ⟨a, s'⟩ <;> rfl

/-- `m'` does what `m` does, unless it stops with an error in `E`. -/
def Guards {ε' : Type} (f : ε → ε') (E : ε' → Prop) (m' : StateT σ (Except ε') α)
    (m : StateT σ (Except ε) α) : Prop :=
  ∀ s, (∃ e, E e ∧ m' s = .error e) ∨ m' s = liftErr f m s

namespace Guards

variable {ε' : Type} {f : ε → ε'} {E : ε' → Prop}

theorem lift (m : StateT σ (Except ε) α) : Guards f E (liftErr f m) m := fun _ => .inr rfl

theorem pure (a : α) : Guards f E (Pure.pure a : StateT σ (Except ε') α) (Pure.pure a) :=
  fun _ => .inr rfl

theorem bind {m' : StateT σ (Except ε') α} {m : StateT σ (Except ε) α}
    {g' : α → StateT σ (Except ε') β} {g : α → StateT σ (Except ε) β} (hm : Guards f E m' m)
    (hg : ∀ a, Guards f E (g' a) (g a)) : Guards f E (m' >>= g') (m >>= g) := by
  intro s
  rcases hm s with ⟨e, he, hs⟩ | hs
  · left
    refine ⟨e, he, ?_⟩
    simp only [Bind.bind, StateT.bind, Except.bind, hs]
  · simp only [Bind.bind, StateT.bind, Except.bind, liftErr] at hs ⊢
    rcases hr : m s with e | ⟨a, s'⟩
    · rw [hr] at hs
      rw [hs]
      exact .inr rfl
    · rw [hr] at hs
      rw [hs]
      exact hg a s'

/-- A check before a program. -/
theorem check {c : StateT σ (Except ε') PUnit} {m' : StateT σ (Except ε') α}
    {m : StateT σ (Except ε) α} (hc : ∀ s, (∃ e, E e ∧ c s = .error e) ∨ c s = .ok (⟨⟩, s))
    (hm : Guards f E m' m) : Guards f E (c >>= fun _ => m') m := by
  intro s
  rcases hc s with ⟨e, he, hs⟩ | hs
  · left
    refine ⟨e, he, ?_⟩
    simp only [Bind.bind, StateT.bind, Except.bind, hs]
  · simp only [Bind.bind, StateT.bind, Except.bind, hs]
    exact hm s

theorem loop {d : ε} {body' : ι → StateT σ (Except ε') (ι ⊕ α)}
    {body : ι → StateT σ (Except ε) (ι ⊕ α)} (h : ∀ x, Guards f E (body' x) (body x))
    (fuel : Nat) (x : ι) : Guards f E (Prog.loop (f d) body' fuel x) (Prog.loop d body fuel x) := by
  induction fuel generalizing x with
  | zero => exact fun _ => .inr rfl
  | succ fuel ih =>
      refine bind (h x) fun r => ?_
      cases r with
      | inl x' => exact ih x'
      | inr a => exact pure a

/-- **Where a loop with checks stops**: in a round to which the loop without them comes, and in
which a check fails.  The variant `V` keeps the loop from running out of rounds. -/
theorem loop_stops_iff {d : ε} {body' : ι → StateT σ (Except ε') (ι ⊕ α)}
    {body : ι → StateT σ (Except ε) (ι ⊕ α)} (h : ∀ x, Guards f E (body' x) (body x))
    (hE : ∀ e, ¬E (f e)) (V : ι → Nat) (hV : ∀ a b, Round body a b → V b.1 < V a.1)
    {fuel : Nat} {x : ι} {s : σ} (hf : V x < fuel) :
    (∃ e, E e ∧ Prog.loop (f d) body' fuel x s = .error e) ↔
      ∃ b, Comes body (x, s) b ∧ ∃ e, E e ∧ body' b.1 b.2 = .error e := by
  induction fuel generalizing x s with
  | zero => omega
  | succ fuel ih =>
      rw [Prog.loop]
      simp only [Bind.bind, StateT.bind, Except.bind]
      rcases h x s with ⟨e, he, hs⟩ | hs
      · rw [hs]
        exact iff_of_true ⟨e, he, rfl⟩ ⟨(x, s), .refl, e, he, hs⟩
      -- this round is passed, so it is one of the rounds after it
      have hpass : ∀ e, E e → body' x s ≠ .error e := by
        intro e he hr
        rw [hs, liftErr] at hr
        rcases hb : body x s with e' | ⟨r, s'⟩
        · rw [hb] at hr
          cases hr
          exact hE e' he
        · rw [hb] at hr
          cases hr
      have hlater : (∃ b, Comes body (x, s) b ∧ ∃ e, E e ∧ body' b.1 b.2 = .error e) ↔
          ∃ c, Round body (x, s) c ∧ ∃ b, Comes body c b ∧ ∃ e, E e ∧ body' b.1 b.2 = .error e := by
        constructor
        · rintro ⟨b, hc, e, he, hb⟩
          rcases hc.cases_head with rfl | ⟨c, hr, hc⟩
          · exact absurd hb (hpass e he)
          · exact ⟨c, hr, b, hc, e, he, hb⟩
        · rintro ⟨c, hr, b, hc, hb⟩
          exact ⟨b, .head hr hc, hb⟩
      rw [hlater, hs, liftErr]
      rcases hb : body x s with e' | ⟨r, s'⟩
      · refine iff_of_false ?_ ?_
        · rintro ⟨e, he, hr⟩
          cases hr
          exact hE e' he
        · rintro ⟨c, hr, -⟩
          rw [Round, hb] at hr
          cases hr
      · cases r with
        | inl x' =>
            have hround : Round body (x, s) (x', s') := hb
            have hlt : V x' < V x := hV _ _ hround
            refine (ih (by omega)).trans ⟨fun hex => ⟨(x', s'), hround, hex⟩, ?_⟩
            rintro ⟨c, hr, hex⟩
            rw [Round, hb] at hr
            cases hr
            exact hex
        | inr a =>
            refine iff_of_false ?_ ?_
            · rintro ⟨e, -, hr⟩
              cases hr
            · rintro ⟨c, hr, -⟩
              rw [Round, hb] at hr
              cases hr

end Guards

/-! ## A part of the state -/

/-- Run a program on the part of the state that `get'` reads and `set'` replaces. -/
def zoom (get' : σ → τ) (set' : τ → σ → σ) (m : StateT τ (Except ε) α) :
    StateT σ (Except ε) α := fun s =>
  match m (get' s) with
  | .ok (a, t) => .ok (a, set' t s)
  | .error e => .error e

@[simp] theorem wpe_zoom {get' : σ → τ} {set' : τ → σ → σ} {m : StateT τ (Except ε) α}
    {Q : α → σ → Prop} {E : ε → Prop} {s : σ} :
    wpe (zoom get' set' m) Q E s ↔ wpe m (fun a t => Q a (set' t s)) E (get' s) := by
  unfold wpe zoom
  rcases m (get' s) with e | ⟨a, t⟩ <;> rfl

@[simp] theorem wp_zoom {get' : σ → τ} {set' : τ → σ → σ} {m : StateT τ (Except ε) α}
    {Q : α → σ → Prop} {s : σ} :
    wp (zoom get' set' m) Q s ↔ wp m (fun a t => Q a (set' t s)) (get' s) := wpe_zoom

theorem zoom_bind {get' : σ → τ} {set' : τ → σ → σ} (hget : ∀ t s, get' (set' t s) = t)
    (hset : ∀ t t' s, set' t' (set' t s) = set' t' s) (m : StateT τ (Except ε) α)
    (f : α → StateT τ (Except ε) β) :
    zoom get' set' (m >>= f) = zoom get' set' m >>= fun a => zoom get' set' (f a) := by
  funext s
  simp only [zoom, bind, StateT.bind, Except.bind]
  rcases m (get' s) with e | ⟨a, t⟩
  · rfl
  · simp only [hget]
    rcases f a t with e | ⟨b, t'⟩
    · rfl
    · simp only [hset]

theorem map_zoom {get' : σ → τ} {set' : τ → σ → σ} (g : α → β) (m : StateT τ (Except ε) α) :
    g <$> zoom get' set' m = zoom get' set' (g <$> m) := by
  funext s
  simp only [Functor.map, StateT.map, zoom, bind, Except.bind]
  rcases m (get' s) with e | ⟨a, t⟩ <;> rfl

-- `wp` is only to be opened by the rules above: otherwise the unifier would run programs.
attribute [irreducible] wp wpe

end Prog
