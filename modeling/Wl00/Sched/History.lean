import Wl00.Sched.Zombie

/-!
# The history of a process

What the events of a run, newest first, say about a slot: whether it has been
released since it was last taken, the status its process passed to `kexit`, the
last `kexit` that took its parent away, and what the call to `wait` its process is
in has done so far; and where each event comes from.
-/

namespace Wl00.Sched

variable {n : Nat}

/-! ## Reading the history -/

/-- Slot `q` has been released and not been taken since. -/
def freed (q : Slot) : List Event → Bool
  | [] => false
  | .claim i :: l => if i = q then false else freed q l
  | .release i _ _ :: l => if i = q then true else freed q l
  | _ :: l => freed q l

/-- The status that the process in slot `q` passed to `kexit`. -/
def lastExit (q : Slot) : List Event → Option Int
  | [] => none
  | .claim i :: l => if i = q then none else lastExit q l
  | .exit i st :: l => if i = q then some st else lastExit q l
  | _ :: l => lastExit q l

/-- The last `kexit` that replaced the parent of the process in slot `q`: whose it
was, the parent it found and the one it put. -/
def lastHand (q : Slot) : List Event → Option (Slot × Option Slot × Option Slot)
  | [] => none
  | .claim i :: l => if i = q then none else lastHand q l
  | .hand p i old new :: l => if i = q then some (p, old, new) else lastHand q l
  | _ :: l => lastHand q l

/-- What a call to `wait` has done: the slots it released, each with the pid it held
and the status its process passed to `kexit`, and what it stored where. -/
structure Call where
  addr : Nat
  freed : List (Slot × Int × Option Int)
  stored : List (Nat × Int)

/-- The last call to `wait` of the process in slot `p`. -/
def call (p : Slot) : List Event → Option Call
  | [] => none
  | .waitCall i addr :: l => if i = p then some ⟨addr, [], []⟩ else call p l
  | .release q (.wait i) v :: l =>
      if i = p then (call p l).map fun c => { c with freed := (q, v, lastExit q l) :: c.freed }
      else call p l
  | .store i addr x :: l =>
      if i = p then (call p l).map fun c => { c with stored := (addr, x) :: c.stored }
      else call p l
  | _ :: l => call p l

section Cons

variable {e : Event} {l : List Event} {p q : Slot}

theorem freed_cons (hc : e ≠ .claim q) (hr : ∀ r v, e ≠ .release q r v) :
    freed q (e :: l) = freed q l := by
  cases e <;> simp_all [freed]

theorem lastExit_cons (hc : e ≠ .claim q) (hx : ∀ st, e ≠ .exit q st) :
    lastExit q (e :: l) = lastExit q l := by
  cases e <;> simp_all [lastExit]

theorem lastHand_cons (hc : e ≠ .claim q) (hh : ∀ p old new, e ≠ .hand p q old new) :
    lastHand q (e :: l) = lastHand q l := by
  cases e with
  | hand p i old new => exact if_neg fun hi : i = q => hh p old new (by rw [hi])
  | _ => simp_all [lastHand]

/-- The event belongs to a call to `wait` of the process in slot `p`. -/
def Event.OfCall (p : Slot) (e : Event) : Prop :=
  (∃ addr, e = .waitCall p addr) ∨ (∃ q v, e = .release q (.wait p) v) ∨
    ∃ addr x, e = .store p addr x

theorem call_cons (he : ¬e.OfCall p) : call p (e :: l) = call p l := by
  unfold Event.OfCall at he
  cases e with
  | release q r v => cases r <;> simp_all [call]
  | _ => simp_all [call]

/-- A slot released in the past that is not free now has been taken in between. -/
theorem claim_mem_of_freed {r : Releaser} {v : Int} {l₁ l₂ : List Event}
    (hf : freed q (l₁ ++ .release q r v :: l₂) = false) : .claim q ∈ l₁ := by
  induction l₁ with
  | nil => simp [freed] at hf
  | cons e l₁ ih =>
      by_cases hc : e = .claim q
      · exact hc ▸ List.mem_cons_self
      · by_cases hr : ∃ r v, e = .release q r v
        · obtain ⟨r, v, rfl⟩ := hr
          simp [freed] at hf
        · push Not at hr
          rw [List.cons_append, freed_cons hc hr] at hf
          exact List.mem_cons_of_mem _ (ih hf)

end Cons

/-! ## Where an event comes from -/

section Emit

variable {s s' : State n} {h : Fin n} {c : Choice} {p q : Slot}

theorem emit_claim (he : emit s h c = .claim q) :
    c ≠ .timer ∧ (∃ p, s.pcOf h = .paCheck p q) ∧ (s.procs q).state = .unused := by
  unfold emit at he
  split at he
  · cases he
  · refine ⟨by assumption, ?_⟩
    split at he <;> (try split at he) <;> cases he
    exact ⟨⟨_, by assumption⟩, by assumption⟩

theorem emit_release {r : Releaser} {v : Int} (he : emit s h c = .release q r v) :
    c ≠ .timer ∧ c ≠ .mem ∧ (∃ k, s.pcOf h = .release q r k) ∧ v = (s.procs q).pid := by
  unfold emit at he
  split at he
  · cases he
  · refine ⟨by assumption, ?_⟩
    split at he <;> (try split at he) <;> cases he
    exact ⟨by assumption, ⟨_, by assumption⟩, rfl⟩

theorem emit_hand {old new : Option Slot} (he : emit s h c = .hand p q old new) :
    ∃ st g, s.pcOf h = .exitHand p st new q g := by
  unfold emit at he
  split at he
  · cases he
  · split at he <;> (try split at he) <;> cases he
    exact ⟨_, _, by assumption⟩

theorem emit_exit {st : Int} (he : emit s h c = .exit p st) :
    s.pcOf h = .user ∧ s.cproc h = some p := by
  unfold emit at he
  split at he
  · cases he
  · split at he <;> (try split at he) <;> cases he <;> exact ⟨by assumption, by assumption⟩

theorem emit_store {addr : Nat} {x : Int} (he : emit s h c = .store p addr x) :
    ∃ i pid, s.pcOf h = .waitCopyout p addr i pid x := by
  unfold emit at he
  split at he
  · cases he
  · split at he <;> (try split at he) <;> cases he
    exact ⟨_, _, by assumption⟩

theorem emit_ret {y : Sys} {v : Int} (he : emit s h c = .ret y p v) :
    s.pcOf h = .sysret y p v := by
  unfold emit at he
  split at he
  · cases he
  · split at he <;> (try split at he) <;> cases he
    assumption

/-- In user mode `cpu->proc` is the process whose stack the hart is on. -/
theorem Inv.cur_of_user (hi : Inv s) (hu : s.pcOf h = .user) (hc : s.cproc h = some p) :
    s.cur h = some p := by
  have hw := hi.wf h
  rw [hu] at hw
  obtain ⟨q, hq⟩ := Option.ne_none_iff_exists'.1 hw
  rw [hq, ← (hi.cur h q hq).2, hc]

/-- A process makes its own calls to `wait`. -/
theorem Inv.cur_of_ofCall (hi : Inv s) (he : (emit s h c).OfCall p) : s.cur h = some p := by
  have hw := hi.wf h
  rcases he with ⟨addr, he⟩ | ⟨q, v, he⟩ | ⟨addr, x, he⟩
  · unfold emit at he
    split at he
    · cases he
    · split at he <;> (try split at he) <;> cases he
      exact hi.cur_of_user (by assumption) (by assumption)
  · obtain ⟨-, -, ⟨k, hk⟩, -⟩ := emit_release he
    rw [hk] at hw
    exact hw.1.symm
  · obtain ⟨i, pid, hp⟩ := emit_store he
    rw [hp] at hw
    exact hw

/-- A slot that is released is UNUSED. -/
theorem state_of_release {r : Releaser} {v : Int} (hi : Inv s) (hn : next s h c = some s')
    (he : emit s h c = .release q r v) : (s'.procs q).state = .unused := by
  obtain ⟨hc, hm, ⟨k, hp⟩, -⟩ := emit_release he
  have hg : go s h c = some s' := by
    cases c <;> first | exact hn | exact absurd rfl hc
  have hw := hi.wf h
  have hl : s.locks (.proc q) = some h := by
    rw [hp] at hw
    rw [hi.lock, hp]
    exact hw.2.spec.2.2.1
  simp only [go, hp, hm, hl, if_true, if_false] at hg
  cases hg
  simp [State.setProc, releaseproc]

end Emit

end Wl00.Sched
