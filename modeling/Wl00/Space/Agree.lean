import Wl00.Sched.Solo
import Wl00.Space.Calls

/-!
# The two models of `proc.c` agree

`Wl00.Vm` runs `fork`, `wait` and `kexit` to their ends, with all that they do to memory;
`Wl00.Sched` takes them apart into the steps of a hart, and knows no memory.  Both keep
`proctable`.  What a call does to it in the first model is an `Effect`, and so the steps of the
second can do the same.

* `boot_rows` — both begin with the same table.
* `fork_effect`, `wait_effect`, `kexit_effect` — the calls, seen from the table.
* `call_agrees` — a hart that nobody disturbs follows the call step by step.
-/

namespace Wl00.Vm

open Prog
open Sched (Slot ProcState Chan NPROC succPid Row Table Effect IsFirst ProcCall)

variable {L : Layout} {k k' : Kernel L} {p i : Slot}

/-- What `Wl00.Sched` sees of a slot. -/
def Proc.row (q : Proc) : Row := ⟨q.pid, q.state, q.chan, q.parent, q.xstate⟩

/-- `proctable`, as `Wl00.Sched` sees it. -/
def Kernel.rows (k : Kernel L) : Table := fun i => (k.procs i).row

theorem Kernel.rows_setProc (f : Proc → Proc) :
    (k.setProc i f).rows = Function.update k.rows i (f (k.procs i)).row := by
  funext j
  by_cases hj : j = i
  · subst hj
    simp [rows]
  · simp [rows, hj]

/-- The change does not show in the table. -/
theorem Kernel.rows_setProc_of_eq {f : Proc → Proc} (hf : ∀ q, (f q).row = q.row) :
    (k.setProc i f).rows = k.rows := by
  rw [rows_setProc, hf]
  exact Function.update_eq_self i k.rows

/-! ## Runs that end -/

/-- If the call ends, its result and the kernel are in `Q`. -/
def Ends {α : Type} (m : KernelM L α) (Q : α → Kernel L → Prop) (k : Kernel L) : Prop :=
  wpe m Q (fun _ => True) k

section Ends

variable {α β : Type} {Q R : α → Kernel L → Prop} {m : KernelM L α}

theorem Ends.mono (h : Ends m Q k) (hq : ∀ a k', Q a k' → R a k') : Ends m R k :=
  wpe.mono h hq fun _ => id

theorem Ends.of_run (h : Ends m Q k) {a : α} (hr : m k = .ok (a, k')) : Q a k' := by
  rcases wpe_iff.1 h with ⟨b, k₁, hb, hq⟩ | ⟨e, he, -⟩
  · rw [hr] at hb
    cases hb
    exact hq
  · rw [hr] at he
    cases he

/-- Whatever happens in memory, the table is the same. -/
theorem ends_onMem {x : MemM L α} (h : ∀ a t, Q a { k with mem := t }) : Ends (onMem x) Q k := by
  unfold Ends
  rw [wpe_onMem, wpe_iff]
  rcases hx : x k.mem with e | ⟨a, t⟩
  · exact .inr ⟨e, rfl, trivial⟩
  · exact .inl ⟨a, t, rfl, h a t⟩

@[simp] theorem ends_bind {f : α → KernelM L β} {R : β → Kernel L → Prop} :
    Ends (m >>= f) R k ↔ Ends m (fun a => Ends (f a) R) k := wpe_bind

theorem ends_onMem_bind {x : MemM L α} {f : α → KernelM L β} {R : β → Kernel L → Prop}
    (h : ∀ a t, Ends (f a) R { k with mem := t }) : Ends (onMem x >>= f) R k :=
  ends_bind.2 (ends_onMem h)

@[simp] theorem ends_pure (a : α) : Ends (pure a) Q k ↔ Q a k := wpe_pure a

@[simp] theorem ends_get {Q : Kernel L → Kernel L → Prop} : Ends get Q k ↔ Q k k := wpe_get

@[simp] theorem ends_set {Q : PUnit → Kernel L → Prop} (k' : Kernel L) :
    Ends (set k') Q k ↔ Q ⟨⟩ k' := wpe_set k'

@[simp] theorem ends_modify {Q : PUnit → Kernel L → Prop} (g : Kernel L → Kernel L) :
    Ends (modify g) Q k ↔ Q ⟨⟩ (g k) := wpe_modify g

@[simp] theorem ends_getProc {Q : Proc → Kernel L → Prop} :
    Ends (getProc i) Q k ↔ Q (k.procs i) k := wpe_getProc

@[simp] theorem ends_modifyProc {Q : Unit → Kernel L → Prop} {f : Proc → Proc} :
    Ends (modifyProc i f) Q k ↔ Q () (k.setProc i f) := wpe_modify _

end Ends

/-- The table is `T`, and `curr_pid` is `v`. -/
def Kernel.Shows (k : Kernel L) (T : Table) (v : Int) : Prop := k.rows = T ∧ k.currPid = v

theorem Kernel.Shows.setProc {T : Table} {v : Int} (h : k.Shows T v) (f : Proc → Proc) :
    (k.setProc i f).Shows (Function.update T i (f (k.procs i)).row) v :=
  ⟨by rw [rows_setProc, h.1], h.2⟩

/-- The change does not show. -/
theorem Kernel.Shows.hide {T : Table} {v : Int} (h : k.Shows T v) {f : Proc → Proc}
    (hf : ∀ q, (f q).row = q.row) : (k.setProc i f).Shows T v :=
  ⟨(rows_setProc_of_eq hf).trans h.1, h.2⟩

/-- The rules for statements that do not show in the table. -/
theorem Kernel.Shows.onMem_bind {α β : Type} {T : Table} {v : Int} (h : k.Shows T v) {x : MemM L α}
    {f : α → KernelM L β} {R : β → Kernel L → Prop}
    (hf : ∀ a (k₁ : Kernel L), k₁.Shows T v → Ends (f a) R k₁) : Ends (onMem x >>= f) R k :=
  ends_onMem_bind fun a _ => hf a _ h

theorem Kernel.Shows.modifyProc_bind {β : Type} {T : Table} {v : Int} (h : k.Shows T v)
    {g : Proc → Proc} {f : Unit → KernelM L β} {R : β → Kernel L → Prop}
    (hg : ∀ q, (g q).row = q.row) (hf : ∀ k₁ : Kernel L, k₁.Shows T v → Ends (f ()) R k₁) :
    Ends (modifyProc i g >>= f) R k :=
  ends_bind.2 (ends_modifyProc.2 (hf _ (h.hide hg)))

/-! ## `procalloc` and `releaseproc` -/

theorem releaseproc_ends : Ends (releaseproc i)
    (fun _ k' => k'.Shows (Function.update k.rows i .reset) k.currPid) k := by
  rw [releaseproc]
  rw [ends_bind, ends_getProc]
  have h : k.Shows k.rows k.currPid := ⟨rfl, rfl⟩
  refine h.onMem_bind fun _ _ h => h.onMem_bind fun _ _ h => h.onMem_bind fun _ _ h => ?_
  exact ends_modifyProc.2 (h.setProc _)

/-- What `procalloc` makes of slot `i`. -/
def Takes (k : Kernel L) (i : Slot) (r : Option Slot) (k' : Kernel L) : Prop :=
  (r = none ∧ k'.Shows (Function.update k.rows i .reset) (succPid k.currPid)) ∨
    (r = some i ∧ k'.Shows
      (Function.update k.rows i { k.rows i with state := .new, pid := k.currPid })
      (succPid k.currPid))

/-- `procalloc` gives up. -/
theorem procallocFail_ends {k₁ : Kernel L} {r : Row}
    (h : k₁.Shows (Function.update k.rows i r) (succPid k.currPid)) :
    Ends (procallocFail i) (Takes k i) k₁ := by
  rw [procallocFail]
  refine ends_bind.2 (releaseproc_ends.mono fun _ k' h' => (ends_pure _).2 (.inl ⟨rfl, ?_⟩))
  rwa [h.1, h.2, Function.update_idem] at h'

theorem procallocAt_ends : Ends (procallocAt i) (Takes k i) k := by
  have hpid : (({ k.setProc i fun q => { q with state := .new } with
      currPid := succPid k.currPid } : Kernel L).setProc i fun q =>
        { q with pid := k.currPid }).Shows
      (Function.update k.rows i { k.rows i with state := .new, pid := k.currPid })
      (succPid k.currPid) := by
    refine ⟨?_, rfl⟩
    funext j
    by_cases hj : j = i
    · subst hj
      simp [Kernel.rows, Kernel.setProc, Proc.row]
    · simp [Kernel.rows, Kernel.setProc, hj]
  rw [procallocAt, allocpid]
  simp only [ends_bind, ends_modifyProc, ends_get, ends_set, ends_pure]
  -- from the pid on, the slot shows the same until the end
  refine ends_bind.1 (hpid.onMem_bind fun kstack k₁ h => ?_)
  split
  · exact procallocFail_ends h
  · refine h.modifyProc_bind (fun _ => rfl) fun k₁ h => h.onMem_bind fun tf k₁ h =>
      h.modifyProc_bind (fun _ => rfl) fun k₁ h => ?_
    split
    · exact procallocFail_ends h
    · refine h.onMem_bind fun _ k₁ h => h.onMem_bind fun pt k₁ h =>
        h.modifyProc_bind (fun _ => rfl) fun k₁ h => ?_
      split
      · exact procallocFail_ends h
      · exact h.modifyProc_bind (fun _ => rfl) fun k₁ h => (ends_pure _).2 (.inr ⟨rfl, h⟩)

/-- The first slot that `find?` meets. -/
theorem isFirst_of_find {P : Slot → Prop} [DecidablePred P]
    (h : (List.finRange NPROC).find? (fun i => decide (P i)) = some i) : IsFirst P i := by
  obtain ⟨hi, as, bs, heq, hno⟩ := List.find?_eq_some_iff_append.1 h
  refine ⟨by simpa using hi, fun j hj hP => ?_⟩
  have hsorted : (as ++ i :: bs).Pairwise (· < ·) := heq ▸ List.pairwise_lt_finRange NPROC
  have hmem : j ∈ as ++ i :: bs := heq ▸ List.mem_finRange j
  rcases List.mem_append.1 hmem with hm | hm
  · simpa [hP] using hno j hm
  · rcases List.mem_cons.1 hm with rfl | hm
    · exact lt_irrefl _ hj
    · have hlt := (List.pairwise_cons.1 (List.pairwise_append.1 hsorted).2.1).1 j hm
      exact lt_asymm hj hlt

theorem procalloc_ends : Ends procalloc (fun r k' =>
    (r = none ∧ k' = k ∧ ∀ i, (k.rows i).state ≠ .unused) ∨
      ∃ i, IsFirst (fun i => (k.rows i).state = .unused) i ∧ Takes k i r k') k := by
  rw [procalloc, ends_bind, ends_get]
  cases hf : firstUnused k.procs with
  | none =>
      refine (ends_pure _).2 (.inl ⟨rfl, rfl, fun i => ?_⟩)
      simpa [Kernel.rows, Proc.row] using List.find?_eq_none.1 hf i (List.mem_finRange i)
  | some i =>
      exact procallocAt_ends.mono fun r k' h =>
        .inr ⟨i, isFirst_of_find (P := fun i => (k.procs i).state = .unused) hf, h⟩

/-! ## The calls -/

theorem forkFinish_ends {np : Slot} {T : Table} {v : Int} (h : k.Shows T v) :
    Ends (forkFinish p np) (fun r k' => r = (T np).pid ∧
      k'.Shows (Function.update T np { T np with parent := some p, state := .ready }) v) k := by
  rw [forkFinish, ends_bind, ends_getProc]
  refine h.modifyProc_bind (fun _ => rfl) fun k₁ h => ?_
  rw [ends_bind, ends_getProc]
  have hpid : (k₁.procs np).pid = (T np).pid := congrArg Row.pid (congrFun h.1 np)
  refine h.onMem_bind fun _ k₂ h => h.onMem_bind fun _ k₂ h => h.onMem_bind fun _ k₂ h =>
    h.onMem_bind fun _ k₂ h => h.modifyProc_bind (fun _ => rfl) fun k₂ h => ?_
  refine ends_bind.2 (ends_modifyProc.2 ((ends_pure _).2 ⟨hpid, ?_⟩))
  rw [← h.1, ← h.2]
  exact Kernel.Shows.setProc ⟨rfl, rfl⟩ _

theorem fork_effect : Ends (fork p)
    (fun r k' => Effect p k.rows k.currPid .fork (some r) k'.rows k'.currPid) k := by
  rw [fork, ends_bind]
  refine procalloc_ends.mono fun r k₁ => ?_
  rintro (⟨rfl, rfl, hfull⟩ | ⟨i, hi, ⟨rfl, hT, hv⟩ | ⟨rfl, h⟩⟩)
  · exact (ends_pure _).2 (.forkFull hfull)
  · refine (ends_pure _).2 ?_
    rw [hT, hv]
    exact .forkFail i hi
  · simp only [ends_bind, ends_getProc]
    refine ends_bind.1 (h.onMem_bind fun r k₂ h => ?_)
    split
    · -- `uvmcopy` has failed
      refine h.modifyProc_bind (fun _ => rfl) fun k₂ h =>
        ends_bind.2 (releaseproc_ends.mono fun _ k' h' => (ends_pure _).2 ?_)
      rw [h'.1, h'.2, h.1, h.2, Function.update_idem]
      exact .forkFail i hi
    · refine (forkFinish_ends h).mono fun r k' => ?_
      rintro ⟨rfl, hT, hv⟩
      rw [hT, hv, Function.update_idem, Function.update_self]
      exact .fork i hi

/-- The status is copied out only where there is an address. -/
theorem copyStatus_ends {pt addr : Nat} {xs : Int} {T : Table} {v : Int} (h : k.Shows T v) :
    Ends (onMem (copyStatus pt addr xs)) (fun r k' => k'.Shows T v ∧ (r < 0 → addr ≠ 0)) k := by
  by_cases ha : addr = 0
  · rw [copyStatus, if_neg (not_not.2 ha)]
    unfold Ends
    rw [wpe_onMem, wpe_pure]
    exact ⟨h, fun hlt => absurd hlt (lt_irrefl _)⟩
  · exact ends_onMem fun r t => ⟨h, fun _ => ha⟩

theorem wait_effect (addr : Nat) : Ends (wait p addr)
    (fun r k' => Effect p k.rows k.currPid (.wait addr) r k'.rows k'.currPid) k := by
  have h : k.Shows k.rows k.currPid := ⟨rfl, rfl⟩
  rw [wait, ends_bind, ends_get]
  split
  · next q hf =>
    have hq : IsFirst (k.rows.Dead p) q := isFirst_of_find (P := k.rows.Dead p) hf
    rw [waitReap]
    simp only [ends_bind, ends_getProc]
    refine (copyStatus_ends h).mono fun r k₁ => ?_
    rintro ⟨h, ha⟩
    split
    · next hr =>
      refine (ends_pure _).2 ((ends_pure _).2 ?_)
      rw [h.1, h.2]
      exact .waitFail addr q hq (ha hr)
    · refine ends_bind.2 (releaseproc_ends.mono fun _ k' h' => (ends_pure _).2 ((ends_pure _).2 ?_))
      rw [h'.1, h'.2, h.1, h.2]
      exact .waitReap addr q hq
  · next hf =>
    have hdead : ∀ q, ¬k.rows.Dead p q := fun q hd => by
      simpa using List.find?_eq_none.1 hf q (List.mem_finRange q) (decide_eq_true hd)
    split
    · next hall =>
      refine (ends_pure _).2 (.waitNone addr fun q hc => ?_)
      exact of_decide_eq_true (List.all_eq_true.1 hall q (List.mem_finRange q)) hc
    · next hall =>
      obtain ⟨q, hc⟩ : ∃ q, k.rows.Child p q := by
        by_contra hno
        refine hall (List.all_eq_true.2 fun q _ => decide_eq_true fun hc => hno ⟨q, hc⟩)
      refine ends_bind.2 (ends_modifyProc.2 ((ends_pure _).2 ?_))
      have hs := h.setProc (i := p) fun pp => { pp with chan := some (.proc p), state := .waiting }
      rw [hs.1, hs.2]
      exact .waitSleep addr q hc hdead

/-! ## `kexit` -/

theorem Proc.row_wake (c : Option Chan) (q : Proc) : (q.wake c).row = q.row.wake c := by
  have hrow : q.row.chan = c ∧ q.row.state = .waiting ↔ q.chan = c ∧ q.state = .waiting := Iff.rfl
  by_cases hc : q.chan = c ∧ q.state = .waiting
  · rw [wake, if_pos hc, Row.wake, if_pos (hrow.2 hc)]
    rfl
  · rw [wake, if_neg hc, Row.wake, if_neg (mt hrow.1 hc)]

theorem wakeup_ends {T : Table} {v : Int} (h : k.Shows T v) (c : Option Chan) :
    Ends (wakeup c) (fun _ k' => k'.Shows (T.woken c NPROC) v) k := by
  refine (ends_modify _).2 ⟨?_, h.2⟩
  funext q
  rw [← h.1, Table.woken, if_pos q.isLt]
  exact Proc.row_wake c (k.procs q)

theorem handOver_ends {q : Slot} {T : Table} {v : Int} (h : k.Shows T v) (r : Option Slot) :
    Ends (handOver q r) (fun z k' => z = decide (r ≠ none ∧ (T q).state = .zombie) ∧
      k'.Shows (Function.update T q ((T q).hand r)) v) k := by
  have hst : (k.procs q).state = (T q).state := congrArg Row.state (congrFun h.1 q)
  have hs := h.setProc (i := q) fun x => { x with parent := r }
  have hrow : ({ k.procs q with parent := r } : Proc).row = { T q with parent := r } := by
    rw [← h.1]
    rfl
  rw [hrow] at hs
  rw [handOver, ends_bind, ends_modifyProc, ends_bind, ends_getProc, Kernel.setProc_self]
  split
  · next hz =>
    have hz : (T q).state = .zombie := hst ▸ hz
    split
    · next hr =>
      refine ends_bind.2 (releaseproc_ends.mono fun _ k' h' => (ends_pure _).2 ⟨by simp [hr], ?_⟩)
      rw [Row.hand, if_pos ⟨hz, hr⟩]
      rwa [hs.1, hs.2, Function.update_idem] at h'
    · next hr =>
      refine (ends_pure _).2 ⟨by simp [hr, hz], ?_⟩
      rwa [Row.hand, if_neg fun hx => hr hx.2]
  · next hz =>
    have hz : (T q).state ≠ .zombie := hst ▸ hz
    refine (ends_pure _).2 ⟨by simp [hz], ?_⟩
    rwa [Row.hand, if_neg fun hx => hz hx.1]

/-- The children among `l` have been handed over. -/
def handedIn (T : Table) (p : Slot) (r : Option Slot) (l : List Slot) : Table := fun q =>
  if q ∈ l ∧ T.Child p q then (T q).hand r else T q

theorem handedIn_cons_child {T : Table} {r : Option Slot} {l : List Slot} {q : Slot} (hq : q ∉ l)
    (hc : T.Child p q) :
    handedIn T p r (q :: l) = handedIn (Function.update T q ((T q).hand r)) p r l := by
  funext j
  by_cases hj : j = q
  · subst hj
    simp [handedIn, hq, hc]
  · simp [handedIn, Table.Child, hj]

theorem handedIn_cons {T : Table} {r : Option Slot} {l : List Slot} {q : Slot}
    (hc : ¬T.Child p q) : handedIn T p r (q :: l) = handedIn T p r l := by
  funext j
  by_cases hj : j = q
  · subst hj
    simp [handedIn, hc]
  · simp [handedIn, hj]

/-- A change of slot `q` does not show in the others. -/
theorem dead_update {T : Table} {l : List Slot} {q : Slot} (hq : q ∉ l) (r : Row) :
    (∃ j ∈ l, Table.Dead (Function.update T q r) p j) ↔ ∃ j ∈ l, T.Dead p j := by
  refine exists_congr fun j => and_congr_right fun hj => ?_
  have hne : j ≠ q := by
    rintro rfl
    exact hq hj
  rw [Table.Dead, Table.Dead, Table.Child, Table.Child, Function.update_of_ne hne]

theorem handOverAll_ends {T : Table} {v : Int} (h : k.Shows T v) (r : Option Slot) {l : List Slot}
    (hl : l.Nodup) (gave : Bool) : Ends (handOverAll p r l gave) (fun z k' =>
      (z = true ↔ gave = true ∨ r ≠ none ∧ ∃ q ∈ l, T.Dead p q) ∧
        k'.Shows (handedIn T p r l) v) k := by
  induction l generalizing k T gave with
  | nil =>
      refine (ends_pure _).2 ⟨by simp, ?_⟩
      have hT : handedIn T p r [] = T := by
        funext q
        simp [handedIn]
      rwa [hT]
  | cons q l ih =>
      obtain ⟨hq, hl⟩ := List.nodup_cons.1 hl
      have hpar : (k.procs q).parent = (T q).parent := congrArg Row.parent (congrFun h.1 q)
      rw [handOverAll, ends_bind, ends_getProc, hpar]
      split
      · next hc =>
        have hc : T.Child p q := hc
        refine ends_bind.2 ((handOver_ends h r).mono fun z k₁ => ?_)
        rintro ⟨rfl, h₁⟩
        refine (ih h₁ hl _).mono fun z k' => ?_
        rintro ⟨hz, hT⟩
        rw [dead_update hq] at hz
        rw [handedIn_cons_child hq hc]
        refine ⟨hz.trans ?_, hT⟩
        simp only [Bool.or_eq_true, decide_eq_true_eq, List.exists_mem_cons_iff, Table.Dead, hc,
          true_and]
        tauto
      · next hc =>
        have hc : ¬T.Child p q := hc
        have hd : ¬T.Dead p q := fun hd => hc hd.1
        refine (ih h hl gave).mono fun z k' => ?_
        rintro ⟨hz, hT⟩
        rw [handedIn_cons hc]
        refine ⟨hz.trans ?_, hT⟩
        simp only [List.exists_mem_cons_iff, hd, false_or]

theorem handedIn_finRange (T : Table) (p : Slot) (r : Option Slot) :
    handedIn T p r (List.finRange NPROC) = T.handed p r NPROC := by
  funext q
  simp [handedIn, Table.handed]

theorem wakeupIf_ends {T : Table} {v : Int} (h : k.Shows T v) (b : Bool) (c : Option Chan) :
    Ends (wakeupIf b c) (fun _ k' => k'.Shows (if b = true then T.woken c NPROC else T) v) k := by
  rw [wakeupIf]
  split
  · next hb => exact wakeup_ends h c
  · next hb => exact (ends_pure _).2 h

theorem kexit_effect (status : Int) : Ends (kexit p status)
    (fun _ k' => Effect p k.rows k.currPid (.exit status) none k'.rows k'.currPid) k := by
  have h : k.Shows k.rows k.currPid := ⟨rfl, rfl⟩
  rw [kexit, ends_bind, ends_getProc]
  refine h.onMem_bind fun _ k₁ h => h.modifyProc_bind (fun _ => rfl) fun k₁ h => ?_
  rw [ends_bind, ends_get]
  generalize hr : findReaper k₁.procs p = r
  have hexit : ∀ k' : Kernel L, k'.Shows (k.rows.exit p status r) k.currPid →
      Effect p k.rows k.currPid (.exit status) none k'.rows k'.currPid := by
    rintro k' ⟨hT, hv⟩
    rw [hT, hv]
    have hrows : ∀ q, (k₁.procs q).row = k.rows q := fun q => congrFun h.1 q
    cases r with
    | none =>
        refine .exitNone status fun q hq => ?_
        rw [← h.1] at hq
        exact absurd (decide_eq_true hq) (List.find?_eq_none.1 hr q (List.mem_finRange q))
    | some q =>
        refine .exit status q ?_
        rw [← h.1]
        exact isFirst_of_find (P := k₁.rows.Reaper p) hr
  dsimp only
  refine ends_bind.2 ((handOverAll_ends h r (List.nodup_finRange NPROC) false).mono fun g k₂ => ?_)
  rintro ⟨hg, h₂⟩
  have hg : g = true ↔ r ≠ none ∧ ∃ q, k.rows.Dead p q := by simpa using hg
  rw [handedIn_finRange] at h₂
  refine ends_bind.2 ((wakeupIf_ends h₂ g _).mono fun _ k₃ h₃ => ?_)
  rw [ends_bind, ends_getProc]
  refine ends_bind.2 ((wakeupIf_ends h₃ _ _).mono fun _ k₄ h₄ => ends_modifyProc.2 (hexit _ ?_))
  -- what the table shows is `Table.exit`, step by step
  simp only [hg] at h₃ h₄
  have hpar : (k₃.procs p).parent = (k₃.rows p).parent := rfl
  rw [hpar, h₃.1] at h₄
  have hz := h₄.setProc (i := p) fun pp => { pp with xstate := status, state := .zombie }
  refine ⟨hz.1.trans ?_, hz.2⟩
  have hrow : ({ k₄.procs p with xstate := status, state := .zombie } : Proc).row =
      { k₄.rows p with xstate := status, state := .zombie } := rfl
  rw [hrow, h₄.1, Table.exit]
  simp only [Option.isSome_iff_ne_none, ne_eq, ite_not]

/-! ## The table at the end of boot -/

@[simp] theorem ends_throw {α : Type} (e : Panic) (Q : α → Kernel L → Prop) :
    Ends (throw e) Q k := (wpe_throw e).2 trivial

/-- A slot as `.bss` leaves it. -/
theorem rows_start (bytes : Bytes) : (Kernel.start L bytes).Shows (fun _ => .reset) 1 := ⟨rfl, rfl⟩

/-- The table when the first process has been made. -/
def bootRows : Table := fun i =>
  if i.val = 0 then { Row.reset with pid := 1, state := .ready } else .reset

theorem uvmfirst_ends {T : Table} {v : Int} (h : k.Shows T v) (i : Slot) (sp : Nat) :
    Ends (uvmfirst progs i sp)
      (fun _ k' => k'.Shows (Function.update T i { T i with state := .ready }) v) k := by
  rw [uvmfirst]
  split
  · exact ends_throw _ _
  · rw [ends_bind, ends_getProc]
    refine h.onMem_bind fun r k₁ h => ?_
    split
    · exact ends_throw _ _
    · refine h.onMem_bind fun stack k₁ h => ?_
      split
      · exact ends_throw _ _
      · refine h.onMem_bind fun pte k₁ h => ?_
        split
        · exact ends_throw _ _
        · rw [ends_bind, ends_get]
          refine h.onMem_bind fun _ k₁ h => h.onMem_bind fun _ k₁ h => h.onMem_bind fun _ k₁ h =>
            h.onMem_bind fun _ k₁ h => h.onMem_bind fun _ k₁ h => h.onMem_bind fun _ k₁ h => ?_
          have hs := h.setProc (i := i) fun p => p.asInit r.sz
          have hrow : ((k₁.procs i).asInit r.sz).row = { T i with state := .ready } := by
            rw [← h.1]
            rfl
          rw [hrow] at hs
          exact ends_modifyProc.2 hs

theorem initUserproc_ends (h : k.Shows (fun _ => .reset) 1) :
    Ends (initUserproc progs) (fun _ k' => k'.Shows bootRows 2) k := by
  rw [initUserproc, ends_bind]
  refine procalloc_ends.mono fun r k₁ => ?_
  rintro (⟨rfl, -, -⟩ | ⟨i, ⟨-, hi⟩, ⟨rfl, -⟩ | ⟨rfl, h₁⟩⟩)
  · exact ends_throw _ _
  · exact ends_throw _ _
  · -- the first slot is the first that is free
    obtain rfl : i = 0 := by
      by_contra hne
      refine hi 0 (Fin.pos_of_ne_zero hne) ?_
      rw [h.1]
      rfl
    rw [h.1, h.2] at h₁
    refine (uvmfirst_ends h₁ 0 _).mono fun _ k' h' => ⟨h'.1.trans ?_, h'.2⟩
    rw [Function.update_idem, Function.update_self]
    funext i
    by_cases hz : i = 0
    · subst hz
      rfl
    · have hv : i.val ≠ 0 := fun h => hz (Fin.ext h)
      rw [Function.update_of_ne hz, bootRows, if_neg hv]

/-- **Boot leaves the table that the schedulers begin with.** -/
theorem boot_rows (progs : Programs) (bytes : Bytes) :
    Ends (boot progs) (fun _ k' => k'.Shows bootRows 2) (Kernel.start L bytes) := by
  rw [boot]
  refine (rows_start bytes).onMem_bind fun _ k₁ h => h.onMem_bind fun kpt k₁ h => ?_
  rw [ends_bind, ends_modify, ends_bind, ends_modify]
  refine initUserproc_ends ⟨?_, h.2⟩
  funext i
  have hi : (k₁.procs i).row = .reset := congrFun h.1 i
  change { (k₁.procs i).row with state := .unused } = Row.reset
  rw [hi]
  rfl

/-- The small machine, when its first process has been dispatched. -/
theorem tiny_boots : ∃ k : Kernel tinyLayout,
    (system tinyLayout tinyPrograms).Reachable k ∧ (k.procs 0).state = .running ∧
      (k.procs 0).sz = 0x2000 ∧ k.rows = Function.update bootRows 0
        { bootRows 0 with state := .running, chan := none } ∧ k.currPid = 2 := by
  rcases wpe_iff.1 (boot_spec (L := tinyLayout) tinyPrograms fun _ => 0) with
    ⟨_, k, hrun, -, i, hi⟩ | ⟨e, -, -, hno⟩
  · obtain ⟨hT, hv⟩ := (boot_rows tinyPrograms _).of_run hrun
    obtain rfl : i = 0 := by
      by_contra hne
      have hval : i.val ≠ 0 := fun h => hne (Fin.ext h)
      have hrow : (k.procs i).row = .reset := (congrFun hT i).trans (if_neg hval)
      exact absurd (hi.state.symm.trans (congrArg Row.state hrow)) (by decide)
    have hboot : (system tinyLayout tinyPrograms).Reachable k := .start ⟨_, hrun⟩
    refine ⟨k.setProc 0 fun pp => { pp with state := .running, chan := none },
      hboot.next (a := .dispatch 0) ⟨hi.state, rfl⟩, ?_, ?_, ?_, hv⟩
    · rw [Kernel.setProc_self]
    · rw [Kernel.setProc_self, hi.sz, show tinyPrograms.init = tinyImage from rfl, imageEnd_tiny]
      decide
    · rw [Kernel.rows_setProc, ← hT]
      rfl
  · exact absurd ⟨tinyImage_accepts, roomy_tiny⟩ hno

/-! ## The calls of the two models -/

/-- A call of the process in slot `p`, run to its end; `none` if it does not come back. -/
def callProc (p : Slot) : ProcCall → KernelM L (Option Int)
  | .fork => do
      let v ← fork p
      pure (some v)
  | .wait addr => wait p addr
  | .exit status => do
      kexit p status
      pure none

theorem call_effect (c : ProcCall) : Ends (callProc p c)
    (fun r k' => Effect p k.rows k.currPid c r k'.rows k'.currPid) k := by
  cases c with
  | fork => exact ends_bind.2 (fork_effect.mono fun r k' h => (ends_pure _).2 h)
  | wait addr => exact wait_effect addr
  | exit status => exact ends_bind.2 ((kexit_effect status).mono fun _ k' h => (ends_pure _).2 h)

/-- **The two models of `proc.c` agree.**  Let hart `h` be in user mode for the process in slot
`p`, and let no other hart hold a lock.  If `fork`, `wait` or `exit`, run to its end with all its
work on memory, takes `proctable` and `curr_pid` from what they are in that state to some other
values and returns `r`, then hart `h` alone can get there by its own steps, with the same
result. -/
theorem call_agrees {n : Nat} {h : Fin n} {s : Sched.State n} {c : ProcCall} {r : Option Int}
    (hs : Sched.Alone h p k.rows k.currPid .user s) (hr : callProc p c k = .ok (r, k')) :
    ∃ as s', (∀ a ∈ as, a.1 = h) ∧ Sched.run s as = some s' ∧
      Sched.Done h p c k'.rows k'.currPid r s' :=
  Sched.solo_call ((call_effect c).of_run hr) s hs

/-- `init` of the small machine, in user mode on hart 0, forks. -/
theorem call_agrees_forked : ∃ (s : Sched.State 2) (k k' : Kernel tinyLayout) (np : Slot),
    (system tinyLayout tinyPrograms).Reachable k ∧ Sched.Alone 0 0 k.rows k.currPid .user s ∧
      callProc 0 .fork k = .ok (some 2, k') ∧ (k'.procs np).Live ∧ np ≠ 0 ∧
      ∃ as s', (∀ a ∈ as, a.1 = (0 : Fin 2)) ∧ Sched.run s as = some s' ∧
        Sched.Done 0 0 .fork k'.rows k'.currPid (some 2) s' := by
  obtain ⟨k, hr, hp, hsz, hrows, hpid⟩ := tiny_boots
  have halone : ∀ j, j ≠ 0 → (k.procs j).state = .unused := by
    intro j hj
    have hj' : j.val ≠ 0 := fun h => hj (Fin.ext h)
    have hrow := congrFun hrows j
    rw [Function.update_of_ne hj, bootRows, if_neg hj'] at hrow
    exact congrArg Row.state hrow
  obtain ⟨np, k', hf, hne, hn, -⟩ := fork_alone hr hp hsz halone
  have hcall : callProc 0 .fork k = .ok (some 2, k') := by
    simp only [callProc, bind, StateT.bind, hf, hpid]
    rfl
  -- hart 0 has dispatched it
  have hrun : (Sched.run (Sched.boot 2) (Sched.goes 0 9)).map (fun s =>
      (s.cur 0, s.pcOf 0, (s.pcOf 1).locks, s.currPid, decide (∀ i, s.rows i =
        Function.update bootRows 0 { bootRows 0 with state := .running, chan := none } i))) =
      some (some 0, .user, ∅, 2, true) := by
    decide +kernel
  obtain ⟨s, hs, he⟩ := Option.map_eq_some_iff.1 hrun
  simp only [Prod.mk.injEq, decide_eq_true_eq] at he
  obtain ⟨hcur, hpc, hlocks, hv, hT⟩ := he
  have hs' : Sched.Alone 0 0 k.rows k.currPid .user s := by
    refine ⟨Sched.reachable_run (.start rfl) hs, hcur, ?_, by rw [hv, hpid], hpc, fun h hh => ?_⟩
    · rw [hrows]
      exact funext hT
    · obtain rfl : h = 1 := by omega
      exact hlocks
  exact ⟨s, k, k', np, hr, hs', hcall, .inl hn, hne, call_agrees hs' hcall⟩

end Wl00.Vm
