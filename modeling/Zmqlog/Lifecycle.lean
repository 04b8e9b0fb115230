import Zmqlog.Step

/-! The life of the service over any number of cycles: which execution of
`run()` may be at work, who may touch the binds, and which sockets are bound
meanwhile. -/
namespace Zmqlog.Lifecycle
open Transition Zmqpp Control Service Step

/-- `none` as long as an execution of `run()` may be at work. From the end of
the wait in `stop()` until the next launch it is the sockets that `stop()` has
still to unbind. -/
def unbinding (owner : Owner) (mRun : Bool) : Option (List Sock) :=
  match owner with
  | .idle | .startTest | .stopTest _ => if mRun then none else some []
  | .startAssign | .stopClear _ | .stopWrite _ | .stopWait _ => none
  | .unbind _ k todo => some (k :: todo)
  | .startSet | .startLaunch | .stopEnd _ _ => some []
  | .destroying _ _ | .destroyed | .terminated => some []

/-- What `m_run` has to be where the owner's place in a call determines it. -/
def flagAt : Owner → Option Bool
  | .idle | .startTest | .stopTest _ => none
  | .startLaunch | .startAssign | .stopClear _ => some true
  | .startSet | .stopWrite _ | .stopWait _ | .unbind _ _ _ | .stopEnd _ _ => some false
  | .destroying _ _ | .destroyed | .terminated => some false

def BoundExactly (s : State) (l : List Sock) : Prop := ∀ k, s.bound k = decide (k ∈ l)

structure Inv (s : State) : Prop where
  fresh : ∀ i, s.runs i = .unlaunched ↔ s.launched ≤ i
  flag : ∀ b ∈ flagAt s.owner, s.mRun = b
  fut : s.fut + (if s.owner = .startAssign then 2 else 1) = s.launched
  single : ∀ i, (s.runs i).active = true → i + 1 = s.launched ∧ unbinding s.owner s.mRun = none
  binds : unbinding s.owner s.mRun = none → ∃ l, BoundExactly s l ∧ l <+: bindOrder ∧
    ∀ i k todo, s.runs i = .bind (k :: todo) → l ++ k :: todo = bindOrder
  unbinds : ∀ todo, unbinding s.owner s.mRun = some todo →
    todo <:+ unbindOrder ∧ ∃ l, BoundExactly s l ∧ l <+: todo

theorem Inv.idle_of_unbinding {s : State} (hs : Inv s) {todo : List Sock}
    (h : unbinding s.owner s.mRun = some todo) (i : Nat) : (s.runs i).active = false := by
  by_contra hactive
  have hnone := (hs.single i (by simpa using hactive)).2
  rw [h] at hnone
  cases hnone

theorem Inv.idle_of_launch {s : State} (hs : Inv s) {owner : Owner}
    (h : Calls s.owner .launch owner) (i : Nat) : (s.runs i).active = false := by
  generalize howner : s.owner = before at h
  cases h
  have hquiet : unbinding s.owner s.mRun = some [] := by rw [howner]; rfl
  exact hs.idle_of_unbinding hquiet i

theorem Inv.others {s : State} (hs : Inv s) {i : Nat} (h : (s.runs i).active = true) {j : Nat}
    (hj : j ≠ i) : (s.runs j).active = false := by
  by_contra hother
  have hi' := (hs.single i h).1
  have hj' := (hs.single j (by simpa using hother)).1
  omega

theorem Inv.last_eq {s : State} (hs : Inv s) {i : Nat} (h : (s.runs i).active = true) :
    s.launched - 1 = i := by
  have hlast := (hs.single i h).1
  omega

/-- The owner leaves the last execution where it is, or launches the next one
when that is not at work. -/
theorem Inv.last_owner {z : Zlogpull} {s t : State} {ev : OwnerEv} (hs : Inv s)
    (h : (service z).step s (.owner ev) = some t) :
    t.runs (t.launched - 1) = s.runs (s.launched - 1) ∨
      (s.runs (s.launched - 1)).active = false ∧ t.runs (t.launched - 1) = .bind bindOrder := by
  rcases step_owner h with ⟨-, owner, hcalls, rfl⟩
  by_cases hlaunch : ev = .launch
  · subst hlaunch
    exact .inr ⟨hs.idle_of_launch hcalls _, by simp [State.act]⟩
  · rw [proceed_runs, proceed_launched, act_runs s hlaunch, act_launched s hlaunch]
    exact .inl rfl

theorem Inv.eq_fut {s : State} (hs : Inv s) (howner : s.owner ≠ .startAssign) {i : Nat}
    (h : (s.runs i).active = true) : i = s.fut := by
  have hlast := (hs.single i h).1
  have hfut := hs.fut
  rw [if_neg howner] at hfut
  omega

theorem Inv.ended_of_inactive {s : State} (hs : Inv s) {i : Nat} (hi : i < s.launched)
    (h : (s.runs i).active = false) : (s.runs i).ended = true := by
  have hlaunched : s.runs i ≠ .unlaunched := by
    intro hpc
    have := (hs.fresh i).mp hpc
    omega
  cases hpc : s.runs i <;> simp_all [Pc.active, Pc.ended]

theorem Inv.fut_lt {s : State} (hs : Inv s) : s.fut < s.launched := by
  have hfut := hs.fut
  split at hfut <;> omega

/-- What is trivial of an execution that is not at work needs to be shown of
the moving one alone. -/
theorem Inv.runs_after {s : State} (hs : Inv s) {P : Pc → Prop}
    (hinactive : ∀ pc, pc.active = false → P pc) {i : Nat} (h : (s.runs i).active = true)
    {ev : Ev} {pc : Pc} (hpc : P pc) (j : Nat) : P (((s.effect ev).goto i pc).runs j) := by
  by_cases hj : j = i
  · rw [hj, goto_self]
    exact hpc
  · rw [goto_other _ _ _ hj, effect_runs]
    exact hinactive _ (hs.others h hj)

theorem BoundExactly.nil {s : State} {l : List Sock} (h : BoundExactly s l) (hl : l <+: []) :
    ∀ k, s.bound k = false := by
  intro k
  rw [h k, List.prefix_nil.mp hl]
  rfl

theorem inv_init (z : Zlogpull) : Inv (service z).init where
  fresh := by
    intro i
    by_cases hi : i = 0
    · simp [service, hi]
    · simp [service, hi, Nat.one_le_iff_ne_zero]
  flag := by intro b hb; cases hb
  fut := rfl
  single := by
    intro i hi
    by_cases hi0 : i = 0
    · subst hi0
      exact ⟨rfl, rfl⟩
    · simp [service, hi0, Pc.active] at hi
  binds := by
    intro _
    refine ⟨[], fun k => by simp [service], List.nil_prefix, ?_⟩
    intro i k todo hi
    by_cases hi0 : i = 0
    · subst hi0
      exact (Pc.bind.inj hi).symm
    · simp [service, hi0] at hi
  unbinds := by
    intro todo h
    cases h

theorem binds_goes {z : Zlogpull} {s : State} {l : List Sock} {pc pc' : Pc} {ev : Ev}
    (hl : BoundExactly s l) (hinitial : l <+: bindOrder)
    (htodo : ∀ k todo, pc = .bind (k :: todo) → l ++ k :: todo = bindOrder)
    (hgoes : Goes z pc ev pc') :
    ∃ l', BoundExactly (s.effect ev) l' ∧ l' <+: bindOrder ∧
      ∀ k todo, pc' = .bind (k :: todo) → l' ++ k :: todo = bindOrder := by
  cases hgoes with
  | bound k todo =>
    have hsplit := htodo k todo rfl
    refine ⟨l ++ [k], fun j => ?_, ⟨todo, by simpa using hsplit⟩, ?_⟩
    · by_cases hjk : j = k
      · simp [State.effect, hjk]
      · simp [State.effect, hjk, hl j]
    · intro k' todo' hpc
      cases hpc
      simpa using hsplit
  | _ => exact ⟨l, hl, hinitial, by simp⟩

theorem inv_run {z : Zlogpull} {s t : State} {i : Nat} {ev : Ev} (hs : Inv s)
    (h : (service z).step s (.run i ev) = some t) : Inv t := by
  rcases step_run.mp h with ⟨-, pc, hgoes, rfl⟩
  have hactive := hgoes.active
  have hcurrent := hs.single i hactive
  have hlt : i < s.launched := by omega
  refine ⟨?_, by simpa using hs.flag, by simpa using hs.fut, ?_, ?_, ?_⟩
  · intro j
    by_cases hji : j = i
    · subst hji
      have hpc : pc ≠ .unlaunched := hgoes.ne_unlaunched
      simp [hpc]
      omega
    · rw [goto_other _ _ _ hji, effect_runs, goto_launched, effect_launched]
      exact hs.fresh j
  · intro j hj
    by_cases hji : j = i
    · subst hji
      simpa using hcurrent
    · rw [goto_other _ _ _ hji, effect_runs, hs.others hactive hji] at hj
      cases hj
  · intro _
    rcases hs.binds hcurrent.2 with ⟨l, hl, hinitial, htodo⟩
    rcases binds_goes hl hinitial (htodo i) hgoes with ⟨l', hl', hinitial', htodo'⟩
    refine ⟨l', hl', hinitial', hs.runs_after
      (P := fun pc => ∀ k todo, pc = .bind (k :: todo) → l' ++ k :: todo = bindOrder)
      ?_ hactive htodo'⟩
    intro pc hinactive k todo hpc
    rw [hpc] at hinactive
    cases hinactive
  · intro todo htodo
    have hnone := hcurrent.2
    simp only [goto_owner, goto_mRun, effect_owner, effect_mRun] at htodo
    rw [htodo] at hnone
    cases hnone

theorem Inv.of_same {s t : State} (hs : Inv s) (hruns : t.runs = s.runs)
    (hlaunched : t.launched = s.launched) (hbound : t.bound = s.bound)
    (hflag : ∀ b ∈ flagAt t.owner, t.mRun = b)
    (hfut : t.fut + (if t.owner = .startAssign then 2 else 1) = t.launched)
    (hunbinding : unbinding t.owner t.mRun = unbinding s.owner s.mRun) : Inv t where
  fresh := by
    rw [hruns, hlaunched]
    exact hs.fresh
  flag := hflag
  fut := hfut
  single := by
    rw [hruns, hlaunched, hunbinding]
    exact hs.single
  binds := by
    rw [hruns, hunbinding]
    intro hnone
    rcases hs.binds hnone with ⟨l, hl, hrest⟩
    exact ⟨l, fun k => by rw [hbound]; exact hl k, hrest⟩
  unbinds := by
    rw [hunbinding]
    intro todo htodo
    rcases hs.unbinds todo htodo with ⟨hsuffix, l, hl, hinitial⟩
    exact ⟨hsuffix, l, fun k => by rw [hbound]; exact hl k, hinitial⟩

theorem Inv.launch {s : State} (hs : Inv s) (howner : s.owner = .startLaunch) :
    Inv ((s.act .launch).proceed .startAssign) := by
  have hmRun : s.mRun = true := hs.flag true (by rw [howner]; rfl)
  have hquiet : unbinding s.owner s.mRun = some [] := by rw [howner]; rfl
  have hfut : s.fut + 1 = s.launched := by simpa [howner] using hs.fut
  refine ⟨?_, ?_, ?_, ?_, ?_, ?_⟩
  · intro i
    by_cases hne : i = s.launched
    · simp [State.act, hne]
    · have := hs.fresh i
      simp [State.act, hne, this]
      omega
  · intro b hb
    cases hb
    exact hmRun
  · simp [State.act]
    omega
  · intro i hi
    by_cases hne : i = s.launched
    · subst hne
      exact ⟨rfl, rfl⟩
    · have := hs.idle_of_unbinding hquiet i
      simp [State.act, hne, this] at hi
  · intro _
    rcases hs.unbinds [] hquiet with ⟨-, l, hl, hinitial⟩
    refine ⟨l, hl, ?_, ?_⟩
    · rw [List.prefix_nil.mp hinitial]
      exact List.nil_prefix
    · intro i k todo hi
      by_cases hne : i = s.launched
      · subst hne
        have : Pc.bind bindOrder = .bind (k :: todo) := by simpa [State.act] using hi
        simp [List.prefix_nil.mp hinitial, Pc.bind.inj this]
      · have := hs.idle_of_unbinding hquiet i
        rw [show s.runs i = .bind (k :: todo) by simpa [State.act, hne] using hi] at this
        cases this
  · intro todo htodo
    cases htodo

theorem Inv.wait {s : State} {c : Caller} (hs : Inv s) (howner : s.owner = .stopWait c)
    (hended : (s.runs s.fut).ended = true) :
    Inv ((s.act .wait).proceed (unbindFrom c unbindOrder)) := by
  have hmRun : s.mRun = false := hs.flag false (by rw [howner]; rfl)
  have hfut : s.fut + 1 = s.launched := by simpa [howner] using hs.fut
  have hidle : ∀ i, (s.runs i).active = false := by
    intro i
    by_contra hactive
    have hi := hs.eq_fut (by simp [howner]) (by simpa using hactive)
    subst hi
    cases hpc : s.runs s.fut <;> simp_all [Pc.active, Pc.ended]
  refine ⟨hs.fresh, ?_, hfut, ?_, ?_, ?_⟩
  · intro b hb
    cases hb
    exact hmRun
  · intro i hi
    simp [State.act, hidle i] at hi
  · intro hnone
    cases hnone
  · intro todo htodo
    cases htodo
    rcases hs.binds (by rw [howner]; rfl) with ⟨l, hl, hinitial, -⟩
    exact ⟨List.suffix_rfl, l, hl, hinitial⟩

theorem unbinding_unbindFrom (c : Caller) (todo : List Sock) (mRun : Bool) :
    unbinding (unbindFrom c todo) mRun = some todo := by
  cases todo <;> rfl

theorem flagAt_unbindFrom (c : Caller) (todo : List Sock) :
    flagAt (unbindFrom c todo) = some false := by
  cases todo <;> rfl

theorem unbindFrom_ne_startAssign (c : Caller) (todo : List Sock) :
    unbindFrom c todo ≠ .startAssign := by
  cases todo <;> simp [unbindFrom]

/-- Unbinding goes in the order of the binds, so what stays bound stays a
prefix of what is still to do. -/
theorem Inv.unbind {s : State} {c : Caller} {k : Sock} {todo : List Sock} (hs : Inv s)
    (howner : s.owner = .unbind c k todo) (hbound : s.bound k = true) :
    Inv ((s.act (.unbind k true)).proceed (unbindFrom c todo)) := by
  have hmRun : s.mRun = false := hs.flag false (by rw [howner]; rfl)
  have hquiet : unbinding s.owner s.mRun = some (k :: todo) := by rw [howner]; rfl
  have hfut : s.fut + 1 = s.launched := by simpa [howner] using hs.fut
  refine ⟨hs.fresh, ?_, ?_, ?_, ?_, ?_⟩
  · intro b hb
    rw [proceed_owner, flagAt_unbindFrom] at hb
    cases hb
    exact hmRun
  · simpa [unbindFrom_ne_startAssign, State.act] using hfut
  · intro i hi
    simp [State.act, hs.idle_of_unbinding hquiet i] at hi
  · intro hnone
    rw [proceed_owner, unbinding_unbindFrom] at hnone
    cases hnone
  · intro todo' htodo
    rw [proceed_owner, unbinding_unbindFrom] at htodo
    cases htodo
    rcases hs.unbinds _ hquiet with ⟨hsuffix, l, hl, hinitial⟩
    have hnodup : (k :: todo).Nodup := hsuffix.sublist.nodup (by decide)
    have hk : k ∉ todo := (List.nodup_cons.mp hnodup).1
    refine ⟨(List.suffix_cons k todo).trans hsuffix, ?_⟩
    cases l with
    | nil =>
      rw [hl k] at hbound
      cases hbound
    | cons j l =>
      rcases List.cons_prefix_cons.mp hinitial with ⟨rfl, hrest⟩
      refine ⟨l, fun i => ?_, hrest⟩
      by_cases hi : i = j
      · subst hi
        have : i ∉ l := fun hmem => hk (hrest.subset hmem)
        simp [State.act, this]
      · simp [State.act, hi, hl i]

theorem Inv.unbindThrow {s : State} {c : Caller} {k : Sock} {todo : List Sock} (hs : Inv s)
    (howner : s.owner = .unbind c k todo) (hbound : s.bound k = false) :
    Inv (s.proceed (.stopEnd c true)) := by
  have hmRun : s.mRun = false := hs.flag false (by rw [howner]; rfl)
  have hquiet : unbinding s.owner s.mRun = some (k :: todo) := by rw [howner]; rfl
  have hfut : s.fut + 1 = s.launched := by simpa [howner] using hs.fut
  refine ⟨hs.fresh, ?_, hfut, ?_, ?_, ?_⟩
  · intro b hb
    cases hb
    exact hmRun
  · intro i hi
    rw [proceed_runs, hs.idle_of_unbinding hquiet i] at hi
    cases hi
  · intro hnone
    cases hnone
  · intro todo' htodo
    cases htodo
    rcases hs.unbinds _ hquiet with ⟨-, l, hl, hinitial⟩
    refine ⟨List.nil_suffix, ?_⟩
    cases l with
    | nil => exact ⟨[], hl, List.nil_prefix⟩
    | cons j l =>
      rcases List.cons_prefix_cons.mp hinitial with ⟨rfl, -⟩
      rw [hl j] at hbound
      simp at hbound

theorem inv_owner {z : Zlogpull} {s t : State} {ev : OwnerEv} (hs : Inv s)
    (h : (service z).step s (.owner ev) = some t) : Inv t := by
  rcases step_owner h with ⟨hpermits, owner, hcalls, rfl⟩
  have hflag := hs.flag
  have hfut := hs.fut
  generalize howner : s.owner = before at hcalls
  rw [howner] at hflag hfut
  cases hcalls with
  | start | stop | destroy =>
    refine hs.of_same rfl rfl rfl ?_ hfut ?_
    · intro b hb
      cases hb
    · rw [howner]
      rfl
  | started =>
    refine hs.of_same rfl rfl rfl ?_ hfut ?_
    · intro b hb
      cases hb
    · rw [howner]
      rfl
  | restart =>
    have hmRun : s.mRun = false := by simpa [State.permits] using hpermits
    refine hs.of_same rfl rfl rfl ?_ hfut ?_
    · intro b hb
      cases hb
      exact hmRun
    · simp [howner, unbinding, State.act, hmRun]
  | stopping c =>
    have hmRun : s.mRun = true := by simpa [State.permits] using hpermits
    refine hs.of_same rfl rfl rfl ?_ hfut ?_
    · intro b hb
      cases hb
      exact hmRun
    · simp [howner, unbinding, State.act, hmRun]
  | stopped c =>
    have hmRun : s.mRun = false := by simpa [State.permits] using hpermits
    refine hs.of_same rfl rfl rfl ?_ ?_ ?_
    · intro b hb
      cases c <;> cases hb
      exact hmRun
    · cases c <;> exact hfut
    · cases c <;> simp [howner, unbinding, State.act, afterStop, destroyFrom, teardown, hmRun]
  | set =>
    refine hs.of_same rfl rfl rfl ?_ hfut ?_
    · intro b hb
      cases hb
      rfl
    · rw [howner]
      rfl
  | launch => exact hs.launch howner
  | assign =>
    have hmRun : s.mRun = true := hflag true rfl
    refine hs.of_same rfl rfl rfl ?_ ?_ ?_
    · intro b hb
      cases hb
    · have : s.fut + 2 = s.launched := hfut
      simp [State.act]
      omega
    · simp [howner, unbinding, State.act, hmRun]
  | clear c =>
    refine hs.of_same rfl rfl rfl ?_ hfut ?_
    · intro b hb
      cases hb
      rfl
    · rw [howner]
      rfl
  | pollCancel c =>
    refine hs.of_same rfl rfl rfl hflag hfut ?_
    rw [howner]
    rfl
  | wait c =>
    exact hs.wait howner (by simpa [State.permits] using hpermits)
  | unbind c k todo =>
    exact hs.unbind howner (by simpa [State.permits] using hpermits)
  | unbindThrow c k todo =>
    exact hs.unbindThrow howner (by simpa [State.permits] using hpermits)
  | ret c =>
    have hmRun : s.mRun = false := hflag false rfl
    refine hs.of_same rfl rfl rfl ?_ ?_ ?_
    · intro b hb
      cases c <;> cases hb
      exact hmRun
    · cases c <;> exact hfut
    · cases c <;> simp [howner, unbinding, State.act, afterStop, destroyFrom, teardown, hmRun]
  | throw c =>
    have hmRun : s.mRun = false := hflag false rfl
    refine hs.of_same rfl rfl rfl ?_ ?_ ?_
    · intro b hb
      cases c <;> cases hb
      exact hmRun
    · cases c <;> exact hfut
    · cases c <;> simp [howner, unbinding, State.act, afterThrow, hmRun]
  | close p todo =>
    have hmRun : s.mRun = false := hflag false rfl
    refine hs.of_same rfl rfl rfl ?_ ?_ ?_
    · intro b hb
      cases todo <;> cases hb <;> exact hmRun
    · cases todo <;> exact hfut
    · cases todo <;> simp [howner, unbinding, State.act, destroyFrom]

theorem inv_arrive {z : Zlogpull} {s t : State} {k : Sock} {m : Wire} (hs : Inv s)
    (h : (service z).step s (.arrive k m) = some t) : Inv t := by
  cases step_arrive h
  exact hs.of_same rfl rfl rfl hs.flag hs.fut rfl

theorem inv_step {z : Zlogpull} {s t : State} {a : Act} (hs : Inv s)
    (h : (service z).step s a = some t) : Inv t := by
  cases a with
  | run i ev => exact inv_run hs h
  | owner ev => exact inv_owner hs h
  | arrive k m => exact inv_arrive hs h

theorem inv_of_reachable {z : Zlogpull} {s : State} (h : (service z).Reachable s) : Inv s :=
  h.induction (inv_init z) fun _ _ _ _ => inv_step

/-- The bound sockets are the first few in the order of the binds. -/
def BoundPrefix (s : State) : Prop := ∃ l, BoundExactly s l ∧ l <+: bindOrder

structure Stopped (s : State) : Prop where
  mRun : s.mRun = false
  idle : ∀ i, (s.runs i).active = false
  unbound : ∀ k, s.bound k = false

theorem BoundPrefix.all_of_ctl {s : State} (h : BoundPrefix s) (hctl : s.bound .ctl = true) :
    ∀ k, s.bound k = true := by
  rcases h with ⟨l, hl, hinitial⟩
  have hmem : Sock.ctl ∈ l := by simpa [hl .ctl] using hctl
  have hinits : l ∈ bindOrder.inits := (List.mem_inits _ _).mpr hinitial
  have hall : l = bindOrder := by
    simp only [bindOrder, List.inits, List.map, List.mem_cons, List.not_mem_nil, or_false] at hinits
    rcases hinits with rfl | rfl | rfl | rfl | rfl
    all_goals first | rfl | simp at hmem
  intro k
  rw [hl k, hall]
  cases k <;> rfl

theorem Inv.stopped {s : State} (hs : Inv s) (hmRun : s.mRun = false)
    (h : unbinding s.owner s.mRun = some []) : Stopped s where
  mRun := hmRun
  idle := hs.idle_of_unbinding h
  unbound := by
    rcases hs.unbinds [] h with ⟨-, l, hl, hinitial⟩
    exact hl.nil hinitial

theorem Inv.stopped_of_stopEnd {s : State} (hs : Inv s) {c : Caller} {threw : Bool}
    (h : s.owner = .stopEnd c threw) : Stopped s :=
  hs.stopped (hs.flag false (by rw [h]; rfl)) (by rw [h]; rfl)

theorem Inv.boundPrefix {s : State} (hs : Inv s) {i : Nat} (h : (s.runs i).active = true) :
    BoundPrefix s := by
  rcases hs.binds (hs.single i h).2 with ⟨l, hl, hinitial, -⟩
  exact ⟨l, hl, hinitial⟩

/-- One execution at a time, unbinds only between executions, binds in order,
and a clean slate after every `stop()`, whatever its unbinds did. -/
theorem lifecycle (z : Zlogpull) (s : State) (h : (service z).Reachable s) :
    (∀ i j, (s.runs i).active = true → (s.runs j).active = true → i = j) ∧
      (∀ c k todo, s.owner = .unbind c k todo → ∀ i, (s.runs i).active = false) ∧
      (∀ i, (s.runs i).active = true → BoundPrefix s) ∧
      (∀ i, s.runs i = .poll ∨ s.runs i = .polling → s.bound .ctl = true →
        ∀ k, s.bound k = true) ∧
      (∀ c threw, s.owner = .stopEnd c threw → Stopped s) ∧
      (s.owner = .startLaunch →
        (∀ i, (s.runs i).active = false) ∧ ∀ k, s.bound k = false) := by
  have hs := inv_of_reachable h
  refine ⟨?_, ?_, ?_, ?_, ?_, ?_⟩
  · intro i j hi hj
    have hi' := (hs.single i hi).1
    have hj' := (hs.single j hj).1
    omega
  · intro c k todo howner
    exact hs.idle_of_unbinding (by rw [howner]; rfl)
  · intro i hi
    exact hs.boundPrefix hi
  · intro i hpoll hctl
    have hactive : (s.runs i).active = true := by
      rcases hpoll with hpc | hpc <;> rw [hpc] <;> rfl
    exact (hs.boundPrefix hactive).all_of_ctl hctl
  · intro c threw howner
    exact hs.stopped_of_stopEnd howner
  · intro howner
    have hquiet : unbinding s.owner s.mRun = some [] := by rw [howner]; rfl
    rcases hs.unbinds [] hquiet with ⟨-, l, hl, hinitial⟩
    exact ⟨hs.idle_of_unbinding hquiet, hl.nil hinitial⟩

def quickStop (i : Nat) : List Act :=
  [.owner .stop, .owner (.test true), .owner .clear, .owner .pollCancel,
    .run i (.bind .tcp true), .run i (.bind .ipc true), .run i (.bind .inp true),
    .run i (.bind .ctl true), .run i .setup, .run i (.test false), .run i .ret,
    .owner .wait, .owner (.unbind .tcp true), .owner (.unbind .ipc true),
    .owner (.unbind .inp true), .owner (.unbind .ctl true)]

theorem lifecycle_quickStop :
    ∃ s, (service sample).run (service sample).init (quickStop 0) = some s ∧
      s.owner = .stopEnd .user false ∧ Stopped s :=
  ⟨_, rfl, rfl, (lifecycle sample _ ⟨quickStop 0, rfl⟩).2.2.2.2.1 .user false rfl⟩

end Zmqlog.Lifecycle
