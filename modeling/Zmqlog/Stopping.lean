import Zmqlog.PipeBytes
import Zmqlog.Teardown

/-! How a `stop()` ends. It undoes four binds whether or not they were done,
so its end depends on the binds of the execution that it stops; and it ends at
all only if its byte finds room in the pipe. -/
namespace Zmqlog.Stopping
open Transition Zmqpp Control Service Step Lifecycle Progress Wakeup PipeBytes Teardown

def BindFailed (acts : List Act) (i : Nat) : Prop := ∃ k, .run i (.bind k false) ∈ acts

/-- What the sockets tell of the binds of the current execution. -/
def BindsTold (acts : List Act) (s : State) (i : Nat) : Pc → Prop
  | .bind (_ :: _) => ¬ BindFailed acts i
  | _ => (∀ k, s.bound k = true) ↔ ¬ BindFailed acts i

/-- What the owner's place in a call tells of the binds in the past. -/
def UnbindsTold (acts : List Act) (s : State) : Owner → Prop
  | .unbind _ k todo => (∀ j ∈ k :: todo, s.bound j = true) ↔ ¬ BindFailed acts s.fut
  | .stopEnd _ threw => threw = false ↔ ¬ BindFailed acts s.fut
  | .terminated => BindFailed acts s.fut
  | _ => True

structure History (acts : List Act) (s : State) : Prop where
  launched : ∀ i ev, .run i ev ∈ acts → i < s.launched
  binds : unbinding s.owner s.mRun = none →
    BindsTold acts s (s.launched - 1) (s.runs (s.launched - 1))
  unbinds : UnbindsTold acts s s.owner

theorem bindFailed_snoc {acts : List Act} {a : Act} {i : Nat} :
    BindFailed (acts ++ [a]) i ↔ BindFailed acts i ∨ ∃ k, a = .run i (.bind k false) := by
  simp only [BindFailed, List.mem_append, List.mem_singleton, exists_or, eq_comm]

theorem bindFailed_snoc_of_ne {acts : List Act} {a : Act} {i : Nat}
    (h : ∀ k, a ≠ .run i (.bind k false)) :
    BindFailed (acts ++ [a]) i ↔ BindFailed acts i := by
  rw [bindFailed_snoc]
  exact or_iff_left (not_exists.mpr h)

theorem bindsTold_goes {z : Zlogpull} {acts : List Act} {s : State} {i : Nat} {pc pc' : Pc}
    {ev : Ev} (hgoes : Goes z pc ev pc') (hpc : s.runs i = pc)
    (hbinds : ∃ l, BoundExactly s l ∧ l <+: bindOrder ∧
      ∀ i k todo, s.runs i = .bind (k :: todo) → l ++ k :: todo = bindOrder)
    (h : BindsTold acts s i pc) :
    BindsTold (acts ++ [.run i ev]) (s.effect ev) i pc' := by
  cases hgoes with
  | bound k todo =>
    have hnot : ¬ BindFailed (acts ++ [.run i (.bind k true)]) i := by
      rw [bindFailed_snoc_of_ne (by simp)]
      exact h
    cases todo with
    | cons j todo => exact hnot
    | nil =>
      refine ⟨fun _ => hnot, fun _ j => ?_⟩
      rcases hbinds with ⟨l, hl, -, htodo⟩
      have hmem : j ∈ l ++ [k] := by
        rw [htodo i k [] hpc]
        cases j <;> decide
      by_cases hjk : j = k
      · simp [State.effect, hjk]
      · simp_all [State.effect, BoundExactly]
  | refused k todo =>
    have hfailed : BindFailed (acts ++ [.run i (.bind k false)]) i :=
      bindFailed_snoc.mpr (.inr ⟨k, rfl⟩)
    refine ⟨fun hall => ?_, fun hnot => absurd hfailed hnot⟩
    rcases hbinds with ⟨l, hl, -, htodo⟩
    have hnodup : (l ++ k :: todo).Nodup := by
      rw [htodo i k todo hpc]
      decide
    have hnotmem : k ∉ l := fun hmem =>
      (List.nodup_append.mp hnodup).2.2 k hmem k List.mem_cons_self rfl
    have hk : s.bound k = true := hall k
    simp [hl k, hnotmem] at hk
  | _ =>
    simp only [BindsTold] at h ⊢
    rw [bindFailed_snoc_of_ne (by simp)]
    simpa [State.effect] using h

theorem bindFailed_owner {acts : List Act} {ev : OwnerEv} {i : Nat} :
    BindFailed (acts ++ [.owner ev]) i ↔ BindFailed acts i :=
  bindFailed_snoc_of_ne (by simp)

theorem bindsTold_owner {acts : List Act} {ev : OwnerEv} {s : State} {i : Nat} {pc : Pc} :
    BindsTold (acts ++ [.owner ev]) s i pc ↔ BindsTold acts s i pc := by
  unfold BindsTold
  split <;> rw [bindFailed_owner]

theorem bindsTold_of_ended {acts : List Act} {s : State} {i : Nat} {pc : Pc}
    (hended : pc.ended = true) (h : BindsTold acts s i pc) :
    (∀ k, s.bound k = true) ↔ ¬ BindFailed acts i := by
  cases pc with
  | returned | escaped => exact h
  | _ => cases hended

theorem unbindsTold_of_none {acts : List Act} {s : State} {owner : Owner} {mRun : Bool}
    (h : unbinding owner mRun = none) : UnbindsTold acts s owner := by
  cases owner with
  | unbind c k todo | stopEnd c threw | terminated => cases h
  | _ => trivial

theorem history_run {z : Zlogpull} {acts : List Act} {s t : State} {i : Nat} {ev : Ev}
    (hinv : Inv s) (hs : History acts s) (h : (service z).step s (.run i ev) = some t) :
    History (acts ++ [.run i ev]) t := by
  rcases step_run.mp h with ⟨-, pc, hgoes, rfl⟩
  rcases hinv.single i hgoes.active with ⟨hlast, hnone⟩
  have hi := hinv.last_eq hgoes.active
  have hbinds := hs.binds hnone
  rw [hi] at hbinds
  refine ⟨fun j ev' hmem => ?_, fun _ => ?_, ?_⟩
  · rw [goto_launched, effect_launched]
    rcases List.mem_append.mp hmem with hmem | hmem
    · exact hs.launched j ev' hmem
    · cases List.mem_singleton.mp hmem
      omega
  · rw [goto_launched, effect_launched, hi, goto_self]
    exact bindsTold_goes hgoes rfl (hinv.binds hnone) hbinds
  · have hnone' : unbinding ((s.effect ev).goto i pc).owner s.mRun = none := by simpa using hnone
    exact unbindsTold_of_none hnone'

theorem History.launch {acts : List Act} {s : State} (hs : History acts s) :
    History (acts ++ [.owner .launch]) ((s.act .launch).proceed .startAssign) where
  launched := by
    intro i ev hmem
    have hbefore : .run i ev ∈ acts := by simpa using hmem
    exact Nat.lt_succ_of_lt (hs.launched i ev hbefore)
  binds := by
    intro _
    have hfresh : ¬ BindFailed acts s.launched := by
      rintro ⟨k, hmem⟩
      exact absurd (hs.launched _ _ hmem) (lt_irrefl _)
    rw [bindsTold_owner]
    simpa [State.act, BindsTold, bindOrder] using hfresh
  unbinds := trivial

theorem History.of_same {acts : List Act} {s t : State} {ev : OwnerEv} (hs : History acts s)
    (hruns : t.runs = s.runs) (hlaunched : t.launched = s.launched)
    (hbinds : unbinding t.owner t.mRun = none →
      unbinding s.owner s.mRun = none ∧ t.bound = s.bound)
    (hunbinds : UnbindsTold acts t t.owner) : History (acts ++ [.owner ev]) t where
  launched := by
    intro i ev' hmem
    rw [hlaunched]
    exact hs.launched i ev' (by simpa using hmem)
  binds := by
    intro hnone
    rcases hbinds hnone with ⟨hnone', hbound⟩
    have htold := hs.binds hnone'
    rw [bindsTold_owner, hruns, hlaunched]
    unfold BindsTold at htold ⊢
    rw [hbound]
    exact htold
  unbinds := by
    unfold UnbindsTold at hunbinds ⊢
    split at hunbinds
    all_goals simp_all [bindFailed_owner]

theorem history_owner {z : Zlogpull} {acts : List Act} {s t : State} {ev : OwnerEv}
    (hinv : Inv s) (hs : History acts s) (h : (service z).step s (.owner ev) = some t) :
    History (acts ++ [.owner ev]) t := by
  rcases step_owner h with ⟨hpermits, owner, hcalls, rfl⟩
  have htold := hs.unbinds
  generalize howner : s.owner = before at hcalls
  rw [howner] at htold
  cases hcalls with
  | launch => exact hs.launch
  | wait c =>
    have hnone : unbinding s.owner s.mRun = none := by rw [howner]; rfl
    have hfut : s.launched - 1 = s.fut := by
      have := hinv.fut
      simp [howner] at this
      omega
    have hbinds := hs.binds hnone
    rw [hfut] at hbinds
    have hall := bindsTold_of_ended (by simpa [State.permits] using hpermits) hbinds
    have hevery : (∀ k ∈ unbindOrder, s.bound k = true) ↔ ∀ k, s.bound k = true := by
      refine ⟨fun hbound k => hbound k ?_, fun hbound k _ => hbound k⟩
      cases k <;> decide
    refine hs.of_same rfl rfl ?_ (hevery.trans hall)
    intro hnone'
    cases hnone'
  | unbind c k todo =>
    have hbound : s.bound k = true := by simpa [State.permits] using hpermits
    have hsuffix := (hinv.unbinds (k :: todo) (by rw [howner]; rfl)).1
    have hnodup : (k :: todo).Nodup := hsuffix.sublist.nodup (by decide)
    have hk : k ∉ todo := (List.nodup_cons.mp hnodup).1
    refine hs.of_same rfl rfl (fun hnone' => ?_) ?_
    · rw [proceed_owner, unbinding_unbindFrom] at hnone'
      cases hnone'
    · cases todo with
      | nil => simpa [UnbindsTold, unbindFrom, State.act, hbound] using htold
      | cons j todo =>
        have hne : ∀ i ∈ j :: todo, i ≠ k := fun i hi heq => hk (heq ▸ hi)
        have hstill : (∀ i ∈ j :: todo, (s.act (.unbind k true)).bound i = true) ↔
            ∀ i ∈ j :: todo, s.bound i = true :=
          forall₂_congr fun i hi => by simp [State.act, hne i hi]
        have hcons : (∀ i ∈ j :: todo, s.bound i = true) ↔
            ∀ i ∈ k :: j :: todo, s.bound i = true := by
          simp [hbound]
        exact hstill.trans (hcons.trans htold)
  | unbindThrow c k todo =>
    have hbound : s.bound k = false := by simpa [State.permits] using hpermits
    have hfailed : BindFailed acts s.fut := by
      by_contra hnot
      have := htold.mpr hnot k List.mem_cons_self
      rw [hbound] at this
      cases this
    refine hs.of_same rfl rfl ?_ ?_
    · intro hnone'
      cases hnone'
    · simpa [UnbindsTold, State.act] using hfailed
  | throw c =>
    have hfailed : BindFailed acts s.fut := by
      by_contra hnot
      exact absurd (htold.mpr hnot) (by simp)
    refine hs.of_same rfl rfl ?_ ?_
    · have hmRun : s.mRun = false := hinv.flag false (by rw [howner]; rfl)
      cases c <;> simp [unbinding, afterThrow, State.act, hmRun]
    · cases c with
      | user => trivial
      | destructor => exact hfailed
  | ret c =>
    refine hs.of_same rfl rfl ?_ ?_
    · have hmRun : s.mRun = false := hinv.flag false (by rw [howner]; rfl)
      cases c <;> simp [unbinding, afterStop, destroyFrom, teardown, State.act, hmRun]
    · cases c <;> trivial
  | stopped c =>
    have hmRun : s.mRun = false := by simpa [State.permits] using hpermits
    refine hs.of_same rfl rfl ?_ ?_
    · cases c <;> simp [unbinding, afterStop, destroyFrom, teardown, State.act, hmRun]
    · cases c <;> trivial
  | close p todo =>
    have hmRun : s.mRun = false := hinv.flag false (by rw [howner]; rfl)
    refine hs.of_same rfl rfl ?_ ?_
    · cases todo <;> simp [unbinding, destroyFrom]
    · cases todo <;> trivial
  | start | stop | destroy =>
    refine hs.of_same rfl rfl (fun hnone => ⟨?_, rfl⟩) trivial
    rw [howner]
    exact hnone
  | _ =>
    refine hs.of_same rfl rfl ?_ trivial
    simp_all [unbinding, State.act, State.permits]

theorem history_of_run {z : Zlogpull} {acts : List Act} {s : State}
    (h : (service z).run (service z).init acts = some s) : History acts s := by
  refine run_induction (M := service z) (I := History) ?_ ?_ acts s h
  · refine ⟨fun i ev hmem => (by cases hmem), fun _ => ?_, trivial⟩
    rintro ⟨k, hmem⟩
    cases hmem
  · intro acts s a t hrun hs hstep
    have hinv : Inv s := inv_of_reachable ⟨acts, hrun⟩
    cases a with
    | run i ev => exact history_run hinv hs hstep
    | owner ev => exact history_owner hinv hs hstep
    | arrive k m =>
      cases step_arrive hstep
      have hsame (i : Nat) : BindFailed (acts ++ [.arrive k m]) i ↔ BindFailed acts i :=
        bindFailed_snoc_of_ne (by simp)
      refine ⟨fun i ev hmem => hs.launched i ev (by simpa using hmem), fun hnone => ?_, ?_⟩
      · have htold := hs.binds hnone
        unfold BindsTold at htold ⊢
        simpa only [hsame] using htold
      · have htold := hs.unbinds
        unfold UnbindsTold at htold ⊢
        simpa only [hsame] using htold

def ownerRank : Owner → Nat
  | .stopWrite _ => 14
  | .stopWait _ => 13
  | .unbind _ _ todo => 9 + todo.length
  | .stopEnd _ _ => 8
  | .destroying _ todo => 1 + todo.length
  | _ => 0

/-- A bound on the steps of an execution that finds `m_run` cleared. -/
def runRank : Pc → Nat
  | .bind todo => 26 + todo.length
  | .poll => 25
  | .polling => 24
  | .dispatch ready => 3 + 4 * ready.length
  | .receive _ rest => 6 + 4 * rest.length
  | .handle _ rest => 5 + 4 * rest.length
  | .route _ _ rest => 4 + 4 * rest.length
  | .reply _ rest => 4 + 4 * rest.length
  | .test => 2
  | .leave => 1
  | _ => 0

def stopRank (s : State) : Nat := ownerRank s.owner + runRank (s.runs s.fut)

/-- Where the owner is when its call has ended, by the end of the program if
need be. -/
def Over (owner : Owner) : Prop :=
  owner = .idle ∨ owner = .destroyed ∨ owner = .terminated

/-- If the owner is about to write, there is room for its byte. -/
def Writable (z : Zlogpull) (s : State) : Prop := ∀ c, s.owner = .stopWrite c → z.room s.pipe = true

theorem runRank_goes {z : Zlogpull} {s : State} {pc pc' : Pc} {ev : Ev}
    (hgoes : Goes z pc ev pc') (henables : s.enables ev = true) (hmRun : s.mRun = false) :
    runRank pc' < runRank pc := by
  cases hgoes with
  | again => simp [State.enables, hmRun] at henables
  | enter => simp [State.enables, hmRun] at henables
  | pollReturn ready =>
    simp only [State.enables, Bool.and_eq_true, decide_eq_true_eq] at henables
    have hlength : ready.length ≤ 5 := henables.1.length_le
    simp only [runRank]
    omega
  | _ =>
    simp only [runRank, List.length_cons, List.length_nil]
    omega

theorem ownerRank_unbindFrom (c : Caller) (todo : List Sock) :
    ownerRank (unbindFrom c todo) = 8 + todo.length := by
  cases todo with
  | nil => rfl
  | cons k todo =>
    simp only [unbindFrom, ownerRank, List.length_cons]
    omega

theorem ownerRank_destroyFrom (todo : List Resource) :
    ownerRank (destroyFrom todo) = todo.length ∧ (0 < todo.length ∨ Over (destroyFrom todo)) := by
  cases todo with
  | nil => exact ⟨rfl, .inr (.inr (.inl rfl))⟩
  | cons p todo => exact ⟨Nat.add_comm _ _, .inl (Nat.succ_pos _)⟩

theorem ownerRank_calls {o o' : Owner} {ev : OwnerEv} (h : Calls o ev o')
    (ho : 0 < ownerRank o) :
    ownerRank o' < ownerRank o ∧ (0 < ownerRank o' ∨ Over o') ∧ ev ≠ .launch ∧ ev ≠ .assign ∧
      ∀ c, o' ≠ .stopWrite c := by
  cases h with
  | pollCancel c => simp [ownerRank]
  | wait c =>
    rw [ownerRank_unbindFrom]
    simp [ownerRank, unbindOrder, unbindFrom]
  | unbind c k todo =>
    rw [ownerRank_unbindFrom]
    simp only [ownerRank]
    refine ⟨by omega, .inl (by omega), by simp, by simp, ?_⟩
    cases todo <;> simp [unbindFrom]
  | unbindThrow c k todo =>
    simp only [ownerRank]
    refine ⟨by omega, .inl (by omega), by simp, by simp, by simp⟩
  | ret c => cases c <;> simp [ownerRank, afterStop, destroyFrom, teardown, Over]
  | throw c => cases c <;> simp [ownerRank, afterThrow, Over]
  | close p todo =>
    obtain ⟨hrank, hover⟩ := ownerRank_destroyFrom todo
    rw [hrank]
    simp only [ownerRank]
    refine ⟨by omega, hover, by simp, by simp, ?_⟩
    cases todo <;> simp [destroyFrom]
  | _ => cases ho

theorem mRun_of_ownerRank {s : State} (hinv : Inv s) (h : 0 < ownerRank s.owner) :
    s.mRun = false := by
  apply hinv.flag false
  generalize s.owner = owner at h
  cases owner with
  | stopWrite | stopWait | unbind | stopEnd | destroying => rfl
  | _ => cases h

theorem stopRank_step {z : Zlogpull} {s t : State} {a : Act} (hinv : Inv s)
    (hs : 0 < ownerRank s.owner) (h : (service z).step s a = some t) :
    (0 < ownerRank t.owner ∨ Over t.owner) ∧ stopRank t + (ofService a).toNat ≤ stopRank s := by
  cases a with
  | run i ev =>
    rcases step_run.mp h with ⟨henables, pc, hgoes, rfl⟩
    have hne : s.owner ≠ .startAssign := by
      intro howner
      rw [howner] at hs
      cases hs
    have hi := hinv.eq_fut hne hgoes.active
    subst hi
    have hlt := runRank_goes hgoes henables (mRun_of_ownerRank hinv hs)
    refine ⟨.inl (by simpa using hs), ?_⟩
    simp only [stopRank, goto_owner, goto_fut, goto_self, effect_owner, effect_fut, ofService,
      Bool.toNat_true]
    omega
  | owner ev =>
    rcases step_owner h with ⟨-, owner, hcalls, rfl⟩
    rcases ownerRank_calls hcalls hs with ⟨hlt, hover, hlaunch, hassign, -⟩
    refine ⟨hover, ?_⟩
    simp only [stopRank, proceed_owner, proceed_fut, proceed_runs, act_runs s hlaunch,
      act_fut s hassign, ofService, Bool.toNat_true]
    omega
  | arrive k m =>
    cases step_arrive h
    exact ⟨.inl hs, le_rfl⟩

theorem owner_enabled {z : Zlogpull} {s : State} (hinv : Inv s) (hs : 0 < ownerRank s.owner)
    (hwrite : Writable z s) (hwait : ∀ c, s.owner = .stopWait c → (s.runs s.fut).ended = true) :
    ∃ a t, ofService a = true ∧ faultless a = true ∧ (service z).step s a = some t := by
  have go (ev : OwnerEv) {owner : Owner} (hpermits : s.permits z ev = true)
      (hnext : s.owner.next ev = some owner) :
      ∃ a t, ofService a = true ∧ faultless a = true ∧ (service z).step s a = some t :=
    ⟨.owner ev, _, rfl, rfl, step_owner_next hpermits hnext⟩
  have hidle := idle_of_closing hinv
  unfold Writable at hwrite
  generalize howner : s.owner = owner at go hs hwrite hwait hidle
  cases owner with
  | stopWrite c => exact go .pollCancel (hwrite c rfl) rfl
  | stopWait c => exact go .wait (hwait c rfl) rfl
  | unbind c k todo =>
    exact go (.unbind k (s.bound k)) (by simp [State.permits]) (if_pos rfl)
  | stopEnd c threw => exact go .ret rfl rfl
  | destroying p todo =>
    refine go (.close p) ?_ (if_pos rfl)
    cases p with
    | future => exact hinv.ended_of_inactive hinv.fut_lt (hidle rfl _)
    | _ => rfl
  | _ => cases hs

theorem pos_of_full {z : Zlogpull} {n : Nat} (h : z.room n = false) : 0 < n := by
  by_contra hzero
  have hroom : z.room n = true := by
    rw [room_iff]
    intro c hc
    have := z.capacity_pos c hc
    omega
  rw [h] at hroom
  cases hroom

theorem active_of_reads {pc : Pc} (h : Reads pc) : pc.active = true := by
  cases pc with
  | unlaunched | returned | escaped => simp [Reads, pending] at h
  | _ => rfl

theorem stop_enabled {z : Zlogpull} {s : State} (hreach : (service z).Reachable s)
    (hs : 0 < ownerRank s.owner) (hfree : ∀ c, ¬ Jammed z c s) :
    ∃ a t, ofService a = true ∧ faultless a = true ∧ (service z).step s a = some t := by
  have hinv := inv_of_reachable hreach
  by_cases hwrite : Writable z s
  · by_cases hwaiting : ∃ c, s.owner = .stopWait c ∧ (s.runs s.fut).active = true
    · rcases hwaiting with ⟨c, howner, hactive⟩
      apply run_progress (prepared_of_reachable hreach) hactive
      rintro ⟨hpolling, hnothing⟩
      have hbyte := signal_of_reachable hreach c howner s.fut (by rw [hpolling]; rfl)
      have := hnothing .pipe (mem_registered _)
      simp [State.ready] at this
      omega
    · refine owner_enabled hinv hs hwrite fun c howner => hinv.ended_of_inactive hinv.fut_lt ?_
      by_contra hactive
      exact hwaiting ⟨c, howner, by simpa using hactive⟩
  · -- The pipe is full and the execution has still to read it.
    simp only [Writable, not_forall] at hwrite
    obtain ⟨c, howner, hfull⟩ := hwrite
    have hfull : z.room s.pipe = false := by simpa using hfull
    have hreads : Reads (s.runs s.fut) := by
      by_contra hunread
      exact hfree c ⟨howner, hfull, hunread⟩
    apply run_progress (prepared_of_reachable hreach) (active_of_reads hreads)
    rintro ⟨-, hnothing⟩
    have hpos := pos_of_full hfull
    have := hnothing .pipe (mem_registered _)
    simp [State.ready] at this
    omega

/-- The rule for whatever a `stop()` comes to, from the write of its byte on. -/
theorem stop_variant {z : Zlogpull} {I goal : State → Prop}
    (hI : ∀ s, I s → (service z).Reachable s ∧ 0 < ownerRank s.owner)
    (hstep : ∀ s a t, I s → (service z).step s a = some t → goal t ∨ I t)
    (hfree : ∀ s, I s → ¬ goal s → ∀ c, ¬ Jammed z c s) {s : State} (hs : I s) :
    (service z).Inevitable ofService faultless goal (stopRank s + 1) s := by
  refine inevitable_of_variant (I := I) stopRank ?_ ?_ ?_ ?_ hs
  · intro s a t hs _ hnext
    exact hstep s a t hs hnext
  · intro s a t hs _ hown hnext
    obtain ⟨hreach, hrank⟩ := hI s hs
    have := (stopRank_step (inv_of_reachable hreach) hrank hnext).2
    rw [hown, Bool.toNat_true] at this
    omega
  · intro s a t hs _ hnext
    obtain ⟨hreach, hrank⟩ := hI s hs
    have := (stopRank_step (inv_of_reachable hreach) hrank hnext).2
    omega
  · intro s hs hgoal
    obtain ⟨hreach, hrank⟩ := hI s hs
    exact stop_enabled hreach hrank (hfree s hs hgoal)

theorem stop_ends {z : Zlogpull} {s : State} (hreach : (service z).Reachable s)
    (hs : 0 < ownerRank s.owner) :
    (service z).Inevitable ofService faultless (fun t => Over t.owner ∨ ∃ c, Jammed z c t)
      (stopRank s + 1) s := by
  refine stop_variant (I := fun t => (service z).Reachable t ∧ 0 < ownerRank t.owner)
    (fun _ => id) ?_ (fun s _ hgoal c hjammed => hgoal (.inr ⟨c, hjammed⟩)) ⟨hreach, hs⟩
  rintro s a t ⟨hreach, hs⟩ hstep
  rcases (stopRank_step (inv_of_reachable hreach) hs hstep).1 with hrank | hover
  · exact .inr ⟨hreach.step hstep, hrank⟩
  · exact .inl (.inl hover)

theorem writable_step {z : Zlogpull} {s t : State} {a : Act} (hs : 0 < ownerRank s.owner)
    (hwrite : Writable z s) (h : (service z).step s a = some t) : Writable z t := by
  intro c howner
  cases a with
  | run i ev =>
    obtain ⟨-, pc, -, rfl⟩ := step_run.mp h
    have hroom := room_iff.mp (hwrite c (by simpa using howner))
    rw [room_iff]
    intro n hn
    refine lt_of_le_of_lt ?_ (hroom n hn)
    by_cases hev : ev = .pollReset
    · subst hev
      exact Nat.sub_le _ _
    · rw [goto_pipe, effect_pipe s hev]
  | owner ev =>
    obtain ⟨-, owner, hcalls, rfl⟩ := step_owner h
    exact absurd howner ((ownerRank_calls hcalls hs).2.2.2.2 c)
  | arrive k m =>
    cases step_arrive h
    exact hwrite c howner

theorem not_jammed {z : Zlogpull} {s : State} (hwrite : Writable z s) (c : Caller) :
    ¬ Jammed z c s := by
  intro hjammed
  have hroom := hwrite c hjammed.owner
  rw [hjammed.full] at hroom
  cases hroom

theorem stop_ends_of_writable {z : Zlogpull} {s : State} (hreach : (service z).Reachable s)
    (hs : 0 < ownerRank s.owner) (hwrite : Writable z s) :
    (service z).Inevitable ofService faultless (fun t => Over t.owner) (stopRank s + 1) s := by
  refine stop_variant (I := fun t => ((service z).Reachable t ∧ 0 < ownerRank t.owner) ∧
    Writable z t) (fun _ => And.left) ?_ (fun s hs _ => not_jammed hs.2) ⟨⟨hreach, hs⟩, hwrite⟩
  rintro s a t ⟨⟨hreach, hs⟩, hwrite⟩ hstep
  rcases (stopRank_step (inv_of_reachable hreach) hs hstep).1 with hrank | hover
  · exact .inr ⟨⟨hreach.step hstep, hrank⟩, writable_step hs hwrite hstep⟩
  · exact .inl hover

def byUser : Owner → Bool
  | .idle | .startTest | .startSet | .startLaunch | .startAssign => true
  | .stopTest c | .stopClear c | .stopWrite c | .stopWait c => c == .user
  | .unbind c _ _ | .stopEnd c _ => c == .user
  | .destroying _ _ | .destroyed | .terminated => false

theorem byUser_calls {o o' : Owner} {ev : OwnerEv} (h : Calls o ev o') :
    byUser o' = (byUser o && decide (ev ≠ .destroy)) := by
  cases h with
  | wait c => cases c <;> rfl
  | unbind c k todo => cases todo <;> cases c <;> rfl
  | close p todo => cases todo <;> rfl
  | stopping c | stopped c | clear c | pollCancel c | unbindThrow c | ret c | throw c =>
    cases c <;> rfl
  | _ => rfl

theorem byUser_of_run {z : Zlogpull} {acts : List Act} {s : State}
    (h : (service z).run (service z).init acts = some s) :
    byUser s.owner = decide (.owner .destroy ∉ acts) := by
  refine run_induction (M := service z)
    (I := fun acts s => byUser s.owner = decide (.owner .destroy ∉ acts)) rfl ?_ acts s h
  intro acts s a t _ hs hstep
  cases a with
  | run i ev =>
    obtain ⟨-, pc, -, rfl⟩ := step_run.mp hstep
    simpa using hs
  | owner ev =>
    obtain ⟨-, owner, hcalls, rfl⟩ := step_owner hstep
    rw [proceed_owner, byUser_calls hcalls, hs]
    simp [List.mem_append, not_or, eq_comm]
  | arrive k m =>
    cases step_arrive hstep
    simpa using hs

theorem destroyed_of_over {z : Zlogpull} {acts : List Act} {s : State}
    (h : (service z).run (service z).init acts = some s) (hdestroy : .owner .destroy ∈ acts)
    (hover : Over s.owner) (halive : s.owner ≠ .terminated) :
    s.owner = .destroyed ∧ s.closed .pipeRead = true ∧ s.closed .pipeWrite = true := by
  rcases hover with hidle | hdestroyed | hgone
  · have hkept := byUser_of_run h
    rw [hidle] at hkept
    exact absurd hdestroy (of_decide_eq_true hkept.symm)
  · have hclosed := closed_of_destroyed ⟨acts, h⟩ hdestroyed
    exact ⟨hdestroyed, hclosed _, hclosed _⟩
  · exact absurd hgone halive

/-- A `stop()` ends without an exception, and leaves no execution and no bind
behind, if and only if every bind of the execution that it stops was done. So
where every bind of the last execution was done the program outlives the
destructor, and that goes on to close the pipe. From the write of its byte on a
`stop()` comes to its end on every schedule if the byte has room; it ends on no
schedule where the pipe is full and nothing reads it any more. -/
theorem stop_normal_iff (z : Zlogpull) (acts : List Act) (s : State)
    (h : (service z).run (service z).init acts = some s) :
    (∀ c threw, s.owner = .stopEnd c threw →
        (threw = false ∧ Stopped s ↔ ∀ k, .run s.fut (.bind k false) ∉ acts)) ∧
      ((∀ k, .run s.fut (.bind k false) ∉ acts) →
        s.owner ≠ .terminated ∧
          (.owner .destroy ∈ acts → Over s.owner →
            s.owner = .destroyed ∧ s.closed .pipeRead = true ∧ s.closed .pipeWrite = true)) ∧
      (0 < ownerRank s.owner →
        (service z).Inevitable ofService faultless (fun t => Over t.owner ∨ ∃ c, Jammed z c t)
            (stopRank s + 1) s ∧
          (Writable z s → (service z).Inevitable ofService faultless (fun t => Over t.owner)
            (stopRank s + 1) s)) ∧
      ∀ c, Jammed z c s →
        ∀ later t, (service z).run s later = some t → t.owner = .stopWrite c := by
  have hreach : (service z).Reachable s := ⟨acts, h⟩
  have htold := (history_of_run h).unbinds
  refine ⟨fun c threw howner => ?_, fun hnone => ?_, fun hrank => ?_, fun c hjammed => ?_⟩
  · rw [howner] at htold
    have hstopped := (inv_of_reachable hreach).stopped_of_stopEnd howner
    rw [and_iff_left hstopped, ← not_exists]
    exact htold
  · have halive : s.owner ≠ .terminated := by
      intro howner
      rw [howner] at htold
      exact not_exists.mpr hnone htold
    exact ⟨halive, fun hdestroy hover => destroyed_of_over h hdestroy hover halive⟩
  · exact ⟨stop_ends hreach hrank, stop_ends_of_writable hreach hrank⟩
  · intro later t hlater
    exact (jammed_run hreach hjammed hlater).owner

def destroyed : List Act :=
  destruction ++ [.owner (.close (.sock .ctl)), .owner (.close (.sock .inp)),
    .owner (.close (.sock .ipc)), .owner (.close (.sock .tcp))]

theorem stop_normal_quickStop :
    ∃ s t, (service sample).run (service sample).init (quickStop 0) = some s ∧
      s.owner = .stopEnd .user false ∧ Stopped s ∧
      (service sample).Inevitable ofService faultless (fun t => Over t.owner)
        (stopRank s + 1) s ∧
      (service sample).run (service sample).init destroyed = some t ∧ t.owner = .destroyed ∧
      t.closed .pipeRead = true ∧ t.closed .pipeWrite = true := by
  have hquick := stop_normal_iff sample (quickStop 0) _ rfl
  have hdestroyed := stop_normal_iff sample destroyed _ rfl
  have hbinds : ∀ k, .run 0 (.bind k false) ∉ quickStop 0 := by
    intro k hmem
    simp [quickStop] at hmem
  have hbinds' : ∀ k, .run 0 (.bind k false) ∉ destroyed := by
    intro k hmem
    simp [destroyed, destruction] at hmem
  exact ⟨_, _, rfl, rfl, ((hquick.1 .user false rfl).mpr hbinds).2,
    (hquick.2.2.1 (by decide)).2 fun c howner => (nomatch howner), rfl,
    (hdestroyed.2.1 hbinds').2 (by decide) (.inr (.inl rfl))⟩

/-- The tcp port is taken, so no bind is done, and the service is destroyed
while it polls. -/
def tcpTaken : List Act :=
  [.run 0 (.bind .tcp false), .run 0 .setup, .run 0 (.test true), .run 0 .pollBegin,
    .owner .destroy, .owner (.test true), .owner .clear, .owner .pollCancel,
    .run 0 (.pollReturn [.pipe]), .run 0 .pollReset, .run 0 .pollEnd, .run 0 (.test false),
    .run 0 .ret, .owner .wait, .owner (.unbind .tcp false), .owner .ret]

theorem tcpTaken_terminates :
    ∃ s, (service sample).run (service sample).init tcpTaken = some s ∧
      s.owner = .terminated :=
  ⟨_, rfl, rfl⟩

end Zmqlog.Stopping
