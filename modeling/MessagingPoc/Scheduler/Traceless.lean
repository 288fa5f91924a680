import MessagingPoc.Scheduler.Net

/-!
# What a failed `ScheduleAsync` leaves

The entry of a call goes into the table before `Task.Delay` is asked for the delay, which it
refuses beyond its maximum: the call throws, and nothing takes the entry out again. What else can
part a schedule from its entry is a row that is not its own: an id that is drawn again while it is
in use, and the `Clear` of a disposal that finds entries its enumeration has not seen.

`effect` says what a step does to the table and to the standing of the calls; `traceless_step` and
`traceless_iff` follow from it.
-/

namespace MessagingPoc.NetScheduler

open Machine

/-! ## How a call stands -/

inductive Standing
  /-- Its entry is not stored yet. -/
  | new
  | live
  | threw
deriving DecidableEq, Repr

def Phase.standing : Phase → Standing
  | .numbered => .new
  | .threw => .threw
  | .stored | .waiting | .completed | .canceled | .continued => .live

namespace State

/-- The entry of a call, and how the call stands. -/
def standing (s : State) (n : Nat) : Option (Pending × Standing) :=
  (s.calls n).map fun c => (c.entry, c.phase.standing)

/-- `CancelAsync` or `DisposeAsync` has cancelled the token of `n`, or is about to. -/
def Cancelling (s : State) (n : Nat) : Prop :=
  s.cancelRequested n = true ∨ ∃ t ∈ s.threads, Instr.cancel n ∈ t

/-- `ScheduleAsync` without a step of anyone else between its own. -/
def scheduleAsync (s : State) (destination payload : String) (deliverAt now : Int) : State :=
  play State.step s
    [.schedule destination payload deliverAt now, .store s.nextCts, .delay s.nextCts]

end State

/-- A call that threw has left no entry, and an entry that was stored stays until it is cancelled
or dispatched. -/
structure Traceless (s : State) : Prop where
  thrown : ∀ n p, s.standing n = some (p, .threw) → s.pending.lookup p.id ≠ some p
  kept : ∀ n p, s.standing n = some (p, .live) →
    s.pending.lookup p.id = some p ∨ s.Cancelling n ∨ .closed p .dispatched ∈ s.history

/-- No delay is one that .NET refuses, and no step overwrites or removes the entry of another call
that is not being cancelled: not under an id that is drawn again, nor by the `Clear` of a disposal
that has not enumerated it. -/
def Untouched (s : State) : Label → Prop
  | .store n => ∀ c ∈ s.calls n, ∀ p ∈ s.pending.lookup c.entry.id, s.Cancelling p.cts
  | .delay n => ∀ c ∈ s.calls n,
      c.ms ≤ State.maxSupportedTimeout ∨ s.pending.lookup c.entry.id ≠ some c.entry
  | .continuation n => ∀ c ∈ s.calls n, c.phase = .completed →
      ∀ p ∈ s.pending.lookup c.entry.id, p ≠ c.entry → s.Cancelling p.cts
  | .run i => s.threads[i]?.bind List.head? = some .clear → ∀ p ∈ s.values, s.Cancelling p.cts
  | _ => True

/-! ## What a step does -/

/-- What a step does to the table and to the standing of the calls. -/
inductive Effect (s : State) : Label → State → Prop
  | quiet {l : Label} {s' : State} (hok : Untouched s l) (hstanding : s'.standing = s.standing)
      (hnext : s'.nextCts = s.nextCts) (hpending : s'.pending = s.pending)
      (hdispatched : ∀ p, .closed p .dispatched ∈ s'.history ↔ .closed p .dispatched ∈ s.history) :
      Effect s l s'
  | drawn {l : Label} {s' : State} {p : Pending} (hok : Untouched s l) (hp : p.cts = s.nextCts)
      (hstanding : s'.standing = Function.update s.standing s.nextCts (some (p, .new)))
      (hnext : s'.nextCts = s.nextCts + 1) (hpending : s'.pending = s.pending)
      (hhistory : s'.history = s.history) : Effect s l s'
  | stored {n : Nat} {s' : State} {p : Pending} (hp : s.standing n = some (p, .new))
      (hok : Untouched s (.store n) ↔ ∀ q ∈ s.pending.lookup p.id, s.Cancelling q.cts)
      (hstanding : s'.standing = Function.update s.standing n (some (p, .live)))
      (hnext : s'.nextCts = s.nextCts) (hpending : s'.pending = s.pending.insert p.id p)
      (hdispatched : ∀ q, .closed q .dispatched ∈ s'.history ↔ .closed q .dispatched ∈ s.history)
      (hcancel : ∀ m, s'.Cancelling m → s.Cancelling m) : Effect s (.store n) s'
  | refused {n : Nat} {s' : State} {p : Pending} (hp : s.standing n = some (p, .live))
      (hok : Untouched s (.delay n) ↔ s.pending.lookup p.id ≠ some p)
      (hstanding : s'.standing = Function.update s.standing n (some (p, .threw)))
      (hnext : s'.nextCts = s.nextCts) (hpending : s'.pending = s.pending)
      (hhistory : s'.history = s.history) : Effect s (.delay n) s'
  | fired {n : Nat} {s' : State} {p : Pending} (hp : s.standing n = some (p, .live))
      (hok : Untouched s (.continuation n) ↔
        ∀ q ∈ s.pending.lookup p.id, q ≠ p → s.Cancelling q.cts)
      (hstanding : s'.standing = s.standing) (hnext : s'.nextCts = s.nextCts)
      (hpending : s'.pending = s.pending.erase p.id)
      (hhistory : s'.history = .closed p .dispatched :: s.history)
      (hcancel : ∀ m, s'.Cancelling m → s.Cancelling m) : Effect s (.continuation n) s'
  | removed {id : String} {s' : State} {p : Pending} (hp : s.pending.lookup id = some p)
      (hstanding : s'.standing = s.standing) (hnext : s'.nextCts = s.nextCts)
      (hpending : s'.pending = s.pending.erase id) (hcancel : s'.Cancelling p.cts)
      (hhistory : s'.history = .closed p .cancelled :: s.history) : Effect s (.cancelAsync id) s'
  | cleared {i : Nat} {s' : State} (hok : Untouched s (.run i) ↔ ∀ p ∈ s.values, s.Cancelling p.cts)
      (hstanding : s'.standing = s.standing) (hnext : s'.nextCts = s.nextCts)
      (hpending : s'.pending = ∅)
      (hdispatched : ∀ p, .closed p .dispatched ∈ s'.history ↔ .closed p .dispatched ∈ s.history)
      (hcancel : ∀ m, s'.Cancelling m → s.Cancelling m) : Effect s (.run i) s'

variable {s s' : State}

theorem standing_move {n : Nat} {c : Call} {phase : Phase} :
    (s.move n c phase).standing =
      Function.update s.standing n (some (c.entry, phase.standing)) := by
  funext x
  simp only [State.standing, State.move, Function.update_apply]
  split_ifs <;> rfl

theorem standing_move_same {n : Nat} {c : Call} {phase : Phase} (hc : s.calls n = some c)
    (hphase : phase.standing = c.phase.standing) : (s.move n c phase).standing = s.standing := by
  rw [standing_move, hphase]
  apply Function.update_eq_self_iff.mpr
  rw [State.standing, hc]
  rfl

/-! ## Cancellations -/

theorem exec_cancelRequested (s : State) (instr : Instr) (n : Nat) :
    (s.exec instr).cancelRequested n = true ↔
      instr = .cancel n ∨ s.cancelRequested n = true := by
  cases instr with
  | cancel m =>
    have hkeep : (s.cancelToken m).cancelRequested = Function.update s.cancelRequested m true := by
      unfold State.cancelToken
      dsimp only
      split
      · split_ifs <;> rfl
      · rfl
    show (s.cancelToken m).cancelRequested n = true ↔ _
    rw [hkeep, Function.update_apply]
    split_ifs with hn
    · simp [hn]
    · simp [Ne.symm hn]
  | dispatch destination body =>
    show (s.dispatch destination body).cancelRequested n = true ↔ _
    unfold State.dispatch
    dsimp only
    split <;> simp
  | _ => simp [State.exec, State.record]

theorem State.Cancelling.mono {n : Nat} (h : s.Cancelling n)
    (hrequested : s.cancelRequested n = true → s'.cancelRequested n = true)
    (hthreads : ∀ t ∈ s.threads, t ∈ s'.threads) : s'.Cancelling n := by
  refine h.imp hrequested fun hthread => ?_
  obtain ⟨t, ht, hmem⟩ := hthread
  exact ⟨t, hthreads t ht, hmem⟩

theorem cancelling_run {i : Nat} {instr : Instr} {rest : List Instr}
    (hthread : s.threads[i]? = some (instr :: rest)) {n : Nat} (h : s.Cancelling n) :
    State.Cancelling { s.exec instr with threads := s.threads.set i rest } n := by
  obtain ⟨hi, hget⟩ := List.getElem?_eq_some_iff.mp hthread
  rcases h with hrequested | ⟨t, ht, hmem⟩
  · exact .inl ((exec_cancelRequested s instr n).mpr (.inr hrequested))
  obtain ⟨j, hj, rfl⟩ := List.mem_iff_getElem.mp ht
  by_cases hij : i = j
  · subst hij
    rw [hget] at hmem
    rcases List.mem_cons.mp hmem with heq | hmem
    · exact .inl ((exec_cancelRequested s instr n).mpr (.inl heq.symm))
    · exact .inr ⟨rest, List.mem_set hi rest, hmem⟩
  · refine .inr ⟨s.threads[j], ?_, hmem⟩
    refine List.mem_iff_getElem.mpr ⟨j, by simpa using hj, ?_⟩
    exact List.getElem_set_ne hij _

theorem cancelling_step {l : Label} (h : s.step l = some s') {n : Nat} (hn : s.Cancelling n) :
    s'.Cancelling n := by
  have hspawn : ∀ {t : List Instr}, ∀ u ∈ s.threads, u ∈ s.threads ++ [t] :=
    fun u hu => List.mem_append_left _ hu
  cases l with
  | run i =>
    simp only [State.step] at h
    split at h
    next instr rest hthread =>
      cases h
      exact cancelling_run hthread hn
    · cases h
  | schedule destination payload deliverAt now =>
    cases h
    exact hn
  | store m | delay m | elapse m =>
    simp only [State.step] at h
    split at h
    · split_ifs at h
      cases h
      exact hn
    · cases h
  | continuation m =>
    simp only [State.step] at h
    split at h
    · split_ifs at h
      · cases h
        exact hn.mono id hspawn
      · cases h
        exact hn
    · cases h
  | cancelAsync id =>
    cases h
    show (s.cancelAsync id).Cancelling n
    unfold State.cancelAsync
    split
    · exact hn
    · exact hn.mono (fun hrequested => hrequested) hspawn
  | disposeAsync | sendNow =>
    cases h
    exact hn.mono id hspawn
  | consume destination handler =>
    cases h
    show (s.consume destination handler).Cancelling n
    unfold State.consume
    split
    · exact hn
    · exact hn
  | unsubscribe k =>
    obtain ⟨t, -, rfl⟩ := Option.map_eq_some_iff.mp h
    exact hn

/-! ## The effect of every step -/

theorem cancelToken_quiet (s : State) (n : Nat) :
    (s.cancelToken n).standing = s.standing ∧ (s.cancelToken n).nextCts = s.nextCts ∧
      (s.cancelToken n).pending = s.pending ∧ (s.cancelToken n).history = s.history := by
  unfold State.cancelToken
  dsimp only
  split
  next c hc =>
    split_ifs with hphase
    · refine ⟨?_, rfl, rfl, rfl⟩
      exact standing_move_same (s := { s with cancelRequested := _ }) hc (by rw [hphase]; rfl)
    · exact ⟨rfl, rfl, rfl, rfl⟩
  · exact ⟨rfl, rfl, rfl, rfl⟩

theorem dispatch_quiet (s : State) (destination body : String) :
    (s.dispatch destination body).standing = s.standing ∧
      (s.dispatch destination body).nextCts = s.nextCts ∧
      (s.dispatch destination body).pending = s.pending ∧
      (s.dispatch destination body).history = s.history := by
  unfold State.dispatch
  dsimp only
  split <;> exact ⟨rfl, rfl, rfl, rfl⟩

theorem effect_run {i : Nat} {instr : Instr} {rest : List Instr}
    (hthread : s.threads[i]? = some (instr :: rest)) :
    Effect s (.run i) { s.exec instr with threads := s.threads.set i rest } := by
  have hhead : s.threads[i]?.bind List.head? = some instr := by simp [hthread]
  have hidle : instr ≠ .clear → Untouched s (.run i) := by
    intro hne hclear
    exact absurd (Option.some.inj (hhead.symm.trans hclear)) hne
  cases instr with
  | cancel n =>
    obtain ⟨hstanding, hnext, hpending, hhistory⟩ := cancelToken_quiet s n
    exact .quiet (hidle (by simp)) hstanding hnext hpending fun p =>
      iff_of_eq (congrArg (_ ∈ ·) hhistory)
  | clear =>
    refine .cleared ?_ rfl rfl rfl (fun p => ?_) fun m hm => ?_
    · show (s.threads[i]?.bind List.head? = some .clear → _) ↔ _
      exact ⟨fun h => h hhead, fun h _ => h⟩
    · show _ ∈ (s.values.map fun q => Ledger.Entry.closed q Fate.cancelled).reverse ++ s.history ↔ _
      simp
    · refine hm.imp id fun hthread' => ?_
      obtain ⟨t, ht, hmem⟩ := hthread'
      rcases List.mem_or_eq_of_mem_set ht with ht | rfl
      · exact ⟨t, ht, hmem⟩
      · exact ⟨_, List.mem_of_getElem? hthread, List.mem_cons_of_mem _ hmem⟩
  | clearHandlers => exact .quiet (hidle (by simp)) rfl rfl rfl fun p => Iff.rfl
  | dispatch destination body =>
    obtain ⟨hstanding, hnext, hpending, hhistory⟩ := dispatch_quiet s destination body
    exact .quiet (hidle (by simp)) hstanding hnext hpending fun p =>
      iff_of_eq (congrArg (_ ∈ ·) hhistory)

theorem effect_delay {n : Nat} {c : Call} (hc : s.calls n = some c) (hphase : c.phase = .stored) :
    Effect s (.delay n) (s.move n c (s.delayed n c)) := by
  have hstands : s.standing n = some (c.entry, .live) := by
    rw [State.standing, hc, Option.map_some, hphase]
    rfl
  by_cases hms : State.maxSupportedTimeout < c.ms
  · have hthrew : s.delayed n c = .threw := if_pos hms
    rw [hthrew]
    refine .refused hstands ?_ standing_move rfl rfl rfl
    simp [Untouched, hc, hms.not_ge]
  · have hok : Untouched s (.delay n) := by
      intro d hd
      obtain rfl : c = d := Option.some.inj (hc.symm.trans hd)
      exact .inl (not_lt.mp hms)
    have hlive : (s.delayed n c).standing = .live := by
      unfold State.delayed
      rw [if_neg hms]
      split_ifs <;> rfl
    exact .quiet hok (standing_move_same hc (by rw [hlive, hphase]; rfl)) rfl rfl fun p => Iff.rfl

theorem effect_continuation {n : Nat} (h : s.step (.continuation n) = some s') :
    Effect s (.continuation n) s' := by
  simp only [State.step] at h
  split at h
  next c hc =>
    split_ifs at h with hphase hphase'
    · cases h
      have hstands : s.standing n = some (c.entry, .live) := by
        rw [State.standing, hc, Option.map_some, hphase]
        rfl
      refine .fired hstands ?_ (standing_move_same hc (by rw [hphase]; rfl)) rfl rfl rfl
        fun m hm => ?_
      · simp [Untouched, hc, hphase]
      · refine hm.imp id fun hthread => ?_
        obtain ⟨t, ht, hmem⟩ := hthread
        rcases List.mem_append.mp ht with ht | ht
        · exact ⟨t, ht, hmem⟩
        · simp [List.mem_singleton.mp ht] at hmem
    · cases h
      have hok : Untouched s (.continuation n) := by
        intro d hd hcompleted
        obtain rfl : c = d := Option.some.inj (hc.symm.trans hd)
        rw [hphase'] at hcompleted
        cases hcompleted
      exact .quiet hok (standing_move_same hc (by rw [hphase']; rfl)) rfl rfl fun p => Iff.rfl
  · cases h

/-- **What every step does to the table and to the standing of the calls.** -/
theorem effect {l : Label} (h : s.step l = some s') : Effect s l s' := by
  cases l with
  | schedule destination payload deliverAt now =>
    cases h
    refine .drawn (p := ⟨s!"mem-{s.seq + 1}", destination, payload, deliverAt, s.nextCts⟩) trivial
      rfl ?_ rfl rfl rfl
    funext x
    simp only [State.standing, State.schedule, Function.update_apply]
    split_ifs <;> rfl
  | store n =>
    simp only [State.step] at h
    split at h
    next c hc =>
      split_ifs at h with hphase
      cases h
      have hstands : s.standing n = some (c.entry, .new) := by
        rw [State.standing, hc, Option.map_some, hphase]
        rfl
      refine .stored hstands ?_ standing_move rfl rfl (fun q => ?_) fun m => id
      · simp [Untouched, hc]
      · show _ ∈ Ledger.Entry.opened c.entry :: s.history ↔ _
        simp
    · cases h
  | delay n =>
    simp only [State.step] at h
    split at h
    next c hc =>
      split_ifs at h with hphase
      cases h
      exact effect_delay hc hphase
    · cases h
  | elapse n =>
    simp only [State.step] at h
    split at h
    next c hc =>
      split_ifs at h with hphase
      cases h
      exact .quiet trivial (standing_move_same hc (by rw [hphase]; rfl)) rfl rfl fun p => Iff.rfl
    · cases h
  | continuation n => exact effect_continuation h
  | cancelAsync id =>
    cases h
    show Effect s _ (s.cancelAsync id)
    unfold State.cancelAsync
    split
    · exact .quiet trivial rfl rfl rfl fun p => Iff.rfl
    next p hp =>
      exact .removed hp rfl rfl rfl
        (.inr ⟨_, List.mem_append_right _ List.mem_cons_self, List.mem_cons_self⟩) rfl
  | disposeAsync | sendNow =>
    cases h
    exact .quiet trivial rfl rfl rfl fun p => Iff.rfl
  | consume destination handler =>
    cases h
    show Effect s _ (s.consume destination handler)
    unfold State.consume
    split <;> exact .quiet trivial rfl rfl rfl fun p => Iff.rfl
  | unsubscribe k =>
    obtain ⟨t, -, rfl⟩ := Option.map_eq_some_iff.mp h
    exact .quiet trivial rfl rfl rfl fun p => Iff.rfl
  | run i =>
    simp only [State.step] at h
    split at h
    next instr rest hthread =>
      cases h
      exact effect_run hthread
    · cases h

/-! ## Rows and their calls -/

/-- The call of the entry has stored it. -/
def State.Has (s : State) (p : Pending) : Prop :=
  ∃ st, st ≠ .new ∧ s.standing p.cts = some (p, st)

/-- A row of the table is the entry of a call that has stored it, and was not dispatched. -/
structure Owned (s : State) : Prop where
  own : ∀ n p st, s.standing n = some (p, st) → p.cts = n
  fresh : ∀ n, s.nextCts ≤ n → s.standing n = none
  rows : ∀ id p, s.pending.lookup id = some p → p.id = id ∧ s.Has p
  fired : ∀ p, .closed p .dispatched ∈ s.history → s.pending.lookup p.id ≠ some p ∧ s.Has p

namespace Owned

theorem init : Owned {} where
  own := by simp [State.standing]
  fresh := by simp [State.standing]
  rows := by simp
  fired := by simp

theorem own_update (h : Owned s) {n : Nat} {p : Pending} {st : Standing} (hp : p.cts = n) :
    ∀ m q st', Function.update s.standing n (some (p, st)) m = some (q, st') → q.cts = m := by
  intro m q st' hm
  rw [Function.update_apply] at hm
  split_ifs at hm with hmn
  · cases hm
    rw [hp, hmn]
  · exact h.own m q st' hm

theorem fresh_update (h : Owned s) {n : Nat} {x y : Pending × Standing}
    (hn : s.standing n = some x) {m : Nat} (hm : s.nextCts ≤ m) :
    Function.update s.standing n (some y) m = none := by
  have hne : m ≠ n := by
    intro heq
    rw [← heq, h.fresh m hm] at hn
    cases hn
  rw [Function.update_of_ne hne]
  exact h.fresh m hm

theorem restand (h : Owned s) (hpending : s'.pending = s.pending)
    (hhistory : s'.history = s.history) (hhas : ∀ q, s.Has q → s'.Has q)
    (hown : ∀ n p st, s'.standing n = some (p, st) → p.cts = n)
    (hfresh : ∀ n, s'.nextCts ≤ n → s'.standing n = none) : Owned s' := by
  refine ⟨hown, hfresh, fun id q hq => ?_, fun q hq => ?_⟩
  · rw [hpending] at hq
    exact (h.rows id q hq).imp_right (hhas q)
  · rw [hhistory] at hq
    rw [hpending]
    exact (h.fired q hq).imp_right (hhas q)

theorem has_update {n : Nat} {p : Pending} {st : Standing}
    (hstanding : s'.standing = Function.update s.standing n (some (p, st)))
    (hn : ∀ q st', s.standing n = some (q, st') → st' ≠ .new → q = p ∧ st ≠ .new) {q : Pending}
    (hq : s.Has q) : s'.Has q := by
  obtain ⟨st', hst', hstands⟩ := hq
  by_cases hcts : q.cts = n
  · rw [hcts] at hstands
    obtain ⟨rfl, hst⟩ := hn q st' hstands hst'
    exact ⟨st, hst, by rw [hstanding, hcts, Function.update_self]⟩
  · exact ⟨st', hst', by rw [hstanding, Function.update_of_ne hcts, hstands]⟩

theorem shrink (h : Owned s) (hstanding : s'.standing = s.standing) (hnext : s'.nextCts = s.nextCts)
    (hpending : ∀ id p, s'.pending.lookup id = some p → s.pending.lookup id = some p)
    (hdispatched : ∀ p, .closed p .dispatched ∈ s'.history →
      .closed p .dispatched ∈ s.history ∨ s'.pending.lookup p.id ≠ some p ∧ s.Has p) :
    Owned s' := by
  have hhas : ∀ p, s'.Has p ↔ s.Has p := fun p => by rw [State.Has, hstanding]; rfl
  refine ⟨?_, ?_, fun id p hp => ?_, fun p hp => ?_⟩
  · rw [hstanding]
    exact h.own
  · rw [hstanding, hnext]
    exact h.fresh
  · rw [hhas]
    exact h.rows id p (hpending id p hp)
  · rw [hhas]
    rcases hdispatched p hp with hold | hnew
    · exact ⟨fun hrow => (h.fired p hold).1 (hpending p.id p hrow), (h.fired p hold).2⟩
    · exact hnew

theorem step (h : Owned s) {l : Label} (hstep : s.step l = some s') : Owned s' := by
  cases effect hstep with
  | quiet _ hstanding hnext hpending hdispatched =>
    exact h.shrink hstanding hnext (by rw [hpending]; exact fun _ _ => id)
      fun p hp => .inl ((hdispatched p).mp hp)
  | @drawn _ _ p _ hp hstanding hnext hpending hhistory =>
    have hhas : ∀ q, s.Has q → s'.Has q := fun q => has_update hstanding fun q' st' hq' => by
      rw [h.fresh _ le_rfl] at hq'
      cases hq'
    refine h.restand hpending hhistory hhas ?_ ?_
    · rw [hstanding]
      exact h.own_update hp
    · rw [hstanding, hnext]
      intro n hn
      rw [Function.update_of_ne (by omega)]
      exact h.fresh n (by omega)
  | @stored n _ p hp _ hstanding hnext hpending hdispatched =>
    have hcts : p.cts = n := h.own n p _ hp
    have hhas : ∀ q, s.Has q → s'.Has q := fun q => has_update hstanding fun q' st' hq' hst => by
      rw [hp] at hq'
      cases hq'
      exact absurd rfl hst
    refine ⟨?_, ?_, fun id q hq => ?_, fun q hq => ?_⟩
    · rw [hstanding]
      exact h.own_update hcts
    · rw [hstanding, hnext]
      exact fun m => h.fresh_update hp
    · rw [hpending, Table.lookup_insert] at hq
      split_ifs at hq with hid
      · cases hq
        exact ⟨hid, .live, by simp, by rw [hstanding, hcts, Function.update_self]⟩
      · exact (h.rows id q hq).imp_right (hhas q)
    · obtain ⟨hrow, hstored⟩ := h.fired q ((hdispatched q).mp hq)
      refine ⟨fun hrow' => ?_, hhas q hstored⟩
      rw [hpending, Table.lookup_insert] at hrow'
      split_ifs at hrow' with hid
      · -- what is stored now was not dispatched before
        cases hrow'
        obtain ⟨st, hst, hstands⟩ := hstored
        rw [hcts, hp] at hstands
        cases hstands
        exact hst rfl
      · exact hrow hrow'
  | @refused n _ p hp _ hstanding hnext hpending hhistory =>
    have hcts : p.cts = n := h.own n p _ hp
    have hhas : ∀ q, s.Has q → s'.Has q := fun q => has_update hstanding fun q' st' hq' _ => by
      rw [hp] at hq'
      cases hq'
      exact ⟨rfl, by simp⟩
    refine h.restand hpending hhistory hhas ?_ ?_
    · rw [hstanding]
      exact h.own_update hcts
    · rw [hstanding, hnext]
      exact fun m => h.fresh_update hp
  | @fired n _ p hp _ hstanding hnext hpending hhistory =>
    refine h.shrink hstanding hnext (fun id q hq => ?_) fun q hq => ?_
    · rw [hpending] at hq
      exact (Table.lookup_erase_eq_some.mp hq).2
    · rw [hhistory] at hq
      rcases List.mem_cons.mp hq with heq | hq
      · cases heq
        refine .inr ⟨by rw [hpending]; simp, .live, by simp, ?_⟩
        rw [h.own n p _ hp, hp]
      · exact .inl hq
  | @removed id _ p hp hstanding hnext hpending _ hhistory =>
    refine h.shrink hstanding hnext (fun id' q hq => ?_) fun q hq => ?_
    · rw [hpending] at hq
      exact (Table.lookup_erase_eq_some.mp hq).2
    · rw [hhistory] at hq
      exact .inl (by simpa using hq)
  | cleared _ hstanding hnext hpending hdispatched =>
    refine h.shrink hstanding hnext (fun id q hq => ?_) fun q hq => .inl ((hdispatched q).mp hq)
    rw [hpending] at hq
    simp at hq

end Owned

theorem owned_of_reach (h : Reach machine s) : Owned s := by
  refine h.invariant ?_ fun s l s' _ ih _ hstep => ih.step hstep
  intro s hs
  obtain rfl : s = {} := hs
  exact Owned.init

/-! ## One step -/

/-- A row whose call did not throw is lost without a trace of its own: a step that removes it for
someone else must find it being cancelled. -/
theorem Traceless.cancelling_of_lost (h : Traceless s) (ho : Owned s) (h' : Traceless s')
    {p : Pending} (hrow : s.pending.lookup p.id = some p)
    (hlive : s.standing p.cts = some (p, .live) → s'.standing p.cts = some (p, .live))
    (hlost : s'.pending.lookup p.id ≠ some p)
    (hdispatched : .closed p .dispatched ∈ s'.history → .closed p .dispatched ∈ s.history)
    (hcancel : s'.Cancelling p.cts → s.Cancelling p.cts) : s.Cancelling p.cts := by
  obtain ⟨-, st, hst, hstands⟩ := ho.rows p.id p hrow
  cases st with
  | new => exact absurd rfl hst
  | threw => exact absurd hrow (h.thrown p.cts p hstands)
  | live =>
    rcases h'.kept p.cts p (hlive hstands) with hrow' | hc | hd
    · exact absurd hrow' hlost
    · exact hcancel hc
    · exact absurd hrow (ho.fired p (hdispatched hd)).1

theorem Traceless.shrink (h : Traceless s) (hstanding : s'.standing = s.standing)
    (hpending : ∀ id p, s'.pending.lookup id = some p → s.pending.lookup id = some p)
    (hlost : ∀ p, s.pending.lookup p.id = some p → s'.pending.lookup p.id = some p ∨
      s'.Cancelling p.cts ∨ .closed p .dispatched ∈ s'.history)
    (hcancel : ∀ n, s.Cancelling n → s'.Cancelling n) (ho : Owned s)
    (hdispatched : ∀ p, .closed p .dispatched ∈ s.history → .closed p .dispatched ∈ s'.history) :
    Traceless s' := by
  refine ⟨fun n p hp hrow => ?_, fun n p hp => ?_⟩
  · rw [hstanding] at hp
    exact h.thrown n p hp (hpending p.id p hrow)
  · rw [hstanding] at hp
    rcases h.kept n p hp with hrow | hc | hd
    · have hcts := ho.own n p _ hp
      exact hcts ▸ hlost p hrow
    · exact .inr (.inl (hcancel n hc))
    · exact .inr (.inr (hdispatched p hd))

/-- The entry that is stored takes the place of one that is being cancelled, or of none. -/
theorem traceless_stored (h : Traceless s) (ho : Owned s) {n : Nat} {p : Pending}
    (hp : s.standing n = some (p, .new))
    (hstanding : s'.standing = Function.update s.standing n (some (p, .live)))
    (hpending : s'.pending = s.pending.insert p.id p)
    (hdispatched : ∀ q, .closed q .dispatched ∈ s'.history ↔ .closed q .dispatched ∈ s.history)
    (hcancel : ∀ m, s'.Cancelling m ↔ s.Cancelling m) :
    Traceless s' ↔ ∀ q ∈ s.pending.lookup p.id, s.Cancelling q.cts := by
  have hcts : p.cts = n := ho.own n p _ hp
  constructor
  · intro h' q hq
    obtain ⟨hid, st, hst, hstands⟩ := ho.rows p.id q hq
    have hne : q.cts ≠ n := by
      intro heq
      rw [heq, hp] at hstands
      cases hstands
      exact hst rfl
    refine h.cancelling_of_lost ho h' (hid ▸ hq) (fun hlive => ?_) ?_ (hdispatched q).mp
      (hcancel q.cts).mp
    · rw [hstanding, Function.update_of_ne hne, hlive]
    · rw [hpending, hid, AList.lookup_insert]
      intro heq
      exact hne (Option.some.inj heq ▸ hcts)
  · intro hsafe
    refine ⟨fun m q hq hrow => ?_, fun m q hq => ?_⟩
    · rw [hstanding, Function.update_apply] at hq
      split_ifs at hq with hm
      · simp at hq
      · rw [hpending, Table.lookup_insert] at hrow
        split_ifs at hrow
        · cases hrow
          exact hm (ho.own m p _ hq ▸ hcts)
        · exact h.thrown m q hq hrow
    · rw [hpending, Table.lookup_insert]
      rw [hstanding, Function.update_apply] at hq
      split_ifs at hq with hm
      · cases hq
        exact .inl (if_pos rfl)
      · rcases h.kept m q hq with hrow | hc | hd
        · by_cases hid : p.id = q.id
          · refine .inr (.inl ((hcancel m).mpr ?_))
            exact ho.own m q _ hq ▸ hsafe q (hid ▸ hrow)
          · exact .inl ((if_neg hid).trans hrow)
        · exact .inr (.inl ((hcancel m).mpr hc))
        · exact .inr (.inr ((hdispatched q).mpr hd))

theorem traceless_refused (h : Traceless s) {n : Nat} {p : Pending}
    (hstanding : s'.standing = Function.update s.standing n (some (p, .threw)))
    (hpending : s'.pending = s.pending) (hhistory : s'.history = s.history)
    (hcancel : ∀ m, s.Cancelling m → s'.Cancelling m) :
    Traceless s' ↔ s.pending.lookup p.id ≠ some p := by
  constructor
  · intro h'
    rw [← hpending]
    exact h'.thrown n p (by rw [hstanding, Function.update_self])
  · intro hgone
    refine ⟨fun m q hq => ?_, fun m q hq => ?_⟩
    · rw [hpending]
      rw [hstanding, Function.update_apply] at hq
      split_ifs at hq with hm
      · cases hq
        exact hgone
      · exact h.thrown m q hq
    · rw [hpending, hhistory]
      rw [hstanding, Function.update_apply] at hq
      split_ifs at hq
      · simp at hq
      · exact (h.kept m q hq).imp_right (Or.imp_left (hcancel m))

/-- A continuation takes out the row under its id, whosever it is. -/
theorem traceless_fired (h : Traceless s) (ho : Owned s) {p : Pending}
    (hstanding : s'.standing = s.standing)
    (hpending : s'.pending = s.pending.erase p.id)
    (hhistory : s'.history = .closed p .dispatched :: s.history)
    (hcancel : ∀ m, s'.Cancelling m ↔ s.Cancelling m) :
    Traceless s' ↔ ∀ q ∈ s.pending.lookup p.id, q ≠ p → s.Cancelling q.cts := by
  constructor
  · intro h' q hq hne
    obtain ⟨hid, -⟩ := ho.rows p.id q hq
    refine h.cancelling_of_lost ho h' (hid ▸ hq) (fun hlive => hstanding ▸ hlive) ?_ (fun hd => ?_)
      (hcancel q.cts).mp
    · rw [hpending, hid, AList.lookup_erase]
      simp
    · rw [hhistory] at hd
      refine (List.mem_cons.mp hd).resolve_left fun heq => hne ?_
      cases heq
      rfl
  · intro hsafe
    refine h.shrink hstanding (fun id q hq => ?_) (fun q hq => ?_) (fun m => (hcancel m).mpr) ho
      fun q hq => hhistory ▸ List.mem_cons_of_mem _ hq
    · rw [hpending] at hq
      exact (Table.lookup_erase_eq_some.mp hq).2
    · by_cases hid : p.id = q.id
      · by_cases hqp : q = p
        · exact .inr (.inr (by rw [hhistory, hqp]; exact List.mem_cons_self))
        · exact .inr (.inl ((hcancel q.cts).mpr (hsafe q (hid ▸ hq) hqp)))
      · exact .inl (by rw [hpending]; exact Table.lookup_erase_eq_some.mpr ⟨hid, hq⟩)

/-- **A step leaves no trace of a failure exactly if it touches no one else's entry and is no
refusal.** -/
theorem traceless_step (h : Traceless s) (ho : Owned s) {l : Label} (hstep : s.step l = some s') :
    Traceless s' ↔ Untouched s l := by
  have hmono : ∀ m, s.Cancelling m → s'.Cancelling m := fun m => cancelling_step hstep
  cases effect hstep with
  | quiet hok hstanding hnext hpending hdispatched =>
    refine iff_of_true (h.shrink hstanding ?_ (fun q hq => ?_) hmono ho
      fun q => (hdispatched q).mpr) hok
    · rw [hpending]
      exact fun _ _ => id
    · exact .inl (hpending ▸ hq)
  | @drawn _ _ p hok hp hstanding hnext hpending hhistory =>
    refine iff_of_true ⟨fun m q hq => ?_, fun m q hq => ?_⟩ hok
    · rw [hstanding, Function.update_apply] at hq
      split_ifs at hq
      · simp at hq
      · rw [hpending]
        exact h.thrown m q hq
    · rw [hstanding, Function.update_apply] at hq
      split_ifs at hq
      · simp at hq
      · rw [hpending, hhistory]
        exact (h.kept m q hq).imp_right (Or.imp_left (hmono m))
  | stored hp hok hstanding hnext hpending hdispatched hcancel =>
    rw [hok]
    exact traceless_stored h ho hp hstanding hpending hdispatched fun m => ⟨hcancel m, hmono m⟩
  | refused hp hok hstanding hnext hpending hhistory =>
    rw [hok]
    exact traceless_refused h hstanding hpending hhistory hmono
  | fired hp hok hstanding hnext hpending hhistory hcancel =>
    rw [hok]
    exact traceless_fired h ho hstanding hpending hhistory fun m => ⟨hcancel m, hmono m⟩
  | @removed id _ p hp hstanding hnext hpending hcancel hhistory =>
    refine iff_of_true (h.shrink hstanding (fun id' q hq => ?_) (fun q hq => ?_) hmono ho
      fun q hq => hhistory ▸ List.mem_cons_of_mem _ hq) trivial
    · rw [hpending] at hq
      exact (Table.lookup_erase_eq_some.mp hq).2
    · by_cases hid : id = q.id
      · rw [← hid, hp] at hq
        exact .inr (.inl (Option.some.inj hq ▸ hcancel))
      · exact .inl (by rw [hpending]; exact Table.lookup_erase_eq_some.mpr ⟨hid, hq⟩)
  | cleared hok hstanding hnext hpending hdispatched hcancel =>
    rw [hok]
    constructor
    · intro h' q hq
      obtain ⟨id, hrow⟩ := mem_values.mp hq
      obtain ⟨rfl, -⟩ := ho.rows id q hrow
      exact h.cancelling_of_lost ho h' hrow (fun hlive => hstanding ▸ hlive) (by simp [hpending])
        (hdispatched q).mp (hcancel q.cts)
    · intro hsafe
      refine h.shrink hstanding (fun id q hq => ?_) (fun q hq => ?_) hmono ho
        fun q => (hdispatched q).mpr
      · simp [hpending] at hq
      · exact .inr (.inl (hmono _ (hsafe q (mem_values.mpr ⟨_, hq⟩))))

/-! ## Calls and runs -/

theorem traceless_init : Traceless {} where
  thrown := by simp [State.standing]
  kept := by simp [State.standing]

/-- A call by itself: it stores its entry, and then .NET refuses the delay or takes it. -/
theorem scheduleAsync_eq (s : State) (destination payload : String) (deliverAt now : Int) :
    let p : Pending := ⟨s!"mem-{s.seq + 1}", destination, payload, deliverAt, s.nextCts⟩
    (s.scheduleAsync destination payload deliverAt now).pending = s.pending.insert p.id p ∧
      (((s.scheduleAsync destination payload deliverAt now).calls s.nextCts).map Call.phase =
        some .threw ↔ State.maxSupportedTimeout < State.delayMs deliverAt now) := by
  simp only [State.scheduleAsync, play, State.step, State.schedule, State.store, State.move,
    State.record, Function.update_self, if_true, Option.getD_some, Option.map_some,
    Option.some_inj, true_and]
  unfold State.delayed
  dsimp only
  split_ifs with hms <;> simp [hms]

/-- The entry a call stores was not in the table. -/
theorem Owned.insert_ne (h : Owned s) {p : Pending} (hp : p.cts = s.nextCts) :
    s.pending.insert p.id p ≠ s.pending := by
  intro heq
  have hrow : s.pending.lookup p.id = some p := by
    rw [← heq, AList.lookup_insert]
  obtain ⟨-, st, -, hstands⟩ := h.rows p.id p hrow
  rw [hp, h.fresh _ le_rfl] at hstands
  cases hstands

/-- **A failed `ScheduleAsync` leaves no trace exactly while nothing is scheduled further ahead than
`Task.Delay` allows.** A call that throws has left the table as it was exactly if its delay is not
too long, so never; and along a run the entries of the calls that did not throw stay, and no others
do, exactly if its steps touch no one else's entry and no delay is refused. -/
theorem traceless_iff (h : Reach machine s) :
    (∀ destination payload deliverAt now,
      (((s.scheduleAsync destination payload deliverAt now).calls s.nextCts).map Call.phase =
          some .threw →
        (s.scheduleAsync destination payload deliverAt now).pending = s.pending) ↔
      State.delayMs deliverAt now ≤ State.maxSupportedTimeout) ∧
    (ReachIf machine (fun s _ => Traceless s) s ∧ Traceless s ↔ ReachIf machine Untouched s) := by
  have ho := owned_of_reach h
  refine ⟨fun destination payload deliverAt now => ?_, fun htraceless => ?_, fun hrun => ?_⟩
  · obtain ⟨hpending, hthrew⟩ := scheduleAsync_eq s destination payload deliverAt now
    have hchanged := ho.insert_ne
      (p := ⟨s!"mem-{s.seq + 1}", destination, payload, deliverAt, s.nextCts⟩) rfl
    rw [hthrew, hpending, iff_false_intro hchanged, imp_false, not_lt]
  · obtain ⟨hrun, hlast⟩ := htraceless
    clear h ho
    induction hrun with
    | init hinit => exact .init hinit
    | step hr hok hstep ih =>
      refine .step (ih hok) ?_ hstep
      exact (traceless_step hok (owned_of_reach hr.reach) hstep).mp hlast
  · induction hrun with
    | init hinit =>
      refine ⟨.init hinit, ?_⟩
      obtain rfl := hinit
      exact traceless_init
    | step hr hok hstep ih =>
      obtain ⟨hrun, htraceless⟩ := ih hr.reach (owned_of_reach hr.reach)
      refine ⟨hrun.step htraceless hstep, ?_⟩
      exact (traceless_step htraceless (owned_of_reach hr.reach) hstep).mpr hok

instance (s : State) (n : Nat) : Decidable (s.Cancelling n) := by
  unfold State.Cancelling; infer_instance

instance (s : State) (l : Label) : Decidable (Untouched s l) := by
  unfold Untouched
  induction l using Label.casesOn <;> infer_instance

/-- One message is cancelled while its delay waits, the other is dispatched. -/
theorem traceless_of_each : Traceless (play State.step {} oneOfEach) :=
  ((traceless_iff (reach_play (S := machine) (fun _ _ _ => id) rfl oneOfEach)).2.mpr
    (reachIf_play (fun _ _ _ => id) rfl oneOfEach (by decide))).2

/-- **A phantom.** One millisecond beyond the maximum the call throws, and its entry is listed. -/
theorem phantom_listed :
    ((({} : State).scheduleAsync "d" "a" 42949672950000 0).calls 0).map Call.phase = some .threw ∧
      (({} : State).scheduleAsync "d" "a" 42949672950000 0).listScheduled "d" =
        [⟨"mem-1", "d", 42949672950000⟩] := by
  decide

end MessagingPoc.NetScheduler
