import MessagingPoc.Lib.CompetingConsumers

/-!
# The order in which competing consumers are served

* `ordered` — what is delivered one at a time (`Serial`: a group of a partitioned queue, or what has
  one priority when a single consumer is active) and never tried again is delivered in the order in
  which it arrived.
* `fifo` — what is delivered the first of its class (`Fronted`: a group of a partitioned queue, or
  what has one priority on another) and never returns to the queue is delivered in the order in
  which it arrived, with none left out.
-/

namespace CompetingConsumers

open Machine

variable {α κ γ P : Type*} [DecidableEq α] [DecidableEq κ] [LT P]
variable {D : Discipline α γ P} {S S' : Queue α κ γ} {a : Act α κ}

/-! ## What arrives and what is delivered -/

namespace Queue

/-- What has arrived, the earliest first. -/
def arrived (S : Queue α κ γ) : List α :=
  S.trace.reverse.filterMap fun
    | .arrive m => some m
    | _ => none

/-- What was delivered and to whom, the earliest first. -/
def delivered (S : Queue α κ γ) : List (α × κ) :=
  S.trace.reverse.filterMap fun
    | .deliver m c => some (m, c)
    | _ => none

/-- The messages of a class that are not gone, in the order in which they arrived. -/
def live (S : Queue α κ γ) (p : α → Bool) : List α :=
  S.arrived.filter fun m => p m && S.ends m = 0

end Queue

/-- No message of the class is tried again. -/
def Orderly (p : α → Bool) (_ : Queue α κ γ) (a : Act α κ) : Prop :=
  ∀ m, p m = true → a ≠ .requeue m ∧ a ≠ .park m

/-- The messages of a class wait in the order in which they arrived, behind the one that is
held. -/
def InLine (p : α → Bool) (S : Queue α κ γ) : Prop :=
  ∃ front : Option α, (∀ m, p m = true → ((S.held m).isSome ↔ front = some m)) ∧
    (∀ m ∈ front, p m = true) ∧ (∀ m, p m = true → S.parked m = 0) ∧
    S.live p = front.toList ++ S.pending.filter p

/-- What is delivered is the first of the class that waits. -/
def Fronted (D : Discipline α γ P) (κ : Type*) [DecidableEq κ] (p : α → Bool) : Prop :=
  ∀ (S : Queue α κ γ) m c S', Step D S (.deliver m c) S' → p m = true →
    ∃ before after, S.pending = before ++ m :: after ∧ S'.pending = before ++ after ∧
      ∀ x ∈ before, p x = false

/-- The messages of a class are delivered one at a time, the first that waits. -/
structure Serial (D : Discipline α γ P) (κ : Type*) [DecidableEq κ] (p : α → Bool) : Prop where
  fronted : Fronted D κ p
  free : ∀ (S : Queue α κ γ) m c S', Reach (machine D) S → Step D S (.deliver m c) S' → p m = true →
    ∀ x, p x = true → S.held x = none

theorem Step.arrived (h : Step D S a S') : S'.arrived = S.arrived ++
    match a with
    | .arrive m => [m]
    | _ => [] := by
  cases h <;> simp [Queue.arrived, Queue.record]

theorem Step.delivered (h : Step D S a S') : S'.delivered = S.delivered ++
    match a with
    | .deliver m c => [(m, c)]
    | _ => [] := by
  cases h <;> simp [Queue.delivered, Queue.record]

omit [DecidableEq κ] in
theorem count_delivered (S : Queue α κ γ) (m : α) :
    S.delivered.countP (·.1 = m) = S.deliveries m := by
  rw [Queue.delivered, List.countP_filterMap, List.countP_reverse, Queue.deliveries]
  refine List.countP_congr fun a _ => ?_
  cases a <;> simp

/-- A run whose record shows no further attempts has made none. -/
theorem orderly_of_trace {p : α → Bool} (h : Reach (machine D) S)
    (htrace : ∀ a ∈ S.trace, ∀ m ∈ a.retried, p m = false) :
    ReachIf (machine D) (Orderly p) S := by
  refine h.invariant (I := fun S => (∀ a ∈ S.trace, ∀ m ∈ a.retried, p m = false) →
    ReachIf (machine D) (Orderly p) S) (fun S hS _ => .init hS)
    (fun S a S' _ ih _ hs htrace => ?_) htrace
  rcases hs.trace_eq with heq | ⟨rfl, heq⟩
  · rw [heq] at htrace
    refine .step (ih fun b hb => htrace b (List.mem_cons_of_mem a hb)) (fun m hm => ?_) hs
    have hnone := htrace a List.mem_cons_self
    constructor <;> rintro rfl <;> simp [Act.retried, hm] at hnone
  · exact .step (ih (heq ▸ htrace)) (fun m _ => by simp) hs

/-- A step that ends no message of the class, and brings none, leaves what is live. -/
theorem Step.live_eq (h : Step D S a S') {p : α → Bool}
    (harrive : ∀ m, p m = true → a ≠ .arrive m) (hends : ∀ m, p m = true → a.ends m = false) :
    S'.live p = S.live p := by
  have hfilter : S.arrived.filter (fun m => p m && S'.ends m = 0) = S.live p := by
    refine List.filter_congr fun m _ => ?_
    cases hp : p m with
    | false => rfl
    | true => rw [(h.counts m).2.2.2, hends m hp, Bool.toNat_false, Nat.add_zero]
  rw [Queue.live, h.arrived, List.filter_append, hfilter]
  cases a with
  | arrive m =>
    cases hp : p m with
    | false => simp [hp]
    | true => exact absurd rfl (harrive m hp)
  | _ => simp

theorem Step.live_arrive {p : α → Bool} {m : α} (h : Step D S (.arrive m) S') (hp : p m = true)
    (hends : S.ends m = 0) : S'.live p = S.live p ++ [m] := by
  have hsame : ∀ x, S'.ends x = S.ends x := fun x => (h.counts x).2.2.2
  rw [Queue.live, h.arrived, List.filter_append]
  simp [Queue.live, hsame, hp, hends]

theorem Step.live_erase (h : Step D S a S') {p : α → Bool} {m : α} (hm : a.ends m = true) :
    S'.live p = (S.live p).filter (· ≠ m) := by
  have ha : a = .settle m ∨ a = .expire m := by
    cases a <;> simp_all [Act.ends]
  have harrived : S'.arrived = S.arrived := by
    rw [h.arrived]
    rcases ha with rfl | rfl <;> simp
  rw [Queue.live, harrived, Queue.live, List.filter_filter]
  refine List.filter_congr fun x _ => ?_
  have hends := (h.counts x).2.2.2
  have hx : a.ends x = decide (m = x) := by
    rcases ha with rfl | rfl <;> rfl
  rw [hends, hx]
  by_cases hxm : m = x <;> simp [hxm, eq_comm]

theorem InLine.frame {p : α → Bool} (h : InLine p S) (hs : Step D S a S')
    (hat : ∀ m, p m = true → a ≠ .arrive m ∧ a.ends m = false ∧ S'.held m = S.held m ∧
      S'.parked m = S.parked m)
    (hpending : S'.pending.filter p = S.pending.filter p) : InLine p S' := by
  obtain ⟨front, hfront, hp, hnone, hlive⟩ := h
  refine ⟨front, fun m hm => ?_, hp, fun m hm => ?_, ?_⟩
  · rw [(hat m hm).2.2.1]
    exact hfront m hm
  · rw [(hat m hm).2.2.2]
    exact hnone m hm
  · rw [hs.live_eq (fun m hm => (hat m hm).1) (fun m hm => (hat m hm).2.1), hlive, hpending]

theorem InLine.settle {p : α → Bool} (h : InLine p S) (hone : Conserved S) (hs : Step D S a S')
    {m : α} {c : κ} (hp : p m = true) (hm : S.held m = some c) (ha : a.ends m = true)
    (hheld : S'.held = Function.update S.held m none) (hparked : S'.parked = S.parked)
    (hpending : S'.pending = S.pending) : InLine p S' := by
  obtain ⟨front, hfront, -, hnone, hlive⟩ := h
  obtain rfl : front = some m := (hfront m hp).mp (by simp [hm])
  refine ⟨none, fun x hx => ?_, by simp, hparked ▸ hnone, ?_⟩
  · rw [hheld]
    by_cases hxm : x = m
    · simp [hxm]
    · rw [Function.update_of_ne hxm, hfront x hx]
      simp [Ne.symm hxm]
  · have hout : ∀ x ∈ S.pending.filter p, x ≠ m := by
      rintro x hx rfl
      have := hone.held_eq_none (List.mem_filter.mp hx).1
      simp [hm] at this
    rw [hs.live_erase ha, hlive, hpending, Option.toList_some, List.singleton_append,
      List.filter_cons_of_neg (by simp), Option.toList_none, List.nil_append,
      List.filter_eq_self.mpr (by simpa using hout)]

theorem InLine.expire {p : α → Bool} (h : InLine p S) (hone : Conserved S) {m : α}
    (hs : Step D S a S') (hm : m ∈ S.pending) (ha : a.ends m = true) (hheld : S'.held = S.held)
    (hparked : S'.parked = S.parked) (hpending : S'.pending = S.pending.erase m) :
    InLine p S' := by
  obtain ⟨front, hfront, hp, hnone, hlive⟩ := h
  refine ⟨front, hheld ▸ hfront, hp, hparked ▸ hnone, ?_⟩
  have hnodup : S.pending.Nodup := List.nodup_iff_count_le_one.mpr fun x => by
    have := hone x
    simp only [Queue.copies] at this
    omega
  have hout : ∀ x ∈ front, x ≠ m := by
    rintro x hx rfl
    have := (hfront x (hp x hx)).mpr hx
    simp [hone.held_eq_none hm] at this
  rw [hs.live_erase ha, hlive, hpending, List.filter_append, hnodup.erase_eq_filter]
  congr 1
  · cases front with
    | none => rfl
    | some x => simpa using hout x rfl
  · rw [List.filter_filter, List.filter_filter]
    exact List.filter_congr fun x _ => by simp [Bool.and_comm, bne, beq_eq_decide]

/-- **A class that is delivered one at a time and never tried again stays in line.** -/
theorem inLine {p : α → Bool} (hserial : Serial D κ p)
    (h : ReachIf (machine D) (Orderly p) S) : InLine p S := by
  refine h.invariant (fun S hS => ?_) fun S a S' hr ih hok hs => ?_
  · obtain rfl : S = {} := hS
    exact ⟨none, by simp, by simp, by simp, rfl⟩
  · have hone := conserved hr.reach
    have hcases := hs
    have hne : ∀ {x m : α}, p x = false → p m = true → m ≠ x := by
      rintro x m hx hm rfl
      simp [hx] at hm
    cases hcases with
    | attach | detach | scan =>
      exact ih.frame hs (fun _ _ => ⟨by simp, rfl, rfl, rfl⟩) rfl
    | @arrive x fresh =>
      cases hx : p x with
      | false =>
        refine ih.frame hs (fun m hm => ?_) (by simp [Queue.record, hx])
        simp [Queue.record, (hne hx hm).symm]
      | true =>
        obtain ⟨front, hfront, hp, hnone, hlive⟩ := ih
        have hends : S.ends x = 0 := by
          have := hone x
          simp only [Queue.copies] at this
          omega
        refine ⟨front, hfront, hp, hnone, ?_⟩
        rw [hs.live_arrive hx hends, hlive]
        simp [Queue.record, hx]
    | @settle x c hheld | @expireHeld x c hheld =>
      cases hx : p x with
      | true => exact ih.settle hone hs hx hheld (by simp) rfl rfl rfl
      | false =>
        refine ih.frame hs (fun m hm => ?_) rfl
        simp [Queue.record, (hne hx hm).symm, Function.update_of_ne (hne hx hm)]
    | @requeue x c hheld | @park x c hheld =>
      cases hx : p x with
      | true =>
        have := hok x hx
        simp at this
      | false =>
        refine ih.frame hs (fun m hm => ?_) (by simp [Queue.record, hx])
        simp [Queue.record, Function.update_of_ne (hne hx hm)]
    | @unpark x hpos =>
      cases hx : p x with
      | true =>
        obtain ⟨-, -, -, hnone, -⟩ := ih
        exact absurd hpos (by simp [hnone x hx])
      | false =>
        refine ih.frame hs (fun m hm => ?_) (by simp [Queue.record, hx])
        simp [Queue.record, Function.update_of_ne (hne hx hm)]
    | @expirePending x hmem => exact ih.expire hone hs hmem (by simp) rfl rfl rfl
    | @giveBack x c hheld =>
      cases hx : p x with
      | true =>
        obtain ⟨front, hfront, -, hnone, hlive⟩ := ih
        obtain rfl : front = some x := (hfront x hx).mp (by simp [hheld])
        refine ⟨none, fun m hm => ?_, by simp, hnone, ?_⟩
        · by_cases hmx : m = x
          · simp [Queue.record, hmx]
          · simpa [Queue.record, hmx, Ne.symm hmx] using hfront m hm
        · rw [hs.live_eq (by simp) (by simp), hlive]
          simp [Queue.record, hx]
      | false =>
        refine ih.frame hs (fun m hm => ?_) (by simp [Queue.record, hx])
        simp [Queue.record, Function.update_of_ne (hne hx hm)]
    | @deliver before after x c pins split =>
      cases hx : p x with
      | true =>
        have hall := hserial.free S x c _ hr.reach hs hx
        obtain ⟨before', after', hsplit, hrest, hbefore⟩ := hserial.fronted S x c _ hs hx
        obtain ⟨front, hfront, hp, hnone, hlive⟩ := ih
        obtain rfl : front = none := by
          cases front with
          | none => rfl
          | some y =>
            have := (hfront y (hp y rfl)).mpr rfl
            simp [hall y (hp y rfl)] at this
        have hnil : before'.filter p = [] := List.filter_eq_nil_iff.mpr fun y hy => by
          simp [hbefore y hy]
        refine ⟨some x, fun m hm => ?_, by simpa using hx, hnone, ?_⟩
        · by_cases hmx : m = x
          · simp [Queue.record, hmx]
          · simp [Queue.record, hmx, Ne.symm hmx, hall m hm]
        · rw [hs.live_eq (by simp) (by simp), hlive, hrest, hsplit]
          simp [hnil, hx]
      | false =>
        refine ih.frame hs (fun m hm => ?_) (by simp [Queue.record, split, hx])
        simp [Queue.record, Function.update_of_ne (hne hx hm)]

omit [DecidableEq κ] in
theorem count_arrived (S : Queue α κ γ) (m : α) : S.arrived.count m = S.arrivals m := by
  rw [Queue.arrived, List.count, List.countP_filterMap, List.countP_reverse, Queue.arrivals]
  refine List.countP_congr fun a _ => ?_
  cases a <;> simp

theorem nodup_arrived (h : Reach (machine D) S) : S.arrived.Nodup :=
  List.nodup_iff_count_le_one.mpr fun m => count_arrived S m ▸ (conserved h m).2

/-- When a message of a class in line is delivered, those that arrived earlier are gone. -/
theorem ends_of_deliver {p : α → Bool} (hserial : Serial D κ p)
    (h : ReachIf (machine D) (Orderly p) S) {m : α} {c : κ} (hs : Step D S (.deliver m c) S')
    (hm : p m = true) {older newer : List α} (hsplit : S.arrived = older ++ m :: newer) {x : α}
    (hx : x ∈ older) (hp : p x = true) : S.ends x ≠ 0 := by
  intro hends
  obtain ⟨front, hfront, hclass, -, hlive⟩ := inLine hserial h
  have hall := hserial.free S m c S' h.reach hs hm
  obtain ⟨before, after, hpending, -, hbefore⟩ := hserial.fronted S m c S' hs hm
  obtain rfl : front = none := by
    cases front with
    | none => rfl
    | some y =>
      have := (hfront y (hclass y rfl)).mpr rfl
      simp [hall y (hclass y rfl)] at this
  have hnil : before.filter p = [] := List.filter_eq_nil_iff.mpr fun y hy => by
    simp [hbefore y hy]
  have hhead : (S.live p).head? = some m := by
    rw [hlive, hpending]
    simp [hnil, hm]
  rw [Queue.live, hsplit, List.filter_append, List.head?_append] at hhead
  -- The first that is live is among the older ones, and `m` is not.
  cases hfilter : older.filter (fun m => p m && decide (S.ends m = 0)) with
  | nil => exact absurd (List.filter_eq_nil_iff.mp hfilter x hx) (by simp [hp, hends])
  | cons y ys =>
    have hy : y ∈ older := (List.mem_filter.mp (hfilter ▸ List.mem_cons_self)).1
    rw [hfilter] at hhead
    obtain rfl : y = m := by simpa using hhead
    have hnodup := nodup_arrived h.reach
    rw [hsplit, List.nodup_append] at hnodup
    exact hnodup.2.2 y hy y List.mem_cons_self rfl

theorem mem_arrived_of_deliveries (h : Reach (machine D) S) {m : α} (hm : S.deliveries m ≠ 0) :
    m ∈ S.arrived := by
  refine h.invariant (I := fun S => ∀ m, S.deliveries m ≠ 0 → m ∈ S.arrived) (fun S hS => ?_)
    (fun S a S' hr ih _ hs m hm => ?_) m hm
  · obtain rfl : S = {} := hS
    simp [Queue.deliveries]
  · rw [hs.arrived]
    apply List.mem_append_left
    by_cases hold : S.deliveries m = 0
    · rw [(hs.counts m).2.1, hold, Nat.zero_add] at hm
      cases hs with
      | @deliver before after x c pins split =>
        obtain rfl : x = m := by simpa using hm
        rw [← List.count_pos_iff, count_arrived]
        exact Nat.pos_of_ne_zero ((conserved hr).arrivals_of_pending (by simp [split]))
      | _ => simp at hm
    · exact ih m hold

omit [DecidableEq α] in
theorem split_of_append {l t older newer : List α} {m : α} (hnodup : (l ++ t).Nodup)
    (h : l ++ t = older ++ m :: newer) (hm : m ∈ l) : ∃ newer', l = older ++ m :: newer' := by
  rw [h] at hnodup
  rcases List.append_eq_append_iff.mp h with ⟨as, hl, ht⟩ | ⟨bs, hl, ht⟩
  · -- `m` would come twice.
    have hmem : m ∈ older := hl ▸ List.mem_append_left _ hm
    exact absurd rfl ((List.nodup_append.mp hnodup).2.2 m hmem m List.mem_cons_self)
  · cases bs with
    | nil =>
      rw [List.append_nil] at hl
      exact absurd rfl ((List.nodup_append.mp hnodup).2.2 m (hl ▸ hm) m List.mem_cons_self)
    | cons b bs =>
      obtain rfl : m = b := (List.cons.inj ht).1
      exact ⟨bs, hl⟩

/-- **In line.** A message of a class that is delivered one at a time and never tried again is
delivered when those that arrived earlier are gone, whoever gave back what in the meantime. -/
theorem ordered {p : α → Bool} (hserial : Serial D κ p)
    (h : ReachIf (machine D) (Orderly p) S) {m x : α} {older newer : List α}
    (hsplit : S.arrived = older ++ m :: newer) (hm : p m = true) (hdelivered : S.deliveries m ≠ 0)
    (hx : x ∈ older) (hp : p x = true) : S.ends x ≠ 0 := by
  refine h.invariant (I := fun S => ∀ older newer, S.arrived = older ++ m :: newer →
    S.deliveries m ≠ 0 → x ∈ older → S.ends x ≠ 0) (fun S hS => ?_)
    (fun S a S' hr ih hok hs older newer hsplit hm' hx => ?_) older newer hsplit hdelivered hx
  · obtain rfl : S = {} := hS
    simp [Queue.deliveries]
  · have hreach : Reach (machine D) S' := .step hr.reach trivial hs
    have hstays : S.ends x ≠ 0 → S'.ends x ≠ 0 := by
      rw [(hs.counts x).2.2.2]
      omega
    apply hstays
    have hbefore : m ∈ S.arrived → ∃ newer', S.arrived = older ++ m :: newer' := by
      have hnodup := nodup_arrived hreach
      rw [hs.arrived] at hnodup hsplit
      exact split_of_append hnodup hsplit
    by_cases hold : S.deliveries m = 0
    · rw [(hs.counts m).2.1, hold, Nat.zero_add] at hm'
      cases a with
      | deliver y c =>
        obtain rfl : y = m := by simpa using hm'
        have hmem : y ∈ S.arrived := by
          have := mem_arrived_of_deliveries hreach (m := y)
            (by rw [(hs.counts y).2.1, hold]; simp)
          simpa [hs.arrived] using this
        obtain ⟨newer', hsplit'⟩ := hbefore hmem
        exact ends_of_deliver hserial hr hs hm hsplit' hx hp
      | _ => simp at hm'
    · obtain ⟨newer', hsplit'⟩ := hbefore (mem_arrived_of_deliveries hr.reach hold)
      exact ih older newer' hsplit' hold hx

/-- Where arrivals are numbered upwards, what is not gone is no older than what was delivered. -/
theorem le_of_delivered {p : α → Bool} (hserial : Serial D κ p)
    (h : ReachIf (machine D) (Orderly p) S) {key : α → ℕ}
    (hkey : S.arrived.Pairwise fun x y => key x < key y) {m x : α} (hm : p m = true)
    (hdelivered : S.deliveries m ≠ 0) (hx : p x = true) (harrived : S.arrivals x ≠ 0)
    (hends : S.ends x = 0) : key m ≤ key x := by
  by_contra hlt
  obtain ⟨older, newer, hsplit⟩ := List.append_of_mem (mem_arrived_of_deliveries h.reach hdelivered)
  have hin : x ∈ S.arrived := by
    rw [← List.count_pos_iff, count_arrived]
    omega
  rw [hsplit] at hin hkey
  have holder : x ∈ older := by
    rcases List.mem_append.mp hin with hin | hin
    · exact hin
    · rcases List.mem_cons.mp hin with rfl | hin
      · exact absurd le_rfl hlt
      · exact absurd (List.rel_of_pairwise_cons (List.pairwise_append.mp hkey).2.1 hin).le hlt
  exact ordered hserial h hsplit hm hdelivered holder hx hends

/-- **Deliveries follow the arrivals.** Where arrivals are numbered upwards, the deliveries of a
class that is delivered one at a time and never tried again never go back. -/
theorem sorted_delivered {p : α → Bool} (hserial : Serial D κ p)
    (h : ReachIf (machine D) (Orderly p) S) {key : α → ℕ}
    (hkey : S.arrived.Pairwise fun x y => key x < key y) :
    (S.delivered.filter fun d => p d.1).Pairwise fun d e => key d.1 ≤ key e.1 := by
  refine h.invariant (I := fun S => (S.arrived.Pairwise fun x y => key x < key y) →
    (S.delivered.filter fun d => p d.1).Pairwise fun d e => key d.1 ≤ key e.1) (fun S hS _ => ?_)
    (fun S a S' hr ih hok hs hkey => ?_) hkey
  · obtain rfl : S = {} := hS
    exact List.Pairwise.nil
  · have hold : S.arrived.Pairwise fun x y => key x < key y := by
      rw [hs.arrived, List.pairwise_append] at hkey
      exact hkey.1
    rw [hs.delivered, List.filter_append, List.pairwise_append]
    refine ⟨ih hold, ?_, fun d hd e he => ?_⟩
    · cases a with
      | deliver m c => exact (List.pairwise_singleton ..).filter _
      | _ => exact List.Pairwise.nil
    · cases a with
      | deliver m c =>
        obtain ⟨he, hm⟩ := List.mem_filter.mp he
        obtain rfl : e = (m, c) := List.mem_singleton.mp he
        obtain ⟨hmem, hp⟩ := List.mem_filter.mp hd
        have hdelivered : S.deliveries d.1 ≠ 0 := by
          rw [← count_delivered, ← Nat.pos_iff_ne_zero, List.countP_pos_iff]
          exact ⟨d, hmem, by simp⟩
        have hone := conserved hr.reach
        have hends : S.ends m = 0 := by
          have := hone m
          cases hs with
          | @deliver before after _ _ _ split =>
            have hcount : 0 < S.pending.count m := List.count_pos_iff.mpr (by simp [split])
            rw [Queue.copies] at this
            omega
        exact le_of_delivered hserial hr hold hp hdelivered hm (hone.arrivals_of_deliver hs) hends
      | _ => simp at he

/-! ### Classes -/

theorem fronted_group [DecidableEq γ] (hpart : D.partitioned = true) (g : γ) :
    Fronted D κ fun m => D.group m = g := by
  intro S m c S' hs hm
  obtain rfl : D.group m = g := by simpa using hm
  cases hs with
  | @deliver before after _ _ pins split _ _ first =>
    exact ⟨before, after, split, rfl, fun x hx => by simpa using first hpart x hx⟩

theorem fronted_priority [DecidableEq P] (hpart : D.partitioned = false) {v : P} (hv : ¬ v < v) :
    Fronted D κ fun m => D.priority m = v := by
  intro S m c S' hs hm
  cases hs with
  | @deliver before after _ _ pins split _ _ _ best =>
    refine ⟨before, after, split, rfl, fun x hx => ?_⟩
    have hm : D.priority m = v := by simpa using hm
    have hlower := best hpart x hx
    rw [hm] at hlower
    rw [decide_eq_false_iff_not]
    exact fun hxv => hv (hxv ▸ hlower)

theorem serial_group [DecidableEq γ] (hpart : D.partitioned = true) (g : γ) :
    Serial D κ fun m => D.group m = g where
  fronted := fronted_group hpart g
  free := by
    intro S m c S' hr hs hm x hx
    cases hs with
    | @deliver before after _ _ pins split hatt free first _ _ hpin kept =>
      have hgroup : D.group x = D.group m := by
        rw [of_decide_eq_true hx, of_decide_eq_true hm]
      cases hheld : S.held x with
      | none => rfl
      | some o =>
        -- The group's owner is busy with it.
        have hkept := kept _ o (pinned hr hpart hheld) (attached hr hheld)
        rw [hgroup, hpin hpart, Option.some.injEq] at hkept
        exact absurd (hkept ▸ hheld) (free x)

/-- The messages of one priority, on a queue with a single active consumer. -/
theorem serial_priority [DecidableEq P] (hpart : D.partitioned = false) (hsingle : D.single = true)
    {v : P} (hv : ¬ v < v) : Serial D κ fun m => D.priority m = v where
  fronted := fronted_priority hpart hv
  free := by
    intro S m c S' _ hs _ x _
    cases hs with
    | deliver split attached free first best exclusive => exact (exclusive hpart hsingle).1 x

/-! ## First in, first out -/

/-- The message is put back on the queue or taken from it in passing. -/
def Act.disturbs : Act α κ → Option α
  | .giveBack m | .requeue m | .park m | .unpark m | .expire m => some m
  | _ => none

theorem filter_pending_eq {p : α → Bool} (hs : Step D S a S')
    (ha : ∀ m, (a = .arrive m ∨ (∃ c, a = .deliver m c) ∨ a.disturbs = some m) → p m = false) :
    S'.pending.filter p = S.pending.filter p := by
  cases hs with
  | attach | detach | scan | settle | park | expireHeld => rfl
  | @arrive x | @requeue x | @unpark x =>
    have hx := ha x (by simp [Act.disturbs])
    simp [Queue.record, hx]
  | @giveBack x =>
    have hx := ha x (by simp [Act.disturbs])
    simp [Queue.record, hx]
  | @deliver before after x c pins split =>
    have hx := ha x (by simp)
    simp [Queue.record, split, hx]
  | @expirePending x hmem =>
    have hx := ha x (by simp [Act.disturbs])
    obtain ⟨before, after, -, hsplit, herase⟩ := List.exists_erase_eq hmem
    show (S.pending.erase x).filter p = S.pending.filter p
    rw [herase, hsplit]
    simp [hx]

/-- **First in, first out.** A class whose messages are delivered the first that waits first, and
never return to the queue, has been delivered in the order in which it arrived, up to those that
still wait. -/
theorem fifo {p : α → Bool} (hfront : Fronted D κ p) (h : Reach (machine D) S)
    (htrace : ∀ a ∈ S.trace, ∀ m ∈ a.disturbs, p m = false) :
    S.arrived.filter p = (S.delivered.map Prod.fst).filter p ++ S.pending.filter p := by
  refine h.invariant (I := fun S => (∀ a ∈ S.trace, ∀ m ∈ a.disturbs, p m = false) →
    S.arrived.filter p = (S.delivered.map Prod.fst).filter p ++ S.pending.filter p)
    (fun S hS _ => ?_) (fun S a S' _ ih _ hs htrace => ?_) htrace
  · obtain rfl : S = {} := hS
    rfl
  · have hold : ∀ b ∈ S.trace, ∀ m ∈ b.disturbs, p m = false := fun b hb => by
      rcases hs.trace_eq with heq | ⟨-, heq⟩
      · exact htrace b (heq ▸ List.mem_cons_of_mem a hb)
      · exact htrace b (heq ▸ hb)
    have ha : ∀ m ∈ a.disturbs, p m = false := fun m hm => by
      rcases hs.trace_eq with heq | ⟨rfl, -⟩
      · exact htrace a (heq ▸ List.mem_cons_self) m hm
      · simp [Act.disturbs] at hm
    have ih := ih hold
    rw [hs.arrived, hs.delivered, List.filter_append, ih]
    cases a with
    | arrive x =>
      have hpending : S'.pending = S.pending ++ [x] := by
        cases hs
        rfl
      simp [hpending]
    | deliver x c =>
      cases hx : p x with
      | false =>
        rw [filter_pending_eq hs (by
          rintro m (h | ⟨c', h⟩ | h)
          · simp at h
          · obtain ⟨rfl, -⟩ := Act.deliver.inj h
            exact hx
          · simp [Act.disturbs] at h)]
        simp [hx]
      | true =>
        obtain ⟨before, after, hsplit, hrest, hbefore⟩ := hfront S x c S' hs hx
        have hnil : before.filter p = [] := List.filter_eq_nil_iff.mpr fun y hy => by
          simp [hbefore y hy]
        simp [hsplit, hrest, hnil, hx]
    | _ =>
      rw [filter_pending_eq hs (by
        rintro m (h | ⟨c', h⟩ | h)
        · simp at h
        · simp at h
        · exact ha m h)]
      simp

end CompetingConsumers
