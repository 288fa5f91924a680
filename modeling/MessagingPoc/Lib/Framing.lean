import Mathlib.Data.List.Chain

/-!
# Records that end in a doubled separator

A stream of records is taken apart by looking for the first two separators in a row, time and again;
it comes in chunks, and what is left over waits for the next.

* `feed_eq` — where the chunks begin and end makes no difference.
* `drain_records` — the records are those that were written.
-/

namespace Framing

variable {α : Type*} [DecidableEq α] (d : α)

/-- What comes before the first two separators in a row, and what comes after them. -/
def cut : List α → Option (List α × List α)
  | a :: b :: s =>
    if a = d ∧ b = d then some ([], s) else (cut (b :: s)).map fun p => (a :: p.1, p.2)
  | [] | [_] => none

/-- Cut off so many records at most. -/
def cutMany : Nat → List α → List (List α) × List α
  | 0, s => ([], s)
  | n + 1, s =>
    match cut d s with
    | none => ([], s)
    | some (e, s) => (e :: (cutMany n s).1, (cutMany n s).2)

/-- The records of a stream, and what is left over. -/
def drain (s : List α) : List (List α) × List α := cutMany d s.length s

/-- The records of a stream that comes in chunks, after what is left over of earlier ones. -/
def feed : List α → List (List α) → List (List α) × List α
  | rest, [] => ([], rest)
  | rest, chunk :: chunks =>
    let now := drain d (rest ++ chunk)
    ((now.1 ++ (feed now.2 chunks).1), (feed now.2 chunks).2)

variable {d} {s t e : List α}

theorem cut_eq_some (h : cut d s = some (e, t)) : s = e ++ d :: d :: t := by
  fun_induction cut d s generalizing e with
  | case1 a b s hd =>
    obtain ⟨rfl, rfl⟩ := hd
    obtain ⟨rfl, rfl⟩ := Prod.mk.inj (Option.some.inj h)
    rfl
  | case2 a b s hd ih =>
    obtain ⟨⟨e', t'⟩, hcut, heq⟩ := Option.map_eq_some_iff.mp h
    obtain ⟨rfl, rfl⟩ := Prod.mk.inj heq
    rw [ih hcut]
    rfl
  | case3 | case4 => cases h

theorem cut_append (h : cut d s = some (e, t)) (u : List α) :
    cut d (s ++ u) = some (e, t ++ u) := by
  fun_induction cut d s generalizing e with
  | case1 a b s hd =>
    obtain ⟨rfl, rfl⟩ := Prod.mk.inj (Option.some.inj h)
    rw [List.cons_append, List.cons_append, cut, if_pos hd]
  | case2 a b s hd ih =>
    obtain ⟨⟨e', t'⟩, hcut, heq⟩ := Option.map_eq_some_iff.mp h
    obtain ⟨rfl, rfl⟩ := Prod.mk.inj heq
    have hmore := ih hcut
    rw [List.cons_append] at hmore
    rw [List.cons_append, List.cons_append, cut, if_neg hd, hmore, Option.map_some]
  | case3 | case4 => cases h

theorem length_of_cut (h : cut d s = some (e, t)) : t.length + 2 ≤ s.length := by
  rw [cut_eq_some h]
  simp

theorem cutMany_eq_cutMany {m n : Nat} (hm : s.length ≤ m) (hn : s.length ≤ n) :
    cutMany d m s = cutMany d n s := by
  induction m generalizing s n with
  | zero =>
    obtain rfl : s = [] := List.length_eq_zero_iff.mp (Nat.le_zero.mp hm)
    cases n <;> rfl
  | succ m ih =>
    cases n with
    | zero =>
      obtain rfl : s = [] := List.length_eq_zero_iff.mp (Nat.le_zero.mp hn)
      rfl
    | succ n =>
      rw [cutMany, cutMany]
      cases hcut : cut d s with
      | none => rfl
      | some p =>
        have hlength := length_of_cut hcut
        simp only [ih (show p.2.length ≤ m by omega) (show p.2.length ≤ n by omega)]

theorem drain_of_none (h : cut d s = none) : drain d s = ([], s) := by
  unfold drain
  cases s with
  | nil => rfl
  | cons a s => rw [List.length_cons, cutMany, h]

theorem drain_of_some (h : cut d s = some (e, t)) :
    drain d s = (e :: (drain d t).1, (drain d t).2) := by
  have hlength := length_of_cut h
  rw [drain, show s.length = (s.length - 1) + 1 by omega, cutMany, h]
  simp only [cutMany_eq_cutMany (show t.length ≤ s.length - 1 by omega) le_rfl, drain]

/-- No record is left over. -/
theorem cut_drain (s : List α) : cut d (drain d s).2 = none := by
  induction hn : s.length using Nat.strong_induction_on generalizing s with
  | _ n ih =>
    cases hcut : cut d s with
    | none => rwa [drain_of_none hcut]
    | some p =>
      have hlength := length_of_cut hcut
      rw [drain_of_some hcut]
      exact ih p.2.length (by omega) p.2 rfl

/-- Draining goes on where it stopped. -/
theorem drain_append (s t : List α) : drain d (s ++ t) =
    ((drain d s).1 ++ (drain d ((drain d s).2 ++ t)).1, (drain d ((drain d s).2 ++ t)).2) := by
  induction hn : s.length using Nat.strong_induction_on generalizing s with
  | _ n ih =>
    cases hcut : cut d s with
    | none => rw [drain_of_none hcut, List.nil_append]
    | some p =>
      obtain ⟨e, rest⟩ := p
      have hlength := length_of_cut hcut
      rw [drain_of_some hcut, drain_of_some (cut_append hcut t),
        ih rest.length (by omega) rest rfl]
      rfl

/-- **Chunks make no difference.** -/
theorem feed_eq (rest : List α) (h : cut d rest = none) (chunks : List (List α)) :
    feed d rest chunks = drain d (rest ++ chunks.flatten) := by
  induction chunks generalizing rest with
  | nil => rw [List.flatten_nil, List.append_nil, drain_of_none h, feed]
  | cons chunk chunks ih =>
    rw [feed, ih _ (cut_drain _), List.flatten_cons, ← List.append_assoc]
    exact (drain_append (rest ++ chunk) chunks.flatten).symm

/-- No two separators in a row, and none at the end. -/
def Separated (d : α) (e : List α) : Prop := (e ++ [d]).IsChain fun a b => ¬ (a = d ∧ b = d)

omit [DecidableEq α] in
theorem separated_of_not_mem (h : d ∉ e) : Separated d e := by
  induction e with
  | nil => exact List.isChain_singleton d
  | cons a e ih =>
    rw [List.mem_cons, not_or] at h
    refine List.isChain_cons.mpr ⟨fun b _ hab => h.1 hab.1.symm, ih h.2⟩

omit [DecidableEq α] in
/-- A separator between two parts without any. -/
theorem separated_append (hs : d ∉ s) (ht : d ∉ t) (hne : t ≠ []) : Separated d (s ++ d :: t) := by
  induction s with
  | nil =>
    obtain ⟨b, t, rfl⟩ := List.exists_cons_of_ne_nil hne
    refine List.isChain_cons.mpr ⟨fun c hc hdc => ?_, separated_of_not_mem ht⟩
    obtain rfl : b = c := Option.some.inj hc
    exact ht (hdc.2 ▸ List.mem_cons_self)
  | cons a s ih =>
    rw [List.mem_cons, not_or] at hs
    exact List.isChain_cons.mpr ⟨fun b _ hab => hs.1 hab.1.symm, ih hs.2⟩

theorem cut_of_separated (h : Separated d e) (s : List α) :
    cut d (e ++ d :: d :: s) = some (e, s) := by
  induction e with
  | nil => rw [List.nil_append, cut, if_pos ⟨rfl, rfl⟩]
  | cons a e ih =>
    obtain ⟨hhead, htail⟩ := List.isChain_cons.mp h
    have hcut := ih htail
    cases e with
    | nil =>
      rw [List.nil_append] at hcut
      rw [List.cons_append, List.nil_append, cut, if_neg (hhead d rfl), hcut, Option.map_some]
    | cons b e =>
      rw [List.cons_append] at hcut
      rw [List.cons_append, List.cons_append, cut, if_neg (hhead b rfl), hcut, Option.map_some]

/-- **The records are those that were written.** -/
theorem drain_records {es : List (List α)} (h : ∀ e ∈ es, Separated d e) :
    drain d (es.flatMap fun e => e ++ [d, d]) = (es, []) := by
  induction es with
  | nil => rfl
  | cons e es ih =>
    obtain ⟨he, hes⟩ := List.forall_mem_cons.mp h
    rw [List.flatMap_cons, List.append_assoc, List.cons_append, List.cons_append, List.nil_append,
      drain_of_some (cut_of_separated he _), ih hes]

end Framing
