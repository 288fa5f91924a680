import Mathlib.Data.List.Basic
import Mathlib.Data.List.Flatten
import Mathlib.Data.List.Forall2
import Mathlib.Data.List.Infix

/-!
# Wildcard patterns over an arbitrary alphabet

A pattern is a list of tokens: a literal symbol, `any` (exactly one symbol) and `many` (any number
of symbols, none included). `Denotes` is the declarative meaning, a split of the text into
consecutive segments, one per token; `accepts` is the backtracking matcher.
-/

namespace Glob

inductive Token (α : Type*)
  | lit (a : α)
  | any
  | many
deriving DecidableEq

variable {α : Type*}

/-- The text splits into consecutive segments, one for each token in order. -/
inductive Denotes : List (Token α) → List α → Prop
  | nil : Denotes [] []
  | lit (a : α) {p : List (Token α)} {w : List α} : Denotes p w → Denotes (.lit a :: p) (a :: w)
  | any (a : α) {p : List (Token α)} {w : List α} : Denotes p w → Denotes (.any :: p) (a :: w)
  | many (u : List α) {p : List (Token α)} {w : List α} :
      Denotes p w → Denotes (.many :: p) (u ++ w)

/-- The backtracking matcher: `many` tries every suffix of what is left. -/
def accepts [DecidableEq α] : List (Token α) → List α → Bool
  | [], w => w.isEmpty
  | .lit _ :: _, [] => false
  | .lit a :: p, b :: w => a == b && accepts p w
  | .any :: _, [] => false
  | .any :: p, _ :: w => accepts p w
  | .many :: p, w => w.tails.any (accepts p)

theorem accepts_iff [DecidableEq α] {p : List (Token α)} {w : List α} :
    accepts p w = true ↔ Denotes p w := by
  constructor
  · intro h
    induction p generalizing w with
    | nil =>
      rw [accepts, List.isEmpty_iff] at h
      exact h ▸ .nil
    | cons t p ih =>
      cases t with
      | lit a =>
        cases w with
        | nil => simp [accepts] at h
        | cons b w =>
          simp only [accepts, Bool.and_eq_true, beq_iff_eq] at h
          exact h.1 ▸ .lit a (ih h.2)
      | any =>
        cases w with
        | nil => simp [accepts] at h
        | cons b w => exact .any b (ih (by simpa [accepts] using h))
      | many =>
        simp only [accepts, List.any_eq_true, List.mem_tails] at h
        obtain ⟨v, ⟨u, rfl⟩, hv⟩ := h
        exact .many u (ih hv)
  · intro h
    induction h with
    | nil => rfl
    | lit a _ ih => simp [accepts, ih]
    | any a _ ih => simpa [accepts] using ih
    | many u h ih =>
      simp only [accepts, List.any_eq_true, List.mem_tails]
      exact ⟨_, List.suffix_append _ _, ih⟩

instance [DecidableEq α] (p : List (Token α)) (w : List α) : Decidable (Denotes p w) :=
  decidable_of_iff _ accepts_iff

/-! ## What a pattern forces on its texts -/

theorem Denotes.append {p q : List (Token α)} {u v : List α} (hp : Denotes p u)
    (hq : Denotes q v) : Denotes (p ++ q) (u ++ v) := by
  induction hp with
  | nil => exact hq
  | lit a _ ih => exact .lit a ih
  | any a _ ih => exact .any a ih
  | many s _ ih => exact List.append_assoc .. ▸ .many s ih

/-- A token's segment when its wildcards are given. -/
def fill (one : α) (many : List α) : Token α → List α
  | .lit a => [a]
  | .any => [one]
  | .many => many

/-- **A pattern denotes itself with its wildcards filled in.** -/
theorem denotes_fill (one : α) (many : List α) (p : List (Token α)) :
    Denotes p (p.flatMap (fill one many)) := by
  induction p with
  | nil => exact .nil
  | cons t p ih =>
    cases t with
    | lit a => exact .lit a ih
    | any => exact .any one ih
    | many => exact .many many ih

theorem Denotes.count_le [DecidableEq α] {p : List (Token α)} {w : List α} (h : Denotes p w)
    (a : α) : p.count (.lit a) ≤ w.count a := by
  induction h with
  | nil => exact le_rfl
  | lit b _ ih =>
    rw [List.count_cons, List.count_cons]
    have hsame : ((Token.lit b == Token.lit a) = true) = ((b == a) = true) := by simp
    simp only [hsame]
    omega
  | any b _ ih =>
    rw [List.count_cons, List.count_cons]
    simp only [beq_iff_eq, reduceCtorEq, if_false]
    omega
  | many u _ ih =>
    rw [List.count_cons, List.count_append]
    simp only [beq_iff_eq, reduceCtorEq, if_false]
    omega

/-- Without `many`, a pattern fixes the length of its texts. -/
theorem Denotes.length_eq {p : List (Token α)} {w : List α} (h : Denotes p w)
    (hp : Token.many ∉ p) : w.length = p.length := by
  induction h with
  | nil => rfl
  | lit _ _ ih | any _ _ ih => simp [ih fun hm => hp (List.mem_cons_of_mem _ hm)]
  | many => exact absurd List.mem_cons_self hp

theorem Denotes.congr {p : List (Token α)} {w w' : List α} (h : Denotes p w)
    (hw : List.Forall₂ (fun x y => ∀ a, .lit a ∈ p → x = a → y = a) w w') : Denotes p w' := by
  induction h generalizing w' with
  | nil =>
    cases hw
    exact .nil
  | lit a _ ih =>
    obtain ⟨y, w', hy, hrest, rfl⟩ := List.forall₂_cons_left_iff.mp hw
    obtain rfl := hy a List.mem_cons_self rfl
    exact .lit y (ih (hrest.imp fun _ _ hxy b hb => hxy b (List.mem_cons_of_mem _ hb)))
  | any a _ ih =>
    obtain ⟨y, w', -, hrest, rfl⟩ := List.forall₂_cons_left_iff.mp hw
    exact .any y (ih (hrest.imp fun _ _ hxy b hb => hxy b (List.mem_cons_of_mem _ hb)))
  | many u _ ih =>
    have hrest := List.forall₂_drop u.length hw
    rw [List.drop_left] at hrest
    rw [← List.take_append_drop u.length w']
    exact .many _ (ih (hrest.imp fun _ _ hxy b hb => hxy b (List.mem_cons_of_mem _ hb)))

/-! ## Segments -/

/-- The segments a token can take. -/
def Token.Takes : Token α → List α → Prop
  | .lit a, seg => seg = [a]
  | .any, seg => seg.length = 1
  | .many, _ => True

/-- **A pattern denotes the texts that split into segments its tokens take.** -/
theorem denotes_iff_segments {p : List (Token α)} {w : List α} :
    Denotes p w ↔ ∃ segs : List (List α), segs.flatten = w ∧ List.Forall₂ Token.Takes p segs := by
  constructor
  · intro h
    induction h with
    | nil => exact ⟨[], rfl, .nil⟩
    | lit a _ ih =>
      obtain ⟨segs, rfl, hsegs⟩ := ih
      exact ⟨[a] :: segs, rfl, .cons rfl hsegs⟩
    | any a _ ih =>
      obtain ⟨segs, rfl, hsegs⟩ := ih
      exact ⟨[a] :: segs, rfl, .cons (List.length_singleton ..) hsegs⟩
    | many u _ ih =>
      obtain ⟨segs, rfl, hsegs⟩ := ih
      exact ⟨u :: segs, rfl, .cons trivial hsegs⟩
  · rintro ⟨segs, rfl, hsegs⟩
    induction hsegs with
    | nil => exact .nil
    | @cons t seg p segs ht _ ih =>
      rw [List.flatten_cons]
      cases t with
      | lit a =>
        obtain rfl : seg = [a] := ht
        exact .lit a ih
      | any =>
        obtain ⟨a, rfl⟩ := List.length_eq_one_iff.mp ht
        exact .any a ih
      | many => exact .many seg ih

/-! ## Literal patterns -/

theorem denotes_map_lit {as w : List α} : Denotes (as.map Token.lit) w ↔ w = as := by
  induction as generalizing w with
  | nil =>
    constructor
    · rintro ⟨⟩
      rfl
    · rintro rfl
      exact .nil
  | cons a as ih =>
    constructor
    · rintro (_ | ⟨_, h⟩)
      rw [ih.mp h]
    · rintro rfl
      exact .lit a (ih.mpr rfl)

end Glob
