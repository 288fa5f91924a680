import MessagingPoc.Lib.Glob
import Mathlib.Data.List.Basic
import Mathlib.Logic.Function.Basic

/-!
# Topic matching

`TopicMatch` of `InMemoryBus.cs` (and `topicMatch` of `in-memory-bus.ts`): the pattern and the key
are split at the dots, `*` matches exactly one word and `#` zero or more. The word lists are the
suffixes `p[pi..]` and `k[ki..]` the source walks by index; `matchAt` is that walk.
-/

namespace MessagingPoc

/-- `s.Split('.')`. -/
def words (s : String) : List (List Char) := s.toList.splitOn '.'

/-- `Match`, from the pattern words and key words still to compare. -/
def matchFrom : List (List Char) → List (List Char) → Bool
  | [], k => k.isEmpty
  | w :: p, k =>
    if w = ['#'] then k.tails.any (matchFrom p)
    else match k with
      | [] => false
      | x :: k => if w = ['*'] ∨ w = x then matchFrom p k else false

def topicMatch (pattern key : String) : Bool := matchFrom (words pattern) (words key)

/-- The wildcard a pattern word stands for. -/
def token (w : List Char) : Glob.Token (List Char) :=
  if w = ['#'] then .many else if w = ['*'] then .any else .lit w

/-- `Match` is the backtracking matcher of the word patterns. -/
theorem matchFrom_eq_accepts (p k : List (List Char)) :
    matchFrom p k = Glob.accepts (p.map token) k := by
  induction p generalizing k with
  | nil => rfl
  | cons w p ih =>
    have hp : matchFrom p = Glob.accepts (p.map token) := funext ih
    unfold matchFrom
    rw [List.map_cons, token]
    split_ifs with hhash hstar
    · rw [Glob.accepts, hp]
    · cases k with
      | nil => rfl
      | cons x k => simp [Glob.accepts, hstar, ih]
    · cases k with
      | nil => rfl
      | cons x k =>
        simp only [Glob.accepts, hstar, false_or, ih]
        by_cases hx : w = x <;> simp [hx]

/-- **The matcher decides the declarative split of the key into segments.** -/
theorem topicMatch_iff (pattern key : String) :
    topicMatch pattern key = true ↔ Glob.Denotes ((words pattern).map token) (words key) := by
  rw [topicMatch, matchFrom_eq_accepts, Glob.accepts_iff]

example : topicMatch "order.*" "order.created" = true ∧ topicMatch "order.#" "order" = true ∧
    topicMatch "order.*" "order.created.eu" = false := by decide

/-! ## The walk by index -/

/-- The loop `for (n = ki; n <= k.Length; n++) if (Match(p, pi + 1, k, n)) return true;`. -/
def anyFrom (tail : ℕ → Option Bool) (len n : ℕ) : Option Bool :=
  if n ≤ len then
    match tail n with
    | none => none
    | some true => some true
    | some false => anyFrom tail len (n + 1)
  else some false
termination_by len + 1 - n

/-- `Match(p, pi, k, ki)` as the source walks the arrays; `none` is an index out of range. -/
def matchAt (p k : List (List Char)) (pi ki : ℕ) : Option Bool :=
  if pi = p.length then some (decide (ki = k.length))
  else
    match _hw : p[pi]? with
    | none => none
    | some w =>
      if w = ['#'] then anyFrom (fun n => matchAt p k (pi + 1) n) k.length ki
      else if ki = k.length then some false
      else if w = ['*'] then matchAt p k (pi + 1) (ki + 1)
      else
        match k[ki]? with
        | none => none
        | some x => if w = x then matchAt p k (pi + 1) (ki + 1) else some false
termination_by p.length - pi
decreasing_by all_goals
  have := (List.getElem?_eq_some_iff.mp _hw).1
  omega

theorem anyFrom_eq {tail : ℕ → Option Bool} {f : List (List Char) → Bool} {k : List (List Char)}
    (htail : ∀ n ≤ k.length, tail n = some (f (k.drop n))) {n : ℕ} (hn : n ≤ k.length) :
    anyFrom tail k.length n = some ((k.drop n).tails.any f) := by
  -- backwards from the end of the key: the last pass of the loop tries the empty suffix
  induction hn using Nat.decreasingInduction with
  | self =>
    rw [anyFrom, if_pos le_rfl, htail _ le_rfl, List.drop_length]
    cases hf : f []
    · rw [anyFrom, if_neg (Nat.not_succ_le_self _)]
      simp [hf]
    · simp [hf]
  | of_succ n hn ih =>
    rw [anyFrom, if_pos hn.le, htail n hn.le, List.drop_eq_getElem_cons hn, List.tails_cons,
      List.any_cons]
    cases hf : f (k[n] :: k.drop (n + 1))
    · exact ih
    · rfl

/-- Inside the pattern, `p[pi]` is there to compare. -/
theorem matchAt_of_lt {p k : List (List Char)} {pi ki : ℕ} (hp : pi < p.length) :
    matchAt p k pi ki =
      if p[pi] = ['#'] then anyFrom (fun n => matchAt p k (pi + 1) n) k.length ki
      else if ki = k.length then some false
      else if p[pi] = ['*'] then matchAt p k (pi + 1) (ki + 1)
      else
        match k[ki]? with
        | none => none
        | some x => if p[pi] = x then matchAt p k (pi + 1) (ki + 1) else some false := by
  rw [matchAt, if_neg hp.ne]
  split
  next hget => exact absurd (List.getElem?_eq_none_iff.mp hget) hp.not_ge
  next w hget =>
    obtain ⟨_, hw⟩ := List.getElem?_eq_some_iff.mp hget
    rw [hw]

/-- **The walk by index stays inside both arrays and compares the suffixes.** -/
theorem matchAt_eq {p k : List (List Char)} {pi ki : ℕ} (hp : pi ≤ p.length) (hk : ki ≤ k.length) :
    matchAt p k pi ki = some (matchFrom (p.drop pi) (k.drop ki)) := by
  induction hp using Nat.decreasingInduction generalizing ki with
  | self =>
    have hend : decide (ki = k.length) = (k.drop ki).isEmpty := by
      rw [Bool.eq_iff_iff, decide_eq_true_iff, List.isEmpty_iff, List.drop_eq_nil_iff]
      exact ⟨fun h => h.ge, hk.antisymm⟩
    rw [matchAt, if_pos rfl, List.drop_length, matchFrom, hend]
  | of_succ pi hp ih =>
    rw [matchAt_of_lt hp, List.drop_eq_getElem_cons hp, matchFrom.eq_def]
    dsimp only
    by_cases hhash : p[pi] = ['#']
    · rw [if_pos hhash, if_pos hhash]
      exact anyFrom_eq (fun n hn => ih hn) hk
    rw [if_neg hhash, if_neg hhash]
    by_cases hlast : ki = k.length
    · rw [if_pos hlast, hlast, List.drop_length]
    -- the key has a word left, so `k[ki]` and `ki + 1` are inside it
    have hlt : ki < k.length := hk.lt_of_ne hlast
    rw [if_neg hlast, List.drop_eq_getElem_cons hlt, List.getElem?_eq_getElem hlt, ih hlt]
    by_cases hstar : p[pi] = ['*']
    · simp [hstar]
    · rw [if_neg hstar]
      by_cases hsame : p[pi] = k[ki]
      · simp [hsame]
      · simp [hstar, hsame]

/-- The pattern word takes the segment: one equal word, one word for `*`, any number for `#`. -/
def takes (w : List Char) (seg : List (List Char)) : Prop :=
  if w = ['#'] then True else if w = ['*'] then seg.length = 1 else seg = [w]

theorem takes_token (w : List Char) (seg : List (List Char)) :
    (token w).Takes seg ↔ takes w seg := by
  unfold token takes
  split_ifs
  · exact Iff.rfl
  · exact Iff.rfl
  · exact Iff.rfl

/-- **Topic matching is its grammar.** `Match` ends without an index out of range, and answers
whether the key's words split into segments, one for each pattern word in order. -/
theorem topicMatch_grammar (pattern key : String) :
    matchAt (words pattern) (words key) 0 0 = some (topicMatch pattern key) ∧
      (topicMatch pattern key = true ↔
        ∃ segs : List (List (List Char)),
          segs.flatten = words key ∧ List.Forall₂ takes (words pattern) segs) := by
  constructor
  · exact matchAt_eq (Nat.zero_le _) (Nat.zero_le _)
  · rw [topicMatch_iff, Glob.denotes_iff_segments]
    simp only [List.forall₂_map_left_iff, takes_token]

/-! ## Words -/

theorem words_ne_nil (s : String) : words s ≠ [] := List.splitOn_ne_nil _ _

theorem intercalate_words (s : String) : ['.'].intercalate (words s) = s.toList :=
  List.intercalate_splitOn '.'

theorem words_injective : Function.Injective words := fun s t h => by
  rw [← String.toList_inj, ← intercalate_words s, h, intercalate_words]

theorem words_append_dot (s t : String) : words (s ++ "." ++ t) = words s ++ words t := by
  unfold words
  rw [String.toList_append, String.toList_append, List.append_assoc]
  exact List.splitOn_append_cons_self _ _

theorem dotless {s : String} {w : List Char} (hw : w ∈ words s) : '.' ∉ w := by
  unfold words at hw
  generalize s.toList = cs at hw
  induction cs generalizing w with
  | nil => simp at hw; simp [hw]
  | cons c cs ih =>
    rw [List.splitOn_cons_eq_if_modifyHead] at hw
    obtain ⟨v, vs, hsplit⟩ := List.exists_cons_of_ne_nil (List.splitOn_ne_nil '.' cs)
    rw [hsplit] at hw ih
    split_ifs at hw with hc
    · rcases List.mem_cons.mp hw with rfl | hw
      · simp
      · exact ih hw
    · rcases List.mem_cons.mp hw with rfl | hw
      · have hne : '.' ≠ c := fun h => hc (beq_iff_eq.mpr h.symm)
        exact List.not_mem_cons_of_ne_of_not_mem hne (ih List.mem_cons_self)
      · exact ih (List.mem_cons_of_mem v hw)

theorem mem_words {s : String} {c : Char} (hc : c ≠ '.') :
    c ∈ s.toList ↔ ∃ w ∈ words s, c ∈ w := by
  unfold words
  induction s.toList with
  | nil => simp
  | cons d cs ih =>
    rw [List.splitOn_cons_eq_if_modifyHead, List.mem_cons, ih]
    obtain ⟨v, vs, hsplit⟩ := List.exists_cons_of_ne_nil (List.splitOn_ne_nil '.' cs)
    split_ifs with hd
    · obtain rfl := beq_iff_eq.mp hd
      simp [hc]
    · simp [hsplit, or_assoc]

theorem length_words (s : String) : (words s).length = s.toList.count '.' + 1 := by
  unfold words
  induction s.toList with
  | nil => rfl
  | cons c cs ih =>
    rw [List.splitOn_cons_eq_if_modifyHead, List.count_cons]
    split_ifs with hc
    · simp [ih]
    · simp [ih]

/-- The string with the given words. -/
def spell (ws : List (List Char)) : String := String.ofList (['.'].intercalate ws)

theorem words_spell {ws : List (List Char)} (hdot : ∀ w ∈ ws, '.' ∉ w) (hne : ws ≠ []) :
    words (spell ws) = ws := by
  rw [words, spell, String.toList_ofList]
  exact List.splitOn_intercalate '.' hdot hne

/-! ## Plain patterns -/

/-- No word of the pattern is a wildcard. -/
def Plain (pattern : String) : Prop := ∀ w ∈ words pattern, w ≠ ['*'] ∧ w ≠ ['#']

instance (pattern : String) : Decidable (Plain pattern) := by unfold Plain; infer_instance

/-- The words of a key the pattern matches: every wildcard filled with one word. -/
def sample (w : List Char) : List Char := if w = ['*'] ∨ w = ['#'] then ['x'] else w

theorem dotless_sample {s : String} {w : List Char} (hw : w ∈ words s) : '.' ∉ sample w := by
  unfold sample
  split_ifs
  · decide
  · exact dotless hw

theorem denotes_sample (ws : List (List Char)) :
    Glob.Denotes (ws.map token) (ws.map sample) := by
  have h : ws.map sample = (ws.map token).flatMap (Glob.fill ['x'] [['x']]) := by
    induction ws with
    | nil => rfl
    | cons w ws ih =>
      rw [List.map_cons, List.map_cons, List.flatMap_cons, ih]
      unfold sample token
      split_ifs <;> simp_all [Glob.fill]
  exact h ▸ Glob.denotes_fill ['x'] [['x']] _

theorem topicMatch_self (pattern : String) : topicMatch pattern pattern = true := by
  rw [topicMatch_iff]
  induction words pattern with
  | nil => exact .nil
  | cons w ws ih =>
    rw [List.map_cons, token]
    split_ifs
    · exact .many [w] ih
    · exact .any w ih
    · exact .lit w ih

theorem topicMatch_plain {pattern : String} (h : Plain pattern) (key : String) :
    topicMatch pattern key = true ↔ key = pattern := by
  have htokens : (words pattern).map token = (words pattern).map Glob.Token.lit :=
    List.map_congr_left fun w hw => by simp [token, h w hw]
  rw [topicMatch_iff, htokens, Glob.denotes_map_lit, words_injective.eq_iff]

/-- **Only plain patterns match nothing but themselves.** -/
theorem plain_iff (pattern : String) :
    Plain pattern ↔ ∀ key, topicMatch pattern key = true → key = pattern := by
  refine ⟨fun h key => (topicMatch_plain h key).mp, fun h w hw => ?_⟩
  have hspell : words (spell ((words pattern).map sample)) = (words pattern).map sample :=
    words_spell (fun v hv => by obtain ⟨u, hu, rfl⟩ := List.mem_map.mp hv; exact dotless_sample hu)
      fun hnil => words_ne_nil pattern (List.map_eq_nil_iff.mp hnil)
  have hmatch : topicMatch pattern (spell ((words pattern).map sample)) = true := by
    rw [topicMatch_iff, hspell]
    exact denotes_sample _
  rw [h _ hmatch] at hspell
  rw [hspell] at hw
  obtain ⟨u, -, rfl⟩ := List.mem_map.mp hw
  unfold sample
  split_ifs with hwild
  · decide
  · exact not_or.mp hwild

end MessagingPoc
