import MessagingPoc.TopicMatch

/-!
# Topic patterns as Artemis selectors

`toSelector` of `artemis.ts` (`ToSelector` of `ArtemisScheduler.cs`) writes a topic pattern as a
selector on the message property `routingKey`. The broker's side is one comparison of that property
with a string literal, by equality or by `LIKE`; a single quote ends the literal, and a selector
that goes on after it is refused. A selector is the list of its characters here.

`LIKE` knows characters, not words, so the translation is faithful to `topicMatch` for hardly any
pattern with a wildcard: `selector_agrees_iff` says for which.
-/

namespace MessagingPoc

namespace Artemis

/-! ## The adapter -/

/-- The message property that carries the routing key. -/
def routingKeyProp : List Char := "routingKey".toList

/-- The quote that delimits a string literal. -/
def quote : Char := Char.ofNat 39

/-- What the adapter takes for a wildcard: these characters, wherever they stand. -/
def isWildcard (c : Char) : Bool := c = '*' ∨ c = '#'

def toLike (routingKey : List Char) : List Char :=
  routingKey.map fun c => if isWildcard c then '%' else c

def toSelector (routingKey : String) : List Char :=
  if routingKey.toList.any isWildcard then
    routingKeyProp ++ " LIKE ".toList ++ [quote] ++ toLike routingKey.toList ++ [quote]
  else routingKeyProp ++ " = ".toList ++ [quote] ++ routingKey.toList ++ [quote]

/-! ## The broker -/

/-- What a string literal spells; `quoted` says that a quote has just been read. A doubled quote
stands for one, a single quote ends the literal, and nothing may follow it. -/
def literalFrom : (quoted : Bool) → List Char → Option (List Char)
  | false, [] => none
  | true, [] => some []
  | false, c :: cs =>
    if c = quote then literalFrom true cs else (literalFrom false cs).map (c :: ·)
  | true, c :: cs => if c = quote then (literalFrom false cs).map (quote :: ·) else none

/-- The literal behind an opening quote. -/
def literal (text : List Char) : Option (List Char) := literalFrom false text

inductive Selector
  | equals (l : List Char)
  | like (l : List Char)
deriving DecidableEq

/-- The text behind a prefix. -/
def behind (start text : List Char) : Option (List Char) :=
  if start <+: text then some (text.drop start.length) else none

def parse (selector : List Char) : Option Selector :=
  match behind (routingKeyProp ++ " = ".toList ++ [quote]) selector with
  | some rest => (literal rest).map .equals
  | none =>
    (behind (routingKeyProp ++ " LIKE ".toList ++ [quote]) selector).bind fun rest =>
      (literal rest).map .like

/-- `%` stands for any characters, `_` for any one. -/
def likeToken (c : Char) : Glob.Token Char :=
  if c = '%' then .many else if c = '_' then .any else .lit c

def Selector.accepts (key : String) : Selector → Bool
  | .equals l => l = key.toList
  | .like l => Glob.accepts (l.map likeToken) key.toList

/-- Does a message with the routing key pass the selector? -/
def selects (selector : List Char) (key : String) : Bool :=
  (parse selector).any (Selector.accepts key)

example : selects (toSelector "order.created") "order.created" = true ∧
    selects (toSelector "order.#") "order" = false := by decide

/-! ## What the broker reads -/

theorem behind_append (start rest : List Char) : behind start (start ++ rest) = some rest := by
  simp [behind]

theorem parse_toSelector (pattern : String) : parse (toSelector pattern) =
    if pattern.toList.any isWildcard then
      (literal (toLike pattern.toList ++ [quote])).map .like
    else (literal (pattern.toList ++ [quote])).map .equals := by
  unfold parse toSelector
  split_ifs with hwild
  · have hother (rest : List Char) : behind (routingKeyProp ++ " = ".toList ++ [quote])
        (routingKeyProp ++ " LIKE ".toList ++ [quote] ++ rest) = none := by
      have hops : " = ".toList = [' ', '=', ' '] ∧
          " LIKE ".toList = [' ', 'L', 'I', 'K', 'E', ' '] := ⟨rfl, rfl⟩
      refine if_neg fun h => ?_
      simp only [hops, List.append_assoc, List.prefix_append_right_inj] at h
      simp at h
    rw [List.append_assoc _ (toLike _), hother, behind_append, Option.bind_some]
  · rw [List.append_assoc _ pattern.toList, behind_append]

theorem literal_of_quoteless {cs : List Char} (h : quote ∉ cs) :
    literal (cs ++ [quote]) = some cs := by
  unfold literal
  induction cs with
  | nil => rfl
  | cons c cs ih =>
    obtain ⟨hc, hcs⟩ := not_or.mp (List.mem_cons.not.mp h)
    rw [List.cons_append, literalFrom, if_neg (Ne.symm hc), ih hcs, Option.map_some]

theorem literalFrom_counts {quoted : Bool} {text l : List Char}
    (h : literalFrom quoted text = some l) :
    text.count quote + quoted.toNat = 2 * l.count quote + 1 ∧
      ∀ c, c ≠ quote → text.count c = l.count c := by
  fun_induction literalFrom quoted text generalizing l with
  | case1 => simp at h
  | case2 =>
    obtain rfl : l = [] := by simpa using h.symm
    exact ⟨rfl, fun _ _ => rfl⟩
  | case3 cs ih =>
    obtain ⟨hquotes, hothers⟩ := ih h
    refine ⟨by simpa using hquotes, fun c hc => ?_⟩
    rw [List.count_cons_of_ne (Ne.symm hc), hothers c hc]
  | case4 c cs hc ih =>
    obtain ⟨l', hl', rfl⟩ := Option.map_eq_some_iff.mp h
    obtain ⟨hquotes, hothers⟩ := ih hl'
    refine ⟨by rwa [List.count_cons_of_ne hc, List.count_cons_of_ne hc], fun d hd => ?_⟩
    rw [List.count_cons, List.count_cons, hothers d hd]
  | case5 cs ih =>
    obtain ⟨l', hl', rfl⟩ := Option.map_eq_some_iff.mp h
    obtain ⟨hquotes, hothers⟩ := ih hl'
    simp only [Bool.toNat_false, Bool.toNat_true, List.count_cons_self] at hquotes ⊢
    refine ⟨by omega, fun c hc => ?_⟩
    rw [List.count_cons_of_ne (Ne.symm hc), List.count_cons_of_ne (Ne.symm hc), hothers c hc]
  | case6 => simp at h

/-- A literal keeps every character but the quotes, and half of those. -/
theorem literal_counts {cs l : List Char} (h : literal (cs ++ [quote]) = some l) :
    cs.count quote = 2 * l.count quote ∧ ∀ c, c ≠ quote → cs.count c = l.count c := by
  obtain ⟨hquotes, hothers⟩ := literalFrom_counts h
  rw [List.count_append] at hquotes
  refine ⟨by simpa using hquotes, fun c hc => ?_⟩
  rw [← hothers c hc, List.count_append, List.count_singleton, beq_false_of_ne (Ne.symm hc)]
  rfl

/-! ## Patterns with a wildcard -/

/-- What the broker reads for a pattern with a wildcard: a literal with a `%` and with the dots of
the pattern. -/
structure Rendered (pattern : String) (l : List Char) : Prop where
  many : '%' ∈ l
  dots : l.count '.' = pattern.toList.count '.'

theorem rendered {pattern : String} {l : List Char} (hwild : pattern.toList.any isWildcard = true)
    (h : literal (toLike pattern.toList ++ [quote]) = some l) : Rendered pattern l := by
  have hcounts := (literal_counts h).2
  constructor
  · obtain ⟨c, hc, hw⟩ := List.any_eq_true.mp hwild
    have hmem : '%' ∈ toLike pattern.toList := List.mem_map.mpr ⟨c, hc, if_pos hw⟩
    exact List.count_pos_iff.mp (hcounts '%' (by decide) ▸ List.count_pos_iff.mpr hmem)
  · rw [← hcounts '.' (by decide), toLike, List.count, List.countP_map]
    refine List.countP_congr fun c _ => ?_
    by_cases hc : isWildcard c = true
    · have hdot : c ≠ '.' := by
        rintro rfl
        exact absurd hc (by decide)
      simp [hc, hdot]
    · simp [hc]

variable {pattern : String} {l : List Char}

/-- `LIKE` accepts its literal with every `%` replaced by any text. -/
theorem like_fill (l many : List Char) : (Selector.like l).accepts
    (String.ofList ((l.map likeToken).flatMap (Glob.fill 'x' many))) = true := by
  rw [Selector.accepts, Glob.accepts_iff, String.toList_ofList]
  exact Glob.denotes_fill 'x' many _

/-- `#` also stands for no word at all, but `%` keeps the dots around it. -/
theorem misses_empty (h : Rendered pattern l) (hw : ['#'] ∈ words pattern) (hne : pattern ≠ "#") :
    ∃ key, topicMatch pattern key = true ∧ (Selector.like l).accepts key ≠ true := by
  obtain ⟨u, v, huv⟩ := List.append_of_mem hw
  have hwords : words (spell ((u ++ v).map sample)) = (u ++ v).map sample := by
    refine words_spell (fun x hx => ?_) fun hnil => hne (words_injective ?_)
    · obtain ⟨y, hy, rfl⟩ := List.mem_map.mp hx
      refine dotless_sample (s := pattern) ?_
      rw [huv, List.mem_append, List.mem_cons]
      exact (List.mem_append.mp hy).imp id .inr
    · obtain ⟨rfl, rfl⟩ := List.append_eq_nil_iff.mp (List.map_eq_nil_iff.mp hnil)
      exact huv
  refine ⟨spell ((u ++ v).map sample), ?_, fun hlike => ?_⟩
  · rw [topicMatch_iff, hwords, huv, List.map_append, List.map_append, List.map_cons]
    exact (denotes_sample u).append (.many [] (denotes_sample v))
  · rw [Selector.accepts, Glob.accepts_iff] at hlike
    have hdots := hlike.count_le '.'
    have hlit : l.count '.' ≤ (l.map likeToken).count (likeToken '.') := List.count_le_count_map
    replace hlit : l.count '.' ≤ (l.map likeToken).count (.lit '.') := hlit
    have hpattern := length_words pattern
    have hkey := length_words (spell ((u ++ v).map sample))
    rw [hwords, List.length_map] at hkey
    rw [huv] at hpattern
    simp only [List.length_append, List.length_cons] at hkey hpattern
    have := h.dots
    omega

theorem count_fill (l : List Char) :
    ((l.map likeToken).flatMap (Glob.fill 'x' ['.'])).count '.' = l.count '.' + l.count '%' := by
  induction l with
  | nil => rfl
  | cons c l ih =>
    rw [List.map_cons, List.flatMap_cons, List.count_append, ih, List.count_cons, List.count_cons]
    unfold likeToken
    split_ifs <;> simp_all [Glob.fill] <;> omega

/-- `*` stands for one word only, but `%` also for several. -/
theorem leaks_across_words (h : Rendered pattern l) (hw : ['#'] ∉ words pattern) :
    ∃ key, (Selector.like l).accepts key = true ∧ topicMatch pattern key ≠ true := by
  refine ⟨_, like_fill l ['.'], fun hmatch => ?_⟩
  have hmany : Glob.Token.many ∉ (words pattern).map token := fun hm => by
    obtain ⟨w, hw', ht⟩ := List.mem_map.mp hm
    unfold token at ht
    split_ifs at ht with hhash
    exact hw (hhash ▸ hw')
  have hlength := ((topicMatch_iff _ _).mp hmatch).length_eq hmany
  rw [List.length_map, length_words, length_words, String.toList_ofList, count_fill, h.dots]
    at hlength
  have := List.count_pos_iff.mpr h.many
  omega

/-! ## When the two agree -/

theorem accepts_anything (key : String) : (Selector.like ['%']).accepts key = true := by
  rw [Selector.accepts, Glob.accepts_iff]
  exact List.append_nil key.toList ▸ .many key.toList .nil

theorem hash_matches (key : String) : topicMatch "#" key = true := by
  rw [topicMatch_iff]
  exact List.append_nil (words key) ▸ .many (words key) .nil

theorem plain_of_wildcardless {pattern : String} (h : ∀ c ∈ pattern.toList, isWildcard c = false) :
    Plain pattern := by
  refine fun w hw => ⟨?_, ?_⟩ <;> rintro rfl
  · exact absurd (h '*' ((mem_words (by decide)).mpr ⟨_, hw, by simp⟩)) (by decide)
  · exact absurd (h '#' ((mem_words (by decide)).mpr ⟨_, hw, by simp⟩)) (by decide)

/-- **The selector agrees with the reference matcher** exactly for `#` alone and for the patterns
without any wildcard character or quote. -/
theorem selector_agrees_iff (pattern : String) :
    (∀ key, selects (toSelector pattern) key = topicMatch pattern key) ↔
      pattern = "#" ∨ ∀ c ∈ pattern.toList, isWildcard c = false ∧ c ≠ quote := by
  unfold selects
  rw [parse_toSelector]
  split_ifs with hwild
  · constructor
    · intro h
      left
      by_contra hne
      cases hl : literal (toLike pattern.toList ++ [quote]) with
      | none =>
        have hself := h pattern
        rw [hl, topicMatch_self] at hself
        simp at hself
      | some l =>
        simp only [hl, Option.map_some, Option.any_some] at h
        have hr := rendered hwild hl
        by_cases hhash : ['#'] ∈ words pattern
        · obtain ⟨key, hmatch, hlike⟩ := misses_empty hr hhash hne
          exact hlike ((h key).trans hmatch)
        · obtain ⟨key, hlike, hmatch⟩ := leaks_across_words hr hhash
          exact hmatch ((h key).symm.trans hlike)
    · rintro (rfl | h)
      · intro key
        have hl : literal (toLike "#".toList ++ [quote]) = some ['%'] := rfl
        rw [hl, Option.map_some, Option.any_some]
        exact (accepts_anything key).trans (hash_matches key).symm
      · obtain ⟨c, hc, hw⟩ := List.any_eq_true.mp hwild
        simp [(h c hc).1] at hw
  · have hnone : ∀ c ∈ pattern.toList, isWildcard c = false := by simpa using hwild
    constructor
    · intro h
      right
      refine fun c hc => ⟨hnone c hc, fun hquote => ?_⟩
      -- The key that spells the pattern is not what the literal spells.
      have hself := h pattern
      rw [topicMatch_self] at hself
      cases hl : literal (pattern.toList ++ [quote]) with
      | none => simp [hl] at hself
      | some l =>
        rw [hl, Option.map_some, Option.any_some, Selector.accepts, decide_eq_true_eq] at hself
        have hhalf := (literal_counts hl).1
        rw [hself] at hhalf
        have := List.count_pos_iff.mpr (hquote ▸ hc)
        omega
    · rintro (rfl | h) key
      · exact absurd (hnone '#' (by decide)) (by decide)
      · rw [literal_of_quoteless fun hq => (h quote hq).2 rfl, Option.map_some, Option.any_some,
          Bool.eq_iff_iff, topicMatch_plain (plain_of_wildcardless hnone), Selector.accepts,
          decide_eq_true_eq, String.toList_inj, eq_comm]

/-- The pattern and the key of the reference matcher's own test. -/
theorem selector_accepts_two_words : ¬ ∀ pattern key,
    selects (toSelector pattern) key = topicMatch pattern key := fun h =>
  absurd (h "order.*" "order.created.eu") (by decide)

/-! ## Keys no selector tells apart -/

/-- The characters no `LIKE` literal can ask for: each of them is a wildcard there, or written as
one. -/
def isMasked (c : Char) : Bool := isWildcard c || c = '%' || c = '_'

def mask (cs : List Char) : List Char := cs.map fun c => if isMasked c then '_' else c

/-- The keys are equal, or both are out of reach of an equality and differ only in which of the
masked characters stand where. -/
def Confusable (v k : String) : Prop :=
  v = k ∨ v.toList.any isWildcard = true ∧ k.toList.any isWildcard = true ∧
    mask v.toList = mask k.toList

instance (v k : String) : Decidable (Confusable v k) := by unfold Confusable; infer_instance

/-- A text as the adapter's pattern must spell it: with its quotes doubled. -/
def doubled (cs : List Char) : List Char :=
  cs.flatMap fun c => if c = quote then [quote, quote] else [c]

theorem literal_doubled (cs : List Char) : literal (doubled cs ++ [quote]) = some cs := by
  unfold literal doubled
  induction cs with
  | nil => rfl
  | cons c cs ih =>
    rw [List.flatMap_cons, List.append_assoc]
    split_ifs with hc
    · rw [List.cons_append, literalFrom, if_pos rfl, List.cons_append, literalFrom, if_pos rfl,
        List.nil_append, ih, hc]
      rfl
    · rw [List.cons_append, literalFrom, if_neg hc, List.nil_append, ih, Option.map_some]

theorem toLike_doubled (cs : List Char) : toLike (doubled cs) = doubled (toLike cs) := by
  unfold toLike doubled
  rw [List.map_flatMap, List.flatMap_map]
  refine List.flatMap_congr fun c _ => ?_
  by_cases hc : c = quote
  · subst hc
    rfl
  · by_cases hw : isWildcard c = true
    · simp [hc, hw, show '%' ≠ quote by decide]
    · simp [hc, hw]

theorem toLike_of_wildcardless {cs : List Char} (h : ∀ c ∈ cs, isWildcard c = false) :
    toLike cs = cs := by
  have hid : cs.map (fun c => if isWildcard c then '%' else c) = cs.map id :=
    List.map_congr_left fun c hc => if_neg (by simp [h c hc])
  rw [toLike, hid, List.map_id]

theorem any_doubled (cs : List Char) : (doubled cs).any isWildcard = cs.any isWildcard := by
  unfold doubled
  rw [List.any_flatMap]
  congr 1
  funext c
  by_cases hc : c = quote
  · subst hc
    rfl
  · simp [hc]

theorem not_wildcard_of_mem_mask {cs : List Char} {c : Char} (hc : c ∈ mask cs) :
    isWildcard c = false := by
  obtain ⟨d, -, rfl⟩ := List.mem_map.mp hc
  by_cases hd : isMasked d = true
  · rw [if_pos hd]
    rfl
  · rw [if_neg hd]
    simp only [isMasked, Bool.or_eq_true, not_or, Bool.not_eq_true] at hd
    exact hd.1.1

theorem parse_cases (pattern : String) :
    (∃ l, parse (toSelector pattern) = some (.equals l) ∧ ∀ c ∈ l, isWildcard c = false) ∨
      (∃ l, parse (toSelector pattern) = some (.like l) ∧ ∀ c ∈ l, isWildcard c = false) ∨
        parse (toSelector pattern) = none := by
  have hkept : ∀ {cs l : List Char}, (∀ c ∈ cs, isWildcard c = false) →
      literal (cs ++ [quote]) = some l → ∀ c ∈ l, isWildcard c = false := by
    intro cs l hcs hl c hc
    by_cases hq : c = quote
    · subst hq
      rfl
    · refine hcs c (List.count_pos_iff.mp ?_)
      rw [(literal_counts hl).2 c hq]
      exact List.count_pos_iff.mpr hc
  rw [parse_toSelector]
  split_ifs with hwild
  · right
    cases hl : literal (toLike pattern.toList ++ [quote]) with
    | none => exact .inr rfl
    | some l =>
      refine .inl ⟨l, rfl, hkept (fun c hc => ?_) hl⟩
      obtain ⟨d, -, rfl⟩ := List.mem_map.mp hc
      by_cases hd : isWildcard d = true
      · rw [if_pos hd]
        rfl
      · rw [if_neg hd]
        simpa using hd
  · cases hl : literal (pattern.toList ++ [quote]) with
    | none => exact .inr (.inr rfl)
    | some l => exact .inl ⟨l, rfl, hkept (by simpa using hwild) hl⟩

/-- A `LIKE` without wildcard characters in its literal accepts keys of one mask alike. -/
theorem like_of_mask {l : List Char} (hl : ∀ c ∈ l, isWildcard c = false) {v k : String}
    (hmask : mask v.toList = mask k.toList) (h : (Selector.like l).accepts v = true) :
    (Selector.like l).accepts k = true := by
  rw [Selector.accepts, Glob.accepts_iff] at h ⊢
  apply h.congr
  have hpointwise := (List.forall₂_map_left_iff.mp
    (List.forall₂_map_right_iff.mp (List.forall₂_eq_eq_eq ▸ hmask :
      List.Forall₂ (· = ·) (mask v.toList) (mask k.toList))))
  refine hpointwise.imp fun x y hxy a ha hxa => ?_
  have hplain : isMasked a = false := by
    obtain ⟨c, hc, htoken⟩ := List.mem_map.mp ha
    unfold likeToken at htoken
    split_ifs at htoken with hpercent hunder
    obtain rfl : c = a := by simpa using htoken
    simp [isMasked, hl c hc, hpercent, hunder]
  subst hxa
  rw [if_neg (by simp [hplain])] at hxy
  split_ifs at hxy with hy
  · subst hxy
    exact absurd hplain (by decide)
  · exact hxy.symm

/-- The pattern that asks for a key as precisely as a pattern can. -/
def probe (key : String) : String :=
  if key.toList.any isWildcard then String.ofList (doubled (mask key.toList ++ ['*']))
  else String.ofList (doubled key.toList)

/-- A key without wildcard characters has a selector of its own. -/
theorem selects_probe_plain {x : String} (hx : ∀ c ∈ x.toList, isWildcard c = false) (y : String) :
    selects (toSelector (probe x)) y = true ↔ y = x := by
  have hany : x.toList.any isWildcard = false := by simpa using hx
  have hprobe : probe x = String.ofList (doubled x.toList) := if_neg (by simp [hany])
  rw [selects, parse_toSelector, hprobe, String.toList_ofList, any_doubled, hany,
    if_neg Bool.false_ne_true, literal_doubled, Option.map_some, Option.any_some,
    Selector.accepts, decide_eq_true_eq, String.toList_inj, eq_comm]

theorem parse_probe_wild {x : String} (hx : x.toList.any isWildcard = true) :
    parse (toSelector (probe x)) = some (.like (mask x.toList ++ ['%'])) := by
  have hlike : toLike (mask x.toList ++ ['*']) = mask x.toList ++ ['%'] := by
    have hkept := toLike_of_wildcardless fun c (hc : c ∈ mask x.toList) =>
      not_wildcard_of_mem_mask hc
    unfold toLike at hkept ⊢
    rw [List.map_append, hkept]
    rfl
  rw [parse_toSelector, probe, if_pos hx, String.toList_ofList, any_doubled,
    if_pos (by simp [isWildcard]), toLike_doubled, hlike, literal_doubled, Option.map_some]

theorem likeToken_mask (c : Char) :
    likeToken (if isMasked c then '_' else c) = if isMasked c then .any else .lit c := by
  by_cases hc : isMasked c = true
  · rw [if_pos hc, if_pos hc]
    rfl
  · rw [if_neg hc, if_neg hc]
    simp only [isMasked, Bool.or_eq_true, not_or, decide_eq_true_eq] at hc
    simp [likeToken, hc]

/-- The texts a masked text with a `%` behind it denotes. -/
theorem denotes_mask_iff {cs w : List Char} :
    Glob.Denotes ((mask cs ++ ['%']).map likeToken) w ↔
      ∃ u v, w = u ++ v ∧ List.Forall₂ (fun c d => isMasked c = true ∨ c = d) cs u := by
  induction cs generalizing w with
  | nil =>
    constructor
    · intro _
      exact ⟨[], w, rfl, .nil⟩
    · intro _
      exact List.append_nil w ▸ .many w .nil
  | cons c cs ih =>
    rw [mask, List.map_cons, List.cons_append, List.map_cons, likeToken_mask]
    constructor
    · intro h
      split_ifs at h with hc
      · cases h with
        | any d h =>
          obtain ⟨u, v, rfl, huv⟩ := ih.mp h
          exact ⟨d :: u, v, rfl, .cons (.inl hc) huv⟩
      · cases h with
        | lit _ h =>
          obtain ⟨u, v, rfl, huv⟩ := ih.mp h
          exact ⟨c :: u, v, rfl, .cons (.inr rfl) huv⟩
    · rintro ⟨u, v, rfl, huv⟩
      obtain ⟨d, u, hd, hrest, rfl⟩ := List.forall₂_cons_left_iff.mp huv
      have htail := ih.mpr ⟨u, v, rfl, hrest⟩
      split_ifs with hc
      · exact .any d htail
      · obtain rfl := hd.resolve_left hc
        exact .lit c htail

theorem selects_probe_wild {x : String} (hx : x.toList.any isWildcard = true) (y : String) :
    selects (toSelector (probe x)) y = true ↔
      ∃ u v, y.toList = u ++ v ∧
        List.Forall₂ (fun c d => isMasked c = true ∨ c = d) x.toList u := by
  rw [selects, parse_probe_wild hx, Option.any_some, Selector.accepts, Glob.accepts_iff,
    denotes_mask_iff]

theorem selects_probe_self (x : String) : selects (toSelector (probe x)) x = true := by
  by_cases hx : x.toList.any isWildcard = true
  · refine (selects_probe_wild hx x).mpr ⟨x.toList, [], (List.append_nil _).symm, ?_⟩
    exact List.forall₂_same.mpr fun c _ => .inr rfl
  · exact (selects_probe_plain (by simpa using hx) x).mpr rfl

theorem mask_eq_of_forall₂ {cs ds : List Char}
    (h : List.Forall₂ (fun c d => isMasked c = true ∨ c = d) cs ds)
    (h' : List.Forall₂ (fun c d => isMasked c = true ∨ c = d) ds cs) : mask cs = mask ds := by
  induction h with
  | nil => rfl
  | @cons c d cs ds hcd _ ih =>
    cases h' with
    | cons hdc hrest =>
      rw [mask, mask, List.map_cons, List.map_cons]
      refine congrArg₂ _ ?_ (ih hrest)
      rcases hcd with hc | rfl
      · rcases hdc with hd | rfl
        · rw [if_pos hc, if_pos hd]
        · rfl
      · rfl

/-- Keys that pass each other's probes, both with wildcard characters, have one mask. -/
theorem mask_eq_of_probes {v k : String} (hv : v.toList.any isWildcard = true)
    (hk : k.toList.any isWildcard = true) (hvk : selects (toSelector (probe v)) k = true)
    (hkv : selects (toSelector (probe k)) v = true) : mask v.toList = mask k.toList := by
  obtain ⟨u, u', hu, huv⟩ := (selects_probe_wild hv k).mp hvk
  obtain ⟨w, w', hw, hwk⟩ := (selects_probe_wild hk v).mp hkv
  have hlength : u'.length = 0 ∧ w'.length = 0 := by
    have h₁ := huv.length_eq
    have h₂ := hwk.length_eq
    have h₃ := congrArg List.length hu
    have h₄ := congrArg List.length hw
    simp only [List.length_append] at h₃ h₄
    omega
  obtain ⟨rfl, rfl⟩ := hlength.imp List.length_eq_zero_iff.mp List.length_eq_zero_iff.mp
  rw [List.append_nil] at hu hw
  exact mask_eq_of_forall₂ (hu ▸ huv) (hw ▸ hwk)

theorem probe_ne_empty {x : String} (hx : x ≠ "") : probe x ≠ "" := by
  intro hprobe
  have hself := selects_probe_self x
  rw [hprobe] at hself
  exact hx ((selects_probe_plain (x := "") (by simp) x).mp hself)

/-- A key without wildcard characters is told apart from every other one. -/
theorem eq_of_selects_eq {v k : String} (hv : ∀ c ∈ v.toList, isWildcard c = false)
    (h : ∀ pattern, pattern ≠ "" →
      selects (toSelector pattern) v = selects (toSelector pattern) k) : v = k := by
  by_cases hempty : v = ""
  · subst hempty
    by_contra hk
    have hself := h _ (probe_ne_empty (Ne.symm hk)) ▸ selects_probe_self k
    by_cases hwild : k.toList.any isWildcard = true
    · obtain ⟨u, w, huw, hku⟩ := (selects_probe_wild hwild "").mp hself
      obtain ⟨rfl, -⟩ := List.append_eq_nil_iff.mp (show u ++ w = [] from huw.symm)
      rw [List.forall₂_nil_right_iff.mp hku] at hwild
      simp at hwild
    · exact hk ((selects_probe_plain (by simpa using hwild) "").mp hself)
  · have hself := h _ (probe_ne_empty hempty) ▸ selects_probe_self v
    exact ((selects_probe_plain hv k).mp hself).symm

/-- **The keys no topic subscriber's selector tells apart.** -/
theorem confusable_iff (v k : String) :
    (∀ pattern, pattern ≠ "" → selects (toSelector pattern) v = selects (toSelector pattern) k) ↔
      Confusable v k := by
  constructor
  · intro h
    by_cases hv : v.toList.any isWildcard = true
    · by_cases hk : k.toList.any isWildcard = true
      · have hvne : v ≠ "" := by
          rintro rfl
          simp at hv
        have hkne : k ≠ "" := by
          rintro rfl
          simp at hk
        exact .inr ⟨hv, hk, mask_eq_of_probes hv hk
          (h _ (probe_ne_empty hvne) ▸ selects_probe_self v)
          (h _ (probe_ne_empty hkne) ▸ selects_probe_self k)⟩
      · exact .inl (eq_of_selects_eq (by simpa using hk) fun p hp => (h p hp).symm).symm
    · exact .inl (eq_of_selects_eq (by simpa using hv) h)
  · rintro (rfl | ⟨hv, hk, hmask⟩) pattern -
    · rfl
    unfold selects
    obtain ⟨l, hl, hplain⟩ | ⟨l, hl, hplain⟩ | hl := parse_cases pattern
    · -- neither key spells a text without wildcard characters
      have hne : ∀ x : String, x.toList.any isWildcard = true → l ≠ x.toList := by
        rintro x hx rfl
        obtain ⟨c, hc, hw⟩ := List.any_eq_true.mp hx
        exact absurd hw (by simp [hplain c hc])
      rw [hl, Option.any_some, Option.any_some, Selector.accepts, Selector.accepts,
        decide_eq_false (hne v hv), decide_eq_false (hne k hk)]
    · rw [hl, Option.any_some, Option.any_some, Bool.eq_iff_iff]
      exact ⟨like_of_mask hplain hmask, like_of_mask hplain hmask.symm⟩
    · rw [hl]
      rfl

end Artemis

end MessagingPoc
