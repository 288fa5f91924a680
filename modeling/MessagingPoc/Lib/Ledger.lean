import MessagingPoc.Lib.Machine
import MessagingPoc.Lib.Table

/-!
# Ledgers: what is opened and closed once

A table of open rows, each under a key of its own, beside the book of all that was opened and
closed. A row is opened when its key is free, and closed by taking it out of the table; `how` says
why. The table is then what the book says is open (`Balanced.rows`), and nothing is closed twice
(`Balanced.once`).
-/

open Machine

variable {κ ρ ω : Type*}

inductive Ledger.Entry (ρ ω : Type*)
  | opened (r : ρ)
  | closed (r : ρ) (how : ω)
deriving DecidableEq

/-- The open rows, and the book, newest entry first. -/
structure Ledger (κ ρ ω : Type*) where
  rows : AList fun _ : κ => ρ
  book : List (Ledger.Entry ρ ω)

namespace Ledger

/-- The entry closes the row. -/
def Entry.closes [DecidableEq ρ] (r : ρ) : Entry ρ ω → Bool
  | .opened _ => false
  | .closed r' _ => r' = r

inductive Act (ρ ω : Type*)
  | open (r : ρ)
  | close (r : ρ) (how : ω)

variable [DecidableEq κ] (key : ρ → κ)

inductive Step : Ledger κ ρ ω → Act ρ ω → Ledger κ ρ ω → Prop
  | open {L : Ledger κ ρ ω} {r : ρ} (free : L.rows.lookup (key r) = none)
      (fresh : .opened r ∉ L.book) :
      Step L (.open r) ⟨L.rows.insert (key r) r, .opened r :: L.book⟩
  | close {L : Ledger κ ρ ω} {r : ρ} {how : ω} (h : L.rows.lookup (key r) = some r) :
      Step L (.close r how) ⟨L.rows.erase (key r), .closed r how :: L.book⟩

def machine : Machine.System (Ledger κ ρ ω) (Act ρ ω) where
  init L := L.rows = ∅ ∧ L.book = []
  step := Step key

variable [DecidableEq ρ]

/-- The table is what the book says is open, and nothing is closed twice. -/
structure Balanced (L : Ledger κ ρ ω) : Prop where
  rows : ∀ k r, L.rows.lookup k = some r ↔
    key r = k ∧ .opened r ∈ L.book ∧ ∀ how, .closed r how ∉ L.book
  opened : ∀ r how, .closed r how ∈ L.book → .opened r ∈ L.book
  once : ∀ r, L.book.countP (Entry.closes r) ≤ 1

variable {key}

theorem countP_closes_eq_zero {book : List (Entry ρ ω)} {r : ρ} (h : ∀ how, .closed r how ∉ book) :
    book.countP (Entry.closes r) = 0 := by
  refine List.countP_eq_zero.mpr fun e he hcloses => ?_
  cases e with
  | opened => cases hcloses
  | closed r' how =>
    obtain rfl : r' = r := by simpa [Entry.closes] using hcloses
    exact h how he

theorem balanced {L : Ledger κ ρ ω} (h : Reach (machine key) L) : Balanced key L := by
  refine h.invariant (fun L hL => ?_) fun L a L' _ ih _ hs => ?_
  · obtain ⟨hrows, hbook⟩ := hL
    exact ⟨by simp [hrows, hbook], by simp [hbook], by simp [hbook]⟩
  cases hs with
  | @«open» r free fresh =>
    -- A row that was closed was opened before.
    have hnever : ∀ how, .closed r how ∉ L.book := fun how hmem => fresh (ih.opened r how hmem)
    refine ⟨fun k r' => ?_, fun r' how hmem => ?_, fun r' => ?_⟩
    · rw [Table.lookup_insert]
      simp only [List.mem_cons, Entry.opened.injEq, reduceCtorEq, false_or]
      split_ifs with hk
      · constructor
        · intro heq
          cases heq
          exact ⟨hk, .inl rfl, hnever⟩
        · intro hr
          obtain ⟨hk', rfl | hopened, hopen⟩ := hr
          · rfl
          · rw [hk, (ih.rows k r').mpr ⟨hk', hopened, hopen⟩] at free
            cases free
      · rw [ih.rows]
        refine ⟨fun hr => ⟨hr.1, .inr hr.2.1, hr.2.2⟩, fun hr => ⟨hr.1, ?_, hr.2.2⟩⟩
        rcases hr.2.1 with rfl | hopened
        · exact absurd hr.1 hk
        · exact hopened
    · exact List.mem_cons_of_mem _ (ih.opened r' how (by simpa using hmem))
    · rw [List.countP_cons_of_neg (by simp [Entry.closes])]
      exact ih.once r'
  | @close r how hrow =>
    obtain ⟨-, hopened, hopen⟩ := (ih.rows _ r).mp hrow
    refine ⟨fun k r' => ?_, fun r' how' hmem => ?_, fun r' => ?_⟩
    · rw [Table.lookup_erase_eq_some, ih.rows]
      simp only [List.mem_cons, reduceCtorEq, false_or, Entry.closed.injEq, not_or]
      constructor
      · intro hr
        obtain ⟨hne, hk, hmem, hr⟩ := hr
        exact ⟨hk, hmem, fun how' => ⟨fun heq => hne (heq.1 ▸ hk), hr how'⟩⟩
      · intro hr
        obtain ⟨hk, hmem, hr⟩ := hr
        refine ⟨fun heq => ?_, hk, hmem, fun how' => (hr how').2⟩
        -- Two rows under one key are one row.
        have hsame := (ih.rows k r').mpr ⟨hk, hmem, fun how' => (hr how').2⟩
        rw [← heq, hrow] at hsame
        exact (hr how).1 ⟨(Option.some.inj hsame).symm, rfl⟩
    · apply List.mem_cons_of_mem _
      rcases List.mem_cons.mp hmem with heq | hmem
      · cases heq
        exact hopened
      · exact ih.opened r' how' hmem
    · by_cases hr : r = r'
      · subst hr
        rw [List.countP_cons_of_pos (by simp [Entry.closes]), countP_closes_eq_zero hopen]
      · rw [List.countP_cons_of_neg (by simp [Entry.closes, hr])]
        exact ih.once r'

theorem Balanced.count_le_one [DecidableEq ω] {L : Ledger κ ρ ω} (h : Balanced key L) (r : ρ)
    (how : ω) : L.book.count (.closed r how) ≤ 1 := by
  refine (List.countP_mono_left fun e _ he => ?_).trans (h.once r)
  rw [beq_iff_eq.mp he]
  simp [Entry.closes]

/-- A row is not closed for two reasons. -/
theorem Balanced.exclusive {L : Ledger κ ρ ω} (h : Balanced key L) {r : ρ} {how how' : ω}
    (hne : how ≠ how') (hmem : .closed r how ∈ L.book) : .closed r how' ∉ L.book := by
  intro hmem'
  have honce := h.once r
  obtain ⟨newer, older, hbook⟩ := List.append_of_mem hmem
  rw [hbook] at honce hmem'
  have hrest : .closed r how' ∈ newer ∨ .closed r how' ∈ older := by
    rcases List.mem_append.mp hmem' with hmem' | hmem'
    · exact .inl hmem'
    · refine .inr ((List.mem_cons.mp hmem').resolve_left fun heq => hne ?_)
      cases heq
      rfl
  have hpos : ∀ {l : List (Entry ρ ω)}, .closed r how' ∈ l → 0 < l.countP (Entry.closes r) :=
    fun hl => List.countP_pos_iff.mpr ⟨_, hl, by simp [Entry.closes]⟩
  rw [List.countP_append, List.countP_cons_of_pos (by simp [Entry.closes])] at honce
  rcases hrest with hl | hl <;> have := hpos hl <;> omega

theorem run_closeAll {L : Ledger κ ρ ω} (h : Reach (machine key) L) (how : ω) :
    Run (machine key) anyStep L
      ⟨∅, ((L.rows.entries.map Sigma.snd).map (.closed · how)).reverse ++ L.book⟩ := by
  obtain ⟨⟨entries, hnodup⟩, book⟩ := L
  induction entries generalizing book with
  | nil => exact .refl _
  | cons e entries ih =>
    have hrow : (⟨e :: entries, hnodup⟩ : AList fun _ : κ => ρ).lookup e.1 = some e.2 :=
      Table.lookup_eq_some.mpr List.mem_cons_self
    have hkey : key e.2 = e.1 := (((balanced h).rows _ _).mp hrow).1
    have hclose : (machine key).step ⟨⟨e :: entries, hnodup⟩, book⟩ (.close e.2 how)
        ⟨⟨entries, (List.nodupKeys_cons.mp hnodup).2⟩, .closed e.2 how :: book⟩ := by
      have hstep : Step key ⟨⟨e :: entries, hnodup⟩, book⟩ (.close e.2 how) _ :=
        .close (by rw [hkey]; exact hrow)
      have herase : (⟨e :: entries, hnodup⟩ : AList fun _ : κ => ρ).erase (key e.2) =
          ⟨entries, (List.nodupKeys_cons.mp hnodup).2⟩ := by
        rw [hkey]
        exact AList.ext (List.kerase_cons_eq rfl)
      rw [herase] at hstep
      exact hstep
    have hrest := ih (.closed e.2 how :: book) (List.nodupKeys_cons.mp hnodup).2
      (h.step trivial hclose)
    refine (Run.single trivial hclose).trans ?_
    simpa using hrest

end Ledger
