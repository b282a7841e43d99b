import LoxLexer.Proofs.Unifying
import LoxLexer.Source.Basic
import Mathlib.Tactic.TFAE

/-!
# `LoxLexer.Proofs.Reloading` — reading once more what was read and saved

Unifying line endings takes one carriage return from the run of them in front of each newline. So a run of
several is not used up: one carriage return and its newline are a line ending of two bytes again, and the next
reading takes the next one. A text comes to rest after as many readings as its longest run has carriage
returns, and after the first reading exactly where no newline has two of them in front.

## Contents
- `runBefore` — so many members and the marker behind them; `runBefore_infix_iterate` — what is left of them.
- `dropBefore_eq_self_iff` — the lists that nothing is dropped from.
- `Reloads`, `reloads_tfae` — the texts that are the same when they are read again.
-/

namespace LoxLexer

/-! ## Runs in front of a marker -/

section RunBefore

variable {α : Type} {x marker a : α} {n : Nat} {rest list : List α}

/-- The marker with `n` times `x` in front of it. -/
def runBefore (x marker : α) (n : Nat) : List α := List.replicate n x ++ [marker]

theorem runBefore_succ (x marker : α) (n : Nat) :
    runBefore x marker (n + 1) = x :: runBefore x marker n := rfl

/-- The lists that start with a marker. -/
theorem runBefore_zero_prefix_iff : runBefore x marker 0 <+: list ↔ list.head? = some marker := by
  cases list with
  | nil => simp [runBefore]
  | cons b rest => simp [runBefore, List.cons_prefix_cons, eq_comm]

theorem runBefore_succ_prefix_cons :
    runBefore x marker (n + 1) <+: a :: rest ↔ a = x ∧ runBefore x marker n <+: rest := by
  rw [runBefore_succ, List.cons_prefix_cons, eq_comm]

/-- What is dropped is the first member of a run of one. -/
theorem runBefore_one_prefix_cons :
    runBefore x marker 1 <+: a :: rest ↔ a = x ∧ rest.head? = some marker := by
  rw [runBefore_succ_prefix_cons, runBefore_zero_prefix_iff]

/-- A run of one is no longer run. -/
theorem not_runBefore_prefix_of_drop (hne : marker ≠ x) (h : a = x ∧ rest.head? = some marker) :
    ¬ runBefore x marker (n + 2) <+: a :: rest := by
  obtain ⟨more, hmore⟩ := List.head?_eq_some_iff.mp h.2
  rw [runBefore_succ_prefix_cons, hmore, runBefore_succ_prefix_cons]
  exact fun hprefix => hne hprefix.2.1

variable [DecidableEq α]

/-- A marker comes first when it was first, or had one member in front that is dropped. -/
theorem head?_dropBefore_eq_marker (hne : marker ≠ x) :
    (dropBefore x marker list).head? = some marker ↔
      list.head? = some marker ∨ runBefore x marker 1 <+: list := by
  cases list with
  | nil => simp [dropBefore, runBefore]
  | cons a rest =>
    rw [runBefore_one_prefix_cons]
    by_cases hdrop : a = x ∧ rest.head? = some marker
    · obtain ⟨more, rfl⟩ := List.head?_eq_some_iff.mp hdrop.2
      rw [dropBefore_of_drop hdrop, dropBefore_cons_of_ne hne]
      exact iff_of_true rfl (Or.inr hdrop)
    · rw [dropBefore_of_keep hdrop, or_iff_left hdrop]
      rfl

/-- **A run at the start loses one member.** -/
theorem runBefore_prefix_dropBefore (hne : marker ≠ x) :
    runBefore x marker (n + 1) <+: dropBefore x marker list ↔ runBefore x marker (n + 2) <+: list := by
  induction list generalizing n with
  | nil => simp [dropBefore, runBefore]
  | cons a rest ih =>
    by_cases hdrop : a = x ∧ rest.head? = some marker
    · obtain ⟨more, rfl⟩ := List.head?_eq_some_iff.mp hdrop.2
      rw [dropBefore_of_drop hdrop, dropBefore_cons_of_ne hne, runBefore_succ_prefix_cons]
      exact iff_of_false (fun h => hne h.1) (not_runBefore_prefix_of_drop hne hdrop)
    · rw [dropBefore_of_keep hdrop, runBefore_succ_prefix_cons, runBefore_succ_prefix_cons,
        and_congr_right_iff]
      intro ha
      cases n with
      | zero =>
        -- the member that is kept has no marker behind it
        rw [runBefore_zero_prefix_iff, head?_dropBefore_eq_marker hne]
        exact or_iff_right fun hmarker => hdrop ⟨ha, hmarker⟩
      | succ n => exact ih

/-- **Every run loses one member.** -/
theorem runBefore_infix_dropBefore (hne : marker ≠ x) :
    runBefore x marker (n + 1) <:+: dropBefore x marker list ↔ runBefore x marker (n + 2) <:+: list := by
  induction list with
  | nil => simp [dropBefore, runBefore]
  | cons a rest ih =>
    rw [(List.infix_cons_iff : runBefore x marker (n + 2) <:+: a :: rest ↔ _), ← ih]
    by_cases hdrop : a = x ∧ rest.head? = some marker
    · rw [dropBefore_of_drop hdrop, or_iff_right (not_runBefore_prefix_of_drop hne hdrop)]
    · rw [← runBefore_prefix_dropBefore hne, dropBefore_of_keep hdrop, List.infix_cons_iff]

/-- Dropping `k` times takes `k` members from every run. -/
theorem runBefore_infix_iterate (hne : marker ≠ x) (k : Nat) :
    runBefore x marker (n + 1) <:+: (dropBefore x marker)^[k] list ↔
      runBefore x marker (n + 1 + k) <:+: list := by
  induction k generalizing n with
  | zero => rfl
  | succ k ih =>
    rw [Function.iterate_succ_apply', runBefore_infix_dropBefore hne, ih]
    have hcount : n + 1 + 1 + k = n + 1 + (k + 1) := by omega
    rw [hcount]

/-- **Nothing is dropped** where no `x` has a marker behind it. -/
theorem dropBefore_eq_self_iff :
    dropBefore x marker list = list ↔ ¬ runBefore x marker 1 <:+: list := by
  induction list with
  | nil => simp [dropBefore, runBefore]
  | cons a rest ih =>
    rw [List.infix_cons_iff, runBefore_one_prefix_cons]
    by_cases hdrop : a = x ∧ rest.head? = some marker
    · have hshort := (dropBefore_sublist x marker rest).length_le
      rw [dropBefore_of_drop hdrop]
      refine iff_of_false ?_ (not_not_intro (Or.inl hdrop))
      intro heq
      rw [heq, List.length_cons] at hshort
      omega
    · rw [dropBefore_of_keep hdrop, List.cons_inj_right, ih, or_iff_right hdrop]

end RunBefore

/-! ## Reading again -/

theorem unifyNewlines_eq : unifyNewlines = dropBefore carriageReturn newline :=
  funext unifyNewlines_eq_dropBefore

/-- Carriage returns in front of a newline, after a number of readings. -/
theorem runBefore_infix_unifyNewlines {raw : Bytes} (n k : Nat) :
    runBefore carriageReturn newline (n + 1) <:+: unifyNewlines^[k] raw ↔
      runBefore carriageReturn newline (n + 1 + k) <:+: raw := by
  rw [unifyNewlines_eq, runBefore_infix_iterate (by decide)]

/-- **A text comes to rest** after as many readings as carriage returns are in front of a newline. -/
theorem unifyNewlines_iterate_eq_iff (raw : Bytes) (k : Nat) :
    unifyNewlines (unifyNewlines^[k] raw) = unifyNewlines^[k] raw ↔
      ¬ runBefore carriageReturn newline (k + 1) <:+: raw := by
  have hself : unifyNewlines (unifyNewlines^[k] raw) = unifyNewlines^[k] raw ↔
      ¬ runBefore carriageReturn newline 1 <:+: unifyNewlines^[k] raw := by
    rw [unifyNewlines_eq_dropBefore, dropBefore_eq_self_iff]
  rw [hself, runBefore_infix_unifyNewlines 0, Nat.zero_add, Nat.add_comm]

/-- Whatever is read from the raw bytes and saved is the same when it is read again. -/
def Reloads (raw : Bytes) : Prop :=
  ∀ {read later : Bytes → Option Bytes} {path there text : Bytes}, read path = some raw →
    readSource read path = .ok text → later there = some text → readSource later there = .ok text

theorem readSource_eq_ok {read : Bytes → Option Bytes} {path raw : Bytes} (h : read path = some raw)
    (text : Bytes) : readSource read path = .ok text ↔ unifyNewlines raw = text := by
  rw [readSource, h, Except.ok.injEq]

theorem reloads_iff (raw : Bytes) :
    Reloads raw ↔ unifyNewlines (unifyNewlines raw) = unifyNewlines raw := by
  constructor
  · intro hreloads
    -- the same is found whatever the path
    let read : Bytes → Option Bytes := fun _ => some raw
    let later : Bytes → Option Bytes := fun _ => some (unifyNewlines raw)
    have hlater : readSource later [] = .ok (unifyNewlines raw) := @hreloads read later [] [] _ rfl rfl rfl
    exact (readSource_eq_ok rfl _).mp hlater
  · intro hagain read later path there text hread htext hlater
    rw [readSource_eq_ok hread] at htext
    rw [readSource_eq_ok hlater, ← htext]
    exact hagain

/-- **What is read is at rest** where no newline has two carriage returns in front of it, and there only.
    Then no pair of a carriage return and a newline is left, and reading again gives the same text. -/
theorem reloads_tfae (raw : Bytes) :
    List.TFAE [¬ [carriageReturn, carriageReturn, newline] <:+: raw,
      ¬ [carriageReturn, newline] <:+: unifyNewlines raw,
      unifyNewlines (unifyNewlines raw) = unifyNewlines raw,
      Reloads raw] := by
  have hpair : [carriageReturn, newline] <:+: unifyNewlines raw ↔
      [carriageReturn, carriageReturn, newline] <:+: raw := runBefore_infix_unifyNewlines 0 1
  have hagain : unifyNewlines (unifyNewlines raw) = unifyNewlines raw ↔
      ¬ [carriageReturn, carriageReturn, newline] <:+: raw := unifyNewlines_iterate_eq_iff raw 1
  tfae_have 2 ↔ 1 := not_congr hpair
  tfae_have 3 ↔ 1 := hagain
  tfae_have 4 ↔ 3 := reloads_iff raw
  tfae_finish

/-- Two carriage returns in front of a newline: the one that is kept makes a pair again. -/
theorem not_reloads_twoReturns :
    let raw := [carriageReturn, carriageReturn, newline]
    [carriageReturn, newline] <:+: unifyNewlines raw ∧
      unifyNewlines (unifyNewlines raw) ≠ unifyNewlines raw ∧ ¬ Reloads raw := by
  intro raw
  have hagain : unifyNewlines (unifyNewlines raw) ≠ unifyNewlines raw := by decide
  refine ⟨by decide, hagain, ?_⟩
  rw [reloads_iff]
  exact hagain

end LoxLexer
