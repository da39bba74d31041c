import Mathlib.Data.Set.Function

namespace UndoLog

/-!
# Undo logs over a blocked address space

The address space `α` is cut into blocks by `blk : α → γ`.  Before a block is modified its
content is appended to a log; replaying the log from its newest entry back to its oldest
undoes every modification.

* `restore` — put one logged block back;
* `rollback` — replay a log, newest entry first (the log itself is kept oldest first, in the
  order it was appended);
* `rollback_append_logged` — **the step rule**: appending the current content of block `c`
  and then changing memory inside `c` only leaves the rolled-back value of an address
  unchanged.  An invariant "`rollback log m` is the checkpoint" is carried over a whole run
  by this rule alone, however often a block is logged;
* `rollback_of_logged`, `rollback_of_not_logged` — where the replay alone decides the value, and
  where the memory does.
-/

variable {α β γ : Type*} [DecidableEq γ] (blk : α → γ)

/-- Put the block of one log entry back to its logged content. -/
def restore (e : γ × (α → β)) (m : α → β) : α → β := fun a =>
  if blk a = e.1 then e.2 a else m a

/-- Replay a log (oldest entry first in the list) from its newest entry to its oldest. -/
def rollback (log : List (γ × (α → β))) (m : α → β) : α → β := log.foldr (restore blk) m

variable {blk}

@[simp] theorem rollback_cons (e : γ × (α → β)) (log : List (γ × (α → β))) (m : α → β) :
    rollback blk (e :: log) m = restore blk e (rollback blk log m) := rfl

/-- Replaying a log with one more entry starts with that entry. -/
theorem rollback_concat (log : List (γ × (α → β))) (e : γ × (α → β)) (m : α → β) :
    rollback blk (log ++ [e]) m = rollback blk log (restore blk e m) := by
  simp [rollback]

/-- The replayed value of an address depends on the memory at that address only. -/
theorem rollback_congr (log : List (γ × (α → β))) {m m' : α → β} {a : α} (h : m a = m' a) :
    rollback blk log m a = rollback blk log m' a := by
  induction log with
  | nil => exact h
  | cons e log ih =>
    simp only [rollback_cons, restore]
    split
    · rfl
    · exact ih

/-- **Step rule.** Log the content of block `c`, then change memory inside `c` only: what the
    replay yields at `a` does not change.  `snap` need only agree with the memory on `c`. -/
theorem rollback_append_logged (log : List (γ × (α → β))) {c : γ} {snap m m' : α → β} {a : α}
    (hsnap : blk a = c → snap a = m a) (hframe : blk a ≠ c → m' a = m a) :
    rollback blk (log ++ [(c, snap)]) m' a = rollback blk log m a := by
  rw [rollback_concat]
  apply rollback_congr
  unfold restore
  split
  · rename_i hc; exact hsnap hc
  · rename_i hc; exact hframe hc

/-- Where the block was logged, the replay does not look at the memory at all. -/
theorem rollback_of_logged {log : List (γ × (α → β))} {a : α} (m m' : α → β)
    (h : ∃ e ∈ log, e.1 = blk a) : rollback blk log m a = rollback blk log m' a := by
  induction log with
  | nil => obtain ⟨e, he, _⟩ := h; simp at he
  | cons e log ih =>
    simp only [rollback_cons, restore]
    split
    · rfl
    · rename_i hne
      apply ih
      obtain ⟨e', he', hb⟩ := h
      rcases List.mem_cons.mp he' with rfl | hmem
      · exact absurd hb.symm hne
      · exact ⟨e', hmem, hb⟩

/-- Where the block was not logged, the replay leaves the memory alone. -/
theorem rollback_of_not_logged {log : List (γ × (α → β))} {a : α} (m : α → β)
    (h : ∀ e ∈ log, e.1 ≠ blk a) : rollback blk log m a = m a := by
  induction log with
  | nil => rfl
  | cons e log ih =>
    rw [List.forall_mem_cons] at h
    rw [rollback_cons, restore, if_neg h.1.symm]
    exact ih h.2

end UndoLog
