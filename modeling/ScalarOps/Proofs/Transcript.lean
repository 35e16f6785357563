import ScalarOps.Transcript

/-! A send adds one entry to the history, its answer or else the last entry again (`entries_extend`). So the history
    of a whole chain is the answers in their order, each failure filled in by the entry before it (`entries_after`),
    and no later send changes what an index stands for (`argument_after`). -/

namespace ScalarOps
namespace Transcript

variable {t : Transcript}

/-- The transcript behind messages. -/
def after (t : Transcript) : List Message → Transcript
  | [] => t
  | m :: ms => (t.extend (t.answer m)).after ms

/-- The entry that an answer adds behind another one. -/
def entryFor (last : Value) (answer : Except OperatorError Value) : Value := answer.toOption.getD last

/-! ### One send -/

theorem last_extend (t : Transcript) (r : Except OperatorError Value) : (t.extend r).last = entryFor t.last r := by
  cases r <;> rfl

theorem earlier_extend (t : Transcript) (r : Except OperatorError Value) : (t.extend r).earlier = t.entries := by
  cases r <;> rfl

theorem entries_extend (t : Transcript) (r : Except OperatorError Value) :
    (t.extend r).entries = t.entries ++ [entryFor t.last r] := by
  rw [entries, earlier_extend, last_extend]

/-! ### A chain of sends -/

theorem answers_append (t : Transcript) (ms ns : List Message) :
    t.answers (ms ++ ns) = t.answers ms ++ (t.after ms).answers ns := by
  induction ms generalizing t with
  | nil => rfl
  | cons m ms ih => exact congrArg (t.answer m :: ·) (ih (t.extend (t.answer m)))

/-- The history of a chain: the entries up to its start, and one for each answer. -/
theorem entries_after (t : Transcript) (ms : List Message) :
    (t.after ms).entries = t.earlier ++ (t.answers ms).scanl entryFor t.last := by
  induction ms generalizing t with
  | nil => rfl
  | cons m ms ih =>
    rw [after, ih, earlier_extend, last_extend, answers, List.scanl_cons, entries, List.append_assoc]
    rfl

theorem entries_prefix_after (t : Transcript) (ms : List Message) : t.entries <+: (t.after ms).entries := by
  induction ms generalizing t with
  | nil => exact List.prefix_rfl
  | cons m ms ih =>
    refine List.IsPrefix.trans ?_ (ih (t.extend (t.answer m)))
    rw [entries_extend]
    exact List.prefix_append t.entries _

/-- An index of an entry stands for the same value ever after. -/
theorem argument_after {index : Nat} (h : index < t.entries.length) (ms : List Message) :
    (t.after ms).argument (.entry index) = t.argument (.entry index) := by
  obtain ⟨later, hlater⟩ := t.entries_prefix_after ms
  rw [argument, argument, ← hlater, List.getElem?_append_left h]

end Transcript
end ScalarOps
