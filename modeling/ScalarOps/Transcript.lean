import ScalarOps.Dispatch

/-! A transcript is a chain of sends: each goes to the last entry of the history, may use any earlier entry as an
    argument, and appends its value. A failed send repeats the last entry, and the chain goes on. -/

namespace ScalarOps

/-- An argument of a send in a chain. -/
inductive Argument
  | value (v : Value)
  /-- The entry of the history with an index; 0 is the start. -/
  | entry (index : Nat)
deriving DecidableEq

/-- A selector with its arguments. -/
structure Message where
  selector : String
  args : List Argument
deriving DecidableEq

/-- The values so far: the last one, and those before it in their order. -/
structure Transcript where
  earlier : List Value
  last : Value
deriving DecidableEq

namespace Transcript

/-- The transcript that holds its start alone. -/
def start (v : Value) : Transcript := ⟨[], v⟩

/-- The history from its start to its last entry. -/
def entries (t : Transcript) : List Value := t.earlier ++ [t.last]

/-- The value of an argument; an index behind the last entry gives nil. -/
def argument (t : Transcript) : Argument → Value
  | .value v => v
  | .entry index => t.entries[index]?.getD .nil

/-- What the last entry answers to a message. -/
def answer (t : Transcript) (m : Message) : Except OperatorError Value :=
  t.last.send m.selector (m.args.map t.argument)

/-- The transcript with one more entry: the answer, or the last entry again after a failure. -/
def extend (t : Transcript) : Except OperatorError Value → Transcript
  | .ok v => ⟨t.entries, v⟩
  | .error _ => ⟨t.entries, t.last⟩

/-- The answers to messages in their order. -/
def answers (t : Transcript) : List Message → List (Except OperatorError Value)
  | [] => []
  | m :: ms => t.answer m :: (t.extend (t.answer m)).answers ms

end Transcript

end ScalarOps
