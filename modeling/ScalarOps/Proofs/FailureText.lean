import ScalarOps.Proofs.Failure
import ScalarOps.Dispatch

/-! A message is read from its ends. Its first two words say which failure it reports, and the rest follows between
    fixed words. A selector may hold anything, blanks, quotes and fixed words included, but it is the only such part:
    all others are single words, so they come off at a blank (`quoted_inj`, `counted_inj`). -/

namespace ScalarOps

/-! ### Words -/

/-- A text without a blank. -/
def IsWord (s : String) : Prop := ' ' ∉ s.toList

instance (s : String) : Decidable (IsWord s) := inferInstanceAs (Decidable (_ ∉ _))

/-- The first separator splits a list in one way only. -/
theorem split_at_first_inj {α : Type} {sep : α} {xs ys us vs : List α} (hxs : sep ∉ xs) (hys : sep ∉ ys)
    (h : xs ++ sep :: us = ys ++ sep :: vs) : xs = ys ∧ us = vs := by
  induction xs generalizing ys with
  | nil =>
    cases ys with
    | nil => exact ⟨rfl, (List.cons.inj h).2⟩
    | cons y ys =>
      obtain ⟨rfl, -⟩ := List.cons.inj h
      exact absurd List.mem_cons_self hys
  | cons x xs ih =>
    cases ys with
    | nil =>
      obtain ⟨rfl, -⟩ := List.cons.inj h
      exact absurd List.mem_cons_self hxs
    | cons y ys =>
      obtain ⟨rfl, htail⟩ := List.cons.inj h
      obtain ⟨rfl, hrest⟩ := ih (List.not_mem_of_not_mem_cons hxs) (List.not_mem_of_not_mem_cons hys) htail
      exact ⟨rfl, hrest⟩

namespace IsWord

variable {w w' s s' : String}

theorem append (h : IsWord w) (h' : IsWord w') : IsWord (w ++ w') := by
  rw [IsWord, String.toList_append, List.mem_append]
  exact not_or.mpr ⟨h, h'⟩

theorem first_inj (hw : IsWord w) (hw' : IsWord w') (h : w ++ " " ++ s = w' ++ " " ++ s') : w = w' ∧ s = s' := by
  have hlist : w.toList ++ ' ' :: s.toList = w'.toList ++ ' ' :: s'.toList := by
    simpa using congrArg String.toList h
  obtain ⟨hword, hrest⟩ := split_at_first_inj hw hw' hlist
  exact ⟨String.toList_inj.mp hword, String.toList_inj.mp hrest⟩

theorem last_inj (hw : IsWord w) (hw' : IsWord w') (h : s ++ " " ++ w = s' ++ " " ++ w') : s = s' ∧ w = w' := by
  have hlist : w.toList.reverse ++ ' ' :: s.toList.reverse = w'.toList.reverse ++ ' ' :: s'.toList.reverse := by
    simpa using congrArg (fun t => t.toList.reverse) h
  obtain ⟨hword, hrest⟩ := split_at_first_inj (mt List.mem_reverse.mp hw) (mt List.mem_reverse.mp hw') hlist
  exact ⟨String.toList_inj.mp (List.reverse_inj.mp hrest), String.toList_inj.mp (List.reverse_inj.mp hword)⟩

theorem repr (n : Nat) : IsWord n.repr := by
  intro hblank
  rw [Nat.toList_repr] at hblank
  exact absurd (Nat.isDigit_of_mem_toDigits (by decide) (by decide) hblank) (by decide)

theorem className (v : Value) : IsWord v.className := by
  have hmem : v.className ∈ ["NilClass", "TrueClass", "FalseClass", "Integer", "Float"] := by
    rcases v with _ | (_ | _) | _ | _ <;> simp [Value.className]
  have hall : ∀ c ∈ ["NilClass", "TrueClass", "FalseClass", "Integer", "Float"], IsWord c := by decide
  exact hall _ hmem

end IsWord

theorem repr_inj {m n : Nat} (h : m.repr = n.repr) : m = n := by
  have hdigits := congrArg (fun s => Nat.ofDigitChars 10 s.toList 0) h
  simpa only [Nat.toList_repr, Nat.ofDigitChars_ten_toDigits] using hdigits

/-! ### Operators in messages -/

/-- How a failure names the operator that is not defined. -/
def Operator.reportedName : Operator → String
  | unary op => op.selector
  | binary op => op.symbol

/-- The at signs tell the unary signs from the binary ones, so no two operators are named alike. -/
theorem Operator.reportedName_inj {op op' : Operator} (h : op.reportedName = op'.reportedName) : op = op' := by
  have hall : ∀ op ∈ all, ∀ op' ∈ all, op.reportedName = op'.reportedName → op = op' := by decide
  exact hall op op.mem_all op' op'.mem_all h

namespace OperatorError

/-! ### Class names in failures -/

/-- The names that a failure takes for classes. -/
def classNames : OperatorError → List String
  | dividedByZero | wrongArity _ _ _ => []
  | undefinedUnary _ className | undefinedBinary _ className | undefinedMethod _ className => [className]
  | notCoercible source target => [source, target]
  | notComparable left right => [left, right]

/-- The names that a failure takes for classes are those of values. -/
def NamesValues (e : OperatorError) : Prop := ∀ c ∈ e.classNames, ∃ v : Value, v.className = c

theorem NamesValues.isWord {e : OperatorError} (he : e.NamesValues) : ∀ c ∈ e.classNames, IsWord c := by
  intro c hc
  obtain ⟨v, rfl⟩ := he c hc
  exact .className v

theorem NamesValues.of_map {e : OperatorError} (vs : List Value) (h : e.classNames = vs.map Value.className) :
    e.NamesValues := by
  intro c hc
  rw [h] at hc
  obtain ⟨v, -, hv⟩ := List.mem_map.mp hc
  exact ⟨v, hv⟩

end OperatorError

section Occurring

variable {e : OperatorError}

theorem UnaryOp.namesValues_of_eval_eq_error {op : UnaryOp} {v : Value} (h : op.eval v = .error e) :
    e.NamesValues := by
  obtain ⟨rfl, -⟩ := eval_eq_error_iff.mp h
  exact .of_map [v] rfl

namespace BinaryOp

variable {op : BinaryOp} {l r : Value}

theorem namesValues_mismatch (op : BinaryOp) (l r : Value) : (op.mismatch l r).NamesValues := by
  unfold mismatch
  split
  · exact .of_map [l] rfl
  · split
    · exact .of_map [l, r] rfl
    · exact .of_map [r, l] rfl

theorem namesValues_of_eval_eq_error (h : op.eval l r = .error e) : e.NamesValues := by
  cases op with
  | connective _ | eq | notEq | cmp => cases h
  -- The left operand is blamed before the right one.
  | bit b =>
    by_cases hl : ∃ m, l = .int m
    · obtain ⟨m, rfl⟩ := hl
      by_cases hr : ∃ n, r = .int n
      · obtain ⟨n, rfl⟩ := hr
        cases h
      · rw [eval_bit_of_right b m (not_exists.mp hr)] at h
        cases h
        exact .of_map [r, .int m] rfl
    · rw [eval_bit_of_left b r (not_exists.mp hl)] at h
      cases h
      exact .of_map [l] rfl
  | arith a =>
    by_cases hnum : l.isNumeric = true ∧ r.isNumeric = true
    · obtain ⟨rfl, -⟩ := (eval_arith_eq_error_iff hnum.1 hnum.2).mp h
      exact .of_map [] rfl
    · rw [eval_eq_mismatch (Or.inl ⟨a, rfl⟩) hnum] at h
      cases h
      exact namesValues_mismatch _ l r
  | relation c =>
    by_cases hnum : l.isNumeric = true ∧ r.isNumeric = true
    · obtain ⟨t, ht⟩ := exists_eval_relation c hnum.1 hnum.2
      rw [ht] at h
      cases h
    · rw [eval_eq_mismatch (Or.inr ⟨c, rfl⟩) hnum] at h
      cases h
      exact namesValues_mismatch _ l r

end BinaryOp

/-- Whatever is sent to a value, a failure names classes of values only. -/
theorem Value.namesValues_of_send_eq_error {receiver : Value} {selector : String} {args : List Value}
    (h : receiver.send selector args = .error e) : e.NamesValues := by
  unfold send at h
  split at h
  · cases h
    exact .of_map [receiver] rfl
  · split at h
    · exact UnaryOp.namesValues_of_eval_eq_error h
    · exact BinaryOp.namesValues_of_eval_eq_error h
    · cases h
      exact .of_map [] rfl

end Occurring

namespace OperatorError

/-! ### The words of a message -/

/-- The end of a message about a name in quotes and a class. -/
def quoted (name className : String) : String := "'" ++ name ++ "' for" ++ " " ++ className

/-- The end of a message about numbers of arguments. -/
def counted (selector : String) (expected given : Nat) : String :=
  "of arguments to '" ++ selector ++ "' (given" ++ " " ++ given.repr ++ ", expected" ++ " " ++ (expected.repr ++ ")")

theorem quoted_inj {name name' c c' : String} (hc : IsWord c) (hc' : IsWord c') (h : quoted name c = quoted name' c') :
    name = name' ∧ c = c' := by
  obtain ⟨hfront, hclass⟩ := hc.last_inj hc' h
  rw [String.append_left_inj, String.append_right_inj] at hfront
  exact ⟨hfront, hclass⟩

theorem counted_inj {selector selector' : String} {expected expected' given given' : Nat}
    (h : counted selector expected given = counted selector' expected' given') :
    selector = selector' ∧ expected = expected' ∧ given = given' := by
  have hbracket : IsWord ")" := by decide
  have hlast := (IsWord.repr expected).append hbracket
  have hlast' := (IsWord.repr expected').append hbracket
  obtain ⟨hfront, hexpected⟩ := hlast.last_inj hlast' h
  rw [String.append_left_inj] at hfront hexpected
  obtain ⟨hfront, hgiven⟩ := (IsWord.repr given).last_inj (IsWord.repr given') hfront
  rw [String.append_left_inj, String.append_right_inj] at hfront
  exact ⟨hfront, repr_inj hexpected, repr_inj hgiven⟩

/-- The first word of a message. -/
def firstWord : OperatorError → String
  | dividedByZero => "divided"
  | undefinedUnary _ _ | undefinedBinary _ _ | undefinedMethod _ _ => "undefined"
  | notCoercible source _ => source
  | notComparable _ _ => "comparison"
  | wrongArity _ _ _ => "wrong"

/-- The second word of a message, which does not depend on what the failure names. -/
def secondWord : OperatorError → String
  | dividedByZero => "by"
  | undefinedUnary _ _ | undefinedBinary _ _ => "operator"
  | notCoercible _ _ => "can't"
  | notComparable _ _ => "of"
  | undefinedMethod _ _ => "method"
  | wrongArity _ _ _ => "number"

/-- What follows the first two words of a message. -/
def details : OperatorError → String
  | dividedByZero => "0"
  | undefinedUnary op className => quoted op.selector className
  | undefinedBinary op className => quoted op.symbol className
  | notCoercible _ target => "be coerced into " ++ target
  | notComparable left right => left ++ " " ++ ("with " ++ right ++ " failed")
  | undefinedMethod selector className => quoted selector className
  | wrongArity selector expected given => counted selector expected given

theorem message_eq_words (e : OperatorError) :
    e.message = e.firstWord ++ " " ++ (e.secondWord ++ " " ++ e.details) := by
  cases e with
  | dividedByZero => rfl
  | undefinedUnary | undefinedBinary | notCoercible | notComparable | undefinedMethod =>
    unfold message firstWord secondWord details
    apply String.toList_inj.mp
    simp [quoted]
  | wrongArity =>
    unfold message firstWord secondWord details counted
    apply String.toList_inj.mp
    simp

theorem isWord_firstWord {e : OperatorError} (he : e.NamesValues) : IsWord e.firstWord := by
  cases e with
  | notCoercible source target => exact he.isWord source List.mem_cons_self
  | dividedByZero | undefinedUnary | undefinedBinary | notComparable | undefinedMethod | wrongArity =>
    rw [firstWord]
    decide

theorem isWord_secondWord (e : OperatorError) : IsWord e.secondWord := by
  cases e <;> rw [secondWord] <;> decide

/-! ### From the words to the failure -/

/-- The failure of an operator that is not defined on receivers of a class. -/
def undefinedOperator : Operator → String → OperatorError
  | .unary op, className => undefinedUnary op className
  | .binary op, className => undefinedBinary op className

theorem details_undefinedOperator (op : Operator) (className : String) :
    (undefinedOperator op className).details = quoted op.reportedName className := by
  cases op <;> rfl

theorem exists_undefinedOperator {e : OperatorError} (h : e.secondWord = "operator") :
    ∃ op className, e = undefinedOperator op className := by
  cases e with
  | undefinedUnary op className => exact ⟨.unary op, className, rfl⟩
  | undefinedBinary op className => exact ⟨.binary op, className, rfl⟩
  | dividedByZero | notCoercible | notComparable | undefinedMethod | wrongArity => simp [secondWord] at h

theorem isWord_of_undefinedOperator {op : Operator} {c : String} (he : (undefinedOperator op c).NamesValues) :
    IsWord c := by
  cases op <;> exact he.isWord c List.mem_cons_self

theorem undefinedOperator_inj {op op' : Operator} {c c' : String} (he : (undefinedOperator op c).NamesValues)
    (he' : (undefinedOperator op' c').NamesValues)
    (h : (undefinedOperator op c).details = (undefinedOperator op' c').details) :
    undefinedOperator op c = undefinedOperator op' c' := by
  rw [details_undefinedOperator, details_undefinedOperator] at h
  obtain ⟨hname, rfl⟩ := quoted_inj (isWord_of_undefinedOperator he) (isWord_of_undefinedOperator he') h
  rw [Operator.reportedName_inj hname]

section Identification

variable {e e' : OperatorError}

theorem words_inj (he : e.NamesValues) (he' : e'.NamesValues) (h : e.message = e'.message) :
    e.firstWord = e'.firstWord ∧ e.secondWord = e'.secondWord ∧ e.details = e'.details := by
  rw [message_eq_words, message_eq_words] at h
  obtain ⟨hfirst, hrest⟩ := (isWord_firstWord he).first_inj (isWord_firstWord he') h
  exact ⟨hfirst, (isWord_secondWord e).first_inj (isWord_secondWord e') hrest⟩

theorem eq_of_message_eq (he : e.NamesValues) (he' : e'.NamesValues) (h : e.message = e'.message) : e = e' := by
  obtain ⟨hfirst, hsecond, hdetails⟩ := words_inj he he' h
  by_cases hop : e.secondWord = "operator"
  · obtain ⟨op, c, rfl⟩ := exists_undefinedOperator hop
    obtain ⟨op', c', rfl⟩ := exists_undefinedOperator (hsecond.symm.trans hop)
    exact undefinedOperator_inj he he' hdetails
  have hw := he.isWord
  have hw' := he'.isWord
  cases e <;> cases e'
  case dividedByZero.dividedByZero => rfl
  case notCoercible.notCoercible source target source' target' =>
    have hsource : source = source' := hfirst
    have htarget : target = target' := (String.append_right_inj _).mp hdetails
    rw [hsource, htarget]
  case notComparable.notComparable l r l' r' =>
    obtain ⟨rfl, hright⟩ := (hw l List.mem_cons_self).first_inj (hw' l' List.mem_cons_self) hdetails
    rw [String.append_left_inj, String.append_right_inj] at hright
    rw [hright]
  case undefinedMethod.undefinedMethod selector c selector' c' =>
    obtain ⟨rfl, rfl⟩ := quoted_inj (hw c List.mem_cons_self) (hw' c' List.mem_cons_self) hdetails
    rfl
  case wrongArity.wrongArity =>
    obtain ⟨rfl, rfl, rfl⟩ := counted_inj hdetails
    rfl
  -- Failures of two kinds differ in the second words of their messages; undefined operators are settled above.
  all_goals simp [secondWord] at hsecond hop

theorem message_eq_of_text_eq (h : e.text = e'.text) : e.message = e'.message := by
  have htext : ∀ e : OperatorError, e.text = e.message ++ " " ++ ("(" ++ e.errorClass.name ++ ")") := by
    intro e
    apply String.toList_inj.mp
    simp [text]
  have hclass : ∀ c : ErrorClass, IsWord ("(" ++ c.name ++ ")") := by
    intro c
    cases c <;> decide
  rw [htext, htext] at h
  exact ((hclass _).last_inj (hclass _) h).1

/-- Two failures that name classes of values are the same if they are written alike, whatever selectors and numbers of
    arguments they hold. -/
theorem texts_identify (he : e.NamesValues) (he' : e'.NamesValues) :
    (e.text = e'.text ↔ e = e') ∧ (e.message = e'.message ↔ e = e') :=
  ⟨⟨fun h => eq_of_message_eq he he' (message_eq_of_text_eq h), congrArg text⟩,
    ⟨eq_of_message_eq he he', congrArg message⟩⟩

end Identification

/-- A selector may contain the end of another message. -/
theorem text_of_selector_with_quote :
    (undefinedMethod "f' for Float" "Integer").text ≠ (undefinedMethod "f" "Float").text := by
  intro h
  have heq := (texts_identify (.of_map [.int .zero] rfl) (.of_map [.float .quietNaN] rfl)).1.mp h
  exact absurd heq (by decide)

end OperatorError

end ScalarOps
