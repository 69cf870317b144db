import UnitAlgebra.Proofs.Writing
import UnitAlgebra.Session

/-!
# What a session can hold

A session that starts from an obtainable expression holds nothing else: the operand of a draft is
made by the operations of `Obtainable` (`obtainable_resolve`), and so is the expression that a step
answers (`obtainable_of_answer`). A step keeps this (`isObtainable_next`), and so does a run of any
length (`obtainable_of_mem_run`). So the text of the current expression can be read again at any
time, and nothing changes (`answer_reread`).
-/

namespace UnitAlgebra

/-- The expressions of a history are obtainable. -/
def History.IsObtainable (history : History) : Prop :=
  ∀ e ∈ history, Obtainable (.expression e)

/-- An expression that is recalled is obtainable, also past the end of the history. -/
theorem History.IsObtainable.entry {history : History} (h : history.IsObtainable) (index : Nat) :
    Obtainable (.expression (history.entry index)) := by
  unfold History.entry
  rw [List.getD_eq_getElem?_getD]
  cases hget : history[index]? with
  | none => exact .one
  | some e => exact h e (List.mem_of_getElem? hget)

namespace Draft

mutual

/-- The operand of a draft is obtainable. -/
theorem obtainable_resolve {history : History} (hist : history.IsObtainable) :
    ∀ (x : Draft) {y : Operand}, x.resolve history = .ok y → Obtainable (.operand y)
  | .text s, _, h => by
    cases h
    exact .text s
  | .expression x, _, h => by
    rw [resolve] at h
    split at h
    · next y hy =>
      obtain ⟨e, he, rfl⟩ := map_eq_ok_iff.1 h
      exact .expression (.toExpression (obtainable_resolve hist x hy) he)
    · cases h
  | .term base exponent, _, h => by
    obtain ⟨t, ht, rfl⟩ := map_eq_ok_iff.1 h
    exact .term (.ofBase ht)
  | .terms ts, _, h => by
    obtain ⟨us, hus, rfl⟩ := map_eq_ok_iff.1 h
    refine .terms fun t ht => ?_
    obtain ⟨_, -, hbase⟩ := exists_of_mapM_eq_ok hus t ht
    exact .ofBase hbase
  | .pair base exponent, _, h => by
    cases h
    exact .pair base exponent
  | .list items, _, h => by
    rw [resolve] at h
    obtain ⟨ys, hys, rfl⟩ := map_eq_ok_iff.1 h
    exact .list (obtainable_resolveItems hist items hys)
  | .number x, _, h => by
    cases h
    exact .number x
  | .recalled index, _, h => by
    cases h
    exact .expression (hist.entry index)

/-- The operands of a list of drafts are obtainable. -/
theorem obtainable_resolveItems {history : History} (hist : history.IsObtainable) :
    ∀ (xs : List Draft) {ys : List Operand}, resolveItems history xs = .ok ys →
      ∀ y ∈ ys, Obtainable (.operand y)
  | [], _, h => by
    cases h
    simp
  | x :: xs, _, h => by
    rw [resolveItems] at h
    split at h
    · cases h
    · next y hy =>
      split at h
      · cases h
      · next ys hys =>
        cases h
        exact List.forall_mem_cons.2
          ⟨obtainable_resolve hist x hy, obtainable_resolveItems hist xs hys⟩

end

end Draft

namespace Session

/-- An answer is an expression exactly when its computation gives it. -/
theorem ofExcept_eq_expression_iff {x : Except Failure Expression} {e : Expression} :
    Answer.ofExcept x = .expression e ↔ x = .ok e := by
  cases x <;> simp [Answer.ofExcept]

/-- An expression that follows from a draft follows from its operand. -/
theorem withOperand_eq_expression_iff {s : Session} {x : Draft}
    {f : Operand → Except Failure Expression} {e : Expression} :
    s.withOperand x f = .expression e ↔ ∃ y, x.resolve s.history = .ok y ∧ f y = .ok e :=
  ofExcept_eq_expression_iff.trans bind_eq_ok_iff

/-- The current expression is part of the history. -/
theorem current_mem_history (s : Session) : s.current ∈ s.history := by
  simp [history]

/-- An expression that a step answers is obtainable. -/
theorem obtainable_of_answer {s : Session} (hist : s.history.IsObtainable) {step : Step}
    {e : Expression} (h : s.answer step = .expression e) : Obtainable (.expression e) := by
  have hcurrent : Obtainable (.expression s.current) := hist _ s.current_mem_history
  have hoperand : ∀ {x : Draft} {f : Operand → Except Failure Expression},
      s.withOperand x f = .expression e → ∃ y, Obtainable (.operand y) ∧ f y = .ok e := by
    intro x f hx
    obtain ⟨y, hy, he⟩ := withOperand_eq_expression_iff.1 hx
    exact ⟨y, Draft.obtainable_resolve hist x hy, he⟩
  cases step with
  | multiply x =>
    obtain ⟨y, hy, he⟩ := hoperand h
    exact .multipliedBy hcurrent hy he
  | divide x =>
    obtain ⟨y, hy, he⟩ := hoperand h
    exact .dividedBy hcurrent hy he
  | raise x =>
    obtain ⟨y, hy, he⟩ := hoperand h
    exact .raisedTo hcurrent hy he
  | timesRecalled index =>
    cases h
    exact .mul hcurrent (hist.entry index)
  | overRecalled index =>
    cases h
    exact .div hcurrent (hist.entry index)
  | recalledTimes index =>
    cases h
    exact .mul (hist.entry index) hcurrent
  | recalledOver index =>
    cases h
    exact .div (hist.entry index) hcurrent
  | power n =>
    cases h
    exact .pow n hcurrent
  | invert =>
    cases h
    exact .inverse hcurrent
  | replace x =>
    obtain ⟨y, hy, he⟩ := hoperand h
    exact .toExpression hy he
  | replaceByTerm x =>
    obtain ⟨y, hy, he⟩ := hoperand h
    obtain ⟨t, ht, rfl⟩ := map_eq_ok_iff.1 he
    exact .ofTerm (.toTerm hy ht)
  | goBack index =>
    cases h
    exact hist.entry index
  | reread => exact .toExpression (.text _) (ofExcept_eq_expression_iff.1 h)
  | reset =>
    cases h
    exact .one
  -- a question is answered by no expression
  | isEqual index => cases h
  | number => cases h
  | exponentOf base => cases h

/-- A step keeps the expressions of a session obtainable. -/
theorem isObtainable_next {s : Session} (hist : s.history.IsObtainable) (step : Step) :
    (s.next (s.answer step)).history.IsObtainable := by
  have hnext : Obtainable (.expression ((s.answer step).current s.current)) := by
    cases hanswer : s.answer step with
    | expression e => exact obtainable_of_answer hist hanswer
    | _ => exact hist _ s.current_mem_history
  exact List.forall_mem_append.2 ⟨hist, List.forall_mem_singleton.2 hnext⟩

/-- Every expression that a run answers is obtainable. -/
theorem obtainable_of_mem_run {s : Session} (hist : s.history.IsObtainable) (steps : List Step) :
    ∀ e, .expression e ∈ s.run steps → Obtainable (.expression e) := by
  induction steps generalizing s with
  | nil => simp [run]
  | cons step steps ih =>
    intro e he
    rw [run, List.mem_cons] at he
    rcases he with he | he
    · exact obtainable_of_answer hist he.symm
    · exact ih (isObtainable_next hist step) e he

/-- Reading the text of the current expression gives the current expression again. -/
theorem answer_reread {s : Session} (hist : s.history.IsObtainable) :
    s.answer .reread = .expression s.current := by
  have hsound := (hist _ s.current_mem_history).isSound
  rw [answer, hsound.toExpression_render, Answer.ofExcept]

end Session

end UnitAlgebra
