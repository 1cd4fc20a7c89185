import TreeBackend.Proofs.Text.Tokens
import TreeBackend.Source.Ty

/-!
# The texts of types

The text of a type says which type it is.  Parentheses do not enclose the type of a function,
and commas stand in arrays as well as between parameters, so this is not a matter of finding
the parenthesis that closes.  But a text shows where it ends: however it goes on, a type can be
read off from left to right, and what is left is what came behind it.
-/

namespace TreeBackend.Source.Ty

/-- The character with which the text of a type begins. -/
def initial : Ty → Char
  | .int => 'i'
  | .log => 'l'
  | .str => 's'
  | .void => 'v'
  | .array .. => 'A'
  | .function .. => '('

/-- The characters of the text of a type behind the first one. -/
def afterInitial : Ty → List Char
  | .int => "nt".toList
  | .log => "og".toList
  | .str => "tr".toList
  | .void => "oid".toList
  | .array length element =>
      "RR(".toList ++ ((toString length).toList ++ ',' :: (element.text.toList ++ [')']))
  | .function parameters result =>
      (parametersText parameters).toList ++ ')' :: (" -> ".toList ++ result.text.toList)

theorem toList_text (ty : Ty) : ty.text.toList = ty.initial :: ty.afterInitial := by
  cases ty <;> simp [text, initial, afterInitial]

theorem initial_ne_close (ty : Ty) : ty.initial ≠ ')' := by
  cases ty <;> simp [initial]

/-- Texts that begin alike belong to types of one form, and their other characters are alike. -/
theorem initial_eq_of_text_append {first second : Ty} {rest others : List Char}
    (same : first.text.toList ++ rest = second.text.toList ++ others) :
    first.initial = second.initial ∧
      first.afterInitial ++ rest = second.afterInitial ++ others := by
  rw [toList_text, toList_text, List.cons_append, List.cons_append] at same
  exact List.cons.inj same

/-- What stands in a list of parameters behind the first one. -/
def separated : List Ty → List Char
  | [] => []
  | next :: rest => ',' :: ' ' :: (parametersText (next :: rest)).toList

theorem toList_parametersText (first : Ty) (rest : List Ty) :
    (parametersText (first :: rest)).toList = first.text.toList ++ separated rest := by
  cases rest <;> simp [parametersText, separated]

mutual

/-- A type can be told from what follows its text. -/
theorem text_append_inj : (first second : Ty) → {rest others : List Char} →
    first.text.toList ++ rest = second.text.toList ++ others → first = second ∧ rest = others
  | .int, second, _, _, same | .log, second, _, _, same | .str, second, _, _, same
  | .void, second, _, _, same => by
      obtain ⟨form, same⟩ := initial_eq_of_text_append same
      -- of the six forms, only the type itself begins like this
      cases second
      all_goals first
        | exact ⟨rfl, List.append_cancel_left same⟩
        | simp [initial] at form
  | .array length element, second, _, _, same => by
      obtain ⟨form, same⟩ := initial_eq_of_text_append same
      cases second with
      | array otherLength otherElement =>
          simp only [afterInitial, List.append_assoc, List.cons_append, List.nil_append] at same
          obtain ⟨lengths, behindLength⟩ := Text.token_append_inj Text.isNumeric
            (fun _ => Text.isNumeric_of_mem_toString) (fun _ => Text.isNumeric_of_mem_toString)
            rfl rfl (List.append_cancel_left same)
          obtain ⟨elements, behindElement⟩ :=
            text_append_inj element otherElement (List.cons.inj behindLength).2
          rw [Text.toString_int_inj] at lengths
          exact ⟨by rw [lengths, elements], (List.cons.inj behindElement).2⟩
      | int | log | str | void | function => simp [initial] at form
  | .function parameters result, second, _, _, same => by
      obtain ⟨form, same⟩ := initial_eq_of_text_append same
      cases second with
      | function otherParameters otherResult =>
          simp only [afterInitial, List.append_assoc, List.cons_append] at same
          obtain ⟨parametersSame, behindParameters⟩ :=
            parametersText_append_inj parameters otherParameters same
          obtain ⟨results, behindResult⟩ :=
            text_append_inj result otherResult (List.append_cancel_left behindParameters)
          exact ⟨by rw [parametersSame, results], behindResult⟩
      | int | log | str | void | array => simp [initial] at form

/-- Parameters can be told from what follows the parenthesis behind them. -/
theorem parametersText_append_inj : (first second : List Ty) → {rest others : List Char} →
    (parametersText first).toList ++ ')' :: rest = (parametersText second).toList ++ ')' :: others →
      first = second ∧ rest = others
  | [], [], _, _, same => ⟨rfl, (List.cons.inj same).2⟩
  | [], second :: rest, _, _, same => by
      rw [toList_parametersText, toList_text, List.cons_append, List.cons_append] at same
      exact absurd (List.cons.inj same).1.symm (initial_ne_close second)
  | first :: rest, [], _, _, same => by
      rw [toList_parametersText, toList_text, List.cons_append, List.cons_append] at same
      exact absurd (List.cons.inj same).1 (initial_ne_close first)
  | first :: firstRest, second :: secondRest, _, _, same => by
      rw [toList_parametersText, toList_parametersText, List.append_assoc,
        List.append_assoc] at same
      obtain ⟨firsts, behindFirst⟩ := text_append_inj first second same
      match firstRest, secondRest with
      | [], [] => exact ⟨by rw [firsts], (List.cons.inj behindFirst).2⟩
      | [], _ :: _ | _ :: _, [] => simp [separated] at behindFirst
      | _ :: _, _ :: _ =>
          obtain ⟨rests, behindRest⟩ := parametersText_append_inj _ _
            (List.cons.inj (List.cons.inj behindFirst).2).2
          exact ⟨by rw [firsts, rests], behindRest⟩

end

/-- The text of a type says which type it is. -/
theorem text_eq_text_iff {first second : Ty} : first.text = second.text ↔ first = second := by
  refine ⟨fun same => ?_, fun same => by rw [same]⟩
  have noRest : first.text.toList ++ [] = second.text.toList ++ [] := by rw [same]
  exact (text_append_inj first second noRest).1

end TreeBackend.Source.Ty
