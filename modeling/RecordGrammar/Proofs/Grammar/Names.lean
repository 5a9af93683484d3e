import RecordGrammar.Grammar.Compile

/-!
# Names in grammars

`unnamed`: a shape without its names, and its fields without their descriptions. The rules of a grammar are named for field names
and positions only, so shapes that are alike without their names have one grammar (`grammar_eq_of_unnamed`).
-/

namespace RecordGrammar
namespace Shape

mutual

/-- The shape with its names and descriptions left empty. Field names stay. -/
def unnamed : Shape → Shape
  | string text => string { text with name := "" }
  | scalar kind _ => scalar kind ""
  | enum _ values => enum "" values
  | array element minItems maxItems _ => array element.unnamed minItems maxItems ""
  | object _ fields => object "" (unnamedFields fields)
  | custom kind => custom kind

def unnamedFields : List (Field Shape) → List (Field Shape)
  | [] => []
  | ⟨name, type, _⟩ :: rest => ⟨name, type.unnamed, none⟩ :: unnamedFields rest

end

end Shape

variable {settings : GrammarSettings}

mutual

theorem compileShape_unnamed : ∀ s : Shape, compileShape settings s.unnamed = compileShape settings s
  | .string text => by
    funext path
    rw [Shape.unnamed, compileShape, compileShape]
    rfl
  | .scalar kind name => by
    funext path
    rw [Shape.unnamed, compileShape, compileShape]
  | .enum name values => by
    funext path
    rw [Shape.unnamed, compileShape, compileShape]
  | .custom kind => by rw [Shape.unnamed]
  | .array element lo hi name => by
    funext path
    rw [Shape.unnamed, compileShape, compileShape, compileShape_unnamed element]
  | .object name fields => by
    funext path
    rw [Shape.unnamed, compileShape, compileShape, compileFields_unnamed fields]

theorem compileFields_unnamed : ∀ fields : List (Field Shape),
    compileFields settings (Shape.unnamedFields fields) = compileFields settings fields
  | [] => by rw [Shape.unnamedFields]
  | ⟨name, type, description⟩ :: rest => by
    funext path used
    rw [Shape.unnamedFields, compileFields, compileFields, compileShape_unnamed type, compileFields_unnamed rest]

end

theorem grammar_unnamed (s : Shape) : s.unnamed.grammar settings = s.grammar settings := by
  unfold Shape.grammar compileGrammar
  rw [compileShape_unnamed]

/-- Shapes that are alike without their names have one grammar, or fail to have one with one error. -/
theorem grammar_eq_of_unnamed {s t : Shape} (h : s.unnamed = t.unnamed) : s.grammar settings = t.grammar settings := by
  rw [← grammar_unnamed s, h, grammar_unnamed]

end RecordGrammar
