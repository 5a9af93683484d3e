import RecordGrammar.Proofs.Grammar.Path

/-!
# Two runs side by side

`Relates.compileShape`: a relation that holds of the steps of the compiler under two settings, and of what is built from steps
of which it holds, holds of the runs over a shape. The steps may ask for names and give names only of one kind, to which
those belong that the compiler makes.
-/

namespace RecordGrammar
open Compiling

/-- The relation holds of the compiler's steps under the two settings, as far as they are about names of one kind. -/
structure Relates (R : (α : Type) → Compiling α → Compiling α → Prop) (named : String → Prop)
    (settings settings' : GrammarSettings) : Prop where
  item {path : String} (h : named path) : named (itemName path)
  key {path : String} (h : named path) : named (keyName path)
  field {path : String} (h : named path) (t : RuleTable) (used : List String) (name : String) : named (fieldPath t used path name)
  pure {α : Type} (a : α) : R α (pure a) (pure a)
  unknownKind (kind : String) : R Expr (throw (.unknownKind kind)) (throw (.unknownKind kind))
  bind {α β : Type} {x y : Compiling α} {f g : α → Compiling β} (hx : R α x y) (hf : ∀ a, R β (f a) (g a)) :
    R β (x >>= f) (y >>= g)
  hasRule {n : String} (h : named n) : R Bool (hasRule n) (hasRule n)
  addRule {n : String} (h : named n) (body : Expr) : R Unit (addRule n body) (addRule n body)
  ensureRule {n : String} (h : named n) (body : Expr) : R Expr (ensureRule n body) (ensureRule n body)
  string {path : String} (h : named path) (text : StringShape) :
    R Expr (compileString settings text path) (compileString settings' text path)
  limits (lo hi : Option Nat) (path : String) :
    R (Nat × Nat) (arrayLimits settings lo hi path) (arrayLimits settings' lo hi path)
  /-- What is done with the path of a field, once it has been found in the table of each run. -/
  atField {α : Type} {path : String} (h : named path) (used : List String) (name : String) {f g : String → Compiling α}
    (hf : ∀ p, named p → R α (f p) (g p)) :
    R α (do f (fieldPath (← get).table used path name)) (do g (fieldPath (← get).table used path name))

namespace Relates
variable {R : (α : Type) → Compiling α → Compiling α → Prop} {named : String → Prop} {settings settings' : GrammarSettings}

theorem ite {c : Prop} [Decidable c] {α : Type} {x y x' y' : Compiling α} (h : R α x y) (h' : R α x' y') :
    R α (if c then x else x') (if c then y else y') := by
  split
  · exact h
  · exact h'

variable (h : Relates R named settings settings')
include h

mutual

theorem compileShape : ∀ (s : Shape) {path : String}, named path →
    R Expr (compileShape settings s path) (compileShape settings' s path)
  | .string text, _, hpath => by
    rw [RecordGrammar.compileShape, RecordGrammar.compileShape]
    exact h.string hpath text
  | .scalar kind _, _, _ => by
    rw [RecordGrammar.compileShape, RecordGrammar.compileShape]
    exact h.pure _
  | .enum _ values, _, _ => by
    rw [RecordGrammar.compileShape, RecordGrammar.compileShape]
    exact h.pure _
  | .custom kind, _, _ => by
    rw [RecordGrammar.compileShape, RecordGrammar.compileShape]
    exact h.unknownKind kind
  | .array element lo hi name, path, hpath => by
    have hlimits := h.bind (h.limits lo hi path) fun r => h.pure (arrayExpr (itemName path) r.1 r.2)
    rw [RecordGrammar.compileShape, RecordGrammar.compileShape]
    refine h.bind (h.hasRule (h.item hpath)) fun held => ite hlimits ?_
    refine h.bind (compileShape element (h.item hpath)) fun value => ?_
    exact ite (h.bind (h.ensureRule (h.item hpath) value) fun _ => hlimits) hlimits
  | .object _ fields, path, hpath => by
    rw [RecordGrammar.compileShape, RecordGrammar.compileShape]
    exact h.bind (compileFields fields [] hpath) fun keys => h.pure (objectExpr keys)

theorem compileFields : ∀ (fields : List (Field Shape)) {path : String} (used : List String), named path →
    R (List String) (compileFields settings fields path used) (compileFields settings' fields path used)
  | [], _, _, _ => by
    rw [RecordGrammar.compileFields, RecordGrammar.compileFields]
    exact h.pure []
  | ⟨name, type, _⟩ :: rest, path, used, hpath => by
    rw [RecordGrammar.compileFields, RecordGrammar.compileFields]
    let field (s : GrammarSettings) (p : String) : Compiling (List String) := do
      let value ← RecordGrammar.compileShape s type p
      Compiling.addRule (keyName p) (fieldExpr name value)
      return keyName p :: (← RecordGrammar.compileFields s rest path (p :: used))
    have hfield : ∀ p, named p → R (List String) (field settings p) (field settings' p) := by
      intro p hp
      refine h.bind (compileShape type hp) fun value => ?_
      refine h.bind (h.addRule (h.key hp) (fieldExpr name value)) fun _ => ?_
      exact h.bind (compileFields rest (p :: used) hpath) fun keys => h.pure (keyName p :: keys)
    exact h.atField hpath used name hfield

end

end Relates

end RecordGrammar
