import RecordGrammar.Cycle
import RecordGrammar.Model.FieldType
import RecordGrammar.Text.Choice

/-!
# Models

A model is a class of records with typed fields. The models of a family refer to each other by name,
in any order and also to themselves. `Family.reachable` lists the models that a model depends on.
-/

namespace RecordGrammar

structure ModelField where
  name : String
  type : FieldType
  /-- The key that stands for the name in the records. -/
  givenKey : Option String := none
  description : Option String := none
  constraints : Constraints := {}

/-- The key of a field in the records. -/
def ModelField.key (f : ModelField) : String := Text.firstNonEmpty [f.givenKey] f.name

structure Model where
  name : String
  title : Option String := none
  fields : List ModelField := []

namespace Model

def displayName (m : Model) : String := Text.firstNonEmpty [m.title] m.name

/-- The models that a model mentions, each once. -/
def references (m : Model) : List String := (m.fields.flatMap (·.type.models)).eraseDups

/-- Puts a field in the place of the one with the same name, or behind all others. -/
def setField (f : ModelField) : List ModelField → List ModelField
  | [] => [f]
  | g :: gs => if g.name == f.name then f :: gs else g :: setField f gs

/-- A model that takes over the title and the fields of another one and adds its own. -/
def extending (base own : Model) : Model where
  name := own.name
  title := own.title <|> base.title
  fields := own.fields.foldl (fun fs f => setField f fs) base.fields

end Model

/-- Models that may refer to each other. -/
structure Family where
  /-- The name of the module that defines them. -/
  module : String
  models : List Model

namespace Family

def find? (family : Family) (name : String) : Option Model := family.models.find? (·.name == name)

def names (family : Family) : List String := family.models.map (·.name)

/-- The family of models declared in turn, each with the name of an earlier one that it extends. -/
def ofDeclarations (module : String) (declarations : List (Model × Option String)) : Family :=
  declarations.foldl (fun family (m, base) =>
    let m := ((base.bind family.find?).map (·.extending m)).getD m
    { family with models := family.models ++ [m] }) ⟨module, []⟩

/-- The models a model mentions; none, if it is not in the family. -/
def referencesOf (family : Family) (name : String) : List String :=
  ((family.find? name).map (·.references)).getD []

/-- Continues a depth-first walk over the models. `fresh` holds the names not visited yet. -/
def walk (family : Family) (fresh : List String) : List String → List Model
  | [] => []
  | name :: pending =>
    if name ∈ fresh then
      match family.find? name with
      | some m => m :: walk family (fresh.erase name) (m.references ++ pending)
      | none => walk family fresh pending
    else walk family fresh pending
termination_by pending => (fresh.length, pending.length)
decreasing_by
  · rename_i h
    have := List.length_erase_of_mem h
    have := List.length_pos_of_mem h
    exact Prod.Lex.left _ _ (by omega)
  · exact Prod.Lex.right _ (by simp)
  · exact Prod.Lex.right _ (by simp)

/-- The models that a model depends on, itself first and each once. -/
def reachable (family : Family) (root : String) : List Model := family.walk family.names.eraseDups [root]

/-- The first name without a model among those that a model depends on. -/
def undefined? (family : Family) (root : String) : Option String :=
  ((family.reachable root).flatMap (·.references)).find? fun name => (family.find? name).isNone

/-- The first cycle of models met from a model. -/
def findCycle (family : Family) (root : String) : Option (List String) :=
  match Cycle.find (ε := Empty) family.names (fun name => .ok (family.referencesOf name)) root with
  | .ok cycle => cycle
  | .error e => nomatch e

end Family

end RecordGrammar
