import RecordGrammar.Text.Quoted

/-!
# Why no grammar can be made
-/

namespace RecordGrammar

inductive GrammarError where
  | duplicateRule (name : String)
  | unknownFormat (format : String)
  | reversedItems (path : String) (min max : Nat)
  | unknownKind (kind : String)
deriving DecidableEq

def GrammarError.message : GrammarError → String
  | duplicateRule name => s!"Rule '{name}' is already defined"
  | unknownFormat format => "Unrecognized string format: " ++ Text.quoted format
  | reversedItems path min max => s!"{path}: min_items {min} exceeds max_items {max}"
  | unknownKind kind => "Unsupported schema node: " ++ kind

end RecordGrammar
