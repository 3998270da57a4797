import Nextcore.Lib.Outcome

/-!
The errors of the crate (`src/error.rs`), less the one that holds an error of the property list
library.
-/

namespace Nextcore

inductive CoreError where
  | configValidation (text : String)
  | acpiNotFound (text : String)
  | acpiInvalid (text : String)
  | kextScan (text : String)
  | kextPlist (text : String)
  | deviceProps (text : String)
  | handoff (text : String)
  | machO (text : String)
  | machONotFound
  | bufferTooShort (need have' : Nat)
  | invalidMagic (expected got : Nat)
  deriving DecidableEq, Repr

end Nextcore
