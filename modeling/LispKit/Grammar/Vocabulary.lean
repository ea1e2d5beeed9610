/-! Vocabularies: types of grammar symbols with the marks that every grammar needs. -/

namespace LispKit

class Vocabulary (S : Type) where
  label : S → String
  endMark : S
  errorMark : S
  emptyMark : S
  dotMark : S
  startMark : S

instance : Vocabulary String where
  label := id
  endMark := "$end"
  errorMark := "error"
  emptyMark := "<empty>"
  dotMark := "."
  startMark := "S'"

end LispKit
