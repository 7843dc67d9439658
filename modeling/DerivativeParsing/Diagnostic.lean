namespace DerivativeParsing

/-!
# Diagnostics

An error is a value that says what went wrong.  How it is told to a person is a
separate matter: its message, the code under which it is documented, and, for
some errors, a hint at what to do about it.
-/

/-- What is told to a person about an error. -/
structure Diagnostic where
  message : String
  code : String
  help : Option String
deriving DecidableEq

end DerivativeParsing
