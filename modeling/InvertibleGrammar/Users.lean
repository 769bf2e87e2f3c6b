import InvertibleGrammar.Grammar.Codec

/-!
# Lists of users

A worked format: one user per line, as number, name and role, with commas
between them. A name stands in quotes or bare; since the bare form is tried first
in writing, only a name that a bare field could not hold is quoted.
-/

namespace InvertibleGrammar

/-- Someone with an account. -/
structure User where
  id : IntType.Value ⟨true, .bits64⟩
  name : String
  admin : Bool
  deriving DecidableEq

namespace User

/-- The three fields of a user. -/
abbrev Fields := Tuple [IntType.Value ⟨true, .bits64⟩, String, Bool]

/-- A user and its fields are the same thing. -/
def ofFields : Conversion Fields User := Conversion.total
  (fun (id, name, admin) => ⟨id, name, admin⟩) (fun user => (user.id, user.name, user.admin))

/-- A name between quotes, which holds no quote. -/
def quotedName : Grammar Char (Run Char) := .sequence
  (.skip (.text "\"") (.keep (.runOf (· != '"')) (.skip (.text "\"") .nil)))

/-- A name on its own, which holds nothing that ends a field or a line. -/
def bareName : Grammar Char (Run Char) := .runOf fun c => c != ',' && c != '"' && c != '\n'

/-- A name in either form. -/
def nameField : Grammar Char String := .convert (.orElse quotedName bareName) Conversion.string

/-- A user on a line of its own. -/
def line : Grammar Char User := .convert (.sequence
  (.keep (.integer ⟨true, .bits64⟩) (.skip (.text ",")
    (.keep nameField (.skip (.text ",")
      (.keep .boolean .nil)))))) ofFields

/-- Users line by line, up to the end of the input. -/
def lines : Grammar Char (List User) := .repetition line (.text "\n") .endOfInput .any

/-- A space that may be there. Nothing is written for it. -/
def space : Grammar Char Unit := .orElse (.text " ") (.text "")

/-- A user on a line of its own, where a space may follow each comma. -/
def spacedLine : Grammar Char User := .convert (.sequence
  (.keep (.integer ⟨true, .bits64⟩) (.skip (.text ",") (.skip space
    (.keep nameField (.skip (.text ",") (.skip space
      (.keep .boolean .nil)))))))) ofFields

/-- Users line by line, where a space may follow each comma. -/
def spacedLines : Grammar Char (List User) :=
  .repetition spacedLine (.text "\n") .endOfInput .any

end User

end InvertibleGrammar
