import Ringdrop.Library.JsonReader

namespace Ringdrop.Library.Json

section Reading

variable {α : Type}

/-- What is read stays as it is when more comes in behind it. -/
def Settled (read : List Char → Option (α × List Char)) : Prop :=
  ∀ cs x rest more, read cs = some (x, rest) → read (cs ++ more) = some (x, rest ++ more)

end Reading

section Strings

end Strings

section Values

variable {α : Type} {item : List Char → Option (α × List Char)} {close : Char}

variable {value : List Char → Option (Json × List Char)}

end Values

end Ringdrop.Library.Json
