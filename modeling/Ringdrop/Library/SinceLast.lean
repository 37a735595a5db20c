import Mathlib.Data.List.DropRight

namespace Ringdrop.Library

variable {ε : Type} {start stop : ε → Bool} {events : List ε} {e : ε}

def sinceLast (stop : ε → Bool) (events : List ε) : List ε := events.rtakeWhile (fun e ↦ !stop e)

theorem sinceLast_concat :
    sinceLast stop (events ++ [e]) = if stop e then [] else sinceLast stop events ++ [e] := by
  rw [sinceLast, List.rtakeWhile_concat]
  cases stop e <;> rfl

def startedSince (start stop : ε → Bool) (events : List ε) : Bool := (sinceLast stop events).any start

theorem startedSince_nil : startedSince start stop [] = false := rfl

theorem startedSince_concat :
    startedSince start stop (events ++ [e]) = (!stop e && (start e || startedSince start stop events)) := by
  rw [startedSince, sinceLast_concat, startedSince]
  cases stop e with
  | true => rfl
  | false =>
    change (sinceLast stop events ++ [e]).any start = (start e || (sinceLast stop events).any start)
    rw [List.any_append, List.any_cons, List.any_nil, Bool.or_false, Bool.or_comm]

end Ringdrop.Library
