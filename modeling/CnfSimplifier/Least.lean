/-!
# Least items
-/
namespace CnfSimplifier

/-- The item with the least key; of several the first. -/
def leastBy {α : Type} (key : α → Int) : List α → Option α
  | [] => none
  | item :: rest =>
    match leastBy key rest with
    | none => some item
    | some other => if key other < key item then some other else some item

end CnfSimplifier
