/-!
# Bags

An array whose order is of no account is a bag. Taking an item out moves the last
item into the gap, so no other item changes its place.
-/
namespace CnfSimplifier.Bag

/-- Take the first copy of an item out; the last item takes its place. -/
def erase {α : Type} [BEq α] (items : Array α) (item : α) : Array α :=
  match items.findIdx? (· == item) with
  | some place => (items.swapIfInBounds place (items.size - 1)).pop
  | none => items

end CnfSimplifier.Bag
