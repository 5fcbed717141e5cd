/-!
# Counters as words

Counters that go up and down are kept as integers. Reports show them as 64-bit
words, so that a counter below zero shows as a number near the top.
-/
namespace CnfSimplifier

/-- The 64-bit word of an integer, modulo `2 ^ 64`. -/
def wordOf (value : Int) : UInt64 := UInt64.ofNat (value % 0x10000000000000000).toNat

end CnfSimplifier
