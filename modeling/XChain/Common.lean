import Mathlib.Data.Nat.Notation

/-!
# Words and addresses

The fixed-width numbers of the chain: 256-bit words and 160-bit addresses.
-/
namespace XChain

abbrev Word := BitVec 256

abbrev Address := BitVec 160

/-- The sender of a transaction without a signature. -/
def MaxAddress : Address := BitVec.allOnes 160

end XChain
