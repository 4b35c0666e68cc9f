/-!
# Pairing of words

Szudzik's pairing walks the shells of ever larger squares: the pair `(a, b)` lies in the shell
of `max a b`. This file fixes it on 64-bit words, where sums and products wrap:

* `szudzik`, `three`: the pairing of two words, and of three by pairing the first two first;
* `WordPair`, `WordTriple`: keys made of words, hashed by the pairing.
-/

namespace Factbase.Pairing

/-! ## 1. The pairing -/

/-- The pairing of two words; below `2 ^ 32` nothing wraps. -/
def szudzik (a b : UInt64) : UInt64 :=
  if a < b then b * b + a else a * a + a + b

/-- Three words are paired from the left. -/
def three (a b c : UInt64) : UInt64 :=
  szudzik (szudzik a b) c

/-! ## 2. Keys made of words -/

/-- Two words as a key. -/
structure WordPair where
  left : UInt64
  right : UInt64
deriving DecidableEq, Inhabited

instance : Hashable WordPair where
  hash p := szudzik p.left p.right

/-- Three words as a key. -/
structure WordTriple where
  left : UInt64
  middle : UInt64
  right : UInt64
deriving DecidableEq, Inhabited

instance : Hashable WordTriple where
  hash t := three t.left t.middle t.right

end Factbase.Pairing
