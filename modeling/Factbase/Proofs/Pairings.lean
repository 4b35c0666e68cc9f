import Factbase.Numeric.Pairing
import Factbase.Proofs.Diagram.Codec
import Mathlib.Data.Nat.Pairing
import Mathlib.Data.Set.Function

/-!
# Pairing without collisions

Two words are paired as their numbers are, save that products and sums wrap. The numbers of the
pairs below `n` are those below `n ^ 2`, one shell after the other, so that words of half the width
use up the words exactly: the last pair of them is the last word.

* `pair_lt_sq_iff`: numbers are paired below `n ^ 2` exactly where both are below `n`;
* `szudzik_eq`: on all words the pairing is the pairing of their numbers, wrapped once at the end;
* `strictSzudzik`: the pairing that stops where a product or a sum is no word
  (`strictSzudzik_eq_ok_iff`);
* `bijOn_szudzik`: **every word is the pairing of exactly one pair of halves**;
* `Edge.Valid`, `Manager.Addressable.signed`: **the codes of a manager are signed words** as long as
  its nodes can be addressed, and their complements never overflow;
* `Edge.half_word`: the word that an edge is hashed by is a half, and tells the edge
  (`Edge.eq_of_word_eq`);
* `Manager.Addressable.injOn_szudzik_word`: so it is for the edges of a manager;
* `szudzik_fills`: **halves, and no other words, are paired without wrapping, their pairs are all
  words, and pairs of edges are told apart.**
-/

namespace Factbase.Pairing

/-! ## 1. Shells of numbers -/

/-- Numbers are paired below a square exactly where both are below its side: those whose greater
one is `k` make the shell from `k ^ 2` up to the next square. -/
theorem pair_lt_sq_iff {a b n : Nat} : Nat.pair a b < n ^ 2 ↔ a < n ∧ b < n := by
  constructor
  · intro h
    have hmax : max a b ^ 2 < n ^ 2 :=
      calc max a b ^ 2 ≤ max a b ^ 2 + min a b := Nat.le_add_right _ _
        _ ≤ Nat.pair a b := Nat.max_sq_add_min_le_pair a b
        _ < n ^ 2 := h
    exact max_lt_iff.mp ((Nat.pow_lt_pow_iff_left two_ne_zero).mp hmax)
  · rintro ⟨ha, hb⟩
    calc Nat.pair a b < (max a b + 1) ^ 2 := Nat.pair_lt_max_add_one_sq a b
      _ ≤ n ^ 2 := Nat.pow_le_pow_left (max_lt ha hb) 2

/-! ## 2. Exact words -/

/-- The words of half the width. -/
def halves : Set UInt64 := {w | w.toNat < twoPow 32}

/-- Halves are paired below the number of words. -/
theorem pair_lt_twoPow_iff {a b : UInt64} :
    Nat.pair a.toNat b.toNat < twoPow 64 ↔ a ∈ halves ∧ b ∈ halves :=
  pair_lt_sq_iff (n := twoPow 32)

/-- The word of a number; a number without one overflows. -/
def exactWord (n : Nat) : Except Fault UInt64 :=
  if n < twoPow 64 then .ok (.ofNat n) else .error .overflow

theorem exactWord_eq_ok_iff {n : Nat} {w : UInt64} : exactWord n = .ok w ↔ w.toNat = n := by
  unfold exactWord
  split
  · rename_i h
    rw [Except.ok.injEq, ← UInt64.toNat_inj, UInt64.toNat_ofNat_of_lt' h, eq_comm]
  · rename_i h
    exact ⟨nofun, fun hw => absurd (hw ▸ w.toNat_lt) h⟩

/-- A sum overflows where a part of it does. -/
theorem exactWord_bind (n k : Nat) :
    (do let w ← exactWord n; exactWord (w.toNat + k)) = exactWord (n + k) := by
  by_cases h : n < twoPow 64
  · have hn : exactWord n = .ok (.ofNat n) := if_pos h
    rw [hn]
    show exactWord ((UInt64.ofNat n).toNat + k) = exactWord (n + k)
    rw [UInt64.toNat_ofNat_of_lt' h]
  · have hn : exactWord n = .error .overflow := if_neg h
    have hsum : exactWord (n + k) = .error .overflow :=
      if_neg fun hlt => h ((Nat.le_add_right n k).trans_lt hlt)
    rw [hn, hsum]
    rfl

/-! ## 3. The pairing that stops -/

/-- The pairing of two words that stops where a product or a sum on the way is no word. -/
def strictSzudzik (a b : UInt64) : Except Fault UInt64 :=
  if a < b then do
    let square ← exactWord (b.toNat * b.toNat)
    exactWord (square.toNat + a.toNat)
  else do
    let square ← exactWord (a.toNat * a.toNat)
    let sum ← exactWord (square.toNat + a.toNat)
    exactWord (sum.toNat + b.toNat)

/-- It stops where the pairing of the numbers is no word. -/
theorem strictSzudzik_eq (a b : UInt64) :
    strictSzudzik a b = exactWord (Nat.pair a.toNat b.toNat) := by
  unfold strictSzudzik Nat.pair
  simp only [UInt64.lt_iff_toNat_lt]
  split
  · exact exactWord_bind _ _
  · rw [← bind_assoc, exactWord_bind, exactWord_bind]

theorem strictSzudzik_eq_ok_iff {a b w : UInt64} :
    strictSzudzik a b = .ok w ↔ w.toNat = Nat.pair a.toNat b.toNat := by
  rw [strictSzudzik_eq, exactWord_eq_ok_iff]

/-- **The pairing of words is that of their numbers**, wrapped once at the end. -/
theorem szudzik_eq (a b : UInt64) : szudzik a b = .ofNat (Nat.pair a.toNat b.toNat) := by
  unfold szudzik Nat.pair
  simp only [UInt64.lt_iff_toNat_lt]
  split <;> simp

/-- **Nothing wraps exactly where both words are halves.** -/
theorem toNat_szudzik_iff {a b : UInt64} :
    (szudzik a b).toNat = Nat.pair a.toNat b.toNat ↔ a ∈ halves ∧ b ∈ halves := by
  rw [← pair_lt_twoPow_iff]
  constructor
  · intro h
    rw [← h]
    exact UInt64.toNat_lt _
  · intro h
    rw [szudzik_eq, UInt64.toNat_ofNat_of_lt' h]

/-! ## 4. Pairs of halves -/

/-- The pairing tells pairs of halves apart. -/
theorem injOn_szudzik :
    Set.InjOn (fun p : UInt64 × UInt64 => szudzik p.1 p.2) (halves ×ˢ halves) := by
  intro p hp q hq heq
  have hpair : Nat.pair p.1.toNat p.2.toNat = Nat.pair q.1.toNat q.2.toNat := by
    rw [← toNat_szudzik_iff.mpr hp, ← toNat_szudzik_iff.mpr hq]
    exact congrArg UInt64.toNat heq
  obtain ⟨hleft, hright⟩ := Nat.pair_eq_pair.mp hpair
  exact Prod.ext (UInt64.toNat_inj.mp hleft) (UInt64.toNat_inj.mp hright)

/-- Every number of half the width is that of a half. -/
theorem exists_half {n : Nat} (h : n < twoPow 32) : ∃ w ∈ halves, w.toNat = n := by
  have hword : n < 2 ^ 64 := h.trans_le (by decide)
  have hnat : (UInt64.ofNat n).toNat = n := UInt64.toNat_ofNat_of_lt' hword
  exact ⟨.ofNat n, hnat.trans_lt h, hnat⟩

/-- Every word is the pairing of two halves, whose numbers are those that its own number pairs. -/
theorem exists_szudzik_eq (w : UInt64) : ∃ a ∈ halves, ∃ b ∈ halves, szudzik a b = w := by
  rcases hparts : Nat.unpair w.toNat with ⟨m, n⟩
  have hpair : Nat.pair m n = w.toNat := Nat.pair_eq_of_unpair_eq hparts
  have hlt : Nat.pair m n < twoPow 32 ^ 2 := hpair ▸ w.toNat_lt
  obtain ⟨hm, hn⟩ := pair_lt_sq_iff.mp hlt
  obtain ⟨a, ha, rfl⟩ := exists_half hm
  obtain ⟨b, hb, rfl⟩ := exists_half hn
  refine ⟨a, ha, b, hb, ?_⟩
  rw [szudzik_eq, hpair, UInt64.ofNat_toNat]

/-- **Every word is the pairing of exactly one pair of halves.** -/
theorem bijOn_szudzik :
    Set.BijOn (fun p : UInt64 × UInt64 => szudzik p.1 p.2) (halves ×ˢ halves) Set.univ := by
  refine ⟨Set.mapsTo_univ _ _, injOn_szudzik, fun w _ => ?_⟩
  obtain ⟨a, ha, b, hb, heq⟩ := exists_szudzik_eq w
  exact ⟨(a, b), ⟨ha, hb⟩, heq⟩

/-- One step further the pairing starts again from the first word. -/
example : szudzik 0 4294967296 = szudzik 0 0 := by decide

end Factbase.Pairing

namespace Factbase.Diagram

open Pairing

namespace Edge

/-! ## 5. Edges -/

/-- The edge points at a node that codes of 32 bits can name with either sign. -/
def Valid (e : Edge) : Prop := 1 ≤ e.index ∧ e.index < twoPow 31

instance (e : Edge) : Decidable e.Valid := inferInstanceAs (Decidable (_ ∧ _))

section Valid

variable {e : Edge} (h : e.Valid)

include h

/-- **Complementing the code does not overflow.** -/
theorem Valid.negate?_eq : e.negate? = .ok (-e) := by
  have hlt : e.code.natAbs < twoPow 31 := h.2
  refine if_neg fun hleast => ?_
  rw [hleast] at hlt
  exact absurd hlt (by decide)

/-- **Wrapping the code to a signed word changes nothing.** -/
theorem Valid.bmod_code : Int.bmod e.code (twoPow 32) = e.code := by
  have hlt : e.code.natAbs < twoPow 31 := h.2
  have hword : twoPow 32 = 2 * twoPow 31 := rfl
  rw [hword]
  exact Int.bmod_eq_of_le (by omega) (by omega)

end Valid

/-- The word that an edge is hashed by is the index, then one bit for the complement. -/
theorem toNat_word {e : Edge} (h : e.Valid) : e.word.toNat = 2 * e.index + e.negated.toNat := by
  have hindex : e.index < 2147483648 := h.2
  have hnat : e.index.toUInt64.toNat = e.index :=
    UInt64.toNat_ofNat_of_lt' (hindex.trans (by decide))
  have hshift : (e.index.toUInt64 <<< 1).toNat = 2 ^ 1 * e.index := by
    rw [UInt64.toNat_shiftLeft, hnat]
    show e.index <<< 1 % 2 ^ 64 = 2 ^ 1 * e.index
    rw [Nat.shiftLeft_eq]
    omega
  have hbit : (if e.negated then 1 else 0 : UInt64).toNat = e.negated.toNat := by
    cases e.negated <;> rfl
  rw [word, UInt64.toNat_or, hshift, hbit]
  exact (Nat.two_pow_add_eq_or_of_lt e.negated.toNat_lt e.index).symm

/-- The word of an edge is a half. -/
theorem half_word {e : Edge} (h : e.Valid) : e.word ∈ halves := by
  have hindex : e.index < 2147483648 := h.2
  have hbit := e.negated.toNat_lt
  show e.word.toNat < 4294967296
  rw [toNat_word h]
  omega

/-- **Edges are told apart by their words.** -/
theorem eq_of_word_eq {e f : Edge} (he : e.Valid) (hf : f.Valid) (h : e.word = f.word) : e = f := by
  have hnat : 2 * e.index + e.negated.toNat = 2 * f.index + f.negated.toNat := by
    rw [← toNat_word he, ← toNat_word hf, h]
  have hbit := e.negated.toNat_lt
  have hbit' := f.negated.toNat_lt
  have hindex : e.index = f.index := by omega
  have hnegated : e.negated = f.negated := by
    rw [Bool.eq_iff_iff, ← Bool.toNat_eq_one, ← Bool.toNat_eq_one]
    omega
  exact eq_of_index_of_negated hindex hnegated

/-- **Pairs of edges are told apart by the pairings of their words.** -/
theorem injOn_szudzik_word :
    Set.InjOn (fun p : Edge × Edge => szudzik p.1.word p.2.word) {p | p.1.Valid ∧ p.2.Valid} := by
  intro p hp q hq heq
  have hwords : (p.1.word, p.2.word) = (q.1.word, q.2.word) :=
    bijOn_szudzik.injOn ⟨half_word hp.1, half_word hp.2⟩ ⟨half_word hq.1, half_word hq.2⟩ heq
  obtain ⟨hleft, hright⟩ := Prod.mk.inj hwords
  exact Prod.ext (eq_of_word_eq hp.1 hq.1 hleft) (eq_of_word_eq hp.2 hq.2 hright)

end Edge

namespace Manager

/-- The edges of a manager whose nodes can be addressed are valid. -/
theorem Addressable.valid {m : Manager} (h : m.Addressable) {e : Edge} (he : m.Holds e) :
    e.Valid :=
  ⟨Nat.one_le_iff_ne_zero.mpr he.1, he.2.trans_lt h⟩

/-- **The codes of a manager whose nodes can be addressed are signed words.** No code wraps, the
complement of an edge is that of its word and is an edge again, and the edge to a node is the word
of its index. -/
theorem Addressable.signed {m : Manager} (h : m.Addressable) :
    (∀ e, m.Holds e → Int.bmod e.code (twoPow 32) = e.code ∧ m.complement e = e.negate? ∧
      m.Holds (-e)) ∧
    ∀ index, index ≤ m.numNodes → Edge.ofWord index = .ofIndex index := by
  refine ⟨fun e he => ?_, fun index hindex => ?_⟩
  · have hvalid := h.valid he
    exact ⟨hvalid.bmod_code, by rw [hvalid.negate?_eq, complement_eq he], holds_neg.mpr he⟩
  · exact congrArg Edge.mk (bmod_of_small (Nat.lt_of_le_of_lt hindex h))

/-- **No two pairs of edges of a manager have one pairing**, as long as its nodes can be
addressed. -/
theorem Addressable.injOn_szudzik_word {m : Manager} (h : m.Addressable) :
    Set.InjOn (fun p : Edge × Edge => szudzik p.1.word p.2.word)
      {p | m.Holds p.1 ∧ m.Holds p.2} := by
  refine Edge.injOn_szudzik_word.mono fun p hp => ?_
  exact ⟨h.valid hp.1, h.valid hp.2⟩

end Manager

end Factbase.Diagram

namespace Factbase.Pairing

open Diagram

/-! ## 6. Main result -/

/-- **The pairing of halves fills the words.** The pairing that stops where something would wrap
comes to the end, with the same word, exactly for halves; the pairs of halves are paired with all
words one to one; and so distinct pairs of edges have distinct pairings. -/
theorem szudzik_fills :
    (∀ a b : UInt64, strictSzudzik a b = .ok (szudzik a b) ↔ a ∈ halves ∧ b ∈ halves) ∧
    Set.BijOn (fun p : UInt64 × UInt64 => szudzik p.1 p.2) (halves ×ˢ halves) Set.univ ∧
    ∀ p q : Edge × Edge, p.1.Valid → p.2.Valid → q.1.Valid → q.2.Valid → p ≠ q →
      szudzik p.1.word p.2.word ≠ szudzik q.1.word q.2.word := by
  refine ⟨fun a b => ?_, bijOn_szudzik, fun p q hp hp' hq hq' hne heq => ?_⟩
  · rw [strictSzudzik_eq_ok_iff, toNat_szudzik_iff]
  · exact hne (Edge.injOn_szudzik_word ⟨hp, hp'⟩ ⟨hq, hq'⟩ heq)

/-- The last pair of halves is paired without wrapping and is the last word; the two edges to the
last node make different pairs in either order. -/
theorem szudzik_fills_last :
    strictSzudzik 4294967295 4294967295 = .ok (szudzik 4294967295 4294967295) ∧
    szudzik 4294967295 4294967295 = 18446744073709551615 ∧
    (Edge.Valid ⟨2147483647⟩ ∧ Edge.Valid ⟨-2147483647⟩) ∧
    szudzik (Edge.word ⟨2147483647⟩) (Edge.word ⟨-2147483647⟩) ≠
      szudzik (Edge.word ⟨-2147483647⟩) (Edge.word ⟨2147483647⟩) := by
  have hlast : (4294967295 : UInt64) ∈ halves := by
    show (4294967295 : UInt64).toNat < twoPow 32
    decide
  have hplain : Edge.Valid ⟨2147483647⟩ := by decide
  have hnegated : Edge.Valid ⟨-2147483647⟩ := by decide
  obtain ⟨hexact, -, hapart⟩ := szudzik_fills
  exact ⟨(hexact _ _).mpr ⟨hlast, hlast⟩, by decide, ⟨hplain, hnegated⟩,
    hapart (⟨2147483647⟩, ⟨-2147483647⟩) (⟨-2147483647⟩, ⟨2147483647⟩) hplain hnegated hnegated
      hplain (by decide)⟩

end Factbase.Pairing
