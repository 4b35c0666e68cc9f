import Factbase.Proofs.Relation.Narrowing

/-!
# What lending leaves

Programs that ask, or that stop before they change anything, may have lent space in the manager of a
relation. The relation is the same in everything else.

* `lasting_lent`: what is true of the contents, however far their manager has grown, lasts;
* `Undisturbed`: **the relation is as it was, but for the space that it has lent**;
* `Intact`, `lasting_intact`: so it stays as long as the manager only grows.
-/

namespace Factbase.Relation

open Diagram

variable {r r' : Relation} {schema : Schema} {c : Contents}

/-- **Space may be lent as long as the contents are fit for it.** -/
theorem lasting_lent (hs : r.Sound) (hopen : r.stage = .opened schema c) {post : Contents → Prop}
    (hpost : ∀ {c' : Contents} {m : Manager}, c'.Sound schema → c'.manager.Next m → post c' →
      post { c' with manager := m }) : Lasting (Lent r schema c post) where
  sound := by
    rintro _ ⟨m, n, rfl, _⟩
    obtain ⟨harity, hc⟩ := hs.contents hopen
    exact ⟨harity, hc.next n (n.holds hc.root)⟩
  grown := by
    rintro _ _ _ m' ⟨m, n, rfl, hkept⟩ hopen' n'
    obtain ⟨rfl, rfl⟩ := Stage.opened.inj hopen'
    have hc := (hs.contents hopen).2
    have hkept' := hpost (hc.next n (n.holds hc.root)) n' hkept
    exact ⟨m', n.trans n', rfl, hkept'⟩

/-- The relation is as it was, but for the space that it has lent. -/
def Undisturbed (r r' : Relation) : Prop :=
  r' = r ∨ ∃ schema c, r.stage = .opened schema c ∧ Lent r schema c (fun _ => True) r'

/-- The relation is sound, and undisturbed since it was `r`. -/
def Intact (r r' : Relation) : Prop := r'.Sound ∧ Undisturbed r r'

theorem intact_self (hs : r.Sound) : Intact r r := ⟨hs, .inl rfl⟩

/-- **A relation stays undisturbed as long as its manager only grows.** -/
theorem lasting_intact (r : Relation) : Lasting (Intact r) where
  sound h := h.1
  grown := by
    rintro r' schema c m ⟨hs, hr'⟩ hopen n
    refine ⟨editable_sound.grown hs hopen n, Or.inr ?_⟩
    obtain rfl | ⟨schema', c', hopen', m', n', rfl, _⟩ := hr'
    · exact ⟨schema, c, hopen, m, n, rfl, trivial⟩
    · obtain ⟨rfl, rfl⟩ := Stage.opened.inj hopen
      exact ⟨schema', c', hopen', m, n'.trans n, rfl, trivial⟩

end Factbase.Relation
