import Factbase.Proofs.Orders
import Factbase.Proofs.Text.Cutting

/-!
# Signatures as text

A signature can be spelled in many ways: with blanks around its names and around its order, and with
nothing between two commas. It is written in one of them.

* `Signature.Spelled s text`: the text spells the signature;
* `Signature.parse_eq_ok_iff`: **a signature is read exactly from its spellings**;
* `Signature.parse_render`: **what is written is read as what it was written for.**
-/

namespace Factbase

open Text

/-! ## 1. Words -/

/-- A list of names is not empty and has no blanks. -/
theorem SlotOrder.Enumerates.word {names : List String} {cs : List Char}
    (h : SlotOrder.Enumerates names cs) : Word cs := by
  induction h with
  | last hname => exact (wellNamed_iff.mpr hname).word
  | more hname hsep _ ih =>
      have hword := (wellNamed_iff.mpr hname).word
      refine ⟨List.append_ne_nil_of_left_ne_nil hword.nonempty _, List.forall_mem_append.mpr
        ⟨hword.solid, List.forall_mem_cons.mpr ⟨?_, ih.solid⟩⟩⟩
      rcases hsep with rfl | rfl <;> decide

namespace Signature

/-- An order that is accepted has no blanks. -/
theorem Created.word_order {s : Signature} (h : s.Created) {order : String}
    (horder : s.order = some order) : Word order.toList := by
  obtain ⟨names, order', hcreate⟩ := h
  obtain ⟨_, _, hnodup, _, rfl, _, hgroups⟩ := create_eq_ok_iff.mp hcreate
  obtain ⟨listed, hlisted, _⟩ := (exists_groupsOf_iff hnodup).mp ⟨_, hgroups order horder⟩
  exact hlisted.word

/-- A signature is the one that is created from its names and its order. -/
theorem created_iff {s : Signature} : s.Created ↔ create s.names s.order = .ok s := by
  refine ⟨fun ⟨names, order, h⟩ => ?_, fun h => ⟨_, _, h⟩⟩
  obtain ⟨_, _, _, rfl, rfl, _⟩ := create_eq_ok_iff.mp h
  exact h

/-! ## 2. Spellings -/

/-- The items are the names with blanks around them, and others that are blank. -/
inductive Itemized : List String → List (List Char) → Prop
  | nil : Itemized [] []
  | blank {names : List String} {item : List Char} {items : List (List Char)} :
      Padded [] item → Itemized names items → Itemized names (item :: items)
  | name {name : String} {names : List String} {item : List Char} {items : List (List Char)} :
      Padded name.toList item → Itemized names items → Itemized (name :: names) (item :: items)

/-- The names between commas. -/
def SpelledNames (names : List String) (cs : List Char) : Prop :=
  ∃ items, items ≠ [] ∧ Itemized names items ∧ cs = [','].intercalate items

/-- The names between commas and, behind a colon, the order with blanks around it. -/
def Spelled (s : Signature) (cs : List Char) : Prop :=
  ∃ named, SpelledNames s.names named ∧ match s.order with
    | none => cs = named
    | some order => ∃ ordered, Padded order.toList ordered ∧ cs = named ++ ':' :: ordered

section Names

variable {names : List String} (h : ∀ name ∈ names, WellNamed name)

include h

/-- The names of items are what is left of them without blanks. -/
theorem itemized_iff {items : List (List Char)} : Itemized names items ↔
    ((items.map trim).filter fun name => !name.isEmpty).map String.ofList = names := by
  induction items generalizing names with
  | nil => exact ⟨fun h => (by cases h; rfl), fun h => (by cases h; exact .nil)⟩
  | cons item items ih =>
      rw [List.map_cons]
      by_cases hblank : trim item = []
      · rw [List.filter_cons_of_neg (by rw [hblank]; exact Bool.false_ne_true), ← ih h]
        constructor
        · intro hitems
          cases hitems with
          | blank _ hrest => exact hrest
          | name hname _ =>
              have hword := (h _ List.mem_cons_self).word
              rw [hname.trim_eq, trim_of_word hword] at hblank
              exact absurd hblank hword.nonempty
        · exact .blank (hblank ▸ padded_trim item)
      · rw [List.filter_cons_of_pos (by simpa using hblank), List.map_cons]
        constructor
        · intro hitems
          cases hitems with
          | blank hitem _ => exact absurd hitem.trim_eq hblank
          | name hname hrest =>
              obtain ⟨hwell, hnames⟩ := List.forall_mem_cons.mp h
              rw [hname.trim_eq, trim_of_word hwell.word, String.ofList_toList,
                (ih hnames).mp hrest]
        · rintro rfl
          refine .name ?_ ((ih (List.forall_mem_cons.mp h).2).mpr rfl)
          rw [String.toList_ofList]
          exact padded_trim item

/-- What stands between the commas is blanks, letters and digits. -/
theorem Itemized.mem {items : List (List Char)} (hitems : Itemized names items) :
    ∀ item ∈ items, ∀ c ∈ item, isBlank c = true ∨ c.isAlphanum = true := by
  induction hitems with
  | nil => exact fun _ hitem => absurd hitem List.not_mem_nil
  | blank hblank _ ih =>
      exact List.forall_mem_cons.mpr
        ⟨fun c hc => (hblank.mem hc).imp id fun hnil => absurd hnil List.not_mem_nil, ih h⟩
  | name hname _ ih =>
      obtain ⟨hwell, hnames⟩ := List.forall_mem_cons.mp h
      exact List.forall_mem_cons.mpr
        ⟨fun c hc => (hname.mem hc).imp id (hwell.solid.2 c), ih hnames⟩

/-- **Names are read exactly from their spellings.** -/
theorem readNames_eq_iff {cs : List Char} : readNames cs = names ↔ SpelledNames names cs := by
  rw [readNames, ← itemized_iff h]
  constructor
  · exact fun hitems => ⟨_, pieces_ne_nil ',' cs, hitems, (intercalate_pieces ',' cs).symm⟩
  · rintro ⟨items, hne, hitems, rfl⟩
    rwa [pieces_intercalate hne fun item hitem hcomma => ?_]
    exact absurd (hitems.mem h item hitem ',' hcomma) (by decide)

theorem SpelledNames.no_colon {cs : List Char} (hcs : SpelledNames names cs) : ':' ∉ cs := by
  obtain ⟨items, _, hitems, rfl⟩ := hcs
  intro hcolon
  rcases mem_intercalate hcolon with hcomma | ⟨item, hitem, hmem⟩
  · cases hcomma
  · exact absurd (hitems.mem h item hitem ':' hmem) (by decide)

end Names

section Spellings

variable {s : Signature}

/-- **A signature is read exactly from its spellings.** -/
theorem parse_eq_ok_iff {text : String} :
    parse text = .ok s ↔ s.Created ∧ s.Spelled text.toList := by
  constructor
  · intro h
    rw [parse] at h
    cases hcut : cut? ':' text.toList with
    | none =>
        rw [hcut] at h
        obtain ⟨_, hwell, _, hnames, horder, _⟩ := create_eq_ok_iff.mp h
        refine ⟨⟨_, _, h⟩, text.toList, ?_, by rw [horder]⟩
        rw [hnames]
        exact (readNames_eq_iff hwell).mp rfl
    | some parts =>
        obtain ⟨named, ordered⟩ := parts
        rw [hcut] at h
        obtain ⟨_, hwell, _, hnames, horder, _⟩ := create_eq_ok_iff.mp h
        refine ⟨⟨_, _, h⟩, named, ?_, ?_⟩
        · rw [hnames]
          exact (readNames_eq_iff hwell).mp rfl
        · rw [horder]
          refine ⟨ordered, ?_, (cut?_eq_some_iff.mp hcut).2⟩
          rw [String.toList_ofList]
          exact padded_trim ordered
  · rintro ⟨hcreated, named, hnamed, hbehind⟩
    have hcreate := created_iff.mp hcreated
    have hwell := hcreated.proper.wellNamed
    have hnames := (readNames_eq_iff hwell).mpr hnamed
    have hcolon := hnamed.no_colon hwell
    rw [parse]
    cases horder : s.order with
    | none =>
        rw [horder] at hbehind hcreate
        dsimp only at hbehind
        rw [hbehind, cut?_eq_none_iff.mpr hcolon]
        dsimp only
        rw [hnames, hcreate]
    | some order =>
        rw [horder] at hbehind hcreate
        obtain ⟨ordered, hordered, htext⟩ := hbehind
        rw [htext, cut?_append hcolon]
        dsimp only
        rw [hordered.trim_eq, trim_of_word (hcreated.word_order horder), String.ofList_toList,
          hnames, hcreate]

/-- The names of the text form are joined without blanks. -/
theorem itemized_self : ∀ names : List String, Itemized names (names.map String.toList)
  | [] => .nil
  | _ :: names => .name (padded_self _) (itemized_self names)

/-- **The text form is a spelling.** -/
theorem Created.spelled_render (h : s.Created) : s.Spelled s.render.toList := by
  have hne : s.names ≠ [] := by
    obtain ⟨_, _, hcreate⟩ := h
    obtain ⟨hne, _, _, rfl, _⟩ := create_eq_ok_iff.mp hcreate
    exact hne
  have hnames : SpelledNames s.names (",".intercalate s.names).toList :=
    ⟨_, fun hnil => hne (List.map_eq_nil_iff.mp hnil), itemized_self s.names,
      String.toList_intercalate⟩
  refine ⟨_, hnames, ?_⟩
  rw [render]
  cases s.order with
  | none => rfl
  | some order =>
      refine ⟨order.toList, padded_self _, ?_⟩
      rw [String.toList_append, String.toList_append, List.append_assoc]
      rfl

end Spellings

/-! ## 3. Main result -/

/-- **What is written is read as what it was written for.** A signature that is created, from any
names and any order, is read from its text form, with its names, its order and its groups. One that
is read from any text is read from its own text form as well, which is therefore written again. And
every spelling is read: blanks around the names and the order and empty items do not count. -/
theorem parse_render :
    (∀ names order s, create names order = .ok s → parse s.render = .ok s) ∧
    (∀ text s, parse text = .ok s →
      parse s.render = .ok s ∧ (parse s.render).map render = .ok s.render) ∧
    ∀ s text, s.Created → s.Spelled text.toList → parse text = .ok s := by
  have hread : ∀ s, Created s → parse s.render = .ok s :=
    fun s h => parse_eq_ok_iff.mpr ⟨h, h.spelled_render⟩
  refine ⟨fun names order s h => hread s ⟨names, order, h⟩, fun text s h => ?_,
    fun s text h hspelled => parse_eq_ok_iff.mpr ⟨h, hspelled⟩⟩
  have hback := hread s (parse_eq_ok_iff.mp h).1
  exact ⟨hback, by rw [hback]; rfl⟩

/-- Blanks of all kinds and empty items are gone when the text is written. -/
theorem parse_render_blank : ∃ s, parse "\u2003M0 ,, x1\u00a0,: \tx1xM0\n" = .ok s ∧
    s.render = "M0,x1:x1xM0" ∧ parse "M0,x1:x1xM0" = .ok s := by
  have h : parse "\u2003M0 ,, x1\u00a0,: \tx1xM0\n" =
      .ok ⟨["M0", "x1"], some "x1xM0", [[1, 0]]⟩ := by decide +kernel
  exact ⟨_, h, by decide +kernel, (parse_render.2.1 _ _ h).1⟩

end Signature

end Factbase
