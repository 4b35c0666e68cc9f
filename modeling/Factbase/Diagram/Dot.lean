import Factbase.Diagram.Reach

/-!
# Drawings

A drawing shows everything that some roots lead to. Decisions of one level share a rank, the
ranks follow the levels, and the ids of a rank increase. The leaf is drawn twice, as `0` and as
`1`; an arrow that would complement another decision is marked, and every root has a marker of
its own.

* `Manager.drawing` collects ranks, arrows and markers;
* `Drawing.render` writes them for a graph layout program, in the shapes and line styles of a
  `DotStyle`.
-/

namespace Factbase.Diagram

/-! ## 1. Drawings -/

/-- What an arrow stands for. -/
inductive ArrowKind where
  | high
  | low
  /-- The low child, complemented. -/
  | lowNegated
deriving DecidableEq, Repr, Inhabited

/-- An arrow from a decision to a decision, or to the leaf `0` or `1`. -/
structure Arrow where
  source : Nat
  target : Nat
  kind : ArrowKind
deriving DecidableEq, Repr, Inhabited

/-- A marker with its arrow to a decision, or to the leaf `0` or `1`. -/
structure Marker where
  root : Edge
  target : Nat
  negated : Bool
deriving DecidableEq, Repr, Inhabited

/-- A decision with its level. -/
structure Placed where
  id : Nat
  level : Nat
  node : Node
deriving DecidableEq, Repr, Inhabited

/-- The parts of a drawing. -/
structure Drawing where
  /-- The decisions of every level that has some, from the top. -/
  ranks : List (List Placed)
  arrows : List Arrow
  markers : List Marker
deriving DecidableEq, Repr, Inhabited

namespace Placed

/-- The arrows of a decision. A stored high edge is never complemented. -/
def arrows (p : Placed) : List Arrow :=
  let low := p.node.low
  let lowArrow : Arrow :=
    if low = .zero then ⟨p.id, 0, .low⟩
    else ⟨p.id, low.index, if low.negated then .lowNegated else .low⟩
  [⟨p.id, p.node.high.index, .high⟩, lowArrow]

/-- Decisions by level, those of one level in the given order. -/
def byLevel (placed : List Placed) : List (List Placed) :=
  (placed.mergeSort fun a b => decide (a.level ≤ b.level)).splitBy fun a b => a.level == b.level

end Placed

/-- The marker of a root. -/
def Marker.ofRoot (root : Edge) : Marker :=
  if root = .zero then ⟨root, 0, false⟩ else ⟨root, root.index, root.negated⟩

namespace Manager

/-- A reachable decision with its level. -/
def placed (m : Manager) (id : Nat) : Except Fault Placed := do
  let node ← m.node id
  return ⟨id, ← m.order.levelOf node.var, node⟩

/-- The drawing of everything that the roots lead to. -/
def drawing (m : Manager) (roots : List Edge) : Except Fault Drawing := do
  let ids := (← m.reachable roots).filter (· ≠ 1)
  let ranks := Placed.byLevel (← ids.mapM m.placed)
  return ⟨ranks, ranks.flatten.flatMap Placed.arrows, roots.map Marker.ofRoot⟩

end Manager

/-! ## 2. Their text -/

/-- Shapes and line styles. -/
structure DotStyle where
  node : String
  terminal : String
  root : String
  high : String
  low : String
  negated : String

/-- Round decisions, square leaves, solid high and dashed low edges. -/
def DotStyle.standard : DotStyle :=
  ⟨"circle", "square", "rect", "solid", "dashed", "dotted"⟩

/-- Boxes, leaves and roots without a frame, bold high edges. -/
def DotStyle.plain : DotStyle :=
  ⟨"box", "plaintext", "none", "bold", "dotted", "invis"⟩

/-- A block of lines of one rank. -/
def DotStyle.rank (kind : String) (lines : List String) : List String :=
  s!"\x7b rank={kind}" :: lines ++ ["\x7d"]

/-- The two leaves. -/
def DotStyle.leaves (style : DotStyle) : List String :=
  [s!"0 [shape={style.terminal}, label=\"0\"];", s!"1 [shape={style.terminal}, label=\"1\"];"]

/-- The declaration of a decision, labelled by its variable. -/
def Placed.declaration (label : Nat → String) (p : Placed) : String :=
  s!"{p.id} [label=\"{label p.node.var}\"];"

/-- The line of an arrow. -/
def Arrow.line (style : DotStyle) (a : Arrow) : String :=
  let line := s!"{a.source} -- {a.target} "
  match a.kind with
  | .high => line ++ s!"[style={style.high}];"
  | .low => line ++ s!"[style={style.low}];"
  | .lowNegated => line ++ s!"[style={style.negated}, dir=forward, arrowhead=odot];"

/-- The declaration of the marker at position `i`. -/
def Marker.declaration (style : DotStyle) (i : Nat) (marker : Marker) : String :=
  s!"r{i} [shape={style.root}, label=\"{marker.root.render}\"];"

/-- The line of the arrow of the marker at position `i`. -/
def Marker.line (i : Nat) (marker : Marker) : String :=
  s!"r{i} -- {marker.target}" ++
    (if marker.negated then " [dir=forward, arrowhead=odot];" else ";")

namespace Drawing

/-- All lines of a drawing. -/
def lines (style : DotStyle) (label : Nat → String) (d : Drawing) : List String :=
  ["graph \x7b", s!"node [shape={style.node}];"]
    ++ DotStyle.rank "sink" style.leaves
    ++ d.ranks.flatMap (fun rank => DotStyle.rank "same" (rank.map (Placed.declaration label)))
    ++ d.arrows.map (Arrow.line style)
    ++ DotStyle.rank "source" (d.markers.mapIdx (Marker.declaration style))
    ++ d.markers.mapIdx Marker.line
    ++ ["\x7d"]

/-- The text of a drawing. -/
def render (style : DotStyle) (label : Nat → String) (d : Drawing) : String :=
  String.join ((d.lines style label).map (· ++ "\n"))

end Drawing

/-- The text of the drawing of everything that the roots lead to. -/
def Manager.dot (m : Manager) (style : DotStyle) (label : Nat → String) (roots : List Edge) :
    Except Fault String := do
  return (← m.drawing roots).render style label

end Factbase.Diagram
