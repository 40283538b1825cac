import ToolBatching.Number.Binary64

namespace ToolBatching

/-- An axis-aligned box between two corners. -/
structure Box where
  minX : Float
  minY : Float
  maxX : Float
  maxY : Float

namespace Box

def point (x y : Float) : Box :=
  ⟨x, y, x, y⟩

/-- The smallest box around a box and a point. -/
def insert (b : Box) (x y : Float) : Box where
  minX := Number.lesser b.minX x
  minY := Number.lesser b.minY y
  maxX := Number.greater b.maxX x
  maxY := Number.greater b.maxY y

/-- The box around an optional box and a point. -/
def insert? (b : Option Box) (x y : Float) : Box :=
  match b with
  | some b => b.insert x y
  | none => point x y

def union (a b : Box) : Box :=
  (a.insert b.minX b.minY).insert b.maxX b.maxY

/-- The box with every side moved outward by a margin. -/
def expand (b : Box) (margin : Float) : Box :=
  ⟨b.minX - margin, b.minY - margin, b.maxX + margin, b.maxY + margin⟩

def intersects (a b : Box) : Bool :=
  a.minX ≤ b.maxX && b.minX ≤ a.maxX && a.minY ≤ b.maxY && b.minY ≤ a.maxY

end Box

end ToolBatching
