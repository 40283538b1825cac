import ToolBatching.Number.Rounding
import Std.Data.TreeSet.Basic

namespace ToolBatching

structure Cell where
  column : Int
  row : Int
  deriving DecidableEq

namespace Cell

def order : Cell → Cell → Ordering :=
  compareLex (compareOn column) (compareOn row)

instance : Std.TransCmp order :=
  inferInstanceAs (Std.TransCmp (compareLex (compareOn column) (compareOn row)))

instance : Std.LawfulEqCmp order where
  eq_of_compare {a b} h := by
    obtain ⟨hcolumn, hrow⟩ := Ordering.then_eq_eq.1 h
    cases a
    cases b
    simp_all [compareOn]

def clamp (n : Int) : Int :=
  max Number.minInt64 (min Number.maxInt64 n)

/-- The cell of a given size around a point. -/
def around (size x y : Float) : Cell where
  column := Number.clamped Number.minInt64 Number.maxInt64 Number.floor (x / size)
  row := Number.clamped Number.minInt64 Number.maxInt64 Number.floor (y / size)

def columnsTo (a b : Cell) : Nat :=
  (a.column - b.column).natAbs

def rowsTo (a b : Cell) : Nat :=
  (a.row - b.row).natAbs

/-- The cell moved by columns and rows, clamped. -/
def offset (a : Cell) (columns rows : Int) : Cell :=
  ⟨clamp (a.column + columns), clamp (a.row + rows)⟩

end Cell

abbrev CellSet := Std.TreeSet Cell Cell.order

end ToolBatching
