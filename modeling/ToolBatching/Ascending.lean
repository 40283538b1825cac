namespace ToolBatching

variable {α : Type} [LT α] [DecidableLT α] [DecidableEq α]

/-- Insert into an ascending list unless the element is there. -/
def insertAscending (a : α) : List α → List α
  | [] => [a]
  | b :: rest =>
      if a < b then a :: b :: rest
      else if a = b then b :: rest
      else b :: insertAscending a rest

/-- The elements of a list, ascending and without repeats. -/
def ascending (elements : List α) : List α :=
  elements.foldl (fun sorted a => insertAscending a sorted) []

end ToolBatching
