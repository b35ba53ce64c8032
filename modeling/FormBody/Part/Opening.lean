import FormBody.Boundary
import FormBody.Cursor.Basic

/-!
Where a part begins: the next line that starts with the delimiter. A line that starts with the
terminator ends the search for parts, and is the only one that counts without a line break behind
it.
-/
namespace FormBody

inductive Opening where
  /-- The cursor is on the line that opens a part. -/
  | part (cursor : Cursor)
  /-- The cursor is on the line that closes the body. -/
  | closed (cursor : Cursor)
  /-- No line is left. -/
  | exhausted (cursor : Cursor)
  deriving DecidableEq, Repr

namespace Opening

def find (markers : Markers) (c : Cursor) : Opening :=
  let next := c.nextLine
  if markers.terminator.isPrefixOf next.2.segment then .closed next.2
  else if _ : next.1 = true then
    if markers.delimiter.isPrefixOf next.2.segment then .part next.2
    else find markers next.2
  else .exhausted next.2
termination_by c.remaining
decreasing_by exact Cursor.nextLine_remaining_lt ‹_›

def cursor : Opening → Cursor
  | part c | closed c | exhausted c => c

theorem remaining_find_le (markers : Markers) (c : Cursor) :
    (find markers c).cursor.remaining ≤ c.remaining := by
  fun_induction find markers c with
  | case1 c next => exact Cursor.nextLine_remaining_le c
  | case2 c next => exact Cursor.nextLine_remaining_le c
  | case3 c next _ _ _ ih => exact Nat.le_trans ih (Cursor.nextLine_remaining_le c)
  | case4 c next => exact Cursor.nextLine_remaining_le c

theorem remaining_lt_of_find {markers : Markers} {c opened : Cursor}
    (h : find markers c = .part opened) : opened.remaining < c.remaining := by
  fun_induction find markers c with
  | case1 => cases h
  | case2 c next _ found => cases h; exact Cursor.nextLine_remaining_lt found
  | case3 c next _ found _ ih => exact Nat.lt_trans (ih h) (Cursor.nextLine_remaining_lt found)
  | case4 => cases h

end Opening
end FormBody
