import FormBody.Cursor.Basic

/-!
The header lines of a part: everything up to the blank line that ends them, or up to the last line
break if there is no blank line.
-/
namespace FormBody

structure HeaderBlock where
  lines : List Bytes
  /-- A blank line ends the block. -/
  closed : Bool
  cursor : Cursor
  deriving DecidableEq, Repr

namespace HeaderBlock

def read (c : Cursor) : HeaderBlock :=
  let next := c.nextLine
  if _ : next.1 = true then
    let line := next.2.segment
    if line.isEmpty then ⟨[], true, next.2⟩
    else
      let block := read next.2
      { block with lines := line :: block.lines }
  else ⟨[], false, next.2⟩
termination_by c.remaining
decreasing_by exact Cursor.nextLine_remaining_lt ‹_›

theorem remaining_read_le (c : Cursor) : (read c).cursor.remaining ≤ c.remaining := by
  fun_induction read c with
  | case1 c next => exact Cursor.nextLine_remaining_le c
  | case2 c next found _ _ _ ih =>
    exact Nat.le_trans ih (Nat.le_of_lt (Cursor.nextLine_remaining_lt found))
  | case3 c next => exact Cursor.nextLine_remaining_le c

end HeaderBlock
end FormBody
