import CPreprocessor.Proofs.Except
import CPreprocessor.Proofs.Source.Reader

/-!
# Positions in a text

A cursor is a position in a text as it is written. It finds characters by their positions, and stops
where there is none. All that a reader does is to look ahead and to go on, and a cursor can do both at
every position, in the text and behind it: it finds what the reader finds (`TextCursor.peek_eq`,
`TextCursor.advance_eq`).
-/

namespace CPreprocessor

/-- The length of the splice that a text begins with, or else zero. -/
def spliceLength (cs : List Char) : Nat :=
  if ['\\', '\n'].isPrefixOf cs then 2 else if ['\\', '\r', '\n'].isPrefixOf cs then 3 else 0

theorem spliceLength_le (cs : List Char) : spliceLength cs ≤ cs.length := by
  unfold spliceLength
  split
  · rename_i h
    exact (List.isPrefixOf_iff_prefix.mp h).length_le
  split
  · rename_i h
    exact (List.isPrefixOf_iff_prefix.mp h).length_le
  · exact Nat.zero_le _

theorem Reader.past_eq (p : Place) (cs : List Char) :
    past p cs =
      if spliceLength cs = 0 then ⟨cs, p⟩ else past p.nextLine (cs.drop (spliceLength cs)) := by
  rw [past.eq_def]
  split
  · rfl
  · rfl
  · rename_i hsplice hreturn
    have hnewline : ['\\', '\n'].isPrefixOf cs = false := by
      refine Bool.eq_false_iff.mpr fun h => ?_
      obtain ⟨rest, hrest⟩ := List.isPrefixOf_iff_prefix.mp h
      exact hsplice rest hrest.symm
    have hlineEnd : ['\\', '\r', '\n'].isPrefixOf cs = false := by
      refine Bool.eq_false_iff.mpr fun h => ?_
      obtain ⟨rest, hrest⟩ := List.isPrefixOf_iff_prefix.mp h
      exact hreturn rest hrest.symm
    rw [spliceLength, hnewline, hlineEnd]
    rfl

/-- A position in a text, and the place of what stands there. -/
structure TextCursor where
  text : List Char
  pos : Nat
  place : Place

namespace TextCursor

variable {ε : Type}

/-- What is left of the text at a cursor. -/
def rest (c : TextCursor) : List Char := c.text.drop c.pos

/-- The reader that stands where a cursor does. -/
def reader (c : TextCursor) : Reader := ⟨c.rest, c.place⟩

theorem pos_lt_of_spliceLength {c : TextCursor} (h : spliceLength c.rest ≠ 0) :
    c.pos < c.text.length := by
  have hle : spliceLength c.rest ≤ c.text.length - c.pos := by
    rw [← List.length_drop]
    exact spliceLength_le c.rest
  omega

def skipSplices (c : TextCursor) : TextCursor :=
  if _h : spliceLength c.rest = 0 then c
  else skipSplices { c with pos := c.pos + spliceLength c.rest, place := c.place.nextLine }
termination_by c.text.length - c.pos
decreasing_by
  have hlt := pos_lt_of_spliceLength _h
  exact Nat.sub_lt_sub_left hlt (Nat.lt_add_of_pos_right (Nat.pos_of_ne_zero _h))

/-- The cursor behind a character and the splices in front of it, in the line where it was. -/
def next (c : TextCursor) : TextCursor := { c.skipSplices with pos := c.skipSplices.pos + 1 }

/-- The cursor `n` characters further on. -/
def beyond : Nat → TextCursor → TextCursor
  | 0, c => c.skipSplices
  | n + 1, c => beyond n c.next

/-- The character `n` characters ahead. -/
def peek (c : TextCursor) (n : Nat) : Except (Stop ε) (Option Char) :=
  let target := c.beyond n
  if target.text.length ≤ target.pos then .ok none else (found target.text[target.pos]?).map some

/-- The next character, if there is one, and the cursor behind it. -/
def advance (c : TextCursor) : Except (Stop ε) (List Char × TextCursor) :=
  let start := c.skipSplices
  if start.text.length ≤ start.pos then .ok ([], start)
  else
    (found start.text[start.pos]?).map fun char =>
      ([char], { start with pos := start.pos + 1, place := start.place.after char })

theorem reader_skipSplices (c : TextCursor) : c.skipSplices.reader = c.reader.skipSplices := by
  fun_induction skipSplices c with
  | case1 c h => rw [reader, Reader.skipSplices, Reader.past_eq, if_pos h]
  | case2 c h ih =>
    rw [ih, reader, Reader.skipSplices, Reader.skipSplices, reader, Reader.past_eq c.place, if_neg h]
    simp only [rest, List.drop_drop]

theorem rest_skipSplices (c : TextCursor) : c.skipSplices.rest = bare c.rest := by
  have hreader := congrArg Reader.rest c.reader_skipSplices
  rwa [Reader.skipSplices, Reader.rest_past] at hreader

theorem rest_next (c : TextCursor) : c.next.rest = (bare c.rest).tail := by
  rw [← rest_skipSplices, rest, rest, List.tail_drop]
  rfl

theorem rest_beyond (n : Nat) (c : TextCursor) : (c.beyond n).rest = Reader.beyond n c.rest := by
  induction n generalizing c with
  | zero => exact c.rest_skipSplices
  | succ n ih => rw [beyond, ih, rest_next, Reader.beyond]

/-- Looking ahead finds what stands there, however far ahead that is. -/
theorem peek_eq (c : TextCursor) (n : Nat) :
    (c.peek n : Except (Stop ε) (Option Char)) = .ok (c.reader.peek n) := by
  have hrest : (c.beyond n).rest.head? = c.reader.peek n := by
    rw [rest_beyond]
    rfl
  rw [peek, ← hrest, rest, List.head?_drop]
  split
  · rename_i hend
    rw [List.getElem?_eq_none hend]
  · rename_i hend
    rw [List.getElem?_eq_getElem (Nat.lt_of_not_le hend)]
    rfl

/-- Going on finds the next character, if there is one. -/
theorem advance_eq (c : TextCursor) :
    (c.advance : Except (Stop ε) (List Char × TextCursor)).map (Prod.map id reader) =
      .ok c.reader.advance := by
  rw [Reader.advance, ← reader_skipSplices, advance, reader, rest]
  split
  · rename_i hend
    have hnil := List.drop_eq_nil_of_le hend
    rw [hnil]
    exact congrArg (fun rest => Except.ok (([] : List Char), Reader.mk rest _)) hnil
  · rename_i hend
    have hlt := Nat.lt_of_not_le hend
    rw [found_getElem? hlt, List.drop_eq_getElem_cons hlt]
    rfl

end TextCursor

end CPreprocessor
