import CPreprocessor.Proofs.Source.TextCursor
import CPreprocessor.Proofs.Source.Tokenize

/-!
# Checked reading

`Source.tokenizeChecked` reads a source by positions: all that it does is to look ahead and to go on at
a cursor, and it stops where there is no character at a position, and where a loop goes round more
often than it was told. It reads what `Source.tokenize` reads (`Source.tokenizeChecked_eq`).
-/

namespace CPreprocessor

/-- What is read at a cursor. -/
abbrev Scan (ε α : Type) := StateT TextCursor (Except (Stop ε)) α

namespace Scan

variable {ε α β : Type}

/-- The character `n` characters ahead. -/
def look (n : Nat) : Scan ε (Option Char) := fun c => (c.peek n).map (·, c)

/-- The next character, if there is one. -/
def step : Scan ε (List Char) := TextCursor.advance

/-- What a loop does that went round too often. -/
def stop : Scan ε α := throw .outOfRange

/-- Goes behind the splices that stand ahead, and finds the place there. -/
def settle : Scan ε Place := fun c => .ok (c.skipSplices.place, c.skipSplices)

def skip : Nat → Scan ε Unit
  | 0 => pure ()
  | n + 1 => do
    let _ ← step
    skip n

/-! ## Runs of characters -/

open Lexeme

/-- Reads characters as long as they satisfy `p`. -/
def readWhile (p : Char → Bool) : Nat → Scan ε (List Char)
  | 0 => stop
  | limit + 1 => do
    if (← look 0).any p then
      let cs ← step
      let rest ← readWhile p limit
      return cs ++ rest
    else return []

/-- Reads up to `n` characters as long as they satisfy `p`. -/
def readUpTo (p : Char → Bool) : Nat → Scan ε (List Char)
  | 0 => return []
  | n + 1 => do
    if (← look 0).any p then
      let cs ← step
      let rest ← readUpTo p n
      return cs ++ rest
    else return []

/-- Reads `n` characters that satisfy `p`. -/
def readExactly (p : Char → Bool) (fault : LexFault) : Nat → Scan ε (Except LexFault (List Char))
  | 0 => return .ok []
  | n + 1 => do
    if (← look 0).any p then
      let cs ← step
      let rest ← readExactly p fault n
      return rest.map (cs ++ ·)
    else return .error fault

/-- Reads the rest of a number. -/
def readNumber : Nat → Scan ε (List Char)
  | 0 => stop
  | limit + 1 => do
    let c ← look 0
    let d ← look 1
    if c.any isExponentMark && d.any isSign then
      let cs ← step
      let ds ← step
      let rest ← readNumber limit
      return cs ++ ds ++ rest
    else if c.any fun c => isNameChar c || c == '.' then
      let cs ← step
      let rest ← readNumber limit
      return cs ++ rest
    else return []

/-- Reads a comment up to its end mark. -/
def readComment : Nat → Scan ε (Except LexFault (List Char))
  | 0 => stop
  | limit + 1 => do
    let c ← look 0
    let d ← look 1
    if c = none then return .error .unterminatedComment
    else if c = some '*' && d = some '/' then
      let cs ← step
      let ds ← step
      return .ok (cs ++ ds)
    else
      let cs ← step
      let rest ← readComment limit
      return rest.map (cs ++ ·)

/-- Reads an escape behind its backslash. -/
def readEscape (limit : Nat) : Scan ε (Except LexFault (List Char)) := do
  match ← look 0 with
  | none => return .error (.invalidEscape none)
  | some c =>
    if isSimpleEscape c then return .ok (← step)
    else if isOctalDigit c then return .ok (← readUpTo isOctalDigit 3)
    else if c = 'x' then
      let cs ← step
      if (← look 0).any isHexDigit then
        let digits ← readWhile isHexDigit limit
        return .ok (cs ++ digits)
      else return .error .hexEscapeWithoutDigits
    else if c = 'u' then
      let cs ← step
      let digits ← readExactly isHexDigit .incompleteShortName 4
      return digits.map (cs ++ ·)
    else if c = 'U' then
      let cs ← step
      let digits ← readExactly isHexDigit .incompleteLongName 8
      return digits.map (cs ++ ·)
    else return .error (.invalidEscape (if c = '\n' then none else some c))

/-- Reads the body of a literal and its closing mark, and counts what the body is made of. -/
def readBody (quote : Char) : Nat → Nat → Scan ε (Except LexFault (List Char × Nat))
  | 0, _ => stop
  | limit + 1, count => do
    let c ← look 0
    if c = none || c = some '\n' then return .error (unterminated quote)
    else if c = some quote then return .ok (← step, count)
    else if c = some '\\' then
      let cs ← step
      match ← readEscape limit with
      | .error cause => return .error cause
      | .ok escape =>
        let rest ← readBody quote limit (count + 1)
        return rest.map fun (body, n) => (cs ++ escape ++ body, n)
    else
      let cs ← step
      let rest ← readBody quote limit (count + 1)
      return rest.map fun (body, n) => (cs ++ body, n)

/-! ## Tokens -/

/-- Reads a literal with the opening mark `quote`, behind the name that gives it an encoding. -/
def readLiteral (limit : Nat) (quote : Char) (encoding : List Char) :
    Scan ε (Except LexFault (Kind × List Char)) := do
  let mark ← step
  match ← readBody quote limit 0 with
  | .error cause => return .error cause
  | .ok (body, count) =>
    if quote = '"' then return .ok (.string, encoding ++ mark ++ body)
    else if count = 0 then return .error .emptyCharacter
    else return .ok (.character, encoding ++ mark ++ body)

/-- Reads an identifier, or a literal that it gives an encoding. -/
def readName (limit : Nat) : Scan ε (Except LexFault (Kind × List Char)) := do
  let name ← readWhile isNameChar limit
  match ← look 0 with
  | some quote =>
    if name ∈ encodingPrefixes ∧ IsQuote quote then readLiteral limit quote name
    else return .ok (.identifier, name)
  | none => return .ok (.identifier, name)

/-- Whether characters with their distances stand ahead. -/
def stands : List (Char × Nat) → Scan ε Bool
  | [] => return true
  | (c, n) :: spelling => do
    if (← look n) = some c then stands spelling else return false

/-- The first of some spellings that stands ahead. -/
def findSpelling : List (List Char) → Scan ε (Option (List Char))
  | [] => return none
  | spelling :: spellings => do
    if ← stands spelling.zipIdx then return some spelling else findSpelling spellings

/-- Reads the longest punctuator, or a character on its own. -/
def readPunctuator : Scan ε (Kind × List Char) := do
  match ← findSpelling punctuators with
  | some spelling =>
    skip spelling.length
    return (.punctuator, spelling)
  | none => return (.other, ← step)

/-- Reads a comment with both of its marks. -/
def readBlock (limit : Nat) : Scan ε (Except LexFault (List Char)) := do
  let cs ← step
  let ds ← step
  let rest ← readComment limit
  return rest.map (cs ++ ds ++ ·)

/-- Reads the token that begins with `c`, the next character. -/
def scanToken (limit : Nat) (c : Char) : Scan ε (Except LexFault (Kind × List Char)) := do
  let d ← look 1
  if c = '\n' then return .ok (.newline, ← step)
  else if isBlank c then return .ok (.whitespace, ← readWhile isBlank limit)
  else if c = '/' && d = some '/' then return .ok (.comment, ← readWhile (· ≠ '\n') limit)
  else if c = '/' && d = some '*' then return (← readBlock limit).map (Kind.comment, ·)
  else if Text.isDigit c || (c = '.' && d.any Text.isDigit) then
    let cs ← step
    let rest ← readNumber limit
    return .ok (.number, cs ++ rest)
  else if isNameStart c then readName limit
  else if c = '"' || c = '\'' then readLiteral limit c []
  else return .ok (← readPunctuator)

/-- Leaves out the rest of a line, behind a fault. -/
def recover (limit : Nat) : Scan ε Unit := do
  let _ ← readWhile (· ≠ '\n') limit

/-! ## What is read -/

/-- What is read wherever a cursor stands where the reader `r` does, and where it leaves the cursor. -/
def Reads (x : Scan ε α) (r : Reader) (read : α × Reader) : Prop :=
  ∀ c : TextCursor, c.reader = r → (x c).map (Prod.map id TextCursor.reader) = .ok read

namespace Reads

variable {r r' : Reader} {a : α} {p : Char → Bool} {limit : Nat}

protected theorem pure : Reads (pure a : Scan ε α) r (a, r) := by
  rintro c rfl
  rfl

protected theorem look (n : Nat) : Reads (look n : Scan ε (Option Char)) r (r.peek n, r) := by
  rintro c rfl
  rw [Scan.look, TextCursor.peek_eq]
  rfl

protected theorem step : Reads (step : Scan ε (List Char)) r (r.advance.1, r.advance.2) := by
  rintro c rfl
  exact c.advance_eq

protected theorem settle : Reads (settle : Scan ε Place) r (r.skipSplices.place, r.skipSplices) := by
  rintro c rfl
  rw [← c.reader_skipSplices]
  rfl

/-- What is read one after the other. -/
theorem bind {x : Scan ε α} {f : α → Scan ε β} {read : β × Reader} (h : Reads x r (a, r'))
    (hf : Reads (f a) r' read) : Reads (x >>= f) r read := by
  intro c hc
  obtain ⟨⟨a', c'⟩, hx, heq⟩ := map_eq_ok_iff.mp (h c hc)
  cases heq
  change ((x c) >>= fun (a, c) => f a c).map _ = _
  rw [hx]
  exact hf c' rfl

protected theorem skip (n : Nat) : Reads (skip n : Scan ε Unit) r ((), r.skip n) := by
  induction n generalizing r with
  | zero => exact .pure
  | succ n ih => exact Reads.step.bind ih

protected theorem readWhile (h : r.rest.length < limit) :
    Reads (readWhile p limit : Scan ε (List Char)) r (r.readWhile p) := by
  induction limit generalizing r with
  | zero => omega
  | succ limit ih =>
    rw [Scan.readWhile, Reader.readWhile]
    refine (Reads.look 0).bind ?_
    split
    · rename_i hnext
      have hlt := r.length_advance_lt (Reader.ahead_ne_nil_of_any hnext)
      exact Reads.step.bind ((ih (by omega)).bind .pure)
    · exact .pure

protected theorem readUpTo (n : Nat) :
    Reads (readUpTo p n : Scan ε (List Char)) r (r.readUpTo p n) := by
  induction n generalizing r with
  | zero => exact .pure
  | succ n ih =>
    rw [Scan.readUpTo, Reader.readUpTo]
    refine (Reads.look 0).bind ?_
    split
    · exact Reads.step.bind (ih.bind .pure)
    · exact .pure

protected theorem readExactly (fault : LexFault) (n : Nat) :
    Reads (readExactly p fault n : Scan ε (Except LexFault (List Char))) r
      (r.readExactly p fault n) := by
  induction n generalizing r with
  | zero => exact .pure
  | succ n ih =>
    rw [Scan.readExactly, Reader.readExactly]
    refine (Reads.look 0).bind ?_
    split
    · exact Reads.step.bind (ih.bind .pure)
    · exact .pure

protected theorem readNumber (h : r.rest.length < limit) :
    Reads (readNumber limit : Scan ε (List Char)) r r.readNumber := by
  induction limit generalizing r with
  | zero => omega
  | succ limit ih =>
    rw [Scan.readNumber, Reader.readNumber]
    refine (Reads.look 0).bind ((Reads.look 1).bind ?_)
    split
    · rename_i hnext
      have hlt := r.length_advance_lt
        (Reader.ahead_ne_nil_of_any (Bool.and_eq_true_iff.mp hnext).1)
      have hle := r.advance.2.advance_suffix.length_le
      exact Reads.step.bind (Reads.step.bind ((ih (by omega)).bind .pure))
    split
    · rename_i hnext
      have hlt := r.length_advance_lt (Reader.ahead_ne_nil_of_any hnext)
      exact Reads.step.bind ((ih (by omega)).bind .pure)
    · exact .pure

protected theorem readComment (h : r.rest.length < limit) :
    Reads (readComment limit : Scan ε (Except LexFault (List Char))) r r.readComment := by
  induction limit generalizing r with
  | zero => omega
  | succ limit ih =>
    rw [Scan.readComment, Reader.readComment]
    refine (Reads.look 0).bind ((Reads.look 1).bind ?_)
    split
    · exact .pure
    rename_i hnext
    split
    · exact Reads.step.bind (Reads.step.bind .pure)
    · have hlt := r.length_advance_lt (Reader.ahead_ne_nil hnext)
      exact Reads.step.bind ((ih (by omega)).bind .pure)

protected theorem readEscape (h : r.rest.length < limit) :
    Reads (readEscape limit : Scan ε (Except LexFault (List Char))) r r.readEscape := by
  have hle := r.advance_suffix.length_le
  rw [Scan.readEscape, Reader.readEscape]
  refine (Reads.look 0).bind ?_
  cases r.peek 0 with
  | none => exact .pure
  | some c =>
    dsimp only
    split
    · exact Reads.step.bind .pure
    split
    · exact (Reads.readUpTo 3).bind .pure
    split
    · refine Reads.step.bind ((Reads.look 0).bind ?_)
      split
      · exact (Reads.readWhile (by omega)).bind .pure
      · exact .pure
    split
    · exact Reads.step.bind ((Reads.readExactly _ 4).bind .pure)
    split
    · exact Reads.step.bind ((Reads.readExactly _ 8).bind .pure)
    · exact .pure

protected theorem readBody (quote : Char) (count : Nat) (h : r.rest.length < limit) :
    Reads (readBody quote limit count : Scan ε (Except LexFault (List Char × Nat))) r
      (r.readBody quote count) := by
  induction limit generalizing r count with
  | zero => omega
  | succ limit ih =>
    rw [Scan.readBody, Reader.readBody]
    refine (Reads.look 0).bind ?_
    split
    · exact .pure
    rename_i hend
    have hlt : r.advance.2.rest.length < r.rest.length :=
      r.length_advance_lt (Reader.ahead_ne_nil fun hnone => hend (by rw [hnone]; rfl))
    split
    · exact Reads.step.bind .pure
    split
    · have hescape : Reads (Scan.readEscape limit : Scan ε _) r.advance.2 r.advance.2.readEscape :=
        Reads.readEscape (by omega)
      have hle := r.advance.2.readEscape_suffix.length_le
      split
      · rename_i cause after heq
        rw [heq] at hescape
        exact Reads.step.bind (hescape.bind .pure)
      · rename_i escape after heq
        rw [heq] at hescape hle
        dsimp only at hle
        exact Reads.step.bind (hescape.bind ((ih _ (by omega)).bind .pure))
    · exact Reads.step.bind ((ih _ (by omega)).bind .pure)

protected theorem readLiteral (quote : Char) (encoding : List Char) (h : r.rest.length < limit) :
    Reads (readLiteral limit quote encoding : Scan ε (Except LexFault (Kind × List Char))) r
      (r.readLiteral quote encoding) := by
  have hle := r.advance_suffix.length_le
  have hbody : Reads (Scan.readBody quote limit 0 : Scan ε _) r.advance.2
      (r.advance.2.readBody quote 0) := Reads.readBody quote 0 (by omega)
  rw [Scan.readLiteral, Reader.readLiteral]
  generalize r.advance.2.readBody quote 0 = read at hbody ⊢
  obtain ⟨cause | ⟨body, count⟩, after⟩ := read
  · exact Reads.step.bind (hbody.bind .pure)
  · refine Reads.step.bind (hbody.bind ?_)
    dsimp only
    split
    · exact .pure
    split
    · exact .pure
    · exact .pure

protected theorem readName (h : r.rest.length < limit) :
    Reads (readName limit : Scan ε (Except LexFault (Kind × List Char))) r r.readName := by
  have hle : (r.readWhile isNameChar).2.rest.length ≤ r.rest.length := by
    rw [Reader.readWhile_eq]
    exact (r.skip_suffix _).length_le
  rw [Scan.readName, Reader.readName]
  refine (Reads.readWhile h).bind ((Reads.look 0).bind ?_)
  cases (r.readWhile isNameChar).2.peek 0 with
  | none => exact .pure
  | some quote =>
    dsimp only
    split
    · exact Reads.readLiteral _ _ (by omega)
    · exact .pure

protected theorem stands (spelling : List (Char × Nat)) :
    Reads (stands spelling : Scan ε Bool) r (spelling.all fun (c, n) => r.peek n = some c, r) := by
  induction spelling with
  | nil => exact .pure
  | cons first spelling ih =>
    obtain ⟨c, n⟩ := first
    rw [Scan.stands, List.all_cons]
    refine (Reads.look n).bind ?_
    dsimp only
    split
    · rename_i hc
      rw [decide_eq_true hc, Bool.true_and]
      exact ih
    · rename_i hc
      rw [decide_eq_false hc, Bool.false_and]
      exact .pure

protected theorem findSpelling (spellings : List (List Char)) :
    Reads (findSpelling spellings : Scan ε (Option (List Char))) r (spellings.find? r.stands, r) := by
  induction spellings with
  | nil => exact .pure
  | cons spelling spellings ih =>
    rw [Scan.findSpelling, List.find?_cons]
    refine (Reads.stands _).bind ?_
    change Reads (if r.stands spelling then _ else _) _ _
    cases r.stands spelling with
    | true => exact .pure
    | false => exact ih

protected theorem readPunctuator :
    Reads (readPunctuator : Scan ε (Kind × List Char)) r r.readPunctuator := by
  rw [Scan.readPunctuator, Reader.readPunctuator]
  refine (Reads.findSpelling _).bind ?_
  cases punctuators.find? r.stands with
  | some spelling => exact (Reads.skip _).bind .pure
  | none => exact Reads.step.bind .pure

protected theorem readBlock (h : r.rest.length < limit) :
    Reads (readBlock limit : Scan ε (Except LexFault (List Char))) r r.readBlock := by
  have hle₁ := r.advance_suffix.length_le
  have hle₂ := r.advance.2.advance_suffix.length_le
  exact Reads.step.bind (Reads.step.bind ((Reads.readComment (by omega)).bind .pure))

protected theorem scanToken (c : Char) (h : r.rest.length < limit) :
    Reads (scanToken limit c : Scan ε (Except LexFault (Kind × List Char))) r (r.scanToken c) := by
  have hle := r.advance_suffix.length_le
  rw [Scan.scanToken, Reader.scanToken]
  refine (Reads.look 1).bind ?_
  split
  · exact Reads.step.bind .pure
  split
  · exact (Reads.readWhile h).bind .pure
  split
  · exact (Reads.readWhile h).bind .pure
  split
  · exact (Reads.readBlock h).bind .pure
  split
  · exact Reads.step.bind ((Reads.readNumber (by omega)).bind .pure)
  split
  · exact Reads.readName h
  split
  · exact Reads.readLiteral c [] h
  · exact Reads.readPunctuator.bind .pure

protected theorem recover (h : r.rest.length < limit) :
    Reads (recover limit : Scan ε Unit) r ((), r.recover) := (Reads.readWhile h).bind .pure

end Reads

end Scan

namespace Source

variable {ε : Type}

/-- Reads the tokens that are left and, where nothing stopped it, the end token. -/
def readChecked (s : Source) (lenient : Bool) : Nat → Scan ε (List Scanned × Except Report Token)
  | 0 => Scan.stop
  | limit + 1 => do
    let location := s.locate (← Scan.settle)
    match ← Scan.look 0 with
    | none => return ([], .ok { kind := .endOfInput, text := "", location })
    | some c =>
      match ← Scan.scanToken (limit + 1) c with
      | .ok (kind, text) =>
        let rest ← s.readChecked lenient limit
        return ({ token := { kind, text := String.ofList text, location } } :: rest.1, rest.2)
      | .error fault =>
        if lenient then
          Scan.recover (limit + 1)
          let rest ← s.readChecked lenient limit
          return ({ token := .blank location, fault := some fault } :: rest.1, rest.2)
        else return ([], .error (s.report location fault))

/-- Reads a source from its start. No loop goes round as often as there are characters, and once more. -/
def tokenizeChecked (s : Source) (lenient : Bool) :
    Except (Stop ε) (List Scanned × Except Report Token) :=
  (s.readChecked lenient (s.text.toList.length + 1) ⟨s.text.toList, 0, ⟨s.firstLine, 1⟩⟩).map Prod.fst

/-- Each token, and each fault with what it covers, takes a character, so that the loop may go round
once for every character that is left. -/
theorem readChecked_reads (s : Source) (lenient : Bool) (r : Reader) :
    ∀ limit, r.rest.length < limit →
      ∃ r', Scan.Reads (s.readChecked lenient limit : Scan ε _) r (s.read lenient r, r') := by
  fun_induction read s lenient r with
  | case1 r start hpeek =>
    rintro (_ | limit) h
    · omega
    refine ⟨start, Scan.Reads.settle.bind ((Scan.Reads.look 0).bind ?_)⟩
    rw [hpeek]
    exact .pure
  | case2 r start c hpeek kind text after hscan location rest ih =>
    rintro (_ | limit) h
    · omega
    have hstart : start.rest.length < limit + 1 :=
      Nat.lt_of_le_of_lt r.skipSplices_suffix.length_le h
    have hafter := Reader.length_scanToken_lt hpeek List.mem_cons_self
    have htoken := Scan.Reads.scanToken (ε := ε) c hstart
    rw [hscan] at hafter htoken
    dsimp only at hafter
    obtain ⟨r', hrest⟩ := ih limit (by omega)
    refine ⟨r', Scan.Reads.settle.bind ((Scan.Reads.look 0).bind ?_)⟩
    rw [hpeek]
    exact htoken.bind (hrest.bind .pure)
  | case3 r start c hpeek fault after hscan hlenient rest ih =>
    rintro (_ | limit) h
    · omega
    have hstart : start.rest.length < limit + 1 :=
      Nat.lt_of_le_of_lt r.skipSplices_suffix.length_le h
    have hafter := Reader.length_scanToken_lt hpeek List.mem_cons_self
    have hrecover := Reader.length_scanToken_lt hpeek (List.mem_cons_of_mem _ List.mem_cons_self)
    have htoken := Scan.Reads.scanToken (ε := ε) c hstart
    rw [hscan] at hafter hrecover htoken
    dsimp only at hafter hrecover
    obtain ⟨r', hrest⟩ := ih limit (by omega)
    refine ⟨r', Scan.Reads.settle.bind ((Scan.Reads.look 0).bind ?_)⟩
    rw [hpeek]
    refine htoken.bind ?_
    dsimp only
    rw [if_pos hlenient]
    exact (Scan.Reads.recover (by omega)).bind (hrest.bind .pure)
  | case4 r start c hpeek fault after hscan hlenient =>
    rintro (_ | limit) h
    · omega
    have htoken := Scan.Reads.scanToken (ε := ε) c
      (Nat.lt_of_le_of_lt r.skipSplices_suffix.length_le h)
    rw [hscan] at htoken
    refine ⟨after, Scan.Reads.settle.bind ((Scan.Reads.look 0).bind ?_)⟩
    rw [hpeek]
    refine htoken.bind ?_
    dsimp only
    rw [if_neg hlenient]
    exact .pure

/-- All that reading looks for is there. -/
theorem tokenizeChecked_eq (s : Source) (lenient : Bool) :
    (s.tokenizeChecked lenient : Except (Stop ε) (List Scanned × Except Report Token)) =
      .ok (s.tokenize lenient) := by
  obtain ⟨r', hread⟩ :=
    s.readChecked_reads lenient ⟨s.text.toList, ⟨s.firstLine, 1⟩⟩ _ (Nat.lt_succ_self _)
  obtain ⟨⟨read, c⟩, heq, hc⟩ :=
    map_eq_ok_iff.mp (hread ⟨s.text.toList, 0, ⟨s.firstLine, 1⟩⟩ rfl)
  rw [tokenizeChecked, heq]
  exact congrArg (Except.ok ∘ Prod.fst) hc

end Source

end CPreprocessor
