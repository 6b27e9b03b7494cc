import CPreprocessor.Proofs.Expansion.Limit
import CPreprocessor.Proofs.Expansion.Plain
import CPreprocessor.Proofs.Macro.Reachable

/-!
# Expanding an expansion

A token is settled if its turn leaves it as it is, unless arguments follow. Every token that a turn
finishes is settled (`Expander.settled_of_emit`), so all tokens of an expansion are, and a run over
settled tokens without arguments leaves them as they are (`Expander.run_of_settled`). Expansion is
idempotent but for the names of function-like macros that meet a `(` in the end
(`Expander.expand_idempotent`).
-/

namespace CPreprocessor

namespace Expander

variable {e : Expander} {t u : Token} {rest tokens : List Token} {d : Definition}

/-! ## Settled tokens -/

/-- Whether the turn of a token leaves it as it is wherever no argument list follows. -/
def Settled (e : Expander) (t : Token) : Prop :=
  ∀ rest, opensArguments rest = false → e.turn t rest = .ok (.emit t)

theorem settled_of_definition? (h : e.definition? t = none) : e.Settled t := by
  intro rest _
  rw [turn, h]

theorem definition?_paint (e : Expander) (t : Token) : e.definition? t.paint = none :=
  if_neg (by simp [Token.paint])

theorem definition?_dynamicValue (e : Expander) (t : Token) : e.definition? (dynamicValue t) = none := by
  rcases t.kind_dynamicValue with hkind | hkind
  · exact definition?_of_kind (hkind ▸ nofun)
  · exact definition?_of_kind (hkind ▸ nofun)

/-- Painted tokens, values, and tokens that are no macro names are left alone for good. So is the name
of a function-like macro without arguments, until arguments follow. -/
theorem settled_of_emit (h : e.turn t rest = .ok (.emit u)) : e.Settled u := by
  unfold turn at h
  split at h
  · rename_i hnone
    cases h
    exact settled_of_definition? hnone
  rename_i d hdefinition
  split at h
  · cases h
    exact settled_of_definition? (definition?_paint e t)
  rename_i hhidden
  split at h
  · cases h
    exact settled_of_definition? (definition?_dynamicValue e t)
  rename_i hdynamic
  split at h
  · cases h
  rename_i hfunction
  split at h
  · obtain ⟨i, -, heq⟩ := map_eq_ok_iff.mp h
    cases heq
  · cases h
    intro rest hopens
    rw [turn, hdefinition]
    dsimp only
    rw [if_neg hhidden, if_neg hdynamic, if_neg hfunction, hopens]
    rfl

/-- The names of object-like macros are expanded whatever follows, so none of them is settled. -/
theorem Settled.isFunction (h : e.Settled t) (hdefinition : e.definition? t = some d) :
    d.isFunction = true := by
  have hturn := h [] rfl
  -- What the turn would leave instead of the token has no definition.
  have hother : ∀ v : Token, e.definition? v = none → (.ok (.emit v) : Except ExpansionError Turn) =
      .ok (.emit t) → d.isFunction = true := by
    intro v hv heq
    cases heq
    rw [hv] at hdefinition
    cases hdefinition
  rw [turn, hdefinition] at hturn
  dsimp only at hturn
  split at hturn
  · exact hother _ (definition?_paint e t) hturn
  split at hturn
  · exact hother _ (definition?_dynamicValue e t) hturn
  split at hturn
  · cases hturn
  · rename_i hfunction
    simpa using hfunction

/-! ## Runs -/

/-- All tokens that a run finishes are settled. -/
theorem run_settled (e : Expander) (depth : Nat) (done : Progress) (pending : List Token)
    (hdone : ∀ t ∈ done.output, e.Settled t) {p : Progress} (h : e.run depth done pending = .ok p) :
    ∀ t ∈ p.output, e.Settled t := by
  revert h
  induction depth, done, pending using run_induction with
  | nil depth done =>
    rintro ⟨⟩
    exact hdone
  | failed => exact nofun
  | emit depth done t rest u hturn ih =>
    exact ih (List.forall_mem_cons.mpr ⟨settled_of_emit hturn, hdone⟩)
  | deep => exact nofun
  | argument => exact nofun
  | replacement => exact nofun
  | invoke depth done t rest i inner body hturn hdeep hinner hbody iharguments ih => exact ih hdone

/-- A run over settled tokens leaves them as they are, if no name of a macro among them finds arguments.
-/
theorem run_of_settled {depth : Nat} {done : Progress} (h : ∀ t ∈ tokens, e.Settled t)
    (hopens : ∀ before t after, tokens = before ++ t :: after →
      e.definition? t ≠ none → opensArguments after = false) :
    e.run depth done tokens = .ok { done with output := tokens.reverse ++ done.output } := by
  induction tokens generalizing done with
  | nil => exact run_nil
  | cons t rest ih =>
    obtain ⟨ht, hrest⟩ := List.forall_mem_cons.mp h
    have hturn : e.turn t rest = .ok (.emit t) := by
      cases hdefinition : e.definition? t with
      | none => rw [turn, hdefinition]
      | some d => exact ht rest (hopens [] t rest rfl (hdefinition ▸ Option.some_ne_none d))
    have hlater : ∀ before u after, rest = before ++ u :: after →
        e.definition? u ≠ none → opensArguments after = false := fun before u after heq =>
      hopens (t :: before) u after (congrArg (t :: ·) heq)
    rw [run_of_emit hturn, ih hrest hlater, Progress.emit, List.reverse_cons, List.append_assoc]
    rfl

end Expander

/-! ## Tokens that end the input -/

namespace Token

variable {t : Token}

theorem Lexed.kind_ne_endOfInput (h : t.Lexed) : t.kind ≠ .endOfInput := by
  cases h with
  | spelled h =>
    obtain ⟨c, cs, -, hstarts⟩ := h.starts
    intro hkind
    rw [hkind] at hstarts
    exact hstarts
  | comment hkind => exact hkind ▸ nofun
  | placemarker hkind => exact hkind ▸ nofun

/-- What `##` makes of two tokens is read off their spellings, and the end of the input is not spelled.
-/
theorem kind_paste? {left right joined : Token} {site : Location}
    (hleft : left.kind ≠ .endOfInput) (hright : right.kind ≠ .endOfInput)
    (h : left.paste? right site = some joined) : joined.kind ≠ .endOfInput := by
  rcases cases_of_paste? h with rfl | rfl | ⟨-, -, kind, text, hread, hlayout, rfl⟩
  · exact hright
  · exact hleft
  · obtain ⟨-, c, cs, -, hfirst⟩ := Lexeme.exists_first_of_lexemes hread hlayout
    rintro rfl
    exact starts_of_first hfirst rfl

end Token

/-- No expansion ends the input, if no replacement list does. -/
theorem Lasting.kind_ne_endOfInput {table : Table}
    (hbodies : table.Bodies fun t => t.kind ≠ .endOfInput) :
    Lasting table (fun _ => True) fun t => t.kind ≠ .endOfInput where
  location _ _ := trivial
  paint := id
  hideBy _ := id
  withoutNewline {t} h := by
    rcases t.kind_withoutNewline with hkind | heq
    · exact hkind ▸ nofun
    · exact heq.symm ▸ h
  dynamicValue {t} _ := by
    rcases t.kind_dynamicValue with hkind | hkind
    · exact hkind ▸ nofun
    · exact hkind ▸ nofun
  copy {d} {t} _ hd ht _ := hbodies d hd t ht
  stringize _ _ := nofun
  placemarker _ := nofun
  paste _ hleft hright _ h := Token.kind_paste? hleft hright h

/-- The replacement lists of the tables that can be reached do not end the input. -/
theorem Table.Reachable.kind_ne_endOfInput {table : Table} (h : table.Reachable) :
    table.Bodies fun t => t.kind ≠ .endOfInput :=
  fun d hd t ht => (h.bodies d hd t ht).kind_ne_endOfInput

/-! ## Expansions -/

namespace Expander

variable {e : Expander} {tokens : List Token} {x : Expansion}

theorem settled_of_expand (h : e.expand tokens = .ok x) : ∀ t ∈ x.tokens, e.Settled t := by
  obtain ⟨p, hrun, rfl⟩ := map_eq_ok_iff.mp h
  intro t ht
  exact run_settled e 0 {} _ nofun hrun t (List.mem_reverse.mp (List.mem_filter.mp ht).1)

theorem stays_of_expand (hbodies : e.table.Bodies fun t => t.kind ≠ .endOfInput)
    (h : e.expand tokens = .ok x) : ∀ t ∈ x.tokens, t.Stays := by
  obtain ⟨p, hrun, rfl⟩ := map_eq_ok_iff.mp h
  have hlasts := run_lasting (.kind_ne_endOfInput hbodies) 0 {}
    (tokens.filter fun t => t.kind ≠ .endOfInput) nofun
    fun t ht => of_decide_eq_true (List.mem_filter.mp ht).2
  rw [hrun] at hlasts
  intro t ht
  obtain ⟨hmem, hkind⟩ := List.mem_filter.mp ht
  exact ⟨hlasts t (List.mem_reverse.mp hmem), of_decide_eq_true hkind⟩

/-- In what an expansion gives, all names of macros that could be expanded are those of function-like
macros. If none of them finds arguments there, expanding the tokens once more leaves each of them as it
is, with what it hides and whether it is painted, and invokes no macro. No replacement list that is read
from a source ends the input (`Table.Reachable.kind_ne_endOfInput`). -/
theorem expand_idempotent (h : e.expand tokens = .ok x) :
    (∀ t ∈ x.tokens, ∀ d, e.definition? t = some d → d.isFunction = true) ∧
    (e.table.Bodies (fun t => t.kind ≠ .endOfInput) →
      (∀ before t after, x.tokens = before ++ t :: after →
        e.definition? t ≠ none → opensArguments after = false) →
      e.expand x.tokens = .ok ⟨x.tokens, []⟩) := by
  have hsettled := settled_of_expand h
  refine ⟨fun t ht d hd => (hsettled t ht).isFunction hd, fun hbodies hopens => ?_⟩
  have hstays := stays_of_expand hbodies h
  rw [expand, filter_of_stays (.inl rfl) hstays, run_of_settled hsettled hopens]
  simp only [Except.map, Progress.tokens, List.append_nil, List.reverse_reverse, List.reverse_nil]
  rw [filter_of_stays (.inr rfl) hstays]

end Expander

/-! ## Names that stay -/

/-- The macros that `#define o o g` and `#define f(x) x f` define, without the blanks. -/
def stayingTable : Table :=
  (Table.define ∅ { name := "o", replacement := [wordAt "o" 11, wordAt "g" 13] }).define
    { name := "f", shape := .function ["x"] false, replacement := [wordAt "x" 14, wordAt "f" 16] }

/-- The tokens of `o f(a) f`, without the blanks. -/
def stayingCall : List Token :=
  [wordAt "o" 1, wordAt "f" 3, markAt "(" 4, wordAt "a" 5, markAt ")" 6, wordAt "f" 8]

/-- What `o f(a) f` is expanded to: the first `o` and the first `f` are painted, the last `f` could be
expanded if arguments followed. -/
def stayed : List Token :=
  [{ wordAt "o" 1 with hide := HideSet.insert ∅ "o", painted := true },
    { wordAt "g" 1 with hide := HideSet.insert ∅ "o" },
    { wordAt "a" 5 with hide := HideSet.insert ∅ "f" },
    { wordAt "f" 3 with hide := HideSet.insert ∅ "f", painted := true }, wordAt "f" 8]

/-- Painted names stay painted, and the last name finds no arguments. -/
theorem Expander.expand_idempotent_staying :
    Expander.expand { table := stayingTable } stayingCall = .ok ⟨stayed, ["o", "f"]⟩ ∧
    stayingTable.Bodies (fun t => t.kind ≠ .endOfInput) ∧
    (∀ before t after, stayed = before ++ t :: after →
      Expander.definition? { table := stayingTable } t ≠ none → opensArguments after = false) ∧
    Expander.expand { table := stayingTable } stayed = .ok ⟨stayed, []⟩ := by
  have hhalted : (Machine.step { table := stayingTable })^[10] (Machine.start stayingCall) =
      .halted (.ok ⟨stayed.reverse, ["f", "o"]⟩) := by cbv
  have hexpand : Expander.expand { table := stayingTable } stayingCall = .ok ⟨stayed, ["o", "f"]⟩ :=
    Machine.expand_of_halted 10 hhalted
  have hbodies : stayingTable.Bodies fun t => t.kind ≠ .endOfInput := by
    unfold Table.Bodies
    decide
  have hopens : ∀ before t after, stayed = before ++ t :: after →
      Expander.definition? { table := stayingTable } t ≠ none → opensArguments after = false := by
    intro before t after heq _
    have hnone : ∀ u ∈ stayed, u.text ≠ "(" := by decide
    refine Expander.opensArguments_eq_false fun u hu => .inr (hnone u ?_)
    rw [heq]
    exact List.mem_append_right _ (List.mem_cons_of_mem _ hu)
  exact ⟨hexpand, hbodies, hopens, (Expander.expand_idempotent hexpand).2 hbodies hopens⟩

/-- The definition that is read from all tokens of `m x`, with the end of the input. -/
def endingMacro : Definition where
  name := "m"
  replacement := [wordAt "x" 3, endAt 4]
  location := some ⟨"<input>", 1, 1⟩

/-- A replacement list that ends the input does so only once. -/
theorem Expander.expand_idempotent_endOfInput :
    let e : Expander := { table := Table.define ∅ endingMacro }
    let word : Token := { wordAt "x" 1 with hide := HideSet.insert ∅ "m" }
    let fin : Token := { endAt 1 with hide := HideSet.insert ∅ "m" }
    Definition.parse [wordAt "m" 1, .blank ⟨"<input>", 1, 2⟩, wordAt "x" 3, endAt 4] none false =
        .ok endingMacro ∧
      e.expand [wordAt "m" 1] = .ok ⟨[word, fin], ["m"]⟩ ∧
      (∀ t ∈ [word, fin], e.definition? t = none) ∧ e.expand [word, fin] = .ok ⟨[word], []⟩ := by
  intro e word fin
  have honce : (Machine.step e)^[4] (Machine.start [wordAt "m" 1]) =
      .halted (.ok ⟨[fin, word], ["m"]⟩) := by cbv
  have hagain : (Machine.step e)^[2] (Machine.start [word, fin]) = .halted (.ok ⟨[word], []⟩) := by cbv
  exact ⟨by cbv, Machine.expand_of_halted 4 honce, by decide, Machine.expand_of_halted 2 hagain⟩

end CPreprocessor
