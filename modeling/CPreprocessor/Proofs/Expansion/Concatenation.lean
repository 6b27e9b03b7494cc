import Mathlib
import CPreprocessor.Proofs.Except
import CPreprocessor.Proofs.Expansion.Machine

/-!
# The expansion of two lists of tokens, one after the other

What follows some tokens has a say in their expansion in two ways only: it may begin with the `(` that
makes the name before it an invocation, and it may close an argument list that is still open. Without
these the expansion of both lists is the one followed by the other (`Expander.expand_append`). Each
turn is the same in front of more tokens (`Expander.turn_append`), and so is a whole run
(`Expander.run_append`), which does not depend on what was done before it (`Expander.run_atop`).
-/

namespace CPreprocessor

variable {t : Token} {rest more : List Token}

/-! ## What an invocation sees of the tokens after it -/

theorem skipLayout_append_of_ne_nil (h : skipLayout rest ≠ []) :
    skipLayout (rest ++ more) = skipLayout rest ++ more := by
  rw [skipLayout, skipLayout, List.dropWhile_append, if_neg]
  rwa [List.isEmpty_iff]

theorem skipLayout_ne_nil_of_opensArguments (h : opensArguments rest = true) :
    skipLayout rest ≠ [] := by
  intro hnil
  rw [opensArguments, hnil] at h
  cases h

theorem opensArguments_append (hmore : opensArguments more = false) :
    opensArguments (rest ++ more) = opensArguments rest := by
  by_cases hrest : skipLayout rest = []
  · have hskip : skipLayout (rest ++ more) = skipLayout more := by
      rw [skipLayout, List.dropWhile_append, if_pos]
      · rfl
      · rwa [List.isEmpty_iff]
    rw [opensArguments, hskip, ← opensArguments, hmore, opensArguments, hrest]
    rfl
  · rw [opensArguments, skipLayout_append_of_ne_nil hrest, List.head?_append,
      Option.or_of_isSome (List.isSome_head?.mpr hrest), ← opensArguments]

/-- An argument list that is closed is read the same whatever follows it. -/
theorem ArgumentList.read_append {named depth : Nat} {variadic : Bool} {done : List (List Token)}
    {current pending : List Token} {list : ArgumentList}
    (h : read named variadic depth done current pending = some list) (more : List Token) :
    read named variadic depth done current (pending ++ more) =
      some { list with rest := list.rest ++ more } := by
  fun_induction read named variadic depth done current pending with
  | case1 => cases h
  | case2 depth done current t ts hopen ih =>
    rw [List.cons_append, read, if_pos hopen, ih h]
  | case3 done current t ts hopen hclose =>
    cases h
    rw [List.cons_append, read, if_neg hopen, if_pos hclose, if_pos rfl]
  | case4 depth done current t ts hopen hclose hdepth ih =>
    rw [List.cons_append, read, if_neg hopen, if_pos hclose, if_neg hdepth, ih h]
  | case5 depth done current t ts hopen hclose hcomma ih =>
    rw [List.cons_append, read, if_neg hopen, if_neg hclose, if_pos hcomma, ih h]
  | case6 depth done current t ts hopen hclose hcomma ih =>
    rw [List.cons_append, read, if_neg hopen, if_neg hclose, if_neg hcomma, ih h]

/-! ## A turn in front of more tokens -/

/-- An invocation with more tokens after those that follow it. -/
def Invocation.before (i : Invocation) (more : List Token) : Invocation :=
  { i with rest := i.rest ++ more }

/-- A turn with more tokens after those that follow it. -/
def Turn.before (more : List Token) : Turn → Turn
  | emit t => emit t
  | invoke i => invoke (i.before more)

namespace Expander

variable {e : Expander} {d : Definition}

theorem call_append (hopens : opensArguments rest = true) :
    (∀ i, call d t rest = .ok i → call d t (rest ++ more) = .ok (i.before more)) ∧
      ∀ error, call d t rest = .error error → error.fault ≠ .unterminatedInvocation →
        call d t (rest ++ more) = .error error := by
  have hne := skipLayout_ne_nil_of_opensArguments hopens
  have htail : (skipLayout (rest ++ more)).tail = (skipLayout rest).tail ++ more := by
    rw [skipLayout_append_of_ne_nil hne, List.tail_append_of_ne_nil hne]
  unfold call
  rw [htail]
  cases hread : ArgumentList.read d.parameters.length d.isVariadic 0 [] [] (skipLayout rest).tail with
  | none =>
    dsimp only
    refine ⟨fun i hi => ?_, fun error herror hfault => ?_⟩
    · cases hi
    · cases herror
      exact absurd rfl hfault
  | some list =>
    rw [ArgumentList.read_append hread more]
    dsimp only
    cases ArgumentList.supply d list.arguments with
    | error fault =>
      refine ⟨fun i hi => ?_, fun error herror _ => herror⟩
      cases hi
    | ok arguments =>
      refine ⟨fun i hi => ?_, fun error herror _ => ?_⟩
      · cases hi
        rfl
      · cases herror

/-- A token has the same turn in front of more tokens that do not begin with a `(`, unless the tokens
end in an open argument list. -/
theorem turn_append (hmore : opensArguments more = false) :
    (∀ turn, e.turn t rest = .ok turn → e.turn t (rest ++ more) = .ok (turn.before more)) ∧
      ∀ error, e.turn t rest = .error error → error.fault ≠ .unterminatedInvocation →
        e.turn t (rest ++ more) = .error error := by
  have settled : ∀ u : Turn,
      (∀ turn, Except.ok (ε := ExpansionError) u = .ok turn →
        Except.ok (ε := ExpansionError) (u.before more) = .ok (turn.before more)) ∧
      ∀ error : ExpansionError, Except.ok u = .error error →
        error.fault ≠ .unterminatedInvocation → Except.ok (u.before more) = .error error := by
    intro u
    refine ⟨fun turn hturn => ?_, fun error herror _ => ?_⟩
    · cases hturn
      rfl
    · cases herror
  unfold Expander.turn
  rw [opensArguments_append hmore]
  split
  · exact settled (.emit t)
  split
  · exact settled (.emit t.paint)
  split
  · exact settled (.emit (dynamicValue t))
  split
  · exact settled (.invoke _)
  split
  · rename_i hopens
    obtain ⟨hok, herror⟩ := call_append hopens
    refine ⟨fun turn hturn => ?_, fun error hturn hfault => ?_⟩
    · obtain ⟨i, hi, rfl⟩ := map_eq_ok_iff.mp hturn
      rw [hok i hi]
      rfl
    · rw [herror error (map_eq_error_iff.mp hturn) hfault]
      rfl
  · exact settled (.emit t)

/-! ## A run in front of more tokens -/

/-- A run that ends goes on with the tokens that follow, and one that fails, but for an argument list
that is not closed, fails whatever follows. -/
theorem run_append (hmore : opensArguments more = false) (depth : Nat) (done : Progress)
    (tokens : List Token) :
    match e.run depth done tokens with
    | .ok p => e.run depth done (tokens ++ more) = e.run depth p more
    | .error error => error.fault ≠ .unterminatedInvocation →
        e.run depth done (tokens ++ more) = .error error := by
  induction depth, done, tokens using run_induction with
  | nil depth done => rfl
  | failed depth done t rest error hturn =>
    exact fun hfault => run_of_error ((turn_append hmore).2 error hturn hfault)
  | emit depth done t rest u hturn ih =>
    rw [List.cons_append, run_of_emit ((turn_append hmore).1 _ hturn)]
    exact ih
  | deep depth done t rest i hturn hdeep =>
    exact fun _ => run_of_deep (i := i.before more) ((turn_append hmore).1 _ hturn) hdeep
  | argument depth done t rest i error hturn hdeep hinner ih =>
    exact fun _ => run_of_argument (i := i.before more) ((turn_append hmore).1 _ hturn) hdeep hinner
  | replacement depth done t rest i inner error hturn hdeep hinner hbody ih =>
    exact fun _ => run_of_replacement (i := i.before more) ((turn_append hmore).1 _ hturn) hdeep hinner hbody
  | invoke depth done t rest i inner body hturn hdeep hinner hbody iha ih =>
    have hrun : e.run depth done (t :: (rest ++ more)) = _ :=
      run_of_body (i := i.before more) ((turn_append hmore).1 _ hturn) hdeep hinner hbody
    rw [List.cons_append, hrun, Invocation.before, ← List.append_assoc]
    exact ih

end Expander

/-! ## What was done before -/

/-- What an expansion has produced on top of what was done before it. -/
def Progress.atop (p before : Progress) : Progress :=
  ⟨p.output ++ before.output, p.trace ++ before.trace⟩

theorem Progress.invoke_atop (p before : Progress) (name : String) (inner : List Progress) :
    (p.atop before).invoke name inner = (p.invoke name inner).atop before := by
  rw [atop, atop, invoke, invoke, List.append_assoc, List.cons_append]

namespace Expander

variable {e : Expander}

/-- A run does not depend on what was done before it. -/
theorem run_atop (before : Progress) (depth : Nat) (done : Progress) (tokens : List Token) :
    e.run depth (done.atop before) tokens = (e.run depth done tokens).map (·.atop before) := by
  induction depth, done, tokens using run_induction with
  | nil depth done => exact run_nil
  | failed depth done t rest error hturn => exact run_of_error hturn
  | emit depth done t rest u hturn ih =>
    rw [run_of_emit hturn, ← ih]
    rfl
  | deep depth done t rest i hturn hdeep => exact run_of_deep hturn hdeep
  | argument depth done t rest i error hturn hdeep hinner ih =>
    exact run_of_argument hturn hdeep hinner
  | replacement depth done t rest i inner error hturn hdeep hinner hbody ih =>
    exact run_of_replacement hturn hdeep hinner hbody
  | invoke depth done t rest i inner body hturn hdeep hinner hbody iha ih =>
    rw [run_of_body hturn hdeep hinner hbody, ← ih, Progress.invoke_atop]

/-- Unless some tokens begin with a `(`, they are expanded after others as they are on their own: if
the tokens before them can be expanded, the outcome is that of the later ones, with the tokens and the
invocations of the earlier ones before it; if not, the error is the same, but for an argument list
that the later tokens may close. A token for the end of the input counts for nothing. -/
theorem expand_append (e : Expander) (earlier later : List Token)
    (hlater : opensArguments (later.filter fun t => t.kind ≠ .endOfInput) = false) :
    match e.expand earlier with
    | .ok first => e.expand (earlier ++ later) = (e.expand later).map fun second =>
        ⟨first.tokens ++ second.tokens, first.trace ++ second.trace⟩
    | .error error => error.fault ≠ .unterminatedInvocation →
        e.expand (earlier ++ later) = .error error := by
  have hrun := run_append (e := e) hlater 0 {} (earlier.filter fun t => t.kind ≠ .endOfInput)
  rw [← List.filter_append] at hrun
  unfold expand
  cases hfirst : e.run 0 {} (earlier.filter fun t => t.kind ≠ .endOfInput) with
  | error error =>
    rw [hfirst] at hrun
    intro hfault
    rw [hrun hfault]
    rfl
  | ok p =>
    rw [hfirst] at hrun
    have hatop := run_atop (e := e) p 0 {} (later.filter fun t => t.kind ≠ .endOfInput)
    rw [show Progress.atop {} p = p from rfl] at hatop
    dsimp only [Except.map]
    rw [hrun, hatop]
    cases e.run 0 {} (later.filter fun t => t.kind ≠ .endOfInput) with
    | error error => rfl
    | ok q =>
      dsimp only [Except.map, Progress.atop, Progress.tokens]
      rw [List.reverse_append, List.reverse_append, List.filter_append]

end Expander

/-! ## A name at the end -/

/-- The macros that `#define f(x) x` and `#define g f` define. -/
def aliasTable : Table :=
  Table.define
    (Table.define ∅ { name := "f", shape := .function ["x"] false, replacement := [wordAt "x" 6] })
    { name := "g", replacement := [wordAt "f" 3] }

/-- The name that `g` stands for takes no arguments from `;f(g)`, where it is hidden in its own
expansion. -/
theorem Expander.expand_append_name :
    opensArguments ([markAt ";" 2, wordAt "f" 3, markAt "(" 4, wordAt "g" 5, markAt ")" 6].filter
      fun t => t.kind ≠ .endOfInput) = false ∧
    Expander.expand { table := aliasTable }
        ([wordAt "g" 1] ++ [markAt ";" 2, wordAt "f" 3, markAt "(" 4, wordAt "g" 5, markAt ")" 6]) =
      .ok ⟨[{ wordAt "f" 1 with hide := HideSet.insert ∅ "g" }, markAt ";" 2,
        { wordAt "f" 5 with
          hide := (HideSet.insert ∅ "g").union (HideSet.insert ∅ "f"), painted := true }],
        ["g", "f", "g"]⟩ := by
  have hlater : opensArguments
      ([markAt ";" 2, wordAt "f" 3, markAt "(" 4, wordAt "g" 5, markAt ")" 6].filter
        fun t => t.kind ≠ .endOfInput) = false := by decide
  have hfirst : Expander.expand { table := aliasTable } [wordAt "g" 1] =
      .ok ⟨[{ wordAt "f" 1 with hide := HideSet.insert ∅ "g" }], ["g"]⟩ := by
    have hhalted : (Machine.step { table := aliasTable })^[3] (Machine.start [wordAt "g" 1]) =
        .halted (.ok ⟨[{ wordAt "f" 1 with hide := HideSet.insert ∅ "g" }], ["g"]⟩) := by cbv
    exact Machine.expand_of_halted 3 hhalted
  have hsecond : Expander.expand { table := aliasTable }
      [markAt ";" 2, wordAt "f" 3, markAt "(" 4, wordAt "g" 5, markAt ")" 6] =
        .ok ⟨[markAt ";" 2, { wordAt "f" 5 with
          hide := (HideSet.insert ∅ "g").union (HideSet.insert ∅ "f"), painted := true }],
          ["f", "g"]⟩ := by
    have hhalted : (Machine.step { table := aliasTable })^[7]
        (Machine.start [markAt ";" 2, wordAt "f" 3, markAt "(" 4, wordAt "g" 5, markAt ")" 6]) =
          .halted (.ok ⟨[{ wordAt "f" 5 with
            hide := (HideSet.insert ∅ "g").union (HideSet.insert ∅ "f"), painted := true },
            markAt ";" 2], ["g", "f"]⟩) := by cbv
    exact Machine.expand_of_halted 7 hhalted
  have happend := Expander.expand_append { table := aliasTable } [wordAt "g" 1]
    [markAt ";" 2, wordAt "f" 3, markAt "(" 4, wordAt "g" 5, markAt ")" 6] hlater
  rw [hfirst, hsecond] at happend
  exact ⟨hlater, happend⟩

/-- The macro that `#define f() ;` defines. -/
def callTable : Table :=
  Table.define ∅ { name := "f", shape := .function [] false, replacement := [markAt ";" 5] }

/-- A name and its arguments find each other over an end of the input, though what begins there begins with
no `(`. -/
theorem Expander.expand_append_endOfInput :
    opensArguments [endAt 2, markAt "(" 2, markAt ")" 3] = false ∧
    Expander.expand { table := callTable } [wordAt "f" 1] = .ok ⟨[wordAt "f" 1], []⟩ ∧
    Expander.expand { table := callTable } [endAt 2, markAt "(" 2, markAt ")" 3] =
      .ok ⟨[markAt "(" 2, markAt ")" 3], []⟩ ∧
    Expander.expand { table := callTable } ([wordAt "f" 1] ++ [endAt 2, markAt "(" 2, markAt ")" 3]) =
      .ok ⟨[{ markAt ";" 1 with hide := HideSet.insert ∅ "f" }], ["f"]⟩ := by
  have hcall : (Machine.step { table := callTable })^[3]
      (Machine.start ([wordAt "f" 1] ++ [endAt 2, markAt "(" 2, markAt ")" 3])) =
        .halted (.ok ⟨[{ markAt ";" 1 with hide := HideSet.insert ∅ "f" }], ["f"]⟩) := by cbv
  have hname : (Machine.step { table := callTable })^[2] (Machine.start [wordAt "f" 1]) =
      .halted (.ok ⟨[wordAt "f" 1], []⟩) := by cbv
  have hmarks : (Machine.step { table := callTable })^[3]
      (Machine.start [endAt 2, markAt "(" 2, markAt ")" 3]) =
        .halted (.ok ⟨[markAt ")" 3, markAt "(" 2], []⟩) := by cbv
  exact ⟨by decide, Machine.expand_of_halted 2 hname, Machine.expand_of_halted 3 hmarks,
    Machine.expand_of_halted 3 hcall⟩

end CPreprocessor
