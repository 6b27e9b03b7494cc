import CPreprocessor.Proofs.Expansion.Relocation
import CPreprocessor.Proofs.Macro.Checked

/-!
# Definitions at other places

The tokens of a `#define` at other places define the same macro, at its place
(`Definition.parse_relocate`).
-/

namespace CPreprocessor

variable {f : Location → Location}

/-- A fault at another place. -/
def Located.relocate {α : Type} (f : Location → Location) (x : Located α) : Located α :=
  { x with location := x.location.map f }

/-- What was read before some tokens, with these moved. -/
def relocateAfter {α : Type} (f : Location → Location) :
    α × Bool × List Token → α × Bool × List Token
  | (read, variadic, after) => (read, variadic, after.map (.relocate f))

namespace Definition

/-- A definition at another place. -/
def relocate (f : Location → Location) (d : Definition) : Definition :=
  { d with replacement := d.replacement.map (.relocate f), location := d.location.map f }

theorem alike_relocate (d : Definition) : d.Alike (d.relocate f) := by
  refine ⟨rfl, rfl, ?_, rfl⟩
  rw [relocate, List.map_map]
  rfl

theorem parameter_relocate (seen : List String) (t : Token) (rest : List Token) :
    parameter seen (t.relocate f) (rest.map (.relocate f)) =
      moved (.relocate f) (relocateAfter f) (parameter seen t rest) := by
  unfold parameter
  rw [Token.isPunctuator_relocate, Token.isIdentifier_relocate, Token.text_relocate, skipLayout_relocate]
  split
  · rfl
  split
  · split
    · rfl
    split
    · rfl
    · cases skipLayout rest with
      | nil => rfl
      | cons dots after =>
        simp only [List.map_cons]
        rw [Token.isPunctuator_relocate]
        split
        · rfl
        · rfl
  · rfl

theorem parameterList_relocate (last : Location) (seen : List String) (tokens : List Token) :
    parameterList (f last) seen (tokens.map (.relocate f)) =
      moved (.relocate f) (relocateAfter f) (parameterList last seen tokens) := by
  have hskip : ∀ {ts us : List Token}, skipLayout ts = us →
      skipLayout (ts.map (.relocate f)) = us.map (.relocate f) := by
    rintro ts _ rfl
    exact skipLayout_relocate ts
  fun_induction parameterList last seen tokens with
  | case1 seen tokens hnil => exact parameterList_nil _ _ (hskip hnil)
  | case2 seen tokens t rest heq fault hfault =>
    rw [parameterList_cons _ _ (hskip heq), parameter_relocate, hfault]
    rfl
  | case3 seen tokens t rest heq name variadic after hread hnil =>
    rw [parameterList_cons _ _ (hskip heq), parameter_relocate, hread]
    simp only [moved_ok, relocateAfter]
    rw [hskip hnil]
    rfl
  | case4 seen tokens t rest heq name variadic after hread separator tail hafter hclose =>
    rw [parameterList_cons _ _ (hskip heq), parameter_relocate, hread]
    simp only [moved_ok, relocateAfter]
    rw [hskip hafter]
    exact if_pos hclose
  | case5 seen tokens t rest heq name variadic after hread separator tail hafter hclose hcomma ih =>
    rw [parameterList_cons _ _ (hskip heq), parameter_relocate, hread]
    simp only [moved_ok, relocateAfter]
    rw [hskip hafter]
    exact (if_neg hclose).trans ((if_pos hcomma).trans ih)
  | case6 seen tokens t rest heq name variadic after hread separator tail hafter hclose hcomma =>
    rw [parameterList_cons _ _ (hskip heq), parameter_relocate, hread]
    simp only [moved_ok, relocateAfter]
    rw [hskip hafter]
    exact (if_neg hclose).trans (if_neg hcomma)

theorem parameterClause_relocate (last : Location) (tokens : List Token) :
    parameterClause (f last) (tokens.map (.relocate f)) =
      moved (.relocate f) (relocateAfter f) (parameterClause last tokens) := by
  rw [parameterClause, skipLayout_relocate, parameterClause]
  cases skipLayout tokens with
  | nil => rfl
  | cons t rest =>
    simp only [List.map_cons]
    rw [Token.isPunctuator_relocate]
    split
    · rfl
    · exact parameterList_relocate last [] (t :: rest)

theorem shapeOf_relocate (last : Location) (tokens : List Token) :
    shapeOf (f last) (tokens.map (.relocate f)) =
      moved (.relocate f) (Prod.map id (List.map (.relocate f))) (shapeOf last tokens) := by
  cases tokens with
  | nil => rfl
  | cons t rest =>
    rw [List.map_cons, shapeOf, shapeOf, Token.isPunctuator_relocate, parameterClause_relocate]
    split
    · cases parameterClause last rest with
      | error fault => rfl
      | ok read => rfl
    · rfl

theorem normalise_relocate (gap : Option Location) (tokens : List Token) :
    normalise (gap.map f) (tokens.map (.relocate f)) = (normalise gap tokens).map (.relocate f) := by
  induction tokens generalizing gap with
  | nil => rfl
  | cons t ts ih =>
    rw [List.map_cons, normalise, normalise, Token.isLayout_relocate]
    split
    · rw [← ih]
      cases gap with
      | none => rfl
      | some location => rfl
    · have hrest := ih none
      rw [Option.map_none] at hrest
      rw [List.map_append, List.map_cons, ← hrest]
      cases gap with
      | none => rfl
      | some location => rfl

theorem significant_relocate (tokens : List Token) :
    significant (tokens.map (.relocate f)) = (significant tokens).map (.relocate f) :=
  List.filter_map

theorem strayStringize?_relocate (parameters : List String) (tokens : List Token) :
    strayStringize? parameters (tokens.map (.relocate f)) =
      (strayStringize? parameters tokens).map (.relocate f) := by
  induction tokens with
  | nil => rfl
  | cons t ts ih =>
    have hnext : ((ts.map (Token.relocate f)).head?.any
        fun u => u.isIdentifier && parameters.contains u.text) =
          ts.head?.any fun u => u.isIdentifier && parameters.contains u.text := by
      rw [List.head?_map, Option.any_map]
      rfl
    rw [List.map_cons, strayStringize?, strayStringize?, Token.isPunctuator_relocate, hnext, ih]
    split
    · rfl
    · rfl

theorem operatorFault?_relocate (shape : Shape) (replacement : List Token) :
    operatorFault? shape (replacement.map (.relocate f)) =
      (operatorFault? shape replacement).map (.relocate f) := by
  have hedges : (significant (replacement.map (Token.relocate f))).head?.toList ++
      (significant (replacement.map (Token.relocate f))).getLast?.toList =
        ((significant replacement).head?.toList ++
          (significant replacement).getLast?.toList).map (.relocate f) := by
    rw [significant_relocate, List.head?_map, List.getLast?_map, Option.toList_map,
      Option.toList_map, List.map_append]
  simp only [operatorFault?]
  rw [hedges, List.find?_map, significant_relocate]
  have hpaste : (fun t : Token => t.isPunctuator "##") ∘ Token.relocate f =
      fun t => t.isPunctuator "##" := rfl
  rw [hpaste]
  cases ((significant replacement).head?.toList ++ (significant replacement).getLast?.toList).find?
      (·.isPunctuator "##") with
  | some edge => rfl
  | none =>
    cases shape with
    | object => rfl
    | function parameters variadic =>
      simp only [Option.map_none]
      rw [strayStringize?_relocate, Option.map_map, Option.map_map]
      rfl

/-- A definition is read alike wherever its tokens stand. -/
theorem parse_relocate (tokens : List Token) (location : Option Location) (builtin : Bool) :
    parse (tokens.map (.relocate f)) (location.map f) builtin =
      moved (.relocate f) (.relocate f) (parse tokens location builtin) := by
  rw [parse, skipLayout_relocate, parse]
  cases skipLayout tokens with
  | nil => rfl
  | cons name rest =>
    have hlast : ((tokens.map (Token.relocate f)).getLastD (name.relocate f)).location =
        f (tokens.getLastD name).location := by
      rw [List.getLastD_eq_getLast?, List.getLast?_map, List.getLastD_eq_getLast?, Option.getD_map]
      rfl
    simp only [List.map_cons]
    rw [Token.isIdentifier_relocate, Token.text_relocate, hlast, shapeOf_relocate]
    split
    · rfl
    split
    · rfl
    · cases shapeOf (tokens.getLastD name).location rest with
      | error fault => rfl
      | ok read =>
        have hreplacement := normalise_relocate (f := f) none (skipLayout read.2)
        rw [Option.map_none] at hreplacement
        simp only [moved_ok, Prod.map_fst, Prod.map_snd, id]
        rw [skipLayout_relocate, hreplacement, operatorFault?_relocate]
        cases operatorFault? read.1 (normalise none (skipLayout read.2)) with
        | some fault => rfl
        | none => rfl

end Definition

end CPreprocessor
