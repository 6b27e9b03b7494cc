import CPreprocessor.Proofs.Directive.PrintedText
import CPreprocessor.Proofs.Directive.Recast
import CPreprocessor.Proofs.Render.Comment

/-!
# Comments that are kept

Whether comments are kept changes nothing in a run but these comments themselves, which are blanks
in the output otherwise (`Run.start_keeping`). The two texts say the same if every comment still is
one where it is printed (`Run.forms_text_keeping`). That is not so when a `/` comes right before it
out of a macro, or when a line comment and what follows it are joined in an argument.
-/

namespace CPreprocessor

open Token

/-- Whether every comment in a list of tokens stands between the tokens before it and those after
it, once blanks take the place of the comments among the latter. -/
def CommentsStand (before : List Token) : List Token → Prop
  | [] => True
  | c :: after =>
    (c.kind = .comment → c.Stands before (after.map (Run.outputToken false))) ∧
      CommentsStand (before ++ [c]) after

instance CommentsStand.decidable : (before ts : List Token) → Decidable (CommentsStand before ts)
  | _, [] => .isTrue trivial
  | before, c :: after =>
    have := decidable (before ++ [c]) after
    inferInstanceAs (Decidable ((_ → _) ∧ _))

/-- Comments that stand say no more than blanks. -/
theorem CommentsStand.content_eq {before ts : List Token} (h : CommentsStand before ts) :
    content (despliced (render (before ++ ts.map (Run.outputToken false))).toList) =
      content (despliced (render (before ++ ts)).toList) := by
  induction ts generalizing before with
  | nil => rfl
  | cons c after ih =>
    obtain ⟨hc, hafter⟩ := h
    have hrest := ih hafter
    rw [List.append_assoc, List.append_assoc, List.singleton_append, List.singleton_append] at hrest
    rw [← hrest, List.map_cons, Run.outputToken]
    by_cases hkind : c.kind = .comment
    · rw [(hc hkind).content_eq hkind c.location, hkind]
      rfl
    · rw [decide_eq_false hkind]
      rfl

namespace Run

theorem outputToken_true (t : Token) : outputToken true t = t := by
  rw [outputToken, Bool.not_true, Bool.and_false, if_neg Bool.false_ne_true]

theorem Recasts.keeping (u : SourceUnit) :
    Recasts (u.keeping true) false id (List.map (outputToken false)) where
  judge _ _ := rfl
  emit output tokens := by
    have hkept : tokens.map (outputToken true) = tokens := List.map_id'' outputToken_true tokens
    rw [SourceUnit.keeping, hkept, List.map_append]

/-- A run that does not keep comments puts out blanks for them, and does nothing else in another
way. -/
theorem start_keeping (u : SourceUnit) (table : Table) :
    start (u.keeping false) table =
      (start (u.keeping true) table).recast id (List.map (outputToken false)) := by
  have hlines := takeLines_recast (.keeping u) u.source.logicalLines
    { table, journal := { limit := u.setup.maxErrors } }
  exact (congrArg (finish · (u.keeping false)) hlines).trans (finish_recast (.keeping u) _)

/-- Whether comments are kept changes the output by these comments alone. The text that holds them
and the text that does not are read as the same significant tokens, or neither of them can be read,
if the comments stand where they are printed. -/
theorem forms_text_keeping (u : SourceUnit) (table : Table) :
    start (u.keeping false) table =
        (start (u.keeping true) table).recast id (List.map (outputToken false)) ∧
      (CommentsStand [] (start (u.keeping true) table).output →
        ({ text := (start (u.keeping false) table).text } : Source).tokens.toOption.map forms =
          ({ text := (start (u.keeping true) table).text } : Source).tokens.toOption.map forms) :=
    by
  refine ⟨start_keeping u table, fun h => ?_⟩
  rw [Source.map_forms_tokens, Source.map_forms_tokens, start_keeping]
  exact h.content_eq

end Run

/-! ## Comments after a macro that ends in a slash -/

/-- The macro that stands for a `/`, as `#define S /` defines it. -/
def slashMacro : Definition where
  name := "S"
  replacement := [{ kind := .punctuator, text := "/", location := ⟨"<input>", 1, 11⟩ }]
  location := some ⟨"<input>", 1, 9⟩

/-- A source that invokes this macro right before a comment, or with a blank between. -/
def slashSource (apart : Bool) : SourceUnit where
  source := { text := "#define S /\nS" ++ (if apart then " " else "") ++ "/**/b // c\n" }

/-- The tokens of its second line after the name of the macro. -/
def slashTail (apart : Bool) : List Token :=
  let at_ (kind : Kind) (text : String) (column : Int) : Token :=
    { kind, text, location := ⟨"<input>", 2, if apart then column + 1 else column⟩ }
  (if apart then [{ kind := .whitespace, text := " ", location := ⟨"<input>", 2, 2⟩ }] else []) ++
    [at_ .comment "/**/" 2, at_ .identifier "b" 6, at_ .whitespace " " 7, at_ .comment "// c" 8,
      at_ .newline "\n" 12]

/-- Its second line. -/
def slashLine (apart : Bool) : List Token :=
  { kind := .identifier, text := "S", location := ⟨"<input>", 2, 1⟩ } :: slashTail apart

/-- What comes of this line. -/
def slashOutput (apart : Bool) : List Token :=
  { kind := .punctuator, text := "/", location := ⟨"<input>", 2, 1⟩,
    hide := HideSet.insert ∅ "S" } :: slashTail apart

namespace Run

theorem output_slash (apart : Bool) :
    (start ((slashSource apart).keeping true) ∅).output = slashOutput apart ∧
      (start ((slashSource apart).keeping true) ∅).journal = { limit := 100 } := by
  have hlines : takeLines ((slashSource apart).keeping true)
      { table := ∅, journal := { limit := 100 } } (slashSource apart).source.logicalLines =
        { table := Table.define ∅ slashMacro, pending := [slashLine apart],
          journal := { limit := 100 } } := by
    cases apart with
    | true => cbv
    | false => cbv
  have hexpand : Expander.expand { table := Table.define ∅ slashMacro } (slashLine apart) =
      .ok ⟨slashOutput apart, ["S"]⟩ := by
    have hhalted : (Machine.step { table := Table.define ∅ slashMacro })^[if apart then 9 else 8]
        (Machine.start (slashLine apart)) =
          .halted (.ok ⟨(slashOutput apart).reverse, ["S"]⟩) := by
      cases apart with
      | true => cbv
      | false => cbv
    refine (Machine.expand_of_halted _ hhalted).trans ?_
    cases apart with
    | true => rfl
    | false => rfl
  have hstart := start_of_pending hlines hexpand
  refine ⟨hstart.1.trans ?_, hstart.2⟩
  exact List.map_id'' outputToken_true _

/-- With a blank after the macro the comments stand, and both texts are read as the same tokens. -/
theorem forms_text_apart :
    CommentsStand [] (start ((slashSource true).keeping true) ∅).output ∧
      ({ text := (start ((slashSource true).keeping false) ∅).text } : Source).tokens.toOption.map
          forms =
        ({ text := (start ((slashSource true).keeping true) ∅).text } : Source).tokens.toOption.map
          forms := by
  have hstand : CommentsStand [] (start ((slashSource true).keeping true) ∅).output := by
    rw [(output_slash true).1]
    decide +kernel
  exact ⟨hstand, (forms_text_keeping (slashSource true) ∅).2 hstand⟩

/-- Without one the `/` and the comment are printed as `//**/`, which makes a comment of all of the
line, while the text without comments is read as two tokens. -/
theorem forms_text_glued :
    (start ((slashSource false).keeping true) ∅).journal.entries = [] ∧
      (start ((slashSource false).keeping true) ∅).text = "//**/b // c\n" ∧
      (start ((slashSource false).keeping false) ∅).text = "/ b  \n" ∧
      ({ text := (start ((slashSource false).keeping false) ∅).text } : Source).tokens.toOption.map
          forms ≠
        ({ text := (start ((slashSource false).keeping true) ∅).text } : Source).tokens.toOption.map
          forms := by
  have hplain : (start ((slashSource false).keeping false) ∅).output =
      (slashOutput false).map (outputToken false) := by
    rw [start_keeping, ← (output_slash false).1]
  rw [Source.map_forms_tokens, Source.map_forms_tokens, Run.text, Run.text, hplain,
    (output_slash false).1, (output_slash false).2]
  decide +kernel

end Run

end CPreprocessor
