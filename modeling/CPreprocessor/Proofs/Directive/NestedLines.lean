import CPreprocessor.Proofs.Directive.StatedCondition
import CPreprocessor.Proofs.Directive.Uncaught

/-!
# Runs over nested lines

On properly nested lines the frames of a run come to the same as the recursion into groups that
`Block.process` is: an error escapes from the run where it is the outcome of the block, and else the run puts
out what the block puts out, with the same macros and verdicts (`Run.run_eq_process`).
-/

namespace CPreprocessor

/-! ## Outcomes -/

/-- What a run has come to where lines have a meaning: an error escaped if it is what they mean, and else
none did and the run is as what they bring about calls for. -/
def Run.Comes {α : Type} (r : Run) (meaning : Except Report α) (P : α → Prop) : Prop :=
  match meaning with
  | .error report => r.journal.uncaught? = some report
  | .ok a => r.journal.uncaught? = none ∧ P a

variable {u : SourceUnit} {r r' : Run} {table : Table} {line : List Scanned} {live taken : Bool}
  {frame : Frame} {outer : List Frame}

namespace Run.Comes

variable {α β : Type} {x : Except Report α} {P : α → Prop}

/-- An error that escaped stays what the run comes to. -/
theorem bind {f : α → Except Report β} {Q : β → Prop} (h : r.Comes x P) (hextends : Extends r r')
    (hf : ∀ a, r.journal.uncaught? = none → P a → r'.Comes (f a) Q) : r'.Comes (x >>= f) Q := by
  cases x with
  | error report => exact hextends.uncaught? h
  | ok a => exact hf a h.1 h.2

/-- No error escapes from what is done after it. -/
theorem extend {Q : α → Prop} (h : r.Comes x P) (hextends : Extends r r')
    (hf : ∀ a, r.journal.uncaught? = none → P a → r'.journal.uncaught? = none ∧ Q a) :
    r'.Comes x Q := by
  cases x with
  | error report => exact hextends.uncaught? h
  | ok a => exact hf a h.1 h.2

theorem mono {Q : α → Prop} (h : r.Comes x P) (hPQ : ∀ a, P a → Q a) : r.Comes x Q := by
  cases x with
  | error report => exact h
  | ok a => exact ⟨h.1, hPQ a h.2⟩

end Run.Comes

namespace Effect

theorem text_nil (u : SourceUnit) (e : Effect) : e.text u [] = e := by
  rw [text, Run.expansion_nil]
  simp

theorem tests_eq (u : SourceUnit) (table : Table) (rest : List Token) (mark : Location) :
    tests u table rest mark =
      match u.escape? table rest mark with
      | some report => .error report
      | none => .ok (holds u table rest mark) := by
  unfold tests SourceUnit.escape? holds
  cases (u.evaluate table rest mark).1 with
  | ok value => rfl
  | error report =>
    simp only
    split
    · rfl
    · rfl

/-- A decision that counts is one about a condition, or it is `holds`. -/
theorem selects_eq (u : SourceUnit) (table : Table) (opening : Opening) (rest : List Token)
    (mark : Location) :
    selects u table opening rest mark =
      match (if opening = .ifTrue then u.escape? table rest mark else none) with
      | some report => .error report
      | none => .ok (opens u table opening rest mark) := by
  cases opening with
  | ifTrue => exact tests_eq ..
  | _ => rfl

end Effect

namespace Run

/-- A decision that is made on a line, where the line enters the error that escapes from it. -/
theorem Comes.decided {counts verdict : Bool} {error? : Option Report} {P : Option Bool → Prop}
    (h : P (if counts then some verdict else none)) :
    r.journal.uncaught? = (if counts then error? else none) →
    r.Comes (Effect.decided counts
      (match error? with
      | some report => .error report
      | none => .ok verdict)) P := by
  intro hjournal
  cases counts with
  | false => exact ⟨hjournal, h⟩
  | true =>
    cases error? with
    | none => exact ⟨hjournal, h⟩
    | some report => exact hjournal

/-! ## Lines -/

theorem uncaught?_take_of_none (hjournal : r.journal.uncaught? = none)
    (h : r.lineEscape? u (line.map Scanned.token) = none) :
    (take u r line).journal.uncaught? = none := by
  rw [uncaught?_take, hjournal, h]
  rfl

theorem lineEscape?_of_conditional {c : Conditional} (h : ConditionalLine c) (u : SourceUnit)
    (r : Run) : r.lineEscape? u h.tokens = r.escape? u c h.rest h.mark.location := by
  rw [lineEscape?, h.form]
  simp only [h.keyword]

theorem lineEscape?_of_plain (plain : PlainLine) (u : SourceUnit) (r : Run) :
    r.lineEscape? u plain.val = none := by
  have hplain := plain.property
  unfold lineEscape?
  split
  · rename_i hform
    rw [hform] at hplain
    split
    · rename_i c hkeyword
      exact absurd hkeyword (hplain c)
    · rfl
  · rfl

theorem comes_opening {opening : Opening} (h : ConditionalLine (.opening opening))
    (hline : line.map Scanned.token = h.tokens) (hoperand : HasOperand opening h.rest)
    (hlive : r.isLive = live) (hjournal : r.journal.uncaught? = none) :
    let e := r.effect.text u r.pending
    (take u r line).Comes
      (Effect.decided live (Effect.selects u e.table opening h.rest h.mark.location)) fun taken =>
        (take u r line).effect = e.judge h taken ∧ (take u r line).pending = [] ∧
          ∃ frame, (take u r line).frames = frame :: r.frames ∧
            frame.Stands live (taken = some true) ∧ (frame.branch = .active ↔ taken = some true) := by
  intro e
  rw [Effect.selects_eq]
  refine .decided (take_opening line h hline hoperand hlive) ?_
  rw [uncaught?_take, hjournal, hline, lineEscape?_of_conditional]
  have htable : e.table = r.table := rfl
  rw [htable]
  cases opening with
  | ifTrue =>
    rw [escape?, hlive]
    rfl
  | _ =>
    cases live with
    | false => rfl
    | true => rfl

theorem comes_elseIf (h : ConditionalLine .elseIf) (hline : line.map Scanned.token = h.tokens)
    (hframes : r.frames = frame :: outer) (hstands : frame.Stands live taken)
    (hjournal : r.journal.uncaught? = none) :
    let e := r.effect.text u r.pending
    (take u r line).Comes
      (Effect.decided (live && !taken) (Effect.tests u e.table h.rest h.mark.location)) fun now =>
        (take u r line).effect = e.judge h now ∧ (take u r line).pending = [] ∧
          ∃ frame', (take u r line).frames = frame' :: outer ∧
            frame'.Stands live (taken || now = some true) ∧
            (frame'.branch = .active ↔ now = some true) := by
  intro e
  rw [Effect.tests_eq]
  refine .decided (take_elseIf line h hline hframes hstands) ?_
  rw [uncaught?_take, hjournal, hline, lineEscape?_of_conditional]
  have htable : e.table = r.table := rfl
  obtain ⟨helse, hbranch⟩ := hstands
  simp only [htable, escape?, hframes, helse, Bool.not_false, Bool.true_and, Option.none_or,
    decide_eq_true_eq]
  cases hb : frame.branch with
  | awaiting =>
    rw [hb] at hbranch
    obtain ⟨rfl, rfl⟩ := hbranch
    rfl
  | active | done =>
    rw [hb] at hbranch
    obtain ⟨rfl, rfl⟩ := hbranch
    rfl
  | dead =>
    rw [hb] at hbranch
    obtain rfl : live = false := hbranch
    rfl

/-- Text before a directive, with the directive left to be taken. -/
theorem texts_spec {lines : List (List Scanned)} {texts : List TextLine}
    (hlines : lines.map (·.map Scanned.token) = textTokens texts) (hpending : r.pending = [])
    (hlive : r.isLive = live) (hjournal : r.journal.uncaught? = none) :
    (lines.foldl (take u) r).effect.text u (lines.foldl (take u) r).pending =
        (if live then r.effect.text u (textTokens texts) else r.effect) ∧
      (lines.foldl (take u) r).frames = r.frames ∧
      (lines.foldl (take u) r).isLive = live ∧
      (lines.foldl (take u) r).journal.uncaught? = none := by
  obtain ⟨heffect, hframes, htexts⟩ := take_texts (u := u) (r := r) hlines
  refine ⟨?_, hframes, by rw [isLive, hframes, ← hlive, isLive], ?_⟩
  · rw [heffect, htexts, hpending, hlive]
    cases live with
    | true => rfl
    | false => exact Effect.text_nil ..
  · have hquiet : ∀ line ∈ lines, ∀ r : Run, r.lineEscape? u (line.map Scanned.token) = none := by
      intro line hline r
      obtain ⟨text, htext⟩ : ∃ text : TextLine, text.val = line.map Scanned.token := by
        have hmem : line.map Scanned.token ∈ textTokens texts := hlines ▸ List.mem_map_of_mem hline
        obtain ⟨text, -, htext⟩ := List.mem_map.mp hmem
        exact ⟨text, htext⟩
      rw [lineEscape?, ← htext, text.property]
    have hhandles : Handles r (lines.foldl (take u) r) := .foldl lines r fun r line hline => by
      rw [Handles, uncaught?_take, hquiet line hline, Option.or_none]
    exact Eq.trans hhandles hjournal

end Run

open Run

/-! ## Blocks -/

mutual

/-- A block is taken as it means. -/
theorem Block.take_spec (b : Block HasOperand) (u : SourceUnit) (r : Run)
    (lines : List (List Scanned)) (live : Bool)
    (hlines : lines.map (·.map Scanned.token) = b.lines) (hpending : r.pending = [])
    (hlive : r.isLive = live) (hjournal : r.journal.uncaught? = none) :
    (lines.foldl (take u) r).Comes (b.process u live r.effect) fun e =>
      (lines.foldl (take u) r).effect.text u (lines.foldl (take u) r).pending = e ∧
        (lines.foldl (take u) r).frames = r.frames := by
  cases b with
  | last texts =>
    obtain ⟨heffect, hframes, -, hquiet⟩ := texts_spec (u := u) hlines hpending hlive hjournal
    exact ⟨hquiet, heffect, hframes⟩
  | plain texts line after =>
    obtain ⟨before, others, rfl, htexts, hothers⟩ := List.map_eq_append_iff.mp hlines
    obtain ⟨scanned, rest, rfl, hline, hrest⟩ := List.map_eq_cons_iff.mp hothers
    obtain ⟨heffect₁, hframes₁, hlive₁, hquiet₁⟩ :=
      texts_spec (u := u) htexts hpending hlive hjournal
    rw [List.foldl_append, List.foldl_cons]
    generalize before.foldl (take u) r = r₁ at heffect₁ hframes₁ hlive₁ hquiet₁ ⊢
    obtain ⟨heffect₂, hframes₂, hpending₂⟩ := take_plain (u := u) (r := r₁) scanned line hline
    have hquiet₂ : (take u r₁ scanned).journal.uncaught? = none :=
      uncaught?_take_of_none hquiet₁ (by rw [hline, lineEscape?_of_plain])
    generalize take u r₁ scanned = r₂ at heffect₂ hframes₂ hpending₂ hquiet₂ ⊢
    have hlive₂ : r₂.isLive = live := by rw [isLive_of_frames hframes₂, ← hlive₁]; rfl
    have hmeaning : r₂.effect =
        if live then (r.effect.text u (textTokens texts)).plain line else r.effect := by
      rw [heffect₂, heffect₁, hlive₁]
      cases live with
      | true => rfl
      | false => rfl
    rw [Block.process, ← hmeaning]
    exact (after.take_spec u r₂ rest live hrest hpending₂ hlive₂ hquiet₂).mono fun e ⟨he, hframes⟩ =>
      ⟨he, hframes.trans (hframes₂.trans hframes₁)⟩
  | group texts opening line opens body branches after =>
    obtain ⟨before, others, rfl, htexts, hothers⟩ := List.map_eq_append_iff.mp hlines
    obtain ⟨scanned, others, rfl, hline, hothers⟩ := List.map_eq_cons_iff.mp hothers
    obtain ⟨inner, others, rfl, hinner, hothers⟩ := List.map_eq_append_iff.mp hothers
    obtain ⟨sides, rest, rfl, hsides, hrest⟩ := List.map_eq_append_iff.mp hothers
    obtain ⟨heffect₁, hframes₁, hlive₁, hquiet₁⟩ :=
      texts_spec (u := u) htexts hpending hlive hjournal
    rw [List.foldl_append, List.foldl_cons, List.foldl_append, List.foldl_append]
    generalize before.foldl (take u) r = r₁ at heffect₁ hframes₁ hlive₁ hquiet₁ ⊢
    have hopening := comes_opening (u := u) (r := r₁) line hline opens hlive₁ hquiet₁
    simp only [heffect₁] at hopening
    rw [Block.process]
    refine hopening.bind
      (((Extends.foldl_take _ inner).trans (.foldl_take _ sides)).trans (.foldl_take _ rest))
      fun taken hquiet₂ h => ?_
    obtain ⟨heffect₂, hpending₂, frame, hframes₂, hstands, hactive⟩ := h
    generalize take u r₁ scanned = r₂ at heffect₂ hframes₂ hpending₂ hquiet₂ ⊢
    have hlive₂ : r₂.isLive = decide (taken = some true) := by
      rw [isLive_of_frames hframes₂, isLive_cons, decide_eq_decide]
      exact hactive
    rw [← heffect₂]
    refine (body.take_spec u r₂ inner _ hinner hpending₂ hlive₂ hquiet₂).bind
      ((Extends.foldl_take _ sides).trans (.foldl_take _ rest)) fun e hquiet₃ h => ?_
    obtain ⟨rfl, hframes₃⟩ := h
    generalize inner.foldl (take u) r₂ = r₃ at hframes₃ hquiet₃ ⊢
    refine (branches.take_spec u r₃ sides live _ frame r₁.frames hsides (hframes₃.trans hframes₂)
      hlive₁ hstands hquiet₃).bind (.foldl_take _ rest) fun e hquiet₄ h => ?_
    obtain ⟨rfl, hframes₄, hpending₄⟩ := h
    generalize sides.foldl (take u) r₃ = r₄ at hframes₄ hpending₄ hquiet₄ ⊢
    have hlive₄ : r₄.isLive = live := (isLive_of_frames hframes₄).trans hlive₁
    exact (after.take_spec u r₄ rest live hrest hpending₄ hlive₄ hquiet₄).mono fun e ⟨he, hframes⟩ =>
      ⟨he, hframes.trans (hframes₄.trans hframes₁)⟩

theorem Branches.take_spec (b : Branches HasOperand) (u : SourceUnit) (r : Run)
    (lines : List (List Scanned)) (live taken : Bool) (frame : Frame) (outer : List Frame)
    (hlines : lines.map (·.map Scanned.token) = b.lines) (hframes : r.frames = frame :: outer)
    (hlive : CPreprocessor.isLive outer = live) (hstands : frame.Stands live taken)
    (hjournal : r.journal.uncaught? = none) :
    (lines.foldl (take u) r).Comes (b.process u live taken (r.effect.text u r.pending)) fun e =>
      (lines.foldl (take u) r).effect = e ∧ (lines.foldl (take u) r).frames = outer ∧
        (lines.foldl (take u) r).pending = [] := by
  cases b with
  | closed line =>
    obtain ⟨scanned, rest, rfl, hline, hrest⟩ := List.map_eq_cons_iff.mp hlines
    rw [List.map_eq_nil_iff] at hrest
    subst hrest
    have hescape : r.lineEscape? u line.tokens = none := lineEscape?_of_conditional line u r
    exact ⟨uncaught?_take_of_none hjournal (by rw [hline, hescape]),
      take_closing scanned line hline hframes⟩
  | elseIf line body others =>
    obtain ⟨scanned, rest, rfl, hline, hrest⟩ := List.map_eq_cons_iff.mp hlines
    obtain ⟨inner, sides, rfl, hinner, hsides⟩ := List.map_eq_append_iff.mp hrest
    rw [List.foldl_cons, List.foldl_append, Branches.process]
    refine (comes_elseIf (u := u) line hline hframes hstands hjournal).bind
      ((Extends.foldl_take _ inner).trans (.foldl_take _ sides)) fun now hquiet₂ h => ?_
    obtain ⟨heffect₂, hpending₂, frame', hframes₂, hstands', hactive⟩ := h
    generalize take u r scanned = r₂ at heffect₂ hframes₂ hpending₂ hquiet₂ ⊢
    have hlive₂ : r₂.isLive = decide (now = some true) := by
      rw [isLive_of_frames hframes₂, isLive_cons, decide_eq_decide]
      exact hactive
    rw [← heffect₂]
    refine (body.take_spec u r₂ inner _ hinner hpending₂ hlive₂ hquiet₂).bind
      (.foldl_take _ sides) fun e hquiet₃ h => ?_
    obtain ⟨rfl, hframes₃⟩ := h
    exact others.take_spec u _ sides live _ frame' outer hsides (hframes₃.trans hframes₂) hlive
      hstands' hquiet₃
  | otherwise line body closing =>
    obtain ⟨scanned, rest, rfl, hline, hrest⟩ := List.map_eq_cons_iff.mp hlines
    obtain ⟨inner, last, rfl, hinner, hlast⟩ := List.map_eq_append_iff.mp hrest
    obtain ⟨last, rest, rfl, hclosing, hrest⟩ := List.map_eq_cons_iff.mp hlast
    rw [List.map_eq_nil_iff] at hrest
    subst hrest
    rw [List.foldl_cons, List.foldl_append]
    obtain ⟨heffect₂, hpending₂, frame', hframes₂, hactive⟩ :=
      take_otherwise (u := u) (r := r) scanned line hline hframes hstands
    have hescape : r.lineEscape? u line.tokens = none := lineEscape?_of_conditional line u r
    have hquiet₂ : (take u r scanned).journal.uncaught? = none :=
      uncaught?_take_of_none hjournal (by rw [hline, hescape])
    generalize take u r scanned = r₂ at heffect₂ hframes₂ hpending₂ hquiet₂ ⊢
    have hlive₂ : r₂.isLive = decide ((if live then some (!taken) else none) = some true) := by
      rw [isLive_of_frames hframes₂, isLive_cons, decide_eq_decide]
      exact hactive
    rw [Branches.process, ← heffect₂]
    refine (body.take_spec u r₂ inner _ hinner hpending₂ hlive₂ hquiet₂).extend
      (.foldl_take _ [last]) fun e hquiet₃ h => ?_
    obtain ⟨rfl, hframes₃⟩ := h
    have hescape : (inner.foldl (take u) r₂).lineEscape? u closing.tokens = none :=
      lineEscape?_of_conditional closing u _
    exact ⟨uncaught?_take_of_none hquiet₃ (by rw [hclosing, hescape]),
      take_closing (u := u) last closing hclosing (hframes₃.trans hframes₂)⟩

end

/-! ## Runs -/

/-- The lines after the one that a run is stopped at do not count for the first error that escapes. -/
theorem Run.uncaught?_of_takeLines {lines : List (List Scanned)} {report : Report}
    (h : (takeLines u r lines).journal.uncaught? = some report) :
    (lines.foldl (take u) r).journal.uncaught? = some report := by
  induction lines generalizing r with
  | nil => exact h
  | cons line lines ih =>
    rw [takeLines] at h
    split at h
    · rw [Handles.noteFaults] at h
      exact (Extends.foldl_take r (line :: lines)).uncaught? h
    · exact ih h

/-- Runs over properly nested lines come to what the lines mean. If a number that is too long to be
converted is among what they mean, its error is what comes of the run. If not, the run has a result, and
it is what they bring about, provided that it meets no live `#error` (the only fatal error there is in such
lines) and its journal is not filled. -/
theorem Run.run_eq_process (u : SourceUnit) (table : Table) (block : Block HasOperand)
    (hlines : u.source.logicalLines.map (·.map Scanned.token) = block.lines)
    (hfatal : ∀ r, run u table = .ok r → ∀ d ∈ r.journal.entries, d.isFatal = false)
    (hfull : ∀ r, run u table = .ok r → r.journal.isFull = false) :
    match block.process u true ⟨table, [], []⟩ with
    | .error report => run u table = .error report
    | .ok meaning => ∃ r, run u table = .ok r ∧ r.output = meaning.output ∧
        r.table = meaning.table ∧ r.verdicts = meaning.verdicts := by
  have hspec := block.take_spec u (initial u table) u.source.logicalLines true hlines rfl rfl rfl
  have hstart : start u table = (takeLines u (initial u table) u.source.logicalLines).finish u := rfl
  have heffect : (initial u table).effect = ⟨table, [], []⟩ := rfl
  rw [heffect] at hspec
  cases hrun : run u table with
  | error report =>
    rw [run_eq_error_iff, hstart, Handles.finish] at hrun
    have hfold := uncaught?_of_takeLines hrun
    cases hmeaning : block.process u true ⟨table, [], []⟩ with
    | error report' =>
      rw [hmeaning] at hspec
      cases hfold.symm.trans hspec
      rfl
    | ok meaning =>
      rw [hmeaning] at hspec
      cases hfold.symm.trans hspec.1
  | ok r =>
    obtain ⟨hquiet, rfl⟩ := run_eq_ok_iff.mp hrun
    have haborted : (start u table).aborted = false := by
      rw [Bool.eq_false_iff]
      intro h
      rcases start_aborted h with ⟨d, hd, hd'⟩ | h
      · cases (hfatal _ hrun d hd).symm.trans hd'
      · cases (hfull _ hrun).symm.trans h
    have htake : (takeLines u (initial u table) u.source.logicalLines).aborted = false := by
      rw [Bool.eq_false_iff]
      intro h
      rw [hstart, finish, if_pos h, h] at haborted
      cases haborted
    rw [hstart, Handles.finish] at hquiet
    rw [← takeLines_of_not_aborted htake] at hspec
    rw [hstart, finish, if_neg (by rw [htake]; exact Bool.false_ne_true)]
    generalize takeLines u (initial u table) u.source.logicalLines = taken at hspec hquiet ⊢
    cases hmeaning : block.process u true ⟨table, [], []⟩ with
    | error report =>
      rw [hmeaning] at hspec
      cases hquiet.symm.trans hspec
    | ok meaning =>
      rw [hmeaning] at hspec
      obtain ⟨-, htext, hframes⟩ := hspec
      obtain ⟨hflush, hframes', -⟩ := flush_spec u taken
      have hnil : (taken.flush u).frames = [] := by rw [hframes', hframes]; rfl
      rw [htext] at hflush
      simp only [hnil]
      exact ⟨_, rfl, congrArg Effect.output hflush, congrArg Effect.table hflush,
        congrArg Effect.verdicts hflush⟩

/-- Where `A` is not defined, the text after `#else` is put out. -/
theorem Run.output_otherwise :
    (run { source := { text := "#ifdef A\nb\n#else\nc\n#endif\n" } } ∅).map
      (fun r => r.output.map Token.text) = .ok ["c", "\n"] := by
  let at_ (kind : Kind) (text : String) (line column : Int) : Token :=
    { kind, text, location := ⟨"<input>", line, column⟩ }
  let opening : ConditionalLine (.opening .ifDefined) :=
    ⟨[at_ .punctuator "#" 1 1, at_ .identifier "ifdef" 1 2, at_ .whitespace " " 1 7,
        at_ .identifier "A" 1 8, at_ .newline "\n" 1 9],
      at_ .punctuator "#" 1 1, at_ .identifier "ifdef" 1 2,
      [at_ .whitespace " " 1 7, at_ .identifier "A" 1 8], by cbv, by cbv⟩
  let otherwise : ConditionalLine .otherwise :=
    ⟨[at_ .punctuator "#" 3 1, at_ .identifier "else" 3 2, at_ .newline "\n" 3 6],
      at_ .punctuator "#" 3 1, at_ .identifier "else" 3 2, [], by cbv, by cbv⟩
  let closing : ConditionalLine .closing :=
    ⟨[at_ .punctuator "#" 5 1, at_ .identifier "endif" 5 2, at_ .newline "\n" 5 7],
      at_ .punctuator "#" 5 1, at_ .identifier "endif" 5 2, [], by cbv, by cbv⟩
  let first : TextLine := ⟨[at_ .identifier "b" 2 1, at_ .newline "\n" 2 2], by cbv⟩
  let second : TextLine := ⟨[at_ .identifier "c" 4 1, at_ .newline "\n" 4 2], by cbv⟩
  have hoperand : HasOperand .ifDefined opening.rest :=
    .inr ⟨at_ .identifier "A" 1 8, [], by cbv, by cbv⟩
  have hlines : ({ text := "#ifdef A\nb\n#else\nc\n#endif\n" } : Source).logicalLines.map
      (·.map Scanned.token) =
        [opening.tokens, first.val, otherwise.tokens, second.val, closing.tokens] := by
    cbv
  let block : Block HasOperand :=
    .group [] .ifDefined opening hoperand (.last [first]) (.otherwise otherwise (.last [second]) closing)
      (.last [])
  have hentries : (start { source := { text := "#ifdef A\nb\n#else\nc\n#endif\n" } }
      ∅).journal.entries = [] := by cbv
  have hfull : (start { source := { text := "#ifdef A\nb\n#else\nc\n#endif\n" } }
      ∅).journal.isFull = false := by cbv
  have hmeaning : (block.process { source := { text := "#ifdef A\nb\n#else\nc\n#endif\n" } } true
      ⟨∅, [], []⟩).map (fun e => e.output.map Token.text) = .ok ["c", "\n"] := by cbv
  have h := run_eq_process { source := { text := "#ifdef A\nb\n#else\nc\n#endif\n" } } ∅ block hlines
    (fun r hr => by rw [← (run_eq_ok_iff.mp hr).2, hentries]; exact List.forall_mem_nil _)
    (fun r hr => by rw [← (run_eq_ok_iff.mp hr).2, hfull])
  obtain ⟨meaning, hprocess, houtput⟩ := map_eq_ok_iff.mp hmeaning
  rw [hprocess] at h
  obtain ⟨r, hr, hsame, -⟩ := h
  rw [hr]
  exact congrArg Except.ok ((congrArg (List.map Token.text) hsame).trans houtput)

/-- The line of an `#if` and that of its `#endif` are nested, but no run over them has a result if the
condition is a number that is too long. -/
theorem Run.run_ofCondition_nested :
    (∃ block : Block HasOperand, (SourceUnit.ofCondition longNumber).source.logicalLines.map
      (·.map Scanned.token) = block.lines) ∧
      ∀ r, run (.ofCondition longNumber) ∅ ≠ .ok r := by
  obtain ⟨t, htokens, htext⟩ := tokens_longNumber
  obtain ⟨mark, name, rest, hform, hname, -⟩ :=
    form_conditionLine not_mem_newline_longNumber not_goesOn_longNumber htokens
  obtain ⟨line, hlines⟩ := logicalLines_ofCondition not_mem_newline_longNumber not_goesOn_longNumber
    (faultless_of_condition not_mem_newline_longNumber htokens) usualNestingLimit
  have hfinds := finds_ofCondition ∅ usualNestingLimit not_mem_newline_longNumber not_goesOn_longNumber
    htokens
  rw [outcome_longNumber htext] at hfinds
  refine ⟨⟨.group [] .ifTrue ⟨_, mark, name, rest, hform, by rw [hname]; rfl⟩ (.inl rfl) (.last [])
    (.closed (closingDirective "<input>" line)) (.last []), ?_⟩, fun r hr => ?_⟩
  · rw [hlines]
    rfl
  · obtain ⟨report, htells, hran⟩ := hfinds
    rw [Finds, htells.isOwn] at hran
    cases hran.symm.trans hr

end CPreprocessor
