import CPreprocessor.Directive.Fault
import CPreprocessor.Directive.Line
import CPreprocessor.Journal
import CPreprocessor.Options
import CPreprocessor.Snippet

/-!
A run over a source. Lines are taken one by one: a directive acts on the state of the run, a live
text line waits until the next directive, and the text lines that wait are expanded together, so
that an invocation may span lines. An error is entered into the journal and the run goes on; it
stops at a live `#error` and when the journal is full.
-/

namespace CPreprocessor

/-- What a run is set up with: its options, and a measure of the stack that it runs on. The latter is no
option but comes with the machine; what is stated of runs is stated for all of them. -/
structure Setup extends Options where
  /-- how deep unary operators and conditional operators may be nested in a condition -/
  nestingLimit : Nat := usualNestingLimit
deriving DecidableEq, Inhabited

/-- What a run is over: a source, and what the run is set up with. -/
structure SourceUnit where
  source : Source
  setup : Setup := {}
deriving DecidableEq, Inhabited

/-- The state of a run. -/
structure Run where
  table : Table
  /-- the open conditionals, innermost first -/
  frames : List Frame := []
  verdicts : List Verdict := []
  output : List Token := []
  /-- live text lines not expanded yet -/
  pending : List (List Token) := []
  journal : Journal
  /-- whether the run ended before the end of its source, or in an open conditional -/
  aborted : Bool := false

namespace SourceUnit

def listing (u : SourceUnit) : Listing := .ofText u.source.text

/-- The line quoted for a directive whose `#` is at a place. -/
def quote? (u : SourceUnit) (location : Location) : Option String := u.listing.quote? location

def expander (u : SourceUnit) (table : Table) : Expander :=
  { table, limit := u.setup.maxDepth, frozen := u.setup.frozen }

/-- The value of a condition, and the undefined names in it that were evaluated. -/
def evaluate (u : SourceUnit) (table : Table) (tokens : List Token)
    (location : Option Location) : Except Report Value × List Token :=
  match Defined.resolve table.isDefined tokens with
  | .error fault => (.error (ConditionFault.report fault none), [])
  | .ok resolved =>
    match (u.expander table).expand resolved with
    | .error error => (.error (error.reportIn u.listing), [])
    | .ok expansion =>
      let setting : Setting :=
        { isDefined := table.isDefined, location, nestingLimit := u.setup.nestingLimit }
      let evaluation := CPreprocessor.evaluate setting expansion.tokens
      (evaluation.result.mapError (ConditionFault.report · (location.bind u.quote?)),
        evaluation.undefined)

end SourceUnit

namespace Run

def isLive (r : Run) : Bool := CPreprocessor.isLive r.frames

/-- Enters an error after which the run goes on. -/
def record (r : Run) (report : Report) : Run := { r with journal := r.journal.error report false }

/-- Enters an error that ends the run. -/
def abort (r : Run) (report : Report) : Run :=
  { r with journal := r.journal.error report true, aborted := true }

def warn (r : Run) (message : String) (location : Option Location) : Run :=
  { r with journal := r.journal.warning message location }

/-- Enters a fault of a directive whose `#` is at `mark`. -/
def refuse (r : Run) (u : SourceUnit) (fault : DirectiveFault) (location mark : Location) : Run :=
  r.record (DirectiveFault.report ⟨fault, location⟩ (u.quote? mark))

/-- Warns of tokens that follow a directive which is complete without them. -/
def warnExtra (r : Run) (directive : String) (extra : List Token) : Run :=
  match extra with
  | [] => r
  | t :: _ => r.warn ("extra tokens at end of #" ++ directive ++ " directive") t.location

/-! ## Text -/

/-- A token as it is put out: a comment becomes a blank, unless comments are kept. -/
def outputToken (keepComments : Bool) (t : Token) : Token :=
  if t.kind = .comment && !keepComments then .blank t.location else t

def emit (r : Run) (u : SourceUnit) (tokens : List Token) : Run :=
  { r with output := r.output ++ tokens.map (outputToken u.setup.keepComments) }

/-- Expands a line on its own and puts it out, or enters why it cannot be expanded. -/
def expandLine (u : SourceUnit) (r : Run) (line : List Token) : Run :=
  match (u.expander r.table).expand line with
  | .ok expansion => r.emit u expansion.tokens
  | .error error => r.record (error.reportIn u.listing)

/-- Expands the lines that wait, together if possible. If not, each is expanded on its own and only
those that fail are lost. -/
def flush (r : Run) (u : SourceUnit) : Run :=
  let lines := r.pending
  let r := { r with pending := [] }
  if lines.isEmpty then r
  else
    match (u.expander r.table).expand lines.flatten with
    | .ok expansion => r.emit u expansion.tokens
    | .error _ => lines.foldl (expandLine u) r

/-! ## Macros -/

/-- `#define` -/
def define (r : Run) (rest : List Token) (mark : Location) : Run :=
  match Definition.parse rest mark false with
  | .error fault => r.record (DefinitionFault.report fault)
  | .ok d =>
    if (r.table.lookup d.name).any Definition.builtin then
      r.warn ("redefining builtin macro '" ++ d.name ++ "' ignored") d.location
    else
      let defined := { r with table := r.table.define d }
      match r.table.conflict? d with
      | none => defined
      | some conflict =>
        let detail := (conflict.hint?.map fun hint => " (" ++ hint ++ ")").getD ""
        defined.warn (conflict.message ++ detail) d.location

/-- The macro name that a directive is given, with the tokens after it. -/
def macroName (directive : String) (rest : List Token) (mark : Location) :
    Except (Located DirectiveFault) (Token × List Token) :=
  match significant rest with
  | [] => .error ⟨.missingName directive, mark⟩
  | name :: extra =>
    if name.isIdentifier then .ok (name, extra) else .error ⟨.nameNotIdentifier, name.location⟩

/-- `#undef` -/
def undefine (r : Run) (u : SourceUnit) (rest : List Token) (mark : Location) : Run :=
  match macroName "undef" rest mark with
  | .error fault => r.record (DirectiveFault.report fault (u.quote? mark))
  | .ok (name, extra) =>
    let r := r.warnExtra "undef" extra
    let r :=
      if (r.table.lookup name.text).any Definition.builtin then
        r.warn ("undefining builtin macro '" ++ name.text ++ "'") name.location
      else r
    { r with table := r.table.undefine name.text name.location }

/-! ## Conditionals -/

/-- A condition as written, without comments. -/
def conditionText (rest : List Token) : String :=
  String.ofList (Text.strip (render (rest.filter fun t => t.kind ≠ .comment)).toList)

/-- Enters how a directive was decided. -/
def judge (r : Run) (directive : Conditional) (mark : Location) (taken : Option Bool)
    (rest : List Token) : Run :=
  { r with verdicts := r.verdicts ++ [⟨directive, mark, taken, conditionText rest⟩] }

def setBranch (r : Run) (branch : Branch) : Run :=
  match r.frames with
  | [] => r
  | frame :: outer => { r with frames := { frame with branch } :: outer }

/-- Whether a condition holds. A faulty condition is reported and does not. So is one with a number that
is too long to be converted, though no handler takes that error: `run` tells what it does. -/
def test (r : Run) (u : SourceUnit) (rest : List Token) (mark : Location) : Run × Bool :=
  let (result, undefined) := u.evaluate r.table rest mark
  let warnOf (r : Run) (t : Token) : Run :=
    r.warn ("'" ++ t.text ++ "' is not defined, evaluates to 0") t.location
  let r := if u.setup.warnUndefined then undefined.foldl warnOf r else r
  match result with
  | .ok value => (r, value.truthy)
  | .error report => (r.record report, false)

/-- Ends a branch-selecting directive: its branch becomes live if it is taken. -/
def select (r : Run) (directive : Conditional) (mark : Location) (taken : Bool)
    (rest : List Token) : Run :=
  (if taken then r.setBranch .active else r).judge directive mark (some taken) rest

/-- `#if`, `#ifdef` and `#ifndef`. The frame is opened even if the condition is faulty. -/
def openFrame (r : Run) (u : SourceUnit) (opening : Opening) (rest : List Token)
    (mark : Location) : Run :=
  let push (branch : Branch) : Run :=
    { r with frames := { opening, branch, location := mark } :: r.frames }
  if r.isLive then
    let r := push .awaiting
    match opening with
    | .ifTrue =>
      let (r, taken) := r.test u rest mark
      r.select (.opening opening) mark taken rest
    | .ifDefined | .ifUndefined =>
      match macroName opening.name rest mark with
      | .error fault => r.record (DirectiveFault.report fault (u.quote? mark))
      | .ok (name, extra) =>
        (r.warnExtra opening.name extra).select (.opening opening) mark
          (r.table.isDefined name.text = (opening = .ifDefined)) rest
  else (push .dead).judge (.opening opening) mark none rest

/-- Warns of tokens after `#else` and `#endif`, where what encloses the frame is live. -/
def warnExtraInside (r : Run) (directive : Conditional) (rest : List Token) : Run :=
  if CPreprocessor.isLive r.frames.tail then r.warnExtra directive.name (significant rest) else r

/-- `#else` in an open frame. -/
def otherwise (r : Run) (frame : Frame) (outer : List Frame) (rest : List Token) (mark : Location) :
    Run :=
  let r := r.warnExtraInside .otherwise rest
  let enter (branch : Branch) : Run :=
    { r with frames := { frame with branch, elseSeen := true } :: outer }
  match frame.branch with
  | .dead => (enter .dead).judge .otherwise mark none rest
  | .awaiting => (enter .active).judge .otherwise mark (some true) rest
  | .active | .done => (enter .done).judge .otherwise mark (some false) rest

/-- `#elif` in an open frame. Its condition is evaluated only while no branch was taken. -/
def elseIf (r : Run) (u : SourceUnit) (frame : Frame) (rest : List Token) (mark : Location) :
    Run :=
  match frame.branch with
  | .awaiting =>
    let (r, taken) := r.test u rest mark
    r.select .elseIf mark taken rest
  | .active => (r.setBranch .done).judge .elseIf mark none rest
  | .done | .dead => r.judge .elseIf mark none rest

def conditional (r : Run) (u : SourceUnit) (directive : Conditional) (rest : List Token)
    (mark : Location) : Run :=
  match directive, r.frames with
  | .opening opening, _ => r.openFrame u opening rest mark
  | .closing, [] => r.refuse u .unmatchedEndif mark mark
  | .closing, _ :: outer => { r.warnExtraInside .closing rest with frames := outer }
  | .otherwise, [] | .elseIf, [] => r.refuse u (.withoutIf directive.name) mark mark
  | .otherwise, frame :: outer =>
    if frame.elseSeen then
      r.refuse u (.afterElse directive.name frame.location.line) mark mark
    else r.otherwise frame outer rest mark
  | .elseIf, frame :: _ =>
    if frame.elseSeen then
      r.refuse u (.afterElse directive.name frame.location.line) mark mark
    else r.elseIf u frame rest mark

/-! ## Lines -/

/-- The message of an `#error` or `#warning`: the text of its logical line, or else its tokens. -/
def messageText (u : SourceUnit) (rest : List Token) (mark : Location) : String :=
  let text :=
    match MessageLine.message? (u.listing.logicalLine mark.line) with
    | some text => text
    | none => (rest.map fun t => t.text.toList).flatten
  String.ofList (Text.strip text)

/-- Carries out a directive. All but the conditional ones count only in live text. -/
def directive (r : Run) (u : SourceUnit) (mark name : Token) (rest : List Token) : Run :=
  let place := mark.location
  match Keyword.ofText? name.text with
  | some (.conditional c) => r.conditional u c rest place
  | keyword =>
    if r.isLive then
      match keyword with
      | some .define => r.define rest place
      | some .undefine => r.undefine u rest place
      | some .error =>
        r.abort (DirectiveFault.report ⟨.user (messageText u rest place), place⟩ (u.quote? place))
      | some .warning =>
        r.warn (DirectiveFault.withMessage "warning" (messageText u rest place)) place
      | some .include => r.warn "#include is not supported; directive ignored" place
      | some .ignored | some (.conditional _) => r
      | none => r.refuse u (.unknown name.text) name.location place
    else r

/-- Takes a line. Text that waits is expanded before a directive is carried out. -/
def takeLine (r : Run) (u : SourceUnit) (line : List Token) : Run :=
  match LineForm.of line with
  | .text => if r.isLive then { r with pending := r.pending ++ [line] } else r
  | .nothing => r.flush u
  | .invalid mark name =>
    let r := r.flush u
    if r.isLive then r.refuse u .invalid name.location mark.location else r
  | .directive mark name rest => (r.flush u).directive u mark name rest

/-- Whether the logical line at a place asks for an error or a warning. -/
def inMessage (u : SourceUnit) (location : Location) : Bool :=
  (MessageLine.message? (u.listing.logicalLine location.line)).isSome

/-- Enters the lexical faults of a line. They count only in live text, and not in the text of an
`#error` or `#warning`. -/
def noteFaults (r : Run) (u : SourceUnit) (line : List Scanned) : Run :=
  if r.isLive then
    let faulty := line.filter fun t => t.fault.isSome && !inMessage u t.token.location
    (faulty.filterMap u.source.reportOf?).foldl record r
  else r

/-- Stops a run whose journal is full. -/
def checkJournal (r : Run) : Run := if r.journal.isFull then { r with aborted := true } else r

/-- Takes lines until the run is stopped. The line after that is still read, though not taken. -/
def takeLines (u : SourceUnit) (r : Run) : List (List Scanned) → Run
  | [] => r
  | line :: lines =>
    let r := r.noteFaults u line
    if r.aborted then r
    else takeLines u ((r.takeLine u (line.map Scanned.token)).checkJournal) lines

/-- Ends a run at the end of its source. Only the innermost open conditional is reported. -/
def finish (r : Run) (u : SourceUnit) : Run :=
  if r.aborted then r
  else
    let r := r.flush u
    match r.frames with
    | [] => r
    | frame :: _ =>
      r.abort (DirectiveFault.report ⟨.unterminated frame.opening.name, frame.location⟩
        (u.quote? frame.location))

/-- Goes through a source from a table, and past every error but those that stop it. -/
def start (u : SourceUnit) (table : Table) : Run :=
  let r : Run := { table, journal := { limit := u.setup.maxErrors } }
  (takeLines u r u.source.logicalLines).finish u

/-- Runs over a source from a table. An error that no handler takes ends the run without a result; up to
there it is no other than `start`. -/
def run (u : SourceUnit) (table : Table) : Except Report Run :=
  match (start u table).journal.uncaught? with
  | some report => .error report
  | none => .ok (start u table)

def text (r : Run) : String := render r.output

def identifiers (r : Run) : List String := (r.output.filter Token.isIdentifier).map Token.text

end Run

/-- Runs over a source with the macros that the options ask for. -/
def preprocess (source : Source) (options : Options) : Except Report Run :=
  match options.startTable with
  | .error report => .error report
  | .ok table => Run.run { source, setup := { toOptions := options } } table

end CPreprocessor
