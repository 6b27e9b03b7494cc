import Mathlib
import CPreprocessor.Proofs.Source.Content
import CPreprocessor.Proofs.Source.Scanner

/-!
# A source is read as its text without splices

`Source.tokenize` reads a source as it is written, from token to token. It gives what `Source.scan`
and `Source.tokens` find in the text without splices, each token at its place in the text as written
(`Source.tokenize_eq`, `Source.tokens_eq_tokenize`).
-/

namespace CPreprocessor

namespace Source

/-- Reads the tokens that are left and, where nothing stopped it, the end token. A fault goes into
the tokens and reading goes on in the next line, or else its report stops it. -/
def read (s : Source) (lenient : Bool) (r : Reader) : List Scanned × Except Report Token :=
  let start := r.skipSplices
  match _hpeek : start.peek 0 with
  | none => ([], .ok { kind := .endOfInput, text := "", location := s.locate start.place })
  | some c =>
    match _hscan : start.scanToken c with
    | (.ok (kind, text), after) =>
      let location := s.locate start.place
      let rest := s.read lenient after
      ({ token := { kind, text := String.ofList text, location } } :: rest.1, rest.2)
    | (.error fault, after) =>
      if lenient then
        let rest := s.read lenient after.recover
        ({ token := .blank (s.locate start.place), fault := some fault } :: rest.1, rest.2)
      else ([], .error (s.report (s.locate start.place) fault))
termination_by r.rest.length
decreasing_by
  · have hlt := Reader.length_scanToken_lt _hpeek List.mem_cons_self
    rw [_hscan] at hlt
    exact Nat.lt_of_lt_of_le hlt r.skipSplices_suffix.length_le
  · have hlt := Reader.length_scanToken_lt _hpeek (List.mem_cons_of_mem _ List.mem_cons_self)
    rw [_hscan] at hlt
    exact Nat.lt_of_lt_of_le hlt r.skipSplices_suffix.length_le

/-- Reads a source from its start. -/
def tokenize (s : Source) (lenient : Bool) : List Scanned × Except Report Token :=
  s.read lenient ⟨s.text.toList, ⟨s.firstLine, 1⟩⟩

/-- The report that stops reading at a token. -/
def stop? (s : Source) (lenient : Bool) (t : Scanned) : Option Report :=
  if lenient then none else s.reportOf? t

/-- What reading gives of the tokens of a source and its end token. -/
def outcome (s : Source) (lenient : Bool) (last : Token) :
    List Scanned → List Scanned × Except Report Token
  | [] => ([], .ok last)
  | t :: ts =>
    match s.stop? lenient t with
    | none =>
      let rest := s.outcome lenient last ts
      (t :: rest.1, rest.2)
    | some report => ([], .error report)

theorem outcome_lenient (s : Source) (last : Token) (ts : List Scanned) :
    s.outcome true last ts = (ts, .ok last) := by
  induction ts with
  | nil => rfl
  | cons t ts ih =>
    rw [outcome, ih]
    rfl

theorem outcome_token (s : Source) (lenient : Bool) (last : Token) (p : Place) (kind : Kind)
    (text : List Char) (ts : List Scanned) :
    s.outcome lenient last (s.token p (.token kind text) :: ts) =
      (s.token p (.token kind text) :: (s.outcome lenient last ts).1,
        (s.outcome lenient last ts).2) := by
  cases lenient with
  | false => rfl
  | true => rfl

theorem outcome_fault (s : Source) (last : Token) (p : Place) (fault : LexFault)
    (text : List Char) (ts : List Scanned) :
    s.outcome false last (s.token p (.fault fault text) :: ts) =
      ([], .error (s.report (s.locate p) fault)) := rfl

section
variable {s : Source} {lenient : Bool} {r : Reader} {c : Char} {cs : List Char}

/-- The first lexeme of what is left stands at the first place, behind the splices. -/
theorem settle_read {l : Lexeme} {n : Nat} (h : l.text = r.ahead.take n) :
    s.settle (l :: lexemes (r.ahead.drop n)) r.places =
      s.token r.skipSplices.place l ::
        s.settle (lexemes (r.skipSplices.skip n).ahead) (r.skipSplices.skip n).places := by
  rw [Reader.places_skip, Reader.ahead_skip, r.ahead_skipSplices, r.places_skipSplices, ← h,
    r.places_eq]
  rfl

theorem getLastD_places_skip (n : Nat) (r : Reader) (p : Place) :
    (r.skipSplices.skip n).places.getLastD p = r.places.getLastD p := by
  have hlength : r.places.length = r.ahead.length + 1 := length_places r.place r.rest
  have hlt : (r.ahead.take n).length < r.places.length := by
    rw [hlength, List.length_take]
    omega
  rw [Reader.places_skip, r.ahead_skipSplices, r.places_skipSplices, List.getLastD_eq_getLast?,
    List.getLast?_drop, if_neg (Nat.not_le_of_lt hlt), List.getLastD_eq_getLast?]

theorem lexemes_of_ok {kind : Kind} {n : Nat} (h : Lexeme.first c cs = .ok (kind, n)) :
    lexemes (c :: cs) =
      .token kind ((c :: cs).take (n + 1)) :: lexemes ((c :: cs).drop (n + 1)) := by
  rw [lexemes, h]
  rfl

theorem lexemes_of_error {fault : LexFault} (h : Lexeme.first c cs = .error fault) :
    lexemes (c :: cs) =
      .fault fault ((c :: cs).take (Lexeme.faultLength fault cs + 1)) ::
        lexemes ((c :: cs).drop (Lexeme.faultLength fault cs + 1)) := by
  rw [lexemes, h]
  rfl

theorem read_eq (s : Source) (lenient : Bool) (r : Reader) (p : Place) :
    s.read lenient r =
      s.outcome lenient
        { kind := .endOfInput, text := "", location := s.locate (r.places.getLastD p) }
        (s.settle (lexemes r.ahead) r.places) := by
  fun_induction read s lenient r with
  | case1 r start hpeek =>
    have hnil := Reader.peek_eq_none_iff.mp hpeek
    rw [r.ahead_skipSplices] at hnil
    rw [r.places_eq, hnil, if_pos rfl, lexemes]
    rfl
  | case2 r start c hpeek kind text after hscan location rest ih =>
    have hahead := Reader.ahead_of_peek hpeek
    obtain ⟨n, hfirst, rfl, rfl⟩ := Reader.scanToken_ok hahead hscan
    have hlexemes := lexemes_of_ok hfirst
    rw [← hahead, r.ahead_skipSplices] at hlexemes
    rw [getLastD_places_skip] at ih
    rw [hlexemes, settle_read rfl, outcome_token, ← ih]
    rw [token, Reader.ahead_skipSplices]
  | case3 r start c hpeek fault after hscan hlenient rest ih =>
    have hahead := Reader.ahead_of_peek hpeek
    obtain ⟨hfirst, hrecover⟩ := Reader.scanToken_error hahead hscan
    have hlexemes := lexemes_of_error hfirst
    rw [← hahead, r.ahead_skipSplices] at hlexemes
    subst hlenient
    rw [hrecover, getLastD_places_skip, outcome_lenient] at ih
    rw [hlexemes, settle_read rfl, outcome_lenient]
    simp only [rest, hrecover, ih]
    rfl
  | case4 r start c hpeek fault after hscan hlenient =>
    have hahead := Reader.ahead_of_peek hpeek
    obtain ⟨hfirst, -⟩ := Reader.scanToken_error hahead hscan
    have hlexemes := lexemes_of_error hfirst
    rw [← hahead, r.ahead_skipSplices] at hlexemes
    rw [hlexemes, settle_read rfl, Bool.not_eq_true _ |>.mp hlenient, outcome_fault]

end

/-- A source is read as its text without splices. -/
theorem tokenize_eq (s : Source) (lenient : Bool) :
    s.tokenize lenient = s.outcome lenient s.endToken s.scan :=
  s.read_eq lenient _ ⟨s.firstLine, 1⟩

theorem tokens_eq_tokenize (s : Source) :
    s.tokens = (s.tokenize false).2.map fun _ => (s.tokenize false).1.map Scanned.token := by
  have hstrict : ∀ ts : List Scanned, ts.mapM s.strict =
      (s.outcome false s.endToken ts).2.map fun _ =>
        (s.outcome false s.endToken ts).1.map Scanned.token := by
    intro ts
    induction ts with
    | nil => rfl
    | cons t ts ih =>
      rw [mapM_cons_except, ih, strict, outcome, stop?, if_neg Bool.false_ne_true]
      cases s.reportOf? t with
      | some report => rfl
      | none => cases (s.outcome false s.endToken ts).2 <;> rfl
  rw [tokenize_eq]
  exact hstrict s.scan

/-! ## What does not depend on the splices -/

/-- What was read, wherever it stood: the tokens, and the end token or the message of the fault. -/
def unplaced (read : List Scanned × Except Report Token) :
    List ((Kind × String) × Option LexFault) × Except String (Kind × String) :=
  (read.1.map Scanned.form, (read.2.map Token.form).mapError Report.message)

theorem message_stop? (s s' : Source) {t t' : Scanned} (h : t.form = t'.form) (lenient : Bool) :
    (s.stop? lenient t).map Report.message = (s'.stop? lenient t').map Report.message := by
  obtain ⟨-, hfault⟩ := Prod.mk.inj h
  unfold stop?
  split
  · rfl
  · rw [reportOf?, reportOf?, hfault]
    cases t'.fault with
    | none => rfl
    | some fault => rfl

theorem unplaced_cons (t : Scanned) (read : List Scanned × Except Report Token) :
    unplaced (t :: read.1, read.2) = (t.form :: (unplaced read).1, (unplaced read).2) := rfl

theorem unplaced_outcome {s s' : Source} {last last' : Token} {ts ts' : List Scanned}
    (hlast : last.form = last'.form) (h : ts.map Scanned.form = ts'.map Scanned.form)
    (lenient : Bool) :
    unplaced (s.outcome lenient last ts) = unplaced (s'.outcome lenient last' ts') := by
  induction ts generalizing ts' with
  | nil =>
    obtain rfl := List.map_eq_nil_iff.mp h.symm
    exact congrArg (fun form => ([], Except.ok form)) hlast
  | cons t ts ih =>
    obtain ⟨t', ts', rfl, ht, hts⟩ := List.map_eq_cons_iff.mp h.symm
    have hstop := message_stop? s s' ht.symm lenient
    have ih := ih hts.symm
    rw [outcome, outcome]
    cases hs : s.stop? lenient t with
    | none =>
      have hs' : s'.stop? lenient t' = none := by
        rw [hs] at hstop
        exact Option.map_eq_none_iff.mp hstop.symm
      rw [hs']
      refine (unplaced_cons t _).trans ?_
      rw [ih, ← ht]
      rfl
    | some report =>
      rw [hs] at hstop
      obtain ⟨report', hs', hmessage⟩ := Option.map_eq_some_iff.mp hstop.symm
      rw [hs']
      exact congrArg (fun message => ([], Except.error message)) hmessage.symm

theorem unplaced_tokenize {s s' : Source} (h : despliced s.text.toList = despliced s'.text.toList)
    (lenient : Bool) : unplaced (s.tokenize lenient) = unplaced (s'.tokenize lenient) := by
  rw [tokenize_eq, tokenize_eq]
  refine unplaced_outcome ?_ ?_ lenient
  · rfl
  · rw [map_form_scan, map_form_scan, h]

theorem flatMap_text_outcome {s : Source} {last last' : Token} {ts : List Scanned} {ls : List Lexeme}
    (hform : ts.map Scanned.form = ls.map Lexeme.form)
    (h : (s.outcome false last ts).2 = .ok last') :
    ((s.outcome false last ts).1.map Scanned.token ++ [last']).flatMap (fun t => t.text.toList) =
      ls.flatMap Lexeme.text ++ last.text.toList := by
  induction ls generalizing ts with
  | nil =>
    obtain rfl := List.map_eq_nil_iff.mp hform
    cases h
    rw [outcome, List.map_nil, List.nil_append, List.flatMap_singleton]
    rfl
  | cons l ls ih =>
    obtain ⟨t, ts, rfl, ht, hts⟩ := List.map_eq_cons_iff.mp hform
    rw [outcome] at h ⊢
    cases l with
    | token kind text =>
      have htext : t.token.text = String.ofList text := congrArg (fun form => form.1.2) ht
      have hfault : t.fault = none := congrArg Prod.snd ht
      have hstop : s.stop? false t = none := by
        rw [stop?, if_neg Bool.false_ne_true, reportOf?, hfault, Option.map_none]
      rw [hstop] at h ⊢
      simp only [List.map_cons, List.cons_append, List.flatMap_cons, List.append_assoc]
      rw [ih hts h, htext, String.toList_ofList, Lexeme.text]
    | fault cause skipped =>
      have hfault : t.fault = some cause := congrArg Prod.snd ht
      rw [stop?, if_neg Bool.false_ne_true, reportOf?, hfault] at h
      cases h

/-- No character is lost where nothing is reported. -/
theorem flatMap_text_tokenize {s : Source} {last : Token} (h : (s.tokenize false).2 = .ok last) :
    ((s.tokenize false).1.map Scanned.token ++ [last]).flatMap (fun t => t.text.toList) =
      despliced s.text.toList := by
  rw [tokenize_eq] at h ⊢
  rw [flatMap_text_outcome s.map_form_scan h, flatMap_text_lexemes]
  exact List.append_nil _

theorem length_lexemes_le (cs : List Char) : (lexemes cs).length ≤ cs.length := by
  fun_induction lexemes cs with
  | case1 => exact Nat.le_refl 0
  | case2 c cs kind n hfirst ih =>
    rw [List.length_drop] at ih
    rw [List.length_cons, List.length_cons]
    omega
  | case3 c cs cause hfirst n ih =>
    rw [List.length_drop] at ih
    rw [List.length_cons, List.length_cons]
    omega

theorem length_tokenize_le (s : Source) (lenient : Bool) :
    (s.tokenize lenient).1.length ≤ (despliced s.text.toList).length := by
  have houtcome : ∀ ts : List Scanned, (s.outcome lenient s.endToken ts).1.length ≤ ts.length := by
    intro ts
    induction ts with
    | nil => exact Nat.le_refl 0
    | cons t ts ih =>
      rw [outcome]
      cases s.stop? lenient t with
      | none => exact Nat.succ_le_succ ih
      | some report => exact Nat.zero_le _
  rw [tokenize_eq]
  exact Nat.le_trans (houtcome s.scan) (Nat.le_trans (Nat.le_of_eq s.length_scan) (length_lexemes_le _))

/-- Line splices are invisible and no character is lost. Reading a source as it is written gives the
tokens and the end token that its text without splices has, with every fault or up to the first one.
The tokens of a source without fault spell its text without splices. Of two sources that are the same
without splices the same is read, or the same message stops it behind the same tokens. Every token
and every fault takes at least one character, so that reading ends. -/
theorem tokenize_despliced (s s' : Source) (lenient : Bool) :
    s.tokenize true = (s.scan, .ok s.endToken) ∧
    (s.tokens = (s.tokenize false).2.map fun _ => (s.tokenize false).1.map Scanned.token) ∧
    (∀ last, (s.tokenize false).2 = .ok last →
      ((s.tokenize false).1.map Scanned.token ++ [last]).flatMap (fun t => t.text.toList) =
        despliced s.text.toList) ∧
    (despliced s.text.toList = despliced s'.text.toList →
      unplaced (s.tokenize lenient) = unplaced (s'.tokenize lenient)) ∧
    (∀ (r : Reader) (c : Char), r.peek 0 = some c →
      ∀ r' ∈ [(r.scanToken c).2, (r.scanToken c).2.recover],
        r'.rest <:+ r.rest ∧ r'.ahead.length < r.ahead.length) ∧
    (s.tokenize lenient).1.length ≤ (despliced s.text.toList).length := by
  refine ⟨?_, s.tokens_eq_tokenize, fun last => flatMap_text_tokenize,
    fun h => unplaced_tokenize h lenient, fun r c h r' hr' => ?_, s.length_tokenize_le lenient⟩
  · rw [tokenize_eq, outcome_lenient]
  · exact ⟨Reader.suffix_scanToken h hr', Reader.length_ahead_scanToken h hr'⟩

theorem tokenize_despliced_split :
    unplaced (tokenize { text := "x+\\\n='\\\\\nn'" } false) =
        unplaced (tokenize { text := "x+='\\n'" } false) ∧
      (((tokenize { text := "x+\\\n='\\\\\nn'" } false).1.map Scanned.token ++
        [endToken { text := "x+\\\n='\\\\\nn'" }]).flatMap fun t => t.text.toList) =
          "x+='\\n'".toList ∧
      (Reader.scanToken '+' ⟨['\\', '\n', '+', '\\', '\n', '='], ⟨1, 1⟩⟩).2.ahead.length < 2 := by
  obtain ⟨-, -, hspell, hsame, hscan, -⟩ :=
    tokenize_despliced { text := "x+\\\n='\\\\\nn'" } { text := "x+='\\n'" } false
  refine ⟨hsame (by decide), hspell _ ?_, (hscan _ '+' rfl _ List.mem_cons_self).2⟩
  rw [tokenize_eq]
  cbv

end Source

end CPreprocessor
