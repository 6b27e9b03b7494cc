import CPreprocessor.Proofs.Source.Append
import CPreprocessor.Proofs.Source.Boundary

/-!
# What a text says

The content of a text is its sequence of significant tokens, each by its kind and spelling. White
space says nothing (`content_layout`), and the content of a source is that of its text without the
splices (`Source.map_forms_tokens`).
-/

namespace CPreprocessor

/-- What a token is, wherever it came from. -/
def Token.form (t : Token) : Kind × String := (t.kind, t.text)

/-- The significant tokens of a list, wherever they came from. -/
def forms (ts : List Token) : List (Kind × String) := (significant ts).map Token.form

theorem forms_cons (t : Token) (ts : List Token) :
    forms (t :: ts) = if t.isLayout then forms ts else t.form :: forms ts := by
  rw [forms, significant, List.filter_cons]
  cases t.isLayout <;> rfl

theorem forms_append (ts us : List Token) : forms (ts ++ us) = forms ts ++ forms us := by
  rw [forms, significant, List.filter_append, List.map_append]
  rfl

theorem forms_of_layout {ts : List Token} (h : ∀ t ∈ ts, t.isLayout = true) : forms ts = [] := by
  rw [forms, significant, List.filter_eq_nil_iff.mpr, List.map_nil]
  intro t ht
  simp [h t ht]

theorem mem_forms {ts : List Token} {t : Token} (ht : t ∈ ts) :
    t.isLayout = true ∨ t.form ∈ forms ts := by
  cases hlayout : t.isLayout with
  | true => exact .inl rfl
  | false => exact .inr (List.mem_map_of_mem (List.mem_filter.mpr ⟨ht, by simp [hlayout]⟩))

namespace Lexeme

/-- The significant tokens of lexemes, unless one of these is a fault. -/
def contents : List Lexeme → Option (List (Kind × String))
  | [] => some []
  | .token kind text :: ls =>
    (contents ls).map fun rest => if kind.isLayout then rest else (kind, String.ofList text) :: rest
  | .fault _ _ :: _ => none

end Lexeme

/-- The significant tokens of a text without splices, unless there is a fault. -/
def content (u : List Char) : Option (List (Kind × String)) := Lexeme.contents (lexemes u)

section
variable {c : Char} {cs u : List Char} {kind : Kind} {n : Nat}

theorem content_nil : content [] = some [] := by rw [content, lexemes, Lexeme.contents]

theorem content_cons (h : Lexeme.first c cs = .ok (kind, n)) :
    content (c :: cs) = (content (cs.drop n)).map fun rest =>
      if kind.isLayout then rest else (kind, String.ofList (c :: cs.take n)) :: rest := by
  rw [content, lexemes, h, Lexeme.contents, content]

theorem content_fault {cause : LexFault} (h : Lexeme.first c cs = .error cause) :
    content (c :: cs) = none := by
  rw [content, lexemes, h, Lexeme.contents]

theorem content_cons_layout (h : Lexeme.first c cs = .ok (kind, n)) (hkind : kind.isLayout = true) :
    content (c :: cs) = content (cs.drop n) := by
  rw [content_cons h]
  simp only [hkind, if_true]
  exact Option.map_id'

theorem Lexeme.first_blank (h : Lexeme.isBlank c = true) (cs : List Char) :
    Lexeme.first c cs = .ok (.whitespace, Lexeme.spanLength Lexeme.isBlank cs) := by
  have hnewline : c ≠ '\n' := by
    rintro rfl
    cases h
  rw [Lexeme.first, if_neg hnewline, if_pos h]

theorem content_blank (h : Lexeme.isBlank c = true) (u : List Char) :
    content (c :: u) = content u := by
  rw [content_cons_layout (Lexeme.first_blank h u) rfl]
  cases u with
  | nil => rfl
  | cons d u =>
    by_cases hd : Lexeme.isBlank d = true
    · have hspan : Lexeme.spanLength Lexeme.isBlank (d :: u) =
          Lexeme.spanLength Lexeme.isBlank u + 1 := by
        rw [Lexeme.spanLength, List.takeWhile_cons_of_pos hd, List.length_cons, Lexeme.spanLength]
      rw [hspan, List.drop_succ_cons, content_cons_layout (Lexeme.first_blank hd u) rfl]
    · rw [Lexeme.spanLength, List.takeWhile_cons_of_neg hd]
      rfl

theorem content_newline (u : List Char) : content ('\n' :: u) = content u :=
  content_cons_layout (n := 0) rfl rfl

/-- White space at the start of a text says nothing. -/
theorem content_layout {space : List Char}
    (h : ∀ c ∈ space, Lexeme.isBlank c = true ∨ c = '\n') (u : List Char) :
    content (space ++ u) = content u := by
  induction space with
  | nil => rfl
  | cons c space ih =>
    obtain ⟨hc, hspace⟩ := List.forall_mem_cons.mp h
    rw [List.cons_append]
    rcases hc with hc | rfl
    · rw [content_blank hc, ih hspace]
    · rw [content_newline, ih hspace]

end

/-! ## Sources -/

/-- What a token is, and the fault of the text that it stands in for. -/
def Scanned.form (t : Scanned) : (Kind × String) × Option LexFault := (t.token.form, t.fault)

/-- The form of the token of a lexeme. -/
def Lexeme.form : Lexeme → (Kind × String) × Option LexFault
  | token kind text => ((kind, String.ofList text), none)
  | fault cause _ => ((.whitespace, " "), some cause)

namespace Source

variable {s : Source} {ls : List Lexeme}

/-- The token that was read, or the report of its fault. -/
def strict (s : Source) (t : Scanned) : Except Report Token :=
  match s.reportOf? t with
  | none => .ok t.token
  | some report => .error report

/-- The tokens of a source are those of its scan, if none of these stands in for a fault. -/
theorem tokens_eq_ok_iff {ts : List Token} :
    s.tokens = .ok ts ↔ s.scan = ts.map fun t => { token := t } := by
  suffices h : ∀ scanned : List Scanned, scanned.mapM s.strict = .ok ts ↔
      scanned = ts.map fun t => { token := t } from h s.scan
  intro scanned
  induction scanned generalizing ts with
  | nil =>
    rw [mapM_nil_except, Except.ok.injEq, eq_comm (a := []), eq_comm (a := []), List.map_eq_nil_iff]
  | cons t scanned ih =>
    obtain ⟨token, fault⟩ := t
    rw [mapM_cons_except, strict, reportOf?]
    constructor
    · intro h
      cases fault with
      | some cause => cases h
      | none =>
        obtain ⟨us, hus, rfl⟩ := map_eq_ok_iff.mp h
        rw [List.map_cons, ← ih.mp hus]
    · intro h
      obtain ⟨u, us, rfl, heq, hus⟩ := List.map_eq_cons_iff.mp h.symm
      cases heq
      exact map_eq_ok_iff.mpr ⟨us, ih.mpr hus.symm, rfl⟩

theorem map_token_scan {ts : List Token} (h : s.tokens = .ok ts) : s.scan.map Scanned.token = ts := by
  rw [tokens_eq_ok_iff.mp h, List.map_map]
  exact List.map_id ts

theorem exists_mem_scan {ts : List Token} {t : Token} (h : s.tokens = .ok ts) (ht : t ∈ ts) :
    ∃ read ∈ s.scan, read.token = t :=
  List.mem_map.mp ((map_token_scan h).symm ▸ ht)

/-- What tokens say where nothing stopped their reading is what their lexemes say. -/
theorem map_forms_mapM {ts : List Scanned} (h : ts.map Scanned.form = ls.map Lexeme.form) :
    (ts.mapM s.strict).toOption.map forms = Lexeme.contents ls := by
  induction ls generalizing ts with
  | nil =>
    obtain rfl := List.map_eq_nil_iff.mp h
    rfl
  | cons l ls ih =>
    obtain ⟨t, ts, rfl, ht, hts⟩ := List.map_eq_cons_iff.mp h
    rw [mapM_cons_except, strict, reportOf?]
    cases l with
    | fault cause skipped =>
      have hfault : t.fault = some cause := congrArg Prod.snd ht
      rw [hfault]
      rfl
    | token kind text =>
      have hfault : t.fault = none := congrArg Prod.snd ht
      have hform : t.token.form = (kind, String.ofList text) := congrArg Prod.fst ht
      have hlayout : t.token.isLayout = kind.isLayout := congrArg (fun form => form.1.isLayout) hform
      rw [hfault, Lexeme.contents, ← ih hts, ← hlayout, ← hform]
      cases ts.mapM s.strict with
      | error report => rfl
      | ok ts => exact congrArg some (forms_cons t.token ts)

theorem map_form_scan (s : Source) :
    s.scan.map Scanned.form = (lexemes (despliced s.text.toList)).map Lexeme.form :=
  s.map_scan fun p l => by
    cases l with
    | token kind text => rfl
    | fault cause skipped => rfl

theorem length_scan (s : Source) : s.scan.length = (lexemes (despliced s.text.toList)).length := by
  have h := congrArg List.length s.map_form_scan
  rwa [List.length_map, List.length_map] at h

/-- The content of a source is that of its text without the splices. -/
theorem map_forms_tokens (s : Source) :
    s.tokens.toOption.map forms = content (despliced s.text.toList) :=
  map_forms_mapM s.map_form_scan

theorem exists_tokens_iff {said : List (Kind × String)} :
    (∃ ts, s.tokens = .ok ts ∧ forms ts = said) ↔ content (despliced s.text.toList) = some said := by
  rw [← map_forms_tokens]
  cases s.tokens with
  | error report => simp [Except.toOption]
  | ok ts => simp [Except.toOption]

end Source

end CPreprocessor
