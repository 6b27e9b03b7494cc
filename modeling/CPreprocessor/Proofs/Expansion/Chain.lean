import CPreprocessor.Proofs.Expansion.Collection
import CPreprocessor.Proofs.Expansion.Plain
import CPreprocessor.Proofs.Expansion.Stringize

/-!
# Chains of `##`

A macro whose replacement list is its parameters with `##` between them joins its arguments from left to
right, as if those that are empty were not there (`Invocation.replacement_of_isChain`). Positions of
joins are noted while the arguments are laid out and used afterwards. They always stand between one
argument and the next (`Draft.joinAll_joinTo`).
-/

namespace CPreprocessor

variable {t mark : Token} {tokens rest gap gap' out argument : List Token} {site : Location}
  {d : Definition}

/-! ## Lists joined end to end -/

/-- Two lists of tokens as one, with the last token of the first and the first token of the second made
one by `join`. -/
def joinEnds (join : Token → Token → Option Token) (out : List Token) :
    List Token → Except ExpansionFault (List Token)
  | [] => .ok out
  | right :: rest =>
    match out.getLast? with
    | none => .ok (right :: rest)
    | some left =>
      match join left right with
      | none => .error (.paste left.text right.text)
      | some joined => .ok (out.dropLast ++ joined :: rest)

section
variable {join : Token → Token → Option Token}

theorem joinEnds_nil_left (argument : List Token) : joinEnds join [] argument = .ok argument := by
  cases argument with
  | nil => rfl
  | cons right rest => rfl

theorem joinEnds_concat_cons (before rest : List Token) (left right : Token) :
    joinEnds join (before ++ [left]) (right :: rest) =
      match join left right with
      | none => .error (.paste left.text right.text)
      | some joined => .ok (before ++ joined :: rest) := by
  rw [joinEnds, List.getLast?_concat, List.dropLast_concat]

end

/-! ## Joins of drafts -/

namespace Draft

variable {b : Draft}

/-- A draft with more items at its end and a `##` before them. -/
def joinTo (b : Draft) (tokens : List Token) : Draft := b.join.append tokens

/-- Whether the joins of a draft stand between its items, and a `##` would join its last item. -/
structure Joinable (b : Draft) : Prop where
  settled : b.Settled
  trimmed : b.dropBlanks = b

theorem dropBlanks_append (hne : tokens ≠ []) (hlast : ∀ t ∈ tokens.getLast?, t.kind ≠ .whitespace) :
    (b.append tokens).dropBlanks = b.append tokens := by
  rcases List.eq_nil_or_concat tokens with rfl | ⟨before, last, rfl⟩
  · exact absurd rfl hne
  · rw [List.concat_eq_append] at hlast ⊢
    have hkind : last.kind ≠ .whitespace := hlast last (List.getLast?_concat)
    rw [append, dropBlanks, List.reverse_append, List.reverse_singleton, List.singleton_append,
      List.cons_append, List.dropWhile_cons_of_neg (by simpa using hkind)]

theorem joinable_append (hb : b.Settled) (hne : tokens ≠ [])
    (hlast : ∀ t ∈ tokens.getLast?, t.kind ≠ .whitespace) : (b.append tokens).Joinable :=
  ⟨settled_append hb tokens, dropBlanks_append hne hlast⟩

theorem Joinable.joinTo (hb : b.Joinable) (hne : tokens ≠ [])
    (hlast : ∀ t ∈ tokens.getLast?, t.kind ≠ .whitespace) : (b.joinTo tokens).Joinable := by
  refine ⟨fun position hposition => ?_, dropBlanks_append hne hlast⟩
  have hlength : 0 < tokens.length := List.length_pos_iff.mpr hne
  have hitems : b.join.items = b.items := by
    rw [join, hb.trimmed]
  rw [Draft.joinTo, append, List.length_append, List.length_reverse, hitems]
  rcases List.mem_cons.mp hposition with rfl | hposition
  · rw [hb.trimmed]
    omega
  · have hbelow := hb.settled position hposition
    omega

/-- Past the joins of a draft its items stay as they are. -/
theorem joinItems_past {joins : List Nat} {position : Nat} (h : ∀ p ∈ joins, p < position)
    (done tokens : List Token) :
    Filling.joinItems joins site position done tokens = .ok (done.reverse ++ tokens) := by
  have hsame : Filling.joinItems joins site position done tokens =
      Filling.joinItems [] site position done tokens := by
    refine Filling.joinItems_congr tokens fun i _ => ?_
    have hnot : position + i ∉ joins := fun hmem => absurd (h _ hmem) (by omega)
    rw [List.contains_eq_mem, List.contains_eq_mem, decide_eq_decide]
    exact iff_of_false hnot List.not_mem_nil
  rw [hsame, Filling.joinItems_nil]

/-- What comes after a `##` is joined to what was joined before. -/
theorem joinAll_joinTo (hb : b.Joinable) (t : Token) (tokens : List Token) :
    (b.joinTo (t :: tokens)).joinAll site =
      (b.joinAll site).bind fun out => joinEnds (·.paste? · site) out (t :: tokens) := by
  have hitems : (b.joinTo (t :: tokens)).items.reverse = b.items.reverse ++ t :: tokens := by
    rw [joinTo, append, join, hb.trimmed, List.reverse_append, List.reverse_reverse]
  have hjoins : (b.joinTo (t :: tokens)).joins = b.items.length :: b.joins := by
    rw [joinTo, append, join, hb.trimmed]
  -- The new join is noted past every item that was there, so what was joined before does not see it.
  have hbefore : ∀ i < b.items.reverse.length,
      (b.items.length :: b.joins).contains (0 + i) = b.joins.contains (0 + i) := by
    intro i hi
    rw [List.length_reverse] at hi
    rw [List.contains_eq_mem, List.contains_eq_mem, decide_eq_decide]
    exact List.mem_cons.trans (or_iff_right (by omega))
  have hafter : ∀ p ∈ b.items.length :: b.joins, p < b.items.length + 1 := by
    refine List.forall_mem_cons.mpr ⟨Nat.lt_succ_self _, fun p hp => ?_⟩
    exact Nat.lt_succ_of_lt (hb.settled p hp)
  rw [joinAll, hitems, hjoins, Filling.joinItems_append, Filling.joinItems_congr _ hbefore, ← joinAll]
  cases b.joinAll site with
  | error fault => rfl
  | ok out =>
    dsimp only [Except.bind]
    rw [Nat.zero_add, List.length_reverse]
    rcases List.eq_nil_or_concat out with rfl | ⟨before, left, rfl⟩
    · rw [joinEnds_nil_left, List.reverse_nil, Filling.joinItems, joinItems_past hafter]
      rfl
    · rw [List.concat_eq_append, joinEnds_concat_cons, List.reverse_append, List.reverse_singleton,
        List.singleton_append, Filling.joinItems,
        if_pos (List.contains_iff_mem.mpr List.mem_cons_self)]
      cases left.paste? t site with
      | none => rfl
      | some joined =>
        dsimp only
        rw [joinItems_past hafter, List.reverse_cons, List.reverse_reverse, List.append_assoc,
          List.singleton_append]

/-- A chain of joins is made from left to right. -/
theorem joinAll_foldl_joinTo (operands : List (List Token)) (hne : ∀ a ∈ operands, a ≠ [])
    (hlast : ∀ a ∈ operands, ∀ t ∈ a.getLast?, t.kind ≠ .whitespace) (hb : b.Joinable) :
    (operands.foldl joinTo b).joinAll site = (b.joinAll site).bind fun out =>
      operands.foldlM (joinEnds (·.paste? · site)) out := by
  induction operands generalizing b with
  | nil =>
    rw [List.foldl_nil]
    cases b.joinAll site with
    | error fault => rfl
    | ok out => rfl
  | cons a operands ih =>
    obtain ⟨hnea, hne⟩ := List.forall_mem_cons.mp hne
    obtain ⟨hlasta, hlast⟩ := List.forall_mem_cons.mp hlast
    rw [List.foldl_cons, ih hne hlast (hb.joinTo hnea hlasta)]
    obtain ⟨t, tokens, rfl⟩ := List.exists_cons_of_ne_nil hnea
    rw [joinAll_joinTo hb]
    cases b.joinAll site with
    | error fault => rfl
    | ok out =>
      rw [Except.bind, Except.bind, List.foldlM_cons]
      rfl

end Draft

/-! ## Replacement lists that are chains -/

/-- Whether tokens are some names with `##` between them, with any blanks around each `##`. -/
inductive Chained : List String → List Token → Prop
  | last {name : String} {t : Token} (ht : t.form = (.identifier, name)) : Chained [name] [t]
  | join {name : String} {names : List String} {t mark : Token} {gap gap' rest : List Token}
    (ht : t.form = (.identifier, name)) (hgap : ∀ b ∈ gap, b.kind = .whitespace)
    (hmark : mark.isPunctuator "##" = true) (hgap' : ∀ b ∈ gap', b.kind = .whitespace)
    (h : Chained names rest) : Chained (name :: names) (t :: (gap ++ mark :: (gap' ++ rest)))

/-- Whether a function-like macro joins its parameters, two of them at least, one after the other. -/
structure Definition.IsChain (d : Definition) : Prop where
  shape : d.shape = .function d.parameters false
  nodup : d.parameters.Nodup
  length : 2 ≤ d.parameters.length
  replacement : Chained d.parameters d.replacement

theorem isLayout_of_whitespace (h : t.kind = .whitespace) : t.isLayout = true := by
  rw [Token.isLayout, h]
  rfl

theorem skipLayout_gap (h : ∀ b ∈ gap, b.kind = .whitespace) (rest : List Token) :
    skipLayout (gap ++ rest) = skipLayout rest :=
  List.dropWhile_append_of_pos fun b hb => isLayout_of_whitespace (h b hb)

theorem skipLayout_mark (hmark : mark.isPunctuator "##" = true) (rest : List Token) :
    skipLayout (mark :: rest) = mark :: rest :=
  List.dropWhile_cons_of_neg fun hlayout => by
    rw [not_isPunctuator_of_isLayout hlayout] at hmark
    cases hmark

theorem Chained.skipLayout_eq {names : List String} (h : Chained names tokens) :
    skipLayout tokens = tokens ∧ ∃ t rest, tokens = t :: rest := by
  have hword : ∀ {t : Token} {name : String} (rest : List Token), t.form = (.identifier, name) →
      skipLayout (t :: rest) = t :: rest := by
    intro t name rest ht
    refine List.dropWhile_cons_of_neg ?_
    rw [Token.isLayout, show t.kind = .identifier from congrArg Prod.fst ht]
    decide
  cases h with
  | last ht => exact ⟨hword _ ht, _, _, rfl⟩
  | join ht _ _ _ _ => exact ⟨hword _ ht, _, _, rfl⟩

namespace Definition

theorem indexOf?_of_mem {name : String} (h : name ∈ d.parameters) :
    d.indexOf? name = some (d.parameters.idxOf name) := by
  obtain ⟨index, hfound⟩ := Option.isSome_iff_exists.mp (List.isSome_idxOf?.mpr h)
  rw [indexOf?, List.idxOf_eq_getD_idxOf?, hfound, Option.getD_some]

/-- A name of a parameter before a `##` or after one. -/
theorem pieces_word {name : String} {index : Nat} {joined : Bool} (hfunction : d.isFunction = true)
    (ht : t.form = (.identifier, name)) (hindex : d.indexOf? name = some index)
    (hbeside : joined = true ∨ (skipLayout rest).head?.any (·.isPunctuator "##") = true) :
    d.pieces joined (t :: rest) = .operand index :: d.pieces false rest := by
  obtain ⟨hkind, rfl⟩ := Prod.mk.inj ht
  rw [pieces_parameter hfunction (decide_eq_true hkind) hindex, if_pos (by simpa using hbeside)]

theorem pieces_gap (hgap : ∀ b ∈ gap, b.kind = .whitespace) (rest : List Token) :
    d.pieces false (gap ++ rest) = gap.map .copy ++ d.pieces false rest := by
  induction gap with
  | nil => rfl
  | cons b gap ih =>
    obtain ⟨hb, hgap⟩ := List.forall_mem_cons.mp hgap
    have hmark : ∀ text, b.isPunctuator text = false := fun text =>
      Token.isPunctuator_eq_false_of_kind (hb ▸ nofun)
    have hidentifier : b.isIdentifier = false := decide_eq_false (hb ▸ nofun)
    rw [List.cons_append, pieces_copy (by rw [hmark, Bool.and_false]) (hmark _) (by rw [hidentifier]; nofun),
      ih hgap]
    rfl

theorem pieces_mark (hvariadic : d.isVariadic = false) (hmark : mark.isPunctuator "##" = true)
    (hrest : skipLayout rest = t :: tokens) (joined : Bool) :
    d.pieces joined (mark :: rest) = .join :: d.pieces true (t :: tokens) := by
  rw [pieces_join_cons hmark hrest, if_neg (by simp [hvariadic])]

end Definition

theorem Draft.join_append_gap (b : Draft) (h : ∀ t ∈ gap, t.kind = .whitespace) :
    (b.append gap).join = b.join := by
  have hblanks : (b.append gap).dropBlanks = b.dropBlanks := by
    rw [Draft.dropBlanks, Draft.append, Draft.dropBlanks,
      List.dropWhile_append_of_pos fun t ht => decide_eq_true (h t (List.mem_reverse.mp ht))]
  rw [Draft.join, hblanks, Draft.join]

namespace Filling

variable {f : Filling} {index : String → Nat} {names : List String} {name : String}

section
variable (hd : d.isFunction = true) (hvariadic : d.isVariadic = false)
include hd hvariadic

/-- An operand of a chain is laid out as it is, and then the `##` after it. -/
theorem foldl_lay_word {i : Nat} {joined : Bool} (ht : t.form = (.identifier, name))
    (hindex : d.indexOf? name = some i) (hgap : ∀ b ∈ gap, b.kind = .whitespace)
    (hmark : mark.isPunctuator "##" = true) (hgap' : ∀ b ∈ gap', b.kind = .whitespace)
    (h : Chained names rest) (b : Draft) :
    (d.pieces joined (t :: (gap ++ mark :: (gap' ++ rest)))).foldl f.lay b =
      (Piece.join :: d.pieces true rest).foldl f.lay (b.append (f.operand i)) := by
  obtain ⟨hskip, u, us, rfl⟩ := h.skipLayout_eq
  have hbeside : (skipLayout (gap ++ mark :: (gap' ++ u :: us))).head?.any (·.isPunctuator "##") =
      true := by
    rw [skipLayout_gap hgap, skipLayout_mark hmark]
    exact hmark
  have hmoved : ∀ t ∈ gap.map fun t : Token => t.moveTo f.site, t.kind = .whitespace :=
    List.forall_mem_map.mpr hgap
  rw [Definition.pieces_word hd ht hindex (.inr hbeside), Definition.pieces_gap hgap,
    Definition.pieces_mark hvariadic hmark ((skipLayout_gap hgap' _).trans hskip), List.foldl_cons,
    List.foldl_append, Definition.foldl_lay_copy, List.foldl_cons, List.foldl_cons, lay, lay, lay]
  exact congrArg (List.foldl f.lay · (d.pieces true (u :: us))) (Draft.join_append_gap _ hmoved)

/-- The operands of a chain that goes on are joined one after the other. -/
theorem foldl_lay_chained (h : Chained names tokens)
    (hindex : ∀ name ∈ names, d.indexOf? name = some (index name)) (b : Draft) :
    (Piece.join :: d.pieces true tokens).foldl f.lay b =
      (names.map fun name => f.operand (index name)).foldl Draft.joinTo b := by
  induction h generalizing b with
  | @last name t ht =>
    rw [Definition.pieces_word hd ht (hindex name List.mem_cons_self) (.inl rfl), Definition.pieces]
    rfl
  | @join name names t mark gap gap' rest ht hgap hmark hgap' h ih =>
    obtain ⟨hname, hnames⟩ := List.forall_mem_cons.mp hindex
    rw [List.foldl_cons, foldl_lay_word hd hvariadic ht hname hgap hmark hgap' h, ih hnames]
    rfl

end

/-- A chain is filled by joining its operands from left to right. -/
theorem fill_chain (hd : d.IsChain) (hlast : ∀ i, ∀ t ∈ (f.operand i).getLast?, t.kind ≠ .whitespace)
    (hindex : ∀ name ∈ d.parameters, d.indexOf? name = some (index name)) :
    f.fill d.template = (d.parameters.map fun name => f.operand (index name)).foldlM
      (joinEnds (·.paste? · f.site)) [] := by
  have hne : ∀ i, f.operand i ≠ [] := by
    intro i
    rw [operand]
    split
    · exact List.cons_ne_nil _ _
    · rename_i hwritten
      exact fun hnil => hwritten (List.isEmpty_iff.mpr hnil)
  have hfunction : d.isFunction = true := by rw [Definition.isFunction, hd.shape]
  have hvariadic : d.isVariadic = false := by rw [Definition.isVariadic, hd.shape]
  have hlength := hd.length
  have hreplacement := hd.replacement
  show (d.template.foldl f.lay {}).joinAll f.site = _
  rw [Definition.template]
  generalize d.parameters = names, d.replacement = tokens at hlength hreplacement hindex ⊢
  cases hreplacement with
  | last ht => exact absurd hlength (by simp)
  | @join name names t mark gap gap' rest ht hgap hmark hgap' h =>
    obtain ⟨hname, hnames⟩ := List.forall_mem_cons.mp hindex
    have hempty : Draft.Settled {} := fun _ h => absurd h List.not_mem_nil
    have hstart : (Draft.append {} (f.operand (index name))).joinAll f.site =
        .ok (f.operand (index name)) := by
      rw [Draft.joinAll_append hempty]
      rfl
    rw [foldl_lay_word hfunction hvariadic ht hname hgap hmark hgap' h,
      foldl_lay_chained hfunction hvariadic h hnames,
      Draft.joinAll_foldl_joinTo _ (List.forall_mem_map.mpr fun _ _ => hne _)
        (List.forall_mem_map.mpr fun _ _ => hlast _)
        (Draft.joinable_append hempty (hne _) (hlast _)), hstart, List.map_cons, List.foldlM_cons,
      joinEnds_nil_left]
    rfl

end Filling

/-! ## Joined spellings -/

namespace Token

/-- The token that the spellings of two tokens read as when they are put together, if they read as one
token that is no layout. -/
def joined? (left right : Token) (site : Location) : Option Token :=
  match ({ text := left.text ++ right.text, file := site.file } : Source).tokens with
  | .ok [t] => if t.isLayout then none else some (t.moveTo site)
  | _ => none

/-- Whether a token is joined as it is spelled: it is not the mark of an empty operand, and there is no
splice to be made where it is joined. -/
structure IsOperand (t : Token) : Prop where
  kind : t.kind ≠ .placemarker
  line : '\n' ∉ t.text.toList

variable {left right : Token}

theorem Occurs.isOperand (h : t.Occurs) (hlayout : t.isLayout = false) : t.IsOperand := by
  constructor
  · obtain ⟨s, u, hu, hform⟩ := h
    obtain ⟨hkind, -⟩ := Prod.mk.inj hform
    rw [isLayout, ← hkind] at hlayout
    rw [← hkind]
    rcases List.mem_append.mp hu with hu | hu
    · obtain ⟨scanned, hscanned, rfl⟩ := List.mem_map.mp hu
      rcases Source.blank_or_first_of_mem_scan hscanned with hblank | ⟨c, cs, n, hfirst, -⟩
      · rw [hblank] at hlayout
        cases hlayout
      · intro (hkind : scanned.token.kind = .placemarker)
        rw [hkind] at hfirst
        exact starts_of_first hfirst rfl
    · rw [List.mem_singleton.mp hu]
      exact (by decide : Kind.endOfInput ≠ .placemarker)
  · by_cases hstray : t.form = (.other, "\\")
    · rw [show t.text = "\\" from congrArg Prod.snd hstray]
      decide
    · exact (h.quotable hlayout hstray).line

theorem isOperand_of_joined? (h : left.joined? right site = some t) : t.IsOperand := by
  unfold joined? at h
  split at h
  · rename_i u htokens
    split at h
    · cases h
    · rename_i hlayout
      cases h
      obtain ⟨read, hread, rfl⟩ := Source.exists_mem_scan htokens List.mem_cons_self
      have hoccurs : read.token.Occurs := ⟨_, _, List.mem_append_left _ (List.mem_map_of_mem hread), rfl⟩
      have hu := hoccurs.isOperand (Bool.eq_false_iff.mpr hlayout)
      exact ⟨hu.kind, hu.line⟩
  · cases h

/-- What two operands are joined to is what a source with both their spellings is read as. -/
theorem paste?_eq_joined? (hl : left.IsOperand) (hr : right.IsOperand) (site : Location) :
    left.paste? right site = left.joined? right site := by
  let s : Source := { text := left.text ++ right.text, file := site.file }
  have htext : s.text.toList = left.text.toList ++ right.text.toList := String.toList_append
  have hline : '\n' ∉ s.text.toList := by
    rw [htext, List.mem_append]
    exact not_or.mpr ⟨hl.line, hr.line⟩
  -- A scan has the lexemes of the text one by one. Their positions are lost in the move to `site`.
  have hscan := s.map_scan (f := fun t => (t.token.moveTo site, t.fault))
    (g := fun l => ((s.token default l).token.moveTo site, (s.token default l).fault))
    fun p l => by cases l <;> rfl
  have hflat := flatMap_text_lexemes (despliced s.text.toList)
  rw [paste?, if_neg hl.kind, if_neg hr.kind, joined?, ← htext]
  change _ = match s.tokens with
    | .ok [t] => if t.isLayout then none else some (t.moveTo site)
    | _ => none
  rw [Source.tokens]
  generalize s.scan = scanned, lexemes (despliced s.text.toList) = ls at hscan hflat ⊢
  cases ls with
  | nil =>
    obtain rfl : scanned = [] := List.map_eq_nil_iff.mp hscan
    rfl
  | cons l ls =>
    obtain ⟨x, xs, rfl, hx, hxs⟩ := List.map_eq_cons_iff.mp hscan
    obtain ⟨htoken, hfault⟩ := Prod.mk.inj hx
    cases ls with
    | nil =>
      obtain rfl : xs = [] := List.map_eq_nil_iff.mp hxs
      rw [mapM_cons_except, Source.reportOf?, hfault]
      cases l with
      | fault cause skipped => rfl
      | token kind text =>
        have hkind : x.token.kind = kind := congrArg Token.kind htoken
        have hspelled : text = s.text.toList := by
          rw [← despliced_of_not_mem_newline hline, ← hflat, List.flatMap_singleton]
          rfl
        have hjoined : String.ofList text = left.text ++ right.text := by
          rw [hspelled, String.ofList_toList]
        change (if kind.isLayout then none else some _) =
          if x.token.kind.isLayout then none else some (x.token.moveTo site)
        rw [hkind, htoken, ← hjoined]
        rfl
    | cons l' ls =>
      obtain ⟨y, ys, rfl, -, -⟩ := List.map_eq_cons_iff.mp hxs
      trans none
      · cases l <;> rfl
      split
      · rename_i u htokens
        have hlength := length_of_mapM_eq_ok htokens
        simp at hlength
      · rfl

end Token

/-! ## Empty operands -/

/-- What an argument is as an operand. -/
def marked (site : Location) (argument : List Token) : List Token :=
  if argument.isEmpty then [.placemarker site] else argument

theorem marked_cons (site : Location) (t : Token) (tokens : List Token) :
    marked site (t :: tokens) = t :: tokens := rfl

theorem last_marked (h : ∀ t ∈ argument.getLast?, t.isLayout = false) :
    ∀ t ∈ (marked site argument).getLast?, t.kind ≠ .whitespace := by
  intro t ht hkind
  rw [marked] at ht
  split at ht
  · cases ht
    cases hkind
  · have hsolid := h t ht
    rw [isLayout_of_whitespace hkind] at hsolid
    cases hsolid

theorem marked_concat (site : Location) (tokens : List Token) (t : Token) :
    marked site (tokens ++ [t]) = tokens ++ [t] := by
  cases tokens <;> rfl

section
variable {join : Token → Token → Option Token}

theorem joinEnds_eq_nil_iff (h : joinEnds join out argument = .ok tokens) :
    tokens = [] ↔ out = [] ∧ argument = [] := by
  unfold joinEnds at h
  split at h
  · cases h
    exact (and_iff_left rfl).symm
  · split at h
    · cases h
      simp
    · split at h
      · cases h
      · cases h
        simp

theorem foldlM_joinEnds_of_nil {arguments : List (List Token)} (h : ∀ a ∈ arguments, a = []) :
    arguments.foldlM (joinEnds join) out = .ok out := by
  induction arguments with
  | nil => rfl
  | cons a arguments ih =>
    obtain ⟨rfl, hempty⟩ := List.forall_mem_cons.mp h
    exact ih hempty

theorem foldlM_joinEnds_eq_nil_iff {arguments : List (List Token)}
    (h : arguments.foldlM (joinEnds join) out = .ok tokens) :
    tokens = [] ↔ out = [] ∧ ∀ a ∈ arguments, a = [] := by
  induction arguments generalizing out with
  | nil =>
    cases h
    simp
  | cons a arguments ih =>
    rw [List.foldlM_cons] at h
    cases hfirst : joinEnds join out a with
    | error fault =>
      rw [hfirst] at h
      cases h
    | ok next =>
      rw [hfirst] at h
      rw [ih h, joinEnds_eq_nil_iff hfirst, List.forall_mem_cons, and_assoc]

end

/-- Marks of empty operands are joined as if they were not there. -/
theorem joinEnds_marked (hout : ∀ t ∈ out.getLast?, t.IsOperand)
    (hargument : ∀ t ∈ argument.head?, t.IsOperand) :
    joinEnds (·.paste? · site) (marked site out) (marked site argument) =
      (joinEnds (·.joined? · site) out argument).map (marked site) := by
  rcases List.eq_nil_or_concat out with rfl | ⟨before, left, rfl⟩
  · rw [joinEnds_nil_left]
    cases argument with
    | nil => rfl
    | cons right rest => rfl
  · rw [List.concat_eq_append] at hout ⊢
    have hleft : left.IsOperand := hout left List.getLast?_concat
    rw [marked_concat]
    cases argument with
    | nil =>
      have hmark : left.paste? (.placemarker site) site = some left := by
        rw [Token.paste?, if_neg hleft.kind]
        exact if_pos rfl
      rw [joinEnds, show marked site [] = [Token.placemarker site] from rfl, joinEnds_concat_cons, hmark]
      exact congrArg Except.ok (marked_concat site before left).symm
    | cons right rest =>
      have hright : right.IsOperand := hargument right rfl
      rw [marked_cons, joinEnds_concat_cons, joinEnds_concat_cons,
        Token.paste?_eq_joined? hleft hright site]
      cases left.joined? right site with
      | none => rfl
      | some joined =>
        refine congrArg Except.ok (if_neg ?_).symm
        simp

theorem isOperand_of_joinEnds
    (h : joinEnds (·.joined? · site) out argument = .ok tokens)
    (hout : ∀ t ∈ out.getLast?, t.IsOperand) (hargument : ∀ t ∈ argument.getLast?, t.IsOperand) :
    ∀ t ∈ tokens.getLast?, t.IsOperand := by
  cases argument with
  | nil =>
    cases h
    exact hout
  | cons right rest =>
    rcases List.eq_nil_or_concat out with rfl | ⟨before, left, rfl⟩
    · rw [joinEnds_nil_left] at h
      cases h
      exact hargument
    · rw [List.concat_eq_append, joinEnds_concat_cons] at h
      cases hjoined : left.joined? right site with
      | none =>
        rw [hjoined] at h
        cases h
      | some joined =>
        rw [hjoined] at h
        cases h
        rcases List.eq_nil_or_concat rest with rfl | ⟨middle, last, rfl⟩
        · intro t ht
          obtain rfl : joined = t := by simpa using ht
          exact Token.isOperand_of_joined? hjoined
        · intro t ht
          rw [List.concat_eq_append, ← List.cons_append, ← List.append_assoc, List.getLast?_concat] at ht
          refine hargument t ?_
          rw [List.concat_eq_append, ← List.cons_append, List.getLast?_concat]
          exact ht

/-- A chain of joins comes to the same without the marks of its empty operands. -/
theorem foldlM_joinEnds_marked {arguments : List (List Token)}
    (hfirst : ∀ a ∈ arguments, ∀ t ∈ a.head?, t.IsOperand)
    (hlast : ∀ a ∈ arguments, ∀ t ∈ a.getLast?, t.IsOperand) (hout : ∀ t ∈ out.getLast?, t.IsOperand) :
    (arguments.map (marked site)).foldlM (joinEnds (·.paste? · site)) (marked site out) =
      (arguments.foldlM (joinEnds (·.joined? · site)) out).map (marked site) := by
  induction arguments generalizing out with
  | nil => rfl
  | cons a arguments ih =>
    obtain ⟨hfirsta, hfirst⟩ := List.forall_mem_cons.mp hfirst
    obtain ⟨hlasta, hlast⟩ := List.forall_mem_cons.mp hlast
    rw [List.map_cons, List.foldlM_cons, List.foldlM_cons, joinEnds_marked hout hfirsta]
    cases hnext : joinEnds (·.joined? · site) out a with
    | error fault => rfl
    | ok next => exact ih hfirst hlast (isOperand_of_joinEnds hnext hout hlasta)

theorem foldlM_joinEnds_marked_nil {arguments : List (List Token)} (hne : arguments ≠ [])
    (hfirst : ∀ a ∈ arguments, ∀ t ∈ a.head?, t.IsOperand)
    (hlast : ∀ a ∈ arguments, ∀ t ∈ a.getLast?, t.IsOperand) :
    (arguments.map (marked site)).foldlM (joinEnds (·.paste? · site)) [] =
      (arguments.foldlM (joinEnds (·.joined? · site)) []).map (marked site) := by
  obtain ⟨a, arguments, rfl⟩ := List.exists_cons_of_ne_nil hne
  obtain ⟨-, hfirst⟩ := List.forall_mem_cons.mp hfirst
  obtain ⟨hlasta, hlast⟩ := List.forall_mem_cons.mp hlast
  rw [List.map_cons, List.foldlM_cons, List.foldlM_cons, joinEnds_nil_left, joinEnds_nil_left]
  exact foldlM_joinEnds_marked hfirst hlast hlasta

/-! ## Invocations of a chain -/

namespace Invocation

variable {i : Invocation}

theorem last_argument (h : ∀ a ∈ i.arguments, ∀ t ∈ a.getLast?, t.isLayout = false) (index : Nat) :
    ∀ t ∈ (i.argument index).getLast?, t.isLayout = false := by
  rw [argument]
  cases hfound : i.arguments[index]? with
  | none => exact fun t ht => absurd ht (Option.not_mem_none t)
  | some a => exact h a (List.mem_of_getElem? hfound)

/-- The arguments that the parameters of a chain stand for, in order. -/
theorem map_marked_arguments (hnodup : d.parameters.Nodup)
    (hlength : i.arguments.length = d.parameters.length) (site : Location) :
    (d.parameters.map fun name => marked site (i.argument (d.parameters.idxOf name))) =
      i.arguments.map (marked site) := by
  refine List.ext_getElem (by rw [List.length_map, List.length_map, hlength]) fun k hk hk' => ?_
  rw [List.length_map] at hk hk'
  rw [List.getElem_map, List.getElem_map, hnodup.idxOf_getElem, argument, List.getElem?_eq_getElem hk',
    Option.getD_some]

/-- A macro that joins its parameters with `##` joins its arguments from left to right. Those that are
empty are as if they were not there, but for a mark if all of them are. At each junction the last token so
far and the first token of the next argument become the token that their spellings put together read as.
The first two that do not read as a single token are named in an error. -/
theorem replacement_of_isChain (hchain : i.definition.IsChain)
    (hlength : i.arguments.length = i.definition.parameters.length)
    (harguments : ∀ a ∈ i.arguments, trimLayout a = a ∧ ∀ t ∈ a, t.Occurs)
    (expanded : List (Nat × List Token)) :
    i.replacement expanded =
      if i.arguments.all List.isEmpty then .ok [(Token.placemarker i.site.location).hideBy i.hide]
      else
        match i.arguments.foldlM (joinEnds (·.joined? · i.site.location)) [] with
        | .error fault => .error (i.error fault)
        | .ok tokens => .ok (tokens.map fun t => t.hideBy i.hide) := by
  have hfirst : ∀ a ∈ i.arguments, ∀ t ∈ a.head?, t.IsOperand := by
    intro a ha t ht
    obtain ⟨htrim, hoccurs⟩ := harguments a ha
    exact (hoccurs t (List.mem_of_mem_head? ht)).isOperand (head_trimLayout t (htrim.symm ▸ ht))
  have hlayout : ∀ a ∈ i.arguments, ∀ t ∈ a.getLast?, t.isLayout = false := by
    intro a ha t ht
    exact last_trimLayout t ((harguments a ha).1.symm ▸ ht)
  have hlast : ∀ a ∈ i.arguments, ∀ t ∈ a.getLast?, t.IsOperand := by
    intro a ha t ht
    exact ((harguments a ha).2 t (List.mem_of_getLast? ht)).isOperand (hlayout a ha t ht)
  have hne : i.arguments ≠ [] := by
    intro hnil
    have htwo := hchain.length
    rw [← hlength, hnil, List.length_nil] at htwo
    cases htwo
  have hfill : Filling.fill
      ⟨i.argument, fun index => (expanded.lookup index).getD [], i.site.location⟩ i.definition.template =
        (i.arguments.foldlM (joinEnds (·.joined? · i.site.location)) []).map (marked i.site.location) := by
    refine (Filling.fill_chain hchain (fun index => last_marked (last_argument hlayout index))
      fun _ => Definition.indexOf?_of_mem).trans ?_
    refine Eq.trans ?_ (foldlM_joinEnds_marked_nil hne hfirst hlast)
    exact congrArg (List.foldlM _ []) (map_marked_arguments hchain.nodup hlength i.site.location)
  unfold replacement
  dsimp only
  rw [hfill]
  by_cases hall : i.arguments.all List.isEmpty = true
  · have hempty : ∀ a ∈ i.arguments, a = [] := fun a ha =>
      List.isEmpty_iff.mp (List.all_eq_true.mp hall a ha)
    rw [if_pos hall, foldlM_joinEnds_of_nil hempty]
    rfl
  · rw [if_neg hall]
    cases hjoined : i.arguments.foldlM (joinEnds (·.joined? · i.site.location)) [] with
    | error fault => rfl
    | ok tokens =>
      have hsome : tokens ≠ [] := by
        intro hnil
        obtain ⟨-, hempty⟩ := (foldlM_joinEnds_eq_nil_iff hjoined).mp hnil
        exact hall (List.all_eq_true.mpr fun a ha => List.isEmpty_iff.mpr (hempty a ha))
      have hmarked : marked i.site.location tokens = tokens :=
        if_neg fun hnil => hsome (List.isEmpty_iff.mp hnil)
      dsimp only [Except.map]
      rw [hmarked]

end Invocation

/-! ## A chain with an empty argument -/

/-- The macro that `#define cat(a, b, c) a ## b##c` defines. -/
def catDefinition : Definition where
  name := "cat"
  shape := .function ["a", "b", "c"] false
  replacement := [wordAt "a" 21, .blank ⟨"<input>", 1, 22⟩, markAt "##" 23, .blank ⟨"<input>", 1, 25⟩,
    wordAt "b" 26, markAt "##" 27, wordAt "c" 29]

/-- The invocation `cat(x y,,z)`. -/
def catCall : Invocation where
  definition := catDefinition
  site := wordAt "cat" 1
  arguments := [[wordAt "x" 5, .blank ⟨"<input>", 1, 6⟩, wordAt "y" 7], [], [wordAt "z" 10]]
  hide := HideSet.insert ∅ "cat"
  rest := []

/-- The last token of the first argument and the only one of the last are joined. -/
theorem Invocation.replacement_of_isChain_cat :
    catCall.definition.IsChain ∧ catCall.arguments.length = catCall.definition.parameters.length ∧
    (∀ a ∈ catCall.arguments, trimLayout a = a ∧ ∀ t ∈ a, t.Occurs) ∧
    catCall.replacement [] = .ok
      ([wordAt "x" 5, .blank ⟨"<input>", 1, 6⟩, wordAt "yz" 1].map fun t => t.hideBy catCall.hide) := by
  have hchain : catCall.definition.IsChain := by
    have hshort : Chained ["b", "c"] (wordAt "b" 26 :: ([] ++ markAt "##" 27 :: ([] ++ [wordAt "c" 29]))) :=
      .join rfl nofun (by decide) nofun (.last rfl)
    have hlong : Chained ["a", "b", "c"] (wordAt "a" 21 :: ([.blank ⟨"<input>", 1, 22⟩] ++
        markAt "##" 23 :: ([.blank ⟨"<input>", 1, 25⟩] ++ _))) :=
      .join rfl (List.forall_mem_singleton.mpr rfl) (by decide) (List.forall_mem_singleton.mpr rfl) hshort
    exact ⟨rfl, by decide, by decide, hlong⟩
  have hforms : ∀ a ∈ catCall.arguments, ∀ t ∈ a,
      t.form ∈ (({ text := "x y z" } : Source).scan.map Scanned.token).map Token.form := by
    decide +kernel
  have htrim : ∀ a ∈ catCall.arguments, trimLayout a = a := by decide
  have harguments : ∀ a ∈ catCall.arguments, trimLayout a = a ∧ ∀ t ∈ a, t.Occurs := by
    intro a ha
    refine ⟨htrim a ha, fun t ht => ?_⟩
    obtain ⟨u, hu, hform⟩ := List.mem_map.mp (hforms a ha t ht)
    exact ⟨_, u, List.mem_append_left _ hu, hform⟩
  refine ⟨hchain, rfl, harguments, ?_⟩
  rw [Invocation.replacement_of_isChain hchain rfl harguments]
  cbv

end CPreprocessor
