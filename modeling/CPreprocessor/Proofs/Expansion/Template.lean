import CPreprocessor.Expansion.Substitution

/-!
# What a template depends on

What the next piece of a template is depends on the next token and on the first significant one after it
(`Definition.pieces_stringize` and the lemmas after it). Of a token a template asks whether it is layout,
one of the operators, an identifier, and which parameter it names. So two definitions have the same
template up to the tokens that are copied if their replacement lists agree in this token by token
(`Definition.pieces_map`).
-/

namespace CPreprocessor

/-- A piece with its token changed. -/
def Piece.mapToken (copied : Token → Token) : Piece → Piece
  | .copy t => .copy (copied t)
  | piece => piece

theorem Piece.mapToken_eq_self {copied : Token → Token} {piece : Piece} (h : ∀ t, copied t = t) :
    piece.mapToken copied = piece := by
  cases piece with
  | copy t => rw [mapToken, h]
  | _ => rfl

namespace Definition

/-- Whether `d'` has the same use for the token `change t` as `d` for `t`. A token that is no parameter is
copied, and is `copied t` then. -/
structure ReadsAs (d d' : Definition) (change copied : Token → Token) (t : Token) : Prop where
  isLayout : (change t).isLayout = t.isLayout
  isIdentifier : (change t).isIdentifier = t.isIdentifier
  isPunctuator : ∀ text, (change t).isPunctuator text = t.isPunctuator text
  indexOf? : d'.indexOf? (change t).text = d.indexOf? t.text
  collects : d'.parameters.getLast? = some (change t).text ↔ d.parameters.getLast? = some t.text
  copied : (d.isFunction = true → t.isIdentifier = true → d.indexOf? t.text = none) →
    change t = copied t

variable {d d' : Definition} {change copied : Token → Token} {t : Token} {tokens after : List Token}

theorem ReadsAs.eq_of_isPunctuator (h : d.ReadsAs d' change copied t) {text : String}
    (hmark : t.isPunctuator text = true) : change t = copied t := by
  refine h.copied fun _ hidentifier => ?_
  have hkind := of_decide_eq_true hidentifier
  rw [(Token.isPunctuator_iff.mp hmark).1] at hkind
  cases hkind

theorem skipLayout_map (h : ∀ t ∈ tokens, d.ReadsAs d' change copied t)
    (hskip : skipLayout tokens = after) : skipLayout (tokens.map change) = after.map change := by
  subst hskip
  induction tokens with
  | nil => rfl
  | cons t tokens ih =>
    obtain ⟨ht, htokens⟩ := List.forall_mem_cons.mp h
    rw [List.map_cons, skipLayout, List.dropWhile_cons, ht.isLayout, skipLayout, List.dropWhile_cons]
    split
    · exact ih htokens
    · rfl

/-! ## One piece -/

section
variable {joined : Bool} {p : Token} {rest : List Token} {index : Nat}

/-- `#` and a parameter. -/
theorem pieces_stringize (hmark : (d.isFunction && t.isPunctuator "#") = true)
    (hskip : skipLayout rest = p :: after) (hfound : d.indexOf? p.text = some index) :
    d.pieces joined (t :: rest) = .stringize index :: d.pieces false after := by
  rw [pieces, if_pos hmark]
  split
  · rename_i hnil
    rw [hskip] at hnil
    cases hnil
  · rename_i hcons
    obtain ⟨rfl, rfl⟩ := List.cons.inj (hskip.symm.trans hcons)
    rw [hfound]

/-- `#` before anything else. -/
theorem pieces_hash (hmark : (d.isFunction && t.isPunctuator "#") = true)
    (h : ∀ p ∈ (skipLayout rest).head?, d.indexOf? p.text = none) :
    d.pieces joined (t :: rest) = .copy t :: d.pieces false rest := by
  rw [pieces, if_pos hmark]
  split
  · rfl
  · rename_i p after hcons
    rw [h p (hcons ▸ rfl)]

theorem not_hash_of_paste (hpaste : t.isPunctuator "##" = true) :
    ¬ (d.isFunction && t.isPunctuator "#") = true := fun hmark =>
  absurd (Token.text_eq_of_isPunctuator (Bool.and_eq_true_iff.mp hmark).2 hpaste) (by decide)

/-- `##` with nothing after it. -/
theorem pieces_join_nil (hpaste : t.isPunctuator "##" = true) (hskip : skipLayout rest = []) :
    d.pieces joined (t :: rest) = [.join] := by
  rw [pieces, if_neg (not_hash_of_paste hpaste), if_pos hpaste]
  split
  · rfl
  · rename_i hcons
    rw [hskip] at hcons
    cases hcons

/-- `##` and the next significant token. -/
theorem pieces_join_cons (hpaste : t.isPunctuator "##" = true) (hskip : skipLayout rest = p :: after) :
    d.pieces joined (t :: rest) =
      if d.isVariadic && d.parameters.getLast? = some p.text then
        .joinRest (d.parameters.length - 1) :: d.pieces false after
      else .join :: d.pieces true (p :: after) := by
  rw [pieces, if_neg (not_hash_of_paste hpaste), if_pos hpaste]
  split
  · rename_i hnil
    rw [hskip] at hnil
    cases hnil
  · rename_i hcons
    obtain ⟨rfl, rfl⟩ := List.cons.inj (hskip.symm.trans hcons)
    rfl

theorem parameter_of_eq_some
    (h : (if d.isFunction && t.isIdentifier then d.indexOf? t.text else none) = some index) :
    d.isFunction = true ∧ t.isIdentifier = true ∧ d.indexOf? t.text = some index := by
  split at h
  · rename_i hboth
    exact ⟨(Bool.and_eq_true_iff.mp hboth).1, (Bool.and_eq_true_iff.mp hboth).2, h⟩
  · cases h

/-- The name of a parameter. -/
theorem pieces_parameter (hfunction : d.isFunction = true) (hidentifier : t.isIdentifier = true)
    (hfound : d.indexOf? t.text = some index) :
    d.pieces joined (t :: rest) =
      (if joined || (skipLayout rest).head?.any (·.isPunctuator "##") then .operand index
        else .argument index) :: d.pieces false rest := by
  have hmark : ∀ text, t.isPunctuator text = false := fun text =>
    Token.isPunctuator_eq_false_of_kind (of_decide_eq_true hidentifier ▸ nofun)
  rw [pieces, hmark, hmark, Bool.and_false, if_neg Bool.false_ne_true, if_neg Bool.false_ne_true,
    hfunction, hidentifier, Bool.and_self, if_pos rfl, hfound]
  dsimp only
  split <;> rfl

/-- Any other token. -/
theorem pieces_copy (hmark : (d.isFunction && t.isPunctuator "#") = false)
    (hpaste : t.isPunctuator "##" = false)
    (hname : d.isFunction = true → t.isIdentifier = true → d.indexOf? t.text = none) :
    d.pieces joined (t :: rest) = .copy t :: d.pieces false rest := by
  rw [pieces, hmark, hpaste, if_neg Bool.false_ne_true, if_neg Bool.false_ne_true]
  split
  · rename_i index hfound
    split at hfound
    · rename_i hboth
      obtain ⟨hfunction, hidentifier⟩ := Bool.and_eq_true_iff.mp hboth
      rw [hname hfunction hidentifier] at hfound
      cases hfound
    · cases hfound
  · rfl

end

/-! ## Two replacement lists -/

/-- The pieces of two replacement lists that agree token by token are the same, up to the tokens that are
copied. -/
theorem pieces_map (hfunction : d'.isFunction = d.isFunction) (hvariadic : d'.isVariadic = d.isVariadic)
    (harity : d'.parameters.length = d.parameters.length) (joined : Bool)
    (h : ∀ t ∈ tokens, d.ReadsAs d' change copied t) :
    d'.pieces joined (tokens.map change) = (d.pieces joined tokens).map (.mapToken copied) := by
  have hafter : ∀ {rest after : List Token}, skipLayout rest = after →
      (∀ t ∈ rest, d.ReadsAs d' change copied t) → ∀ t ∈ after, d.ReadsAs d' change copied t := by
    rintro rest _ rfl hrest
    exact fun t ht => hrest t ((List.dropWhile_sublist _).subset ht)
  have hbeside : ∀ {rest : List Token}, (∀ t ∈ rest, d.ReadsAs d' change copied t) →
      (skipLayout (rest.map change)).head?.any (·.isPunctuator "##") =
        (skipLayout rest).head?.any (·.isPunctuator "##") := by
    intro rest hrest
    rw [skipLayout_map hrest rfl]
    cases hskip : skipLayout rest with
    | nil => rfl
    | cons p after => exact (hafter hskip hrest p List.mem_cons_self).isPunctuator _
  fun_induction d.pieces joined tokens with
  | case1 => rw [List.map_nil, pieces, List.map_nil]
  | case2 joined u rest hmark hnil ih =>
    obtain ⟨hu, hrest⟩ := List.forall_mem_cons.mp h
    rw [List.map_cons, pieces_hash (by rwa [hfunction, hu.isPunctuator])
      (by rw [skipLayout_map hrest hnil]; nofun), ih hrest,
      hu.eq_of_isPunctuator (Bool.and_eq_true_iff.mp hmark).2]
    rfl
  | case3 joined u rest hmark p after heq index hfound ih =>
    obtain ⟨hu, hrest⟩ := List.forall_mem_cons.mp h
    obtain ⟨hp, hsubset⟩ := List.forall_mem_cons.mp (hafter heq hrest)
    rw [List.map_cons, pieces_stringize (by rwa [hfunction, hu.isPunctuator]) (skipLayout_map hrest heq)
      (hp.indexOf?.trans hfound), ih hsubset]
    rfl
  | case4 joined u rest hmark p after heq hfound ih =>
    obtain ⟨hu, hrest⟩ := List.forall_mem_cons.mp h
    obtain ⟨hp, -⟩ := List.forall_mem_cons.mp (hafter heq hrest)
    have hother : ∀ q ∈ (skipLayout (rest.map change)).head?, d'.indexOf? q.text = none := by
      rw [skipLayout_map hrest heq]
      rintro _ ⟨⟩
      exact hp.indexOf?.trans hfound
    rw [List.map_cons, pieces_hash (by rwa [hfunction, hu.isPunctuator]) hother, ih hrest,
      hu.eq_of_isPunctuator (Bool.and_eq_true_iff.mp hmark).2]
    rfl
  | case5 joined u rest hmark hpaste hnil =>
    obtain ⟨hu, hrest⟩ := List.forall_mem_cons.mp h
    rw [List.map_cons, pieces_join_nil ((hu.isPunctuator _).trans hpaste) (skipLayout_map hrest hnil)]
    rfl
  | case6 joined u rest hmark hpaste p after heq hlast ih =>
    obtain ⟨hu, hrest⟩ := List.forall_mem_cons.mp h
    obtain ⟨hp, hsubset⟩ := List.forall_mem_cons.mp (hafter heq hrest)
    rw [List.map_cons, pieces_join_cons ((hu.isPunctuator _).trans hpaste) (skipLayout_map hrest heq),
      if_pos (by simpa only [hvariadic, hp.collects] using hlast), ih hsubset, harity]
    rfl
  | case7 joined u rest hmark hpaste p after heq hlast ih =>
    obtain ⟨hu, hrest⟩ := List.forall_mem_cons.mp h
    have hsubset := hafter heq hrest
    obtain ⟨hp, -⟩ := List.forall_mem_cons.mp hsubset
    rw [List.map_cons, pieces_join_cons ((hu.isPunctuator _).trans hpaste) (skipLayout_map hrest heq),
      if_neg (by simpa only [hvariadic, hp.collects] using hlast), ← List.map_cons, ih hsubset]
    rfl
  | case8 joined u rest hmark hpaste index hfound hjoined ih =>
    obtain ⟨hu, hrest⟩ := List.forall_mem_cons.mp h
    obtain ⟨hown, hidentifier, hindex⟩ := parameter_of_eq_some hfound
    rw [List.map_cons, pieces_parameter (hfunction.trans hown) (hu.isIdentifier.trans hidentifier)
      (hu.indexOf?.trans hindex), hbeside hrest, if_pos hjoined, ih hrest]
    rfl
  | case9 joined u rest hmark hpaste index hfound hjoined ih =>
    obtain ⟨hu, hrest⟩ := List.forall_mem_cons.mp h
    obtain ⟨hown, hidentifier, hindex⟩ := parameter_of_eq_some hfound
    rw [List.map_cons, pieces_parameter (hfunction.trans hown) (hu.isIdentifier.trans hidentifier)
      (hu.indexOf?.trans hindex), hbeside hrest, if_neg hjoined, ih hrest]
    rfl
  | case10 joined u rest hmark hpaste hfound ih =>
    obtain ⟨hu, hrest⟩ := List.forall_mem_cons.mp h
    rw [dite_eq_ite] at hfound
    have hname : d.isFunction = true → u.isIdentifier = true → d.indexOf? u.text = none := by
      intro hown hidentifier
      rwa [hown, hidentifier, Bool.and_self, if_pos rfl] at hfound
    rw [List.map_cons, pieces_copy (by rw [hfunction, hu.isPunctuator]; exact Bool.eq_false_iff.mpr hmark)
      ((hu.isPunctuator _).trans (Bool.eq_false_iff.mpr hpaste))
      (by rwa [hfunction, hu.isIdentifier, hu.indexOf?]), ih hrest, hu.copied hname]
    rfl

end Definition

end CPreprocessor
