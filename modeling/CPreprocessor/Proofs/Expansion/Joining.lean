import Mathlib.Data.List.DropRight
import CPreprocessor.Expansion.Expander
import CPreprocessor.Proofs.Except
import CPreprocessor.Proofs.Text.Span

/-!
# Expanded arguments stand apart

No `##` joins an expanded argument to its neighbours: a parameter beside a `##` stands for its argument
as written (`Definition.apart_pieces`). So the parts of a filled template before, within and after an
expanded argument are joined one by one (`Draft.joinAll_atop`), and marks of empty operands in expanded
arguments make no difference but that they are there (`Filling.erased_fill`). Only a `##` that takes a
comma away may join what stands before the comma to what comes next.
-/

namespace CPreprocessor

/-- The tokens without the marks of empty operands. -/
def erased (tokens : List Token) : List Token := tokens.filter fun t => t.kind ≠ .placemarker

theorem erased_append (xs ys : List Token) : erased (xs ++ ys) = erased xs ++ erased ys :=
  List.filter_append ..

/-! ## Items that are joined one part after the other -/

namespace Filling

variable {joins joins' : List Nat} {site : Location} {position position' : Nat} {done : List Token}

theorem joinItems_append (xs ys : List Token) :
    joinItems joins site position done (xs ++ ys) =
      match joinItems joins site position done xs with
      | .error fault => .error fault
      | .ok out => joinItems joins site (position + xs.length) out.reverse ys := by
  fun_induction joinItems joins site position done xs with
  | case1 position done =>
    dsimp only
    rw [List.nil_append, List.reverse_reverse, List.length_nil, Nat.add_zero]
  | case2 position t ts ih =>
    rw [List.cons_append, joinItems, ih, List.length_cons, Nat.add_right_comm, Nat.add_assoc]
  | case3 position t ts left before hjoin joined hjoined ih =>
    rw [List.cons_append, joinItems, if_pos hjoin, hjoined]
    dsimp only
    rw [ih, List.length_cons, Nat.add_right_comm, Nat.add_assoc]
  | case4 position t ts left before hjoin hnone =>
    rw [List.cons_append, joinItems, if_pos hjoin, hnone]
  | case5 position t ts left before hjoin ih =>
    rw [List.cons_append, joinItems, if_neg hjoin, ih, List.length_cons, Nat.add_right_comm,
      Nat.add_assoc]

/-- Only the joins between the items matter. -/
theorem joinItems_congr (tokens : List Token)
    (h : ∀ i < tokens.length, joins.contains (position + i) = joins'.contains (position' + i)) :
    joinItems joins site position done tokens = joinItems joins' site position' done tokens := by
  induction tokens generalizing position position' done with
  | nil => rfl
  | cons t ts ih =>
    have hfirst := h 0 (Nat.succ_pos _)
    have hrest : ∀ i < ts.length,
        joins.contains (position + 1 + i) = joins'.contains (position' + 1 + i) := fun i hi => by
      have := h (i + 1) (Nat.succ_lt_succ hi)
      rwa [← Nat.add_assoc, ← Nat.add_assoc, Nat.add_right_comm, Nat.add_right_comm position'] at this
    rw [Nat.add_zero, Nat.add_zero] at hfirst
    cases done with
    | nil => exact ih hrest
    | cons left before =>
      rw [joinItems, joinItems, hfirst]
      split
      · cases left.paste? t site with
        | none => rfl
        | some joined => exact ih hrest
      · exact ih hrest

theorem joinItems_below (new : List Token) (hnew : new ≠ []) (tokens : List Token) :
    joinItems joins site position (new ++ done) tokens =
      (joinItems joins site position new tokens).map (done.reverse ++ ·) := by
  fun_induction joinItems joins site position new tokens with
  | case1 position new => rw [joinItems, List.reverse_append]; rfl
  | case2 => exact absurd rfl hnew
  | case3 position t ts left before hjoin joined hjoined ih =>
    rw [List.cons_append, joinItems, if_pos hjoin, hjoined]
    exact ih (List.cons_ne_nil _ _)
  | case4 position t ts left before hjoin hnone =>
    rw [List.cons_append, joinItems, if_pos hjoin, hnone]
    rfl
  | case5 position t ts left before hjoin ih =>
    rw [List.cons_append, joinItems, if_neg hjoin]
    exact ih (List.cons_ne_nil _ _)

/-- Items before which there is no join are joined by themselves. -/
theorem joinItems_apart (h : joins.contains position = false) (tokens : List Token) :
    joinItems joins site position done tokens =
      (joinItems joins site position [] tokens).map (done.reverse ++ ·) := by
  cases tokens with
  | nil => exact congrArg Except.ok (List.append_nil _).symm
  | cons t ts =>
    cases done with
    | nil =>
      rw [List.reverse_nil]
      cases joinItems joins site position [] (t :: ts) <;> rfl
    | cons left before =>
      have hstart : joinItems joins site position (left :: before) (t :: ts) =
          joinItems joins site (position + 1) (t :: left :: before) ts := by
        rw [joinItems, h, if_neg Bool.false_ne_true]
      exact hstart.trans (joinItems_below [t] (List.cons_ne_nil _ _) ts)

theorem joinItems_nil (tokens : List Token) :
    joinItems [] site position done tokens = .ok (done.reverse ++ tokens) := by
  induction tokens generalizing position done with
  | nil => rw [joinItems, List.append_nil]
  | cons t ts ih =>
    cases done with
    | nil => exact ih
    | cons left before =>
      rw [joinItems, if_neg (by simp), ih, List.reverse_cons, List.append_assoc]
      rfl

end Filling

/-! ## Drafts on top of each other -/

namespace Draft

variable {b d : Draft} {site : Location} {tokens : List Token}

/-- The items of a draft, joined. -/
def joinAll (site : Location) (d : Draft) : Except ExpansionFault (List Token) :=
  Filling.joinItems d.joins site 0 [] d.items.reverse

/-- A draft whose items come after those of another one. -/
def atop (b d : Draft) : Draft where
  items := d.items ++ b.items
  joins := d.joins.map (· + b.items.length) ++ b.joins

/-- Whether no join is noted at the end. -/
def Settled (d : Draft) : Prop := ∀ position ∈ d.joins, position < d.items.length

theorem atop_append (b d : Draft) (tokens : List Token) :
    (atop b d).append tokens = atop b (d.append tokens) := by
  rw [append, append, atop, atop, List.append_assoc]

theorem append_eq_atop (b : Draft) (tokens : List Token) :
    b.append tokens = atop b { items := tokens.reverse } := rfl

/-- A draft is joined after the one that it stands on, if nothing joins the two. -/
theorem joinAll_atop (hb : b.Settled) (hd : b = {} ∨ 0 ∉ d.joins) :
    (atop b d).joinAll site =
      match b.joinAll site with
      | .error fault => .error fault
      | .ok out => (d.joinAll site).map (out ++ ·) := by
  rcases hd with rfl | hd
  · have hatop : atop {} d = d := by simp [atop]
    rw [hatop]
    show d.joinAll site = (d.joinAll site).map ([] ++ ·)
    cases d.joinAll site <;> rfl
  have hlower : ∀ i < b.items.length,
      (atop b d).joins.contains (0 + i) = b.joins.contains (0 + i) := by
    intro i hi
    have hshifted : 0 + i ∉ d.joins.map (· + b.items.length) := by
      intro h
      obtain ⟨position, -, heq⟩ := List.mem_map.mp h
      omega
    rw [List.contains_eq_mem, List.contains_eq_mem, atop, decide_eq_decide]
    exact List.mem_append.trans (or_iff_right hshifted)
  have hupper : ∀ i < d.items.length,
      (atop b d).joins.contains (b.items.length + i) = d.joins.contains (0 + i) := by
    intro i hi
    have hbelow : b.items.length + i ∉ b.joins := fun h => by
      have := hb _ h
      omega
    rw [List.contains_eq_mem, List.contains_eq_mem, atop, decide_eq_decide]
    refine List.mem_append.trans ((or_iff_left hbelow).trans (List.mem_map.trans ?_))
    constructor
    · rintro ⟨position, hposition, heq⟩
      obtain rfl : position = 0 + i := by omega
      exact hposition
    · exact fun h => ⟨0 + i, h, by omega⟩
  have hitems : (atop b d).items.reverse = b.items.reverse ++ d.items.reverse := List.reverse_append
  rw [joinAll, hitems, Filling.joinItems_append,
    Filling.joinItems_congr _ fun i hi => hlower i (List.length_reverse ▸ hi), ← joinAll]
  cases b.joinAll site with
  | error fault => rfl
  | ok out =>
    dsimp only
    rw [Nat.zero_add, List.length_reverse,
      Filling.joinItems_congr _ fun i hi => hupper i (List.length_reverse ▸ hi),
      Filling.joinItems_apart (by simpa using hd), List.reverse_reverse, ← joinAll]

theorem joinAll_append (hb : b.Settled) (tokens : List Token) :
    (b.append tokens).joinAll site = (b.joinAll site).map (· ++ tokens) := by
  have hplain : joinAll site { items := tokens.reverse } = .ok tokens := by
    rw [joinAll, Filling.joinItems_nil, List.reverse_nil, List.nil_append, List.reverse_reverse]
  rw [append_eq_atop, joinAll_atop hb (.inr List.not_mem_nil), hplain]
  cases b.joinAll site <;> rfl

theorem settled_append (hb : b.Settled) (tokens : List Token) : (b.append tokens).Settled := by
  intro position hposition
  have := hb position hposition
  rw [append, List.length_append]
  omega

/-! ### The draft since the last expanded argument -/

/-- Whether every join stands before an item that is no blank, or else at the end, where `pending`
says that a `##` came last. -/
structure Bound (pending : Bool) (d : Draft) : Prop where
  joins : ∀ position ∈ d.joins,
    (∃ t, d.items.reverse[position]? = some t ∧ t.kind ≠ .whitespace) ∨
      (pending = true ∧ position = d.items.length)
  trimmed : pending = true → d.dropBlanks = d

/-- Whether no join comes before the first item, and some item is no blank where `firm` says so. -/
structure Headed (firm : Bool) (d : Draft) : Prop where
  item : firm = true → ∃ t ∈ d.items, t.kind ≠ .whitespace
  joins : 0 ∉ d.joins

variable {pending firm : Bool} {t : Token}

theorem Bound.settled (h : d.Bound false) : d.Settled := by
  intro position hposition
  rcases h.joins position hposition with ⟨t, ht, -⟩ | ⟨hpending, -⟩
  · exact List.length_reverse ▸ (List.getElem?_eq_some_iff.mp ht).1
  · cases hpending

theorem Bound.append (h : d.Bound pending) (ht : pending = true → t.kind ≠ .whitespace)
    (tokens : List Token) : (d.append (t :: tokens)).Bound false := by
  have hitems : (d.append (t :: tokens)).items.reverse = d.items.reverse ++ t :: tokens := by
    rw [Draft.append, List.reverse_append, List.reverse_reverse]
  refine ⟨fun position hposition => .inl ?_, nofun⟩
  rw [hitems]
  rcases h.joins position hposition with ⟨u, hu, hkind⟩ | ⟨hpending, rfl⟩
  · exact ⟨u, List.getElem?_append_left (List.getElem?_eq_some_iff.mp hu).1 ▸ hu, hkind⟩
  · refine ⟨t, ?_, ht hpending⟩
    rw [List.getElem?_append_right (by simp), List.length_reverse, Nat.sub_self]
    rfl

theorem Bound.join (h : d.Bound pending) : d.join.Bound true := by
  have hkept : ∀ (position : Nat) (t : Token), d.items.reverse[position]? = some t → t.kind ≠ .whitespace →
      d.dropBlanks.items.reverse[position]? = some t := by
    intro position t ht hkind
    have hsplit : d.items.reverse = d.dropBlanks.items.reverse ++
        (d.items.takeWhile fun t => t.kind = .whitespace).reverse := by
      rw [← List.reverse_append, dropBlanks, List.takeWhile_append_dropWhile]
    rw [hsplit] at ht
    rcases Nat.lt_or_ge position d.dropBlanks.items.reverse.length with hlt | hge
    · rwa [List.getElem?_append_left hlt] at ht
    · rw [List.getElem?_append_right hge] at ht
      have hblank := List.mem_takeWhile_imp (List.mem_reverse.mp (List.mem_of_getElem? ht))
      exact absurd (of_decide_eq_true hblank) hkind
  constructor
  · intro position hposition
    rcases List.mem_cons.mp hposition with rfl | hposition
    · exact .inr ⟨rfl, rfl⟩
    rcases h.joins position hposition with ⟨t, ht, hkind⟩ | ⟨hpending, rfl⟩
    · exact .inl ⟨t, hkept position t ht hkind, hkind⟩
    · exact .inr ⟨rfl, congrArg (fun d => d.items.length) (h.trimmed hpending).symm⟩
  · intro _
    exact congrArg (Draft.mk · _) (List.dropWhile_idempotent _ _)

theorem Headed.append (h : d.Headed firm) (tokens : List Token) : (d.append tokens).Headed firm :=
  ⟨fun hfirm => (h.item hfirm).imp fun _ ht => ⟨List.mem_append_right _ ht.1, ht.2⟩, h.joins⟩

theorem Headed.append_firm (h : d.Headed firm) (ht : t.kind ≠ .whitespace) (tokens : List Token) :
    (d.append (t :: tokens)).Headed true :=
  ⟨fun _ => ⟨t, List.mem_append_left _ (List.mem_reverse.mpr List.mem_cons_self), ht⟩, h.joins⟩

theorem dropBlanks_ne_nil (h : ∃ t ∈ d.items, t.kind ≠ .whitespace) : d.dropBlanks.items ≠ [] := by
  intro hnil
  obtain ⟨t, ht, hkind⟩ := h
  exact hkind (of_decide_eq_true (List.dropWhile_eq_nil_iff.mp hnil t ht))

theorem Headed.join (h : d.Headed true) : d.join.Headed true := by
  obtain ⟨t, ht, hkind⟩ := h.item rfl
  constructor
  · intro _
    have hsplit := List.takeWhile_append_dropWhile (p := fun t : Token => t.kind = .whitespace)
      (l := d.items)
    rcases List.mem_append.mp (hsplit.symm ▸ ht) with ht | ht
    · have hblank := List.mem_takeWhile_imp ht
      exact absurd (of_decide_eq_true hblank) hkind
    · exact ⟨t, ht, hkind⟩
  · intro hzero
    rcases List.mem_cons.mp hzero with hzero | hzero
    · exact dropBlanks_ne_nil ⟨t, ht, hkind⟩ (List.eq_nil_of_length_eq_zero hzero.symm)
    · exact h.joins hzero

theorem atop_join (h : b = {} ∨ ∃ t ∈ d.items, t.kind ≠ .whitespace) :
    (atop b d).join = atop b d.join := by
  have hblanks : (atop b d).dropBlanks.items = d.dropBlanks.items ++ b.items := by
    rcases h with rfl | h
    · simp [atop, dropBlanks]
    · have hne : (d.items.dropWhile fun t => t.kind = .whitespace).isEmpty = false :=
        List.isEmpty_eq_false_iff.mpr (dropBlanks_ne_nil h)
      rw [atop, dropBlanks, List.dropWhile_append, hne, if_neg Bool.false_ne_true]
      rfl
  show Draft.mk (atop b d).dropBlanks.items ((atop b d).dropBlanks.items.length :: _) = _
  rw [hblanks, List.length_append]
  rfl

end Draft

/-! ## Templates -/

/-- Whether no `##` of a template stands beside an expanded argument and none may take a comma away.
`firm` says whether a `##` may come first, and `pending` whether one came right before. -/
inductive Piece.Apart : Bool → Bool → List Piece → Prop
  | nil {firm pending : Bool} : Apart firm pending []
  | blank {firm : Bool} {t : Token} {pieces : List Piece} (ht : t.kind = .whitespace)
    (h : Apart firm false pieces) : Apart firm false (.copy t :: pieces)
  | copy {firm pending : Bool} {t : Token} {pieces : List Piece} (ht : t.kind ≠ .whitespace)
    (h : Apart true false pieces) : Apart firm pending (.copy t :: pieces)
  | stringize {firm pending : Bool} {index : Nat} {pieces : List Piece}
    (h : Apart true false pieces) : Apart firm pending (.stringize index :: pieces)
  | operand {firm pending : Bool} {index : Nat} {pieces : List Piece}
    (h : Apart true false pieces) : Apart firm pending (.operand index :: pieces)
  | argument {firm : Bool} {index : Nat} {pieces : List Piece} (h : Apart false false pieces) :
    Apart firm false (.argument index :: pieces)
  | join {pending : Bool} {pieces : List Piece} (h : Apart true true pieces) :
    Apart true pending (.join :: pieces)

theorem kind_ne_of_isPunctuator {t : Token} {text : String} {kind : Kind}
    (h : t.isPunctuator text = true) (hkind : kind ≠ .punctuator) : t.kind ≠ kind := by
  rintro rfl
  exact hkind (of_decide_eq_true (Bool.and_eq_true_iff.mp h).1)

theorem firm_of_paste {t : Token} {rest : List Token} {firm : Bool} (ht : t.isPunctuator "##" = true)
    (hfirm : firm = false → (skipLayout (t :: rest)).head?.any (·.isPunctuator "##") = false) :
    firm = true := by
  by_contra h
  have hlayout : ¬ t.isLayout = true := by
    rw [Token.isLayout, of_decide_eq_true (Bool.and_eq_true_iff.mp ht).1]
    exact Bool.false_ne_true
  have hnext := hfirm (eq_false_of_ne_true h)
  rw [skipLayout, List.dropWhile_cons_of_neg hlayout, List.head?_cons, Option.any_some, ht] at hnext
  cases hnext

/-- A parameter beside a `##` stands for its argument as written. -/
theorem Definition.apart_pieces {d : Definition} {joined firm : Bool} {tokens : List Token}
    (hrest : ∀ index, .joinRest index ∉ d.pieces joined tokens)
    (hjoined : joined = true → firm = true ∧ ∀ t ∈ tokens.head?, t.isLayout = false)
    (hfirm : firm = false → (skipLayout tokens).head?.any (·.isPunctuator "##") = false) :
    Piece.Apart firm joined (d.pieces joined tokens) := by
  have hpunctuator : ∀ {t : Token} {text : String}, t.isPunctuator text = true →
      t.kind ≠ .whitespace := fun h => kind_ne_of_isPunctuator h nofun
  fun_induction Definition.pieces d joined tokens generalizing firm with
  | case1 => exact .nil
  | case2 joined t rest hmark hskip ih =>
    have hrest := fun index h => hrest index (List.mem_cons_of_mem _ h)
    exact .copy (hpunctuator (Bool.and_eq_true_iff.mp hmark).2) (ih hrest nofun nofun)
  | case3 joined t rest hmark p after hskip index hindex ih =>
    have hrest := fun index h => hrest index (List.mem_cons_of_mem _ h)
    exact .stringize (ih hrest nofun nofun)
  | case4 joined t rest hmark p after hskip hindex ih =>
    have hrest := fun index h => hrest index (List.mem_cons_of_mem _ h)
    exact .copy (hpunctuator (Bool.and_eq_true_iff.mp hmark).2) (ih hrest nofun nofun)
  | case5 joined t rest hmark hpaste hskip =>
    obtain rfl : firm = true := firm_of_paste hpaste hfirm
    exact .join .nil
  | case6 joined t rest hmark hpaste p after hskip hcollects ih =>
    exact absurd List.mem_cons_self (hrest _)
  | case7 joined t rest hmark hpaste p after hskip hcollects ih =>
    have hrest := fun index h => hrest index (List.mem_cons_of_mem _ h)
    obtain rfl : firm = true := firm_of_paste hpaste hfirm
    refine .join (ih hrest (fun _ => ⟨rfl, ?_⟩) nofun)
    rintro _ ⟨⟩
    have hhead : p ∈ (rest.dropWhile Token.isLayout).head? := by
      rw [← skipLayout, hskip]
      rfl
    exact head?_dropWhile_eq_false hhead
  | case8 joined t rest hmark hpaste index hindex hbeside ih =>
    have hrest := fun index h => hrest index (List.mem_cons_of_mem _ h)
    exact .operand (ih hrest nofun nofun)
  | case9 joined t rest hmark hpaste index hindex hbeside ih =>
    have hrest := fun index h => hrest index (List.mem_cons_of_mem _ h)
    obtain ⟨hjoined, hnext⟩ := Bool.or_eq_false_iff.mp (Bool.eq_false_iff.mpr hbeside)
    rw [hjoined]
    exact .argument (ih hrest nofun fun _ => hnext)
  | case10 joined t rest hmark hpaste hindex ih =>
    have hrest := fun index h => hrest index (List.mem_cons_of_mem _ h)
    by_cases ht : t.kind = .whitespace
    · have hlayout : t.isLayout = true := by rw [Token.isLayout, ht]; rfl
      have hfree : joined = false := by
        by_contra h
        have := (hjoined (eq_true_of_ne_false h)).2 t rfl
        rw [hlayout] at this
        cases this
      have hnext : skipLayout (t :: rest) = skipLayout rest := List.dropWhile_cons_of_pos hlayout
      rw [hfree]
      exact .blank ht (ih hrest nofun (hnext ▸ hfirm))
    · exact .copy ht (ih hrest nofun nofun)

/-! ## Marks in expanded arguments -/

namespace Filling

variable {f g : Filling}

/-- Whether two drafts join to the same but for marks of empty operands. -/
def Similar (site : Location) (b c : Draft) : Prop :=
  (b.joinAll site).map erased = (c.joinAll site).map erased

variable {b c d : Draft} {site : Location}

theorem Similar.append (h : Similar site b c) (hb : b.Settled) (hc : c.Settled) {xs ys : List Token}
    (hxs : erased xs = erased ys) : Similar site (b.append xs) (c.append ys) := by
  rw [Similar, Draft.joinAll_append hb, Draft.joinAll_append hc]
  rw [Similar] at h
  cases hleft : b.joinAll site with
  | error fault =>
    rw [hleft] at h
    rw [map_eq_error_iff.mp h.symm]
    rfl
  | ok out =>
    rw [hleft] at h
    obtain ⟨out', hright, hout⟩ := map_eq_ok_iff.mp h.symm
    rw [hright]
    dsimp only [Except.map]
    rw [erased_append, erased_append, hout, hxs]

theorem Similar.atop (h : Similar site b c) (hb : b.Settled) (hc : c.Settled)
    (hd : (b = {} ∧ c = {}) ∨ 0 ∉ d.joins) : Similar site (b.atop d) (c.atop d) := by
  rw [Similar, Draft.joinAll_atop hb (hd.imp_left And.left),
    Draft.joinAll_atop hc (hd.imp_left And.right)]
  rw [Similar] at h
  cases hleft : b.joinAll site with
  | error fault =>
    rw [hleft] at h
    rw [map_eq_error_iff.mp h.symm]
  | ok out =>
    rw [hleft] at h
    obtain ⟨out', hright, hout⟩ := map_eq_ok_iff.mp h.symm
    rw [hright]
    cases d.joinAll site with
    | error fault => rfl
    | ok own =>
      dsimp only [Except.map]
      rw [erased_append, erased_append, hout]

theorem settled_atop (hb : b.Settled) (hd : d.Bound false) : (b.atop d).Settled := by
  intro position hposition
  rw [Draft.atop, List.length_append]
  rcases List.mem_append.mp hposition with hposition | hposition
  · obtain ⟨own, hown, rfl⟩ := List.mem_map.mp hposition
    exact Nat.add_lt_add_right (hd.settled own hown) _
  · exact Nat.lt_add_left _ (hb position hposition)

theorem operand_eq_cons (htrimmed : ∀ index, ∀ t ∈ (f.written index).head?, t.kind ≠ .whitespace)
    (index : Nat) : ∃ t tokens, f.operand index = t :: tokens ∧ t.kind ≠ .whitespace := by
  rw [operand]
  cases h : f.written index with
  | nil => exact ⟨_, _, rfl, nofun⟩
  | cons t tokens => exact ⟨t, tokens, rfl, htrimmed index t (h ▸ rfl)⟩

/-- Two fillings that put in the same but for marks in the expanded arguments lay out pieces so that
they join to the same but for marks. `d` is what came since the last expanded argument. -/
theorem similar_foldl {firm pending : Bool} {pieces : List Piece}
    (hpieces : Piece.Apart firm pending pieces) (hsite : f.site = g.site)
    (hwritten : f.written = g.written)
    (htrimmed : ∀ index, ∀ t ∈ (f.written index).head?, t.kind ≠ .whitespace)
    (hexpanded : ∀ index, erased (f.expanded index) = erased (g.expanded index)) :
    ∀ b c d : Draft, Similar f.site b c → b.Settled → c.Settled → d.Bound pending →
      (b = {} ∧ c = {}) ∨ d.Headed firm →
        Similar f.site (pieces.foldl f.lay (b.atop d)) (pieces.foldl g.lay (c.atop d)) := by
  induction hpieces with
  | nil =>
    intro b c d hsimilar hb hc _ hstart
    exact hsimilar.atop hb hc (hstart.imp_right Draft.Headed.joins)
  | @blank firm t pieces ht _ ih =>
    intro b c d hsimilar hb hc hbound hstart
    rw [List.foldl_cons, List.foldl_cons, lay, lay, ← hsite, Draft.atop_append, Draft.atop_append]
    exact ih b c _ hsimilar hb hc (hbound.append nofun []) (hstart.imp_right (·.append _))
  | @copy firm pending t pieces ht _ ih =>
    intro b c d hsimilar hb hc hbound hstart
    rw [List.foldl_cons, List.foldl_cons, lay, lay, ← hsite, Draft.atop_append, Draft.atop_append]
    have ht : (t.moveTo f.site).kind ≠ .whitespace := ht
    exact ih b c _ hsimilar hb hc (hbound.append (fun _ => ht) [])
      (hstart.imp_right (·.append_firm ht []))
  | @stringize firm pending index pieces _ ih =>
    intro b c d hsimilar hb hc hbound hstart
    rw [List.foldl_cons, List.foldl_cons, lay, lay, ← hsite, ← hwritten, Draft.atop_append,
      Draft.atop_append]
    have ht : (Token.stringize (f.written index) f.site).kind ≠ .whitespace := nofun
    exact ih b c _ hsimilar hb hc (hbound.append (fun _ => ht) [])
      (hstart.imp_right (·.append_firm ht []))
  | @operand firm pending index pieces _ ih =>
    intro b c d hsimilar hb hc hbound hstart
    have hoperand : g.operand index = f.operand index := by
      rw [operand, operand, ← hsite, ← hwritten]
    obtain ⟨t, tokens, htokens, ht⟩ := operand_eq_cons htrimmed index
    rw [List.foldl_cons, List.foldl_cons, lay, lay, hoperand, Draft.atop_append, Draft.atop_append,
      htokens]
    exact ih b c _ hsimilar hb hc (hbound.append (fun _ => ht) tokens)
      (hstart.imp_right (·.append_firm ht tokens))
  | @argument firm index pieces _ ih =>
    intro b c d hsimilar hb hc hbound hstart
    rw [List.foldl_cons, List.foldl_cons, lay, lay]
    have hatop := hsimilar.atop hb hc (hstart.imp_right Draft.Headed.joins)
    exact ih ((b.atop d).append (f.expanded index)) ((c.atop d).append (g.expanded index)) {}
      (hatop.append (settled_atop hb hbound) (settled_atop hc hbound) (hexpanded index))
      (Draft.settled_append (settled_atop hb hbound) _)
      (Draft.settled_append (settled_atop hc hbound) _) ⟨nofun, nofun⟩
      (.inr ⟨nofun, List.not_mem_nil⟩)
  | @join pending pieces _ ih =>
    intro b c d hsimilar hb hc hbound hstart
    rw [List.foldl_cons, List.foldl_cons, lay, lay,
      Draft.atop_join (hstart.imp And.left fun h => h.item rfl),
      Draft.atop_join (hstart.imp And.right fun h => h.item rfl)]
    exact ih b c d.join hsimilar hb hc hbound.join (hstart.imp_right Draft.Headed.join)

/-- A filled template depends on the expanded arguments only up to marks of empty operands, and those
end up among its own. A template with a `##` that may take a comma away is excepted: it needs the same
expanded arguments. -/
theorem erased_fill {definition : Definition} (hsite : f.site = g.site)
    (hwritten : f.written = g.written)
    (htrimmed : ∀ index, ∀ t ∈ (f.written index).head?, t.kind ≠ .whitespace)
    (hexpanded : ∀ index, erased (f.expanded index) = erased (g.expanded index))
    (hrest : ∀ index, .joinRest index ∈ definition.template → f.expanded = g.expanded) :
    (f.fill definition.template).map erased = (g.fill definition.template).map erased := by
  by_cases h : ∃ index, .joinRest index ∈ definition.template
  · obtain ⟨index, hindex⟩ := h
    have heq : f = g := by
      cases f
      cases g
      cases hsite
      cases hwritten
      cases hrest index hindex
      rfl
    rw [heq]
  · have hpieces : Piece.Apart true false definition.template :=
      definition.apart_pieces (fun index hindex => h ⟨index, hindex⟩) nofun nofun
    have hfold := similar_foldl hpieces hsite hwritten htrimmed hexpanded {} {} {} rfl nofun nofun
      ⟨nofun, nofun⟩ (.inl ⟨rfl, rfl⟩)
    rw [Similar] at hfold
    rw [fill, fill, ← hsite]
    exact hfold

end Filling

end CPreprocessor
