import Khel.Proofs.Naming.Linked
import Khel.Proofs.Naming.Scoping

/-!
# Every variable has one name

Resolution gives each variable of its own a name that no other variable has, whatever the names in the text look like.
A linked name without a point in it is none of these names. So where a resolved program mentions a variable, only one
declaration can be meant.

* `Program.mentioned`: the names that the expressions of a program mention.
* `Program.forall_mentioned`: what a resolved program mentions is declared in it.
* `Program.resolve_distinct`: variables have different names, and each of them one declaration.
-/

namespace Khel

/-! ## Mentioned names -/

mutual
/-- The variables and functions that an expression mentions. -/
def Expr.mentioned : Expr → List String
  | .int .. | .long .. | .str .. => []
  | .var _ x => [x]
  | .call _ f args => f :: Expr.allMentioned args
  | .unary _ _ a | .cast _ _ a => a.mentioned
  | .binary _ _ l r | .assign _ l r | .range _ l r => l.mentioned ++ r.mentioned
  | .cond _ c t f => c.mentioned ++ (t.mentioned ++ f.mentioned)

/-- The names that a list of expressions mentions. -/
def Expr.allMentioned : List Expr → List String
  | [] => []
  | e :: es => e.mentioned ++ Expr.allMentioned es
end

/-- The names that the initial value of a variable of a block mentions. That of an external one is never read. -/
def VarDecl.mentioned (d : VarDecl) : List String :=
  if d.isExternal then [] else d.init.toList.flatMap Expr.mentioned

mutual
/-- The names that a statement mentions. -/
def Stmt.mentioned : Stmt → List String
  | .eval e => e.mentioned
  | .ret value _ => value.toList.flatMap Expr.mentioned
  | .ifThen c s => c.mentioned ++ s.mentioned
  | .ifElse c s t => c.mentioned ++ (s.mentioned ++ t.mentioned)
  | .block items => itemsMentioned items
  | .whileLoop c body _ => c.mentioned ++ itemsMentioned body
  | .loop _ control body _ => control.mentioned ++ itemsMentioned body
  | .leave .. | .next .. | .skip => []

/-- The names that the items of a block mention. -/
def itemsMentioned : List Item → List String
  | [] => []
  | .stmt s :: rest => s.mentioned ++ itemsMentioned rest
  | .var d :: rest => d.mentioned ++ itemsMentioned rest
  | .fn .. :: rest => itemsMentioned rest
end

/-- The names that a declaration of the top level mentions. -/
def Decl.mentioned : Decl → List String
  | .fn _ body => (body.map itemsMentioned).getD []
  | .var d => d.init.toList.flatMap Expr.mentioned

/-- The names that the expressions of a program mention. -/
def Program.mentioned (p : Program) : List String := p.decls.flatMap Decl.mentioned

/-- The names that a program declares, as often as it declares them. -/
def Program.declaredNames (p : Program) : List String := p.ownNames ++ p.linkedNames

/-! ## What is mentioned is declared -/

/-- All open scopes declare names with a property. -/
def Scopes.All (P : String → Prop) (scopes : Scopes) : Prop := ∀ scope ∈ scopes, ∀ d ∈ scope, P d.uniqueName

section Mentioned

variable {P : String → Prop}

namespace Scopes

theorem All.enter {scopes : Scopes} (h : scopes.All P) : All P ([] :: scopes) :=
  List.forall_mem_cons.2 ⟨by simp, h⟩

theorem All.declare {d : Declared} (hd : P d.uniqueName) : ∀ {scopes : Scopes}, scopes.All P → All P (scopes.declare d)
  | [], _ => by simpa [Scopes.declare, All] using hd
  | _ :: _, h => by
    obtain ⟨hscope, houter⟩ := List.forall_mem_cons.1 h
    exact List.forall_mem_cons.2 ⟨List.forall_mem_cons.2 ⟨hd, hscope⟩, houter⟩

theorem All.meaning {x : String} {d : Declared} : ∀ {scopes : Scopes}, scopes.All P → scopes.meaning? x = some d →
    P d.uniqueName
  | scope :: outer, h, hx => by
    obtain ⟨hscope, houter⟩ := List.forall_mem_cons.1 h
    rw [meaning?, Option.or_eq_some_iff] at hx
    rcases hx with hx | ⟨_, hx⟩
    · exact hscope d (List.mem_of_find?_eq_some hx)
    · exact All.meaning houter hx

theorem All.rename {scopes : Scopes} (h : scopes.All P) {x : String} (hx : (scopes.meaning? x).isSome = true) :
    P (scopes.rename x) := by
  obtain ⟨d, hd⟩ := Option.isSome_iff_exists.1 hx
  rw [Scopes.rename, hd]
  exact h.meaning hd

theorem All.inLoop {scopes : Scopes} (h : scopes.All P) {n : Nat} {var : Option Ident}
    (hvar : ∀ x ∈ (var.map (Ident.numbered n)).toList.map Ident.name, P x) : (scopes.inLoop n var).All P := by
  refine List.forall_mem_cons.2 ⟨?_, h⟩
  cases var with
  | none => simp
  | some v => simpa [Declared.uniqueName, Ident.numbered] using hvar

end Scopes

/-- A rule that is checked is kept if no rule is broken. -/
theorem of_check {c : Bool} {r : Rejection} (h : (if c then [] else [r]) = ([] : List Rejection)) : c = true := by
  cases c with
  | true => rfl
  | false => cases h

mutual
theorem Expr.forall_mentioned {scopes : Scopes} (h : scopes.All P) : ∀ e : Expr, e.broken scopes = [] →
    ∀ x ∈ (e.renamed scopes).mentioned, P x
  | .int .., _ | .long .., _ | .str .., _ => by simp [Expr.renamed, Expr.mentioned]
  | .var note x, hb => by
    rw [Expr.broken] at hb
    simpa [Expr.renamed, Expr.mentioned] using h.rename (of_check hb)
  | .call note f args, hb => by
    rw [Expr.broken, List.append_eq_nil_iff] at hb
    exact List.forall_mem_cons.2 ⟨h.rename (of_check hb.1), Expr.forall_allMentioned h args hb.2⟩
  | .unary _ _ a, hb | .cast _ _ a, hb => a.forall_mentioned h hb
  | .binary _ _ l r, hb | .range _ l r, hb => by
    rw [Expr.broken, List.append_eq_nil_iff] at hb
    exact List.forall_mem_append.2 ⟨l.forall_mentioned h hb.1, r.forall_mentioned h hb.2⟩
  | .assign _ l r, hb => by
    rw [Expr.broken, List.append_eq_nil_iff, List.append_eq_nil_iff] at hb
    exact List.forall_mem_append.2 ⟨l.forall_mentioned h hb.2.1, r.forall_mentioned h hb.2.2⟩
  | .cond _ c t f, hb => by
    rw [Expr.broken, List.append_eq_nil_iff, List.append_eq_nil_iff] at hb
    refine List.forall_mem_append.2 ⟨c.forall_mentioned h hb.1, ?_⟩
    exact List.forall_mem_append.2 ⟨t.forall_mentioned h hb.2.1, f.forall_mentioned h hb.2.2⟩

theorem Expr.forall_allMentioned {scopes : Scopes} (h : scopes.All P) : ∀ es : List Expr,
    Expr.allBroken scopes es = [] → ∀ x ∈ Expr.allMentioned (Expr.allRenamed scopes es), P x
  | [], _ => by simp [Expr.allRenamed, Expr.allMentioned]
  | e :: es, hb => by
    rw [Expr.allBroken, List.append_eq_nil_iff] at hb
    exact List.forall_mem_append.2 ⟨e.forall_mentioned h hb.1, Expr.forall_allMentioned h es hb.2⟩
end

theorem Expr.forall_mentioned? {scopes : Scopes} (h : scopes.All P) {value : Option Expr}
    (hb : Expr.broken? scopes value = []) :
    ∀ x ∈ (value.map (Expr.renamed scopes)).toList.flatMap Expr.mentioned, P x := by
  cases value with
  | none => simp
  | some e => simpa using e.forall_mentioned h hb

theorem VarDecl.forall_mentioned {scopes : Scopes} (h : scopes.All P) (n : Nat) (d : VarDecl)
    (hb : d.broken scopes n = []) (hown : ∀ x ∈ (d.renamed scopes n).ownNames, P x)
    (hlinked : ∀ x ∈ (d.renamed scopes n).linkedNames, P x) :
    (scopes.declare (d.declared n)).All P ∧ ∀ x ∈ (d.renamed scopes n).mentioned, P x := by
  rw [VarDecl.broken, List.append_eq_nil_iff] at hb
  by_cases hx : d.isExternal = true
  · simp only [VarDecl.renamed, if_pos hx, VarDecl.linkedNames, List.forall_mem_singleton] at hlinked
    simp only [VarDecl.renamed, VarDecl.declared, VarDecl.mentioned, if_pos hx]
    exact ⟨h.declare hlinked, by simp⟩
  · have hx' : ¬ VarDecl.isExternal { d with
      ident := d.ident.numbered n, init := d.init.map (Expr.renamed (scopes.declare (d.declared n))) } := hx
    rw [if_neg hx] at hb
    simp only [VarDecl.renamed, if_neg hx, VarDecl.ownNames, if_neg hx', List.forall_mem_singleton] at hown
    have hscopes : (scopes.declare (d.declared n)).All P := by
      rw [VarDecl.declared, if_neg hx]
      exact h.declare hown
    refine ⟨hscopes, ?_⟩
    simp only [VarDecl.renamed, VarDecl.mentioned, if_neg hx, if_neg hx']
    exact Expr.forall_mentioned? hscopes hb.2

mutual
theorem Stmt.forall_mentioned : ∀ {scopes : Scopes} (_ : scopes.All P) (n : Nat) (s : Stmt), s.broken scopes n = [] →
    (∀ x ∈ (s.renamed scopes n).ownNames, P x) → (∀ x ∈ (s.renamed scopes n).linkedNames, P x) →
    ∀ x ∈ (s.renamed scopes n).mentioned, P x
  | scopes, h, n, .eval e, hb, _, _ => e.forall_mentioned h hb
  | scopes, h, n, .ret value span, hb, _, _ => Expr.forall_mentioned? h hb
  | scopes, h, n, .ifThen c s, hb, hown, hlinked => by
    rw [Stmt.broken, List.append_eq_nil_iff] at hb
    exact List.forall_mem_append.2 ⟨c.forall_mentioned h hb.1, s.forall_mentioned h n hb.2 hown hlinked⟩
  | scopes, h, n, .ifElse c s t, hb, hown, hlinked => by
    rw [Stmt.broken, List.append_eq_nil_iff, List.append_eq_nil_iff] at hb
    obtain ⟨hownS, hownT⟩ := List.forall_mem_append.1 hown
    obtain ⟨hlinkedS, hlinkedT⟩ := List.forall_mem_append.1 hlinked
    refine List.forall_mem_append.2 ⟨c.forall_mentioned h hb.1, List.forall_mem_append.2 ⟨?_, ?_⟩⟩
    · exact s.forall_mentioned h n hb.2.1 hownS hlinkedS
    · exact t.forall_mentioned h _ hb.2.2 hownT hlinkedT
  | scopes, h, n, .block items, hb, hown, hlinked => forall_itemsMentioned h.enter n items hb hown hlinked
  | scopes, h, n, .whileLoop c body id, hb, hown, hlinked => by
    rw [Stmt.broken, List.append_eq_nil_iff] at hb
    refine List.forall_mem_append.2 ⟨c.forall_mentioned h hb.1, ?_⟩
    exact forall_itemsMentioned h.enter n body hb.2 hown hlinked
  | scopes, h, n, .loop var control body id, hb, hown, hlinked => by
    rw [Stmt.broken, List.append_eq_nil_iff] at hb
    obtain ⟨hvar, hbody⟩ := List.forall_mem_append.1 hown
    refine List.forall_mem_append.2 ⟨control.forall_mentioned h hb.1, ?_⟩
    exact forall_itemsMentioned (h.inLoop hvar) _ body hb.2 hbody hlinked
  | scopes, h, n, .leave .., _, _, _ | scopes, h, n, .next .., _, _, _ | scopes, h, n, .skip, _, _, _ => by
    simp [Stmt.renamed, Stmt.mentioned]

theorem forall_itemsMentioned : ∀ {scopes : Scopes} (_ : scopes.All P) (n : Nat) (items : List Item),
    itemsBroken scopes n items = [] → (∀ x ∈ itemsOwnNames (itemsRenamed scopes n items), P x) →
    (∀ x ∈ itemsLinkedNames (itemsRenamed scopes n items), P x) →
    ∀ x ∈ itemsMentioned (itemsRenamed scopes n items), P x
  | scopes, h, n, [], _, _, _ => by simp [itemsRenamed, itemsMentioned]
  | scopes, h, n, .stmt s :: rest, hb, hown, hlinked => by
    rw [itemsBroken, List.append_eq_nil_iff] at hb
    obtain ⟨hownS, hownR⟩ := List.forall_mem_append.1 hown
    obtain ⟨hlinkedS, hlinkedR⟩ := List.forall_mem_append.1 hlinked
    refine List.forall_mem_append.2 ⟨s.forall_mentioned h n hb.1 hownS hlinkedS, ?_⟩
    exact forall_itemsMentioned h _ rest hb.2 hownR hlinkedR
  | scopes, h, n, .var d :: rest, hb, hown, hlinked => by
    rw [itemsBroken, List.append_eq_nil_iff] at hb
    obtain ⟨hownD, hownR⟩ := List.forall_mem_append.1 hown
    obtain ⟨hlinkedD, hlinkedR⟩ := List.forall_mem_append.1 hlinked
    obtain ⟨hscopes, hd⟩ := d.forall_mentioned h n hb.1 hownD hlinkedD
    exact List.forall_mem_append.2 ⟨hd, forall_itemsMentioned hscopes _ rest hb.2 hownR hlinkedR⟩
  | scopes, h, n, .fn head body :: rest, hb, _, _ => by cases hb
end

theorem Scopes.All.withParams : ∀ {scopes : Scopes} (_ : scopes.All P) (n : Nat) (params : List Param),
    (∀ x ∈ paramNames (paramsRenamed n params), P x) → (scopes.withParams n params).All P
  | scopes, h, n, [], _ => h
  | scopes, h, n, p :: ps, hown => by
    obtain ⟨hp, hps⟩ := List.forall_mem_cons.1 hown
    exact Scopes.All.withParams (h.declare hp) (n + 1) ps hps

theorem Decl.forall_mentioned {earlier : List Decl} (h : (fileScope earlier).All P) (n : Nat) (d : Decl)
    (hb : d.broken earlier n = []) (hown : ∀ x ∈ (d.renamed earlier n).ownNames, P x)
    (hlinked : ∀ x ∈ (d.renamed earlier n).linkedNames, P x) :
    (fileScope (earlier ++ [d])).All P ∧ ∀ x ∈ (d.renamed earlier n).mentioned, P x := by
  have hname : P d.name := hlinked d.name (by cases d <;> simp [Decl.renamed, Decl.linkedNames, Decl.name])
  have hfile : (fileScope (earlier ++ [d])).All P := by
    rw [fileScope_snoc]
    exact h.declare hname
  refine ⟨hfile, ?_⟩
  cases d with
  | var d => exact Expr.forall_mentioned? hfile hb
  | fn head body =>
    rw [Decl.broken, List.append_eq_nil_iff, List.append_eq_nil_iff] at hb
    obtain ⟨hparams, hitems⟩ := List.forall_mem_append.1 hown
    cases body with
    | none => simp [Decl.renamed, Decl.mentioned]
    | some items =>
      have hscopes := Scopes.All.withParams hfile.enter n head.params hparams
      exact forall_itemsMentioned hscopes _ items hb.2.2 hitems (List.forall_mem_cons.1 hlinked).2

theorem forall_declsMentioned : ∀ {earlier : List Decl} (_ : (fileScope earlier).All P) (n : Nat) (ds : List Decl),
    declsBroken earlier n ds = [] → (∀ x ∈ (declsRenamed earlier n ds).flatMap Decl.ownNames, P x) →
    (∀ x ∈ (declsRenamed earlier n ds).flatMap Decl.linkedNames, P x) →
    ∀ x ∈ (declsRenamed earlier n ds).flatMap Decl.mentioned, P x
  | earlier, h, n, [], _, _, _ => by simp [declsRenamed]
  | earlier, h, n, d :: ds, hb, hown, hlinked => by
    rw [declsBroken, List.append_eq_nil_iff] at hb
    rw [declsRenamed, List.flatMap_cons, List.forall_mem_append] at hown hlinked ⊢
    obtain ⟨hfile, hd⟩ := d.forall_mentioned h n hb.1 hown.1 hlinked.1
    exact ⟨hd, forall_declsMentioned hfile _ ds hb.2 hown.2 hlinked.2⟩

end Mentioned

/-- What a resolved program mentions is declared in it. -/
theorem Program.forall_mentioned {p p' : Program} (h : p.resolve = .ok p') :
    ∀ x ∈ p'.mentioned, x ∈ p'.declaredNames := by
  rw [p.resolve_eq] at h
  have hb : p.broken = [] := by
    cases hb : p.broken with
    | nil => rfl
    | cons r rest => rw [hb] at h; cases h
  rw [hb] at h
  cases h
  have hfile : (fileScope []).All (· ∈ p.renamed.declaredNames) := by simp [fileScope, Scopes.All]
  refine forall_declsMentioned hfile 0 p.decls hb ?_ ?_
  · exact fun x hx => List.mem_append_left _ hx
  · exact fun x hx => List.mem_append_right _ hx

/-! ## One declaration for each variable -/

/-- The variables of a resolved program that are their own have pairwise different names. If no linked name has a point
in it, none of them is a linked name, and a mentioned name that is not linked is declared exactly once. -/
theorem Program.resolve_distinct {p p' : Program} (h : p.resolve = .ok p') :
    p'.ownNames.Nodup ∧ ((∀ x ∈ p.linkedNames, Dotless x) →
      (∀ x ∈ p'.ownNames, x ∉ p'.linkedNames) ∧
        ∀ x ∈ p'.mentioned, x ∉ p'.linkedNames → p'.declaredNames.count x = 1) := by
  have hown : p'.ownNames = numberFrom 0 p.ownNames := (p.resolve_yields.of_ok h).1
  have hlinked : p'.linkedNames = p.linkedNames := p.resolve_linked.of_ok h
  have hnodup : p'.ownNames.Nodup := hown ▸ nodup_numberFrom 0 p.ownNames
  refine ⟨hnodup, fun hdots => ⟨fun x hx hx' => ?_, fun x hx hx' => ?_⟩⟩
  · rw [hown] at hx
    obtain ⟨stem, _, n, _, rfl⟩ := mem_numberFrom hx
    exact (hdots _ (hlinked ▸ hx')).ne_numbered stem n rfl
  · have hmem : x ∈ p'.ownNames := (List.mem_append.1 (Program.forall_mentioned h x hx)).resolve_right hx'
    rw [Program.declaredNames, List.count_append, List.count_eq_one_of_mem hnodup hmem, List.count_eq_zero.2 hx']

/-- A parameter, a variable whose name looks like that of the resolved parameter, and a variable that hides the
parameter. -/
def lookalike (param plain hidden : String) : Program :=
  ⟨[.fn ⟨⟨"f", .nowhere⟩, [⟨⟨param, .nowhere⟩, .int⟩], .int, true, false⟩
    (some [.var ⟨⟨plain, .nowhere⟩, .int, some (.var {} param), none⟩,
      .stmt (.block [.var ⟨⟨hidden, .nowhere⟩, .int, some (.var {} hidden), none⟩]),
      .stmt (.ret (some (.binary {} (.strict (.arith .add)) (.var {} param) (.var {} plain))) .nowhere)])]⟩

theorem lookalike_distinct : (lookalike "x" "x.0" "x").resolve = .ok (lookalike "x.0" "x.0.1" "x.2") ∧
    ["x.0", "x.0.1", "x.2"].Nodup ∧ (lookalike "x.0" "x.0.1" "x.2").declaredNames.count "x.0" = 1 := by
  have h : (lookalike "x" "x.0" "x").resolve = .ok (lookalike "x.0" "x.0.1" "x.2") := rfl
  obtain ⟨hnodup, hdots⟩ := Program.resolve_distinct h
  exact ⟨h, hnodup, (hdots (by decide)).2 "x.0" (by decide) (by decide)⟩

end Khel
